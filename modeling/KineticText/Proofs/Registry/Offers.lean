import KineticText.Proofs.Registry.Registering
import KineticText.Proofs.Timeline.Partners

/-! What registrations keep true of a registry, and when its ends lose the starts they close. -/
namespace KineticText

namespace Registry

variable {r : Registry} {s : Spec} {c : Codeword} {ss : List Spec}

/-! ### One registration -/

/-- There is nothing against registering the spec. -/
structure Fits (r : Registry) (s : Spec) : Prop where
  effect : s.role = .start → ∃ e, s.effect = some e
  closes : s.role = .stop → ∃ d o, s.closes = some d ∧ r.spec? d = some o ∧ o.role = .start
  free : ∀ n ∈ s.names, r.lookup n = none

theorem closesStart_iff : r.closesStart s ↔
    ∃ d o, s.closes = some d ∧ r.spec? d = some o ∧ o.role = .start := by
  simp [closesStart, Option.bind_eq_some_iff]

theorem rejection?_eq_none_iff : r.rejection? s = none ↔ r.Fits s := by
  have hnames : (s.names.find? fun n => (r.lookup n).isSome) = none ↔
      ∀ n ∈ s.names, r.lookup n = none := by simp
  rw [rejection?]
  by_cases heffect : s.role = .start ∧ s.effect = none
  · rw [if_pos heffect]
    constructor
    · exact fun h => absurd h (Option.some_ne_none _)
    · intro h
      obtain ⟨e, he⟩ := h.effect heffect.1
      simp [heffect.2] at he
  · have hstart : s.role = .start → ∃ e, s.effect = some e := by
      intro hr
      exact Option.ne_none_iff_exists'.mp fun he => heffect ⟨hr, he⟩
    rw [if_neg heffect]
    by_cases hcloses : s.role = .stop ∧ ¬ r.closesStart s
    · rw [if_pos hcloses]
      constructor
      · exact fun h => absurd h (Option.some_ne_none _)
      · intro h
        exact absurd (closesStart_iff.mpr (h.closes hcloses.1)) hcloses.2
    · have hstop : s.role = .stop → r.closesStart s := by
        intro hr
        by_contra hc
        exact hcloses ⟨hr, hc⟩
      rw [if_neg hcloses, Option.map_eq_none_iff, hnames]
      constructor
      · intro h
        exact ⟨hstart, fun hr => closesStart_iff.mp (hstop hr), h⟩
      · exact Fits.free

instance : Decidable (r.Fits s) := decidable_of_iff _ rejection?_eq_none_iff

theorem register_of_fits (h : r.Fits s) : r.register s = (.ok (), r.insert s) := by
  rw [register_eq, rejection?_eq_none_iff.mpr h, Option.elim_none]

theorem register_of_not_fits (h : ¬ r.Fits s) : ∃ x, r.register s = (.error x, r) := by
  obtain ⟨x, hx⟩ := Option.ne_none_iff_exists'.mp (mt rejection?_eq_none_iff.mp h)
  exact ⟨x, by rw [register_eq, hx, Option.elim_some]⟩

/-- The spec inserted describes its codeword from then on, and no other one. -/
theorem spec?_insert (r : Registry) (s : Spec) (c : Codeword) :
    (r.insert s).spec? c = if s.codeword = c then some s else r.spec? c := by
  by_cases h : s.codeword = c <;> simp [spec?, insert, h]

theorem spec?_insert_cases {p : Spec} (h : (r.insert s).spec? c = some p) :
    (s.codeword = c ∧ p = s) ∨ r.spec? c = some p := by
  rw [spec?_insert] at h
  by_cases hc : s.codeword = c
  · rw [if_pos hc, Option.some.injEq] at h
    exact .inl ⟨hc, h.symm⟩
  · rw [if_neg hc] at h
    exact .inr h

/-! ### Registrations one after the other -/

/-- The registry after attempts to register specs, from a fresh registry on. -/
def ofOffers (ss : List Spec) : Registry := ss.foldl offer standard

theorem offer_of_fits (h : r.Fits s) : r.offer s = r.insert s := by
  rw [offer, register_of_fits h]

theorem offer_of_not_fits (h : ¬ r.Fits s) : r.offer s = r := by
  obtain ⟨x, hx⟩ := register_of_not_fits h
  rw [offer, hx]

theorem ofOffers_nil : ofOffers [] = standard := List.foldl_nil

theorem ofOffers_snoc (ss : List Spec) (s : Spec) :
    ofOffers (ss ++ [s]) = (ofOffers ss).offer s := by
  rw [ofOffers, List.foldl_append]
  rfl

/-- What no registration undoes. -/
structure Sound (r : Registry) : Prop where
  effect : ∀ c s, r.spec? c = some s → s.role = .start → ∃ e, s.effect = some e
  closes : ∀ c s, r.spec? c = some s → s.role = .stop →
    ∃ d o, s.closes = some d ∧ r.spec? d = some o

/-- Every end closes a codeword that starts regions of an effect. -/
def Balanced (r : Registry) : Prop := ∀ c s, r.spec? c = some s → s.role = .stop →
  ∃ d o, s.closes = some d ∧ r.spec? d = some o ∧ o.role = .start ∧ ∃ e, o.effect = some e

/-- The spec is registered and makes an end of a codeword that was a start. -/
structure Demotes (r : Registry) (s : Spec) : Prop where
  fits : r.Fits s
  stop : s.role = .stop
  start : ∃ o, r.spec? s.codeword = some o ∧ o.role = .start

/-- What is more, there is then an end that closes this codeword. -/
structure Unbalances (r : Registry) (s : Spec) : Prop extends Demotes r s where
  closed : ∃ c o, (r.insert s).spec? c = some o ∧ o.role = .stop ∧ o.closes = some s.codeword

theorem sound_standard : standard.Sound := by
  constructor
  · intro c s h hr
    cases c <;> cases h
    · exact ⟨.wave, rfl⟩
    · exact nomatch hr
    · exact ⟨.jitter, rfl⟩
    · exact nomatch hr
  · intro c s h hr
    cases c <;> cases h
    · exact nomatch hr
    · exact ⟨.wave, _, rfl, rfl⟩
    · exact nomatch hr
    · exact ⟨.jitter, _, rfl, rfl⟩

theorem balanced_standard : standard.Balanced := by
  intro c s h hr
  cases c <;> cases h
  · exact nomatch hr
  · exact ⟨.wave, _, rfl, rfl, rfl, _, rfl⟩
  · exact nomatch hr
  · exact ⟨.jitter, _, rfl, rfl, rfl, _, rfl⟩

theorem Sound.insert (h : r.Sound) (hf : r.Fits s) : (r.insert s).Sound := by
  -- A codeword that has a spec has one after the registration too.
  have hkept : ∀ d o, r.spec? d = some o → ∃ o', (r.insert s).spec? d = some o' := by
    intro d o ho
    rw [spec?_insert]
    by_cases hd : s.codeword = d
    · exact ⟨s, if_pos hd⟩
    · exact ⟨o, by rw [if_neg hd, ho]⟩
  constructor
  · intro c p hp hr
    rcases spec?_insert_cases hp with ⟨-, rfl⟩ | hp
    · exact hf.effect hr
    · exact h.effect c p hp hr
  · intro c p hp hr
    rcases spec?_insert_cases hp with ⟨-, rfl⟩ | hp
    · obtain ⟨d, o, hd, ho, -⟩ := hf.closes hr
      exact ⟨d, _, hd, (hkept d o ho).choose_spec⟩
    · obtain ⟨d, o, hd, ho⟩ := h.closes c p hp hr
      exact ⟨d, _, hd, (hkept d o ho).choose_spec⟩

theorem Sound.offer (h : r.Sound) (s : Spec) : (r.offer s).Sound := by
  by_cases hf : r.Fits s
  · rw [offer_of_fits hf]
    exact h.insert hf
  · rw [offer_of_not_fits hf]
    exact h

theorem sound_ofOffers (ss : List Spec) : (ofOffers ss).Sound := by
  induction ss using List.reverseRecOn with
  | nil =>
    rw [ofOffers_nil]
    exact sound_standard
  | append_singleton ss s ih =>
    rw [ofOffers_snoc]
    exact ih.offer s

theorem Balanced.insert (h : r.Balanced) (hr : r.Sound) (hf : r.Fits s)
    (hs : ¬ r.Unbalances s) : (r.insert s).Balanced := by
  intro c p hp hstop
  obtain ⟨d, o, hd, ho, hstart⟩ :
      ∃ d o, p.closes = some d ∧ r.spec? d = some o ∧ o.role = .start := by
    rcases spec?_insert_cases hp with ⟨-, rfl⟩ | hp
    · exact hf.closes hstop
    · obtain ⟨d, o, hd, ho, hstart, -⟩ := h c p hp hstop
      exact ⟨d, o, hd, ho, hstart⟩
  by_cases hsd : s.codeword = d
  · subst hsd
    cases hrole : s.role with
    | start => exact ⟨_, s, hd, by rw [spec?_insert, if_pos rfl], hrole, hf.effect hrole⟩
    | stop => exact absurd ⟨⟨hf, hrole, o, ho, hstart⟩, c, p, hp, hstop, hd⟩ hs
  · exact ⟨d, o, hd, by rw [spec?_insert, if_neg hsd, ho], hstart, hr.effect d o ho hstart⟩

theorem Unbalances.not_balanced (h : r.Unbalances s) : ¬ (r.offer s).Balanced := by
  intro hb
  rw [offer_of_fits h.fits] at hb
  obtain ⟨c, p, hp, hstop, hd⟩ := h.closed
  obtain ⟨d, o, hd', ho, hstart, -⟩ := hb c p hp hstop
  obtain rfl : s.codeword = d := Option.some.inj (hd.symm.trans hd')
  rw [spec?_insert, if_pos rfl, Option.some.injEq] at ho
  subst ho
  simp [h.stop] at hstart

/-- The ends keep their starts as long as no spec on the way unbalances the registry. -/
theorem balanced_ofOffers (h : ∀ hs s, hs ++ [s] <+: ss → ¬ (ofOffers hs).Unbalances s) :
    (ofOffers ss).Balanced := by
  induction ss using List.reverseRecOn with
  | nil =>
    rw [ofOffers_nil]
    exact balanced_standard
  | append_singleton ss s ih =>
    have hss := ih fun hs p hp => h hs p (hp.trans (List.prefix_append ss [s]))
    rw [ofOffers_snoc]
    by_cases hf : (ofOffers ss).Fits s
    · rw [offer_of_fits hf]
      exact hss.insert (sound_ofOffers ss) hf (h ss s (List.prefix_refl _))
    · rw [offer_of_not_fits hf]
      exact hss

/-- An end always closes a registered codeword, and every start has its effect. Along a sequence of
registrations all ends close starts exactly if none of them makes an end of a start that an end
closes. -/
theorem balanced_ofOffers_iff (ss : List Spec) : (ofOffers ss).Sound ∧
    ((∀ hs, hs <+: ss → (ofOffers hs).Balanced) ↔
      ∀ hs s, hs ++ [s] <+: ss → ¬ (ofOffers hs).Unbalances s) := by
  refine ⟨sound_ofOffers ss, ?_, ?_⟩
  · intro h hs s hp hu
    apply hu.not_balanced
    rw [← ofOffers_snoc]
    exact h _ hp
  · intro h hs hp
    apply balanced_ofOffers
    intro hs' s hp'
    exact h hs' s (hp'.trans hp)

/-- An end that takes over the codeword of the wave's start, and closes it. -/
def halt : Spec where
  keyword := "halt".toList
  codeword := .wave
  role := .stop
  closes := some .wave

/-- The end is accepted, and neither it nor the built-in end of the waves closes a start. -/
theorem not_balanced_halt : standard.Fits halt ∧ ¬ (ofOffers [halt]).Balanced := by
  refine ⟨by decide, fun h => ?_⟩
  obtain ⟨d, o, hd, ho, hstart, -⟩ := h .waveEnd _ rfl rfl
  obtain rfl : d = .wave := Option.some.inj hd.symm
  obtain rfl : o = halt := Option.some.inj ho.symm
  exact nomatch hstart

end Registry
end KineticText
