import KineticText.Proofs.Compile.Outcome
import KineticText.Proofs.Registry.Offers

/-! A compile fails at an end that closes a codeword without an effect, and nowhere else. -/
namespace KineticText

variable {r : Registry} {t : Token} {c : Codeword}

/-- A custom directive whose spec closes a codeword with a spec of no effect. -/
def Token.Stranded (r : Registry) (t : Token) : Prop :=
  t.isDirective ∧ ¬ t.isNative ∧
    ∃ s, r.spec? t.codeword = some s ∧ s.role = .stop ∧
      ∃ d o, s.closes = some d ∧ r.spec? d = some o ∧ o.effect = none

/-- In a registry made by registrations, a start has its effect and an end closes something. -/
theorem Registry.action_eq_undefined_iff (h : r.Sound) : r.action c = .undefined ↔
    ∃ s, r.spec? c = some s ∧ s.role = .stop ∧
      ∃ d o, s.closes = some d ∧ r.spec? d = some o ∧ o.effect = none := by
  unfold action
  cases hs : r.spec? c with
  | none => simp
  | some s =>
    cases hr : s.role with
    | start =>
      obtain ⟨e, he⟩ := h.effect c s hs hr
      simp [hr, he]
    | stop =>
      obtain ⟨d, o, hd, ho⟩ := h.closes c s hs hr
      cases he : o.effect <;> simp [hr, hd, ho, he]

theorem Token.does_eq_undefined_iff (h : r.Sound) : t.does r = .undefined ↔ t.Stranded r := by
  unfold does Stranded
  by_cases hc : t.isDirective ∧ ¬ t.isNative
  · rw [if_pos hc, Registry.action_eq_undefined_iff h]
    simp [hc]
  · rw [if_neg hc]
    constructor
    · exact nofun
    · rintro ⟨hd, hn, -⟩
      exact absurd ⟨hd, hn⟩ hc

theorem exists_compile_iff {s : Settings} {source : Text} :
    (∃ x, compile s r source = .ok x) ↔ ¬ ∃ x, compile s r source = .error x := by
  cases compile s r source <;> simp

/-- Where every end closes a start, there is no directive to fail at. -/
theorem Token.not_stranded (h : r.Balanced) : ¬ t.Stranded r := by
  rintro ⟨-, -, s, hs, hr, d, o, hd, ho, he⟩
  obtain ⟨d', o', hd', ho', -, e, he'⟩ := h _ s hs hr
  obtain rfl : d = d' := Option.some.inj (hd.symm.trans hd')
  obtain rfl : o = o' := Option.some.inj (ho.symm.trans ho')
  simp [he] at he'

/-- Whatever has been registered, a compile fails exactly if the source has an end that closes a
codeword without an effect, and gives a result otherwise. So it always gives one with the built-in
directives, and wherever no registration has made an end of a start. -/
theorem compile_fails_iff (ss : List Spec) :
    (∀ s source,
      ((∃ x, compile s (.ofOffers ss) source = .error x) ↔
        ∃ t ∈ (tokenize (.ofOffers ss) source).1, t.Stranded (.ofOffers ss)) ∧
      ((∃ c, compile s (.ofOffers ss) source = .ok c) ↔
        ∀ t ∈ (tokenize (.ofOffers ss) source).1, ¬ t.Stranded (.ofOffers ss))) ∧
    (∀ s source, ∃ c, compile s .standard source = .ok c) ∧
    ((∀ hs p, hs ++ [p] <+: ss → ¬ (Registry.ofOffers hs).Demotes p) →
      ∀ s source, ∃ c, compile s (.ofOffers ss) source = .ok c) := by
  have hfails (s : Settings) (source : Text) :
      (∃ x, compile s (.ofOffers ss) source = .error x) ↔
        ∃ t ∈ (tokenize (.ofOffers ss) source).1, t.Stranded (.ofOffers ss) := by
    simp only [exists_compile_error_iff, Token.does_eq_undefined_iff (Registry.sound_ofOffers ss)]
  have hreturns (s : Settings) (source : Text) :
      (∃ c, compile s (.ofOffers ss) source = .ok c) ↔
        ∀ t ∈ (tokenize (.ofOffers ss) source).1, ¬ t.Stranded (.ofOffers ss) := by
    rw [exists_compile_iff, hfails]
    simp only [not_exists, not_and]
  refine ⟨fun s source => ⟨hfails s source, hreturns s source⟩, exists_compile_standard, ?_⟩
  intro h s source
  have hbalanced : (Registry.ofOffers ss).Balanced := by
    apply Registry.balanced_ofOffers
    intro hs p hp hu
    exact h hs p hp hu.toDemotes
  rw [hreturns]
  intro t _
  exact Token.not_stranded hbalanced

/-- The built-in end of the waves is cut off, and what it closes has been made an end. -/
theorem compile_fails_iff_halted :
    (∃ t ∈ (tokenize (.ofOffers [Registry.halt]) "a</wave".toList).1,
      t.Stranded (.ofOffers [Registry.halt])) ∧
    ∃ x, compile {} (.ofOffers [Registry.halt]) "a</wave".toList = .error x := by
  have hstranded : ∃ t ∈ (tokenize (.ofOffers [Registry.halt]) "a</wave".toList).1,
      t.Stranded (.ofOffers [Registry.halt]) :=
    ⟨⟨.directive, "/wave".toList, 1, .waveEnd, .unset, false⟩, by decide,
      by decide, by decide, _, rfl, rfl, .wave, Registry.halt, rfl, rfl, rfl⟩
  exact ⟨hstranded, (((compile_fails_iff [Registry.halt]).1 {} _).1).mpr hstranded⟩

end KineticText
