import KineticText.Proofs.Registry.Names
import KineticText.Proofs.Registry.Offers

/-! A registration enters a spec under all its names or changes nothing, and no name is ever given
to another codeword. -/
namespace KineticText.Registry

variable {r : Registry} {s : Spec} {w : Text} {c : Codeword} {ss : List Spec}

/-- What speaks against registering a spec. -/
inductive Objection (r : Registry) (s : Spec) : Prop where
  | noEffect : s.role = .start → s.effect = none → Objection r s
  | closesNothing : s.role = .stop → s.closes = none → Objection r s
  | closesUnknown {d : Codeword} : s.role = .stop → s.closes = some d → r.spec? d = none →
      Objection r s
  | closesNoStart {d : Codeword} {o : Spec} : s.role = .stop → s.closes = some d →
      r.spec? d = some o → o.role ≠ .start → Objection r s
  | taken {n : Text} : n ∈ s.names → n ∈ r.names → Objection r s

/-- What the registry `r'` tells is what `r` tells. -/
structure Unchanged (r r' : Registry) : Prop where
  names : r'.names = r.names
  lookup : ∀ n, r'.lookup n = r.lookup n
  spec : ∀ c, r'.spec? c = r.spec? c

/-- The registry `r'` tells of the spec `s` what it should, and of all else what `r` does. -/
structure Entered (r : Registry) (s : Spec) (r' : Registry) : Prop where
  kept : ∀ n ∈ r.names, r'.lookup n = r.lookup n
  given : ∀ n ∈ s.names, r'.lookup n = some s.codeword
  unknown : ∀ n, n ∉ r.names → n ∉ s.names → r'.lookup n = none
  described : r'.spec? s.codeword = some s
  others : ∀ c, c ≠ s.codeword → r'.spec? c = r.spec? c
  names : ∃ new, r'.names = r.names ++ new ∧ Firsts s.names new

/-- No name is listed twice, and each is looked up to a codeword that has a spec of its own. -/
structure Indexed (r : Registry) : Prop where
  nodup : r.names.Nodup
  described : ∀ n ∈ r.names, ∃ c s, r.lookup n = some c ∧ r.spec? c = some s ∧ s.codeword = c

/-! ### One registration -/

theorem objection_iff : Objection r s ↔ ¬ r.Fits s := by
  constructor
  · intro h hf
    cases h with
    | noEffect hr he =>
      obtain ⟨e, he'⟩ := hf.effect hr
      simp [he] at he'
    | closesNothing hr hc =>
      obtain ⟨d, o, hd, -⟩ := hf.closes hr
      simp [hc] at hd
    | closesUnknown hr hc hn =>
      obtain ⟨d, o, hd, ho, -⟩ := hf.closes hr
      obtain rfl := Option.some.inj (hc.symm.trans hd)
      simp [hn] at ho
    | closesNoStart hr hc ho hns =>
      obtain ⟨d, o, hd, ho', hs⟩ := hf.closes hr
      obtain rfl := Option.some.inj (hc.symm.trans hd)
      obtain rfl := Option.some.inj (ho.symm.trans ho')
      exact hns hs
    | taken hn hr => exact lookup_eq_none_iff.mp (hf.free _ hn) hr
  · intro hf
    by_contra hno
    refine hf ⟨?_, ?_, ?_⟩
    · intro hr
      exact Option.ne_none_iff_exists'.mp fun he => hno (.noEffect hr he)
    · intro hr
      obtain ⟨d, hd⟩ := Option.ne_none_iff_exists'.mp fun hc => hno (.closesNothing hr hc)
      obtain ⟨o, ho⟩ := Option.ne_none_iff_exists'.mp fun hn => hno (.closesUnknown hr hd hn)
      exact ⟨d, o, hd, ho, not_not.mp fun hs => hno (.closesNoStart hr hd ho hs)⟩
    · intro n hn
      exact lookup_eq_none_iff.mpr fun hr => hno (.taken hn hr)

theorem register_eq_error_iff : (∃ x, (r.register s).1 = .error x) ↔ Objection r s := by
  rw [objection_iff]
  constructor
  · rintro ⟨x, hx⟩ hf
    rw [register_of_fits hf] at hx
    exact nomatch hx
  · intro hf
    obtain ⟨x, hx⟩ := register_of_not_fits hf
    exact ⟨x, by rw [hx]⟩

theorem unchanged_of_error {x : Rejection} (h : (r.register s).1 = .error x) :
    Unchanged r (r.register s).2 := by
  obtain ⟨y, hy⟩ := register_of_not_fits (objection_iff.mp (register_eq_error_iff.mp ⟨x, h⟩))
  rw [hy]
  exact ⟨rfl, fun _ => rfl, fun _ => rfl⟩

theorem fits_of_ok (h : (r.register s).1 = .ok ()) : r.Fits s := by
  by_contra hf
  obtain ⟨x, hx⟩ := register_of_not_fits hf
  rw [hx] at h
  exact nomatch h

theorem entered_insert (hf : r.Fits s) : Entered r s (r.insert s) where
  kept _ hn := lookup_insert_of_mem s hn
  given n hn := by
    rw [lookup_insert_of_notMem s (lookup_eq_none_iff.mp (hf.free n hn)), if_pos hn]
  unknown n hr hs := by
    rw [lookup_insert_of_notMem s hr, if_neg hs]
  described := by
    rw [spec?_insert, if_pos rfl]
  others c hc := by
    rw [spec?_insert, if_neg hc.symm]
  names := ⟨_, names_insert r s, firsts_eraseDups s.names⟩

theorem entered_of_ok (h : (r.register s).1 = .ok ()) : Entered r s (r.register s).2 := by
  have hf := fits_of_ok h
  rw [register_of_fits hf]
  exact entered_insert hf

/-! ### What is said against a spec -/

/-- The rejection tells what speaks against the spec, under the name that it is about. -/
inductive Explains (r : Registry) (s : Spec) : Rejection → Prop where
  | missingEffect : s.role = .start → s.effect = none → Explains r s (.missingEffect s.keyword)
  | closesNoStart : s.role = .stop → (¬ ∃ d o, s.closes = some d ∧ r.spec? d = some o ∧
      o.role = .start) → Explains r s (.closesNoStart s.keyword)
  | nameTaken {n : Text} : n ∈ s.names → n ∈ r.names → Explains r s (.nameTaken n)

theorem explains_of_error {x : Rejection} (h : (r.register s).1 = .error x) : Explains r s x := by
  have hx : r.rejection? s = some x := by
    rw [register_eq] at h
    cases hr : r.rejection? s <;> simp_all
  rw [rejection?] at hx
  split at hx
  · rename_i heffect
    obtain rfl := Option.some.inj hx
    exact .missingEffect heffect.1 heffect.2
  · split at hx
    · rename_i hcloses
      obtain rfl := Option.some.inj hx
      exact .closesNoStart hcloses.1 (mt closesStart_iff.mpr hcloses.2)
    · obtain ⟨n, hn, rfl⟩ := Option.map_eq_some_iff.mp hx
      have htaken := List.find?_some hn
      exact .nameTaken (List.mem_of_find?_eq_some hn) (isSome_lookup_iff.mp htaken)

namespace Rejection

/-- The letter that a message begins with. -/
def initial : Rejection → Char
  | missingEffect _ => 'S'
  | closesNoStart _ => 'E'
  | nameTaken _ => 'C'

theorem head?_message (x : Rejection) : x.message.head? = some x.initial := by
  cases x <;> rfl

/-- From a message one can tell what was rejected, and why. -/
theorem message_injective : Function.Injective message := by
  intro x y h
  have hinitial : some x.initial = some y.initial := by
    rw [← head?_message, ← head?_message, h]
  cases x <;> cases y <;> simp only [initial, Option.some.injEq, Char.reduceEq] at hinitial
  case missingEffect.missingEffect k k' =>
    change _ ++ k ++ _ = _ ++ k' ++ _ at h
    rw [List.append_cancel_left (List.append_cancel_right h)]
  case closesNoStart.closesNoStart k k' =>
    change _ ++ k ++ _ = _ ++ k' ++ _ at h
    rw [List.append_cancel_left (List.append_cancel_right h)]
  case nameTaken.nameTaken n n' =>
    change _ ++ n ++ _ = _ ++ n' ++ _ at h
    rw [List.append_cancel_left (List.append_cancel_right h)]

end Rejection

/-! ### Registrations one after the other -/

theorem indexed_standard : standard.Indexed where
  nodup := by decide
  described := by
    intro n hn
    have hall : standard.names.all fun n =>
        (standard.lookup n).any fun c => (standard.spec? c).any (·.codeword = c) := by decide
    have hn := List.all_eq_true.mp hall n hn
    simpa [Option.any_eq_true] using hn

theorem Indexed.insert (h : r.Indexed) (hf : r.Fits s) : (r.insert s).Indexed := by
  have he := entered_insert hf
  obtain ⟨new, hnames, hnew⟩ := he.names
  constructor
  · rw [hnames, List.nodup_append]
    refine ⟨h.nodup, hnew.nodup, ?_⟩
    rintro n hn m hm rfl
    exact lookup_eq_none_iff.mp (hf.free n ((hnew.mem n).mp hm)) hn
  · intro n hn
    rw [hnames] at hn
    rcases List.mem_append.mp hn with hn | hn
    · obtain ⟨c, p, hc, hp, hpc⟩ := h.described n hn
      rw [he.kept n hn]
      by_cases hs : c = s.codeword
      · exact ⟨c, s, hc, hs ▸ he.described, hs.symm⟩
      · exact ⟨c, p, hc, (he.others c hs).trans hp, hpc⟩
    · exact ⟨_, s, he.given n ((hnew.mem n).mp hn), he.described, rfl⟩

theorem indexed_ofOffers (ss : List Spec) : (ofOffers ss).Indexed := by
  induction ss using List.reverseRecOn with
  | nil =>
    rw [ofOffers_nil]
    exact indexed_standard
  | append_singleton ss s ih =>
    rw [ofOffers_snoc]
    by_cases hf : (ofOffers ss).Fits s
    · rw [offer_of_fits hf]
      exact ih.insert hf
    · rw [offer_of_not_fits hf]
      exact ih

theorem lookup_offer (h : r.lookup w = some c) (s : Spec) : (r.offer s).lookup w = some c := by
  by_cases hf : r.Fits s
  · have hw : w ∈ r.names := isSome_lookup_iff.mp (by simp [h])
    rw [offer_of_fits hf, lookup_insert_of_mem s hw, h]
  · rw [offer_of_not_fits hf, h]

theorem lookup_ofOffers_append (h : (ofOffers ss).lookup w = some c) (ts : List Spec) :
    (ofOffers (ss ++ ts)).lookup w = some c := by
  induction ts using List.reverseRecOn with
  | nil => simpa using h
  | append_singleton ts t ih =>
    rw [← List.append_assoc, ofOffers_snoc]
    exact lookup_offer ih t

/-- After any registrations, a spec is either registered under all its names or rejected for a
reason, and then the registry it leaves gives all answers as before. No name is listed twice, each
has a codeword with a spec, and it keeps this codeword whatever is registered later. -/
theorem ofOffers_all_or_nothing (ss : List Spec) :
    (∀ s x r', (ofOffers ss).register s = (x, r') →
      ((∃ y, x = .error y) ↔ Objection (ofOffers ss) s) ∧
      (∀ y, x = .error y → Unchanged (ofOffers ss) r') ∧
      (x = .ok () → Entered (ofOffers ss) s r') ∧
      ofOffers (ss ++ [s]) = r') ∧
    (ofOffers ss).Indexed ∧
    ∀ w c, (ofOffers ss).lookup w = some c → ∀ ts, (ofOffers (ss ++ ts)).lookup w = some c := by
  refine ⟨?_, indexed_ofOffers ss, fun w c h ts => lookup_ofOffers_append h ts⟩
  intro s x r' h
  obtain ⟨rfl, rfl⟩ := Prod.mk.inj h
  exact ⟨register_eq_error_iff, fun y => unchanged_of_error, entered_of_ok, ofOffers_snoc ss s⟩

/-- A start of jitter with an alias that is written twice and one that is the keyword. -/
def tremble : Spec where
  keyword := "tremble".toList
  codeword := .jitter
  role := .start
  effect := some .jitter
  aliases := ["shake".toList, "tremble".toList, "shake".toList]

/-- An end that would take a name of `tremble`. -/
def settle : Spec where
  keyword := "settle".toList
  codeword := .jitterEnd
  role := .stop
  closes := some .jitter
  aliases := ["shake".toList]

theorem ofOffers_all_or_nothing_tremble :
    Entered standard tremble (ofOffers [tremble]) ∧
    (ofOffers [tremble]).names = standard.names ++ ["tremble".toList, "shake".toList] ∧
    Unchanged (ofOffers [tremble]) (ofOffers [tremble, settle]) ∧
    (ofOffers [tremble, settle, halt]).lookup "shake".toList = some .jitter := by
  obtain ⟨hfirst, -, -⟩ := ofOffers_all_or_nothing []
  obtain ⟨hsecond, -, hkept⟩ := ofOffers_all_or_nothing [tremble]
  obtain ⟨-, -, hentered, htremble⟩ := hfirst tremble _ _ (register_of_fits (by decide))
  obtain ⟨x, hx⟩ := register_of_not_fits (r := ofOffers [tremble]) (s := settle) (by decide)
  obtain ⟨-, hunchanged, -, hsettle⟩ := hsecond settle _ _ hx
  rw [ofOffers_nil] at hentered htremble
  rw [List.nil_append] at htremble
  rw [List.singleton_append] at hsettle
  refine ⟨?_, by decide, ?_, hkept _ _ (by decide) [settle, halt]⟩
  · rw [htremble]
    exact hentered rfl
  · rw [hsettle]
    exact hunchanged x rfl

end KineticText.Registry
