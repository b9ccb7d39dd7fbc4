import KineticText.Proofs.Timeline.Findings
import Mathlib.Data.Nat.Find

/-! The places of the directives that start and end regions: each opens a region, closes one, or is
left without a partner, and is never in two of these lists. -/
namespace KineticText

variable {r : Registry} {defaults : Params (Option Float)} {ts : List Token} {t : Token}
  {e e' : Effect} {i j n : Nat}

/-- The region is the one from token `i` to token `j`. -/
def Spans (r : Registry) (defaults : Params (Option Float)) (ts : List Token) (i j : Nat)
    (g : Region) : Prop :=
  ∃ e a, Paired r ts e i j ∧ ts[i]? = some a ∧
    g = ⟨some e, visibleBefore ts i, visibleBefore ts j, a.params.withDefaults defaults⟩

/-- What is said of token `i` if it has no partner. -/
inductive Mismatched (r : Registry) (ts : List Token) (i : Nat) : Diagnostic → Prop
  | reopened {a b : Token} {e : Effect} {k : Nat} : ts[i]? = some a → a.Starts r e →
      OpenedBy r ts e i k → ts[k]? = some b →
      Mismatched r ts i ((Fault.reopened a.content e b.offset).located a.offset)
  | neverOpened {a : Token} {e : Effect} : ts[i]? = some a → a.Ends r e → ¬ PendingAt r ts e i →
      Mismatched r ts i ((Fault.neverOpened a.content e).located a.offset)
  | neverClosed {a : Token} {e : Effect} : ts[i]? = some a → a.Starts r e →
      OpenedBy r ts e ts.length i →
      Mismatched r ts i ((Fault.neverClosed a.content e).located a.offset)

theorem Mismatched.kind {d : Diagnostic} (h : Mismatched r ts i d) : d.kind = .regionMismatch := by
  cases h <;> rfl

/-- The pair that token `n` closes. -/
def pairAt (r : Registry) (ts : List Token) (n : Nat) : Option (Nat × Nat) :=
  ts[n]?.bind fun t =>
    match t.does r with
    | .closes e => (opener? r ts e n).map (·, n)
    | _ => none

/-- Token `n`, if it is reported where it stands. -/
def strayAt (r : Registry) (ts : List Token) (n : Nat) : Option Nat :=
  ts[n]?.bind fun t =>
    match t.does r with
    | .opens e => (opener? r ts e n).map fun _ => n
    | .closes e => if opener? r ts e n = none then some n else none
    | _ => none

section At

variable (ht : ts[n]? = some t)
include ht

theorem pairAt_of_opens (hd : t.does r = .opens e) : pairAt r ts n = none := by
  simp [pairAt, ht, hd]

theorem pairAt_of_closes (hd : t.does r = .closes e) :
    pairAt r ts n = (opener? r ts e n).map (·, n) := by
  simp [pairAt, ht, hd]

theorem strayAt_of_opens (hd : t.does r = .opens e) :
    strayAt r ts n = (opener? r ts e n).map fun _ => n := by
  simp [strayAt, ht, hd]

theorem strayAt_of_closes (hd : t.does r = .closes e) :
    strayAt r ts n = if opener? r ts e n = none then some n else none := by
  simp [strayAt, ht, hd]

theorem at_of_neither (ho : ∀ e, t.does r ≠ .opens e) (hc : ∀ e, t.does r ≠ .closes e) :
    pairAt r ts n = none ∧ strayAt r ts n = none := by
  cases hd : t.does r with
  | opens e => exact absurd hd (ho e)
  | closes e => exact absurd hd (hc e)
  | pass => simp [pairAt, strayAt, ht, hd]
  | undefined => simp [pairAt, strayAt, ht, hd]

end At

theorem pairAt_eq_some_iff :
    pairAt r ts n = some (i, j) ↔ j = n ∧ ∃ e, Paired r ts e i j := by
  constructor
  · intro h
    obtain ⟨t, ht, h⟩ := Option.bind_eq_some_iff.mp h
    split at h
    · rename_i e hd
      obtain ⟨k, hk, he⟩ := Option.map_eq_some_iff.mp h
      cases he
      exact ⟨rfl, e, paired_iff.mpr
        ⟨opener?_eq_some_iff.mp hk, t, ht, Token.does_eq_closes_iff.mp hd⟩⟩
    · exact nomatch h
  · rintro ⟨rfl, e, h⟩
    obtain ⟨ho, t, ht, hs⟩ := paired_iff.mp h
    rw [pairAt_of_closes ht (Token.does_eq_closes_iff.mpr hs), opener?_eq_some_iff.mpr ho]
    rfl

theorem strayAt_eq_some_iff : strayAt r ts n = some i ↔ i = n ∧
    ((∃ e, StartsAt r ts e n ∧ PendingAt r ts e n) ∨
      ∃ e, EndsAt r ts e n ∧ ¬ PendingAt r ts e n) := by
  constructor
  · intro h
    obtain ⟨t, ht, h⟩ := Option.bind_eq_some_iff.mp h
    split at h
    · rename_i e hd
      obtain ⟨k, hk, rfl⟩ := Option.map_eq_some_iff.mp h
      exact ⟨rfl, .inl ⟨e, ⟨t, ht, Token.does_eq_opens_iff.mp hd⟩,
        (opener?_eq_some_iff.mp hk).pendingAt⟩⟩
    · rename_i e hd
      obtain ⟨hk, hi⟩ := Option.ite_none_right_eq_some.mp h
      cases hi
      exact ⟨rfl, .inr ⟨e, ⟨t, ht, Token.does_eq_closes_iff.mp hd⟩, opener?_eq_none_iff.mp hk⟩⟩
    · exact nomatch h
  · rintro ⟨rfl, ⟨e, ⟨t, ht, hs⟩, hp⟩ | ⟨e, ⟨t, ht, hs⟩, hp⟩⟩
    · obtain ⟨k, hk⟩ := Option.ne_none_iff_exists'.mp (mt opener?_eq_none_iff.mp (not_not_intro hp))
      rw [strayAt_of_opens ht (Token.does_eq_opens_iff.mpr hs), hk]
      rfl
    · rw [strayAt_of_closes ht (Token.does_eq_closes_iff.mpr hs), opener?_eq_none_iff.mpr hp]
      rfl

/-- The places of a finding and what the finding leaves in the timeline. -/
theorem rel_findingAt (defaults : Params (Option Float)) (hn : n < ts.length) :
    Option.Rel (fun p g => Spans r defaults ts p.1 p.2 g) (pairAt r ts n)
      ((findingAt r defaults ts n).bind Finding.region?) ∧
    Option.Rel (Mismatched r ts) (strayAt r ts n)
      ((findingAt r defaults ts n).bind Finding.diagnostic?) := by
  have ht : ts[n]? = some ts[n] := List.getElem?_eq_getElem hn
  have hf := found_findingAt (r := r) defaults ht
  generalize findingAt r defaults ts n = f at hf
  cases hf with
  | nothing hno hne =>
    have hopens (e : Effect) : ts[n].does r ≠ .opens e := by
      intro hd
      exact hno e (Token.does_eq_opens_iff.mp hd)
    have hcloses (e : Effect) : ts[n].does r ≠ .closes e := by
      intro hd
      exact hne e (Token.does_eq_closes_iff.mp hd)
    obtain ⟨hp, hs⟩ := at_of_neither ht hopens hcloses
    rw [hp, hs]
    exact ⟨.none, .none⟩
  | opened hst hpe =>
    have hd := Token.does_eq_opens_iff.mpr hst
    rw [pairAt_of_opens ht hd, strayAt_of_opens ht hd, opener?_eq_none_iff.mpr hpe]
    exact ⟨.none, .none⟩
  | reopened hst ho hu =>
    have hd := Token.does_eq_opens_iff.mpr hst
    rw [pairAt_of_opens ht hd, strayAt_of_opens ht hd, opener?_eq_some_iff.mpr ho]
    exact ⟨.none, .some (.reopened ht hst ho hu)⟩
  | @closed e i u hen ho hu =>
    have hd := Token.does_eq_closes_iff.mpr hen
    rw [pairAt_of_closes ht hd, strayAt_of_closes ht hd, opener?_eq_some_iff.mpr ho]
    exact ⟨.some ⟨_, _, paired_iff.mpr ⟨ho, _, ht, hen⟩, hu, rfl⟩, .none⟩
  | neverOpened hen hpe =>
    have hd := Token.does_eq_closes_iff.mpr hen
    rw [pairAt_of_closes ht hd, strayAt_of_closes ht hd, opener?_eq_none_iff.mpr hpe]
    exact ⟨.none, .some (.neverOpened ht hen hpe)⟩

/-! ### The accounts of all tokens -/

/-- The opening and the closing place of each region, in the order of the ends. -/
def pairsOf (r : Registry) (ts : List Token) : List (Nat × Nat) :=
  (List.range ts.length).filterMap (pairAt r ts)

/-- The places reported while the tokens are walked. -/
def straysOf (r : Registry) (ts : List Token) : List Nat :=
  (List.range ts.length).filterMap (strayAt r ts)

/-- The starts of the effects that wait for their ends when the tokens are over. -/
def leftOf (r : Registry) (ts : List Token) (es : List Effect) : List Nat :=
  es.filterMap fun e => opener? r ts e ts.length

theorem StartsAt.lt (h : StartsAt r ts e i) : i < ts.length := by
  obtain ⟨t, ht, -⟩ := h
  exact (List.getElem?_eq_some_iff.mp ht).1

theorem EndsAt.lt (h : EndsAt r ts e i) : i < ts.length := by
  obtain ⟨t, ht, -⟩ := h
  exact (List.getElem?_eq_some_iff.mp ht).1

theorem StartsAt.effect_eq (h : StartsAt r ts e i) (h' : StartsAt r ts e' i) : e = e' := by
  obtain ⟨t, ht, hs⟩ := h
  obtain ⟨u, hu, hs'⟩ := h'
  obtain rfl : t = u := Option.some.inj (ht.symm.trans hu)
  exact hs.effect_eq hs'

theorem EndsAt.effect_eq (h : EndsAt r ts e i) (h' : EndsAt r ts e' i) : e = e' := by
  obtain ⟨t, ht, hs⟩ := h
  obtain ⟨u, hu, hs'⟩ := h'
  obtain rfl : t = u := Option.some.inj (ht.symm.trans hu)
  exact hs.effect_eq hs'

theorem mem_pairsOf : (i, j) ∈ pairsOf r ts ↔ ∃ e, Paired r ts e i j := by
  simp only [pairsOf, List.mem_filterMap, List.mem_range, pairAt_eq_some_iff]
  constructor
  · rintro ⟨n, -, -, h⟩
    exact h
  · rintro ⟨e, h⟩
    exact ⟨j, h.stop.lt, rfl, e, h⟩

theorem mem_openers : i ∈ (pairsOf r ts).map Prod.fst ↔ ∃ e j, Paired r ts e i j := by
  simp only [List.mem_map, Prod.exists, mem_pairsOf]
  constructor
  · rintro ⟨i, j, ⟨e, h⟩, rfl⟩
    exact ⟨e, j, h⟩
  · rintro ⟨e, j, h⟩
    exact ⟨i, j, ⟨e, h⟩, rfl⟩

theorem mem_closers : j ∈ (pairsOf r ts).map Prod.snd ↔ ∃ e i, Paired r ts e i j := by
  simp only [List.mem_map, Prod.exists, mem_pairsOf]
  constructor
  · rintro ⟨i, j, ⟨e, h⟩, rfl⟩
    exact ⟨e, i, h⟩
  · rintro ⟨e, i, h⟩
    exact ⟨i, j, ⟨e, h⟩, rfl⟩

theorem mem_straysOf : i ∈ straysOf r ts ↔
    (∃ e, StartsAt r ts e i ∧ PendingAt r ts e i) ∨ ∃ e, EndsAt r ts e i ∧ ¬ PendingAt r ts e i := by
  simp only [straysOf, List.mem_filterMap, List.mem_range, strayAt_eq_some_iff]
  constructor
  · rintro ⟨n, -, rfl, h⟩
    exact h
  · rintro (⟨e, hs, hp⟩ | ⟨e, hs, hp⟩)
    · exact ⟨i, hs.lt, rfl, .inl ⟨e, hs, hp⟩⟩
    · exact ⟨i, hs.lt, rfl, .inr ⟨e, hs, hp⟩⟩

theorem mem_leftOf {es : List Effect} :
    i ∈ leftOf r ts es ↔ ∃ e ∈ es, OpenedBy r ts e ts.length i := by
  simp [leftOf, opener?_eq_some_iff]

/-- A start that nothing closes waits to the end, and one that waits to the end is not closed. -/
theorem OpenedBy.not_paired (h : OpenedBy r ts e ts.length i) : ¬ Paired r ts e i j := by
  intro hp
  exact h.kept j hp.lt hp.stop.lt hp.stop

theorem StartsAt.paired_or_openedBy (h : StartsAt r ts e i) (hp : ¬ PendingAt r ts e i) :
    (∃ j, Paired r ts e i j) ∨ OpenedBy r ts e ts.length i := by
  classical
  by_cases hj : ∃ j, i < j ∧ EndsAt r ts e j
  · left
    obtain ⟨hlt, hstop⟩ := Nat.find_spec hj
    refine ⟨Nat.find hj, h, hp, hstop, hlt, ?_⟩
    intro k hk hkj he
    exact Nat.find_min hj hkj ⟨hk, he⟩
  · right
    refine ⟨h.lt, h, hp, ?_⟩
    intro k hk _ he
    exact hj ⟨k, hk, he⟩

/-- What is found at different places stays apart if it names its place. -/
theorem nodup_map_filterMap {α : Type} {f : Nat → Option α} {place : α → Nat}
    (h : ∀ n a, f n = some a → place a = n) {ns : List Nat} (hns : ns.Nodup) :
    ((ns.filterMap f).map place).Nodup := by
  rw [List.map_filterMap]
  apply hns.filterMap
  intro n n' k hn hn'
  obtain ⟨a, ha, rfl⟩ := Option.map_eq_some_iff.mp hn
  obtain ⟨b, hb, hab⟩ := Option.map_eq_some_iff.mp hn'
  rw [← h n a ha, ← h n' b hb, hab]

theorem nodup_closers (r : Registry) (ts : List Token) : ((pairsOf r ts).map Prod.snd).Nodup :=
  nodup_map_filterMap (fun _ _ h => (pairAt_eq_some_iff.mp h).1) List.nodup_range

theorem nodup_openers (r : Registry) (ts : List Token) : ((pairsOf r ts).map Prod.fst).Nodup := by
  apply List.Nodup.map_on ?_ (List.Nodup.of_map _ (nodup_closers r ts))
  rintro ⟨i, j⟩ hp ⟨i', k⟩ hq rfl
  obtain ⟨e, h⟩ := mem_pairsOf.mp hp
  obtain ⟨e', h'⟩ := mem_pairsOf.mp hq
  obtain rfl := h.start.effect_eq h'.start
  rw [h.right_eq h']

theorem nodup_straysOf (r : Registry) (ts : List Token) : (straysOf r ts).Nodup := by
  have h := nodup_map_filterMap (f := strayAt r ts)
    (fun _ _ h => (strayAt_eq_some_iff.mp h).1) (List.nodup_range (n := ts.length))
  rwa [List.map_id'] at h

theorem nodup_leftOf {es : List Effect} (h : es.Nodup) : (leftOf r ts es).Nodup := by
  apply List.Nodup.filterMap ?_ h
  intro e e' i hi hi'
  exact (opener?_eq_some_iff.mp hi).start.effect_eq (opener?_eq_some_iff.mp hi').start

/-- A list of places that names each involved token once. -/
theorem nodup_places {es : List Effect} (hes : es.Nodup) :
    ((pairsOf r ts).map Prod.fst ++ (pairsOf r ts).map Prod.snd ++
      (straysOf r ts ++ leftOf r ts es)).Nodup := by
  refine List.nodup_append.mpr ⟨List.nodup_append.mpr ⟨nodup_openers r ts, nodup_closers r ts, ?_⟩,
    List.nodup_append.mpr ⟨nodup_straysOf r ts, nodup_leftOf hes, ?_⟩, ?_⟩
  · rintro i hi j hj rfl
    obtain ⟨e, j, h⟩ := mem_openers.mp hi
    obtain ⟨e', k, h'⟩ := mem_closers.mp hj
    exact h.start.not_endsAt h'.stop
  · rintro i hi j hj rfl
    obtain ⟨e, -, ho⟩ := mem_leftOf.mp hj
    rcases mem_straysOf.mp hi with ⟨e', hs, hp⟩ | ⟨e', hs, -⟩
    · obtain rfl := hs.effect_eq ho.start
      exact ho.fresh hp
    · exact ho.start.not_endsAt hs
  · rintro i hi j hj rfl
    rcases List.mem_append.mp hi with hi | hi
    · obtain ⟨e, j, h⟩ := mem_openers.mp hi
      rcases List.mem_append.mp hj with hj | hj
      · rcases mem_straysOf.mp hj with ⟨e', hs, hp⟩ | ⟨e', hs, -⟩
        · obtain rfl := hs.effect_eq h.start
          exact h.fresh hp
        · exact h.start.not_endsAt hs
      · obtain ⟨e', -, ho⟩ := mem_leftOf.mp hj
        obtain rfl := ho.start.effect_eq h.start
        exact ho.not_paired h
    · obtain ⟨e, k, h⟩ := mem_closers.mp hi
      rcases List.mem_append.mp hj with hj | hj
      · rcases mem_straysOf.mp hj with ⟨e', hs, -⟩ | ⟨e', hs, hp⟩
        · exact hs.not_endsAt h.stop
        · obtain rfl := hs.effect_eq h.stop
          exact hp (paired_iff.mp h).1.pendingAt
      · obtain ⟨e', -, ho⟩ := mem_leftOf.mp hj
        exact ho.start.not_endsAt h.stop

/-- Every start and every end is among the places, if all effects left open are. -/
theorem mem_places {es : List Effect} (hes : ∀ e i, OpenedBy r ts e ts.length i → e ∈ es) :
    i ∈ (pairsOf r ts).map Prod.fst ++ (pairsOf r ts).map Prod.snd ++
      (straysOf r ts ++ leftOf r ts es) ↔ ∃ e, StartsAt r ts e i ∨ EndsAt r ts e i := by
  simp only [List.mem_append, mem_openers, mem_closers, mem_straysOf, mem_leftOf]
  constructor
  · rintro ((⟨e, j, h⟩ | ⟨e, k, h⟩) | (⟨e, hs, -⟩ | ⟨e, hs, -⟩) | ⟨e, -, h⟩)
    · exact ⟨e, .inl h.start⟩
    · exact ⟨e, .inr h.stop⟩
    · exact ⟨e, .inl hs⟩
    · exact ⟨e, .inr hs⟩
    · exact ⟨e, .inl h.start⟩
  · rintro ⟨e, hs | hs⟩
    · by_cases hp : PendingAt r ts e i
      · exact .inr (.inl (.inl ⟨e, hs, hp⟩))
      · rcases hs.paired_or_openedBy hp with ⟨j, h⟩ | h
        · exact .inl (.inl ⟨e, j, h⟩)
        · exact .inr (.inr ⟨e, hes e i h, h⟩)
    · rcases opener?_cases r ts e i with ⟨k, -, ho⟩ | ⟨-, hp⟩
      · exact .inl (.inr ⟨e, k, paired_iff.mpr ⟨ho, hs⟩⟩)
      · exact .inr (.inl (.inr ⟨e, hs, hp⟩))

end KineticText
