import KineticText.Proofs.Timeline.Accounting

/-! Nothing is reported exactly if the starts and the ends of every effect take turns. -/
namespace KineticText

variable {r : Registry} {defaults : Params (Option Float)} {ts : List Token} {t : Token}
  {e : Effect} {n : Nat} {roles : List Role}

/-- Starts and ends take turns, with a start at first and an end at last. -/
inductive Alternates : List Role → Prop
  | nil : Alternates []
  | pair {roles : List Role} : Alternates roles → Alternates (.start :: .stop :: roles)

theorem not_alternates_stop : ¬ Alternates (.stop :: roles) := nofun

theorem not_alternates_start_start : ¬ Alternates (.start :: .start :: roles) := nofun

theorem not_alternates_start : ¬ Alternates [.start] := nofun

theorem alternates_pair_iff : Alternates (.start :: .stop :: roles) ↔ Alternates roles := by
  constructor
  · rintro (_ | h)
    exact h
  · exact .pair

/-- What the token does to the regions of the effect. -/
def Token.role? (r : Registry) (e : Effect) (t : Token) : Option Role :=
  if t.Starts r e then some .start else if t.Ends r e then some .stop else none

/-- From token `n` on, no directive of the effect is without a partner. -/
structure Settled (r : Registry) (ts : List Token) (e : Effect) (n : Nat) : Prop where
  fresh : ∀ m, n ≤ m → StartsAt r ts e m → ¬ PendingAt r ts e m
  awaited : ∀ m, n ≤ m → EndsAt r ts e m → PendingAt r ts e m
  closed : ¬ PendingAt r ts e ts.length

theorem settled_succ_iff : Settled r ts e n ↔ (StartsAt r ts e n → ¬ PendingAt r ts e n) ∧
    (EndsAt r ts e n → PendingAt r ts e n) ∧ Settled r ts e (n + 1) := by
  constructor
  · intro h
    exact ⟨h.fresh n (Nat.le_refl n), h.awaited n (Nat.le_refl n),
      fun m hm => h.fresh m (by omega), fun m hm => h.awaited m (by omega), h.closed⟩
  · rintro ⟨hs, he, h⟩
    refine ⟨?_, ?_, h.closed⟩
    · intro m hm
      rcases Nat.eq_or_lt_of_le hm with rfl | hm
      · exact hs
      · exact h.fresh m hm
    · intro m hm
      rcases Nat.eq_or_lt_of_le hm with rfl | hm
      · exact he
      · exact h.awaited m hm

theorem settled_length_iff : Settled r ts e ts.length ↔ ¬ PendingAt r ts e ts.length := by
  constructor
  · exact Settled.closed
  · intro h
    refine ⟨?_, ?_, h⟩
    · intro m hm hs
      exact absurd hs.lt (by omega)
    · intro m hm he
      exact absurd he.lt (by omega)

/-- What is settled from token `n` on: the roles that follow, after the start that waits. -/
theorem settled_iff (hn : n ≤ ts.length) :
    (PendingAt r ts e n →
      (Settled r ts e n ↔ Alternates (.start :: (ts.drop n).filterMap (Token.role? r e)))) ∧
    (¬ PendingAt r ts e n →
      (Settled r ts e n ↔ Alternates ((ts.drop n).filterMap (Token.role? r e)))) := by
  induction hd : ts.length - n generalizing n with
  | zero =>
    obtain rfl : n = ts.length := by omega
    rw [settled_length_iff, List.drop_length]
    constructor
    · intro hp
      simp [hp, not_alternates_start]
    · intro hp
      simp [hp, Alternates.nil]
  | succ d ih =>
    have hlt : n < ts.length := by omega
    have ht : ts[n]? = some ts[n] := List.getElem?_eq_getElem hlt
    obtain ⟨hopen, hclosed⟩ := ih (n := n + 1) hlt (by omega)
    rw [settled_succ_iff, List.drop_eq_getElem_cons hlt, List.filterMap_cons, Token.role?]
    by_cases hs : ts[n].Starts r e
    · have hstarts : StartsAt r ts e n := ⟨_, ht, hs⟩
      have hends : ¬ EndsAt r ts e n := hstarts.not_endsAt
      have hp : PendingAt r ts e (n + 1) := pendingAt_succ.mpr (.inl hstarts)
      simp only [if_pos hs, hopen hp]
      constructor
      · intro hq
        simp [hq, hstarts, not_alternates_start_start]
      · intro hq
        simp [hq, hends]
    · have hstarts : ¬ StartsAt r ts e n := by
        rwa [startsAt_iff ht, Token.does_eq_opens_iff]
      by_cases he : ts[n].Ends r e
      · have hends : EndsAt r ts e n := ⟨_, ht, he⟩
        have hp : ¬ PendingAt r ts e (n + 1) := by simp [pendingAt_succ, hstarts, hends]
        simp only [if_neg hs, if_pos he, hclosed hp]
        constructor
        · intro hq
          simp [hq, hstarts, alternates_pair_iff]
        · intro hq
          simp [hq, hends, not_alternates_stop]
      · have hends : ¬ EndsAt r ts e n := by
          rwa [endsAt_iff ht, Token.does_eq_closes_iff]
        have hp : PendingAt r ts e (n + 1) ↔ PendingAt r ts e n := by
          simp [pendingAt_succ, hstarts, hends]
        rw [hp] at hopen hclosed
        simpa [hs, he, hstarts, hends] using ⟨hopen, hclosed⟩

theorem settled_zero_iff :
    Settled r ts e 0 ↔ Alternates (ts.filterMap (Token.role? r e)) := by
  simpa using (settled_iff (Nat.zero_le ts.length)).2 not_pendingAt_zero

theorem straysOf_eq_nil_iff : straysOf r ts = [] ↔ ∀ e n,
    (StartsAt r ts e n → ¬ PendingAt r ts e n) ∧ (EndsAt r ts e n → PendingAt r ts e n) := by
  rw [List.eq_nil_iff_forall_not_mem]
  constructor
  · intro h e n
    constructor
    · intro hs hp
      exact h n (mem_straysOf.mpr (.inl ⟨e, hs, hp⟩))
    · intro he
      by_contra hp
      exact h n (mem_straysOf.mpr (.inr ⟨e, he, hp⟩))
  · intro h n hn
    rcases mem_straysOf.mp hn with ⟨e, hs, hp⟩ | ⟨e, he, hp⟩
    · exact (h e n).1 hs hp
    · exact hp ((h e n).2 he)

theorem leftOf_eq_nil_iff {es : List Effect}
    (hes : ∀ e i, OpenedBy r ts e ts.length i → e ∈ es) :
    leftOf r ts es = [] ↔ ∀ e, ¬ PendingAt r ts e ts.length := by
  rw [List.eq_nil_iff_forall_not_mem]
  constructor
  · intro h e
    rcases opener?_cases r ts e ts.length with ⟨i, -, ho⟩ | ⟨-, hp⟩
    · exact absurd (mem_leftOf.mpr ⟨e, hes e i ho, ho⟩) (h i)
    · exact hp
  · intro h i hi
    obtain ⟨e, -, ho⟩ := mem_leftOf.mp hi
    exact h e ho.pendingAt

/-- Pairing has nothing to report exactly if starts and ends of every effect take turns. -/
theorem ofTokens_diagnostics_eq_nil_iff {x : Timeline}
    (h : Timeline.ofTokens r defaults ts = .ok x) :
    x.diagnostics = [] ↔ ∀ e, Alternates (ts.filterMap (Token.role? r e)) := by
  obtain ⟨es, -, hes, -, ds, hds, hperm⟩ := timeline_places h
  have hlen := hds.length_eq.trans hperm.length_eq
  have hnil : x.diagnostics = [] ↔ straysOf r ts ++ leftOf r ts es = [] := by
    rw [← List.length_eq_zero_iff, ← List.length_eq_zero_iff, hlen]
  rw [hnil, List.append_eq_nil_iff, straysOf_eq_nil_iff, leftOf_eq_nil_iff hes]
  constructor
  · rintro ⟨hstray, hleft⟩ e
    exact settled_zero_iff.mp
      ⟨fun m _ => (hstray e m).1, fun m _ => (hstray e m).2, hleft e⟩
  · intro ha
    have hsettled (e : Effect) : Settled r ts e 0 := settled_zero_iff.mpr (ha e)
    constructor
    · intro e n
      exact ⟨(hsettled e).fresh n (Nat.zero_le n), (hsettled e).awaited n (Nat.zero_le n)⟩
    · intro e
      exact (hsettled e).closed

end KineticText
