import KineticText.Timeline.Pairing
import Mathlib.Data.List.Basic

/-! Which directive opens a region and which one closes it, read off the tokens alone. -/
namespace KineticText

instance {p : Effect → Prop} [DecidablePred p] : Decidable (∃ e, p e) :=
  decidable_of_iff (p .wave ∨ p .jitter)
    ⟨fun h => h.elim (⟨_, ·⟩) (⟨_, ·⟩), fun ⟨e, h⟩ => by cases e <;> simp [h]⟩

instance {p : Role → Prop} [DecidablePred p] : Decidable (∃ role, p role) :=
  decidable_of_iff (p .start ∨ p .stop)
    ⟨fun h => h.elim (⟨_, ·⟩) (⟨_, ·⟩), fun ⟨role, h⟩ => by cases role <;> simp [h]⟩

namespace Registry

variable {r : Registry} {c : Codeword} {e : Effect}

theorem action_eq_opens_iff : r.action c = .opens e ↔
    ∃ s, r.spec? c = some s ∧ s.role = .start ∧ s.effect = some e := by
  unfold action
  cases r.spec? c with
  | none => simp
  | some s =>
    cases hr : s.role with
    | start => cases he : s.effect <;> simp [hr, he]
    | stop => cases he : (s.closes.bind r.spec?).bind (·.effect) <;> simp [hr, he]

theorem action_eq_closes_iff : r.action c = .closes e ↔
    ∃ s, r.spec? c = some s ∧ s.role = .stop ∧
      ∃ d o, s.closes = some d ∧ r.spec? d = some o ∧ o.effect = some e := by
  unfold action
  cases r.spec? c with
  | none => simp
  | some s =>
    cases hr : s.role with
    | start => cases he : s.effect <;> simp [hr, he]
    | stop =>
      simp only [Option.some.injEq, exists_eq_left']
      cases hc : s.closes with
      | none => simp [hr]
      | some d => cases ho : r.spec? d with
        | none => simp [ho, hr]
        | some o => cases he : o.effect <;> simp [hr, ho, he]

end Registry

namespace Token

variable {r : Registry} {t : Token} {e e' : Effect}

/-- A custom directive whose spec opens regions of the effect. -/
def Starts (r : Registry) (e : Effect) (t : Token) : Prop :=
  t.isDirective ∧ ¬ t.isNative ∧
    ∃ s, r.spec? t.codeword = some s ∧ s.role = .start ∧ s.effect = some e

/-- A custom directive whose spec closes a codeword with a spec of the effect. -/
def Ends (r : Registry) (e : Effect) (t : Token) : Prop :=
  t.isDirective ∧ ¬ t.isNative ∧
    ∃ s, r.spec? t.codeword = some s ∧ s.role = .stop ∧
      ∃ c o, s.closes = some c ∧ r.spec? c = some o ∧ o.effect = some e

/-- What a token does to the regions. -/
def does (r : Registry) (t : Token) : Registry.Action :=
  if t.isDirective ∧ ¬ t.isNative then r.action t.codeword else .pass

theorem does_eq_opens_iff : t.does r = .opens e ↔ t.Starts r e := by
  unfold does Starts
  by_cases h : t.isDirective ∧ ¬ t.isNative
  · rw [if_pos h, Registry.action_eq_opens_iff]
    constructor
    · intro hs
      exact ⟨h.1, h.2, hs⟩
    · rintro ⟨-, -, hs⟩
      exact hs
  · rw [if_neg h]
    constructor
    · exact nofun
    · rintro ⟨hd, hn, -⟩
      exact absurd ⟨hd, hn⟩ h

theorem does_eq_closes_iff : t.does r = .closes e ↔ t.Ends r e := by
  unfold does Ends
  by_cases h : t.isDirective ∧ ¬ t.isNative
  · rw [if_pos h, Registry.action_eq_closes_iff]
    constructor
    · intro hs
      exact ⟨h.1, h.2, hs⟩
    · rintro ⟨-, -, hs⟩
      exact hs
  · rw [if_neg h]
    constructor
    · exact nofun
    · rintro ⟨hd, hn, -⟩
      exact absurd ⟨hd, hn⟩ h

/-- Where native tags have no part in the regions, the codeword of a directive decides. -/
theorem does_eq_iff {a : Registry.Action} (hn : r.action .native = .pass) (ha : a ≠ .pass) :
    t.does r = a ↔ t.isDirective ∧ r.action t.codeword = a := by
  unfold does
  by_cases hd : t.isDirective
  · by_cases hnative : t.isNative
    · have hc : t.codeword = .native := by
        simp only [isNative, decide_eq_true_eq] at hnative
        exact hnative.2
      simp [hd, hnative, hc, hn]
    · simp [hd, hnative]
  · simp [hd, ha.symm]

instance : Decidable (t.Starts r e) := decidable_of_iff _ does_eq_opens_iff

instance : Decidable (t.Ends r e) := decidable_of_iff _ does_eq_closes_iff

/-- A directive has one part in the regions at most. -/
theorem Starts.effect_eq (h : t.Starts r e) (h' : t.Starts r e') : e = e' := by
  rw [← does_eq_opens_iff] at h h'
  simpa using h.symm.trans h'

theorem Ends.effect_eq (h : t.Ends r e) (h' : t.Ends r e') : e = e' := by
  rw [← does_eq_closes_iff] at h h'
  simpa using h.symm.trans h'

theorem Starts.not_ends (h : t.Starts r e) : ¬ t.Ends r e' := by
  intro h'
  rw [← does_eq_opens_iff] at h
  rw [← does_eq_closes_iff] at h'
  simp [h] at h'

end Token

variable {r : Registry} {ts : List Token} {t : Token} {e e' : Effect} {i j k n : Nat}

def StartsAt (r : Registry) (ts : List Token) (e : Effect) (i : Nat) : Prop :=
  ∃ t, ts[i]? = some t ∧ t.Starts r e

def EndsAt (r : Registry) (ts : List Token) (e : Effect) (i : Nat) : Prop :=
  ∃ t, ts[i]? = some t ∧ t.Ends r e

/-- A start of the effect before token `n` waits for its end. -/
def PendingAt (r : Registry) (ts : List Token) (e : Effect) (n : Nat) : Prop :=
  ∃ i < n, StartsAt r ts e i ∧ ∀ k, i < k → k < n → ¬ EndsAt r ts e k

/-- Token `i` is the start that waits for its end before token `n`. -/
structure OpenedBy (r : Registry) (ts : List Token) (e : Effect) (n i : Nat) : Prop where
  lt : i < n
  start : StartsAt r ts e i
  fresh : ¬ PendingAt r ts e i
  kept : ∀ k, i < k → k < n → ¬ EndsAt r ts e k

/-- Token `i` opens the region that token `j` closes. -/
structure Paired (r : Registry) (ts : List Token) (e : Effect) (i j : Nat) : Prop where
  start : StartsAt r ts e i
  fresh : ¬ PendingAt r ts e i
  stop : EndsAt r ts e j
  lt : i < j
  first : ∀ k, i < k → k < j → ¬ EndsAt r ts e k

theorem paired_iff : Paired r ts e i j ↔ OpenedBy r ts e j i ∧ EndsAt r ts e j := by
  constructor
  · intro h
    exact ⟨⟨h.lt, h.start, h.fresh, h.first⟩, h.stop⟩
  · rintro ⟨ho, hj⟩
    exact ⟨ho.start, ho.fresh, hj, ho.lt, ho.kept⟩

theorem not_pendingAt_zero : ¬ PendingAt r ts e 0 := by
  rintro ⟨i, hi, -⟩
  omega

theorem pendingAt_succ :
    PendingAt r ts e (n + 1) ↔ StartsAt r ts e n ∨ PendingAt r ts e n ∧ ¬ EndsAt r ts e n := by
  constructor
  · rintro ⟨i, hi, hs, hk⟩
    rcases Nat.lt_succ_iff_lt_or_eq.mp hi with hi | rfl
    · exact .inr ⟨⟨i, hi, hs, fun k h h' => hk k h (by omega)⟩, hk n hi (by omega)⟩
    · exact .inl hs
  · rintro (hs | ⟨⟨i, hi, hs, hk⟩, hn⟩)
    · refine ⟨n, by omega, hs, ?_⟩
      intro k h h'
      omega
    · refine ⟨i, by omega, hs, ?_⟩
      intro k h h'
      rcases Nat.lt_succ_iff_lt_or_eq.mp h' with h' | rfl
      · exact hk k h h'
      · exact hn

theorem OpenedBy.pendingAt (h : OpenedBy r ts e n i) : PendingAt r ts e n :=
  ⟨i, h.lt, h.start, h.kept⟩

/-- Two starts cannot both wait: the second is not fresh. -/
theorem OpenedBy.eq (h : OpenedBy r ts e n i) (h' : OpenedBy r ts e n j) : i = j := by
  rcases Nat.lt_trichotomy i j with hij | hij | hij
  · have hp : PendingAt r ts e j := by
      refine ⟨i, hij, h.start, ?_⟩
      intro k hk hkj
      exact h.kept k hk (Nat.lt_trans hkj h'.lt)
    exact absurd hp h'.fresh
  · exact hij
  · have hp : PendingAt r ts e i := by
      refine ⟨j, hij, h'.start, ?_⟩
      intro k hk hki
      exact h'.kept k hk (Nat.lt_trans hki h.lt)
    exact absurd hp h.fresh

theorem openedBy_succ_of_not_endsAt (h : OpenedBy r ts e n i) (hn : ¬ EndsAt r ts e n) :
    OpenedBy r ts e (n + 1) i := by
  refine ⟨Nat.lt_succ_of_lt h.lt, h.start, h.fresh, ?_⟩
  intro k hk hkn
  rcases Nat.lt_succ_iff_lt_or_eq.mp hkn with hkn | rfl
  · exact h.kept k hk hkn
  · exact hn

theorem openedBy_succ_self (hs : StartsAt r ts e n) (hp : ¬ PendingAt r ts e n) :
    OpenedBy r ts e (n + 1) n := by
  refine ⟨Nat.lt_succ_self n, hs, hp, ?_⟩
  intro k hk hkn
  omega

/-- Each start is closed by one end. -/
theorem Paired.right_eq (h : Paired r ts e i j) (h' : Paired r ts e i k) : j = k := by
  rcases Nat.lt_trichotomy j k with hjk | hjk | hjk
  · exact absurd h.stop (h'.first j h.lt hjk)
  · exact hjk
  · exact absurd h'.stop (h.first k h'.lt hjk)

/-! ### The start that waits, computed -/

instance : Decidable (StartsAt r ts e i) :=
  decidable_of_iff (ts[i]?.any fun t => t.Starts r e) (by simp [StartsAt, Option.any_eq_true])

instance : Decidable (EndsAt r ts e i) :=
  decidable_of_iff (ts[i]?.any fun t => t.Ends r e) (by simp [EndsAt, Option.any_eq_true])

/-- The start that waits for its end before a token, if there is one. -/
def opener? (r : Registry) (ts : List Token) (e : Effect) : Nat → Option Nat
  | 0 => none
  | n + 1 =>
    if EndsAt r ts e n then none
    else (opener? r ts e n).or (if StartsAt r ts e n then some n else none)

theorem StartsAt.not_endsAt (h : StartsAt r ts e n) : ¬ EndsAt r ts e' n := by
  rintro ⟨t, ht, he⟩
  obtain ⟨u, hu, hs⟩ := h
  obtain rfl : u = t := Option.some.inj (hu.symm.trans ht)
  exact hs.not_ends he

theorem opener?_cases (r : Registry) (ts : List Token) (e : Effect) (n : Nat) :
    (∃ i, opener? r ts e n = some i ∧ OpenedBy r ts e n i) ∨
      opener? r ts e n = none ∧ ¬ PendingAt r ts e n := by
  induction n with
  | zero => exact .inr ⟨rfl, not_pendingAt_zero⟩
  | succ n ih =>
    rw [opener?, pendingAt_succ]
    by_cases he : EndsAt r ts e n
    · right
      simpa [he] using fun hs : StartsAt r ts e n => hs.not_endsAt he
    · rcases ih with ⟨i, hi, ho⟩ | ⟨hi, hp⟩
      · exact .inl ⟨i, by simp [he, hi], openedBy_succ_of_not_endsAt ho he⟩
      · by_cases hs : StartsAt r ts e n
        · exact .inl ⟨n, by simp [he, hi, hs], openedBy_succ_self hs hp⟩
        · exact .inr ⟨by simp [he, hi, hs], by simp [hs, hp]⟩

theorem opener?_eq_some_iff : opener? r ts e n = some i ↔ OpenedBy r ts e n i := by
  rcases opener?_cases r ts e n with ⟨k, hk, ho⟩ | ⟨hk, hp⟩
  · rw [hk, Option.some.injEq]
    constructor
    · rintro rfl
      exact ho
    · intro h
      exact ho.eq h
  · simp only [hk, reduceCtorEq, false_iff]
    intro h
    exact hp h.pendingAt

theorem opener?_eq_none_iff : opener? r ts e n = none ↔ ¬ PendingAt r ts e n := by
  rcases opener?_cases r ts e n with ⟨k, hk, ho⟩ | ⟨hk, hp⟩
  · simp [hk, ho.pendingAt]
  · simp [hk, hp]

end KineticText
