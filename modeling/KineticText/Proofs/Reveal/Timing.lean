import KineticText.Proofs.Reveal.Playing
import Mathlib.Algebra.Order.Field.Rat
import Mathlib.Algebra.Order.Monoid.Defs
import Mathlib.Tactic.NormNum

/-! Where times add up exactly, a reveal depends on the time that has passed and not on the updates
that it came in. -/
namespace KineticText

/-- How long the first `n` events wait together. -/
def waitBefore {τ : Type} [Zero τ] [Add τ] (events : List (Event τ)) (n : Nat) : τ :=
  ((events.take n).map Event.wait).sum

namespace Player

/-! ### One update after the other -/

section Updates

variable {τ : Type} [Zero τ] [Add τ] [Sub τ] [LE τ] [DecidableLE τ]

/-- How much updates reveal in all, and the player they leave. -/
def updates (p : Player τ) : List τ → Nat × Player τ
  | [] => (0, p)
  | t :: ts =>
    ((p.update t).1 + ((p.update t).2.updates ts).1, ((p.update t).2.updates ts).2)

/-- The events that updates take off the schedule. -/
def takenBy (p : Player τ) : List τ → List (Event τ)
  | [] => []
  | t :: ts => p.taken t ++ (p.update t).2.takenBy ts

theorem updates_count (p : Player τ) (ts : List τ) :
    (p.updates ts).1 = (p.takenBy ts).countP Event.isVisible := by
  induction ts generalizing p with
  | nil => rfl
  | cons t ts ih => rw [updates, takenBy, List.countP_append, ih, update_count]

end Updates

variable {τ : Type} [AddCommGroup τ] [LinearOrder τ] [IsOrderedAddMonoid τ] {p : Player τ}
  {remaining a b : τ} {count n : Nat} {e : Event τ} {events rest : List (Event τ)} {ts : List τ}

/-! ### The time of an update cut in two -/

omit [IsOrderedAddMonoid τ] in
theorem fire_count_add (remaining : τ) (count n : Nat) (events : List (Event τ)) :
    fire remaining (n + count) events = ((fire remaining count events).1,
      (fire remaining count events).2.1, n + (fire remaining count events).2.2) := by
  induction events generalizing remaining count with
  | nil => by_cases h : remaining ≤ 0 <;> simp [fire, h]
  | cons e es ih =>
    by_cases h : remaining ≤ 0
    · have hcount : (if e.isVisible then n + count + 1 else n + count) =
          n + if e.isVisible then count + 1 else count := by
        split <;> omega
      rw [fire, fire, if_pos h, if_pos h, hcount, ih]
    · simp [fire, h]

/-- A schedule that is over would have been over later. -/
theorem fire_sub_of_none (hb : 0 ≤ b) (h : (fire remaining count events).1 = none) :
    fire (remaining - b) count events = fire remaining count events ∧
      due (remaining - b) events = due remaining events := by
  induction events generalizing remaining count with
  | nil =>
    by_cases hr : remaining ≤ 0
    · have hsub : remaining - b ≤ 0 := (sub_le_self _ hb).trans hr
      exact ⟨by simp [fire, hr, hsub], rfl⟩
    · simp [fire, hr] at h
  | cons e es ih =>
    by_cases hr : remaining ≤ 0
    · have hsub : remaining - b ≤ 0 := (sub_le_self _ hb).trans hr
      rw [fire, if_pos hr] at h
      obtain ⟨hfire, hdue⟩ := ih h
      rw [fire, fire, due, due, if_pos hr, if_pos hr, if_pos hsub, if_pos hsub,
        sub_add_eq_add_sub, hfire, hdue]
      exact ⟨rfl, rfl⟩
    · simp [fire, hr] at h

/-- What has not fired goes on waiting where it stopped. -/
theorem fire_sub_of_some (hb : 0 ≤ b) (h : (fire remaining count events).1 = some rest) :
    fire (remaining - b) count events =
        fire ((fire remaining count events).2.1 - b) (fire remaining count events).2.2 rest ∧
      due (remaining - b) events =
        due remaining events ++ due ((fire remaining count events).2.1 - b) rest := by
  induction events generalizing remaining count with
  | nil =>
    by_cases hr : remaining ≤ 0
    · simp [fire, hr] at h
    · obtain rfl : [] = rest := by simpa [fire, hr] using h
      simp [fire, due, hr]
  | cons e es ih =>
    by_cases hr : remaining ≤ 0
    · have hsub : remaining - b ≤ 0 := (sub_le_self _ hb).trans hr
      rw [fire, if_pos hr] at h
      obtain ⟨hfire, hdue⟩ := ih h
      rw [fire, if_pos hsub, due, due, if_pos hr, if_pos hsub, sub_add_eq_add_sub, hfire, hdue,
        fire, if_pos hr]
      exact ⟨rfl, rfl⟩
    · obtain rfl : e :: es = rest := by simpa [fire, hr] using h
      have hstop : fire remaining count (e :: es) = (some (e :: es), remaining, count) := by
        simp [fire, hr]
      have hnone : due remaining (e :: es) = [] := by simp [due, hr]
      rw [hstop, hnone]
      exact ⟨rfl, rfl⟩

/-- Time that passes in two updates does what it does in one. -/
theorem update_add (hb : 0 ≤ b) (p : Player τ) (a : τ) :
    p.update (a + b) = ((p.update a).1 + ((p.update a).2.update b).1, ((p.update a).2.update b).2) ∧
      p.taken (a + b) = p.taken a ++ (p.update a).2.taken b := by
  cases hp : p.pending with
  | none => simp [update_of_idle hp, taken_of_idle hp]
  | some events =>
    have hsplit : p.remaining - (a + b) = p.remaining - a - b := sub_add_eq_sub_sub _ _ _
    rw [update_of_pending hp, update_of_pending hp, taken, taken, hp, hsplit]
    cases hf : (fire (p.remaining - a) 0 events).1 with
    | none =>
      obtain ⟨hfire, hdue⟩ := fire_sub_of_none hb hf
      have hidle : (⟨none, (fire (p.remaining - a) 0 events).2.1,
          p.revealed + (fire (p.remaining - a) 0 events).2.2⟩ : Player τ).pending = none := rfl
      rw [update_of_idle hidle, taken_of_idle hidle, hfire, hf]
      exact ⟨rfl, by simpa using hdue⟩
    | some rest =>
      obtain ⟨hfire, hdue⟩ := fire_sub_of_some hb hf
      have hcount := fire_count_add ((fire (p.remaining - a) 0 events).2.1 - b) 0
        (fire (p.remaining - a) 0 events).2.2 rest
      rw [Nat.add_zero] at hcount
      rw [hfire, hcount]
      exact ⟨by simp [update, Nat.add_assoc], by simpa [taken] using hdue⟩

/-- Updates do what one update does for all of their time. -/
theorem updates_eq (ht : ∀ t ∈ ts, 0 ≤ t) (p : Player τ) (a : τ) :
    p.updates (a :: ts) = p.update (a + ts.sum) ∧
      p.takenBy (a :: ts) = p.taken (a + ts.sum) := by
  induction ts generalizing p a with
  | nil => simp [updates, takenBy]
  | cons b ts ih =>
    have hrest : ∀ t ∈ ts, 0 ≤ t := fun t h => ht t (by simp [h])
    have hsum : 0 ≤ b + ts.sum := add_nonneg (ht b (by simp)) (List.sum_nonneg hrest)
    obtain ⟨hupdates, htaken⟩ := ih hrest (p.update a).2 b
    obtain ⟨hupdate, htake⟩ := update_add hsum p a
    rw [List.sum_cons, hupdate, htake, updates, takenBy, hupdates, htaken]
    exact ⟨rfl, rfl⟩

/-! ### What has fired by a time -/

omit [IsOrderedAddMonoid τ] in
theorem due_prefix (remaining : τ) (events : List (Event τ)) : due remaining events <+: events := by
  rcases fire_pending remaining 0 events with ⟨rest, h, -⟩ | ⟨h, -⟩
  · exact ⟨rest, h⟩
  · rw [h]

theorem waitBefore_nonneg (hw : ∀ e ∈ events, 0 ≤ e.wait) (n : Nat) : 0 ≤ waitBefore events n := by
  apply List.sum_nonneg
  intro w h
  obtain ⟨e, he, rfl⟩ := List.mem_map.mp h
  exact hw e (List.mem_of_mem_take he)

omit [IsOrderedAddMonoid τ] [LinearOrder τ] in
theorem waitBefore_cons (e : Event τ) (events : List (Event τ)) (n : Nat) :
    waitBefore (e :: events) (n + 1) = e.wait + waitBefore events n := by
  simp [waitBefore]

/-- An event is due if the waits before it leave nothing to wait. -/
theorem lt_length_due_iff (hw : ∀ e ∈ events, 0 ≤ e.wait) (hn : n < events.length) :
    n < (due remaining events).length ↔ remaining + waitBefore events n ≤ 0 := by
  induction events generalizing remaining n with
  | nil => simp at hn
  | cons e es ih =>
    have hrest : ∀ e ∈ es, 0 ≤ e.wait := fun f h => hw f (by simp [h])
    by_cases hr : remaining ≤ 0
    · cases n with
      | zero => simp [due, hr, waitBefore]
      | succ n =>
        have hlt : n < es.length := by simpa using hn
        rw [due, if_pos hr, List.length_cons, Nat.succ_lt_succ_iff, ih hrest hlt, waitBefore_cons,
          add_assoc]
    · have hlater : ¬ remaining + waitBefore (e :: es) n ≤ 0 := by
        intro h
        exact hr ((le_add_of_nonneg_right (waitBefore_nonneg hw n)).trans h)
      simp [due, hr, hlater]

/-- A schedule is over if all its waits leave nothing to wait. -/
theorem fire_eq_none_iff (hw : ∀ e ∈ events, 0 ≤ e.wait) :
    (fire remaining count events).1 = none ↔ remaining + waitBefore events events.length ≤ 0 := by
  induction events generalizing remaining count with
  | nil => by_cases hr : remaining ≤ 0 <;> simp [fire, hr, waitBefore]
  | cons e es ih =>
    by_cases hr : remaining ≤ 0
    · rw [fire, if_pos hr, ih fun f h => hw f (by simp [h]), List.length_cons, waitBefore_cons,
        add_assoc]
    · have hlater : ¬ remaining + waitBefore (e :: es) (e :: es).length ≤ 0 := by
        intro h
        exact hr ((le_add_of_nonneg_right (waitBefore_nonneg hw _)).trans h)
      simp only [fire, if_neg hr, reduceCtorEq, hlater]

/-! ### The reveal of a schedule -/

/-- Where updates leave a reveal, told from the time that they take together. -/
structure Timely (events : List (Event ℚ)) (p : Player ℚ) (ts : List ℚ) : Prop where
  taken_prefix : p.takenBy ts <+: events
  /-- An event has fired if the waits before it are over. -/
  fired : ∀ n < events.length, n < (p.takenBy ts).length ↔ waitBefore events n ≤ ts.sum
  inactive : ¬ (p.updates ts).2.isActive ↔ waitBefore events events.length ≤ ts.sum
  count : (p.updates ts).1 = (p.takenBy ts).countP Event.isVisible
  /-- Other updates that take the same time reveal as much and leave the same player. -/
  same : ∀ us : List ℚ, us ≠ [] → (∀ u ∈ us, 0 ≤ u) → us.sum = ts.sum → p.updates us = p.updates ts

theorem timely_start {events : List (Event ℚ)} (hw : ∀ e ∈ events, 0 ≤ e.wait) (p : Player ℚ)
    (visibleCount : Nat) {ts : List ℚ} (hne : ts ≠ []) (ht : ∀ t ∈ ts, 0 ≤ t) :
    Timely events (p.start true visibleCount events) ts := by
  have hone (us : List ℚ) (hus : us ≠ []) (hu : ∀ u ∈ us, 0 ≤ u) (p : Player ℚ) :
      p.updates us = p.update us.sum ∧ p.takenBy us = p.taken us.sum := by
    obtain ⟨u, us, rfl⟩ := List.exists_cons_of_ne_nil hus
    rw [List.sum_cons]
    exact updates_eq (fun v hv => hu v (by simp [hv])) p u
  obtain ⟨hupdates, htaken⟩ := hone ts hne ht (p.start true visibleCount events)
  have hpending : (p.start true visibleCount events).pending = some events := rfl
  have hdue : (p.start true visibleCount events).taken ts.sum = due (0 - ts.sum) events := rfl
  have htime (w : ℚ) : 0 - ts.sum + w ≤ 0 ↔ w ≤ ts.sum := by
    rw [zero_sub, neg_add_nonpos_iff]
  refine ⟨?_, ?_, ?_, updates_count _ ts, ?_⟩
  · rw [htaken, hdue]
    exact due_prefix _ events
  · intro n hn
    rw [htaken, hdue, lt_length_due_iff hw hn, htime]
  · rw [hupdates, update_of_pending hpending, isActive_iff, not_not]
    exact (fire_eq_none_iff hw).trans (htime _)
  · intro us hus hu hsum
    rw [hupdates, (hone us hus hu _).1, hsum]

theorem wait_nonneg_of_mem_schedule {pace : Pace ℚ} (hl : 0 ≤ pace.letter) (hp : 0 ≤ pace.pause)
    {tokens : List Token} {e : Event ℚ} (he : e ∈ schedule pace tokens) : 0 ≤ e.wait := by
  rcases wait_of_mem_schedule he with h | h | h
  · exact h ▸ hl
  · exact h ▸ hp
  · exact h.ge

/-- The reveal of compiled markup fires each event as soon as the waits before it are over, however
the time that passes is cut into updates and whatever the player played before. -/
theorem reveal_timely (p : Player ℚ) (c : Compiled) (pace : Pace ℚ) (hl : 0 ≤ pace.letter)
    (hp : 0 ≤ pace.pause) (ts : List ℚ) (hne : ts ≠ []) (ht : ∀ t ∈ ts, 0 ≤ t) :
    Timely (schedule pace c.processed)
      (p.start true c.visibleCount (schedule pace c.processed)) ts :=
  timely_start (fun _ he => wait_nonneg_of_mem_schedule hl hp he) p c.visibleCount hne ht

/-- A native tag and a pause, in frames of a thirtieth of a second and a longer one, on a player that
was to wait for two seconds more. -/
theorem reveal_timely_frames : ∃ c, compile {} .standard "a<b>.</b>c".toList = .ok c ∧
    Timely (schedule ⟨1 / 20, 1 / 2⟩ c.processed)
      ((⟨some [⟨['x'], 1⟩], 2, 3⟩ : Player ℚ).start true c.visibleCount
        (schedule ⟨1 / 20, 1 / 2⟩ c.processed))
      [0, 1 / 30, 1 / 30, 1 / 2] := by
  obtain ⟨c, hc⟩ := exists_compile_standard {} "a<b>.</b>c".toList
  refine ⟨c, hc, reveal_timely _ c ⟨1 / 20, 1 / 2⟩ (by norm_num) (by norm_num) _ (by simp) ?_⟩
  intro t ht
  simp only [List.mem_cons, List.not_mem_nil, or_false] at ht
  rcases ht with rfl | rfl | rfl | rfl <;> norm_num

end Player
end KineticText
