import KineticText.Proofs.Compile.Stripping

/-! A player takes the events of its schedule one by one and in their order, whatever is done with
it: none is lost, repeated or moved. -/
namespace KineticText

namespace Player

variable {τ : Type} {p : Player τ} {events : List (Event τ)}

theorem isActive_iff : p.isActive ↔ p.pending ≠ none := by
  simp [isActive, Option.isSome_iff_ne_none]

/-- Nothing of a player is left once another reveal has started on it. -/
theorem start_eq [Zero τ] (p : Player τ) (typewriter : Bool) (visibleCount : Nat)
    (events : List (Event τ)) : p.start typewriter visibleCount events =
      if typewriter then ⟨some events, 0, 0⟩ else ⟨none, 0, visibleCount⟩ := by
  cases typewriter <;> rfl

variable [Zero τ] [Add τ] [LE τ] [DecidableLE τ]

/-- The events whose turn has come if so much remains to wait. -/
def due (remaining : τ) : List (Event τ) → List (Event τ)
  | [] => []
  | e :: es => if remaining ≤ 0 then e :: due (remaining + e.wait) es else []

/-- Firing leaves the events that are not due, and ends a schedule only if none is left. -/
theorem fire_pending (remaining : τ) (count : Nat) (events : List (Event τ)) :
    (∃ rest, due remaining events ++ rest = events ∧ (fire remaining count events).1 = some rest) ∨
      due remaining events = events ∧ (fire remaining count events).1 = none := by
  induction events generalizing remaining count with
  | nil =>
    by_cases h : remaining ≤ 0
    · exact .inr ⟨rfl, by simp [fire, h]⟩
    · exact .inl ⟨[], rfl, by simp [fire, h]⟩
  | cons e es ih =>
    by_cases h : remaining ≤ 0
    · have hfire := ih (remaining + e.wait) (if e.isVisible then count + 1 else count)
      rw [due, fire, if_pos h, if_pos h]
      rcases hfire with ⟨rest, hrest, hpending⟩ | ⟨hall, hpending⟩
      · exact .inl ⟨rest, by rw [List.cons_append, hrest], hpending⟩
      · exact .inr ⟨by rw [hall], hpending⟩
    · exact .inl ⟨e :: es, by simp [due, h], by simp [fire, h]⟩

/-- Firing counts the events that are due and show something. -/
theorem fire_count (remaining : τ) (count : Nat) (events : List (Event τ)) :
    (fire remaining count events).2.2 = count + (due remaining events).countP Event.isVisible := by
  induction events generalizing remaining count with
  | nil => by_cases h : remaining ≤ 0 <;> simp [fire, due, h]
  | cons e es ih =>
    by_cases h : remaining ≤ 0
    · rw [due, fire, if_pos h, if_pos h, ih, List.countP_cons]
      split <;> omega
    · simp [fire, due, h]

variable [Sub τ] {elapsed : τ}

/-- The events that an update takes off the schedule. -/
def taken (p : Player τ) (elapsed : τ) : List (Event τ) :=
  due (p.remaining - elapsed) (p.pending.getD [])

theorem update_of_pending (h : p.pending = some events) : p.update elapsed =
    ((fire (p.remaining - elapsed) 0 events).2.2,
      ⟨(fire (p.remaining - elapsed) 0 events).1, (fire (p.remaining - elapsed) 0 events).2.1,
        p.revealed + (fire (p.remaining - elapsed) 0 events).2.2⟩) := by
  simp only [update, h]

/-- Without a schedule nothing happens. -/
theorem update_of_idle (h : p.pending = none) (elapsed : τ) : p.update elapsed = (0, p) := by
  simp only [update, h]

theorem taken_of_idle (h : p.pending = none) (elapsed : τ) : p.taken elapsed = [] := by
  simp [taken, h, due]

theorem update_revealed (p : Player τ) (elapsed : τ) :
    (p.update elapsed).2.revealed = p.revealed + (p.update elapsed).1 := by
  cases h : p.pending with
  | none => rw [update_of_idle h, Nat.add_zero]
  | some events => rw [update_of_pending h]

/-- An update reveals what it takes off the schedule. -/
theorem update_count (p : Player τ) (elapsed : τ) :
    (p.update elapsed).1 = (p.taken elapsed).countP Event.isVisible := by
  cases h : p.pending with
  | none => rw [update_of_idle h, taken_of_idle h, List.countP_nil]
  | some events =>
    rw [update_of_pending h, fire_count, Nat.zero_add]
    simp [taken, h]

/-- An update takes events off the front, and the schedule is over only when all are taken. -/
theorem update_pending (h : p.pending = some events) (elapsed : τ) :
    (∃ rest, p.taken elapsed ++ rest = events ∧ (p.update elapsed).2.pending = some rest) ∨
      p.taken elapsed = events ∧ (p.update elapsed).2.pending = none := by
  rw [update_of_pending h, taken, h]
  exact fire_pending _ _ events

end Player

/-- What a host does with a player. -/
inductive Operation where
  | start (c : Compiled)
  | update (elapsed : Float)
  | cancel

/-- A player, what it was started with last, and the events that it has taken since. -/
structure Performance where
  player : Player Float := .idle
  current : Option Compiled := none
  taken : List (Event Float) := []

namespace Performance

variable {s : Settings} {x : Performance} {o : Operation} {c : Compiled}

def step (s : Settings) (x : Performance) : Operation → Performance
  | .start c => { player := c.reveal s x.player, current := some c }
  | .update elapsed =>
    { x with
      player := (x.player.update elapsed).2
      taken := x.taken ++ x.player.taken elapsed }
  | .cancel => { x with player := x.player.cancel }

/-- The performance after one operation after the other. -/
def run (s : Settings) (x : Performance) (os : List Operation) : Performance :=
  os.foldl (step s) x

/-- What every operation keeps. -/
structure Sound (s : Settings) (x : Performance) : Prop where
  made : ∀ c ∈ x.current, ∃ r source, compile s r source = .ok c
  order : s.typewriter → ∀ c ∈ x.current, ∃ rest, x.taken ++ rest = schedule s.pace c.processed ∧
    ∀ events ∈ x.player.pending, events = rest
  counter : s.typewriter → x.player.revealed = x.taken.countP Event.isVisible
  atOnce : ¬ s.typewriter → ∀ c ∈ x.current,
    x.player.pending = none ∧ x.player.revealed = c.visibleCount

theorem sound_initial (s : Settings) : Sound s {} where
  made := by simp
  order := by simp
  counter _ := rfl
  atOnce := by simp

theorem sound_start (h : ∃ r source, compile s r source = .ok c) :
    Sound s (x.step s (.start c)) where
  made := by simpa [step] using h
  order ht := by simp [step, Compiled.reveal, Player.start_eq, ht]
  counter ht := by simp [step, Compiled.reveal, Player.start_eq, ht]
  atOnce ht := by simp [step, Compiled.reveal, Player.start_eq, ht]

theorem sound_update (h : Sound s x) (elapsed : Float) : Sound s (x.step s (.update elapsed)) where
  made := h.made
  order ht c hc := by
    obtain ⟨rest, hrest, hpending⟩ := h.order ht c hc
    cases hp : x.player.pending with
    | none =>
      refine ⟨rest, ?_, ?_⟩
      · simpa [step, Player.taken_of_idle hp] using hrest
      · simp [step, Player.update_of_idle hp, hp]
    | some events =>
      obtain rfl : events = rest := hpending events hp
      rcases Player.update_pending hp elapsed with ⟨left, hleft, hnext⟩ | ⟨hall, hnext⟩
      · refine ⟨left, ?_, ?_⟩
        · simpa [step, hleft] using hrest
        · simp [step, hnext]
      · refine ⟨[], ?_, ?_⟩
        · simpa [step, hall] using hrest
        · simp [step, hnext]
  counter ht := by
    change (x.player.update elapsed).2.revealed =
      (x.taken ++ x.player.taken elapsed).countP Event.isVisible
    rw [Player.update_revealed, Player.update_count, List.countP_append, h.counter ht]
  atOnce ht c hc := by
    obtain ⟨hp, hr⟩ := h.atOnce ht c hc
    simp [step, Player.update_of_idle hp, hp, hr]

theorem sound_cancel (h : Sound s x) : Sound s (x.step s .cancel) where
  made := h.made
  order ht c hc := by
    obtain ⟨rest, hrest, -⟩ := h.order ht c hc
    exact ⟨rest, hrest, by simp [step, Player.cancel]⟩
  counter := h.counter
  atOnce ht c hc := ⟨rfl, (h.atOnce ht c hc).2⟩

theorem sound_step (h : Sound s x)
    (ho : ∀ c, o = .start c → ∃ r source, compile s r source = .ok c) : Sound s (x.step s o) := by
  cases o with
  | start c => exact sound_start (ho c rfl)
  | update elapsed => exact sound_update h elapsed
  | cancel => exact sound_cancel h

theorem sound_run (h : Sound s x) {os : List Operation}
    (hos : ∀ c, .start c ∈ os → ∃ r source, compile s r source = .ok c) : Sound s (x.run s os) := by
  induction os generalizing x with
  | nil => exact h
  | cons o os ih =>
    apply ih
    · apply sound_step h
      rintro c rfl
      exact hos c (by simp)
    · intro c hc
      exact hos c (by simp [hc])

/-- The events of a whole schedule that show something are as many as the visible characters. -/
theorem countP_schedule {r : Registry} {source : Text} (h : compile s r source = .ok c) :
    (schedule s.pace c.processed).countP Event.isVisible = c.visibleCount := by
  obtain ⟨-, -, -, hcount⟩ := compile_shows h
  rw [hcount, shown, List.countP_eq_length_filter]

theorem Sound.bound (h : Sound s x) (ht : s.typewriter) (hc : c ∈ x.current) :
    x.player.revealed ≤ c.visibleCount := by
  obtain ⟨r, source, hmade⟩ := h.made c hc
  obtain ⟨rest, hrest, -⟩ := h.order ht c hc
  rw [h.counter ht, ← countP_schedule hmade, ← hrest, List.countP_append]
  exact Nat.le_add_right _ _

theorem Sound.complete (h : Sound s x) (ht : s.typewriter) (hc : c ∈ x.current) {elapsed : Float}
    (hactive : x.player.isActive) (hover : ¬ (x.step s (.update elapsed)).player.isActive) :
    (x.step s (.update elapsed)).taken = schedule s.pace c.processed ∧
      (x.step s (.update elapsed)).player.revealed = c.visibleCount := by
  obtain ⟨r, source, hmade⟩ := h.made c hc
  obtain ⟨rest, hrest, hpending⟩ := h.order ht c hc
  obtain ⟨events, hp⟩ := Option.isSome_iff_exists.mp hactive
  obtain rfl : events = rest := hpending events hp
  have htaken : (x.step s (.update elapsed)).taken = schedule s.pace c.processed := by
    rcases Player.update_pending hp elapsed with ⟨left, -, hnext⟩ | ⟨hall, -⟩
    · exact absurd (by simp [Player.isActive, step, hnext]) hover
    · simpa [step, hall] using hrest
  refine ⟨htaken, ?_⟩
  rw [(sound_update h elapsed).counter ht, htaken, countP_schedule hmade]

end Performance
end KineticText
