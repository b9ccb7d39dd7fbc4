import KineticText.Proofs.Log.Journal
import KineticText.Proofs.Timeline.Partners
import Mathlib.Data.List.Nodup

/-! What pairing finds at each token depends on the start that waits there, and on nothing else
that came before. -/
namespace KineticText

variable {r : Registry} {defaults : Params (Option Float)} {pending : List Opening} {passed n : Nat}
  {t : Token} {ts : List Token} {e : Effect} {fs : List Finding}

theorem map_eq_ok_iff {ε α β : Type} {f : α → β} {x : Except ε α} {b : β} :
    x.map f = .ok b ↔ ∃ a, x = .ok a ∧ b = f a := by
  cases x <;> simp [Except.map, eq_comm]

theorem map_eq_error_iff {ε α β : Type} {f : α → β} {x : Except ε α} {y : ε} :
    x.map f = .error y ↔ x = .error y := by
  cases x <;> simp [Except.map]

/-- The visible characters before token `n`. -/
def visibleBefore (ts : List Token) (n : Nat) : Nat := ((ts.take n).flatMap Token.visible).length

/-- The open region of an effect. -/
def waiting (pending : List Opening) (e : Effect) : Option Opening := pending.find? (·.effect = e)

/-- The region that a token opens with so many visible characters before it. -/
def Token.opening (defaults : Params (Option Float)) (e : Effect) (passed : Nat) (t : Token) :
    Opening := ⟨e, t, passed, t.params.withDefaults defaults⟩

/-- What is found at a token, given the regions that are open. -/
def Token.finding? (r : Registry) (defaults : Params (Option Float))
    (waits : Effect → Option Opening) (passed : Nat) (t : Token) : Option Finding :=
  match t.does r with
  | .pass | .undefined => none
  | .opens e =>
    match waits e with
    | some o => some (.mismatch t (.reopened t.content e o.token.offset))
    | none => some (.opened (t.opening defaults e passed))
  | .closes e =>
    match waits e with
    | some o => some (.closed o t passed)
    | none => some (.mismatch t (.neverOpened t.content e))

/-- The regions that are open after a finding. -/
def keep (pending : List Opening) : Option Finding → List Opening
  | none | some (.mismatch _ _) => pending
  | some (.opened o) => pending ++ [o]
  | some (.closed o _ _) => pending.filter (·.effect ≠ o.effect)

theorem waiting_effect {o : Opening} (h : waiting pending e = some o) : o.effect = e := by
  simpa using List.find?_some h

section Finding

variable {waits : Effect → Option Opening} {o : Opening}

theorem Token.finding?_of_pass (h : t.does r = .pass) :
    t.finding? r defaults waits passed = none := by
  rw [finding?, h]

theorem Token.finding?_of_opens (h : t.does r = .opens e) (hw : waits e = none) :
    t.finding? r defaults waits passed = some (.opened (t.opening defaults e passed)) := by
  rw [finding?, h]
  simp only [hw]

theorem Token.finding?_of_reopens (h : t.does r = .opens e) (hw : waits e = some o) :
    t.finding? r defaults waits passed =
      some (.mismatch t (.reopened t.content e o.token.offset)) := by
  rw [finding?, h]
  simp only [hw]

theorem Token.finding?_of_closes (h : t.does r = .closes e) (hw : waits e = some o) :
    t.finding? r defaults waits passed = some (.closed o t passed) := by
  rw [finding?, h]
  simp only [hw]

theorem Token.finding?_of_stray_end (h : t.does r = .closes e) (hw : waits e = none) :
    t.finding? r defaults waits passed = some (.mismatch t (.neverOpened t.content e)) := by
  rw [finding?, h]
  simp only [hw]

end Finding

/-! ### One step of the walk -/

theorem Finding.result_trace (f : Finding) (v : Int) : f.trace.result v = .ok () := by
  cases f <;> rfl

theorem Finding.result_followedBy (f : Finding) (m : Journal CompileError (List Finding)) (v : Int) :
    (f.followedBy m).result v = (m.result v).map (f :: ·) := by
  unfold followedBy
  rw [Journal.result_bind, f.result_trace, Except.bind, Journal.result_bind]
  cases m.result v <;> rfl

/-- A token's own finding comes before those of the rest. -/
theorem walk_cons (h : t.does r ≠ .undefined) :
    walk r defaults pending passed (t :: ts) =
      let f? := t.finding? r defaults (waiting pending) passed
      let rest := walk r defaults (keep pending f?) (passed + t.visible.length) ts
      f?.elim rest (·.followedBy rest) := by
  by_cases hc : t.isDirective ∧ ¬ t.isNative
  · have hd : t.does r = r.action t.codeword := if_pos hc
    rw [walk, if_pos hc]
    cases ha : r.action t.codeword with
    | pass =>
      rw [Token.finding?_of_pass (hd.trans ha)]
      rfl
    | undefined => exact absurd (hd.trans ha) h
    | opens e =>
      cases hw : waiting pending e with
      | none =>
        rw [Token.finding?_of_opens (hd.trans ha) hw]
        simp only [show pending.find? (·.effect = e) = none from hw]
        rfl
      | some o =>
        rw [Token.finding?_of_reopens (hd.trans ha) hw]
        simp only [show pending.find? (·.effect = e) = some o from hw]
        rfl
    | closes e =>
      cases hw : waiting pending e with
      | none =>
        rw [Token.finding?_of_stray_end (hd.trans ha) hw]
        simp only [show pending.find? (·.effect = e) = none from hw]
        rfl
      | some o =>
        rw [Token.finding?_of_closes (hd.trans ha) hw]
        simp only [show pending.find? (·.effect = e) = some o from hw]
        rw [← waiting_effect hw]
        rfl
  · rw [walk, if_neg hc, Token.finding?_of_pass (if_neg hc)]
    rfl

theorem walk_cons_of_undefined (h : t.does r = .undefined) :
    walk r defaults pending passed (t :: ts) =
      Journal.ofExcept (.error (.undefinedEffect t.codeword)) := by
  have hc : t.isDirective ∧ ¬ t.isNative := by
    by_contra hn
    rw [Token.does, if_neg hn] at h
    exact nomatch h
  have hd : t.does r = r.action t.codeword := if_pos hc
  rw [walk, if_pos hc, ← hd, h]

/-! ### What is found, and what is noted of it -/

theorem Finding.filtered_trace (f : Finding) : Journal.Filtered 3 f.trace := by
  cases f with
  | opened o => exact Journal.filtered_note (by decide) _ _
  | closed o t stop => exact Journal.filtered_note (by decide) _ _
  | mismatch t f => exact Journal.filtered_pure ()

theorem Finding.filtered_followedBy (f : Finding) {m : Journal CompileError (List Finding)}
    (h : Journal.Filtered 3 m) : Journal.Filtered 3 (f.followedBy m) :=
  f.filtered_trace.bind fun _ => h.bind fun _ => Journal.filtered_pure _

theorem filtered_walk (r : Registry) (defaults : Params (Option Float)) (pending : List Opening)
    (passed : Nat) (ts : List Token) :
    Journal.Filtered 3 (walk r defaults pending passed ts) := by
  induction ts generalizing pending passed with
  | nil => exact Journal.filtered_pure _
  | cons t ts ih =>
    by_cases h : t.does r = .undefined
    · rw [walk_cons_of_undefined h]
      exact Journal.filtered_ofExcept _
    · rw [walk_cons h]
      cases t.finding? r defaults (waiting pending) passed with
      | none => exact ih _ _
      | some f => exact f.filtered_followedBy (ih _ _)

/-- Whether its notes are written or not, a walk finds the same. -/
theorem result_walk (v : Int) :
    (walk r defaults pending passed ts).result v = pair r defaults pending passed ts := by
  have h := (filtered_walk r defaults pending passed ts).result
  rw [pair, h v, h 0]

theorem pair_nil : pair r defaults pending passed [] = .ok (pending.map Opening.leftOpen) := rfl

/-- One step of pairing: a token's own finding, then those of the rest. -/
theorem pair_cons (h : t.does r ≠ .undefined) :
    pair r defaults pending passed (t :: ts) =
      (pair r defaults (keep pending (t.finding? r defaults (waiting pending) passed))
        (passed + t.visible.length) ts).map
          ((t.finding? r defaults (waiting pending) passed).toList ++ ·) := by
  have hid (x : Except CompileError (List Finding)) : x.map (([] : List Finding) ++ ·) = x := by
    cases x <;> rfl
  unfold pair
  rw [walk_cons h]
  cases t.finding? r defaults (waiting pending) passed with
  | none => exact (hid _).symm
  | some f => exact f.result_followedBy _ 0

theorem pair_cons_of_pass (h : t.does r = .pass) :
    pair r defaults pending passed (t :: ts) =
      pair r defaults pending (passed + t.visible.length) ts := by
  unfold pair
  rw [walk_cons (by simp [h]), Token.finding?_of_pass h]
  rfl

theorem pair_cons_of_undefined (h : t.does r = .undefined) :
    pair r defaults pending passed (t :: ts) = .error (.undefinedEffect t.codeword) := by
  rw [pair, walk_cons_of_undefined h, Journal.result_ofExcept]

/-- Pairing stops at the first directive without an effect. -/
theorem pair_append_of_undefined {us : List Token} (hu : ∀ u ∈ us, u.does r ≠ .undefined)
    (ht : t.does r = .undefined) (pending : List Opening) (passed : Nat) :
    pair r defaults pending passed (us ++ t :: ts) = .error (.undefinedEffect t.codeword) := by
  induction us generalizing pending passed with
  | nil => exact pair_cons_of_undefined ht
  | cons u us ih =>
    rw [List.cons_append, pair_cons (hu u (by simp)), ih fun w hw => hu w (by simp [hw])]
    rfl

theorem Token.does_ne_undefined_of_ok (h : pair r defaults pending passed (t :: ts) = .ok fs) :
    t.does r ≠ .undefined := by
  intro hd
  rw [pair_cons_of_undefined hd] at h
  exact nomatch h

/-! ### The open regions before each token -/

/-- The region of the effect that is open before token `n`. -/
def waitingAt (r : Registry) (defaults : Params (Option Float)) (ts : List Token) (n : Nat)
    (e : Effect) : Option Opening :=
  (opener? r ts e n).bind fun i => ts[i]?.map (·.opening defaults e (visibleBefore ts i))

/-- What is found at token `n`. -/
def findingAt (r : Registry) (defaults : Params (Option Float)) (ts : List Token) (n : Nat) :
    Option Finding :=
  ts[n]?.bind fun t => t.finding? r defaults (waitingAt r defaults ts n) (visibleBefore ts n)

/-- The open regions are those before token `n`, and of each effect there is one at most. -/
structure Keeps (r : Registry) (defaults : Params (Option Float)) (ts : List Token) (n : Nat)
    (pending : List Opening) : Prop where
  waits : waiting pending = waitingAt r defaults ts n
  nodup : (pending.map Opening.effect).Nodup

theorem keeps_zero : Keeps r defaults ts 0 [] := ⟨rfl, List.nodup_nil⟩

theorem waiting_append (pending : List Opening) (o : Opening) (e : Effect) :
    waiting (pending ++ [o]) e = (waiting pending e).or (if o.effect = e then some o else none) := by
  simp [waiting, List.find?_append, List.find?_singleton]

theorem waiting_filter (pending : List Opening) (e e' : Effect) :
    waiting (pending.filter (·.effect ≠ e')) e = if e = e' then none else waiting pending e := by
  rw [waiting, List.find?_filter]
  split
  · rename_i he
    simp [he]
  · rename_i he
    congr 1
    funext o
    by_cases ho : o.effect = e <;> simp [ho, he]

theorem startsAt_iff (ht : ts[n]? = some t) : StartsAt r ts e n ↔ t.does r = .opens e := by
  simp [StartsAt, ht, Token.does_eq_opens_iff]

theorem endsAt_iff (ht : ts[n]? = some t) : EndsAt r ts e n ↔ t.does r = .closes e := by
  simp [EndsAt, ht, Token.does_eq_closes_iff]

/-- A token changes the open region of its own effect only. -/
theorem waitingAt_succ (defaults : Params (Option Float)) (e : Effect) (ht : ts[n]? = some t) :
    waitingAt r defaults ts (n + 1) e =
      if t.does r = .closes e then none
      else (waitingAt r defaults ts n e).or
        (if t.does r = .opens e then some (t.opening defaults e (visibleBefore ts n)) else none) := by
  simp only [waitingAt, opener?, startsAt_iff ht, endsAt_iff ht]
  by_cases hc : t.does r = .closes e
  · simp [hc]
  · rcases opener?_cases r ts e n with ⟨i, hi, ho⟩ | ⟨hi, -⟩
    · obtain ⟨u, hu, -⟩ := ho.start
      simp [hc, hi, hu]
    · by_cases hs : t.does r = .opens e <;> simp [hc, hi, hs, ht]

theorem keeps_step (h : Keeps r defaults ts n pending) (ht : ts[n]? = some t) :
    Keeps r defaults ts (n + 1) (keep pending (findingAt r defaults ts n)) := by
  have hf : findingAt r defaults ts n =
      t.finding? r defaults (waiting pending) (visibleBefore ts n) := by
    simp [findingAt, ht, h.waits]
  rw [hf]
  have hnext (e : Effect) := waitingAt_succ (r := r) defaults e ht
  rw [← h.waits] at hnext
  cases hd : t.does r with
  | pass =>
    rw [Token.finding?_of_pass hd]
    refine ⟨?_, h.nodup⟩
    funext e
    simp [hnext, hd, keep]
  | undefined =>
    rw [Token.finding?, hd]
    refine ⟨?_, h.nodup⟩
    funext e
    simp [hnext, hd, keep]
  | opens e =>
    cases hw : waiting pending e with
    | none =>
      rw [Token.finding?_of_opens hd hw]
      constructor
      · funext e'
        rw [hnext, keep, waiting_append, hd]
        by_cases he : e = e' <;> simp [he, Token.opening]
      · have hne : ∀ o ∈ pending, o.effect ≠ e := by
          intro o ho
          simpa using List.find?_eq_none.mp hw o ho
        rw [keep, List.map_append, List.nodup_append]
        refine ⟨h.nodup, List.nodup_singleton _, ?_⟩
        simpa [Token.opening] using hne
    | some o =>
      rw [Token.finding?_of_reopens hd hw]
      refine ⟨?_, h.nodup⟩
      funext e'
      rw [hnext, keep, hd]
      by_cases he : e = e'
      · simp [← he, hw]
      · simp [he]
  | closes e =>
    cases hw : waiting pending e with
    | none =>
      rw [Token.finding?_of_stray_end hd hw]
      refine ⟨?_, h.nodup⟩
      funext e'
      rw [hnext, keep, hd]
      by_cases he : e = e'
      · simp [← he, hw]
      · simp [he]
    | some o =>
      rw [Token.finding?_of_closes hd hw, keep, waiting_effect hw]
      constructor
      · funext e'
        rw [hnext, waiting_filter, hd]
        by_cases he : e' = e
        · simp [he]
        · simp [he, Ne.symm he]
      · exact h.nodup.sublist (List.filter_sublist.map _)

/-- All that can be found at token `n`. -/
inductive Found (r : Registry) (defaults : Params (Option Float)) (ts : List Token) (n : Nat)
    (t : Token) : Option Finding → Prop
  | nothing : (∀ e, ¬ t.Starts r e) → (∀ e, ¬ t.Ends r e) → Found r defaults ts n t none
  | opened {e : Effect} : t.Starts r e → ¬ PendingAt r ts e n →
      Found r defaults ts n t (some (.opened (t.opening defaults e (visibleBefore ts n))))
  | reopened {e : Effect} {i : Nat} {u : Token} : t.Starts r e → OpenedBy r ts e n i →
      ts[i]? = some u →
      Found r defaults ts n t (some (.mismatch t (.reopened t.content e u.offset)))
  | closed {e : Effect} {i : Nat} {u : Token} : t.Ends r e → OpenedBy r ts e n i →
      ts[i]? = some u →
      Found r defaults ts n t
        (some (.closed (u.opening defaults e (visibleBefore ts i)) t (visibleBefore ts n)))
  | neverOpened {e : Effect} : t.Ends r e → ¬ PendingAt r ts e n →
      Found r defaults ts n t (some (.mismatch t (.neverOpened t.content e)))

theorem waitingAt_cases (r : Registry) (defaults : Params (Option Float)) (ts : List Token)
    (n : Nat) (e : Effect) :
    (∃ i u, OpenedBy r ts e n i ∧ ts[i]? = some u ∧
      waitingAt r defaults ts n e = some (u.opening defaults e (visibleBefore ts i))) ∨
    ¬ PendingAt r ts e n ∧ waitingAt r defaults ts n e = none := by
  rcases opener?_cases r ts e n with ⟨i, hi, ho⟩ | ⟨hi, hp⟩
  · obtain ⟨u, hu, -⟩ := ho.start
    exact .inl ⟨i, u, ho, hu, by simp [waitingAt, hi, hu]⟩
  · exact .inr ⟨hp, by simp [waitingAt, hi]⟩

theorem found_findingAt (defaults : Params (Option Float)) (ht : ts[n]? = some t) :
    Found r defaults ts n t (findingAt r defaults ts n) := by
  have hf : findingAt r defaults ts n =
      t.finding? r defaults (waitingAt r defaults ts n) (visibleBefore ts n) := by
    simp [findingAt, ht]
  rw [hf]
  have hno (a : Registry.Action) (ha : t.does r = a) (ho : ∀ e, a ≠ .opens e)
      (hc : ∀ e, a ≠ .closes e) : Found r defaults ts n t none := by
    apply Found.nothing
    · intro e hs
      exact ho e (ha.symm.trans (Token.does_eq_opens_iff.mpr hs))
    · intro e hs
      exact hc e (ha.symm.trans (Token.does_eq_closes_iff.mpr hs))
  cases hd : t.does r with
  | pass =>
    rw [Token.finding?_of_pass hd]
    exact hno _ hd nofun nofun
  | undefined =>
    rw [Token.finding?, hd]
    exact hno _ hd nofun nofun
  | opens e =>
    have hs := Token.does_eq_opens_iff.mp hd
    rcases waitingAt_cases r defaults ts n e with ⟨i, u, ho, hu, hw⟩ | ⟨hp, hw⟩
    · rw [Token.finding?_of_reopens hd hw]
      exact .reopened hs ho hu
    · rw [Token.finding?_of_opens hd hw]
      exact .opened hs hp
  | closes e =>
    have hs := Token.does_eq_closes_iff.mp hd
    rcases waitingAt_cases r defaults ts n e with ⟨i, u, ho, hu, hw⟩ | ⟨hp, hw⟩
    · rw [Token.finding?_of_closes hd hw]
      exact .closed hs ho hu
    · rw [Token.finding?_of_stray_end hd hw]
      exact .neverOpened hs hp

theorem visibleBefore_succ (ht : ts[n]? = some t) :
    visibleBefore ts (n + 1) = visibleBefore ts n + t.visible.length := by
  simp [visibleBefore, List.take_add_one, ht]

/-- The whole run: what is found at each token in turn, and then the regions left open. -/
theorem pair_run (hk : Keeps r defaults ts n pending) (hn : n ≤ ts.length)
    (h : pair r defaults pending (visibleBefore ts n) (ts.drop n) = .ok fs) :
    ∃ left, Keeps r defaults ts ts.length left ∧
      fs = (List.range' n (ts.length - n)).filterMap (findingAt r defaults ts) ++
        left.map Opening.leftOpen := by
  induction hd : ts.length - n generalizing n pending fs with
  | zero =>
    have he : n = ts.length := by omega
    subst he
    rw [List.drop_length, pair_nil] at h
    exact ⟨pending, hk, by simpa using (Except.ok.inj h).symm⟩
  | succ d ih =>
    have hlt : n < ts.length := by omega
    have ht : ts[n]? = some ts[n] := List.getElem?_eq_getElem hlt
    rw [List.drop_eq_getElem_cons hlt] at h
    rw [pair_cons (Token.does_ne_undefined_of_ok h), ← visibleBefore_succ ht] at h
    have hf : findingAt r defaults ts n =
        ts[n].finding? r defaults (waiting pending) (visibleBefore ts n) := by
      simp [findingAt, ht, hk.waits]
    rw [← hf, map_eq_ok_iff] at h
    obtain ⟨gs, hp, rfl⟩ := h
    obtain ⟨left, hl, hgs⟩ := ih (keeps_step hk ht) (by omega) hp (by omega)
    refine ⟨left, hl, ?_⟩
    rw [hgs, List.range'_succ, List.filterMap_cons]
    cases findingAt r defaults ts n <;> simp

theorem ofTokens_eq (r : Registry) (defaults : Params (Option Float)) (ts : List Token) :
    Timeline.ofTokens r defaults ts = (pair r defaults [] 0 ts).map (.ofFindings ts) := by
  rw [Timeline.ofTokens]
  cases pair r defaults [] 0 ts <;> rfl

theorem exists_pair (defaults : Params (Option Float)) (h : ∀ t ∈ ts, t.does r ≠ .undefined)
    (pending : List Opening) (passed : Nat) :
    ∃ fs, pair r defaults pending passed ts = .ok fs := by
  induction ts generalizing pending passed with
  | nil => exact ⟨_, rfl⟩
  | cons t ts ih =>
    obtain ⟨fs, hfs⟩ := ih (fun u hu => h u (by simp [hu]))
      (keep pending (t.finding? r defaults (waiting pending) passed)) (passed + t.visible.length)
    rw [pair_cons (h t (by simp)), hfs]
    exact ⟨_, rfl⟩

/-- Only a directive without an effect stops pairing. -/
theorem exists_ofTokens (defaults : Params (Option Float)) (h : ∀ t ∈ ts, t.does r ≠ .undefined) :
    ∃ x, Timeline.ofTokens r defaults ts = .ok x := by
  obtain ⟨fs, hfs⟩ := exists_pair defaults h [] 0
  exact ⟨_, by rw [ofTokens_eq, hfs]; rfl⟩

theorem ofTokens_run {x : Timeline} (h : Timeline.ofTokens r defaults ts = .ok x) :
    ∃ left, Keeps r defaults ts ts.length left ∧
      x = .ofFindings ts ((List.range ts.length).filterMap (findingAt r defaults ts) ++
        left.map Opening.leftOpen) := by
  rw [ofTokens_eq, map_eq_ok_iff] at h
  obtain ⟨fs, hp, rfl⟩ := h
  obtain ⟨left, hl, hfs⟩ := pair_run keeps_zero (Nat.zero_le _) hp
  refine ⟨left, hl, ?_⟩
  rw [hfs, List.range_eq_range', Nat.sub_zero]

end KineticText
