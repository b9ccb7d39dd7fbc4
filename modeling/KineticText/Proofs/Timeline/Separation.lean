import KineticText.Proofs.Timeline.Cues

/-! The directives of one effect are paired as if there were no others. -/
namespace KineticText

/-- The directive starts or ends regions of the effect. -/
def Token.Concerns (r : Registry) (e : Effect) (t : Token) : Prop := t.Starts r e ∨ t.Ends r e

/-- The effect whose regions do not pair up. -/
def Fault.effect? : Fault → Option Effect
  | reopened _ e _ | neverOpened _ e | neverClosed _ e => some e
  | _ => none

def Finding.effect? : Finding → Option Effect
  | opened o | closed o _ _ => some o.effect
  | mismatch _ f => f.effect?

variable {r : Registry} {defaults : Params (Option Float)} {pending : List Opening} {t : Token}
  {ts : List Token} {e e' : Effect} {f : Finding} {c : Cue} {cs ds : List Cue}

instance : Decidable (t.Concerns r e) := inferInstanceAs (Decidable (_ ∨ _))

theorem Token.Concerns.effect_eq (h : t.Concerns r e) (h' : t.Concerns r e') : e = e' := by
  rcases h with h | h
  · rcases h' with h' | h'
    · exact h.effect_eq h'
    · exact absurd h' h.not_ends
  · rcases h' with h' | h'
    · exact absurd h h'.not_ends
    · exact h.effect_eq h'

theorem Token.Concerns.isCustom (h : t.Concerns r e) : t.isCustom := by
  rw [isCustom_iff]
  rcases h with ⟨hd, hn, -⟩ | ⟨hd, hn, -⟩
  · exact ⟨hd, hn⟩
  · exact ⟨hd, hn⟩

/-- All that can be found at a directive. -/
inductive Cue.Gives (r : Registry) (defaults : Params (Option Float)) (pending : List Opening)
    (c : Cue) : Finding → Prop
  | opened {e : Effect} : c.token.Starts r e → waiting pending e = none →
      Gives r defaults pending c (.opened (c.token.opening defaults e c.passed))
  | reopened {e : Effect} {o : Opening} : c.token.Starts r e → waiting pending e = some o →
      Gives r defaults pending c
        (.mismatch c.token (.reopened c.token.content e o.token.offset))
  | closed {e : Effect} {o : Opening} : c.token.Ends r e → waiting pending e = some o →
      Gives r defaults pending c (.closed o c.token c.passed)
  | neverOpened {e : Effect} : c.token.Ends r e → waiting pending e = none →
      Gives r defaults pending c (.mismatch c.token (.neverOpened c.token.content e))

theorem Cue.gives_of_finding (h : c.finding? r defaults pending = some f) :
    c.Gives r defaults pending f := by
  rw [finding?] at h
  cases hd : c.token.does r with
  | pass => simp [Token.finding?, hd] at h
  | undefined => simp [Token.finding?, hd] at h
  | opens e =>
    have hs := Token.does_eq_opens_iff.mp hd
    cases hw : waiting pending e with
    | none =>
      rw [Token.finding?_of_opens hd hw] at h
      cases h
      exact .opened hs hw
    | some o =>
      rw [Token.finding?_of_reopens hd hw] at h
      cases h
      exact .reopened hs hw
  | closes e =>
    have hs := Token.does_eq_closes_iff.mp hd
    cases hw : waiting pending e with
    | none =>
      rw [Token.finding?_of_stray_end hd hw] at h
      cases h
      exact .neverOpened hs hw
    | some o =>
      rw [Token.finding?_of_closes hd hw] at h
      cases h
      exact .closed hs hw

/-- What a directive gives is about its own effect. -/
theorem Cue.Gives.effect (h : c.Gives r defaults pending f) :
    ∃ e, f.effect? = some e ∧ c.token.Concerns r e := by
  cases h with
  | opened hs _ => exact ⟨_, rfl, .inl hs⟩
  | reopened hs _ => exact ⟨_, rfl, .inl hs⟩
  | closed hs hw => exact ⟨_, congrArg some (waiting_effect hw), .inr hs⟩
  | neverOpened hs _ => exact ⟨_, rfl, .inr hs⟩

/-! ### Without one effect -/

/-- A directive of another effect does not see the regions of this one. -/
theorem Cue.finding?_filter (h : ¬ c.token.Concerns r e) :
    c.finding? r defaults (pending.filter (·.effect ≠ e)) = c.finding? r defaults pending := by
  have hwait (e' : Effect) (hc : c.token.Concerns r e') :
      waiting (pending.filter (·.effect ≠ e)) e' = waiting pending e' := by
    rw [waiting_filter, if_neg]
    rintro rfl
    exact h hc
  rw [finding?, finding?, Token.finding?, Token.finding?]
  cases hd : c.token.does r with
  | pass => rfl
  | undefined => rfl
  | opens e' => simp only [hwait e' (.inl (Token.does_eq_opens_iff.mp hd))]
  | closes e' => simp only [hwait e' (.inr (Token.does_eq_closes_iff.mp hd))]

/-- What is found of the effect leaves the regions of the others open. -/
theorem filter_keep_self (h : f.effect? = some e) :
    (keep pending (some f)).filter (·.effect ≠ e) = pending.filter (·.effect ≠ e) := by
  cases f with
  | opened o =>
    have ho : o.effect = e := Option.some.inj h
    simp [keep, ho]
  | closed o t stop =>
    have ho : o.effect = e := Option.some.inj h
    simp [keep, ho]
  | mismatch t f => rfl

/-- What is found of another effect is done to the regions of the others. -/
theorem filter_keep_of_ne (h : f.effect? ≠ some e) :
    (keep pending (some f)).filter (·.effect ≠ e) =
      keep (pending.filter (·.effect ≠ e)) (some f) := by
  cases f with
  | opened o =>
    have ho : o.effect ≠ e := fun ho => h (congrArg some ho)
    simp [keep, ho]
  | closed o t stop =>
    rw [keep, keep, List.filter_filter, List.filter_filter]
    exact List.filter_congr fun o' _ => Bool.and_comm _ _
  | mismatch t f => rfl

/-- The directives of the other effects are walked as they are among those of this one. -/
theorem walk_filter (r : Registry) (defaults : Params (Option Float)) (e : Effect)
    (pending : List Opening) (cs : List Cue) :
    foundAlong r defaults (pending.filter (·.effect ≠ e))
        (cs.filter fun c => ¬ c.token.Concerns r e) =
      (foundAlong r defaults pending cs).filter (·.effect? ≠ some e) ∧
    openAfter r defaults (pending.filter (·.effect ≠ e))
        (cs.filter fun c => ¬ c.token.Concerns r e) =
      (openAfter r defaults pending cs).filter (·.effect ≠ e) := by
  induction cs generalizing pending with
  | nil => exact ⟨rfl, rfl⟩
  | cons c cs ih =>
    have hnext := ih (keep pending (c.finding? r defaults pending))
    rw [foundAlong, openAfter, List.filter_append]
    by_cases hc : c.token.Concerns r e
    · have hskip : (c :: cs).filter (fun c => ¬ c.token.Concerns r e) =
          cs.filter fun c => ¬ c.token.Concerns r e := by simp [hc]
      rw [hskip]
      -- What it gives is about `e`, so it leaves the other regions as they are.
      cases hf : c.finding? r defaults pending with
      | none =>
        rw [hf] at hnext
        exact hnext
      | some f =>
        obtain ⟨e', he, hc'⟩ := (Cue.gives_of_finding hf).effect
        obtain rfl := hc.effect_eq hc'
        rw [hf, filter_keep_self he] at hnext
        simpa [he] using hnext
    · have hstay : (c :: cs).filter (fun c => ¬ c.token.Concerns r e) =
          c :: cs.filter fun c => ¬ c.token.Concerns r e := by simp [hc]
      rw [hstay, foundAlong, openAfter, Cue.finding?_filter hc]
      cases hf : c.finding? r defaults pending with
      | none =>
        rw [hf] at hnext
        exact hnext
      | some f =>
        obtain ⟨e', he, hc'⟩ := (Cue.gives_of_finding hf).effect
        have hne : f.effect? ≠ some e := by
          intro h
          obtain rfl := Option.some.inj (he.symm.trans h)
          exact hc hc'
        rw [hf, filter_keep_of_ne hne] at hnext
        simpa [hne] using hnext

/-- Without the directives of an effect, what is found is what is found of the others. -/
theorem foundIn_filter (e : Effect) (cs : List Cue) :
    foundIn r defaults [] (cs.filter fun c => ¬ c.token.Concerns r e) =
      (foundIn r defaults [] cs).filter (·.effect? ≠ some e) := by
  obtain ⟨hfound, hopen⟩ := walk_filter r defaults e [] cs
  rw [List.filter_nil] at hfound hopen
  have hleft : ((openAfter r defaults [] cs).filter (·.effect ≠ e)).map Opening.leftOpen =
      ((openAfter r defaults [] cs).map Opening.leftOpen).filter (·.effect? ≠ some e) := by
    rw [List.filter_map]
    congr 1
    apply List.filter_congr
    intro o _
    simp [Opening.leftOpen, Finding.effect?, Fault.effect?]
  rw [foundIn, hfound, hopen, hleft, foundIn, List.filter_append]

/-! ### What is reported of an effect -/

/-- A mismatch is reported of a directive among those walked. -/
def Finding.Sourced (r : Registry) (cs : List Cue) : Finding → Prop
  | mismatch t f =>
    f.kind = .regionMismatch ∧ ∃ e, f.effect? = some e ∧ t.Concerns r e ∧ ∃ c ∈ cs, c.token = t
  | _ => True

/-- An open region is one of a directive among those walked. -/
def Opening.Sourced (r : Registry) (cs : List Cue) (o : Opening) : Prop :=
  o.token.Concerns r o.effect ∧ ∃ c ∈ cs, c.token = o.token

theorem Cue.Gives.sourced (h : c.Gives r defaults pending f) (hc : c ∈ cs) : f.Sourced r cs := by
  cases h with
  | opened _ _ => trivial
  | reopened hs _ => exact ⟨rfl, _, rfl, .inl hs, c, hc, rfl⟩
  | closed _ _ => trivial
  | neverOpened hs _ => exact ⟨rfl, _, rfl, .inr hs, c, hc, rfl⟩

/-- Only an opening adds to the open regions. -/
theorem sourced_keep (h : c.Gives r defaults pending f) (hc : c ∈ cs)
    (hp : ∀ o ∈ pending, o.Sourced r cs) : ∀ o ∈ keep pending (some f), o.Sourced r cs := by
  cases h with
  | opened hs _ =>
    intro o ho
    rcases List.mem_append.mp ho with ho | ho
    · exact hp o ho
    · obtain rfl := List.mem_singleton.mp ho
      exact ⟨.inl hs, c, hc, rfl⟩
  | reopened _ _ => exact hp
  | closed _ _ =>
    intro o ho
    exact hp o (List.mem_of_mem_filter ho)
  | neverOpened _ _ => exact hp

theorem sourced_walk (defaults : Params (Option Float)) (hcs : ∀ c ∈ cs, c ∈ ds)
    (hp : ∀ o ∈ pending, o.Sourced r ds) :
    (∀ f ∈ foundAlong r defaults pending cs, f.Sourced r ds) ∧
      ∀ o ∈ openAfter r defaults pending cs, o.Sourced r ds := by
  induction cs generalizing pending with
  | nil => exact ⟨List.forall_mem_nil _, hp⟩
  | cons c cs ih =>
    obtain ⟨hc, hcs⟩ := List.forall_mem_cons.mp hcs
    rw [foundAlong, openAfter]
    cases hf : c.finding? r defaults pending with
    | none => exact ih hcs hp
    | some f =>
      have hgives := Cue.gives_of_finding hf
      obtain ⟨hfound, hopen⟩ := ih hcs (sourced_keep hgives hc hp)
      exact ⟨List.forall_mem_cons.mpr ⟨hgives.sourced hc, hfound⟩, hopen⟩

theorem sourced_foundIn (h : f ∈ foundIn r defaults [] cs) : f.Sourced r cs := by
  have hall : ∀ c ∈ cs, c ∈ cs := fun _ hc => hc
  obtain ⟨hfound, hopen⟩ := sourced_walk defaults hall (List.forall_mem_nil (Opening.Sourced r cs))
  rcases List.mem_append.mp h with h | h
  · exact hfound f h
  · obtain ⟨o, ho, rfl⟩ := List.mem_map.mp h
    exact ⟨rfl, o.effect, rfl, hopen o ho⟩

end KineticText
