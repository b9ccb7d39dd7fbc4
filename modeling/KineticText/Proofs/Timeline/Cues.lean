import KineticText.Proofs.Timeline.Findings
import KineticText.Proofs.Token.Moving
import KineticText.Proofs.Token.Stripping

/-! Pairing sees the custom directives, and of the tokens between them only how many characters they
show. -/
namespace KineticText

/-- A custom directive, with the number of visible characters before it. -/
structure Cue where
  token : Token
  passed : Nat

/-- The custom directives among tokens that have so many visible characters before them. -/
def cues (passed : Nat) : List Token → List Cue
  | [] => []
  | t :: ts =>
    let rest := cues (passed + t.visible.length) ts
    if t.isCustom then ⟨t, passed⟩ :: rest else rest

/-- What is found at a directive, given the regions that are open. -/
def Cue.finding? (r : Registry) (defaults : Params (Option Float)) (pending : List Opening)
    (c : Cue) : Option Finding :=
  c.token.finding? r defaults (waiting pending) c.passed

/-- What is found at directives in turn. -/
def foundAlong (r : Registry) (defaults : Params (Option Float)) (pending : List Opening) :
    List Cue → List Finding
  | [] => []
  | c :: cs =>
    let f := c.finding? r defaults pending
    f.toList ++ foundAlong r defaults (keep pending f) cs

/-- The regions that are open after directives. -/
def openAfter (r : Registry) (defaults : Params (Option Float)) (pending : List Opening) :
    List Cue → List Opening
  | [] => pending
  | c :: cs => openAfter r defaults (keep pending (c.finding? r defaults pending)) cs

/-- All that pairing finds at directives and, of the regions left open, after them. -/
def foundIn (r : Registry) (defaults : Params (Option Float)) (pending : List Opening)
    (cs : List Cue) : List Finding :=
  foundAlong r defaults pending cs ++ (openAfter r defaults pending cs).map Opening.leftOpen

variable {r : Registry} {defaults : Params (Option Float)} {pending : List Opening}
  {passed m n : Nat} {t : Token} {ts us : List Token} {fs : List Finding} {c : Cue}
  {cs ds : List Cue} {p : Piece} {ps : List Piece} {mark : Text}

/-! ### The walk over the directives -/

theorem cues_cons_of_custom (h : t.isCustom) :
    cues passed (t :: ts) = ⟨t, passed⟩ :: cues (passed + t.visible.length) ts := by
  simp [cues, h]

theorem cues_cons_of_plain (h : ¬ t.isCustom) :
    cues passed (t :: ts) = cues (passed + t.visible.length) ts := by
  simp [cues, h]

theorem Token.does_of_plain (h : ¬ t.isCustom) : t.does r = .pass :=
  if_neg (mt isCustom_iff.mpr h)

theorem Token.visible_of_custom (h : t.isCustom) : t.visible = [] := by
  obtain ⟨hd, hn⟩ := isCustom_iff.mp h
  simp [visible, hd, hn]

theorem mem_of_mem_cues (h : c ∈ cues passed ts) : c.token ∈ ts := by
  induction ts generalizing passed with
  | nil => exact nomatch h
  | cons t ts ih =>
    by_cases ht : t.isCustom
    · rw [cues_cons_of_custom ht] at h
      rcases List.mem_cons.mp h with rfl | h
      · exact List.mem_cons_self
      · exact List.mem_cons_of_mem t (ih h)
    · rw [cues_cons_of_plain ht] at h
      exact List.mem_cons_of_mem t (ih h)

theorem exists_mem_cues (passed : Nat) (ht : t ∈ ts) (hc : t.isCustom) :
    ∃ c ∈ cues passed ts, c.token = t := by
  induction ts generalizing passed with
  | nil => exact nomatch ht
  | cons u ts ih =>
    rcases List.mem_cons.mp ht with rfl | ht
    · exact ⟨_, by rw [cues_cons_of_custom hc]; exact List.mem_cons_self, rfl⟩
    · obtain ⟨c, hmem, rfl⟩ := ih (passed + u.visible.length) ht
      by_cases hu : u.isCustom
      · exact ⟨c, by rw [cues_cons_of_custom hu]; exact List.mem_cons_of_mem _ hmem, rfl⟩
      · exact ⟨c, by rwa [cues_cons_of_plain hu], rfl⟩

/-- Pairing stops at a directive without an effect, and otherwise finds what the directives give. -/
theorem pair_eq_ok_iff : pair r defaults pending passed ts = .ok fs ↔
    (∀ c ∈ cues passed ts, c.token.does r ≠ .undefined) ∧
      fs = foundIn r defaults pending (cues passed ts) := by
  induction ts generalizing pending passed fs with
  | nil =>
    rw [pair_nil, Except.ok.injEq, eq_comm]
    simp [cues, foundIn, foundAlong, openAfter]
  | cons t ts ih =>
    by_cases ht : t.isCustom
    · rw [cues_cons_of_custom ht]
      by_cases hu : t.does r = .undefined
      · rw [pair_cons_of_undefined hu]
        simp [hu]
      · rw [pair_cons hu, map_eq_ok_iff]
        simp only [ih, foundIn, foundAlong, openAfter, Cue.finding?, List.append_assoc]
        constructor
        · rintro ⟨hs, ⟨hts, rfl⟩, rfl⟩
          exact ⟨List.forall_mem_cons.mpr ⟨hu, hts⟩, rfl⟩
        · rintro ⟨hts, rfl⟩
          exact ⟨_, ⟨(List.forall_mem_cons.mp hts).2, rfl⟩, rfl⟩
    · rw [cues_cons_of_plain ht, pair_cons_of_pass (if_neg (mt Token.isCustom_iff.mpr ht)), ih]

/-- The first directive without an effect is the one at which pairing stops. -/
theorem pair_eq_error_iff {x : CompileError} : pair r defaults pending passed ts = .error x ↔
    ∃ c, (cues passed ts).find? (·.token.does r = .undefined) = some c ∧
      x = .undefinedEffect c.token.codeword := by
  induction ts generalizing pending passed with
  | nil =>
    rw [pair_nil]
    simp [cues]
  | cons t ts ih =>
    by_cases ht : t.isCustom
    · rw [cues_cons_of_custom ht, List.find?_cons]
      by_cases hu : t.does r = .undefined
      · rw [pair_cons_of_undefined hu]
        simp [hu, eq_comm]
      · rw [pair_cons hu, map_eq_error_iff, ih]
        simp [hu]
    · rw [cues_cons_of_plain ht, pair_cons_of_pass (if_neg (mt Token.isCustom_iff.mpr ht)), ih]

/-- Pairing depends on the directives and their places among what is visible only. -/
theorem pair_congr {passed' : Nat} (h : cues passed ts = cues passed' us) :
    pair r defaults pending passed ts = pair r defaults pending passed' us := by
  cases hp : pair r defaults pending passed' us with
  | error x =>
    rw [pair_eq_error_iff] at hp ⊢
    rwa [h]
  | ok fs =>
    rw [pair_eq_ok_iff] at hp ⊢
    rwa [h]

theorem ofTokens_eq_ok_iff {x : Timeline} : Timeline.ofTokens r defaults ts = .ok x ↔
    (∀ c ∈ cues 0 ts, c.token.does r ≠ .undefined) ∧
      x = .ofFindings ts (foundIn r defaults [] (cues 0 ts)) := by
  rw [ofTokens_eq, map_eq_ok_iff]
  simp only [pair_eq_ok_iff]
  constructor
  · rintro ⟨fs, ⟨hdefined, rfl⟩, rfl⟩
    exact ⟨hdefined, rfl⟩
  · rintro ⟨hdefined, rfl⟩
    exact ⟨_, ⟨hdefined, rfl⟩, rfl⟩

/-! ### Tokens one behind the other -/

theorem cues_append : cues passed (ts ++ us) =
    cues passed ts ++ cues (passed + (ts.flatMap Token.visible).length) us := by
  induction ts generalizing passed with
  | nil => rfl
  | cons t ts ih =>
    rw [List.cons_append, List.flatMap_cons, List.length_append, ← Nat.add_assoc]
    by_cases ht : t.isCustom
    · rw [cues_cons_of_custom ht, cues_cons_of_custom ht, ih, List.cons_append]
    · rw [cues_cons_of_plain ht, cues_cons_of_plain ht, ih]

theorem foundAlong_append : foundAlong r defaults pending (cs ++ ds) =
    foundAlong r defaults pending cs ++
      foundAlong r defaults (openAfter r defaults pending cs) ds := by
  induction cs generalizing pending with
  | nil => rfl
  | cons c cs ih =>
    rw [List.cons_append, foundAlong, ih, foundAlong, openAfter, List.append_assoc]

theorem openAfter_append : openAfter r defaults pending (cs ++ ds) =
    openAfter r defaults (openAfter r defaults pending cs) ds := by
  induction cs generalizing pending with
  | nil => rfl
  | cons c cs ih => exact ih

/-- If no region is open in between, what is found is found in the two parts. -/
theorem foundIn_append (h : openAfter r defaults [] cs = []) :
    foundIn r defaults [] (cs ++ ds) =
      foundIn r defaults [] cs ++ foundIn r defaults [] ds := by
  rw [foundIn, foundAlong_append, openAfter_append, h, foundIn, foundIn, h, List.map_nil,
    List.append_nil, List.append_assoc]

/-! ### Tokens that show the same -/

theorem cues_of_plain (h : ∀ t ∈ ts, ¬ t.isCustom) : cues passed ts = [] := by
  induction ts generalizing passed with
  | nil => rfl
  | cons t ts ih =>
    obtain ⟨ht, hts⟩ := List.forall_mem_cons.mp h
    rw [cues_cons_of_plain ht, ih hts]

theorem Token.visible_pieces (hk : t.kind = .text) (hm : mark ≠ []) :
    (t.pieces mark).flatMap Token.visible = t.visible := by
  have hp := flatMap_pieces (F := Token.visible) (f := (·.2)) (t := t)
    (fun k w o h => by simp [visible, isDirective, h]) rfl hk hm
  rw [hp, parts_flatten hm]
  simp [visible, isDirective, hk]

theorem visible_splitPauses (hm : mark ≠ []) (ts : List Token) :
    (splitPauses mark ts).flatMap Token.visible = ts.flatMap Token.visible :=
  flatMap_splitPauses hm (fun _ _ hk => Token.visible_pieces hk hm) fun _ _ _ => rfl

theorem cues_splitPauses (hm : mark ≠ []) (passed : Nat) (ts : List Token) :
    cues passed (splitPauses mark ts) = cues passed ts := by
  induction ts generalizing passed with
  | nil => rfl
  | cons t ts ih =>
    have hcons : splitPauses mark (t :: ts) =
        (if t.kind = .text then t.pieces mark else [t]) ++ splitPauses mark ts := by
      rw [splitPauses_eq mark hm, splitPauses_eq mark hm, List.flatMap_cons]
    rw [hcons, cues_append, ih]
    by_cases hk : t.kind = .text
    · have hplain : ∀ u ∈ t.pieces mark, ¬ u.isCustom := by
        intro u hu
        apply Token.not_isCustom
        rcases t.mem_pieces hk hm hu with hu | ⟨hu, -⟩ <;> simp [hu]
      have ht : ¬ t.isCustom := Token.not_isCustom (by simp [hk])
      rw [if_pos hk, cues_of_plain hplain, Token.visible_pieces hk hm, cues_cons_of_plain ht,
        List.nil_append]
    · rw [if_neg hk, ← cues_append, List.singleton_append]

/-- The timeline of the split list is that of the tokens before the split. -/
theorem ofTokens_splitPauses (hm : mark ≠ []) (defaults : Params (Option Float))
    (ts : List Token) :
    Timeline.ofTokens r defaults (splitPauses mark ts) = Timeline.ofTokens r defaults ts := by
  have hform : Timeline.ofFindings (splitPauses mark ts) = Timeline.ofFindings ts := by
    funext fs
    rw [Timeline.ofFindings, Timeline.ofFindings, display_splitPauses hm, visible_splitPauses hm]
  rw [ofTokens_eq, ofTokens_eq, pair_congr (cues_splitPauses hm 0 ts), hform]

/-- It does not matter whether two texts that meet are one. -/
theorem cues_prepend (passed n : Nat) (p : Piece) (ps : List Piece) :
    cues passed (placed r n (p.prepend ps)) =
      cues passed (p.token r n :: placed r (n + p.source.length) ps) := by
  have htext (w : Text) (n passed : Nat) (ts : List Token) :
      cues passed (Piece.token r n (.text w) :: ts) = cues (passed + w.length) ts :=
    cues_cons_of_plain (Token.not_isCustom nofun)
  unfold Piece.prepend
  split
  · rename_i w v ps
    rw [placed_cons, htext, htext, placed_cons, htext]
    simp [Piece.source, Nat.add_assoc]
  · split
    · rename_i hw
      rw [htext, hw]
      rfl
    · rfl
  · rfl

theorem cues_joined (passed n : Nat) (ps : List Piece) :
    cues passed (placed r n (joined ps)) = cues passed (placed r n ps) := by
  induction ps generalizing passed n with
  | nil => rfl
  | cons p ps ih =>
    rw [joined_cons, cues_prepend, placed_cons]
    by_cases hp : (p.token r n).isCustom
    · rw [cues_cons_of_custom hp, cues_cons_of_custom hp, ih]
    · rw [cues_cons_of_plain hp, cues_cons_of_plain hp, ih]

/-! ### The regions left open -/

theorem keeps_openAfter (hk : Keeps r defaults ts n pending) (hn : n ≤ ts.length) :
    Keeps r defaults ts ts.length
      (openAfter r defaults pending (cues (visibleBefore ts n) (ts.drop n))) := by
  induction hd : ts.length - n generalizing n pending with
  | zero =>
    obtain rfl : n = ts.length := by omega
    rw [List.drop_length]
    exact hk
  | succ d ih =>
    have hlt : n < ts.length := by omega
    have ht : ts[n]? = some ts[n] := List.getElem?_eq_getElem hlt
    have hnext := ih (keeps_step hk ht) hlt (by omega)
    have hf : findingAt r defaults ts n =
        ts[n].finding? r defaults (waiting pending) (visibleBefore ts n) := by
      simp [findingAt, ht, hk.waits]
    rw [hf, visibleBefore_succ ht] at hnext
    rw [List.drop_eq_getElem_cons hlt]
    by_cases hc : ts[n].isCustom
    · rw [cues_cons_of_custom hc]
      exact hnext
    · rw [Token.finding?_of_pass (Token.does_of_plain hc)] at hnext
      rw [cues_cons_of_plain hc]
      exact hnext

/-- No region is left open exactly if no start waits for its end. -/
theorem openAfter_eq_nil_iff : openAfter r defaults [] (cues 0 ts) = [] ↔
    ∀ e, ¬ PendingAt r ts e ts.length := by
  have hk : Keeps r defaults ts ts.length (openAfter r defaults [] (cues 0 ts)) :=
    keeps_openAfter keeps_zero (Nat.zero_le _)
  generalize openAfter r defaults [] (cues 0 ts) = left at hk
  have hwait (e : Effect) : waiting left e = none ↔ ¬ PendingAt r ts e ts.length := by
    rw [hk.waits]
    rcases waitingAt_cases r defaults ts ts.length e with ⟨i, u, ho, -, hw⟩ | ⟨hp, hw⟩
    · simp [hw, ho.pendingAt]
    · simp [hw, hp]
  simp only [← hwait]
  constructor
  · rintro rfl e
    rfl
  · intro h
    rw [List.eq_nil_iff_forall_not_mem]
    intro o ho
    exact List.find?_eq_none.mp (h o.effect) o ho (by simp)

/-! ### Directives, open regions and findings carried over -/

/-- What is found at a token carries over to another that does the same, if each thing that it can
give does. -/
theorem Token.finding?_carried {defaults' : Params (Option Float)} {opening : Opening → Opening}
    {finding : Finding → Finding} {t t' : Token} {passed passed' : Nat}
    (hdoes : t'.does r = t.does r)
    (hopened : ∀ e, finding (.opened (t.opening defaults e passed)) =
      .opened (t'.opening defaults' e passed'))
    (hreopened : ∀ e o, finding (.mismatch t (.reopened t.content e o.token.offset)) =
      .mismatch t' (.reopened t'.content e (opening o).token.offset))
    (hclosed : ∀ o, finding (.closed o t passed) = .closed (opening o) t' passed')
    (hneverOpened : ∀ e, finding (.mismatch t (.neverOpened t.content e)) =
      .mismatch t' (.neverOpened t'.content e)) (waits : Effect → Option Opening) :
    t'.finding? r defaults' (fun e => (waits e).map opening) passed' =
      (t.finding? r defaults waits passed).map finding := by
  rw [finding?, finding?, hdoes]
  cases t.does r with
  | pass => rfl
  | undefined => rfl
  | opens e =>
    dsimp only
    cases waits e with
    | none => exact congrArg some (hopened e).symm
    | some o => exact congrArg some (hreopened e o).symm
  | closes e =>
    dsimp only
    cases waits e with
    | none => exact congrArg some (hneverOpened e).symm
    | some o => exact congrArg some (hclosed o).symm

/-- Maps of the directives walked, of the open regions and of what is found that go together at
every directive. -/
structure Carries (r : Registry) (defaults defaults' : Params (Option Float)) (cue : Cue → Cue)
    (opening : Opening → Opening) (finding : Finding → Finding) : Prop where
  effect : ∀ o, (opening o).effect = o.effect
  opened : ∀ o, finding (.opened o) = .opened (opening o)
  closed : ∀ o t stop, ∃ t' stop', finding (.closed o t stop) = .closed (opening o) t' stop'
  mismatch : ∀ t f, ∃ t' f', finding (.mismatch t f) = .mismatch t' f'
  leftOpen : ∀ o, finding o.leftOpen = (opening o).leftOpen
  found : ∀ waits c, (cue c).token.finding? r defaults' (fun e => (waits e).map opening)
    (cue c).passed = (c.token.finding? r defaults waits c.passed).map finding

namespace Carries

variable {defaults' : Params (Option Float)} {cue : Cue → Cue} {opening : Opening → Opening}
  {finding : Finding → Finding} (h : Carries r defaults defaults' cue opening finding)
include h

theorem finding? (pending : List Opening) (c : Cue) :
    (cue c).finding? r defaults' (pending.map opening) =
      (c.finding? r defaults pending).map finding := by
  have hwait : waiting (pending.map opening) = fun e => (waiting pending e).map opening := by
    funext e
    have hsame : (fun o : Opening => decide (o.effect = e)) ∘ opening =
        fun o => decide (o.effect = e) := by
      funext o
      rw [Function.comp_apply, h.effect]
    rw [waiting, waiting, List.find?_map, hsame]
  rw [Cue.finding?, hwait]
  exact h.found (waiting pending) c

theorem keep (pending : List Opening) (f : Option Finding) :
    keep (pending.map opening) (f.map finding) = (keep pending f).map opening := by
  cases f with
  | none => rfl
  | some f =>
    cases f with
    | opened o => simp [KineticText.keep, h.opened]
    | closed o t stop =>
      obtain ⟨t', stop', hf⟩ := h.closed o t stop
      simp [KineticText.keep, hf, List.filter_map, Function.comp_def, h.effect]
    | mismatch t f =>
      obtain ⟨t', f', hf⟩ := h.mismatch t f
      simp [KineticText.keep, hf]

theorem foundAlong (pending : List Opening) (cs : List Cue) :
    foundAlong r defaults' (pending.map opening) (cs.map cue) =
      (foundAlong r defaults pending cs).map finding := by
  induction cs generalizing pending with
  | nil => rfl
  | cons c cs ih =>
    rw [List.map_cons, KineticText.foundAlong, h.finding?, h.keep, ih, KineticText.foundAlong,
      List.map_append]
    cases c.finding? r defaults pending <;> rfl

theorem openAfter (pending : List Opening) (cs : List Cue) :
    openAfter r defaults' (pending.map opening) (cs.map cue) =
      (openAfter r defaults pending cs).map opening := by
  induction cs generalizing pending with
  | nil => rfl
  | cons c cs ih =>
    rw [List.map_cons, KineticText.openAfter, h.finding?, h.keep, ih, KineticText.openAfter]

/-- What is found at the directives carried over is carried over. -/
theorem foundIn (pending : List Opening) (cs : List Cue) :
    foundIn r defaults' (pending.map opening) (cs.map cue) =
      (foundIn r defaults pending cs).map finding := by
  rw [KineticText.foundIn, h.foundAlong, h.openAfter, KineticText.foundIn, List.map_append,
    List.map_map, List.map_map]
  congr 2
  funext o
  exact (h.leftOpen o).symm

end Carries

/-! ### The same directives elsewhere -/

/-- The region with so many characters more before it. -/
def Region.shift (k : Int) (g : Region) : Region :=
  { g with start := g.start + k, stop := g.stop + k }

def Opening.move (g : Int → Int) (k : Nat) (o : Opening) : Opening :=
  { o with token := o.token.move g, start := o.start + k }

def Fault.move (g : Int → Int) : Fault → Fault
  | nested p => nested (g p)
  | reopened c e p => reopened c e (g p)
  | f => f

def Finding.move (g : Int → Int) (k : Nat) : Finding → Finding
  | opened o => opened (o.move g k)
  | closed o t stop => closed (o.move g k) (t.move g) (stop + k)
  | mismatch t f => mismatch (t.move g) (f.move g)

def Cue.move (g : Int → Int) (k : Nat) (c : Cue) : Cue := ⟨c.token.move g, c.passed + k⟩

variable (g : Int → Int) (k : Nat)

theorem cues_move (passed : Nat) (ts : List Token) :
    cues (passed + k) (ts.map (Token.move g)) = (cues passed ts).map (Cue.move g k) := by
  induction ts generalizing passed with
  | nil => rfl
  | cons t ts ih =>
    have hnext := ih (passed + t.visible.length)
    rw [Nat.add_right_comm] at hnext
    by_cases ht : t.isCustom
    · rw [cues_cons_of_custom ht, List.map_cons, List.map_cons, ← hnext]
      exact cues_cons_of_custom ht
    · rw [cues_cons_of_plain ht, List.map_cons, ← hnext]
      exact cues_cons_of_plain ht

theorem carries_move : Carries r defaults defaults (Cue.move g k) (Opening.move g k)
    (Finding.move g k) where
  effect _ := rfl
  opened _ := rfl
  closed _ _ _ := ⟨_, _, rfl⟩
  mismatch _ _ := ⟨_, _, rfl⟩
  leftOpen _ := rfl
  found waits _ := by
    refine Token.finding?_carried ?_ ?_ ?_ ?_ ?_ waits
    all_goals
      intros
      rfl

/-- Directives elsewhere give the same findings there. -/
theorem foundIn_move (pending : List Opening) (cs : List Cue) :
    foundIn r defaults (pending.map (Opening.move g k)) (cs.map (Cue.move g k)) =
      (foundIn r defaults pending cs).map (Finding.move g k) :=
  (carries_move g k).foundIn pending cs

theorem regions_move (fs : List Finding) : (fs.map (Finding.move g k)).filterMap Finding.region? =
    (fs.filterMap Finding.region?).map (Region.shift k) := by
  rw [List.filterMap_map, List.map_filterMap]
  apply List.filterMap_congr
  intro f _
  cases f <;> rfl

theorem sites_move (fs : List Finding) :
    ((fs.map (Finding.move g k)).filterMap Finding.diagnostic?).map Diagnostic.site =
      (fs.filterMap Finding.diagnostic?).map fun d => (d.kind, g d.offset) := by
  rw [List.filterMap_map, List.map_filterMap, List.map_filterMap]
  apply List.filterMap_congr
  intro f _
  cases f with
  | opened o => rfl
  | closed o t stop => rfl
  | mismatch t f => cases f <;> rfl

end KineticText
