import KineticText.Proofs.Compile.Outcome
import Mathlib.Data.List.Induction

/-! Stages run in any order and as often as one likes: once a draft has been tokenized, split after
that and laid out after that, it is what a compile gives, whatever it held before. -/
namespace KineticText

/-- What one stage makes of a draft, and what it reports. -/
inductive Stage.Makes (s : Settings) (r : Registry) (d : Draft) :
    Stage → List Diagnostic → Draft → Prop
  | tokenize : Makes s r d .tokenize (KineticText.tokenize r d.source).2
      { d with
        tokens := (KineticText.tokenize r d.source).1
        diagnostics := d.diagnostics ++ (KineticText.tokenize r d.source).2 }
  | split : Makes s r d .split [] { d with processed := splitPauses s.pauseMark d.tokens }
  | timeline {x : Timeline} (h : Timeline.ofTokens r s.paramDefaults d.processed = .ok x) :
    Makes s r d .timeline x.diagnostics
      { d with
        display := x.display, regions := x.regions, visibleCount := x.visibleCount
        diagnostics := d.diagnostics ++ x.diagnostics }

/-- What a stage reports behind others: the scanner finds the same at any time, and pairing does once
the tokens have been split. -/
def Stage.Reports (scanned paired : List Diagnostic) (before : List Stage) :
    Stage → List Diagnostic → Prop
  | .tokenize, block => block = scanned
  | .split, block => block = []
  | .timeline, block => [.tokenize, .split].Sublist before → block = paired

/-- The blocks of diagnostics that stages add one after the other. -/
structure Reported (scanned paired : List Diagnostic) (stages : List Stage)
    (blocks : List (List Diagnostic)) : Prop where
  length : blocks.length = stages.length
  block : ∀ (i : Nat) stage block, stages[i]? = some stage → blocks[i]? = some block →
    stage.Reports scanned paired (stages.take i) block

/-- All that the draft holds is as in the compiled form, the diagnostics apart. -/
structure Draft.Holds (d : Draft) (c : Compiled) : Prop where
  tokens : d.tokens = c.tokens
  processed : d.processed = c.processed
  display : d.display = c.display
  regions : d.regions = c.regions
  visibleCount : d.visibleCount = c.visibleCount

/-- What is known of a draft after stages that began with `d`. -/
structure Progress (s : Settings) (r : Registry) (d : Draft) (stages : List Stage) (d' : Draft) :
    Prop where
  source : d'.source = d.source
  tokens : [.tokenize].Sublist stages → d'.tokens = (tokenize r d.source).1
  processed : [.tokenize, .split].Sublist stages →
    d'.processed = splitPauses s.pauseMark (tokenize r d.source).1
  timeline : Stage.all.Sublist stages → ∃ x,
    Timeline.ofTokens r s.paramDefaults (splitPauses s.pauseMark (tokenize r d.source).1) = .ok x ∧
      d'.display = x.display ∧ d'.regions = x.regions ∧ d'.visibleCount = x.visibleCount
  diagnostics : ∃ blocks, d'.diagnostics = d.diagnostics ++ blocks.flatten ∧
    ∀ x, Timeline.ofTokens r s.paramDefaults
        (splitPauses s.pauseMark (tokenize r d.source).1) = .ok x →
      Reported (tokenize r d.source).2 x.diagnostics stages blocks

variable {s : Settings} {r : Registry} {d d' d'' : Draft} {stage : Stage} {stages : List Stage}
  {scanned paired block : List Diagnostic} {blocks : List (List Diagnostic)} {v : Int}

/-! ### One stage -/

theorem Stage.makes_of_run (h : (stage.run s r d).result v = .ok d') :
    ∃ block, stage.Makes s r d block d' := by
  cases stage with
  | tokenize =>
    obtain rfl := Except.ok.inj (Draft.result_tokenize.symm.trans h)
    exact ⟨_, .tokenize⟩
  | split =>
    obtain rfl := Except.ok.inj (Draft.result_split.symm.trans h)
    exact ⟨_, .split⟩
  | timeline =>
    obtain ⟨x, hx, rfl⟩ := map_eq_ok_iff.mp (Draft.result_layTimeline.symm.trans h)
    exact ⟨_, .timeline hx⟩

theorem Stage.result_runAll_snoc (stages : List Stage) (stage : Stage) :
    (runAll s r (stages ++ [stage]) d).result v =
      ((runAll s r stages d).result v).bind fun d => (stage.run s r d).result v := by
  induction stages generalizing d with
  | nil =>
    rw [List.nil_append, result_runAll_cons]
    change _ = (stage.run s r d).result v
    cases (stage.run s r d).result v <;> rfl
  | cons first stages ih =>
    rw [List.cons_append, result_runAll_cons, result_runAll_cons]
    cases (first.run s r d).result v with
    | error e => rfl
    | ok d => exact ih

/-! ### Stages in their order -/

/-- All but the last of the stages asked for stand before a last stage. -/
theorem sublist_of_snoc (as : List Stage) {a b : Stage} {bs : List Stage}
    (h : (as ++ [a]).Sublist (bs ++ [b])) : as.Sublist bs := by
  have hreverse := h.reverse
  rw [List.reverse_append, List.reverse_append] at hreverse
  exact List.reverse_sublist.mp hreverse.tail

/-- A last stage other than the last one asked for does not count. -/
theorem sublist_of_snoc_of_ne (as : List Stage) {a b : Stage} {bs : List Stage}
    (h : (as ++ [a]).Sublist (bs ++ [b])) (hne : a ≠ b) : (as ++ [a]).Sublist bs := by
  have hreverse := h.reverse
  rw [List.reverse_append, List.reverse_append] at hreverse
  have hrest := List.Sublist.of_cons_of_ne hne hreverse
  simpa using hrest.reverse

theorem Reported.snoc (h : Reported scanned paired stages blocks)
    (hb : stage.Reports scanned paired stages block) :
    Reported scanned paired (stages ++ [stage]) (blocks ++ [block]) where
  length := by rw [List.length_append, List.length_append, h.length]; rfl
  block i g b hg hgb := by
    by_cases hi : i < stages.length
    · rw [List.getElem?_append_left hi] at hg
      rw [List.getElem?_append_left (by rwa [h.length])] at hgb
      rw [List.take_append_of_le_length (Nat.le_of_lt hi)]
      exact h.block i g b hg hgb
    · obtain rfl : i = stages.length := by
        have hlt := (List.getElem?_eq_some_iff.mp hg).1
        simp only [List.length_append, List.length_singleton] at hlt
        omega
      rw [List.getElem?_concat_length, Option.some.injEq] at hg
      rw [← h.length, List.getElem?_concat_length, Option.some.injEq] at hgb
      subst hg hgb
      rwa [List.take_left]

/-- With the built-in directives no stage fails, whatever the draft holds. -/
theorem exists_runAll_standard (s : Settings) (stages : List Stage) (d : Draft) :
    ∃ d', (Stage.runAll s .standard stages d).result v = .ok d' := by
  induction stages generalizing d with
  | nil => exact ⟨d, rfl⟩
  | cons stage stages ih =>
    obtain ⟨d', hd'⟩ : ∃ d', (stage.run s .standard d).result v = .ok d' := by
      cases stage with
      | tokenize => exact ⟨_, Draft.result_tokenize⟩
      | split => exact ⟨_, Draft.result_split⟩
      | timeline =>
        have hdefined : ∀ t ∈ d.processed, t.does .standard ≠ .undefined :=
          fun t _ => t.does_standard_ne_undefined
        obtain ⟨x, hx⟩ := exists_ofTokens s.paramDefaults hdefined
        exact ⟨_, by rw [Stage.run, Draft.result_layTimeline, hx]; rfl⟩
    rw [Stage.result_runAll_cons, hd']
    exact ih d'

/-! ### Progress -/

theorem progress_nil (s : Settings) (r : Registry) (d : Draft) : Progress s r d [] d where
  source := rfl
  tokens := nofun
  processed := nofun
  timeline := nofun
  diagnostics := ⟨[], by simp, fun _ _ => ⟨rfl, nofun⟩⟩

/-- The diagnostics after one more stage, whose block is of the kind that its place asks for. -/
theorem Progress.snoc_diagnostics (h : Progress s r d stages d')
    (hd : d''.diagnostics = d'.diagnostics ++ block)
    (hb : ∀ x, Timeline.ofTokens r s.paramDefaults
        (splitPauses s.pauseMark (tokenize r d.source).1) = .ok x →
      stage.Reports (tokenize r d.source).2 x.diagnostics stages block) :
    ∃ blocks, d''.diagnostics = d.diagnostics ++ blocks.flatten ∧
      ∀ x, Timeline.ofTokens r s.paramDefaults
          (splitPauses s.pauseMark (tokenize r d.source).1) = .ok x →
        Reported (tokenize r d.source).2 x.diagnostics (stages ++ [stage]) blocks := by
  obtain ⟨blocks, hblocks, hreported⟩ := h.diagnostics
  refine ⟨blocks ++ [block], ?_, fun x hx => (hreported x hx).snoc (hb x hx)⟩
  rw [hd, hblocks, List.flatten_append, List.flatten_singleton, List.append_assoc]

/-- Tokenizing gives the source's tokens at any time; what has been made of them is still theirs. -/
theorem Progress.tokenize (h : Progress s r d stages d') :
    Progress s r d (stages ++ [.tokenize])
      { d' with
        tokens := (KineticText.tokenize r d'.source).1
        diagnostics := d'.diagnostics ++ (KineticText.tokenize r d'.source).2 } where
  source := h.source
  tokens _ := by rw [h.source]
  processed hsub := h.processed (sublist_of_snoc_of_ne [.tokenize] hsub nofun)
  timeline hsub := h.timeline (sublist_of_snoc_of_ne [.tokenize, .split] hsub nofun)
  diagnostics := h.snoc_diagnostics rfl fun _ _ => by rw [h.source, Stage.Reports]

/-- A split gives the source's split tokens once the draft has been tokenized. -/
theorem Progress.split (h : Progress s r d stages d') :
    Progress s r d (stages ++ [.split])
      { d' with processed := splitPauses s.pauseMark d'.tokens } where
  source := h.source
  tokens hsub := h.tokens (sublist_of_snoc_of_ne [] hsub nofun)
  processed hsub := by rw [h.tokens (sublist_of_snoc [.tokenize] hsub)]
  timeline hsub := h.timeline (sublist_of_snoc_of_ne [.tokenize, .split] hsub nofun)
  diagnostics := h.snoc_diagnostics (List.append_nil _).symm fun _ _ => rfl

/-- The timeline laid out is that of the source once its tokens have been split. -/
theorem Progress.layTimeline {x : Timeline} (h : Progress s r d stages d')
    (hx : Timeline.ofTokens r s.paramDefaults d'.processed = .ok x) :
    Progress s r d (stages ++ [.timeline])
      { d' with
        display := x.display, regions := x.regions, visibleCount := x.visibleCount
        diagnostics := d'.diagnostics ++ x.diagnostics } where
  source := h.source
  tokens hsub := h.tokens (sublist_of_snoc_of_ne [] hsub nofun)
  processed hsub := h.processed (sublist_of_snoc_of_ne [.tokenize] hsub nofun)
  timeline hsub := by
    rw [h.processed (sublist_of_snoc [.tokenize, .split] hsub)] at hx
    exact ⟨x, hx, rfl, rfl, rfl⟩
  diagnostics := h.snoc_diagnostics rfl fun y hy hsplit => by
    rw [h.processed hsplit, hy, Except.ok.injEq] at hx
    rw [hx]

theorem progress_runAll (h : (Stage.runAll s r stages d).result v = .ok d') :
    Progress s r d stages d' := by
  induction stages using List.reverseRecOn generalizing d' with
  | nil =>
    obtain rfl := Except.ok.inj (Stage.result_runAll_nil.symm.trans h)
    exact progress_nil s r _
  | append_singleton stages stage ih =>
    rw [Stage.result_runAll_snoc] at h
    cases hrun : (Stage.runAll s r stages d).result v with
    | error e => simp [hrun, Except.bind] at h
    | ok mid =>
      rw [hrun] at h
      obtain ⟨block, hmakes⟩ := Stage.makes_of_run h
      have hmid := ih hrun
      cases hmakes with
      | tokenize => exact hmid.tokenize
      | split => exact hmid.split
      | timeline hx => exact hmid.layTimeline hx

/-! ### The compiled form -/

/-- Stages among which the three of a compile stand in their order leave, if none of them fails, a
draft that holds what a compile of its source gives, whatever it held before and whatever else is
run. Their diagnostics gather behind those of the draft: the scanner's are the same each time, and
pairing's are those of the compile from the first split tokens on. -/
theorem runAll_converges (s : Settings) (r : Registry) (stages : List Stage) (d d' : Draft)
    (hall : Stage.all.Sublist stages) (hrun : (Stage.runAll s r stages d).result v = .ok d') :
    ∃ c paired blocks, compile s r d.source = .ok c ∧ d'.Holds c ∧
      c.diagnostics = (tokenize r d.source).2 ++ paired ∧
      d'.diagnostics = d.diagnostics ++ blocks.flatten ∧
      Reported (tokenize r d.source).2 paired stages blocks := by
  have h := progress_runAll hrun
  obtain ⟨x, hx, hdisplay, hregions, hcount⟩ := h.timeline hall
  obtain ⟨blocks, hblocks, hreported⟩ := h.diagnostics
  have hsplit : [Stage.tokenize, .split].Sublist stages :=
    ([Stage.tokenize, .split].sublist_append_left [.timeline]).trans hall
  have htokenize : [Stage.tokenize].Sublist stages :=
    ([Stage.tokenize].sublist_append_left [.split]).trans hsplit
  exact ⟨.ofTimeline s r d.source x, x.diagnostics, blocks, compile_eq_ok_iff.mpr ⟨x, hx, rfl⟩,
    ⟨h.tokens htokenize, h.processed hsplit, hdisplay, hregions, hcount⟩, rfl, hblocks,
    hreported x hx⟩

/-- A draft with the tokens of another source, a timeline and a diagnostic. -/
def staleDraft : Draft where
  source := "<wave>a.b".toList
  tokens := [{ kind := .text, content := "c".toList }]
  processed := [{ kind := .directive, content := "/wave".toList, codeword := .waveEnd }]
  display := "d".toList
  regions := [⟨some .jitter, 0, 1, .unset⟩]
  visibleCount := 1
  diagnostics := [Fault.unopened.located 5]

/-- The stages run early on what the draft held before, and again after they have come to the
compiled form. -/
theorem runAll_converges_stale :
    Stage.all.Sublist [.timeline, .split, .tokenize, .timeline, .split, .timeline, .tokenize] ∧
    ∃ d', (Stage.runAll {} .standard
        [.timeline, .split, .tokenize, .timeline, .split, .timeline, .tokenize] staleDraft).result 1 =
          .ok d' ∧
      ∃ c paired blocks, compile {} .standard staleDraft.source = .ok c ∧ d'.Holds c ∧
        c.diagnostics = (tokenize .standard staleDraft.source).2 ++ paired ∧
        d'.diagnostics = staleDraft.diagnostics ++ blocks.flatten ∧
        Reported (tokenize .standard staleDraft.source).2 paired
          [.timeline, .split, .tokenize, .timeline, .split, .timeline, .tokenize] blocks := by
  have hall : Stage.all.Sublist
      [.timeline, .split, .tokenize, .timeline, .split, .timeline, .tokenize] := by decide
  obtain ⟨d', hd'⟩ := exists_runAll_standard (v := 1) {}
    [.timeline, .split, .tokenize, .timeline, .split, .timeline, .tokenize] staleDraft
  exact ⟨hall, d', hd', runAll_converges {} .standard _ staleDraft d' hall hd'⟩

end KineticText
