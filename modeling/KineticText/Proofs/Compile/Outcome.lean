import KineticText.Compile
import KineticText.Proofs.Log.Journal
import KineticText.Proofs.Registry.Standard
import KineticText.Proofs.Timeline.Cues

/-! What a compile gives depends on the markup and the settings, not on the notes it leaves. -/
namespace KineticText

/-- Whether its notes are written or not, a report gives every diagnostic. -/
theorem Diagnostic.result_report {ε : Type} {v : Int} (source : Text) (found : List Diagnostic) :
    (report source found : Journal ε _).result v =
      .ok (found.map (·.render source.toArray defaultWidth)) := by
  unfold report
  rw [Journal.result_bind, Journal.result_forM fun _ => Journal.result_note ..]
  simp only [Except.bind]
  by_cases h : found ≠ []
  · rw [if_pos h]
    rfl
  · rw [if_neg h]
    rfl

namespace Draft

variable {s : Settings} {r : Registry} {d : Draft} {v : Int}

theorem result_tokenize : (d.tokenize r).result v = .ok
    { d with
      tokens := (KineticText.tokenize r d.source).1
      diagnostics := d.diagnostics ++ (KineticText.tokenize r d.source).2 } := rfl

theorem result_split : (d.split s).result v =
    .ok { d with processed := splitPauses s.pauseMark d.tokens } := rfl

theorem result_layTimeline : (d.layTimeline s r).result v =
    (Timeline.ofTokens r s.paramDefaults d.processed).map fun x =>
      { d with
        display := x.display, regions := x.regions, visibleCount := x.visibleCount
        diagnostics := d.diagnostics ++ x.diagnostics } := by
  unfold layTimeline
  rw [Journal.result_bind, result_walk, ofTokens_eq]
  cases pair r s.paramDefaults [] 0 d.processed <;> rfl

end Draft

namespace Stage

variable {s : Settings} {r : Registry} {d : Draft} {v : Int}

theorem result_runAll_nil : (runAll s r [] d).result v = .ok d := rfl

theorem result_runAll_cons (stage : Stage) (stages : List Stage) :
    (runAll s r (stage :: stages) d).result v =
      ((stage.run s r d).result v).bind fun d => (runAll s r stages d).result v :=
  Journal.result_bind _ _

end Stage

/-- The compiled form of a source with the timeline of its tokens. -/
def Compiled.ofTimeline (s : Settings) (r : Registry) (source : Text) (x : Timeline) : Compiled where
  display := x.display
  regions := x.regions
  diagnostics := (tokenize r source).2 ++ x.diagnostics
  tokens := (tokenize r source).1
  processed := splitPauses s.pauseMark (tokenize r source).1
  visibleCount := x.visibleCount

/-- The draft of a source that all stages have worked on. -/
def Draft.ofTimeline (s : Settings) (r : Registry) (source : Text) (x : Timeline) : Draft where
  source := source
  tokens := (KineticText.tokenize r source).1
  processed := splitPauses s.pauseMark (KineticText.tokenize r source).1
  display := x.display
  regions := x.regions
  visibleCount := x.visibleCount
  diagnostics := (KineticText.tokenize r source).2 ++ x.diagnostics

theorem Stage.result_runAll_all (s : Settings) (r : Registry) (source : Text) (v : Int) :
    (runAll s r all { source }).result v =
      (Timeline.ofTokens r s.paramDefaults
        (splitPauses s.pauseMark (KineticText.tokenize r source).1)).map
          (.ofTimeline s r source) := by
  simp only [all, result_runAll_cons, result_runAll_nil, run, Draft.result_tokenize,
    Draft.result_split, Draft.result_layTimeline, Except.bind]
  cases Timeline.ofTokens r s.paramDefaults
    (splitPauses s.pauseMark (KineticText.tokenize r source).1) <;> rfl

/-- Neither the verbosity nor the colours of the source make a difference to the result. -/
theorem result_compilePainted (paint : Text → Text) (s : Settings) (r : Registry) (source : Text)
    (v : Int) : (compilePainted paint s r source).result v =
      (Timeline.ofTokens r s.paramDefaults (splitPauses s.pauseMark (tokenize r source).1)).map
        (.ofTimeline s r source) := by
  unfold compilePainted
  rw [Journal.result_bind, Journal.result_atLeast 3 (Journal.result_note ..)]
  simp only [Except.bind]
  rw [Journal.result_bind, Stage.result_runAll_all]
  cases Timeline.ofTokens r s.paramDefaults (splitPauses s.pauseMark (tokenize r source).1) with
  | error e => rfl
  | ok x =>
    simp only [Except.map]
    rw [Except.bind, Journal.result_bind, Diagnostic.result_report]
    rfl

/-- A compile is the timeline of the source's tokens, split at the pauses. -/
theorem compile_eq (s : Settings) (r : Registry) (source : Text) :
    compile s r source =
      (Timeline.ofTokens r s.paramDefaults (splitPauses s.pauseMark (tokenize r source).1)).map
        (.ofTimeline s r source) :=
  result_compilePainted _ s r source s.verbosity

theorem compile_eq_ok_iff {s : Settings} {r : Registry} {source : Text} {c : Compiled} :
    compile s r source = .ok c ↔ ∃ x, Timeline.ofTokens r s.paramDefaults
      (splitPauses s.pauseMark (tokenize r source).1) = .ok x ∧ c = .ofTimeline s r source x := by
  rw [compile_eq, map_eq_ok_iff]

/-- The compiled form of tokens of a source that has these faults. -/
def Compiled.ofTokens (s : Settings) (r : Registry) (ts : List Token) (faults : List Diagnostic) :
    Compiled :=
  let found := foundIn r s.paramDefaults [] (cues 0 ts)
  { display := ts.flatMap Token.display
    regions := found.filterMap Finding.region?
    diagnostics := faults ++
      (found.filterMap Finding.diagnostic?).mergeSort fun a b => a.offset ≤ b.offset
    tokens := ts
    processed := splitPauses s.pauseMark ts
    visibleCount := (ts.flatMap Token.visible).length }

theorem diagnostics_ofTokens (s : Settings) (r : Registry) (ts : List Token)
    (ds : List Diagnostic) : (Compiled.ofTokens s r ts ds).diagnostics.Perm
      (ds ++ (foundIn r s.paramDefaults [] (cues 0 ts)).filterMap Finding.diagnostic?) :=
  (List.mergeSort_perm _ _).append_left _

/-- The pauses leave no trace in a compiled form but the processed tokens, and only a directive
without an effect stops a compile. -/
theorem compile_eq_ok_iff_cues {s : Settings} {r : Registry} {source : Text} {c : Compiled} :
    compile s r source = .ok c ↔
      (∀ q ∈ cues 0 (tokenize r source).1, q.token.does r ≠ .undefined) ∧
        c = .ofTokens s r (tokenize r source).1 (tokenize r source).2 := by
  have hmark : s.pauseMark ≠ [] := List.cons_ne_nil _ _
  have hform : Compiled.ofTimeline s r source
      (.ofFindings (splitPauses s.pauseMark (tokenize r source).1)
        (foundIn r s.paramDefaults [] (cues 0 (tokenize r source).1))) =
      .ofTokens s r (tokenize r source).1 (tokenize r source).2 := by
    simp only [Compiled.ofTimeline, Timeline.ofFindings, Compiled.ofTokens,
      display_splitPauses hmark, visible_splitPauses hmark]
  rw [compile_eq_ok_iff]
  simp only [ofTokens_eq_ok_iff, cues_splitPauses hmark]
  constructor
  · rintro ⟨x, ⟨h, rfl⟩, rfl⟩
    exact ⟨h, hform⟩
  · rintro ⟨h, rfl⟩
    exact ⟨_, ⟨h, rfl⟩, hform.symm⟩

/-- The first directive without an effect is the one that stops a compile. -/
theorem compile_eq_error_iff {s : Settings} {r : Registry} {source : Text} {x : CompileError} :
    compile s r source = .error x ↔
      ∃ q, (cues 0 (tokenize r source).1).find? (·.token.does r = .undefined) = some q ∧
        x = .undefinedEffect q.token.codeword := by
  have hmark : s.pauseMark ≠ [] := List.cons_ne_nil _ _
  rw [compile_eq, map_eq_error_iff, ofTokens_splitPauses hmark, ofTokens_eq, map_eq_error_iff,
    pair_eq_error_iff]

theorem exists_compile_error_iff {s : Settings} {r : Registry} {source : Text} :
    (∃ x, compile s r source = .error x) ↔
      ∃ t ∈ (tokenize r source).1, t.does r = .undefined := by
  simp only [compile_eq_error_iff]
  constructor
  · rintro ⟨x, q, hq, -⟩
    exact ⟨q.token, mem_of_mem_cues (List.mem_of_find?_eq_some hq),
      by simpa using List.find?_some hq⟩
  · rintro ⟨t, ht, hu⟩
    have hcustom : t.isCustom := by
      by_contra hc
      rw [Token.does_of_plain hc] at hu
      exact nomatch hu
    obtain ⟨q, hq, rfl⟩ := exists_mem_cues 0 ht hcustom
    have hfound : ((cues 0 (tokenize r source).1).find? (·.token.does r = .undefined)).isSome := by
      rw [List.find?_isSome]
      exact ⟨q, hq, by simpa using hu⟩
    obtain ⟨q', hq'⟩ := Option.isSome_iff_exists.mp hfound
    exact ⟨_, q', hq', rfl⟩

/-- With the built-in directives every source compiles. -/
theorem exists_compile_standard (s : Settings) (source : Text) :
    ∃ c, compile s .standard source = .ok c := by
  have h : ∀ t ∈ splitPauses s.pauseMark (tokenize .standard source).1,
      t.does .standard ≠ .undefined := fun t _ => t.does_standard_ne_undefined
  obtain ⟨x, hx⟩ := exists_ofTokens s.paramDefaults h
  exact ⟨_, compile_eq_ok_iff.mpr ⟨x, hx, rfl⟩⟩

end KineticText
