import KineticText.Proofs.Compile.Outcome
import KineticText.Proofs.Timeline.Accounting
import KineticText.Session

/-! The notes of a compile: which ones it leaves and in which order, and that the verbosity keeps
those of a low level and changes nothing else. -/
namespace KineticText

open Journal

variable {s : Settings} {r : Registry} {d : Draft} {source : Text} {c : Compiled} {ts : List Token}
  {defaults : Params (Option Float)} {n : Nat} {v : Int}

/-! ### Notes filtered by their levels -/

theorem Diagnostic.filtered_report {ε : Type} (source : Text) (found : List Diagnostic) :
    Filtered 3 (report source found : Journal ε _) := by
  unfold report
  refine (filtered_forM (fun text => filtered_note (by decide) _ text) _).bind fun _ => ?_
  split
  · exact (filtered_note (by decide) _ _).bind fun _ => filtered_pure _
  · exact (filtered_pure ()).bind fun _ => filtered_pure _

theorem Draft.filtered_tokenize : Filtered 3 (d.tokenize r) :=
  (filtered_note (by decide) _ _).bind fun _ => filtered_pure _

theorem Draft.filtered_split : Filtered 3 (d.split s) :=
  (filtered_note (by decide) _ _).bind fun _ => filtered_pure _

theorem Draft.filtered_layTimeline : Filtered 3 (d.layTimeline s r) :=
  (filtered_walk _ _ _ _ _).bind fun _ => (filtered_note (by decide) _ _).bind fun _ =>
    filtered_pure _

theorem Stage.filtered_run (stage : Stage) (d : Draft) : Filtered 3 (stage.run s r d) := by
  cases stage with
  | tokenize => exact Draft.filtered_tokenize
  | split => exact Draft.filtered_split
  | timeline => exact Draft.filtered_layTimeline

theorem Stage.filtered_runAll (stages : List Stage) (d : Draft) :
    Filtered 3 (runAll s r stages d) := by
  induction stages generalizing d with
  | nil => exact filtered_pure d
  | cons stage stages ih => exact (stage.filtered_run d).bind ih

theorem filtered_compilePainted (paint : Text → Text) (s : Settings) (r : Registry)
    (source : Text) : Filtered 3 (compilePainted paint s r source) := by
  have hstart : Filtered 3 (atLeast 3 (note 3 ⟨compilerChannel, "markup_compile".toList⟩
      ("Compiling:\n".toList ++ paint source)) : Journal CompileError Unit) := by
    refine (filtered_note (by decide) _ _).atLeast (by decide) rfl ?_
    simp [notes_note_of_le]
  exact hstart.bind fun _ => (Stage.filtered_runAll _ _).bind fun d =>
    (Diagnostic.filtered_report source d.diagnostics).bind fun _ => filtered_pure _

/-! ### All notes in their order -/

/-- The notes of a compile with settings of verbosity `v`. -/
def compileNotes (s : Settings) (r : Registry) (source : Text) (v : Nat) : List Note :=
  (compileJournal { s with verbosity := v } r source).notes v

/-- The note of a source, as `paint` colours it. -/
def paintedNote (paint : Text → Text) (source : Text) : Note :=
  ⟨3, ⟨compilerChannel, "markup_compile".toList⟩, "Compiling:\n".toList ++ paint source⟩

def sourceNote (source : Text) : Note := paintedNote (Highlight.terminal .light) source

def tokensNote (source : Text) (ts : List Token) : Note :=
  ⟨2, ⟨compilerChannel, "source_tokenize".toList⟩,
    "Tokenized ".toList ++ Text.ofNat source.length ++ " characters into ".toList ++
      Text.ofNat ts.length ++ " tokens".toList⟩

def splitNote (ts : List Token) : Note :=
  ⟨2, ⟨compilerChannel, "pauses_split".toList⟩,
    "Pause splitting produced ".toList ++ Text.ofNat ts.length ++ " tokens".toList⟩

/-- Where the notes come from that are left while the tokens are walked. -/
def walkOrigin : Origin := ⟨compilerChannel, "compile".toList⟩

/-- Whether a note of level 3 is left there. -/
def Note.isTrace (x : Note) : Bool := x.level = 3 ∧ x.origin = walkOrigin

def openedNote (e : Effect) (start : Nat) : Note :=
  ⟨3, walkOrigin, "Opened ".toList ++ e.name ++ " region at index ".toList ++ Text.ofNat start⟩

def closedNote (e : Effect) (start stop : Nat) : Note :=
  ⟨3, walkOrigin, "Closed ".toList ++ e.name ++ " region [".toList ++ Text.ofNat start ++
    ", ".toList ++ Text.ofNat stop ++ ")".toList⟩

/-- The trace of a region that has been closed. -/
def Region.closedNote? (g : Region) : Option Note :=
  g.effect.map (closedNote · g.start.toNat g.stop.toNat)

def timelineNote (regions : List Region) (visibleCount : Nat) : Note :=
  ⟨2, ⟨compilerChannel, "timeline_compile".toList⟩,
    "Compiled ".toList ++ Text.ofNat regions.length ++ " animation regions over ".toList ++
      Text.ofNat visibleCount ++ " visible characters".toList⟩

def reportOrigin : Origin := ⟨"textmotion.lib.diagnostics".toList, "errors_report".toList⟩

/-- The note of a diagnostic is its report with the source around it. -/
def Diagnostic.note (source : Text) (d : Diagnostic) : Note :=
  ⟨1, reportOrigin, d.render source.toArray defaultWidth⟩

/-- The diagnostics are counted if there are any. -/
def countNotes (ds : List Diagnostic) : List Note :=
  if ds = [] then []
  else [⟨2, reportOrigin, Text.ofNat ds.length ++ " markup diagnostic(s)".toList⟩]

/-- The log of a compile at verbosity 3: the source, the progress of each stage, with the traces
of the walk before that of the last, and the diagnostics. -/
def paintedLog (paint : Text → Text) (source : Text) (c : Compiled) (traces : List Note) :
    List Note :=
  paintedNote paint source :: tokensNote source c.tokens :: splitNote c.processed ::
    (traces ++ timelineNote c.regions c.visibleCount ::
      (c.diagnostics.map (Diagnostic.note source) ++ countNotes c.diagnostics))

def fullLog : Text → Compiled → List Note → List Note := paintedLog (Highlight.terminal .light)

def Finding.note? : Finding → Option Note
  | opened o => some (openedNote o.effect o.start)
  | closed o _ stop => some (closedNote o.effect o.start stop)
  | mismatch _ _ => none

/-- Nothing is noted of the regions that are left open. -/
theorem filterMap_note?_leftOpen (left : List Opening) :
    (left.map Opening.leftOpen).filterMap Finding.note? = [] := by
  simp [Opening.leftOpen, Finding.note?]

theorem Finding.notes_trace (f : Finding) : f.trace.notes 3 = f.note?.toList := by
  cases f <;> rfl

theorem Finding.notes_followedBy (f : Finding) (m : Journal CompileError (List Finding)) :
    (f.followedBy m).notes v = f.trace.notes v ++ m.notes v := by
  have hrest : (m >>= fun fs => (pure (f :: fs) : Journal CompileError _)).notes v = m.notes v := by
    rw [notes_bind]
    cases m.result v <;> exact List.append_nil _
  unfold followedBy
  rw [notes_bind_of_ok (f.result_trace v), hrest]

/-- The traces of a walk are those of what it finds. -/
theorem notes_walk {pending : List Opening} {passed : Nat} {fs : List Finding}
    (h : pair r defaults pending passed ts = .ok fs) :
    (walk r defaults pending passed ts).notes 3 = fs.filterMap Finding.note? := by
  induction ts generalizing pending passed fs with
  | nil =>
    obtain rfl := Except.ok.inj h
    exact (filterMap_note?_leftOpen pending).symm
  | cons t ts ih =>
    have hdefined := Token.does_ne_undefined_of_ok h
    rw [pair_cons hdefined, map_eq_ok_iff] at h
    obtain ⟨gs, hgs, rfl⟩ := h
    rw [walk_cons hdefined, List.filterMap_append, ← ih hgs]
    cases t.finding? r defaults (waiting pending) passed with
    | none => rfl
    | some f =>
      refine (f.notes_followedBy _).trans ?_
      rw [f.notes_trace]
      cases hf : f.note? <;> simp [hf]

/-- A walk that comes to a directive without an effect has left the notes of the tokens before. -/
theorem notes_walk_append {us vs : List Token} {t : Token} (hu : ∀ u ∈ us, u.does r ≠ .undefined)
    (ht : t.does r = .undefined) (pending : List Opening) (passed : Nat) :
    (walk r defaults pending passed (us ++ t :: vs)).notes v =
      (walk r defaults pending passed us).notes v := by
  induction us generalizing pending passed with
  | nil =>
    rw [List.nil_append, walk_cons_of_undefined ht]
    rfl
  | cons u us ih =>
    have hdefined := hu u (by simp)
    have hrest := ih fun w hw => hu w (by simp [hw])
    rw [List.cons_append, walk_cons hdefined, walk_cons hdefined]
    cases u.finding? r defaults (waiting pending) passed with
    | none => exact hrest _ _
    | some f =>
      refine (f.notes_followedBy _).trans ?_
      rw [hrest]
      exact (f.notes_followedBy _).symm

theorem Diagnostic.notes_report {ε : Type} (source : Text) (ds : List Diagnostic) :
    (report source ds : Journal ε _).notes 3 = ds.map (note source) ++ countNotes ds := by
  have hreports : ((ds.map (·.render source.toArray defaultWidth)).forM
      (Journal.note 1 reportOrigin) : Journal ε Unit).notes 3 = ds.map (note source) := by
    rw [notes_forM fun _ => rfl, List.flatMap_map, List.map_eq_flatMap]
    rfl
  unfold report
  rw [notes_bind_of_ok (result_forM (fun _ => rfl) _)]
  refine congrArg₂ (· ++ ·) hreports ?_
  by_cases hd : ds = []
  · subst hd
    rfl
  · simp only [countNotes, ne_eq, hd, not_false_eq_true, if_true]
    rfl

theorem Draft.notes_layTimeline {x : Timeline}
    (hx : Timeline.ofTokens r s.paramDefaults d.processed = .ok x) :
    (d.layTimeline s r).notes 3 = x.findings.filterMap Finding.note? ++
      [timelineNote x.regions x.visibleCount] := by
  rw [ofTokens_eq, map_eq_ok_iff] at hx
  obtain ⟨fs, hfs, rfl⟩ := hx
  unfold layTimeline
  rw [notes_bind_of_ok ((result_walk 3).trans hfs), notes_walk hfs]
  rfl

theorem Draft.notes_layTimeline_of_error {e : CompileError}
    (h : pair r s.paramDefaults [] 0 d.processed = .error e) :
    (d.layTimeline s r).notes v = (walk r s.paramDefaults [] 0 d.processed).notes v := by
  unfold layTimeline
  rw [notes_bind, result_walk, h]
  exact List.append_nil _

/-- The draft that the last stage works on. -/
def Draft.cut (s : Settings) (r : Registry) (source : Text) : Draft where
  source := source
  tokens := (KineticText.tokenize r source).1
  processed := splitPauses s.pauseMark (KineticText.tokenize r source).1
  diagnostics := (KineticText.tokenize r source).2

theorem notes_runAll_all (s : Settings) (r : Registry) (source : Text) :
    (Stage.runAll s r Stage.all { source }).notes 3 =
      tokensNote source (tokenize r source).1 ::
        splitNote (splitPauses s.pauseMark (tokenize r source).1) ::
          ((Draft.cut s r source).layTimeline s r).notes 3 := by
  have hlast : ((Draft.cut s r source).layTimeline s r >>= pure).notes 3 =
      ((Draft.cut s r source).layTimeline s r).notes 3 := by
    rw [notes_bind]
    cases ((Draft.cut s r source).layTimeline s r).result 3 <;> exact List.append_nil _
  change (Draft.tokenize r { source } >>= fun d => d.split s >>= fun d =>
    d.layTimeline s r >>= pure).notes 3 = _
  rw [notes_bind_of_ok Draft.result_tokenize, notes_bind_of_ok Draft.result_split]
  exact congrArg (_ :: _ :: ·) hlast

section

variable {x : Timeline}
  (hx : Timeline.ofTokens r s.paramDefaults (splitPauses s.pauseMark (tokenize r source).1) = .ok x)
include hx

theorem result_stages :
    (Stage.runAll s r Stage.all { source }).result v = .ok (.ofTimeline s r source x) := by
  rw [Stage.result_runAll_all, hx]
  rfl

theorem notes_stages : (Stage.runAll s r Stage.all { source }).notes 3 =
    tokensNote source (tokenize r source).1 ::
      splitNote (splitPauses s.pauseMark (tokenize r source).1) ::
        (x.findings.filterMap Finding.note? ++ [timelineNote x.regions x.visibleCount]) := by
  rw [notes_runAll_all, Draft.notes_layTimeline hx]

theorem notes_compilePainted (paint : Text → Text) (hc : c = .ofTimeline s r source x) :
    (compilePainted paint s r source).notes 3 =
      paintedLog paint source c (x.findings.filterMap Finding.note?) := by
  have hreport : (Diagnostic.report source c.diagnostics >>= fun _ => pure c :
      Journal CompileError _).notes 3 =
        c.diagnostics.map (Diagnostic.note source) ++ countNotes c.diagnostics := by
    rw [notes_bind_of_ok (Diagnostic.result_report _ _), Diagnostic.notes_report]
    exact List.append_nil _
  unfold compilePainted
  rw [notes_bind_of_ok (result_atLeast 3 rfl), notes_atLeast_of_le (by decide),
    notes_bind_of_ok (result_stages hx), notes_stages hx]
  subst hc
  refine congrArg (paintedNote paint source :: ·) ?_
  rw [List.cons_append, List.cons_append, List.append_assoc]
  exact congrArg (fun notes => _ :: _ :: (_ ++ _ :: notes)) hreport

end

/-- A compile whose stages fail leaves no more notes than these. -/
theorem notes_compilePainted_of_error (paint : Text → Text) {e : CompileError}
    (h : (Stage.runAll s r Stage.all { source }).result 3 = .error e) :
    (compilePainted paint s r source).notes 3 =
      paintedNote paint source :: (Stage.runAll s r Stage.all { source }).notes 3 := by
  unfold compilePainted
  rw [notes_bind_of_ok (result_atLeast 3 rfl), notes_atLeast_of_le (by decide), notes_bind, h]
  exact congrArg (paintedNote paint source :: ·) (List.append_nil _)

/-! ### The traces of the walk -/

/-- Token `n` leaves a trace when it opens a region, and when it closes one. -/
inductive Traced (r : Registry) (ts : List Token) (n : Nat) : Note → Prop
  | opened {e : Effect} : StartsAt r ts e n → ¬ PendingAt r ts e n →
      Traced r ts n (openedNote e (visibleBefore ts n))
  | closed {e : Effect} {i : Nat} : Paired r ts e i n →
      Traced r ts n (closedNote e (visibleBefore ts i) (visibleBefore ts n))

/-- The traces are those of the tokens that leave one, in their order. -/
def Walked (r : Registry) (ts : List Token) (traces : List Note) : Prop :=
  ∃ places : List Nat, places.Pairwise (· < ·) ∧ (∀ n, n ∈ places ↔ ∃ x, Traced r ts n x) ∧
    List.Forall₂ (Traced r ts) places traces

/-- The trace of what is found at token `n`. -/
def traceAt (r : Registry) (defaults : Params (Option Float)) (ts : List Token) (n : Nat) :
    Option Note :=
  (findingAt r defaults ts n).bind Finding.note?

theorem Traced.lt {x : Note} (h : Traced r ts n x) : n < ts.length := by
  cases h with
  | opened hs => exact hs.lt
  | closed hp => exact hp.stop.lt

theorem traced_of_traceAt {x : Note} (h : traceAt r defaults ts n = some x) : Traced r ts n x := by
  obtain ⟨f, hf, hx⟩ := Option.bind_eq_some_iff.mp h
  obtain ⟨t, ht, -⟩ := Option.bind_eq_some_iff.mp hf
  have hfound := found_findingAt (r := r) defaults ht
  rw [hf] at hfound
  cases hfound with
  | opened hs hp =>
    obtain rfl := Option.some.inj hx
    exact .opened ⟨t, ht, hs⟩ hp
  | closed he ho hu =>
    obtain rfl := Option.some.inj hx
    exact .closed (paired_iff.mpr ⟨ho, t, ht, he⟩)
  | reopened => exact nomatch hx
  | neverOpened => exact nomatch hx

theorem Traced.exists_traceAt (defaults : Params (Option Float)) {x : Note} (h : Traced r ts n x) :
    ∃ y, traceAt r defaults ts n = some y := by
  obtain ⟨t, ht⟩ : ∃ t, ts[n]? = some t := ⟨_, List.getElem?_eq_getElem h.lt⟩
  rw [traceAt, findingAt, ht, Option.bind_some]
  cases h with
  | @opened e hs hp =>
    have hd := (startsAt_iff ht).mp hs
    rcases waitingAt_cases r defaults ts n e with ⟨i, u, ho, -⟩ | ⟨-, hw⟩
    · exact absurd ho.pendingAt hp
    · rw [Token.finding?_of_opens hd hw]
      exact ⟨_, rfl⟩
  | @closed e i hp =>
    have hd := (endsAt_iff ht).mp hp.stop
    have hpending := (paired_iff.mp hp).1.pendingAt
    rcases waitingAt_cases r defaults ts n e with ⟨i, u, -, -, hw⟩ | ⟨hno, -⟩
    · rw [Token.finding?_of_closes hd hw]
      exact ⟨_, rfl⟩
    · exact absurd hpending hno

theorem walked_traces (r : Registry) (defaults : Params (Option Float)) (ts : List Token) :
    Walked r ts ((List.range ts.length).filterMap (traceAt r defaults ts)) := by
  refine ⟨(List.range ts.length).filter fun n => (traceAt r defaults ts n).isSome, ?_, ?_, ?_⟩
  · exact List.pairwise_lt_range.filter _
  · intro n
    rw [List.mem_filter, List.mem_range, Option.isSome_iff_exists]
    constructor
    · rintro ⟨-, x, hx⟩
      exact ⟨x, traced_of_traceAt hx⟩
    · rintro ⟨x, hx⟩
      exact ⟨hx.lt, hx.exists_traceAt defaults⟩
  · rw [← List.filterMap_eq_filter]
    apply forall₂_filterMap
    intro n _
    cases hx : traceAt r defaults ts n with
    | none => simp [Option.guard, hx]
    | some x => simpa [Option.guard, hx] using traced_of_traceAt hx

theorem walked_findings {x : Timeline} (h : Timeline.ofTokens r defaults ts = .ok x) :
    Walked r ts (x.findings.filterMap Finding.note?) := by
  obtain ⟨left, -, rfl⟩ := ofTokens_run h
  rw [Timeline.ofFindings, List.filterMap_append, filterMap_note?_leftOpen, List.append_nil,
    List.filterMap_filterMap]
  exact walked_traces r defaults ts

/-- Each region leaves its closing trace, in the order of the regions. -/
theorem closedNotes_sublist {x : Timeline} (h : Timeline.ofTokens r defaults ts = .ok x) :
    (x.regions.filterMap Region.closedNote?).Sublist (x.findings.filterMap Finding.note?) := by
  rw [ofTokens_eq, map_eq_ok_iff] at h
  obtain ⟨fs, -, rfl⟩ := h
  change ((fs.filterMap Finding.region?).filterMap Region.closedNote?).Sublist
    (fs.filterMap Finding.note?)
  induction fs with
  | nil => exact .slnil
  | cons f fs ih =>
    cases f with
    | opened o => exact ih.cons _
    | closed o t stop => exact ih.cons_cons _
    | mismatch t fault => exact ih

theorem Walked.of_mem {traces : List Note} (h : Walked r ts traces) {x : Note} (hx : x ∈ traces) :
    x.level = 3 ∧ x.origin = walkOrigin := by
  obtain ⟨places, -, -, htraces⟩ := h
  obtain ⟨n, -, hn⟩ := exists_of_mem_forall₂ htraces hx
  cases hn <;> exact ⟨rfl, rfl⟩

/-! ### The log as a whole -/

theorem mem_paintedLog {paint : Text → Text} {traces : List Note} {x : Note} :
    x ∈ paintedLog paint source c traces ↔
      x = paintedNote paint source ∨ x = tokensNote source c.tokens ∨ x = splitNote c.processed ∨
      x ∈ traces ∨ x = timelineNote c.regions c.visibleCount ∨
        (∃ d ∈ c.diagnostics, d.note source = x) ∨ x ∈ countNotes c.diagnostics := by
  simp only [paintedLog, List.mem_cons, List.mem_append, List.mem_map]

theorem of_mem_countNotes {ds : List Diagnostic} {x : Note} (h : x ∈ countNotes ds) :
    x.level = 2 ∧ x.origin = reportOrigin := by
  unfold countNotes at h
  split at h
  · exact absurd h List.not_mem_nil
  · obtain rfl := List.mem_singleton.mp h
    exact ⟨rfl, rfl⟩

section

variable {traces : List Note} (h : Walked r ts traces)
include h

theorem filter_fullLog_diagnostics : (fullLog source c traces).filter (·.level = 1) =
    c.diagnostics.map (Diagnostic.note source) := by
  have htraces : traces.filter (·.level = 1) = [] := by
    rw [List.filter_eq_nil_iff]
    intro x hx
    simp [(h.of_mem hx).1]
  have hcount : (countNotes c.diagnostics).filter (·.level = 1) = [] := by
    rw [List.filter_eq_nil_iff]
    intro x hx
    simp [(of_mem_countNotes hx).1]
  have hdiagnostics : (c.diagnostics.map (Diagnostic.note source)).filter (·.level = 1) =
      c.diagnostics.map (Diagnostic.note source) := by
    simp [Diagnostic.note]
  simp [fullLog, paintedLog, htraces, hcount, hdiagnostics, paintedNote, tokensNote, splitNote,
    timelineNote]

theorem filter_fullLog_traces : (fullLog source c traces).filter Note.isTrace = traces := by
  have htraces : traces.filter Note.isTrace = traces := by
    rw [List.filter_eq_self]
    intro x hx
    simpa [Note.isTrace] using h.of_mem hx
  have hcount : (countNotes c.diagnostics).filter Note.isTrace = [] := by
    rw [List.filter_eq_nil_iff]
    intro x hx
    simp [Note.isTrace, (of_mem_countNotes hx).1]
  have hdiagnostics : (c.diagnostics.map (Diagnostic.note source)).filter Note.isTrace = [] := by
    simp [Note.isTrace, Diagnostic.note]
  have hsource : ¬ (paintedNote (Highlight.terminal .light) source).isTrace := by
    simp [Note.isTrace, paintedNote, walkOrigin]
  rw [fullLog, paintedLog, List.filter_cons_of_neg hsource]
  simp [Note.isTrace, htraces, hcount, hdiagnostics, tokensNote, splitNote, timelineNote]

theorem channel_of_mem_fullLog {x : Note} (hx : x ∈ fullLog source c traces) :
    x.origin.channel = compilerChannel ∨ x.origin.channel = reportOrigin.channel := by
  rcases mem_paintedLog.mp hx with rfl | rfl | rfl | hx | rfl | ⟨d, -, rfl⟩ | hx
  · exact .inl rfl
  · exact .inl rfl
  · exact .inl rfl
  · rw [(h.of_mem hx).2]
    exact .inl rfl
  · exact .inl rfl
  · exact .inr rfl
  · rw [(of_mem_countNotes hx).2]
    exact .inr rfl

end

/-! ### Sinks -/

/-- The sinks that take the library's records. -/
def Hub.listeners (h : Hub) : List Sink :=
  (h.sinks.filterMap id).filter (·.threshold.rank ≤ Severity.debug.rank)

/-- Each sink that listens writes one line of a note. -/
def Hub.lines (h : Hub) (n : Note) : List Written :=
  h.listeners.map fun k => ⟨k, k.columns ⟨.debug, n.origin, n.message⟩⟩

theorem Hub.deliverNote_eq {h : Hub} {n : Note} (he : h.enabled)
    (hn : isLibraryChannel n.origin.channel) : h.deliverNote n = h.lines n := by
  have hlets : h.lets n.origin.channel := by simp [lets, he]
  unfold deliverNote deliver receivers lines listeners
  rw [if_pos hlets]
  simp [Sink.accepts, hn]

/-! ### Verbosities -/

theorem compileNotes_eq_filter (s : Settings) (r : Registry) (source : Text) (v : Nat) :
    compileNotes s r source v = (compileNotes s r source 3).filter (·.level ≤ (v : Int)) :=
  (filtered_compilePainted _ s r source).notes v

/-- A session's compile hands its notes to the hub and has the result of the compile. -/
theorem Session.compile_snd {x : Session} {v : Nat} (hr : x.registry = r)
    (hs : x.settings = { s with verbosity := v }) :
    (x.compile source).2 =
      ((compileNotes s r source v).flatMap (x.hub.connect (some v)).deliverNote,
        KineticText.compile { s with verbosity := v } r source) := by
  subst hr
  unfold compile
  rw [hs]
  rfl

/-- What a compile that gives a result writes to the log. -/
structure Logged (s : Settings) (r : Registry) (source : Text) (c : Compiled)
    (traces : List Note) : Prop where
  /-- The verbosity makes no difference to the result. -/
  result : ∀ v : Nat, compile { s with verbosity := v } r source = .ok c
  /-- It only filters the notes. -/
  filtered : ∀ v : Nat,
    compileNotes s r source v = (compileNotes s r source 3).filter (·.level ≤ (v : Int))
  full : compileNotes s r source 3 = fullLog source c traces
  walked : Walked r c.processed traces
  regions : (c.regions.filterMap Region.closedNote?).Sublist traces
  diagnostics : (compileNotes s r source 3).filter (·.level = 1) =
    c.diagnostics.map (Diagnostic.note source)
  traced : (compileNotes s r source 3).filter Note.isTrace = traces
  /-- If the log is enabled, every note becomes a line of every sink that listens. -/
  delivered : ∀ (v : Nat) (x : Session), x.hub.enabled → x.registry = r →
    x.settings = { s with verbosity := v } →
    (x.compile source).2 = ((compileNotes s r source v).flatMap x.hub.lines, .ok c)

/-- Whatever colours the source, and whatever a log writes of a note. -/
theorem compile_noted {ω : Type} (paint : Text → Text) (write : Note → List ω)
    (h : compile s r source = .ok c) :
    ∃ traces, Walked r c.processed traces ∧ ∀ v : Int,
      (compilePainted paint s r source).deliver write (some v) =
        (((paintedLog paint source c traces).filter (·.level ≤ v)).flatMap write, .ok c) := by
  obtain ⟨x, hx, rfl⟩ := compile_eq_ok_iff.mp h
  refine ⟨_, walked_findings hx, fun v => ?_⟩
  have hfiltered := filtered_compilePainted paint s r source
  have hresult : (compilePainted paint s r source).result v = .ok (.ofTimeline s r source x) := by
    rw [result_compilePainted, hx]
    rfl
  unfold Journal.deliver
  simp only [hfiltered.notes v, notes_compilePainted hx paint rfl, hresult]

theorem compile_logged (s : Settings) (r : Registry) (source : Text) (c : Compiled)
    (h : compile s r source = .ok c) : ∃ traces, Logged s r source c traces := by
  obtain ⟨x, hx, hc⟩ := compile_eq_ok_iff.mp h
  have hwalked : Walked r c.processed (x.findings.filterMap Finding.note?) := by
    subst hc
    exact walked_findings hx
  have hregions : (c.regions.filterMap Region.closedNote?).Sublist
      (x.findings.filterMap Finding.note?) := by
    subst hc
    exact closedNotes_sublist hx
  have hfull : compileNotes s r source 3 =
      fullLog source c (x.findings.filterMap Finding.note?) := notes_compilePainted hx _ hc
  have hresult (v : Nat) : compile { s with verbosity := v } r source = .ok c :=
    compile_eq_ok_iff.mpr ⟨x, hx, hc⟩
  refine ⟨_, hresult, compileNotes_eq_filter s r source, hfull, hwalked, hregions,
    ?_, ?_, ?_⟩
  · rw [hfull]
    exact filter_fullLog_diagnostics hwalked
  · rw [hfull]
    exact filter_fullLog_traces hwalked
  · intro v y he hr hs
    have hchannel : ∀ n ∈ compileNotes s r source v, isLibraryChannel n.origin.channel := by
      intro n hn
      rw [compileNotes_eq_filter, hfull] at hn
      rcases channel_of_mem_fullLog hwalked (List.mem_of_mem_filter hn) with h | h <;> rw [h]
      · decide
      · decide
    rw [Session.compile_snd hr hs, hresult v]
    rw [List.flatMap_def, List.flatMap_def]
    exact congrArg (List.flatten · , _) <| List.map_congr_left fun n hn =>
      Hub.deliverNote_eq he (hchannel n hn)

/-- A wave over a jitter that is never closed, and a bracket too many. -/
def crossed : Text := "<wave>a<jitter>b</wave>>".toList

/-- A host that listens, and only for its diagnostics; a sink was removed, another one takes errors
only. -/
def watched : Session where
  settings := { verbosity := 1 }
  registry := .standard
  hub := { sinks := [some ⟨.host, .debug⟩, none, some ⟨.library, .error⟩], enabled := true }

set_option maxRecDepth 1000 in
theorem compile_logged_crossed : ∃ c traces, compile {} .standard crossed = .ok c ∧
    Logged {} .standard crossed c traces ∧
    traces = [openedNote .wave 0, openedNote .jitter 1, closedNote .wave 0 2] ∧
    (watched.compile crossed).2.1.map Written.sink = List.replicate 2 ⟨.host, .debug⟩ := by
  obtain ⟨c, hc⟩ := exists_compile_standard {} crossed
  obtain ⟨traces, h⟩ := compile_logged {} .standard crossed c hc
  refine ⟨c, traces, hc, h, ?_, ?_⟩
  · rw [← h.traced]
    decide +kernel
  · rw [h.delivered 1 watched rfl rfl rfl]
    change ((compileNotes {} .standard crossed 1).flatMap watched.hub.lines).map Written.sink = _
    decide +kernel

/-- A compile that fails stops at the first directive whose effect is not defined. -/
theorem exists_stop {e : CompileError} (h : compile s r source = .error e) :
    ∃ us t vs, splitPauses s.pauseMark (tokenize r source).1 = us ++ t :: vs ∧
      (∀ u ∈ us, u.does r ≠ .undefined) ∧ t.does r = .undefined ∧
      e = .undefinedEffect t.codeword := by
  rw [compile_eq, map_eq_error_iff] at h
  obtain ⟨t, ht⟩ : ∃ t, (splitPauses s.pauseMark (tokenize r source).1).find?
      (·.does r = .undefined) = some t := by
    refine Option.ne_none_iff_exists'.mp fun hnone => ?_
    obtain ⟨x, hx⟩ := exists_ofTokens (r := r) s.paramDefaults fun t ht =>
      by simpa using List.find?_eq_none.mp hnone t ht
    rw [hx] at h
    exact nomatch h
  obtain ⟨hstop, us, vs, hsplit, hus⟩ := List.find?_eq_some_iff_append.mp ht
  have hstop : t.does r = .undefined := by simpa using hstop
  have hus : ∀ u ∈ us, u.does r ≠ .undefined := by simpa using hus
  refine ⟨us, t, vs, hsplit, hus, hstop, ?_⟩
  rw [ofTokens_eq, hsplit, pair_append_of_undefined hus hstop [] 0] at h
  exact (Except.error.inj h).symm

/-- Where the walk stops, it has left the traces of the tokens before. -/
theorem notes_layTimeline_of_stop {us vs : List Token} {t : Token} {x : Timeline}
    (hsplit : splitPauses s.pauseMark (tokenize r source).1 = us ++ t :: vs)
    (hus : ∀ u ∈ us, u.does r ≠ .undefined) (hstop : t.does r = .undefined)
    (hx : Timeline.ofTokens r s.paramDefaults us = .ok x) :
    ((Draft.cut s r source).layTimeline s r).notes 3 = x.findings.filterMap Finding.note? := by
  have hpair : pair r s.paramDefaults [] 0 (us ++ t :: vs) =
      .error (.undefinedEffect t.codeword) := pair_append_of_undefined hus hstop [] 0
  obtain ⟨fs, hfs, rfl⟩ := map_eq_ok_iff.mp ((ofTokens_eq ..).symm.trans hx)
  rw [Draft.notes_layTimeline_of_error ((congrArg _ hsplit).trans hpair)]
  change _ = fs.filterMap Finding.note?
  rw [← notes_walk hfs]
  exact (congrArg (fun ts => (walk r s.paramDefaults [] 0 ts).notes 3) hsplit).trans
    (notes_walk_append hus hstop [] 0)

/-- A compile that fails has written the progress of the first two stages, and of the third the
traces of the tokens before the directive at which it stops. -/
theorem compile_error_logged {e : CompileError} (h : compile s r source = .error e) :
    ∃ us t vs traces, splitPauses s.pauseMark (tokenize r source).1 = us ++ t :: vs ∧
      (∀ u ∈ us, u.does r ≠ .undefined) ∧ t.does r = .undefined ∧
      e = .undefinedEffect t.codeword ∧ Walked r us traces ∧
      compileNotes s r source 3 = sourceNote source :: tokensNote source (tokenize r source).1 ::
        splitNote (us ++ t :: vs) :: traces ∧
      ∀ v : Nat, compileNotes s r source v =
        (compileNotes s r source 3).filter (·.level ≤ (v : Int)) := by
  obtain ⟨us, t, vs, hsplit, hus, hstop, he⟩ := exists_stop h
  obtain ⟨x, hx⟩ := exists_ofTokens s.paramDefaults hus
  refine ⟨us, t, vs, x.findings.filterMap Finding.note?, hsplit, hus, hstop, he,
    walked_findings hx, ?_, compileNotes_eq_filter s r source⟩
  have hresult : (Stage.runAll s r Stage.all { source }).result 3 =
      .error (.undefinedEffect t.codeword) := by
    rw [Stage.result_runAll_all, ofTokens_eq, hsplit, pair_append_of_undefined hus hstop [] 0]
    rfl
  have hnotes := notes_runAll_all s r source
  rw [notes_layTimeline_of_stop hsplit hus hstop hx, hsplit] at hnotes
  exact (notes_compilePainted_of_error (s := { s with verbosity := 3 }) _ hresult).trans
    (congrArg _ hnotes)

end KineticText
