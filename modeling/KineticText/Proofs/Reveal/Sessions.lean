import KineticText.Proofs.Compile.Logging
import KineticText.Proofs.Reveal.Playing

/-! A session plays its reveals as a player without a log does, and who reads its log knows at all
times if a reveal runs. -/
namespace KineticText

namespace Player

variable {ε : Type} {p q : Player Float} {v : Int}

def channel : Text := "textmotion.lib.scheduler".toList

def origin (routine : String) : Origin := ⟨channel, routine.toList⟩

def cancelledNote : Note := ⟨2, origin "cancel", "Reveal cancelled".toList⟩

def startedNote (visibleCount : Nat) : Note :=
  ⟨2, origin "start",
    "Reveal started for ".toList ++ Text.ofNat visibleCount ++ " characters".toList⟩

def finishedNote (revealed : Nat) : Note :=
  ⟨2, origin "update",
    "Reveal finished at ".toList ++ Text.ofNat revealed ++ " characters".toList⟩

theorem notes_note (hv : 2 ≤ v) (routine : String) (message : Text) :
    (note routine message : Journal ε Unit).notes v = [⟨2, origin routine, message⟩] :=
  Journal.notes_note_of_le hv _ _

theorem notes_cancelNotes (hv : 2 ≤ v) :
    (p.cancelNotes : Journal ε Unit).notes v = if p.isActive then [cancelledNote] else [] := by
  unfold cancelNotes
  split
  · exact notes_note hv _ _
  · rfl

theorem result_cancelNotes : (p.cancelNotes : Journal ε Unit).result v = .ok () := by
  unfold cancelNotes
  split <;> rfl

theorem notes_startNotes (hv : 2 ≤ v) (visibleCount : Nat) :
    (p.startNotes q visibleCount : Journal ε Unit).notes v =
      (if p.isActive then [cancelledNote] else []) ++
        if q.isActive then [startedNote visibleCount] else [] := by
  unfold startNotes
  rw [Journal.notes_bind_of_ok result_cancelNotes, notes_cancelNotes hv]
  congr 1
  split
  · exact notes_note hv _ _
  · rfl

theorem notes_updateNotes (hv : 2 ≤ v) :
    (p.updateNotes q : Journal ε Unit).notes v =
      if p.isActive ∧ ¬ q.isActive then [finishedNote q.revealed] else [] := by
  unfold updateNotes
  split
  · exact notes_note hv _ _
  · rfl

end Player

namespace Performance

variable {s : Settings} {x : Performance} {v : Int}

/-- What an operation notes. -/
def journal (s : Settings) (x : Performance) : Operation → Journal CompileError Unit
  | .start c => x.player.startNotes (c.reveal s x.player) c.visibleCount
  | .update elapsed => x.player.updateNotes (x.player.update elapsed).2
  | .cancel => x.player.cancelNotes

/-- Whether a reveal runs, told from whether one ran before a note and from the note. One that
makes no sense then is refused; what others note tells nothing. -/
def hear? (active : Bool) (n : Note) : Option Bool :=
  if n.origin.channel = Player.channel then
    if active = (n.origin.routine = "start".toList) then none else some !active
  else some active

theorem hear?_started (visibleCount : Nat) :
    hear? false (Player.startedNote visibleCount) = some true := rfl

theorem hear?_cancelled : hear? true Player.cancelledNote = some false := rfl

theorem hear?_finished (revealed : Nat) :
    hear? true (Player.finishedNote revealed) = some false := rfl

theorem foldlM_hear?_of_others {ns : List Note} (h : ∀ n ∈ ns, n.origin.channel ≠ Player.channel)
    (active : Bool) : ns.foldlM hear? active = some active := by
  induction ns with
  | nil => rfl
  | cons n ns ih =>
    rw [List.foldlM_cons, hear?, if_neg (h n (by simp))]
    exact ih fun n hn => h n (by simp [hn])

theorem hear_step (hv : 2 ≤ v) (x : Performance) (o : Operation) :
    ((x.journal s o).notes v).foldlM hear? x.player.isActive =
      some (x.step s o).player.isActive := by
  cases o with
  | start c =>
    simp only [journal, step]
    rw [Player.notes_startNotes hv, List.foldlM_append]
    cases hp : x.player.isActive <;> cases hq : (c.reveal s x.player).isActive <;>
      simp [hear?_cancelled, hear?_started]
  | update elapsed =>
    simp only [journal, step]
    rw [Player.notes_updateNotes hv]
    cases hp : x.player.isActive with
    | false =>
      have hidle : x.player.pending = none := by simpa [Player.isActive] using hp
      simp [Player.update_of_idle hidle, hp]
    | true =>
      cases hq : (x.player.update elapsed).2.isActive <;> simp [hear?_finished]
  | cancel =>
    simp only [journal, step]
    rw [Player.notes_cancelNotes hv]
    cases hp : x.player.isActive <;> simp [hear?_cancelled, Player.cancel, Player.isActive]

/-- The note at the end of a reveal tells the count of all visible characters. -/
theorem Sound.finished {c : Compiled} (h : Sound s x) (hv : 2 ≤ v) (ht : s.typewriter)
    (hc : c ∈ x.current) {elapsed : Float} (hactive : x.player.isActive)
    (hover : ¬ (x.step s (.update elapsed)).player.isActive) :
    (x.journal s (.update elapsed)).notes v = [Player.finishedNote c.visibleCount] := by
  obtain ⟨-, hrevealed⟩ := h.complete ht hc hactive hover
  rw [journal, Player.notes_updateNotes hv, if_pos ⟨hactive, hover⟩]
  exact congrArg ([Player.finishedNote ·]) hrevealed

end Performance

namespace Session

/-- What a host asks of a session. -/
inductive Act where
  | start (source : Text)
  | update (elapsed : Float)
  | cancel

variable {x : Session} {p : Performance} {a : Act}

def act (x : Session) : Act → Session × List Written
  | .start source => ((x.start source).1, (x.start source).2.1)
  | .update elapsed => x.update elapsed
  | .cancel => x.cancel

/-- The session after one act after the other, and all that was written meanwhile. -/
def run (x : Session) : List Act → Session × List Written
  | [] => (x, [])
  | a :: as => ((x.act a).1.run as).map id ((x.act a).2 ++ ·)

/-- What an act does to a player; a start on markup that does not compile does nothing. -/
def Act.operation? (s : Settings) (r : Registry) : Act → Option Operation
  | .start source => (KineticText.compile s r source).toOption.map .start
  | .update elapsed => some (.update elapsed)
  | .cancel => some .cancel

theorem Act.operation?_start_eq_some_iff {s : Settings} {r : Registry} {source : Text}
    {o : Operation} : (Act.start source).operation? s r = some o ↔
      ∃ c, KineticText.compile s r source = .ok c ∧ .start c = o := by
  cases h : KineticText.compile s r source <;> simp [operation?, h, Except.toOption]

/-- The log of a session after an act: a compile sets the verbosity, whether it fails or not. -/
def listening (x : Session) : Act → Hub
  | .start _ => x.hub.connect (some x.settings.verbosity)
  | _ => x.hub

/-- What the compile of an act notes. -/
def compileNoted (x : Session) : Act → List Note
  | .start source => compileNotes x.settings x.registry source x.settings.verbosity
  | _ => []

theorem compile_eq (x : Session) (source : Text) : x.compile source =
    ({ x with hub := x.listening (.start source) },
      (x.compileNoted (.start source)).flatMap x.hub.deliverNote,
      KineticText.compile x.settings x.registry source) :=
  congrArg (Prod.mk _) (compile_snd (s := x.settings) (v := x.settings.verbosity) rfl rfl)

/-- An act does to a session's player what its operation does to any, and leaves its notes. -/
theorem act_of_operation {o : Operation} (h : a.operation? x.settings x.registry = some o)
    (hp : p.player = x.player) : x.act a =
      ({ x with hub := x.listening a, player := (p.step x.settings o).player },
        (x.compileNoted a).flatMap x.hub.deliverNote ++
          ((x.listening a).follow (p.journal x.settings o)).1) := by
  cases a with
  | start source =>
    obtain ⟨c, hc, rfl⟩ := Act.operation?_start_eq_some_iff.mp h
    rw [act, start, compile_eq, hc]
    simp only [Performance.step, Performance.journal, hp]
  | update elapsed =>
    obtain rfl : .update elapsed = o := Option.some.inj h
    simp only [act, update, Performance.step, Performance.journal, hp]
    rfl
  | cancel =>
    obtain rfl : .cancel = o := Option.some.inj h
    simp only [act, cancel, Performance.step, Performance.journal, hp]
    rfl

/-- Without an operation the reveal goes on. -/
theorem act_of_none (h : a.operation? x.settings x.registry = none) :
    x.act a =
      ({ x with hub := x.listening a }, (x.compileNoted a).flatMap x.hub.deliverNote) := by
  cases a with
  | start source =>
    cases hc : KineticText.compile x.settings x.registry source with
    | ok c => exact nomatch h.symm.trans (Act.operation?_start_eq_some_iff.mpr ⟨c, hc, rfl⟩)
    | error e => rw [act, start, compile_eq, hc]
  | update elapsed => exact nomatch h
  | cancel => exact nomatch h

theorem act_settings (x : Session) (a : Act) :
    (x.act a).1.settings = x.settings ∧ (x.act a).1.registry = x.registry ∧
      (x.act a).1.hub = x.listening a := by
  cases h : a.operation? x.settings x.registry with
  | none => simp [act_of_none h]
  | some o => simp [act_of_operation (p := { player := x.player }) h rfl]

theorem act_player (a : Act) (hp : p.player = x.player) : (x.act a).1.player =
    (p.run x.settings (a.operation? x.settings x.registry).toList).player := by
  cases h : a.operation? x.settings x.registry with
  | none => rw [act_of_none h]; exact hp.symm
  | some o => rw [act_of_operation h hp]; rfl

/-- The reveal of a session is that of a player on which its acts are done, whoever listens. -/
theorem run_player (as : List Act) (hp : p.player = x.player) : (x.run as).1.player =
    (p.run x.settings (as.filterMap (Act.operation? x.settings x.registry))).player := by
  induction as generalizing x p with
  | nil => exact hp.symm
  | cons a as ih =>
    obtain ⟨hs, hr, -⟩ := act_settings x a
    have hrest := ih (act_player a hp).symm
    rw [hs, hr] at hrest
    have hsplit : (a :: as).filterMap (Act.operation? x.settings x.registry) =
        (a.operation? x.settings x.registry).toList ++
          as.filterMap (Act.operation? x.settings x.registry) := by
      cases h : a.operation? x.settings x.registry <;> simp [h]
    rw [hsplit, Performance.run, List.foldl_append]
    exact hrest

/-- The player of a session has taken its events in their order, each once. -/
theorem exists_sound (hx : x.player = .idle) (as : List Act) :
    ∃ p : Performance, p.player = (x.run as).1.player ∧ p.Sound x.settings := by
  refine ⟨_, (run_player (p := {}) as hx.symm).symm, ?_⟩
  apply Performance.sound_run (Performance.sound_initial x.settings)
  intro c hc
  obtain ⟨a, -, ha⟩ := List.mem_filterMap.mp hc
  cases a with
  | start source =>
    obtain ⟨c', hc', h⟩ := Act.operation?_start_eq_some_iff.mp ha
    obtain rfl : c' = c := Operation.start.inj h
    exact ⟨x.registry, source, hc'⟩
  | update elapsed => simp [Act.operation?] at ha
  | cancel => simp [Act.operation?] at ha

/-! ### What is written -/

theorem follow_notes {h : Hub} {v : Int} (hv : h.verbosity = some v) {ε α : Type}
    (m : Journal ε α) : (h.follow m).1 = (m.notes v).flatMap h.deliverNote := by
  simp only [Hub.follow, Journal.deliver, hv]

/-- The compile of markup notes nothing on the channel of the reveal. -/
theorem channel_of_mem_compileNotes {s : Settings} {r : Registry} {source : Text} {v : Nat}
    {n : Note} (hn : n ∈ compileNotes s r source v) : n.origin.channel ≠ Player.channel := by
  have hcompiler : compilerChannel ≠ Player.channel := by decide
  have hreport : reportOrigin.channel ≠ Player.channel := by decide
  rw [compileNotes_eq_filter] at hn
  have hn := List.mem_of_mem_filter hn
  cases hc : KineticText.compile s r source with
  | ok c =>
    obtain ⟨x, hx, hc⟩ := compile_eq_ok_iff.mp hc
    have hfull : compileNotes s r source 3 =
        fullLog source c (x.findings.filterMap Finding.note?) := notes_compilePainted hx _ hc
    rw [hfull] at hn
    rcases channel_of_mem_fullLog (walked_findings hx) hn with h | h <;> rw [h]
    · exact hcompiler
    · exact hreport
  | error e =>
    obtain ⟨us, t, vs, traces, -, -, -, -, hwalked, hnotes, -⟩ := compile_error_logged hc
    rw [hnotes] at hn
    simp only [List.mem_cons] at hn
    rcases hn with rfl | rfl | rfl | hn
    · exact hcompiler
    · exact hcompiler
    · exact hcompiler
    · rw [(hwalked.of_mem hn).2]
      exact hcompiler

theorem foldlM_hear?_compileNoted (x : Session) (a : Act) (active : Bool) :
    (x.compileNoted a).foldlM Performance.hear? active = some active := by
  cases a with
  | start source =>
    exact Performance.foldlM_hear?_of_others (fun n hn => channel_of_mem_compileNotes hn) active
  | update elapsed => rfl
  | cancel => rfl

/-- The notes of reveals are asked for, and none runs before there is a log. -/
structure Attentive (x : Session) : Prop where
  asked : 2 ≤ x.settings.verbosity
  heard : ∀ v ∈ x.hub.verbosity, 2 ≤ v
  silent : x.hub.verbosity = none → ¬ x.player.isActive

theorem Attentive.le_of_mem (h : x.Attentive) {v : Int} (hv : v ∈ (x.listening a).verbosity) :
    2 ≤ v := by
  cases a with
  | start source =>
    obtain rfl : (x.settings.verbosity : Int) = v := Option.some.inj hv
    exact_mod_cast h.asked
  | update elapsed => exact h.heard v hv
  | cancel => exact h.heard v hv

/-- Before there is a log, nothing is written and nothing starts. -/
theorem Attentive.act_of_silent (h : x.Attentive) (hv : (x.listening a).verbosity = none) :
    (x.act a).2 = [] ∧ x.player.isActive = false ∧ (x.act a).1.player.isActive = false := by
  cases a with
  | start source => exact nomatch hv
  | update elapsed =>
    have hidle : x.player.isActive = false := by simpa using h.silent hv
    have hpending : x.player.pending = none := by simpa [Player.isActive] using hidle
    refine ⟨?_, hidle, ?_⟩
    · simp only [act, update, Hub.follow, Journal.deliver]
      rw [show x.hub.verbosity = none from hv]
    · simp only [act, update, Player.update_of_idle hpending, hidle]
  | cancel =>
    refine ⟨?_, by simpa using h.silent hv, rfl⟩
    simp only [act, cancel, Hub.follow, Journal.deliver]
    rw [show x.hub.verbosity = none from hv]

theorem Attentive.act (h : x.Attentive) (a : Act) : (x.act a).1.Attentive := by
  obtain ⟨hs, -, hhub⟩ := act_settings x a
  refine ⟨?_, ?_, ?_⟩
  · rw [hs]
    exact h.asked
  · rw [hhub]
    exact fun v hv => h.le_of_mem hv
  · rw [hhub]
    intro hv
    simp [(h.act_of_silent hv).2.2]

/-- What an act writes are notes that tell how the reveal goes on. -/
theorem act_heard (h : x.Attentive) (a : Act) : ∃ ns : List Note,
    (x.act a).2 = ns.flatMap x.hub.deliverNote ∧
      ns.foldlM Performance.hear? x.player.isActive = some (x.act a).1.player.isActive := by
  cases ho : a.operation? x.settings x.registry with
  | none =>
    rw [act_of_none ho]
    exact ⟨x.compileNoted a, rfl, foldlM_hear?_compileNoted x a _⟩
  | some o =>
    cases hv : (x.listening a).verbosity with
    | none =>
      obtain ⟨hwritten, hidle, hnext⟩ := h.act_of_silent hv
      exact ⟨[], hwritten, by rw [hidle, hnext]; rfl⟩
    | some v =>
      have hstep := Performance.hear_step (s := x.settings) (h.le_of_mem hv)
        { player := x.player } o
      rw [act_of_operation (p := { player := x.player }) ho rfl, follow_notes hv]
      refine ⟨x.compileNoted a ++ (Performance.journal x.settings { player := x.player } o).notes v,
        ?_, ?_⟩
      · rw [List.flatMap_append]
        cases a <;> rfl
      · rw [List.foldlM_append, foldlM_hear?_compileNoted]
        exact hstep

/-- Whoever reads the log of a session knows at all times if a reveal runs. -/
theorem run_heard (h : x.Attentive) (as : List Act) : ∃ ns : List Note,
    (x.run as).2 = ns.flatMap x.hub.deliverNote ∧
      ns.foldlM Performance.hear? x.player.isActive = some (x.run as).1.player.isActive := by
  induction as generalizing x with
  | nil => exact ⟨[], rfl, rfl⟩
  | cons a as ih =>
    obtain ⟨ns, hns, hactive⟩ := act_heard h a
    obtain ⟨later, hlater, hactive'⟩ := ih (h.act a)
    refine ⟨ns ++ later, ?_, ?_⟩
    · have hdeliver : (x.act a).1.hub.deliverNote = x.hub.deliverNote := by
        rw [(act_settings x a).2.2]
        cases a <;> rfl
      rw [List.flatMap_append, ← hns, ← hdeliver, ← hlater]
      rfl
    · rw [List.foldlM_append, hactive]
      exact hactive'

end Session
end KineticText
