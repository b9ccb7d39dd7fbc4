import KineticText.Proofs.Reveal.Coherence
import KineticText.Proofs.Settings.Reading

/-! Settings that have been read: what all that uses them can rely on. -/
namespace KineticText

/-- A time that can be waited for. -/
def IsWait (x : Float) : Prop := 0 ≤ x ∧ ¬ x.isNaN

theorem isWait_of_nonneg {x : Float} (h : 0 ≤ x) : IsWait x :=
  ⟨h, Settings.not_isNaN_of_le h⟩

namespace Settings

/-- The settings by their names, as a host gives them. -/
def toValues (s : Settings) : List (Text × Value) :=
  [("curr_amplitude".toList, .number s.defaults.amplitude),
    ("curr_frequency_x".toList, .number s.defaults.frequencyX),
    ("curr_frequency_y".toList, .number s.defaults.frequencyY),
    ("prev_amplitude".toList, .number s.defaults.scale),
    ("prev_frequency_x".toList, .number s.defaults.phaseX),
    ("prev_frequency_y".toList, .number s.defaults.phaseY),
    ("typewriter_enabled".toList, .bool s.typewriter),
    ("letter_wait".toList, .number s.letterWait),
    ("pause_wait".toList, .number s.pauseWait),
    ("pause_char".toList, .text [s.pauseChar]),
    ("verbosity".toList, .integer s.verbosity)]

/-- What the pipeline relies on. -/
structure Sound (s : Settings) : Prop where
  letterWait : IsWait s.letterWait
  pauseWait : IsWait s.pauseWait
  pauseChar : s.pauseChar ≠ '<' ∧ s.pauseChar ≠ '>'

theorem sound_default : ({} : Settings).Sound :=
  ⟨isWait_of_nonneg (by decide), isWait_of_nonneg (by decide), by decide⟩

namespace Reader

variable {p : Reader} {g : Given} {s s' : Settings} {name : Text}
  {environment : List (Text × Text)}

theorem settings_eq_ok_iff : p.settings g = .ok s ↔
    g.environment.findSome? Given.variableFault? = none ∧ p.read g = .accepted s := by
  unfold settings
  cases g.environment.findSome? Given.variableFault? <;> cases p.read g <;> simp

theorem Fills.sound (h : p.Fills g s) : s.Sound where
  letterWait := of_field h.letterWait sound_default.letterWait fun _ hv =>
    isWait_of_nonneg (wait_eq_ok_iff.mp hv).2
  pauseWait := of_field h.pauseWait sound_default.pauseWait fun _ hv =>
    isWait_of_nonneg (wait_eq_ok_iff.mp hv).2
  pauseChar := of_field (P := fun c => c ≠ '<' ∧ c ≠ '>') h.pauseChar sound_default.pauseChar
    fun _ hv => (readPauseChar_eq_ok_iff.mp hv).2

/-- What is given of a kind that could be refused is set as it reads. -/
structure Honours (p : Reader) (g : Given) (s : Settings) : Prop where
  letterWait : ∀ v, p.value? g "letter_wait".toList = some v → p.number v = .ok s.letterWait
  pauseWait : ∀ v, p.value? g "pause_wait".toList = some v → p.number v = .ok s.pauseWait
  pauseChar : ∀ v, p.value? g "pause_char".toList = some v → v = .text [s.pauseChar]
  verbosity : ∀ v, p.value? g "verbosity".toList = some v → p.integer v = .ok (s.verbosity : Int)

theorem Fills.honours (h : p.Fills g s) : p.Honours g s where
  letterWait _ hv := (wait_eq_ok_iff.mp (read_of_field h.letterWait hv)).1
  pauseWait _ hv := (wait_eq_ok_iff.mp (read_of_field h.pauseWait hv)).1
  pauseChar _ hv := (readPauseChar_eq_ok_iff.mp (read_of_field h.pauseChar hv)).1
  verbosity _ hv := verbosity_eq_ok_iff.mp (read_of_field h.verbosity hv)

/-! ### Written out and read again -/

theorem map_fst_toValues (s : Settings) : s.toValues.map Prod.fst = Given.fields := rfl

theorem eq_of_mem_toValues {x y : Text × Value} (hx : x ∈ s.toValues) (hy : y ∈ s.toValues)
    (h : x.1 = y.1) : x = y := by
  have hnodup : (s.toValues.map Prod.fst).Nodup := by
    rw [map_fst_toValues]
    decide
  exact List.inj_on_of_nodup_map hnodup hx hy h

/-- A setting written out under its name is the value of the field. -/
theorem value?_toValues (hp : p.Lawful) {v : Value} (h : s.toValues.lookup name = some v)
    (environment : List (Text × Text)) : p.value? ⟨s.toValues, environment⟩ name = some v := by
  obtain ⟨before, after, hsplit, -⟩ := List.lookup_eq_some_iff.mp h
  have hmem : (name, v) ∈ s.toValues := by simp [hsplit]
  have hfields {x : Text × Value} (hx : x ∈ s.toValues) : x.1 ∈ Given.fields := by
    rw [← map_fst_toValues s]
    exact List.mem_map_of_mem hx
  refine hp.value? ⟨s.toValues, environment⟩ name (hfields hmem) v hmem ?_
  intro x hx hname
  rw [lowered_of_mem_fields (hfields hx)] at hname
  exact eq_of_mem_toValues hx hmem hname

/-- Settings written out are read as they are, whatever the environment holds. -/
theorem fills_toValues (hp : p.Lawful) (h : s.Sound) (environment : List (Text × Text)) :
    p.Fills ⟨s.toValues, environment⟩ s where
  amplitude := field_of_value (value?_toValues hp rfl _) (hp.number _)
  frequencyX := field_of_value (value?_toValues hp rfl _) (hp.number _)
  frequencyY := field_of_value (value?_toValues hp rfl _) (hp.number _)
  scale := field_of_value (value?_toValues hp rfl _) (hp.number _)
  phaseX := field_of_value (value?_toValues hp rfl _) (hp.number _)
  phaseY := field_of_value (value?_toValues hp rfl _) (hp.number _)
  typewriter := field_of_value (value?_toValues hp rfl _) (hp.bool _)
  letterWait := field_of_value (value?_toValues hp rfl _)
    (wait_eq_ok_iff.mpr ⟨hp.number _, h.letterWait.1⟩)
  pauseWait := field_of_value (value?_toValues hp rfl _)
    (wait_eq_ok_iff.mpr ⟨hp.number _, h.pauseWait.1⟩)
  pauseChar := field_of_value (value?_toValues hp rfl _)
    (readPauseChar_eq_ok_iff.mpr ⟨rfl, h.pauseChar⟩)
  verbosity := field_of_value (value?_toValues hp rfl _) (verbosity_eq_ok_iff.mpr (hp.integer _))
  noOther := by
    have hnil : p.others ⟨s.toValues, environment⟩ = [] := hp.others_nil _ fun x hx =>
      map_fst_toValues s ▸ List.mem_map_of_mem hx
    rw [noOther, hnil]

/-! ### Another environment -/

/-- In no environment has the field another value, or is it a reason for having no settings. -/
def Fixes (p : Reader) (g : Given) (s : Settings) (name : Text) : Prop :=
  ∀ environment, match p.settings { g with environment } with
    | .ok s' => s'.toValues.lookup name = s.toValues.lookup name
    | .error (.problems ps) => ∀ q ∈ ps, q.field ≠ name
    | .error (.variable _) => True

theorem lookup_congr {l l' : List (Text × Value)}
    (h : List.Forall₂ (fun x y => x.1 = y.1 ∧ (x.1 = name → x.2 = y.2)) l l') :
    l.lookup name = l'.lookup name := by
  induction h with
  | nil => rfl
  | @cons x y l l' hxy _ ih =>
    obtain ⟨n, v⟩ := x
    obtain ⟨n', v'⟩ := y
    obtain ⟨rfl, hv⟩ := hxy
    by_cases hn : n = name
    · subst hn
      simpa using hv rfl
    · have hne : (name == n) = false := by simpa using Ne.symm hn
      simp [List.lookup_cons, hne, ih]

theorem lookup_within (hp : p.Lawful) (hname : g.Names name) (h : p.Fills g s)
    (h' : p.Fills { g with environment } s') :
    s'.toValues.lookup name = s.toValues.lookup name := by
  have hsame {α : Type} {n : String} {read : Value → Except Complaint α} {default a b : α}
      (f : α → Value) (hb : p.field { g with environment } n read default = .accepted b)
      (ha : p.field g n read default = .accepted a) (hn : n.toList = name) : f b = f a := by
    subst hn
    rw [field_within hp environment hname, ha] at hb
    cases hb
    rfl
  apply lookup_congr
  unfold toValues
  refine .cons ⟨rfl, hsame .number h'.amplitude h.amplitude⟩ <|
    .cons ⟨rfl, hsame .number h'.frequencyX h.frequencyX⟩ <|
    .cons ⟨rfl, hsame .number h'.frequencyY h.frequencyY⟩ <|
    .cons ⟨rfl, hsame .number h'.scale h.scale⟩ <|
    .cons ⟨rfl, hsame .number h'.phaseX h.phaseX⟩ <|
    .cons ⟨rfl, hsame .number h'.phaseY h.phaseY⟩ <|
    .cons ⟨rfl, hsame .bool h'.typewriter h.typewriter⟩ <|
    .cons ⟨rfl, hsame .number h'.letterWait h.letterWait⟩ <|
    .cons ⟨rfl, hsame .number h'.pauseWait h.pauseWait⟩ <|
    .cons ⟨rfl, hsame (fun c => .text [c]) h'.pauseChar h.pauseChar⟩ <|
    .cons ⟨rfl, hsame (fun n : Nat => .integer n) h'.verbosity h.verbosity⟩ .nil

theorem fixes_of_read (hp : p.Lawful) (h : p.read g = .accepted s) (hname : g.Names name) :
    p.Fixes g s name := by
  intro environment
  cases hs : p.settings { g with environment } with
  | ok s' =>
    obtain ⟨-, hread⟩ := settings_eq_ok_iff.mp hs
    exact lookup_within hp hname (fills_of_read h) (fills_of_read hread)
  | error e =>
    rcases e with f | ps
    · trivial
    · have hps : p.read { g with environment } = .refused ps := by
        unfold settings at hs
        split at hs <;> simp_all
      have hnone := problems_read_within hp environment hname
      rw [h, hps] at hnone
      intro q hq hfield
      have hmem : q ∈ ps.filter (·.field = name) := by simp [hq, hfield]
      rw [show ps.filter (·.field = name) = [] from hnone] at hmem
      exact nomatch hmem

end Reader
end Settings

/-! ### The pipeline -/

/-- A compile and its reveal stay within what the settings guarantee. -/
structure Compiled.Serves (s : Settings) (c : Compiled) : Prop where
  /-- The text is split without refusal. -/
  split : splitPauses? s.pauseMark c.tokens = .ok c.processed
  pauses : ∀ t ∈ c.tokens ++ c.processed, t.kind = .pause →
    ∃ ch, t.content = [ch] ∧ ch ≠ '<' ∧ ch ≠ '>'
  events : ∀ e ∈ schedule s.pace c.processed, IsWait e.wait ∧ e.text.length ≤ 1

theorem Settings.Sound.serves {s : Settings} {r : Registry} {source : Text} {c : Compiled}
    (hs : s.Sound) (h : compile s r source = .ok c) : c.Serves s := by
  obtain ⟨x, -, rfl⟩ := compile_eq_ok_iff.mp h
  refine ⟨?_, ?_, ?_⟩
  · simp [splitPauses?, Settings.pauseMark, Compiled.ofTimeline]
  · intro t ht hk
    rcases List.mem_append.mp ht with ht | ht
    · exact absurd hk (kind_ne_pause_of_mem_tokenize ht)
    · rcases mem_splitPauses (by simp [Settings.pauseMark]) ht with ⟨hsource, -⟩ | htext | ⟨-, hc⟩
      · exact absurd hk (kind_ne_pause_of_mem_tokenize hsource)
      · simp [hk] at htext
      · exact ⟨s.pauseChar, hc, hs.pauseChar⟩
  · intro e he
    refine ⟨?_, length_text_le_of_mem_schedule (fun t ht => stepwise_of_mem_processed ht) he⟩
    rcases wait_of_mem_schedule he with hw | hw | hw
    · exact hw ▸ hs.letterWait
    · exact hw ▸ hs.pauseWait
    · exact hw ▸ isWait_of_nonneg (by decide)

/-- What holds with any library that reads as documented. -/
theorem Settings.Reader.Lawful.guarantee {p : Settings.Reader} (hp : p.Lawful) {g : Settings.Given}
    {s : Settings} (h : p.settings g = .ok s) :
    s.Sound ∧ p.Honours g s ∧ (∀ name, g.Names name → p.Fixes g s name) ∧
      (∀ environment, environment.findSome? Settings.Given.variableFault? = none →
        p.settings ⟨s.toValues, environment⟩ = .ok s) ∧
      ∀ source, ∃ c, compile s .standard source = .ok c ∧ c.Serves s := by
  obtain ⟨-, hread⟩ := Settings.Reader.settings_eq_ok_iff.mp h
  have hfills := Settings.Reader.fills_of_read hread
  have hsound := hfills.sound
  refine ⟨hsound, hfills.honours, fun name => Settings.Reader.fixes_of_read hp hread, ?_, ?_⟩
  · intro environment hfree
    exact Settings.Reader.settings_eq_ok_iff.mpr
      ⟨hfree, (Settings.Reader.fills_toValues hp hsound environment).read_eq⟩
  · intro source
    obtain ⟨c, hc⟩ := exists_compile_standard s source
    exact ⟨c, hc, hsound.serves hc⟩

namespace Settings

/-- What is given of a kind that could be refused is set as it reads. -/
def Given.Honours (g : Given) (s : Settings) : Prop := library.Honours g s

/-- In no environment has the field another value, or is it a reason for having no settings. -/
def Given.Fixes (g : Given) (s : Settings) (name : Text) : Prop := library.Fixes g s name

end Settings

/-- Settings that are built have waits that can be waited for and a pause character that is no
bracket, as they were given. What is given explicitly, the environment does not change, and settings
all of which are given are read as they are in any environment. With them every source compiles
under the built-in directives, its pauses are single characters that are no brackets, and its reveal
shows one character a step at most and waits as long as can be waited. -/
theorem settings_guarantee (g : Settings.Given) (s : Settings) (h : g.settings = .ok s) :
    s.Sound ∧ g.Honours s ∧ (∀ name, g.Names name → g.Fixes s name) ∧
      (∀ environment, environment.findSome? Settings.Given.variableFault? = none →
        Settings.Given.settings ⟨s.toValues, environment⟩ = .ok s) ∧
      ∀ source, ∃ c, compile s .standard source = .ok c ∧ c.Serves s :=
  Settings.lawful_library.guarantee h

/-- A wait given as a truth value and in the environment as no number, and all else from texts. -/
def overridden : Settings.Given where
  values := [("Letter_Wait".toList, .bool true)]
  environment := [("TEXTMOTION_LETTER_WAIT".toList, "nan".toList),
    ("textmotion_pause_wait".toList, " +.5e1".toList),
    ("TEXTMOTION_PAUSE_CHAR".toList, "!".toList), ("TEXTMOTION_VERBOSITY".toList, "3.0".toList)]

theorem settings_guarantee_overridden :
    let s : Settings := { letterWait := 1, pauseWait := 5, pauseChar := '!', verbosity := 3 }
    overridden.settings = .ok s ∧ s.Sound ∧ overridden.Honours s ∧
      overridden.Fixes s "letter_wait".toList ∧
      Settings.Given.settings ⟨s.toValues, overridden.environment⟩ = .ok s ∧
      ∃ c, compile s .standard "<wave>a!<b".toList = .ok c ∧ c.Serves s ∧
        (schedule s.pace c.processed).map (fun e => (e.text, e.wait)) =
          [([], 0), (['a'], 1), (['!'], 5), (['<'], 1), (['b'], 1)] := by
  intro s
  have h : overridden.settings = .ok s := by decide +kernel
  obtain ⟨hsound, hhonours, hfixes, hagain, hserves⟩ := settings_guarantee overridden s h
  obtain ⟨c, hc, hserved⟩ := hserves "<wave>a!<b".toList
  refine ⟨h, hsound, hhonours, hfixes _ ⟨_, List.mem_cons_self, by decide⟩,
    hagain _ (by decide), c, hc, hserved, ?_⟩
  obtain ⟨-, rfl⟩ := compile_eq_ok_iff_cues.mp hc
  decide +kernel

end KineticText
