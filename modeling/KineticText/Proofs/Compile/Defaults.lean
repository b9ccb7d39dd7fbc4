import KineticText.Proofs.Compile.Outcome
import KineticText.Proofs.Timeline.Regions

/-! The settings leave a compile as it is, but for the parameters that directives leave unset. -/
namespace KineticText

/-! ### What is found with other defaults -/

def Opening.refill (defaults : Params (Option Float)) (o : Opening) : Opening :=
  { o with params := o.token.params.withDefaults defaults }

def Finding.refill (defaults : Params (Option Float)) : Finding → Finding
  | opened o => opened (o.refill defaults)
  | closed o t stop => closed (o.refill defaults) t stop
  | mismatch t f => mismatch t f

variable {r : Registry} {defaults defaults' : Params (Option Float)} {ts : List Token}
  {s : Settings} {source : Text} {g g' : Region} {c : Compiled}

theorem carries_refill (r : Registry) (defaults defaults' : Params (Option Float)) :
    Carries r defaults defaults' id (Opening.refill defaults') (Finding.refill defaults') where
  effect _ := rfl
  opened _ := rfl
  closed _ t stop := ⟨t, stop, rfl⟩
  mismatch t f := ⟨t, f, rfl⟩
  leftOpen _ := rfl
  found waits _ := by
    refine Token.finding?_carried ?_ ?_ ?_ ?_ ?_ waits
    all_goals
      intros
      rfl

/-- With other defaults the same is found, and the regions have their parameters filled up anew. -/
theorem foundIn_refill (defaults defaults' : Params (Option Float)) (cs : List Cue) :
    foundIn r defaults' [] cs =
      (foundIn r defaults [] cs).map (Finding.refill defaults') := by
  have h := (carries_refill r defaults defaults').foundIn [] cs
  rwa [List.map_id, List.map_nil] at h

theorem diagnostics_refill (defaults : Params (Option Float)) (fs : List Finding) :
    (fs.map (Finding.refill defaults)).filterMap Finding.diagnostic? =
      fs.filterMap Finding.diagnostic? := by
  rw [List.filterMap_map]
  apply List.filterMap_congr
  intro f _
  cases f <;> rfl

/-! ### Two compiles of a source -/

/-- A region in two timelines of the same tokens: the directive that opens it has its own parameters
in both, and in each the defaults for those it leaves unset. -/
structure Restyled (r : Registry) (ts : List Token) (defaults defaults' : Params (Option Float))
    (g g' : Region) : Prop where
  effect : g.effect = g'.effect
  start : g.start = g'.start
  stop : g.stop = g'.stop
  opener : ∃ e i j t, Paired r ts e i j ∧ ts[i]? = some t ∧
    g.effect = some e ∧ g.start = visibleBefore ts i ∧ g.stop = visibleBefore ts j ∧
    t.params.Filled defaults g.params ∧ t.params.Filled defaults' g'.params ∧
    ((∀ k : Nat, t.params.toList[k]? = some none →
      defaults.toList[k]? = defaults'.toList[k]?) → g.params = g'.params)

/-- The compiled forms are the same but for the processed tokens and the parameters of the
regions. -/
structure Alike (r : Registry) (defaults defaults' : Params (Option Float)) (c c' : Compiled) :
    Prop where
  tokens : c.tokens = c'.tokens
  display : c.display = c'.display
  visibleCount : c.visibleCount = c'.visibleCount
  diagnostics : c.diagnostics = c'.diagnostics
  regions : List.Forall₂ (Restyled r c.tokens defaults defaults') c.regions c'.regions

theorem Spans.restyled {i j : Nat} (h : Spans r defaults ts i j g)
    (h' : Spans r defaults' ts i j g') : Restyled r ts defaults defaults' g g' := by
  obtain ⟨e, t, hp, ht, rfl⟩ := h
  obtain ⟨e', t', hp', ht', rfl⟩ := h'
  obtain rfl : e = e' := hp.start.effect_eq hp'.start
  obtain rfl : t = t' := Option.some.inj (ht.symm.trans ht')
  have hfilled := Params.filled_withDefaults t.params defaults
  have hfilled' := Params.filled_withDefaults t.params defaults'
  exact ⟨rfl, rfl, rfl, e, i, j, t, hp, ht, rfl, rfl, rfl, hfilled, hfilled', hfilled.eq hfilled'⟩

/-- Things built at the same places are related if those at one place are. -/
theorem forall₂_of_places {α β γ : Type} {R : α → β → Prop} {S : α → γ → Prop} {T : β → γ → Prop}
    {as : List α} {bs : List β} {cs : List γ} (h : List.Forall₂ R as bs)
    (h' : List.Forall₂ S as cs) (ht : ∀ a b c, R a b → S a c → T b c) : List.Forall₂ T bs cs := by
  induction h generalizing cs with
  | nil =>
    cases h'
    exact .nil
  | cons hab _ ih =>
    cases h' with
    | cons hac hrest => exact .cons (ht _ _ _ hab hac) (ih hrest)

theorem restyled_ofTokens {x x' : Timeline} (h : Timeline.ofTokens r defaults ts = .ok x)
    (h' : Timeline.ofTokens r defaults' ts = .ok x') :
    List.Forall₂ (Restyled r ts defaults defaults') x.regions x'.regions := by
  obtain ⟨-, -, -, hregions, -⟩ := timeline_places h
  obtain ⟨-, -, -, hregions', -⟩ := timeline_places h'
  exact forall₂_of_places hregions hregions' fun p g g' => Spans.restyled

/-- A source that stops a compile with some settings stops it with all of them. -/
theorem compile_eq_error_iff_of_settings {x : CompileError} (s s' : Settings) :
    compile s r source = .error x ↔ compile s' r source = .error x := by
  rw [compile_eq_error_iff, compile_eq_error_iff]

theorem exists_alike (s' : Settings) (h : compile s r source = .ok c) :
    ∃ c', compile s' r source = .ok c' ∧ Alike r s.paramDefaults s'.paramDefaults c c' := by
  obtain ⟨hdefined, rfl⟩ := compile_eq_ok_iff_cues.mp h
  refine ⟨_, compile_eq_ok_iff_cues.mpr ⟨hdefined, rfl⟩, rfl, rfl, rfl, ?_, ?_⟩
  · simp only [Compiled.ofTokens]
    rw [foundIn_refill s.paramDefaults s'.paramDefaults, diagnostics_refill]
  · exact restyled_ofTokens (ofTokens_eq_ok_iff.mpr ⟨hdefined, rfl⟩)
      (ofTokens_eq_ok_iff.mpr ⟨hdefined, rfl⟩)

/-- Splitting tokens at any mark leaves their timeline as it is. So of what a compile gives, the
processed tokens apart, the settings are seen in the parameters of the regions only, and there only
in those that the directives leave unset. -/
theorem compile_settings (r : Registry) :
    (∀ mark defaults ts, mark ≠ [] →
      Timeline.ofTokens r defaults (splitPauses mark ts) = Timeline.ofTokens r defaults ts) ∧
    ∀ s s' source,
      (∀ x, compile s r source = .error x ↔ compile s' r source = .error x) ∧
      ∀ c, compile s r source = .ok c →
        ∃ c', compile s' r source = .ok c' ∧ Alike r s.paramDefaults s'.paramDefaults c c' :=
  ⟨fun _ defaults ts hm => ofTokens_splitPauses hm defaults ts,
    fun s s' _ => ⟨fun _ => compile_eq_error_iff_of_settings s s', fun _ => exists_alike s'⟩⟩

/-- A higher pitch, and another character that makes a pause. -/
def shrill : Settings := { defaults := ⟨1, 3, 3, 1, 0, 0⟩, pauseChar := 'b', verbosity := 3 }

set_option maxRecDepth 1000 in
/-- The mark is of two characters and stands twice within the wave, which sets its amplitude. -/
theorem compile_settings_shrill :
    "..".toList ≠ [] ∧
    Timeline.ofTokens .standard .unset
        (splitPauses "..".toList (tokenize .standard "<wave:2>a..b...</wave>".toList).1) =
      Timeline.ofTokens .standard .unset (tokenize .standard "<wave:2>a..b...</wave>".toList).1 ∧
    ∃ c c', compile {} .standard "<wave:2>a..b...</wave>".toList = .ok c ∧
      compile shrill .standard "<wave:2>a..b...</wave>".toList = .ok c' ∧
      c.regions.map (fun g => (g.start, g.stop, g.params.frequencyX)) = [(0, 7, some 1)] ∧
      c'.regions.map (fun g => (g.start, g.stop, g.params.frequencyX)) = [(0, 7, some 3)] ∧
      Alike .standard ({} : Settings).paramDefaults shrill.paramDefaults c c' := by
  obtain ⟨c, hc⟩ := exists_compile_standard {} "<wave:2>a..b...</wave>".toList
  obtain ⟨hsplit, hsettings⟩ := compile_settings .standard
  obtain ⟨c', hc', halike⟩ := (hsettings {} shrill _).2 c hc
  obtain ⟨-, rfl⟩ := compile_eq_ok_iff_cues.mp hc
  obtain ⟨-, rfl⟩ := compile_eq_ok_iff_cues.mp hc'
  have hmark : "..".toList ≠ [] := by decide
  exact ⟨hmark, hsplit _ _ _ hmark, _, _, hc, hc', rfl, rfl, halike⟩

end KineticText
