import KineticText.Proofs.Reveal.Coherence
import KineticText.Proofs.Token.Moving
import KineticText.Proofs.Token.Stripping

/-! Compiling a display text again: nothing custom is left in it, and it shows the same. -/
namespace KineticText

/-- The contents of the native directives, and whether each of them is closed. -/
def natives (ts : List Token) : List (Text × Bool) :=
  (ts.filter Token.isNative).map fun t => (t.content, t.closed)

/-- The second compile shows what the first one shows, and has nothing of its own to do. -/
structure Restates (s : Settings) (c c' : Compiled) : Prop where
  display : c'.display = c.display
  visibleCount : c'.visibleCount = c.visibleCount
  regions : c'.regions = []
  matched : ∀ d ∈ c'.diagnostics, d.kind ≠ .regionMismatch
  natives : natives c'.tokens = natives c.tokens
  events : shown s.pace c'.processed = shown s.pace c.processed
  plain : ∀ t ∈ c'.tokens, ¬ t.isCustom

variable {s : Settings} {r : Registry} {n : Nat} {ts : List Token} {ps : List Piece}

/-! ### What stays the same -/

theorem plain_placed_stripped : ∀ t ∈ placed r n (stripped r ps), ¬ t.isCustom := by
  intro t ht
  obtain ⟨⟨m, p⟩, hp, rfl⟩ := List.mem_map.mp ht
  rw [Piece.isCustom_token]
  exact not_isCustom_of_mem_stripped (mem_of_mem_located hp)

theorem natives_eq_flatMap (ts : List Token) :
    natives ts = ts.flatMap fun t => if t.isNative then [(t.content, t.closed)] else [] := by
  induction ts with
  | nil => rfl
  | cons t ts ih =>
    rw [natives] at ih ⊢
    by_cases ht : t.isNative <;> simp [ht, ih]

theorem natives_placed_stripped :
    natives (placed r 0 (stripped r ps)) = natives (placed r 0 ps) := by
  rw [natives_eq_flatMap, natives_eq_flatMap]
  apply flatMap_placed_filter (fun _ _ => rfl) rfl fun _ _ => rfl
  intro p hp
  have hcustom : (p.token r 0).isCustom := by simpa [Piece.isCustom_token] using hp
  rw [if_neg (Token.isCustom_iff.mp hcustom).2]

/-- A custom directive takes a step that shows nothing. -/
theorem Token.appearance_of_custom {τ : Type} [Zero τ] {pace : Pace τ} {mark : Char} {t : Token}
    (h : t.isCustom) : t.appearance pace mark = [⟨[], 0⟩] := by
  obtain ⟨hd, hn⟩ := isCustom_iff.mp h
  have hk : t.kind = .directive := by simpa [isDirective] using hd
  simp [appearance, hk, hn]

section Events

variable {τ : Type} [Zero τ] {pace : Pace τ} {c : Char} {q : Piece → Bool}

theorem shown_splitPauses (h : ∀ t ∈ ts, t.kind ≠ .pause) : shown pace (splitPauses [c] ts) =
    ts.flatMap fun t => (t.appearance pace c).filter Event.isVisible := by
  rw [shown, schedule_splitPauses h, List.filter_flatMap]

/-- Without custom directives the same is shown. -/
theorem shown_placed_filter (hq : ∀ p : Piece, ¬ q p → p.isCustom r) :
    shown pace (splitPauses [c] (placed r 0 (joined (ps.filter q)))) =
      shown pace (splitPauses [c] (placed r 0 ps)) := by
  rw [shown_splitPauses kind_ne_pause_of_mem_placed, shown_splitPauses kind_ne_pause_of_mem_placed]
  apply flatMap_placed_filter
  · intro g t
    rfl
  · rfl
  · intro w v
    simp [Piece.token, Token.appearance]
  · intro p hp
    have hcustom : (p.token r 0).isCustom := by rw [Piece.isCustom_token, hq p hp]
    simp [Token.appearance_of_custom hcustom, Event.isVisible]

theorem shown_placed_stripped :
    shown pace (splitPauses [c] (placed r 0 (stripped r ps))) =
      shown pace (splitPauses [c] (placed r 0 ps)) := by
  apply shown_placed_filter
  intro p hp
  simpa using hp

end Events

/-! ### The second compile -/

/-- What a compile shows. -/
theorem compile_shows {source : Text} {c : Compiled} (h : compile s r source = .ok c) :
    c.tokens = (tokenize r source).1 ∧ c.processed = splitPauses s.pauseMark c.tokens ∧
      c.display = c.tokens.flatMap Token.display ∧
      c.visibleCount = (shown s.pace c.processed).length := by
  obtain ⟨-, rfl⟩ := compile_eq_ok_iff_cues.mp h
  have hsteps : ∀ t ∈ splitPauses s.pauseMark (tokenize r source).1, t.Stepwise :=
    fun t ht => stepwise_of_mem_processed ht
  refine ⟨rfl, rfl, rfl, ?_⟩
  have hmark : s.pauseMark ≠ [] := List.cons_ne_nil _ _
  calc ((tokenize r source).1.flatMap Token.visible).length
      = ((splitPauses s.pauseMark (tokenize r source).1).flatMap Token.visible).length := by
        rw [visible_splitPauses hmark]
    _ = (shown s.pace (splitPauses s.pauseMark (tokenize r source).1)).length :=
        (length_shown hsteps).symm

/-- A source without custom directives is its own display text. -/
theorem compile_of_plain (s : Settings) {source : Text}
    (h : ∀ t ∈ (tokenize r source).1, ¬ t.isCustom) :
    ∃ c, compile s r source = .ok c ∧ c.display = source ∧ c.regions = [] ∧
      c.diagnostics = (tokenize r source).2 := by
  have hcues : cues 0 (tokenize r source).1 = [] := cues_of_plain h
  refine ⟨_, compile_eq_ok_iff_cues.mpr ⟨by simp [hcues], rfl⟩, ?_,
    by simp [Compiled.ofTokens, hcues, foundIn, foundAlong, openAfter],
    by simp [Compiled.ofTokens, hcues, foundIn, foundAlong, openAfter]⟩
  calc (tokenize r source).1.flatMap Token.display
      = sources (tokenize r source).1 := by
        apply List.flatMap_congr
        intro t ht
        rw [Token.display_eq, if_neg (h t ht)]
    _ = source := (tiles_tokenize r source).2

/-- The display text is the source without the places of its custom directives, and compiles to
what shows the same. -/
theorem compile_display (s : Settings) (r : Registry) (source : Text) (c : Compiled)
    (h : compile s r source = .ok c) :
    c.display = source.without (InCustom c.tokens) ∧
      ∃ c', compile s r c.display = .ok c' ∧ Restates s c c' := by
  obtain ⟨htokens, hprocessed, hdisplay, hcount⟩ := compile_shows h
  obtain ⟨ps, hn, hps, hagain⟩ := tokenize_display r source
  rw [← htokens, ← hdisplay] at hagain
  have hplain : ∀ t ∈ (tokenize r c.display).1, ¬ t.isCustom := by
    rw [hagain]
    exact plain_placed_stripped
  constructor
  · obtain ⟨htiles, hsources⟩ := tiles_tokenize r source
    have hfilter := filter_sources (n := 0) htiles
    rw [hsources, ← htokens] at hfilter
    exact hdisplay.trans hfilter.symm
  · obtain ⟨c', hc', hdisplay', hregions, hdiagnostics⟩ :=
      compile_of_plain s hplain
    obtain ⟨htokens', hprocessed', -, hcount'⟩ := compile_shows hc'
    rw [hagain] at htokens' hdiagnostics
    rw [hps] at htokens
    have hshown : shown s.pace c'.processed = shown s.pace c.processed := by
      rw [hprocessed', hprocessed, htokens', htokens]
      exact shown_placed_stripped
    refine ⟨c', hc', hdisplay', ?_, hregions, ?_, ?_, hshown, ?_⟩
    · rw [hcount', hcount, hshown]
    · intro d hd
      rw [hdiagnostics] at hd
      obtain ⟨x, -, hx⟩ := List.mem_flatMap.mp hd
      exact Piece.faults_kind hx
    · rw [htokens', htokens]
      exact natives_placed_stripped
    · rw [htokens']
      exact plain_placed_stripped

/-- Custom directives inside and around the fragments of other tags. -/
theorem compile_display_spliced :
    ∃ c, compile {} .standard "<<wave>wave>.<jitter>wave></wave><i".toList = .ok c ∧
      c.display = Text.without (InCustom c.tokens)
        "<<wave>wave>.<jitter>wave></wave><i".toList ∧
      ∃ c', compile {} .standard c.display = .ok c' ∧ Restates {} c c' := by
  obtain ⟨c, hc⟩ := exists_compile_standard {} "<<wave>wave>.<jitter>wave></wave><i".toList
  exact ⟨c, hc, compile_display {} .standard _ c hc⟩

end KineticText
