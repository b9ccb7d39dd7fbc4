import KineticText.Proofs.Compile.Stripping
import KineticText.Proofs.Timeline.Separation

/-! The effects do not interfere: without the directives of one of them, a source compiles to the
same text with the regions of the other. -/
namespace KineticText

def Effect.other : Effect → Effect
  | wave => jitter
  | jitter => wave

/-- A directive of the effect is reported to have no partner. -/
def Diagnostic.Blames (r : Registry) (ts : List Token) (e : Effect) (d : Diagnostic) : Prop :=
  d.kind = .regionMismatch ∧ ∃ t ∈ ts, t.offset = d.offset ∧ t.Concerns r e

instance (r : Registry) (ts : List Token) (e : Effect) (d : Diagnostic) :
    Decidable (d.Blames r ts e) := inferInstanceAs (Decidable (_ ∧ _))

/-- The second compile lacks one effect and is otherwise like the first. -/
structure Undisturbed (s : Settings) (r : Registry) (e : Effect) (c c' : Compiled) : Prop where
  display : c'.display = c.display
  visibleCount : c'.visibleCount = c.visibleCount
  events : shown s.pace c'.processed = shown s.pace c.processed
  regions : c'.regions = c.regions.filter (·.effect ≠ some e)
  /-- As many directives are reported as there were of the other effect. -/
  mismatches : c'.diagnostics.countP (·.kind = .regionMismatch) =
    c.diagnostics.countP (·.Blames r c.tokens e.other)

variable {r : Registry} {e : Effect} {n : Nat} {t u : Token} {ts : List Token} {ps : List Piece}
  {f : Finding}

/-! ### The pieces that stay -/

/-- The piece is no directive of the effect. -/
def Piece.spares (r : Registry) (e : Effect) (p : Piece) : Bool := ¬ (p.token r 0).Concerns r e

/-- The pieces without the directives of the effect. -/
def spared (r : Registry) (e : Effect) (ps : List Piece) : List Piece :=
  joined (ps.filter (Piece.spares r e))

theorem Piece.concerns_token (n : Nat) (p : Piece) :
    (p.token r n).Concerns r e ↔ ¬ p.spares r e := by
  rw [token_eq_move]
  simp only [spares, decide_eq_true_eq, not_not]
  exact Iff.rfl

theorem render_spared (r : Registry) (e : Effect) (ps : List Piece) :
    (placed r 0 ps).flatMap (fun t => if t.Concerns r e then [] else t.source) =
      render (ps.filter (Piece.spares r e)) := by
  calc (placed r 0 ps).flatMap (fun t => if t.Concerns r e then [] else t.source)
      = ps.flatMap fun p => if p.spares r e then p.source else [] := by
        apply flatMap_placed
        intro n p
        by_cases hp : p.spares r e <;> simp [Piece.concerns_token, hp]
    _ = (ps.filter (Piece.spares r e)).flatMap fun p => if p.spares r e then p.source else [] := by
        rw [flatMap_filter]
        intro p _ hp
        exact if_neg hp
    _ = render (ps.filter (Piece.spares r e)) := by
        apply List.flatMap_congr
        intro p hp
        exact if_pos (List.mem_filter.mp hp).2

/-- Without the directives of an effect, a source scans as the other tokens. -/
theorem tokenize_without (hn : Normal ps) (e : Effect) :
    tokenize r ((render ps).without (Covered (fun t => t.Concerns r e) (placed r 0 ps))) =
      (placed r 0 (spared r e ps), faults r 0 (spared r e ps)) := by
  have hfilter := filter_covered (n := 0) (fun t => t.Concerns r e) (tiles_placed r 0 ps)
  simp only [decide_eq_true_eq, sources_placed, render_spared] at hfilter
  rw [Text.without, hfilter, ← render_joined]
  exact tokenize_render r (hn.joined_filter _)

/-! ### What is found of the other effect -/

/-- Where the tokens stand matters to the places in what is found only. -/
theorem cues_erased (k m n : Nat) (ps : List Piece) :
    (cues k (placed r m ps)).map (Cue.move (fun _ => 0) 0) =
      (cues k (placed r n ps)).map (Cue.move (fun _ => 0) 0) := by
  have hzero (n : Nat) : (cues k (placed r n ps)).map (Cue.move (fun _ => 0) 0) =
      (cues k (placed r 0 ps)).map (Cue.move (fun _ => 0) 0) := by
    have hmoved := cues_move (· + (n : Int)) 0 k (placed r 0 ps)
    rw [← placed_add, Nat.zero_add, Nat.add_zero] at hmoved
    rw [hmoved, List.map_map]
    rfl
  rw [hzero m, hzero n]

theorem cues_placed_filter (e : Effect) (k n : Nat) (ps : List Piece) :
    (cues k (placed r n (ps.filter (Piece.spares r e)))).map (Cue.move (fun _ => 0) 0) =
      ((cues k (placed r n ps)).filter fun c => ¬ c.token.Concerns r e).map
        (Cue.move (fun _ => 0) 0) := by
  induction ps generalizing k n with
  | nil => rfl
  | cons p ps ih =>
    have hp := Piece.concerns_token (r := r) (e := e) n p
    rw [placed_cons]
    by_cases hc : (p.token r n).Concerns r e
    · have hcustom := hc.isCustom
      -- Behind a piece taken out, the tokens that stay are at other places.
      rw [List.filter_cons_of_neg (hp.mp hc), cues_cons_of_custom hcustom,
        Token.visible_of_custom hcustom, List.filter_cons_of_neg (by simpa using hc)]
      exact (cues_erased k n (n + p.source.length) _).trans (ih k _)
    · rw [List.filter_cons_of_pos (by simpa [hc] using hp), placed_cons]
      by_cases hcustom : (p.token r n).isCustom
      · rw [cues_cons_of_custom hcustom, cues_cons_of_custom hcustom, List.map_cons, ih,
          List.filter_cons_of_pos (by simpa using hc), List.map_cons]
      · rw [cues_cons_of_plain hcustom, cues_cons_of_plain hcustom, ih]

/-- But for the places, what is found without an effect is what was found of the other. -/
theorem foundIn_without (defaults : Params (Option Float)) (e : Effect) (ps : List Piece) :
    (foundIn r defaults [] (cues 0 (placed r 0 (spared r e ps)))).map
        (Finding.move (fun _ => 0) 0) =
      ((foundIn r defaults [] (cues 0 (placed r 0 ps))).filter (·.effect? ≠ some e)).map
        (Finding.move (fun _ => 0) 0) := by
  have hmove (cs : List Cue) : (foundIn r defaults [] cs).map (Finding.move (fun _ => 0) 0) =
      foundIn r defaults [] (cs.map (Cue.move (fun _ => 0) 0)) := (foundIn_move _ 0 [] cs).symm
  rw [hmove, spared, cues_joined, cues_placed_filter, ← hmove, foundIn_filter]

theorem regions_filter (e : Effect) (fs : List Finding) :
    (fs.filter (·.effect? ≠ some e)).filterMap Finding.region? =
      (fs.filterMap Finding.region?).filter (·.effect ≠ some e) := by
  rw [List.filterMap_filter, List.filter_filterMap]
  apply List.filterMap_congr
  intro f _
  cases f with
  | opened o => simp [Finding.region?]
  | closed o t stop => simp [Finding.region?, Finding.effect?, Option.filter]
  | mismatch t f => simp [Finding.region?]

theorem regions_without (defaults : Params (Option Float)) (e : Effect) (ps : List Piece) :
    (foundIn r defaults [] (cues 0 (placed r 0 (spared r e ps)))).filterMap Finding.region? =
      ((foundIn r defaults [] (cues 0 (placed r 0 ps))).filterMap Finding.region?).filter
        (·.effect ≠ some e) := by
  have hshift (gs : List Region) : gs.map (Region.shift (0 : Nat)) = gs :=
    List.map_id'' (fun g => by simp [Region.shift]) gs
  have hfound := congrArg (List.filterMap Finding.region?)
    (foundIn_without (r := r) defaults e ps)
  rwa [regions_move, regions_move, hshift, hshift, regions_filter] at hfound

/-! ### What is reported of the other effect -/

/-- No two tokens begin at the same place. -/
theorem Tiles.offset_inj {n : Int} (h : Tiles n ts) (hfull : ∀ t ∈ ts, t.source ≠ [])
    (ht : t ∈ ts) (hu : u ∈ ts) (he : t.offset = u.offset) : t = u := by
  induction ts generalizing n with
  | nil => exact nomatch ht
  | cons a ts ih =>
    obtain ⟨ha, hts⟩ := h
    obtain ⟨hfirst, hrest⟩ := List.forall_mem_cons.mp hfull
    have hpos : 0 < a.span := by
      rw [← a.length_source]
      exact List.length_pos_iff.mpr hfirst
    have hlater (v : Token) (hv : v ∈ ts) : a.offset < v.offset := by
      have hle := hts.le_offset hv
      omega
    rcases List.mem_cons.mp ht with rfl | ht'
    · rcases List.mem_cons.mp hu with rfl | hu'
      · rfl
      · have hlt := hlater u hu'
        omega
    · rcases List.mem_cons.mp hu with rfl | hu'
      · have hlt := hlater t ht'
        omega
      · exact ih hts hrest ht' hu'

theorem Normal.source_ne_nil (h : Normal ps) : ∀ t ∈ placed r n ps, t.source ≠ [] := by
  intro t ht
  obtain ⟨⟨m, p⟩, hp, rfl⟩ := List.mem_map.mp ht
  rw [Piece.source_token]
  cases p with
  | text w =>
    rintro hw
    obtain rfl : w = [] := hw
    exact h.filled (mem_of_mem_located hp)
  | tag c closed => simp [Piece.source]

theorem Finding.Sourced.kind {cs : List Cue} {d : Diagnostic} (h : f.Sourced r cs)
    (hd : f.diagnostic? = some d) : d.kind = .regionMismatch := by
  cases f with
  | opened o => exact nomatch hd
  | closed o t stop => exact nomatch hd
  | mismatch t g =>
    cases hd
    exact h.1

/-- The effect blamed is that of the directive at the place. -/
theorem Finding.Sourced.blames_iff {d : Diagnostic} (h : f.Sourced r (cues 0 ts))
    (hd : f.diagnostic? = some d) (hinj : ∀ t ∈ ts, ∀ u ∈ ts, t.offset = u.offset → t = u) :
    d.Blames r ts e ↔ f.effect? = some e := by
  cases f with
  | opened o => exact nomatch hd
  | closed o t stop => exact nomatch hd
  | mismatch t g =>
    cases hd
    obtain ⟨hkind, e', he, hc, c, hmem, rfl⟩ := h
    have ht := mem_of_mem_cues hmem
    constructor
    · rintro ⟨-, u, hu, ho, hc'⟩
      obtain rfl := hinj u hu _ ht ho
      obtain rfl := hc.effect_eq hc'
      exact he
    · intro he'
      obtain rfl := Option.some.inj (he.symm.trans he')
      exact ⟨hkind, _, ht, rfl, hc⟩

/-- The mismatches that a compile reports are those found. -/
theorem countP_diagnostics (s : Settings) {p : Diagnostic → Bool} {q : Finding → Bool}
    (hp : ∀ d, p d → d.kind = .regionMismatch)
    (h : ∀ f ∈ foundIn r s.paramDefaults [] (cues 0 (placed r n ps)), ∀ d,
      f.diagnostic? = some d → p d = q f) :
    (Compiled.ofTokens s r (placed r n ps) (faults r n ps)).diagnostics.countP p =
      (foundIn r s.paramDefaults [] (cues 0 (placed r n ps))).countP
        fun f => f.diagnostic?.isSome && q f := by
  have hfaults : (faults r n ps).countP p = 0 := by
    rw [List.countP_eq_zero]
    intro d hd hpd
    obtain ⟨x, -, hx⟩ := List.mem_flatMap.mp hd
    exact Piece.faults_kind hx (hp d hpd)
  rw [(diagnostics_ofTokens ..).countP_eq, List.countP_append, hfaults, Nat.zero_add,
    List.countP_filterMap]
  apply List.countP_congr
  intro f hf
  cases hd : f.diagnostic? with
  | none => simp
  | some d => simp [h f hf d hd]

/-- As many mismatches are found without an effect as there were of the other. -/
theorem countP_foundIn_without (defaults : Params (Option Float)) (e : Effect) (ps : List Piece) :
    (foundIn r defaults [] (cues 0 (placed r 0 (spared r e ps)))).countP (·.diagnostic?.isSome) =
      (foundIn r defaults [] (cues 0 (placed r 0 ps))).countP
        fun f => f.diagnostic?.isSome && (f.effect? = some e.other : Bool) := by
  have hmove (fs : List Finding) : fs.countP (·.diagnostic?.isSome) =
      (fs.map (Finding.move (fun _ => 0) 0)).countP (·.diagnostic?.isSome) := by
    rw [List.countP_map]
    apply List.countP_congr
    intro f _
    cases f <;> rfl
  rw [hmove, foundIn_without, ← hmove, List.countP_filter]
  apply List.countP_congr
  intro f hf
  have hsourced := sourced_foundIn hf
  cases f with
  | opened o => simp [Finding.diagnostic?]
  | closed o t stop => simp [Finding.diagnostic?]
  | mismatch t g =>
    obtain ⟨-, e', he, -⟩ := hsourced
    have hother : e' ≠ e ↔ e' = e.other := by cases e <;> cases e' <;> decide
    simp [Finding.diagnostic?, Finding.effect?, he, hother]

theorem mismatches_without (s : Settings) (e : Effect) (hn : Normal ps) :
    (Compiled.ofTokens s r (placed r 0 (spared r e ps))
      (faults r 0 (spared r e ps))).diagnostics.countP (·.kind = .regionMismatch) =
      (Compiled.ofTokens s r (placed r 0 ps) (faults r 0 ps)).diagnostics.countP
        (·.Blames r (placed r 0 ps) e.other) := by
  have hinj : ∀ t ∈ placed r 0 ps, ∀ u ∈ placed r 0 ps, t.offset = u.offset → t = u :=
    fun t ht u hu => (tiles_placed r 0 ps).offset_inj hn.source_ne_nil ht hu
  have hmismatch : ∀ f ∈ foundIn r s.paramDefaults [] (cues 0 (placed r 0 (spared r e ps))), ∀ d,
      f.diagnostic? = some d → decide (d.kind = .regionMismatch) = true := by
    intro f hf d hd
    exact decide_eq_true ((sourced_foundIn hf).kind hd)
  have hblames : ∀ f ∈ foundIn r s.paramDefaults [] (cues 0 (placed r 0 ps)), ∀ d,
      f.diagnostic? = some d → decide (d.Blames r (placed r 0 ps) e.other) =
        decide (f.effect? = some e.other) := by
    intro f hf d hd
    exact decide_eq_decide.mpr ((sourced_foundIn hf).blames_iff hd hinj)
  have hwithout := countP_diagnostics (q := fun _ => true) s (fun _ => of_decide_eq_true) hmismatch
  have hwhole := countP_diagnostics s (fun _ hd => (of_decide_eq_true hd).1) hblames
  simp only [Bool.and_true] at hwithout
  rw [hwithout, hwhole, countP_foundIn_without]

/-! ### The two compiles -/

theorem undisturbed_pieces (s : Settings) (e : Effect) (hn : Normal ps) :
    Undisturbed s r e (.ofTokens s r (placed r 0 ps) (faults r 0 ps))
      (.ofTokens s r (placed r 0 (spared r e ps)) (faults r 0 (spared r e ps))) := by
  have hcustom (p : Piece) (hp : ¬ p.spares r e) : (p.token r 0).isCustom :=
    ((Piece.concerns_token 0 p).mpr hp).isCustom
  refine ⟨?_, ?_, ?_, regions_without s.paramDefaults e ps, mismatches_without s e hn⟩
  · apply flatMap_placed_filter (fun _ _ => rfl) rfl fun _ _ => rfl
    intro p hp
    rw [Token.display_eq, if_pos (hcustom p hp)]
  · apply congrArg List.length
    apply flatMap_placed_filter (fun _ _ => rfl) rfl fun _ _ => rfl
    intro p hp
    exact Token.visible_of_custom (hcustom p hp)
  · apply shown_placed_filter
    intro p hp
    rw [← Piece.isCustom_token r 0, hcustom p hp]

/-- With the built-in directives, a source without the directives of one effect compiles to the same
text with the regions of the other. -/
theorem compile_without_effect (s : Settings) (source : Text) (e : Effect) :
    ∃ c c', compile s .standard source = .ok c ∧
      compile s .standard (source.without (Covered (fun t => t.Concerns .standard e) c.tokens)) =
        .ok c' ∧ Undisturbed s .standard e c c' := by
  obtain ⟨ps, hn, rfl, htokens⟩ := tokenize_eq .standard source
  obtain ⟨c, hc⟩ := exists_compile_standard s (render ps)
  obtain ⟨-, rfl⟩ := compile_eq_ok_iff_cues.mp hc
  rw [htokens] at hc
  obtain ⟨c', hc'⟩ := exists_compile_standard s
    ((render ps).without (Covered (fun t => t.Concerns .standard e) (placed .standard 0 ps)))
  obtain ⟨-, rfl⟩ := compile_eq_ok_iff_cues.mp hc'
  refine ⟨_, _, hc, hc', ?_⟩
  rw [tokenize_without hn]
  exact undisturbed_pieces s e hn

end KineticText
