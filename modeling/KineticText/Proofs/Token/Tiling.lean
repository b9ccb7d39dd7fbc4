import KineticText.Proofs.Token.Scanning
import KineticText.Proofs.Token.Splitting
import Mathlib.Algebra.Ring.Nat

/-! Tokens stand one behind the other in the source and leave nothing of it out. -/
namespace KineticText

variable {mark : Text} {n : Int} {t : Token} {ts us : List Token}

/-- Each token starts where the one before it ends, the first at position `n`. -/
def Tiles (n : Int) : List Token → Prop
  | [] => True
  | t :: ts => t.offset = n ∧ Tiles (n + t.span) ts

/-- The source characters of tokens. -/
def sources (ts : List Token) : Text := ts.flatMap Token.source

theorem tiles_append :
    Tiles n (ts ++ us) ↔ Tiles n ts ∧ Tiles (n + (sources ts).length) us := by
  induction ts generalizing n with
  | nil => simp [Tiles, sources]
  | cons t ts ih =>
    simp [Tiles, ih, sources, ← Token.length_source, and_assoc, Int.add_assoc]

theorem tiles_placed (r : Registry) (n : Nat) (ps : List Piece) : Tiles n (placed r n ps) := by
  induction ps generalizing n with
  | nil => trivial
  | cons p ps ih =>
    have hs : (p.token r n).span = p.source.length := by
      rw [← Token.length_source, Piece.source_token]
    refine ⟨by cases p <;> rfl, ?_⟩
    rw [hs]
    exact_mod_cast ih (n + p.source.length)

theorem sources_placed (r : Registry) (n : Nat) (ps : List Piece) :
    sources (placed r n ps) = render ps :=
  flatMap_placed (fun n p => p.source_token r n) n ps

/-- Tokens that are cut into smaller ones still tile. -/
theorem tiles_flatMap {f : Token → List Token}
    (hf : ∀ t ∈ ts, Tiles t.offset (f t) ∧ sources (f t) = t.source) (h : Tiles n ts) :
    Tiles n (ts.flatMap f) := by
  induction ts generalizing n with
  | nil => trivial
  | cons t ts ih =>
    obtain ⟨ht, hs⟩ := hf t (by simp)
    rw [List.flatMap_cons, tiles_append, hs, Token.length_source, ← h.1]
    exact ⟨ht, ih (fun u hu => hf u (by simp [hu])) (h.1 ▸ h.2)⟩

theorem tiles_layOut {xs : List (Token.Kind × Text)} (hxs : ∀ x ∈ xs, x.1 ≠ .directive) (o : Int) :
    Tiles o (t.layOut o xs) := by
  induction xs generalizing o with
  | nil => trivial
  | cons x xs ih =>
    have hx : x.1 ≠ .directive := hxs x (by simp)
    refine ⟨rfl, ?_⟩
    simpa [Token.span, Token.isDirective, hx] using
      ih (fun y hy => hxs y (by simp [hy])) (o + x.2.length)

theorem sources_pieces (hk : t.kind = .text) (hm : mark ≠ []) :
    sources (t.pieces mark) = t.source := by
  have hp := Token.flatMap_pieces (F := Token.source) (f := (·.2)) (t := t)
    (fun k w o h => by simp [Token.source, Token.isDirective, h]) rfl hk hm
  rw [sources, hp, Token.parts_flatten hm]
  simp [Token.source, Token.isDirective, hk]

theorem tiles_pieces (hk : t.kind = .text) (hm : mark ≠ []) :
    Tiles t.offset (t.pieces mark) := by
  rcases Token.pieces_eq hk hm with ⟨hp, -⟩ | hp
  · rw [hp]
    exact tiles_layOut (by simp) _
  · rw [hp]
    exact tiles_layOut (fun x hx => Token.parts_ne_directive x (List.mem_of_mem_filter hx)) _

theorem tiles_splitPauses (hm : mark ≠ []) (h : Tiles n ts) : Tiles n (splitPauses mark ts) := by
  rw [splitPauses_eq mark hm]
  apply tiles_flatMap ?_ h
  intro t _
  split
  · rename_i hk
    exact ⟨tiles_pieces hk hm, sources_pieces hk hm⟩
  · simp [Tiles, sources]

theorem sources_splitPauses (hm : mark ≠ []) (ts : List Token) :
    sources (splitPauses mark ts) = sources ts :=
  flatMap_splitPauses hm (fun _ _ hk => sources_pieces hk hm) fun _ _ _ => rfl

/-- Tokens cut a source into consecutive parts, each of which a token writes again. -/
structure Tiling (source : Text) (ts : List Token) : Prop where
  first : ∀ t ∈ ts.head?, t.offset = 0
  next : ts.IsChain fun t u => u.offset = t.offset + (t.span : Int)
  total : (ts.map Token.span).sum = source.length
  slice : ∀ t ∈ ts, ∃ i : Nat, t.offset = i ∧ (source.drop i).take t.span = t.source
  rebuilt : ts.flatMap Token.source = source

theorem Tiles.isChain (h : Tiles n ts) :
    ts.IsChain fun t u => u.offset = t.offset + (t.span : Int) := by
  induction ts generalizing n with
  | nil => exact .nil
  | cons t ts ih =>
    cases ts with
    | nil => exact List.isChain_singleton t
    | cons u ts =>
      obtain ⟨ht, hu⟩ := h
      exact List.isChain_cons_cons.mpr ⟨ht ▸ hu.1, ih hu⟩

theorem sum_span (ts : List Token) : (ts.map Token.span).sum = (sources ts).length := by
  induction ts with
  | nil => rfl
  | cons t ts ih =>
    rw [List.map_cons, List.sum_cons, ih, ← Token.length_source, ← List.length_append]
    rfl

/-- A token stands in the source behind the tokens before it. -/
theorem Tiles.slice (h : Tiles 0 ts) (ht : t ∈ ts) :
    ∃ i : Nat, t.offset = i ∧ ((sources ts).drop i).take t.span = t.source := by
  obtain ⟨us, vs, rfl⟩ := List.append_of_mem ht
  obtain ⟨-, ho, -⟩ := tiles_append.mp h
  refine ⟨(sources us).length, by simpa using ho, ?_⟩
  simp [sources, ← Token.length_source]

theorem tiling_of_tiles (h : Tiles 0 ts) : Tiling (sources ts) ts where
  first := by
    cases ts with
    | nil => simp
    | cons t ts => simpa using h.1
  next := h.isChain
  total := sum_span ts
  slice _ ht := h.slice ht
  rebuilt := rfl

theorem tiles_tokenize (r : Registry) (source : Text) :
    Tiles 0 (tokenize r source).1 ∧ sources (tokenize r source).1 = source := by
  obtain ⟨ps, -, hs, he⟩ := tokenize_eq r source
  rw [he, sources_placed, hs]
  exact ⟨tiles_placed r 0 ps, rfl⟩

/-- Before and after the pauses are split off, the tokens tile the source. -/
theorem tokenize_split_tiling (r : Registry) (source : Text) (mark : Char) :
    Tiling source (tokenize r source).1 ∧
      ∃ processed, splitPauses? [mark] (tokenize r source).1 = .ok processed ∧
        Tiling source processed := by
  obtain ⟨ht, hs⟩ := tiles_tokenize r source
  have hm : [mark] ≠ [] := List.cons_ne_nil mark []
  have hp := tiling_of_tiles (tiles_splitPauses hm ht)
  rw [sources_splitPauses hm, hs] at hp
  refine ⟨?_, splitPauses [mark] (tokenize r source).1, by simp [splitPauses?], hp⟩
  simpa [hs] using tiling_of_tiles ht

end KineticText
