import KineticText.Proofs.Token.Scanning
import Mathlib.Data.Set.List

/-! Writing tokens and scanning them again: the scanner finds every list in normal form. -/
namespace KineticText

/-- A token apart from its place and its meaning. -/
structure Shape where
  kind : Token.Kind
  content : Text
  closed : Bool
  deriving DecidableEq

def Token.shape (t : Token) : Shape := ⟨t.kind, t.content, t.closed⟩

/-- The source characters of a token of the shape. -/
def Shape.source (x : Shape) : Text :=
  Token.source { kind := x.kind, content := x.content, closed := x.closed }

/-- Shapes in normal form: texts and directives that end where they must, the texts not empty and
not side by side, and nothing behind a directive that is cut off. -/
structure Regular (xs : List Shape) : Prop where
  kinds : ∀ x ∈ xs, x.kind = .text ∨ x.kind = .directive
  texts : ∀ x ∈ xs, x.kind = .text → x.content ≠ [] ∧ '<' ∉ x.content ∧ x.closed
  apart : xs.IsChain fun x y => ¬ (x.kind = .text ∧ y.kind = .text)
  directives : ∀ x ∈ xs, x.kind = .directive → '>' ∉ x.content
  ended : ∀ x ∈ xs.dropLast, x.closed

variable {r : Registry} {n : Nat} {p : Piece} {ps : List Piece} {xs : List Shape}

namespace Piece

def shape : Piece → Shape
  | text w => ⟨.text, w, true⟩
  | tag c closed => ⟨.directive, c, closed⟩

theorem shape_token : (p.token r n).shape = p.shape := by
  cases p <;> rfl

theorem source_shape : p.shape.source = p.source := by
  cases p <;> rfl

theorem closed_shape : p.shape.closed = p.isClosed := by
  cases p <;> rfl

theorem shape_kind_eq_text_iff : p.shape.kind = .text ↔ p.isText := by
  cases p <;> simp [shape, isText]

end Piece

theorem map_shape_placed : (placed r n ps).map Token.shape = ps.map Piece.shape :=
  map_placed (fun _ _ => Piece.shape_token) n ps

theorem flatMap_source_shape : (ps.map Piece.shape).flatMap Shape.source = render ps := by
  rw [List.flatMap_map, render]
  simp only [Piece.source_shape]

/-- Pieces follow each other if no two texts meet and only the last piece may be cut off. -/
theorem isChain_precedes_iff : ps.IsChain Piece.Precedes ↔
    ps.IsChain (fun p q => ¬ (p.isText ∧ q.isText)) ∧ ∀ p ∈ ps.dropLast, p.isClosed := by
  induction ps with
  | nil => simp
  | cons p ps ih =>
    cases ps with
    | nil => simp
    | cons q ps =>
      rw [List.isChain_cons_cons, List.isChain_cons_cons, ih, List.dropLast_cons_cons,
        List.forall_mem_cons]
      constructor
      · rintro ⟨⟨hclosed, hapart⟩, hchain, hended⟩
        exact ⟨⟨hapart, hchain⟩, hclosed, hended⟩
      · rintro ⟨⟨hapart, hchain⟩, hclosed, hended⟩
        exact ⟨⟨hclosed, hapart⟩, hchain, hended⟩

theorem regular_map_shape_iff : Regular (ps.map Piece.shape) ↔ Normal ps := by
  have hchain : (ps.map Piece.shape).IsChain (fun x y => ¬ (x.kind = .text ∧ y.kind = .text)) ↔
      ps.IsChain fun p q => ¬ (p.isText ∧ q.isText) := by
    simp only [List.isChain_map, Piece.shape_kind_eq_text_iff]
  have hended : (∀ x ∈ (ps.map Piece.shape).dropLast, x.closed) ↔
      ∀ p ∈ ps.dropLast, p.isClosed := by
    simp only [← List.map_dropLast, List.forall_mem_map, Piece.closed_shape]
  constructor
  · intro h
    refine ⟨?_, ?_, isChain_precedes_iff.mpr ⟨hchain.mp h.apart, hended.mp h.ended⟩⟩
    · intro p hp
      have hx := List.mem_map_of_mem (f := Piece.shape) hp
      cases p with
      | text w => exact (h.texts _ hx rfl).2.1
      | tag c closed => exact h.directives _ hx rfl
    · intro hp
      exact (h.texts _ (List.mem_map_of_mem (f := Piece.shape) hp) rfl).1 rfl
  · intro h
    obtain ⟨hapart, hclosed⟩ := isChain_precedes_iff.mp h.chain
    refine ⟨?_, ?_, hchain.mpr hapart, ?_, hended.mpr hclosed⟩
    · intro x hx
      obtain ⟨p, -, rfl⟩ := List.mem_map.mp hx
      cases p with
      | text w => exact .inl rfl
      | tag c closed => exact .inr rfl
    · intro x hx hk
      obtain ⟨p, hp, rfl⟩ := List.mem_map.mp hx
      cases p with
      | text w =>
        refine ⟨?_, h.unbroken _ hp, rfl⟩
        rintro rfl
        exact h.filled hp
      | tag c closed => simp [Piece.shape] at hk
    · intro x hx hk
      obtain ⟨p, hp, rfl⟩ := List.mem_map.mp hx
      cases p with
      | text w => simp [Piece.shape] at hk
      | tag c closed => exact h.unbroken _ hp

/-- Shapes in normal form are those of pieces. -/
theorem Regular.exists_pieces (h : Regular xs) : ∃ ps : List Piece, ps.map Piece.shape = xs := by
  change xs ∈ Set.range (List.map Piece.shape)
  rw [Set.range_list_map]
  rintro ⟨kind, content, closed⟩ hx
  rcases h.kinds _ hx with hk | hk
  · obtain ⟨-, -, hclosed⟩ := h.texts _ hx hk
    exact ⟨.text content, by simp_all [Piece.shape]⟩
  · exact ⟨.tag content closed, by simp_all [Piece.shape]⟩

/-- The shapes of a source's tokens are in normal form and make up the source, and no other shapes
are and do: scanning what a list in normal form writes gives that list. -/
theorem tokenize_map_shape_eq_iff (r : Registry) (source : Text) (xs : List Shape) :
    (tokenize r source).1.map Token.shape = xs ↔
      Regular xs ∧ xs.flatMap Shape.source = source := by
  constructor
  · rintro rfl
    obtain ⟨ps, hn, rfl, he⟩ := tokenize_eq r source
    rw [he, map_shape_placed]
    exact ⟨regular_map_shape_iff.mpr hn, flatMap_source_shape⟩
  · rintro ⟨hx, rfl⟩
    obtain ⟨ps, rfl⟩ := hx.exists_pieces
    rw [flatMap_source_shape, tokenize_render r (regular_map_shape_iff.mp hx), map_shape_placed]

end KineticText
