import KineticText.Proofs.Text.Marks
import KineticText.Token.Scanner
import Mathlib.Data.List.Basic
import Mathlib.Data.List.Chain

/-! Markup as a list of texts and tags. A source is written by one such list in normal form. -/
namespace KineticText

/-- A stretch of markup: a text, or a tag with its `>` or cut off before it. -/
inductive Piece where
  | text (content : Text)
  | tag (content : Text) (closed : Bool)
  deriving DecidableEq

namespace Piece

def source : Piece → Text
  | text w => w
  | tag c closed => '<' :: c ++ if closed then ['>'] else []

def isText : Piece → Bool
  | text _ => true
  | tag .. => false

def isClosed : Piece → Bool
  | text _ => true
  | tag _ closed => closed

/-- The piece holds no mark that would end it. -/
def Unbroken : Piece → Prop
  | text w => '<' ∉ w
  | tag c _ => '>' ∉ c

/-- Only a closed piece has one behind it, and no text has a text behind it. -/
def Precedes (p q : Piece) : Prop := p.isClosed ∧ ¬ (p.isText ∧ q.isText)

@[simp] theorem precedes_text {p : Piece} {w : Text} :
    p.Precedes (text w) ↔ p.isClosed ∧ ¬ p.isText := by simp [Precedes, isText]

@[simp] theorem precedes_tag {p : Piece} {c : Text} {closed : Bool} :
    p.Precedes (tag c closed) ↔ p.isClosed := by simp [Precedes, isText]

end Piece

/-- The source that pieces make up. -/
def render (ps : List Piece) : Text := ps.flatMap Piece.source

@[simp] theorem render_nil : render [] = [] := rfl

@[simp] theorem render_cons (p : Piece) (ps : List Piece) :
    render (p :: ps) = p.source ++ render ps := rfl

@[simp] theorem render_append (ps qs : List Piece) :
    render (ps ++ qs) = render ps ++ render qs := List.flatMap_append

/-- Pieces as long as they can be, none of them empty text. -/
structure Normal (ps : List Piece) : Prop where
  unbroken : ∀ p ∈ ps, p.Unbroken
  filled : .text [] ∉ ps
  chain : ps.IsChain Piece.Precedes

namespace Normal

variable {p q : Piece} {ps qs : List Piece}

theorem nil : Normal [] := ⟨by simp, by simp, .nil⟩

theorem tail (h : Normal (p :: ps)) : Normal ps where
  unbroken q hq := h.unbroken q (by simp [hq])
  filled hq := h.filled (by simp [hq])
  chain := h.chain.tail

theorem snoc (h : Normal ps) (hp : p.Unbroken) (hne : p ≠ .text [])
    (hl : ∀ q ∈ ps.getLast?, q.Precedes p) : Normal (ps ++ [p]) where
  unbroken q hq := by
    rcases List.mem_append.mp hq with hq | hq
    · exact h.unbroken q hq
    · rwa [List.mem_singleton.mp hq]
  filled hq := by
    rcases List.mem_append.mp hq with hq | hq
    · exact h.filled hq
    · exact hne (List.mem_singleton.mp hq).symm
  chain := List.isChain_append.mpr ⟨h.chain, List.isChain_singleton p, by simpa using hl⟩

theorem eq_nil_of_render (h : Normal ps) (he : render ps = []) : ps = [] := by
  cases ps with
  | nil => rfl
  | cons p ps =>
    obtain ⟨hp, -⟩ := List.append_eq_nil_iff.mp he
    cases p with
    | text w => exact absurd (by simp [show w = [] from hp]) h.filled
    | tag c closed => simp [Piece.source] at hp

/-- What follows a text is a tag. -/
theorem render_after_text {w : Text} (h : Normal (.text w :: ps)) :
    render ps = [] ∨ ∃ s, render ps = '<' :: s := by
  cases ps with
  | nil => exact .inl rfl
  | cons p ps =>
    cases p with
    | text v => exact absurd (List.isChain_cons_cons.mp h.chain).1 (by simp [Piece.isText])
    | tag c closed => exact .inr ⟨_, rfl⟩

/-- A tag that is cut off is the last piece. -/
theorem eq_nil_after_open {c : Text} (h : Normal (.tag c false :: ps)) : ps = [] := by
  cases ps with
  | nil => rfl
  | cons p ps =>
    exact absurd (List.isChain_cons_cons.mp h.chain).1.1 (by simp [Piece.isClosed])

/-- A text ends where the first tag begins. -/
theorem takeWhile_render {w : Text} (h : Normal (.text w :: ps)) :
    (w ++ render ps).takeWhile (· ≠ '<') = w :=
  Text.takeWhile_ne_append (h.unbroken (.text w) (by simp)) h.render_after_text

/-- The content of a tag ends at the first `>`. -/
theorem takeWhile_tag {c : Text} {closed : Bool} (h : Normal (.tag c closed :: ps)) :
    (c ++ ((if closed then ['>'] else []) ++ render ps)).takeWhile (· ≠ '>') = c := by
  refine Text.takeWhile_ne_append (h.unbroken (.tag c closed) (by simp)) ?_
  cases closed with
  | true => exact .inr ⟨render ps, rfl⟩
  | false => exact .inl (by simp [h.eq_nil_after_open])

/-- A text does not begin like a tag. -/
theorem text_ne_tag {w c : Text} {closed : Bool} (h : Normal (.text w :: ps)) :
    render (.text w :: ps) ≠ render (.tag c closed :: qs) := by
  intro he
  cases w with
  | nil => exact h.filled (by simp)
  | cons d w =>
    have hd : d = '<' := (List.cons.inj he).1
    exact h.unbroken (.text (d :: w)) (by simp) (by simp [hd])

theorem tag_inj {c d : Text} {closed closed' : Bool} (h : Normal (.tag c closed :: ps))
    (h' : Normal (.tag d closed' :: qs))
    (he : render (.tag c closed :: ps) = render (.tag d closed' :: qs)) :
    c = d ∧ closed = closed' ∧ render ps = render qs := by
  have ht : c ++ ((if closed then ['>'] else []) ++ render ps) =
      d ++ ((if closed' then ['>'] else []) ++ render qs) := by
    simpa [Piece.source] using he
  have hc : c = d := by rw [← h.takeWhile_tag, ht, h'.takeWhile_tag]
  subst hc
  have hr := List.append_cancel_left ht
  cases closed with
  | true =>
    cases closed' with
    | true => exact ⟨rfl, rfl, (List.cons.inj hr).2⟩
    | false => simp [h'.eq_nil_after_open] at hr
  | false =>
    cases closed' with
    | true => simp [h.eq_nil_after_open] at hr
    | false => exact ⟨rfl, rfl, hr⟩

/-- The normal form of a source is unique. -/
theorem eq_of_render_eq (h : Normal ps) (h' : Normal qs) (he : render ps = render qs) :
    ps = qs := by
  induction ps generalizing qs with
  | nil => exact (h'.eq_nil_of_render he.symm).symm
  | cons p ps ih =>
    cases qs with
    | nil => exact h.eq_nil_of_render he
    | cons q qs =>
      suffices hs : p = q ∧ render ps = render qs by rw [hs.1, ih h.tail h'.tail hs.2]
      cases p with
      | text w =>
        cases q with
        | text v =>
          have hw : w = v := by
            rw [← h.takeWhile_render, ← h'.takeWhile_render]
            exact congrArg _ he
          subst hw
          exact ⟨rfl, List.append_cancel_left he⟩
        | tag c closed => exact (text_ne_tag h he).elim
      | tag c closed =>
        cases q with
        | text v => exact (text_ne_tag h' he.symm).elim
        | tag d closed' =>
          obtain ⟨rfl, rfl, hr⟩ := tag_inj h h' he
          exact ⟨rfl, hr⟩

end Normal
end KineticText
