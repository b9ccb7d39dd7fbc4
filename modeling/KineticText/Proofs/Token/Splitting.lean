import KineticText.Proofs.Text.Runs
import KineticText.Proofs.Text.Segments
import KineticText.Token.Pause

/-! The pieces that pauses split a text token into. -/
namespace KineticText

namespace Token

variable {β : Type} {mark : Text} {t : Token} {xs : List (Kind × Text)}

/-- The kinds and contents of a text's pieces, empty texts between pauses among them. -/
def parts (mark : Text) (t : Token) : List (Kind × Text) :=
  ((Text.segments mark t.content).map (Kind.text, ·)).intersperse (.pause, mark)

theorem intersperse_parts (k k' : Kind) (mark : Text) (ws : List Text) :
    ((ws.map (k, ·)).intersperse (k', mark)).flatMap (·.2) = mark.intercalate ws := by
  induction ws with
  | nil => rfl
  | cons w ws ih =>
    cases ws with
    | nil => simp
    | cons v ws => simpa [List.intercalate_cons_cons] using ih

theorem parts_flatten (hm : mark ≠ []) : (t.parts mark).flatMap (·.2) = t.content :=
  (intersperse_parts _ _ _ _).trans (Text.intercalate_segments hm _)

theorem mem_intersperse_parts {ws : List Text} {x : Kind × Text}
    (hx : x ∈ (ws.map (Kind.text, ·)).intersperse (.pause, mark)) :
    x.1 = .text ∧ x.2 ∈ ws ∨ x = (.pause, mark) := by
  induction ws with
  | nil => simp at hx
  | cons w ws ih =>
    cases ws with
    | nil => simp_all
    | cons v ws =>
      rw [List.map_cons, List.map_cons, List.intersperse_cons_cons, List.mem_cons,
        List.mem_cons] at hx
      rcases hx with rfl | rfl | hx
      · exact .inl ⟨rfl, List.mem_cons_self⟩
      · exact .inr rfl
      · exact (ih hx).imp_left fun h => ⟨h.1, List.mem_cons_of_mem w h.2⟩

theorem mem_parts {x : Kind × Text} (hx : x ∈ t.parts mark) :
    x.1 = .text ∧ x.2 ∈ Text.segments mark t.content ∨ x = (.pause, mark) :=
  mem_intersperse_parts hx

theorem parts_ne_directive : ∀ x ∈ t.parts mark, x.1 ≠ .directive := by
  intro x hx
  rcases mem_parts hx with h | rfl <;> simp_all

theorem pieces_of_not_isInfix (h : ¬ mark <:+: t.content) : t.pieces mark = [t] := by
  rw [pieces, Text.segments_of_not_isInfix h]

theorem pieces_of_isInfix (hm : mark ≠ []) (h : mark <:+: t.content) :
    t.pieces mark = t.layOut t.offset ((t.parts mark).filter (·.2 ≠ [])) := by
  rw [pieces]
  split
  · rename_i w hw
    have hfree := Text.not_isInfix_of_mem_segments (s := t.content) hm (hw ▸ List.mem_singleton_self w)
    have hcontent : w = t.content := by simpa [hw] using Text.intercalate_segments hm t.content
    exact absurd h (hcontent ▸ hfree)
  · rfl

/-- A text without pauses stays one token, also if it is empty. -/
theorem pieces_eq (hk : t.kind = .text) (hm : mark ≠ []) :
    t.pieces mark = t.layOut t.offset [(.text, t.content)] ∧ t.parts mark = [(.text, t.content)] ∨
    t.pieces mark = t.layOut t.offset ((t.parts mark).filter (·.2 ≠ [])) := by
  by_cases h : mark <:+: t.content
  · exact .inr (pieces_of_isInfix hm h)
  · left
    constructor
    · rw [pieces_of_not_isInfix h]
      simp [layOut, ← hk]
    · rw [parts, Text.segments_of_not_isInfix h]
      rfl

/-- What depends on the kind and the content of tokens only does not depend on their places. -/
theorem flatMap_layOut {F : Token → List β} {f : Kind × Text → List β}
    (hF : ∀ k w o, k ≠ .directive → F { t with kind := k, content := w, offset := o } = f (k, w))
    (hxs : ∀ x ∈ xs, x.1 ≠ .directive) (o : Int) :
    (t.layOut o xs).flatMap F = xs.flatMap f := by
  induction xs generalizing o with
  | nil => rfl
  | cons x xs ih =>
    simp [layOut, hF _ _ _ (hxs x (by simp)), ih fun y hy => hxs y (by simp [hy])]

/-- Empty texts between pauses leave no piece and are not missed. -/
theorem flatMap_pieces {F : Token → List β} {f : Kind × Text → List β}
    (hF : ∀ k w o, k ≠ .directive → F { t with kind := k, content := w, offset := o } = f (k, w))
    (h0 : f (.text, []) = []) (hk : t.kind = .text) (hm : mark ≠ []) :
    (t.pieces mark).flatMap F = (t.parts mark).flatMap f := by
  rcases pieces_eq hk hm with ⟨hp, hq⟩ | hp
  · rw [hp, hq, flatMap_layOut hF (by simp)]
  · rw [hp, flatMap_layOut hF fun x hx => parts_ne_directive x (List.mem_of_mem_filter hx)]
    apply flatMap_filter
    intro x hx he
    rcases mem_parts hx with h | rfl
    · rw [show x = (.text, []) from Prod.ext h.1 (by simpa using he), h0]
    · exact absurd hm (by simpa using he)

theorem mem_layOut {o : Int} {u : Token} (hu : u ∈ t.layOut o xs) : (u.kind, u.content) ∈ xs := by
  induction xs generalizing o with
  | nil => simp [layOut] at hu
  | cons x xs ih =>
    rcases List.mem_cons.mp hu with rfl | hu
    · simp
    · exact List.mem_cons_of_mem x (ih hu)

/-- The pieces of a text are texts and pauses. -/
theorem mem_pieces (hk : t.kind = .text) (hm : mark ≠ []) {u : Token} (hu : u ∈ t.pieces mark) :
    u.kind = .text ∨ u.kind = .pause ∧ u.content = mark := by
  have hx : (u.kind, u.content) ∈ t.parts mark := by
    rcases pieces_eq hk hm with ⟨hp, hq⟩ | hp
    · rw [hp] at hu
      rw [hq]
      exact mem_layOut hu
    · rw [hp] at hu
      exact List.mem_of_mem_filter (mem_layOut hu)
  rcases mem_parts hx with h | h
  · exact .inl h.1
  · exact .inr (Prod.ext_iff.mp h)

end Token

/-- Tokens that are not text, and their order, are as before. -/
theorem splitPauses_eq (mark : Text) (hm : mark ≠ []) (ts : List Token) :
    splitPauses mark ts = ts.flatMap fun t => if t.kind = .text then t.pieces mark else [t] := by
  simp [splitPauses, hm]

/-- What the pieces of a text give together is given by the tokens before the split. -/
theorem flatMap_splitPauses {β : Type} {mark : Text} {ts : List Token} {F G : Token → List β}
    (hm : mark ≠ []) (htext : ∀ t ∈ ts, t.kind = .text → (t.pieces mark).flatMap F = G t)
    (hother : ∀ t ∈ ts, t.kind ≠ .text → F t = G t) :
    (splitPauses mark ts).flatMap F = ts.flatMap G := by
  rw [splitPauses_eq mark hm, List.flatMap_assoc]
  apply List.flatMap_congr
  intro t ht
  by_cases hk : t.kind = .text
  · rw [if_pos hk, htext t ht hk]
  · rw [if_neg hk, List.flatMap_singleton, hother t ht hk]

/-- A token of the split list is as it was, a text, or a pause that is the mark. -/
theorem mem_splitPauses {mark : Text} (hm : mark ≠ []) {ts : List Token} {u : Token}
    (hu : u ∈ splitPauses mark ts) :
    u ∈ ts ∧ u.kind ≠ .text ∨ u.kind = .text ∨ u.kind = .pause ∧ u.content = mark := by
  rw [splitPauses_eq mark hm] at hu
  obtain ⟨t, ht, hu⟩ := List.mem_flatMap.mp hu
  by_cases hk : t.kind = .text
  · rw [if_pos hk] at hu
    exact .inr (t.mem_pieces hk hm hu)
  · rw [if_neg hk, List.mem_singleton] at hu
    subst hu
    exact .inl ⟨ht, hk⟩

end KineticText
