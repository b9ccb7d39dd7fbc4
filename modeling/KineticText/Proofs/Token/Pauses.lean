import KineticText.Proofs.Text.Occurrences
import KineticText.Proofs.Token.Tiling

/-! Splitting at pauses: each text gives way to consecutive pieces, with a pause for each of its
marks, and all other tokens stay. -/
namespace KineticText

/-- The tokens `us` are what a text token `t` is cut into at its marks. -/
structure SplitInto (mark : Text) (t : Token) (us : List Token) : Prop where
  /-- A text without marks stays as it is, also an empty one. -/
  whole : ¬ mark <:+: t.content → us = [t]
  contents : us.flatMap Token.content = t.content
  tiles : Tiles t.offset us
  kept : ∀ u ∈ us, u.codeword = t.codeword ∧ u.params = t.params ∧ u.closed = t.closed
  kinds : ∀ u ∈ us, u.kind = .text ∧ ¬ mark <:+: u.content ∨ u.kind = .pause ∧ u.content = mark
  filled : mark <:+: t.content → ∀ u ∈ us, u.content ≠ []
  apart : us.IsChain fun u v => ¬ (u.kind = .text ∧ v.kind = .text)
  /-- The pauses are the leftmost disjoint occurrences of the mark. -/
  pauses : ∃ is, Text.Leftmost mark t.content 0 is ∧
    (us.filter (·.kind = .pause)).map Token.offset = is.map fun i : Nat => t.offset + i

variable {mark : Text} {t u : Token} {us : List Token} {ts : List Token}

namespace Token

variable {xs : List (Kind × Text)} {ws : List Text} {o : Int}

/-! ### Tokens laid out -/

theorem mem_layOut_kept (hu : u ∈ t.layOut o xs) :
    u.codeword = t.codeword ∧ u.params = t.params ∧ u.closed = t.closed := by
  induction xs generalizing o with
  | nil => exact nomatch hu
  | cons x xs ih =>
    rcases List.mem_cons.mp hu with rfl | hu
    · exact ⟨rfl, rfl, rfl⟩
    · exact ih hu

/-- The tokens of alternating texts and pauses, without the empty texts. -/
def alternate (mark : Text) (ws : List Text) : List (Kind × Text) :=
  ((ws.map (Kind.text, ·)).intersperse (.pause, mark)).filter (·.2 ≠ [])

theorem alternate_singleton (mark w : Text) :
    alternate mark [w] = if w = [] then [] else [(.text, w)] := by
  by_cases hw : w = [] <;> simp [alternate, hw]

theorem alternate_cons (hm : mark ≠ []) (w v : Text) (ws : List Text) :
    alternate mark (w :: v :: ws) =
      (if w = [] then [] else [(.text, w)]) ++ (.pause, mark) :: alternate mark (v :: ws) := by
  by_cases hw : w = [] <;> simp [alternate, hw, hm]

theorem isChain_layOut_alternate (hm : mark ≠ []) (ws : List Text) (o : Int) :
    (t.layOut o (alternate mark ws)).IsChain fun u v => ¬ (u.kind = .text ∧ v.kind = .text) := by
  induction ws generalizing o with
  | nil => exact .nil
  | cons w ws ih =>
    cases ws with
    | nil =>
      rw [alternate_singleton]
      split
      · exact .nil
      · exact List.isChain_singleton _
    | cons v ws =>
      have hpause (o : Int) : (t.layOut o ((.pause, mark) :: alternate mark (v :: ws))).IsChain
          fun u v => ¬ (u.kind = .text ∧ v.kind = .text) := by
        refine List.isChain_cons.mpr ⟨?_, ih _⟩
        intro u _
        simp
      rw [alternate_cons hm]
      split
      · exact hpause o
      · exact List.isChain_cons_cons.mpr ⟨by simp, hpause _⟩

theorem pauses_layOut_alternate (hm : mark ≠ []) (ws : List Text) (base : Int) (n : Nat) :
    ((t.layOut (base + n) (alternate mark ws)).filter (·.kind = .pause)).map Token.offset =
      (Text.markPlaces mark n ws).map fun i : Nat => base + i := by
  induction ws generalizing n with
  | nil => rfl
  | cons w ws ih =>
    cases ws with
    | nil =>
      rw [alternate_singleton]
      split <;> simp [layOut, Text.markPlaces]
    | cons v ws =>
      have hrest := ih (n + w.length + mark.length)
      rw [alternate_cons hm, Text.markPlaces]
      push_cast at hrest ⊢
      split
      · rename_i hw
        simpa [layOut, hw, Int.add_assoc] using hrest
      · simpa [layOut, Int.add_assoc] using hrest

/-! ### The pieces of a text -/

theorem splitInto_pieces (hk : t.kind = .text) (hm : mark ≠ []) :
    SplitInto mark t (t.pieces mark) := by
  by_cases h : mark <:+: t.content
  · have hp : t.pieces mark = t.layOut t.offset (alternate mark (Text.segments mark t.content)) :=
      pieces_of_isInfix hm h
    have hmem (u : Token) (hu : u ∈ t.pieces mark) :
        (u.kind, u.content) ∈ t.parts mark ∧ u.content ≠ [] := by
      rw [hp] at hu
      obtain ⟨hpart, hne⟩ := List.mem_filter.mp (mem_layOut hu)
      exact ⟨hpart, by simpa using hne⟩
    refine ⟨fun hno => absurd h hno, ?_, tiles_pieces hk hm, ?_, ?_, ?_, ?_, ?_⟩
    · rw [flatMap_pieces (f := (·.2)) (fun _ _ _ _ => rfl) rfl hk hm, parts_flatten hm]
    · intro u hu
      rw [hp] at hu
      exact mem_layOut_kept hu
    · intro u hu
      rcases mem_parts (hmem u hu).1 with ⟨ht, hw⟩ | hpause
      · exact .inl ⟨ht, Text.not_isInfix_of_mem_segments hm hw⟩
      · exact .inr (Prod.ext_iff.mp hpause)
    · intro _ u hu
      exact (hmem u hu).2
    · rw [hp]
      exact isChain_layOut_alternate hm _ _
    · refine ⟨_, Text.leftmost_segments hm t.content, ?_⟩
      rw [hp]
      simpa using pauses_layOut_alternate (t := t) hm (Text.segments mark t.content) t.offset 0
  · have hnone := Text.leftmost_segments hm t.content
    rw [Text.segments_of_not_isInfix h] at hnone
    rw [pieces_of_not_isInfix h]
    refine ⟨fun _ => rfl, by simp, by simp [Tiles], by simp, ?_, fun hin => absurd hin h,
      List.isChain_singleton t, [], hnone, by simp [hk]⟩
    intro u hu
    rw [List.mem_singleton.mp hu]
    exact .inl ⟨hk, h⟩

end Token

/-! ### All tokens -/

/-- Tokens whose texts hold no mark are not cut. -/
theorem splitPauses_of_not_isInfix (hm : mark ≠ [])
    (h : ∀ t ∈ ts, t.kind = .text → ¬ mark <:+: t.content) : splitPauses mark ts = ts := by
  calc splitPauses mark ts
      = ts.flatMap fun t => if t.kind = .text then t.pieces mark else [t] :=
        splitPauses_eq mark hm ts
    _ = ts.flatMap fun t => [t] := by
        apply List.flatMap_congr
        intro t ht
        split
        · rename_i hk
          exact Token.pieces_of_not_isInfix (h t ht hk)
        · rfl
    _ = ts := List.flatMap_singleton' ts

theorem not_isInfix_of_mem_splitPauses (hm : mark ≠ []) (hu : u ∈ splitPauses mark ts)
    (hk : u.kind = .text) : ¬ mark <:+: u.content := by
  rw [splitPauses_eq mark hm] at hu
  obtain ⟨t, -, hu⟩ := List.mem_flatMap.mp hu
  split at hu
  · rename_i ht
    rcases (Token.splitInto_pieces ht hm).kinds u hu with ⟨-, hfree⟩ | ⟨hpause, -⟩
    · exact hfree
    · rw [hk] at hpause
      exact nomatch hpause
  · rename_i ht
    obtain rfl := List.mem_singleton.mp hu
    exact absurd hk ht

/-- Splitting at a mark that is not empty succeeds. Each text is cut at the leftmost disjoint
occurrences of the mark, each other token stays, and a second split finds nothing to cut. -/
theorem splitPauses?_complete (hm : mark ≠ []) (ts : List Token) :
    ∃ groups, List.Forall₂ (fun t us => if t.kind = .text then SplitInto mark t us else us = [t])
        ts groups ∧
      splitPauses? mark ts = .ok groups.flatten ∧
      splitPauses? mark groups.flatten = .ok groups.flatten := by
  have hok (us : List Token) : splitPauses? mark us = .ok (splitPauses mark us) := by
    simp [splitPauses?, hm]
  refine ⟨ts.map fun t => if t.kind = .text then t.pieces mark else [t], ?_, ?_, ?_⟩
  · rw [List.forall₂_map_right_iff, List.forall₂_same]
    intro t _
    by_cases hk : t.kind = .text
    · simpa [hk] using Token.splitInto_pieces hk hm
    · simp [hk]
  · rw [hok, splitPauses_eq mark hm, List.flatMap_def]
  · rw [← List.flatMap_def, ← splitPauses_eq mark hm, hok]
    congr 1
    apply splitPauses_of_not_isInfix hm
    intro u hu hk
    exact not_isInfix_of_mem_splitPauses hm hu hk

/-- A text whose marks could be found one character later as well, between two tags. -/
def dotted : List Token :=
  [{ kind := .directive, content := "b".toList, codeword := .native },
    { kind := .text, content := "a...b..".toList, offset := 3 },
    { kind := .directive, content := "c..d".toList, offset := 10, codeword := .native,
      closed := false }]

theorem splitPauses?_complete_dotted : ∃ groups,
    List.Forall₂ (fun t us => if t.kind = .text then SplitInto "..".toList t us else us = [t])
      dotted groups ∧
    groups.flatten.map (fun t => (t.kind, t.content, t.offset)) =
      [(.directive, "b".toList, 0), (.text, "a".toList, 3), (.pause, "..".toList, 4),
        (.text, ".b".toList, 6), (.pause, "..".toList, 8), (.directive, "c..d".toList, 10)] ∧
    splitPauses? "..".toList groups.flatten = .ok groups.flatten := by
  have hm : "..".toList ≠ [] := by decide
  obtain ⟨groups, hsplit, hok, hagain⟩ := splitPauses?_complete hm dotted
  refine ⟨groups, hsplit, ?_, hagain⟩
  have hsecond : splitPauses? "..".toList dotted =
      .ok (splitPauses "..".toList dotted) := rfl
  rw [hsecond, Except.ok.injEq] at hok
  rw [← hok]
  decide +kernel

end KineticText
