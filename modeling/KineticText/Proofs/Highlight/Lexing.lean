import KineticText.Proofs.Highlight.Tags
import KineticText.Proofs.Token.Piece

/-! How the lexer cuts text and tags that stand one behind the other, and where the brackets in
them are. A bracket that another one follows before the tag is closed is astray. -/
namespace KineticText.Lexeme

variable {n unclosed unclosed' : Nat} {c : Char} {s t u v w : Text} {ls ls' : List Lexeme}
  {parts : List (Kind × Text)} {unopened unopened' ends ends' : List Int}

/-- The lexeme is the bracket `x` astray. -/
def isStray (x : Char) (l : Lexeme) : Bool := l.kind = .stray ∧ l.text = [x]

/-- The lexeme is the `>` of a tag. -/
def isEnd (l : Lexeme) : Bool := l.kind = .punctuation ∧ l.text = ['>']

/-- What brackets there are among lexemes: where a `>` is astray, how often a `<` is, and where
tags end. -/
structure Brackets (ls : List Lexeme) (unopened : List Int) (unclosed : Nat)
    (ends : List Int) : Prop where
  unopened_eq : (ls.filter (isStray '>')).map (fun l => (l.start : Int)) = unopened
  unclosed_eq : ls.countP (isStray '<') = unclosed
  ends_eq : (ls.filter isEnd).map (fun l => (l.start : Int)) = ends
  stray : ∀ l ∈ ls, l.kind = .stray → isStray '>' l ∨ isStray '<' l

theorem Brackets.append (h : Brackets ls unopened unclosed ends)
    (h' : Brackets ls' unopened' unclosed' ends') :
    Brackets (ls ++ ls') (unopened ++ unopened') (unclosed + unclosed') (ends ++ ends') where
  unopened_eq := by simp [← h.unopened_eq, ← h'.unopened_eq]
  unclosed_eq := by simp [← h.unclosed_eq, ← h'.unclosed_eq]
  ends_eq := by simp [← h.ends_eq, ← h'.ends_eq]
  stray l hl := by
    rcases List.mem_append.mp hl with hl | hl
    · exact h.stray l hl
    · exact h'.stray l hl

theorem place_append (n : Nat) (xs ys : List (Kind × Text)) :
    place n (xs ++ ys) = place n xs ++ place (n + (xs.flatMap Prod.snd).length) ys := by
  induction xs generalizing n with
  | nil => rfl
  | cons x xs ih => simp [place, ih, Nat.add_assoc]

theorem flatMap_text_place (n : Nat) (parts : List (Kind × Text)) :
    (place n parts).flatMap Lexeme.text = parts.flatMap Prod.snd := by
  induction parts generalizing n with
  | nil => rfl
  | cons x xs ih => simp [place, ih]

theorem map_kind_place (n : Nat) (parts : List (Kind × Text)) :
    (place n parts).map Lexeme.kind = parts.map Prod.fst := by
  induction parts generalizing n with
  | nil => rfl
  | cons x xs ih => simp [place, ih]

/-- Each lexeme starts where the ones before it end. -/
theorem start_of_place {before after : List Lexeme} {l : Lexeme}
    (h : place n parts = before ++ l :: after) :
    l.start = n + (before.flatMap Lexeme.text).length := by
  induction parts generalizing n before with
  | nil => simp [place] at h
  | cons x xs ih =>
    cases before with
    | nil =>
      obtain ⟨rfl, -⟩ := List.cons.inj h
      rfl
    | cons y ys =>
      obtain ⟨rfl, hrest⟩ := List.cons.inj h
      rw [ih hrest, List.flatMap_cons, List.length_append, Nat.add_assoc]

/-- In front of `t`, the text `w` at position `n` is cut by itself, and has these brackets. -/
def Cuts (n : Nat) (w t : Text) (unopened : List Int) (unclosed : Nat) (ends : List Int) : Prop :=
  ∃ parts, lexFrom n (w ++ t) = place n parts ++ lexFrom (n + w.length) t ∧
    parts.flatMap Prod.snd = w ∧ Brackets (place n parts) unopened unclosed ends

theorem Cuts.nil : Cuts n [] t [] 0 [] := ⟨[], rfl, rfl, rfl, rfl, rfl, by simp [place]⟩

theorem Cuts.append (h : Cuts n u (v ++ t) unopened unclosed ends)
    (h' : Cuts (n + u.length) v t unopened' unclosed' ends') :
    Cuts n (u ++ v) t (unopened ++ unopened') (unclosed + unclosed') (ends ++ ends') := by
  obtain ⟨xs, hlex, hxs, hb⟩ := h
  obtain ⟨ys, hlex', hys, hb'⟩ := h'
  refine ⟨xs ++ ys, ?_, ?_, ?_⟩
  · rw [List.append_assoc, hlex, hlex', place_append, hxs, List.append_assoc, List.length_append,
      Nat.add_assoc]
  · rw [List.flatMap_append, hxs, hys]
  · rw [place_append, hxs]
    exact hb.append hb'

/-- What the first applicable rule takes is cut by itself. -/
theorem lexFrom_front (hfront : front c (s ++ t) = parts)
    (hparts : parts.flatMap Prod.snd = c :: s) :
    lexFrom n (c :: s ++ t) = place n parts ++ lexFrom (n + (c :: s).length) t := by
  rw [List.cons_append, lexFrom]
  simp [hfront, hparts]

/-! ### Text -/

theorem front_of_ne (hc : c ≠ '<') : front c s =
    if c = '>' then [(.stray, [c])] else if c = '.' then [(.punctuation, [c])]
    else [(.text, c :: s.takeWhile fun d => ! isBracket d && d ≠ '.')] := by
  have hcustom : customTag? (c :: s) = none := by
    unfold customTag?
    split
    · simp_all
    · rfl
  have hnative : nativeTag? (c :: s) = none := by
    unfold nativeTag?
    split
    · simp_all
    · rfl
  simp [front, hcustom, hnative, isBracket, hc]

/-- The first lexeme of a text is a `>` astray, a full stop, or goes up to one of these. -/
theorem cuts_text_front (hw : '<' ∉ c :: w) (ht : t = [] ∨ ∃ rest, t = '<' :: rest) :
    ∃ u v, w = u ++ v ∧ Cuts n (c :: u) (v ++ t)
      ((Text.positions '>' n (c :: u)).map fun i : Nat => (i : Int)) 0 [] := by
  have hc : c ≠ '<' := by
    rintro rfl
    exact hw (by simp)
  by_cases hclose : c = '>'
  · refine ⟨[], w, rfl, [(.stray, [c])], ?_, by simp, ?_⟩
    · exact lexFrom_front ((front_of_ne hc).trans (if_pos hclose)) (by simp)
    · subst hclose
      constructor <;> simp [place, isStray, isEnd, Text.positions_singleton]
  · have hfirst : '>' ∉ [c] := by simpa using Ne.symm hclose
    by_cases hstop : c = '.'
    · refine ⟨[], w, rfl, [(.punctuation, [c])], ?_, by simp, ?_⟩
      · refine lexFrom_front ?_ (by simp)
        rw [front_of_ne hc, if_neg hclose, if_pos hstop]
      · rw [Text.positions_of_notMem hfirst]
        constructor <;> simp [place, isStray, isEnd, hclose]
    · obtain ⟨u, v, rfl, hu, hv⟩ := Text.exists_run (fun d => ! isBracket d && d ≠ '.') w
      have hbehind : ∀ d ∈ (v ++ t).head?, ¬ (! isBracket d && d ≠ '.') := by
        intro d hd
        cases v with
        | nil =>
          rcases ht with rfl | ⟨rest, rfl⟩
          · simp at hd
          · obtain rfl : '<' = d := by simpa using hd
            decide
        | cons e v => exact hv d hd
      have hrun := Text.takeWhile_append_stop hu hbehind
      refine ⟨u, v, rfl, [(.text, c :: u)], ?_, by simp, ?_⟩
      · refine lexFrom_front ?_ (by simp)
        rw [front_of_ne hc, if_neg hclose, if_neg hstop, hrun]
      · have hnone : '>' ∉ c :: u := by
          intro h
          rcases List.mem_cons.mp h with h | h
          · exact hclose h.symm
          · exact absurd (hu _ h) (by decide)
        rw [Text.positions_of_notMem hnone]
        constructor <;> simp [place, isStray, isEnd]

/-- A text up to the next tag is cut by itself, and every `>` in it is astray. -/
theorem cuts_text (hw : '<' ∉ w) (ht : t = [] ∨ ∃ rest, t = '<' :: rest) :
    Cuts n w t ((Text.positions '>' n w).map fun i : Nat => (i : Int)) 0 [] := by
  induction hlen : w.length using Nat.strong_induction_on generalizing n w with
  | h len ih =>
    cases w with
    | nil => exact .nil
    | cons c w =>
      obtain ⟨u, v, rfl, hu⟩ := cuts_text_front (n := n) hw ht
      have hv : '<' ∉ v := fun hv => hw (by simp [hv])
      have hlt : v.length < len := by
        rw [← hlen, List.length_cons, List.length_append]
        omega
      have hrest := ih v.length hlt (n := n + (c :: u).length) hv rfl
      have hall := hu.append hrest
      rwa [← List.map_append, ← Text.positions_append] at hall

/-! ### Tags -/

/-- A `<` that opens no tag is astray, and what follows it is text. -/
theorem cuts_open (hopen : '<' ∉ u) (hclose : '>' ∉ u) (ht : t = [] ∨ ∃ rest, t = '<' :: rest) :
    Cuts n ('<' :: u) t [] 1 [] := by
  have hfront : front '<' (u ++ t) = [(.stray, ['<'])] :=
    front_open (not_isBracket_of_notMem hopen hclose) ht
  have hfirst : Cuts n ['<'] (u ++ t) [] 1 [] := by
    refine ⟨_, lexFrom_front (s := []) hfront rfl, rfl, ?_⟩
    constructor <;> simp [place, isStray, isEnd]
  have htext := cuts_text (n := n + 1) hopen ht
  rw [Text.positions_of_notMem hclose] at htext
  exact hfirst.append htext

/-- The lexemes of a tag without brackets inside. -/
theorem lexFrom_tag (hu : ∀ c ∈ u, ¬ isBracket c) : ∃ inner,
    lexFrom n ('<' :: u ++ ['>'] ++ t) =
      place n ((.punctuation, ['<']) :: inner ++ [(.punctuation, ['>'])]) ++
        lexFrom (n + ('<' :: u ++ ['>']).length) t ∧
      inner.flatMap Prod.snd = u ∧ Inside (Command.name u ∈ keywords) (inner.map Prod.fst) := by
  obtain ⟨inner, hfront, htext, hinside⟩ := front_tag t hu
  refine ⟨inner, ?_, htext, hinside⟩
  refine lexFrom_front (s := u ++ ['>']) ?_ ?_
  · simpa using hfront
  · simp [htext]

theorem Inside.ne {custom : Prop} {kinds : List Kind} {k : Kind} (h : Inside custom kinds)
    (hk : k ∈ kinds) : k ≠ .stray ∧ k ≠ .punctuation := by
  rcases h with ⟨-, -, h⟩ | ⟨-, h⟩
  · have hmem := h k hk
    constructor <;> rintro rfl <;> simp at hmem
  · simp [h k hk]

theorem cuts_tag (hu : ∀ c ∈ u, ¬ isBracket c) :
    Cuts n ('<' :: u ++ ['>']) t [] 0 [(n : Int) + 1 + u.length] := by
  obtain ⟨inner, hlex, htext, hinside⟩ := lexFrom_tag (n := n) (t := t) hu
  refine ⟨_, hlex, by simp [htext], ?_⟩
  have hplain : ∀ l ∈ place (n + 1) inner, l.kind ≠ .stray ∧ l.kind ≠ .punctuation :=
    fun l hl => hinside.ne (map_kind_place (n + 1) inner ▸ List.mem_map_of_mem hl)
  have hinner : Brackets (place (n + 1) inner) [] 0 [] := by
    constructor
    · simp +contextual [isStray, hplain]
    · simp +contextual [isStray, hplain]
    · simp +contextual [isEnd, hplain]
    · intro l hl hstray
      exact absurd hstray (hplain l hl).1
  have hfirst : Brackets [⟨.punctuation, n, ['<']⟩] [] 0 [] := by
    constructor <;> simp [isStray, isEnd]
  have hlast : Brackets [⟨.punctuation, n + 1 + u.length, ['>']⟩] [] 0
      [(n : Int) + 1 + u.length] := by
    constructor <;> simp [isStray, isEnd]
  have hall := (hfirst.append hinner).append hlast
  simpa [place, place_append, htext] using hall

/-- What the lexer finds in a tag of the source: a `<` is astray if another one comes before the
tag ends, and so is the last one if the tag is cut off. -/
theorem cuts_source {closed : Bool} (hw : '>' ∉ w) (ht : ¬ closed → t = []) :
    Cuts n (Piece.tag w closed).source t [] (w.count '<' + if closed then 0 else 1)
      (if closed then [(n : Int) + 1 + w.length] else []) := by
  induction hlen : w.length using Nat.strong_induction_on generalizing n w with
  | h len ih =>
    subst hlen
    obtain ⟨u, v, rfl, hu, hv⟩ := Text.exists_run (· ≠ '<') w
    have hopen : '<' ∉ u := fun h => absurd (hu _ h) (by decide)
    have hclose : '>' ∉ u := fun h => hw (by simp [h])
    cases v with
    | nil =>
      rw [List.append_nil, List.count_eq_zero_of_not_mem hopen]
      cases closed with
      | true =>
        have hfree := not_isBracket_of_notMem hopen hclose
        simpa [Piece.source] using cuts_tag (n := n) (t := t) hfree
      | false =>
        have hcut : Cuts n ('<' :: u) t [] 1 [] := cuts_open hopen hclose (.inl (ht (by simp)))
        simpa [Piece.source] using hcut
    | cons d v =>
      obtain rfl : d = '<' := by simpa using hv d rfl
      have hbehind : (Piece.tag v closed).source ++ t =
          '<' :: (v ++ ((if closed then ['>'] else []) ++ t)) := by
        simp [Piece.source]
      have hfirst : Cuts n ('<' :: u) ((Piece.tag v closed).source ++ t) [] 1 [] :=
        cuts_open hopen hclose (.inr ⟨_, hbehind⟩)
      have hlt : v.length < (u ++ '<' :: v).length := by
        rw [List.length_append, List.length_cons]
        omega
      have hrest := ih v.length hlt (n := n + ('<' :: u).length) (fun h => hw (by simp [h])) rfl
      have hcount : (u ++ '<' :: v).count '<' = 1 + v.count '<' := by
        simp [List.count_eq_zero_of_not_mem hopen, Nat.add_comm]
      have hsource : (Piece.tag (u ++ '<' :: v) closed).source =
          '<' :: u ++ (Piece.tag v closed).source := by
        simp [Piece.source]
      have hend : (n : Int) + 1 + (u ++ '<' :: v).length =
          (n + ('<' :: u).length : Nat) + 1 + v.length := by
        simp only [List.length_append, List.length_cons]
        omega
      rw [hcount, hsource, hend, Nat.add_assoc]
      exact hfirst.append hrest

end KineticText.Lexeme
