import KineticText.Proofs.Highlight.Lexing
import KineticText.Proofs.Token.Diagnosis

/-! Highlighting agrees with the scanner: on the brackets astray, on where tags end, and on which
of them are custom. -/
namespace KineticText

variable {n : Nat} {c : Text} {closed : Bool} {p : Piece} {ps qs rs : List Piece}
  {ds es : List Diagnostic} {t : Token} {ts : List Token}

/-- Where diagnostics find a `>` outside a tag. -/
def unopenedAt (ds : List Diagnostic) : List Int :=
  (ds.filter (·.kind = .unopenedTag)).map (·.offset)

/-- How many tags diagnostics find unclosed. -/
def unclosedCount (ds : List Diagnostic) : Nat := ds.countP (·.kind = .unclosedTag)

/-- Where tokens have the `>` of a directive. -/
def endsAt (ts : List Token) : List Int :=
  (ts.filter fun t => t.isDirective ∧ t.closed).map fun t => t.offset + t.span - 1

/-- A directive is cut whole out of the source, with its brackets and its content between them. -/
def Lexeme.TagOf (ls : List Lexeme) (t : Token) : Prop :=
  ∃ before inner after, ∃ n : Nat, t.offset = n ∧
    ls = before ++ (⟨.punctuation, n, ['<']⟩ :: inner ++
      [⟨.punctuation, n + 1 + t.content.length, ['>']⟩]) ++ after ∧
    inner.flatMap Lexeme.text = t.content ∧
    Lexeme.Inside (t.codeword ≠ .native) (inner.map Lexeme.kind)

/-- The lexemes of a source agree with its tokens and diagnostics. -/
structure Lexeme.Agree (source : Text) (ls : List Lexeme) (ts : List Token)
    (ds : List Diagnostic) : Prop where
  whole : ls.flatMap Lexeme.text = source
  /-- Each lexeme starts where the ones before it end. -/
  starts : ∀ before l after, ls = before ++ l :: after →
    l.start = (before.flatMap Lexeme.text).length
  unopened : (ls.filter (isStray '>')).map (fun l => (l.start : Int)) = unopenedAt ds
  unclosed : ls.countP (isStray '<') = unclosedCount ds
  ends : (ls.filter isEnd).map (fun l => (l.start : Int)) = endsAt ts
  tags : ∀ t ∈ ts, t.isDirective → t.closed → '<' ∉ t.content → TagOf ls t
  /-- A bracket is marked astray exactly if something is wrong with the brackets. -/
  stray_iff : (∃ l ∈ ls, l.kind = .stray) ↔
    ∃ d ∈ ds, d.kind = .unopenedTag ∨ d.kind = .unclosedTag

/-! ### What the scanner finds -/

theorem unopenedAt_append : unopenedAt (ds ++ es) = unopenedAt ds ++ unopenedAt es := by
  simp [unopenedAt]

theorem unclosedCount_append : unclosedCount (ds ++ es) = unclosedCount ds + unclosedCount es :=
  List.countP_append

theorem endsAt_cons : endsAt (t :: ts) = endsAt [t] ++ endsAt ts := by
  rw [endsAt, endsAt, endsAt, ← List.map_append, ← List.filter_append, List.singleton_append]

theorem exists_unopened_iff : (∃ d ∈ ds, d.kind = .unopenedTag) ↔ unopenedAt ds ≠ [] := by
  simp [unopenedAt]

theorem exists_unclosed_iff : (∃ d ∈ ds, d.kind = .unclosedTag) ↔ 0 < unclosedCount ds := by
  simp [unclosedCount, List.countP_pos_iff]

theorem unopenedAt_located (f : Fault) (is : List Nat) :
    unopenedAt (is.map fun i : Nat => f.located i) =
      if f.kind = .unopenedTag then is.map fun i : Nat => (i : Int) else [] := by
  rw [unopenedAt, List.filter_map]
  by_cases h : f.kind = .unopenedTag <;> simp [Fault.located, Function.comp_def, h]

theorem unclosedCount_located (f : Fault) (is : List Nat) :
    unclosedCount (is.map fun i : Nat => f.located i) =
      if f.kind = .unclosedTag then is.length else 0 := by
  rw [unclosedCount, List.countP_map]
  by_cases h : f.kind = .unclosedTag <;> simp [Fault.located, Function.comp_def, h]

/-- What a command is read with says nothing about brackets. -/
theorem unopenedAt_decode (r : Registry) (c : Text) (offset : Int) :
    unopenedAt (Command.decode r c offset).2 = [] := by
  by_contra h
  obtain ⟨d, hd, hk⟩ := exists_unopened_iff.mpr h
  rcases Command.decode_faults_kind hd with h | h <;> simp [h] at hk

theorem unclosedCount_decode (r : Registry) (c : Text) (offset : Int) :
    unclosedCount (Command.decode r c offset).2 = 0 := by
  by_contra h
  obtain ⟨d, hd, hk⟩ := exists_unclosed_iff.mpr (Nat.pos_of_ne_zero h)
  rcases Command.decode_faults_kind hd with h | h <;> simp [h] at hk

theorem unopenedAt_tag (r : Registry) :
    unopenedAt ((Piece.tag c closed).strays n ++ (Piece.tag c closed).endFaults r n) = [] := by
  rw [Piece.strays, Piece.endFaults, unopenedAt_append, unopenedAt_append, unopenedAt_located,
    unopenedAt_decode]
  cases closed <;> simp [unopenedAt, Fault.located, Fault.kind]

theorem unclosedCount_tag (r : Registry) :
    unclosedCount ((Piece.tag c closed).strays n ++ (Piece.tag c closed).endFaults r n) =
      c.count '<' + if closed then 0 else 1 := by
  rw [Piece.strays, Piece.endFaults, unclosedCount_append, unclosedCount_append,
    unclosedCount_located, unclosedCount_decode, if_pos (by rfl), Text.length_positions]
  cases closed <;> rfl

theorem codeword_ne_native_iff {offset : Int} :
    (Command.decode .standard c offset).1.codeword ≠ .native ↔
      Command.name c ∈ Lexeme.keywords := by
  rw [Command.decode_codeword, Lexeme.mem_keywords_iff, ← Registry.isSome_lookup_iff]
  cases h : Registry.standard.lookup (Command.name c) with
  | none => simp
  | some w =>
    obtain ⟨e, role, -, rfl⟩ := Registry.standard_lookup_eq_some_iff.mp h
    cases e <;> cases role <;> simp [Effect.codeword]

namespace Lexeme

/-! ### What the lexer finds -/

/-- Of a piece of the source, the lexer finds what the scanner does. -/
theorem cuts_piece (h : Normal (p :: ps)) : Cuts n p.source (render ps)
    (unopenedAt (p.strays n ++ p.endFaults .standard n))
    (unclosedCount (p.strays n ++ p.endFaults .standard n)) (endsAt [p.token .standard n]) := by
  cases p with
  | text w =>
    have hcuts := cuts_text (n := n) (h.unbroken (.text w) (by simp)) h.render_after_text
    rw [Piece.endFaults, List.append_nil, Piece.strays, unopenedAt_located, unclosedCount_located]
    exact hcuts
  | tag c closed =>
    have hbehind : ¬ closed → render ps = [] := by
      intro hopen
      obtain rfl : closed = false := by simpa using hopen
      rw [h.eq_nil_after_open, render_nil]
    have hcuts := cuts_source (n := n) (h.unbroken (.tag c closed) (by simp)) hbehind
    have hends : endsAt [(Piece.tag c closed).token .standard n] =
        if closed then [(n : Int) + 1 + c.length] else [] := by
      cases closed with
      | true =>
        simp [endsAt, Piece.token, Token.isDirective, Token.span]
        omega
      | false => simp [endsAt, Piece.token]
    rwa [unopenedAt_tag, unclosedCount_tag, hends]

/-- Of the source before a piece, the lexer finds what the scanner does. -/
theorem cuts_render (h : Normal (qs ++ rs)) : Cuts n (render qs) (render rs)
    (unopenedAt (faults .standard n qs)) (unclosedCount (faults .standard n qs))
    (endsAt (placed .standard n qs)) := by
  induction qs generalizing n with
  | nil => exact .nil
  | cons q qs ih =>
    have hq : Cuts n q.source (render qs ++ render rs) _ _ _ := render_append qs rs ▸ cuts_piece h
    rw [faults_cons, unopenedAt_append, unclosedCount_append, placed_cons, endsAt_cons]
    exact hq.append (ih h.tail)

/-- A closed directive without brackets inside is cut whole. -/
theorem tagOf_token (h : Normal (qs ++ .tag c true :: rs)) (hc : '<' ∉ c) :
    TagOf (lex (render (qs ++ .tag c true :: rs)))
      ((Piece.tag c true).token .standard (render qs).length) := by
  have hclose : '>' ∉ c := h.unbroken (.tag c true) (by simp)
  have hfree := not_isBracket_of_notMem hc hclose
  obtain ⟨parts, hlex, -, -⟩ := cuts_render (n := 0) h
  obtain ⟨inner, htag, htext, hinside⟩ :=
    lexFrom_tag (n := 0 + (render qs).length) (t := render rs) hfree
  have hsource : render (.tag c true :: rs) = '<' :: c ++ ['>'] ++ render rs := rfl
  rw [Nat.zero_add] at hlex htag
  refine ⟨place 0 parts, place ((render qs).length + 1) inner,
    lexFrom ((render qs).length + ('<' :: c ++ ['>']).length) (render rs), (render qs).length,
    rfl, ?_, ?_, ?_⟩
  · rw [lex, render_append, hlex, hsource, htag, place_append, ← List.append_assoc]
    simp [place, htext, Piece.token, Nat.add_assoc, Nat.add_comm 1]
  · rw [flatMap_text_place, htext]
    rfl
  · rw [map_kind_place]
    simpa only [Piece.token, codeword_ne_native_iff] using hinside

/-- Where as many brackets are astray as diagnostics tell, one side has some if the other does. -/
theorem Brackets.stray_iff {ls : List Lexeme} {ends : List Int}
    (h : Brackets ls (unopenedAt ds) (unclosedCount ds) ends) :
    (∃ l ∈ ls, l.kind = .stray) ↔ ∃ d ∈ ds, d.kind = .unopenedTag ∨ d.kind = .unclosedTag := by
  have hkind {x : Char} {l : Lexeme} (hl : isStray x l) : l.kind = .stray := by
    simp only [isStray, decide_eq_true_eq] at hl
    exact hl.1
  have hunopened : (∃ l ∈ ls, isStray '>' l) ↔ ∃ d ∈ ds, d.kind = .unopenedTag := by
    rw [exists_unopened_iff, ← h.unopened_eq]
    simp
  have hunclosed : (∃ l ∈ ls, isStray '<' l) ↔ ∃ d ∈ ds, d.kind = .unclosedTag := by
    rw [exists_unclosed_iff, ← h.unclosed_eq, List.countP_pos_iff]
  constructor
  · rintro ⟨l, hl, hstray⟩
    rcases h.stray l hl hstray with hx | hx
    · obtain ⟨d, hd, hk⟩ := hunopened.mp ⟨l, hl, hx⟩
      exact ⟨d, hd, .inl hk⟩
    · obtain ⟨d, hd, hk⟩ := hunclosed.mp ⟨l, hl, hx⟩
      exact ⟨d, hd, .inr hk⟩
  · rintro ⟨d, hd, hk | hk⟩
    · obtain ⟨l, hl, hx⟩ := hunopened.mpr ⟨d, hd, hk⟩
      exact ⟨l, hl, hkind hx⟩
    · obtain ⟨l, hl, hx⟩ := hunclosed.mpr ⟨d, hd, hk⟩
      exact ⟨l, hl, hkind hx⟩

/-- Highlighting and the scanner of the standard registry agree on every source. -/
theorem lex_agrees (source : Text) :
    Agree source (lex source) (tokenize .standard source).1 (tokenize .standard source).2 := by
  obtain ⟨ps, hn, rfl, he⟩ := tokenize_eq .standard source
  have hcuts : Cuts 0 (render ps) (render []) _ _ _ := cuts_render (by simpa using hn)
  obtain ⟨parts, hlex, hparts, hb⟩ := hcuts
  have hlex : lex (render ps) = place 0 parts := by
    simpa [lex, lexFrom] using hlex
  rw [he]
  constructor
  · rw [hlex, flatMap_text_place, hparts]
  · intro before l after h
    rw [start_of_place (hlex.symm.trans h), Nat.zero_add]
  · rw [hlex, hb.unopened_eq]
  · rw [hlex, hb.unclosed_eq]
  · rw [hlex, hb.ends_eq]
  · intro t ht hd hclosed hopen
    obtain ⟨⟨m, p⟩, hp, rfl⟩ := List.mem_map.mp ht
    obtain ⟨qs, rs, rfl, rfl⟩ := mem_located hp
    cases p with
    | text w => simp [Piece.token, Token.isDirective] at hd
    | tag c closed =>
      obtain rfl : closed = true := hclosed
      rw [Nat.zero_add]
      exact tagOf_token hn hopen
  · rw [hlex]
    exact hb.stray_iff

end Lexeme
end KineticText
