import KineticText.Proofs.Token.Piece

/-! What the scanner makes of a source: the tokens and the diagnostics of its normal form. -/
namespace KineticText

namespace Piece

/-- The token of the piece at position `n`. -/
def token (r : Registry) (n : Nat) : Piece → Token
  | text w => { kind := .text, content := w, offset := n }
  | tag c closed =>
    let command := (Command.decode r c n).1
    { kind := .directive, content := c, offset := n, codeword := command.codeword,
      params := command.params, closed }

/-- The brackets of the piece at position `n` that stand where none is expected. -/
def strays (n : Nat) : Piece → List Diagnostic
  | text w => (Text.positions '>' n w).map fun i : Nat => Fault.unopened.located i
  | tag c _ => (Text.positions '<' (n + 1) c).map fun i : Nat => (Fault.nested n).located i

/-- What is found wrong with the piece at position `n` when it ends. -/
def endFaults (r : Registry) (n : Nat) : Piece → List Diagnostic
  | text _ => []
  | tag c closed =>
    (if closed then [] else [Fault.unterminated.located n]) ++ (Command.decode r c n).2

theorem strays_text_snoc (n : Nat) (w : Text) (c : Char) :
    (text (w ++ [c])).strays n = (text w).strays n ++
      if c = '>' then [Fault.unopened.located (n + w.length : Nat)] else [] := by
  simp only [strays, Text.positions_append, Text.positions_singleton, List.map_append]
  split <;> rfl

theorem strays_tag_snoc (n : Nat) (w : Text) (c : Char) (closed closed' : Bool) :
    (tag (w ++ [c]) closed).strays n = (tag w closed').strays n ++
      if c = '<' then [(Fault.nested n).located (n + 1 + w.length : Nat)] else [] := by
  simp only [strays, Text.positions_append, Text.positions_singleton, List.map_append]
  split <;> rfl

@[simp] theorem source_token (r : Registry) (n : Nat) (p : Piece) :
    (p.token r n).source = p.source := by
  cases p <;> rfl

end Piece

/-- Pieces with their positions, the first of which is `n`. -/
def located (n : Nat) : List Piece → List (Nat × Piece)
  | [] => []
  | p :: ps => (n, p) :: located (n + p.source.length) ps

theorem located_append (n : Nat) (ps qs : List Piece) :
    located n (ps ++ qs) = located n ps ++ located (n + (render ps).length) qs := by
  induction ps generalizing n with
  | nil => rfl
  | cons p ps ih => simp [located, ih, Nat.add_assoc]

/-- The tokens of pieces that start at position `n`. -/
def placed (r : Registry) (n : Nat) (ps : List Piece) : List Token :=
  (located n ps).map fun x => x.2.token r x.1

/-- What is wrong with pieces that start at position `n`, piece by piece. -/
def faults (r : Registry) (n : Nat) (ps : List Piece) : List Diagnostic :=
  (located n ps).flatMap fun x => x.2.strays x.1 ++ x.2.endFaults r x.1

section Append

variable {r : Registry} {n : Nat} {p : Piece} {ps : List Piece}

theorem placed_cons :
    placed r n (p :: ps) = p.token r n :: placed r (n + p.source.length) ps := rfl

theorem faults_cons : faults r n (p :: ps) =
    (p.strays n ++ p.endFaults r n) ++ faults r (n + p.source.length) ps := rfl

/-- What tokens give wherever they are placed, their pieces give. -/
theorem map_placed {β : Type} {F : Token → β} {f : Piece → β}
    (hF : ∀ n p, F (Piece.token r n p) = f p) (n : Nat) (ps : List Piece) :
    (placed r n ps).map F = ps.map f := by
  induction ps generalizing n with
  | nil => rfl
  | cons p ps ih => rw [placed_cons, List.map_cons, List.map_cons, hF, ih]

theorem flatMap_placed {β : Type} {F : Token → List β} {f : Piece → List β}
    (hF : ∀ n p, F (Piece.token r n p) = f p) (n : Nat) (ps : List Piece) :
    (placed r n ps).flatMap F = ps.flatMap f := by
  rw [List.flatMap_def, map_placed hF, List.flatMap_def]

theorem placed_snoc :
    placed r n (ps ++ [p]) = placed r n ps ++ [p.token r (n + (render ps).length)] := by
  simp [placed, located_append, located]

theorem faults_snoc :
    faults r n (ps ++ [p]) = faults r n ps ++
      (p.strays (n + (render ps).length) ++ p.endFaults r (n + (render ps).length)) := by
  simp [faults, located_append, located]

end Append

namespace Scanner

variable {r : Registry} {s : Scanner} {c : Char} {read : Text} {ps : List Piece}

/-- The piece that is being read. -/
def current (s : Scanner) : Piece :=
  if s.mode = .tagOpen then .tag s.command.reverse false else .text s.text.reverse

theorem current_of_open (h : s.mode = .tagOpen) : s.current = .tag s.command.reverse false :=
  if_pos h

theorem current_of_plain (h : s.mode ≠ .tagOpen) : s.current = .text s.text.reverse :=
  if_neg h

/-- The buffer in use was begun at position `n`; while a tag is read, the text buffer is empty. -/
def BegunAt (n : Nat) (s : Scanner) : Prop :=
  if s.mode = .tagOpen then s.text = [] ∧ s.commandStart = n else s.text = [] ∨ s.textStart = n

/-- The tokens are those of the pieces `ps`, which make up `source`. -/
structure Made (r : Registry) (source : Text) (ps : List Piece) (s : Scanner) : Prop where
  normal : Normal ps
  source : render ps = source
  tokens : s.tokens.reverse = placed r 0 ps
  diagnostics : s.diagnostics.reverse = faults r 0 ps

/-- Of the text `read` so far, the pieces `ps` are finished and the current one is not. -/
structure Reads (r : Registry) (read : Text) (ps : List Piece) (s : Scanner) : Prop where
  normal : Normal ps
  consumed : s.consumed = read.length
  source : render ps ++ s.current.source = read
  tokens : s.tokens.reverse = placed r 0 ps
  diagnostics : s.diagnostics.reverse = faults r 0 ps ++ s.current.strays (render ps).length
  unbroken : s.current.Unbroken
  ready : ∀ q ∈ ps.getLast?, q.Precedes s.current
  begun : s.BegunAt (render ps).length

theorem reads_reset (s : Scanner) : Reads r [] [] s.reset where
  normal := .nil
  consumed := rfl
  source := rfl
  tokens := rfl
  diagnostics := rfl
  unbroken := List.not_mem_nil
  ready := by simp
  begun := .inl rfl

theorem read_tag_char (ho : s.mode = .tagOpen) (hc : c ≠ '>') :
    s.read r c = { s with
      command := c :: s.command
      consumed := s.consumed + 1
      diagnostics := (if c = '<' then [(Fault.nested s.commandStart).located s.consumed] else []) ++
        s.diagnostics } := by
  by_cases hn : c = '<' <;> simp [read, readTag, report, ho, hc, hn]

/-- A character that does not end a tag goes on with it. -/
theorem reads_tag_char (h : Reads r read ps s) (ho : s.mode = .tagOpen) (hc : c ≠ '>') :
    Reads r (read ++ [c]) ps (s.read r c) := by
  have hcur := current_of_open ho
  have hnext : (s.read r c).current = .tag (s.command.reverse ++ [c]) false := by
    simp [read_tag_char ho hc, current, ho]
  obtain ⟨htext, hstart⟩ := (if_pos ho).mp h.begun
  have hsource := h.source
  rw [hcur] at hsource
  have hpos : s.consumed = (render ps).length + 1 + s.command.reverse.length := by
    rw [h.consumed, ← hsource]
    simp [Piece.source]
    omega
  constructor
  · exact h.normal
  · simp [read_tag_char ho hc, h.consumed]
  · simp [hnext, ← hsource, Piece.source]
  · simpa [read_tag_char ho hc] using h.tokens
  · rw [hnext, Piece.strays_tag_snoc _ _ _ _ false, ← List.append_assoc, ← hcur, ← h.diagnostics,
      ← hpos, ← hstart, read_tag_char ho hc]
    split <;> simp
  · have hu := h.unbroken
    rw [hcur] at hu
    rw [hnext]
    simpa [Piece.Unbroken, Ne.symm hc] using hu
  · simpa [hnext, hcur] using h.ready
  · rw [read_tag_char ho hc, BegunAt, if_pos ho]
    exact ⟨htext, hstart⟩

theorem read_tag_end (ho : s.mode = .tagOpen) :
    s.read r '>' = { s.closeTag r true with consumed := s.consumed + 1 } := by
  simp [read, readTag, ho, closeTag]

theorem made_closeTag (h : Reads r read ps s) (ho : s.mode = .tagOpen) (closed : Bool) :
    Made r (read ++ if closed then ['>'] else []) (ps ++ [.tag s.command.reverse closed])
      ((if closed then s else s.report .unterminated s.commandStart).closeTag r closed) := by
  have hcur := current_of_open ho
  obtain ⟨-, hstart⟩ := (if_pos ho).mp h.begun
  have hu := h.unbroken
  have hr := h.ready
  rw [hcur] at hu hr
  constructor
  · exact h.normal.snoc hu (by simp) (by simpa using hr)
  · simp [← h.source, hcur, Piece.source]
  · cases closed <;> simp [closeTag, report, placed_snoc, h.tokens, hstart, Piece.token]
  · have hd := h.diagnostics
    rw [hcur] at hd
    cases closed <;>
      simp [closeTag, report, faults_snoc, hd, hstart, Piece.endFaults, Piece.strays]

/-- A `>` ends a tag. -/
theorem reads_tag_end (h : Reads r read ps s) (ho : s.mode = .tagOpen) :
    Reads r (read ++ ['>']) (ps ++ [.tag s.command.reverse true]) (s.read r '>') := by
  have hm := made_closeTag h ho true
  obtain ⟨htext, -⟩ := (if_pos ho).mp h.begun
  have hnext : (s.read r '>').current = .text [] := by
    simp [read_tag_end ho, current, closeTag, htext]
  constructor
  · exact hm.normal
  · simp [read_tag_end ho, h.consumed]
  · simpa [hnext, Piece.source] using hm.source
  · simpa [read_tag_end ho] using hm.tokens
  · rw [hnext]
    simpa [read_tag_end ho, Piece.strays, Text.positions] using hm.diagnostics
  · simp [hnext, Piece.Unbroken]
  · simp [hnext, Piece.isClosed, Piece.isText]
  · simp [read_tag_end ho, BegunAt, closeTag, htext]

theorem read_text_char (hp : s.mode ≠ .tagOpen) (hc : c ≠ '<') :
    s.read r c = { s with
      mode := .plain
      text := c :: s.text
      textStart := if s.text = [] then s.consumed else s.textStart
      consumed := s.consumed + 1
      diagnostics := (if c = '>' then [Fault.unopened.located s.consumed] else []) ++
        s.diagnostics } := by
  by_cases hn : c = '>' <;> simp [read, readPlain, report, hp, hc, hn]

/-- A character that does not open a tag goes on with the text. -/
theorem reads_text_char (h : Reads r read ps s) (hp : s.mode ≠ .tagOpen) (hc : c ≠ '<') :
    Reads r (read ++ [c]) ps (s.read r c) := by
  have hcur := current_of_plain hp
  have hnext : (s.read r c).current = .text (s.text.reverse ++ [c]) := by
    simp [read_text_char hp hc, current]
  have hsource := h.source
  rw [hcur] at hsource
  have hpos : s.consumed = (render ps).length + s.text.reverse.length := by
    rw [h.consumed, ← hsource]
    simp [Piece.source]
  constructor
  · exact h.normal
  · simp [read_text_char hp hc, h.consumed]
  · simp [hnext, ← hsource, Piece.source]
  · simpa [read_text_char hp hc] using h.tokens
  · rw [hnext, Piece.strays_text_snoc, ← List.append_assoc, ← hcur, ← h.diagnostics, ← hpos,
      read_text_char hp hc]
    split <;> simp
  · have hu := h.unbroken
    rw [hcur] at hu
    rw [hnext]
    simpa [Piece.Unbroken, Ne.symm hc] using hu
  · simpa [hnext, hcur] using h.ready
  · have hb := (if_neg hp).mp h.begun
    rw [read_text_char hp hc, BegunAt, if_neg (by simp)]
    right
    by_cases ht : s.text = []
    · simp [ht, hpos]
    · simpa [ht] using hb

theorem flushText_of_ne (ht : s.text ≠ []) :
    s.flushText = { s with
      tokens := (Piece.text s.text.reverse).token r s.textStart :: s.tokens, text := [] } :=
  if_neg ht

/-- The text since the last tag is a piece, unless it is empty. -/
theorem made_flushText (h : Reads r read ps s) (hp : s.mode ≠ .tagOpen) :
    ∃ qs, Made r read qs s.flushText ∧ ∀ q ∈ qs.getLast?, q.isClosed := by
  have hcur := current_of_plain hp
  have hr := h.ready
  have hs := h.source
  have hd := h.diagnostics
  rw [hcur] at hr hs hd
  by_cases ht : s.text = []
  · refine ⟨ps, ⟨h.normal, ?_, ?_, ?_⟩, ?_⟩
    · simpa [ht, Piece.source] using hs
    · simpa [flushText, ht] using h.tokens
    · simpa [flushText, ht, Piece.strays, Text.positions] using hd
    · exact fun q hq => (Piece.precedes_text.mp (hr q hq)).1
  · have hb := ((if_neg hp).mp h.begun).resolve_left ht
    have hu := h.unbroken
    rw [hcur] at hu
    refine ⟨ps ++ [.text s.text.reverse], ⟨h.normal.snoc hu (by simpa using ht) hr, ?_, ?_, ?_⟩, ?_⟩
    · simpa using hs
    · simp [flushText_of_ne (r := r) ht, placed_snoc, h.tokens, hb]
    · simp [flushText_of_ne (r := r) ht, faults_snoc, hd, Piece.endFaults]
    · simp [Piece.isClosed]

theorem read_tag_start (hp : s.mode ≠ .tagOpen) :
    s.read r '<' = { s.flushText.openTag with consumed := s.consumed + 1 } := by
  have hc : s.flushText.consumed = s.consumed := by
    unfold flushText
    split <;> rfl
  simp [read, readPlain, hp, openTag, hc]

/-- A `<` opens a tag. -/
theorem reads_tag_start (h : Reads r read ps s) (hp : s.mode ≠ .tagOpen) :
    ∃ qs, Reads r (read ++ ['<']) qs (s.read r '<') := by
  obtain ⟨qs, hm, hl⟩ := made_flushText h hp
  have hnext : (s.read r '<').current = .tag [] false := by
    simp [read_tag_start hp, current, openTag]
  have hc : s.flushText.consumed = read.length ∧ s.flushText.text = [] := by
    unfold flushText
    split <;> simp_all [h.consumed]
  refine ⟨qs, hm.normal, ?_, ?_, ?_, ?_, ?_, ?_, ?_⟩
  · simp [read_tag_start hp, h.consumed]
  · simp [hnext, hm.source, Piece.source]
  · simpa [read_tag_start hp, openTag] using hm.tokens
  · rw [hnext]
    simpa [read_tag_start hp, openTag, Piece.strays, Text.positions] using hm.diagnostics
  · simp [hnext, Piece.Unbroken]
  · simpa [hnext] using hl
  · rw [read_tag_start hp, BegunAt, if_pos (by rfl)]
    exact ⟨hc.2, by rw [hm.source]; exact hc.1⟩

theorem reads_read (h : Reads r read ps s) (c : Char) :
    ∃ qs, Reads r (read ++ [c]) qs (s.read r c) := by
  by_cases ho : s.mode = .tagOpen
  · by_cases hc : c = '>'
    · subst hc
      exact ⟨_, reads_tag_end h ho⟩
    · exact ⟨_, reads_tag_char h ho hc⟩
  · by_cases hc : c = '<'
    · subst hc
      exact reads_tag_start h ho
    · exact ⟨_, reads_text_char h ho hc⟩

/-- The run from a reset scanner, whatever it had read before. -/
theorem reads_foldl (s : Scanner) (source : Text) :
    ∃ ps, Reads r source ps (source.foldl (Scanner.read r) s.reset) := by
  induction source using List.reverseRecOn with
  | nil => exact ⟨[], reads_reset s⟩
  | append_singleton source c ih =>
    obtain ⟨ps, h⟩ := ih
    rw [List.foldl_append]
    exact reads_read h c

/-- At the end of the source all of it is in tokens. -/
theorem made_finish (h : Reads r read ps s) : ∃ qs, Made r read qs (s.finish r) := by
  by_cases ho : s.mode = .tagOpen
  · have hm := made_closeTag h ho false
    obtain ⟨htext, -⟩ := (if_pos ho).mp h.begun
    refine ⟨ps ++ [.tag s.command.reverse false], ?_⟩
    simpa [finish, ho, flushText, closeTag, report, htext] using hm
  · obtain ⟨qs, hm, -⟩ := made_flushText h ho
    exact ⟨qs, by simpa [finish, ho] using hm⟩

/-- Whatever the scanner has read before, a scan makes the pieces of the source. -/
theorem made_scan (r : Registry) (s : Scanner) (source : Text) :
    ∃ ps, Made r source ps (s.scan r source) := by
  obtain ⟨ps, h⟩ := reads_foldl (r := r) s source
  exact made_finish h

end Scanner

/-- A source is cut into the pieces of its normal form, and what is wrong with it is what is
wrong with them. -/
theorem tokenize_eq (r : Registry) (source : Text) :
    ∃ ps, Normal ps ∧ render ps = source ∧ tokenize r source = (placed r 0 ps, faults r 0 ps) := by
  obtain ⟨ps, h⟩ := Scanner.made_scan r {} source
  exact ⟨ps, h.normal, h.source, Prod.ext h.tokens h.diagnostics⟩

/-- Pieces in normal form are found again in the source they make up. -/
theorem tokenize_render (r : Registry) {ps : List Piece} (h : Normal ps) :
    tokenize r (render ps) = (placed r 0 ps, faults r 0 ps) := by
  obtain ⟨qs, hq, hr, he⟩ := tokenize_eq r (render ps)
  rw [he, hq.eq_of_render_eq h hr]

end KineticText
