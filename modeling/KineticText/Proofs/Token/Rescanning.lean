import KineticText.Token.Scanner

/-! A scanner may be used again: of what an earlier source left behind, only the start marks survive
that the new source does not set, and nothing reads these. -/
namespace KineticText.Scanner

/-- The start mark of the text buffer has been set. -/
def MarksText (s : Scanner) : Prop := s.text ≠ [] ∨ ∃ t ∈ s.tokens, t.kind = .text

/-- The start mark of the command buffer has been set. -/
def MarksTag (s : Scanner) : Prop := s.mode = .tagOpen ∨ ∃ t ∈ s.tokens, t.kind = .directive

instance (s : Scanner) : Decidable s.MarksText := inferInstanceAs (Decidable (_ ∨ _))

instance (s : Scanner) : Decidable s.MarksTag := inferInstanceAs (Decidable (_ ∨ _))

/-- The scanner with the marks of an earlier one in place of those that it has not set. -/
def inherit (old s : Scanner) : Scanner :=
  { s with
    textStart := if s.MarksText then s.textStart else old.textStart
    commandStart := if s.MarksTag then s.commandStart else old.commandStart }

variable {r : Registry} {old s : Scanner} {c : Char}

/-! ### The marks that a step sets -/

theorem marksText_flushText : s.flushText.MarksText ↔ s.MarksText := by
  by_cases ht : s.text = [] <;> simp [flushText, MarksText, ht]

theorem marksTag_flushText : s.flushText.MarksTag ↔ s.MarksTag := by
  by_cases ht : s.text = [] <;> simp [flushText, MarksTag, ht]

theorem marksText_closeTag {closed : Bool} : (s.closeTag r closed).MarksText ↔ s.MarksText := by
  simp [closeTag, MarksText]

theorem marksTag_closeTag {closed : Bool} : (s.closeTag r closed).MarksTag := by
  simp [closeTag, MarksTag]

/-! ### Steps with inherited marks -/

theorem reset_eq_inherit (old : Scanner) : old.reset = old.inherit {} := rfl

theorem report_inherit (f : Fault) (offset : Nat) :
    (old.inherit s).report f offset = old.inherit (s.report f offset) := rfl

/-- A text that becomes a token has set its mark. -/
theorem flushText_inherit : (old.inherit s).flushText = old.inherit s.flushText := by
  by_cases ht : s.text = []
  · simp [flushText, inherit, ht]
  · have hmark : s.MarksText := .inl ht
    simp only [inherit, marksText_flushText, marksTag_flushText, hmark]
    simp [flushText, ht]

/-- What opens a tag sets its mark, and leaves the other mark alone. -/
theorem openTag_inherit : (old.inherit s).openTag = old.inherit s.openTag := by
  have hmark : s.openTag.MarksTag := .inl rfl
  simp only [inherit, if_pos hmark]
  rfl

/-- A tag that becomes a token has set its mark. -/
theorem closeTag_inherit (ho : s.mode = .tagOpen) (closed : Bool) :
    (old.inherit s).closeTag r closed = old.inherit (s.closeTag r closed) := by
  have hmark : s.MarksTag := .inl ho
  simp only [inherit, marksText_closeTag, marksTag_closeTag, hmark]
  simp [closeTag]

/-- The first character of a text sets its mark. -/
theorem readPlain_inherit (hp : s.mode ≠ .tagOpen) :
    (old.inherit s).readPlain c = old.inherit (s.readPlain c) := by
  by_cases hc : c = '<'
  · simp only [readPlain, if_pos hc, flushText_inherit, openTag_inherit]
  · have htext : (s.readPlain c).MarksText := by
      left
      simp [readPlain, hc]
    have htag : (s.readPlain c).MarksTag ↔ s.MarksTag := by
      by_cases hs : c = '>' <;> simp [readPlain, report, MarksTag, hp, hc, hs]
    simp only [inherit, htag, if_pos htext]
    by_cases ht : s.text = []
    · by_cases hs : c = '>' <;> simp [readPlain, report, hc, hs, ht]
    · have hmark : s.MarksText := .inl ht
      by_cases hs : c = '>' <;> simp [readPlain, report, hc, hs, ht, hmark]

/-- Inside a tag its mark has been set. -/
theorem readTag_inherit (ho : s.mode = .tagOpen) :
    (old.inherit s).readTag r c = old.inherit (s.readTag r c) := by
  by_cases hc : c = '>'
  · simp only [readTag, if_pos hc, closeTag_inherit ho]
  · have hmark : s.MarksTag := .inl ho
    have htext : (s.readTag r c).MarksText ↔ s.MarksText := by
      by_cases hn : c = '<' <;> simp [readTag, report, MarksText, hc, hn]
    have htag : (s.readTag r c).MarksTag := by
      left
      by_cases hn : c = '<' <;> simp [readTag, report, ho, hc, hn]
    simp only [inherit, htext, if_pos htag]
    by_cases hn : c = '<' <;> simp [readTag, report, hc, hn, hmark]

theorem read_inherit : (old.inherit s).read r c = old.inherit (s.read r c) := by
  by_cases ho : s.mode = .tagOpen
  · have ho' : (old.inherit s).mode = .tagOpen := ho
    simp only [read, if_pos ho, if_pos ho', readTag_inherit ho]
    rfl
  · have ho' : (old.inherit s).mode ≠ .tagOpen := ho
    simp only [read, if_neg ho, if_neg ho', readPlain_inherit ho]
    rfl

theorem finish_inherit : (old.inherit s).finish r = old.inherit (s.finish r) := by
  by_cases ho : s.mode = .tagOpen
  · have ho' : (old.inherit s).mode = .tagOpen := ho
    have hmark : s.MarksTag := .inl ho
    have hstart : (old.inherit s).commandStart = s.commandStart := if_pos hmark
    have hopen : (s.report .unterminated s.commandStart).mode = .tagOpen := ho
    simp only [finish, if_pos ho, if_pos ho', hstart, report_inherit, closeTag_inherit hopen,
      flushText_inherit]
  · have ho' : (old.inherit s).mode ≠ .tagOpen := ho
    simp only [finish, if_neg ho, if_neg ho', flushText_inherit]

/-! ### The whole scan -/

theorem foldl_inherit (old s : Scanner) (source : Text) :
    source.foldl (read r) (old.inherit s) = old.inherit (source.foldl (read r) s) := by
  induction source generalizing s with
  | nil => rfl
  | cons c source ih =>
    rw [List.foldl_cons, read_inherit, ih, List.foldl_cons]

theorem scan_inherit (r : Registry) (old : Scanner) (source : Text) :
    old.scan r source = old.inherit (({} : Scanner).scan r source) := by
  rw [scan, reset_eq_inherit, foldl_inherit, finish_inherit]
  rfl

/-- A scan ends with both buffers out of use. -/
theorem idle_finish (r : Registry) (s : Scanner) :
    (s.finish r).text = [] ∧ (s.finish r).mode ≠ .tagOpen := by
  have hflush (u : Scanner) : u.flushText.text = [] ∧ u.flushText.mode = u.mode := by
    by_cases ht : u.text = [] <;> simp [flushText, ht]
  unfold finish
  by_cases ho : s.mode = .tagOpen <;> simp [ho, hflush, closeTag]

/-- A scanner that has been used scans as a new one does: it finds the same and comes to the same
state and position. The two end alike but for the mark of a text if the source has none, and the mark
of a tag if the source has none, which are then still the old ones. -/
theorem scan_of_used (r : Registry) (old : Scanner) (source : Text) :
    let new := ({} : Scanner).scan r source
    (old.scan r source).found = tokenize r source ∧
      (old.scan r source).mode = new.mode ∧
      (old.scan r source).position = new.position ∧
      old.scan r source = { new with
        textStart := if ∃ t ∈ (tokenize r source).1, t.kind = .text then new.textStart
          else old.textStart
        commandStart := if ∃ t ∈ (tokenize r source).1, t.kind = .directive then new.commandStart
          else old.commandStart } := by
  intro new
  have hscan : old.scan r source = old.inherit new := scan_inherit r old source
  obtain ⟨htext, hmode⟩ := idle_finish r (source.foldl (read r) ({} : Scanner).reset)
  have hmarksText : new.MarksText ↔ ∃ t ∈ (tokenize r source).1, t.kind = .text := by
    have hidle : new.text = [] := htext
    simp [MarksText, hidle, tokenize, found, new]
  have hmarksTag : new.MarksTag ↔ ∃ t ∈ (tokenize r source).1, t.kind = .directive := by
    have hidle : new.mode ≠ .tagOpen := hmode
    simp [MarksTag, hidle, tokenize, found, new]
  rw [hscan]
  refine ⟨rfl, rfl, rfl, ?_⟩
  simp only [inherit, hmarksText, hmarksTag]

/-- A source without tags leaves the old mark of a tag. -/
example : (({ commandStart := 7, mode := .tagOpen, command := ['b'] } : Scanner).scan .standard
    "a".toList).commandStart = 7 := by decide

end KineticText.Scanner
