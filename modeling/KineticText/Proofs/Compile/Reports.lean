import KineticText.Proofs.Command.Decoding
import KineticText.Proofs.Compile.Offsets

/-! What a compile reports is written in three lines a diagnostic, unless a custom tag holds a line
end that is quoted. -/
namespace KineticText

/-- The keyword of the tag is registered. -/
def Token.Known (r : Registry) (t : Token) : Prop :=
  t.isDirective ∧ (r.lookup (Command.name t.content)).isSome

instance (r : Registry) (t : Token) : Decidable (t.Known r) := inferInstanceAs (Decidable (_ ∧ _))

/-- The fault quotes only what tags of registered keywords hold. -/
def Fault.QuotesFrom (r : Registry) (ts : List Token) (f : Fault) : Prop :=
  ∀ w ∈ f.quotes, ∃ t ∈ ts, t.Known r ∧ w <:+: t.content

/-- The text says what is wrong and shows below that, on a line each, the source and the caret. It
has more lines than these three only for the line ends it quotes. -/
structure Diagnostic.WrittenAs (r : Registry) (source : Text) (ts : List Token) (d : Diagnostic)
    (text : Text) : Prop where
  lines : text.lines =
    d.headline.lines ++ [d.excerptLine source defaultWidth, d.caretLine defaultWidth]
  quotes : ∃ f : Fault, d = f.located d.offset ∧ f.QuotesFrom r ts ∧
    text.lines.length = 3 + f.quotes.flatten.count '\n'

variable {s : Settings} {r : Registry} {source : Text} {c : Compiled} {d : Diagnostic} {t : Token}
  {ts : List Token} {i : Nat}

/-! ### What is quoted -/

theorem Text.trim_isInfix (s : Text) : s.trim <:+: s := by
  obtain ⟨u, v, hs, -, -⟩ := exists_eq_trimBy isBlank s
  exact ⟨u, v, hs.symm⟩

namespace Command

variable {p : Parts} {fs : List Text} {w : Text} {offset : Int}

theorem Parts.field_isInfix (hf : p.fields = some fs) (hw : w ∈ fs) : w <:+: p.text := by
  obtain ⟨i, hget⟩ := List.getElem?_of_mem hw
  exact (List.suffix_append _ w).isInfix.trans (ahead_append_isPrefix hf hget).isInfix

/-- What is reported of a command quotes the keyword or a field, trimmed. -/
theorem quotes_of_mem_decode (h : d ∈ (decode r p.text offset).2) :
    (r.lookup p.head.trim).isSome ∧
      ∃ f : Fault, d = f.located d.offset ∧ ∀ w ∈ f.quotes, w <:+: p.text := by
  have hhead : p.head.trim <:+: p.text := (Text.trim_isInfix _).trans p.head_isPrefix.isInfix
  obtain ⟨hc, fs, hf, ⟨w, rfl, rfl⟩ | ⟨-, hd⟩⟩ := Parts.mem_decode_iff.mp h
  · exact ⟨hc, .loneField _, rfl, by simpa [Fault.quotes] using hhead⟩
  · refine ⟨hc, ?_⟩
    rcases mem_readFields_faults_iff.mp hd with ⟨w, -, rfl⟩ | ⟨i, -, w, hget, -, rfl⟩
    · exact ⟨.extraFields .., rfl, by simpa [Fault.quotes] using hhead⟩
    · have hfield : w.trim <:+: p.text :=
        (Text.trim_isInfix w).trans (Parts.field_isInfix hf (List.mem_of_getElem? hget))
      exact ⟨.notNumber .., rfl, by simpa [Fault.quotes] using ⟨hhead, hfield⟩⟩

end Command

/-- What is wrong with the brackets is told without a quote. -/
theorem Token.quotes_of_mem_faults (h : d ∈ t.faults r source) :
    ∃ f : Fault, d = f.located d.offset ∧ ∀ w ∈ f.quotes, t.Known r ∧ w <:+: t.content := by
  unfold Token.faults at h
  cases hk : t.kind with
  | text =>
    rw [hk] at h
    obtain ⟨i, -, rfl⟩ := List.mem_map.mp h
    exact ⟨.unopened, rfl, nofun⟩
  | directive =>
    rw [hk] at h
    rcases List.mem_append.mp h with h | h
    · rcases List.mem_append.mp h with h | h
      · obtain ⟨i, -, rfl⟩ := List.mem_map.mp h
        exact ⟨.nested _, rfl, nofun⟩
      · split at h
        · exact absurd h List.not_mem_nil
        · obtain rfl := List.mem_singleton.mp h
          exact ⟨.unterminated, rfl, nofun⟩
    · obtain ⟨p, hp⟩ : ∃ p : Command.Parts, p.text = t.content :=
        ⟨.ofText _, Command.Parts.text_ofText _⟩
      have hdir : t.isDirective := by simp [isDirective, hk]
      rw [← hp] at h
      obtain ⟨hc, f, hd, hquotes⟩ := Command.quotes_of_mem_decode h
      rw [← p.name_text, hp] at hc
      rw [hp] at hquotes
      exact ⟨f, hd, fun w hw => ⟨⟨hdir, hc⟩, hquotes w hw⟩⟩
  | pause =>
    rw [hk] at h
    exact absurd h List.not_mem_nil

/-- A directive that is not native is one of a registered keyword. -/
theorem Token.known_of_isCustom (ht : t ∈ (tokenize r source).1) (hcustom : t.isCustom) :
    t.Known r := by
  obtain ⟨hdir, hnative⟩ := isCustom_iff.mp hcustom
  have hcommand := (tokenize_diagnosed r source).commands t ht hdir
  have hcodeword : t.codeword = (r.lookup (Command.name t.content)).getD .native :=
    (congrArg Command.codeword hcommand).trans Command.decode_codeword
  refine ⟨hdir, Option.isSome_iff_ne_none.mpr ?_⟩
  intro hnone
  rw [hnone] at hcodeword
  have hkind : t.kind = .directive := by simpa [isDirective] using hdir
  exact hnative (by simp [isNative, hkind, hcodeword])

/-- What is reported of a source quotes only its tags of registered keywords. -/
theorem quotes_of_mem_diagnostics (h : compile s r source = .ok c) (hd : d ∈ c.diagnostics) :
    ∃ f : Fault, d = f.located d.offset ∧ f.QuotesFrom r c.tokens := by
  obtain ⟨htokens, -, hcases⟩ := diagnostics_of_compile h
  rcases hcases d hd with hd | ⟨i, hi⟩
  · rw [(tokenize_diagnosed r source).found_eq, ← htokens] at hd
    obtain ⟨t, ht, hd⟩ := List.mem_flatMap.mp hd
    obtain ⟨f, hf, hquotes⟩ := Token.quotes_of_mem_faults hd
    exact ⟨f, hf, fun w hw => ⟨t, ht, hquotes w hw⟩⟩
  · obtain ⟨t, ht, hcustom, f, rfl, hquotes⟩ := hi.exists_token
    refine ⟨f, rfl, ?_⟩
    intro w hw
    rw [hquotes] at hw
    obtain rfl := List.mem_singleton.mp hw
    exact ⟨t, ht, Token.known_of_isCustom (htokens ▸ ht) hcustom, List.infix_refl _⟩

/-! ### The report -/

theorem Diagnostic.writtenAs_render (h : compile s r source = .ok c) (hd : d ∈ c.diagnostics) :
    d.WrittenAs r source c.tokens (d.render source.toArray defaultWidth) := by
  obtain ⟨f, hf, hquotes⟩ := quotes_of_mem_diagnostics h hd
  refine ⟨lines_render source defaultWidth d, f, hf, hquotes, ?_⟩
  rw [hf]
  exact length_lines_render f d.offset source defaultWidth

theorem Fault.QuotesFrom.count_eq_zero {f : Fault} (h : f.QuotesFrom r ts)
    (hflat : ∀ t ∈ ts, t.Known r → '\n' ∉ t.content) : f.quotes.flatten.count '\n' = 0 := by
  rw [List.count_eq_zero]
  intro hmem
  obtain ⟨w, hw, hmem⟩ := List.mem_flatten.mp hmem
  obtain ⟨t, ht, hknown, hin⟩ := h w hw
  exact hflat t ht hknown (hin.subset hmem)

/-- A report of a compile never fails to write a caret. -/
theorem hasCaret_of_mem_diagnostics (h : compile s r source = .ok c) (hd : d ∈ c.diagnostics) :
    d.hasCaret Diagnostic.defaultWidth :=
  Diagnostic.hasCaret_default (bounds_of_mem_diagnostics h hd).1

/-- A report gives a text for every diagnostic of a compile. A text has three lines and one more for
every line end that it quotes from the tags of registered keywords; no other line end of the source
gets into it. -/
theorem compile_report {ε : Type} (s : Settings) (r : Registry) (source : Text) (c : Compiled)
    (v : Int) (h : compile s r source = .ok c) :
    ∃ texts, (Diagnostic.report source c.diagnostics : Journal ε _).result v = .ok texts ∧
      List.Forall₂ (Diagnostic.WrittenAs r source c.tokens) c.diagnostics texts ∧
      ((∀ t ∈ c.tokens, t.Known r → '\n' ∉ t.content) → ∀ w ∈ texts, w.lines.length = 3) := by
  have hwritten : List.Forall₂ (Diagnostic.WrittenAs r source c.tokens) c.diagnostics
      (c.diagnostics.map (·.render source.toArray Diagnostic.defaultWidth)) := by
    rw [List.forall₂_map_right_iff, List.forall₂_same]
    exact fun d hd => Diagnostic.writtenAs_render h hd
  refine ⟨_, Diagnostic.result_report source c.diagnostics, hwritten, ?_⟩
  intro hflat w hw
  obtain ⟨d, -, -, f, -, hquotes, hlength⟩ := exists_of_mem_forall₂ hwritten hw
  rw [hlength, hquotes.count_eq_zero hflat]

/-- Line ends in the text, in a native tag and behind it, but none in the wave's tag. -/
def folded : Text := "x\n<b\n><wave:?>\n".toList

theorem compile_report_folded : ∃ c texts, compile {} .standard folded = .ok c ∧
    (Diagnostic.report folded c.diagnostics : Journal CompileError _).result 1 = .ok texts ∧
    texts.length = 2 ∧ ∀ w ∈ texts, w.lines.length = 3 := by
  obtain ⟨c, hc⟩ := exists_compile_standard {} folded
  obtain ⟨texts, htexts, hwritten, hflat⟩ :=
    compile_report (ε := CompileError) {} .standard folded c 1 hc
  refine ⟨c, texts, hc, htexts, ?_, hflat ?_⟩
  · rw [← hwritten.length_eq]
    obtain ⟨-, rfl⟩ := compile_eq_ok_iff_cues.mp hc
    decide +kernel
  · obtain ⟨-, rfl⟩ := compile_eq_ok_iff_cues.mp hc
    decide +kernel

/-- A wave whose tag holds a line end is quoted with it, which makes a fourth line. -/
theorem exists_four_lines_wrapped : ∃ c texts,
    compile {} .standard "<wave\n>".toList = .ok c ∧
    (Diagnostic.report "<wave\n>".toList c.diagnostics : Journal CompileError _).result 1 =
      .ok texts ∧
    ∃ w ∈ texts, w.lines.length = 4 := by
  obtain ⟨c, hc⟩ := exists_compile_standard {} "<wave\n>".toList
  refine ⟨c, _, hc, Diagnostic.result_report _ _, ?_⟩
  obtain ⟨-, rfl⟩ := compile_eq_ok_iff_cues.mp hc
  decide +kernel

end KineticText
