import KineticText.Proofs.Diagnostic.Lines

/-! The lines of a written diagnostic are three, and one more for each line end in what it quotes. -/
namespace KineticText

namespace Text

theorem notMem_ofNat (n : Nat) : '\n' ∉ ofNat n := by
  intro h
  have hdigit := Nat.isDigit_of_mem_toDigits (by decide) (by decide) h
  exact absurd hdigit (by decide)

theorem notMem_ofInt (i : Int) : '\n' ∉ ofInt i := by
  cases i with
  | ofNat n => exact notMem_ofNat n
  | negSucc n =>
    intro h
    rcases List.mem_cons.mp h with h | h
    · exact absurd h (by decide)
    · exact notMem_ofNat _ h

end Text

namespace Fault

/-- The texts in a message that come from the source. -/
def quotes : Fault → List Text
  | unopened | nested _ | unterminated => []
  | loneField k | extraFields k _ _ => [k]
  | notNumber k _ t => [k, t]
  | reopened c _ _ | neverOpened c _ | neverClosed c _ => [c]

/-- All line ends of a message are in what it quotes. -/
theorem count_message (f : Fault) : f.message.count '\n' = f.quotes.flatten.count '\n' := by
  have hplain (s : String) (h : '\n' ∉ s.toList) : s.toList.count '\n' = 0 :=
    List.count_eq_zero.mpr h
  have hnat (n : Nat) : (Text.ofNat n).count '\n' = 0 := List.count_eq_zero.mpr (Text.notMem_ofNat n)
  have hint (i : Int) : (Text.ofInt i).count '\n' = 0 := List.count_eq_zero.mpr (Text.notMem_ofInt i)
  have hname (e : Effect) : e.name.count '\n' = 0 := by cases e <;> rfl
  -- What is not quoted is the wording, a number or the name of an effect.
  unfold message quotes
  cases f with
  | unopened | unterminated => rfl
  | _ =>
    simp (disch := decide) only [List.count_append, List.flatten_cons, List.flatten_nil,
      List.count_nil, Nat.zero_add, Nat.add_zero, hplain, hnat, hint, hname]

end Fault

namespace Diagnostic

theorem count_headline (d : Diagnostic) : d.headline.count '\n' = d.message.count '\n' := by
  have hkind : d.kind.name.count '\n' = 0 := by cases d.kind <;> rfl
  have hoffset : (Text.ofInt d.offset).count '\n' = 0 :=
    List.count_eq_zero.mpr (Text.notMem_ofInt d.offset)
  have hplain : " at character ".toList.count '\n' = 0 ∧ ": ".toList.count '\n' = 0 := ⟨rfl, rfl⟩
  unfold headline
  simp only [List.count_append, hkind, hoffset, hplain, Nat.zero_add]

/-- A fault that quotes one line is written in three. -/
theorem length_lines_render (f : Fault) (offset : Int) (source : Text) (width : Int) :
    ((f.located offset).render source.toArray width).lines.length =
      3 + f.quotes.flatten.count '\n' := by
  have hmessage : (f.located offset).headline.count '\n' = f.quotes.flatten.count '\n' :=
    (count_headline _).trans f.count_message
  rw [lines_render, List.length_append, Text.length_lines, hmessage]
  simp only [List.length_cons, List.length_nil]
  omega

end Diagnostic
end KineticText
