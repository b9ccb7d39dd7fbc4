import KineticText.Proofs.Command.Blocks
import KineticText.Proofs.Number.Grammar

/-! Which commands are read without complaint. -/
namespace KineticText.Command

variable {r : Registry} {raw word : Text} {offset base : Int} {fields : List Text}

/-- The trimmed text before the first colon. -/
def name (raw : Text) : Text := (keyword raw).trim

/-- A parameter block has between two and six fields, and each of them is a number. -/
structure Readable (block : Text) : Prop where
  two_le : 2 ≤ (block.splitOn ',').length
  le_six : (block.splitOn ',').length ≤ 6
  numbers : ∀ f ∈ block.splitOn ',', ∃ d, Decimal.Writes (Text.trim f) d ∧ d.Finite

theorem decode_codeword :
    (decode r raw offset).1.codeword = (r.lookup (name raw)).getD .native := by
  simp only [decode, name]
  cases r.lookup (keyword raw).trim with
  | none => rfl
  | some c =>
    cases block? raw with
    | none => rfl
    | some block =>
      simp only
      split <;> rfl

theorem fieldFaults_eq_nil_iff : fieldFaults word base fields = [] ↔
    ∀ f ∈ fields.take Params.count, (number? f.trim).isSome := by
  rw [← List.map_eq_nil_iff (f := Diagnostic.kind), kinds_fieldFaults, List.filterMap_eq_nil_iff]
  simp [Option.isSome_iff_ne_none]

theorem readFields_faults_eq_nil_iff : (readFields word base fields).2 = [] ↔
    fields.length ≤ Params.count ∧ ∀ f ∈ fields, (number? f.trim).isSome := by
  rw [readFields_snd, List.append_eq_nil_iff, fieldFaults_eq_nil_iff, Option.toList_eq_nil_iff,
    Option.map_eq_none_iff, List.getElem?_eq_none_iff]
  refine and_congr_right ?_
  intro hle
  rw [List.take_of_length_le hle]

/-- A tag is read without complaint if it is native, has no block, or has a readable one. -/
theorem decode_faults_eq_nil_iff : (decode r raw offset).2 = [] ↔
    ((r.lookup (name raw)).isSome → ∀ block ∈ block? raw, Readable block) := by
  simp only [decode, name]
  cases r.lookup (keyword raw).trim with
  | none => simp
  | some c =>
    cases block? raw with
    | none => simp
    | some block =>
      simp only [Option.isSome_some, forall_const, Option.mem_some_iff, forall_eq']
      split
      · rename_i hlt
        simp only [reduceCtorEq, false_iff]
        intro h
        exact absurd h.two_le (by omega)
      · rename_i hge
        simp only [readFields_faults_eq_nil_iff, number?_isSome_iff]
        constructor
        · rintro ⟨hle, hn⟩
          exact ⟨by omega, hle, hn⟩
        · intro h
          exact ⟨h.le_six, h.numbers⟩

end KineticText.Command
