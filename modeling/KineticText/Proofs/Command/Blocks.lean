import KineticText.Command
import Mathlib.Data.List.Basic

/-! What is read of the fields of a block, and what is reported of them. -/
namespace KineticText.Command

variable {word : Text} {base : Int} {fields : List Text} {i n : Nat} {f : Text}
  {d : Diagnostic}

/-! ### The places of the fields -/

/-- Where the `i`-th of the texts begins that stand from `base` on, one character apart. -/
def fieldStart (base : Int) (fields : List Text) (i : Nat) : Int :=
  base + (fields.take i).flatten.length + i

theorem map_snd_positions : (positions base fields).map Prod.snd = fields := by
  induction fields generalizing base with
  | nil => rfl
  | cons f fs ih => simp [positions, ih]

theorem take_positions :
    (positions base fields).take n = positions base (fields.take n) := by
  induction fields generalizing base n with
  | nil => simp [positions]
  | cons f fs ih =>
    cases n with
    | zero => rfl
    | succ n => simp [positions, ih]

theorem fieldStart_zero (base : Int) (fields : List Text) : fieldStart base fields 0 = base := by
  simp [fieldStart]

theorem fieldStart_cons : fieldStart base (f :: fields) (i + 1) =
    fieldStart (base + f.length + 1) fields i := by
  simp only [fieldStart, List.take_succ_cons, List.flatten_cons, List.length_append]
  omega

theorem getElem?_positions (base : Int) (fields : List Text) (i : Nat) :
    (positions base fields)[i]? = fields[i]?.map fun f => (fieldStart base fields i, f) := by
  induction fields generalizing base i with
  | nil => rfl
  | cons f fields ih =>
    cases i with
    | zero => simp [positions, fieldStart_zero]
    | succ i => simp only [positions, List.getElem?_cons_succ, ih, fieldStart_cons]

/-! ### The parameters -/

/-- The parameters are the numbers that the first fields are, trimmed. -/
theorem readFields_fst : (readFields word base fields).1 =
      .ofList (((fields.map Text.trim).take Params.count).map number?) := by
  have hvalues := calc
    (positions base (fields.take Params.count)).map (fun x => number? x.2.trim)
      = ((positions base (fields.take Params.count)).map Prod.snd).map (fun f => number? f.trim) := by
        rw [List.map_map]
        rfl
    _ = (fields.take Params.count).map (fun f => number? f.trim) := by rw [map_snd_positions]
    _ = ((fields.map Text.trim).take Params.count).map number? := by
        rw [← List.map_take, List.map_map]
        rfl
  simp only [readFields, take_positions, List.take_take]
  exact congrArg Params.ofList hvalues

theorem toList_ofList (values : List (Option Float)) : (Params.ofList values).toList =
    (List.range Params.count).map fun i => values[i]?.join := rfl

/-! ### The diagnostics -/

/-- What is reported of a field that is no number. -/
def fieldReport (word : Text) (base : Int) (fields : List Text) (i : Nat) (f : Text) : Diagnostic :=
  (Fault.notNumber word (i + 1) f.trim).located (fieldStart base fields i + f.indent)

/-- What is reported of the fields past the sixth, at the first of them. -/
def excessReport (word : Text) (base : Int) (fields : List Text) (f : Text) : Diagnostic :=
  (Fault.extraFields word Params.count fields.length).located
    (fieldStart base fields Params.count + f.indent)

theorem fieldFault?_eq_some_iff {x : Int × Text} : fieldFault? word i x = some d ↔
    number? x.2.trim = none ∧
      d = (Fault.notNumber word (i + 1) x.2.trim).located (point x) := by
  unfold fieldFault?
  cases number? x.2.trim with
  | some v => simp
  | none => simp [eq_comm]

/-- What is reported of the first six fields. -/
def fieldFaults (word : Text) (base : Int) (fields : List Text) : List Diagnostic :=
  ((positions base fields).take Params.count).zipIdx.filterMap fun x => fieldFault? word x.2 x.1

/-- The fields past the sixth come first, in one diagnostic. -/
theorem readFields_snd (word : Text) (base : Int) (fields : List Text) :
    (readFields word base fields).2 =
      (fields[Params.count]?.map (excessReport word base fields)).toList ++
        fieldFaults word base fields := by
  have hextra : ((positions base fields).take (Params.count + 1)).drop Params.count =
      (positions base fields)[Params.count]?.toList := by
    rw [List.drop_take, Nat.add_sub_cancel_left, List.take_one, List.head?_drop]
  have hused : ((positions base fields).take (Params.count + 1)).take Params.count =
      (positions base fields).take Params.count := by
    rw [List.take_take]
    rfl
  simp only [readFields, ← take_positions, hextra, hused, getElem?_positions]
  cases fields[Params.count]? <;> rfl

theorem mem_fieldFaults_iff : d ∈ fieldFaults word base fields ↔
    ∃ i < Params.count, ∃ f, fields[i]? = some f ∧ number? f.trim = none ∧
      d = fieldReport word base fields i f := by
  rw [fieldFaults, List.mem_filterMap]
  constructor
  · rintro ⟨⟨x, i⟩, hx, hd⟩
    obtain ⟨hi, hx⟩ : i < Params.count ∧ (positions base fields)[i]? = some x := by
      simpa [List.mem_zipIdx_iff_getElem?, List.getElem?_take] using hx
    rw [getElem?_positions, Option.map_eq_some_iff] at hx
    obtain ⟨f, hf, rfl⟩ := hx
    exact ⟨i, hi, f, hf, fieldFault?_eq_some_iff.mp hd⟩
  · rintro ⟨i, hi, f, hf, hn⟩
    refine ⟨((fieldStart base fields i, f), i), ?_, fieldFault?_eq_some_iff.mpr hn⟩
    rw [List.mem_zipIdx_iff_getElem?, List.getElem?_take, if_pos hi, getElem?_positions, hf]
    rfl

theorem kind_of_mem_fieldFaults (h : d ∈ fieldFaults word base fields) :
    d.kind = .malformedParameter := by
  obtain ⟨i, -, f, -, -, rfl⟩ := mem_fieldFaults_iff.mp h
  rfl

theorem mem_readFields_faults_iff : d ∈ (readFields word base fields).2 ↔
    (∃ f, fields[Params.count]? = some f ∧ d = excessReport word base fields f) ∨
      ∃ i < Params.count, ∃ f, fields[i]? = some f ∧ number? f.trim = none ∧
        d = fieldReport word base fields i f := by
  rw [readFields_snd, List.mem_append, mem_fieldFaults_iff, Option.mem_toList,
    Option.map_eq_some_iff]
  simp only [eq_comm (b := d)]

/-- The categories of what is reported tell which fields are no numbers. -/
theorem kinds_fieldFaults (word : Text) (base : Int) (fields : List Text) :
    (fieldFaults word base fields).map Diagnostic.kind = (fields.take Params.count).filterMap
      fun f => if (number? f.trim).isSome then none else some .malformedParameter := by
  have hfields : fields.take Params.count =
      ((positions base (fields.take Params.count)).zipIdx.map Prod.fst).map Prod.snd := by
    rw [List.zipIdx_map_fst, map_snd_positions]
  rw [fieldFaults, take_positions, List.map_filterMap]
  conv_rhs => rw [hfields, List.filterMap_map, List.filterMap_map]
  apply List.filterMap_congr
  intro x _
  simp only [fieldFault?, Function.comp_apply]
  cases number? x.1.2.trim <;> rfl

end KineticText.Command
