import KineticText.Proofs.Command.Decoding

/-! Where the diagnostics of a command point: each to a place of its own behind the bracket. -/
namespace KineticText

/-- Two diagnostics differ in their category or in their place. -/
def Diagnostic.Apart (d e : Diagnostic) : Prop := d.kind ≠ e.kind ∨ d.offset ≠ e.offset

theorem Text.indent_le_length (s : Text) : s.indent ≤ s.length := by
  unfold indent
  split
  · exact Nat.zero_le _
  · exact (List.takeWhile_prefix _).length_le

/-- The diagnostic `k` characters further on. -/
def Diagnostic.shift (k : Int) (d : Diagnostic) : Diagnostic := { d with offset := d.offset + k }

namespace Command

variable {r : Registry} {raw word block : Text} {offset base : Int} {fields : List Text}
  {d : Diagnostic} {x : Int × Text} {n : Nat}

theorem point_bounds (x : Int × Text) : x.1 ≤ point x ∧ point x ≤ x.1 + x.2.length := by
  have hle := Text.indent_le_length x.2
  unfold point
  omega

theorem eq_of_block? (h : block? raw = some block) : raw = keyword raw ++ ':' :: block := by
  induction raw with
  | nil => simp [block?] at h
  | cons c raw ih =>
    by_cases hc : c = ':'
    · simpa [block?, keyword, hc] using h
    · have hrest : block? raw = some block := by simpa [block?, hc] using h
      simpa [keyword, hc] using ih hrest

/-! ### The fields of a block -/

/-- A field lies between the start of the block and its end. -/
theorem positions_bounds (h : x ∈ positions base fields) :
    base ≤ x.1 ∧ x.1 + x.2.length ≤ base + ([','].intercalate fields).length := by
  induction fields generalizing base with
  | nil => simp [positions] at h
  | cons f fs ih =>
    cases fs with
    | nil =>
      obtain rfl : x = (base, f) := by simpa [positions] using h
      simp
    | cons g fs =>
      have hlen : ([','].intercalate (f :: g :: fs)).length =
          f.length + 1 + ([','].intercalate (g :: fs)).length := by
        simp only [List.intercalate_cons_cons, List.length_append, List.length_singleton]
      rw [hlen]
      rcases List.mem_cons.mp h with rfl | h
      · dsimp only
        omega
      · obtain ⟨hstart, hend⟩ := ih h
        omega

/-- The places of the fields ascend. -/
theorem pairwise_positions (base : Int) (fields : List Text) :
    (positions base fields).Pairwise fun x y : Int × Text => x.1 + x.2.length < y.1 := by
  induction fields generalizing base with
  | nil => exact .nil
  | cons f fs ih =>
    refine List.pairwise_cons.mpr ⟨?_, ih _⟩
    intro y hy
    obtain ⟨hstart, -⟩ := positions_bounds hy
    dsimp only
    omega

/-- A diagnostic of a field points into the field. -/
theorem mem_readFields_faults (h : d ∈ (readFields word base fields).2) :
    ∃ x ∈ positions base fields, d.offset = point x ∧
      (d.kind = .malformedParameter ∨ d.kind = .tooManyParameters) := by
  have hmem {i : Nat} {f : Text} (hf : fields[i]? = some f) :
      (fieldStart base fields i, f) ∈ positions base fields := by
    apply List.mem_of_getElem? (i := i)
    rw [getElem?_positions, hf, Option.map_some]
  rcases mem_readFields_faults_iff.mp h with ⟨f, hf, rfl⟩ | ⟨i, -, f, hf, -, rfl⟩
  · exact ⟨_, hmem hf, rfl, .inr rfl⟩
  · exact ⟨_, hmem hf, rfl, .inl rfl⟩

/-- The fields that are no numbers are reported at places that ascend. -/
theorem pairwise_fieldFaults (word : Text) (base : Int) (fields : List Text) :
    (fieldFaults word base fields).Pairwise Diagnostic.Apart := by
  have hused : ((positions base fields).take Params.count).zipIdx.Pairwise
      fun a b => point a.1 < point b.1 := by
    rw [← List.pairwise_map (f := Prod.fst) (R := fun x y => point x < point y),
      List.zipIdx_map_fst]
    refine ((pairwise_positions base fields).sublist (List.take_sublist _ _)).imp ?_
    intro x y hxy
    have hx := point_bounds x
    have hy := point_bounds y
    omega
  refine hused.filterMap _ ?_
  rintro ⟨x, i⟩ ⟨y, j⟩ hxy d hd e he
  rw [(fieldFault?_eq_some_iff.mp hd).2, (fieldFault?_eq_some_iff.mp he).2]
  exact .inr (Int.ne_of_lt hxy)

/-- The fields past the last parameter are reported in one diagnostic of another category. -/
theorem pairwise_readFields_faults (word : Text) (base : Int) (fields : List Text) :
    (readFields word base fields).2.Pairwise Diagnostic.Apart := by
  rw [readFields_snd]
  refine List.pairwise_append.mpr ⟨?_, pairwise_fieldFaults word base fields, ?_⟩
  · cases fields[Params.count]? with
    | none => exact .nil
    | some f => exact List.pairwise_singleton _ _
  · intro d hd e he
    obtain ⟨f, -, rfl⟩ := Option.map_eq_some_iff.mp (Option.mem_toList.mp hd)
    left
    rw [kind_of_mem_fieldFaults he]
    exact nofun

/-! ### The command -/

/-- Nothing is reported of a command, or a block of one field, or what is wrong with fields. -/
theorem decode_faults_cases (r : Registry) (raw : Text) (offset : Int) :
    (decode r raw offset).2 = [] ∨ ∃ block, block? raw = some block ∧
      let base := offset + 1 + (keyword raw).length + 1
      (decode r raw offset).2 = [(Fault.loneField (name raw)).located <|
          if block.all Text.isBlank then point (offset + 1, keyword raw) else point (base, block)] ∨
        (decode r raw offset).2 = (readFields (name raw) base (block.splitOn ',')).2 := by
  simp only [decode, name]
  cases r.lookup (keyword raw).trim with
  | none => exact .inl rfl
  | some c =>
    cases block? raw with
    | none => exact .inl rfl
    | some block =>
      refine .inr ⟨block, rfl, ?_⟩
      dsimp only
      by_cases hlen : (block.splitOn ',').length < 2
      · rw [if_pos hlen]
        exact .inl rfl
      · rw [if_neg hlen]
        exact .inr rfl

theorem decode_faults_kind (h : d ∈ (decode r raw offset).2) :
    d.kind = .malformedParameter ∨ d.kind = .tooManyParameters := by
  rcases decode_faults_cases r raw offset with hnil | ⟨block, -, hlone | hfields⟩
  · rw [hnil] at h
    exact absurd h List.not_mem_nil
  · rw [hlone, List.mem_singleton] at h
    rw [h]
    exact .inl rfl
  · rw [hfields] at h
    obtain ⟨x, -, -, hk⟩ := mem_readFields_faults h
    exact hk

/-- The diagnostics of a tag point behind its `<`, and no further than the end of its content. -/
theorem decode_faults_bounds (h : d ∈ (decode r raw offset).2) :
    offset < d.offset ∧ d.offset ≤ offset + 1 + raw.length := by
  rcases decode_faults_cases r raw offset with hnil | ⟨block, hblock, hcase⟩
  · rw [hnil] at h
    exact absurd h List.not_mem_nil
  · have hlen : raw.length = (keyword raw).length + (block.length + 1) := by
      conv_lhs => rw [eq_of_block? hblock]
      simp
    rcases hcase with hlone | hfields
    · rw [hlone, List.mem_singleton] at h
      have hhead := point_bounds (offset + 1, keyword raw)
      have hbody := point_bounds (offset + 1 + (keyword raw).length + 1, block)
      dsimp only at hhead hbody
      subst h
      change offset < ite _ _ _ ∧ ite _ _ _ ≤ _
      split <;> omega
    · rw [hfields] at h
      obtain ⟨x, hx, hd, -⟩ := mem_readFields_faults h
      have hpoint := point_bounds x
      have hfield := positions_bounds hx
      rw [List.intercalate_splitOn] at hfield
      omega

theorem pairwise_decode_faults (r : Registry) (raw : Text) (offset : Int) :
    (decode r raw offset).2.Pairwise Diagnostic.Apart := by
  rcases decode_faults_cases r raw offset with hnil | ⟨block, -, hlone | hfields⟩
  · rw [hnil]
    exact .nil
  · rw [hlone]
    exact List.pairwise_singleton _ _
  · rw [hfields]
    exact pairwise_readFields_faults _ _ _

/-! ### The same command elsewhere -/

variable {k : Int}

theorem positions_add (base k : Int) (fields : List Text) :
    positions (base + k) fields = (positions base fields).map fun x => (x.1 + k, x.2) := by
  induction fields generalizing base with
  | nil => rfl
  | cons f fs ih =>
    have hnext : base + k + f.length + 1 = base + f.length + 1 + k := by omega
    rw [positions, positions, List.map_cons, hnext, ih]

theorem fieldStart_add (base k : Int) (fields : List Text) (i : Nat) :
    fieldStart (base + k) fields i = fieldStart base fields i + k := by
  simp only [fieldStart]
  omega

theorem point_add (x : Int × Text) : point (x.1 + k, x.2) = point x + k := by
  simp only [point]
  omega

theorem fieldFault?_add {i : Nat} (x : Int × Text) :
    fieldFault? word i (x.1 + k, x.2) = (fieldFault? word i x).map (Diagnostic.shift k) := by
  unfold fieldFault?
  cases number? x.2.trim with
  | some v => rfl
  | none => simp [Fault.located, Diagnostic.shift, point_add]

theorem fieldFaults_add (word : Text) (base k : Int) (fields : List Text) :
    fieldFaults word (base + k) fields =
      (fieldFaults word base fields).map (Diagnostic.shift k) := by
  simp only [fieldFaults, positions_add, ← List.map_take, List.zipIdx_map, List.filterMap_map,
    List.map_filterMap]
  apply List.filterMap_congr
  rintro ⟨x, i⟩ _
  exact fieldFault?_add x

theorem readFields_add (word : Text) (base k : Int) (fields : List Text) :
    readFields word (base + k) fields =
      ((readFields word base fields).1, (readFields word base fields).2.map (Diagnostic.shift k)) := by
  have hexcess (f : Text) : excessReport word (base + k) fields f =
      (excessReport word base fields f).shift k := by
    rw [excessReport, fieldStart_add, Int.add_right_comm]
    rfl
  refine Prod.ext ?_ ?_
  · rw [readFields_fst, readFields_fst]
  · rw [readFields_snd, readFields_snd, fieldFaults_add, List.map_append]
    cases fields[Params.count]? with
    | none => rfl
    | some f => simp only [Option.map_some, Option.toList_some, List.map_singleton, hexcess]

/-- A command means the same wherever it stands, and its diagnostics point to the same place of
it. -/
theorem decode_add (r : Registry) (raw : Text) (offset k : Int) :
    decode r raw (offset + k) =
      ((decode r raw offset).1, (decode r raw offset).2.map (Diagnostic.shift k)) := by
  simp only [decode]
  cases r.lookup (keyword raw).trim with
  | none => rfl
  | some c =>
    cases block? raw with
    | none => rfl
    | some block =>
      have hbase : offset + k + 1 + (keyword raw).length + 1 =
          offset + 1 + (keyword raw).length + 1 + k := by omega
      have hkeyword : point (offset + k + 1, keyword raw) = point (offset + 1, keyword raw) + k := by
        rw [← point_add, Int.add_right_comm]
      dsimp only
      rw [hbase, readFields_add, hkeyword, point_add (k := k) (_, block)]
      by_cases hlen : (block.splitOn ',').length < 2
      · rw [if_pos hlen, if_pos hlen]
        by_cases hblank : block.all Text.isBlank
        · simp [hblank, Fault.located, Diagnostic.shift]
        · simp [hblank, Fault.located, Diagnostic.shift]
      · rw [if_neg hlen, if_neg hlen]

theorem decode_command (r : Registry) (raw : Text) (offset offset' : Int) :
    (decode r raw offset).1 = (decode r raw offset').1 := by
  have h := decode_add r raw offset (offset' - offset)
  rw [show offset + (offset' - offset) = offset' by omega] at h
  rw [h]

end Command
end KineticText
