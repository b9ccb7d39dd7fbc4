import KineticText.Proofs.Command.Parts

/-! Every field of a command is accounted for. It gives its parameter, or is reported once and leaves
the parameter unset, or it has no parameter. -/
namespace KineticText

/-- The diagnostic is of a bad number and points into the text that begins at `start`. -/
def Diagnostic.OfField (start : Int) (f : Text) (d : Diagnostic) : Prop :=
  d.kind = .malformedParameter ∧ start ≤ d.offset ∧ d.offset ≤ start + f.length

instance (start : Int) (f : Text) (d : Diagnostic) : Decidable (d.OfField start f) :=
  inferInstanceAs (Decidable (_ ∧ _))

namespace Command

variable {r : Registry} {word : Text} {base offset : Int} {fields : List Text} {i j : Nat}
  {f g : Text} {d : Diagnostic} {p : Parts}

/-- The parameters and the diagnostics that are due to the fields of a block. -/
structure FieldsRead (word : Text) (base : Int) (fields : List Text) (params : Params (Option Float))
    (found : List Diagnostic) : Prop where
  /-- A parameter is the number in its field, and is unset without one. -/
  value : ∀ i < Params.count, params.toList[i]? = some (fields[i]?.bind fun f => number? f.trim)
  /-- A field that leaves its parameter unset is reported once, and no other field is. -/
  reported : ∀ i < Params.count, ∀ f, fields[i]? = some f →
    found.countP (Diagnostic.OfField (fieldStart base fields i) f) =
      if params.toList[i]? = some none then 1 else 0
  /-- Fields in excess are reported once. -/
  excess : found.countP (·.kind = .tooManyParameters) = if Params.count < fields.length then 1 else 0
  /-- They are reported first. -/
  first : found.Pairwise fun _ e => e.kind ≠ .tooManyParameters
  /-- Nothing else is reported. -/
  only : ∀ d ∈ found,
    (∃ f, fields[Params.count]? = some f ∧ d = excessReport word base fields f) ∨
      ∃ i < Params.count, ∃ f, fields[i]? = some f ∧ d = fieldReport word base fields i f

/-! ### The places of the fields -/

/-- A field ends before the next begins. -/
theorem fieldStart_lt (base : Int) (hf : fields[i]? = some f) (hij : i < j) :
    fieldStart base fields i + f.length < fieldStart base fields j := by
  induction fields generalizing base i j with
  | nil => exact nomatch hf
  | cons h fields ih =>
    obtain ⟨j, rfl⟩ := Nat.exists_eq_succ_of_ne_zero (Nat.ne_zero_of_lt hij)
    rw [fieldStart_cons]
    cases i with
    | zero =>
      obtain rfl : h = f := by simpa using hf
      simp only [fieldStart, List.take_zero, List.flatten_nil, List.length_nil]
      omega
    | succ i =>
      rw [fieldStart_cons]
      exact ih _ (by simpa using hf) (by omega)

theorem ofField_fieldReport (word : Text) (base : Int) (fields : List Text) (i : Nat) (f : Text) :
    (fieldReport word base fields i f).OfField (fieldStart base fields i) f := by
  have hindent := Text.indent_le_length f
  refine ⟨rfl, ?_, ?_⟩
  · simp only [fieldReport, Fault.located]
    omega
  · simp only [fieldReport, Fault.located]
    omega

/-- A report is of no other field than its own. -/
theorem eq_of_ofField_fieldReport (hf : fields[i]? = some f) (hg : fields[j]? = some g)
    (h : (fieldReport word base fields j g).OfField (fieldStart base fields i) f) : j = i := by
  obtain ⟨-, hstart, hend⟩ := h
  obtain ⟨-, hstart', hend'⟩ := ofField_fieldReport word base fields j g
  rcases Nat.lt_trichotomy i j with hij | rfl | hji
  · have hlt := fieldStart_lt base hf hij
    omega
  · rfl
  · have hlt := fieldStart_lt base hg hji
    omega

/-! ### The fields of a block -/

/-- What is reported of bad numbers does not depend on the fields past the sixth. -/
theorem fieldFaults_append {used extra : List Text} (h : used.length = Params.count) :
    fieldFaults word base (used ++ extra) = fieldFaults word base used := by
  rw [fieldFaults, fieldFaults, take_positions, take_positions, List.take_append_of_le_length h.ge]

theorem filter_readFields_faults : (readFields word base fields).2.filter
    (·.kind = .malformedParameter) = fieldFaults word base fields := by
  have hextra : (fields[Params.count]?.map (excessReport word base fields)).toList.filter
      (·.kind = .malformedParameter) = [] := by
    cases fields[Params.count]? <;> rfl
  rw [readFields_snd, List.filter_append, hextra, List.nil_append, List.filter_eq_self]
  intro d hd
  exact decide_eq_true (kind_of_mem_fieldFaults hd)

theorem kinds_readFields (word word' : Text) (base base' : Int) (fields : List Text) :
    (readFields word' base' fields).2.map Diagnostic.kind =
      (readFields word base fields).2.map Diagnostic.kind := by
  rw [readFields_snd, readFields_snd, List.map_append, List.map_append, kinds_fieldFaults,
    kinds_fieldFaults]
  cases fields[Params.count]? <;> rfl

theorem nodup_readFields_faults (word : Text) (base : Int) (fields : List Text) :
    (readFields word base fields).2.Nodup := by
  refine (pairwise_readFields_faults word base fields).imp ?_
  rintro d e (hkind | hoffset) rfl
  · exact hkind rfl
  · exact hoffset rfl

/-- What holds of one diagnostic only is counted once if that is there. -/
theorem countP_readFields_faults {a : Diagnostic} {P : Diagnostic → Prop} [DecidablePred P]
    (h : ∀ d ∈ (readFields word base fields).2, P d ↔ d = a) :
    (readFields word base fields).2.countP P =
      if a ∈ (readFields word base fields).2 then 1 else 0 := by
  rw [← (nodup_readFields_faults word base fields).count, List.count]
  exact List.countP_congr fun d hd => by simpa using h d hd

theorem getElem?_readFields (word : Text) (base : Int) (fields : List Text)
    (hi : i < Params.count) : (readFields word base fields).1.toList[i]? =
      some (fields[i]?.bind fun f => number? f.trim) := by
  rw [readFields_fst, toList_ofList, List.getElem?_map, List.getElem?_range hi, Option.map_some,
    List.getElem?_map, List.getElem?_take, if_pos hi, List.getElem?_map]
  cases fields[i]? <;> rfl

/-- The fields of a block are accounted for. -/
theorem fieldsRead_readFields (word : Text) (base : Int) (fields : List Text) :
    FieldsRead word base fields (readFields word base fields).1
      (readFields word base fields).2 where
  value i hi := getElem?_readFields word base fields hi
  reported i hi f hf := by
    have hown : fieldReport word base fields i f ∈ (readFields word base fields).2 ↔
        number? f.trim = none := by
      rw [mem_readFields_faults_iff]
      constructor
      · rintro (⟨g, -, he⟩ | ⟨j, -, g, hg, hn, he⟩)
        · exact nomatch congrArg Diagnostic.kind he
        · obtain rfl := eq_of_ofField_fieldReport hf hg (he ▸ ofField_fieldReport ..)
          obtain rfl : f = g := Option.some.inj (hf.symm.trans hg)
          exact hn
      · exact fun hn => .inr ⟨i, hi, f, hf, hn, rfl⟩
    rw [countP_readFields_faults (a := fieldReport word base fields i f)]
    · simp only [hown, getElem?_readFields word base fields hi, hf, Option.bind_some,
        Option.some.injEq]
    · intro d hd
      constructor
      · intro h
        rcases mem_readFields_faults_iff.mp hd with ⟨g, -, rfl⟩ | ⟨j, -, g, hg, -, rfl⟩
        · exact nomatch h.1
        · obtain rfl := eq_of_ofField_fieldReport hf hg h
          rw [Option.some.inj (hf.symm.trans hg)]
      · rintro rfl
        exact ofField_fieldReport ..
  excess := by
    have hnone : (fieldFaults word base fields).countP (·.kind = .tooManyParameters) = 0 := by
      rw [List.countP_eq_zero]
      intro d hd
      simp [kind_of_mem_fieldFaults hd]
    rw [readFields_snd, List.countP_append, hnone]
    by_cases hlen : Params.count < fields.length
    · rw [if_pos hlen, List.getElem?_eq_getElem hlen]
      rfl
    · rw [if_neg hlen, List.getElem?_eq_none (by omega)]
      rfl
  first := by
    rw [readFields_snd]
    refine List.pairwise_append.mpr ⟨?_, ?_, ?_⟩
    · cases fields[Params.count]? with
      | none => exact .nil
      | some f => exact List.pairwise_singleton _ _
    · refine (List.pairwise_of_forall_mem_list ?_)
      intro d _ e he
      simp [kind_of_mem_fieldFaults he]
    · intro d _ e he
      simp [kind_of_mem_fieldFaults he]
  only d hd := by
    rcases mem_readFields_faults_iff.mp hd with h | ⟨i, hi, f, hf, -, rfl⟩
    · exact .inl h
    · exact .inr ⟨i, hi, f, hf, rfl⟩

/-! ### The command -/

/-- What the parts of a command make of it, and what is reported. -/
inductive Reads (r : Registry) (offset : Int) (p : Parts) : Command → List Diagnostic → Prop where
  /-- Nothing behind an unregistered keyword matters. -/
  | native (hc : r.lookup p.head.trim = none) : Reads r offset p { codeword := .native } []
  | bare {c : Codeword} (hc : r.lookup p.head.trim = some c) (hf : p.fields = none) :
      Reads r offset p { codeword := c } []
  /-- One field is not enough. -/
  | lone {c : Codeword} {fs : List Text} {d : Diagnostic} (hc : r.lookup p.head.trim = some c)
      (hf : p.fields = some fs) (hlen : fs.length < 2) (hd : d.kind = .malformedParameter) :
      Reads r offset p { codeword := c } [d]
  | fields {c : Codeword} {fs : List Text} {params : Params (Option Float)}
      {found : List Diagnostic} (hc : r.lookup p.head.trim = some c) (hf : p.fields = some fs)
      (hlen : 2 ≤ fs.length)
      (hread : FieldsRead p.head.trim (offset + 1 + p.head.length + 1) fs params found) :
      Reads r offset p { codeword := c, params } found

theorem reads_decode (r : Registry) (p : Parts) (offset : Int) :
    Reads r offset p (decode r p.text offset).1 (decode r p.text offset).2 := by
  cases hc : r.lookup p.head.trim with
  | none =>
    rw [p.decode_text, hc]
    exact .native hc
  | some c =>
    cases hf : p.fields with
    | none =>
      rw [p.decode_text, hc, hf]
      exact .bare hc hf
    | some fs =>
      by_cases hlen : fs.length < 2
      · rw [p.decode_text, hc, hf]
        dsimp only
        rw [if_pos hlen]
        exact .lone hc hf hlen rfl
      · have hlen : 2 ≤ fs.length := by omega
        rw [Parts.decode_of_fields hc hf hlen]
        exact .fields hc hf hlen (fieldsRead_readFields _ _ _)

/-- The categories of what is reported depend on what the keyword is registered for and on the
fields. -/
theorem kinds_decode_text {q : Parts} (hl : r.lookup q.head.trim = r.lookup p.head.trim)
    (hf : q.fields = p.fields) (offset : Int) :
    (decode r q.text offset).2.map Diagnostic.kind =
      (decode r p.text offset).2.map Diagnostic.kind := by
  rw [q.decode_text, p.decode_text, hl, hf]
  cases r.lookup p.head.trim with
  | none => rfl
  | some c =>
    cases p.fields with
    | none => rfl
    | some fs =>
      dsimp only
      split
      · rfl
      · exact kinds_readFields ..

/-- Whatever is past the sixth field, the command is the same, and so is what is reported of bad
numbers. -/
theorem decode_excess {q : Parts} {used extra extra' : List Text} (hhead : q.head = p.head)
    (hused : used.length = Params.count) (hp : p.fields = some (used ++ extra))
    (hq : q.fields = some (used ++ extra')) :
    (decode r q.text offset).1 = (decode r p.text offset).1 ∧
      (decode r q.text offset).2.filter (·.kind = .malformedParameter) =
        (decode r p.text offset).2.filter (·.kind = .malformedParameter) := by
  have htake (extra : List Text) : ((used ++ extra).map Text.trim).take Params.count =
      used.map Text.trim := by
    rw [← List.map_take, List.take_left' hused]
  cases hc : r.lookup p.head.trim with
  | none =>
    rw [p.decode_text, q.decode_text, hhead, hc]
    exact ⟨rfl, rfl⟩
  | some c =>
    have hlen (extra : List Text) : 2 ≤ (used ++ extra).length := by
      rw [List.length_append, hused, Params.count]
      omega
    rw [Parts.decode_of_fields hc hp (hlen _),
      Parts.decode_of_fields (hhead ▸ hc : r.lookup q.head.trim = some c) hq (hlen _), hhead]
    simp only [readFields_fst, htake, filter_readFields_faults, fieldFaults_append hused,
      and_self]

/-- Every field of a command is accounted for: it gives its parameter, or is reported once and
leaves the parameter unset, or is one in excess. Neither what the fields in excess hold nor white
space around the keyword or a field changes the command. -/
theorem decode_accounted (r : Registry) (raw : Text) (offset : Int) :
    ∃ p : Parts, p.text = raw ∧ (∀ q : Parts, q.text = raw → q = p) ∧
      Reads r offset p (decode r raw offset).1 (decode r raw offset).2 ∧
      (∀ q : Parts, q.head = p.head → ∀ used extra extra', used.length = Params.count →
        p.fields = some (used ++ extra) → q.fields = some (used ++ extra') →
        (decode r q.text offset).1 = (decode r raw offset).1 ∧
          (decode r q.text offset).2.filter (·.kind = .malformedParameter) =
            (decode r raw offset).2.filter (·.kind = .malformedParameter)) ∧
      ∀ head fields, p.head.Padded head → Option.Rel (List.Forall₂ Text.Padded) p.fields fields →
        (decode r (join head fields) offset).1 = (decode r raw offset).1 := by
  obtain ⟨p, rfl⟩ : ∃ p : Parts, p.text = raw := ⟨.ofText raw, Parts.text_ofText raw⟩
  refine ⟨p, rfl, fun q hq => Parts.text_injective hq, reads_decode r p offset, ?_, ?_⟩
  · intro q hhead used extra extra' hused hp hq
    exact decode_excess hhead hused hp hq
  · intro head fields hhead hfields
    obtain ⟨q, rfl, rfl⟩ := Parts.exists_padded hhead hfields
    apply Parts.decode_text_fst
    · rw [hhead.trim_eq]
    · generalize p.fields = fields at hfields ⊢
      generalize q.fields = fields' at hfields ⊢
      cases hfields with
      | none => rfl
      | some h => simp only [Option.map_some, Text.map_trim_of_padded h]

/-- Six fields with white space around them; the second is no number and the third is blank. -/
def spacedFields : List Text :=
  [[' ', '1', ' '], [' ', 'x'], [], [' ', '4'], ['5'], ['\t', '6']]

/-- Two fields more than there are parameters. -/
def crowded : Text :=
  join ([' '] ++ "wave".toList ++ [' ']) (some (spacedFields ++ [['7', ' '], "eight".toList]))

theorem decode_accounted_crowded :
    Reads .standard 0 (.ofText crowded) (decode .standard crowded 0).1
      (decode .standard crowded 0).2 ∧
    (decode .standard crowded 0).2.map Diagnostic.offset = [24, 13, 15] ∧
    (decode .standard crowded 0).1 = (decode .standard "wave:1,x,,4,5,6".toList 0).1 := by
  obtain ⟨p, hp, huniq, hreads, hexcess, -⟩ := decode_accounted .standard crowded 0
  obtain rfl := huniq (.ofText crowded) (Parts.text_ofText crowded)
  obtain ⟨q, -, hq, -, -, hpadded⟩ := decode_accounted .standard "wave:1,x,,4,5,6".toList 0
  obtain rfl := hq (.ofText "wave:1,x,,4,5,6".toList) (Parts.text_ofText _)
  refine ⟨hreads, by decide +kernel, ?_⟩
  have hsix := hexcess (.ofText (join ([' '] ++ "wave".toList ++ [' ']) (some spacedFields)))
    (by decide +kernel) spacedFields [['7', ' '], "eight".toList] [] rfl (by decide +kernel)
    (by decide +kernel)
  have hpad (u s v : Text) (hu : u.all Text.isBlank) (hv : v.all Text.isBlank) :
      s.Padded (u ++ s ++ v) := ⟨u, v, rfl, List.all_eq_true.mp hu, List.all_eq_true.mp hv⟩
  have hhead : (Parts.ofText "wave:1,x,,4,5,6".toList).head = "wave".toList := by decide +kernel
  have hfields : (Parts.ofText "wave:1,x,,4,5,6".toList).fields =
      some [['1'], ['x'], [], ['4'], ['5'], ['6']] := by decide +kernel
  have hspaced : List.Forall₂ Text.Padded [['1'], ['x'], [], ['4'], ['5'], ['6']] spacedFields :=
    .cons (hpad [' '] ['1'] [' '] rfl rfl) <| .cons (hpad [' '] ['x'] [] rfl rfl) <|
      .cons (hpad [] [] [] rfl rfl) <| .cons (hpad [' '] ['4'] [] rfl rfl) <|
      .cons (hpad [] ['5'] [] rfl rfl) <| .cons (hpad ['\t'] ['6'] [] rfl rfl) .nil
  have hplain := hpadded ([' '] ++ "wave".toList ++ [' ']) (some spacedFields)
    (hhead ▸ hpad [' '] "wave".toList [' '] rfl rfl) (hfields ▸ .some hspaced)
  rw [← hsix.1, ← hplain, Parts.text_ofText]

end Command
end KineticText
