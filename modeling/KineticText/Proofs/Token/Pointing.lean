import KineticText.Proofs.Command.Parts
import KineticText.Proofs.Token.Diagnosis

/-! What is reported of the parameters of a tag points to the field in the source that is wrong. -/
namespace KineticText

/-- The offset is the position of the first character of `w` that is not white space, where `w`
stands in the source behind `before`. -/
structure MarksInk (source before w : Text) (offset : Int) : Prop where
  stands : before ++ w <+: source
  first : ∃ u c v, w = u ++ c :: v ∧ (∀ x ∈ u, Text.isBlank x) ∧ ¬ Text.isBlank c ∧
    offset = before.length + u.length
  /-- From there on the source reads as the trimmed text. -/
  reads : ∃ n : Nat, offset = n ∧ w.trim <+: source.drop n

/-- The offset is that of a field that stands in the source behind `before`. -/
structure MarksField (source before field : Text) (separator : Char) (offset : Int) : Prop where
  inked : ¬ field.all Text.isBlank → MarksInk source before field offset
  /-- A blank field is marked just behind the colon or the comma before it. -/
  blank : field.all Text.isBlank →
    before ++ field <+: source ∧ before.getLast? = some separator ∧ offset = before.length

namespace Command

/-- What stands in a command before a field: the keyword, the colon, and the fields before it. -/
def ahead (head : Text) (fields : List Text) (i : Nat) : Text :=
  head ++ ':' :: (fields.take i).flatMap (· ++ [','])

/-- The diagnostic is about a field of the command `p` in the tag that stands in the source behind
`before`, and it points there. -/
inductive PointsAt (source before : Text) (p : Parts) : Diagnostic → Prop where
  | number {fs : List Text} {i : Nat} {f : Text} {o : Int} (hf : p.fields = some fs)
      (hlen : 2 ≤ fs.length) (hi : i < Params.count) (hget : fs[i]? = some f)
      (hn : number? f.trim = none)
      (ho : MarksField source (before ++ '<' :: ahead p.head fs i) f
        (if i = 0 then ':' else ',') o) :
      PointsAt source before p ((Fault.notNumber p.head.trim (i + 1) f.trim).located o)
  | excess {fs : List Text} {f : Text} {o : Int} (hf : p.fields = some fs)
      (hget : fs[Params.count]? = some f)
      (ho : MarksField source (before ++ '<' :: ahead p.head fs Params.count) f ',' o) :
      PointsAt source before p
        ((Fault.extraFields p.head.trim Params.count fs.length).located o)
  | lone {f : Text} {o : Int} (hf : p.fields = some [f]) (hink : ¬ f.all Text.isBlank)
      (ho : MarksInk source (before ++ '<' :: ahead p.head [f] 0) f o) :
      PointsAt source before p ((Fault.loneField p.head.trim).located o)
  /-- Of a blank block the keyword is marked, and if that is blank too, the place behind `<`. -/
  | blank {f : Text} {o : Int} (hf : p.fields = some [f]) (hblank : f.all Text.isBlank)
      (hhead : ¬ p.head.all Text.isBlank → MarksInk source (before ++ ['<']) p.head o)
      (hnone : p.head.all Text.isBlank → o = before.length + 1) :
      PointsAt source before p ((Fault.loneField p.head.trim).located o)

variable {r : Registry} {source before rest w f : Text} {offset o : Int} {p : Parts} {d : Diagnostic}
  {fields : List Text} {i : Nat} {c : Char}

/-! ### The places of the fields -/

theorem marksInk_of_stands (hs : before ++ w <+: source) (hw : ¬ w.all Text.isBlank) :
    MarksInk source before w (before.length + w.indent) := by
  obtain ⟨u, c, v, huv, hu, hc, hindent, htrim⟩ := Text.exists_indent hw
  refine ⟨hs, ⟨u, c, v, huv, hu, hc, by rw [hindent]⟩, (before ++ u).length, ?_, ?_⟩
  · rw [hindent, List.length_append]
    rfl
  · obtain ⟨rest, rfl⟩ := hs
    conv_rhs => rw [huv]
    rw [← List.append_assoc before u, List.append_assoc, List.drop_left]
    exact htrim.trans (List.prefix_append _ _)

theorem marksField_of_stands (hs : before ++ f <+: source) (hc : before.getLast? = some c) :
    MarksField source before f c (before.length + f.indent) := by
  refine ⟨marksInk_of_stands hs, fun hblank => ⟨hs, hc, ?_⟩⟩
  rw [Text.indent, if_pos hblank]
  exact Int.add_zero _

theorem length_ahead (head : Text) (h : i ≤ fields.length) :
    (ahead head fields i).length = head.length + 1 + (fields.take i).flatten.length + i := by
  have hsum (gs : List Text) : (gs.flatMap (· ++ [','])).length = gs.flatten.length + gs.length := by
    induction gs with
    | nil => rfl
    | cons g gs ih =>
      simp only [List.flatMap_cons, List.flatten_cons, List.length_append, List.length_cons,
        List.length_nil, ih]
      omega
  rw [ahead, List.length_append, List.length_cons, hsum, List.length_take_of_le h]
  omega

/-- A field is marked where its place in the block says. -/
theorem fieldStart_eq (before head : Text) (h : i ≤ fields.length) :
    fieldStart (before.length + 1 + head.length + 1) fields i =
      (before ++ '<' :: ahead head fields i).length := by
  rw [List.length_append, List.length_cons, length_ahead head h, fieldStart]
  push_cast
  omega

theorem flatMap_take_isPrefix (hf : fields[i]? = some f) :
    (fields.take i).flatMap (· ++ [',']) ++ f <+: [','].intercalate fields := by
  induction fields generalizing i with
  | nil => exact nomatch hf
  | cons g fields ih =>
    cases i with
    | zero =>
      obtain rfl : g = f := by simpa using hf
      cases fields with
      | nil => simp
      | cons h fields => simp [List.intercalate_cons_cons]
    | succ i =>
      have hrest := ih (i := i) (by simpa using hf)
      cases fields with
      | nil => exact nomatch hf
      | cons h fields =>
        rw [List.take_succ_cons, List.flatMap_cons, List.intercalate_cons_cons, List.append_assoc]
        exact (List.prefix_append_right_inj _).mpr hrest

/-- A field stands in the text of its command behind what is ahead of it. -/
theorem ahead_append_isPrefix {fs : List Text} (hp : p.fields = some fs) (hf : fs[i]? = some f) :
    ahead p.head fs i ++ f <+: p.text := by
  rw [Parts.text, hp, join, ahead, List.append_assoc, List.prefix_append_right_inj, List.cons_append,
    List.cons_prefix_cons]
  exact ⟨rfl, flatMap_take_isPrefix hf⟩

theorem getLast?_ahead (head : Text) (h : i ≤ fields.length) :
    (ahead head fields i).getLast? = some (if i = 0 then ':' else ',') := by
  rw [ahead]
  cases i with
  | zero => simp
  | succ i =>
    have hsplit : (fields.take (i + 1)).flatMap (· ++ [',']) =
        (fields.take i).flatMap (· ++ [',']) ++ fields[i] ++ [','] := by
      rw [List.take_succ_eq_append_getElem h, List.flatMap_append, List.flatMap_singleton,
        List.append_assoc]
    rw [hsplit, ← List.cons_append, ← List.append_assoc, List.getLast?_concat]
    rfl

/-! ### The diagnostics -/

/-- A field is marked in the source where its place and its indent say. -/
theorem marksField_fieldStart {fs : List Text} (hs : before ++ '<' :: p.text <+: source)
    (hp : p.fields = some fs) (hf : fs[i]? = some f) :
    MarksField source (before ++ '<' :: ahead p.head fs i) f (if i = 0 then ':' else ',')
      (fieldStart (before.length + 1 + p.head.length + 1) fs i + f.indent) := by
  obtain ⟨hi, -⟩ := List.getElem?_eq_some_iff.mp hf
  rw [fieldStart_eq before p.head hi.le]
  apply marksField_of_stands
  · rw [List.append_assoc, List.cons_append]
    refine List.IsPrefix.trans ?_ hs
    rw [List.prefix_append_right_inj, List.cons_prefix_cons]
    exact ⟨rfl, ahead_append_isPrefix hp hf⟩
  · rw [List.getLast?_append, List.getLast?_cons, getLast?_ahead p.head hi.le]
    rfl

theorem marksInk_keyword (hs : before ++ '<' :: p.text <+: source)
    (hk : ¬ p.head.all Text.isBlank) :
    MarksInk source (before ++ ['<']) p.head (point (before.length + 1, p.head)) := by
  have hstands : before ++ ['<'] ++ p.head <+: source := by
    refine List.IsPrefix.trans ?_ hs
    rw [List.append_assoc, List.prefix_append_right_inj, List.singleton_append,
      List.cons_prefix_cons]
    exact ⟨rfl, p.head_isPrefix⟩
  have hmarks := marksInk_of_stands hstands hk
  rw [List.length_append, List.length_singleton] at hmarks
  exact_mod_cast hmarks

theorem point_of_blank (start : Int) (hblank : w.all Text.isBlank) : point (start, w) = start := by
  rw [point, Text.indent, if_pos hblank]
  exact Int.add_zero start

/-- What is reported of a command points to its place in the source. -/
theorem pointsAt_of_mem_decode (hs : before ++ '<' :: p.text <+: source)
    (hd : d ∈ (decode r p.text before.length).2) : PointsAt source before p d := by
  obtain ⟨-, fs, hf, ⟨f, rfl, rfl⟩ | ⟨hlen, hd⟩⟩ := Parts.mem_decode_iff.mp hd
  · by_cases hblank : f.all Text.isBlank
    · rw [if_pos hblank]
      exact .blank hf hblank (marksInk_keyword hs) (point_of_blank _)
    · rw [if_neg hblank]
      have hmarks := (marksField_fieldStart hs hf (i := 0) rfl).inked hblank
      rw [fieldStart_zero] at hmarks
      exact .lone hf hblank hmarks
  · rcases mem_readFields_faults_iff.mp hd with ⟨f, hget, rfl⟩ | ⟨i, hi, f, hget, hn, rfl⟩
    · exact .excess hf hget (marksField_fieldStart hs hf hget)
    · exact .number hf hlen hi hget hn (marksField_fieldStart hs hf hget)

end Command

/-- A piece with something wrong in its parameters is a tag, whose command tells it. -/
theorem Piece.exists_decode_of_kind {r : Registry} {n : Nat} {q : Piece} {d : Diagnostic}
    (h : d ∈ q.strays n ++ q.endFaults r n)
    (hk : d.kind = .malformedParameter ∨ d.kind = .tooManyParameters) :
    ∃ c closed, q = .tag c closed ∧ d ∈ (Command.decode r c n).2 := by
  cases q with
  | text w =>
    rcases List.mem_append.mp h with h | h
    · obtain ⟨i, -, rfl⟩ := List.mem_map.mp h
      exact absurd hk (by simp [Fault.located, Fault.kind])
    · exact absurd h List.not_mem_nil
  | tag c closed =>
    refine ⟨c, closed, rfl, ?_⟩
    rcases List.mem_append.mp h with h | h
    · obtain ⟨i, -, rfl⟩ := List.mem_map.mp h
      exact absurd hk (by simp [Fault.located, Fault.kind])
    · rcases List.mem_append.mp h with h | h
      · cases closed with
        | true => exact absurd h List.not_mem_nil
        | false =>
          obtain rfl := List.mem_singleton.mp h
          exact absurd hk (by simp [Fault.located, Fault.kind])
      · exact h

/-- What is reported of the parameters of a source's tags is reported of its directives, and all
that is reported of one points to its place in the source. -/
theorem tokenize_points (r : Registry) (source : Text) :
    (∀ d ∈ (tokenize r source).2, d.kind = .malformedParameter ∨ d.kind = .tooManyParameters →
      ∃ t ∈ (tokenize r source).1, t.isDirective ∧ d ∈ (Command.decode r t.content t.offset).2) ∧
    ∀ t ∈ (tokenize r source).1, t.isDirective →
      ∀ d ∈ (Command.decode r t.content t.offset).2, d ∈ (tokenize r source).2 ∧
        ∃ before p, t.offset = before.length ∧ before ++ t.source <+: source ∧
          p.text = t.content ∧ Command.PointsAt source before p d := by
  obtain ⟨ps, -, rfl, he⟩ := tokenize_eq r source
  rw [he]
  constructor
  · intro d hd hk
    obtain ⟨⟨n, q⟩, hq, hd⟩ := List.mem_flatMap.mp hd
    obtain ⟨c, closed, rfl, hd⟩ := Piece.exists_decode_of_kind hd hk
    exact ⟨_, List.mem_map_of_mem hq, rfl, hd⟩
  · intro t ht hdir d hd
    obtain ⟨⟨n, q⟩, hq, rfl⟩ := List.mem_map.mp ht
    obtain ⟨qs, rs, rfl, rfl⟩ := mem_located hq
    cases q with
    | text w => exact nomatch hdir
    | tag c closed =>
      rw [Nat.zero_add] at hq hd ⊢
      have hstands : render qs ++ (Piece.tag c closed).source <+:
          render (qs ++ .tag c closed :: rs) := by
        rw [render_append, render_cons, List.prefix_append_right_inj]
        exact List.prefix_append _ _
      refine ⟨?_, render qs, .ofText c, rfl, ?_, Command.Parts.text_ofText c, ?_⟩
      · exact List.mem_flatMap.mpr ⟨_, hq, List.mem_append_right _ (List.mem_append_right _ hd)⟩
      · rw [Piece.source_token]
        exact hstands
      · apply Command.pointsAt_of_mem_decode
        · rw [Command.Parts.text_ofText]
          refine List.IsPrefix.trans ?_ hstands
          rw [List.prefix_append_right_inj]
          exact List.prefix_append _ _
        · rw [Command.Parts.text_ofText]
          exact hd

/-- Four tags on whose parameters something is reported, the last of them cut off. -/
def ragged : Text := "a<wave: x ,,3,4,5,6, y>b < wave :\t> c<wave:\t9> <wave : <,".toList

theorem tokenize_points_ragged :
    ((tokenize .standard ragged).2.map fun d => (d.kind, d.offset)) =
      [(.tooManyParameters, 21), (.malformedParameter, 8), (.malformedParameter, 11),
        (.malformedParameter, 27), (.malformedParameter, 44), (.unclosedTag, 55),
        (.unclosedTag, 47), (.malformedParameter, 55), (.malformedParameter, 57)] ∧
    ∃ before p, before ++ '<' :: p.text <+: ragged ∧ Command.PointsAt ragged before p
      ((Fault.notNumber "wave".toList 2 []).located 57) := by
  refine ⟨by decide +kernel, ?_⟩
  obtain ⟨hreported, hpoints⟩ := tokenize_points .standard ragged
  obtain ⟨t, ht, hdir, hd⟩ := hreported ((Fault.notNumber "wave".toList 2 []).located 57)
    (by decide +kernel) (.inl rfl)
  obtain ⟨-, before, p, -, hs, hp, hat⟩ := hpoints t ht hdir _ hd
  refine ⟨before, p, ?_, hat⟩
  refine List.IsPrefix.trans ?_ hs
  rw [Token.source, if_pos hdir, hp, List.prefix_append_right_inj]
  exact List.prefix_append _ _

end KineticText
