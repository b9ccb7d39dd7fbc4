import KineticText.Proofs.Command.Places
import KineticText.Proofs.Text.Marks

/-! The parts of a command: its keyword and, behind the first colon, the fields between commas.
Every text is made of such parts in one way, and decoding goes by them. -/
namespace KineticText

/-- The text `t` is `s` with white space added before or behind it. -/
def Text.Padded (s t : Text) : Prop :=
  ∃ u v, t = u ++ s ++ v ∧ (∀ c ∈ u, isBlank c) ∧ ∀ c ∈ v, isBlank c

theorem Text.trimBy_append_run {p : Char → Bool} {s u v : Text} (hu : ∀ c ∈ u, p c)
    (hv : ∀ c ∈ v, p c) : (u ++ s ++ v).trimBy p = s.trimBy p := by
  have hv' : ∀ c ∈ v.reverse, p c := fun c hc => hv c (List.mem_reverse.mp hc)
  have hnil : v.dropWhile p = [] := List.dropWhile_eq_nil_iff.mpr hv
  rw [trimBy, trimBy, List.append_assoc, List.dropWhile_append_of_pos hu, List.dropWhile_append]
  by_cases hs : (s.dropWhile p).isEmpty
  · rw [if_pos hs, hnil, List.isEmpty_iff.mp hs]
  · rw [if_neg hs, List.reverse_append, List.dropWhile_append_of_pos hv']

theorem Text.Padded.trim_eq {s t : Text} (h : s.Padded t) : t.trim = s.trim := by
  obtain ⟨u, v, rfl, hu, hv⟩ := h
  exact trimBy_append_run hu hv

theorem Text.Padded.notMem {x : Char} {s t : Text} (h : s.Padded t) (hx : ¬ isBlank x) (hs : x ∉ s) :
    x ∉ t := by
  obtain ⟨u, v, rfl, hu, hv⟩ := h
  intro ht
  rcases List.mem_append.mp ht with ht | ht
  · rcases List.mem_append.mp ht with ht | ht
    · exact hx (hu x ht)
    · exact hs ht
  · exact hx (hv x ht)

theorem Text.map_trim_of_padded {ss ts : List Text} (h : List.Forall₂ Padded ss ts) :
    ts.map trim = ss.map trim := by
  induction h with
  | nil => rfl
  | cons hst _ ih => rw [List.map_cons, List.map_cons, ih, hst.trim_eq]

/-- A segment between marks holds no mark. -/
theorem Text.notMem_of_mem_splitOn {x : Char} {s w : Text} (h : w ∈ s.splitOn x) : x ∉ w := by
  induction s generalizing w with
  | nil =>
    obtain rfl : w = [] := by simpa [List.splitOn_nil] using h
    exact List.not_mem_nil
  | cons c s ih =>
    rw [List.splitOn, List.splitOnP_cons_eq_if_modifyHead] at h
    split at h
    · rcases List.mem_cons.mp h with rfl | h
      · exact List.not_mem_nil
      · exact ih h
    · rename_i hc
      obtain ⟨v, vs, hvs⟩ := List.exists_cons_of_ne_nil (List.splitOnP_ne_nil (· == x) s)
      have hin (u : Text) (hu : u ∈ v :: vs) : x ∉ u := ih (by rwa [List.splitOn, hvs])
      rw [hvs, List.modifyHead_cons] at h
      rcases List.mem_cons.mp h with rfl | h
      · rintro (_ | ⟨_, hv⟩)
        · simp at hc
        · exact hin v List.mem_cons_self hv
      · exact hin w (List.mem_cons_of_mem v h)

namespace Command

/-- A keyword and the fields behind it, if there is a block of them, written as one text. -/
def join (head : Text) : Option (List Text) → Text
  | none => head
  | some fields => head ++ ':' :: [','].intercalate fields

theorem join_eq (head : Text) (fields : Option (List Text)) :
    join head fields = head ++ join [] fields := by
  cases fields with
  | none => exact (List.append_nil head).symm
  | some fields => rfl

/-- The keyword of a command, and its fields if it has a block of them. -/
@[ext] structure Parts where
  head : Text
  fields : Option (List Text)
  head_free : ':' ∉ head
  fields_ne : ∀ fs ∈ fields, fs ≠ []
  fields_free : ∀ fs ∈ fields, ∀ f ∈ fs, ',' ∉ f

namespace Parts

variable {r : Registry} {offset : Int} {p q : Parts} {fs : List Text}

def text (p : Parts) : Text := join p.head p.fields

theorem head_isPrefix (p : Parts) : p.head <+: p.text := by
  rw [text, join_eq]
  exact List.prefix_append _ _

theorem keyword_text (p : Parts) : keyword p.text = p.head := by
  rw [text]
  cases p.fields with
  | none =>
    have hall := Text.takeWhile_ne_append p.head_free (.inl rfl)
    rwa [List.append_nil] at hall
  | some fs => exact Text.takeWhile_ne_append p.head_free (.inr ⟨_, rfl⟩)

theorem name_text (p : Parts) : name p.text = p.head.trim := by
  rw [name, keyword_text]

theorem block?_text (p : Parts) : block? p.text = p.fields.map [','].intercalate := by
  have hhead : ∀ c ∈ p.head, decide (c ≠ ':') := by
    intro c hc
    simpa using fun he : c = ':' => p.head_free (he ▸ hc)
  rw [text, block?]
  cases p.fields with
  | none =>
    rw [join, List.dropWhile_eq_nil_iff.mpr hhead]
    rfl
  | some fs =>
    rw [join, Text.dropWhile_append_stop hhead (by simp)]
    rfl

theorem splitOn_intercalate (h : p.fields = some fs) : ([','].intercalate fs).splitOn ',' = fs :=
  List.splitOn_intercalate ',' (p.fields_free fs h) (p.fields_ne fs h)

/-- A text has its parts in one way. -/
theorem text_injective : Function.Injective text := by
  intro p q h
  have hkeyword := congrArg keyword h
  have hblock := congrArg block? h
  rw [keyword_text, keyword_text] at hkeyword
  rw [block?_text, block?_text] at hblock
  refine Parts.ext hkeyword ?_
  cases hp : p.fields with
  | none =>
    rw [hp, Option.map_none] at hblock
    exact (Option.map_eq_none_iff.mp hblock.symm).symm
  | some fs =>
    rw [hp, Option.map_some] at hblock
    obtain ⟨gs, hq, hgs⟩ := Option.map_eq_some_iff.mp hblock.symm
    rw [hq, ← splitOn_intercalate hp, ← hgs, splitOn_intercalate hq]

/-- The parts of a text. -/
def ofText (raw : Text) : Parts where
  head := keyword raw
  fields := (block? raw).map (·.splitOn ',')
  head_free h := by simpa using List.mem_takeWhile_imp h
  fields_ne fs h := by
    obtain ⟨block, -, rfl⟩ := Option.map_eq_some_iff.mp h
    exact List.splitOn_ne_nil ',' block
  fields_free fs h f hf := by
    obtain ⟨block, -, rfl⟩ := Option.map_eq_some_iff.mp h
    exact Text.notMem_of_mem_splitOn hf

theorem text_ofText (raw : Text) : (ofText raw).text = raw := by
  cases h : block? raw with
  | none =>
    have hdrop : raw.dropWhile (· ≠ ':') = [] := by
      rcases Text.dropWhile_ne_cases ':' raw with hnil | ⟨t, ht⟩
      · exact hnil
      · rw [block?, ht] at h
        exact absurd h (Option.some_ne_none t)
    have hraw := List.takeWhile_append_dropWhile (p := (· ≠ ':')) (l := raw)
    rw [hdrop, List.append_nil] at hraw
    simpa [text, ofText, h, join, keyword] using hraw
  | some block =>
    simp only [text, ofText, h, Option.map_some, join, List.intercalate_splitOn]
    exact (eq_of_block? h).symm

/-- Decoding goes by the parts. -/
theorem decode_text (r : Registry) (p : Parts) (offset : Int) : decode r p.text offset =
    match r.lookup p.head.trim, p.fields with
    | none, _ => ({ codeword := .native }, [])
    | some c, none => ({ codeword := c }, [])
    | some c, some fs =>
      let base := offset + 1 + p.head.length + 1
      if fs.length < 2 then
        let block := [','].intercalate fs
        let place :=
          if block.all Text.isBlank then point (offset + 1, p.head) else point (base, block)
        ({ codeword := c }, [(Fault.loneField p.head.trim).located place])
      else
        let (params, faults) := readFields p.head.trim base fs
        ({ codeword := c, params }, faults) := by
  simp only [decode, keyword_text, block?_text]
  cases r.lookup p.head.trim with
  | none => rfl
  | some c =>
    cases h : p.fields with
    | none => rfl
    | some fs => simp only [Option.map_some, splitOn_intercalate h]

/-- White space around a keyword and its fields leaves them a keyword with fields. -/
theorem exists_padded {head : Text} {fields : Option (List Text)} (hhead : p.head.Padded head)
    (hfields : Option.Rel (List.Forall₂ Text.Padded) p.fields fields) :
    ∃ q : Parts, q.head = head ∧ q.fields = fields := by
  have hhead_free : ':' ∉ head := hhead.notMem (by decide) p.head_free
  cases hp : p.fields with
  | none =>
    rw [hp] at hfields
    cases hfields
    exact ⟨⟨head, none, hhead_free, nofun, nofun⟩, rfl, rfl⟩
  | some fs =>
    rw [hp] at hfields
    cases hfields with
    | @some _ gs h =>
      refine ⟨⟨head, some gs, hhead_free, ?_, ?_⟩, rfl, rfl⟩
      · rintro _ ⟨⟩ rfl
        exact p.fields_ne fs hp (List.forall₂_nil_right_iff.mp h)
      · rintro _ ⟨⟩ g hg
        obtain ⟨f, hf, hfg⟩ := exists_of_mem_forall₂ h hg
        exact hfg.notMem (by decide) (p.fields_free fs hp f hf)

theorem decode_of_fields {c : Codeword} (hc : r.lookup p.head.trim = some c) (hf : p.fields = some fs)
    (hlen : 2 ≤ fs.length) (offset : Int) : decode r p.text offset =
      ({ codeword := c, params := (readFields p.head.trim (offset + 1 + p.head.length + 1) fs).1 },
        (readFields p.head.trim (offset + 1 + p.head.length + 1) fs).2) := by
  rw [decode_text, hc, hf]
  exact if_neg (by omega)

/-- What is reported of a command is reported of its one field or, if there are more, of these. -/
theorem mem_decode_iff {d : Diagnostic} : d ∈ (decode r p.text offset).2 ↔
    (r.lookup p.head.trim).isSome ∧ ∃ fs, p.fields = some fs ∧
      ((∃ f, fs = [f] ∧ d = (Fault.loneField p.head.trim).located
          (if f.all Text.isBlank then point (offset + 1, p.head)
            else point (offset + 1 + p.head.length + 1, f))) ∨
        2 ≤ fs.length ∧ d ∈ (readFields p.head.trim (offset + 1 + p.head.length + 1) fs).2) := by
  cases hc : r.lookup p.head.trim with
  | none => simp [p.decode_text, hc]
  | some c =>
    cases hf : p.fields with
    | none => simp [p.decode_text, hc, hf]
    | some fs =>
      by_cases hlen : 2 ≤ fs.length
      · have hmany : ∀ f, fs ≠ [f] := by
          rintro f rfl
          exact absurd hlen (by simp)
        simp [decode_of_fields hc hf hlen, hlen, hmany]
      · obtain ⟨f, rfl⟩ : ∃ f, fs = [f] := by
          rw [← List.length_eq_one_iff]
          have hpos := List.length_pos_of_ne_nil (p.fields_ne fs hf)
          omega
        simp [p.decode_text, hc, hf]

/-- A command depends on what its keyword is registered for and on the trimmed fields. -/
theorem decode_text_fst (hl : r.lookup q.head.trim = r.lookup p.head.trim)
    (hf : q.fields.map (·.map Text.trim) = p.fields.map (·.map Text.trim)) :
    (decode r q.text offset).1 = (decode r p.text offset).1 := by
  rw [decode_text, decode_text, hl]
  cases hc : r.lookup p.head.trim with
  | none => rfl
  | some c =>
    cases hp : p.fields with
    | none =>
      rw [hp, Option.map_none, Option.map_eq_none_iff] at hf
      rw [hf]
    | some fs =>
      rw [hp, Option.map_some, Option.map_eq_some_iff] at hf
      obtain ⟨gs, hq, hgs⟩ := hf
      have hlen : gs.length = fs.length := by simpa using congrArg List.length hgs
      have hread : (readFields q.head.trim (offset + 1 + q.head.length + 1) gs).1 =
          (readFields p.head.trim (offset + 1 + p.head.length + 1) fs).1 := by
        rw [readFields_fst, readFields_fst, hgs]
      rw [hq]
      dsimp only
      rw [hlen]
      split
      · rfl
      · rw [hread]

end Parts
end Command
end KineticText
