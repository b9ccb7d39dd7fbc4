import KineticText.Settings.Reading
import Mathlib.Data.List.Nodup

/-! What the settings hold when they have been read, and what of it the environment can change. -/
namespace KineticText.Settings

variable {α β : Type}

/-! ### Problems gathered -/

namespace Complaint

def all : List Complaint :=
  [notNumber, notNumberText, negative, notBool, notBoolValue, notText, tooShort, tooLong, bracket,
    notInteger, notIntegerText, integerTooLarge, notFinite, fraction, unknownField]

theorem mem_all (c : Complaint) : c ∈ all := by
  cases c <;> decide

/-- The code tells what is wrong. -/
theorem code_injective : Function.Injective code := by
  have hnodup : (all.map code).Nodup := by decide +kernel
  exact fun c d => List.inj_on_of_nodup_map hnodup (mem_all c) (mem_all d)

/-- So does the message. -/
theorem message_injective : Function.Injective message := by
  have hnodup : (all.map message).Nodup := by decide +kernel
  exact fun c d => List.inj_on_of_nodup_map hnodup (mem_all c) (mem_all d)

end Complaint

def Checked.problems : Checked α → List Problem
  | .accepted _ => []
  | .refused ps => ps

@[simp] theorem Checked.problems_map (f : α → β) (x : Checked α) :
    (f <$> x).problems = x.problems := by
  cases x <;> rfl

@[simp] theorem Checked.problems_seq (f : Checked (α → β)) (x : Checked α) :
    (f <*> x).problems = f.problems ++ x.problems := by
  cases f <;> cases x <;> simp [Seq.seq, Checked.app, problems]

theorem Checked.map_eq_accepted_iff {f : α → β} {x : Checked α} {b : β} :
    f <$> x = .accepted b ↔ ∃ a, x = .accepted a ∧ b = f a := by
  cases x <;> simp [Functor.map, Checked.app, eq_comm]

theorem Checked.seq_eq_accepted_iff {f : Checked (α → β)} {x : Checked α} {b : β} :
    f <*> x = .accepted b ↔ ∃ g a, f = .accepted g ∧ x = .accepted a ∧ b = g a := by
  cases f <;> cases x <;> simp [Seq.seq, Checked.app, eq_comm]

/-- A value is given for the field, under its name in any letter case. -/
def Given.Names (g : Given) (name : Text) : Prop := ∃ x ∈ g.values, lowered x.1 = name

namespace Reader

variable {p : Reader} {g : Given} {s : Settings}

/-- What is documented of the library. -/
structure Lawful (p : Reader) : Prop where
  number : ∀ x, p.number (.number x) = .ok x
  integer : ∀ n, p.integer (.integer n) = .ok n
  bool : ∀ b, p.bool (.bool b) = .ok b
  /-- A value that is given comes before the variables. -/
  given : ∀ g environment name, g.Names name →
    p.value? { g with environment } name = p.value? g name
  /-- A field has the value given under its name, if there is but one. -/
  value? : ∀ g, ∀ name ∈ Given.fields, ∀ v, (name, v) ∈ g.values →
    (∀ x ∈ g.values, lowered x.1 = name → x = (name, v)) → p.value? g name = some v
  /-- Variables give no names, and the names of the fields are known. -/
  others : ∀ g environment, p.others { g with environment } = p.others g
  others_nil : ∀ g, (∀ x ∈ g.values, x.1 ∈ Given.fields) → p.others g = []

/-- Each setting is what is read for its field, and no other value is given. -/
structure Fills (p : Reader) (g : Given) (s : Settings) : Prop where
  amplitude : p.field g "curr_amplitude" p.number 1 = .accepted s.defaults.amplitude
  frequencyX : p.field g "curr_frequency_x" p.number 1 = .accepted s.defaults.frequencyX
  frequencyY : p.field g "curr_frequency_y" p.number 1 = .accepted s.defaults.frequencyY
  scale : p.field g "prev_amplitude" p.number 1 = .accepted s.defaults.scale
  phaseX : p.field g "prev_frequency_x" p.number 0 = .accepted s.defaults.phaseX
  phaseY : p.field g "prev_frequency_y" p.number 0 = .accepted s.defaults.phaseY
  typewriter : p.field g "typewriter_enabled" p.bool true = .accepted s.typewriter
  letterWait : p.field g "letter_wait" p.wait 0.05 = .accepted s.letterWait
  pauseWait : p.field g "pause_wait" p.wait 0.5 = .accepted s.pauseWait
  pauseChar : p.field g "pause_char" readPauseChar '.' = .accepted s.pauseChar
  verbosity : p.field g "verbosity" p.verbosity 1 = .accepted s.verbosity
  noOther : p.noOther g = .accepted ()

theorem fills_of_read (h : p.read g = .accepted s) : p.Fills g s := by
  obtain ⟨_, _, h₁₁, hnoOther, rfl⟩ := Checked.seq_eq_accepted_iff.mp h
  obtain ⟨_, _, h₁₀, hverbosity, rfl⟩ := Checked.seq_eq_accepted_iff.mp h₁₁
  obtain ⟨_, _, h₉, hpauseChar, rfl⟩ := Checked.seq_eq_accepted_iff.mp h₁₀
  obtain ⟨_, _, h₈, hpauseWait, rfl⟩ := Checked.seq_eq_accepted_iff.mp h₉
  obtain ⟨_, _, h₇, hletterWait, rfl⟩ := Checked.seq_eq_accepted_iff.mp h₈
  obtain ⟨_, _, h₆, htypewriter, rfl⟩ := Checked.seq_eq_accepted_iff.mp h₇
  obtain ⟨_, _, h₅, hphaseY, rfl⟩ := Checked.seq_eq_accepted_iff.mp h₆
  obtain ⟨_, _, h₄, hphaseX, rfl⟩ := Checked.seq_eq_accepted_iff.mp h₅
  obtain ⟨_, _, h₃, hscale, rfl⟩ := Checked.seq_eq_accepted_iff.mp h₄
  obtain ⟨_, _, h₂, hfrequencyY, rfl⟩ := Checked.seq_eq_accepted_iff.mp h₃
  obtain ⟨_, _, h₁, hfrequencyX, rfl⟩ := Checked.seq_eq_accepted_iff.mp h₂
  obtain ⟨_, hamplitude, rfl⟩ := Checked.map_eq_accepted_iff.mp h₁
  exact ⟨hamplitude, hfrequencyX, hfrequencyY, hscale, hphaseX, hphaseY, htypewriter, hletterWait,
    hpauseWait, hpauseChar, hverbosity, hnoOther⟩

theorem Fills.read_eq (h : p.Fills g s) : p.read g = .accepted s := by
  unfold read
  simp only [h.amplitude, h.frequencyX, h.frequencyY, h.scale, h.phaseX, h.phaseY, h.typewriter,
    h.letterWait, h.pauseWait, h.pauseChar, h.verbosity, h.noOther]
  rfl

/-! ### One field -/

section Field

variable {n : String} {read : Value → Except Complaint α} {default a b : α} {v : Value}

theorem field_eq_accepted_iff : p.field g n read default = .accepted a ↔
    p.value? g n.toList = none ∧ a = default ∨
      ∃ v, p.value? g n.toList = some v ∧ read v = .ok a := by
  unfold field
  cases p.value? g n.toList with
  | none => simp [eq_comm]
  | some v => cases hr : read v <;> simp [hr]

theorem field_of_value (hv : p.value? g n.toList = some v) (hr : read v = .ok a) :
    p.field g n read default = .accepted a :=
  field_eq_accepted_iff.mpr (.inr ⟨v, hv, hr⟩)

/-- What holds of the default and of all that can be read holds of the setting. -/
theorem of_field {P : α → Prop} (h : p.field g n read default = .accepted a) (hd : P default)
    (hr : ∀ v, read v = .ok a → P a) : P a := by
  obtain ⟨-, rfl⟩ | ⟨v, -, hv⟩ := field_eq_accepted_iff.mp h
  · exact hd
  · exact hr v hv

theorem read_of_field (h : p.field g n read default = .accepted a)
    (hv : p.value? g n.toList = some v) : read v = .ok a := by
  obtain ⟨hnone, -⟩ | ⟨w, hw, hr⟩ := field_eq_accepted_iff.mp h
  · rw [hv] at hnone
    exact nomatch hnone
  · rw [hv] at hw
    cases hw
    exact hr

/-- What is wrong with a field is what the check of its value complains of. -/
theorem mem_problems_field_iff {q : Problem} : q ∈ (p.field g n read default).problems ↔
    q.field = n.toList ∧ ∃ v, p.value? g n.toList = some v ∧ read v = .error q.complaint := by
  obtain ⟨name, complaint⟩ := q
  unfold field
  cases p.value? g n.toList with
  | none => simp [Checked.problems]
  | some v => cases hr : read v <;> simp [Checked.problems, hr, eq_comm]

theorem fields_sublist : ((p.field g n read default).problems.map (·.field)).Sublist [n.toList] := by
  unfold field
  cases p.value? g n.toList with
  | none => simp [Checked.problems]
  | some v => cases hr : read v <;> simp [Checked.problems, hr]

theorem fields_sublist_append {others names : List Text} (h : others.Sublist names) :
    ((p.field g n read default).problems.map (·.field) ++ others).Sublist (n.toList :: names) :=
  fields_sublist.append h

end Field

/-! ### All problems -/

theorem problems_noOther (p : Reader) (g : Given) :
    (p.noOther g).problems = (p.others g).map (⟨·, .unknownField⟩) := by
  unfold noOther
  cases p.others g <;> rfl

/-- Problems name the fields that they are about, each once and in their order, and after these the
names that are no fields. -/
theorem map_field_problems (p : Reader) (g : Given) :
    ∃ names, names.Sublist Given.fields ∧
      (p.read g).problems.map (·.field) = names ++ p.others g := by
  simp only [read, Checked.problems_seq, Checked.problems_map, List.map_append, problems_noOther,
    List.map_map, Function.comp_def, List.map_id']
  refine ⟨_, ?_, rfl⟩
  simp only [List.append_assoc]
  iterate 10 refine fields_sublist_append ?_
  exact fields_sublist

/-! ### The same values in another environment -/

section Within

variable {name : Text} (hp : p.Lawful) (environment : List (Text × Text))
include hp

theorem field_within {n : String} (h : g.Names n.toList) (read : Value → Except Complaint α)
    (default : α) :
    p.field { g with environment } n read default = p.field g n read default := by
  unfold field
  rw [hp.given g environment _ h]

/-- What is wrong with a field that is given does not depend on the environment. -/
theorem problems_field_within (h : g.Names name) (n : String) (read : Value → Except Complaint α)
    (default : α) :
    (p.field { g with environment } n read default).problems.filter (·.field = name) =
      (p.field g n read default).problems.filter (·.field = name) := by
  by_cases hn : n.toList = name
  · subst hn
    rw [field_within hp environment h]
  · have hnone (g : Given) :
        (p.field g n read default).problems.filter (·.field = name) = [] := by
      rw [List.filter_eq_nil_iff]
      intro q hq
      simpa [(mem_problems_field_iff.mp hq).1] using hn
    rw [hnone, hnone]

theorem problems_read_within (h : g.Names name) :
    (p.read { g with environment }).problems.filter (·.field = name) =
      (p.read g).problems.filter (·.field = name) := by
  simp only [read, Checked.problems_seq, Checked.problems_map, List.filter_append,
    problems_field_within hp environment h, problems_noOther, hp.others]

end Within

/-! ### What can be read -/

theorem wait_eq_ok_iff {v : Value} {x : Float} :
    p.wait v = .ok x ↔ p.number v = .ok x ∧ 0 ≤ x := by
  unfold wait
  cases p.number v with
  | error e => simp [bind, Except.bind]
  | ok y =>
    by_cases hy : 0 ≤ y
    · simp only [bind, Except.bind, hy, if_true, pure, Except.pure, Except.ok.injEq]
      constructor
      · rintro rfl
        exact ⟨rfl, hy⟩
      · exact fun h => h.1
    · simp only [bind, Except.bind, hy, if_false, throw, throwThe, MonadExceptOf.throw]
      constructor
      · exact nofun
      · rintro ⟨hx, h⟩
        cases hx
        exact absurd h hy

theorem verbosity_eq_ok_iff {v : Value} {n : Nat} :
    p.verbosity v = .ok n ↔ p.integer v = .ok (n : Int) := by
  unfold verbosity
  cases p.integer v with
  | error e => simp [bind, Except.bind]
  | ok m =>
    by_cases hm : 0 ≤ m
    · simp only [bind, Except.bind, hm, if_true, pure, Except.pure, Except.ok.injEq]
      omega
    · simp only [bind, Except.bind, hm, if_false, throw, throwThe, MonadExceptOf.throw,
        Except.ok.injEq, reduceCtorEq, false_iff]
      omega

end Reader

theorem readPauseChar_eq_ok_iff {v : Value} {c : Char} :
    readPauseChar v = .ok c ↔ v = .text [c] ∧ c ≠ '<' ∧ c ≠ '>' := by
  cases v with
  | text t =>
    rcases t with _ | ⟨d, _ | ⟨d', t⟩⟩
    · simp [readPauseChar]
    · by_cases hd : d = '<' ∨ d = '>'
      · have hc : ¬ (d = c ∧ c ≠ '<' ∧ c ≠ '>') := by
          rintro ⟨rfl, hne⟩
          exact absurd hd (not_or.mpr hne)
        simpa [readPauseChar, hd] using hc
      · simp only [readPauseChar, if_neg hd, Except.ok.injEq, Value.text.injEq, List.cons.injEq,
          and_true]
        constructor
        · rintro rfl
          exact ⟨rfl, not_or.mp hd⟩
        · exact fun h => h.1
    · simp [readPauseChar]
  | _ => simp [readPauseChar]

/-! ### The library -/

theorem lowered_of_mem_fields {name : Text} (h : name ∈ Given.fields) : lowered name = name := by
  have hall : ∀ n ∈ Given.fields, lowered n = n := by decide
  exact hall name h

/-- A value that is given is found before the variables are looked at. -/
theorem Given.value?_within {g : Given} {name : Text} (h : g.Names name)
    (environment : List (Text × Text)) :
    { g with environment }.value? name = g.value? name := by
  obtain ⟨x, hx, hn⟩ := h
  have hfound : (g.values.find? (lowered ·.1 = name)).isSome := by
    rw [List.find?_isSome]
    exact ⟨x, hx, by simpa using hn⟩
  obtain ⟨y, hy⟩ := Option.isSome_iff_exists.mp hfound
  simp [value?, hy]

theorem Given.value?_of_mem {g : Given} {name : Text} {v : Value} (hname : lowered name = name)
    (hmem : (name, v) ∈ g.values)
    (hone : ∀ x ∈ g.values, lowered x.1 = name → x = (name, v)) : g.value? name = some v := by
  obtain ⟨y, hy⟩ := Option.isSome_iff_exists.mp
    (List.find?_isSome.mpr ⟨(name, v), hmem, by simpa using hname⟩ :
      (g.values.find? (lowered ·.1 = name)).isSome)
  have hyname : lowered y.1 = name := by simpa using List.find?_some hy
  obtain rfl := hone y (List.mem_of_find?_eq_some hy) hyname
  simp [value?, hy]

theorem lawful_library : library.Lawful where
  number _ := rfl
  integer _ := rfl
  bool _ := rfl
  given _ environment _ h := Given.value?_within h environment
  value? _ _ hname _ hmem hone :=
    Given.value?_of_mem (lowered_of_mem_fields hname) hmem hone
  others _ _ := rfl
  others_nil g h := by
    change g.others = []
    rw [Given.others, List.filter_eq_nil_iff]
    intro name hname
    obtain ⟨x, hx, rfl⟩ := List.mem_map.mp hname
    simpa [lowered_of_mem_fields (h x hx)] using h x hx

/-- Nothing compares with a NaN. -/
theorem not_isNaN_of_le {x y : Float} (h : x ≤ y) : ¬ y.isNaN := by
  intro hnan
  have hle : x.toModel ≤ y.toModel := of_decide_eq_true h
  change y.toModel.unpack.isNaN = true at hnan
  change x.toModel.unpack.le y.toModel.unpack = true at hle
  generalize y.toModel.unpack = b at hnan hle
  generalize x.toModel.unpack = a at hle
  cases b with
  | notANumber => cases a <;> exact nomatch hle
  | infinity | zero | finite => exact nomatch hnan

end KineticText.Settings
