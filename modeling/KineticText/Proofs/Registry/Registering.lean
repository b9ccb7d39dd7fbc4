import KineticText.Registry
import Mathlib.Data.List.Induction

/-! What registering leaves: all checks come before the first write, so a spec that is rejected has
written nothing. -/
namespace KineticText.Registry

open Attempt

variable {r : Registry} {s : Spec} {c : Codeword} {name : Text} {names : List Text}

/-- The first objection to a spec. -/
def rejection? (r : Registry) (s : Spec) : Option Rejection :=
  if s.role = .start ∧ s.effect = none then some (.missingEffect s.keyword)
  else if s.role = .stop ∧ ¬ r.closesStart s then some (.closesNoStart s.keyword)
  else (s.names.find? fun n => (r.lookup n).isSome).map .nameTaken

/-- The registry with a new spec under each of its names; a repeated name counts once. -/
def insert (r : Registry) (s : Spec) : Registry where
  entries := r.entries ++ s.names.eraseDups.map (·, s.codeword)
  specs := s :: r.specs

/-! ### The checks -/

theorem isSome_lookup_iff : (r.lookup name).isSome ↔ name ∈ r.names := by
  have hnone : r.lookup name = none ↔ ∀ x ∈ r.entries, name ≠ x.1 := by
    simp [lookup, List.lookup_eq_none_iff]
  rw [← not_iff_not, Option.not_isSome_iff_eq_none, hnone, Registry.names, List.mem_map]
  constructor
  · rintro h ⟨x, hx, rfl⟩
    exact h x hx rfl
  · rintro h x hx rfl
    exact h ⟨x, hx, rfl⟩

theorem lookup_eq_none_iff : r.lookup name = none ↔ name ∉ r.names := by
  rw [← isSome_lookup_iff, Option.not_isSome_iff_eq_none]

theorem outcome_checkRole (r : Registry) (s : Spec) : outcome (checkRole s) r =
    if s.role = .start ∧ s.effect = none then (.error (.missingEffect s.keyword), r)
    else if s.role = .stop ∧ ¬ r.closesStart s then (.error (.closesNoStart s.keyword), r)
    else (.ok (), r) := by
  rw [checkRole]
  split
  · rfl
  · rw [outcome_get_bind]
    split <;> rfl

theorem outcome_checkName (r : Registry) (name : Text) : outcome (checkName name) r =
    if (r.lookup name).isSome then (.error (.nameTaken name), r) else (.ok (), r) := by
  rw [checkName, outcome_get_bind]
  split <;> rfl

/-- The first name that is taken stops the checks. -/
theorem outcome_forM_checkName (r : Registry) (names : List Text) :
    outcome (forM names checkName) r =
      ((names.find? fun n => (r.lookup n).isSome).elim (.ok ()) fun n => .error (.nameTaken n),
        r) := by
  induction names with
  | nil => rfl
  | cons n names ih =>
    have hn := outcome_checkName r n
    by_cases h : (r.lookup n).isSome
    · rw [if_pos h] at hn
      rw [List.forM_cons, outcome_bind_of_error hn]
      simp [h]
    · rw [if_neg h] at hn
      rw [List.forM_cons, outcome_bind_of_ok hn, ih]
      simp [h]

/-! ### The writes -/

theorem outcome_forM_modify (g : Text → Registry → Registry) (names : List Text) (r : Registry) :
    outcome (forM names fun n => (modify (g n) : Registering Unit)) r =
      (.ok (), names.foldl (fun r n => g n r) r) := by
  induction names generalizing r with
  | nil => rfl
  | cons n names ih =>
    rw [List.forM_cons, outcome_bind_of_ok (outcome_modify (g n) r), ih, List.foldl_cons]

/-- A name that is new comes last. -/
theorem enter_of_notMem (c : Codeword) (h : name ∉ r.names) :
    r.enter c name = { r with entries := r.entries ++ [(name, c)] } := by
  simp [enter, h]

/-- To give a name the codeword that it has does nothing. -/
theorem enter_of_mem (h : name ∈ r.names) (hc : ∀ d, (name, d) ∈ r.entries → d = c) :
    r.enter c name = r := by
  have hmap : (r.entries.map fun x => (x.1, if x.1 = name then c else x.2)) = r.entries := by
    refine (List.map_congr_left ?_).trans (List.map_id _)
    rintro ⟨n, d⟩ hd
    by_cases hn : n = name
    · subst hn
      simp [hc d hd]
    · simp [hn]
  simp [enter, h, hmap]

/-- Free names are entered in the order in which they first occur. -/
theorem foldl_enter (c : Codeword) (h : ∀ n ∈ names, n ∉ r.names) :
    names.foldl (fun r n => r.enter c n) r =
      { r with entries := r.entries ++ names.eraseDups.map (·, c) } := by
  induction names using List.reverseRecOn with
  | nil => simp
  | append_singleton names n ih =>
    have hn : n ∉ r.names := h n (by simp)
    rw [List.foldl_append, ih fun m hm => h m (by simp [hm]), List.foldl_cons, List.foldl_nil,
      List.eraseDups_append]
    by_cases hmem : n ∈ names
    · rw [enter_of_mem]
      · simp [List.removeAll, hmem]
      · simp [Registry.names, hmem]
      · intro d hd
        rcases List.mem_append.mp hd with hd | hd
        · exact absurd (List.mem_map_of_mem hd) hn
        · obtain ⟨m, -, he⟩ := List.mem_map.mp hd
          exact (congrArg Prod.snd he).symm
    · rw [enter_of_notMem]
      · simp [List.removeAll, hmem, List.eraseDups_cons]
      · simpa [Registry.names, hmem] using hn

/-! ### The whole of it -/

/-- A spec that is rejected leaves the registry as it is, any other one is inserted. -/
theorem register_eq (r : Registry) (s : Spec) :
    r.register s = (r.rejection? s).elim (.ok (), r.insert s) fun x => (.error x, r) := by
  have hrole := outcome_checkRole r s
  rw [register, registering, rejection?]
  by_cases heffect : s.role = .start ∧ s.effect = none
  · rw [if_pos heffect] at hrole ⊢
    exact outcome_bind_of_error hrole
  · rw [if_neg heffect] at hrole ⊢
    by_cases hcloses : s.role = .stop ∧ ¬ r.closesStart s
    · rw [if_pos hcloses] at hrole ⊢
      exact outcome_bind_of_error hrole
    · rw [if_neg hcloses] at hrole ⊢
      rw [outcome_bind_of_ok hrole]
      have hnames := outcome_forM_checkName r s.names
      cases htaken : s.names.find? fun n => (r.lookup n).isSome with
      | some n =>
        rw [htaken] at hnames
        exact outcome_bind_of_error hnames
      | none =>
        have hfree : ∀ n ∈ s.names, n ∉ r.names := by
          intro n hn
          have hn := List.find?_eq_none.mp htaken n hn
          rwa [isSome_lookup_iff] at hn
        have hentered := outcome_forM_modify (fun n r => r.enter s.codeword n) s.names r
        rw [foldl_enter s.codeword hfree] at hentered
        rw [htaken] at hnames
        rw [outcome_bind_of_ok hnames, outcome_bind_of_ok hentered]
        rfl

end KineticText.Registry
