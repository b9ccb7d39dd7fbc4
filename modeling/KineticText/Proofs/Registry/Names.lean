import KineticText.Proofs.Registry.Registering
import Mathlib.Data.List.Basic

/-! The names of a registry: what they are looked up to, and what an insertion adds to them. -/
namespace KineticText

variable {α : Type} [BEq α] {xs : List α} {a b : α}

/-- The list `ys` holds the members of `xs` once each, in the order in which they first occur. -/
structure Firsts (xs ys : List α) : Prop where
  mem : ∀ x, x ∈ ys ↔ x ∈ xs
  order : ys.Pairwise fun x y => xs.idxOf x < xs.idxOf y

theorem Firsts.nodup {ys : List α} (h : Firsts xs ys) : ys.Nodup := by
  refine h.order.imp ?_
  rintro x y hlt rfl
  exact Nat.lt_irrefl _ hlt

variable [LawfulBEq α]

theorem idxOf_lt_of_filter {p : α → Bool} (ha : p a) (hb : p b)
    (h : (xs.filter p).idxOf a < (xs.filter p).idxOf b) : xs.idxOf a < xs.idxOf b := by
  induction xs with
  | nil => simp at h
  | cons x xs ih =>
    by_cases hx : p x
    · rw [List.filter_cons_of_pos hx] at h
      by_cases hxb : x = b
      · simp [hxb] at h
      · rw [List.idxOf_cons_ne _ hxb] at h ⊢
        by_cases hxa : x = a
        · simp [hxa]
        · rw [List.idxOf_cons_ne _ hxa] at h ⊢
          have hrest := ih (by omega)
          omega
    · have hxa : x ≠ a := fun he => hx (he ▸ ha)
      have hxb : x ≠ b := fun he => hx (he ▸ hb)
      rw [List.filter_cons_of_neg hx] at h
      rw [List.idxOf_cons_ne _ hxa, List.idxOf_cons_ne _ hxb]
      have hrest := ih h
      omega

theorem firsts_eraseDups (xs : List α) : Firsts xs xs.eraseDups := by
  refine ⟨fun x => List.mem_eraseDups, ?_⟩
  induction hn : xs.length using Nat.strongRecOn generalizing xs with
  | _ n ih =>
    cases xs with
    | nil => simp
    | cons x xs =>
      have hlen := List.length_filter_le (fun y => !y == x) xs
      rw [List.length_cons] at hn
      have hrest := ih (xs.filter fun y => !y == x).length (by omega) _ rfl
      have hne : ∀ y ∈ (xs.filter fun y => !y == x).eraseDups, y ≠ x := by
        intro y hy
        simpa using List.of_mem_filter (List.mem_eraseDups.mp hy)
      rw [List.eraseDups_cons]
      refine List.pairwise_cons.mpr ⟨?_, ?_⟩
      · intro y hy
        rw [List.idxOf_cons_self, List.idxOf_cons_ne _ (hne y hy).symm]
        exact Nat.succ_pos _
      · refine hrest.imp_of_mem ?_
        intro y z hy hz hlt
        rw [List.idxOf_cons_ne _ (hne y hy).symm, List.idxOf_cons_ne _ (hne z hz).symm]
        exact Nat.succ_lt_succ (idxOf_lt_of_filter (by simpa using hne y hy)
          (by simpa using hne z hz) hlt)

namespace Registry

variable {r : Registry} {s : Spec} {w : Text} {c : Codeword}

theorem names_insert (r : Registry) (s : Spec) :
    (r.insert s).names = r.names ++ s.names.eraseDups := by
  simp [names, insert, Function.comp_def]

/-- A name that is there already keeps its codeword. -/
theorem lookup_insert_of_mem (s : Spec) (h : w ∈ r.names) :
    (r.insert s).lookup w = r.lookup w := by
  obtain ⟨c, hc⟩ := Option.isSome_iff_exists.mp (isSome_lookup_iff.mpr h)
  simp only [lookup] at hc
  simp [lookup, insert, List.lookup_append, hc]

theorem lookup_entered (c : Codeword) (ws : List Text) (w : Text) :
    (ws.map (·, c)).lookup w = if w ∈ ws then some c else none := by
  induction ws with
  | nil => rfl
  | cons v ws ih =>
    by_cases hw : w = v
    · simp [hw]
    · have hne : (w == v) = false := beq_false_of_ne hw
      simp [List.lookup_cons, hne, hw, ih]

/-- A new name is looked up to the codeword of the spec inserted. -/
theorem lookup_insert_of_notMem (s : Spec) (h : w ∉ r.names) :
    (r.insert s).lookup w = if w ∈ s.names then some s.codeword else none := by
  have hnone : r.entries.lookup w = none := lookup_eq_none_iff.mpr h
  rw [lookup, insert, List.lookup_append, hnone, Option.none_or, lookup_entered]
  simp only [List.mem_eraseDups]

end Registry
end KineticText
