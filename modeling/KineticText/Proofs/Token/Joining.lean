import KineticText.Proofs.Token.Piece

/-! Any cut of a source at its tags has the normal form's tags. -/
namespace KineticText

variable {p q : Piece} {ps qs parts : List Piece}

namespace Piece

/-- The content of a tag. -/
def tag? : Piece → Option Text
  | text _ => none
  | tag c _ => some c

/-- The piece is closed and holds no bracket inside. -/
def Clean : Piece → Prop
  | text w => '<' ∉ w ∧ '>' ∉ w
  | tag c closed => '<' ∉ c ∧ '>' ∉ c ∧ closed

theorem Clean.unbroken (h : p.Clean) : p.Unbroken := by
  cases p with
  | text w => exact h.1
  | tag c closed => exact h.2.1

theorem Clean.isClosed (h : p.Clean) : p.isClosed := by
  cases p with
  | text w => rfl
  | tag c closed => exact h.2.2

/-- Puts a piece in front of others. Two texts that meet become one, and an empty one is nothing. -/
def prepend : Piece → List Piece → List Piece
  | text w, text v :: ps => text (w ++ v) :: ps
  | text w, ps => if w = [] then ps else text w :: ps
  | tag c closed, ps => tag c closed :: ps

/-- What texts give piece by piece is the same of the text that they make. -/
theorem flatMap_prepend {β : Type} {f : Piece → List β} (hnil : f (text []) = [])
    (happend : ∀ w v, f (text (w ++ v)) = f (text w) ++ f (text v)) (p : Piece) (ps : List Piece) :
    (p.prepend ps).flatMap f = f p ++ ps.flatMap f := by
  unfold prepend
  split
  · simp only [List.flatMap_cons, happend, List.append_assoc]
  · split
    · rename_i hw
      rw [hw, hnil, List.nil_append]
    · exact List.flatMap_cons
  · exact List.flatMap_cons

theorem clean_prepend (hp : p.Clean) (hps : ∀ q ∈ ps, q.Clean) : ∀ q ∈ p.prepend ps, q.Clean := by
  intro q hq
  unfold prepend at hq
  split at hq
  · rename_i w v ps
    rcases List.mem_cons.mp hq with rfl | hq
    · have hv : (text v).Clean := hps _ (by simp)
      exact ⟨by simp [hp.1, hv.1], by simp [hp.2, hv.2]⟩
    · exact hps q (by simp [hq])
  · split at hq
    · exact hps q hq
    · rcases List.mem_cons.mp hq with rfl | hq
      · exact hp
      · exact hps q hq
  · rcases List.mem_cons.mp hq with rfl | hq
    · exact hp
    · exact hps q hq

end Piece

theorem Normal.cons (hp : p.Unbroken) (hne : p ≠ .text []) (h : Normal ps)
    (hl : ∀ q ∈ ps.head?, p.Precedes q) : Normal (p :: ps) where
  unbroken q hq := by
    rcases List.mem_cons.mp hq with rfl | hq
    · exact hp
    · exact h.unbroken q hq
  filled hq := by
    rcases List.mem_cons.mp hq with hq | hq
    · exact hne hq.symm
    · exact h.filled hq
  chain := List.isChain_cons.mpr ⟨hl, h.chain⟩

theorem Normal.prepend (hp : p.Unbroken) (hc : p.isClosed ∨ ps = []) (h : Normal ps) :
    Normal (p.prepend ps) := by
  cases p with
  | tag c closed =>
    refine .cons hp nofun h ?_
    intro q hq
    rcases hc with hc | rfl
    · exact ⟨hc, by simp [Piece.isText]⟩
    · simp at hq
  | text w =>
    cases ps with
    | nil =>
      by_cases hw : w = []
      · simpa [Piece.prepend, hw] using h
      · simpa [Piece.prepend, hw] using
          Normal.cons (p := .text w) hp (by simpa using hw) h (by simp)
    | cons q ps =>
      cases q with
      | text v =>
        have hne : v ≠ [] := by
          rintro rfl
          exact h.filled (by simp)
        have hw : '<' ∉ w := hp
        have hv : '<' ∉ v := h.unbroken (.text v) (by simp)
        refine .cons (p := .text (w ++ v)) ?_ (by simp [hne]) h.tail
          (List.isChain_cons.mp h.chain).1
        simp [Piece.Unbroken, hw, hv]
      | tag c closed =>
        by_cases hw : w = []
        · simpa [Piece.prepend, hw] using h
        · simpa [Piece.prepend, hw] using
            Normal.cons (p := .text w) hp (by simpa using hw) h
              (by simp [Piece.isClosed])

/-! ### Pieces joined -/

/-- Pieces with the texts that meet made one. -/
def joined (ps : List Piece) : List Piece := ps.foldr Piece.prepend []

@[simp] theorem joined_cons (p : Piece) (ps : List Piece) :
    joined (p :: ps) = p.prepend (joined ps) := rfl

theorem flatMap_joined {β : Type} {f : Piece → List β} (hnil : f (.text []) = [])
    (happend : ∀ w v, f (.text (w ++ v)) = f (.text w) ++ f (.text v)) (ps : List Piece) :
    (joined ps).flatMap f = ps.flatMap f := by
  induction ps with
  | nil => rfl
  | cons p ps ih => rw [joined_cons, Piece.flatMap_prepend hnil happend, ih, List.flatMap_cons]

theorem render_joined (ps : List Piece) : render (joined ps) = render ps :=
  flatMap_joined rfl (fun _ _ => rfl) ps

theorem tags_joined (ps : List Piece) :
    (joined ps).filterMap Piece.tag? = ps.filterMap Piece.tag? := by
  simp only [List.filterMap_eq_flatMap_toList]
  exact flatMap_joined rfl (fun _ _ => rfl) ps

theorem clean_joined (h : ∀ p ∈ ps, p.Clean) : ∀ p ∈ joined ps, p.Clean := by
  induction ps with
  | nil => exact h
  | cons p ps ih => exact Piece.clean_prepend (h p (by simp)) (ih fun q hq => h q (by simp [hq]))

/-- Joined pieces are in normal form if only the last one may be cut off. -/
theorem normal_joined (hu : ∀ p ∈ ps, p.Unbroken) (hc : ps.Pairwise fun p _ => p.isClosed) :
    Normal (joined ps) := by
  induction ps with
  | nil => exact .nil
  | cons p ps ih =>
    obtain ⟨hp, hps⟩ := List.pairwise_cons.mp hc
    refine Normal.prepend (hu p (by simp)) ?_ (ih (fun q hq => hu q (by simp [hq])) hps)
    cases ps with
    | nil => exact .inr rfl
    | cons q ps => exact .inl (hp q (by simp))

/-- Of pieces in normal form only the last one may be cut off. -/
theorem Normal.pairwise_isClosed (h : Normal ps) : ps.Pairwise fun p _ => p.isClosed := by
  induction ps with
  | nil => exact .nil
  | cons p ps ih =>
    refine List.pairwise_cons.mpr ⟨?_, ih h.tail⟩
    intro q hq
    cases ps with
    | nil => simp at hq
    | cons q' ps => exact (List.isChain_cons_cons.mp h.chain).1.1

/-- A source cut into clean pieces has a normal form of clean pieces with the same tags. -/
theorem exists_normal (h : ∀ p ∈ parts, p.Clean) : ∃ ps, Normal ps ∧ render ps = render parts ∧
    (∀ p ∈ ps, p.Clean) ∧ ps.filterMap Piece.tag? = parts.filterMap Piece.tag? := by
  refine ⟨joined parts, ?_, render_joined parts, clean_joined h, tags_joined parts⟩
  apply normal_joined fun p hp => (h p hp).unbroken
  exact List.pairwise_of_forall_mem_list fun p hp _ _ => (h p hp).isClosed

end KineticText
