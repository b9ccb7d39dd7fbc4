import KineticText.Proofs.Token.Diagnosis
import KineticText.Proofs.Token.Joining

/-! Pieces elsewhere in a source: their tokens move along, and so does what is wrong with them. -/
namespace KineticText

/-- The token at the place that `g` gives for its own. -/
def Token.move (g : Int → Int) (t : Token) : Token := { t with offset := g t.offset }

/-- The category of a diagnostic and where it points. -/
def Diagnostic.site (d : Diagnostic) : Diagnostic.Kind × Int := (d.kind, d.offset)

variable {r : Registry} {n k : Nat} {p : Piece} {ps qs : List Piece}

/-! ### Further on -/

theorem Piece.token_add (r : Registry) (n k : Nat) (p : Piece) :
    p.token r (n + k) = (p.token r n).move (· + k) := by
  cases p with
  | text w => rfl
  | tag c closed =>
    rw [token, token, Command.decode_command r c (n + k : Nat) n]
    rfl

theorem Piece.token_eq_move (r : Registry) (n : Nat) (p : Piece) :
    p.token r n = (p.token r 0).move (· + n) := by
  rw [← p.token_add r 0 n, Nat.zero_add]

theorem located_add (n k : Nat) (ps : List Piece) :
    located (n + k) ps = (located n ps).map fun x => (x.1 + k, x.2) := by
  induction ps generalizing n with
  | nil => rfl
  | cons p ps ih =>
    have hnext : n + k + p.source.length = n + p.source.length + k := by omega
    rw [located, located, List.map_cons, hnext, ih]

theorem placed_add (r : Registry) (n k : Nat) (ps : List Piece) :
    placed r (n + k) ps = (placed r n ps).map (Token.move (· + k)) := by
  rw [placed, placed, located_add, List.map_map, List.map_map]
  apply List.map_congr_left
  intro x _
  exact x.2.token_add r x.1 k

theorem Piece.site_strays_add (n k : Nat) (p : Piece) :
    (p.strays (n + k)).map Diagnostic.site =
      (p.strays n).map fun d => (d.shift k).site := by
  have hstray (x : Char) (f f' : Fault) (hf : f.kind = f'.kind) (m : Nat) (w : Text) :
      ((Text.positions x (m + k) w).map fun i : Nat => f.located i).map Diagnostic.site =
        ((Text.positions x m w).map fun i : Nat => f'.located i).map fun d => (d.shift k).site := by
    rw [Text.positions_add, List.map_map, List.map_map, List.map_map]
    apply List.map_congr_left
    intro i _
    simp [Fault.located, Diagnostic.site, Diagnostic.shift, hf]
  cases p with
  | text w => exact hstray '>' .unopened .unopened rfl n w
  | tag c closed =>
    rw [strays, Nat.add_right_comm]
    exact hstray '<' (.nested (n + k : Nat)) (.nested n) rfl (n + 1) c

theorem Piece.site_endFaults_add (r : Registry) (n k : Nat) (p : Piece) :
    (p.endFaults r (n + k)).map Diagnostic.site =
      (p.endFaults r n).map fun d => (d.shift k).site := by
  cases p with
  | text w => rfl
  | tag c closed =>
    rw [endFaults, endFaults, List.map_append, List.map_append, Int.natCast_add,
      Command.decode_add, List.map_map]
    cases closed <;> rfl

/-- What is wrong with pieces is of the same categories wherever they stand, and points to the same
places of them. -/
theorem site_faults_add (r : Registry) (n k : Nat) (ps : List Piece) :
    (faults r (n + k) ps).map Diagnostic.site =
      (faults r n ps).map fun d => (d.shift k).site := by
  rw [faults, faults, located_add, List.flatMap_map, List.map_flatMap, List.map_flatMap]
  apply List.flatMap_congr
  intro x _
  rw [List.map_append, List.map_append, Piece.site_strays_add, Piece.site_endFaults_add]

/-! ### Behind other pieces -/

theorem placed_append : placed r n (ps ++ qs) =
    placed r n ps ++ placed r (n + (render ps).length) qs := by
  rw [placed, located_append, List.map_append]
  rfl

theorem faults_append : faults r n (ps ++ qs) =
    faults r n ps ++ faults r (n + (render ps).length) qs := by
  rw [faults, located_append, List.flatMap_append]
  rfl

/-- What pieces give at their places is not changed by making one of two texts that meet. -/
theorem flatMap_located_joined {β : Type} {f : Nat → Piece → List β}
    (hnil : ∀ n, f n (.text []) = [])
    (happend : ∀ n w v, f n (.text (w ++ v)) = f n (.text w) ++ f (n + w.length) (.text v))
    (n : Nat) (ps : List Piece) :
    (located n (joined ps)).flatMap (fun x => f x.1 x.2) =
      (located n ps).flatMap fun x => f x.1 x.2 := by
  have hprepend (n : Nat) (p : Piece) (ps : List Piece) :
      (located n (p.prepend ps)).flatMap (fun x => f x.1 x.2) =
        f n p ++ (located (n + p.source.length) ps).flatMap fun x => f x.1 x.2 := by
    unfold Piece.prepend
    split
    · simp [located, happend, Piece.source, Nat.add_assoc]
    · split
      · rename_i hw
        simp [hw, hnil, Piece.source]
      · rfl
    · rfl
  induction ps generalizing n with
  | nil => rfl
  | cons p ps ih => rw [joined_cons, hprepend, ih, located, List.flatMap_cons]

theorem faults_joined (r : Registry) (n : Nat) (ps : List Piece) :
    faults r n (joined ps) = faults r n ps := by
  refine flatMap_located_joined (f := fun n p => p.strays n ++ p.endFaults r n) ?_ ?_ n ps
  · intro n
    rfl
  · intro n w v
    simp [Piece.strays, Piece.endFaults, Text.positions_append]

section Give

variable {β : Type} {F : Token → List β}
  (hmove : ∀ (g : Int → Int) (t : Token), F (t.move g) = F t)
  (hnil : F (Piece.token r 0 (.text [])) = [])
  (happend : ∀ w v, F (Piece.token r 0 (.text (w ++ v))) =
    F (Piece.token r 0 (.text w)) ++ F (Piece.token r 0 (.text v)))

include hmove

/-- What tokens give wherever they stand is given by their pieces. -/
theorem flatMap_placed_of_move (n : Nat) (ps : List Piece) :
    (placed r n ps).flatMap F = ps.flatMap fun p => F (p.token r 0) := by
  apply flatMap_placed
  intro n p
  rw [Piece.token_eq_move, hmove]

include hnil happend

/-- It does not matter whether two texts that meet are one. -/
theorem flatMap_placed_joined (n : Nat) (ps : List Piece) :
    (placed r n (joined ps)).flatMap F = (placed r n ps).flatMap F := by
  rw [flatMap_placed_of_move hmove, flatMap_placed_of_move hmove, flatMap_joined hnil happend]

/-- Taking out pieces that give nothing changes nothing. -/
theorem flatMap_placed_filter {q : Piece → Bool} (hout : ∀ p : Piece, ¬ q p → F (p.token r 0) = [])
    (n : Nat) (ps : List Piece) :
    (placed r n (joined (ps.filter q))).flatMap F = (placed r n ps).flatMap F := by
  rw [flatMap_placed_joined hmove hnil happend, flatMap_placed_of_move hmove,
    flatMap_placed_of_move hmove]
  apply flatMap_filter
  intro p _ hp
  exact hout p hp

/-- Pieces behind others give what they give alone. -/
theorem flatMap_placed_append (ps qs : List Piece) :
    (placed r 0 (joined (ps ++ qs))).flatMap F =
      (placed r 0 ps).flatMap F ++ (placed r 0 qs).flatMap F := by
  rw [flatMap_placed_joined hmove hnil happend, flatMap_placed_of_move hmove,
    flatMap_placed_of_move hmove, flatMap_placed_of_move hmove, List.flatMap_append]

end Give

end KineticText
