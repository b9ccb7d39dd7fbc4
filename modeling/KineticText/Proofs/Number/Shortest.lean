import KineticText.Number.Shortest
import KineticText.Proofs.Number.Grids

/-! Seventeen digits tell every double from all others, and the shortest decimal of a double reads
back as that double. -/
namespace KineticText

namespace Binary64

variable {q r q' : ℚ} {i j k : Int} {bits n c : Nat}

/-! ### Cells -/

theorem inCell_numberAt (i : Int) : InCell (numberAt i) i := by
  have hlow : numberAt (i - 1) < numberAt i := numberAt_strictMono (by omega)
  have hhigh : numberAt i < numberAt (i + 1) := numberAt_strictMono (by omega)
  refine ⟨by linarith, by linarith, ?_⟩
  rintro (h | h) <;> linarith

theorem InCell.between (h : InCell q i) (h' : InCell q' i) (hr : q ≤ r) (hr' : r ≤ q') :
    InCell r i := by
  refine ⟨by linarith [h.low], by linarith [h'.high], ?_⟩
  rintro (htie | htie)
  · exact h.even (.inl (by linarith [h.low]))
  · exact h'.even (.inr (by linarith [h'.high]))

/-- Of two cells with a common number the first one would end where the second one begins, and both
would have even places. -/
theorem InCell.not_before (h : InCell q i) (h' : InCell q j) : ¬ i < j := by
  intro hlt
  have hfirst : numberAt i ≤ numberAt (j - 1) := numberAt_strictMono.monotone (by omega)
  have hnext : numberAt (i + 1) ≤ numberAt j := numberAt_strictMono.monotone (by omega)
  have hhigh := h.high
  have hlow := h'.low
  have hi := h.even (.inr (by linarith))
  have hj := h'.even (.inl (by linarith))
  have hsame : i + 1 = j := numberAt_strictMono.injective (by linarith)
  omega

theorem InCell.eq (h : InCell q i) (h' : InCell q j) : i = j :=
  le_antisymm (not_lt.mp (h'.not_before h)) (not_lt.mp (h.not_before h'))

/-- The middle above the largest double. -/
theorem numberAt_last : numberAt (infinityBits - 1 : Nat) + numberAt infinityBits =
    2 * (2 ^ 1024 - 2 ^ 970) := by
  have hlast : numberAt (infinityBits - 1 : Nat) = (2 * exponentUnit - 1 : Nat) * 2 ^ (971 : Int) :=
    size_binade (k := 2045) (m := 2 * exponentUnit - 1) (.inr (by decide)) (by decide)
  have hinf : numberAt infinityBits = (2 * exponentUnit : Nat) * 2 ^ (971 : Int) :=
    size_binade (k := 2045) (m := 2 * exponentUnit) (.inr (by decide)) le_rfl
  rw [hlast, hinf, overflow_eq]
  generalize (2 : ℚ) ^ (971 : Int) = unit
  norm_num [exponentUnit]
  ring

/-- The cell of a finite double is below the bound of the decimals of finite size: that bound is a
middle with an odd place below it. -/
theorem InCell.lt_overflow (h : InCell q bits) (hb : bits < infinityBits) :
    q < 2 ^ 1024 - 2 ^ 970 := by
  have hhigh := h.high
  have hlast := numberAt_last
  have hle : numberAt bits ≤ numberAt (infinityBits - 1 : Nat) :=
    numberAt_strictMono.monotone (by omega)
  have hle' : numberAt (bits + 1) ≤ numberAt infinityBits :=
    numberAt_strictMono.monotone (by omega)
  generalize (2 : ℚ) ^ 1024 - 2 ^ 970 = bound at hlast ⊢
  refine lt_of_le_of_ne (by linarith) fun heq => ?_
  have htie := h.even (.inr (by linarith))
  have hsame : (bits : Int) = (infinityBits - 1 : Nat) :=
    numberAt_strictMono.injective (by linarith)
  rw [hsame] at htie
  exact absurd htie (by decide)

/-! ### Seventeen digits -/

theorem size_le_gap (n : Nat) : size (n + 1) ≤ 2 ^ 53 * (size (n + 1) - size n) := by
  obtain ⟨k, m, rfl, hm, hk⟩ := exists_binade n
  rw [size_binade hk hm.le, Nat.add_assoc, size_binade (by omega) hm, ← sub_mul, ← mul_assoc]
  have hle : ((m + 1 : Nat) : ℚ) ≤ 2 ^ 53 * ((m + 1 : Nat) - m) := by
    rw [Nat.cast_succ, add_sub_cancel_left, mul_one]
    exact_mod_cast hm
  exact mul_le_mul_of_nonneg_right hle (by positivity)

/-- What is as near to a double as this is in its cell. -/
theorem inCell_of_near (hb : 0 < bits) (h : 2 ^ 54 * |q - size bits| < size bits) :
    InCell q bits := by
  obtain ⟨n, rfl⟩ := Nat.exists_eq_succ_of_ne_zero hb.ne'
  have hbefore : numberAt ((n.succ : Nat) - 1) = size n := by
    rw [Nat.cast_succ, add_sub_cancel_right]
    rfl
  have hgap := size_le_gap n
  have hgap' := size_le_gap n.succ
  have hsize : numberAt (n.succ : Nat) = size n.succ := rfl
  have hnext : numberAt ((n.succ : Nat) + 1) = size (n.succ + 1) := rfl
  have hlt := size_lt_succ n.succ
  have hle := le_abs_self (q - size n.succ)
  have hge := neg_abs_le (q - size n.succ)
  refine ⟨?_, ?_, ?_⟩
  · rw [hbefore, hsize]
    linarith
  · rw [hnext, hsize]
    linarith
  · rw [hbefore, hnext, hsize]
    rintro (htie | htie) <;> linarith

/-- Rounded to seventeen digits, a magnitude stays in its cell. -/
theorem inCell_roundTo (hb : 0 < bits) :
    InCell (roundTo bits (leading bits - 16) * 10 ^ (leading bits - 16)) bits := by
  obtain ⟨hlow, hhigh⟩ := And.intro (roundsTo_roundTo bits (leading bits - 16)).low
    (roundsTo_roundTo bits (leading bits - 16)).high
  have hleading := (leading_spec hb).1
  have hpow : (10 : ℚ) ^ leading bits = 10 ^ 16 * 10 ^ (leading bits - 16) := by
    rw [← zpow_natCast, ← zpow_add₀ (by norm_num)]
    congr 1
    omega
  have hpos : (0 : ℚ) < 10 ^ (leading bits - 16) := by positivity
  rw [hpow] at hleading
  apply inCell_of_near hb
  generalize (10 : ℚ) ^ (leading bits - 16) = unit at *
  have hnear : |roundTo bits (leading bits - 16) * unit - size bits| ≤ unit / 2 :=
    abs_le.mpr ⟨by linarith, by linarith⟩
  linarith

end Binary64

namespace Decimal

open Binary64

variable {d : Decimal} {bits : Nat}

/-- A decimal rounds to the double in whose cell it is. -/
theorem magnitude_eq_iff (hb : bits < infinityBits) : d.magnitude = bits ↔ InCell d.value bits := by
  constructor
  · rintro rfl
    exact inCell_magnitude (magnitude_lt_infinityBits_iff.mp hb)
  · intro h
    have hcell := inCell_magnitude (d := d) (h.lt_overflow hb)
    exact_mod_cast hcell.eq h

end Decimal

namespace Binary64

variable {bits c m n : Nat} {k : Int} {q unit : ℚ}

/-! ### One grid -/

/-- The multiple of the grid reads back as the magnitude. -/
def Reads (bits : Nat) (k : Int) (c : Nat) : Prop := InCell (c * 10 ^ k) bits

theorem magnitude_eq_iff_reads (hb : bits < infinityBits) :
    (Decimal.mk false c k).magnitude = bits ↔ Reads bits k c := Decimal.magnitude_eq_iff hb

/-- The multiple of the grid up to the magnitude. -/
def below (bits : Nat) (k : Int) : Nat := (quotient bits k).1 / (quotient bits k).2

theorem below_spec (bits : Nat) (k : Int) :
    below bits k * 10 ^ k ≤ size bits ∧ size bits < (below bits k + 1 : Nat) * 10 ^ k := by
  have hden : (0 : ℚ) < (quotient bits k).2 := by exact_mod_cast quotient_snd_pos bits k
  have hpow : (0 : ℚ) < 10 ^ k := by positivity
  rw [← le_div_iff₀ hpow, ← div_lt_iff₀ hpow, ← quotient_eq, le_div_iff₀ hden, div_lt_iff₀ hden]
  constructor
  · exact_mod_cast Nat.div_mul_le_self _ _
  · rw [mul_comm]
    exact_mod_cast Nat.lt_mul_div_succ _ (quotient_snd_pos bits k)

/-- If a multiple of the grid reads back, its neighbour of the magnitude does. -/
theorem Reads.neighbour (h : Reads bits k c) :
    if c ≤ below bits k then Reads bits k (below bits k) else Reads bits k (below bits k + 1) := by
  obtain ⟨hle, hlt⟩ := below_spec bits k
  have hown := inCell_numberAt bits
  have hmono {a b : Nat} (hab : a ≤ b) : (a : ℚ) * 10 ^ k ≤ b * 10 ^ k :=
    mul_le_mul_of_nonneg_right (by exact_mod_cast hab) (by positivity)
  split
  · rename_i hc
    exact h.between hown (hmono hc) hle
  · rename_i hc
    exact hown.between h hlt.le (hmono (by omega))

/-- A number is rounded to a nearest multiple. -/
theorem RoundsTo.closest (h : RoundsTo q unit m) (hu : 0 < unit) (n : Nat) :
    |m * unit - q| ≤ |n * unit - q| := by
  have hlow := h.low
  have hhigh := h.high
  have hhalf : |m * unit - q| ≤ unit / 2 := abs_le.mpr ⟨by linarith, by linarith⟩
  rcases Nat.lt_trichotomy n m with hlt | rfl | hlt
  · have hstep : ((n : ℚ) + 1) * unit ≤ m * unit :=
      mul_le_mul_of_nonneg_right (by exact_mod_cast hlt) hu.le
    have hle := neg_abs_le (n * unit - q)
    linarith
  · exact le_rfl
  · have hstep : ((m : ℚ) + 1) * unit ≤ n * unit :=
      mul_le_mul_of_nonneg_right (by exact_mod_cast hlt) hu.le
    have hle := le_abs_self (n * unit - q)
    linarith

/-- The multiple of the grid reads back, and no other one that does is nearer to the magnitude. -/
structure Nearby (bits : Nat) (k : Int) (c : Nat) : Prop where
  reads : Reads bits k c
  closest : ∀ n, Reads bits k n → |c * 10 ^ k - size bits| ≤ |n * 10 ^ k - size bits|

theorem nearby_roundTo (h : Reads bits k (below bits k)) (h' : Reads bits k (below bits k + 1)) :
    Nearby bits k (roundTo bits k) := by
  refine ⟨?_, fun n _ => (roundsTo_roundTo bits k).closest (by positivity) n⟩
  have hround : roundTo bits k = below bits k ∨ roundTo bits k = below bits k + 1 :=
    roundDiv_eq (quotient bits k).1 (quotient bits k).2
  rcases hround with hround | hround <;> rwa [hround]

theorem nearby_below (h : Reads bits k (below bits k)) (h' : ¬ Reads bits k (below bits k + 1)) :
    Nearby bits k (below bits k) := by
  refine ⟨h, fun n hn => ?_⟩
  have hle : n ≤ below bits k := by
    by_contra hlt
    have hneighbour := hn.neighbour
    rw [if_neg hlt] at hneighbour
    exact h' hneighbour
  have hmono : (n : ℚ) * 10 ^ k ≤ below bits k * 10 ^ k :=
    mul_le_mul_of_nonneg_right (by exact_mod_cast hle) (by positivity)
  have hbelow := (below_spec bits k).1
  rw [abs_of_nonpos (by linarith), abs_of_nonpos (by linarith)]
  linarith

theorem nearby_above (h : ¬ Reads bits k (below bits k)) (h' : Reads bits k (below bits k + 1)) :
    Nearby bits k (below bits k + 1) := by
  refine ⟨h', fun n hn => ?_⟩
  have hlt : below bits k < n := by
    by_contra hle
    have hneighbour := hn.neighbour
    rw [if_pos (not_lt.mp hle)] at hneighbour
    exact h hneighbour
  have hmono : ((below bits k + 1 : Nat) : ℚ) * 10 ^ k ≤ n * 10 ^ k :=
    mul_le_mul_of_nonneg_right (by exact_mod_cast hlt) (by positivity)
  have hbelow := (below_spec bits k).2
  rw [abs_of_nonneg (by linarith), abs_of_nonneg (by linarith)]
  linarith

open scoped Classical in
theorem readingBack?_eq (hb : bits < infinityBits) (k : Int) : readingBack? bits k =
    if Reads bits k (below bits k) then
      if Reads bits k (below bits k + 1) then some (roundTo bits k) else some (below bits k)
    else if Reads bits k (below bits k + 1) then some (below bits k + 1) else none := by
  simp only [← magnitude_eq_iff_reads hb, readingBack?, roundTo, below]
  generalize (quotient bits k).1 / (quotient bits k).2 = c
  by_cases h : (Decimal.mk false c k).magnitude = bits <;>
    by_cases h' : (Decimal.mk false (c + 1) k).magnitude = bits <;> simp [h, h']

/-- If a multiple of the grid reads back, a nearest one of them is found. -/
theorem readingBack?_of_reads (hb : bits < infinityBits) (h : Reads bits k n) :
    ∃ c, readingBack? bits k = some c ∧ Nearby bits k c := by
  have hneighbour := h.neighbour
  rw [readingBack?_eq hb]
  by_cases hbelow : Reads bits k (below bits k)
  · rw [if_pos hbelow]
    by_cases habove : Reads bits k (below bits k + 1)
    · rw [if_pos habove]
      exact ⟨_, rfl, nearby_roundTo hbelow habove⟩
    · rw [if_neg habove]
      exact ⟨_, rfl, nearby_below hbelow habove⟩
  · have habove : Reads bits k (below bits k + 1) := by
      split at hneighbour
      · exact absurd hneighbour hbelow
      · exact hneighbour
    rw [if_neg hbelow, if_pos habove]
    exact ⟨_, rfl, nearby_above hbelow habove⟩

theorem readingBack?_eq_none (hb : bits < infinityBits) (h : ∀ n, ¬ Reads bits k n) :
    readingBack? bits k = none := by
  rw [readingBack?_eq hb, if_neg (h _), if_neg (h _)]

/-! ### The coarsest grid -/

/-- The decimal reads back, and none on a coarser grid does; of those on its own grid none is
nearer. Grids beyond the leading digit do not count: on such a grid a decimal is on that of the
leading digit too. -/
structure Shortest (bits : Nat) (d : Decimal) : Prop where
  reads : d.magnitude = bits
  coarsest : ∀ e : Decimal, e.magnitude = bits → min e.exponent (leading bits) ≤ d.exponent
  closest : ∀ e : Decimal, e.magnitude = bits → e.exponent = d.exponent →
    |d.value - size bits| ≤ |e.value - size bits|
  places : leading bits - 16 ≤ d.exponent ∧ d.exponent ≤ leading bits

/-- What is on a grid is on every finer one. -/
theorem Reads.finer {l : Int} (h : Reads bits l c) (hk : k ≤ l) : ∃ n, Reads bits k n := by
  obtain ⟨m, rfl⟩ := Int.le.dest hk
  refine ⟨c * 10 ^ m, ?_⟩
  rw [Reads, zpow_add₀ (by norm_num), zpow_natCast] at h
  rw [Reads]
  convert h using 1
  push_cast
  ring

theorem reads_of_magnitude {e : Decimal} (hb : bits < infinityBits) (h : e.magnitude = bits) :
    Reads bits e.exponent e.coefficient := (Decimal.magnitude_eq_iff hb).mp h

/-- The grids that are tried, from the coarsest one on. -/
def grids (first : Int) : List Int := (List.range 17).map fun (i : Nat) => first - i

theorem mem_grids_iff {first k : Int} : k ∈ grids first ↔ first - 16 ≤ k ∧ k ≤ first := by
  rw [grids, List.mem_map]
  constructor
  · rintro ⟨i, hi, rfl⟩
    have hlt := List.mem_range.mp hi
    omega
  · rintro ⟨hlow, hhigh⟩
    exact ⟨(first - k).toNat, List.mem_range.mpr (by omega), by omega⟩

theorem pairwise_grids (first : Int) : (grids first).Pairwise (· > ·) := by
  rw [grids, List.pairwise_map]
  refine List.pairwise_lt_range.imp fun {i j} hij => ?_
  omega

/-- What is found on a grid is on none of the coarser ones. -/
theorem coarsest_of_findSome? {α : Type} {f : Int → Option α} {first : Int} {a : α}
    (h : (grids first).findSome? f = some a) :
    ∃ k ∈ grids first, f k = some a ∧ ∀ l ∈ grids first, k < l → f l = none := by
  obtain ⟨before, k, behind, hsplit, hk, hbefore⟩ := List.findSome?_eq_some_iff.mp h
  refine ⟨k, by simp [hsplit], hk, fun l hl hlt => ?_⟩
  have hpairwise := pairwise_grids first
  rw [hsplit] at hl hpairwise
  have hbehind := (List.pairwise_cons.mp (List.pairwise_append.mp hpairwise).2.1).1
  rcases List.mem_append.mp hl with hl | hl
  · exact hbefore l hl
  · rcases List.mem_cons.mp hl with rfl | hl
    · exact absurd hlt (lt_irrefl l)
    · exact absurd hlt (hbehind l hl).le.not_gt

/-- The search ends at the latest with seventeen digits. -/
theorem shortest_shortest (hb : bits < infinityBits) (hpos : 0 < bits) :
    Shortest bits (shortest bits) := by
  have hlast : Reads bits (leading bits - 16) (roundTo bits (leading bits - 16)) :=
    inCell_roundTo hpos
  simp only [shortest]
  rw [← grids]
  cases hfound : (grids (leading bits)).findSome? fun k =>
      (readingBack? bits k).map (Decimal.mk false · k) with
  | none =>
    obtain ⟨c, hc, -⟩ := readingBack?_of_reads hb hlast
    have hnone := List.findSome?_eq_none_iff.mp hfound _ (mem_grids_iff.mpr ⟨le_rfl, by omega⟩)
    simp [hc] at hnone
  | some d =>
    obtain ⟨k, hk, hd, hcoarser⟩ := coarsest_of_findSome? hfound
    have hplaces := mem_grids_iff.mp hk
    have hreads : ∃ n, Reads bits k n := by
      by_contra hnone
      rw [readingBack?_eq_none hb (not_exists.mp hnone)] at hd
      simp at hd
    obtain ⟨n, hn⟩ := hreads
    obtain ⟨c, hc, hnearby⟩ := readingBack?_of_reads hb hn
    obtain rfl : Decimal.mk false c k = d := by simpa [hc] using hd
    refine ⟨(magnitude_eq_iff_reads hb).mpr hnearby.reads, fun e he => ?_, fun e he hexp => ?_,
      hplaces⟩
    · by_contra hlt
      simp only at hlt
      obtain ⟨m, hm⟩ := (reads_of_magnitude hb he).finer (min_le_left _ (leading bits))
      obtain ⟨c', hc', -⟩ := readingBack?_of_reads hb hm
      have htried : min e.exponent (leading bits) ∈ grids (leading bits) :=
        mem_grids_iff.mpr ⟨by omega, min_le_right _ _⟩
      have hfails := hcoarser _ htried (not_le.mp hlt)
      simp [hc'] at hfails
    · subst hexp
      exact hnearby.closest _ (reads_of_magnitude hb he)

end Binary64

end KineticText
