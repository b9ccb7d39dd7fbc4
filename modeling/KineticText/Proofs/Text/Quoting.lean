import KineticText.Text.Quoted
import Mathlib.Data.List.Chain
import Mathlib.Tactic.IntervalCases

/-! A text between quotes holds printable characters only, and no other text is quoted alike. -/
namespace KineticText.Text

variable {plain : Char → Bool} {quote c d : Char} {s t : Text} {n w : Nat}

/-! ### The table of printable characters -/

/-- The number is in one of the runs whose ends are listed. -/
def InRun (n : Nat) : List Nat → Prop
  | a :: b :: l => (a ≤ n ∧ n < b) ∨ InRun n l
  | _ => False

/-- The parity of the entries up to a number tells whether it is in a run. -/
theorem countP_odd_iff (n : Nat) (l : List Nat) (h : l.Pairwise (· < ·))
    (hlen : l.length % 2 = 0) : l.countP (· ≤ n) % 2 = 1 ↔ InRun n l := by
  fun_induction InRun n l with
  | case1 a b l ih =>
    obtain ⟨hfirst, hrest⟩ := List.pairwise_cons.mp h
    obtain ⟨hlater, hl⟩ := List.pairwise_cons.mp hrest
    have hab := hfirst b (by simp)
    have hl := ih hl (by simpa [Nat.add_assoc] using hlen)
    rw [List.countP_cons, List.countP_cons, ← hl]
    by_cases ha : a ≤ n
    · by_cases hb : b ≤ n
      · simp [ha, hb, Nat.not_lt.mpr hb]
        omega
      · have hnone : l.countP (· ≤ n) = 0 := by
          rw [List.countP_eq_zero]
          intro x hx hle
          have hlt := hlater x hx
          simp only [decide_eq_true_eq] at hle
          omega
        simp [ha, hb, hnone]
        omega
    · have hb : ¬ b ≤ n := by omega
      simp [ha, hb]
  | case2 l hl =>
    match l, hlen with
    | [], _ => simp
    | a :: b :: l, _ => exact absurd rfl (hl a b l)

theorem isPrintable_iff (c : Char) : isPrintable c ↔ InRun c.toNat printableEnds := by
  have hsorted : printableEnds.IsChain (· < ·) := by decide +kernel
  rw [isPrintable, decide_eq_true_iff]
  exact countP_odd_iff _ _ hsorted.pairwise (by decide +kernel)

/-- The blank, and the letters, digits and marks of ASCII. -/
def isMark (c : Char) : Bool := 0x20 ≤ c.toNat ∧ c.toNat < 0x7F

theorem isPrintable_of_isMark (h : isMark c) : isPrintable c := by
  rw [isPrintable_iff]
  exact .inl (by simpa [isMark] using h)

theorem isAscii_of_isMark (h : isMark c) : isAscii c := by
  simp only [isMark, decide_eq_true_eq] at h
  rw [isAscii, decide_eq_true_iff]
  omega

/-! ### Numbers in hexadecimal -/

def hexValue (c : Char) : Nat := if c.isDigit then c.toNat - '0'.toNat else c.toNat - 'a'.toNat + 10

/-- The number that hexadecimal digits denote. -/
def hexNumber (s : Text) : Nat := s.foldl (fun n c => 16 * n + hexValue c) 0

theorem hexValue_digitChar (h : n < 16) : hexValue n.digitChar = n := by
  interval_cases n <;> rfl

theorem isMark_digitChar (h : n < 16) : isMark n.digitChar := by
  interval_cases n <;> rfl

theorem hexNumber_toDigits (n : Nat) : hexNumber (Nat.toDigits 16 n) = n := by
  induction n using Nat.strongRecOn with
  | ind n ih =>
    rw [Nat.toDigits_eq_if (by decide)]
    split
    · rename_i h
      simp [hexNumber, hexValue_digitChar h]
    · rename_i h
      have hrest := ih (n / 16) (by omega)
      rw [hexNumber] at hrest ⊢
      rw [List.foldl_append, hrest, List.foldl_cons, List.foldl_nil,
        hexValue_digitChar (Nat.mod_lt n (by decide))]
      exact Nat.div_add_mod n 16

theorem isMark_of_mem_toDigits (h : c ∈ Nat.toDigits 16 n) : isMark c := by
  induction n using Nat.strongRecOn with
  | ind n ih =>
    rw [Nat.toDigits_eq_if (by decide)] at h
    split at h
    · rename_i hn
      rw [List.mem_singleton.mp h]
      exact isMark_digitChar hn
    · rename_i hn
      rcases List.mem_append.mp h with h | h
      · exact ih (n / 16) (by omega) h
      · rw [List.mem_singleton.mp h]
        exact isMark_digitChar (Nat.mod_lt n (by decide))

theorem isMark_of_mem_hex (h : c ∈ hex w n) : isMark c := by
  rcases List.mem_append.mp h with h | h
  · rw [List.eq_of_mem_replicate h]
    rfl
  · exact isMark_of_mem_toDigits h

theorem hexNumber_hex (w n : Nat) : hexNumber (hex w n) = n := by
  have hzeros (k : Nat) : (List.replicate k '0').foldl (fun n c => 16 * n + hexValue c) 0 = 0 := by
    induction k with
    | zero => rfl
    | succ k ih => simpa [List.replicate_succ, hexValue] using ih
  have hdigits := hexNumber_toDigits n
  rw [hexNumber] at hdigits ⊢
  rw [hex, List.foldl_append, hzeros, hdigits]

theorem length_hex (hw : 0 < w) (h : n < 16 ^ w) : (hex w n).length = w := by
  have hle := (Nat.length_toDigits_le_iff (b := 16) (by decide) hw).mpr h
  rw [hex, List.length_append, List.length_replicate]
  omega

/-! ### Characters between quotes -/

/-- How a character stands between quotes. -/
def form (plain : Char → Bool) (quote c : Char) : Text :=
  if c = quote ∨ c = '\\' then ['\\', c] else if plain c then [c] else escaped c

theorem quotedBy_eq (plain : Char → Bool) (s : Text) :
    quotedBy plain s = quoteFor s :: (s.flatMap (form plain (quoteFor s)) ++ [quoteFor s]) := rfl

theorem quoteFor_eq (s : Text) : quoteFor s = '\x27' ∨ quoteFor s = '\x22' := by
  rw [quoteFor]
  split
  · exact .inr rfl
  · exact .inl rfl

theorem isMark_quoteFor (s : Text) : isMark (quoteFor s) := by
  rcases quoteFor_eq s with h | h <;> rw [h] <;> rfl

theorem isMark_of_mem_escaped (h : c ∈ escaped d) : isMark c := by
  have hcode (letter : Char) (w : Nat) (hl : isMark letter)
      (h : c ∈ '\\' :: letter :: hex w d.toNat) : isMark c := by
    simp only [List.mem_cons] at h
    rcases h with rfl | rfl | h
    · rfl
    · exact hl
    · exact isMark_of_mem_hex h
  have hletter (letter : Char) (hl : isMark letter) (h : c ∈ ['\\', letter]) : isMark c := by
    simp only [List.mem_cons, List.not_mem_nil, or_false] at h
    rcases h with rfl | rfl
    · rfl
    · exact hl
  unfold escaped at h
  split at h
  · exact hletter 't' rfl h
  split at h
  · exact hletter 'n' rfl h
  split at h
  · exact hletter 'r' rfl h
  split at h
  · exact hcode 'x' 2 rfl h
  split at h
  · exact hcode 'u' 4 rfl h
  · exact hcode 'U' 8 rfl h

/-- Beside the characters that stand for themselves there are marks of ASCII only. -/
theorem plain_or_isMark_of_mem_quotedBy (h : c ∈ quotedBy plain s) : plain c ∨ isMark c := by
  have hquote := isMark_quoteFor s
  rw [quotedBy_eq, List.mem_cons, List.mem_append, List.mem_singleton, List.mem_flatMap] at h
  rcases h with rfl | ⟨d, -, h⟩ | rfl
  · exact .inr hquote
  · unfold form at h
    split at h
    · rename_i hd
      simp only [List.mem_cons, List.not_mem_nil, or_false] at h
      rcases h with rfl | rfl
      · exact .inr rfl
      · rcases hd with rfl | rfl
        · exact .inr hquote
        · exact .inr rfl
    split at h
    · rename_i hd
      rw [List.mem_singleton.mp h]
      exact .inl hd
    · exact .inr (isMark_of_mem_escaped h)
  · exact .inr hquote

/-! ### Reading back -/

/-- Reads a code of some length. -/
def readCode (w : Nat) (s : Text) : Char × Text := (.ofNat (hexNumber (s.take w)), s.drop w)

/-- The character whose form a text begins with, and what follows it. -/
def readChar? (quote : Char) : Text → Option (Char × Text)
  | '\\' :: 't' :: s => some ('\t', s)
  | '\\' :: 'n' :: s => some ('\n', s)
  | '\\' :: 'r' :: s => some ('\r', s)
  | '\\' :: 'x' :: s => some (readCode 2 s)
  | '\\' :: 'u' :: s => some (readCode 4 s)
  | '\\' :: 'U' :: s => some (readCode 8 s)
  | '\\' :: c :: s => some (c, s)
  | c :: s => if c = quote then none else some (c, s)
  | [] => none

theorem readCode_hex (hw : 0 < w) (h : c.toNat < 16 ^ w) (s : Text) :
    readCode w (hex w c.toNat ++ s) = (c, s) := by
  have hlen := length_hex hw h
  rw [readCode, List.take_left' hlen, List.drop_left' hlen, hexNumber_hex, Char.ofNat_toNat]

theorem readChar?_escaped (c : Char) (s : Text) :
    readChar? quote (escaped c ++ s) = some (c, s) := by
  have hlt : c.toNat < 16 ^ 8 := c.val.toNat_lt
  unfold escaped
  split
  · rename_i h
    rw [h]
    rfl
  split
  · rename_i h
    rw [h]
    rfl
  split
  · rename_i h
    rw [h]
    rfl
  split
  · rename_i h
    exact congrArg some (readCode_hex (w := 2) (by decide) h s)
  split
  · rename_i h
    exact congrArg some (readCode_hex (w := 4) (by decide) h s)
  · exact congrArg some (readCode_hex (w := 8) (by decide) hlt s)

theorem readChar?_form (hquote : quote = '\x27' ∨ quote = '\x22') (c : Char) (s : Text) :
    readChar? quote (form plain quote c ++ s) = some (c, s) := by
  unfold form
  split
  · rename_i h
    rcases h with rfl | rfl
    · rcases hquote with rfl | rfl <;> rfl
    · rfl
  split
  · rename_i h _
    rw [not_or] at h
    simp [readChar?, h]
  · exact readChar?_escaped c s

/-- What stands between quotes is read character by character, up to the quote. -/
theorem flatMap_form_injective (hquote : quote = '\x27' ∨ quote = '\x22')
    (h : s.flatMap (form plain quote) ++ [quote] = t.flatMap (form plain quote) ++ [quote]) :
    s = t := by
  have hend : readChar? quote (([] : Text).flatMap (form plain quote) ++ [quote]) = none := by
    simp [readChar?]
  have hread (c : Char) (u : Text) :
      readChar? quote ((c :: u).flatMap (form plain quote) ++ [quote]) =
        some (c, u.flatMap (form plain quote) ++ [quote]) := by
    rw [List.flatMap_cons, List.append_assoc, readChar?_form hquote]
  induction s generalizing t with
  | nil =>
    cases t with
    | nil => rfl
    | cons d t => exact nomatch hend.symm.trans ((congrArg (readChar? quote) h).trans (hread d t))
  | cons c s ih =>
    have hs := (hread c s).symm.trans (congrArg (readChar? quote) h)
    cases t with
    | nil => exact nomatch hs.trans hend
    | cons d t =>
      obtain ⟨rfl, hrest⟩ := Prod.mk.inj (Option.some.inj (hs.trans (hread d t)))
      rw [ih hrest]

/-- No two texts are quoted alike. -/
theorem quotedBy_injective (plain : Char → Bool) : Function.Injective (quotedBy plain) := by
  intro s t h
  rw [quotedBy_eq, quotedBy_eq, List.cons.injEq] at h
  obtain ⟨hquote, h⟩ := h
  rw [← hquote] at h
  exact flatMap_form_injective (quoteFor_eq s) h

end KineticText.Text
