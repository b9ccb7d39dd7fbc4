import KineticText.Proofs.Command.Decoding
import KineticText.Proofs.Token.Joining
import KineticText.Proofs.Token.Tiling

/-! Taking the custom directives out of a source: what is left scans as the tokens that stay. -/
namespace KineticText

/-- A text without the characters at the positions that `gone` holds of. -/
def Text.without (gone : Nat → Prop) [DecidablePred gone] (s : Text) : Text :=
  (s.zipIdx.filter fun c => ¬ gone c.2).map Prod.fst

namespace Token

/-- A directive that is not left to the renderer. -/
def isCustom (t : Token) : Bool := t.isDirective ∧ ¬ t.isNative

theorem isCustom_iff {t : Token} : t.isCustom ↔ t.isDirective ∧ ¬ t.isNative := by simp [isCustom]

theorem not_isCustom {t : Token} (h : t.kind ≠ .directive) : ¬ t.isCustom := by
  simp [isCustom, isDirective, h]

theorem display_eq (t : Token) : t.display = if t.isCustom then [] else t.source := by
  unfold display isCustom source
  cases t.isDirective <;> cases t.isNative <;> rfl

end Token

/-- The source position belongs to a custom directive. -/
def InCustom (ts : List Token) (i : Nat) : Prop :=
  ∃ t ∈ ts, t.isCustom ∧ t.offset ≤ i ∧ i < t.offset + t.span

instance (ts : List Token) : DecidablePred (InCustom ts) :=
  fun i => inferInstanceAs (Decidable (∃ t ∈ ts, t.isCustom ∧ t.offset ≤ i ∧ i < t.offset + t.span))

/-- The source position belongs to a token that `q` holds of. -/
def Covered (q : Token → Bool) (ts : List Token) (i : Nat) : Prop :=
  ∃ t ∈ ts, q t ∧ t.offset ≤ i ∧ i < t.offset + t.span

instance (q : Token → Bool) (ts : List Token) : DecidablePred (Covered q ts) :=
  fun i => inferInstanceAs (Decidable (∃ t ∈ ts, q t ∧ t.offset ≤ i ∧ i < t.offset + t.span))

variable {r : Registry} {n : Nat} {t : Token} {ts : List Token} {p : Piece} {ps : List Piece}
  {mark : Text} {q : Token → Bool}

/-! ### The display text -/

theorem Tiles.le_offset {n : Int} (h : Tiles n ts) (ht : t ∈ ts) : n ≤ t.offset := by
  induction ts generalizing n with
  | nil => simp at ht
  | cons u ts ih =>
    obtain ⟨hu, hts⟩ := h
    rcases List.mem_cons.mp ht with rfl | ht
    · exact Int.le_of_eq hu.symm
    · have hle := ih hts ht
      omega

theorem covered_first {n : Int} {i : Nat} (h : Tiles n (t :: ts)) (hi : n ≤ i)
    (hlt : i < n + t.span) : Covered q (t :: ts) i ↔ q t := by
  obtain ⟨ht, hts⟩ := h
  constructor
  · rintro ⟨u, hu, hq, hle, -⟩
    rcases List.mem_cons.mp hu with rfl | hu
    · exact hq
    · have hbehind := hts.le_offset hu
      omega
  · intro hq
    exact ⟨t, List.mem_cons_self, hq, by omega, by omega⟩

theorem covered_rest {n : Int} {i : Nat} (h : Tiles n (t :: ts)) (hi : n + t.span ≤ i) :
    Covered q (t :: ts) i ↔ Covered q ts i := by
  obtain ⟨ht, -⟩ := h
  constructor
  · rintro ⟨u, hu, hq, hle, hlt⟩
    rcases List.mem_cons.mp hu with rfl | hu
    · omega
    · exact ⟨u, hu, hq, hle, hlt⟩
  · rintro ⟨u, hu, hq⟩
    exact ⟨u, List.mem_cons_of_mem t hu, hq⟩

/-- Without the places of some tokens, a source is what the other tokens are written as. -/
theorem filter_covered (q : Token → Bool) (h : Tiles n ts) :
    (((sources ts).zipIdx n).filter fun c => ¬ Covered q ts c.2).map Prod.fst =
      ts.flatMap fun t => if q t then [] else t.source := by
  induction ts generalizing n with
  | nil => rfl
  | cons t ts ih =>
    have hspan := t.length_source
    have hfirst : (t.source.zipIdx n).filter (fun c => ¬ Covered q (t :: ts) c.2) =
        if q t then [] else t.source.zipIdx n := by
      have hin : ∀ c ∈ t.source.zipIdx n, Covered q (t :: ts) c.2 ↔ q t := by
        intro c hc
        obtain ⟨hstart, hend, -⟩ := List.mem_zipIdx hc
        exact covered_first h (by omega) (by omega)
      split
      · rename_i hq
        rw [List.filter_eq_nil_iff]
        intro c hc
        simp [hin c hc, hq]
      · rename_i hq
        rw [List.filter_eq_self]
        intro c hc
        simp [hin c hc, hq]
    have hrest : ((sources ts).zipIdx (n + t.span)).filter (fun c => ¬ Covered q (t :: ts) c.2) =
        ((sources ts).zipIdx (n + t.span)).filter fun c => ¬ Covered q ts c.2 := by
      apply List.filter_congr
      intro c hc
      obtain ⟨hstart, -, -⟩ := List.mem_zipIdx hc
      have hin := covered_rest (q := q) (i := c.2) h (by omega)
      simp only [hin]
    rw [show sources (t :: ts) = t.source ++ sources ts from rfl, List.zipIdx_append,
      List.filter_append, List.map_append, hspan, hfirst, hrest, ih (by exact_mod_cast h.2),
      List.flatMap_cons]
    congr 1
    split
    · rfl
    · exact List.zipIdx_map_fst _ _

/-- Without the places of the custom directives, a source is what the tokens display. -/
theorem filter_sources (h : Tiles n ts) :
    (((sources ts).zipIdx n).filter fun c => ¬ InCustom ts c.2).map Prod.fst =
      ts.flatMap Token.display := by
  have hdisplay : Token.display = fun t => if t.isCustom then [] else t.source :=
    funext Token.display_eq
  rw [hdisplay]
  exact filter_covered Token.isCustom h

theorem display_splitPauses (hm : mark ≠ []) (ts : List Token) :
    (splitPauses mark ts).flatMap Token.display = ts.flatMap Token.display := by
  refine flatMap_splitPauses hm ?_ fun _ _ _ => rfl
  intro t _ hk
  have hp := Token.flatMap_pieces (F := Token.display) (f := (·.2)) (t := t)
    (fun k w o h => by simp [Token.display, Token.isDirective, h]) rfl hk hm
  rw [hp, Token.parts_flatten hm]
  simp [Token.display, Token.isDirective, hk]

/-! ### The pieces that stay -/

namespace Piece

def isCustom (r : Registry) : Piece → Bool
  | text _ => false
  | tag c _ => (r.lookup (Command.name c)).getD .native ≠ .native

theorem isCustom_token (r : Registry) (n : Nat) (p : Piece) :
    (p.token r n).isCustom = p.isCustom r := by
  cases p with
  | text w => rfl
  | tag c closed =>
    simp [Token.isCustom, Token.isDirective, Token.isNative, token, isCustom,
      Command.decode_codeword]

end Piece

/-- The pieces without the custom directives. -/
def stripped (r : Registry) (ps : List Piece) : List Piece :=
  joined (ps.filter fun p => ! p.isCustom r)

/-- Whatever is taken out of a source in normal form, what is left is in normal form: no tag comes
about in it. -/
theorem Normal.joined_filter (h : Normal ps) (q : Piece → Bool) : Normal (joined (ps.filter q)) := by
  refine normal_joined ?_ (h.pairwise_isClosed.sublist List.filter_sublist)
  intro p hp
  exact h.unbroken p (List.mem_of_mem_filter hp)

theorem Normal.stripped (h : Normal ps) (r : Registry) : Normal (stripped r ps) :=
  h.joined_filter _

/-- What the pieces taken out do not contribute to is given by the pieces that stay. -/
theorem flatMap_joined_filter {β : Type} {f : Piece → List β} {q : Piece → Bool}
    (hnil : f (.text []) = []) (happend : ∀ w v, f (.text (w ++ v)) = f (.text w) ++ f (.text v))
    (hout : ∀ p : Piece, ¬ q p → f p = []) (ps : List Piece) :
    (joined (ps.filter q)).flatMap f = ps.flatMap f := by
  rw [flatMap_joined hnil happend]
  apply flatMap_filter
  intro p _ hp
  exact hout p hp

theorem flatMap_stripped {β : Type} {f : Piece → List β} (hnil : f (.text []) = [])
    (happend : ∀ w v, f (.text (w ++ v)) = f (.text w) ++ f (.text v))
    (hcustom : ∀ p : Piece, p.isCustom r → f p = []) (ps : List Piece) :
    (stripped r ps).flatMap f = ps.flatMap f := by
  apply flatMap_joined_filter hnil happend
  intro p hp
  exact hcustom p (by simpa using hp)

theorem not_isCustom_of_mem_stripped (hp : p ∈ stripped r ps) : ¬ p.isCustom r := by
  cases p with
  | text w => simp [Piece.isCustom]
  | tag c closed =>
    have hc : c ∈ (stripped r ps).filterMap Piece.tag? := List.mem_filterMap.mpr ⟨_, hp, rfl⟩
    rw [stripped, tags_joined] at hc
    obtain ⟨q, hq, hqc⟩ := List.mem_filterMap.mp hc
    have hcustom : ¬ q.isCustom r := by simpa using (List.mem_filter.mp hq).2
    cases q with
    | text w => simp [Piece.tag?] at hqc
    | tag d closed' =>
      obtain rfl : d = c := by simpa [Piece.tag?] using hqc
      exact hcustom

theorem render_stripped (r : Registry) (ps : List Piece) :
    render (stripped r ps) = (placed r n ps).flatMap Token.display := by
  have hdisplay : (placed r n ps).flatMap Token.display =
      ps.flatMap fun p => if p.isCustom r then [] else p.source := by
    apply flatMap_placed
    intro n p
    rw [Token.display_eq, Piece.isCustom_token, Piece.source_token]
  rw [hdisplay, ← flatMap_stripped (r := r) (f := fun p => if p.isCustom r then [] else p.source)
    rfl (fun _ _ => rfl) (fun p hp => if_pos hp), render]
  apply List.flatMap_congr
  intro p hp
  exact (if_neg (not_isCustom_of_mem_stripped hp)).symm

/-- A source's display text scans as the tokens that stay, with the texts that meet made one. -/
theorem tokenize_display (r : Registry) (source : Text) :
    ∃ ps, Normal ps ∧ tokenize r source = (placed r 0 ps, faults r 0 ps) ∧
      tokenize r ((tokenize r source).1.flatMap Token.display) =
        (placed r 0 (stripped r ps), faults r 0 (stripped r ps)) := by
  obtain ⟨ps, hn, -, he⟩ := tokenize_eq r source
  refine ⟨ps, hn, he, ?_⟩
  rw [he, ← render_stripped, tokenize_render r (hn.stripped r)]

end KineticText
