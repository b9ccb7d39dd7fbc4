import KineticText.Proofs.Command.Decoding
import KineticText.Proofs.Compile.Outcome
import KineticText.Proofs.Timeline.Alternation
import KineticText.Proofs.Token.Joining
import KineticText.Proofs.Token.Scanning
import KineticText.Proofs.Token.Splitting

/-! With the built-in directives, a compile has nothing to report exactly if its source is
well-formed. -/
namespace KineticText

variable {r : Registry} {e : Effect} {p : Piece} {ps : List Piece} {t : Token} {ts : List Token}
  {n : Nat} {mark : Text}

/-- What a keyword does to the regions of the effect. -/
def Effect.role? (e : Effect) (w : Text) : Option Role :=
  if w ∈ e.keywords .start then some .start
  else if w ∈ e.keywords .stop then some .stop
  else none

/-- The parameters of the built-in directives can be read, and the starts and the ends of each
effect take turns. -/
structure Orderly (tags : List Text) : Prop where
  readable : ∀ c ∈ tags, (∃ e role, Command.name c ∈ Effect.keywords e role) →
    ∀ block ∈ Command.block? c, Command.Readable block
  turns : ∀ e : Effect, Alternates (tags.filterMap fun c => e.role? (Command.name c))

/-- The source is made of texts and closed tags without brackets in them, and its tags are
in order. -/
def WellFormed (source : Text) : Prop :=
  ∃ parts, render parts = source ∧ (∀ p ∈ parts, p.Clean) ∧ Orderly (parts.filterMap Piece.tag?)

/-! ### What the scanner reports -/

/-- The tag is read without complaint. -/
def Accepted (r : Registry) (c : Text) : Prop :=
  (r.lookup (Command.name c)).isSome → ∀ block ∈ Command.block? c, Command.Readable block

theorem Piece.faults_eq_nil_iff (hp : p.Unbroken) :
    p.strays n ++ p.endFaults r n = [] ↔ p.Clean ∧ ∀ c ∈ p.tag?, Accepted r c := by
  cases p with
  | text w =>
    have hw : '<' ∉ w := hp
    simp [strays, endFaults, Text.positions_eq_nil_iff, Clean, tag?, hw]
  | tag c closed =>
    have hc : '>' ∉ c := hp
    have hclosed : (if closed then [] else [Fault.unterminated.located n]) = [] ↔ closed := by
      cases closed <;> simp
    simp only [strays, endFaults, Clean, tag?, List.append_eq_nil_iff, List.map_eq_nil_iff,
      Text.positions_eq_nil_iff, hclosed, Command.decode_faults_eq_nil_iff, Option.mem_some_iff,
      forall_eq', Accepted, hc, not_false_eq_true, true_and, and_assoc]

theorem Normal.faults_eq_nil_iff (h : Normal ps) : faults r n ps = [] ↔
    (∀ p ∈ ps, p.Clean) ∧ ∀ c ∈ ps.filterMap Piece.tag?, Accepted r c := by
  induction ps generalizing n with
  | nil => simp [faults, located]
  | cons p ps ih =>
    have hp := p.faults_eq_nil_iff (r := r) (n := n) (h.unbroken p (by simp))
    rw [faults_cons, List.append_eq_nil_iff, hp, ih h.tail, List.forall_mem_cons]
    cases ht : p.tag? with
    | none => simp [ht, and_assoc]
    | some c =>
      simp only [List.filterMap_cons, ht, List.forall_mem_cons, Option.mem_some_iff, forall_eq']
      rw [and_and_and_comm]

/-! ### What pairing reports -/

theorem Token.role?_eq_none (h : t.kind ≠ .directive) : t.role? r e = none := by
  have hd : ¬ t.isDirective := by simpa [isDirective] using h
  have hs : ¬ t.Starts r e := by
    intro hs
    exact hd hs.1
  have he : ¬ t.Ends r e := by
    intro he
    exact hd he.1
  rw [role?, if_neg hs, if_neg he]

/-- Splitting text at the pauses leaves the directives alone. -/
theorem filterMap_role_splitPauses (hm : mark ≠ []) :
    (splitPauses mark ts).filterMap (Token.role? r e) = ts.filterMap (Token.role? r e) := by
  rw [List.filterMap_eq_flatMap_toList, List.filterMap_eq_flatMap_toList]
  refine flatMap_splitPauses hm ?_ fun _ _ _ => rfl
  intro t _ hk
  rw [Token.role?_eq_none (by simp [hk]), Option.toList_none, List.flatMap_eq_nil_iff]
  intro u hu
  have hdirective : u.kind ≠ .directive := by
    rcases t.mem_pieces hk hm hu with h | h <;> simp [h]
  rw [Token.role?_eq_none hdirective, Option.toList_none]

theorem Piece.role?_token : (p.token .standard n).role? .standard e =
    p.tag?.bind fun c => e.role? (Command.name c) := by
  cases p with
  | text w => exact Token.role?_eq_none (by simp [token])
  | tag c closed =>
    have hcode (role : Role) : ((tag c closed).token .standard n).codeword = e.codeword role ↔
        Command.name c ∈ e.keywords role := by
      rw [← Registry.standard_lookup_eq_codeword_iff]
      have hne : Codeword.native ≠ e.codeword role := by cases e <;> cases role <;> decide
      simp [token, Command.decode_codeword, Option.getD_eq_iff, hne]
    have hd : ((tag c closed).token .standard n).isDirective := rfl
    have hs : ((tag c closed).token .standard n).Starts .standard e ↔
        Command.name c ∈ e.keywords .start := by simp [Token.starts_standard_iff, hd, hcode]
    have he : ((tag c closed).token .standard n).Ends .standard e ↔
        Command.name c ∈ e.keywords .stop := by simp [Token.ends_standard_iff, hd, hcode]
    simp only [Token.role?, tag?, Option.bind_some, Effect.role?, hs, he]

theorem filterMap_role_placed : (placed .standard n ps).filterMap (Token.role? .standard e) =
    (ps.filterMap Piece.tag?).filterMap fun c => e.role? (Command.name c) := by
  rw [List.filterMap_filterMap, List.filterMap_eq_flatMap_toList, List.filterMap_eq_flatMap_toList]
  apply flatMap_placed
  intro n p
  rw [Piece.role?_token]

/-! ### Acceptance -/

/-- The normal form of a source decides whether it is well-formed. -/
theorem Normal.wellFormed_iff (h : Normal ps) : WellFormed (render ps) ↔
    (∀ p ∈ ps, p.Clean) ∧ Orderly (ps.filterMap Piece.tag?) := by
  constructor
  · rintro ⟨parts, hr, hc, ho⟩
    obtain ⟨qs, hn, hq, hqc, hqt⟩ := exists_normal hc
    obtain rfl : qs = ps := hn.eq_of_render_eq h (hq.trans hr)
    rw [hqt]
    exact ⟨hqc, ho⟩
  · rintro ⟨hc, ho⟩
    exact ⟨ps, rfl, hc, ho⟩

theorem orderly_iff {tags : List Text} : Orderly tags ↔ (∀ c ∈ tags, Accepted .standard c) ∧
    ∀ e : Effect, Alternates (tags.filterMap fun c => e.role? (Command.name c)) := by
  have hreadable : (∀ c ∈ tags, Accepted .standard c) ↔ ∀ c ∈ tags,
      (∃ e role, Command.name c ∈ Effect.keywords e role) →
        ∀ block ∈ Command.block? c, Command.Readable block := by
    simp only [Accepted, Registry.isSome_standard_lookup_iff]
  rw [hreadable]
  constructor
  · intro h
    exact ⟨h.readable, h.turns⟩
  · rintro ⟨hr, ht⟩
    exact ⟨hr, ht⟩

/-- Every source compiles with the built-in directives, and the well-formed ones are those
of which nothing is reported. -/
theorem compile_diagnostics_eq_nil_iff (s : Settings) (source : Text) :
    ∃ c, compile s .standard source = .ok c ∧ (c.diagnostics = [] ↔ WellFormed source) := by
  obtain ⟨c, hc⟩ := exists_compile_standard s source
  refine ⟨c, hc, ?_⟩
  obtain ⟨x, hx, rfl⟩ := compile_eq_ok_iff.mp hc
  obtain ⟨ps, hn, rfl, htokens⟩ := tokenize_eq .standard source
  have hpairing : x.diagnostics = [] ↔ ∀ e : Effect,
      Alternates ((ps.filterMap Piece.tag?).filterMap fun c => e.role? (Command.name c)) := by
    rw [ofTokens_diagnostics_eq_nil_iff hx, htokens]
    simp only [Settings.pauseMark, filterMap_role_splitPauses (List.cons_ne_nil _ _),
      filterMap_role_placed]
  have hscan : (tokenize .standard (render ps)).2 = faults .standard 0 ps := by rw [htokens]
  rw [hn.wellFormed_iff, orderly_iff, ← and_assoc, ← hn.faults_eq_nil_iff, ← hpairing, ← hscan]
  exact List.append_eq_nil_iff

end KineticText
