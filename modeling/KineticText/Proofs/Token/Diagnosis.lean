import KineticText.Proofs.Command.Places
import KineticText.Proofs.Token.Scanning

/-! The diagnostics of a source, token by token. -/
namespace KineticText

/-- What is wrong with a token of the source: the brackets of its content that stand where none is
expected, then the `>` it lacks, then what its command is read with. -/
def Token.faults (r : Registry) (source : Text) (t : Token) : List Diagnostic :=
  match t.kind with
  | .text =>
    (Text.positionsBetween '>' source t.offset (t.offset + t.content.length)).map
      fun i : Nat => Fault.unopened.located i
  | .directive =>
    (Text.positionsBetween '<' source (t.offset + 1) (t.offset + 1 + t.content.length)).map
        (fun i : Nat => (Fault.nested t.offset).located i) ++
      (if t.closed then [] else [Fault.unterminated.located t.offset]) ++
      (Command.decode r t.content t.offset).2
  | .pause => []

/-- The diagnostics are those of the tokens in their order, and the commands are as decoded. -/
structure Diagnosed (r : Registry) (source : Text) (tokens : List Token)
    (found : List Diagnostic) : Prop where
  found_eq : found = tokens.flatMap (Token.faults r source)
  commands : ∀ t ∈ tokens, t.isDirective →
    (⟨t.codeword, t.params⟩ : Command) = (Command.decode r t.content t.offset).1
  /-- Nothing is reported twice. -/
  once : found.Pairwise Diagnostic.Apart

variable {r : Registry} {source : Text} {m n : Nat} {p : Piece} {ps : List Piece} {d : Diagnostic}

/-- A piece stands in the source behind the pieces before it. -/
theorem mem_located (h : (n, p) ∈ located m ps) :
    ∃ qs rs, ps = qs ++ p :: rs ∧ n = m + (render qs).length := by
  induction ps generalizing m with
  | nil => simp [located] at h
  | cons q ps ih =>
    rcases List.mem_cons.mp h with heq | h
    · obtain ⟨rfl, rfl⟩ := Prod.mk.inj heq
      exact ⟨[], ps, rfl, rfl⟩
    · obtain ⟨qs, rs, rfl, rfl⟩ := ih h
      refine ⟨q :: qs, rs, rfl, ?_⟩
      rw [render_cons, List.length_append, Nat.add_assoc]

theorem mem_of_mem_located (h : (n, p) ∈ located m ps) : p ∈ ps := by
  obtain ⟨qs, rs, rfl, -⟩ := mem_located h
  simp

namespace Piece

/-- Of a piece, the scanner reports what the token's place in the source tells. -/
theorem faults_token (r : Registry) (p : Piece) (u v : Text) (hn : u.length = n) :
    (p.token r n).faults r (u ++ p.source ++ v) = p.strays n ++ p.endFaults r n := by
  cases p with
  | text w =>
    simp only [Token.faults, token, source, strays, endFaults, List.append_nil]
    rw [Text.positionsBetween_eq _ u w v hn]
  | tag c closed =>
    have hsource : u ++ (tag c closed).source ++ v =
        (u ++ ['<']) ++ c ++ ((if closed then ['>'] else []) ++ v) := by
      simp [source]
    have hbetween := Text.positionsBetween_eq '<' (u ++ ['<']) c
      ((if closed then ['>'] else []) ++ v) (n := n + 1) (by simp [hn])
    simp only [Token.faults, token, strays, endFaults, hsource, List.append_assoc] at hbetween ⊢
    push_cast at hbetween
    rw [hbetween]
    rfl

end Piece

theorem faults_eq_flatMap (r : Registry) (ps : List Piece) :
    faults r 0 ps = (placed r 0 ps).flatMap (Token.faults r (render ps)) := by
  rw [faults, placed, List.flatMap_map]
  apply List.flatMap_congr
  rintro ⟨n, p⟩ hp
  obtain ⟨qs, rs, rfl, rfl⟩ := mem_located hp
  have hsource : render (qs ++ p :: rs) = render qs ++ p.source ++ render rs := by simp
  rw [hsource, p.faults_token r (render qs) (render rs) (Nat.zero_add _).symm]

/-! ### Nothing is reported twice -/

/-- What is reported of a piece points into its source, or right behind it if the piece is cut
off. -/
theorem Piece.faults_bounds (h : d ∈ p.strays n ++ p.endFaults r n) :
    n ≤ d.offset ∧ d.offset ≤ n + p.source.length ∧
      (p.isClosed → d.offset < n + p.source.length) := by
  rcases List.mem_append.mp h with h | h
  · cases p with
    | text w =>
      obtain ⟨i, hi, rfl⟩ := List.mem_map.mp h
      obtain ⟨hstart, hend⟩ := Text.mem_positions_bounds hi
      simp only [Fault.located, source]
      omega
    | tag c closed =>
      obtain ⟨i, hi, rfl⟩ := List.mem_map.mp h
      obtain ⟨hstart, hend⟩ := Text.mem_positions_bounds hi
      simp only [Fault.located, source, List.cons_append, List.length_cons, List.length_append]
      omega
  · cases p with
    | text w => exact absurd h List.not_mem_nil
    | tag c closed =>
      rcases List.mem_append.mp h with h | h
      · cases closed with
        | true => exact absurd h List.not_mem_nil
        | false =>
          obtain rfl := List.mem_singleton.mp h
          refine ⟨Int.le_refl _, ?_, fun hclosed => absurd hclosed Bool.false_ne_true⟩
          simp only [Fault.located]
          omega
      · have hd := Command.decode_faults_bounds h
        simp only [source, List.cons_append, List.length_cons, List.length_append]
        refine ⟨by omega, by omega, ?_⟩
        intro hclosed
        obtain rfl : closed = true := hclosed
        simp only [if_true, List.length_singleton]
        omega

/-- The scanner leaves the pairing of directives alone. -/
theorem Piece.faults_kind (h : d ∈ p.strays n ++ p.endFaults r n) : d.kind ≠ .regionMismatch := by
  rcases List.mem_append.mp h with h | h
  · cases p with
    | text w =>
      obtain ⟨i, -, rfl⟩ := List.mem_map.mp h
      exact nofun
    | tag c closed =>
      obtain ⟨i, -, rfl⟩ := List.mem_map.mp h
      exact nofun
  · cases p with
    | text w => exact absurd h List.not_mem_nil
    | tag c closed =>
      rcases List.mem_append.mp h with h | h
      · cases closed with
        | true => exact absurd h List.not_mem_nil
        | false =>
          obtain rfl := List.mem_singleton.mp h
          exact nofun
      · rcases Command.decode_faults_kind h with hk | hk <;> simp [hk]

theorem Piece.pairwise_faults (r : Registry) (n : Nat) (p : Piece) :
    (p.strays n ++ p.endFaults r n).Pairwise Diagnostic.Apart := by
  have hstrays (x : Char) (f : Fault) (m : Nat) (w : Text) :
      ((Text.positions x m w).map fun i : Nat => f.located i).Pairwise Diagnostic.Apart := by
    refine (Text.pairwise_positions x m w).map _ ?_
    intro i j hij
    right
    change (i : Int) ≠ j
    omega
  cases p with
  | text w =>
    rw [endFaults, List.append_nil]
    exact hstrays '>' .unopened n w
  | tag c closed =>
    refine List.pairwise_append.mpr ⟨hstrays '<' (.nested n) (n + 1) c, ?_, ?_⟩
    · refine List.pairwise_append.mpr ⟨?_, Command.pairwise_decode_faults r c n, ?_⟩
      · split
        · exact .nil
        · exact List.pairwise_singleton _ _
      · intro d hd e he
        left
        have hkind : d.kind = .unclosedTag := by
          split at hd <;> simp_all [Fault.located, Fault.kind]
        rcases Command.decode_faults_kind he with hk | hk <;> simp [hkind, hk]
    · intro d hd e he
      obtain ⟨i, hi, rfl⟩ := List.mem_map.mp hd
      obtain ⟨hi, -⟩ := Text.mem_positions_bounds hi
      rcases List.mem_append.mp he with he | he
      · right
        have hoffset : e.offset = n := by
          split at he <;> simp_all [Fault.located]
        rw [hoffset]
        change (i : Int) ≠ n
        omega
      · left
        rcases Command.decode_faults_kind he with hk | hk <;> simp [hk, Fault.located, Fault.kind]

/-- All that is reported of pieces points to them or behind them. -/
theorem le_offset_of_mem_faults (h : d ∈ faults r n ps) : n ≤ d.offset := by
  obtain ⟨⟨m, p⟩, hp, hd⟩ := List.mem_flatMap.mp h
  obtain ⟨qs, rs, -, rfl⟩ := mem_located hp
  have hm := (Piece.faults_bounds hd).1
  push_cast at hm
  omega

theorem Normal.pairwise_faults (h : Normal ps) (n : Nat) :
    (faults r n ps).Pairwise Diagnostic.Apart := by
  induction ps generalizing n with
  | nil => exact .nil
  | cons p ps ih =>
    rw [faults_cons]
    refine List.pairwise_append.mpr ⟨p.pairwise_faults r n, ih h.tail _, ?_⟩
    intro d hd e he
    right
    have hclosed : p.isClosed := by
      cases ps with
      | nil => exact absurd he List.not_mem_nil
      | cons q ps => exact (List.isChain_cons_cons.mp h.chain).1.1
    have hbefore := (Piece.faults_bounds hd).2.2 hclosed
    have hbehind := le_offset_of_mem_faults he
    push_cast at hbehind
    omega

/-- The diagnostics of a scan are those of its tokens, in order, and no two of them are of one
category at one place. -/
theorem tokenize_diagnosed (r : Registry) (source : Text) :
    Diagnosed r source (tokenize r source).1 (tokenize r source).2 := by
  obtain ⟨ps, hn, rfl, he⟩ := tokenize_eq r source
  rw [he]
  refine ⟨faults_eq_flatMap r ps, ?_, hn.pairwise_faults 0⟩
  intro t ht hd
  obtain ⟨⟨n, p⟩, -, rfl⟩ := List.mem_map.mp ht
  cases p with
  | text w => simp [Piece.token, Token.isDirective] at hd
  | tag c closed => rfl

end KineticText
