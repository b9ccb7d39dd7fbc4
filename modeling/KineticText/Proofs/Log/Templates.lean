import KineticText.Log.Template
import KineticText.Proofs.Value.Paths

/-! A template is filled part by part: what stands outside its places stays, and each place is
filled by its own value. -/
namespace KineticText.Template

open KineticText.Path (IsName NoNumber)

variable {values : List (Text × Value)} {path name s t u v : Text} {steps : List Path.Step}
  {done : List Piece} {p : Place} {k : Nat} {b b' : Bool}

/-! ### Writing -/

/-- A text with its braces doubled. -/
def doubled (s : Text) : Text := s.flatMap fun c => if c = '\x7b' ∨ c = '\x7d' then [c, c] else [c]

/-- What stands behind the path of a place. -/
def Place.behind (p : Place) : Text :=
  (p.conversion.elim [] fun c => ['!', c]) ++
    ((if p.layout = [] then [] else ':' :: p.layout) ++ ['\x7d'])

/-- A place between its braces. -/
def Place.written (p : Place) : Text := '\x7b' :: (p.path ++ p.behind)

/-- The text goes through a path and is not its end. -/
def Inner (s : Text) : Prop := ∀ c ∈ s, c ≠ '\x7b' ∧ c ≠ '\x7d' ∧ c ≠ ':' ∧ c ≠ '!'

/-- What is written of a place reads as the place: its path can be written between braces, and its
layout has no places of its own. -/
structure Place.Writable (p : Place) : Prop where
  path : ∃ name, ∃ steps : List Path.Step, p.path = name ++ steps.flatMap Path.Step.written ∧
    IsName name ∧ Inner name ∧ (∀ step ∈ steps, step.Writable) ∧
    ∀ part, Path.Step.part part ∈ steps → Inner part
  layout : ∀ c ∈ p.layout, c ≠ '\x7b' ∧ c ≠ '\x7d'

/-! ### Reading a place -/

/-- The search for the end of a path goes through the text. -/
def Passes (b : Bool) (s : Text) (b' : Bool) : Prop :=
  ∀ k t, pathLength b k (s ++ t) = pathLength b' (k + s.length) t

theorem Passes.append {b'' : Bool} (hs : Passes b s b') (ht : Passes b' t b'') :
    Passes b (s ++ t) b'' := by
  intro k u
  rw [List.append_assoc, hs, ht, List.length_append, Nat.add_assoc]

theorem passes_nil (b : Bool) : Passes b [] b := fun _ _ => rfl

theorem passes_inner (hs : Inner s) (hopen : '[' ∉ s) : Passes false s false := by
  intro k t
  induction s generalizing k with
  | nil => rfl
  | cons c s ih =>
    have hc := hs c (by simp)
    have hne : c ≠ '[' := fun h => hopen (by simp [h])
    have hrest := ih (fun x hx => hs x (by simp [hx])) (fun h => hopen (by simp [h])) (k + 1)
    rw [List.cons_append, pathLength, if_neg (by simp), if_neg (by simp [hc]), decide_eq_false hne,
      hrest, List.length_cons]
    congr 1
    omega

theorem passes_key (hs : ']' ∉ s) : Passes true s true := by
  intro k t
  induction s generalizing k with
  | nil => rfl
  | cons c s ih =>
    have hne : c ≠ ']' := fun h => hs (by simp [h])
    have hrest := ih (fun h => hs (by simp [h])) (k + 1)
    rw [List.cons_append, pathLength, if_pos rfl, decide_eq_true hne, hrest, List.length_cons]
    congr 1
    omega

theorem passes_brackets (hs : ']' ∉ s) : Passes false ('[' :: (s ++ [']'])) false := by
  have hopen : Passes false ['['] true := fun k t => by simp [pathLength]
  have hclose : Passes true [']'] false := fun k t => by simp [pathLength]
  exact hopen.append ((passes_key hs).append hclose)

theorem passes_step {step : Path.Step} (h : step.Writable)
    (hinner : ∀ part, step = .part part → Inner part) : Passes false step.written false := by
  cases step with
  | part part =>
    have hopen : '[' ∉ '.' :: part := by
      intro hmem
      rcases List.mem_cons.mp hmem with hmem | hmem
      · exact absurd hmem (by decide)
      · exact (h.plain _ hmem).2 rfl
    refine passes_inner (fun c hc => ?_) hopen
    rcases List.mem_cons.mp hc with rfl | hc
    · decide
    · exact hinner part rfl c hc
  | item i =>
    refine passes_brackets fun hc => ?_
    exact absurd (Text.isDigit_of_mem_ofNat hc) (by decide)
  | entry key => exact passes_brackets h.2.1

theorem passes_path (hname : IsName name) (hinner : Inner name)
    (h : ∀ step ∈ steps, step.Writable)
    (hparts : ∀ part, Path.Step.part part ∈ steps → Inner part) :
    Passes false (name ++ steps.flatMap Path.Step.written) false := by
  refine (passes_inner hinner fun hc => (hname.plain _ hc).2 rfl).append ?_
  induction steps with
  | nil => exact passes_nil false
  | cons step steps ih =>
    rw [List.flatMap_cons]
    refine (passes_step (h step (by simp)) fun part hpart => hparts part (by simp [hpart])).append ?_
    exact ih (fun x hx => h x (by simp [hx])) fun part hpart => hparts part (by simp [hpart])

theorem layoutLength?_append (h : ∀ c ∈ s, c ≠ '\x7b' ∧ c ≠ '\x7d') (k : Nat) (t : Text) :
    layoutLength? 0 k (s ++ '\x7d' :: t) = some (k + s.length) := by
  induction s generalizing k with
  | nil => rfl
  | cons c s ih =>
    obtain ⟨hopen, hclose⟩ := h c (by simp)
    have hrest := ih (fun x hx => h x (by simp [hx])) (k + 1)
    rw [List.cons_append, layoutLength?, hrest, List.length_cons]
    · congr 1
      omega
    · exact hopen
    · exact hclose

/-- A path ends where something else of its place begins. -/
theorem pathLength_behind (p : Place) (k : Nat) (t : Text) :
    pathLength false k (p.behind ++ t) = k := by
  obtain ⟨path, conversion, layout⟩ := p
  rw [Place.behind]
  cases conversion with
  | some c => rfl
  | none => cases layout <;> rfl

theorem placeWithLayout_append {layout : Text} (h : ∀ c ∈ layout, c ≠ '\x7b' ∧ c ≠ '\x7d')
    (path : Text) (conversion : Option Char) (n : Nat) (t : Text) :
    placeWithLayout path conversion n (layout ++ '\x7d' :: t) =
      .ok (⟨path, conversion, layout⟩, n + layout.length + 1) := by
  have hlen := layoutLength?_append h 0 t
  rw [Nat.zero_add] at hlen
  rw [placeWithLayout, hlen]
  simp

theorem behind_of_layout {layout : Text} (h : layout ≠ []) (path : Text)
    (conversion : Option Char) : Place.behind ⟨path, conversion, layout⟩ =
      (conversion.elim [] fun c => ['!', c]) ++ ':' :: (layout ++ ['\x7d']) := by
  rw [Place.behind, if_neg h]
  rfl

theorem placeAfter_behind (h : ∀ c ∈ p.layout, c ≠ '\x7b' ∧ c ≠ '\x7d') (t : Text) :
    placeAfter p.path (p.behind ++ t) = .ok (p, (p.path ++ p.behind).length) := by
  obtain ⟨path, conversion, layout⟩ := p
  rw [List.length_append]
  by_cases hlayout : layout = []
  · subst hlayout
    cases conversion <;> rfl
  · rw [behind_of_layout hlayout]
    cases conversion with
    | none =>
      have hlength : (':' :: (layout ++ ['\x7d'])).length = 1 + layout.length + 1 := by
        simp only [List.length_cons, List.length_append, List.length_nil]
        omega
      change placeWithLayout path none (path.length + 1) (layout ++ ['\x7d'] ++ t) =
        .ok (_, path.length + (':' :: (layout ++ ['\x7d'])).length)
      rw [List.append_assoc, hlength, ← Nat.add_assoc, ← Nat.add_assoc]
      exact placeWithLayout_append h path none (path.length + 1) t
    | some conversion =>
      have hlength : ('!' :: conversion :: ':' :: (layout ++ ['\x7d'])).length =
          3 + layout.length + 1 := by
        simp only [List.length_cons, List.length_append, List.length_nil]
        omega
      change placeWithLayout path (some conversion) (path.length + 3) (layout ++ ['\x7d'] ++ t) =
        .ok (_, path.length + ('!' :: conversion :: ':' :: (layout ++ ['\x7d'])).length)
      rw [List.append_assoc, hlength, ← Nat.add_assoc, ← Nat.add_assoc]
      exact placeWithLayout_append h path (some conversion) (path.length + 3) t

/-- A place is read as it is written. -/
theorem readPlace_written (h : p.Writable) (t : Text) :
    readPlace (p.path ++ p.behind ++ t) = .ok (p, (p.path ++ p.behind).length) := by
  obtain ⟨name, steps, hpath, hname, hinner, hsteps, hparts⟩ := h.path
  have hpasses := passes_path hname hinner hsteps hparts 0 (p.behind ++ t)
  rw [← hpath, pathLength_behind, Nat.zero_add] at hpasses
  rw [readPlace, List.append_assoc, hpasses, List.take_left' rfl, List.drop_left' rfl]
  exact placeAfter_behind h.layout t

/-! ### Reading a template -/

theorem piecesFrom_doubled (s t : Text) (done : List Piece) :
    piecesFrom done (doubled s ++ t) = piecesFrom ((s.map .char).reverse ++ done) t := by
  induction s generalizing done with
  | nil => rfl
  | cons c s ih =>
    have hpieces : piecesFrom done (doubled (c :: s) ++ t) =
        piecesFrom (.char c :: done) (doubled s ++ t) := by
      rw [doubled, List.flatMap_cons, List.append_assoc, ← doubled]
      by_cases hopen : c = '\x7b'
      · subst hopen
        simp [piecesFrom]
      · by_cases hclose : c = '\x7d'
        · subst hclose
          simp [piecesFrom]
        · simp [piecesFrom, hopen, hclose]
    rw [hpieces, ih]
    simp

theorem piecesFrom_place (h : p.Writable) (t : Text) (done : List Piece) :
    piecesFrom done (p.written ++ t) = piecesFrom (.place p :: done) t := by
  obtain ⟨name, steps, hpath, hname, hinner, -, -⟩ := h.path
  obtain ⟨c, rest, rfl⟩ := List.exists_cons_of_ne_nil hname.ne_nil
  have hfirst : ∃ s, p.path ++ p.behind ++ t = c :: s := ⟨_, by rw [hpath]; rfl⟩
  obtain ⟨s, hs⟩ := hfirst
  have hc := hinner c (by simp)
  have hread := readPlace_written h t
  rw [Place.written, List.cons_append, piecesFrom, hread]
  · simp only [List.drop_left' rfl]
  · intro u hu
    rw [hs] at hu
    exact hc.1 (List.cons.inj hu).1
  · rw [hs]
    exact List.cons_ne_nil c s

/-- What a message is made of. -/
inductive Part where
  | text (s : Text)
  | place (p : Place)

namespace Part

def written : Part → Text
  | text s => doubled s
  | place p => p.written

def Writable : Part → Prop
  | text _ => True
  | place p => p.Writable

def pieces : Part → List Piece
  | text s => s.map .char
  | place p => [.place p]

end Part

variable {parts : List Part}

theorem piecesFrom_written (h : ∀ x ∈ parts, x.Writable) (done : List Piece) :
    piecesFrom done (parts.flatMap Part.written) =
      (done.reverse ++ parts.flatMap Part.pieces, none) := by
  induction parts generalizing done with
  | nil => simp [piecesFrom]
  | cons x parts ih =>
    have hrest := ih fun y hy => h y (by simp [hy])
    rw [List.flatMap_cons]
    cases x with
    | text s =>
      rw [Part.written, piecesFrom_doubled, hrest]
      simp [Part.pieces]
    | place p =>
      rw [Part.written, piecesFrom_place (h (.place p) (by simp)), hrest]
      simp [Part.pieces]

/-! ### Filling -/

/-- The value at the end of a path, or what is missing on the way. -/
theorem find_written (hname : IsName name) (hnumber : NoNumber name)
    (h : ∀ step ∈ steps, step.Writable) :
    find values (name ++ steps.flatMap Path.Step.written) =
      (values.lookup name).elim (.error (.unknownName name)) fun v =>
        (steps.foldlM Value.step v).mapError .missing := by
  rw [find, Path.parse_written hname hnumber h]
  cases hv : values.lookup name with
  | none => simp [Except.mapError, bind, Except.bind, hv, throw, throwThe, MonadExceptOf.throw]
  | some v =>
    simp only [Except.mapError, bind, Except.bind, hv, Option.elim_some]
    cases steps.foldlM Value.step v <;> rfl

/-- A text stays as it is, and a place is filled by what its value comes to. -/
def Part.filled (values : List (Text × Value)) : Part → Except Error Text
  | text s => .ok s
  | place p => do
    let v ← convert p.conversion (← find values p.path)
    (v.arranged p.layout).mapError .layout

theorem fillTo_of_pieces {template : Text} {ps : List Piece} (h : pieces template = (ps, none))
    (depth : Nat) : fillTo values (depth + 1) template =
      (ps.mapM (Piece.filled values (fillTo values depth))).map List.flatten := by
  rw [fillTo, h]
  simp only
  cases ps.mapM (Piece.filled values (fillTo values depth)) <;> rfl

variable {fillLayout : Text → Except Error Text}

theorem mapM_chars (s : Text) :
    (s.map Piece.char).mapM (Piece.filled values fillLayout) = .ok (s.map fun c => [c]) := by
  induction s with
  | nil => rfl
  | cons c s ih =>
    rw [List.map_cons, List.mapM_cons, ih]
    rfl

/-- What the pieces of a part come to makes up what the part does. -/
theorem mapM_pieces (x : Part) (h : x.Writable) :
    (x.pieces.mapM (Piece.filled values fillLayout)).map List.flatten = x.filled values := by
  cases x with
  | text s =>
    rw [Part.pieces, mapM_chars, Part.filled, Except.map, ← List.flatMap_def, List.flatMap_singleton']
  | place p =>
    have hplain : p.layout.contains '\x7b' = false := by
      rw [← Bool.not_eq_true, List.contains_iff_mem]
      exact fun hc => (h.layout _ hc).1 rfl
    have hpiece : Piece.filled values fillLayout (.place p) = Part.filled values (.place p) := by
      rw [Piece.filled, Part.filled, hplain]
      rfl
    rw [Part.pieces, List.mapM_cons, List.mapM_nil, hpiece]
    cases Part.filled values (.place p) <;> simp [bind, Except.bind, Except.map, pure, Except.pure]

theorem mapM_flatMap_pieces (h : ∀ x ∈ parts, x.Writable) :
    ((parts.flatMap Part.pieces).mapM (Piece.filled values fillLayout)).map List.flatten =
      (parts.mapM (Part.filled values)).map List.flatten := by
  induction parts with
  | nil => rfl
  | cons x parts ih =>
    have hrest := ih fun y hy => h y (by simp [hy])
    have hx : (x.pieces.mapM (Piece.filled values fillLayout)).map List.flatten =
        x.filled values := mapM_pieces x (h x (by simp))
    rw [List.flatMap_cons, List.mapM_append, List.mapM_cons, ← hx]
    generalize (parts.flatMap Part.pieces).mapM (Piece.filled values fillLayout) = rest at hrest ⊢
    generalize parts.mapM (Part.filled values) = filled at hrest ⊢
    cases x.pieces.mapM (Piece.filled values fillLayout) with
    | error e => rfl
    | ok texts =>
      cases rest <;> cases filled <;>
        simp_all [bind, Except.bind, Except.map, pure, Except.pure]

/-- A message is filled part by part. -/
theorem fillTo_written (h : ∀ x ∈ parts, x.Writable) (depth : Nat) :
    fillTo values (depth + 1) (parts.flatMap Part.written) =
      (parts.mapM (Part.filled values)).map List.flatten := by
  rw [fillTo_of_pieces (piecesFrom_written h []), List.reverse_nil, List.nil_append,
    mapM_flatMap_pieces h]

/-- Any text is the message of some template, also one with braces. -/
theorem fill_doubled (h : values ≠ []) (s : Text) : fill values (doubled s) = .ok s := by
  have hfill : fillTo values 2 ([.text s].flatMap Part.written) =
      ([.text s].mapM (Part.filled values)).map List.flatten :=
    fillTo_written (by simp [Part.Writable]) 1
  rw [fill, if_neg (by simpa using h)]
  simpa [Part.written, Part.filled, Except.map, pure, Except.pure, bind, Except.bind] using hfill

end KineticText.Template
