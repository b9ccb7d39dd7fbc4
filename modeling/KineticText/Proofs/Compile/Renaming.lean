import KineticText.Proofs.Command.Fields
import KineticText.Proofs.Compile.Composition
import KineticText.Proofs.Compile.Independence

/-! Keywords of one codeword say the same: a directive under another of them compiles alike. -/
namespace KineticText

/-- The text with `n` characters from position `i` on replaced by `w`. -/
def Text.splice (s : Text) (i n : Nat) (w : Text) : Text := s.take i ++ w ++ s.drop (i + n)

/-- The source with the keyword of a directive replaced by `k`. -/
def Token.rename (t : Token) (k source : Text) : Text :=
  source.splice (Command.point (t.offset + 1, Command.keyword t.content)).toNat
    (Command.name t.content).length k

/-- A text that is read as a keyword wherever it stands as one. -/
structure Text.IsKeyword (k : Text) : Prop where
  filled : k ≠ []
  no_open : '<' ∉ k
  no_close : '>' ∉ k
  no_colon : ':' ∉ k
  trimmed : k.trim = k

/-- The two compiles show, move and reveal the same, and the same categories are reported; places and
messages may differ. -/
structure Compiled.SaysSame (s : Settings) (c c' : Compiled) : Prop where
  display : c'.display = c.display
  visibleCount : c'.visibleCount = c.visibleCount
  regions : c'.regions = c.regions
  events : schedule s.pace c'.processed = schedule s.pace c.processed
  kinds : c'.diagnostics.map Diagnostic.kind = c.diagnostics.map Diagnostic.kind

variable {r : Registry} {defaults : Params (Option Float)}
  {p p' : Piece} {qs rs : List Piece} {cs cs' : List Cue}

/-! ### Directives without their contents and places -/

def Token.bare (t : Token) : Token := { t with content := [], offset := 0 }

def Opening.bare (o : Opening) : Opening := { o with token := o.token.bare }

def Fault.bare : Fault → Fault
  | reopened _ e _ => reopened [] e 0
  | neverOpened _ e => neverOpened [] e
  | neverClosed _ e => neverClosed [] e
  | f => f

def Finding.bare : Finding → Finding
  | opened o => opened o.bare
  | closed o t stop => closed o.bare t.bare stop
  | mismatch t f => mismatch t.bare f.bare

def Cue.bare (c : Cue) : Cue := ⟨c.token.bare, c.passed⟩

theorem carries_bare :
    Carries r defaults defaults Cue.bare Opening.bare Finding.bare where
  effect _ := rfl
  opened _ := rfl
  closed _ _ _ := ⟨_, _, rfl⟩
  mismatch _ _ := ⟨_, _, rfl⟩
  leftOpen _ := rfl
  found waits _ := by
    refine Token.finding?_carried ?_ ?_ ?_ ?_ ?_ waits
    all_goals
      intros
      rfl

/-- What findings tell without contents and places is told by the directives without them. -/
theorem filterMap_bare {β : Type} {F : Finding → Option β} (hF : ∀ f, F f.bare = F f)
    (h : cs'.map Cue.bare = cs.map Cue.bare) :
    (foundIn r defaults [] cs').filterMap F = (foundIn r defaults [] cs).filterMap F := by
  have hfound : (foundIn r defaults [] cs').map Finding.bare =
      (foundIn r defaults [] cs).map Finding.bare := by
    rw [← carries_bare.foundIn [] cs, ← carries_bare.foundIn [] cs', h]
  have hbare : F ∘ Finding.bare = F := funext hF
  have htold := congrArg (List.filterMap F) hfound
  rwa [List.filterMap_map, List.filterMap_map, hbare] at htold

theorem Finding.region?_bare (f : Finding) : f.bare.region? = f.region? := by
  cases f <;> rfl

theorem Finding.kind_bare (f : Finding) :
    f.bare.diagnostic?.map Diagnostic.kind = f.diagnostic?.map Diagnostic.kind := by
  cases f with
  | opened o => rfl
  | closed o t stop => rfl
  | mismatch t f => cases f <;> rfl

theorem map_kind_mergeSort {ds : List Diagnostic} {k : Diagnostic.Kind} (h : ∀ d ∈ ds, d.kind = k)
    (le : Diagnostic → Diagnostic → Bool) :
    (ds.mergeSort le).map Diagnostic.kind = ds.map Diagnostic.kind := by
  have hsorted : ∀ d ∈ ds.mergeSort le, d.kind = k := fun d hd => h d (List.mem_mergeSort.mp hd)
  rw [List.map_eq_replicate_iff.mpr h, List.map_eq_replicate_iff.mpr hsorted,
    List.length_mergeSort]

/-- The mismatches are all of one category, so their order does not show in the categories. -/
theorem kinds_ofTokens (s : Settings) (r : Registry) (ts : List Token) (ds : List Diagnostic) :
    (Compiled.ofTokens s r ts ds).diagnostics.map Diagnostic.kind = ds.map Diagnostic.kind ++
      (foundIn r s.paramDefaults [] (cues 0 ts)).filterMap
        fun f => f.diagnostic?.map Diagnostic.kind := by
  have hkind : ∀ d ∈ (foundIn r s.paramDefaults [] (cues 0 ts)).filterMap Finding.diagnostic?,
      d.kind = .regionMismatch := by
    intro d hd
    obtain ⟨f, hf, hd⟩ := List.mem_filterMap.mp hd
    exact (sourced_foundIn hf).kind hd
  rw [Compiled.ofTokens]
  dsimp only
  rw [List.map_append, map_kind_mergeSort hkind, List.map_filterMap]

/-- A compile stops at the same directive whatever the contents and places. -/
theorem stopped_bare (h : cs'.map Cue.bare = cs.map Cue.bare) :
    (cs'.find? (·.token.does r = .undefined)).map (·.token.codeword) =
      (cs.find? (·.token.does r = .undefined)).map (·.token.codeword) := by
  have hbare (cs : List Cue) : (cs.find? (·.token.does r = .undefined)).map (·.token.codeword) =
      ((cs.map Cue.bare).find? (·.token.does r = .undefined)).map (·.token.codeword) := by
    rw [List.find?_map, Option.map_map]
    rfl
  rw [hbare, h, ← hbare]

/-! ### Pieces with one meaning -/

/-- Two custom directives do the same, and the same is wrong with them. -/
structure Piece.Synonym (r : Registry) (p p' : Piece) : Prop where
  custom : p.isCustom r
  custom' : p'.isCustom r
  token : ∀ n, (p'.token r n).bare = (p.token r n).bare
  kinds : ∀ n, (p'.strays n ++ p'.endFaults r n).map Diagnostic.kind =
    (p.strays n ++ p.endFaults r n).map Diagnostic.kind

theorem flatMap_exchange {β : Type} {F : Token → List β}
    (hmove : ∀ (g : Int → Int) (t : Token), F (t.move g) = F t)
    (hF : F (p'.token r 0) = F (p.token r 0)) :
    (placed r 0 (qs ++ p' :: rs)).flatMap F = (placed r 0 (qs ++ p :: rs)).flatMap F := by
  rw [flatMap_placed_of_move hmove, flatMap_placed_of_move hmove, List.flatMap_append,
    List.flatMap_append, List.flatMap_cons, List.flatMap_cons, hF]

theorem cues_bare (k m n : Nat) (ps : List Piece) :
    (cues k (placed r m ps)).map Cue.bare = (cues k (placed r n ps)).map Cue.bare := by
  have herased := congrArg (List.map Cue.bare) (cues_erased (r := r) k m n ps)
  rwa [List.map_map, List.map_map] at herased

theorem kinds_faults (m n : Nat) (ps : List Piece) :
    (faults r m ps).map Diagnostic.kind = (faults r n ps).map Diagnostic.kind := by
  have hzero (n : Nat) :
      (faults r n ps).map Diagnostic.kind = (faults r 0 ps).map Diagnostic.kind := by
    have hsites := congrArg (List.map Prod.fst) (site_faults_add r 0 n ps)
    rwa [Nat.zero_add, List.map_map, List.map_map] at hsites
  rw [hzero m, hzero n]

namespace Piece.Synonym

variable (h : p.Synonym r p')
include h

/-- The directives are those of the other, and so is what comes behind. -/
theorem cues_exchange : (cues 0 (placed r 0 (qs ++ p' :: rs))).map Cue.bare =
    (cues 0 (placed r 0 (qs ++ p :: rs))).map Cue.bare := by
  have hsplit (p : Piece) (hp : p.isCustom r) :
      (cues 0 (placed r 0 (qs ++ p :: rs))).map Cue.bare =
        (cues 0 (placed r 0 qs)).map Cue.bare ++
          ⟨(p.token r (0 + (render qs).length)).bare,
            0 + ((placed r 0 qs).flatMap Token.visible).length⟩ ::
          (cues (0 + ((placed r 0 qs).flatMap Token.visible).length)
            (placed r 0 rs)).map Cue.bare := by
    have hcustom := (isCustom_token r (0 + (render qs).length) p).trans hp
    rw [placed_append, placed_cons, cues_append, cues_cons_of_custom hcustom,
      Token.visible_of_custom hcustom, List.map_append, List.map_cons, cues_bare _ _ 0 rs]
    rfl
  rw [hsplit p h.custom, hsplit p' h.custom', h.token]

theorem kinds_exchange : (faults r 0 (qs ++ p' :: rs)).map Diagnostic.kind =
    (faults r 0 (qs ++ p :: rs)).map Diagnostic.kind := by
  have hsplit (p : Piece) : (faults r 0 (qs ++ p :: rs)).map Diagnostic.kind =
      (faults r 0 qs).map Diagnostic.kind ++
        ((p.strays (0 + (render qs).length) ++
          p.endFaults r (0 + (render qs).length)).map Diagnostic.kind ++
        (faults r 0 rs).map Diagnostic.kind) := by
    rw [faults_append, faults_cons, List.map_append, List.map_append, kinds_faults _ 0 rs]
  rw [hsplit, hsplit, h.kinds]

/-- One directive in the place of the other compiles alike. -/
theorem saysSame (s : Settings) : Compiled.SaysSame s
    (.ofTokens s r (placed r 0 (qs ++ p :: rs)) (faults r 0 (qs ++ p :: rs)))
    (.ofTokens s r (placed r 0 (qs ++ p' :: rs)) (faults r 0 (qs ++ p' :: rs))) := by
  have hcustom : (p.token r 0).isCustom := (isCustom_token r 0 p).trans h.custom
  have hcustom' : (p'.token r 0).isCustom := (isCustom_token r 0 p').trans h.custom'
  refine ⟨?_, ?_, ?_, ?_, ?_⟩
  · apply flatMap_exchange fun _ _ => rfl
    rw [Token.display_eq, Token.display_eq, if_pos hcustom, if_pos hcustom']
  · apply congrArg List.length
    apply flatMap_exchange fun _ _ => rfl
    rw [Token.visible_of_custom hcustom, Token.visible_of_custom hcustom']
  · exact filterMap_bare Finding.region?_bare h.cues_exchange
  · rw [schedule_ofTokens kind_ne_pause_of_mem_placed, schedule_ofTokens kind_ne_pause_of_mem_placed]
    apply flatMap_exchange fun _ _ => rfl
    rw [Token.appearance_of_custom hcustom, Token.appearance_of_custom hcustom']
  · rw [kinds_ofTokens, kinds_ofTokens, h.kinds_exchange,
      filterMap_bare Finding.kind_bare h.cues_exchange]

/-- A source with one directive in the place of the other compiles alike, or stops alike. -/
theorem compile_exchange (s : Settings) (hn : Normal (qs ++ p :: rs))
    (hn' : Normal (qs ++ p' :: rs)) :
    (∀ x, compile s r (render (qs ++ p' :: rs)) = .error x ↔
      compile s r (render (qs ++ p :: rs)) = .error x) ∧
    ∀ c, compile s r (render (qs ++ p :: rs)) = .ok c →
      ∃ c', compile s r (render (qs ++ p' :: rs)) = .ok c' ∧ c.SaysSame s c' := by
  have hstops (x : CompileError) : compile s r (render (qs ++ p' :: rs)) = .error x ↔
      compile s r (render (qs ++ p :: rs)) = .error x := by
    have hcodeword (o : Option Cue) : (∃ q, o = some q ∧ x = .undefinedEffect q.token.codeword) ↔
        ∃ w, o.map (·.token.codeword) = some w ∧ x = .undefinedEffect w := by
      cases o <;> simp
    rw [compile_eq_error_iff, compile_eq_error_iff, tokenize_render r hn, tokenize_render r hn',
      hcodeword, hcodeword, stopped_bare h.cues_exchange]
  refine ⟨hstops, ?_⟩
  intro c hc
  cases hc' : compile s r (render (qs ++ p' :: rs)) with
  | error x =>
    rw [(hstops x).mp hc'] at hc
    exact nomatch hc
  | ok c' =>
    obtain ⟨-, rfl⟩ := compile_eq_ok_iff_cues.mp hc
    obtain ⟨-, rfl⟩ := compile_eq_ok_iff_cues.mp hc'
    rw [tokenize_render r hn, tokenize_render r hn']
    exact ⟨_, rfl, h.saysSame s⟩

end Piece.Synonym

/-! ### Keywords in their place -/

/-- A tag may have any content without a `>`. -/
theorem Normal.exchange_tag {c c' : Text} {closed : Bool} (h : Normal (qs ++ .tag c closed :: rs))
    (hc : '>' ∉ c') : Normal (qs ++ .tag c' closed :: rs) := by
  have hchain (c : Text) : (qs ++ .tag c closed :: rs).IsChain Piece.Precedes ↔
      ((qs.map fun p => (p.isClosed, p.isText)) ++ (closed, false) ::
        rs.map fun p => (p.isClosed, p.isText)).IsChain
          fun x y : Bool × Bool => x.1 ∧ ¬ (x.2 ∧ y.2) := by
    have hmap : (qs ++ .tag c closed :: rs).map (fun p => (p.isClosed, p.isText)) =
        (qs.map fun p => (p.isClosed, p.isText)) ++ (closed, false) ::
          rs.map fun p => (p.isClosed, p.isText) := List.map_append
    rw [← hmap, List.isChain_map]
    exact Iff.rfl
  refine ⟨?_, ?_, (hchain c').mpr ((hchain c).mp h.chain)⟩
  · intro p hp
    rcases List.mem_append.mp hp with hp | hp
    · exact h.unbroken p (List.mem_append_left _ hp)
    · rcases List.mem_cons.mp hp with rfl | hp
      · exact hc
      · exact h.unbroken p (List.mem_append_right _ (List.mem_cons_of_mem _ hp))
  · simpa using h.filled

theorem Text.splice_append {u w v w' : Text} {i m : Nat} (hu : u.length = i) (hw : w.length = m) :
    (u ++ w ++ v).splice i m w' = u ++ w' ++ v := by
  have hlen : (u ++ w).length = i + m := by rw [List.length_append, hu, hw]
  rw [splice, List.drop_left' hlen, List.append_assoc u w v, List.take_left' hu]

/-- A text begins with so many blanks before what is trimmed of it. -/
theorem Text.exists_eq_indent {s : Text} (h : s.trim ≠ []) :
    ∃ u v, s = u ++ s.trim ++ v ∧ s.indent = u.length ∧ (∀ c ∈ u, isBlank c) ∧
      ∀ c ∈ v, isBlank c := by
  obtain ⟨v, hs, hv⟩ := exists_eq_takeWhile_trimBy isBlank s
  refine ⟨s.takeWhile isBlank, v, hs, ?_, fun c hc => List.mem_takeWhile_imp hc, hv⟩
  have hall : ¬ s.all isBlank := by
    intro hall
    have hnil : s.dropWhile isBlank = [] := List.dropWhile_eq_nil_iff.mpr (List.all_eq_true.mp hall)
    exact h (by simp [trim, trimBy, hnil])
  exact if_neg hall

section Keywords

variable {P Q : Command.Parts} {u v k k' : Text} {c : Codeword} {closed : Bool}

/-- Every `<` inside a tag is reported. -/
theorem kinds_strays_tag (n : Nat) (w : Text) :
    ((Piece.tag w closed).strays n).map Diagnostic.kind =
      List.replicate (w.count '<') .unclosedTag := by
  rw [Piece.strays, List.map_map, ← Text.length_positions]
  exact List.map_eq_replicate_iff.mpr fun _ _ => rfl

theorem text_of_head (hP : P.head = u ++ k ++ v) :
    P.text = u ++ k ++ v ++ Command.join [] P.fields := by
  rw [Command.Parts.text, Command.join_eq, hP]

/-- Tags that differ in the keyword have one meaning if the keywords have one codeword. -/
theorem Piece.synonym_tag (hP : P.head = u ++ k ++ v) (hQ : Q.head = u ++ k' ++ v)
    (hf : Q.fields = P.fields) (hl : r.lookup P.head.trim = some c)
    (hl' : r.lookup Q.head.trim = some c) (hc : c ≠ .native) (ho : '<' ∉ k) (ho' : '<' ∉ k') :
    Synonym r (.tag P.text closed) (.tag Q.text closed) where
  custom := by simp [isCustom, P.name_text, hl, hc]
  custom' := by simp [isCustom, Q.name_text, hl', hc]
  token n := by
    have hcommand : (Command.decode r Q.text n).1 = (Command.decode r P.text n).1 :=
      Command.Parts.decode_text_fst (hl'.trans hl.symm) (by rw [hf])
    simp only [token, Token.bare, hcommand]
  kinds n := by
    have hcount : Q.text.count '<' = P.text.count '<' := by
      rw [text_of_head hP, text_of_head hQ, hf]
      simp only [List.count_append, List.count_eq_zero_of_not_mem ho,
        List.count_eq_zero_of_not_mem ho']
    rw [List.map_append, List.map_append, kinds_strays_tag, kinds_strays_tag, hcount, endFaults,
      endFaults, List.map_append, List.map_append,
      Command.kinds_decode_text (hl'.trans hl.symm) hf]

/-- Renaming a directive replaces its keyword between the white space around it. -/
theorem rename_token (r : Registry) (qs rs : List Piece) (closed : Bool)
    (hP : P.head = u ++ k ++ v) (hQ : Q.head = u ++ k' ++ v) (hf : Q.fields = P.fields)
    (hname : P.head.trim = k) (hindent : P.head.indent = u.length) :
    ((Piece.tag P.text closed).token r (render qs).length).rename k'
        (render (qs ++ .tag P.text closed :: rs)) =
      render (qs ++ .tag Q.text closed :: rs) := by
  have hstart : (Command.point (((render qs).length : Int) + 1, P.head)).toNat =
      (render qs ++ '<' :: u).length := by
    simp only [Command.point, hindent, List.length_append, List.length_cons]
    omega
  have hrender (w : Text) (P : Command.Parts) (hP : P.head = u ++ w ++ v) :
      render (qs ++ .tag P.text closed :: rs) = (render qs ++ '<' :: u) ++ w ++
        (v ++ (Command.join [] P.fields ++ ((if closed then ['>'] else []) ++ render rs))) := by
    simp [text_of_head hP, Piece.source]
  simp only [Token.rename, Piece.token, P.keyword_text, P.name_text, hname]
  rw [hstart, hrender k P hP, hrender k' Q hQ, hf]
  exact Text.splice_append rfl rfl

/-- The keywords of one codeword are interchangeable: with one in the place of another in any of its
directives, a source compiles to the same text, regions, reveal and categories of diagnostics, or
stops alike. -/
theorem compile_rename (s : Settings) (r : Registry) (c : Codeword) (k k' source : Text) (t : Token)
    (hl : r.lookup k = some c) (hl' : r.lookup k' = some c) (hc : c ≠ .native)
    (hk : k.IsKeyword) (hk' : k'.IsKeyword) (ht : t ∈ (tokenize r source).1) (hd : t.isDirective)
    (hname : Command.name t.content = k) :
    (∀ x, compile s r (t.rename k' source) = .error x ↔ compile s r source = .error x) ∧
    ∀ a, compile s r source = .ok a →
      ∃ b, compile s r (t.rename k' source) = .ok b ∧ a.SaysSame s b := by
  obtain ⟨ps, hn, rfl, htokens⟩ := tokenize_eq r source
  rw [htokens] at ht
  obtain ⟨⟨n, piece⟩, hmem, rfl⟩ := List.mem_map.mp ht
  cases piece with
  | text w => exact nomatch hd
  | tag raw closed =>
    obtain ⟨qs, rs, rfl, rfl⟩ := mem_located hmem
    obtain ⟨P, rfl⟩ : ∃ P : Command.Parts, P.text = raw := ⟨_, Command.Parts.text_ofText raw⟩
    have htrim : P.head.trim = k := P.name_text.symm.trans hname
    obtain ⟨u, v, hP, hindent, hu, hv⟩ :=
      Text.exists_eq_indent (s := P.head) (htrim ▸ hk.filled)
    rw [htrim] at hP
    have hpadded : k'.Padded (u ++ k' ++ v) := ⟨u, v, rfl, hu, hv⟩
    obtain ⟨Q, hQ, hf⟩ : ∃ Q : Command.Parts, Q.head = u ++ k' ++ v ∧ Q.fields = P.fields :=
      ⟨⟨_, P.fields, hpadded.notMem (by decide) hk'.no_colon, P.fields_ne, P.fields_free⟩, rfl, rfl⟩
    have htrim' : Q.head.trim = k' := by rw [hQ, hpadded.trim_eq, hk'.trimmed]
    have hclose : '>' ∉ Q.text := by
      have hunbroken : '>' ∉ P.text := hn.unbroken (.tag P.text closed) (by simp)
      rw [text_of_head hP] at hunbroken
      rw [text_of_head hQ, hf]
      simp only [List.mem_append, not_or] at hunbroken ⊢
      exact ⟨⟨⟨hunbroken.1.1.1, hk'.no_close⟩, hunbroken.1.2⟩, hunbroken.2⟩
    have hsynonym : Piece.Synonym r (.tag P.text closed) (.tag Q.text closed) :=
      Piece.synonym_tag hP hQ hf (htrim ▸ hl) (htrim' ▸ hl') hc hk.no_open hk'.no_open
    rw [Nat.zero_add, rename_token r qs rs closed hP hQ hf htrim hindent]
    exact hsynonym.compile_exchange s hn (hn.exchange_tag hclose)

end Keywords

/-- A wave with a bad parameter, closed with blanks and a block, closed once more, and a tag cut
off. -/
def closedTwice : Text := "<wave:2,y>a.< /wave :3>b</wave>c<".toList

/-- The first of its two ends. -/
def firstEnd : Token :=
  { kind := .directive, content := " /wave :3".toList, offset := 12, codeword := .waveEnd }

theorem compile_rename_closedTwice :
    firstEnd ∈ (tokenize .standard closedTwice).1 ∧
    firstEnd.rename "wave-end".toList closedTwice =
      "<wave:2,y>a.< wave-end :3>b</wave>c<".toList ∧
    ∃ a b, compile {} .standard closedTwice = .ok a ∧
      compile {} .standard (firstEnd.rename "wave-end".toList closedTwice) = .ok b ∧
      b.regions.map (fun g => (g.start, g.stop)) = [(0, 2)] ∧ a.SaysSame {} b := by
  have hmem : firstEnd ∈ (tokenize .standard closedTwice).1 := by decide +kernel
  have hlookup : Registry.standard.lookup "/wave".toList = some .waveEnd := by decide
  have halias : Registry.standard.lookup "wave-end".toList = some .waveEnd := by decide
  have hk : Text.IsKeyword "/wave".toList := by constructor <;> decide
  have hk' : Text.IsKeyword "wave-end".toList := by constructor <;> decide
  obtain ⟨a, ha⟩ := exists_compile_standard {} closedTwice
  obtain ⟨b, hb, hsame⟩ := (compile_rename {} .standard .waveEnd _ _ closedTwice firstEnd hlookup
    halias nofun hk hk' hmem rfl (by decide)).2 a ha
  refine ⟨hmem, by decide +kernel, a, b, ha, hb, ?_, hsame⟩
  rw [hsame.regions]
  obtain ⟨-, rfl⟩ := compile_eq_ok_iff_cues.mp ha
  decide +kernel

end KineticText
