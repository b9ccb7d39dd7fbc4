import KineticText.Proofs.Compile.Outcome
import KineticText.Proofs.Diagnostic.Quotes
import KineticText.Proofs.Timeline.Accounting
import KineticText.Proofs.Timeline.Separation
import KineticText.Proofs.Token.Joining
import KineticText.Proofs.Token.Pointing
import KineticText.Proofs.Token.Tiling

/-! Where the diagnostics of a compile point: each to a character of the source, unless the source
ends behind a comma where a field should stand. -/
namespace KineticText

/-- The command ends behind the comma before a field that is read, or reported as one too many. -/
inductive Command.Parts.Lacks (r : Registry) (p : Parts) : Fault → Prop where
  | number {fs : List Text} (hc : (r.lookup p.head.trim).isSome) (hf : p.fields = some (fs ++ [[]]))
      (hne : fs ≠ []) (hlen : fs.length < Params.count) :
      Lacks r p (.notNumber p.head.trim (fs.length + 1) [])
  | excess {fs : List Text} (hc : (r.lookup p.head.trim).isSome) (hf : p.fields = some (fs ++ [[]]))
      (hlen : fs.length = Params.count) :
      Lacks r p (.extraFields p.head.trim Params.count (Params.count + 1))

/-- The source ends in the tag, where a field should stand. -/
def Token.Lacks (r : Registry) (t : Token) (f : Fault) : Prop :=
  t.isDirective ∧ ¬ t.closed ∧ ∃ p : Command.Parts, p.text = t.content ∧ p.Lacks r f

variable {s : Settings} {r : Registry} {source : Text} {c : Compiled} {d : Diagnostic} {f : Fault}
  {q : Piece} {ps : List Piece} {t : Token} {ts : List Token} {n : Nat}

theorem Text.indent_lt_length {s : Text} (h : s ≠ []) : s.indent < s.length := by
  by_cases hs : s.all isBlank
  · rw [indent, if_pos hs]
    exact List.length_pos_of_ne_nil h
  · obtain ⟨u, c, v, hsplit, -, -, hindent, -⟩ := Text.exists_indent hs
    have hlength := congrArg List.length hsplit
    rw [List.length_append, List.length_cons] at hlength
    omega

namespace Command

variable {p : Parts} {fs : List Text} {i : Nat} {w : Text}

/-! ### The end of a command -/

theorem Parts.length_text (hf : p.fields = some fs) :
    p.text.length = p.head.length + fs.flatten.length + fs.length := by
  have hne := p.fields_ne fs hf
  rw [Parts.text, hf, join, List.length_append, List.length_cons]
  clear hf
  induction fs with
  | nil => exact absurd rfl hne
  | cons f fs ih =>
    cases fs with
    | nil =>
      simp only [List.intercalate_singleton, List.flatten_singleton, List.length_singleton]
      omega
    | cons g fs =>
      have hrest := ih (List.cons_ne_nil g fs)
      simp only [List.intercalate_cons_cons, List.flatten_cons, List.length_append,
        List.length_cons, List.length_nil] at hrest ⊢
      omega

/-- What is reported of a field points to the end of the command only if the field is the last one
and there is nothing of it. -/
theorem field_end_iff (offset : Int) (hf : p.fields = some fs) (hget : fs[i]? = some w) :
    fieldStart (offset + 1 + p.head.length + 1) fs i + w.indent = offset + 1 + p.text.length ↔
      ∃ gs, fs = gs ++ [[]] ∧ gs.length = i := by
  obtain ⟨hi, hw⟩ := List.getElem?_eq_some_iff.mp hget
  obtain ⟨us, vs, rfl, rfl⟩ : ∃ us vs, fs = us ++ w :: vs ∧ us.length = i := by
    refine ⟨fs.take i, fs.drop (i + 1), ?_, List.length_take_of_le hi.le⟩
    rw [← hw, ← List.drop_eq_getElem_cons hi, List.take_append_drop]
  have htake : (us ++ w :: vs).take us.length = us := List.take_left
  rw [p.length_text hf, fieldStart, htake]
  simp only [List.flatten_append, List.flatten_cons, List.length_append, List.length_cons]
  constructor
  · intro h
    -- Behind the mark nothing is left, neither of the field nor of a field after it.
    have hindent := Text.indent_le_length w
    have hnil : w = [] := by
      by_contra hne
      have hlt := Text.indent_lt_length hne
      omega
    have hlast : vs = [] := List.eq_nil_of_length_eq_zero (by omega)
    exact ⟨us, by rw [hnil, hlast], rfl⟩
  · rintro ⟨gs, hgs, hlength⟩
    obtain ⟨-, hlast⟩ := List.append_inj hgs hlength.symm
    obtain ⟨rfl, rfl⟩ := List.cons.inj hlast
    have hindent : Text.indent [] = 0 := rfl
    simp only [hindent, List.flatten_nil, List.length_nil]
    omega

/-- A block of one field is reported before the end of the command. -/
theorem lone_lt_end (hf : p.fields = some [w]) (offset : Int) :
    (if w.all Text.isBlank then point (offset + 1, p.head)
      else point (offset + 1 + p.head.length + 1, w)) < offset + 1 + p.text.length := by
  have hlength : p.text.length = p.head.length + w.length + 1 := by
    simpa using p.length_text hf
  have hhead := Text.indent_le_length p.head
  simp only [point]
  split
  · omega
  · rename_i hink
    have hne : w ≠ [] := by
      rintro rfl
      exact hink rfl
    have hindent := Text.indent_lt_length hne
    omega

/-- What is reported right at the end of a command is what the command lacks. -/
theorem mem_decode_end_iff (r : Registry) (p : Parts) (offset : Int) :
    (d ∈ (decode r p.text offset).2 ∧ d.offset = offset + 1 + p.text.length) ↔
      ∃ f, p.Lacks r f ∧ d = f.located (offset + 1 + p.text.length) := by
  constructor
  · rintro ⟨hd, hend⟩
    obtain ⟨hc, fs, hf, ⟨w, rfl, rfl⟩ | ⟨hlen, hd⟩⟩ := Parts.mem_decode_iff.mp hd
    · exact absurd hend (Int.ne_of_lt (lone_lt_end hf offset))
    · rcases mem_readFields_faults_iff.mp hd with ⟨w, hget, rfl⟩ | ⟨i, hi, w, hget, -, rfl⟩
      · obtain ⟨gs, rfl, hgs⟩ := (field_end_iff offset hf hget).mp hend
        refine ⟨_, .excess hc hf hgs, ?_⟩
        rw [← hend, excessReport, List.length_append, hgs]
        rfl
      · obtain ⟨gs, rfl, rfl⟩ := (field_end_iff offset hf hget).mp hend
        have hne : gs ≠ [] := by
          rintro rfl
          exact absurd hlen (by simp)
        obtain rfl : [] = w := by simpa using hget
        refine ⟨_, .number hc hf hne hi, ?_⟩
        rw [← hend]
        rfl
  · rintro ⟨f, hlacks, rfl⟩
    refine ⟨Parts.mem_decode_iff.mpr ?_, rfl⟩
    cases hlacks with
    | @number fs hc hf hne hlen =>
      have hget : (fs ++ [[]])[fs.length]? = some [] := List.getElem?_concat_length
      have hend := (field_end_iff offset hf hget).mpr ⟨fs, rfl, rfl⟩
      have hpos := List.length_pos_of_ne_nil hne
      refine ⟨hc, _, hf, .inr ⟨?_, mem_readFields_faults_iff.mpr (.inr ⟨_, hlen, _, hget, rfl, ?_⟩)⟩⟩
      · rw [List.length_append, List.length_singleton]
        omega
      · rw [← hend]
        rfl
    | @excess fs hc hf hlen =>
      have hget : (fs ++ [[]])[Params.count]? = some [] := by
        rw [← hlen]
        exact List.getElem?_concat_length
      have hend := (field_end_iff offset hf hget).mpr ⟨fs, rfl, hlen⟩
      refine ⟨hc, _, hf, .inr ⟨?_, mem_readFields_faults_iff.mpr (.inl ⟨_, hget, ?_⟩)⟩⟩
      · rw [List.length_append, hlen, Params.count]
        omega
      · rw [← hend, excessReport, List.length_append, hlen]
        rfl

end Command

/-! ### The end of a source -/

/-- What is reported of a piece right behind it is what its command lacks. -/
theorem Piece.mem_faults_end_iff :
    (d ∈ q.strays n ++ q.endFaults r n ∧ d.offset = n + q.source.length) ↔
      ∃ f, (q.token r n).Lacks r f ∧ d = f.located (n + q.source.length) := by
  by_cases hclosed : q.isClosed
  · constructor
    · rintro ⟨hd, hend⟩
      exact absurd hend (Int.ne_of_lt ((Piece.faults_bounds hd).2.2 hclosed))
    · rintro ⟨f, ⟨hdir, hopen, -⟩, -⟩
      cases q with
      | text w => exact nomatch hdir
      | tag c closed => exact absurd hclosed hopen
  · obtain ⟨c, rfl⟩ : ∃ c, q = .tag c false := by
      rcases q with w | ⟨c, _ | _⟩
      · exact absurd rfl hclosed
      · exact ⟨c, rfl⟩
      · exact absurd rfl hclosed
    have hsource : (tag c false).source.length = c.length + 1 := by simp [source]
    have hend : (n + (tag c false).source.length : Int) = n + 1 + c.length := by omega
    rw [hend]
    constructor
    · rintro ⟨hd, hoffset⟩
      rcases List.mem_append.mp hd with hd | hd
      · obtain ⟨i, hi, rfl⟩ := List.mem_map.mp hd
        have hbounds := Text.mem_positions_bounds hi
        simp only [Fault.located] at hoffset
        omega
      · rcases List.mem_append.mp hd with hd | hd
        · obtain rfl := List.mem_singleton.mp hd
          simp only [Fault.located] at hoffset
          omega
        · obtain ⟨p, rfl⟩ : ∃ p : Command.Parts, p.text = c :=
            ⟨.ofText c, Command.Parts.text_ofText c⟩
          obtain ⟨f, hlacks, rfl⟩ := (Command.mem_decode_end_iff r p n).mp ⟨hd, hoffset⟩
          exact ⟨f, ⟨rfl, Bool.false_ne_true, p, rfl, hlacks⟩, rfl⟩
    · rintro ⟨f, ⟨-, -, p, hp, hlacks⟩, rfl⟩
      obtain rfl : p.text = c := hp
      obtain ⟨hd, -⟩ := (Command.mem_decode_end_iff r p n).mpr ⟨f, hlacks, rfl⟩
      exact ⟨List.mem_append_right _ (List.mem_append_right _ hd), rfl⟩

/-- A piece ends within the source, and at its end if no piece is behind it. -/
theorem mem_located_end (h : (n, q) ∈ located 0 ps) : ∃ qs rs, ps = qs ++ q :: rs ∧
    (render ps).length = n + q.source.length + (render rs).length := by
  obtain ⟨qs, rs, rfl, rfl⟩ := mem_located h
  refine ⟨qs, rs, rfl, ?_⟩
  rw [render_append, render_cons, List.length_append, List.length_append, Nat.zero_add,
    Nat.add_assoc]

theorem le_length_of_mem_faults (h : d ∈ faults r 0 ps) : d.offset ≤ (render ps).length := by
  obtain ⟨⟨n, q⟩, hq, hpiece⟩ := List.mem_flatMap.mp h
  obtain ⟨qs, rs, -, hlength⟩ := mem_located_end hq
  have hle : d.offset ≤ n + q.source.length := (Piece.faults_bounds hpiece).2.1
  omega

/-- Of all pieces only the last one can be cut off, so that only there something is reported right
behind the source. -/
theorem Normal.mem_faults_end_iff (h : Normal ps) :
    (d ∈ faults r 0 ps ∧ d.offset = (render ps).length) ↔
      ∃ t ∈ placed r 0 ps, ∃ f, t.Lacks r f ∧ d = f.located (render ps).length := by
  constructor
  · rintro ⟨hd, hend⟩
    obtain ⟨⟨n, q⟩, hq, hpiece⟩ := List.mem_flatMap.mp hd
    obtain ⟨qs, rs, -, hlength⟩ := mem_located_end hq
    have hle : d.offset ≤ n + q.source.length := (Piece.faults_bounds hpiece).2.1
    have hlast : ((render ps).length : Int) = n + q.source.length := by omega
    rw [hlast] at hend ⊢
    obtain ⟨f, hlacks, hd⟩ := Piece.mem_faults_end_iff.mp ⟨hpiece, hend⟩
    exact ⟨_, List.mem_map_of_mem hq, f, hlacks, hd⟩
  · rintro ⟨t, ht, f, hlacks, rfl⟩
    refine ⟨?_, rfl⟩
    obtain ⟨⟨n, q⟩, hq, rfl⟩ := List.mem_map.mp ht
    obtain ⟨qs, rs, rfl, hlength⟩ := mem_located_end hq
    -- A piece behind the tag would need the tag closed.
    obtain rfl : rs = [] := by
      obtain ⟨hdir, hopen, -⟩ := hlacks
      obtain ⟨-, hbehind, -⟩ := List.pairwise_append.mp h.pairwise_isClosed
      have hclosed := (List.pairwise_cons.mp hbehind).1
      cases q with
      | text w => exact nomatch hdir
      | tag c closed =>
        exact List.eq_nil_iff_forall_not_mem.mpr fun q' hq' => hopen (hclosed q' hq')
    obtain ⟨hd, -⟩ := Piece.mem_faults_end_iff.mpr ⟨f, hlacks, rfl⟩
    rw [hlength, render_nil, List.length_nil, Nat.add_zero]
    exact List.mem_flatMap.mpr ⟨_, hq, hd⟩

theorem bounds_of_mem_tokenize (h : d ∈ (tokenize r source).2) :
    0 ≤ d.offset ∧ d.offset ≤ source.length := by
  obtain ⟨ps, -, rfl, he⟩ := tokenize_eq r source
  rw [he] at h
  exact ⟨le_offset_of_mem_faults h, le_length_of_mem_faults h⟩

theorem mem_tokenize_end_iff (r : Registry) (source : Text) :
    (d ∈ (tokenize r source).2 ∧ d.offset = source.length) ↔
      ∃ t ∈ (tokenize r source).1, ∃ f, t.Lacks r f ∧ d = f.located source.length := by
  obtain ⟨ps, hn, rfl, he⟩ := tokenize_eq r source
  rw [he]
  exact hn.mem_faults_end_iff

/-! ### All diagnostics -/

/-- A token of which there is something stands at a character of the source. -/
theorem Tiles.offset_lt (h : Tiles 0 ts) (ht : t ∈ ts) (hfull : t.source ≠ []) :
    0 ≤ t.offset ∧ t.offset < (sources ts).length := by
  obtain ⟨i, hi, hslice⟩ := h.slice ht
  refine ⟨by omega, ?_⟩
  by_contra hge
  rw [List.drop_eq_nil_of_le (by omega), List.take_nil] at hslice
  exact hfull hslice.symm

theorem Token.source_ne_nil_of_isDirective (h : t.isDirective) : t.source ≠ [] := by
  rw [Token.source, if_pos h]
  exact List.cons_ne_nil _ _

/-- A mismatch is reported at a custom directive, which it quotes. -/
theorem Mismatched.exists_token {i : Nat} (h : Mismatched r ts i d) : ∃ t ∈ ts, t.isCustom ∧
    ∃ f : Fault, d = f.located t.offset ∧ f.quotes = [t.content] := by
  cases h with
  | reopened ht hs _ _ =>
    exact ⟨_, List.mem_of_getElem? ht, Token.Concerns.isCustom (.inl hs), _, rfl, rfl⟩
  | neverOpened ht hs _ =>
    exact ⟨_, List.mem_of_getElem? ht, Token.Concerns.isCustom (.inr hs), _, rfl, rfl⟩
  | neverClosed ht hs _ =>
    exact ⟨_, List.mem_of_getElem? ht, Token.Concerns.isCustom (.inl hs), _, rfl, rfl⟩

theorem Mismatched.bounds {i : Nat} (h : Mismatched r (tokenize r source).1 i d) :
    0 ≤ d.offset ∧ d.offset < source.length := by
  obtain ⟨t, ht, hcustom, f, rfl, -⟩ := h.exists_token
  have hfull := Token.source_ne_nil_of_isDirective (Token.isCustom_iff.mp hcustom).1
  obtain ⟨htiles, hsources⟩ := tiles_tokenize r source
  have hbounds := htiles.offset_lt ht hfull
  rwa [hsources] at hbounds

/-- The diagnostics of a compile are those of the scan and the mismatches among its tokens. -/
theorem diagnostics_of_compile (h : compile s r source = .ok c) :
    c.tokens = (tokenize r source).1 ∧ (∀ d ∈ (tokenize r source).2, d ∈ c.diagnostics) ∧
      ∀ d ∈ c.diagnostics, d ∈ (tokenize r source).2 ∨ ∃ i, Mismatched r c.tokens i d := by
  obtain ⟨x, hx, rfl⟩ := compile_eq_ok_iff.mp h
  refine ⟨rfl, fun d hd => List.mem_append_left _ hd, ?_⟩
  intro d hd
  rcases List.mem_append.mp hd with hd | hd
  · exact .inl hd
  · have hmark : s.pauseMark ≠ [] := List.cons_ne_nil _ _
    rw [ofTokens_splitPauses hmark] at hx
    obtain ⟨es, -, -, -, ds, hds, hperm⟩ := timeline_places hx
    obtain ⟨i, -, hi⟩ := exists_of_mem_forall₂ hds (hperm.mem_iff.mpr hd)
    exact .inr ⟨i, hi⟩

theorem bounds_of_mem_diagnostics (h : compile s r source = .ok c) (hd : d ∈ c.diagnostics) :
    0 ≤ d.offset ∧ d.offset ≤ source.length := by
  obtain ⟨htokens, -, hcases⟩ := diagnostics_of_compile h
  rw [htokens] at hcases
  rcases hcases d hd with hd | ⟨i, hi⟩
  · exact bounds_of_mem_tokenize hd
  · exact ⟨hi.bounds.1, Int.le_of_lt hi.bounds.2⟩

/-- Every diagnostic of a compile points to a character of the source, or right behind the source
if this ends in a tag where a field should stand; then the missing field is reported there. -/
theorem compile_offsets (s : Settings) (r : Registry) (source : Text) (c : Compiled)
    (h : compile s r source = .ok c) :
    (∀ d ∈ c.diagnostics, 0 ≤ d.offset ∧ (d.offset < source.length ∨
      ∃ t ∈ c.tokens, ∃ f, t.Lacks r f ∧ d = f.located source.length)) ∧
    ∀ t ∈ c.tokens, ∀ f, t.Lacks r f → f.located source.length ∈ c.diagnostics := by
  obtain ⟨htokens, hscanned, hcases⟩ := diagnostics_of_compile h
  rw [htokens] at hcases ⊢
  constructor
  · intro d hd
    rcases hcases d hd with hd | ⟨i, hi⟩
    · obtain ⟨hstart, hstop⟩ := bounds_of_mem_tokenize hd
      refine ⟨hstart, ?_⟩
      by_cases hend : d.offset = source.length
      · exact .inr ((mem_tokenize_end_iff r source).mp ⟨hd, hend⟩)
      · exact .inl (by omega)
    · exact ⟨hi.bounds.1, .inl hi.bounds.2⟩
  · intro t ht f hlacks
    exact hscanned _ ((mem_tokenize_end_iff r source).mpr ⟨t, ht, f, hlacks, rfl⟩).1

/-- A source that ends behind the comma of a wave's parameters. -/
def severed : Text := "<wave:1,".toList

theorem compile_offsets_severed : ∃ c, compile {} .standard severed = .ok c ∧
    (∀ d ∈ c.diagnostics, 0 ≤ d.offset ∧ (d.offset < 8 ∨
      ∃ t ∈ c.tokens, ∃ f, t.Lacks .standard f ∧ d = f.located 8)) ∧
    (Fault.notNumber "wave".toList 2 []).located 8 ∈ c.diagnostics := by
  obtain ⟨c, hc⟩ := exists_compile_standard {} severed
  obtain ⟨hpoints, hlacking⟩ := compile_offsets {} .standard severed c hc
  refine ⟨c, hc, hpoints, ?_⟩
  obtain ⟨-, rfl⟩ := compile_eq_ok_iff_cues.mp hc
  have hlacks : (Command.Parts.ofText "wave:1,".toList).Lacks .standard
      (.notNumber "wave".toList 2 []) :=
    @Command.Parts.Lacks.number _ _ [['1']] (by decide +kernel) (by decide +kernel)
      (List.cons_ne_nil _ _) (by decide)
  refine hlacking ⟨.directive, "wave:1,".toList, 0, .wave,
    (Command.decode .standard "wave:1,".toList 0).1.params, false⟩ (by decide +kernel) _
    ⟨rfl, Bool.false_ne_true, _, Command.Parts.text_ofText _, hlacks⟩

/-- There is no character where the missing field is reported. -/
theorem not_offset_lt_severed : ∃ c, compile {} .standard severed = .ok c ∧
    ∃ d ∈ c.diagnostics, ¬ d.offset < severed.length := by
  obtain ⟨c, hc⟩ := exists_compile_standard {} severed
  refine ⟨c, hc, ?_⟩
  obtain ⟨-, rfl⟩ := compile_eq_ok_iff_cues.mp hc
  decide +kernel

end KineticText
