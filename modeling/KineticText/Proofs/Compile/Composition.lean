import KineticText.Proofs.Reveal.Coherence

/-! Two sources in a row compile to what each of them compiles to, if the first ends outside a
tag. -/
namespace KineticText

variable {s : Settings} {r : Registry} {n : Nat} {ps qs : List Piece} {a b c : Compiled}

/-! ### The tokens of two sources in a row -/

/-- No tag comes about where the sources meet. -/
theorem Normal.joined_append (hp : Normal ps) (hq : Normal qs) (hc : ∀ p ∈ ps, p.isClosed) :
    Normal (joined (ps ++ qs)) := by
  apply normal_joined
  · intro p hpq
    rcases List.mem_append.mp hpq with h | h
    · exact hp.unbroken p h
    · exact hq.unbroken p h
  · rw [List.pairwise_append]
    exact ⟨hp.pairwise_isClosed, hq.pairwise_isClosed, fun p h _ _ => hc p h⟩

theorem isClosed_of_tokens (h : ∀ t ∈ placed r n ps, t.isDirective → t.closed) :
    ∀ p ∈ ps, p.isClosed := by
  induction ps generalizing n with
  | nil => exact nofun
  | cons p ps ih =>
    obtain ⟨hp, hps⟩ := List.forall_mem_cons.mp h
    refine List.forall_mem_cons.mpr ⟨?_, ih hps⟩
    cases p with
    | text w => rfl
    | tag c closed => exact hp rfl

/-- The second source has its tokens behind those of the first, and two texts that meet are one. -/
theorem exists_tokenize_append (source source' : Text)
    (h : ∀ t ∈ (tokenize r source).1, t.isDirective → t.closed) :
    ∃ ps qs, render ps = source ∧
      tokenize r source = (placed r 0 ps, faults r 0 ps) ∧
      tokenize r source' = (placed r 0 qs, faults r 0 qs) ∧
      tokenize r (source ++ source') =
        (placed r 0 (joined (ps ++ qs)), faults r 0 (joined (ps ++ qs))) := by
  obtain ⟨ps, hp, hsource, htokens⟩ := tokenize_eq r source
  obtain ⟨qs, hq, hsource', htokens'⟩ := tokenize_eq r source'
  rw [htokens] at h
  have hnormal := hp.joined_append hq (isClosed_of_tokens h)
  refine ⟨ps, qs, hsource, htokens, htokens', ?_⟩
  rw [← tokenize_render r hnormal, render_joined, render_append, hsource, hsource']

theorem cues_placed_append : cues 0 (placed r 0 (joined (ps ++ qs))) =
    cues 0 (placed r 0 ps) ++
      (cues 0 (placed r 0 qs)).map (Cue.move (· + ((render ps).length : Nat))
        ((placed r 0 ps).flatMap Token.visible).length) := by
  rw [cues_joined, placed_append, cues_append, placed_add, cues_move]

/-! ### The compiled form -/

/-- The compiled form of two sources in a row, the first of which has `length` characters. -/
structure Composed (s : Settings) (r : Registry) (length : Nat) (a b c : Compiled) : Prop where
  display : c.display = a.display ++ b.display
  visibleCount : c.visibleCount = a.visibleCount + b.visibleCount
  events : schedule s.pace c.processed = schedule s.pace a.processed ++ schedule s.pace b.processed
  /-- If no start of the first source waits for its end there, the regions are those of the two. -/
  regions : (∀ e, ¬ PendingAt r a.tokens e a.tokens.length) →
    c.regions = a.regions ++ b.regions.map (Region.shift a.visibleCount)
  /-- If so, what is wrong is of the same categories and in the same places. -/
  diagnostics : (∀ e, ¬ PendingAt r a.tokens e a.tokens.length) →
    (c.diagnostics.map Diagnostic.site).Perm
      ((a.diagnostics ++ b.diagnostics.map (Diagnostic.shift length)).map Diagnostic.site)

theorem schedule_ofTokens {ts : List Token} {ds : List Diagnostic}
    (h : ∀ t ∈ ts, t.kind ≠ .pause) :
    schedule s.pace (Compiled.ofTokens s r ts ds).processed =
      ts.flatMap (Token.appearance s.pace s.pauseChar) := schedule_splitPauses h

/-- What is found in the second source is found behind its place in the whole. -/
theorem foundIn_placed_append {defaults : Params (Option Float)}
    (h : ∀ e, ¬ PendingAt r (placed r 0 ps) e (placed r 0 ps).length) :
    foundIn r defaults [] (cues 0 (placed r 0 (joined (ps ++ qs)))) =
      foundIn r defaults [] (cues 0 (placed r 0 ps)) ++
        (foundIn r defaults [] (cues 0 (placed r 0 qs))).map
          (Finding.move (· + ((render ps).length : Nat))
            ((placed r 0 ps).flatMap Token.visible).length) := by
  rw [cues_placed_append, foundIn_append (openAfter_eq_nil_iff.mpr h), ← foundIn_move]
  rfl

theorem sites_placed_append (s : Settings)
    (h : ∀ e, ¬ PendingAt r (placed r 0 ps) e (placed r 0 ps).length) :
    ((Compiled.ofTokens s r (placed r 0 (joined (ps ++ qs)))
      (faults r 0 (joined (ps ++ qs)))).diagnostics.map Diagnostic.site).Perm
      (((Compiled.ofTokens s r (placed r 0 ps) (faults r 0 ps)).diagnostics ++
        (Compiled.ofTokens s r (placed r 0 qs) (faults r 0 qs)).diagnostics.map
          (Diagnostic.shift (render ps).length)).map Diagnostic.site) := by
  have hwhole := (diagnostics_ofTokens s r (placed r 0 (joined (ps ++ qs)))
    (faults r 0 ps ++ faults r (0 + (render ps).length) qs)).map Diagnostic.site
  have hfirst := (diagnostics_ofTokens s r (placed r 0 ps) (faults r 0 ps)).map Diagnostic.site
  have hsecond := (diagnostics_ofTokens s r (placed r 0 qs) (faults r 0 qs)).map
    fun d => (d.shift (render ps).length).site
  rw [foundIn_placed_append h, List.map_append, List.map_append, site_faults_add,
    List.filterMap_append, List.map_append, sites_move] at hwhole
  rw [List.map_append] at hfirst hsecond
  rw [faults_joined, faults_append, List.map_append, List.map_map]
  refine hwhole.trans (List.Perm.trans ?_ (hfirst.append hsecond).symm)
  -- Both sides hold what the tokenizer and what pairing reports of each source.
  simp only [← Multiset.coe_eq_coe, ← Multiset.coe_add]
  exact add_add_add_comm _ _ _ _

theorem composed_pieces (s : Settings) (r : Registry) (ps qs : List Piece) :
    Composed s r (render ps).length (.ofTokens s r (placed r 0 ps) (faults r 0 ps))
      (.ofTokens s r (placed r 0 qs) (faults r 0 qs))
      (.ofTokens s r (placed r 0 (joined (ps ++ qs))) (faults r 0 (joined (ps ++ qs)))) where
  display := flatMap_placed_append (fun _ _ => rfl) rfl (fun _ _ => rfl) ps qs
  visibleCount := by
    have hvisible := flatMap_placed_append (r := r) (F := Token.visible)
      (fun _ _ => rfl) rfl (fun _ _ => rfl) ps qs
    simpa [Compiled.ofTokens] using congrArg List.length hvisible
  events := by
    rw [schedule_ofTokens kind_ne_pause_of_mem_placed,
      schedule_ofTokens kind_ne_pause_of_mem_placed, schedule_ofTokens kind_ne_pause_of_mem_placed]
    apply flatMap_placed_append
    · intro g t
      rfl
    · rfl
    · intro w v
      exact List.map_append
  regions := by
    intro h
    rw [Compiled.ofTokens, Compiled.ofTokens, Compiled.ofTokens]
    dsimp only
    rw [foundIn_placed_append h, List.filterMap_append, regions_move]
  diagnostics := sites_placed_append s

/-- A source whose tags are all closed and another one behind it compile, in a row, to what each of
them compiles to. -/
theorem compile_append (s : Settings) (r : Registry) (source source' : Text) (a b : Compiled)
    (ha : compile s r source = .ok a) (hb : compile s r source' = .ok b)
    (hclosed : ∀ t ∈ a.tokens, t.isDirective → t.closed) :
    ∃ c, compile s r (source ++ source') = .ok c ∧ Composed s r source.length a b c := by
  obtain ⟨hdefined, rfl⟩ := compile_eq_ok_iff_cues.mp ha
  obtain ⟨hdefined', rfl⟩ := compile_eq_ok_iff_cues.mp hb
  obtain ⟨ps, qs, rfl, hps, hqs, hboth⟩ := exists_tokenize_append source source' hclosed
  rw [hps] at hdefined
  rw [hqs] at hdefined'
  have hdefined'' : ∀ q ∈ cues 0 (tokenize r (render ps ++ source')).1,
      q.token.does r ≠ .undefined := by
    rw [hboth, cues_placed_append]
    intro q hq
    rcases List.mem_append.mp hq with hq | hq
    · exact hdefined q hq
    · obtain ⟨q', hq', rfl⟩ := List.mem_map.mp hq
      exact hdefined' q' hq'
  refine ⟨_, compile_eq_ok_iff_cues.mpr ⟨hdefined'', rfl⟩, ?_⟩
  rw [hps, hqs, hboth]
  exact composed_pieces s r ps qs

set_option maxRecDepth 1000 in
/-- The sources meet inside a text, and each has a region and something wrong. -/
theorem compile_append_midtext :
    ∃ a b, compile {} .standard "<wave>a</wave>></jitter>b.".toList = .ok a ∧
      compile {} .standard "c<jitter:1>d</jitter><wave>".toList = .ok b ∧
      (∀ t ∈ a.tokens, t.isDirective → t.closed) ∧
      (∀ e, ¬ PendingAt .standard a.tokens e a.tokens.length) ∧
      ∃ c, compile {} .standard ("<wave>a</wave>></jitter>b.".toList ++
        "c<jitter:1>d</jitter><wave>".toList) = .ok c ∧
        Composed {} .standard "<wave>a</wave>></jitter>b.".toList.length a b c := by
  obtain ⟨a, ha⟩ := exists_compile_standard {} "<wave>a</wave>></jitter>b.".toList
  obtain ⟨b, hb⟩ := exists_compile_standard {} "c<jitter:1>d</jitter><wave>".toList
  obtain ⟨-, rfl⟩ := compile_eq_ok_iff_cues.mp ha
  have hclosed : ∀ t ∈ (tokenize .standard "<wave>a</wave>></jitter>b.".toList).1,
      t.isDirective → t.closed := by decide
  have hsettled : ∀ e, ¬ PendingAt .standard
      (tokenize .standard "<wave>a</wave>></jitter>b.".toList).1 e
      (tokenize .standard "<wave>a</wave>></jitter>b.".toList).1.length := by
    intro e
    rw [← opener?_eq_none_iff]
    cases e <;> decide
  exact ⟨_, b, ha, hb, hclosed, hsettled, compile_append {} .standard _ _ _ b ha hb hclosed⟩

end KineticText
