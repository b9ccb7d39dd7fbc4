import KineticText.Proofs.Registry.Standard
import KineticText.Proofs.Text.Runs
import KineticText.Proofs.Timeline.Places

/-! Every directive that starts or ends a region is accounted for once: it opens a region, it closes
one, or it is reported. -/
namespace KineticText

variable {r : Registry} {defaults : Params (Option Float)} {ts : List Token} {e : Effect} {i j : Nat}

theorem forall₂_filterMap {α β γ : Type} {R : β → γ → Prop} {f : α → Option β} {g : α → Option γ}
    {l : List α} (h : ∀ a ∈ l, Option.Rel R (f a) (g a)) :
    List.Forall₂ R (l.filterMap f) (l.filterMap g) := by
  induction l with
  | nil => exact .nil
  | cons a l ih =>
    have hrest := ih fun b hb => h b (by simp [hb])
    have ha := h a (by simp)
    rw [List.filterMap_cons, List.filterMap_cons]
    generalize f a = x at ha
    generalize g a = y at ha
    cases ha with
    | none => exact hrest
    | some hr => exact .cons hr hrest

theorem waiting_of_mem {pending : List Opening} {o : Opening}
    (hn : (pending.map Opening.effect).Nodup) (ho : o ∈ pending) :
    waiting pending o.effect = some o := by
  cases hw : waiting pending o.effect with
  | none => exact absurd (List.find?_eq_none.mp hw o ho) (by simp)
  | some o' =>
    rw [List.inj_on_of_nodup_map hn (List.mem_of_find?_eq_some hw) ho (waiting_effect hw)]

/-- A region left open is reported at its start. -/
theorem rel_leftOpen {left : List Opening} (hl : Keeps r defaults ts ts.length left) {o : Opening}
    (ho : o ∈ left) :
    Option.Rel (Mismatched r ts) (opener? r ts o.effect ts.length) o.leftOpen.diagnostic? := by
  have hw := waiting_of_mem hl.nodup ho
  rw [hl.waits] at hw
  rcases waitingAt_cases r defaults ts ts.length o.effect with ⟨i, u, hi, hu, hw'⟩ | ⟨-, hw'⟩
  · obtain ⟨t, ht, hs⟩ := hi.start
    obtain rfl : t = u := Option.some.inj (ht.symm.trans hu)
    rw [opener?_eq_some_iff.mpr hi]
    have htoken : o.token = t := by rw [← Option.some.inj (hw'.symm.trans hw), Token.opening]
    rw [Opening.leftOpen, htoken]
    exact .some (.neverClosed ht hs hi)
  · rw [hw] at hw'
    simp at hw'

/-- What pairing leaves in the timeline, place by place. -/
theorem timeline_places {x : Timeline} (h : Timeline.ofTokens r defaults ts = .ok x) :
    ∃ es : List Effect, es.Nodup ∧ (∀ e i, OpenedBy r ts e ts.length i → e ∈ es) ∧
      List.Forall₂ (fun p g => Spans r defaults ts p.1 p.2 g) (pairsOf r ts) x.regions ∧
      ∃ ds, List.Forall₂ (Mismatched r ts) (straysOf r ts ++ leftOf r ts es) ds ∧
        ds.Perm x.diagnostics := by
  obtain ⟨left, hl, rfl⟩ := ofTokens_run h
  refine ⟨left.map Opening.effect, hl.nodup, ?_, ?_, _, ?_, (List.mergeSort_perm _ _).symm⟩
  · intro e i ho
    rcases waitingAt_cases r defaults ts ts.length e with ⟨k, u, -, -, hw⟩ | ⟨hp, -⟩
    · rw [← hl.waits] at hw
      exact List.mem_map.mpr ⟨_, List.mem_of_find?_eq_some hw, rfl⟩
    · exact absurd ho.pendingAt hp
  · have hnone : (left.map Opening.leftOpen).filterMap Finding.region? = [] := by
      simp [Opening.leftOpen, Finding.region?]
    rw [Timeline.ofFindings, List.filterMap_append, hnone, List.append_nil, List.filterMap_filterMap]
    exact forall₂_filterMap fun n hn => (rel_findingAt defaults (List.mem_range.mp hn)).1
  · rw [List.filterMap_append, List.filterMap_filterMap, List.filterMap_map, leftOf,
      List.filterMap_map]
    exact List.rel_append
      (forall₂_filterMap fun n hn => (rel_findingAt defaults (List.mem_range.mp hn)).2)
      (forall₂_filterMap fun o ho => rel_leftOpen hl ho)

/-! ### Counting -/

/-- A list that names each place of a kind once is as long as there are such tokens. -/
theorem length_eq_countP {is : List Nat} {p : Token → Bool} (hn : is.Nodup)
    (hm : ∀ i, i ∈ is ↔ ∃ t, ts[i]? = some t ∧ p t) : is.length = ts.countP p := by
  have hperm : is.Perm ((List.range ts.length).filter fun i => ts[i]?.any p) := by
    rw [List.perm_ext_iff_of_nodup hn (List.nodup_range.filter _)]
    intro i
    rw [hm, List.mem_filter, List.mem_range, Option.any_eq_true]
    constructor
    · rintro ⟨t, ht, hp⟩
      exact ⟨(List.getElem?_eq_some_iff.mp ht).1, t, ht, hp⟩
    · exact fun h => h.2
  rw [hperm.length_eq]
  clear hn hm hperm
  induction ts with
  | nil => rfl
  | cons t ts ih =>
    rw [List.length_cons, List.range_succ_eq_map, List.filter_cons, List.filter_map]
    by_cases hp : p t <;> simpa [hp, Function.comp_def] using ih

theorem countP_or {p q : Token → Bool} (h : ∀ t ∈ ts, p t → ¬ q t) :
    ts.countP (fun t => p t || q t) = ts.countP p + ts.countP q := by
  induction ts with
  | nil => rfl
  | cons t ts ih =>
    have hrest := ih fun u hu => h u (by simp [hu])
    have ht := h t (by simp)
    by_cases hp : p t
    · simp [hp, ht hp, hrest, Nat.add_right_comm]
    · by_cases hq : q t <;> simp [hp, hq, hrest, Nat.add_assoc]

/-- The starts and the ends among the tokens are the places of the list. -/
theorem length_places {is : List Nat} (hn : is.Nodup)
    (hm : ∀ i, i ∈ is ↔ ∃ e, StartsAt r ts e i ∨ EndsAt r ts e i) :
    is.length = ts.countP (fun t => ∃ e, t.Starts r e) + ts.countP (fun t => ∃ e, t.Ends r e) := by
  rw [← countP_or]
  · apply length_eq_countP hn
    intro i
    rw [hm]
    simp only [StartsAt, EndsAt, Bool.or_eq_true, decide_eq_true_eq]
    constructor
    · rintro ⟨e, ⟨t, ht, hs⟩ | ⟨t, ht, hs⟩⟩
      · exact ⟨t, ht, .inl ⟨e, hs⟩⟩
      · exact ⟨t, ht, .inr ⟨e, hs⟩⟩
    · rintro ⟨t, ht, ⟨e, hs⟩ | ⟨e, hs⟩⟩
      · exact ⟨e, .inl ⟨t, ht, hs⟩⟩
      · exact ⟨e, .inr ⟨t, ht, hs⟩⟩
  · intro t _ hs he
    obtain ⟨e, hs⟩ := of_decide_eq_true hs
    obtain ⟨e', he⟩ := of_decide_eq_true he
    exact hs.not_ends he

/-- The account of a timeline: the places of the directives that make its regions, and those of
the directives without a partner. -/
structure Accounted (r : Registry) (defaults : Params (Option Float)) (ts : List Token)
    (x : Timeline) (pairs : List (Nat × Nat)) (lone : List Nat) : Prop where
  /-- No place is named twice. -/
  once : (pairs.map Prod.fst ++ pairs.map Prod.snd ++ lone).Nodup
  /-- Every start and every end has its place, and nothing else has. -/
  all : ∀ i, i ∈ pairs.map Prod.fst ++ pairs.map Prod.snd ++ lone ↔
    ∃ e, StartsAt r ts e i ∨ EndsAt r ts e i
  regions : List.Forall₂ (fun p g => Spans r defaults ts p.1 p.2 g) pairs x.regions
  mismatches : ∃ ds, List.Forall₂ (Mismatched r ts) lone ds ∧ ds.Perm x.diagnostics
  paired : ∀ i j, (i, j) ∈ pairs ↔ ∃ e, Paired r ts e i j
  start_paired : ∀ e i, StartsAt r ts e i →
    (i ∈ pairs.map Prod.fst ↔ ¬ PendingAt r ts e i ∧ ∃ j, i < j ∧ EndsAt r ts e j)
  end_reported : ∀ e j, EndsAt r ts e j → (j ∈ lone ↔ ¬ PendingAt r ts e j)
  kinds : ∀ d ∈ x.diagnostics, d.kind = .regionMismatch
  count : ts.countP (fun t => ∃ e, t.Starts r e) + ts.countP (fun t => ∃ e, t.Ends r e) =
    2 * x.regions.length + x.diagnostics.length

theorem mem_openers_iff (hs : StartsAt r ts e i) : i ∈ (pairsOf r ts).map Prod.fst ↔
    ¬ PendingAt r ts e i ∧ ∃ j, i < j ∧ EndsAt r ts e j := by
  rw [mem_openers]
  constructor
  · rintro ⟨e', j, h⟩
    obtain rfl := hs.effect_eq h.start
    exact ⟨h.fresh, j, h.lt, h.stop⟩
  · rintro ⟨hp, j, hij, hj⟩
    rcases hs.paired_or_openedBy hp with ⟨k, h⟩ | h
    · exact ⟨e, k, h⟩
    · exact absurd hj (h.kept j hij hj.lt)

theorem mem_lone_iff {es : List Effect} (he : EndsAt r ts e j) :
    j ∈ straysOf r ts ++ leftOf r ts es ↔ ¬ PendingAt r ts e j := by
  rw [List.mem_append, mem_straysOf, mem_leftOf]
  constructor
  · rintro ((⟨e', hs, -⟩ | ⟨e', he', hp⟩) | ⟨e', -, ho⟩)
    · exact absurd he hs.not_endsAt
    · obtain rfl := he.effect_eq he'
      exact hp
    · exact absurd he ho.start.not_endsAt
  · exact fun hp => .inl (.inr ⟨e, he, hp⟩)

/-- Every directive that starts or ends a region opens one region, closes one, or is reported
once, and nothing else is reported. -/
theorem ofTokens_accounted (r : Registry) (defaults : Params (Option Float)) (ts : List Token)
    (x : Timeline) (h : Timeline.ofTokens r defaults ts = .ok x) :
    ∃ pairs lone, Accounted r defaults ts x pairs lone := by
  obtain ⟨es, hes, hleft, hregions, ds, hds, hperm⟩ := timeline_places h
  refine ⟨pairsOf r ts, straysOf r ts ++ leftOf r ts es, nodup_places hes,
    fun i => mem_places hleft, hregions, ⟨ds, hds, hperm⟩, fun i j => mem_pairsOf,
    fun e i => mem_openers_iff, fun e j => mem_lone_iff, ?_, ?_⟩
  · intro d hd
    obtain ⟨i, -, hm⟩ := exists_of_mem_forall₂ hds (hperm.mem_iff.mpr hd)
    exact hm.kind
  · rw [← length_places (nodup_places hes) fun i => mem_places hleft]
    simp only [List.length_append, List.length_map]
    have hpairs := hregions.length_eq
    have hlone := hds.length_eq.trans hperm.length_eq
    rw [List.length_append] at hlone
    omega

/-- A wave over a jitter that is never closed, opened a second time and closed a second time. -/
def interleaved : List Token :=
  [{ kind := .directive, content := "wave".toList, codeword := .wave },
    { kind := .text, content := ['a'], offset := 6 },
    { kind := .directive, content := "jitter".toList, offset := 7, codeword := .jitter },
    { kind := .directive, content := "wave".toList, offset := 15, codeword := .wave },
    { kind := .text, content := ['b'], offset := 21 },
    { kind := .directive, content := "/wave".toList, offset := 22, codeword := .waveEnd },
    { kind := .directive, content := "/wave".toList, offset := 29, codeword := .waveEnd }]

theorem ofTokens_accounted_interleaved :
    ∃ x, Timeline.ofTokens .standard .unset interleaved = .ok x ∧
      x.regions = [⟨some .wave, 0, 2, .unset⟩] ∧
      ∃ pairs lone, Accounted .standard .unset interleaved x pairs lone :=
  ⟨_, rfl, rfl, ofTokens_accounted .standard .unset interleaved _ rfl⟩

end KineticText
