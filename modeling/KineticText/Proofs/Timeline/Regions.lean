import KineticText.Proofs.Timeline.Accounting
import KineticText.Settings.Basic
import Mathlib.Data.List.Infix

/-! The regions of a timeline: they stand in the order of their ends, those of one effect do not
overlap, and each has the parameters of the directive that opens it. -/
namespace KineticText

/-! ### Parameters and their defaults -/

namespace Params

variable {α : Type} {own defaults defaults' p p' : Params (Option α)}

/-- Parameters that are set are kept, and those left unset are the defaults. -/
structure Filled (own defaults p : Params (Option α)) : Prop where
  kept : ∀ (k : Nat) (x : α), own.toList[k]? = some (some x) → p.toList[k]? = some (some x)
  filled : ∀ k : Nat, own.toList[k]? = some none → p.toList[k]? = defaults.toList[k]?

theorem length_toList (p : Params α) : p.toList.length = count := rfl

theorem getElem?_withDefaults (defaults : Params (Option α)) {k : Nat} {v : Option α}
    (hk : own.toList[k]? = some v) :
    ∃ d, defaults.toList[k]? = some d ∧
      (own.withDefaults defaults).toList[k]? = some (v.or d) := by
  have hlt : k < defaults.toList.length := (List.getElem?_eq_some_iff.mp hk).1
  have hd : defaults.toList[k]? = some defaults.toList[k] := List.getElem?_eq_getElem hlt
  have hzip : (own.withDefaults defaults).toList =
      List.zipWith Option.or own.toList defaults.toList := rfl
  exact ⟨_, hd, by rw [hzip, List.getElem?_zipWith, hk, hd]⟩

theorem filled_withDefaults (own defaults : Params (Option α)) :
    Filled own defaults (own.withDefaults defaults) where
  kept k x hk := by
    obtain ⟨d, -, h⟩ := getElem?_withDefaults defaults hk
    exact h
  filled k hk := by
    obtain ⟨d, hd, h⟩ := getElem?_withDefaults defaults hk
    exact h.trans hd.symm

/-- Every parameter is one that is set or one left unset. -/
theorem toList_cases (own : Params (Option α)) {k : Nat} (hk : k < count) :
    (∃ x, own.toList[k]? = some (some x)) ∨ own.toList[k]? = some none := by
  have hget : own.toList[k]? = some own.toList[k] := List.getElem?_eq_getElem hk
  cases hx : own.toList[k] with
  | none => exact .inr (hx ▸ hget)
  | some x => exact .inl ⟨x, hx ▸ hget⟩

theorem Filled.isSome (h : Filled own defaults p) (hd : ∀ v ∈ defaults.toList, v.isSome) :
    ∀ v ∈ p.toList, v.isSome := by
  intro v hv
  obtain ⟨k, hk⟩ := List.mem_iff_getElem?.mp hv
  have hlt : k < count := (List.getElem?_eq_some_iff.mp hk).1
  rcases own.toList_cases hlt with ⟨x, hx⟩ | hx
  · rw [h.kept k x hx, Option.some.injEq] at hk
    rw [← hk]
    rfl
  · rw [h.filled k hx] at hk
    exact hd v (List.mem_of_getElem? hk)

/-- Only the defaults of the parameters left unset matter. -/
theorem Filled.eq (h : Filled own defaults p) (h' : Filled own defaults' p')
    (hd : ∀ k : Nat, own.toList[k]? = some none → defaults.toList[k]? = defaults'.toList[k]?) :
    p = p' := by
  have hlist : p.toList = p'.toList := by
    apply List.ext_getElem?
    intro k
    by_cases hk : k < count
    · rcases own.toList_cases hk with ⟨x, hx⟩ | hx
      · rw [h.kept k x hx, h'.kept k x hx]
      · rw [h.filled k hx, h'.filled k hx, hd k hx]
    · rw [List.getElem?_eq_none (by rw [length_toList]; omega),
        List.getElem?_eq_none (by rw [length_toList]; omega)]
  cases p
  cases p'
  simpa [toList] using hlist

end Params

/-! ### The order of the regions -/

variable {r : Registry} {defaults : Params (Option Float)} {ts : List Token} {x : Timeline}
  {g : Region} {gs : List Region} {e : Effect} {i i' j j' m n : Nat}

theorem visibleBefore_mono (h : m ≤ n) : visibleBefore ts m ≤ visibleBefore ts n :=
  (List.IsPrefix.flatMap (List.take_prefix_take_left h) Token.visible).length_le

theorem visibleBefore_le (ts : List Token) (n : Nat) :
    visibleBefore ts n ≤ (ts.flatMap Token.visible).length :=
  (List.IsPrefix.flatMap (List.take_prefix n ts) Token.visible).length_le

/-- Of two regions of an effect, the second one opens behind the end of the first. -/
theorem Paired.lt_of_lt (h : Paired r ts e i j) (h' : Paired r ts e i' j') (hj : j < j') :
    j < i' := by
  by_contra hi
  rcases Nat.lt_or_eq_of_le (Nat.le_of_not_lt hi) with hlt | rfl
  · exact h'.first j hlt hj h.stop
  · exact h'.start.not_endsAt h.stop

theorem pairwise_pairsOf (r : Registry) (ts : List Token) :
    (pairsOf r ts).Pairwise fun p q => p.2 < q.2 := by
  rw [pairsOf, List.pairwise_filterMap]
  apply List.pairwise_lt_range.imp
  rintro m n hmn ⟨i, j⟩ hp ⟨i', j'⟩ hq
  obtain ⟨rfl, -⟩ := pairAt_eq_some_iff.mp hp
  obtain ⟨rfl, -⟩ := pairAt_eq_some_iff.mp hq
  exact hmn

/-- What holds of any two of the things built holds if it follows from their places. -/
theorem pairwise_forall₂ {α β : Type} {R : α → β → Prop} {S : α → α → Prop} {T : β → β → Prop}
    {as : List α} {bs : List β} (h : List.Forall₂ R as bs) (hs : as.Pairwise S)
    (ht : ∀ a b a' b', R a b → R a' b' → S a a' → T b b') : bs.Pairwise T := by
  induction h with
  | nil => exact .nil
  | @cons a b as bs hab hrest ih =>
    obtain ⟨ha, has⟩ := List.pairwise_cons.mp hs
    refine List.pairwise_cons.mpr ⟨?_, ih has⟩
    intro b' hb'
    obtain ⟨a', ha', hab'⟩ := exists_of_mem_forall₂ hrest hb'
    exact ht a b a' b' hab hab' (ha a' ha')

/-- The region is that of two directives, from the characters before the one to those before the
other, with the parameters of the first. -/
def Built (r : Registry) (defaults : Params (Option Float)) (ts : List Token) (g : Region) : Prop :=
  ∃ e i j t, Paired r ts e i j ∧ ts[i]? = some t ∧ g.effect = some e ∧
    g.start = visibleBefore ts i ∧ g.stop = visibleBefore ts j ∧
    t.params.Filled defaults g.params

theorem Spans.built (h : Spans r defaults ts i j g) : Built r defaults ts g := by
  obtain ⟨e, t, hp, ht, rfl⟩ := h
  exact ⟨e, i, j, t, hp, ht, rfl, rfl, rfl, Params.filled_withDefaults _ _⟩

theorem Built.bounds (h : Built r defaults ts g) :
    0 ≤ g.start ∧ g.start ≤ g.stop ∧ g.stop ≤ (ts.flatMap Token.visible).length := by
  obtain ⟨e, i, j, t, hp, -, -, hstart, hstop, -⟩ := h
  have hij : visibleBefore ts i ≤ visibleBefore ts j := visibleBefore_mono (Nat.le_of_lt hp.lt)
  have hj : visibleBefore ts j ≤ _ := visibleBefore_le ts j
  omega

/-- Of two regions the one that stands first ends first, and if they are of one effect, before the
other starts. -/
theorem Spans.ordered {g' : Region} (h : Spans r defaults ts i j g)
    (h' : Spans r defaults ts i' j' g') (hj : j < j') :
    g.stop ≤ g'.stop ∧ (g.effect = g'.effect → g.stop ≤ g'.start) := by
  obtain ⟨e, t, hp, -, rfl⟩ := h
  obtain ⟨e', t', hp', -, rfl⟩ := h'
  refine ⟨Int.ofNat_le.mpr (visibleBefore_mono (Nat.le_of_lt hj)), ?_⟩
  intro he
  obtain rfl : e = e' := Option.some.inj he
  exact Int.ofNat_le.mpr (visibleBefore_mono (Nat.le_of_lt (hp.lt_of_lt hp' hj)))

/-- Of regions that do not overlap one at most covers a character. -/
theorem length_regionsAt_le_one {k : Option Effect}
    (h : gs.Pairwise fun g g' => g.effect = g'.effect → g.stop ≤ g'.start) (i : Int) :
    ((regionsAt gs i).filter (·.effect = k)).length ≤ 1 := by
  have hsub : ((regionsAt gs i).filter (·.effect = k)).Sublist gs :=
    List.filter_sublist.trans List.filter_sublist
  have hmem : ∀ g ∈ (regionsAt gs i).filter (·.effect = k),
      g.effect = k ∧ g.start ≤ i ∧ i < g.stop := by
    intro g hg
    obtain ⟨hat, hk⟩ := List.mem_filter.mp hg
    obtain ⟨-, hcovers⟩ := List.mem_filter.mp hat
    simp only [Region.covers, decide_eq_true_eq] at hcovers hk
    exact ⟨hk, hcovers⟩
  have hpair := h.sublist hsub
  generalize (regionsAt gs i).filter (·.effect = k) = covering at hmem hpair
  match covering with
  | [] => exact Nat.zero_le 1
  | [g] => exact Nat.le_refl 1
  | g :: g' :: rest =>
    obtain ⟨hk, -, hstop⟩ := hmem g (by simp)
    obtain ⟨hk', hstart, -⟩ := hmem g' (by simp)
    have happart := (List.pairwise_cons.mp hpair).1 g' (by simp) (hk.trans hk'.symm)
    omega

/-- What holds of every timeline that tokens have. -/
structure Consistent (r : Registry) (defaults : Params (Option Float)) (ts : List Token)
    (x : Timeline) : Prop where
  bounds : ∀ g ∈ x.regions, 0 ≤ g.start ∧ g.start ≤ g.stop ∧ g.stop ≤ x.visibleCount
  ordered : x.regions.Pairwise fun g g' => g.stop ≤ g'.stop
  apart : x.regions.Pairwise fun g g' => g.effect = g'.effect → g.stop ≤ g'.start
  /-- A character is covered by one region of a kind at most. -/
  covered : ∀ i k, ((regionsAt x.regions i).filter (·.effect = k)).length ≤ 1
  effects : ∀ g ∈ x.regions, g.effect = some .wave ∨ g.effect = some .jitter
  built : ∀ g ∈ x.regions, Built r defaults ts g
  /-- No parameter is unset if no default is. -/
  set : (∀ v ∈ defaults.toList, v.isSome) → ∀ g ∈ x.regions, ∀ v ∈ g.params.toList, v.isSome

theorem built_of_mem (h : Timeline.ofTokens r defaults ts = .ok x) :
    ∀ g ∈ x.regions, Built r defaults ts g := by
  intro g hg
  obtain ⟨-, -, -, hregions, -⟩ := timeline_places h
  obtain ⟨p, -, hp⟩ := exists_of_mem_forall₂ hregions hg
  exact hp.built

theorem pairwise_regions (h : Timeline.ofTokens r defaults ts = .ok x) :
    x.regions.Pairwise fun g g' =>
      g.stop ≤ g'.stop ∧ (g.effect = g'.effect → g.stop ≤ g'.start) := by
  obtain ⟨-, -, -, hregions, -⟩ := timeline_places h
  exact pairwise_forall₂ hregions (pairwise_pairsOf r ts) fun p g q g' => Spans.ordered

theorem visibleCount_ofTokens (h : Timeline.ofTokens r defaults ts = .ok x) :
    x.visibleCount = (ts.flatMap Token.visible).length := by
  obtain ⟨left, -, rfl⟩ := ofTokens_run h
  rfl

/-- Whatever the tokens, their regions lie within the visible text, stand in the order of their ends
and do not overlap with others of their effect; and their parameters are those of the directives
that open them, with the defaults in place of those left unset. -/
theorem ofTokens_consistent (r : Registry) (defaults : Params (Option Float)) (ts : List Token)
    (x : Timeline) (h : Timeline.ofTokens r defaults ts = .ok x) : Consistent r defaults ts x := by
  have hbuilt := built_of_mem h
  have hpairs := pairwise_regions h
  have hapart := hpairs.imp fun hp => hp.2
  refine ⟨?_, hpairs.imp fun hp => hp.1, hapart, fun i k => length_regionsAt_le_one hapart i, ?_,
    hbuilt, ?_⟩
  · intro g hg
    rw [visibleCount_ofTokens h]
    exact (hbuilt g hg).bounds
  · intro g hg
    obtain ⟨e, -, -, -, -, -, he, -⟩ := hbuilt g hg
    cases e with
    | wave => exact .inl he
    | jitter => exact .inr he
  · intro hd g hg
    obtain ⟨_, _, _, _, -, -, -, -, -, hfilled⟩ := hbuilt g hg
    exact hfilled.isSome hd

/-- Two waves, the first of them of amplitude zero, and a jitter that overlaps with both; between
them a wave opened a second time and a jitter closed that is not open. -/
def overlapping : List Token :=
  [{ kind := .directive, content := "wave".toList, codeword := .wave,
      params := .ofList [some 0, some 2] },
    { kind := .text, content := "ab".toList },
    { kind := .directive, content := "/jitter".toList, codeword := .jitterEnd },
    { kind := .directive, content := "jitter".toList, codeword := .jitter },
    { kind := .directive, content := "wave".toList, codeword := .wave },
    { kind := .pause, content := ".".toList },
    { kind := .directive, content := "/wave".toList, codeword := .waveEnd },
    { kind := .directive, content := "wave".toList, codeword := .wave },
    { kind := .text, content := "c".toList },
    { kind := .directive, content := "/jitter".toList, codeword := .jitterEnd },
    { kind := .directive, content := "/wave".toList, codeword := .waveEnd }]

theorem ofTokens_consistent_overlapping :
    ∃ x, Timeline.ofTokens .standard ({} : Settings).paramDefaults overlapping = .ok x ∧
      x.regions =
        [⟨some .wave, 0, 3, ⟨some 0, some 2, some 1, some 1, some 0, some 0⟩⟩,
          ⟨some .jitter, 2, 4, ⟨some 1, some 1, some 1, some 1, some 0, some 0⟩⟩,
          ⟨some .wave, 3, 4, ⟨some 1, some 1, some 1, some 1, some 0, some 0⟩⟩] ∧
      Consistent .standard ({} : Settings).paramDefaults overlapping x :=
  ⟨_, rfl, rfl, ofTokens_consistent .standard _ overlapping _ rfl⟩

end KineticText
