import KineticText.Highlight.Lexeme
import KineticText.Proofs.Command.Decoding
import KineticText.Proofs.Registry.Names
import KineticText.Proofs.Registry.Standard
import KineticText.Proofs.Text.Marks
import KineticText.Proofs.Text.Runs

/-! The rules that cut tags: a custom tag is one whose command has a built-in keyword. -/
namespace KineticText

variable {u k s t lead gap params : Text} {c : Char} {parts : List (Lexeme.Kind × Text)}

/-! ### Keywords -/

theorem Lexeme.mem_keywords_iff : k ∈ keywords ↔ k ∈ Registry.standard.names := List.mem_mergeSort

/-- The characters of a keyword end neither the keyword nor the blanks before it. -/
theorem Lexeme.keyword_chars (h : k ∈ keywords) :
    k ≠ [] ∧ ∀ c ∈ k, ¬ Text.isBlank c ∧ c ≠ ':' ∧ ¬ isBracket c := by
  have hall : Registry.standard.names.all fun k =>
      k ≠ [] && k.all fun c => ! Text.isBlank c && c ≠ ':' && ! isBracket c := by
    decide
  simpa [and_assoc] using List.all_eq_true.mp hall k (mem_keywords_iff.mp h)

theorem Lexeme.isBracket_iff : isBracket c ↔ c = '<' ∨ c = '>' := by
  simp [isBracket]

theorem Lexeme.not_isBracket_of_notMem (hopen : '<' ∉ u) (hclose : '>' ∉ u) :
    ∀ c ∈ u, ¬ isBracket c := by
  intro c hc hb
  rcases isBracket_iff.mp hb with rfl | rfl
  · exact hopen hc
  · exact hclose hc

theorem Text.ne_of_isBlank (h : isBlank c) : c ≠ ':' ∧ ¬ Lexeme.isBracket c := by
  constructor
  · rintro rfl
    exact absurd h (by decide)
  · intro hb
    rcases Lexeme.isBracket_iff.mp hb with rfl | rfl <;> exact absurd h (by decide)

namespace Lexeme

/-- The inside of a tag is a keyword with blanks around it, and parameters behind a colon. -/
structure Cut (u lead k gap params : Text) : Prop where
  eq : u = lead ++ k ++ gap ++ params
  keyword : k ∈ keywords
  lead_blank : ∀ c ∈ lead, Text.isBlank c
  gap_blank : ∀ c ∈ gap, Text.isBlank c
  colon : params = [] ∨ ∃ w, params = ':' :: w

theorem Cut.head_chars (h : Cut u lead k gap params) :
    ∀ c ∈ lead ++ k ++ gap, c ≠ ':' ∧ ¬ isBracket c := by
  intro c hc
  rcases List.mem_append.mp hc with hc | hc
  · rcases List.mem_append.mp hc with hc | hc
    · exact Text.ne_of_isBlank (h.lead_blank c hc)
    · exact ((keyword_chars h.keyword).2 c hc).2
  · exact Text.ne_of_isBlank (h.gap_blank c hc)

theorem Cut.name_eq (h : Cut u lead k gap params) : Command.name u = k := by
  have hhead : ':' ∉ lead ++ k ++ gap := fun hc => (h.head_chars ':' hc).1 rfl
  have hkeyword : Command.keyword u = lead ++ k ++ gap := by
    rw [h.eq]
    exact Text.takeWhile_ne_append hhead h.colon
  rw [Command.name, hkeyword]
  apply Text.trimBy_append h.lead_blank _ h.gap_blank
  intro c hc
  exact ((keyword_chars h.keyword).2 c hc).1

/-- A tag's inside without brackets in its parameters has none at all. -/
theorem Cut.free (h : Cut u lead k gap params) (hp : ∀ c ∈ params, ¬ isBracket c) :
    ∀ c ∈ u, ¬ isBracket c := by
  intro c hc
  rw [h.eq] at hc
  rcases List.mem_append.mp hc with hc | hc
  · exact (h.head_chars c hc).2
  · exact hp c hc

theorem exists_cut (h : Command.name u ∈ keywords) :
    ∃ lead gap params, Cut u lead (Command.name u) gap params := by
  obtain ⟨lead, gap, hu, hlead, hgap⟩ := Text.exists_eq_trimBy Text.isBlank (Command.keyword u)
  refine ⟨lead, gap, u.dropWhile (· ≠ ':'), ?_, h, hlead, hgap, Text.dropWhile_ne_cases ':' u⟩
  calc u = Command.keyword u ++ u.dropWhile (· ≠ ':') := List.takeWhile_append_dropWhile.symm
    _ = _ := congrArg (· ++ u.dropWhile (· ≠ ':')) hu

/-! ### The two rules -/

/-- The parameters that the rule for custom tags reads. -/
theorem params_spec (hp : params = if s.head? = some ':' then s.takeWhile (! isBracket ·) else []) :
    (∃ rest, s = params ++ rest) ∧ (params = [] ∨ ∃ w, params = ':' :: w) ∧
      ∀ c ∈ params, ¬ isBracket c := by
  by_cases hs : s.head? = some ':'
  · rw [if_pos hs] at hp
    obtain ⟨w, rfl⟩ := List.head?_eq_some_iff.mp hs
    refine ⟨⟨_, hp ▸ List.takeWhile_append_dropWhile.symm⟩, .inr ?_, ?_⟩
    · rw [hp]
      exact ⟨_, List.takeWhile_cons_of_pos (by decide)⟩
    · intro c hc
      have hfree := List.mem_takeWhile_imp (p := (! isBracket ·)) (hp ▸ hc)
      simpa using hfree
  · rw [if_neg hs] at hp
    simp [hp]

/-- What the rule for custom tags applies to. -/
theorem customTag?_eq_some (h : customTag? ('<' :: s) = some parts) :
    ∃ u lead k gap params rest, s = u ++ '>' :: rest ∧ (∀ c ∈ u, ¬ isBracket c) ∧
      Cut u lead k gap params ∧ parts = [(.punctuation, ['<']), (.blank, lead), (.keyword, k),
        (.blank, gap), (.number, params), (.punctuation, ['>'])] := by
  obtain ⟨k, hk, hrule⟩ := List.exists_of_findSome?_eq_some h
  split at hrule
  · rename_i hprefix
    obtain ⟨s₂, hs₂⟩ := List.isPrefixOf_iff_prefix.mp hprefix
    dsimp only at hrule
    rw [← hs₂, List.drop_left] at hrule
    generalize hp : (if (s₂.dropWhile Text.isBlank).head? = some ':' then
      (s₂.dropWhile Text.isBlank).takeWhile (! isBracket ·) else []) = params at hrule
    obtain ⟨⟨s₄, hs₄⟩, hcolon, hplain⟩ := params_spec hp.symm
    rw [hs₄, List.drop_left] at hrule
    split at hrule
    · rename_i hend
      obtain ⟨rest, rfl⟩ := List.head?_eq_some_iff.mp hend
      have hblank (w : Text) : ∀ c ∈ w.takeWhile Text.isBlank, Text.isBlank c :=
        fun c hc => List.mem_takeWhile_imp hc
      have hcut := Cut.mk rfl hk (hblank s) (hblank s₂) hcolon
      refine ⟨_, _, _, _, _, rest, ?_, hcut.free hplain, hcut, (Option.some.inj hrule).symm⟩
      calc s = s.takeWhile Text.isBlank ++ s.dropWhile Text.isBlank :=
            List.takeWhile_append_dropWhile.symm
        _ = s.takeWhile Text.isBlank ++
            (k ++ (s₂.takeWhile Text.isBlank ++ (params ++ '>' :: rest))) := by
            rw [← hs₂, ← hs₄, List.takeWhile_append_dropWhile]
        _ = _ := by simp only [List.append_assoc]
    · exact nomatch hrule
  · exact nomatch hrule

/-- The rule for custom tags applies to a keyword's tag. -/
theorem customTag?_of_cut (h : Cut u lead k gap params) (hu : ∀ c ∈ u, ¬ isBracket c) :
    (customTag? ('<' :: (u ++ '>' :: t))).isSome := by
  obtain ⟨hk, hchars⟩ := keyword_chars h.keyword
  have hfirst : ∀ c ∈ (k ++ (gap ++ (params ++ '>' :: t))).head?, ¬ Text.isBlank c := by
    intro c hc
    obtain ⟨d, k, rfl⟩ := List.exists_cons_of_ne_nil hk
    obtain rfl : d = c := by simpa using hc
    exact (hchars d (by simp)).1
  have hbehind : ∀ c ∈ (params ++ '>' :: t).head?, ¬ Text.isBlank c := by
    rcases h.colon with rfl | ⟨w, rfl⟩ <;> simp <;> decide
  have hparams : (if (params ++ '>' :: t).head? = some ':' then
      (params ++ '>' :: t).takeWhile (! isBracket ·) else []) = params := by
    rcases h.colon with hnil | ⟨w, hw⟩
    · simp [hnil]
    · have hplain : ∀ c ∈ params, (! isBracket c) = true := by
        intro c hc
        simpa using hu c (by simp [h.eq, hc])
      rw [Text.takeWhile_append_stop hplain (by simp [isBracket])]
      simp [hw]
  have hsource : u ++ '>' :: t = lead ++ (k ++ (gap ++ (params ++ '>' :: t))) := by
    rw [h.eq]
    simp only [List.append_assoc]
  rw [customTag?, List.findSome?_isSome_iff]
  refine ⟨k, h.keyword, ?_⟩
  rw [hsource, Text.takeWhile_append_stop h.lead_blank hfirst,
    Text.dropWhile_append_stop h.lead_blank hfirst]
  simp only [List.drop_left, Text.takeWhile_append_stop h.gap_blank hbehind,
    Text.dropWhile_append_stop h.gap_blank hbehind, hparams]
  simp

theorem nativeTag?_of_free (hu : ∀ c ∈ u, ¬ isBracket c) :
    nativeTag? ('<' :: (u ++ '>' :: t)) =
      some [(.punctuation, ['<']), (.native, u), (.punctuation, ['>'])] := by
  have hname : (u ++ '>' :: t).takeWhile (! isBracket ·) = u :=
    Text.takeWhile_append_stop (by simpa using hu) (by simp [isBracket])
  simp [nativeTag?, hname]

/-- What the rule for other tags applies to. -/
theorem nativeTag?_eq_some (h : nativeTag? ('<' :: s) = some parts) :
    ∃ u rest, s = u ++ '>' :: rest ∧ ∀ c ∈ u, ¬ isBracket c := by
  simp only [nativeTag?] at h
  split at h
  · rename_i hend
    obtain ⟨rest, hrest⟩ := List.head?_eq_some_iff.mp hend
    refine ⟨s.takeWhile (! isBracket ·), rest, ?_, ?_⟩
    · rw [← hrest]
      exact (List.prefix_iff_eq_append.mp (List.takeWhile_prefix _)).symm
    · intro c hc
      simpa using List.mem_takeWhile_imp (p := (! isBracket ·)) hc
  · exact nomatch h

/-! ### What stands in front -/

/-- The classes of what stands between the brackets of a tag: one with a keyword is all blanks,
keyword and parameters, and any other is native. -/
def Inside (custom : Prop) (kinds : List Kind) : Prop :=
  (custom ∧ .keyword ∈ kinds ∧ ∀ k ∈ kinds, k ∈ [.blank, .keyword, .number]) ∨
    (¬ custom ∧ ∀ k ∈ kinds, k = .native)

/-- What is free of brackets ends in one place. -/
theorem eq_of_free {u' t' : Text} (hu : ∀ c ∈ u, ¬ isBracket c) (hu' : ∀ c ∈ u', ¬ isBracket c)
    (ht : ∀ c ∈ t.head?, isBracket c) (ht' : ∀ c ∈ t'.head?, isBracket c)
    (h : u ++ t = u' ++ t') : u = u' ∧ t = t' := by
  have htake : (u ++ t).takeWhile (! isBracket ·) = u :=
    Text.takeWhile_append_stop (by simpa using hu) (by simpa using ht)
  have htake' : (u' ++ t').takeWhile (! isBracket ·) = u' :=
    Text.takeWhile_append_stop (by simpa using hu') (by simpa using ht')
  have heq : u = u' := by rw [← htake, h, htake']
  subst heq
  exact ⟨rfl, List.append_cancel_left h⟩

/-- Leaving out the empty lexemes keeps the brackets of a tag. -/
theorem filter_between (inside : List (Kind × Text)) :
    ((Kind.punctuation, ['<']) :: inside ++ [(Kind.punctuation, ['>'])]).filter (·.2 ≠ []) =
      (.punctuation, ['<']) :: inside.filter (·.2 ≠ []) ++ [(.punctuation, ['>'])] := by
  simp

/-- A tag without brackets inside is cut whole, and a keyword is found in it exactly if its
command has one. -/
theorem front_tag (t : Text) (hu : ∀ c ∈ u, ¬ isBracket c) :
    ∃ inner, front '<' (u ++ '>' :: t) =
        (.punctuation, ['<']) :: inner ++ [(.punctuation, ['>'])] ∧
      inner.flatMap Prod.snd = u ∧ Inside (Command.name u ∈ keywords) (inner.map Prod.fst) := by
  have hcut (parts : List (Kind × Text)) (h : customTag? ('<' :: (u ++ '>' :: t)) = some parts) :
      ∃ lead gap params, Cut u lead (Command.name u) gap params ∧
        parts = [(.punctuation, ['<']), (.blank, lead), (.keyword, Command.name u),
          (.blank, gap), (.number, params), (.punctuation, ['>'])] := by
    obtain ⟨u', lead, k, gap, params, rest, he, hu', hcut, hparts⟩ := customTag?_eq_some h
    obtain ⟨rfl, -⟩ := eq_of_free hu hu' (by simp [isBracket]) (by simp [isBracket]) he
    rw [hcut.name_eq]
    exact ⟨lead, gap, params, hcut, hparts⟩
  cases hrule : customTag? ('<' :: (u ++ '>' :: t)) with
  | some parts =>
    obtain ⟨lead, gap, params, hcut, rfl⟩ := hcut parts hrule
    let inside : List (Kind × Text) :=
      [(.blank, lead), (.keyword, Command.name u), (.blank, gap), (.number, params)]
    obtain ⟨hname, -⟩ := keyword_chars hcut.keyword
    refine ⟨inside.filter (·.2 ≠ []), ?_, ?_, .inl ⟨hcut.keyword, ?_, ?_⟩⟩
    · simp only [front, hrule, Option.some_or]
      exact filter_between inside
    · calc (inside.filter (·.2 ≠ [])).flatMap Prod.snd = inside.flatMap Prod.snd :=
            flatMap_filter (by simp)
        _ = u := by simpa [inside] using hcut.eq.symm
    · exact List.mem_map.mpr ⟨(.keyword, Command.name u), by simp [inside, hname], rfl⟩
    · intro k hk
      obtain ⟨x, hx, rfl⟩ := List.mem_map.mp hk
      have hmem := List.mem_of_mem_filter hx
      simp only [inside, List.mem_cons, List.not_mem_nil, or_false] at hmem
      rcases hmem with rfl | rfl | rfl | rfl <;> simp
  | none =>
    have hkeyword : Command.name u ∉ keywords := by
      intro hk
      obtain ⟨_, _, _, hcut⟩ := exists_cut hk
      have hsome := customTag?_of_cut (t := t) hcut hu
      simp [hrule] at hsome
    refine ⟨[(Kind.native, u)].filter (·.2 ≠ []), ?_, ?_, .inr ⟨hkeyword, ?_⟩⟩
    · simp only [front, hrule, nativeTag?_of_free hu, Option.none_or]
      exact filter_between [(.native, u)]
    · calc ([(Kind.native, u)].filter (·.2 ≠ [])).flatMap Prod.snd =
            [(Kind.native, u)].flatMap Prod.snd := flatMap_filter (by simp)
        _ = u := by simp
    · intro k hk
      obtain ⟨x, hx, rfl⟩ := List.mem_map.mp hk
      obtain rfl := List.mem_singleton.mp (List.mem_of_mem_filter hx)
      rfl

/-- A bracket that opens no tag is astray. -/
theorem front_open (hu : ∀ c ∈ u, ¬ isBracket c) (ht : t = [] ∨ ∃ rest, t = '<' :: rest) :
    front '<' (u ++ t) = [(.stray, ['<'])] := by
  have hhead : ∀ c ∈ t.head?, isBracket c := by
    rcases ht with rfl | ⟨rest, rfl⟩ <;> simp [isBracket]
  have hne (u' rest : Text) (hu' : ∀ c ∈ u', ¬ isBracket c) : u ++ t ≠ u' ++ '>' :: rest := by
    intro he
    obtain ⟨-, rfl⟩ := eq_of_free hu hu' hhead (by simp [isBracket]) he
    simp at ht
  have hcustom : customTag? ('<' :: (u ++ t)) = none := by
    rw [Option.eq_none_iff_forall_ne_some]
    intro parts hparts
    obtain ⟨u', _, _, _, _, rest, he, hu', -⟩ := customTag?_eq_some hparts
    exact hne u' rest hu' he
  have hnative : nativeTag? ('<' :: (u ++ t)) = none := by
    rw [Option.eq_none_iff_forall_ne_some]
    intro parts hparts
    obtain ⟨u', rest, he, hu'⟩ := nativeTag?_eq_some hparts
    exact hne u' rest hu' he
  simp [front, hcustom, hnative, isBracket]

end Lexeme
end KineticText
