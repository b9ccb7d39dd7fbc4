import KineticText.Animator
import KineticText.Proofs.Compile.Outcome
import KineticText.Proofs.Timeline.Accounting
import KineticText.Proofs.Token.Scanning
import KineticText.Proofs.Token.Splitting

/-! A reveal shows the characters that the timeline counts, one at a time and in their order. -/
namespace KineticText

variable {τ : Type} [Zero τ] {p : Pace τ} {t : Token} {ts : List Token} {i j n : Nat}

namespace Token

/-- A directive of which nothing is seen. -/
def Hidden (t : Token) : Prop := t.isDirective ∧ ¬ (t.isNative ∧ ¬ t.closed)

instance : Decidable t.Hidden := inferInstanceAs (Decidable (_ ∧ _))

/-- The token appears one character at a time, also if it is a pause. -/
def Stepwise (t : Token) : Prop := t.kind = .pause → ∃ c, t.content = [c]

/-- How a token of the source appears: a text waits longer after each mark, a tag that is cut off
is shown like text without marks, and any other directive takes a step that shows nothing. -/
def appearance (p : Pace τ) (mark : Char) (t : Token) : List (Event τ) :=
  match t.kind with
  | .directive =>
    if t.isNative ∧ ¬ t.closed then t.markup.map fun c => ⟨[c], p.letter⟩ else [⟨[], 0⟩]
  | .text | .pause => t.content.map fun c => ⟨[c], if c = mark then p.pause else p.letter⟩

theorem events_of_hidden (h : t.Hidden) : t.events p = [⟨[], 0⟩] := by
  have hk : t.kind = .directive := by simpa [isDirective] using h.1
  simp only [events, hk]
  exact if_neg h.2

theorem visible_of_hidden (h : t.Hidden) : t.visible = [] := by
  rw [visible, if_pos h.1]
  exact if_neg h.2

theorem events_of_not_hidden (hs : t.Stepwise) (h : ¬ t.Hidden) : t.events p =
    t.visible.map fun c => ⟨[c], if t.kind = .pause then p.pause else p.letter⟩ := by
  cases hk : t.kind with
  | text => simp [events, visible, isDirective, hk]
  | pause =>
    obtain ⟨c, hc⟩ := hs hk
    simp [events, visible, isDirective, hk, hc]
  | directive =>
    have hn : t.isNative ∧ ¬ t.closed := by
      by_contra hn
      exact h ⟨by simp [isDirective, hk], hn⟩
    simp only [events, visible, isDirective, hk]
    rw [if_pos hn, if_pos hn]
    simp

/-- The events of a token that show something show its visible characters one by one. -/
theorem filter_events (hs : t.Stepwise) : (t.events p).filter Event.isVisible =
    t.visible.map fun c => ⟨[c], if t.kind = .pause then p.pause else p.letter⟩ := by
  by_cases h : t.Hidden
  · simp [events_of_hidden h, visible_of_hidden h, Event.isVisible]
  · rw [events_of_not_hidden hs h, List.filter_eq_self]
    simp [Event.isVisible]

end Token

theorem schedule_cons (t : Token) (ts : List Token) :
    schedule p (t :: ts) = t.events p ++ schedule p ts := rfl

/-- Steps wait as long as a character, as long as a pause, or not at all. -/
theorem wait_of_mem_schedule {e : Event τ} (he : e ∈ schedule p ts) :
    e.wait = p.letter ∨ e.wait = p.pause ∨ e.wait = 0 := by
  obtain ⟨t, -, he⟩ := List.mem_flatMap.mp he
  unfold Token.events at he
  cases hk : t.kind with
  | text =>
    simp only [hk, List.mem_map] at he
    obtain ⟨c, -, rfl⟩ := he
    exact .inl rfl
  | pause =>
    simp only [hk, List.mem_singleton] at he
    exact .inr (.inl (congrArg Event.wait he))
  | directive =>
    simp only [hk] at he
    split at he
    · obtain ⟨c, -, rfl⟩ := List.mem_map.mp he
      exact .inl rfl
    · exact .inr (.inr (congrArg Event.wait (List.mem_singleton.mp he)))

/-- The steps of a reveal that show something. -/
def shown (p : Pace τ) (ts : List Token) : List (Event τ) := (schedule p ts).filter Event.isVisible

theorem shown_append (ts us : List Token) : shown p (ts ++ us) = shown p ts ++ shown p us := by
  simp [shown, schedule]

theorem shown_eq_flatMap : shown p ts = ts.flatMap fun t => (t.events p).filter Event.isVisible :=
  List.filter_flatMap

theorem text_shown (h : ∀ t ∈ ts, t.Stepwise) :
    (shown p ts).map Event.text = (ts.flatMap Token.visible).map ([·]) := by
  rw [shown_eq_flatMap, List.map_flatMap, List.map_flatMap]
  apply List.flatMap_congr
  intro t ht
  rw [Token.filter_events (h t ht), List.map_map]
  rfl

theorem length_shown (h : ∀ t ∈ ts, t.Stepwise) :
    (shown p ts).length = (ts.flatMap Token.visible).length := by
  simpa using congrArg List.length (text_shown (p := p) h)

/-- Every token takes its steps in its place: a hidden directive one that shows nothing, and any
other token one for each character. -/
theorem schedule_eq_flatMap (h : ∀ t ∈ ts, t.Stepwise) : schedule p ts = ts.flatMap fun t =>
    if t.Hidden then [⟨[], 0⟩]
    else t.visible.map fun c => ⟨[c], if t.kind = .pause then p.pause else p.letter⟩ := by
  apply List.flatMap_congr
  intro t ht
  by_cases hh : t.Hidden
  · rw [if_pos hh, Token.events_of_hidden hh]
  · rw [if_neg hh, Token.events_of_not_hidden (h t ht) hh]

/-- No step shows more than one character. -/
theorem length_text_le_of_mem_schedule (h : ∀ t ∈ ts, t.Stepwise) {e : Event τ}
    (he : e ∈ schedule p ts) : e.text.length ≤ 1 := by
  rw [schedule_eq_flatMap h] at he
  obtain ⟨t, -, he⟩ := List.mem_flatMap.mp he
  split at he
  · simp [List.mem_singleton.mp he]
  · obtain ⟨c, -, rfl⟩ := List.mem_map.mp he
    simp

/-- Before token `n`, as many characters have been shown as the timeline counts. -/
theorem length_shown_take (h : ∀ t ∈ ts, t.Stepwise) (n : Nat) :
    (shown p (ts.take n)).length = visibleBefore ts n :=
  length_shown fun t ht => h t (List.mem_of_mem_take ht)

/-- Between two places of the list, the steps that show something are numbered by the counts. -/
theorem shown_between (h : ∀ t ∈ ts, t.Stepwise) (hij : i ≤ j) :
    ((shown p ts).take (visibleBefore ts j)).drop (visibleBefore ts i) =
      shown p ((ts.take j).drop i) := by
  have hsplit : shown p ts = shown p (ts.take j) ++ shown p (ts.drop j) := by
    rw [← shown_append, List.take_append_drop]
  have hbefore : shown p (ts.take j) = shown p (ts.take i) ++ shown p ((ts.take j).drop i) := by
    rw [← shown_append]
    conv_rhs => rw [← Nat.min_eq_left hij, ← List.take_take, Nat.min_eq_left hij]
    rw [List.take_append_drop]
  rw [hsplit, List.take_left' (length_shown_take h j), hbefore,
    List.drop_left' (length_shown_take h i)]

/-! ### From the tokens of the source -/

/-- The events of a piece of text. -/
def pieceEvents (p : Pace τ) : Token.Kind × Text → List (Event τ)
  | (.pause, w) => [⟨w, p.pause⟩]
  | (_, w) => w.map fun c => ⟨[c], p.letter⟩

/-- The wait after a character of a text. -/
def textEvent (p : Pace τ) (mark c : Char) : Event τ := ⟨[c], if c = mark then p.pause else p.letter⟩

omit [Zero τ] in
theorem map_textEvent {mark : Char} {w : Text} (h : mark ∉ w) :
    w.map (textEvent p mark) = w.map fun c => ⟨[c], p.letter⟩ := by
  apply List.map_congr_left
  intro c hc
  have hne : c ≠ mark := by
    rintro rfl
    exact h hc
  rw [textEvent, if_neg hne]

omit [Zero τ] in
/-- Texts without marks, and the marks between them, appear as the whole text does. -/
theorem flatMap_pieceEvents {mark : Char} {ws : List Text} (h : ∀ w ∈ ws, mark ∉ w) :
    ((ws.map (Token.Kind.text, ·)).intersperse (.pause, [mark])).flatMap (pieceEvents p) =
      ([mark].intercalate ws).map (textEvent p mark) := by
  induction ws with
  | nil => rfl
  | cons w ws ih =>
    have hw := map_textEvent (p := p) (h w (by simp))
    cases ws with
    | nil => simpa [pieceEvents] using hw.symm
    | cons v ws =>
      have hrest := ih fun u hu => h u (List.mem_cons_of_mem w hu)
      rw [List.intercalate_cons_cons, List.map_append, List.map_append, hw, ← hrest]
      simp [pieceEvents, textEvent]

theorem events_pieces {mark : Char} (hk : t.kind = .text) :
    (t.pieces [mark]).flatMap (Token.events p) = t.appearance p mark := by
  have hF (k : Token.Kind) (w : Text) (o : Int) (hkd : k ≠ .directive) :
      Token.events p { t with kind := k, content := w, offset := o } = pieceEvents p (k, w) := by
    cases k with
    | text => rfl
    | pause => rfl
    | directive => exact absurd rfl hkd
  rw [Token.flatMap_pieces hF rfl hk (by simp), Token.parts,
    flatMap_pieceEvents fun w hw => Text.notMem_segments hw, Text.intercalate_segments (by simp)]
  simp only [Token.appearance, hk]
  rfl

/-- A reveal of the split list shows each token of the source in its place. -/
theorem schedule_splitPauses {mark : Char} (h : ∀ t ∈ ts, t.kind ≠ .pause) :
    schedule p (splitPauses [mark] ts) = ts.flatMap (Token.appearance p mark) := by
  apply flatMap_splitPauses (by simp) fun t _ hk => events_pieces hk
  intro t ht hk
  cases hd : t.kind with
  | text => exact absurd hd hk
  | pause => exact absurd hd (h t ht)
  | directive => simp [Token.events, Token.appearance, hd]

theorem kind_ne_pause_of_mem_placed {r : Registry} {ps : List Piece} :
    ∀ t ∈ placed r n ps, t.kind ≠ .pause := by
  intro t ht
  obtain ⟨⟨m, q⟩, -, rfl⟩ := List.mem_map.mp ht
  cases q <;> simp [Piece.token]

theorem kind_ne_pause_of_mem_tokenize {r : Registry} {source : Text}
    (h : t ∈ (tokenize r source).1) : t.kind ≠ .pause := by
  obtain ⟨ps, -, -, hps⟩ := tokenize_eq r source
  rw [hps] at h
  exact kind_ne_pause_of_mem_placed t h

/-- Pauses of a compiled source are single marks. -/
theorem stepwise_of_mem_processed {r : Registry} {source : Text} {mark : Char}
    (h : t ∈ splitPauses [mark] (tokenize r source).1) : t.Stepwise := by
  intro hk
  rcases mem_splitPauses (by simp) h with ⟨ht, -⟩ | ht | ⟨-, hc⟩
  · exact absurd hk (kind_ne_pause_of_mem_tokenize ht)
  · simp [hk] at ht
  · exact ⟨mark, hc⟩

/-! ### The compiled form -/

/-- The reveal of a compiled source and its timeline number the same characters. -/
structure Coherent (s : Settings) (r : Registry) (c : Compiled) : Prop where
  count : c.visibleCount = (c.processed.flatMap Token.visible).length
  /-- Every visible character appears in one step of its own. -/
  letters : (shown s.pace c.processed).map Event.text =
    (c.processed.flatMap Token.visible).map ([·])
  /-- A directive of which nothing is seen takes one step in its place, which shows nothing and
  does not wait. -/
  places : schedule s.pace c.processed = c.processed.flatMap fun t =>
    if t.Hidden then [⟨[], 0⟩]
    else t.visible.map fun ch => ⟨[ch], if t.kind = .pause then s.pauseWait else s.letterWait⟩
  /-- The waits are those of the characters of the source's tokens. -/
  waits : schedule s.pace c.processed = c.tokens.flatMap (Token.appearance s.pace s.pauseChar)
  built : ∃ pairs : List (Nat × Nat),
    List.Forall₂ (fun q g => Spans r s.paramDefaults c.processed q.1 q.2 g) pairs c.regions
  /-- A region numbers the steps that show something between its two directives. -/
  covered : ∀ i j g, Spans r s.paramDefaults c.processed i j g → ∃ start stop : Nat,
    g.start = start ∧ g.stop = stop ∧ ((shown s.pace c.processed).take stop).drop start =
      shown s.pace ((c.processed.take j).drop (i + 1))

theorem StartsAt.shown_drop {r : Registry} {e : Effect} (h : StartsAt r ts e i) (hij : i < j) :
    shown p ((ts.take j).drop i) = shown p ((ts.take j).drop (i + 1)) := by
  obtain ⟨t, ht, hd, hn, -⟩ := h
  have hi : (ts.take j)[i]? = some t := by rw [List.getElem?_take_of_lt hij, ht]
  obtain ⟨hlt, hget⟩ := List.getElem?_eq_some_iff.mp hi
  have hhidden : t.Hidden := ⟨hd, fun hc => hn hc.1⟩
  rw [List.drop_eq_getElem_cons hlt, hget, shown, schedule_cons, List.filter_append,
    Token.events_of_hidden hhidden]
  rfl

theorem compile_coherent (s : Settings) (r : Registry) (source : Text) (c : Compiled)
    (h : compile s r source = .ok c) : Coherent s r c := by
  obtain ⟨x, hx, rfl⟩ := compile_eq_ok_iff.mp h
  have hsteps : ∀ t ∈ splitPauses [s.pauseChar] (tokenize r source).1, t.Stepwise :=
    fun t ht => stepwise_of_mem_processed ht
  obtain ⟨-, -, -, hregions, -⟩ := timeline_places hx
  obtain ⟨left, -, rfl⟩ := ofTokens_run hx
  refine ⟨rfl, text_shown hsteps, schedule_eq_flatMap hsteps,
    schedule_splitPauses fun t ht => kind_ne_pause_of_mem_tokenize ht, ⟨_, hregions⟩, ?_⟩
  rintro i j g ⟨e, a, hp, -, rfl⟩
  refine ⟨_, _, rfl, rfl, ?_⟩
  rw [← hp.start.shown_drop hp.lt]
  exact shown_between hsteps (Nat.le_of_lt hp.lt)

/-- Two regions that overlap, with a pause in each, and a tag that is cut off after them. -/
theorem compile_coherent_overlapping :
    ∃ c, compile {} .standard "<wave>a.<jitter>b</wave>.c</jitter>.<b".toList = .ok c ∧
      Coherent {} .standard c := by
  obtain ⟨c, hc⟩ :=
    exists_compile_standard {} "<wave>a.<jitter>b</wave>.c</jitter>.<b".toList
  exact ⟨c, hc, compile_coherent {} .standard _ c hc⟩

end KineticText
