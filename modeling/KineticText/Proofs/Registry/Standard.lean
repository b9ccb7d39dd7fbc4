import KineticText.Proofs.Timeline.Partners

/-! What the built-in directives stand for. -/
namespace KineticText

namespace Effect

/-- The codeword of the built-in directive that starts or stops regions of the effect. -/
def codeword : Effect → Role → Codeword
  | wave, .start => .wave
  | wave, .stop => .waveEnd
  | jitter, .start => .jitter
  | jitter, .stop => .jitterEnd

/-- The keywords of the built-in directive that starts or stops regions of the effect. -/
def keywords : Effect → Role → List Text
  | wave, .start => ["wave".toList]
  | wave, .stop => ["/wave".toList, "wave-end".toList]
  | jitter, .start => ["jitter".toList]
  | jitter, .stop => ["/jitter".toList, "jitter-end".toList]

theorem codeword_inj {e e' : Effect} {role role' : Role} :
    e.codeword role = e'.codeword role' ↔ e = e' ∧ role = role' := by
  cases e <;> cases e' <;> cases role <;> cases role' <;> decide

end Effect

namespace Registry

variable {c : Codeword} {e : Effect} {role : Role} {w : Text}

theorem standard_entries : standard.entries =
    [("wave".toList, .wave), ("/wave".toList, .waveEnd), ("wave-end".toList, .waveEnd),
      ("jitter".toList, .jitter), ("/jitter".toList, .jitterEnd),
      ("jitter-end".toList, .jitterEnd)] := rfl

theorem standard_lookup_of_notMem (h : ∀ e role, w ∉ Effect.keywords e role) :
    standard.lookup w = none := by
  have hws := h .wave .start
  have hwe := h .wave .stop
  have hjs := h .jitter .start
  have hje := h .jitter .stop
  simp only [Effect.keywords, List.mem_cons, List.not_mem_nil, or_false, not_or] at hws hwe hjs hje
  rw [lookup, standard_entries, List.lookup_eq_none_iff]
  simpa using ⟨hws, hwe.1, hwe.2, hjs, hje.1, hje.2⟩

/-- The standard registry knows the keywords of the effects and no others. -/
theorem standard_lookup_eq_some_iff : standard.lookup w = some c ↔
    ∃ e role, w ∈ Effect.keywords e role ∧ c = e.codeword role := by
  by_cases h : ∀ e role, w ∉ Effect.keywords e role
  · rw [standard_lookup_of_notMem h]
    simp [h]
  · obtain ⟨e, h⟩ := not_forall.mp h
    obtain ⟨role, h⟩ := not_forall_not.mp h
    cases e <;> cases role <;>
      simp only [Effect.keywords, List.mem_cons, List.not_mem_nil, or_false] at h
    · subst h
      cases c <;> decide
    · rcases h with rfl | rfl <;> cases c <;> decide
    · subst h
      cases c <;> decide
    · rcases h with rfl | rfl <;> cases c <;> decide

theorem standard_lookup_eq_codeword_iff :
    standard.lookup w = some (e.codeword role) ↔ w ∈ e.keywords role := by
  rw [standard_lookup_eq_some_iff]
  constructor
  · rintro ⟨e', role', hw, he⟩
    obtain ⟨rfl, rfl⟩ := Effect.codeword_inj.mp he
    exact hw
  · exact fun hw => ⟨e, role, hw, rfl⟩

theorem isSome_standard_lookup_iff :
    (standard.lookup w).isSome ↔ ∃ e role, w ∈ Effect.keywords e role := by
  simp only [Option.isSome_iff_exists, standard_lookup_eq_some_iff]
  constructor
  · rintro ⟨c, e, role, hw, -⟩
    exact ⟨e, role, hw⟩
  · rintro ⟨e, role, hw⟩
    exact ⟨_, e, role, hw, rfl⟩

theorem standard_action_ne_undefined (c : Codeword) : standard.action c ≠ .undefined := by
  cases c <;> decide

theorem standard_action_native : standard.action .native = .pass := by decide

theorem standard_action_eq_opens_iff : standard.action c = .opens e ↔ c = e.codeword .start := by
  cases c <;> cases e <;> decide

theorem standard_action_eq_closes_iff : standard.action c = .closes e ↔ c = e.codeword .stop := by
  cases c <;> cases e <;> decide

end Registry

namespace Token

variable {t : Token} {e : Effect}

theorem does_standard_ne_undefined (t : Token) : t.does .standard ≠ .undefined := by
  intro h
  rw [does_eq_iff (a := .undefined) Registry.standard_action_native nofun] at h
  exact Registry.standard_action_ne_undefined _ h.2

theorem starts_standard_iff :
    t.Starts .standard e ↔ t.isDirective ∧ t.codeword = e.codeword .start := by
  rw [← does_eq_opens_iff, does_eq_iff (a := .opens e) Registry.standard_action_native nofun,
    Registry.standard_action_eq_opens_iff]

theorem ends_standard_iff :
    t.Ends .standard e ↔ t.isDirective ∧ t.codeword = e.codeword .stop := by
  rw [← does_eq_closes_iff, does_eq_iff (a := .closes e) Registry.standard_action_native nofun,
    Registry.standard_action_eq_closes_iff]

end Token
end KineticText
