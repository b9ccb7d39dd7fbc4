import KineticText.Animator
import KineticText.Proofs.Registry.Offers
import KineticText.Proofs.Reveal.Playing

/-! A display replaces all that an animator did before, or is refused and leaves no trace. -/
namespace KineticText

/-- What a host asks of an animator. -/
inductive Request where
  | display (source : Text)
  | update (elapsed : Float)
  | cancel
  | displace (index : Int) (time : Float) (v : Vertex) (draws : Draws)

/-- What an animator says to a request. -/
inductive Reply where
  | displayed (c : Compiled)
  /-- The markup does not compile. -/
  | refused (e : CompileError)
  | revealed (count : Nat)
  | cancelled
  | displaced (v : Displaced (Vertex × Draws))

/-- The reply to markup that is to be shown. -/
def Reply.ofDisplay : Except CompileError Compiled → Reply
  | .ok c => .displayed c
  | .error e => .refused e

/-- What a renderer reads off: the display text, how many of its characters show, and whether more
are to come. -/
structure Showing where
  text : Text
  revealed : Nat
  isActive : Bool
  deriving DecidableEq

namespace Animator

def showing (a : Animator) : Showing := ⟨a.text, a.player.revealed, a.player.isActive⟩

/-- The reply to a request, and the animator from then on. -/
def respond (a : Animator) : Request → Reply × Animator
  | .display source => (.ofDisplay (a.display source).1, (a.display source).2)
  | .update elapsed => (.revealed (a.update elapsed).1, (a.update elapsed).2)
  | .cancel => (.cancelled, a.cancel)
  | .displace index time v draws => (.displaced (a.displace index time v draws), a)

/-- The animator after one request after the other. -/
def after (a : Animator) (qs : List Request) : Animator := qs.foldl (fun a q => (a.respond q).2) a

/-- All that a host learns from requests: each reply, and what shows then. -/
def replies (a : Animator) : List Request → List (Reply × Showing)
  | [] => []
  | q :: qs => ((a.respond q).1, (a.respond q).2.showing) :: replies (a.respond q).2 qs

/-- The compiled markup is what an animator shows, and none of it has been revealed yet, or without
the typewriter all of it at once. -/
structure Begins (s : Settings) (c : Compiled) (a : Animator) : Prop where
  shown : a.shown = some c
  showing : a.showing = ⟨c.display, if s.typewriter then 0 else c.visibleCount, s.typewriter⟩
  pending : a.player.pending =
    if s.typewriter then some (schedule s.pace c.processed) else none
  remaining : a.player.remaining = 0

variable {a b : Animator} {s : Settings} {r : Registry} {q : Request} {source : Text}
  {c : Compiled} {e : CompileError}

/-! ### One request -/

open Attempt

/-- Markup that does not compile stops a display before it has changed anything. -/
theorem display_of_error (h : compile a.settings a.registry source = .error e) :
    a.display source = (.error e, a) := by
  rw [display, displaying, outcome_get_bind, h]
  rfl

/-- Of the old player nothing is left, whether or not it was cancelled first. -/
theorem display_of_ok (h : compile a.settings a.registry source = .ok c) : a.display source =
    (.ok c, { a with shown := some c, player := c.reveal a.settings a.player }) := by
  have hcancel : c.reveal a.settings a.player.cancel = c.reveal a.settings a.player := by
    rw [Compiled.reveal, Player.start_eq, Compiled.reveal, Player.start_eq]
  rw [← hcancel, display, displaying, outcome_get_bind, h]
  rfl

theorem begins_of_ok (h : compile a.settings a.registry source = .ok c) :
    Begins a.settings c (a.display source).2 := by
  rw [display_of_ok h, Compiled.reveal, Player.start_eq]
  constructor <;> cases a.settings.typewriter <;> rfl

/-- The settings and the directives are an animator's own: no request changes them. -/
theorem respond_kept (a : Animator) (q : Request) :
    (a.respond q).2.settings = a.settings ∧ (a.respond q).2.registry = a.registry := by
  cases q with
  | display source =>
    rw [respond]
    cases h : compile a.settings a.registry source with
    | ok c => rw [display_of_ok h]; exact ⟨rfl, rfl⟩
    | error e => rw [display_of_error h]; exact ⟨rfl, rfl⟩
  | update elapsed => exact ⟨rfl, rfl⟩
  | cancel => exact ⟨rfl, rfl⟩
  | displace index time v draws => exact ⟨rfl, rfl⟩

/-- Markup that does not compile is refused, and nothing else has happened. -/
theorem respond_display_error (h : compile a.settings a.registry source = .error e) :
    a.respond (.display source) = (.refused e, a) := by
  rw [respond, display_of_error h, Reply.ofDisplay]

theorem respond_display_ok (h : compile a.settings a.registry source = .ok c) :
    a.respond (.display source) =
      (.displayed c, { a with shown := some c, player := c.reveal a.settings a.player }) := by
  rw [respond, display_of_ok h, Reply.ofDisplay]

theorem respond_display_eq_refused_iff :
    (a.respond (.display source)).1 = .refused e ↔
      compile a.settings a.registry source = .error e := by
  cases h : compile a.settings a.registry source with
  | ok c => simp [respond_display_ok h]
  | error x => simp [respond_display_error h]

/-- Where a display is accepted, the animators that it leaves do not depend on what either of the two
did before: not on the schedule, the wait or the counter of a player, nor on whether it was
cancelled. -/
theorem respond_display_congr (hs : a.settings = b.settings) (hr : a.registry = b.registry)
    (h : compile a.settings a.registry source = .ok c) :
    a.respond (.display source) = b.respond (.display source) := by
  have hb : compile b.settings b.registry source = .ok c := by rwa [← hs, ← hr]
  cases a
  cases b
  obtain rfl := hs
  obtain rfl := hr
  rw [respond_display_ok h, respond_display_ok hb, Compiled.reveal, Player.start_eq,
    Compiled.reveal, Player.start_eq]

/-! ### Requests one after the other -/

theorem after_kept (a : Animator) (qs : List Request) :
    (a.after qs).settings = a.settings ∧ (a.after qs).registry = a.registry := by
  induction qs generalizing a with
  | nil => exact ⟨rfl, rfl⟩
  | cons q qs ih =>
    obtain ⟨hs, hr⟩ := a.respond_kept q
    obtain ⟨hs', hr'⟩ := ih (a.respond q).2
    exact ⟨hs'.trans hs, hr'.trans hr⟩

/-- What a host has learned so far stands, and from then on it learns what the animator left by the
first requests tells. -/
theorem replies_append (a : Animator) (qs ps : List Request) :
    a.replies (qs ++ ps) = a.replies qs ++ (a.after qs).replies ps := by
  induction qs generalizing a with
  | nil => rfl
  | cons q qs ih => exact congrArg _ (ih _)

theorem length_replies (a : Animator) (qs : List Request) : (a.replies qs).length = qs.length := by
  induction qs generalizing a with
  | nil => rfl
  | cons q qs ih => exact congrArg (· + 1) (ih _)

/-- Whatever a host has done with an animator, a display is refused exactly if its markup does not
compile. If it is refused, what is shown stays, and all later replies are those of the same requests
without it. If not, the markup is shown from its start, and all later replies are those of a new
animator that has had no other request before. -/
theorem display_atomic (s : Settings) (r : Registry) (history : List Request) (source : Text) :
    let fresh : Animator := { settings := s, registry := r }
    let a := fresh.after history
    (∀ e, (a.respond (.display source)).1 = .refused e ↔ compile s r source = .error e) ∧
    (∀ e, compile s r source = .error e →
      (a.after [.display source]).shown = a.shown ∧
      (a.after [.display source]).showing = a.showing ∧
      ∀ later, fresh.replies (history ++ .display source :: later) =
        fresh.replies history ++
          (.refused e, a.showing) :: (fresh.replies (history ++ later)).drop history.length) ∧
    ∀ c, compile s r source = .ok c →
      (a.respond (.display source)).1 = .displayed c ∧
      Begins s c (a.after [.display source]) ∧
      ∀ later, fresh.replies (history ++ .display source :: later) =
        fresh.replies history ++ fresh.replies (.display source :: later) := by
  intro fresh a
  obtain ⟨hs, hr⟩ : a.settings = s ∧ a.registry = r := fresh.after_kept history
  refine ⟨fun e => ?_, fun e he => ?_, fun c hc => ?_⟩
  · rw [respond_display_eq_refused_iff, hs, hr]
  · have hrefused : a.respond (.display source) = (.refused e, a) :=
      respond_display_error (by rwa [hs, hr])
    have hafter : a.after [.display source] = a := congrArg Prod.snd hrefused
    refine ⟨by rw [hafter], by rw [hafter], fun later => ?_⟩
    rw [replies_append, replies_append, ← fresh.length_replies history, List.drop_left]
    exact congrArg _ (by rw [replies, hrefused])
  · have ha : compile a.settings a.registry source = .ok c := by rwa [hs, hr]
    have hsame : a.respond (.display source) = fresh.respond (.display source) :=
      respond_display_congr hs hr ha
    refine ⟨by rw [respond_display_ok ha], hs ▸ begins_of_ok ha, fun later => ?_⟩
    rw [replies_append]
    exact congrArg _ (by rw [replies, hsame, replies])

/-- A reveal that waits for a time that is no number goes on after markup that does not compile, and
is forgotten after markup that does. -/
theorem display_atomic_halted :
    let fresh : Animator := { settings := {}, registry := .ofOffers [Registry.halt] }
    let history : List Request := [.display "ab".toList, .update (0 / 0)]
    compile {} (.ofOffers [Registry.halt]) "</wave>".toList = .error (.undefinedEffect .waveEnd) ∧
    (∀ later, fresh.replies (history ++ .display "</wave>".toList :: later) =
      fresh.replies history ++ (.refused (.undefinedEffect .waveEnd), (fresh.after history).showing) ::
        (fresh.replies (history ++ later)).drop history.length) ∧
    (∃ c, compile {} (.ofOffers [Registry.halt]) "<b>c".toList = .ok c ∧
      Begins {} c ((fresh.after history).after [.display "<b>c".toList])) ∧
    ∀ later, fresh.replies (history ++ .display "<b>c".toList :: later) =
      fresh.replies history ++ fresh.replies (.display "<b>c".toList :: later) := by
  intro fresh history
  have hrefused : compile {} (.ofOffers [Registry.halt]) "</wave>".toList =
      .error (.undefinedEffect .waveEnd) := compile_eq_error_iff.mpr ⟨_, rfl, rfl⟩
  obtain ⟨c, haccepted⟩ : ∃ c, compile {} (.ofOffers [Registry.halt]) "<b>c".toList = .ok c :=
    ⟨_, compile_eq_ok_iff_cues.mpr ⟨by decide, rfl⟩⟩
  obtain ⟨-, hkept, -⟩ := display_atomic {} (.ofOffers [Registry.halt]) history "</wave>".toList
  obtain ⟨-, -, hforgot⟩ := display_atomic {} (.ofOffers [Registry.halt]) history "<b>c".toList
  obtain ⟨-, -, hreplies⟩ := hkept _ hrefused
  obtain ⟨-, hbegins, hforgotten⟩ := hforgot c haccepted
  exact ⟨hrefused, hreplies, ⟨c, haccepted, hbegins⟩, hforgotten⟩

end Animator
end KineticText
