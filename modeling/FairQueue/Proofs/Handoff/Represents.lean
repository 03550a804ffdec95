import FairQueue.Proofs.Handoff.Seating
import FairQueue.Proofs.Lists

/-!
When a session is in the state that a hand-off queue describes, and what it takes for a step of the
session to show what a turn of the hand-off queue says.
-/

namespace FairQueue

open Call

variable {α : Type}

namespace Session

/-- The session as a hand-off queue, given who holds which seat. -/
def handoff (s : Session α) (served : List (Seat × α)) (waiting : List Seat) : Handoff α where
  items := s.queue.items
  waiting := waiting.map Seat.waiter
  served := served.map fun y => (y.1.waiter, y.2)
  removed := s.queue.removed
  now := s.now
  iterators := s.iterators

/-- The session is in the state that the hand-off queue describes: every consumer asleep has a seat,
those in the line wait in the same order, and those that were served have the same items. -/
def Represents (s : Session α) (h : Handoff α) : Prop :=
  ∃ r served waiting, Seated s.queue r served waiting ∧
    s.sleepers = served.map (·.1) ++ waiting ∧ h = s.handoff served waiting

variable {s : Session α} {step : Step α} {served : List (Seat × α)} {waiting : List Seat}
  {event : Option Event} {q : Queue α} {clock : Clock} {t : Turn α}

theorem stats_handoff {r : Roster α} (h : Seated s.queue r served waiting) :
    (s.handoff served waiting).stats = s.queue.stats := by
  simp [handoff, Handoff.stats, Queue.stats, h.size_eq]

/-- What is seen of a call that ends with `event`, with the items `freight` in its hands. -/
def concluded (s : Session α) (refusing : Bool) (event : Option Event) (freight : List α)
    (reply : Reply α) (bells : List Nat) (q : Queue α) : Entry α :=
  match event, refusing with
  | some event, true =>
    { reply := .panicked (.refused event)
      notified := s.asleepOn bells
      logged := []
      destroyed := freight
      stats := some q.stats }
  | event, _ =>
    { reply := reply
      notified := s.asleepOn bells
      logged := event.toList
      destroyed := []
      stats := some q.stats }

theorem concluded_some (refusing : Bool) (event : Event) (freight : List α) (reply : Reply α)
    (bells : List Nat) :
    s.concluded refusing (some event) freight reply bells q =
      { reply := if refusing then .panicked (.refused event) else reply
        notified := s.asleepOn bells
        logged := if refusing then [] else [event]
        destroyed := if refusing then freight else []
        stats := some q.stats } := by
  cases refusing <;> rfl

theorem notified_concluded (refusing : Bool) (event : Option Event) (freight : List α)
    (reply : Reply α) (bells : List Nat) :
    (s.concluded refusing event freight reply bells q).notified = s.asleepOn bells := by
  unfold concluded
  split <;> rfl

theorem anonymous_concluded {refusing : Bool} {reply : Reply α} {bells : List Nat}
    (hreply : t.reply = reply) (hanonymous : reply.anonymous = reply)
    (hevent : t.event = event.map Event.anonymous) (hnotified : t.notified = s.asleepOn bells)
    (hdestroyed : t.destroyed = []) (hstats : t.queue.stats = q.stats) :
    (s.concluded refusing event reply.freight reply bells q).anonymous = t.entry refusing := by
  subst hreply
  cases event with
  | none => simp [concluded, Entry.anonymous, Turn.entry, *]
  | some event =>
      cases refusing <;> simp [concluded, Entry.anonymous, Turn.entry, *]

theorem make_eq {call : Call α (Reply α)} {freight : List α} {reply : Reply α} {bells : List Nat}
    (hcall : call (s.scene step) = conclude event freight reply
      { s.scene step with queue := q, clock := clock, rung := bells }) :
    s.make step call =
      ({ s with queue := q, now := clock.now },
        s.concluded step.refusing event freight reply bells q) := by
  rw [make, hcall, conclude_eq]
  cases event with
  | none => rfl
  | some event =>
      cases hrefusing : step.refusing <;> simp [concluded, scene, after, entry, hrefusing]

def Follows (next : Session α × Entry α) (refusing : Bool) (t : Turn α) : Prop :=
  next.1.Represents { t.queue with now := t.clock.now } ∧ next.2.anonymous = t.entry refusing

theorem make_follows {r : Roster α} {call : Call α (Reply α)} (event : Option Event)
    (reply : Reply α) (bells : List Nat)
    (hcall : call (s.scene step) = conclude event reply.freight reply
      { s.scene step with queue := q, rung := bells })
    (hseated : Seated q r served waiting) (hsleepers : s.sleepers = served.map (·.1) ++ waiting)
    (hqueue : t.queue = { s with queue := q }.handoff served waiting)
    (hclock : t.clock = (s.scene step).clock) (hreply : t.reply = reply)
    (hanonymous : reply.anonymous = reply) (hevent : t.event = event.map Event.anonymous)
    (hnotified : t.notified = s.asleepOn bells) (hdestroyed : t.destroyed = []) :
    Follows (s.make step call) step.refusing t := by
  rw [make_eq hcall]
  constructor
  · refine ⟨r, served, waiting, hseated, hsleepers, ?_⟩
    rw [hqueue, hclock]
    rfl
  · refine anonymous_concluded hreply hanonymous hevent hnotified hdestroyed ?_
    rw [hqueue]
    exact stats_handoff hseated

/-- The session once `c` has taken a turn of its call. -/
def heard (s : Session α) (c : Consumer) (progress : Progress α) : Session α :=
  match progress.sleeper? with
  | some sleeper => s.withSleeper c sleeper
  | none => s.withoutSleeper c

/-- Hearing of `c` changes nothing but who is asleep, and takes no notice of the queue and of the
clock. -/
theorem heard_eq (s : Session α) (c : Consumer) (progress : Progress α) (q : Queue α) (now : Time) :
    { s with queue := q, now }.heard c progress =
      { s with queue := q, now, sleepers := (s.heard c progress).sleepers } := by
  unfold heard withSleeper withoutSleeper sleeper?
  split
  · dsimp only
    split <;> rfl
  · rfl

theorem consume_of_ok {call : Call α (Progress α)} {c : Consumer} {progress : Progress α}
    {scene : Scene α} (hcall : call (s.scene step) = .ok progress scene) :
    s.consume step c call = ((s.after scene).heard c progress, s.entry scene progress.reply) := by
  rw [consume, hcall]
  rfl

/-- A call that breaks off leaves the consumer awake. -/
theorem consume_of_error {call : Call α (Progress α)} {c : Consumer} {panic : Panic}
    {scene : Scene α} (hcall : call (s.scene step) = .error panic scene) :
    s.consume step c call =
      ((s.after scene).heard c (.returned none), s.entry scene (.panicked panic)) := by
  rw [consume, hcall]
  rfl

theorem consume_eq {call : Call α (Progress α)} {c : Consumer} {freight : List α}
    {progress : Progress α} (hreturned : event ≠ none → progress.sleeper? = none)
    (hcall : call (s.scene step) = conclude event freight progress
      { s.scene step with queue := q, clock := clock }) :
    s.consume step c call =
      ({ s with queue := q, now := clock.now }.heard c progress,
        s.concluded step.refusing event freight progress.reply [] q) := by
  rw [consume, hcall, conclude_eq]
  cases event with
  | none => rfl
  | some event =>
      have hnone := hreturned (by simp)
      cases hrefusing : step.refusing <;>
        simp [concluded, scene, after, entry, heard, hnone, hrefusing]

/-- What a turn of a call made by `c` comes to in a session, as `t` says. -/
structure Ending (s : Session α) (c : Consumer) (t : Turn α) where
  event : Option Event
  progress : Progress α
  queue : Queue α
  roster : Roster α
  served : List (Seat × α)
  waiting : List Seat
  seated : Seated queue roster served waiting
  sleepers : (s.heard c progress).sleepers = served.map (·.1) ++ waiting
  returned : event ≠ none → progress.sleeper? = none
  queue_eq : t.queue = { s with queue }.handoff served waiting
  event_eq : t.event = event.map Event.anonymous := by rfl
  reply_eq : t.reply = progress.reply := by rfl
  notified_eq : t.notified = [] := by rfl
  destroyed_eq : t.destroyed = [] := by rfl

namespace Ending

variable {c : Consumer}

def scene (e : Ending s c t) (scene : Scene α) : Scene α :=
  { scene with queue := e.queue, clock := t.clock }

theorem follows (e : Ending s c t) {call : Call α (Progress α)}
    (hcall : call (s.scene step) =
      conclude e.event e.progress.reply.freight e.progress (e.scene (s.scene step))) :
    Follows (s.consume step c call) step.refusing t := by
  rw [consume_eq e.returned hcall, heard_eq]
  constructor
  · refine ⟨e.roster, e.served, e.waiting, e.seated, e.sleepers, ?_⟩
    rw [e.queue_eq]
    rfl
  · refine anonymous_concluded e.reply_eq ?_ e.event_eq ?_ e.destroyed_eq ?_
    · cases e.progress <;> rfl
    · rw [e.notified_eq]
      rfl
    · rw [e.queue_eq]
      exact stats_handoff e.seated

end Ending

end Session

end FairQueue
