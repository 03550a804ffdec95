import FairQueue.Call.Consumer
import FairQueue.Call.Producer

/-!
What each call comes to, given what its operations on the queue come to. A call that reports an
event does so at its very end, with the items that it is about to deliver in its hands.
-/

namespace FairQueue

/-- The request at which drawing all items of the source fails, if there is one. -/
def Source.failure? {α : Type} (source : Source α) : Option Nat :=
  source.failsAt.filter (· ≤ source.items.length)

/-- What a consumer reports when it wakes up and collects its item. -/
def Patience.collection (slot : Nat) : Patience → Event
  | endless ahead => .collectedBehind slot ahead
  | deadline _ => .collected slot

theorem Queue.countRemoval_of_lt {α : Type} {q : Queue α} (hcount : q.removed + 1 < UInt64.size) :
    q.countRemoval = .ok { q with removed := q.removed + 1 } :=
  if_pos hcount

namespace Call

variable {α β γ : Type} {scene scene' : Scene α} {q q' : Queue α} {item : α} {place : Place}
  {source : Source α}

theorem bind_of_ok {call : Call α β} {result : β} (h : call scene = .ok result scene')
    (next : β → Call α γ) : (call >>= next) scene = next result scene' := by
  simp [bind, EStateM.bind, h]

theorem bind_of_error {call : Call α β} {panic : Panic} (h : call scene = .error panic scene')
    (next : β → Call α γ) : (call >>= next) scene = .error panic scene' := by
  simp [bind, EStateM.bind, h]

theorem map_of_ok {call : Call α β} {result : β} (h : call scene = .ok result scene')
    (f : β → γ) : (f <$> call) scene = .ok (f result) scene' := by
  simp [Functor.map, EStateM.map, h]

/-- The end of a call: an event, if there is one, is reported while the call holds `freight`. -/
def conclude (event : Option Event) (freight : List α) (result : β) : Call α β := do
  if let some event := event then
    holding freight (report event)
  return result

theorem conclude_eq (event : Option Event) (freight : List α) (result : β) (scene : Scene α) :
    conclude event freight result scene =
      match event, scene.refusing with
      | some event, true =>
        .error (.refused event) { scene with destroyed := scene.destroyed ++ freight }
      | event, _ => .ok result { scene with logged := scene.logged ++ event.toList } := by
  cases event with
  | none => simp [conclude, pure, EStateM.pure]
  | some event =>
      have hholding := holding_eq freight (report event) scene
      rw [report_eq] at hholding
      cases hrefusing : scene.refusing <;>
        simp_all [conclude, bind, EStateM.bind, pure, EStateM.pure]

theorem bind_of_conclude {call : Call α β} {event : Option Event} {freight : List α} {result : β}
    (h : call scene = conclude event freight result scene') (result' : γ) :
    (call >>= fun _ => pure result') scene = conclude event freight result' scene' := by
  rw [conclude_eq] at h ⊢
  cases event with
  | none => exact bind_of_ok h _
  | some event =>
      cases hrefusing : scene'.refusing with
      | false =>
          rw [hrefusing] at h
          exact bind_of_ok h _
      | true =>
          rw [hrefusing] at h
          exact bind_of_error h _

theorem holding_nil (part : Call α β) : holding [] part = part := by
  funext scene
  rw [holding_eq]
  cases part scene <;> simp

/-- A call that says something and holds nothing. -/
theorem report_then_return (event : Event) (result : β) :
    (do report event; return result) = (conclude (some event) [] result : Call α β) := by
  simp only [conclude, holding_nil]

theorem ring_eq (bells : List Nat) (scene : Scene α) :
    ring bells scene = .ok () { scene with rung := scene.rung ++ bells } := rfl

theorem announce_some (place : Place) (scene : Scene α) :
    announce (some place) scene =
      conclude (some (.served place.slot)) [] ()
        { scene with rung := scene.rung ++ [place.bell] } := by
  rw [announce, bind_of_ok (ring_eq _ _)]
  simp [conclude, holding_nil]

theorem announceAll_eq (count : Nat) (places : List Place) (scene : Scene α) :
    announceAll count places scene =
      conclude (some (.batch count places.length)) [] ()
        { scene with rung := scene.rung ++ places.map (·.bell) } := by
  rw [announceAll, bind_of_ok (ring_eq _ _)]
  simp [conclude, holding_nil]

theorem destroy_eq (items : List α) (scene : Scene α) :
    destroy items scene = .ok () { scene with destroyed := scene.destroyed ++ items } := rfl

theorem draw_of_failure {request : Nat} (h : source.failure? = some request) :
    source.draw scene =
      .error (.sourceFailed request)
        { scene with destroyed := scene.destroyed ++ source.items.take request } := by
  obtain ⟨hfails, hle⟩ := Option.filter_eq_some_iff.mp h
  have hthrow : (throw (.sourceFailed request) : Call α (List α)) scene =
      .error (.sourceFailed request) scene := rfl
  simp only [Source.draw, hfails, of_decide_eq_true hle, if_true, holding_eq, hthrow]

theorem draw_of_none (h : source.failure? = none) :
    source.draw scene = .ok source.items scene := by
  cases hfails : source.failsAt with
  | none => simp [Source.draw, hfails, pure, EStateM.pure]
  | some request =>
      have hlt : ¬ request ≤ source.items.length := by
        simpa [Source.failure?, hfails] using h
      simp [Source.draw, hfails, hlt, pure, EStateM.pure]

theorem putAll_of_failure {request : Nat} (h : source.failure? = some request) :
    putAll source scene =
      .error (.sourceFailed request)
        { scene with destroyed := scene.destroyed ++ source.items.take request } := by
  rw [putAll, bind_of_error (draw_of_failure h)]

theorem putAll_of_nil (h : source.failure? = none) (hitems : source.items = []) :
    putAll source scene = .ok () scene := by
  rw [putAll, bind_of_ok (draw_of_none h), hitems]
  rfl

theorem waitUntil_early {deadline : Time} (hnow : ¬ deadline ≤ scene.clock.now) :
    waitUntil place deadline scene =
      .ok (.asleep { place, patience := .deadline deadline } (some (deadline - scene.clock.now)))
        { scene with clock := scene.clock.read.2 } := by
  rw [waitUntil, bind_of_ok (readClock_eq scene)]
  simp [hnow, pure, EStateM.pure]

theorem takeWithin_eq (span : Time) :
    takeWithin span scene =
      match scene.clock.now.plus? span with
      | some deadline => takeUntil deadline { scene with clock := scene.clock.read.2 }
      | none => take { scene with clock := scene.clock.read.2 } := by
  rw [takeWithin, bind_of_ok (readClock_eq scene)]
  cases scene.clock.now.plus? span <;> rfl

/-!
From here on the lock is intact, so that the operations under it are what the calls come to.
-/

variable (hintact : scene.queue.broken = false)

include hintact

theorem poll_of_ok {result : Option α × Queue α} (hpop : scene.queue.pop = .ok result) :
    poll scene = .ok result.1 { scene with queue := result.2 } :=
  locked_of_ok hintact hpop

theorem put_stored (hput : scene.queue.put item = .ok (none, q)) :
    put item scene = .ok () { scene with queue := q } := by
  rw [put, bind_of_ok (locked_of_ok hintact hput)]
  rfl

theorem put_served (hput : scene.queue.put item = .ok (some place, q)) :
    put item scene =
      conclude (some (.served place.slot)) [] ()
        { scene with queue := q, rung := scene.rung ++ [place.bell] } := by
  rw [put, bind_of_ok (locked_of_ok hintact hput), announce_some]

theorem putAll_of_ok {places : List Place} (h : source.failure? = none) (hitems : source.items ≠ [])
    (hput : scene.queue.putAll source.items = .ok (places, q)) :
    putAll source scene =
      conclude (some (.batch source.items.length places.length)) [] ()
        { scene with queue := q, rung := scene.rung ++ places.map (·.bell) } := by
  have hlocked : locked (·.putAll source.items) scene = .ok places { scene with queue := q } :=
    locked_of_ok hintact hput
  rw [putAll, bind_of_ok (draw_of_none h)]
  simp [hitems, bind_of_ok hlocked, announceAll_eq]

theorem take_item (hpop : scene.queue.pop = .ok (some item, q)) :
    take scene = .ok (.returned (some item)) { scene with queue := q } := by
  rw [take, bind_of_ok (poll_of_ok hintact hpop)]
  rfl

theorem take_join (hpop : scene.queue.pop = .ok (none, scene.queue))
    (hjoin : scene.queue.join = .ok (place, q)) :
    take scene =
      .ok (.asleep { place, patience := .endless scene.queue.line.size } none)
        { scene with queue := q } := by
  rw [take, bind_of_ok (poll_of_ok hintact hpop)]
  simp [bind_of_ok (look_of_unbroken hintact), bind_of_ok (locked_of_ok hintact hjoin), pure,
    EStateM.pure]

theorem waitUntil_due {deadline : Time} (hnow : deadline ≤ scene.clock.now)
    (hleave : scene.queue.leave place.slot = .ok (none, q)) :
    waitUntil place deadline scene =
      conclude (some (.timedOut place.slot)) [] (.returned none)
        { scene with queue := q, clock := scene.clock.read.2 } := by
  have hlocked : locked (·.leave place.slot) { scene with clock := scene.clock.read.2 } =
      .ok none { scene with queue := q, clock := scene.clock.read.2 } :=
    locked_of_ok hintact hleave
  rw [waitUntil, bind_of_ok (readClock_eq scene)]
  simp [hnow, bind_of_ok hlocked, conclude, holding_nil]

theorem takeUntil_item {deadline : Time} (hpop : scene.queue.pop = .ok (some item, q)) :
    takeUntil deadline scene = .ok (.returned (some item)) { scene with queue := q } := by
  rw [takeUntil, bind_of_ok (poll_of_ok hintact hpop)]
  rfl

theorem takeUntil_past {deadline : Time} (hpop : scene.queue.pop = .ok (none, scene.queue))
    (hnow : deadline ≤ scene.clock.now) :
    takeUntil deadline scene = .ok (.returned none) { scene with clock := scene.clock.read.2 } := by
  rw [takeUntil, bind_of_ok (poll_of_ok hintact hpop)]
  simp [bind_of_ok (readClock_eq scene), hnow, pure, EStateM.pure]

theorem takeUntil_join {deadline : Time} (hpop : scene.queue.pop = .ok (none, scene.queue))
    (hnow : ¬ deadline ≤ scene.clock.now) (hjoin : scene.queue.join = .ok (place, q)) :
    takeUntil deadline scene =
      waitUntil place deadline { scene with queue := q, clock := scene.clock.read.2 } := by
  have hlocked : locked (·.join) { scene with clock := scene.clock.read.2 } =
      .ok place { scene with queue := q, clock := scene.clock.read.2 } :=
    locked_of_ok hintact hjoin
  rw [takeUntil, bind_of_ok (poll_of_ok hintact hpop)]
  simp [bind_of_ok (readClock_eq scene), hnow, bind_of_ok hlocked]

theorem resume_served {sleeper : Sleeper}
    (hcollect : scene.queue.collect sleeper.place.slot = .ok (some item, q)) :
    resume sleeper scene =
      conclude
        (some (sleeper.patience.collection sleeper.place.slot))
        [item] (.returned (some item)) { scene with queue := q } := by
  rw [resume, bind_of_ok (locked_of_ok hintact hcollect)]
  cases sleeper.patience <;> rfl

theorem resume_waiting {sleeper : Sleeper}
    (hcollect : scene.queue.collect sleeper.place.slot = .ok (none, scene.queue)) :
    resume sleeper scene =
      match sleeper.patience with
      | .endless _ => .ok (.asleep sleeper none) scene
      | .deadline time => waitUntil sleeper.place time scene := by
  rw [resume, bind_of_ok (locked_of_ok hintact hcollect)]
  cases sleeper.patience <;> rfl

theorem poll_eq (hcount : scene.queue.removed + min 1 scene.queue.items.length < UInt64.size) :
    poll scene =
      .ok scene.queue.items.head?
        { scene with queue := { scene.queue with
            items := scene.queue.items.drop 1
            removed := scene.queue.removed + min 1 scene.queue.items.length } } := by
  have hpop : scene.queue.pop = .ok (scene.queue.items.head?, { scene.queue with
      items := scene.queue.items.drop 1
      removed := scene.queue.removed + min 1 scene.queue.items.length }) := by
    generalize scene.queue = q at hcount
    obtain ⟨items, line, removed, broken⟩ := q
    cases items with
    | nil => rfl
    | cons item items =>
        have hcounted := Queue.countRemoval_of_lt (q := ⟨items, line, removed, broken⟩) (by
          have hone : min 1 (items.length + 1) = 1 := by omega
          rwa [List.length_cons, hone] at hcount)
        simp [Queue.pop, hcounted, bind, Except.bind, pure, Except.pure]
  exact poll_of_ok hintact hpop

theorem pollMany_eq (count : Nat)
    (hcount : scene.queue.removed + min count scene.queue.items.length < UInt64.size) :
    pollMany count scene =
      .ok (scene.queue.items.take count)
        { scene with queue := { scene.queue with
            items := scene.queue.items.drop count
            removed := scene.queue.removed + min count scene.queue.items.length } } := by
  induction count generalizing scene with
  | zero => simp [pollMany, pure, EStateM.pure]
  | succ count ih =>
      have hpoll := poll_eq hintact (by omega)
      rw [pollMany, bind_of_ok hpoll]
      cases hitems : scene.queue.items with
      | nil => simp [pure, EStateM.pure]
      | cons item items =>
          simp only [hitems, List.length_cons] at hcount
          let popped : Scene α := { scene with queue :=
            { scene.queue with items, removed := scene.queue.removed + 1 } }
          have hpopped : pollMany count popped = .ok (items.take count) _ :=
            ih (show popped.queue.broken = false from hintact)
              (show scene.queue.removed + 1 + min count items.length < UInt64.size by omega)
          simp only [List.head?_cons, List.drop_succ_cons, List.drop_zero, List.length_cons,
            show min 1 (items.length + 1) = 1 by omega]
          rw [bind_of_ok hpopped]
          simp [pure, EStateM.pure, popped]
          omega

theorem drain_eq (max : Option Nat)
    (hcount : scene.queue.removed +
      min (max.getD scene.queue.items.length) scene.queue.items.length < UInt64.size) :
    drain max scene =
      .ok (scene.queue.items.take (max.getD scene.queue.items.length))
        { scene with queue := { scene.queue with
            items := scene.queue.items.drop (max.getD scene.queue.items.length)
            removed := scene.queue.removed +
              min (max.getD scene.queue.items.length) scene.queue.items.length } } := by
  rw [drain, bind_of_ok (look_of_unbroken hintact)]
  exact pollMany_eq hintact _ hcount

omit hintact

theorem close_bind (hempty : scene.queue.line.isEmpty = true) :
    close scene =
      (conclude (some (.closing scene.queue.items.length scene.queue.removed)) scene.queue.contents
        () >>= fun _ => destroy scene.queue.contents) scene := by
  rw [close, bind_of_ok (get_eq scene)]
  simp [hempty, conclude]

theorem close_refused (hempty : scene.queue.line.isEmpty = true)
    (hrefusing : scene.refusing = true) :
    close scene =
      .error (.refused (.closing scene.queue.items.length scene.queue.removed))
        { scene with destroyed := scene.destroyed ++ scene.queue.contents } := by
  rw [close_bind hempty]
  apply bind_of_error
  simp only [conclude_eq, hrefusing]

theorem close_reported (hempty : scene.queue.line.isEmpty = true)
    (hrefusing : scene.refusing = false) :
    close scene =
      .ok () { scene with
        logged := scene.logged ++ [.closing scene.queue.items.length scene.queue.removed]
        destroyed := scene.destroyed ++ scene.queue.contents } := by
  rw [close_bind hempty]
  have hreported : conclude (some (.closing scene.queue.items.length scene.queue.removed))
      scene.queue.contents () scene = .ok () { scene with
        logged := scene.logged ++ [.closing scene.queue.items.length scene.queue.removed] } := by
    simp only [conclude_eq, hrefusing]
    rfl
  rw [bind_of_ok hreported, destroy_eq]

end Call

end FairQueue
