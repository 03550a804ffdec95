import FairQueue.Proofs.Handoff.Fetches
import FairQueue.Proofs.History.Reservation

/-!
A batch is what its items are when they are put one after the other, but that nothing comes in
between and that it is reported as a whole.
-/

namespace FairQueue.Session

open Call

variable {α : Type} {s s' s₁ : Session α} {h : Handoff α} {r : Roster α}
  {served : List (Seat × α)} {waiting : List Seat} {item : α} {items : List α} {q : Queue α}
  {places : List Place} {source : Source α} {before singles : List (Step α)}

theorem step_put {place : Option Place} (hintact : s.queue.broken = false)
    (hput : s.queue.put item = .ok (place, q)) (refusing : Bool) (jumps : List Time) :
    s.step ⟨.put item, refusing, jumps⟩ =
      stillOpen ({ s with queue := q },
        s.concluded refusing (place.map (.served ·.slot)) [] .done (place.toList.map (·.bell))
          q) := by
  have hintact' : (s.scene ⟨.put item, refusing, jumps⟩).queue.broken = false := hintact
  cases place with
  | none =>
      simp only [Session.step, make, bind_of_ok (put_stored hintact' hput)]
      rfl
  | some place => exact congrArg stillOpen (make_eq (bind_of_conclude (put_served hintact' hput) _))

/-- Items put one after the other leave the queue that the batch of them leaves, and ring the same
bells. -/
theorem exists_run_puts (hseated : Seated s.queue r served waiting)
    (hactions : singles.map (·.action) = items.map .put) :
    ∃ places q, s.queue.putAll items = .ok (places, q) ∧
      (run (some s) singles).1 = some { s with queue := q } ∧
      (run (some s) singles).2.flatMap (·.notified) = s.asleepOn (places.map (·.bell)) := by
  induction items generalizing s r served waiting singles with
  | nil =>
      obtain rfl := List.map_eq_nil_iff.mp hactions
      exact ⟨[], s.queue, rfl, rfl, rfl⟩
  | cons item items ih =>
      obtain ⟨⟨_, refusing, jumps⟩, singles, rfl, rfl, hrest⟩ := List.map_eq_cons_iff.mp hactions
      -- whether the item is stored or served, the seats are known again
      have hnext : ∃ place q₁ r₁ served₁ waiting₁, s.queue.put item = .ok (place, q₁) ∧
          Seated q₁ r₁ served₁ waiting₁ := by
        cases waiting with
        | nil =>
            exact ⟨none, _, r, served, [], hseated.put_nobody item,
              hseated.withItems _ s.queue.removed (.inr rfl)⟩
        | cons x waiting =>
            obtain ⟨line, hput, hseated'⟩ := hseated.exists_put item
            exact ⟨some x.2.place, _, _, _, waiting, hput, hseated'⟩
      obtain ⟨place, q₁, r₁, served₁, waiting₁, hput, hseated₁⟩ := hnext
      have hstep := step_put hseated.intact hput refusing jumps
      obtain ⟨places, q, hputAll, hlast, hnotified⟩ :=
        ih (s := { s with queue := q₁ }) hseated₁ hrest
      refine ⟨place.toList ++ places, q, ?_, ?_, ?_⟩
      · simp [Queue.putAll, hput, hputAll, bind, Except.bind, pure, Except.pure]
      · rw [run_cons (congrArg Prod.fst hstep)]
        exact hlast
      · rw [run_cons (congrArg Prod.fst hstep), hstep, List.flatMap_cons, hnotified]
        rw [stillOpen, notified_concluded, List.map_append]
        exact List.flatMap_append.symm

/-- The items went to the consumers at the front of the line, one each, and those that the line left
over are stored behind the others. -/
structure Deals (s : Session α) (items : List α) (s' : Session α) : Prop where
  parked : s'.parked = s.parked.drop items.length
  served : ∀ p ∈ s.parked.zip items, s'.held? p.1 = some p.2
  others : ∀ c ∉ s.parked.take items.length, s'.held? c = s.held? c
  stored : s'.queue.items = s.queue.items ++ items.drop s.parked.length
  length : s'.queue.items.length = s.queue.items.length + (items.length - s.queue.line.size)
  removed : s'.queue.removed = s.queue.removed
  sleepers : s'.sleepers = s.sleepers
  now : s'.now = s.now
  iterators : s'.iterators = s.iterators

/-- A batch whose source does not fail, given what putting its items comes to. -/
theorem step_putAll (hintact : s.queue.broken = false) (hfailure : source.failure? = none)
    (hitems : source.items ≠ []) (hput : s.queue.putAll source.items = .ok (places, q))
    (refusing : Bool) (jumps : List Time) :
    s.step ⟨.putAll source, refusing, jumps⟩ =
      stillOpen ({ s with queue := q },
        s.concluded refusing (some (.batch source.items.length places.length)) [] .done
          (places.map (·.bell)) q) := by
  have hintact' : (s.scene ⟨.putAll source, refusing, jumps⟩).queue.broken = false := hintact
  exact congrArg stillOpen
    (make_eq (bind_of_conclude (putAll_of_ok hintact' hfailure hitems hput) _))

theorem step_putAll_nil (hfailure : source.failure? = none) (hitems : source.items = [])
    (refusing : Bool) (jumps : List Time) :
    s.step ⟨.putAll source, refusing, jumps⟩ = stillOpen (s.answer .done) := by
  simp only [Session.step, make, bind_of_ok (putAll_of_nil hfailure hitems)]
  rfl

theorem step_putAll_failing {request : Nat} (hfailure : source.failure? = some request)
    (refusing : Bool) (jumps : List Time) :
    s.step ⟨.putAll source, refusing, jumps⟩ =
      (some s,
        { reply := .panicked (.sourceFailed request)
          notified := []
          logged := []
          destroyed := source.items.take request
          stats := some s.queue.stats }) := by
  simp only [Session.step, make, bind_of_error (putAll_of_failure hfailure)]
  rfl

namespace Represents

variable (hrepresents : s.Represents h) (hrepresents' : s'.Represents (h.putAll items))

include hrepresents hrepresents'

theorem deals (hsleepers : s'.sleepers = s.sleepers) : s.Deals items s' where
  parked := by
    rw [hrepresents'.parked_eq, hrepresents.parked_eq, ← List.map_drop]
    rfl
  served := by
    intro p hp
    rw [hrepresents.parked_eq, List.zip_map_left] at hp
    obtain ⟨y, hy, rfl⟩ := List.mem_map.mp hp
    exact hrepresents'.held?_of_served (List.mem_append_right _ hy)
  others := by
    intro c hc
    have hheld := h.heldBy_putAll items c
    have hnothing : (h.dealt items).filter (·.1 = c) = [] := by
      refine List.filter_eq_nil_iff.mpr fun p hp hname => hc ?_
      obtain ⟨y, hy, rfl⟩ := List.mem_map.mp hp
      have hmem : y.1 ∈ h.waiting.take items.length := by
        rw [← map_fst_zip_eq_take]
        exact List.mem_map_of_mem hy
      rw [hrepresents.parked_eq, ← List.map_take, ← of_decide_eq_true hname]
      exact List.mem_map_of_mem hmem
    rw [hnothing, List.map_nil, List.append_nil] at hheld
    exact hrepresents.held?_congr hrepresents' hheld
  stored := by
    rw [← hrepresents'.items_eq, ← hrepresents.items_eq, hrepresents.parked_eq, List.length_map]
    rfl
  length := by
    rw [← hrepresents'.items_eq, ← hrepresents.items_eq, hrepresents.size_eq, ← List.length_drop,
      ← List.length_append]
    rfl
  removed := hrepresents'.removed_eq.trans hrepresents.removed_eq.symm
  sleepers := hsleepers
  now := hrepresents'.now_eq.trans hrepresents.now_eq.symm
  iterators := hrepresents'.iterators_eq.trans hrepresents.iterators_eq.symm

end Represents

/-- A batch, whether it is empty or not, leaves what its items leave one by one, and notifies the
same consumers. -/
theorem step_putAll_eq_run (hseated : Seated s.queue r served waiting)
    (hfailure : source.failure? = none) (refusing : Bool) (jumps : List Time)
    (hactions : singles.map (·.action) = source.items.map .put) :
    (run (some s) singles).1 = (s.step ⟨.putAll source, refusing, jumps⟩).1 ∧
      (run (some s) singles).2.flatMap (·.notified) =
        (s.step ⟨.putAll source, refusing, jumps⟩).2.notified := by
  obtain ⟨places, q, hput, hlast, hnotified⟩ := exists_run_puts hseated hactions
  by_cases hitems : source.items = []
  · rw [step_putAll_nil hfailure hitems]
    rw [hitems] at hput
    obtain ⟨rfl, rfl⟩ := Prod.mk.inj (Except.ok.inj hput)
    exact ⟨hlast, hnotified⟩
  · rw [step_putAll hseated.intact hfailure hitems hput]
    exact ⟨hlast, hnotified.trans (notified_concluded _ _ _ _ _).symm⟩

theorem Represents.exists_putAll (hrepresents : s.Represents h) (hfailure : source.failure? = none)
    (refusing : Bool) (jumps : List Time) :
    ∃ s', (s.step ⟨.putAll source, refusing, jumps⟩).1 = some s' ∧ s.Deals source.items s' ∧
      (s.step ⟨.putAll source, refusing, jumps⟩).2.notified =
        s.parked.take source.items.length := by
  obtain ⟨r, served, waiting, hseated, hsleepers, rfl⟩ := id hrepresents
  obtain ⟨hnext, hentry⟩ :
      Follows (s.make ⟨.putAll source, refusing, jumps⟩ (do Call.putAll source; return .done))
        refusing _ :=
    putAll_follows hseated hsleepers source
  simp only [Handoff.turn, hfailure] at hnext hentry
  refine ⟨_, rfl, hrepresents.deals hnext (sleepers_make _), ?_⟩
  have hnotified := congrArg Entry.notified hentry
  rw [Entry.notified_anonymous, Turn.notified_entry] at hnotified
  rw [hrepresents.parked_eq, ← List.map_take]
  exact hnotified

/-- A batch is reported once, with the number of its items and of those that went to consumers. -/
theorem Represents.entry_putAll (hrepresents : s.Represents h) (hfailure : source.failure? = none)
    (hitems : source.items ≠ []) (refusing : Bool) (jumps : List Time)
    (hstep : (s.step ⟨.putAll source, refusing, jumps⟩).1 = some s') :
    let count := source.items.length
    let event := Event.batch count (min count s.parked.length)
    (s.step ⟨.putAll source, refusing, jumps⟩).2 =
      { reply := if refusing then .panicked (.refused event) else .done
        notified := s.parked.take count
        logged := if refusing then [] else [event]
        destroyed := []
        stats := some s'.queue.stats } := by
  intro count event
  obtain ⟨-, -, -, hnotified⟩ := hrepresents.exists_putAll hfailure refusing jumps
  obtain ⟨r, served, waiting, hseated, -, rfl⟩ := id hrepresents
  obtain ⟨line, -, hput, -⟩ := hseated.exists_putAll source.items
  have hentry := step_putAll hseated.intact hfailure hitems hput refusing jumps
  have hdirect : ((waiting.take count).map (·.2.place)).length = min count s.parked.length := by
    rw [List.length_map, List.length_take, hrepresents.parked_eq, handoff, List.length_map,
      List.length_map]
  rw [hentry] at hstep hnotified
  obtain rfl := Option.some.inj hstep
  rw [stillOpen, notified_concluded] at hnotified
  rw [hentry, stillOpen, hdirect, concluded_some, hnotified, ite_self]

/-- A batch deals out its items, in every state that a queue can come to, as putting them one by one
would, and leaves the same slots and links. It shows one event, unless it is empty. If its source
fails nothing has happened, but that the items it gave before are destroyed. -/
theorem run_deals_batch {opening : Opening} (hopen : open? opening = some s)
    (hcount : Handoff.CountFits (some Handoff.empty) before)
    (hbefore : (run (some s) before).1 = some s₁) (source : Source α) (refusing : Bool)
    (jumps : List Time) :
    let step : Step α := ⟨.putAll source, refusing, jumps⟩
    let count := source.items.length
    (∀ request, source.failure? = some request →
        request ≤ count ∧
          s₁.step step =
            (some s₁,
              { reply := .panicked (.sourceFailed request)
                notified := []
                logged := []
                destroyed := source.items.take request
                stats := some s₁.queue.stats })) ∧
      (source.failure? = none →
        (source.items = [] → s₁.step step = stillOpen (s₁.answer .done)) ∧
          ∃ s₂, (s₁.step step).1 = some s₂ ∧ s₁.Deals source.items s₂ ∧
            (s₁.step step).2.notified = s₁.parked.take count ∧
            (∀ singles, singles.map (·.action) = source.items.map .put →
              (run (some s₁) singles).1 = some s₂ ∧
                (run (some s₁) singles).2.flatMap (·.notified) = s₁.parked.take count) ∧
            (source.items ≠ [] →
              let event := .batch count (min count s₁.parked.length)
              (s₁.step step).2 =
                { reply := if refusing then .panicked (.refused event) else .done
                  notified := s₁.parked.take count
                  logged := if refusing then [] else [event]
                  destroyed := []
                  stats := some s₂.queue.stats })) := by
  intro step count
  obtain ⟨rfl, -⟩ := open?_eq_some_iff.mp hopen
  obtain ⟨h, -, hrepresents⟩ := exists_represents represents_empty hcount hbefore
  constructor
  · intro request hfailure
    have hrequest := (Option.filter_eq_some_iff.mp hfailure).2
    exact ⟨of_decide_eq_true hrequest, step_putAll_failing hfailure refusing jumps⟩
  · intro hfailure
    obtain ⟨s₂, hstep, hdeals, hnotified⟩ := hrepresents.exists_putAll hfailure refusing jumps
    refine ⟨fun hitems => step_putAll_nil hfailure hitems refusing jumps, s₂, hstep, hdeals,
      hnotified, ?_, ?_⟩
    · intro singles hactions
      obtain ⟨r, served, waiting, hseated, -⟩ := hrepresents
      obtain ⟨hlast, hsame⟩ := step_putAll_eq_run hseated hfailure refusing jumps hactions
      exact ⟨hlast.trans hstep, hsame.trans hnotified⟩
    · intro hitems event
      exact hrepresents.entry_putAll hfailure hitems refusing jumps hstep

/-- Of three items two go to consumers and one is stored, whether they come as a batch or one by
one. A source that fails before the second item changes nothing. -/
theorem run_deals_batch_split :
    let five : Time := { secs := 5, nanos := 0 }
    let opened : Session Nat := ofQueue Queue.empty
    let parked := ((opened.act (.start 1 .take) []).1.act (.start 2 (.takeUntil five)) []).1
    (∃ s₂, (parked.step ⟨.putAll ⟨[7, 8, 9], some 4⟩, true, []⟩).1 = some s₂ ∧
      parked.Deals [7, 8, 9] s₂ ∧
      (run (some parked)
        [⟨.put 7, false, []⟩, ⟨.put 8, true, []⟩, ⟨.put 9, false, [five]⟩]).1 = some s₂) ∧
      (parked.step ⟨.putAll ⟨[7, 8], some 1⟩, false, []⟩).1 = some parked := by
  intro five opened parked
  have hopen : open? .plain = some opened := rfl
  have hcount : Handoff.CountFits (some Handoff.empty) ([⟨.start 1 .take, false, []⟩,
      ⟨.start 2 (.takeUntil five), false, []⟩] : List (Step Nat)) := by decide
  have hbefore : (run (some opened)
      [⟨.start 1 .take, false, []⟩, ⟨.start 2 (.takeUntil five), false, []⟩]).1 = some parked := by
    decide
  obtain ⟨-, hdeals⟩ := run_deals_batch hopen hcount hbefore ⟨[7, 8, 9], some 4⟩ true []
  obtain ⟨hfails, -⟩ := run_deals_batch hopen hcount hbefore ⟨[7, 8], some 1⟩ false []
  obtain ⟨-, s₂, hstep, hdealt, -, hsame, -⟩ := hdeals rfl
  exact ⟨⟨s₂, hstep, hdealt, (hsame _ rfl).1⟩, congrArg Prod.fst (hfails 1 rfl).2⟩

end FairQueue.Session
