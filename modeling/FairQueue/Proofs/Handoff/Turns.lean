import FairQueue.Proofs.Handoff.Removal

/-!
Every step of a session that does not close the queue shows what the hand-off queue's turn says and
leaves what it says.
-/

namespace FairQueue

/-- Whatever is asked, the counters alone tell the answer. -/
theorem Query.answer_eq_fromStats {α : Type} (query : Query) (q : Queue α) :
    query.answer q = query.fromStats q.stats := by
  have hempty : q.items.isEmpty = decide (q.items.length = 0) := by
    rw [Bool.eq_iff_iff]
    simp
  cases query <;> simp [Query.answer, Query.fromStats, Queue.stats, hempty]

namespace Session

open Call

variable {α : Type} {s : Session α} {h : Handoff α} {step : Step α} {r : Roster α}
  {served : List (Seat × α)} {waiting : List Seat} {c : Consumer}

theorem inside_handoff :
    (s.handoff served waiting).inside = (served.map (·.1) ++ waiting).map Seat.waiter := by
  simp [handoff, Handoff.inside]

theorem follows_answer {refusing : Bool} {t : Turn α} {next : Session α}
    (hrepresents : next.Represents { t.queue with now := t.clock.now })
    (hstats : t.queue.stats = next.queue.stats) (hanonymous : t.reply.anonymous = t.reply)
    (hevent : t.event = none) (hnotified : t.notified = []) (hdestroyed : t.destroyed = []) :
    Follows (next.answer t.reply) refusing t := by
  refine ⟨hrepresents, ?_⟩
  simp [answer, Entry.anonymous, Turn.entry, *]

variable (hseated : Seated s.queue r served waiting)
  (hsleepers : s.sleepers = served.map (·.1) ++ waiting)

include hseated hsleepers

/-- Whoever sleeps on a bell sleeps there alone. -/
theorem asleepOn_eq {seats : List Seat} (hseats : ∀ x ∈ seats, x ∈ s.sleepers) :
    s.asleepOn ((seats.map (·.2.place)).map (·.bell)) = seats.map (·.1) := by
  have hbells : s.sleepers.map (·.2.place.bell) = s.sleepers.map Seat.slot :=
    List.map_congr_left fun x hx => hseated.bell x (hsleepers ▸ hx)
  have hnodup : (s.sleepers.map (·.2.place.bell)).Nodup := by
    rw [hbells, hsleepers]
    exact hseated.slots
  induction seats with
  | nil => rfl
  | cons x seats ih =>
      have hx : s.sleepers.filter (·.2.place.bell = x.2.place.bell) = [x] :=
        filter_eq_singleton hnodup (hseats x (by simp))
      have hrest := ih fun y hy => hseats y (by simp [hy])
      simp only [asleepOn] at hrest
      simp only [asleepOn, List.map_cons, List.flatMap_cons, hrest, hx]
      rfl

theorem notified_eq (count : Nat) :
    ((s.handoff served waiting).waiting.take count).map (·.consumer) =
      s.asleepOn (((waiting.take count).map (·.2.place)).map (·.bell)) := by
  rw [asleepOn_eq hseated hsleepers fun x hx =>
    hsleepers ▸ List.mem_append_right _ (List.mem_of_mem_take hx)]
  simp only [handoff, ← List.map_take, List.map_map]
  rfl

theorem put_follows (item : α) :
    Follows (s.make step (do Call.put item; return .done)) step.refusing
      ((s.handoff served waiting).turn (.put item) (s.scene step).clock) := by
  have hintact : (s.scene step).queue.broken = false := hseated.intact
  have hnotified := notified_eq hseated hsleepers 1
  cases waiting with
  | nil =>
      have hput := put_stored hintact (hseated.put_nobody item)
      refine make_follows none .done [] ?_
        (hseated.withItems (s.queue.items ++ [item]) s.queue.removed (.inr rfl)) hsleepers ?_ rfl
        rfl rfl rfl hnotified rfl
      · rw [bind_of_ok hput, conclude_eq]
        simp [pure, EStateM.pure, scene]
      · simp [Handoff.turn, Handoff.putAll, handoff]
  | cons x waiting =>
      obtain ⟨line, hput, hseated'⟩ := hseated.exists_put item
      have hcall := put_served hintact hput
      refine make_follows (some (.served x.2.place.slot)) .done [x.2.place.bell]
        (bind_of_conclude hcall _) hseated' ?_ ?_ rfl rfl rfl rfl hnotified rfl
      · simpa using hsleepers
      · simp [Handoff.turn, Handoff.putAll, handoff]

theorem putAll_follows (source : Source α) :
    Follows (s.make step (do Call.putAll source; return .done)) step.refusing
      ((s.handoff served waiting).turn (.putAll source) (s.scene step).clock) := by
  have hintact : (s.scene step).queue.broken = false := hseated.intact
  cases hfailure : source.failure? with
  | some request =>
      have hcall : (do Call.putAll source; return .done : Call α (Reply α)) (s.scene step) = _ :=
        bind_of_error (putAll_of_failure hfailure) _
      rw [make, hcall]
      refine ⟨⟨r, served, waiting, hseated, hsleepers, ?_⟩, ?_⟩
      · simp [Handoff.turn, hfailure, handoff, after, scene]
      · simp [Handoff.turn, hfailure, Entry.anonymous, Reply.anonymous, Panic.anonymous, entry,
          scene, Turn.entry, asleepOn, stats_handoff hseated]
  | none =>
      by_cases hitems : source.items = []
      · refine make_follows none .done [] ?_ hseated hsleepers ?_ ?_ ?_ rfl ?_ ?_ ?_
        · rw [bind_of_ok (putAll_of_nil hfailure hitems), conclude_eq]
          simp [pure, EStateM.pure, scene]
        all_goals simp [Handoff.turn, hfailure, hitems, Handoff.putAll, asleepOn, scene]
      · obtain ⟨line, r', hput, hseated'⟩ := hseated.exists_putAll source.items
        have hcall := putAll_of_ok hintact hfailure hitems hput
        have hnotified := notified_eq hseated hsleepers source.items.length
        refine make_follows _ .done _ (bind_of_conclude hcall _) hseated' ?_ ?_ ?_ ?_ rfl ?_ ?_ ?_
        · rw [List.map_append, List.append_assoc, map_fst_zip_append_drop]
          exact hsleepers
        · simp [Handoff.turn, hfailure, Handoff.putAll, handoff, List.zip_map_left]
        · simp [Handoff.turn, hfailure, scene]
        · simp [Handoff.turn, hfailure]
        · simp [Handoff.turn, hfailure, hitems, Event.anonymous, handoff]
        · simp only [Handoff.turn, hfailure]
          exact hnotified
        · simp [Handoff.turn, hfailure]

theorem popMany_follows {call : Call α (Reply α)} {action : Action α} (reply : List α → Reply α)
    (count : Nat) (hturn : (s.handoff served waiting).turn action (s.scene step).clock =
      { queue := ((s.handoff served waiting).popMany count).2
        clock := (s.scene step).clock
        reply := reply ((s.handoff served waiting).popMany count).1 })
    (hanonymous : ∀ items, (reply items).anonymous = reply items)
    (hcall : call (s.scene step) =
      .ok (reply (s.queue.items.take count)) { s.scene step with queue := { s.queue with
        items := s.queue.items.drop count
        removed := s.queue.removed + min count s.queue.items.length } }) :
    Follows (s.make step call) step.refusing
      ((s.handoff served waiting).turn action (s.scene step).clock) := by
  rw [hturn]
  have hidle : s.queue.items.drop count = [] ∨ waiting = [] :=
    hseated.idle.imp_left fun hnil => by simp [hnil]
  refine make_follows none (reply (s.queue.items.take count)) [] ?_
    (hseated.withItems _ _ hidle) hsleepers rfl rfl rfl (hanonymous _) rfl rfl rfl
  rw [hcall, conclude_eq]
  simp [scene, handoff]

theorem poll_follows {action : Action α}
    (hturn : (s.handoff served waiting).turn action (s.scene step).clock =
      { queue := ((s.handoff served waiting).popMany 1).2
        clock := (s.scene step).clock
        reply := .delivered ((s.handoff served waiting).popMany 1).1.head? })
    (hcount : ((s.handoff served waiting).turn action (s.scene step).clock).queue.removed
      < UInt64.size) :
    Follows (s.make step (.delivered <$> Call.poll)) step.refusing
      ((s.handoff served waiting).turn action (s.scene step).clock) := by
  have hintact : (s.scene step).queue.broken = false := hseated.intact
  refine popMany_follows hseated hsleepers (fun items => .delivered items.head?) 1 hturn
    (fun _ => rfl) ?_
  rw [hturn] at hcount
  rw [map_of_ok (poll_eq hintact hcount), List.head?_take, if_neg Nat.one_ne_zero]
  rfl

theorem drain_follows (max : Option Nat)
    (hcount : ((s.handoff served waiting).turn (.drain max) (s.scene step).clock).queue.removed
      < UInt64.size) :
    Follows (s.make step (.items <$> Call.drain max)) step.refusing
      ((s.handoff served waiting).turn (.drain max) (s.scene step).clock) := by
  have hintact : (s.scene step).queue.broken = false := hseated.intact
  refine popMany_follows hseated hsleepers Reply.items _ rfl (fun _ => rfl) ?_
  rw [map_of_ok (drain_eq hintact max hcount)]
  rfl

theorem query_follows (query : Query) :
    Follows (s.make step (Call.look query.answer)) step.refusing
      ((s.handoff served waiting).turn (.query query) (s.scene step).clock) := by
  have hintact : (s.scene step).queue.broken = false := hseated.intact
  have hanswer : query.answer s.queue = query.fromStats (s.handoff served waiting).stats := by
    rw [stats_handoff hseated, Query.answer_eq_fromStats]
  have hfreight : (query.answer s.queue).freight = [] := by cases query <;> rfl
  have hanonymous : (query.answer s.queue).anonymous = query.answer s.queue := by
    cases query <;> rfl
  refine make_follows none (query.answer s.queue) [] ?_ hseated hsleepers rfl rfl hanswer.symm
    hanonymous rfl rfl rfl
  rw [look_of_unbroken hintact, conclude_eq]
  simp [scene]

theorem start_follows (removal : Removal) (hc : c ∉ s.sleepers.map (·.1))
    (hcount : ((s.handoff served waiting).start c removal (s.scene step).clock).queue.removed
      < UInt64.size) :
    Follows (s.consume step c removal.call) step.refusing
      ((s.handoff served waiting).start c removal (s.scene step).clock) := by
  have hqueue : (s.scene step).queue = s.queue := rfl
  obtain ⟨e, hcall⟩ := start_comesTo hseated hsleepers hqueue hc hcount
  exact e.follows hcall

theorem resume_follows {x : Seat} (hx : x ∈ s.sleepers)
    (hcount : ((s.handoff served waiting).resume x.waiter (s.scene step).clock).queue.removed
      < UInt64.size) :
    Follows (s.consume step x.1 (Call.resume x.2)) step.refusing
      ((s.handoff served waiting).resume x.waiter (s.scene step).clock) := by
  have hqueue : (s.scene step).queue = s.queue := rfl
  rw [hsleepers] at hx
  rcases List.mem_append.mp hx with hx | hx
  · obtain ⟨⟨y, item⟩, hy, rfl⟩ := List.mem_map.mp hx
    obtain ⟨e, hcall⟩ := resume_comesTo_served hseated hsleepers hqueue hy hcount
    exact e.follows hcall
  · obtain ⟨e, hcall⟩ := resume_comesTo_waiting hseated hsleepers hqueue hx
    exact e.follows hcall

theorem find?_inside {sleeper : Sleeper} (hc : s.sleeper? c = some sleeper) :
    (s.handoff served waiting).inside.find? (·.consumer = c) = some (Seat.waiter (c, sleeper)) ∧
      (c, sleeper) ∈ s.sleepers := by
  have hmem := mem_of_sleeper? hc
  refine ⟨?_, hmem⟩
  have hnodup : ((s.handoff served waiting).inside.map (·.consumer)).Nodup := by
    rw [inside_handoff, List.map_map]
    exact hseated.names
  have hinside : Seat.waiter (c, sleeper) ∈ (s.handoff served waiting).inside := by
    rw [inside_handoff, ← hsleepers]
    exact List.mem_map_of_mem hmem
  exact find?_eq_some_of_nodup hnodup hinside

theorem follows_rejected {action : Action α} {refusing : Bool} {rejection : Rejection}
    (hturn : (s.handoff served waiting).turn action (s.scene step).clock =
      { queue := s.handoff served waiting
        clock := (s.scene step).clock
        reply := .rejected rejection }) :
    Follows (s.answer (.rejected rejection)) refusing
      ((s.handoff served waiting).turn action (s.scene step).clock) := by
  rw [hturn]
  exact follows_answer ⟨r, served, waiting, hseated, hsleepers, rfl⟩ (stats_handoff hseated) rfl rfl
    rfl rfl

omit hseated in
theorem mem_inside_iff :
    c ∈ (s.handoff served waiting).inside.map (·.consumer) ↔ s.sleeper? c ≠ none := by
  rw [ne_eq, sleeper?_eq_none_iff, not_not, inside_handoff, hsleepers, List.map_map]
  rfl

theorem step_start_follows {removal : Removal} (haction : step.action = .start c removal)
    (hcount :
      ((s.handoff served waiting).turn (.start c removal) (s.scene step).clock).queue.removed
      < UInt64.size) :
    ∃ next, s.step step = stillOpen next ∧
      Follows next step.refusing
        ((s.handoff served waiting).turn (.start c removal) (s.scene step).clock) := by
  by_cases hc : s.sleeper? c = none
  · have hnew : ¬ c ∈ (s.handoff served waiting).inside.map (·.consumer) := by
      rwa [mem_inside_iff hsleepers, not_not]
    have hturn : ∀ clock, (s.handoff served waiting).turn (.start c removal) clock =
        (s.handoff served waiting).start c removal clock := fun _ => if_neg hnew
    rw [hturn] at hcount ⊢
    refine ⟨s.consume step c removal.call, ?_,
      start_follows hseated hsleepers removal (sleeper?_eq_none_iff.mp hc) hcount⟩
    simp [Session.step, haction, hc]
  · have hbusy := (mem_inside_iff hsleepers).mpr hc
    refine ⟨s.answer (.rejected .busy), ?_, follows_rejected hseated hsleepers (if_pos hbusy)⟩
    obtain ⟨sleeper, hsleeper⟩ := Option.ne_none_iff_exists'.mp hc
    simp [Session.step, haction, hsleeper]

theorem step_wake_follows (haction : step.action = .wake c)
    (hcount : ((s.handoff served waiting).turn (.wake c) (s.scene step).clock).queue.removed
      < UInt64.size) :
    ∃ next, s.step step = stillOpen next ∧
      Follows next step.refusing
        ((s.handoff served waiting).turn (.wake c) (s.scene step).clock) := by
  cases hc : s.sleeper? c with
  | some sleeper =>
      obtain ⟨hfind, hmem⟩ := find?_inside hseated hsleepers hc
      have hturn : ∀ clock, (s.handoff served waiting).turn (.wake c) clock =
          (s.handoff served waiting).resume (Seat.waiter (c, sleeper)) clock := fun clock => by
        simp only [Handoff.turn, hfind]
      rw [hturn] at hcount ⊢
      refine ⟨s.consume step c (Call.resume sleeper), ?_,
        resume_follows (x := (c, sleeper)) hseated hsleepers hmem hcount⟩
      simp [Session.step, haction, hc]
  | none =>
      have hfind : (s.handoff served waiting).inside.find? (·.consumer = c) = none := by
        have hnew := (not_congr (mem_inside_iff hsleepers)).mpr (not_not.mpr hc)
        refine List.find?_eq_none.mpr fun y hy heq => hnew ?_
        exact of_decide_eq_true heq ▸ List.mem_map_of_mem hy
      refine ⟨s.answer (.rejected .idle), ?_, follows_rejected hseated hsleepers ?_⟩
      · simp [Session.step, haction, hc]
      · simp only [Handoff.turn, hfind]

theorem step_follows (hopen : step.action = .close → s.sleepers ≠ [])
    (hcount : ((s.handoff served waiting).turn step.action (s.scene step).clock).queue.removed
      < UInt64.size) :
    ∃ next, s.step step = stillOpen next ∧
      Follows next step.refusing
        ((s.handoff served waiting).turn step.action (s.scene step).clock) := by
  obtain ⟨action, refusing, jumps⟩ := step
  simp only at hopen hcount ⊢
  cases action with
  | put item => exact ⟨_, rfl, put_follows hseated hsleepers item⟩
  | putAll source => exact ⟨_, rfl, putAll_follows hseated hsleepers source⟩
  | poll => exact ⟨_, rfl, poll_follows hseated hsleepers rfl hcount⟩
  | drain max => exact ⟨_, rfl, drain_follows hseated hsleepers max hcount⟩
  | openIterator name =>
      refine ⟨_, rfl, follows_answer ?_ (stats_handoff hseated) rfl rfl rfl rfl⟩
      exact ⟨r, served, waiting, hseated, hsleepers, rfl⟩
  | next name =>
      by_cases hname : name ∈ s.iterators
      · refine ⟨s.make _ (.delivered <$> Call.poll), ?_,
          poll_follows hseated hsleepers (if_pos hname) hcount⟩
        simp [Session.step, hname]
      · refine ⟨s.answer (.rejected .noIterator), ?_,
          follows_rejected hseated hsleepers (if_neg hname)⟩
        simp [Session.step, hname]
  | start c removal => exact step_start_follows hseated hsleepers rfl hcount
  | wake c => exact step_wake_follows hseated hsleepers rfl hcount
  | advance span =>
      refine ⟨_, rfl, follows_answer ?_ (stats_handoff hseated) rfl rfl rfl rfl⟩
      exact ⟨r, served, waiting, hseated, hsleepers, rfl⟩
  | query query => exact ⟨_, rfl, query_follows hseated hsleepers query⟩
  | close =>
      refine ⟨s.answer (.rejected .inUse), ?_, follows_rejected hseated hsleepers rfl⟩
      simp [Session.step, hopen rfl]

end Session

end FairQueue
