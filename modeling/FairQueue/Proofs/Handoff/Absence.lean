import FairQueue.Proofs.Handoff.Interchange

/-!
A hand-off queue beside one that a consumer never joined. While that consumer only waits, the others
cannot tell: one more waits, and those that join behind it count one more ahead of them.
-/

namespace FairQueue

variable {α : Type}

def Stats.withWaiting (s : Stats) (count : Nat) : Stats :=
  { s with waiting := s.waiting + count }

/-- The event of a consumer that had `count` more ahead of it when it joined the line. -/
def Event.behind (count : Nat) : Event → Event
  | collectedBehind slot ahead => collectedBehind slot (ahead + count)
  | event => event

@[simp] theorem Event.behind_zero : Event.behind 0 = id := by
  funext event
  cases event <;> rfl

/-- The waiter, with one more ahead of it if it is one of the late ones. -/
def Waiter.behind (late : Consumer → Bool) (w : Waiter) : Waiter :=
  { w with
    patience :=
      match w.patience with
      | .endless ahead => .endless (ahead + (late w.consumer).toNat)
      | .deadline time => .deadline time }

namespace Waiter

variable {late late' : Consumer → Bool} {w : Waiter}

@[simp] theorem consumer_behind : (w.behind late).consumer = w.consumer := rfl

theorem collection_behind :
    (w.behind late).collection = w.collection.behind (late w.consumer).toNat := by
  obtain ⟨c, patience⟩ := w
  cases patience <;> rfl

theorem behind_congr (h : late w.consumer = late' w.consumer) : w.behind late = w.behind late' := by
  simp only [behind, h]

end Waiter

/-- How many more were ahead of the consumer that wakes up in this action, if any does. -/
def Action.ahead (late : Consumer → Bool) : Action α → Nat
  | wake c => (late c).toNat
  | _ => 0

namespace Entry

def behind (e : Entry α) (count : Nat) : Entry α :=
  { e with
    reply :=
      match e.reply with
      | .panicked (.refused event) => .panicked (.refused (event.behind count))
      | reply => reply
    logged := e.logged.map (Event.behind count) }

@[simp] theorem behind_zero (e : Entry α) : e.behind 0 = e := by
  obtain ⟨reply, notified, logged, destroyed, stats⟩ := e
  cases reply with
  | panicked panic => cases panic <;> simp [behind]
  | _ => simp [behind]

/-- What is seen while `gone` waits in the line, too, and after the late ones had it ahead of
them. -/
def echoed (e : Entry α) (action : Action α) (gone : Option Consumer) (late : Consumer → Bool) :
    Entry α :=
  (e.recounted action (·.withWaiting gone.isSome.toNat)).behind (action.ahead late)

end Entry

/-- The turn as it is with `gone` in the line, from which it leaves the queue `q`. -/
def Turn.echoed (t : Turn α) (action : Action α) (late : Consumer → Bool) (q : Handoff α) :
    Turn α :=
  { t with
    queue := q
    reply :=
      match action with
      | .query query => query.fromStats q.stats
      | _ => t.reply
    event := t.event.map (Event.behind (action.ahead late)) }

namespace Handoff

variable {h h' : Handoff α} {gone : Option Consumer} {late late' : Consumer → Bool} {c d : Consumer}
  {action : Action α} {clock : Clock} {items : List α} {removal : Removal} {refusing : Bool}

/-- The queue `h'` is what `h` would be if `gone` had not joined the line. The late ones have
counted it among those ahead of them. -/
structure Lacks (gone : Option Consumer) (late : Consumer → Bool) (h h' : Handoff α) : Prop where
  items : h.items = h'.items
  waiting : h.waiting.filter (fun w => some w.consumer ≠ gone) = h'.waiting.map (Waiter.behind late)
  served : h.served = h'.served.map fun y => (y.1.behind late, y.2)
  removed : h.removed = h'.removed
  now : h.now = h'.now
  iterators : h.iterators = h'.iterators
  stays : ∀ c, gone = some c → c ∈ h.waiting.map (·.consumer)

namespace Lacks

variable (hlacks : Lacks gone late h h') (hsound : h.ledger.Sound)

include hlacks

theorem congr (hlate : ∀ w ∈ h'.inside, late w.consumer = late' w.consumer) :
    Lacks gone late' h h' := by
  refine { hlacks with waiting := ?_, served := ?_ }
  · rw [hlacks.waiting]
    exact List.map_congr_left fun w hw =>
      Waiter.behind_congr (hlate w (List.mem_append_right _ hw))
  · rw [hlacks.served]
    refine List.map_congr_left fun y hy => ?_
    rw [Waiter.behind_congr (hlate y.1 (List.mem_append_left _ (List.mem_map_of_mem hy)))]

theorem find?_served (d : Consumer) :
    h.served.find? (·.1.consumer = d) =
      (h'.served.find? (·.1.consumer = d)).map fun y => (y.1.behind late, y.2) := by
  rw [hlacks.served, List.find?_map]
  rfl

theorem find?_inside (hd : gone ≠ some d) :
    h.inside.find? (·.consumer = d) =
      (h'.inside.find? (·.consumer = d)).map (Waiter.behind late) := by
  have hserved : (h.served.map (·.1)).find? (·.consumer = d) =
      ((h'.served.map (·.1)).find? (·.consumer = d)).map (Waiter.behind late) := by
    rw [hlacks.served, List.map_map, List.find?_map, List.find?_map, Option.map_map]
    rfl
  have hwaiting : h.waiting.find? (·.consumer = d) =
      (h'.waiting.find? (·.consumer = d)).map (Waiter.behind late) := by
    have hkey : ∀ w : Waiter, decide (some w.consumer = some d) = decide (w.consumer = d) := by
      simp
    have hkept := find?_filter_ne (f := fun w : Waiter => some w.consumer) hd h.waiting
    rw [hlacks.waiting, List.find?_map] at hkept
    simp only [hkey] at hkept
    exact hkept.symm
  rw [inside, inside, List.find?_append, List.find?_append, hserved, hwaiting, Option.map_or]

theorem mem_inside_iff (hd : gone ≠ some d) :
    d ∈ h.inside.map (·.consumer) ↔ d ∈ h'.inside.map (·.consumer) := by
  rw [mem_map_iff_isSome_find?, mem_map_iff_isSome_find?, hlacks.find?_inside hd, Option.isSome_map]

include hsound

theorem length_eq : h.waiting.length = h'.waiting.length + gone.isSome.toNat := by
  have hwaiting := congrArg List.length hlacks.waiting
  rw [List.length_map] at hwaiting
  cases hgone : gone with
  | none =>
      rw [List.filter_eq_self.mpr fun w _ => by simp [hgone]] at hwaiting
      simpa using hwaiting
  | some c =>
      obtain ⟨w, hw, rfl⟩ := List.mem_map.mp (hlacks.stays c hgone)
      obtain ⟨before, after, hsplit⟩ := List.append_of_mem hw
      have hnodup := hsound.waiting_names
      change (h.waiting.map (·.consumer)).Nodup at hnodup
      rw [hsplit] at hnodup
      have hothers : h.waiting.filter (fun v => some v.consumer ≠ gone) = before ++ after := by
        rw [hsplit, hgone]
        simpa using filter_ne_middle hnodup
      rw [hothers, List.length_append] at hwaiting
      rw [hsplit, List.length_append, List.length_cons, Option.isSome_some, Bool.toNat_true]
      omega

/-- As long as `gone` stays in the line, others are served as they are without it. -/
theorem front_eq {count : Nat}
    (hstays : ∀ c, gone = some c → c ∈ (h.waiting.drop count).map (·.consumer)) :
    h.waiting.take count = (h'.waiting.take count).map (Waiter.behind late) ∧
      (h.waiting.drop count).filter (fun w => some w.consumer ≠ gone) =
        (h'.waiting.drop count).map (Waiter.behind late) := by
  have hfront : (h.waiting.take count).filter (fun w => some w.consumer ≠ gone) =
      h.waiting.take count := by
    refine List.filter_eq_self.mpr fun w hw => decide_eq_true fun hgone => ?_
    have hnodup : (h.waiting.map (·.consumer)).Nodup := hsound.waiting_names
    have hlater := hstays w.consumer hgone.symm
    rw [List.map_drop] at hlater
    refine List.disjoint_take_drop hnodup (Nat.le_refl count) ?_ hlater
    rw [← List.map_take]
    exact List.mem_map_of_mem hw
  have hsplit := hlacks.waiting
  rw [← List.take_append_drop count h.waiting, List.filter_append, hfront] at hsplit
  have hlength : (h.waiting.take count).length = ((h'.waiting.take count).map
      (Waiter.behind late)).length := by
    have hall := hlacks.length_eq hsound
    rw [List.length_map, List.length_take, List.length_take]
    cases hgone : gone with
    | none => simp [hgone] at hall; omega
    | some c =>
        have hlater := List.length_pos_of_mem (hstays c hgone)
        simp [hgone] at hall hlater
        omega
  rw [← List.take_append_drop count h'.waiting, List.map_append] at hsplit
  exact List.append_inj hsplit hlength

theorem putAll (hstays : ∀ c, gone = some c → c ∈ (h.putAll items).waiting.map (·.consumer)) :
    Lacks gone late (h.putAll items) (h'.putAll items) := by
  obtain ⟨hfront, hback⟩ := hlacks.front_eq hsound hstays
  have hzip : h.waiting.zip items = (h'.waiting.zip items).map fun y => (y.1.behind late, y.2) := by
    rw [← zip_take_length, hfront, ← zip_take_length h'.waiting, List.zip_map_left]
    rfl
  have hdrop : items.drop h.waiting.length = items.drop h'.waiting.length := by
    have hall := hlacks.length_eq hsound
    cases hgone : gone with
    | none => rw [hall, hgone]; rfl
    | some c =>
        have hlater := List.length_pos_of_mem (hstays c hgone)
        simp [hgone, Handoff.putAll] at hall hlater
        rw [List.drop_eq_nil_of_le (by omega), List.drop_eq_nil_of_le (by omega)]
  exact
    { hlacks with
      items := by rw [Handoff.putAll, Handoff.putAll, hlacks.items, hdrop]
      waiting := hback
      served := by rw [Handoff.putAll, Handoff.putAll, hlacks.served, hzip, List.map_append]
      stays := hstays }

omit hsound in
theorem popMany (count : Nat) :
    (h.popMany count).1 = (h'.popMany count).1 ∧
      Lacks gone late (h.popMany count).2 (h'.popMany count).2 := by
  refine ⟨congrArg (List.take count) hlacks.items, { hlacks with items := ?_, removed := ?_ }⟩
  · exact congrArg (List.drop count) hlacks.items
  · rw [Handoff.popMany, Handoff.popMany, hlacks.removed, hlacks.items]

omit hsound in
theorem leave (hd : gone ≠ some d) : Lacks gone late (h.leave d) (h'.leave d) :=
  { hlacks with
    waiting := by
      rw [Handoff.leave, Handoff.leave, List.filter_comm, hlacks.waiting, List.filter_map]
      rfl
    stays := fun c hgone => by
      obtain ⟨w, hw, rfl⟩ := List.mem_map.mp (hlacks.stays c hgone)
      refine List.mem_map_of_mem (List.mem_filter.mpr ⟨hw, decide_eq_true fun heq => hd ?_⟩)
      rw [hgone, heq] }

omit hsound in
theorem collect (d : Consumer) : Lacks gone late (h.collect d) (h'.collect d) :=
  { hlacks with
    served := by
      rw [Handoff.collect, Handoff.collect, hlacks.served, List.filter_map]
      rfl
    removed := congrArg (· + 1) hlacks.removed }

omit hsound in
/-- A consumer joins the line, and is one of the late ones if `gone` is there. -/
theorem join {w w' : Waiter} (hd : gone ≠ some w'.consumer)
    (hnew : w'.consumer ∉ h'.inside.map (·.consumer)) (hw : w = w'.behind late')
    (hlate : ∀ d, d ≠ w'.consumer → late' d = late d) :
    Lacks gone late' (h.join w) (h'.join w') := by
  have hold : Lacks gone late' h h' := hlacks.congr fun v hv => (hlate v.consumer fun heq =>
    hnew (heq ▸ List.mem_map_of_mem hv)).symm
  refine { hold with waiting := ?_, stays := fun c hgone => ?_ }
  · rw [Handoff.join, Handoff.join, List.filter_append, hold.waiting, List.map_append, hw]
    simp [hd.symm]
  · rw [Handoff.join, List.map_append]
    exact List.mem_append_left _ (hold.stays c hgone)

end Lacks

/-- Both turns show the same, but for what there is to see of `gone`, and so do their queues. -/
structure Echoes (gone : Option Consumer) (late late' : Consumer → Bool) (action : Action α)
    (t t' : Turn α) : Prop where
  eq : t = t'.echoed action late t.queue
  queue : Lacks gone late' t.queue t'.queue

namespace Lacks

variable (hlacks : Lacks gone late h h') (hsound : h.ledger.Sound)

include hlacks

theorem echoes_bide (hd : gone ≠ some d) (deadline : Time)
    (haction : ∀ query, action ≠ .query query) :
    Echoes gone late' late action (h.bide d deadline clock) (h'.bide d deadline clock) := by
  unfold Handoff.bide
  split
  · refine ⟨?_, hlacks.leave hd⟩
    cases action with
    | query query => exact absurd rfl (haction query)
    | _ => rfl
  · refine ⟨?_, hlacks⟩
    cases action with
    | query query => exact absurd rfl (haction query)
    | _ => rfl

include hsound

/-- The consumer `d` starts a call. If it falls asleep it is one of the late ones from now on, or
not any more. -/
theorem echoes_take (hd : gone ≠ some d) (hnew : d ∉ h'.inside.map (·.consumer))
    (hlate : ∀ e, e ≠ d → late' e = late e)
    (hjoin : ∀ limit, (h.take d clock).reply = .asleep limit → late' d = gone.isSome) :
    Echoes gone late late' (.start d removal) (h.take d clock) (h'.take d clock) := by
  have hold : Lacks gone late' h h' := hlacks.congr fun v hv => (hlate v.consumer fun heq =>
    hnew (heq ▸ List.mem_map_of_mem hv)).symm
  cases hitems : h.items with
  | nil =>
      have hitems' : h'.items = [] := hlacks.items ▸ hitems
      rw [take_of_nil hitems] at hjoin ⊢
      rw [take_of_nil hitems']
      refine ⟨rfl, hlacks.join hd hnew ?_ hlate⟩
      simp only [Waiter.behind, hjoin none rfl, hlacks.length_eq hsound]
  | cons item items =>
      have hitems' : h'.items = item :: items := hlacks.items ▸ hitems
      rw [take_of_cons hitems, take_of_cons hitems']
      exact ⟨rfl, (hold.popMany 1).2⟩

omit hsound in
theorem echoes_takeUntil (hd : gone ≠ some d) (hnew : d ∉ h'.inside.map (·.consumer))
    (hlate : ∀ e, e ≠ d → late' e = late e) (deadline : Time) :
    Echoes gone late late' (.start d removal) (h.takeUntil d deadline clock)
      (h'.takeUntil d deadline clock) := by
  have hold : Lacks gone late' h h' := hlacks.congr fun v hv => (hlate v.consumer fun heq =>
    hnew (heq ▸ List.mem_map_of_mem hv)).symm
  cases hitems : h.items with
  | nil =>
      have hitems' : h'.items = [] := hlacks.items ▸ hitems
      by_cases hnow : deadline ≤ clock.now
      · rw [takeUntil_of_past hitems hnow, takeUntil_of_past hitems' hnow]
        exact ⟨rfl, hold⟩
      · rw [takeUntil_of_early hitems hnow, takeUntil_of_early hitems' hnow]
        have hjoined : Lacks gone late' (h.join { consumer := d, patience := .deadline deadline })
            (h'.join { consumer := d, patience := .deadline deadline }) :=
          hlacks.join hd hnew rfl hlate
        exact hjoined.echoes_bide hd deadline fun query => by simp
  | cons item items =>
      have hitems' : h'.items = item :: items := hlacks.items ▸ hitems
      rw [takeUntil_of_cons hitems, takeUntil_of_cons hitems']
      exact ⟨rfl, (hold.popMany 1).2⟩

theorem echoes_start (hd : gone ≠ some d) (hnew : d ∉ h'.inside.map (·.consumer))
    (hlate : ∀ e, e ≠ d → late' e = late e)
    (hjoin : ∀ limit, (h.start d removal clock).reply = .asleep limit → late' d = gone.isSome) :
    Echoes gone late late' (.start d removal) (h.start d removal clock)
      (h'.start d removal clock) := by
  cases removal with
  | take => exact hlacks.echoes_take hsound hd hnew hlate hjoin
  | takeUntil deadline => exact hlacks.echoes_takeUntil hd hnew hlate deadline
  | takeWithin span =>
      simp only [Handoff.start] at hjoin ⊢
      split at hjoin
      · exact hlacks.echoes_takeUntil hd hnew hlate _
      · exact hlacks.echoes_take hsound hd hnew hlate hjoin

omit hsound in
theorem echoes_resume {w : Waiter} (hd : gone ≠ some w.consumer) :
    Echoes gone late late (.wake w.consumer) (h.resume (w.behind late) clock)
      (h'.resume w clock) := by
  have hfind : h.served.find? (·.1.consumer = (w.behind late).consumer) = _ :=
    hlacks.find?_served w.consumer
  simp only [Handoff.resume, hfind]
  cases h'.served.find? (·.1.consumer = w.consumer) with
  | some y =>
      refine ⟨?_, hlacks.collect w.consumer⟩
      simp only [Option.map_some, Waiter.collection_behind]
      rfl
  | none =>
      obtain ⟨c, patience⟩ := w
      cases patience with
      | endless ahead => exact ⟨rfl, hlacks⟩
      | deadline time => exact hlacks.echoes_bide hd time fun query => by simp

/-- The others take their turns as they would without `gone`, as long as it stays in the line. -/
theorem echoes_turn (hother : ∀ c, gone = some c → action.runs c = false)
    (hstays : ∀ c, gone = some c → c ∈ (h.turn action clock).queue.waiting.map (·.consumer))
    (hlate : ∀ d, ((∀ removal, action ≠ .start d removal) ∨ d ∈ h.inside.map (·.consumer)) →
      late' d = late d)
    (hjoin : ∀ d removal limit, action = .start d removal →
      (h.turn action clock).reply = .asleep limit → late' d = gone.isSome) :
    Echoes gone late late' action (h.turn action clock) (h'.turn action clock) := by
  have hgone : ∀ d, action.runs d = true → gone ≠ some d := by
    intro d hruns heq
    simp [hother d heq] at hruns
  have hsame : (∀ d removal, action ≠ .start d removal) → late' = late :=
    fun hstart => funext fun d => hlate d (.inl fun removal => hstart d removal)
  have hnotified : ∀ count,
      (∀ c, gone = some c → c ∈ (h.waiting.drop count).map (·.consumer)) →
      (h.waiting.take count).map (·.consumer) = (h'.waiting.take count).map (·.consumer) := by
    intro count hcount
    rw [(hlacks.front_eq hsound hcount).1, List.map_map]
    rfl
  cases action with
  | put item =>
      obtain rfl := hsame (by simp)
      refine ⟨?_, hlacks.putAll hsound hstays⟩
      simp [turn, Turn.echoed, hnotified 1 hstays, Action.ahead]
  | putAll source =>
      obtain rfl := hsame (by simp)
      cases hfailure : source.failure? with
      | some request =>
          simp only [turn, hfailure]
          exact ⟨rfl, hlacks⟩
      | none =>
          simp only [turn, hfailure] at hstays ⊢
          refine ⟨?_, hlacks.putAll hsound hstays⟩
          simp [Turn.echoed, hnotified _ hstays, Action.ahead]
  | poll =>
      obtain rfl := hsame (by simp)
      obtain ⟨hitems, hqueue⟩ := hlacks.popMany 1
      refine ⟨?_, hqueue⟩
      simp only [turn, hitems]
      rfl
  | drain max =>
      obtain rfl := hsame (by simp)
      simp only [turn, hlacks.items]
      obtain ⟨hitems, hqueue⟩ := hlacks.popMany (max.getD h'.items.length)
      refine ⟨?_, hqueue⟩
      simp only [hitems]
      rfl
  | openIterator name =>
      obtain rfl := hsame (by simp)
      exact ⟨rfl, { hlacks with iterators := congrArg (name :: ·) hlacks.iterators }⟩
  | next name =>
      obtain rfl := hsame (by simp)
      simp only [turn, hlacks.iterators]
      split
      · obtain ⟨hitems, hqueue⟩ := hlacks.popMany 1
        refine ⟨?_, hqueue⟩
        simp only [hitems]
        rfl
      · exact ⟨rfl, hlacks⟩
  | start d removal =>
      have hd := hgone d (by simp [Action.runs])
      have hinside := hlacks.mem_inside_iff hd
      have hothers : ∀ e, e ≠ d → late' e = late e := by
        intro e hne
        refine hlate e (.inl fun removal heq => hne ?_)
        injection heq with hname
        exact hname.symm
      simp only [turn, hinside] at hjoin ⊢
      split
      · rename_i hbusy
        refine ⟨rfl, hlacks.congr fun w _ => ?_⟩
        by_cases hname : w.consumer = d
        · rw [hname]
          exact (hlate d (.inr (hinside.mpr hbusy))).symm
        · exact (hothers _ hname).symm
      · rename_i hnew
        refine hlacks.echoes_start hsound hd hnew hothers fun limit hreply => ?_
        refine hjoin d removal limit rfl ?_
        rw [if_neg hnew]
        exact hreply
  | wake d =>
      obtain rfl := hsame (by simp)
      have hd := hgone d (by simp [Action.runs])
      simp only [turn, hlacks.find?_inside hd]
      cases hfind : h'.inside.find? (·.consumer = d) with
      | none => exact ⟨rfl, hlacks⟩
      | some w =>
          obtain rfl : w.consumer = d := by simpa using List.find?_some hfind
          exact hlacks.echoes_resume hd
  | advance span | query query | close =>
      obtain rfl := hsame (by simp)
      exact ⟨rfl, hlacks⟩

end Lacks

end Handoff

namespace Incident

def joins (c : Consumer) : Incident α → Bool
  | joined d => d = c
  | _ => false

theorem any_joins_iff {history : List (Incident α)} {c : Consumer} :
    history.any (joins c) = true ↔ .joined c ∈ history := by
  rw [List.any_eq_true]
  constructor
  · rintro ⟨i, hi, hjoins⟩
    cases i with
    | joined d =>
        obtain rfl : d = c := by simpa [joins] using hjoins
        exact hi
    | _ => cases hjoins
  · exact fun hmem => ⟨_, hmem, by simp [joins]⟩

end Incident

/-- A consumer joins the line only when it starts a call. -/
theorem Entry.exists_start_of_joined {e : Entry α} {action : Action α} {c : Consumer}
    (hmem : .joined c ∈ e.incidents action) : ∃ removal, action = .start c removal := by
  cases action with
  | put item | putAll source =>
      simp only [incidents] at hmem
      split at hmem
      · rcases List.mem_append.mp hmem with hmem | hmem
        all_goals
          obtain ⟨_, -, heq⟩ := List.mem_map.mp hmem
          cases heq
      · cases hmem
  | start d removal =>
      simp only [incidents] at hmem
      split at hmem
      · simp at hmem
        exact ⟨removal, by rw [hmem]⟩
      · split at hmem <;> simp at hmem
        exact ⟨removal, by rw [hmem]⟩
  | wake d =>
      simp only [incidents] at hmem
      split at hmem <;> simp at hmem
  | _ => simp [incidents] at hmem

/-- Who is late after this part of a history: whoever joined the line in it is, if `gone` was
there. -/
def latecomers (late : Consumer → Bool) (gone : Option Consumer) (history : List (Incident α)) :
    Consumer → Bool :=
  fun c => if history.any (Incident.joins c) then gone.isSome else late c

theorem latecomers_append (late : Consumer → Bool) (gone : Option Consumer)
    (is is' : List (Incident α)) :
    latecomers late gone (is ++ is') = latecomers (latecomers late gone is) gone is' := by
  funext c
  simp only [latecomers, List.any_append]
  cases is.any (Incident.joins c) <;> cases is'.any (Incident.joins c) <;> rfl

theorem latecomers_incidents {action : Action α} (hstart : ∀ c removal, action ≠ .start c removal)
    (late : Consumer → Bool) (gone : Option Consumer) (e : Entry α) :
    latecomers late gone (e.incidents action) = late := by
  funext c
  refine if_neg fun hjoins => ?_
  obtain ⟨removal, heq⟩ := Entry.exists_start_of_joined (Incident.any_joins_iff.mp hjoins)
  exact hstart c removal heq

namespace Handoff

variable {h h' : Handoff α} {gone : Option Consumer} {late late' : Consumer → Bool} {c d : Consumer}
  {action : Action α} {clock : Clock} {refusing : Bool}

theorem joined_turn (hmem : .joined c ∈ ((h.turn action clock).entry refusing).incidents action) :
    c ∉ h.inside.map (·.consumer) := by
  obtain ⟨removal, rfl⟩ := Entry.exists_start_of_joined hmem
  have hconsumes := h.consumes_start c removal clock
  generalize h.turn (.start c removal) clock = t at hconsumes hmem
  cases hconsumes with
  | busy =>
      cases refusing <;>
        simp [Turn.entry, Entry.incidents, Entry.timedOut, Entry.event?, Reply.freight] at hmem
  | started hnew hstarts => exact hnew

theorem latecomers_of_inside (late : Consumer → Bool) (hd : d ∈ h.inside.map (·.consumer)) :
    latecomers late gone (((h.turn action clock).entry refusing).incidents action) d = late d :=
  if_neg fun hjoins => joined_turn (Incident.any_joins_iff.mp hjoins) hd

theorem turn_joined {removal : Removal} {limit : Option Time}
    (hreply : (h.turn (.start c removal) clock).reply = .asleep limit) :
    .joined c ∈
      ((h.turn (.start c removal) clock).entry refusing).incidents (.start c removal) := by
  have hminds := (h.consumes_start c removal clock).minds
  have hsilent := (hminds.asleep limit hreply).1
  simp [Turn.entry, hsilent, hreply, Entry.incidents, Entry.timedOut, Entry.event?]

theorem Echoes.entry {t t' : Turn α} (hechoes : Echoes gone late late' action t t')
    (hsound : t.queue.ledger.Sound) (hquery : ∀ query, action = .query query → t'.event = none)
    (hwake : ∀ c, action = .wake c → ∀ panic, t'.reply ≠ .panicked panic) (refusing : Bool) :
    t.entry refusing = (t'.entry refusing).echoed action gone late := by
  have hstats : t.queue.stats = t'.queue.stats.withWaiting gone.isSome.toNat := by
    simp only [stats, Stats.withWaiting, hechoes.queue.items, hechoes.queue.removed,
      hechoes.queue.length_eq hsound]
  rw [hechoes.eq]
  generalize t.queue = q at hstats
  cases action with
  | query query =>
      have hevent := hquery query rfl
      simp [Turn.entry, Turn.echoed, hevent, Entry.echoed, Entry.recounted, hstats, Action.ahead]
  | wake c =>
      have hreply := hwake c rfl
      cases hevent : t'.event <;> cases refusing <;> cases hr : t'.reply <;>
        simp_all [Turn.entry, Turn.echoed, Entry.echoed, Entry.recounted, Entry.behind]
  | _ =>
      cases hevent : t'.event <;> cases refusing <;>
        simp [Turn.entry, Turn.echoed, hevent, Entry.echoed, Entry.recounted, hstats, Action.ahead]

namespace Lacks

variable {step : Step α} {h₁ : Handoff α} (hlacks : Lacks gone late h h')

include hlacks

/-- A turn of the others, as long as `gone` stays in the line. -/
theorem turn (hsound : h.ledger.Sound) (hother : ∀ c, gone = some c → action.runs c = false)
    (hstays : ∀ c, gone = some c → c ∈ (h.turn action clock).queue.waiting.map (·.consumer))
    (refusing : Bool) :
    let t := h.turn action clock
    let t' := h'.turn action clock
    t.entry refusing = (t'.entry refusing).echoed action gone late ∧ t.clock = t'.clock ∧
      Lacks gone (latecomers late gone ((t.entry refusing).incidents action)) t.queue t'.queue := by
  intro t t'
  have hechoes : Echoes gone late (latecomers late gone ((t.entry refusing).incidents action))
      action t t' := by
    refine hlacks.echoes_turn hsound hother hstays (fun d hd => ?_)
      fun d removal limit heq hreply => ?_
    · rcases hd with hstart | hinside
      · refine if_neg fun hjoins => ?_
        obtain ⟨removal, heq⟩ := Entry.exists_start_of_joined (Incident.any_joins_iff.mp hjoins)
        exact hstart removal heq
      · exact latecomers_of_inside late hinside
    · subst heq
      exact if_pos (Incident.any_joins_iff.mpr (turn_joined hreply))
  have hsound' : t.queue.ledger.Sound := sound_turn hsound action clock
  refine ⟨hechoes.entry hsound' ?_ ?_ refusing, ?_, hechoes.queue⟩
  · rintro query rfl
    rfl
  · rintro c rfl panic
    exact (h'.consumes_wake c clock).reply
  · rw [hechoes.eq]
    rfl

theorem withNow (now : Time) : Lacks gone late { h with now } { h' with now } :=
  { hlacks with now := rfl }

theorem inside_eq (hgone : gone = none) : h.inside = h'.inside.map (Waiter.behind late) := by
  have hwaiting := hlacks.waiting
  rw [List.filter_eq_self.mpr fun w _ => by simp [hgone]] at hwaiting
  rw [inside, inside, hlacks.served, hwaiting, List.map_append, List.map_map, List.map_map]
  rfl

/-- A step of the others, as long as `gone` stays in the line. -/
theorem exists_step (hsound : h.ledger.Sound)
    (hother : ∀ c, gone = some c → step.action.runs c = false)
    (hclose : gone ≠ none → step.action ≠ .close) (hstep : (h.step step).1 = some h₁)
    (hstays : ∀ c, gone = some c → c ∈ h₁.waiting.map (·.consumer)) :
    ∃ h₁', (h'.step step).1 = some h₁' ∧
      (h.step step).2 = (h'.step step).2.echoed step.action gone late ∧
      Lacks gone (latecomers late gone ((h.step step).2.incidents step.action)) h₁ h₁' := by
  have hopen : step.action = .close → h.inside ≠ [] := by
    intro haction hinside
    rw [step_close haction hinside] at hstep
    cases hstep
  have hopen' : step.action = .close → h'.inside ≠ [] := by
    intro haction hinside
    have hgone : gone = none := by
      by_contra hsome
      exact hclose hsome haction
    exact hopen haction (by rw [hlacks.inside_eq hgone, hinside]; rfl)
  rw [step_of_open hopen] at hstep ⊢
  rw [step_of_open hopen']
  obtain rfl := Option.some.inj hstep
  have hclock : ({ now := h'.now, jumps := step.jumps } : Clock) =
      { now := h.now, jumps := step.jumps } := by rw [hlacks.now]
  obtain ⟨hentry, hlater, hqueue⟩ := hlacks.turn hsound hother hstays step.refusing
  rw [hclock]
  refine ⟨_, rfl, hentry, ?_⟩
  dsimp only
  rw [← hlater]
  exact hqueue.withNow _

end Lacks

theorem Lacks.step_nobody (hlacks : Lacks none late h h') (hsound : h.ledger.Sound)
    (step : Step α) :
    (h.step step).2 = (h'.step step).2.echoed step.action none late ∧
      Option.Rel (Lacks none (latecomers late none ((h.step step).2.incidents step.action)))
        (h.step step).1 (h'.step step).1 := by
  cases hstep : (h.step step).1 with
  | some h₁ =>
      obtain ⟨h₁', hstep', hentry, hnext⟩ :=
        hlacks.exists_step hsound (by simp) (by simp) hstep (by simp)
      rw [hstep']
      exact ⟨hentry, .some hnext⟩
  | none =>
      have hopen : ¬ (step.action = .close → h.inside ≠ []) := by
        intro hopen
        rw [step_of_open hopen] at hstep
        cases hstep
      obtain ⟨haction, hinside⟩ : step.action = .close ∧ h.inside = [] := by simpa using hopen
      have hinside' : h'.inside = [] := by
        rw [hlacks.inside_eq rfl] at hinside
        exact List.map_eq_nil_iff.mp hinside
      rw [step_close haction hinside, step_close haction hinside', haction]
      refine ⟨?_, .none⟩
      simp [Entry.echoed, Entry.recounted, closing, Action.ahead, hlacks.items, hlacks.removed]

end Handoff

end FairQueue
