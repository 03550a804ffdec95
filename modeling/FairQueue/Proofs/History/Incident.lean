import FairQueue.Proofs.Handoff.Basic
import FairQueue.Proofs.Lists

/-!
The history of a run: what happens to the items and to the consumers inside a call, one incident
after the other, read off the actions and what is seen of them.
-/

namespace FairQueue

/-- What happens to an item or to a consumer inside a call. -/
inductive Incident (α : Type) where
  /-- A new item is stored. -/
  | stored (item : α)
  /-- A new item goes straight to a consumer in the line. -/
  | handed (consumer : Consumer) (item : α)
  /-- The call that removes a stored item returns it. -/
  | popped (item : α)
  /-- A consumer joins the line. -/
  | joined (consumer : Consumer)
  /-- A consumer returns the item that it was handed. -/
  | returned (consumer : Consumer) (item : α)
  /-- The item that a consumer was handed is destroyed on its way out of the call. -/
  | lost (consumer : Consumer) (item : α)
  /-- A consumer leaves the line at its deadline. -/
  | gaveUp (consumer : Consumer)
deriving DecidableEq

namespace Incident

variable {α : Type}

def new? : Incident α → Option α
  | stored item | handed _ item => some item
  | _ => none

/-- The item that is assigned: to the call that pops it or to the consumer that it is handed to. -/
def assigned? : Incident α → Option α
  | handed _ item | popped item => some item
  | _ => none

def handedTo? (c : Consumer) : Incident α → Option α
  | handed d item => if d = c then some item else none
  | _ => none

def collectedBy? (c : Consumer) : Incident α → Option α
  | returned d item | lost d item => if d = c then some item else none
  | _ => none

/-- Whether the incident happens to `c`, inside a call that joins the line. -/
def concerns (c : Consumer) : Incident α → Bool
  | handed d _ | joined d | returned d _ | lost d _ | gaveUp d => d = c
  | stored _ | popped _ => false

/-- Whether the incident ends a call of `c` that joined the line. -/
def ends (c : Consumer) : Incident α → Bool
  | returned d _ | lost d _ | gaveUp d => d = c
  | _ => false

def newItems (history : List (Incident α)) : List α :=
  history.filterMap new?

def assigned (history : List (Incident α)) : List α :=
  history.filterMap assigned?

def handedTo (c : Consumer) (history : List (Incident α)) : List α :=
  history.filterMap (handedTo? c)

def collectedBy (c : Consumer) (history : List (Incident α)) : List α :=
  history.filterMap (collectedBy? c)

section Cons

variable (i : Incident α) (is is' : List (Incident α)) (c : Consumer)

@[simp] theorem newItems_nil : newItems ([] : List (Incident α)) = [] := rfl

@[simp] theorem newItems_cons : newItems (i :: is) = i.new?.toList ++ newItems is := by
  cases hnew : i.new? <;> simp [newItems, hnew]

@[simp] theorem newItems_append : newItems (is ++ is') = newItems is ++ newItems is' :=
  List.filterMap_append

@[simp] theorem assigned_nil : assigned ([] : List (Incident α)) = [] := rfl

@[simp] theorem assigned_cons : assigned (i :: is) = i.assigned?.toList ++ assigned is := by
  cases hassigned : i.assigned? <;> simp [assigned, hassigned]

@[simp] theorem assigned_append : assigned (is ++ is') = assigned is ++ assigned is' :=
  List.filterMap_append

@[simp] theorem handedTo_nil : handedTo c ([] : List (Incident α)) = [] := rfl

@[simp] theorem handedTo_cons :
    handedTo c (i :: is) = (i.handedTo? c).toList ++ handedTo c is := by
  cases hhanded : i.handedTo? c <;> simp [handedTo, hhanded]

@[simp] theorem collectedBy_nil : collectedBy c ([] : List (Incident α)) = [] := rfl

@[simp] theorem collectedBy_cons :
    collectedBy c (i :: is) = (i.collectedBy? c).toList ++ collectedBy c is := by
  cases hcollected : i.collectedBy? c <;> simp [collectedBy, hcollected]

end Cons

/-- New items go to the consumers that are notified of them, one each, and those that are left over
are stored. -/
def deal (items : List α) (consumers : List Consumer) : List (Incident α) :=
  (consumers.zip items).map (fun p => handed p.1 p.2) ++ (items.drop consumers.length).map stored

theorem newItems_deal (items : List α) (consumers : List Consumer) :
    newItems (deal items consumers) = items := by
  have hhanded : newItems ((consumers.zip items).map fun p => handed p.1 p.2) =
      (consumers.zip items).map (·.2) := by
    rw [newItems, List.filterMap_map]
    exact congrFun List.filterMap_eq_map _
  have hstored : newItems ((items.drop consumers.length).map stored) =
      items.drop consumers.length := by
    rw [newItems, List.filterMap_map]
    exact List.filterMap_some
  rw [deal, newItems_append, hhanded, hstored, map_snd_zip_append_drop]

theorem collectedBy?_of_mem_deal {items : List α} {consumers : List Consumer} {i : Incident α}
    (hmem : i ∈ deal items consumers) (c : Consumer) : i.collectedBy? c = none := by
  rcases List.mem_append.mp hmem with hhanded | hstored
  · obtain ⟨_, -, rfl⟩ := List.mem_map.mp hhanded
    rfl
  · obtain ⟨_, -, rfl⟩ := List.mem_map.mp hstored
    rfl

theorem newItems_map {f : α → Incident α} (hf : ∀ item, (f item).new? = none) (items : List α) :
    newItems (items.map f) = [] := by
  simp [newItems, hf]

attribute [simp] new? assigned? handedTo? collectedBy? concerns ends

end Incident

namespace Action

variable {α : Type}

def cargo : Action α → List α
  | put item => [item]
  | putAll source => source.items
  | _ => []

/-- The items that an action puts into an open queue. A source that fails puts none. -/
def offered : Action α → List α
  | putAll source => if source.failure? = none then source.items else []
  | action => action.cargo

end Action

namespace Entry

variable {α : Type}

/-- The event that is reported, whether the log takes it or not. -/
def event? (e : Entry α) : Option Event :=
  match e.reply with
  | .panicked (.refused event) => some event
  | _ => e.logged.head?

def timedOut (e : Entry α) : Bool :=
  match e.event? with
  | some (.timedOut _) => true
  | _ => false

def accepted (e : Entry α) : Bool :=
  match e.reply with
  | .rejected _ | .panicked (.sourceFailed _) => false
  | _ => true

/-- What happened in a step that was seen so. -/
def incidents (e : Entry α) (action : Action α) : List (Incident α) :=
  match action with
  | .put item => if e.accepted then Incident.deal [item] e.notified else []
  | .putAll source => if e.accepted then Incident.deal source.items e.notified else []
  | .poll | .next _ | .drain _ => e.reply.freight.map .popped
  | .start c _ =>
    if e.timedOut then [.joined c, .gaveUp c] else
      match e.reply with
      | .asleep _ => [.joined c]
      | reply => reply.freight.map .popped
  | .wake c =>
    if e.timedOut then [.gaveUp c] else
      e.reply.freight.map (.returned c) ++ e.destroyed.map (.lost c)
  | _ => []

@[simp] theorem notified_anonymous (e : Entry α) : e.anonymous.notified = e.notified := rfl

@[simp] theorem destroyed_anonymous (e : Entry α) : e.anonymous.destroyed = e.destroyed := rfl

@[simp] theorem freight_anonymous (e : Entry α) : e.anonymous.reply.freight = e.reply.freight := by
  simp only [anonymous]
  cases e.reply <;> rfl

@[simp] theorem accepted_anonymous (e : Entry α) : e.anonymous.accepted = e.accepted := by
  simp only [accepted, anonymous]
  cases hreply : e.reply with
  | panicked panic => cases panic <;> rfl
  | _ => rfl

@[simp] theorem event?_anonymous (e : Entry α) :
    e.anonymous.event? = e.event?.map Event.anonymous := by
  simp only [event?, anonymous]
  cases hreply : e.reply with
  | panicked panic => cases panic <;> simp [Reply.anonymous, Panic.anonymous]
  | _ => simp [Reply.anonymous]

@[simp] theorem timedOut_anonymous (e : Entry α) : e.anonymous.timedOut = e.timedOut := by
  simp only [timedOut, event?_anonymous]
  cases hevent : e.event? with
  | none => rfl
  | some event => cases event <;> rfl

theorem incidents_anonymous (e : Entry α) (action : Action α) :
    e.anonymous.incidents action = e.incidents action := by
  cases action with
  | start c removal =>
      simp only [incidents, timedOut_anonymous]
      cases hreply : e.reply <;> simp [anonymous, hreply, Reply.anonymous, Reply.freight]
  | _ => simp [incidents]

/-- A consumer returns or loses the item that it was handed only when it wakes up. -/
theorem eq_wake_of_collected {e : Entry α} {action : Action α} {i : Incident α} {c : Consumer}
    (hmem : i ∈ e.incidents action) (hcollected : (i.collectedBy? c).isSome) :
    action = .wake c := by
  cases action with
  | put item | putAll source =>
      simp only [incidents] at hmem
      split at hmem
      · rw [Incident.collectedBy?_of_mem_deal hmem] at hcollected
        cases hcollected
      · cases hmem
  | start d removal =>
      simp only [incidents] at hmem
      split at hmem
      · rcases (by simpa using hmem) with rfl | rfl <;> cases hcollected
      · split at hmem
        · obtain rfl := List.mem_singleton.mp hmem
          cases hcollected
        · obtain ⟨_, -, rfl⟩ := List.mem_map.mp hmem
          cases hcollected
  | wake d =>
      simp only [incidents] at hmem
      split at hmem
      · obtain rfl := List.mem_singleton.mp hmem
        cases hcollected
      · rcases List.mem_append.mp hmem with hmem | hmem
        all_goals
          obtain ⟨item, -, rfl⟩ := List.mem_map.mp hmem
          simp only [Incident.collectedBy?] at hcollected
          split at hcollected
          · rename_i heq
            rw [heq]
          · cases hcollected
  | poll | next name | drain max =>
      obtain ⟨_, -, rfl⟩ := List.mem_map.mp hmem
      cases hcollected
  | _ => cases hmem

theorem of_lost_mem_incidents {e : Entry α} {action : Action α} {c : Consumer} {item : α}
    (hmem : .lost c item ∈ e.incidents action) : action = .wake c ∧ item ∈ e.destroyed := by
  obtain rfl := eq_wake_of_collected (c := c) hmem (by simp)
  simp only [incidents] at hmem
  split at hmem
  · simp at hmem
  · exact ⟨rfl, by simpa using hmem⟩

theorem newItems_incidents (e : Entry α) (action : Action α) :
    Incident.newItems (e.incidents action) = if e.accepted then action.cargo else [] := by
  cases action with
  | put item | putAll source =>
      simp only [incidents]
      split
      · exact Incident.newItems_deal _ _
      · rfl
  | start c removal =>
      simp only [incidents, Action.cargo, ite_self]
      split
      · rfl
      · split
        · rfl
        · exact Incident.newItems_map (fun _ => rfl) _
  | wake c =>
      simp only [incidents, Action.cargo, ite_self]
      split
      · rfl
      · rw [Incident.newItems_append, Incident.newItems_map fun _ => rfl,
          Incident.newItems_map fun _ => rfl, List.append_nil]
  | poll | next name | drain max =>
      simp only [incidents, Action.cargo, ite_self]
      exact Incident.newItems_map (fun _ => rfl) _
  | _ => simp [incidents, Action.cargo]

end Entry

def historyOf {α : Type} (steps : List (Step α)) (entries : List (Entry α)) : List (Incident α) :=
  (steps.zip entries).flatMap fun p => p.2.incidents p.1.action

@[simp] theorem historyOf_nil {α : Type} (entries : List (Entry α)) :
    historyOf [] entries = [] := rfl

@[simp] theorem historyOf_cons {α : Type} (step : Step α) (steps : List (Step α)) (entry : Entry α)
    (entries : List (Entry α)) :
    historyOf (step :: steps) (entry :: entries) =
      entry.incidents step.action ++ historyOf steps entries := rfl

theorem historyOf_anonymous {α : Type} (steps : List (Step α)) (entries : List (Entry α)) :
    historyOf steps (entries.map Entry.anonymous) = historyOf steps entries := by
  induction steps generalizing entries with
  | nil => rfl
  | cons step steps ih =>
      cases entries with
      | nil => rfl
      | cons entry entries => simp [Entry.incidents_anonymous, ih]

namespace Session

variable {α : Type}

def history (s : Session α) (steps : List (Step α)) : List (Incident α) :=
  historyOf steps (run (some s) steps).2

end Session

end FairQueue
