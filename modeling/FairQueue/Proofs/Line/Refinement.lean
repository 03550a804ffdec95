import FairQueue.Line.Request
import FairQueue.Proofs.Line.Operations

/-!
A line on its own refines a roster: whatever is asked of it about slots in use, it answers as a list
of waiting slots, a stack of vacant ones and the items kept in between would, and its links and
chains stay laid out as they say.
-/

namespace FairQueue

namespace Line

variable {α : Type}

namespace Request

/-- The slot that a request names. -/
def slot? : Request α → Option Nat
  | collect i | leave i => some i
  | _ => none

end Request

namespace Reply

def place? : Reply α → Option Place
  | joined place | served place => some place
  | _ => none

end Reply

end Line

namespace Roster

open Line

variable {α : Type}

/-- A slot and its bell, which has the same number. -/
def place (i : Nat) : Place where
  slot := i
  bell := i

/-- The item kept in a slot is handed out, and the slot goes on top of the vacant ones. -/
def yield (r : Roster α) (i : Nat) (item : α) : Reply α × Roster α :=
  (.delivered (some item),
    { r with served := Function.update r.served i none, vacant := i :: r.vacant })

def perform (r : Roster α) : Request α → Reply α × Roster α
  | .join =>
    match r.vacant with
    | i :: vacant => (.joined (place i), { r with vacant, waiting := r.waiting ++ [i] })
    | [] =>
      (.joined (place r.made), { r with made := r.made + 1, waiting := r.waiting ++ [r.made] })
  | .serve item =>
    match r.waiting with
    | i :: waiting =>
      (.served (place i), { r with waiting, served := Function.update r.served i (some item) })
    | [] => (.unserved item, r)
  | .collect i =>
    match r.served i with
    | some item => r.yield i item
    | none => (.delivered none, r)
  | .leave i =>
    match r.served i with
    | some item => r.yield i item
    | none => (.delivered none, { r with waiting := r.waiting.erase i, vacant := i :: r.vacant })

def run (r : Roster α) : List (Request α) → List (Reply α) × Roster α
  | [] => ([], r)
  | request :: requests =>
    let (reply, r) := r.perform request
    let (replies, r) := r.run requests
    (reply :: replies, r)

/-- Somebody waits in the slot, or it keeps an item. -/
def Uses (r : Roster α) (i : Nat) : Prop :=
  i ∈ r.waiting ∨ (r.served i).isSome

instance (r : Roster α) (i : Nat) : Decidable (r.Uses i) :=
  inferInstanceAs (Decidable (i ∈ r.waiting ∨ (r.served i).isSome))

/-- Every request that names a slot names one that is in use then. -/
def Admits (r : Roster α) : List (Request α) → Prop
  | [] => True
  | request :: requests =>
    (∀ i ∈ request.slot?, r.Uses i) ∧ (r.perform request).2.Admits requests

instance decidableAdmits : (r : Roster α) → (requests : List (Request α)) →
    Decidable (r.Admits requests)
  | _, [] => inferInstanceAs (Decidable True)
  | r, request :: requests =>
    have := decidableAdmits (r.perform request).2 requests
    inferInstanceAs
      (Decidable ((∀ i ∈ request.slot?, r.Uses i) ∧ (r.perform request).2.Admits requests))

variable {r : Roster α} {i : Nat} {is : List Nat} {item : α} {request : Request α}
  {requests : List (Request α)}

theorem perform_serve_of_cons (hwaiting : r.waiting = i :: is) :
    r.perform (.serve item) = (.served (place i), r.serve i item) := by
  simp [perform, hwaiting, serve, detach, give]

theorem perform_collect_of_served (hi : r.served i = some item) :
    r.perform (.collect i) = (.delivered (some item), r.collect i) := by
  simp [perform, hi, yield, collect, handOut, release]

theorem perform_leave_of_served (hi : r.served i = some item) :
    r.perform (.leave i) = r.perform (.collect i) := by
  simp [perform, hi]

theorem perform_leave_of_unserved (hi : r.served i = none) :
    r.perform (.leave i) = (.delivered none, r.leave i) := by
  simp [perform, hi, leave, detach, release]

theorem made_le_perform (request : Request α) : r.made ≤ (r.perform request).2.made := by
  cases request with
  | join =>
      simp only [perform]
      split
      · exact Nat.le_refl _
      · exact Nat.le_succ _
  | serve item | collect i | leave i =>
      simp only [perform]
      split <;> exact Nat.le_refl _

theorem made_le_run (requests : List (Request α)) : r.made ≤ (r.run requests).2.made := by
  induction requests generalizing r with
  | nil => exact Nat.le_refl _
  | cons request requests ih => exact Nat.le_trans (made_le_perform request) ih

end Roster

namespace Line

variable {α : Type} {l : Line α} {r : Roster α} {i : Nat} {item : α} {request : Request α}
  {requests : List (Request α)}

namespace Layout

theorem perform_join (h : l.Layout r none) :
    r.perform .join = (.joined (Roster.place r.next), r.join) := by
  cases hvacant : r.vacant with
  | nil =>
      simp [Roster.perform, hvacant, Roster.join, Roster.acquire, Roster.append, Roster.next]
  | cons i is =>
      have hlt : i < r.made := h.vacant_lt (by simp [hvacant])
      simp [Roster.perform, hvacant, Roster.join, Roster.acquire, Roster.append, Roster.next,
        Nat.max_eq_left (Nat.succ_le_of_lt hlt)]

theorem leave_served (h : l.Layout r none) (hi : r.served i = some item) :
    l.leave i = l.collect i := by
  obtain ⟨slot, hslot, hused, -⟩ := slot_of_occupancy? (h.served i item hi)
  simp [Line.leave, hslot, hused, bind, Except.bind]

/-- A request about a slot in use is answered as the roster says and leaves what it says. -/
theorem exists_perform (h : l.Layout r none) (huses : ∀ i ∈ request.slot?, r.Uses i) :
    ∃ l', l.perform request = .ok ((r.perform request).1, l') ∧
      l'.Layout (r.perform request).2 none := by
  cases request with
  | join =>
      obtain ⟨l', hjoin, hlayout⟩ := h.exists_join
      rw [h.perform_join]
      refine ⟨l', ?_, hlayout⟩
      simp [perform, hjoin, Roster.place, bind, Except.bind, pure, Except.pure]
  | serve item =>
      cases hwaiting : r.waiting with
      | nil =>
          have hserve := h.serve_nobody hwaiting item
          refine ⟨l, ?_, ?_⟩
          · simp [perform, hserve, Roster.perform, hwaiting, bind, Except.bind, pure, Except.pure]
          · simpa [Roster.perform, hwaiting] using h
      | cons i is =>
          obtain ⟨l', hserve, hlayout⟩ := h.exists_serve hwaiting item
          rw [Roster.perform_serve_of_cons hwaiting]
          refine ⟨l', ?_, hlayout⟩
          simp [perform, hserve, Roster.place, bind, Except.bind, pure, Except.pure]
  | collect i =>
      cases hserved : r.served i with
      | some item =>
          obtain ⟨hcollect, hlayout⟩ := h.collect_served hserved
          rw [Roster.perform_collect_of_served hserved]
          refine ⟨_, ?_, hlayout⟩
          simp [perform, hcollect, bind, Except.bind, pure, Except.pure]
      | none =>
          have hwaiting : i ∈ r.waiting := (huses i rfl).resolve_right (by simp [hserved])
          have hcollect := h.collect_waiting hwaiting
          refine ⟨l, ?_, ?_⟩
          · simp [perform, hcollect, Roster.perform, hserved, bind, Except.bind, pure, Except.pure]
          · simpa [Roster.perform, hserved] using h
  | leave i =>
      cases hserved : r.served i with
      | some item =>
          obtain ⟨hcollect, hlayout⟩ := h.collect_served hserved
          rw [Roster.perform_leave_of_served hserved, Roster.perform_collect_of_served hserved]
          refine ⟨_, ?_, hlayout⟩
          simp [perform, h.leave_served hserved, hcollect, bind, Except.bind, pure, Except.pure]
      | none =>
          have hwaiting : i ∈ r.waiting := (huses i rfl).resolve_right (by simp [hserved])
          obtain ⟨l', hleave, hlayout⟩ := h.exists_leave hwaiting
          rw [Roster.perform_leave_of_unserved hserved]
          refine ⟨l', ?_, hlayout⟩
          simp [perform, hleave, bind, Except.bind, pure, Except.pure]

/-- The place that a request is answered with is a slot that has been made, with its own bell. -/
theorem place_perform (h : l.Layout r none) {p : Place}
    (hp : (r.perform request).1.place? = some p) :
    ∃ i < (r.perform request).2.made, p = Roster.place i := by
  cases request with
  | join =>
      cases hvacant : r.vacant with
      | nil =>
          simp only [Roster.perform, hvacant, Reply.place?, Option.some.injEq] at hp ⊢
          exact ⟨r.made, Nat.lt_succ_self _, hp.symm⟩
      | cons i is =>
          simp only [Roster.perform, hvacant, Reply.place?, Option.some.injEq] at hp ⊢
          exact ⟨i, h.vacant_lt (by simp [hvacant]), hp.symm⟩
  | serve item =>
      cases hwaiting : r.waiting with
      | nil => simp [Roster.perform, hwaiting, Reply.place?] at hp
      | cons i is =>
          simp only [Roster.perform, hwaiting, Reply.place?, Option.some.injEq] at hp ⊢
          exact ⟨i, h.waiting_lt (by simp [hwaiting]), hp.symm⟩
  | collect i | leave i =>
      simp only [Roster.perform] at hp
      split at hp <;> simp [Roster.yield, Reply.place?] at hp

theorem exists_run (h : l.Layout r none) (hadmits : r.Admits requests) :
    ∃ l', l.run requests = .ok ((r.run requests).1, l') ∧ l'.Layout (r.run requests).2 none ∧
      ∀ p ∈ (r.run requests).1.filterMap Reply.place?, l'.bell? p.slot = some p.bell := by
  induction requests generalizing l r with
  | nil => exact ⟨l, rfl, h, by simp [Roster.run]⟩
  | cons request requests ih =>
      obtain ⟨huses, hrest⟩ := hadmits
      obtain ⟨l₁, hperform, hlayout₁⟩ := h.exists_perform huses
      obtain ⟨l', hrun, hlayout, hbells⟩ := ih hlayout₁ hrest
      refine ⟨l', ?_, hlayout, ?_⟩
      · simp [run, hperform, hrun, Roster.run, bind, Except.bind, pure, Except.pure]
      · intro p hp
        obtain ⟨reply, hreply, hplace⟩ := List.mem_filterMap.mp hp
        rcases List.mem_cons.mp hreply with rfl | hreply
        · obtain ⟨i, hi, rfl⟩ := h.place_perform hplace
          exact hlayout.bell i (Nat.lt_of_lt_of_le hi (Roster.made_le_run requests))
        · exact hbells p (List.mem_filterMap.mpr ⟨reply, hreply, hplace⟩)

end Layout

/-- Whatever is asked of an empty line, in any order and by anybody, as long as only slots in use
are named: every request is answered as the roster answers it, and the slots, their links in both
directions, the chain of vacant slots and the size are left as the roster says. A slot keeps the
bell that it was first given out with. -/
theorem run_refines_roster {requests : List (Request α)}
    (hadmits : (Roster.empty : Roster α).Admits requests) :
    let (replies, r) := Roster.empty.run requests
    ∃ l, (empty : Line α).run requests = .ok (replies, l) ∧ l.Layout r none ∧
      l.isEmpty = r.waiting.isEmpty ∧
      ∀ p ∈ replies.filterMap Reply.place?, l.bell? p.slot = some p.bell := by
  obtain ⟨l, hrun, hlayout, hbells⟩ := layout_empty.exists_run hadmits
  exact ⟨l, hrun, hlayout, hlayout.isEmpty_eq, hbells⟩

/-- Three join; the one in the middle leaves, a newcomer takes its slot, and the oldest is served
but leaves before it collects. -/
theorem run_refines_roster_reused :
    let requests : List (Request Nat) :=
      [.join, .join, .join, .leave 1, .serve 7, .join, .collect 2, .leave 0, .join, .serve 8]
    ∃ l, (empty : Line Nat).run requests = .ok (
        [.joined ⟨0, 0⟩, .joined ⟨1, 1⟩, .joined ⟨2, 2⟩, .delivered none, .served ⟨0, 0⟩,
          .joined ⟨1, 1⟩, .delivered none, .delivered (some 7), .joined ⟨0, 0⟩,
          .served ⟨2, 2⟩], l) ∧
      l.Linked none [1, 0] none ∧ l.front = some 1 ∧ l.back = some 0 ∧ l.vacancy = none := by
  intro requests
  have hadmits : (Roster.empty : Roster Nat).Admits requests := by decide
  obtain ⟨l, hrun, hlayout, -, -⟩ := run_refines_roster hadmits
  exact ⟨l, hrun, hlayout.linked, hlayout.front, hlayout.back, hlayout.vacancy⟩

end Line

end FairQueue
