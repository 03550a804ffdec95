import FairQueue.Proofs.History.Incident
import FairQueue.Proofs.Lists

/-!
What the incidents of a history do to the stored items, to the line and to the items that consumers
were handed, and what holds after every history.
-/

namespace FairQueue

structure Ledger (α : Type) where
  items : List α
  waiting : List Waiter
  served : List (Waiter × α)

namespace Ledger

variable {α : Type} {l l' l'' : Ledger α} {i : Incident α} {is is' : List (Incident α)} {w : Waiter}
  {c : Consumer} {item : α}

def inside (l : Ledger α) : List Waiter :=
  l.served.map (·.1) ++ l.waiting

def discharge (l : Ledger α) (c : Consumer) : Ledger α :=
  { l with served := l.served.filter (·.1.consumer ≠ c) }

@[simp] theorem items_discharge : (l.discharge c).items = l.items := rfl

@[simp] theorem served_discharge :
    (l.discharge c).served = l.served.filter (·.1.consumer ≠ c) := rfl

/-- When an incident can happen, and what it leaves. -/
inductive Happens : Ledger α → Incident α → Ledger α → Prop
  | stored {items : List α} {served : List (Waiter × α)} {item : α} :
      Happens ⟨items, [], served⟩ (.stored item) ⟨items ++ [item], [], served⟩
  | handed {items : List α} {waiting : List Waiter} {served : List (Waiter × α)} {w : Waiter}
      {item : α} :
      Happens ⟨items, w :: waiting, served⟩ (.handed w.consumer item)
        ⟨items, waiting, served ++ [(w, item)]⟩
  | popped {items : List α} {waiting : List Waiter} {served : List (Waiter × α)} {item : α} :
      Happens ⟨item :: items, waiting, served⟩ (.popped item) ⟨items, waiting, served⟩
  | joined {waiting : List Waiter} {served : List (Waiter × α)} {w : Waiter}
      (hnew : w.consumer ∉ (served.map (·.1) ++ waiting).map (·.consumer)) :
      Happens ⟨[], waiting, served⟩ (.joined w.consumer) ⟨[], waiting ++ [w], served⟩
  | returned {l : Ledger α} {w : Waiter} {item : α} (hmem : (w, item) ∈ l.served) :
      Happens l (.returned w.consumer item) (l.discharge w.consumer)
  | lost {l : Ledger α} {w : Waiter} {item : α} (hmem : (w, item) ∈ l.served) :
      Happens l (.lost w.consumer item) (l.discharge w.consumer)
  | gaveUp {l : Ledger α} {w : Waiter} (hmem : w ∈ l.waiting) :
      Happens l (.gaveUp w.consumer)
        { l with waiting := l.waiting.filter (·.consumer ≠ w.consumer) }

inductive Path : Ledger α → List (Incident α) → Ledger α → Prop
  | nil {l : Ledger α} : Path l [] l
  | cons {l l' l'' : Ledger α} {i : Incident α} {is : List (Incident α)} (hhappens : Happens l i l')
      (hpath : Path l' is l'') : Path l (i :: is) l''

theorem Path.single (h : Happens l i l') : Path l [i] l' :=
  .cons h .nil

theorem Path.append (h : Path l is l') (h' : Path l' is' l'') : Path l (is ++ is') l'' := by
  induction h with
  | nil => exact h'
  | cons hhappens _ ih => exact .cons hhappens (ih h')

theorem Path.exists_of_append (h : Path l (is ++ is') l'') :
    ∃ l', Path l is l' ∧ Path l' is' l'' := by
  induction is generalizing l with
  | nil => exact ⟨l, .nil, h⟩
  | cons i is ih =>
      cases h with
      | cons hhappens hpath =>
          obtain ⟨l', his, his'⟩ := ih hpath
          exact ⟨l', .cons hhappens his, his'⟩

/-- Items are stored only while nobody waits, and nobody is inside two calls. -/
structure Sound (l : Ledger α) : Prop where
  idle : l.items = [] ∨ l.waiting = []
  names : (l.inside.map (·.consumer)).Nodup

theorem Happens.sound (h : Happens l i l') (hsound : l.Sound) : l'.Sound := by
  obtain ⟨hidle, hnames⟩ := hsound
  cases h with
  | stored => exact ⟨.inr rfl, hnames⟩
  | handed =>
      refine ⟨hidle.imp_right (List.cons_ne_nil _ _ · |>.elim), ?_⟩
      simpa [inside] using hnames
  | popped => exact ⟨.inr (hidle.resolve_left (List.cons_ne_nil _ _)), hnames⟩
  | joined hnew =>
      refine ⟨.inl rfl, ?_⟩
      rw [inside, ← List.append_assoc, List.map_append]
      exact List.concat_eq_append ▸ List.Nodup.concat hnew hnames
  | returned hmem | lost hmem =>
      refine ⟨hidle, hnames.sublist (List.Sublist.map _ ?_)⟩
      exact ((List.filter_sublist).map _).append_right _
  | gaveUp hmem =>
      refine ⟨hidle.imp_right fun hnil => by simp [hnil], hnames.sublist (List.Sublist.map _ ?_)⟩
      exact (List.filter_sublist).append_left _

theorem Path.sound (h : Path l is l') (hsound : l.Sound) : l'.Sound := by
  induction h with
  | nil => exact hsound
  | cons hhappens _ ih => exact ih (hhappens.sound hsound)

/-- Items are assigned in the order in which they came, whichever way they go. -/
theorem Path.assigned_append_items (h : Path l is l') (hsound : l.Sound) :
    Incident.assigned is ++ l'.items = l.items ++ Incident.newItems is := by
  induction h with
  | nil => simp
  | cons hhappens _ ih =>
      have hrest := ih (hhappens.sound hsound)
      cases hhappens with
      | handed =>
          have hitems := hsound.idle.resolve_right (List.cons_ne_nil _ _)
          simp only at hitems hrest
          simp [hrest, hitems]
      | _ => simpa using hrest

def heldBy (l : Ledger α) (c : Consumer) : List α :=
  (l.served.filter (·.1.consumer = c)).map (·.2)

theorem heldBy_discharge {d : Consumer} :
    (l.discharge d).heldBy c = if d = c then [] else l.heldBy c := by
  simp only [heldBy, served_discharge, List.filter_filter]
  split
  · subst d
    simp
  · rename_i hne
    refine congrArg _ (List.filter_congr fun y _ => ?_)
    by_cases hy : y.1.consumer = c
    · simp [hy, Ne.symm hne]
    · simp [hy]

namespace Sound

theorem served_names (hsound : l.Sound) : (l.served.map (·.1.consumer)).Nodup := by
  have hnames := hsound.names
  rw [inside, List.map_append, List.map_map, List.nodup_append] at hnames
  exact hnames.1

theorem waiting_names (hsound : l.Sound) : (l.waiting.map (·.consumer)).Nodup := by
  have hnames := hsound.names
  rw [inside, List.map_append, List.nodup_append] at hnames
  exact hnames.2.1

theorem ne_of_waiting {v : Waiter} (hsound : l.Sound) (hw : (w, item) ∈ l.served)
    (hv : v ∈ l.waiting) : v.consumer ≠ w.consumer := by
  have hnames := hsound.names
  rw [inside, List.map_append, List.map_map, List.nodup_append] at hnames
  exact (hnames.2.2 _ (List.mem_map_of_mem hw) _ (List.mem_map_of_mem hv)).symm

theorem heldBy_eq (hsound : l.Sound) (hmem : (w, item) ∈ l.served) :
    l.heldBy w.consumer = [item] := by
  rw [heldBy, filter_eq_singleton (f := (·.1.consumer)) hsound.served_names hmem]
  rfl

end Sound

/-- What `c` was handed it returned or lost, in the same order, but for what it still holds. -/
theorem Path.handedTo_eq (h : Path l is l') (hsound : l.Sound) (c : Consumer) :
    l.heldBy c ++ Incident.handedTo c is = Incident.collectedBy c is ++ l'.heldBy c := by
  induction h with
  | nil => simp
  | @cons l l₁ l' i is hhappens _ ih =>
      have hrest := ih (hhappens.sound hsound)
      cases hhappens with
      | @handed items waiting served w item =>
          by_cases hw : w.consumer = c
          · simpa [heldBy, hw] using hrest
          · simpa [heldBy, hw] using hrest
      | @returned l w item hmem | @lost l w item hmem =>
          rw [heldBy_discharge] at hrest
          by_cases hw : w.consumer = c
          · subst hw
            simpa [hsound.heldBy_eq hmem] using hrest
          · simpa [hw] using hrest
      | _ => simpa [heldBy] using hrest

/-- The next thing that happens to a consumer that was handed an item is that it returns or loses
this item. Until then it holds it. -/
theorem Path.outcome (h : Path l is l') (hsound : l.Sound) (hmem : (w, item) ∈ l.served) :
    is.find? (·.concerns w.consumer) = some (.returned w.consumer item) ∨
      is.find? (·.concerns w.consumer) = some (.lost w.consumer item) ∨
      is.find? (·.concerns w.consumer) = none ∧ (w, item) ∈ l'.served := by
  induction h with
  | nil => exact .inr (.inr ⟨rfl, hmem⟩)
  | @cons l l₁ l' i is hhappens _ ih =>
      have hnext := ih (hhappens.sound hsound)
      have hother : ∀ y ∈ l.served, y.1.consumer ≠ w.consumer ∨ y = (w, item) := by
        intro y hy
        by_cases hname : y.1.consumer = w.consumer
        · exact .inr (List.inj_on_of_nodup_map hsound.served_names hy hmem hname)
        · exact .inl hname
      cases hhappens with
      | stored | popped => simpa using hnext hmem
      | handed =>
          have hne := hsound.ne_of_waiting hmem List.mem_cons_self
          simpa [List.find?_cons, hne] using hnext (List.mem_append_left _ hmem)
      | @joined waiting served v hnew =>
          have hne : v.consumer ≠ w.consumer := by
            intro heq
            rw [heq] at hnew
            exact hnew (List.mem_map_of_mem (List.mem_append_left _ (List.mem_map_of_mem hmem)))
          simpa [List.find?_cons, hne] using hnext hmem
      | returned hmem' | lost hmem' =>
          rcases hother _ hmem' with hne | heq
          · have hnext := hnext (List.mem_filter.mpr ⟨hmem, by simpa using Ne.symm hne⟩)
            simpa [List.find?_cons, hne] using hnext
          · obtain ⟨rfl, rfl⟩ := Prod.mk.inj heq
            simp
      | gaveUp hmem' =>
          have hne := hsound.ne_of_waiting hmem hmem'
          simpa [List.find?_cons, hne] using hnext hmem

/-- A consumer inside a call stays there, as patient as before, until its call ends. -/
theorem Path.mem_inside (h : Path l is l') (hmem : w ∈ l.inside)
    (hends : ∀ i ∈ is, i.ends w.consumer = false) : w ∈ l'.inside := by
  induction h with
  | nil => exact hmem
  | @cons l l₁ l' i is hhappens _ ih =>
      refine ih ?_ fun j hj => hends j (List.mem_cons_of_mem _ hj)
      have hi := hends i List.mem_cons_self
      cases hhappens with
      | stored | popped => exact hmem
      | handed => simpa [inside] using hmem
      | joined =>
          rw [inside, ← List.append_assoc]
          exact List.mem_append_left _ hmem
      | @returned l v item hmem' | @lost l v item hmem' =>
          have hne : w.consumer ≠ v.consumer := Ne.symm (by simpa using hi)
          rcases List.mem_append.mp hmem with hmem | hmem
          · obtain ⟨y, hy, rfl⟩ := List.mem_map.mp hmem
            refine List.mem_append_left _ (List.mem_map_of_mem ?_)
            exact List.mem_filter.mpr ⟨hy, by simpa using hne⟩
          · exact List.mem_append_right _ hmem
      | @gaveUp l v hmem' =>
          have hne : w.consumer ≠ v.consumer := Ne.symm (by simpa using hi)
          rcases List.mem_append.mp hmem with hmem | hmem
          · exact List.mem_append_left _ hmem
          · refine List.mem_append_right _ ?_
            exact List.mem_filter.mpr ⟨hmem, by simpa using hne⟩

end Ledger

end FairQueue
