import FairQueue.Proofs.Handoff.Basic
import FairQueue.Proofs.Line.Operations

/-!
The seats of the consumers inside a call: every such consumer holds one slot, and every slot in use
is held by one such consumer. Each operation on a queue whose seats are known succeeds and moves one
consumer, or none, from one group of seats to the other.
-/

namespace FairQueue

/-- A consumer asleep, with its place in the line and its patience. -/
abbrev Seat := Consumer × Sleeper

namespace Seat

def slot (x : Seat) : Nat :=
  x.2.place.slot

def waiter (x : Seat) : Waiter where
  consumer := x.1
  patience := x.2.patience

end Seat

variable {α : Type} {q : Queue α} {r : Roster α} {served : List (Seat × α)} {waiting : List Seat}
  {x : Seat} {item : α}

/-- The consumers in `waiting` hold the waiting slots, in this order, and those in `served` hold the
slots that keep their items. Items are stored only while nobody waits. -/
structure Seated (q : Queue α) (r : Roster α) (served : List (Seat × α)) (waiting : List Seat) :
    Prop where
  intact : q.broken = false
  layout : q.line.Layout r none
  waiting_eq : r.waiting = waiting.map Seat.slot
  kept : ∀ y ∈ served, r.served y.1.slot = some y.2
  owned : ∀ i, (r.served i).isSome → ∃ y ∈ served, y.1.slot = i
  bell : ∀ x ∈ served.map (·.1) ++ waiting, x.2.place.bell = x.slot
  names : ((served.map (·.1) ++ waiting).map (·.1)).Nodup
  slots : ((served.map (·.1) ++ waiting).map Seat.slot).Nodup
  idle : q.items = [] ∨ waiting = []

theorem seated_empty : Seated (Queue.empty : Queue α) Roster.empty [] [] where
  intact := rfl
  layout := Line.layout_empty
  waiting_eq := rfl
  kept y hy := by cases hy
  owned i hi := by cases hi
  bell x hx := by cases hx
  names := List.nodup_nil
  slots := List.nodup_nil
  idle := .inl rfl

namespace Seated

theorem size_eq (h : Seated q r served waiting) : q.line.size = waiting.length := by
  rw [h.layout.size, h.waiting_eq, List.length_map]

theorem isEmpty_eq (h : Seated q r served waiting) : q.line.isEmpty = waiting.isEmpty := by
  rw [h.layout.isEmpty_eq, h.waiting_eq, List.isEmpty_map]

theorem place_eq (h : Seated q r served waiting) (hx : x ∈ served.map (·.1) ++ waiting) :
    x.2.place = { slot := x.slot, bell := x.slot } := by
  calc
    x.2.place = { slot := x.slot, bell := x.2.place.bell } := rfl
    _ = _ := by rw [h.bell x hx]

theorem eq_of_slot_eq {y z : Seat} (h : Seated q r served waiting)
    (hy : y ∈ served.map (·.1) ++ waiting) (hz : z ∈ served.map (·.1) ++ waiting)
    (hslot : y.slot = z.slot) : y = z :=
  List.inj_on_of_nodup_map h.slots hy hz hslot

theorem eq_of_name_eq {y z : Seat} (h : Seated q r served waiting)
    (hy : y ∈ served.map (·.1) ++ waiting) (hz : z ∈ served.map (·.1) ++ waiting)
    (hname : y.1 = z.1) : y = z :=
  List.inj_on_of_nodup_map h.names hy hz hname

theorem served_names (h : Seated q r served waiting) : (served.map (·.1.1)).Nodup := by
  have hnames := h.names
  rw [List.map_append, List.map_map, List.nodup_append] at hnames
  exact hnames.1

theorem ne_of_waiting {y : Seat × α} (h : Seated q r served waiting) (hy : y ∈ served)
    (hx : x ∈ waiting) : y.1.1 ≠ x.1 := by
  have hnames := h.names
  rw [List.map_append, List.map_map, List.nodup_append] at hnames
  exact hnames.2.2 y.1.1 (List.mem_map_of_mem hy) x.1 (List.mem_map_of_mem hx)

/-- Neither the stored items nor the count have to do with the seats. -/
theorem withItems (h : Seated q r served waiting) (items : List α) (removed : Nat)
    (hidle : items = [] ∨ waiting = []) :
    Seated { q with items, removed } r served waiting where
  intact := h.intact
  layout := h.layout
  waiting_eq := h.waiting_eq
  kept := h.kept
  owned := h.owned
  bell := h.bell
  names := h.names
  slots := h.slots
  idle := hidle

theorem put_nobody (h : Seated q r served []) (item : α) :
    q.put item = .ok (none, { q with items := q.items ++ [item] }) := by
  have hserve := h.layout.serve_nobody h.waiting_eq item
  have hempty : q.line.isEmpty = true := h.isEmpty_eq
  simp [Queue.put, hserve, hempty, bind, Except.bind, pure, Except.pure]

theorem exists_put (h : Seated q r served (x :: waiting)) (item : α) :
    ∃ line, q.put item = .ok (some x.2.place, { q with line }) ∧
      Seated { q with line } (r.serve x.slot item) (served ++ [(x, item)]) waiting := by
  obtain ⟨line, hserve, hlayout⟩ := h.layout.exists_serve h.waiting_eq item
  have hplace := h.place_eq (x := x) (by simp)
  have hseats : (served ++ [(x, item)]).map (·.1) ++ waiting =
      served.map (·.1) ++ x :: waiting := by simp
  have hother : ∀ y ∈ served, y.1.slot ≠ x.slot := by
    intro y hy heq
    have hnodup := h.slots
    rw [List.map_append] at hnodup
    refine (List.nodup_append.mp hnodup).2.2 y.1.slot ?_ x.slot (by simp) heq
    exact List.mem_map_of_mem (List.mem_map_of_mem hy)
  refine ⟨line, ?_, ?_⟩
  · simp [Queue.put, hserve, hplace, bind, Except.bind, pure, Except.pure]
  · exact
      { intact := h.intact
        layout := hlayout
        waiting_eq := by simp [h.waiting_eq]
        kept := fun y hy => by
          rcases List.mem_append.mp hy with hy | hy
          · simpa [hother y hy] using h.kept y hy
          · simp [List.mem_singleton.mp hy]
        owned := fun i hi => by
          by_cases hix : i = x.slot
          · exact ⟨(x, item), by simp, hix.symm⟩
          · obtain ⟨y, hy, hslot⟩ := h.owned i (by simpa [hix] using hi)
            exact ⟨y, by simp [hy], hslot⟩
        bell := hseats ▸ h.bell
        names := hseats ▸ h.names
        slots := hseats ▸ h.slots
        idle := h.idle.imp_right fun hcons => by cases hcons }

theorem exists_put_ok (h : Seated q r served waiting) (item : α) :
    ∃ place q', q.put item = .ok (place, q') := by
  cases waiting with
  | nil => exact ⟨none, _, h.put_nobody item⟩
  | cons x waiting =>
      obtain ⟨line, hput, -⟩ := h.exists_put item
      exact ⟨_, _, hput⟩

/-- Of the items that are put at once, each goes to one consumer at the front while there are any.
-/
theorem exists_putAll (h : Seated q r served waiting) (items : List α) :
    ∃ line r', q.putAll items =
        .ok ((waiting.take items.length).map (·.2.place),
          { q with items := q.items ++ items.drop waiting.length, line }) ∧
      Seated { q with items := q.items ++ items.drop waiting.length, line } r'
        (served ++ waiting.zip items) (waiting.drop items.length) := by
  induction items generalizing q r served waiting with
  | nil => exact ⟨q.line, r, by simp [Queue.putAll, pure, Except.pure], by simpa using h⟩
  | cons item items ih =>
      cases waiting with
      | nil =>
          have hput := h.put_nobody item
          obtain ⟨line, r', hputAll, hseated⟩ :=
            ih (h.withItems (q.items ++ [item]) q.removed (.inr rfl))
          refine ⟨line, r', ?_, by simpa using hseated⟩
          simp only [List.length_nil, List.drop_zero] at hputAll
          simp [Queue.putAll, hput, hputAll, bind, Except.bind, pure, Except.pure]
      | cons x waiting =>
          obtain ⟨line₁, hput, hseated₁⟩ := h.exists_put item
          obtain ⟨line, r', hputAll, hseated⟩ := ih hseated₁
          refine ⟨line, r', ?_, by simpa using hseated⟩
          simp [Queue.putAll, hput, hputAll, bind, Except.bind, pure, Except.pure]

theorem pop_nothing (hitems : q.items = []) : q.pop = .ok (none, q) := by
  simp [Queue.pop, hitems, pure, Except.pure]

theorem pop_item {items : List α} (hitems : q.items = item :: items)
    (hcount : q.removed + 1 < UInt64.size) :
    q.pop = .ok (some item, { q with items, removed := q.removed + 1 }) := by
  have hcounted := Queue.countRemoval_of_lt (q := { q with items }) hcount
  simp [Queue.pop, hitems, hcounted, bind, Except.bind, pure, Except.pure]

theorem exists_join {c : Consumer} (h : Seated q r served waiting) (hitems : q.items = [])
    (hc : c ∉ (served.map (·.1) ++ waiting).map (·.1)) (patience : Patience) :
    ∃ place line, q.join = .ok (place, { q with line }) ∧
      Seated { q with line } r.join served (waiting ++ [(c, Sleeper.mk place patience)]) := by
  obtain ⟨line, hjoin, hlayout⟩ := h.layout.exists_join
  -- the slot may have been used before, but nobody inside a call holds it
  have hnew : ∀ y ∈ served.map (·.1) ++ waiting, y.slot ≠ r.next := by
    intro y hy heq
    rcases List.mem_append.mp hy with hy | hy
    · obtain ⟨z, hz, rfl⟩ := List.mem_map.mp hy
      have hserved := hlayout.served_of_waiting (i := r.next) (by simp)
      rw [← heq] at hserved
      simp [h.kept z hz] at hserved
    · have hnodup := hlayout.waiting_nodup
      rw [Roster.waiting_join, ← List.concat_eq_append, List.nodup_concat] at hnodup
      rw [← heq, h.waiting_eq] at hnodup
      exact hnodup.1 (List.mem_map_of_mem hy)
  refine ⟨{ slot := r.next, bell := r.next }, line, ?_, ?_⟩
  · simp [Queue.join, hitems, hjoin, bind, Except.bind, pure, Except.pure]
  · exact
      { intact := h.intact
        layout := hlayout
        waiting_eq := by simp [h.waiting_eq, Seat.slot]
        kept := h.kept
        owned := h.owned
        bell := fun y hy => by
          rw [← List.append_assoc] at hy
          rcases List.mem_append.mp hy with hy | hy
          · exact h.bell y hy
          · rw [List.mem_singleton.mp hy]
            rfl
        names := by
          rw [← List.append_assoc, List.map_append]
          change (_ ++ [c]).Nodup
          exact List.concat_eq_append ▸ List.Nodup.concat hc h.names
        slots := by
          rw [← List.append_assoc, List.map_append]
          change (_ ++ [r.next]).Nodup
          refine List.concat_eq_append ▸ List.Nodup.concat (fun hmem => ?_) h.slots
          obtain ⟨y, hy, hslot⟩ := List.mem_map.mp hmem
          exact hnew y hy hslot
        idle := .inl hitems }

theorem collect_waiting (h : Seated q r served waiting) (hx : x ∈ waiting) :
    q.collect x.slot = .ok (none, q) := by
  have hi : x.slot ∈ r.waiting := h.waiting_eq ▸ List.mem_map_of_mem hx
  simp [Queue.collect, h.layout.collect_waiting hi, bind, Except.bind, pure, Except.pure]

theorem exists_collect (h : Seated q r served waiting) (hx : (x, item) ∈ served)
    (hcount : q.removed + 1 < UInt64.size) :
    ∃ line, q.collect x.slot = .ok (some item, { q with line, removed := q.removed + 1 }) ∧
      Seated { q with line, removed := q.removed + 1 } (r.collect x.slot)
        (served.filter (·.1.1 ≠ x.1)) waiting := by
  obtain ⟨hcollect, hlayout⟩ := h.layout.collect_served (h.kept _ hx)
  have hxseat : x ∈ served.map (·.1) ++ waiting :=
    List.mem_append_left _ (List.mem_map_of_mem (f := (·.1)) hx)
  have hseat : ∀ y ∈ served, y.1 ∈ served.map (·.1) ++ waiting :=
    fun y hy => List.mem_append_left _ (List.mem_map_of_mem (f := (·.1)) hy)
  have hsub : ((served.filter (·.1.1 ≠ x.1)).map (·.1) ++ waiting).Sublist
      (served.map (·.1) ++ waiting) :=
    ((List.filter_sublist).map _).append_right waiting
  refine ⟨q.line.release x.slot, ?_, ?_⟩
  · have hcounted :=
      Queue.countRemoval_of_lt (q := { q with line := q.line.release x.slot }) hcount
    simp [Queue.collect, hcollect, hcounted, bind, Except.bind, pure, Except.pure]
  · exact
      { intact := h.intact
        layout := hlayout
        waiting_eq := h.waiting_eq
        kept := fun y hy => by
          obtain ⟨hy, hname⟩ : y ∈ served ∧ y.1.1 ≠ x.1 := by simpa using hy
          have hslot : y.1.slot ≠ x.slot := fun hslot =>
            hname (congrArg Prod.fst (h.eq_of_slot_eq (hseat y hy) hxseat hslot))
          simpa [hslot] using h.kept y hy
        owned := fun i hi => by
          have hix : i ≠ x.slot := by
            rintro rfl
            simp at hi
          obtain ⟨y, hy, rfl⟩ := h.owned i (by simpa [hix] using hi)
          refine ⟨y, ?_, rfl⟩
          have hname : y.1.1 ≠ x.1 := fun hname =>
            hix (congrArg Seat.slot (h.eq_of_name_eq (hseat y hy) hxseat hname))
          simpa using ⟨hy, hname⟩
        bell := fun y hy => h.bell y (hsub.subset hy)
        names := h.names.sublist (hsub.map _)
        slots := h.slots.sublist (hsub.map _)
        idle := h.idle }

theorem exists_leave (h : Seated q r served waiting) (hx : x ∈ waiting) :
    ∃ line, q.leave x.slot = .ok (none, { q with line }) ∧
      Seated { q with line } (r.leave x.slot) served (waiting.filter (·.1 ≠ x.1)) := by
  have hi : x.slot ∈ r.waiting := h.waiting_eq ▸ List.mem_map_of_mem hx
  obtain ⟨line, hleave, hlayout⟩ := h.layout.exists_leave hi
  have hseat : ∀ y ∈ waiting, y ∈ served.map (·.1) ++ waiting :=
    fun y hy => List.mem_append_right _ hy
  have hsub : (served.map (·.1) ++ waiting.filter (·.1 ≠ x.1)).Sublist
      (served.map (·.1) ++ waiting) :=
    (List.filter_sublist).append_left _
  refine ⟨line, ?_, ?_⟩
  · simp [Queue.leave, hleave, bind, Except.bind, pure, Except.pure]
  · exact
      { intact := h.intact
        layout := hlayout
        waiting_eq := by
          have hnodup : (waiting.map Seat.slot).Nodup := h.waiting_eq ▸ h.layout.waiting_nodup
          rw [Roster.waiting_leave, h.waiting_eq, hnodup.erase_eq_filter, List.filter_map]
          refine congrArg _ (List.filter_congr fun y hy => ?_)
          have hiff : y.slot = x.slot ↔ y.1 = x.1 :=
            ⟨fun hslot => congrArg Prod.fst (h.eq_of_slot_eq (hseat y hy) (hseat x hx) hslot),
              fun hname => congrArg Seat.slot (h.eq_of_name_eq (hseat y hy) (hseat x hx) hname)⟩
          simp [bne, beq_eq_decide, hiff]
        kept := h.kept
        owned := h.owned
        bell := fun y hy => h.bell y (hsub.subset hy)
        names := h.names.sublist (hsub.map _)
        slots := h.slots.sublist (hsub.map _)
        idle := h.idle.imp_right fun hnil => by simp [hnil] }

end Seated

end FairQueue
