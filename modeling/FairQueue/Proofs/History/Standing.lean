import FairQueue.Proofs.History.Trace

/-!
Where the consumers of a session stand, read off their slots: who waits in the line and who holds
which item.
-/

namespace FairQueue.Session

variable {α : Type} {s : Session α} {h : Handoff α} {c : Consumer}

def occupancy? (s : Session α) (c : Consumer) : Option (Occupancy α) :=
  (s.sleeper? c).bind fun sleeper => s.queue.line.occupancy? sleeper.place.slot

/-- The item that the slot of a consumer keeps for it. -/
def held? (s : Session α) (c : Consumer) : Option α :=
  (s.occupancy? c).bind Occupancy.item?

/-- The consumers whose slots wait, in the order in which they joined the line. -/
def parked (s : Session α) : List Consumer :=
  (s.sleepers.map (·.1)).filter fun c => s.occupancy? c matches some (.waiting _ _)

theorem sleeper?_of_mem {x : Seat} (hnames : (s.sleepers.map (·.1)).Nodup) (hx : x ∈ s.sleepers) :
    s.sleeper? x.1 = some x.2 := by
  cases hsleeper : s.sleeper? x.1 with
  | none => exact absurd (List.mem_map_of_mem hx) (sleeper?_eq_none_iff.mp hsleeper)
  | some sleeper =>
      have hsame := List.inj_on_of_nodup_map hnames hx (mem_of_sleeper? hsleeper) rfl
      rw [hsame]

namespace Represents

variable {w : Waiter} {item : α} (hrepresents : s.Represents h)

include hrepresents

theorem sound : h.ledger.Sound := by
  obtain ⟨r, served, waiting, hseated, -, rfl⟩ := hrepresents
  refine ⟨hseated.idle.imp_right fun hnil => by simp [handoff, Handoff.ledger, hnil], ?_⟩
  change ((s.handoff served waiting).inside.map (·.consumer)).Nodup
  rw [inside_handoff, List.map_map]
  exact hseated.names

theorem names : (s.sleepers.map (·.1)).Nodup := by
  obtain ⟨r, served, waiting, hseated, hsleepers, -⟩ := hrepresents
  exact hsleepers ▸ hseated.names

theorem items_eq : h.items = s.queue.items := by
  obtain ⟨r, served, waiting, -, -, rfl⟩ := hrepresents
  rfl

theorem removed_eq : s.queue.removed = h.removed := by
  obtain ⟨r, served, waiting, -, -, rfl⟩ := hrepresents
  rfl

theorem now_eq : s.now = h.now := by
  obtain ⟨r, served, waiting, -, -, rfl⟩ := hrepresents
  rfl

theorem iterators_eq : s.iterators = h.iterators := by
  obtain ⟨r, served, waiting, -, -, rfl⟩ := hrepresents
  rfl

theorem withNow (now : Time) : { s with now }.Represents { h with now } := by
  obtain ⟨r, served, waiting, hseated, hsleepers, rfl⟩ := hrepresents
  exact ⟨r, served, waiting, hseated, hsleepers, rfl⟩

theorem size_eq : s.queue.line.size = h.waiting.length := by
  obtain ⟨r, served, waiting, hseated, -, rfl⟩ := hrepresents
  rw [hseated.size_eq, handoff, List.length_map]

theorem stats_eq : h.stats = s.queue.stats := by
  obtain ⟨r, served, waiting, hseated, -, rfl⟩ := hrepresents
  exact stats_handoff hseated

theorem occupancy?_of_served (hmem : (w, item) ∈ h.served) :
    s.occupancy? w.consumer = some (.served item) := by
  obtain ⟨r, served, waiting, hseated, hsleepers, rfl⟩ := hrepresents
  obtain ⟨⟨x, item⟩, hx, heq⟩ := List.mem_map.mp hmem
  obtain ⟨rfl, rfl⟩ := Prod.mk.inj heq
  have hmem : x ∈ s.sleepers := hsleepers ▸ List.mem_append_left _ (List.mem_map_of_mem hx)
  have hsleeper := sleeper?_of_mem (hsleepers ▸ hseated.names) hmem
  change (s.sleeper? x.1).bind _ = _
  rw [hsleeper]
  exact hseated.layout.served _ _ (hseated.kept _ hx)

theorem occupancy?_of_waiting (hmem : w ∈ h.waiting) :
    ∃ ahead behind, s.occupancy? w.consumer = some (.waiting ahead behind) := by
  obtain ⟨r, served, waiting, hseated, hsleepers, rfl⟩ := hrepresents
  obtain ⟨x, hx, rfl⟩ := List.mem_map.mp hmem
  have hmem : x ∈ s.sleepers := hsleepers ▸ List.mem_append_right _ hx
  have hsleeper := sleeper?_of_mem (hsleepers ▸ hseated.names) hmem
  have hslot : x.slot ∈ r.waiting := hseated.waiting_eq ▸ List.mem_map_of_mem hx
  obtain ⟨ahead, behind, hwaiting⟩ := hseated.layout.linked.occupancy_of_mem hslot
  refine ⟨ahead, behind, ?_⟩
  change (s.sleeper? x.1).bind _ = _
  rw [hsleeper]
  exact hwaiting

theorem occupancy?_of_not_mem (hc : c ∉ h.inside.map (·.consumer)) : s.occupancy? c = none := by
  obtain ⟨r, served, waiting, hseated, hsleepers, rfl⟩ := hrepresents
  rw [mem_inside_iff hsleepers, not_not] at hc
  rw [occupancy?, hc]
  rfl

theorem held?_of_served (hmem : (w, item) ∈ h.served) : s.held? w.consumer = some item := by
  rw [held?, hrepresents.occupancy?_of_served hmem]
  rfl

theorem held?_of_waiting (hmem : w ∈ h.waiting) : s.held? w.consumer = none := by
  obtain ⟨ahead, behind, hwaiting⟩ := hrepresents.occupancy?_of_waiting hmem
  rw [held?, hwaiting]
  rfl

theorem exists_served (hheld : s.held? c = some item) :
    ∃ w, w.consumer = c ∧ (w, item) ∈ h.served := by
  by_cases hc : c ∈ h.inside.map (·.consumer)
  · obtain ⟨w, hw, rfl⟩ := List.mem_map.mp hc
    rcases List.mem_append.mp hw with hw | hw
    · obtain ⟨⟨w, item'⟩, hmem, rfl⟩ := List.mem_map.mp hw
      obtain rfl : item' = item :=
        Option.some.inj ((hrepresents.held?_of_served hmem).symm.trans hheld)
      exact ⟨w, rfl, hmem⟩
    · rw [hrepresents.held?_of_waiting hw] at hheld
      cases hheld
  · rw [held?, hrepresents.occupancy?_of_not_mem hc] at hheld
    cases hheld

theorem heldBy_eq (c : Consumer) : h.ledger.heldBy c = (s.held? c).toList := by
  cases hheld : s.held? c with
  | some item =>
      obtain ⟨w, rfl, hmem⟩ := hrepresents.exists_served hheld
      exact hrepresents.sound.heldBy_eq hmem
  | none =>
      rw [Ledger.heldBy, List.filter_eq_nil_iff.mpr fun y hy hname => ?_]
      · rfl
      · have hserved : s.held? y.1.consumer = some y.2 := hrepresents.held?_of_served hy
        rw [of_decide_eq_true hname, hheld] at hserved
        cases hserved

/-- A consumer that has the same in two queues has the same in the sessions they describe. -/
theorem held?_congr {s' : Session α} {h' : Handoff α} (hrepresents' : s'.Represents h')
    (hsame : h'.ledger.heldBy c = h.ledger.heldBy c) : s'.held? c = s.held? c := by
  rw [hrepresents.heldBy_eq, hrepresents'.heldBy_eq] at hsame
  cases hheld : s.held? c <;> cases hheld' : s'.held? c <;> simp_all

theorem sleepers_eq : s.sleepers.map (·.1) =
    h.served.map (·.1.consumer) ++ h.waiting.map (·.consumer) := by
  obtain ⟨r, served, waiting, hseated, hsleepers, rfl⟩ := hrepresents
  rw [hsleepers, List.map_append]
  simp only [handoff, List.map_map]
  rfl

theorem parked_eq : s.parked = h.waiting.map (·.consumer) := by
  rw [parked, hrepresents.sleepers_eq, List.filter_append]
  have hserved : (h.served.map (·.1.consumer)).filter
      (fun c => s.occupancy? c matches some (.waiting _ _)) = [] := by
    refine List.filter_eq_nil_iff.mpr fun c hc => ?_
    obtain ⟨y, hy, rfl⟩ := List.mem_map.mp hc
    simp [hrepresents.occupancy?_of_served hy]
  have hwaiting : (h.waiting.map (·.consumer)).filter
      (fun c => s.occupancy? c matches some (.waiting _ _)) = h.waiting.map (·.consumer) := by
    refine List.filter_eq_self.mpr fun c hc => ?_
    obtain ⟨w, hw, rfl⟩ := List.mem_map.mp hc
    obtain ⟨ahead, behind, hw⟩ := hrepresents.occupancy?_of_waiting hw
    simp [hw]
  rw [hserved, hwaiting, List.nil_append]

variable {steps : List (Step α)} (hcount : Handoff.CountFits (some h) steps)

include hcount

theorem history_eq : s.history steps = historyOf steps (Handoff.run (some h) steps).2 := by
  rw [history, ← historyOf_anonymous, (run_represents (.some hrepresents) hcount).1]

/-- The history of a session is a path that starts at the ledger of the hand-off queue that
describes it, and ends at the ledger of the one that describes it in the end. -/
theorem exists_path :
    ∃ l, Ledger.Path h.ledger (s.history steps) l ∧
      ∀ h', (Handoff.run (some h) steps).1 = some h' → l = h'.ledger := by
  rw [hrepresents.history_eq hcount]
  exact h.exists_path steps

theorem path_history {h' : Handoff α} (hlast : (Handoff.run (some h) steps).1 = some h') :
    Ledger.Path h.ledger (s.history steps) h'.ledger := by
  obtain ⟨l, hpath, hfinal⟩ := hrepresents.exists_path hcount
  exact hfinal h' hlast ▸ hpath

theorem newItems_history {s' : Session α} (hlast : (run (some s) steps).1 = some s') :
    Incident.newItems (s.history steps) = steps.flatMap (·.action.offered) := by
  obtain ⟨h', hh', -⟩ := exists_represents hrepresents hcount hlast
  rw [hrepresents.history_eq hcount]
  exact Handoff.newItems_run hh'

end Represents

end FairQueue.Session
