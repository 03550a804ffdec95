import FairQueue.Proofs.Handoff.Outcomes
import FairQueue.Proofs.History.Trace

/-!
Who has which items after a turn: the consumers that new items are dealt to, and the one that takes
the turn in order to remove an item, whether it polls, starts a call or wakes up in one.
-/

namespace FairQueue.Handoff

variable {α : Type} {h : Handoff α} {c : Consumer} {t : Turn α} {popped items : List α} {w : Waiter}
  {removal : Removal} {clock : Clock}

theorem heldBy_of_not_mem (hc : c ∉ h.inside.map (·.consumer)) : h.ledger.heldBy c = [] := by
  rw [Ledger.heldBy, List.filter_eq_nil_iff.mpr fun y hy hname => hc ?_]
  · rfl
  · obtain rfl := of_decide_eq_true hname
    exact List.mem_map_of_mem (List.mem_append_left _ (List.mem_map_of_mem hy))

theorem inside_putAll (h : Handoff α) (items : List α) : (h.putAll items).inside = h.inside := by
  simp only [inside, putAll]
  rw [List.map_append, List.append_assoc, map_fst_zip_append_drop]

/-- The new items that go to consumers in the line, with these consumers. -/
def dealt (h : Handoff α) (items : List α) : List (Consumer × α) :=
  (h.waiting.zip items).map fun y => (y.1.consumer, y.2)

theorem heldBy_putAll (h : Handoff α) (items : List α) (c : Consumer) :
    (h.putAll items).ledger.heldBy c = h.ledger.heldBy c ++
      ((h.dealt items).filter (·.1 = c)).map (·.2) := by
  simp only [Ledger.heldBy, ledger, putAll, dealt]
  rw [List.filter_append, List.map_append, List.filter_map, List.map_map]
  rfl

/-- Whatever the line leaves of new items is stored behind the old ones. -/
theorem items_putAll (hsound : h.ledger.Sound) (items : List α) :
    (h.dealt items).map (·.2) ++ (h.putAll items).items = h.items ++ items := by
  have hsplit := map_snd_zip_append_drop h.waiting items
  have hdealt : (h.dealt items).map (·.2) = (h.waiting.zip items).map (·.2) := by
    rw [dealt, List.map_map]
    rfl
  rw [hdealt]
  rcases hsound.idle with hitems | hwaiting
  · replace hitems : h.items = [] := hitems
    simpa [putAll, hitems] using hsplit
  · replace hwaiting : h.waiting = [] := hwaiting
    simp [putAll, hwaiting]

/-- In this turn `c` pops the stored items `popped`, or it takes along what it was served, or it
comes back empty-handed or falls asleep. All others keep what they have. -/
structure Fetches (h : Handoff α) (c : Consumer) (popped : List α) (t : Turn α) : Prop where
  items : h.items = popped ++ t.queue.items
  others : ∀ d, d ≠ c → t.queue.ledger.heldBy d = h.ledger.heldBy d ∧
    (d ∈ t.queue.inside.map (·.consumer) ↔ d ∈ h.inside.map (·.consumer))
  own : t.reply.freight ++ t.queue.ledger.heldBy c = h.ledger.heldBy c ++ popped
  inside : c ∈ t.queue.inside.map (·.consumer) ↔ ∃ limit, t.reply = .asleep limit
  removed : t.queue.removed = h.removed + t.reply.freight.length
  reply : (∃ item, t.reply = .delivered item) ∨ ∃ limit, t.reply = .asleep limit

/-- The consumer finds an item stored. -/
theorem fetches_popped {item : α} (hitems : h.items = item :: items)
    (hc : c ∉ h.inside.map (·.consumer)) (clock : Clock) :
    h.Fetches c [item] { queue := (h.popMany 1).2, clock, reply := .delivered (some item) } where
  items := by simp [popMany, hitems]
  others _ _ := ⟨rfl, Iff.rfl⟩
  own := by
    have hheld : (h.popMany 1).2.ledger.heldBy c = [] := heldBy_of_not_mem hc
    rw [hheld, heldBy_of_not_mem hc]
    rfl
  inside := by
    refine ⟨fun hinside => absurd hinside hc, ?_⟩
    rintro ⟨_, hreply⟩
    cases hreply
  removed := by simp [popMany, hitems, Reply.freight]
  reply := .inl ⟨_, rfl⟩

/-- The consumer is not inside a call, and comes back empty-handed. -/
theorem fetches_nothing (hc : c ∉ h.inside.map (·.consumer)) (clock : Clock)
    (event : Option Event) :
    h.Fetches c [] { queue := h, clock, reply := .delivered none, event } where
  items := rfl
  others _ _ := ⟨rfl, Iff.rfl⟩
  own := (List.append_nil _).symm
  inside := by
    refine ⟨fun hinside => absurd hinside hc, ?_⟩
    rintro ⟨_, hreply⟩
    cases hreply
  removed := rfl
  reply := .inl ⟨_, rfl⟩

theorem Starts.fetches (hstarts : h.Starts c removal t) (hc : c ∉ h.inside.map (·.consumer)) :
    ∃ popped, h.Fetches c popped t := by
  cases hstarts with
  | @popped item _ clock hitems => exact ⟨[item], fetches_popped hitems hc clock⟩
  | @late clock => exact ⟨[], fetches_nothing hc clock none⟩
  | @gaveUp patience clock =>
      rw [leave_join hc patience]
      exact ⟨[], fetches_nothing hc clock _⟩
  | asleep =>
      refine ⟨[], rfl, fun d hd => ⟨rfl, ?_⟩, (List.append_nil _).symm, ?_, rfl, .inr ⟨_, rfl⟩⟩
      · simp [inside, join, hd]
      · simp [inside, join]

theorem Resumes.fetches (hresumes : h.Resumes w clock t) (hsound : h.ledger.Sound) :
    h.Fetches w.consumer [] t := by
  cases hresumes with
  | @collected v item hmem hname =>
      have hcollect : ∀ d, (h.collect w.consumer).ledger.heldBy d =
          if w.consumer = d then [] else h.ledger.heldBy d :=
        fun d => Ledger.heldBy_discharge (l := h.ledger)
      have hwaiting : w.consumer ∉ h.waiting.map (·.consumer) := by
        intro hc
        obtain ⟨u, hu, hsame⟩ := List.mem_map.mp hc
        exact hsound.ne_of_waiting hmem hu (hsame.trans hname.symm)
      refine ⟨rfl, fun d hd => ⟨?_, ?_⟩, ?_, ?_, rfl, .inl ⟨_, rfl⟩⟩
      · rw [hcollect, if_neg hd.symm]
      · simp only [inside, collect, List.map_append, List.mem_append, List.map_map]
        refine or_congr_left ?_
        simp only [List.mem_map, List.mem_filter, Function.comp_apply, decide_eq_true_eq]
        refine exists_congr fun y => and_congr_left fun hy => and_iff_left ?_
        rwa [hy]
      · rw [hcollect, if_pos rfl, ← hname, hsound.heldBy_eq hmem]
        rfl
      · refine ⟨fun hc => ?_, by rintro ⟨_, hreply⟩; cases hreply⟩
        rw [inside, List.map_append] at hc
        refine absurd hc (List.not_mem_append ?_ hwaiting)
        simp [collect]
  | asleep hwaiting =>
      refine ⟨rfl, fun _ _ => ⟨rfl, Iff.rfl⟩, (List.append_nil _).symm, ?_, rfl, .inr ⟨_, rfl⟩⟩
      exact ⟨fun _ => ⟨_, rfl⟩,
        fun _ => List.mem_map_of_mem (List.mem_append_right _ hwaiting)⟩
  | gaveUp hwaiting =>
      refine ⟨rfl, fun d hd => ⟨rfl, ?_⟩, (List.append_nil _).symm, ?_, rfl, .inl ⟨_, rfl⟩⟩
      · simp only [inside, leave, List.map_append, List.mem_append]
        refine or_congr_right ?_
        simp only [List.mem_map, List.mem_filter, decide_eq_true_eq]
        refine exists_congr fun v => and_congr_left fun hv => and_iff_left ?_
        rwa [hv]
      · refine ⟨fun hc => ?_, by rintro ⟨_, hreply⟩; cases hreply⟩
        rw [inside, List.map_append] at hc
        refine absurd hc (List.not_mem_append (fun hserved => ?_) (by simp [leave]))
        obtain ⟨v, hv, hname⟩ := List.mem_map.mp hserved
        obtain ⟨y, hy, rfl⟩ := List.mem_map.mp hv
        exact hsound.ne_of_waiting hy hwaiting hname.symm

theorem fetches_start (hc : c ∉ h.inside.map (·.consumer)) (removal : Removal) (clock : Clock) :
    ∃ popped, h.Fetches c popped (h.turn (.start c removal) clock) := by
  simp only [turn, if_neg hc]
  exact (h.starts c removal clock).fetches hc

theorem fetches_wake (hsound : h.ledger.Sound) (hc : c ∈ h.inside.map (·.consumer))
    (clock : Clock) : h.Fetches c [] (h.turn (.wake c) clock) := by
  obtain ⟨w, hw⟩ := Option.isSome_iff_exists.mp (mem_map_iff_isSome_find?.mp hc)
  obtain rfl : w.consumer = c := by simpa using List.find?_some hw
  simp only [turn, hw]
  exact (resumes (List.mem_of_find?_eq_some hw) clock).fetches hsound

theorem fetches_poll (hc : c ∉ h.inside.map (·.consumer)) (clock : Clock) :
    ∃ popped, h.Fetches c popped (h.turn .poll clock) := by
  cases hitems : h.items with
  | nil =>
      have hqueue : (h.popMany 1).2 = h := by
        simp only [popMany, hitems, List.drop_nil, List.length_nil, Nat.min_zero, Nat.add_zero]
        rw [← hitems]
      have hfirst : (h.popMany 1).1.head? = none := by simp [popMany, hitems]
      refine ⟨[], ?_⟩
      simp only [turn, hqueue, hfirst]
      exact fetches_nothing hc clock none
  | cons item items =>
      have hfirst : (h.popMany 1).1.head? = some item := by simp [popMany, hitems]
      refine ⟨[item], ?_⟩
      simp only [turn, hfirst]
      exact fetches_popped hitems hc clock

end FairQueue.Handoff
