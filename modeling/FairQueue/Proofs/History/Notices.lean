import FairQueue.Proofs.History.Assignment
import FairQueue.Proofs.History.Service
import Mathlib.Data.Set.Function

/-!
Who is notified, and when. Every consumer asleep has a slot and a bell of its own, it is notified in
the step that serves it, and a call is notified once at most.
-/

namespace FairQueue

variable {α : Type}

def Action.starts (c : Consumer) : Action α → Bool
  | start d _ => d = c
  | _ => false

def Entry.sleeps (e : Entry α) : Bool :=
  e.reply matches .asleep _

/-- Adds the notifications of `c` to the count, which begins anew when `c` falls asleep in an action
of this kind. -/
def Entry.recount (e : Entry α) (kind : Action α → Bool) (c : Consumer) (count : Nat)
    (action : Action α) : Nat :=
  if kind action && e.sleeps then 0 else count + e.notified.count c

/-- How often `c` was notified since it last fell asleep in an action of this kind. -/
def noticesSince (kind : Action α → Bool) (c : Consumer) (steps : List (Step α))
    (entries : List (Entry α)) : Nat :=
  (steps.zip entries).foldl (fun count p => p.2.recount kind c count p.1.action) 0

@[simp] theorem Entry.sleeps_anonymous (e : Entry α) : e.anonymous.sleeps = e.sleeps := by
  simp only [sleeps, anonymous]
  cases e.reply <;> rfl

theorem Entry.recount_anonymous (e : Entry α) (kind : Action α → Bool) (c : Consumer) (count : Nat)
    (action : Action α) :
    e.anonymous.recount kind c count action = e.recount kind c count action := by
  simp [recount]

theorem Turn.sleeps_entry {t : Turn α} (refusing : Bool)
    (hsilent : ∀ limit, t.reply = .asleep limit → t.event = none) :
    (t.entry refusing).sleeps = true ↔ ∃ limit, t.reply = .asleep limit := by
  constructor
  · intro hsleeps
    unfold entry at hsleeps
    split at hsleeps
    · cases hsleeps
    · cases hreply : t.reply <;> simp [Entry.sleeps, hreply] at hsleeps ⊢
  · rintro ⟨limit, hreply⟩
    simp [entry, hsilent limit hreply, hreply, Entry.sleeps]

namespace Ledger

/-- The count is that of a consumer that was notified once if it was served, and never if it still
waits. -/
structure Tallied (l : Ledger α) (c : Consumer) (count : Nat) : Prop where
  le_one : count ≤ 1
  waiting : c ∈ l.waiting.map (·.consumer) → count = 0
  served : c ∈ l.served.map (·.1.consumer) → count = 1

end Ledger

namespace Handoff

open Ledger

variable {h : Handoff α} {t : Turn α} {items : List α} {c d : Consumer} {count : Nat}
  {action : Action α} {clock : Clock} {refusing : Bool} {kind : Action α → Bool}

theorem Deals.tallied (hdeals : h.Deals items t) (hsound : h.ledger.Sound)
    (htallied : h.ledger.Tallied c count) :
    t.queue.ledger.Tallied c (count + t.notified.count c) := by
  have hnotified : t.notified = (h.waiting.map (·.consumer)).take items.length := by
    rw [hdeals.notified, List.map_take]
  have hrest : t.queue.ledger.waiting.map (·.consumer) =
      (h.waiting.map (·.consumer)).drop items.length := by
    rw [← List.map_drop, ← hdeals.waiting]
    rfl
  have hserved : t.queue.ledger.served.map (·.1.consumer) =
      h.served.map (·.1.consumer) ++ t.notified := by
    change t.queue.served.map _ = _
    rw [hdeals.served, hdeals.notified, ← map_fst_zip_eq_take, List.map_append, List.map_map]
    rfl
  have hnames : (h.waiting.map (·.consumer)).Nodup := hsound.waiting_names
  by_cases hc : c ∈ t.notified
  · have hwaiting : c ∈ h.waiting.map (·.consumer) := List.mem_of_mem_take (hnotified ▸ hc)
    have hcount : count = 0 := htallied.waiting hwaiting
    have hone : t.notified.count c = 1 :=
      List.count_eq_one_of_mem (hnotified ▸ hnames.sublist (List.take_sublist _ _)) hc
    refine ⟨by omega, fun hlater => ?_, fun _ => by omega⟩
    rw [hrest] at hlater
    rw [hnotified] at hc
    exact absurd hlater (List.disjoint_take_drop hnames (Nat.le_refl _) hc)
  · have hnone : t.notified.count c = 0 := List.count_eq_zero_of_not_mem hc
    rw [hnone]
    refine ⟨htallied.le_one, fun hlater => ?_, fun hlater => ?_⟩
    · rw [hrest] at hlater
      exact htallied.waiting (List.mem_of_mem_drop hlater)
    · rw [hserved] at hlater
      exact htallied.served ((List.mem_append.mp hlater).resolve_right hc)

theorem Minds.tallied_of_ne (hminds : h.Minds d action t) (hne : d ≠ c)
    (htallied : h.ledger.Tallied c count) :
    t.queue.ledger.Tallied c count where
  le_one := htallied.le_one
  waiting hc := by
    obtain ⟨w, hw, rfl⟩ := List.mem_map.mp hc
    have hold := (hminds.waiting w hw).resolve_right fun hnew => hne hnew.1.symm
    exact htallied.waiting (List.mem_map_of_mem hold)
  served hc := htallied.served ((hminds.served.map _).subset hc)

section Kind

variable (hruns : ∀ action : Action α, kind action = true → action.runs c = true)
  (hstarts : ∀ removal : Removal, kind (.start c removal : Action α) = true)

include hruns hstarts

/-- A turn of its own call leaves the count of `c` as it is, but begins it anew when it puts `c` to
sleep. -/
theorem Consumes.tallied (hconsumes : h.Consumes c action clock t) (hsound : h.ledger.Sound)
    (htallied : h.ledger.Tallied c count) :
    t.queue.ledger.Tallied c ((t.entry refusing).recount kind c count action) := by
  have hminds := hconsumes.minds
  have hpath : Path h.ledger ((t.entry refusing).incidents action) t.queue.ledger := hconsumes.path
  have hsound' := hpath.sound hsound
  have hsleeps := Turn.sleeps_entry refusing fun limit hreply => (hminds.asleep limit hreply).1
  unfold Entry.recount
  split
  · rename_i hanew
    obtain ⟨limit, hreply⟩ := hsleeps.mp (Bool.and_eq_true_iff.mp hanew).2
    obtain ⟨w, hw, rfl⟩ := List.mem_map.mp (hminds.asleep limit hreply).2
    refine ⟨Nat.zero_le _, fun _ => rfl, fun hserved => ?_⟩
    obtain ⟨y, hy, hname⟩ := List.mem_map.mp hserved
    exact absurd hname.symm (hsound'.ne_of_waiting hy hw)
  · rename_i hold
    rw [Turn.notified_entry, hminds.notified, List.count_nil, Nat.add_zero]
    refine ⟨htallied.le_one, fun hwaiting => ?_, fun hserved => ?_⟩
    · obtain ⟨w, hw, rfl⟩ := List.mem_map.mp hwaiting
      rcases hminds.waiting w hw with hw | ⟨-, ⟨removal, rfl⟩, hasleep⟩
      · exact htallied.waiting (List.mem_map_of_mem hw)
      · exact absurd (by simp [hstarts, hsleeps.mpr hasleep]) hold
    · exact htallied.served ((hminds.served.map _).subset hserved)

theorem tallied_turn (hsound : h.ledger.Sound) (htallied : h.ledger.Tallied c count) :
    (h.turn action clock).queue.ledger.Tallied c
      (((h.turn action clock).entry refusing).recount kind c count action) := by
  have hother : action.runs c = false →
      ((h.turn action clock).entry refusing).recount kind c count action =
        count + (h.turn action clock).notified.count c := by
    intro hruns'
    have hkind : kind action = false :=
      Bool.eq_false_iff.mpr fun hkind => by simp [hruns _ hkind] at hruns'
    simp [Entry.recount, hkind]
  rcases h.deals_or_consumes action clock with ⟨hdeals, hnobody⟩ | ⟨d, hconsumes⟩
  · rw [hother (hnobody c)]
    exact hdeals.tallied hsound htallied
  · by_cases hd : c = d
    · subst hd
      exact hconsumes.tallied hruns hstarts hsound htallied
    · rw [hother (Bool.eq_false_iff.mpr fun hruns' => hd (hconsumes.runs_iff.mp hruns')),
        hconsumes.minds.notified]
      exact hconsumes.minds.tallied_of_ne (Ne.symm hd) htallied

end Kind

end Handoff

namespace Session

variable {s s' : Session α} {h : Handoff α} {step : Step α} {steps : List (Step α)} {c : Consumer}
  {count : Nat} {kind : Action α → Bool}

/-- The consumers asleep and the slots in use belong together one to one, and every consumer sleeps
on the bell of its own slot. -/
structure Matched (s : Session α) : Prop where
  names : (s.sleepers.map (·.1)).Nodup
  slots : Set.BijOn Seat.slot {x | x ∈ s.sleepers} {i | s.queue.line.inUse i = true}
  own : ∀ x : Seat, x ∈ s.sleepers → s.queue.line.bell? x.slot = some x.2.place.bell
  bells : Set.InjOn (fun x : Seat => x.2.place.bell) {x | x ∈ s.sleepers}

/-- The step notifies the consumers that it serves, which are those at the front of the line, in the
order of its new items. -/
structure Notifies (s : Session α) (step : Step α) (s' : Session α) : Prop where
  once : (s.step step).2.notified.Nodup
  front : (s.step step).2.notified = s.parked.take (s.step step).2.notified.length
  items : (s.step step).2.notified.map s'.held? =
    (step.action.offered.take (s.step step).2.notified.length).map some
  served : ∀ c, c ∈ (s.step step).2.notified ↔ s.held? c = none ∧ (s'.held? c).isSome

theorem Represents.matched (hrepresents : s.Represents h) : s.Matched := by
  obtain ⟨r, served, waiting, hseated, hsleepers, rfl⟩ := hrepresents
  have hslots : Set.InjOn Seat.slot {x | x ∈ s.sleepers} := by
    intro x hx y hy hslot
    exact hseated.eq_of_slot_eq (hsleepers ▸ hx) (hsleepers ▸ hy) hslot
  have hbell : ∀ x : Seat, x ∈ s.sleepers → x.2.place.bell = x.slot := hsleepers ▸ hseated.bell
  have hinUse : ∀ x : Seat, x ∈ s.sleepers → s.queue.line.inUse x.slot = true := by
    intro x hx
    rw [hseated.layout.inUse_iff]
    rw [hsleepers] at hx
    rcases List.mem_append.mp hx with hx | hx
    · obtain ⟨y, hy, rfl⟩ := List.mem_map.mp hx
      exact .inr (by simp [hseated.kept y hy])
    · exact .inl (hseated.waiting_eq ▸ List.mem_map_of_mem hx)
  refine ⟨hsleepers ▸ hseated.names, ⟨hinUse, hslots, fun i hi => ?_⟩, fun x hx => ?_, ?_⟩
  · rcases hseated.layout.inUse_iff.mp hi with hw | hs
    · obtain ⟨x, hx, rfl⟩ := List.mem_map.mp (hseated.waiting_eq ▸ hw)
      exact ⟨x, hsleepers ▸ List.mem_append_right _ hx, rfl⟩
    · obtain ⟨y, hy, rfl⟩ := hseated.owned i hs
      exact ⟨y.1, hsleepers ▸ List.mem_append_left _ (List.mem_map_of_mem hy), rfl⟩
  · rw [hbell x hx]
    exact hseated.layout.bell _ (hseated.layout.lt_of_inUse (hinUse x hx))
  · intro x hx y hy heq
    exact hslots hx hy (by rw [← hbell x hx, ← hbell y hy]; exact heq)

theorem Represents.notifies (hrepresents : s.Represents h)
    (hcount : Handoff.CountFits (some h) (step :: steps)) (hstep : (s.step step).1 = some s') :
    s.Notifies step s' := by
  obtain ⟨hrepresents', hentry, -⟩ := hrepresents.turn_of_step hcount hstep
  have hserves := h.serves_turn step.action { now := h.now, jumps := step.jumps }
  have hnotified : (s.step step).2.notified =
      (h.waiting.take step.action.offered.length).map (·.consumer) := by
    rw [← Entry.notified_anonymous, hentry, Turn.notified_entry, hserves.notified]
  have hzip : (s.step step).2.notified =
      (h.waiting.zip step.action.offered).map (·.1.consumer) := by
    rw [hnotified, ← map_fst_zip_eq_take, List.map_map]
    rfl
  have hprefix : (s.step step).2.notified <+: s.parked := by
    rw [hrepresents.parked_eq, hnotified]
    exact (List.take_prefix _ _).map _
  refine ⟨?_, List.prefix_iff_eq_take.mp hprefix, ?_, fun c => ⟨fun hc => ?_, fun hc => ?_⟩⟩
  · have hnames : (h.waiting.map (·.consumer)).Nodup := hrepresents.sound.waiting_names
    exact (hrepresents.parked_eq ▸ hnames).sublist hprefix.sublist
  · have hlength : (s.step step).2.notified.length =
        min step.action.offered.length h.waiting.length := by
      rw [hnotified, List.length_map, List.length_take]
    calc
      (s.step step).2.notified.map s'.held? =
          (h.waiting.zip step.action.offered).map fun y => some y.2 := by
        rw [hzip, List.map_map]
        exact List.map_congr_left fun y hy => hrepresents'.held?_of_served (hserves.new y hy)
      _ = (step.action.offered.take h.waiting.length).map some := by
        rw [← map_snd_zip_eq_take, List.map_map]
        rfl
      _ = _ := by
        rw [List.take_eq_take_iff.mpr]
        omega
  · rw [hzip] at hc
    obtain ⟨y, hy, rfl⟩ := List.mem_map.mp hc
    obtain ⟨ahead, behind, hwaiting⟩ :=
      hrepresents.occupancy?_of_waiting (List.of_mem_zip hy).1
    refine ⟨?_, ?_⟩
    · rw [held?, hwaiting]
      rfl
    · rw [hrepresents'.held?_of_served (hserves.new y hy)]
      rfl
  · obtain ⟨hbefore, hafter⟩ := hc
    obtain ⟨item, hitem⟩ := Option.isSome_iff_exists.mp hafter
    obtain ⟨w, rfl, hw⟩ := hrepresents'.exists_served hitem
    rcases hserves.old _ hw with hold | hnew
    · rw [hrepresents.held?_of_served hold] at hbefore
      cases hbefore
    · rw [hzip]
      exact List.mem_map_of_mem (f := (·.1.consumer)) hnew

theorem Represents.parked_or_held (hrepresents : s.Represents h)
    (hc : c ∈ s.sleepers.map (·.1)) : c ∈ s.parked ∨ (s.held? c).isSome := by
  have hinside : c ∈ h.inside.map (·.consumer) := by
    obtain ⟨r, served, waiting, -, hsleepers, rfl⟩ := hrepresents
    rw [mem_inside_iff hsleepers]
    exact fun hnone => sleeper?_eq_none_iff.mp hnone hc
  obtain ⟨w, hw, rfl⟩ := List.mem_map.mp hinside
  rcases List.mem_append.mp hw with hw | hw
  · obtain ⟨⟨w, item⟩, hmem, rfl⟩ := List.mem_map.mp hw
    exact .inr (by simp [hrepresents.held?_of_served hmem])
  · exact .inl (hrepresents.parked_eq ▸ List.mem_map_of_mem hw)

theorem Represents.tallied_step (hruns : ∀ action, kind action = true → action.runs c = true)
    (hstarts : ∀ removal, kind (.start c removal) = true) (hrepresents : s.Represents h)
    (hcount : Handoff.CountFits (some h) (step :: steps)) (hstep : (s.step step).1 = some s')
    (htallied : h.ledger.Tallied c count) :
    ∃ h', s'.Represents h' ∧ Handoff.CountFits (some h') steps ∧
      h'.ledger.Tallied c ((s.step step).2.recount kind c count step.action) := by
  obtain ⟨hrepresents', hentry, hcount'⟩ := hrepresents.turn_of_step hcount hstep
  refine ⟨_, hrepresents', hcount', ?_⟩
  rw [← Entry.recount_anonymous, hentry]
  exact Handoff.tallied_turn hruns hstarts hrepresents.sound htallied

theorem Represents.tallied_run (hruns : ∀ action, kind action = true → action.runs c = true)
    (hstarts : ∀ removal, kind (.start c removal) = true) (hrepresents : s.Represents h)
    (hcount : Handoff.CountFits (some h) steps) (hlast : (run (some s) steps).1 = some s')
    (htallied : h.ledger.Tallied c count) :
    ∃ h', s'.Represents h' ∧ h'.ledger.Tallied c
      ((steps.zip (run (some s) steps).2).foldl
        (fun count p => p.2.recount kind c count p.1.action) count) := by
  induction steps generalizing s h count with
  | nil =>
      obtain rfl := Option.some.inj hlast
      exact ⟨h, hrepresents, htallied⟩
  | cons step steps ih =>
      obtain ⟨s₁, hstep, hrest⟩ := exists_of_run_cons hlast
      obtain ⟨h₁, hrepresents₁, hcount₁, htallied₁⟩ :=
        hrepresents.tallied_step hruns hstarts hcount hstep htallied
      obtain ⟨h', hrepresents', htallied'⟩ := ih hrepresents₁ hcount₁ hrest htallied₁
      rw [run_cons hstep]
      exact ⟨h', hrepresents', htallied'⟩

theorem notices_of_run (kind : Action α → Bool)
    (hruns : ∀ action, kind action = true → action.runs c = true)
    (hstarts : ∀ removal, kind (.start c removal) = true)
    (hcount : Handoff.CountFits (some Handoff.empty) steps)
    (hlast : (run (some (ofQueue Queue.empty)) steps).1 = some s) :
    let count := noticesSince kind c steps (run (some (ofQueue Queue.empty)) steps).2
    count ≤ 1 ∧ (c ∈ s.parked → count = 0) ∧ ((s.held? c).isSome → count = 1) := by
  have hnever : (Handoff.empty : Handoff α).ledger.Tallied c 0 :=
    ⟨Nat.zero_le _, fun _ => rfl, fun hc => by cases hc⟩
  obtain ⟨h, hrepresents, htallied⟩ :=
    represents_empty.tallied_run hruns hstarts hcount hlast hnever
  refine ⟨htallied.le_one, fun hc => ?_, fun hheld => ?_⟩
  · exact htallied.waiting (hrepresents.parked_eq ▸ hc)
  · obtain ⟨item, hitem⟩ := Option.isSome_iff_exists.mp hheld
    obtain ⟨w, rfl, hw⟩ := hrepresents.exists_served hitem
    exact htallied.served (List.mem_map_of_mem (f := (·.1.consumer)) hw)

/-- After any run the consumers asleep and the slots in use belong together one to one. Every step
notifies the consumers that it serves, in the order of the items, and nobody else. No call is
notified twice. A consumer asleep that waits was not notified since its call began, and one whose
slot keeps an item was notified since it last fell asleep. -/
theorem run_notifies_served {opening : Opening} {before : List (Step α)} {s₁ : Session α}
    (hopen : open? opening = some s)
    (hcount : Handoff.CountFits (some Handoff.empty) (before ++ [step]))
    (hlast : (run (some s) before).1 = some s₁) :
    s₁.Matched ∧ (∀ s₂, (s₁.step step).1 = some s₂ → s₁.Notifies step s₂) ∧
      ((s₁.step step).1 = none → (s₁.step step).2.notified = []) ∧
      ∀ c,
        let call := noticesSince (Action.starts c) c before (run (some s) before).2
        let sleep := noticesSince (Action.runs c) c before (run (some s) before).2
        call ≤ 1 ∧
          (c ∈ s₁.sleepers.map (·.1) → c ∈ s₁.parked ∧ call = 0 ∧ sleep = 0 ∨
            (s₁.held? c).isSome ∧ call = 1 ∧ sleep = 1) := by
  obtain ⟨rfl, -⟩ := open?_eq_some_iff.mp hopen
  obtain ⟨hfits, hrest⟩ := hcount.of_append
  obtain ⟨h₁, hh₁, hrepresents₁⟩ := exists_represents represents_empty hfits hlast
  rw [hh₁] at hrest
  refine ⟨hrepresents₁.matched, fun s₂ hstep => hrepresents₁.notifies hrest hstep,
    fun hclosed => ?_, fun c => ?_⟩
  · exact congrArg Entry.notified (hrepresents₁.closing_eq hclosed)
  · intro call sleep
    have hcall := notices_of_run (c := c) (Action.starts c)
      (fun action haction => by cases action <;> simp_all [Action.starts, Action.runs])
      (fun removal => by simp [Action.starts]) hfits hlast
    have hsleep := notices_of_run (c := c) (Action.runs c) (fun _ haction => haction)
      (fun removal => by simp [Action.runs]) hfits hlast
    refine ⟨hcall.1, fun hc => ?_⟩
    rcases hrepresents₁.parked_or_held hc with hparked | hheld
    · exact .inl ⟨hparked, hcall.2.1 hparked, hsleep.2.1 hparked⟩
    · exact .inr ⟨hheld, hcall.2.2 hheld, hsleep.2.2 hheld⟩

/-- The slot of a consumer that gave up is used again, and its new owner is notified in its turn. -/
theorem run_notifies_served_reused :
    let gone := (((ofQueue Queue.empty : Session Nat).act
      (.start 1 (.takeUntil { secs := 5, nanos := 0 })) []).1.act
      (.advance { secs := 5, nanos := 0 }) []).1
    let last := (((gone.act (.wake 1) []).1.act (.start 2 .take) []).1.act (.start 3 .take) []).1
    let next := (last.act (.putAll ⟨[7, 8, 9], none⟩) []).1
    last.Matched ∧ last.Notifies ⟨.putAll ⟨[7, 8, 9], none⟩, false, []⟩ next := by
  intro gone last next
  have hcount : Handoff.CountFits (some Handoff.empty)
      ([⟨.start 1 (.takeUntil { secs := 5, nanos := 0 }), false, []⟩,
        ⟨.advance { secs := 5, nanos := 0 }, false, []⟩, ⟨.wake 1, true, []⟩,
        ⟨.start 2 .take, false, []⟩, ⟨.start 3 .take, false, []⟩] ++
        [⟨.putAll ⟨[7, 8, 9], none⟩, false, []⟩] : List (Step Nat)) := by decide
  have hlast : (run (open? .plain)
      [⟨.start 1 (.takeUntil { secs := 5, nanos := 0 }), false, []⟩,
        ⟨.advance { secs := 5, nanos := 0 }, false, []⟩, ⟨.wake 1, true, []⟩,
        ⟨.start 2 .take, false, []⟩, ⟨.start 3 .take, false, []⟩]).1 = some last := by decide
  obtain ⟨hmatched, hnotifies, -⟩ :=
    run_notifies_served (show open? .plain = some _ from rfl) hcount hlast
  exact ⟨hmatched, hnotifies next (by decide)⟩

end Session

end FairQueue
