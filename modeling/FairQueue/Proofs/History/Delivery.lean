import FairQueue.Proofs.History.Assignment
import FairQueue.Proofs.History.Origin
import FairQueue.Proofs.History.Replies

/-!
The order in which calls return items. A call is assigned its item at some moment between its start
and its return, and items are assigned in the order in which they came, so calls that do not overlap
return their items in this order.
-/

namespace FairQueue

open Incident

variable {α : Type}

/-- How a call goes by that returns an item: from its start until the item is assigned to it, and
from then on until it returns. Nothing else happens to its consumer meanwhile. -/
inductive Completes : List (Incident α) → List (Incident α) → α → Prop where
  | popped {item : α} : Completes [] [.popped item] item
  | served {c : Consumer} {item : α} {waiting keeping : List (Incident α)}
      (hwaiting : ∀ i ∈ waiting, i.concerns c = false)
      (hkeeping : ∀ i ∈ keeping, i.concerns c = false) :
      Completes (.joined c :: waiting) (.handed c item :: (keeping ++ [.returned c item])) item

/-- A call that returns an item, with all that happened before it. -/
structure Delivery (α : Type) where
  before : List (Incident α)
  pending : List (Incident α)
  serving : List (Incident α)
  item : α
  completes : Completes pending serving item

namespace Delivery

variable {x y z : Delivery α} {history : List (Incident α)}

/-- All that happened until the call was assigned its item. -/
def awaited (x : Delivery α) : List (Incident α) :=
  x.before ++ x.pending

/-- All that happened until the call returned. -/
def past (x : Delivery α) : List (Incident α) :=
  x.awaited ++ x.serving

def In (x : Delivery α) (history : List (Incident α)) : Prop :=
  x.past <+: history

/-- How many items were assigned to calls before this call was assigned its own. -/
def rank (x : Delivery α) : Nat :=
  (assigned x.awaited).length

/-- The one call returned before the other one was started. -/
def Precedes (x y : Delivery α) : Prop :=
  x.past.length ≤ y.before.length

theorem length_before_le (x : Delivery α) : x.before.length ≤ x.awaited.length := by
  rw [awaited, List.length_append]
  omega

theorem length_awaited_lt (x : Delivery α) : x.awaited.length < x.past.length := by
  have hserving : x.serving ≠ [] := by
    obtain ⟨before, pending, serving, item, hcompletes⟩ := x
    cases hcompletes <;> simp
  rw [past, List.length_append]
  exact Nat.lt_add_of_pos_right (List.length_pos_iff.mpr hserving)

instance : Trans (Precedes (α := α)) Precedes Precedes where
  trans {x y z} hxy hyz := by
    have hbefore := y.length_before_le
    have hawaited := y.length_awaited_lt
    simp only [Precedes] at hxy hyz ⊢
    omega

theorem exists_serving (x : Delivery α) :
    ∃ i rest, x.serving = i :: rest ∧ i.assigned? = some x.item := by
  obtain ⟨before, pending, serving, item, hcompletes⟩ := x
  cases hcompletes with
  | popped => exact ⟨_, _, rfl, rfl⟩
  | served => exact ⟨_, _, rfl, rfl⟩

theorem exists_assigned_past (x : Delivery α) :
    ∃ rest, assigned x.past = assigned x.awaited ++ x.item :: rest := by
  obtain ⟨i, rest, hserving, hi⟩ := x.exists_serving
  refine ⟨assigned rest, ?_⟩
  rw [past, hserving, assigned_append, assigned_cons, hi]
  rfl

theorem getElem?_rank (hx : x.In history) : (assigned history)[x.rank]? = some x.item := by
  obtain ⟨later, rfl⟩ := hx
  obtain ⟨rest, hassigned⟩ := x.exists_assigned_past
  rw [assigned_append, hassigned, List.append_assoc, rank,
    List.getElem?_append_right (Nat.le_refl _)]
  simp

theorem In.awaited_prefix (hx : x.In history) : x.awaited <+: history :=
  (List.prefix_append _ _).trans hx

theorem rank_lt_of_length_lt (hx : x.In history) (hy : y.In history)
    (hlt : x.awaited.length < y.awaited.length) : x.rank < y.rank := by
  obtain ⟨i, rest, hserving, hi⟩ := x.exists_serving
  have hassigned : x.awaited ++ [i] <+: history := by
    refine List.IsPrefix.trans ⟨rest, ?_⟩ hx
    rw [past, hserving, ← List.append_cons]
  obtain ⟨later, hlater⟩ := List.prefix_of_prefix_length_le hassigned hy.awaited_prefix
    (by rwa [List.length_append, List.length_singleton])
  have hrank : y.rank = (assigned x.awaited ++ [x.item] ++ assigned later).length := by
    rw [rank, ← hlater, assigned_append, assigned_append, assigned_cons, hi]
    rfl
  rw [hrank, rank, List.length_append, List.length_append, List.length_singleton]
  omega

/-- A call that returned before another one was started was assigned its item first. -/
theorem Precedes.rank_lt (hprecedes : x.Precedes y) (hx : x.In history) (hy : y.In history) :
    x.rank < y.rank :=
  rank_lt_of_length_lt hx hy
    (Nat.lt_of_lt_of_le x.length_awaited_lt (Nat.le_trans hprecedes y.length_before_le))

theorem eq_of_completes {pending pending' serving serving' rest rest' : List (Incident α)}
    {item item' : α} (h : Completes pending serving item) (h' : Completes pending' serving' item')
    (hsame : serving ++ rest = serving' ++ rest') : serving = serving' := by
  cases h with
  | popped =>
      cases h' with
      | popped =>
          obtain ⟨heq, -⟩ := List.cons.inj hsame
          rw [heq]
      | served => cases (List.cons.inj hsame).1
  | @served c item waiting keeping hwaiting hkeeping =>
      cases h' with
      | popped => cases (List.cons.inj hsame).1
      | @served c' item' waiting' keeping' hwaiting' hkeeping' =>
          obtain ⟨heq, hrest⟩ : handed c item = handed c' item' ∧
              keeping ++ [returned c item] ++ rest = keeping' ++ [returned c' item'] ++ rest' :=
            List.cons.inj hsame
          obtain ⟨rfl, rfl⟩ := handed.inj heq
          -- the call returns with the next thing that happens to its consumer
          have hfirst : ∀ keeping rest : List (Incident α),
              (∀ i ∈ keeping, i.concerns c = false) →
              (keeping ++ [returned c item] ++ rest).takeWhile (fun i => !i.concerns c) =
                keeping := by
            intro keeping rest hkeeping
            rw [List.append_assoc]
            refine takeWhile_append_cons (fun i hi => ?_) (by simp)
            rw [hkeeping i hi]
            rfl
          have hkept : keeping = keeping' := by
            rw [← hfirst keeping rest hkeeping, hrest, hfirst keeping' rest' hkeeping']
          rw [hkept]

/-- No two calls are assigned the same item. -/
theorem past_eq_of_rank_eq (hx : x.In history) (hy : y.In history) (hrank : x.rank = y.rank) :
    x.past = y.past := by
  have hlength : x.awaited.length = y.awaited.length := by
    refine Nat.le_antisymm (Nat.le_of_not_lt fun hlt => ?_) (Nat.le_of_not_lt fun hlt => ?_)
    · exact absurd (rank_lt_of_length_lt hy hx hlt) (by omega)
    · exact absurd (rank_lt_of_length_lt hx hy hlt) (by omega)
  have hawaited : x.awaited = y.awaited :=
    (List.prefix_of_prefix_length_le hx.awaited_prefix hy.awaited_prefix
      (Nat.le_of_eq hlength)).eq_of_length hlength
  obtain ⟨rest, hrest⟩ := hx
  obtain ⟨rest', hrest'⟩ := hy
  have hsame : x.serving ++ rest = y.serving ++ rest' := by
    rw [← hrest', past, past, hawaited, List.append_assoc, List.append_assoc] at hrest
    exact List.append_cancel_left hrest
  rw [past, past, hawaited, eq_of_completes x.completes y.completes hsame]

/-- One call after the other returns items in the order in which they were assigned. -/
theorem map_item_sublist {calls : List (Delivery α)} (hin : ∀ x ∈ calls, x.In history)
    (hchain : calls.IsChain Precedes) : (calls.map item).Sublist (assigned history) := by
  refine map_sublist_of_rising (fun x hx => getElem?_rank (hin x hx)) ?_
  exact (List.isChain_iff_pairwise.mp hchain).imp_of_mem
    fun hx hy hprecedes => hprecedes.rank_lt (hin _ hx) (hin _ hy)

end Delivery

open Ledger in
/-- Every call that returns an item goes by in this way. -/
theorem Ledger.Path.exists_delivery {l l' : Ledger α} {before rest : List (Incident α)}
    {i : Incident α} {item : α} (hpath : Path l (before ++ i :: rest) l') (hsound : l.Sound)
    (hwaiting : l.waiting = []) (hserved : l.served = []) (hi : i.delivered? = some item) :
    ∃ x : Delivery α, x.past = before ++ [i] ∧ x.item = item := by
  obtain ⟨l₁, hbefore, hrest⟩ := hpath.exists_of_append
  cases hrest with
  | cons hhappens _ =>
      cases hhappens with
      | @popped items waiting served item' =>
          obtain rfl : item' = item := Option.some.inj hi
          exact ⟨⟨before, [], [.popped item'], item', .popped⟩,
            by simp [Delivery.past, Delivery.awaited], rfl⟩
      | @returned l₁ w item' hmem =>
          obtain rfl : item' = item := Option.some.inj hi
          obtain ⟨before', keeping, l₂, rfl, hkeeping, hbefore', hw⟩ :=
            hbefore.exists_handed hsound hserved hmem
          obtain ⟨before, waiting, rfl, hwaiting⟩ := hbefore'.exists_joined hsound hwaiting hw
          exact ⟨⟨before, _, _, item', .served hwaiting hkeeping⟩,
            by simp [Delivery.past, Delivery.awaited], rfl⟩
      | _ => cases hi

namespace Session

variable {s s₁ s₂ : Session α} {h : Handoff α} {step : Step α} {steps : List (Step α)}

theorem Represents.delivered_history (hrepresents : s.Represents h)
    (hcount : Handoff.CountFits (some h) steps) :
    delivered (s.history steps) = (run (some s) steps).2.flatMap (·.reply.freight) := by
  rw [hrepresents.history_eq hcount, Handoff.delivered_run,
    ← (run_represents (.some hrepresents) hcount).1, List.flatMap_map]
  simp

theorem Represents.items_of_emptyHanded (hrepresents : s.Represents h)
    (hcount : Handoff.CountFits (some h) (step :: steps))
    (hempty : (s.step step).2.EmptyHanded step.action) :
    ∃ s', (s.step step).1 = some s' ∧ s'.queue.items = [] := by
  cases hstep : (s.step step).1 with
  | none =>
      have hclosed := hempty.anonymous
      rw [hrepresents.closing_eq hstep] at hclosed
      rcases hclosed with hnone | ⟨max, items, -, hitems, -⟩
      · simp only [Handoff.closing] at hnone
        split at hnone <;> cases hnone
      · simp only [Handoff.closing] at hitems
        split at hitems <;> cases hitems
  | some s' =>
      obtain ⟨hrepresents', hentry, -⟩ := hrepresents.turn_of_step hcount hstep
      refine ⟨s', rfl, ?_⟩
      rw [← hrepresents'.items_eq]
      exact Handoff.items_of_emptyHanded hrepresents.sound (hentry ▸ hempty.anonymous)

theorem assigned_of_emptyHanded
    (hcount : Handoff.CountFits (some Handoff.empty) (steps ++ [step]))
    (hlast : (run (some (ofQueue Queue.empty)) steps).1 = some s)
    (hempty : (s.step step).2.EmptyHanded step.action) :
    ∃ s', (s.step step).1 = some s' ∧ s'.queue.items = [] ∧
      assigned (history (ofQueue Queue.empty) (steps ++ [step])) =
        (steps ++ [step]).flatMap (·.action.offered) := by
  obtain ⟨hfits, hrest⟩ := hcount.of_append
  obtain ⟨h, hh, hrepresents⟩ := exists_represents represents_empty hfits hlast
  rw [hh] at hrest
  obtain ⟨s', hstep, hitems⟩ := hrepresents.items_of_emptyHanded hrest hempty
  have hlast' : (run (some (ofQueue Queue.empty)) (steps ++ [step])).1 = some s' := by
    rw [run_concat, hlast]
    exact hstep
  refine ⟨s', hstep, hitems, ?_⟩
  rw [← assigned_append_items hcount hlast', hitems, List.append_nil]

/-- The items that callers are told of are those of the calls of the history, and every such call
was assigned its item between its start and its return, each a different one of the new items. If
one call returned before another was started, its item is the earlier one. So calls made one after
the other return a sublist of the new items, and those of each producer in their order. A call that
returns no item leaves none behind: every item put into the queue so far was assigned. -/
theorem run_delivers_in_order {opening : Opening} (hopen : open? opening = some s)
    (hcount : Handoff.CountFits (some Handoff.empty) (steps ++ [step])) :
    delivered (s.history steps) = (run (some s) steps).2.flatMap (·.reply.freight) ∧
      (∀ before i rest item, s.history steps = before ++ i :: rest → i.delivered? = some item →
        ∃ x : Delivery α, x.In (s.history steps) ∧ x.past = before ++ [i] ∧ x.item = item) ∧
      (∀ x : Delivery α, x.In (s.history steps) →
        (newItems (s.history steps))[x.rank]? = some x.item) ∧
      (∀ x y : Delivery α, x.In (s.history steps) → y.In (s.history steps) →
        (x.rank = y.rank → x.past = y.past) ∧ (x.Precedes y → x.rank < y.rank)) ∧
      (∀ calls : List (Delivery α), (∀ x ∈ calls, x.In (s.history steps)) →
        calls.IsChain Delivery.Precedes →
        (calls.map Delivery.item).Sublist (newItems (s.history steps)) ∧
          ∀ (producer : α → Bool) (earlier : α → α → Prop),
            ((newItems (s.history steps)).filter producer).Pairwise earlier →
            ((calls.map Delivery.item).filter producer).Pairwise earlier) ∧
      ∀ s₁, (run (some s) steps).1 = some s₁ →
        newItems (s.history steps) = steps.flatMap (·.action.offered) ∧
          ((s₁.step step).2.EmptyHanded step.action →
            ∃ s₂, (s₁.step step).1 = some s₂ ∧ s₂.queue.items = [] ∧
              assigned (s.history (steps ++ [step])) =
                (steps ++ [step]).flatMap (·.action.offered)) := by
  obtain ⟨rfl, -⟩ := open?_eq_some_iff.mp hopen
  have hfits := hcount.of_append.1
  obtain ⟨l, hpath, -⟩ := represents_empty.exists_path hfits
  have hsound : (Handoff.empty : Handoff α).ledger.Sound := represents_empty.sound
  have hnew : assigned (history (ofQueue Queue.empty) steps) ++ l.items =
      newItems (history (ofQueue Queue.empty) steps) := hpath.assigned_append_items hsound
  refine ⟨represents_empty.delivered_history hfits, fun before i rest item hsplit hi => ?_,
    fun x hx => ?_, fun x y hx hy => ?_, fun calls hin hchain => ?_, fun s₁ hlast => ?_⟩
  · rw [hsplit] at hpath ⊢
    obtain ⟨x, hpast, hitem⟩ := hpath.exists_delivery hsound rfl rfl hi
    exact ⟨x, ⟨rest, by rw [hpast, ← List.append_cons]⟩, hpast, hitem⟩
  · have hitem := Delivery.getElem?_rank hx
    rw [← hnew, List.getElem?_append_left (List.getElem?_eq_some_iff.mp hitem).1]
    exact hitem
  · exact ⟨Delivery.past_eq_of_rank_eq hx hy, fun hprecedes => hprecedes.rank_lt hx hy⟩
  · have hsublist : (calls.map Delivery.item).Sublist
        (newItems (history (ofQueue Queue.empty) steps)) :=
      hnew ▸ (Delivery.map_item_sublist hin hchain).trans (List.sublist_append_left _ _)
    exact ⟨hsublist, fun producer earlier hordered => hordered.sublist (hsublist.filter producer)⟩
  · exact ⟨represents_empty.newItems_history hfits hlast,
      fun hempty => assigned_of_emptyHanded hcount hlast hempty⟩

/-- A consumer returns the first item of a batch before another call polls for the second one. -/
theorem run_delivers_in_order_batch :
    let steps : List (Step Nat) := [⟨.start 1 .take, false, []⟩,
      ⟨.putAll ⟨[7, 8], none⟩, false, []⟩, ⟨.wake 1, false, []⟩, ⟨.poll, false, []⟩]
    let x : Delivery Nat := ⟨[], [.joined 1], .handed 1 7 :: ([.stored 8] ++ [.returned 1 7]), 7,
      .served (by decide) (by decide)⟩
    let y : Delivery Nat := ⟨x.past, [], [.popped 8], 8, .popped⟩
    x.rank < y.rank ∧
      assigned (history (ofQueue Queue.empty) (steps ++ [⟨.poll, false, []⟩])) = [7, 8] := by
  intro steps x y
  have hcount : Handoff.CountFits (some Handoff.empty) (steps ++ [⟨.poll, false, []⟩]) := by decide
  obtain ⟨-, -, -, horder, -, hnothing⟩ :=
    run_delivers_in_order (show open? .plain = some (ofQueue Queue.empty) from rfl) hcount
  have hx : x.past <+: history (ofQueue Queue.empty) steps := by decide
  have hy : y.past <+: history (ofQueue Queue.empty) steps := by decide
  obtain ⟨s₂, -, -, hassigned⟩ := (hnothing _ rfl).2 (.inl (by decide))
  exact ⟨(horder x y hx hy).2 (Nat.le_refl _), hassigned⟩

end Session

end FairQueue
