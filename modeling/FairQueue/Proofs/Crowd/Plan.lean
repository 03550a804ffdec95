import FairQueue.Crowd.Tally
import FairQueue.Proofs.History.Incident

/-!
What a plan asks of its producers, and how it can be told from the items of each of them that all
its items came out, in order.
-/

namespace FairQueue.Crowd

open scoped List

variable {plan : Plan} {p : Nat} {items : List Item}

/-- An action that puts items into a queue and cannot fail. -/
def Puts (action : Action Item) : Prop :=
  (∃ item, action = .put item) ∨ ∃ items, action = .putAll (.ofList items)

theorem offered_putAll (items : List Item) :
    (Action.putAll (.ofList items)).offered = items := rfl

namespace Plan

/-- The items that a producer is to put, if there is such a producer. -/
def share (plan : Plan) (p : Nat) : List Item :=
  if p < plan.producers then plan.itemsOf p else []

def allItems (plan : Plan) : List Item :=
  (List.range plan.producers).flatMap plan.itemsOf

theorem producer_of_mem_itemsOf {item : Item} (hmem : item ∈ plan.itemsOf p) :
    item.producer = p := by
  obtain ⟨number, -, rfl⟩ := List.mem_map.mp hmem
  rfl

theorem pairwise_itemsOf (plan : Plan) (p : Nat) :
    (plan.itemsOf p).Pairwise (·.number < ·.number) :=
  List.pairwise_map.mpr List.pairwise_lt_range

theorem length_allItems (plan : Plan) : plan.allItems.length = plan.total := by
  simp [allItems, itemsOf, total]

theorem nodup_allItems (plan : Plan) : plan.allItems.Nodup := by
  refine List.nodup_flatMap.mpr ⟨fun p _ => ?_, ?_⟩
  · refine (plan.pairwise_itemsOf p).imp fun {x y} hlt heq => ?_
    exact Nat.lt_irrefl _ (heq ▸ hlt)
  · refine List.pairwise_lt_range.imp fun {p p'} hlt => ?_
    intro item hitem hitem'
    have hsame := (producer_of_mem_itemsOf hitem).symm.trans (producer_of_mem_itemsOf hitem')
    omega

theorem flatten_parts {β : Type} {length : Nat} (hlength : length ≠ 0) (l : List β) :
    (parts length l).flatten = l := by
  have htake : ∀ count, ((List.range count).map fun k =>
      (l.drop (k * length)).take length).flatten = l.take (count * length) := by
    intro count
    induction count with
    | zero => simp
    | succ count ih =>
        rw [List.range_succ, List.map_append, List.flatten_append, ih, Nat.succ_mul, List.take_add]
        simp
  rw [parts, htake]
  refine List.take_of_length_le ?_
  have hdiv := Nat.lt_div_mul_add (a := l.length + length - 1) (Nat.pos_of_ne_zero hlength)
  omega

theorem puts_work {action : Action Item} (hmem : action ∈ plan.work p) : Puts action := by
  unfold work at hmem
  split at hmem
  · obtain ⟨item, -, rfl⟩ := List.mem_map.mp hmem
    exact .inl ⟨item, rfl⟩
  · obtain ⟨items, -, rfl⟩ := List.mem_map.mp hmem
    exact .inr ⟨items, rfl⟩

/-- However the items are cut into batches, they are put in order. -/
theorem offered_work (plan : Plan) (p : Nat) :
    (plan.work p).flatMap (·.offered) = plan.itemsOf p := by
  unfold work
  split
  · rw [List.flatMap_map]
    exact List.flatMap_singleton' _
  · rename_i hbatch
    simp only [List.flatMap_map, offered_putAll]
    rw [List.flatMap_id']
    exact flatten_parts hbatch _

section Shares

variable (hshares : ∀ p, items.filter (·.producer = p) = plan.share p)

include hshares

theorem inOrder_of_shares : InOrder items := by
  refine List.pairwise_iff_forall_sublist.mpr fun {a b} hsublist hsame => ?_
  have hpairwise : (items.filter (·.producer = a.producer)).Pairwise (·.number < ·.number) := by
    rw [hshares, share]
    split
    · exact plan.pairwise_itemsOf _
    · exact .nil
  have hpair := hsublist.filter (·.producer = a.producer)
  rw [List.filter_eq_self.mpr (by simp [hsame])] at hpair
  exact List.pairwise_iff_forall_sublist.mp hpairwise hpair

theorem perm_of_shares : items ~ plan.allItems := by
  have hproducers : ∀ item ∈ items, item.producer < plan.producers := by
    intro item hitem
    by_contra hlarge
    have hmem : item ∈ plan.share item.producer := by
      rw [← hshares]
      exact List.mem_filter.mpr ⟨hitem, decide_eq_true rfl⟩
    rw [share, if_neg hlarge] at hmem
    cases hmem
  have hall : (List.range plan.producers).flatMap (fun p => items.filter (·.producer = p)) =
      plan.allItems := by
    refine List.flatMap_congr fun p hp => ?_
    rw [hshares, share, if_pos (List.mem_range.mp hp)]
  calc
    items
    _ = items.filter (·.producer < plan.producers) :=
      (List.filter_eq_self.mpr fun item hitem => decide_eq_true (hproducers item hitem)).symm
    _ ~ (List.range plan.producers).flatMap (fun p => items.filter (·.producer = p)) :=
      (flatMap_filter_perm _ _ _).symm
    _ = plan.allItems := hall

end Shares

end Plan

theorem InOrder.sublist {items' : List Item} (horder : InOrder items) (hsublist : items' <+ items) :
    InOrder items' :=
  List.Pairwise.sublist hsublist horder

end FairQueue.Crowd
