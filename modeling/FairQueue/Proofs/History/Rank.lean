import FairQueue.Proofs.History.Standing
import Mathlib.Tactic.Tauto

/-!
The line is fair: whoever joins it is served after those that stand ahead of it, and before all
others. Each new item moves it up by one, and so does each consumer ahead of it that gives up.
-/

namespace FairQueue

variable {α : Type}

namespace Incident

/-- Whether the first thing that happens to `c` is that it gives up. -/
def deserts (c : Consumer) (is : List (Incident α)) : Bool :=
  is.find? (·.concerns c) matches some (.gaveUp _)

theorem deserts_cons_of_other {c : Consumer} {i : Incident α} (hi : i.concerns c = false)
    (is : List (Incident α)) : deserts c (i :: is) = deserts c is := by
  simp only [deserts, List.find?_cons, hi]

theorem countP_deserts_cons {ahead : List Waiter} {i : Incident α}
    (hi : ∀ w ∈ ahead, i.concerns w.consumer = false) (is : List (Incident α)) :
    ahead.countP (fun w => deserts w.consumer (i :: is)) =
      ahead.countP (fun w => deserts w.consumer is) :=
  List.countP_congr fun w hw => by rw [deserts_cons_of_other (hi w hw)]

theorem newItems_length_lt {past rest past' rest' : List (Incident α)} {i i' : Incident α}
    {c : Consumer} (hsame : past ++ i :: rest = past' ++ i' :: rest') (hnew : i.new?.isSome)
    (hquiet : ∀ j ∈ past, j.concerns c = false) (hnoisy : ¬ ∀ j ∈ past', j.concerns c = false) :
    (newItems past).length < (newItems past').length := by
  rcases List.append_eq_append_iff.mp hsame with ⟨more, hpast', hmore⟩ | ⟨more, hpast, -⟩
  · cases more with
    | nil => exact absurd hquiet (by simpa [hpast'] using hnoisy)
    | cons j more =>
        obtain ⟨rfl, -⟩ := List.cons.inj hmore
        obtain ⟨item, hitem⟩ := Option.isSome_iff_exists.mp hnew
        rw [hpast', newItems_append, newItems_cons, hitem]
        simp
  · refine absurd (fun j hj => hquiet j ?_) hnoisy
    rw [hpast]
    exact List.mem_append_left _ hj

end Incident

namespace Ledger

open Incident

variable {l l' : Ledger α} {is : List (Incident α)} {w : Waiter} {ahead behind : List Waiter}

/-- Of those ahead of `w` at first, some still stand there after `is`. The others are as many as the
new items and those that deserted. -/
def Remains (w : Waiter) (ahead : List Waiter) (is : List (Incident α)) (l : Ledger α) : Prop :=
  ∃ ahead' behind, l.waiting = ahead' ++ w :: behind ∧
    (∀ v ∈ ahead', v ∈ ahead ∧ ∀ i ∈ is, i.concerns v.consumer = false) ∧
    (newItems is).length + ahead.countP (fun v => deserts v.consumer is) + ahead'.length =
      ahead.length

theorem Remains.of_nobody {i : Incident α} (h : Remains w ahead is l)
    (hi : ∀ v ∈ ahead, i.concerns v.consumer = false) (hnew : i.new? = none) :
    Remains w ahead (i :: is) l := by
  obtain ⟨ahead', behind, hwaiting, hstill, hcount⟩ := h
  refine ⟨ahead', behind, hwaiting, fun v hv => ⟨(hstill v hv).1, ?_⟩, ?_⟩
  · simpa using ⟨hi v (hstill v hv).1, (hstill v hv).2⟩
  · rw [newItems_cons, hnew, countP_deserts_cons hi]
    exact hcount

/-- Someone ahead of `w` leaves the line, with a new item or without one. -/
theorem Remains.of_one {i : Incident α} {v : Waiter} {before after : List Waiter}
    (h : Remains w (before ++ after) is l)
    (hi : ∀ u ∈ before ++ after, i.concerns u.consumer = false)
    (hone : i.new?.toList.length + (if deserts v.consumer (i :: is) then 1 else 0) = 1) :
    Remains w (before ++ v :: after) (i :: is) l := by
  obtain ⟨ahead', behind, hwaiting, hstill, hcount⟩ := h
  refine ⟨ahead', behind, hwaiting, fun u hu => ⟨?_, ?_⟩, ?_⟩
  · have hmem := (hstill u hu).1
    simp only [List.mem_append, List.mem_cons] at hmem ⊢
    tauto
  · simpa using ⟨hi u (hstill u hu).1, (hstill u hu).2⟩
  · have hbefore := countP_deserts_cons (fun u hu => hi u (List.mem_append_left _ hu)) is
    have hafter := countP_deserts_cons (fun u hu => hi u (List.mem_append_right _ hu)) is
    simp only [List.countP_append, List.length_append] at hcount
    simp only [newItems_cons, List.length_append, List.countP_append, List.countP_cons,
      List.length_cons]
    omega

/-- While `w` stays in the line, new items go to those ahead of it. -/
theorem Path.remains (h : Path l is l') (hsound : l.Sound)
    (hwaiting : l.waiting = ahead ++ w :: behind)
    (hquiet : ∀ i ∈ is, i.concerns w.consumer = false) : Remains w ahead is l' := by
  -- the rest of the path speaks of those who are still ahead after its first incident
  induction h generalizing ahead behind with
  | nil => exact ⟨ahead, behind, hwaiting, by simp, by simp [deserts]⟩
  | @cons l l₁ l' i is hhappens _ ih =>
      have hnext := hhappens.sound hsound
      have hlater : ∀ j ∈ is, j.concerns w.consumer = false :=
        fun j hj => hquiet j (List.mem_cons_of_mem _ hj)
      have hi := hquiet i List.mem_cons_self
      have hahead : ∀ v ∈ ahead, v ∈ l.waiting := fun v hv => by simp [hwaiting, hv]
      cases hhappens with
      | stored => simp at hwaiting
      | popped => exact (ih hnext hwaiting hlater).of_nobody (fun _ _ => rfl) rfl
      | @handed items waiting served v item =>
          cases ahead with
          | nil =>
              obtain ⟨rfl, -⟩ := List.cons.inj hwaiting
              simp at hi
          | cons u ahead =>
              obtain ⟨rfl, htail⟩ := List.cons.inj hwaiting
              have hnames := hsound.waiting_names
              rw [List.map_cons, List.nodup_cons] at hnames
              have hrest : Remains w ([] ++ ahead) is l' := ih hnext htail hlater
              refine hrest.of_one (fun u hu => ?_) (by simp [deserts])
              refine decide_eq_false fun heq => hnames.1 (heq ▸ List.mem_map_of_mem ?_)
              simpa [htail] using Or.inl hu
      | @joined waiting served u hnew =>
          have hwaiting' : waiting ++ [u] = ahead ++ w :: (behind ++ [u]) := by
            simp only at hwaiting
            simp [hwaiting]
          refine (ih hnext hwaiting' hlater).of_nobody (fun v hv => ?_) rfl
          refine decide_eq_false fun heq => hnew (heq ▸ List.mem_map_of_mem ?_)
          exact List.mem_append_right _ (hahead v hv)
      | returned hmem | lost hmem =>
          refine (ih hnext hwaiting hlater).of_nobody (fun v hv => ?_) rfl
          exact decide_eq_false (hsound.ne_of_waiting hmem (hahead v hv)).symm
      | @gaveUp l v hmem =>
          have hnames := hsound.waiting_names
          rw [hwaiting] at hmem hnames
          have hvw : v ≠ w := by
            rintro rfl
            simp at hi
          -- only a consumer that stood ahead of `w` brings it forward by giving up
          rcases List.mem_append.mp hmem with hv | hv
          · obtain ⟨before, after, rfl⟩ := List.append_of_mem hv
            rw [List.append_assoc, List.cons_append] at hwaiting hnames
            have hwaiting' : l.waiting.filter (·.consumer ≠ v.consumer) =
                (before ++ after) ++ w :: behind := by
              rw [hwaiting, filter_ne_middle hnames, List.append_assoc]
            refine (ih hnext hwaiting' hlater).of_one (fun u hu => ?_) (by simp [deserts])
            refine decide_eq_false (ne_of_nodup_middle hnames ?_)
            rw [← List.append_assoc]
            exact List.mem_append_left _ hu
          · have hv := (List.mem_cons.mp hv).resolve_left hvw
            obtain ⟨before, after, rfl⟩ := List.append_of_mem hv
            rw [← List.cons_append, ← List.append_assoc] at hwaiting hnames
            have hwaiting' : l.waiting.filter (·.consumer ≠ v.consumer) =
                ahead ++ w :: (before ++ after) := by
              rw [hwaiting, filter_ne_middle hnames, List.append_assoc, List.cons_append]
            refine (ih hnext hwaiting' hlater).of_nobody (fun u hu => ?_) rfl
            refine decide_eq_false (ne_of_nodup_middle hnames ?_)
            simp [hu]

/-- Whoever is served while `w` stays in the line was there before `w` and has been all along. When
`w` itself is served, nobody is left ahead of it. -/
theorem Path.served_in_order {past rest : List (Incident α)} {d : Consumer} {item : α}
    (h : Path l (past ++ .handed d item :: rest) l') (hsound : l.Sound)
    (hwaiting : l.waiting = ahead ++ w :: behind)
    (hquiet : ∀ i ∈ past, i.concerns w.consumer = false) :
    (d ≠ w.consumer → ∀ i ∈ past, i.concerns d = false) ∧
      (d = w.consumer → (newItems past).length + ahead.countP (fun v => deserts v.consumer past) =
        ahead.length) := by
  obtain ⟨l₁, hpast, hrest⟩ := h.exists_of_append
  obtain ⟨ahead', behind', hline, hstill, hcount⟩ := hpast.remains hsound hwaiting hquiet
  have hnames := (hpast.sound hsound).waiting_names
  cases hrest with
  | cons hhanded _ =>
      cases hhanded with
      | @handed items waiting served v item =>
          rw [hline] at hnames
          cases ahead' with
          | nil =>
              obtain ⟨rfl, -⟩ := List.cons.inj hline
              exact ⟨fun hne => absurd rfl hne, fun _ => hcount⟩
          | cons u ahead' =>
              obtain ⟨rfl, -⟩ := List.cons.inj hline
              refine ⟨fun _ => (hstill v List.mem_cons_self).2, fun heq => ?_⟩
              rw [List.cons_append, List.map_cons, List.nodup_cons, heq] at hnames
              exact absurd (List.mem_map_of_mem (by simp)) hnames.1

end Ledger

namespace Handoff

variable {h : Handoff α} {c : Consumer} {clock : Clock} {refusing : Bool} {limit : Option Time}

theorem turn_start_asleep {removal : Removal}
    (hasleep : ((h.turn (.start c removal) clock).entry refusing).reply = .asleep limit) :
    ∃ patience, (h.turn (.start c removal) clock).queue = h.join { consumer := c, patience } ∧
      (removal = .take → patience = .endless h.waiting.length) := by
  have hconsumes := h.consumes_start c removal clock
  generalize h.turn (.start c removal) clock = t at hconsumes hasleep ⊢
  cases hconsumes with
  | busy => cases refusing <;> cases hasleep
  | started hnew hstarts =>
      cases hstarts with
      | popped | late | gaveUp => cases refusing <;> cases hasleep
      | asleep hitems hpatience => exact ⟨_, rfl, hpatience⟩

theorem turn_wake_event {w : Waiter} {item : α} {ahead : Nat} (hsound : h.ledger.Sound)
    (hinside : w ∈ h.inside) (hpatience : w.patience = .endless ahead) {v : Waiter}
    (hserved : (v, item) ∈ h.served) (hname : v.consumer = w.consumer) :
    ((h.turn (.wake w.consumer) clock).entry refusing).event? =
      some (.collectedBehind 0 ahead) := by
  obtain rfl : v = w := by
    refine List.inj_on_of_nodup_map hsound.names ?_ hinside hname
    exact List.mem_append_left _ (List.mem_map_of_mem hserved)
  rw [turn_wake_of_served clock hsound hserved, Turn.event?_entry fun _ hreply => by cases hreply]
  simp only [Waiter.collection, hpatience, Patience.collection]

end Handoff

end FairQueue
