import FairQueue.Proofs.Line.Misuse
import FairQueue.Proofs.Line.Renumbering

/-!
The links of a line, followed one by one. From the front they lead through all waiting slots to the
back, from the back through the same slots to the front, and from the slot released last through all
vacant ones. Every operation keeps it so, in every state of the slots in which it is so, whatever
their bells are and wherever in the line the slot concerned stands.
-/

namespace FairQueue

variable {α : Type}

namespace Occupancy

/-- The link from a waiting slot to the one behind it. -/
def behind? : Occupancy α → Option (Option Nat)
  | waiting _ behind => some behind
  | _ => none

/-- The link from a waiting slot to the one ahead of it. -/
def ahead? : Occupancy α → Option (Option Nat)
  | waiting ahead _ => some ahead
  | _ => none

/-- The link from a vacant slot to the one below it. -/
def below? : Occupancy α → Option (Option Nat)
  | vacant next => some next
  | _ => none

end Occupancy

namespace Line

/-- Who follows the links from `start` comes by the slots `is`, in this order, and is then led to
`stop`. -/
def Visits (l : Line α) (link : Occupancy α → Option (Option Nat)) :
    Option Nat → List Nat → Option Nat → Prop
  | start, [], stop => start = stop
  | start, i :: is, stop =>
      start = some i ∧ ∃ next, (l.occupancy? i).bind link = some next ∧ l.Visits link next is stop

/-- The waiting slots are `is`, from the front to the back, and the vacant ones are `js`, from the
one released last: this is what the links between them, the ends of the line and its size say. -/
structure Threaded (l : Line α) (is js : List Nat) : Prop where
  forward : l.Visits Occupancy.behind? l.front is none
  front_none_iff : l.front = none ↔ l.size = 0
  back_none_iff : l.back = none ↔ l.size = 0
  ends_at_back : is.getLast? = l.back
  backward : l.Visits Occupancy.ahead? l.back is.reverse none
  nobody_ahead : ∀ i, l.front = some i → (l.occupancy? i).bind Occupancy.ahead? = some none
  nobody_behind : ∀ i, l.back = some i → (l.occupancy? i).bind Occupancy.behind? = some none
  downward : l.Visits Occupancy.below? l.vacancy js none
  waiting_nodup : is.Nodup
  vacant_nodup : js.Nodup
  disjoint : is.Disjoint js
  waiting_iff : ∀ i, i ∈ is ↔ ∃ ahead behind, l.occupancy? i = some (.waiting ahead behind)
  vacant_iff : ∀ i, i ∈ js ↔ ∃ next, l.occupancy? i = some (.vacant next)
  served_iff : ∀ i, (i < l.slots.size ∧ i ∉ is ∧ i ∉ js) ↔
    ∃ item, l.occupancy? i = some (.served item)
  size : l.size = is.length

variable {l l' : Line α} {link : Occupancy α → Option (Option Nat)} {is js : List Nat}
  {start stop ahead behind : Option Nat} {r : Roster α} {i : Nat} {item : α}

theorem visits_append :
    l.Visits link start (is ++ js) stop ↔
      ∃ middle, l.Visits link start is middle ∧ l.Visits link middle js stop := by
  induction is generalizing start with
  | nil => simp [Visits]
  | cons i is ih =>
      simp only [List.cons_append, Visits, ih]
      constructor
      · rintro ⟨hstart, next, hnext, middle, his, hjs⟩
        exact ⟨middle, ⟨hstart, next, hnext, his⟩, hjs⟩
      · rintro ⟨middle, ⟨hstart, next, hnext, his⟩, hjs⟩
        exact ⟨hstart, next, hnext, middle, his, hjs⟩

theorem visits_singleton :
    l.Visits link start [i] stop ↔ start = some i ∧ (l.occupancy? i).bind link = some stop := by
  simp [Visits]

theorem Visits.start_eq (h : l.Visits link start is stop) : start = is.head?.or stop := by
  cases is with
  | nil => exact h
  | cons i is => exact h.1

theorem Visits.congr (h : l.Visits link start is stop)
    (hsame : ∀ i ∈ is, l'.occupancy? i = l.occupancy? i) : l'.Visits link start is stop := by
  induction is generalizing start with
  | nil => exact h
  | cons i is ih =>
      obtain ⟨hstart, next, hnext, hrest⟩ := h
      refine ⟨hstart, next, (hsame i (by simp)).symm ▸ hnext, ih hrest ?_⟩
      exact fun j hj => hsame j (by simp [hj])

/-- Neighbours are linked in both directions just if the same slots are come by in both. -/
theorem linked_iff_visits :
    l.Linked ahead is behind ↔
      l.Visits Occupancy.behind? (is.head?.or behind) is behind ∧
        l.Visits Occupancy.ahead? (is.getLast?.or ahead) is.reverse ahead := by
  induction is generalizing ahead with
  | nil => simp [Linked, Visits]
  | cons i is ih =>
      have hlast : (i :: is).getLast?.or ahead = is.getLast?.or (some i) := by
        cases hlast : is.getLast? <;> simp [List.getLast?_cons, hlast]
      rw [Linked, ih, hlast, List.reverse_cons, visits_append]
      constructor
      · rintro ⟨hi, hforward, hbackward⟩
        refine ⟨⟨rfl, _, by rw [hi]; rfl, hforward⟩, some i, hbackward, ?_⟩
        exact visits_singleton.mpr ⟨rfl, by rw [hi]; rfl⟩
      · rintro ⟨⟨-, next, hnext, hforward⟩, middle, hbackward, hfirst⟩
        obtain ⟨rfl, hahead⟩ := visits_singleton.mp hfirst
        obtain rfl := hforward.start_eq
        refine ⟨?_, hforward, hbackward⟩
        cases hoccupancy : l.occupancy? i with
        | none => simp [hoccupancy] at hnext
        | some o =>
            cases o with
            | vacant next | served item => simp [hoccupancy, Occupancy.behind?] at hnext
            | waiting a b =>
                simp only [hoccupancy, Option.bind_some, Occupancy.behind?, Occupancy.ahead?,
                  Option.some.injEq] at hnext hahead
                rw [hnext, hahead]

theorem chained_iff_visits : l.Chained is ↔ l.Visits Occupancy.below? is.head? is none := by
  induction is with
  | nil => simp [Chained, Visits]
  | cons i is ih =>
      rw [Chained, ih]
      constructor
      · rintro ⟨hi, hrest⟩
        exact ⟨rfl, _, by rw [hi]; rfl, hrest⟩
      · rintro ⟨-, next, hnext, hrest⟩
        have hhead : next = is.head? := by simpa using hrest.start_eq
        subst hhead
        refine ⟨?_, hrest⟩
        cases hoccupancy : l.occupancy? i with
        | none => simp [hoccupancy] at hnext
        | some o =>
            cases o with
            | waiting a b | served item => simp [hoccupancy, Occupancy.below?] at hnext
            | vacant below =>
                simp only [hoccupancy, Option.bind_some, Occupancy.below?,
                  Option.some.injEq] at hnext
                rw [hnext]

namespace Layout

theorem occupancy_cases (h : l.Layout r none) {o : Occupancy α} (hi : l.occupancy? i = some o) :
    (i ∈ r.waiting ∧ ∃ ahead behind, o = .waiting ahead behind) ∨
      (i ∈ r.vacant ∧ ∃ next, o = .vacant next) ∨
        ∃ item, r.served i = some item ∧ o = .served item := by
  rcases h.used i (h.made ▸ lt_size_of_occupancy? hi) with hwaiting | hvacant | hserved | hloose
  · obtain ⟨ahead, behind, hoccupancy⟩ := h.linked.occupancy_of_mem hwaiting
    exact .inl ⟨hwaiting, ahead, behind, Option.some.inj (hi.symm.trans hoccupancy)⟩
  · obtain ⟨next, hoccupancy⟩ := h.chained.occupancy_of_mem hvacant
    exact .inr (.inl ⟨hvacant, next, Option.some.inj (hi.symm.trans hoccupancy)⟩)
  · obtain ⟨item, hitem⟩ := Option.isSome_iff_exists.mp hserved
    have hoccupancy := h.served i item hitem
    exact .inr (.inr ⟨item, hitem, Option.some.inj (hi.symm.trans hoccupancy)⟩)
  · cases hloose

theorem mem_waiting_iff (h : l.Layout r none) :
    i ∈ r.waiting ↔ ∃ ahead behind, l.occupancy? i = some (.waiting ahead behind) := by
  refine ⟨h.linked.occupancy_of_mem, fun ⟨ahead, behind, hi⟩ => ?_⟩
  rcases h.occupancy_cases hi with ⟨hwaiting, -⟩ | ⟨-, next, ho⟩ | ⟨item, -, ho⟩
  · exact hwaiting
  · cases ho
  · cases ho

theorem mem_vacant_iff (h : l.Layout r none) :
    i ∈ r.vacant ↔ ∃ next, l.occupancy? i = some (.vacant next) := by
  refine ⟨h.chained.occupancy_of_mem, fun ⟨next, hi⟩ => ?_⟩
  rcases h.occupancy_cases hi with ⟨-, ahead, behind, ho⟩ | ⟨hvacant, -⟩ | ⟨item, -, ho⟩
  · cases ho
  · exact hvacant
  · cases ho

/-- A slot that is on neither chain is a served one. -/
theorem served_iff (h : l.Layout r none) :
    (i < l.slots.size ∧ i ∉ r.waiting ∧ i ∉ r.vacant) ↔
      ∃ item, l.occupancy? i = some (.served item) := by
  constructor
  · rintro ⟨hlt, hwaiting, hvacant⟩
    obtain ⟨o, hi⟩ := Option.isSome_iff_exists.mp (lt_size_iff.mp hlt)
    rcases h.occupancy_cases hi with ⟨hmem, -⟩ | ⟨hmem, -⟩ | ⟨item, -, ho⟩
    · exact absurd hmem hwaiting
    · exact absurd hmem hvacant
    · exact ⟨item, ho ▸ hi⟩
  · rintro ⟨item, hi⟩
    refine ⟨lt_size_of_occupancy? hi, ?_, ?_⟩
    · simp [h.mem_waiting_iff, hi]
    · simp [h.mem_vacant_iff, hi]

/-- The threads of a line that is laid out as a roster. -/
theorem threaded (h : l.Layout r none) : l.Threaded r.waiting r.vacant := by
  obtain ⟨hforward, hbackward⟩ := linked_iff_visits.mp h.linked
  have hdownward := chained_iff_visits.mp h.chained
  rw [Option.or_none] at hforward hbackward
  refine
    { forward := h.front ▸ hforward
      front_none_iff := by rw [h.front, h.size, List.head?_eq_none_iff, List.length_eq_zero_iff]
      back_none_iff := by rw [h.back, h.size, List.getLast?_eq_none_iff, List.length_eq_zero_iff]
      ends_at_back := h.back.symm
      backward := h.back ▸ hbackward
      nobody_ahead := fun i hi => ?_
      nobody_behind := fun i hi => ?_
      downward := h.vacancy ▸ hdownward
      waiting_nodup := h.waiting_nodup
      vacant_nodup := h.vacant_nodup
      disjoint := fun i hi hvacant => h.not_vacant_of_waiting hi hvacant
      waiting_iff := fun i => h.mem_waiting_iff
      vacant_iff := fun i => h.mem_vacant_iff
      served_iff := fun i => h.served_iff
      size := h.size }
  · obtain ⟨is, hsplit⟩ := List.head?_eq_some_iff.mp (h.front.symm.trans hi)
    obtain ⟨hfirst, -⟩ : l.Linked none (i :: is) none := hsplit ▸ h.linked
    rw [hfirst]
    rfl
  · obtain ⟨is, hsplit⟩ := List.getLast?_eq_some_iff.mp (h.back.symm.trans hi)
    obtain ⟨-, hlast, -⟩ := linked_append.mp (hsplit ▸ h.linked)
    rw [hlast]
    rfl

end Layout

/-- The roster of a line whose threads are known. -/
def roster (l : Line α) (is js : List Nat) : Roster α where
  made := l.slots.size
  waiting := is
  served := fun i => (l.occupancy? i).bind Occupancy.item?
  vacant := js

theorem served_roster_eq_some_iff :
    (l.roster is js).served i = some item ↔ l.occupancy? i = some (.served item) := by
  simp only [roster]
  cases l.occupancy? i with
  | none => simp
  | some o => cases o <;> simp [Occupancy.item?]

namespace Threaded

variable {requests : List (Request α)} {request : Request α}

theorem empty : (empty : Line α).Threaded [] [] :=
  layout_empty.threaded

theorem of_renumbered (h : l.renumbered.Threaded is js) : l.Threaded is js where
  forward := h.forward.congr fun i _ => (occupancy?_renumbered l i).symm
  front_none_iff := h.front_none_iff
  back_none_iff := h.back_none_iff
  ends_at_back := h.ends_at_back
  backward := h.backward.congr fun i _ => (occupancy?_renumbered l i).symm
  nobody_ahead := by simpa using h.nobody_ahead
  nobody_behind := by simpa using h.nobody_behind
  downward := h.downward.congr fun i _ => (occupancy?_renumbered l i).symm
  waiting_nodup := h.waiting_nodup
  vacant_nodup := h.vacant_nodup
  disjoint := h.disjoint
  waiting_iff := by simpa using h.waiting_iff
  vacant_iff := by simpa using h.vacant_iff
  served_iff := by simpa using h.served_iff
  size := h.size

/-- Bells apart, a line is laid out as its threads say. -/
theorem layout (h : l.Threaded is js) : l.renumbered.Layout (l.roster is js) none where
  made := size_slots_renumbered l
  bell i hi := bell?_renumbered l i hi
  linked := by
    have hfront : l.front = is.head?.or none := h.forward.start_eq
    have hlinked : l.Linked none is none := by
      refine linked_iff_visits.mpr ⟨hfront ▸ h.forward, ?_⟩
      rw [Option.or_none, h.ends_at_back]
      exact h.backward
    exact hlinked.congr fun i _ => occupancy?_renumbered l i
  chained := by
    have hvacancy : l.vacancy = js.head? := by simpa using h.downward.start_eq
    have hchained : l.Chained js := chained_iff_visits.mpr (hvacancy ▸ h.downward)
    exact hchained.congr fun i _ => occupancy?_renumbered l i
  served i item hi := by
    rw [occupancy?_renumbered]
    exact served_roster_eq_some_iff.mp hi
  used i hi := by
    by_cases hwaiting : i ∈ is
    · exact .inl hwaiting
    · by_cases hvacant : i ∈ js
      · exact .inr (.inl hvacant)
      · obtain ⟨item, hserved⟩ := (h.served_iff i).mp ⟨hi, hwaiting, hvacant⟩
        rw [← served_roster_eq_some_iff] at hserved
        exact .inr (.inr (.inl (by rw [hserved]; rfl)))
  unused i hi := by cases hi
  waiting_nodup := h.waiting_nodup
  vacant_nodup := h.vacant_nodup
  front := by simpa [roster] using h.forward.start_eq
  back := h.ends_at_back.symm
  vacancy := by simpa [roster] using h.downward.start_eq
  size := h.size

/-- A request about a slot in use is answered, and the threads change as the roster does. -/
theorem exists_perform (h : l.Threaded is js) (request : Request α)
    (huses : ∀ i ∈ request.slot?, (l.roster is js).Uses i) :
    ∃ reply l', l.perform request = .ok (reply, l') ∧
      reply.renumbered = ((l.roster is js).perform request).1 ∧
      l'.Threaded ((l.roster is js).perform request).2.waiting
        ((l.roster is js).perform request).2.vacant := by
  obtain ⟨l₁, hperform, hlayout⟩ := h.layout.exists_perform huses
  rw [perform_renumbered] at hperform
  cases hresult : l.perform request with
  | error fault => simp [hresult, Except.map] at hperform
  | ok answer =>
      obtain ⟨reply, l'⟩ := answer
      simp only [hresult, Except.map, Except.ok.injEq, Prod.mk.injEq] at hperform
      obtain ⟨hreply, rfl⟩ := hperform
      exact ⟨reply, l', rfl, hreply, hlayout.threaded.of_renumbered⟩

/-- Only requests about slots in use are answered. -/
theorem uses_of_perform (h : l.Threaded is js) {reply : Reply α}
    (hperform : l.perform request = .ok (reply, l')) :
    ∀ i ∈ request.slot?, (l.roster is js).Uses i := by
  have hrenumbered : l.renumbered.perform request = .ok (reply.renumbered, l'.renumbered) := by
    rw [perform_renumbered, hperform]
    rfl
  exact h.layout.uses_of_perform hrenumbered

theorem exists_join (h : l.Threaded is js) :
    ∃ place l', l.perform .join = .ok (.joined place, l') ∧
      l'.Threaded (is ++ [place.slot]) js.tail := by
  obtain ⟨reply, l', hperform, hreply, hthreaded⟩ := h.exists_perform .join nofun
  rw [h.layout.perform_join] at hreply hthreaded
  cases reply with
  | joined place =>
      have hslot : place.slot = (l.roster is js).next :=
        congrArg Place.slot (Reply.joined.inj hreply)
      refine ⟨place, l', hperform, ?_⟩
      rw [hslot]
      exact hthreaded
  | served place | unserved item | delivered item => cases hreply

theorem exists_serve (h : l.Threaded is js) (item : α) :
    ∃ reply l', l.perform (.serve item) = .ok (reply, l') ∧ l'.Threaded is.tail js := by
  obtain ⟨reply, l', hperform, -, hthreaded⟩ := h.exists_perform (.serve item) nofun
  refine ⟨reply, l', hperform, ?_⟩
  cases is with
  | nil | cons i is => exact hthreaded

/-- A request about a slot in use that the roster answers with an item, or with none. -/
theorem exists_deliver (h : l.Threaded is js) (hslot : request.slot? = some i)
    (huses : (l.roster is js).Uses i) {item? : Option α}
    (hroster : (l.roster is js).perform request = (.delivered item?, r)) :
    ∃ l', l.perform request = .ok (.delivered item?, l') ∧ l'.Threaded r.waiting r.vacant := by
  have hall : ∀ j ∈ request.slot?, (l.roster is js).Uses j := by
    rw [hslot]
    rintro j ⟨⟩
    exact huses
  obtain ⟨reply, l', hperform, hreply, hthreaded⟩ := h.exists_perform request hall
  rw [hroster] at hreply hthreaded
  exact ⟨l', Reply.eq_delivered_of_renumbered hreply ▸ hperform, hthreaded⟩

theorem served_eq_none (h : l.Threaded is js) (hi : i ∈ is) :
    (l.roster is js).served i = none :=
  h.layout.served_of_waiting hi

theorem exists_collect (h : l.Threaded is js) (hi : i ∈ is) :
    ∃ l', l.perform (.collect i) = .ok (.delivered none, l') ∧ l'.Threaded is js := by
  have hroster : (l.roster is js).perform (.collect i) = (.delivered none, l.roster is js) := by
    simp only [Roster.perform, h.served_eq_none hi]
  exact h.exists_deliver rfl (.inl hi) hroster

/-- Whoever leaves the line joins the ones ahead and behind, wherever it stands. -/
theorem exists_leave {xs ys : List Nat} (h : l.Threaded (xs ++ i :: ys) js) :
    ∃ l', l.perform (.leave i) = .ok (.delivered none, l') ∧
      l'.Threaded (xs ++ ys) (i :: js) := by
  have hi : i ∈ xs ++ i :: ys := by simp
  have hnot : i ∉ xs := fun hmem =>
    (List.nodup_append.mp h.waiting_nodup).2.2 i hmem i (by simp) rfl
  have herase : (xs ++ i :: ys).erase i = xs ++ ys := by
    simp [List.erase_append_right _ hnot]
  have hroster := Roster.perform_leave_of_unserved (h.served_eq_none hi)
  rw [← herase]
  exact h.exists_deliver rfl (.inl hi) hroster

theorem exists_yield (h : l.Threaded is js) (hi : l.occupancy? i = some (.served item)) :
    ∀ request ∈ [Request.collect i, .leave i],
      ∃ l', l.perform request = .ok (.delivered (some item), l') ∧ l'.Threaded is (i :: js) := by
  have hserved : (l.roster is js).served i = some item := served_roster_eq_some_iff.mpr hi
  have huses : (l.roster is js).Uses i := .inr (by rw [hserved]; rfl)
  intro request hrequest
  rcases List.mem_pair.mp hrequest with rfl | rfl
  · exact h.exists_deliver rfl huses (Roster.perform_collect_of_served hserved)
  · have hroster := Roster.perform_leave_of_served hserved
    exact h.exists_deliver rfl huses (hroster.trans (Roster.perform_collect_of_served hserved))

/-- Nobody holds the slot: the request is refused. -/
theorem exists_fault (h : l.Threaded is js) (hi : i ∈ js ∨ l.slots.size ≤ i) :
    ∀ request ∈ [Request.collect i, .leave i],
      ∃ fault, l.perform request = .error fault := by
  intro request hrequest
  have hslot : request.slot? = some i := by
    rcases List.mem_pair.mp hrequest with rfl | rfl <;> rfl
  obtain ⟨fault, hfault⟩ : ∃ fault, l.renumbered.perform request = .error fault := by
    rcases hi with hvacant | hunmade
    · exact ⟨_, h.layout.perform_vacant hslot hvacant⟩
    · exact ⟨_, h.layout.perform_unmade hslot hunmade⟩
  rw [perform_renumbered] at hfault
  cases hresult : l.perform request with
  | error fault => exact ⟨fault, rfl⟩
  | ok answer => simp [hresult, Except.map] at hfault

theorem of_run {replies : List (Reply α)} (h : l.Threaded is js)
    (hrun : l.run requests = .ok (replies, l')) : ∃ is' js', l'.Threaded is' js' := by
  induction requests generalizing l is js replies with
  | nil =>
      cases hrun
      exact ⟨is, js, h⟩
  | cons request requests ih =>
      obtain ⟨reply, l₁, rest, hperform, hrest, -⟩ := exists_of_run_cons hrun
      obtain ⟨reply', l₁', hperform', -, hthreaded⟩ :=
        h.exists_perform request (h.uses_of_perform hperform)
      obtain ⟨-, rfl⟩ := Prod.mk.inj (Except.ok.inj (hperform'.symm.trans hperform))
      exact ih hthreaded hrest

end Threaded

/-- The threads of a line are never torn. After any requests that an empty line answers, the links
lead through all waiting slots once, from the front to the back and from the back to the front, and
through all vacant ones once, and every slot is either on the one chain, or on the other, or keeps
an item. So it stays from any state in which it is so: a newcomer goes to the back and takes the
vacant slot on top, if there is one; whoever is served leaves the front; whoever leaves is taken out
from wherever it stands, and its slot goes on top of the vacant ones, as it does when an item is
handed out; and a request about a slot that nobody holds is refused. -/
theorem run_keeps_threads :
    (∀ (requests : List (Request α)) (replies : List (Reply α)) (l : Line α),
      empty.run requests = .ok (replies, l) → ∃ is js, l.Threaded is js) ∧
    ∀ (l : Line α) (is js : List Nat), l.Threaded is js →
      (∃ place l', l.perform .join = .ok (.joined place, l') ∧
        l'.Threaded (is ++ [place.slot]) js.tail) ∧
      (∀ item, ∃ reply l', l.perform (.serve item) = .ok (reply, l') ∧
        l'.Threaded is.tail js) ∧
      (∀ xs i ys, is = xs ++ i :: ys →
        (∃ l', l.perform (.collect i) = .ok (.delivered none, l') ∧ l'.Threaded is js) ∧
          ∃ l', l.perform (.leave i) = .ok (.delivered none, l') ∧
            l'.Threaded (xs ++ ys) (i :: js)) ∧
      (∀ i item, l.occupancy? i = some (.served item) →
        ∀ request ∈ [Request.collect i, .leave i],
          ∃ l', l.perform request = .ok (.delivered (some item), l') ∧
            l'.Threaded is (i :: js)) ∧
      ∀ i, i ∈ js ∨ l.slots.size ≤ i → ∀ request ∈ [Request.collect i, .leave i],
        ∃ fault, l.perform request = .error fault := by
  constructor
  · intro requests replies l hrun
    exact Threaded.empty.of_run hrun
  · intro l is js h
    refine ⟨h.exists_join, h.exists_serve, ?_, ?_, fun i => h.exists_fault⟩
    · rintro xs i ys rfl
      exact ⟨h.exists_collect (by simp), h.exists_leave⟩
    · intro i item
      exact h.exists_yield

/-- Three join, the one in the middle leaves, the oldest is served, and a newcomer takes the slot
that was left: it and those after it go to the back. -/
theorem run_keeps_threads_reused :
    ∃ replies l is js, (empty : Line Nat).run
        [.join, .join, .join, .leave 1, .serve 7, .join] = .ok (replies, l) ∧
      l.Threaded is js ∧
      ∃ place l', l.perform .join = .ok (.joined place, l') ∧
        l'.Threaded (is ++ [place.slot]) js.tail := by
  have hadmits : (Roster.empty : Roster Nat).Admits
      [.join, .join, .join, .leave 1, .serve 7, .join] := by decide
  obtain ⟨l, hrun, -⟩ := layout_empty.exists_run hadmits
  obtain ⟨hreached, hkept⟩ := run_keeps_threads (α := Nat)
  obtain ⟨is, js, hthreaded⟩ := hreached _ _ l hrun
  obtain ⟨hjoin, -⟩ := hkept l is js hthreaded
  exact ⟨_, l, is, js, hrun, hthreaded, hjoin⟩

end Line

end FairQueue
