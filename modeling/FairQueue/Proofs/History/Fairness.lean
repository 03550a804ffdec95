import FairQueue.Proofs.History.Rank

/-!
Fair service as a session shows it: a consumer that falls asleep in the line is served in its turn,
and in the end it reports how many stood ahead of it.
-/

namespace FairQueue.Session

variable {α : Type} {s s' s₁ s₂ : Session α} {h h' : Handoff α} {step : Step α} {c : Consumer}

theorem Represents.exists_joined {steps : List (Step α)} {removal : Removal} {limit : Option Time}
    (hrepresents : s.Represents h) (hcount : Handoff.CountFits (some h) (step :: steps))
    (hstep : (s.step step).1 = some s') (haction : step.action = .start c removal)
    (hasleep : (s.step step).2.reply = .asleep limit) :
    ∃ h' patience, s'.Represents h' ∧ Handoff.CountFits (some h') steps ∧
      h'.waiting = h.waiting ++ [{ consumer := c, patience }] ∧
      (removal = .take → patience = .endless h.waiting.length) := by
  obtain ⟨hrepresents', hentry, hcount'⟩ := hrepresents.turn_of_step hcount hstep
  have hreply := congrArg Entry.reply hentry
  rw [haction] at hreply hrepresents' hcount'
  simp only [Entry.anonymous, hasleep] at hreply
  obtain ⟨patience, hjoined, hpatience⟩ := Handoff.turn_start_asleep hreply.symm
  refine ⟨_, patience, hrepresents', hcount', ?_, hpatience⟩
  rw [hjoined]
  rfl

theorem Represents.exists_report {steps later : List (Step α)} {w : Waiter} {ahead : Nat} {item : α}
    (hrepresents : s.Represents h) (hcount : Handoff.CountFits (some h) (steps ++ step :: later))
    (hinside : w ∈ h.inside) (hpatience : w.patience = .endless ahead)
    (hends : ∀ i ∈ s.history steps, i.ends w.consumer = false)
    (hlast : (run (some s) steps).1 = some s') (haction : step.action = .wake w.consumer)
    (hheld : s'.held? w.consumer = some item) :
    ∃ slot, (s'.step step).2.event? = some (.collectedBehind slot ahead) := by
  obtain ⟨hfits, hrest⟩ := hcount.of_append
  obtain ⟨h', hh', hrepresents'⟩ := exists_represents hrepresents hfits hlast
  rw [hh'] at hrest
  have hinside' : w ∈ h'.inside :=
    (hrepresents.path_history hfits hh').mem_inside hinside hends
  obtain ⟨v, hname, hserved⟩ := hrepresents'.exists_served hheld
  have hentry := (step_represents hrepresents' hrest.of_cons.1).1
  rw [Handoff.step_of_open (fun hclose => by simp [haction] at hclose), haction] at hentry
  have hevent := congrArg Entry.event? hentry
  rw [Entry.event?_anonymous,
    Handoff.turn_wake_event hrepresents'.sound hinside' hpatience hserved hname] at hevent
  obtain ⟨event, hreported, hanonymous⟩ := Option.map_eq_some_iff.mp hevent
  rw [hreported]
  cases event <;> simp [Event.anonymous] at hanonymous ⊢
  exact hanonymous

/-- Let `c` fall asleep in the line behind `n` others. While it stays there nobody who joins later
is served. If `c` is served, the new items up to its own are `n + 1`, less one for each of these
others that gave up in the line. Whoever joins later gets a later item, and without a deadline `c`
reports `n`. -/
theorem run_serves_in_turn {opening : Opening} {before after : List (Step α)} {removal : Removal}
    {limit : Option Time} (hopen : open? opening = some s)
    (hcount : Handoff.CountFits (some Handoff.empty) (before ++ step :: after))
    (hbefore : (run (some s) before).1 = some s₁) (haction : step.action = .start c removal)
    (hstep : (s₁.step step).1 = some s₂) (hasleep : (s₁.step step).2.reply = .asleep limit) :
    s₂.parked = s₁.parked ++ [c] ∧ s₁.parked.length = s₁.queue.line.size ∧
      (∀ s₃, (run (some s₂) after).1 = some s₃ →
        Incident.newItems (s₂.history after) = after.flatMap (·.action.offered)) ∧
      (∀ past d item rest, s₂.history after = past ++ .handed d item :: rest →
        (∀ i ∈ past, i.concerns c = false) → .joined d ∉ past) ∧
      (∀ past item rest, s₂.history after = past ++ .handed c item :: rest →
        (∀ i ∈ past, i.concerns c = false) →
        (Incident.newItems (past ++ [.handed c item])).length +
          s₁.parked.countP (fun d => Incident.deserts d past) = s₁.queue.line.size + 1) ∧
      (∀ past item rest past' d item' rest', s₂.history after = past ++ .handed c item :: rest →
        (∀ i ∈ past, i.concerns c = false) →
        s₂.history after = past' ++ .handed d item' :: rest' → .joined d ∈ past' →
        (Incident.newItems past).length < (Incident.newItems past').length) ∧
      (removal = .take → ∀ steps wake later s₃ item, after = steps ++ wake :: later →
        wake.action = .wake c → (∀ i ∈ s₂.history steps, i.ends c = false) →
        (run (some s₂) steps).1 = some s₃ → s₃.held? c = some item →
        ∃ slot, (s₃.step wake).2.event? = some (.collectedBehind slot s₁.queue.line.size)) := by
  obtain ⟨rfl, -⟩ := open?_eq_some_iff.mp hopen
  obtain ⟨hfits, hrest⟩ := hcount.of_append
  obtain ⟨h₁, hh₁, hrepresents₁⟩ := exists_represents represents_empty hfits hbefore
  rw [hh₁] at hrest
  obtain ⟨h₂, patience, hrepresents₂, hfits₂, hwaiting, hpatience⟩ :=
    hrepresents₁.exists_joined hrest hstep haction hasleep
  obtain ⟨l, hpath, -⟩ := hrepresents₂.exists_path hfits₂
  have hsize := hrepresents₁.size_eq
  have hparked := hrepresents₁.parked_eq
  have hserved : ∀ {past d item rest}, s₂.history after = past ++ .handed d item :: rest →
      (∀ i ∈ past, i.concerns c = false) → _ := fun {past d item rest} hsplit hquiet =>
    (hsplit ▸ hpath).served_in_order (w := { consumer := c, patience }) hrepresents₂.sound hwaiting
      hquiet
  have hlater : ∀ past d item rest, s₂.history after = past ++ .handed d item :: rest →
      (∀ i ∈ past, i.concerns c = false) → .joined d ∉ past := by
    intro past d item rest hsplit hquiet hjoined
    by_cases hd : d = c
    · simpa [hd] using hquiet _ hjoined
    · simpa using (hserved hsplit hquiet).1 hd _ hjoined
  refine ⟨?_, ?_, fun s₃ hlast => hrepresents₂.newItems_history hfits₂ hlast, hlater, ?_, ?_, ?_⟩
  · rw [hparked, hrepresents₂.parked_eq, hwaiting, List.map_append]
    rfl
  · rw [hparked, hsize, List.length_map]
  · intro past item rest hsplit hquiet
    have hrank := (hserved hsplit hquiet).2 rfl
    rw [hparked, hsize, List.countP_map, ← hrank]
    simp [Function.comp_def]
    omega
  · intro past item rest past' d item' rest' hsplit hquiet hsplit' hjoined
    exact Incident.newItems_length_lt (hsplit.symm.trans hsplit') rfl hquiet
      fun hquiet' => hlater past' d item' rest' hsplit' hquiet' hjoined
  · rintro htake steps wake later s₃ item rfl hwake hends hlast hheld
    have hinside : { consumer := c, patience } ∈ h₂.inside := by
      rw [Handoff.inside, hwaiting]
      simp
    rw [hsize]
    exact hrepresents₂.exists_report hfits₂ hinside (hpatience htake) hends hlast hwake hheld

/-- The one ahead gives up, so the first new item goes to the second. -/
theorem run_serves_in_turn_after_timeout :
    let first := ((ofQueue Queue.empty : Session Nat).act
      (.start 1 (.takeUntil { secs := 5, nanos := 0 })) []).1
    (Incident.newItems ([.gaveUp 1] ++ [.handed 2 (7 : Nat)])).length +
        first.parked.countP (fun d => Incident.deserts d [(.gaveUp 1 : Incident Nat)]) =
      first.queue.line.size + 1 := by
  intro first
  let second := (first.act (.start 2 .take) []).1
  have hcount : Handoff.CountFits (some Handoff.empty)
      ([⟨.start 1 (.takeUntil { secs := 5, nanos := 0 }), false, []⟩] ++
        ⟨.start 2 .take, false, []⟩ :: ([⟨.advance { secs := 5, nanos := 0 }, false, []⟩,
          ⟨.wake 1, true, []⟩, ⟨.put 7, false, []⟩] : List (Step Nat))) := by decide
  have hbefore : (run (open? .plain)
      [⟨.start 1 (.takeUntil { secs := 5, nanos := 0 }), false, []⟩]).1 = some first := by decide
  have hstep : (first.step ⟨.start 2 .take, false, []⟩).1 = some second := by decide
  have hasleep : (first.step ⟨.start 2 .take, false, []⟩).2.reply = .asleep none := by decide
  exact (run_serves_in_turn (show open? .plain = some _ from rfl) hcount hbefore rfl hstep
    hasleep).2.2.2.2.1 [.gaveUp 1] 7 [] (by decide) (by decide)

end FairQueue.Session
