import Mathlib.Algebra.GroupWithZero.Nat
import Mathlib.Data.List.Nodup
import Mathlib.Logic.Equiv.Basic

/-!
Lists whose members are told apart by a key, and what is left of a list that was zipped.
-/

namespace FairQueue

open scoped List

variable {β γ : Type} {l : List β}

section Keys

variable [DecidableEq γ] {f : β → γ} {x : β}

theorem filter_eq_singleton (hnodup : (l.map f).Nodup) (hx : x ∈ l) :
    l.filter (f · = f x) = [x] := by
  induction l with
  | nil => cases hx
  | cons y l ih =>
      obtain ⟨hy, hl⟩ := List.nodup_cons.mp hnodup
      rcases List.mem_cons.mp hx with rfl | hx
      · have hrest : l.filter (f · = f x) = [] := by
          refine List.filter_eq_nil_iff.mpr fun z hz hfz => hy ?_
          exact of_decide_eq_true hfz ▸ List.mem_map_of_mem hz
        simp [hrest]
      · have hne : f y ≠ f x := fun heq => hy (heq ▸ List.mem_map_of_mem hx)
        simp [hne, ih hl hx]

theorem find?_eq_some_of_nodup (hnodup : (l.map f).Nodup) (hx : x ∈ l) :
    l.find? (f · = f x) = some x := by
  rw [← List.head?_filter, filter_eq_singleton hnodup hx]
  rfl

theorem find?_filter_ne {a b : γ} (hne : a ≠ b) (l : List β) :
    (l.filter (f · ≠ a)).find? (f · = b) = l.find? (f · = b) := by
  rw [List.find?_filter]
  congr 1
  funext x
  by_cases hx : f x = b
  · simp [hx, hne.symm]
  · simp [hx]

theorem mem_map_iff_isSome_find? {c : γ} : c ∈ l.map f ↔ (l.find? (f · = c)).isSome := by
  simp

theorem filter_ne_eq_self {c : γ} (hc : c ∉ l.map f) : l.filter (f · ≠ c) = l := by
  refine List.filter_eq_self.mpr fun y hy => ?_
  exact decide_eq_true fun heq => hc (heq ▸ List.mem_map_of_mem hy)

theorem lookup_map_of_fst {δ : Type} {g : γ × β → γ × δ} (hg : ∀ y, (g y).1 = y.1)
    (l : List (γ × β)) (c : γ) : (l.map g).lookup c = (l.lookup c).map fun y => (g (c, y)).2 := by
  induction l with
  | nil => rfl
  | cons y l ih =>
      obtain ⟨d, y⟩ := y
      obtain ⟨z, hz⟩ : ∃ z, g (d, y) = (d, z) := ⟨_, Prod.ext (hg (d, y)) rfl⟩
      rw [List.map_cons, hz, List.lookup_cons, List.lookup_cons]
      by_cases hc : c = d
      · subst hc
        simp [hz]
      · rw [beq_false_of_ne hc]
        exact ih

theorem lookup_filter_ne {a b : γ} (hne : a ≠ b) (l : List (γ × β)) :
    (l.filter (·.1 ≠ a)).lookup b = l.lookup b := by
  induction l with
  | nil => rfl
  | cons y l ih =>
      obtain ⟨d, y⟩ := y
      by_cases hd : d = a
      · subst hd
        rw [List.filter_cons_of_neg (by simp), ih, List.lookup_cons, beq_false_of_ne hne.symm]
      · rw [List.filter_cons_of_pos (by simpa using hd), List.lookup_cons, List.lookup_cons, ih]

omit [DecidableEq γ] in
theorem ne_of_nodup_middle {before after : List β} {y : β}
    (hnodup : ((before ++ x :: after).map f).Nodup) (hy : y ∈ before ++ after) : f x ≠ f y := by
  rw [List.map_append, List.map_cons, List.nodup_middle, List.nodup_cons, ← List.map_append]
    at hnodup
  exact fun heq => hnodup.1 (heq ▸ List.mem_map_of_mem hy)

theorem filter_ne_middle {before after : List β}
    (hnodup : ((before ++ x :: after).map f).Nodup) :
    (before ++ x :: after).filter (f · ≠ f x) = before ++ after := by
  have hkept : ∀ y ∈ before ++ after, f y ≠ f x :=
    fun y hy => (ne_of_nodup_middle hnodup hy).symm
  rw [List.filter_append, List.filter_cons_of_neg (by simp), ← List.filter_append]
  exact List.filter_eq_self.mpr fun y hy => decide_eq_true (hkept y hy)

end Keys

theorem map_fst_zip_append_drop (l : List β) (l' : List γ) :
    (l.zip l').map (·.1) ++ l.drop l'.length = l := by
  induction l generalizing l' with
  | nil => simp
  | cons x l ih =>
      cases l' with
      | nil => simp
      | cons y l' => simpa using ih l'

theorem map_fst_zip_eq_take (l : List β) (l' : List γ) :
    (l.zip l').map (·.1) = l.take l'.length :=
  List.append_cancel_right
    ((map_fst_zip_append_drop l l').trans (List.take_append_drop _ _).symm)

theorem map_snd_zip_append_drop (l : List β) (l' : List γ) :
    (l.zip l').map (·.2) ++ l'.drop l.length = l' := by
  induction l generalizing l' with
  | nil => simp
  | cons x l ih =>
      cases l' with
      | nil => simp
      | cons y l' => simpa using ih l'

theorem map_snd_zip_eq_take (l : List β) (l' : List γ) :
    (l.zip l').map (·.2) = l'.take l.length :=
  List.append_cancel_right
    ((map_snd_zip_append_drop l l').trans (List.take_append_drop _ _).symm)

theorem zip_take_length (l : List β) (l' : List γ) : (l.take l'.length).zip l' = l.zip l' := by
  induction l generalizing l' with
  | nil => simp
  | cons x l ih =>
      cases l' with
      | nil => simp
      | cons y l' => simpa using ih l'

/-- A member of a list is its last one or stands before it. -/
theorem split_concat {before after : List β} {x y : β}
    (hsplit : l ++ [y] = before ++ x :: after) :
    l = before ∧ x = y ∨ ∃ between, l = before ++ x :: between := by
  rcases List.eq_nil_or_concat after with rfl | ⟨between, z, rfl⟩
  · obtain ⟨hl, hx⟩ := List.append_inj' hsplit rfl
    exact .inl ⟨hl, (List.singleton_inj.mp hx).symm⟩
  · rw [List.concat_eq_append, ← List.cons_append, ← List.append_assoc] at hsplit
    exact .inr ⟨between, (List.append_inj' hsplit rfl).1⟩

theorem takeWhile_append_cons {p : β → Bool} {before after : List β} {x : β}
    (hbefore : ∀ y ∈ before, p y = true) (hx : p x = false) :
    (before ++ x :: after).takeWhile p = before := by
  rw [List.takeWhile_append_of_pos hbefore, List.takeWhile_cons_of_neg (by simp [hx]),
    List.append_nil]

/-- What stands for each key below a bound is together what has its key below the bound. -/
theorem flatMap_filter_perm (f : β → Nat) (n : Nat) (l : List β) :
    (List.range n).flatMap (fun i => l.filter (f · = i)) ~ l.filter (f · < n) := by
  induction n with
  | zero => simp
  | succ n ih =>
      have hbelow : (l.filter (f · < n + 1)).filter (f · < n) = l.filter (f · < n) := by
        rw [List.filter_filter]
        refine List.filter_congr fun x _ => ?_
        rw [← Bool.decide_and, decide_eq_decide]
        omega
      have hlast : (l.filter (f · < n + 1)).filter (! f · < n) = l.filter (f · = n) := by
        rw [List.filter_filter]
        refine List.filter_congr fun x _ => ?_
        rw [← decide_not, ← Bool.decide_and, decide_eq_decide]
        omega
      calc
        (List.range (n + 1)).flatMap (fun i => l.filter (f · = i))
        _ = (List.range n).flatMap (fun i => l.filter (f · = i)) ++ l.filter (f · = n) := by
          rw [List.range_succ, List.flatMap_append, List.flatMap_singleton]
        _ ~ l.filter (f · < n) ++ l.filter (f · = n) := ih.append_right _
        _ = (l.filter (f · < n + 1)).filter (f · < n) ++
            (l.filter (f · < n + 1)).filter (! f · < n) := by rw [hbelow, hlast]
        _ ~ l.filter (f · < n + 1) := List.filter_append_perm _ _

theorem sum_map_eq_zero {f : β → Nat} (hzero : ∀ x ∈ l, f x = 0) : (l.map f).sum = 0 := by
  refine List.sum_eq_zero_iff_forall_eq_nat.mpr fun n hn => ?_
  obtain ⟨x, hx, rfl⟩ := List.mem_map.mp hn
  exact hzero x hx

theorem sum_map_set (f : β → Nat) {i : Nat} {x : β} (hx : l[i]? = some x) (y : β) :
    ((l.set i y).map f).sum + f x = (l.map f).sum + f y := by
  induction l generalizing i with
  | nil => simp at hx
  | cons z l ih =>
      cases i with
      | zero =>
          obtain rfl : z = x := by simpa using hx
          simp only [List.set_cons_zero, List.map_cons, List.sum_cons]
          omega
      | succ i =>
          have hrest := ih (i := i) (by simpa using hx)
          simp only [List.set_cons_succ, List.map_cons, List.sum_cons]
          omega

/-- Members at rising positions of a list form a sublist of it. -/
theorem map_sublist_of_rising {f : γ → β} {position : γ → Nat} {ds : List γ}
    (hposition : ∀ d ∈ ds, l[position d]? = some (f d))
    (hrising : ds.Pairwise fun d e => position d < position e) : ds.map f <+ l := by
  induction ds generalizing l position with
  | nil => exact List.nil_sublist l
  | cons d ds ih =>
      obtain ⟨hfirst, hrest⟩ := List.pairwise_cons.mp hrising
      obtain ⟨hlt, hd⟩ := List.getElem?_eq_some_iff.mp (hposition d List.mem_cons_self)
      -- the others stand behind the first one
      have hlater : ds.map f <+ l.drop (position d + 1) := by
        refine @ih (l.drop (position d + 1)) (fun e => position e - (position d + 1))
          (fun e he => ?_) ?_
        · have hlt' := hfirst e he
          rw [List.getElem?_drop, Nat.add_sub_cancel' hlt']
          exact hposition e (List.mem_cons_of_mem _ he)
        · refine hrest.imp_of_mem fun {e e'} he he' hee' => ?_
          have hlt' := hfirst e he
          omega
      calc
        (d :: ds).map f
        _ = l[position d] :: ds.map f := by rw [List.map_cons, hd]
        _ <+ l[position d] :: l.drop (position d + 1) := hlater.cons_cons _
        _ = l.drop (position d) := (List.drop_eq_getElem_cons hlt).symm
        _ <+ l := List.drop_sublist _ _

/-- Numbers without repetitions become others by a renaming, which leaves alone all that are beyond
both. -/
theorem exists_perm_map_eq {l l' : List Nat} (hl : l.Nodup) (hl' : l'.Nodup)
    (hlength : l.length = l'.length) :
    ∃ σ : Equiv.Perm Nat, l.map σ = l' ∧
      ∀ n, (∀ i ∈ l, i < n) → (∀ i ∈ l', i < n) → ∀ i, n ≤ i → σ i = i := by
  induction l generalizing l' with
  | nil =>
      obtain rfl := List.eq_nil_of_length_eq_zero hlength.symm
      exact ⟨Equiv.refl Nat, rfl, fun _ _ _ _ _ => rfl⟩
  | cons a l ih =>
      obtain ⟨b, l', rfl⟩ := List.exists_cons_of_length_eq_add_one hlength.symm
      obtain ⟨ha, hl⟩ := List.nodup_cons.mp hl
      obtain ⟨hb, hl'⟩ := List.nodup_cons.mp hl'
      obtain ⟨σ, hσ, hfixed⟩ := ih hl hl' (Nat.succ.inj hlength)
      refine ⟨σ.trans (Equiv.swap (σ a) b), ?_, ?_⟩
      · -- the others keep their new numbers, which are neither `b` nor what `a` became before
        have hrest : ∀ i ∈ l, σ.trans (Equiv.swap (σ a) b) i = σ i := by
          intro i hi
          apply Equiv.swap_apply_of_ne_of_ne
          · intro heq
            exact ha (σ.injective heq ▸ hi)
          · intro heq
            exact hb (heq ▸ hσ ▸ List.mem_map_of_mem hi)
        rw [List.map_cons, List.map_congr_left hrest, hσ, Equiv.trans_apply, Equiv.swap_apply_left]
      · intro n hn hn' i hi
        simp only [List.forall_mem_cons] at hn hn'
        have hσi := hfixed n hn.2 hn'.2 i hi
        have hia : i ≠ σ a := by
          intro heq
          have := σ.injective (hσi.trans heq)
          omega
        rw [Equiv.trans_apply, hσi]
        exact Equiv.swap_apply_of_ne_of_ne hia (by omega)

end FairQueue
