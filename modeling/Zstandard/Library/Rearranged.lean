/-
Lists whose elements are moved about inside a range of positions, and the places of a counting sort.
-/
import Mathlib.Data.List.GetD
import Mathlib.Data.List.FinRange
import Mathlib.Logic.Equiv.Fin.Basic
import Mathlib.Tactic

namespace Rearrange

variable {α : Type*} {l l' l'' : List α} {lo hi lo' hi' i j : Nat} {x : α}

/-- The same elements, and those outside the positions from `lo` to before `hi` where they were. -/
structure Rearranged (lo hi : Nat) (l l' : List α) : Prop where
  perm : l'.Perm l
  outside : ∀ i, i < lo ∨ hi ≤ i → l'[i]? = l[i]?

namespace Rearranged

theorem refl (l : List α) : Rearranged lo hi l l := ⟨.refl l, fun _ _ => rfl⟩

theorem trans (h : Rearranged lo hi l l') (h' : Rearranged lo hi l' l'') : Rearranged lo hi l l'' :=
  ⟨h'.perm.trans h.perm, fun i hi => (h'.outside i hi).trans (h.outside i hi)⟩

theorem mono (h : Rearranged lo hi l l') (hlo : lo' ≤ lo) (hhi : hi ≤ hi') : Rearranged lo' hi' l l' :=
  ⟨h.perm, fun i hi => h.outside i (by omega)⟩

theorem length_eq (h : Rearranged lo hi l l') : l'.length = l.length := h.perm.length_eq

/-- A key put back one place further down, where the element it passes was. -/
theorem shift (hi : i + 1 < l.length) (hx : l[i]? = some x) (key : α) :
    Rearranged i (i + 2) (l.set (i + 1) key) ((l.set (i + 1) x).set i key) := by
  obtain ⟨hlt, rfl⟩ := List.getElem?_eq_some_iff.1 hx
  refine ⟨?_, ?_⟩
  · have hlen : i < (l.set (i + 1) key).length := by rw [List.length_set]; exact hlt
    have hlen' : i + 1 < (l.set (i + 1) key).length := by rw [List.length_set]; exact hi
    have hperm := List.set_set_perm hlen' hlen
    rwa [List.getElem_set_self, List.getElem_set_ne (by omega), List.set_set] at hperm
  · intro j hj
    rw [List.getElem?_set_ne (by omega), List.getElem?_set_ne (by omega), List.getElem?_set_ne (by omega)]

theorem swap {y : α} (hx : l[i]? = some x) (hy : l[j]? = some y) (hlo : lo ≤ i ∧ lo ≤ j) (hhi : i < hi ∧ j < hi) :
    Rearranged lo hi l ((l.set i y).set j x) := by
  obtain ⟨hi', rfl⟩ := List.getElem?_eq_some_iff.1 hx
  obtain ⟨hj', rfl⟩ := List.getElem?_eq_some_iff.1 hy
  refine ⟨List.set_set_perm hi' hj', ?_⟩
  intro k hk
  rw [List.getElem?_set_ne (by omega), List.getElem?_set_ne (by omega)]

/-- A part of the list at its end that is rearranged. -/
theorem drop {n : Nat} {rest : List α} (h : Rearranged lo hi (l.drop n) rest) (hn : n ≤ l.length) :
    Rearranged (n + lo) (n + hi) l (l.take n ++ rest) := by
  refine ⟨?_, ?_⟩
  · have hperm := h.perm.append_left (l.take n)
    rwa [List.take_append_drop] at hperm
  · intro i hi
    by_cases hlt : i < n
    · rw [List.getElem?_append_left (by rw [List.length_take]; omega), List.getElem?_take, if_pos hlt]
    · rw [List.getElem?_append_right (by rw [List.length_take]; omega), List.length_take, Nat.min_eq_left hn,
        h.outside _ (by omega), List.getElem?_drop]
      congr 1
      omega

/-- Inside a range that holds all that is moved, the elements are the same. -/
theorem segment (h : Rearranged lo hi l l') : ((l'.drop lo).take (hi - lo)).Perm ((l.drop lo).take (hi - lo)) := by
  have htake : l'.take lo = l.take lo := by
    refine List.ext_getElem? fun i => ?_
    rw [List.getElem?_take, List.getElem?_take]
    split
    · exact h.outside i (by omega)
    · rfl
  have hdrop : (l'.drop lo).drop (hi - lo) = (l.drop lo).drop (hi - lo) := by
    refine List.ext_getElem? fun i => ?_
    rw [List.drop_drop, List.drop_drop, List.getElem?_drop, List.getElem?_drop]
    exact h.outside _ (by omega)
  have hperm := h.perm
  rw [← List.take_append_drop lo l', ← List.take_append_drop lo l, htake, List.perm_append_left_iff,
    ← List.take_append_drop (hi - lo) (l'.drop lo), ← List.take_append_drop (hi - lo) (l.drop lo), hdrop,
    List.perm_append_right_iff] at hperm
  exact hperm

end Rearranged

/-! ## Counting sort -/

variable (rank : α → Nat) (xs : List α)

/-- Where a counting sort by descending rank puts an element. -/
def place (i : Nat) (x : α) : Nat := xs.countP (rank x < rank ·) + (xs.take i).countP (rank · = rank x)

variable {rank xs} {y : α}

theorem countP_take_succ (p : α → Bool) (hx : xs[i]? = some x) :
    (xs.take (i + 1)).countP p = (xs.take i).countP p + if p x then 1 else 0 := by
  rw [List.take_add_one, hx, List.countP_append]
  simp

theorem countP_or_disjoint {p q : α → Bool} (hpq : ∀ x, p x → ¬ q x) :
    ∀ xs : List α, xs.countP (fun x => p x || q x) = xs.countP p + xs.countP q
  | [] => rfl
  | x :: xs => by
    rw [List.countP_cons, List.countP_cons, List.countP_cons, countP_or_disjoint hpq xs]
    rcases hp : p x with _ | _
    · simp only [Bool.false_or, Bool.false_eq_true, if_false]
      omega
    · rw [Bool.eq_false_iff.2 (hpq x hp)]
      simp only [Bool.true_or, if_pos, Bool.false_eq_true, if_false]
      omega

theorem place_lt (hx : xs[i]? = some x) : place rank xs i x < xs.length := by
  have hsplit := countP_take_succ (fun y => rank y = rank x) hx
  have hle : (xs.take (i + 1)).countP (fun y => rank y = rank x) ≤ xs.countP (fun y => rank y = rank x) :=
    (List.take_sublist _ _).countP_le
  have hor := countP_or_disjoint (p := fun y => decide (rank x < rank y)) (q := fun y => decide (rank y = rank x))
    (by simp only [decide_eq_true_eq]; intro y; omega) xs
  have htotal : xs.countP (fun y => decide (rank x < rank y) || decide (rank y = rank x)) ≤ xs.length :=
    List.countP_le_length
  rw [if_pos (by simp)] at hsplit
  unfold place
  omega

/-- No two elements get one place. -/
theorem place_ne (hx : xs[i]? = some x) (hy : xs[j]? = some y) (hij : i < j) :
    place rank xs i x ≠ place rank xs j y := by
  have hbelow : ∀ {i j : Nat} {x y : α}, xs[i]? = some x → rank x > rank y →
      place rank xs i x < place rank xs j y := by
    intro i j x y hx hlt
    have hsplit := countP_take_succ (fun z => rank z = rank x) hx
    have hle : (xs.take (i + 1)).countP (fun z => rank z = rank x) ≤ xs.countP (fun z => rank z = rank x) :=
      (List.take_sublist _ _).countP_le
    have hor := countP_or_disjoint (p := fun z => decide (rank x < rank z)) (q := fun z => decide (rank z = rank x))
      (by simp only [decide_eq_true_eq]; intro z; omega) xs
    have hmono : xs.countP (fun z => decide (rank x < rank z) || decide (rank z = rank x)) ≤
        xs.countP (fun z => decide (rank y < rank z)) :=
      List.countP_mono_left fun z _ hz => by
        simp only [Bool.or_eq_true, decide_eq_true_eq] at hz ⊢
        omega
    rw [if_pos (by simp)] at hsplit
    unfold place
    omega
  rcases Nat.lt_trichotomy (rank x) (rank y) with hlt | heq | hlt
  · exact (hbelow hy hlt).ne'
  · have hsplit := countP_take_succ (fun z => rank z = rank x) hx
    have hle : (xs.take (i + 1)).countP (fun z => rank z = rank x) ≤ (xs.take j).countP (fun z => rank z = rank x) :=
      by
      rw [show xs.take (i + 1) = (xs.take j).take (i + 1) by rw [List.take_take, Nat.min_eq_left hij]]
      exact (List.take_sublist _ _).countP_le
    rw [if_pos (by simp)] at hsplit
    unfold place
    rw [← heq]
    omega
  · exact (hbelow hx hlt).ne

/-- Elements at places of their own, as many as there are places, are all there. -/
theorem perm_of_places {β : Type*} {ys : List β} {n : Nat} (f : Nat → β) (place : Nat → Nat) (hlen : ys.length = n)
    (hlt : ∀ i < n, place i < n) (hne : ∀ i j, i < j → j < n → place i ≠ place j)
    (hat : ∀ i < n, ys[place i]? = some (f i)) : ys.Perm ((List.range n).map f) := by
  have hinj : Function.Injective fun i : Fin n => (⟨place i, hlt i i.2⟩ : Fin n) := by
    intro i j hij
    have hij : place i = place j := Fin.mk.inj hij
    rcases Nat.lt_trichotomy i.1 j.1 with h | h | h
    · exact absurd hij (hne i j h j.2)
    · exact Fin.ext h
    · exact absurd hij.symm (hne j i h i.2)
  let σ : Equiv.Perm (Fin n) := Equiv.ofBijective _ (Finite.injective_iff_bijective.1 hinj)
  have hys : ys = List.ofFn (fun k : Fin n => f (σ.symm k)) := by
    refine List.ext_getElem? fun k => ?_
    by_cases hk : k < n
    · have h := hat (σ.symm ⟨k, hk⟩) (σ.symm ⟨k, hk⟩).2
      have hplace : place (σ.symm ⟨k, hk⟩) = k := congrArg Fin.val (σ.apply_symm_apply ⟨k, hk⟩)
      rw [hplace] at h
      rw [h, List.getElem?_ofFn, dif_pos hk]
    · rw [List.getElem?_eq_none (by omega), List.getElem?_ofFn, dif_neg hk]
  have hmap : (List.range n).map f = List.ofFn fun k : Fin n => f k := by
    rw [List.ofFn_eq_map, ← List.map_coe_finRange_eq_range, List.map_map]
    rfl
  rw [hys, hmap]
  exact Equiv.Perm.ofFn_comp_perm σ.symm fun k : Fin n => f k

end Rearrange
