/-
Trees that grow by merging two nodes at a time, and the depths of their leaves.

The leaves are merged from the last one down and the inner nodes in the order they are made, each of them from two
nodes that have no parent yet. So parents are in order: a leaf further down hangs lower, and an inner node made later
hangs higher. Every inner node has two children, which is all that the sum over the leaves needs.
-/
import Mathlib.Algebra.BigOperators.Intervals
import Mathlib.Tactic

namespace MergeTree

open Finset

/-- A tree under construction. Inner nodes are numbered from `first`, past the leaves; the leaves from `low` on and the
inner nodes before `lowN` have a parent, and `taken` of them are children of the node `made`, the next one. -/
structure Merging (parent : Nat → Nat) (first last low lowN made taken : Nat) : Prop where
  last_lt : last < first
  low_le : low ≤ last + 1
  lowN_le : lowN ≤ made
  first_le : first ≤ lowN
  leaf : ∀ i, low ≤ i → i ≤ last → first ≤ parent i ∧ parent i ≤ made
  leaf_anti : ∀ i j, low ≤ i → i ≤ j → j ≤ last → parent j ≤ parent i
  inner : ∀ k, first ≤ k → k < lowN → k < parent k ∧ parent k ≤ made
  inner_mono : ∀ k k', first ≤ k → k ≤ k' → k' < lowN → parent k ≤ parent k'
  twice : ∀ g : Nat → Nat, ∑ i ∈ Ico low (last + 1), g (parent i) + ∑ k ∈ Ico first lowN, g (parent k) =
    2 * ∑ k ∈ Ico first made, g k + taken * g made

namespace Merging

variable {parent : Nat → Nat} {first last low lowN made taken : Nat}

theorem start (parent : Nat → Nat) (h : last < first) : Merging parent first last (last + 1) first first 0 where
  last_lt := h
  low_le := le_rfl
  lowN_le := le_rfl
  first_le := le_rfl
  leaf := fun i _ _ => by omega
  leaf_anti := fun i j _ _ _ => by omega
  inner := fun k _ _ => by omega
  inner_mono := fun k k' _ _ _ => by omega
  twice := by simp

/-- The numbering leaves nothing open: what has a parent is counted by the nodes made of it. -/
theorem count (h : Merging parent first last low lowN made taken) :
    last + 1 - low + (lowN - first) = 2 * (made - first) + taken := by
  simpa using h.twice fun _ => 1

/-- What the parents of the other nodes are does not matter. -/
theorem congr (h : Merging parent first last low lowN made taken) {parent' : Nat → Nat}
    (hleaf : ∀ i, low ≤ i → i ≤ last → parent' i = parent i)
    (hinner : ∀ k, first ≤ k → k < lowN → parent' k = parent k) :
    Merging parent' first last low lowN made taken where
  last_lt := h.last_lt
  low_le := h.low_le
  lowN_le := h.lowN_le
  first_le := h.first_le
  leaf := by
    intro i hi hle
    rw [hleaf i hi hle]
    exact h.leaf i hi hle
  leaf_anti := by
    intro i j hi hij hle
    rw [hleaf i hi (hij.trans hle), hleaf j (hi.trans hij) hle]
    exact h.leaf_anti i j hi hij hle
  inner := by
    intro k hk hlt
    rw [hinner k hk hlt]
    exact h.inner k hk hlt
  inner_mono := by
    intro k k' hk hkk hlt
    rw [hinner k hk (by omega), hinner k' (by omega) hlt]
    exact h.inner_mono k k' hk hkk hlt
  twice := by
    intro g
    rw [← h.twice g]
    congr 1
    · refine sum_congr rfl fun i hi => ?_
      rw [mem_Ico] at hi
      rw [hleaf i hi.1 (by omega)]
    · refine sum_congr rfl fun k hk => ?_
      rw [mem_Ico] at hk
      rw [hinner k hk.1 hk.2]

/-- The next leaf becomes a child of the node being made. -/
theorem takeLeaf (h : Merging parent first last (low + 1) lowN made taken) {parent' : Nat → Nat}
    (hlow : parent' low = made) (hother : ∀ i, i ≠ low → parent' i = parent i) :
    Merging parent' first last low lowN made (taken + 1) := by
  have hle := h.low_le
  have hlast := h.last_lt
  have hfirst := h.first_le
  have hmade := h.lowN_le
  have hrest : Merging parent' first last (low + 1) lowN made taken :=
    h.congr (fun i hi _ => hother i (by omega)) (fun k hk _ => hother k (by omega))
  refine ⟨hlast, by omega, hmade, hfirst, ?_, ?_, hrest.inner, hrest.inner_mono, ?_⟩
  · intro i hi hil
    rcases Nat.eq_or_lt_of_le hi with rfl | hlt
    · rw [hlow]
      exact ⟨by omega, le_rfl⟩
    · exact hrest.leaf i hlt hil
  · intro i j hi hij hj
    rcases Nat.eq_or_lt_of_le hi with rfl | hlt
    · rw [hlow]
      rcases Nat.eq_or_lt_of_le hij with rfl | hlt
      · exact hlow.le
      · exact (hrest.leaf j hlt hj).2
    · exact hrest.leaf_anti i j hlt hij hj
  · intro g
    have htwice := hrest.twice g
    rw [sum_eq_sum_Ico_succ_bot (by omega), hlow]
    rw [Nat.add_mul]
    omega

/-- The next inner node becomes a child of the node being made. -/
theorem takeInner (h : Merging parent first last low lowN made taken) (hlt : lowN < made) {parent' : Nat → Nat}
    (hlow : parent' lowN = made) (hother : ∀ i, i ≠ lowN → parent' i = parent i) :
    Merging parent' first last low (lowN + 1) made (taken + 1) := by
  have hle := h.low_le
  have hlast := h.last_lt
  have hfirst := h.first_le
  have hrest : Merging parent' first last low lowN made taken :=
    h.congr (fun i _ hi => hother i (by omega)) (fun k _ hk => hother k (by omega))
  refine ⟨hlast, hle, hlt, by omega, hrest.leaf, hrest.leaf_anti, ?_, ?_, ?_⟩
  · intro k hk hklt
    rcases Nat.eq_or_lt_of_le (Nat.le_of_lt_succ hklt) with rfl | hk'
    · rw [hlow]
      exact ⟨hlt, le_rfl⟩
    · exact hrest.inner k hk hk'
  · intro k k' hk hkk hklt
    rcases Nat.eq_or_lt_of_le (Nat.le_of_lt_succ hklt) with rfl | hk'
    · rw [hlow]
      rcases Nat.eq_or_lt_of_le hkk with rfl | hk''
      · exact hlow.le
      · exact (hrest.inner k hk hk'').2
    · exact hrest.inner_mono k k' hk hkk hk'
  · intro g
    have htwice := hrest.twice g
    rw [sum_Ico_succ_top hfirst, hlow, Nat.add_mul]
    omega

/-- Of two children the node is made. -/
theorem close (h : Merging parent first last low lowN made 2) : Merging parent first last low lowN (made + 1) 0 := by
  have hfirst := h.first_le
  have hmade := h.lowN_le
  refine ⟨h.last_lt, h.low_le, by omega, hfirst, ?_, h.leaf_anti, ?_, h.inner_mono, ?_⟩
  · intro i hi hil
    have := h.leaf i hi hil
    omega
  · intro k hk hklt
    have := h.inner k hk hklt
    omega
  · intro g
    rw [h.twice g, sum_Ico_succ_top (hfirst.trans hmade)]
    ring

/-- A node that is not made yet has no children. -/
theorem parent_ne (h : Merging parent first last low lowN made 0) :
    (∀ i, low ≤ i → i ≤ last → parent i ≠ made) ∧ ∀ k, first ≤ k → k < lowN → parent k ≠ made := by
  have htwice := h.twice fun p => if p = made then 1 else 0
  have hnone : ∑ p ∈ Ico first made, (if p = made then 1 else 0) = 0 := by
    refine sum_eq_zero fun p hp => ?_
    rw [mem_Ico] at hp
    rw [if_neg (by omega)]
  rw [hnone] at htwice
  have hne : ∀ {a b : Nat}, ∑ i ∈ Ico a b, (if parent i = made then 1 else 0) = 0 → ∀ i, a ≤ i → i < b →
      parent i ≠ made := by
    rintro a b hsum i ha hb heq
    have hzero := sum_eq_zero_iff.1 hsum i (mem_Ico.2 ⟨ha, hb⟩)
    rw [if_pos heq] at hzero
    exact absurd hzero one_ne_zero
  have hzero : ∑ i ∈ Ico low (last + 1), (if parent i = made then 1 else 0) = 0 ∧
      ∑ k ∈ Ico first lowN, (if parent k = made then 1 else 0) = 0 := by omega
  exact ⟨fun i hi hle => hne hzero.1 i hi (Nat.lt_succ_of_le hle), hne hzero.2⟩

end Merging

/-! ## Depths -/

/-- A finished tree with the depths of its nodes: everything but the root hangs one deeper than its parent. -/
structure Depths (parent depth : Nat → Nat) (first last root : Nat) : Prop where
  merged : Merging parent first last 0 root (root + 1) 0
  depth_root : depth root = 0
  leaf : ∀ i ≤ last, depth i = depth (parent i) + 1
  inner : ∀ k, first ≤ k → k < root → depth k = depth (parent k) + 1

namespace Depths

variable {parent depth : Nat → Nat} {first last root : Nat}

theorem parent_leaf (h : Depths parent depth first last root) {i : Nat} (hi : i ≤ last) :
    first ≤ parent i ∧ parent i ≤ root := by
  have hne := h.merged.parent_ne.1 i (Nat.zero_le i) hi
  have hbounds := h.merged.leaf i (Nat.zero_le i) hi
  omega

theorem parent_inner (h : Depths parent depth first last root) {k : Nat} (hk : first ≤ k) (hlt : k < root) :
    k < parent k ∧ parent k ≤ root := by
  have hne := h.merged.parent_ne.2 k hk hlt
  have hbounds := h.merged.inner k hk hlt
  omega

/-- A node made later hangs no deeper. -/
theorem inner_anti (h : Depths parent depth first last root) : ∀ (n : Nat) {k k' : Nat}, root - k ≤ n → first ≤ k →
    k ≤ k' → k' ≤ root → depth k' ≤ depth k
  | n, k, k', hn, hk, hkk, hroot => by
    rcases Nat.eq_or_lt_of_le hkk with rfl | hlt
    · exact le_rfl
    rcases Nat.eq_or_lt_of_le hroot with rfl | hlt'
    · rw [h.depth_root]
      exact Nat.zero_le _
    obtain ⟨n, rfl⟩ : ∃ m, n = m + 1 := ⟨n - 1, by omega⟩
    rw [h.inner k hk (by omega), h.inner k' (by omega) hlt']
    have hparent := h.parent_inner hk (by omega)
    have hparent' := h.parent_inner (show first ≤ k' by omega) hlt'
    exact Nat.succ_le_succ (inner_anti h n (by omega) (by omega) (h.merged.inner_mono k k' hk hkk hlt') hparent'.2)

/-- A leaf further down hangs no higher. -/
theorem leaf_mono (h : Depths parent depth first last root) {i j : Nat} (hij : i ≤ j) (hj : j ≤ last) :
    depth i ≤ depth j := by
  rw [h.leaf i (hij.trans hj), h.leaf j hj]
  exact Nat.succ_le_succ (h.inner_anti _ le_rfl (h.parent_leaf hj).1 (h.merged.leaf_anti i j (Nat.zero_le i) hij hj)
    (h.parent_leaf (hij.trans hj)).2)

theorem leaf_pos (h : Depths parent depth first last root) {i : Nat} (hi : i ≤ last) : 0 < depth i := by
  rw [h.leaf i hi]
  exact Nat.succ_pos _

/-- The last leaf is a child of the first node made. -/
theorem parent_last (h : Depths parent depth first last root) : parent last = first := by
  have hlast := h.parent_leaf (le_refl last)
  by_contra hne
  have htwice := h.merged.twice fun p => if p = first then 1 else 0
  have hleaves : ∑ i ∈ Ico 0 (last + 1), (if parent i = first then 1 else 0) = 0 := by
    refine sum_eq_zero fun i hi => ?_
    rw [mem_Ico] at hi
    have := h.merged.leaf_anti i last (Nat.zero_le i) (by omega) le_rfl
    rw [if_neg (by omega)]
  have hnodes : ∑ k ∈ Ico first root, (if parent k = first then 1 else 0) = 0 := by
    refine sum_eq_zero fun k hk => ?_
    rw [mem_Ico] at hk
    have := h.parent_inner hk.1 hk.2
    rw [if_neg (by omega)]
  have hfirst : 1 ≤ ∑ p ∈ Ico first (root + 1), (if p = first then 1 else 0) :=
    le_trans (by rw [if_pos rfl]) (single_le_sum (fun _ _ => Nat.zero_le _) (mem_Ico.2 ⟨le_refl first, by omega⟩))
  omega

/-- The leaves fill the tree: with `2 ^ (D - d)` for a leaf of depth `d` they come to the whole. -/
theorem sum_leaves (h : Depths parent depth first last root) {D : Nat} (hD : ∀ i ≤ last, depth i ≤ D) :
    ∑ i ∈ range (last + 1), 2 ^ (D - depth i) = 2 ^ D := by
  -- what a node is worth, all its ancestors being above `D`
  have hinner : ∀ k, first ≤ k → k ≤ root → depth k < D := by
    intro k hk hle
    have htop : depth first < D := by
      have hlast := hD last le_rfl
      rw [h.leaf last le_rfl, h.parent_last] at hlast
      exact hlast
    exact lt_of_le_of_lt (h.inner_anti _ le_rfl le_rfl hk hle) htop
  have htwice := h.merged.twice fun p => 2 ^ (D - depth p - 1)
  rw [Nat.zero_mul, Nat.add_zero, sum_Ico_succ_top h.merged.first_le, h.depth_root, Nat.sub_zero] at htwice
  have hleaves : ∑ i ∈ Ico 0 (last + 1), 2 ^ (D - depth (parent i) - 1) = ∑ i ∈ range (last + 1),
    2 ^ (D - depth i) := by
    rw [range_eq_Ico]
    refine sum_congr rfl fun i hi => ?_
    rw [mem_Ico] at hi
    rw [h.leaf i (by omega), Nat.sub_sub]
  have hnodes : ∑ k ∈ Ico first root, 2 ^ (D - depth (parent k) - 1) =
      2 * ∑ k ∈ Ico first root, 2 ^ (D - depth k - 1) := by
    rw [mul_sum]
    refine sum_congr rfl fun k hk => ?_
    rw [mem_Ico] at hk
    have hlt := hinner k hk.1 (by omega)
    rw [h.inner k hk.1 hk.2, ← pow_succ', show D - (depth (parent k) + 1) - 1 + 1 = D - depth (parent k) - 1 by
      have := h.inner k hk.1 hk.2
      omega]
  rw [hleaves, hnodes, mul_add, ← pow_succ', Nat.sub_add_cancel] at htwice
  · omega
  · have := hinner root h.merged.first_le le_rfl
    omega

end Depths

end MergeTree
