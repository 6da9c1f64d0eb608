/-
Code lengths brought under a limit.

The lengths of the leaves of a full tree fill it. Cutting the longer ones to the limit overfills it by some cost; a leaf
of another length made one bit longer pays for a part of it, and one of the deepest leaves made one bit shorter gives
back one unit. There are always more of the deepest leaves than the cost, so that what was paid too much can be given
back: it was too much only where no leaf is between the deepest ones and the one made longer, and then the deepest ones
fill what the others leave.
-/
import Mathlib.Algebra.BigOperators.Intervals
import Mathlib.Algebra.Order.BigOperators.Group.Finset
import Mathlib.Tactic

namespace LengthLimit

open Finset

/-- How many of the leaves `0 … last` are of length `max`. -/
def deepestCount (len : Nat → Nat) (last max : Nat) : Nat := #{i ∈ range (last + 1) | len i = max}

/-- Leaves in the order of their lengths, none longer than `max`, that overfill a tree by `cost`. -/
structure Limited (len : Nat → Nat) (last max : Nat) (cost : Int) : Prop where
  mono : ∀ i j, i ≤ j → j ≤ last → len i ≤ len j
  le : ∀ i ≤ last, len i ≤ max
  sum : ((∑ i ∈ range (last + 1), 2 ^ (max - len i) : Nat) : Int) = 2 ^ max + cost
  deepest : cost.natAbs < deepestCount len last max

variable {len len' : Nat → Nat} {last max k p : Nat} {cost : Int}

/-- A sum over the leaves when one of them changes. -/
theorem sum_update (f : Nat → Nat) (hp : p ≤ last) (hother : ∀ i, i ≠ p → len' i = len i) :
    ∑ i ∈ range (last + 1), f (len' i) + f (len p) = ∑ i ∈ range (last + 1), f (len i) + f (len' p) := by
  have hmem : p ∈ range (last + 1) := mem_range.2 (Nat.lt_succ_of_le hp)
  rw [← sum_erase_add _ _ hmem, ← sum_erase_add (range (last + 1)) (fun i => f (len i)) hmem]
  have hrest : ∑ i ∈ (range (last + 1)).erase p, f (len' i) = ∑ i ∈ (range (last + 1)).erase p, f (len i) :=
    sum_congr rfl fun i hi => by rw [hother i (ne_of_mem_erase hi)]
  omega

theorem deepestCount_eq_sum (len : Nat → Nat) (last max : Nat) :
    deepestCount len last max = ∑ i ∈ range (last + 1), if len i = max then 1 else 0 := by
  rw [deepestCount, card_filter]

theorem deepestCount_update (max : Nat) (hp : p ≤ last) (hother : ∀ i, i ≠ p → len' i = len i) :
    deepestCount len' last max + (if len p = max then 1 else 0) =
      deepestCount len last max + if len' p = max then 1 else 0 := by
  rw [deepestCount_eq_sum, deepestCount_eq_sum]
  exact sum_update (fun n => if n = max then 1 else 0) hp hother

namespace Limited

/-- Where no leaf is longer than `max - k` but shorter than `max`, the deepest ones are the cost up to a multiple
of `2 ^ k`. -/
theorem deepest_ge (h : Limited len last max cost) (hk : k ≤ max)
    (hempty : ∀ i ≤ last, len i = max ∨ len i + k ≤ max) (hcost : 0 ≤ cost) :
    cost + 2 ^ k ≤ deepestCount len last max := by
  obtain ⟨m, hm⟩ : (2 ^ k : Nat) ∣ ∑ i ∈ range (last + 1), if len i = max then 0 else 2 ^ (max - len i) := by
    refine dvd_sum fun i hi => ?_
    have hi := Nat.le_of_lt_succ (mem_range.1 hi)
    split
    · exact dvd_zero _
    · rename_i hne
      exact pow_dvd_pow 2 (by have := hempty i hi; omega)
  have hsplit : ∑ i ∈ range (last + 1), 2 ^ (max - len i) = deepestCount len last max + 2 ^ k * m := by
    rw [← hm, deepestCount_eq_sum, ← sum_add_distrib]
    refine sum_congr rfl fun i _ => ?_
    split
    · rename_i heq
      rw [heq, Nat.sub_self, pow_zero, Nat.add_zero]
    · rw [Nat.zero_add]
  have hsum := h.sum
  rw [hsplit] at hsum
  obtain ⟨q, hq⟩ : (2 ^ k : Nat) ∣ 2 ^ max := pow_dvd_pow 2 hk
  have hq' : (2 ^ max : Int) = 2 ^ k * q := by exact_mod_cast hq
  have hdeep := h.deepest
  have hdiff : (deepestCount len last max : Int) - cost = 2 ^ k * (q - m) := by
    push_cast at hsum
    rw [hq'] at hsum
    linarith
  have hpos : (0 : Int) < 2 ^ k * ((q : Int) - m) := by omega
  have hone : (1 : Int) ≤ q - m := by
    have := (pos_iff_pos_of_mul_pos hpos).1 (by positivity)
    omega
  have hpow : (0 : Int) < 2 ^ k := by positivity
  nlinarith

/-- The last leaf of a length made one bit longer. -/
theorem lengthen (h : Limited len last max cost) (hcost : 0 < cost) (hp : p ≤ last) (hk : 1 ≤ k)
    (hlen : len p + k = max) (hlast : ∀ i, p < i → i ≤ last → len p < len i)
    (hempty : cost < 2 ^ (k - 1) → ∀ i ≤ last, len i = max ∨ len i + k ≤ max)
    (hp' : len' p = len p + 1) (hother : ∀ i, i ≠ p → len' i = len i) :
    Limited len' last max (cost - 2 ^ (k - 1)) := by
  have hsum := sum_update (fun n => 2 ^ (max - n)) hp hother
  have hdeep := deepestCount_update max hp hother
  rw [hp'] at hsum hdeep
  rw [if_neg (by omega)] at hdeep
  refine ⟨?_, ?_, ?_, ?_⟩
  · intro i j hij hj
    by_cases hi : i = p
    · subst hi
      rcases Nat.eq_or_lt_of_le hij with rfl | hlt
      · exact le_rfl
      · rw [hp', hother j (by omega)]
        exact hlast j hlt hj
    · rw [hother i hi]
      by_cases hjp : j = p
      · subst hjp
        rw [hp']
        exact Nat.le_succ_of_le (h.mono i j hij hj)
      · rw [hother j hjp]
        exact h.mono i j hij hj
  · intro i hi
    by_cases hip : i = p
    · rw [hip, hp']
      omega
    · rw [hother i hip]
      exact h.le i hi
  · have hbits : max - len p = k - 1 + 1 := by omega
    have hbits' : max - (len p + 1) = k - 1 := by omega
    simp only [hbits, hbits', pow_succ] at hsum
    have hold := h.sum
    have hcast : ((∑ i ∈ range (last + 1), 2 ^ (max - len' i) : Nat) : Int) + 2 ^ (k - 1) * 2 =
        (∑ i ∈ range (last + 1), 2 ^ (max - len i) : Nat) + 2 ^ (k - 1) := by exact_mod_cast hsum
    rw [hold] at hcast
    linarith
  · have hold := h.deepest
    have hpow : (1 : Int) ≤ 2 ^ (k - 1) := by exact_mod_cast Nat.one_le_two_pow
    by_cases hover : cost < 2 ^ (k - 1)
    · have hge := h.deepest_ge (by omega) (hempty hover) hcost.le
      have hdouble : (2 : Int) ^ k = 2 * 2 ^ (k - 1) := by rw [← pow_succ', Nat.sub_add_cancel hk]
      omega
    · omega

/-- The first of the deepest leaves made one bit shorter. -/
theorem shorten (h : Limited len last max cost) (hcost : cost < 0) (hp : p ≤ last) (hlen : len p = max)
    (hfirst : ∀ i < p, len i < max) (hp' : len' p + 1 = len p) (hother : ∀ i, i ≠ p → len' i = len i) :
    Limited len' last max (cost + 1) := by
  have hsum := sum_update (fun n => 2 ^ (max - n)) hp hother
  have hdeep := deepestCount_update max hp hother
  rw [if_pos hlen, if_neg (by omega)] at hdeep
  refine ⟨?_, ?_, ?_, ?_⟩
  · intro i j hij hj
    have hdeeper : ∀ j, p < j → j ≤ last → len j = max := fun j hpj hj =>
      le_antisymm (h.le j hj) (hlen ▸ h.mono p j hpj.le hj)
    by_cases hi : i = p
    · subst hi
      rcases Nat.eq_or_lt_of_le hij with rfl | hlt
      · exact le_rfl
      · rw [hother j (by omega), hdeeper j hlt hj]
        omega
    · rw [hother i hi]
      by_cases hjp : j = p
      · subst hjp
        have := hfirst i (by omega)
        omega
      · rw [hother j hjp]
        exact h.mono i j hij hj
  · intro i hi
    by_cases hip : i = p
    · rw [hip]
      omega
    · rw [hother i hip]
      exact h.le i hi
  · have hbits : max - len p = 0 := by omega
    have hbits' : max - len' p = 1 := by omega
    simp only [hbits, hbits', pow_zero, pow_one] at hsum
    have hold := h.sum
    omega
  · have hold := h.deepest
    omega

end Limited

/-- Lengths that fill a tree of some depth: the deepest leaf has the depth. -/
structure Full (len : Nat → Nat) (last depth : Nat) : Prop where
  mono : ∀ i j, i ≤ j → j ≤ last → len i ≤ len j
  deepest : len last = depth
  sum : ∑ i ∈ range (last + 1), 2 ^ (depth - len i) = 2 ^ depth

/-- No leaf of a full tree of two leaves or more is its root. -/
theorem Full.pos {depth : Nat} (h : Full len last depth) (hlast : 1 ≤ last) :
    ∀ i ≤ last, 1 ≤ len i := by
  intro i hi
  by_contra hzero
  have hle : len 0 = 0 := by
    have := h.mono 0 i (Nat.zero_le i) hi
    omega
  have hsum := h.sum
  rw [show last = last - 1 + 1 by omega, sum_range_succ', sum_range_succ', hle, Nat.sub_zero] at hsum
  have hpow : 0 < 2 ^ (depth - len (0 + 1)) := by positivity
  omega

/-- The leaves that are too deep cut to the limit. -/
theorem Full.cut {depth : Nat} (h : Full len last depth) (hmax : max < depth) {total : Int}
    (htotal : total = ∑ i ∈ range (last + 1),
      if max < len i then (2 ^ (depth - max) - 2 ^ (depth - len i) : Int) else 0) :
    0 ≤ total / 2 ^ (depth - max) ∧ Limited (fun i => min (len i) max) last max (total / 2 ^ (depth - max)) := by
  have hle : ∀ i ≤ last, len i ≤ depth := fun i hi => h.deepest ▸ h.mono i last hi le_rfl
  -- in units of the deepest leaf
  have hscale : (2 ^ (depth - max) : Int) * ((∑ i ∈ range (last + 1), 2 ^ (max - min (len i) max) : Nat) : Int) =
      2 ^ depth + total := by
    have hfull : ((∑ i ∈ range (last + 1), 2 ^ (depth - len i) : Nat) : Int) = 2 ^ depth := by exact_mod_cast h.sum
    rw [← hfull, htotal]
    push_cast
    rw [mul_sum, ← sum_add_distrib]
    refine sum_congr rfl fun i hi => ?_
    have hi := hle i (Nat.le_of_lt_succ (mem_range.1 hi))
    split
    · rename_i hlt
      rw [Nat.min_eq_right hlt.le, Nat.sub_self, pow_zero]
      ring
    · rename_i hlt
      rw [Nat.min_eq_left (not_lt.1 hlt), ← pow_add, show depth - max + (max - len i) = depth - len i by omega]
      ring
  have hpow : (0 : Int) < 2 ^ (depth - max) := by positivity
  have hdepth : (2 ^ depth : Int) = 2 ^ (depth - max) * 2 ^ max := by rw [← pow_add, Nat.sub_add_cancel hmax.le]
  obtain ⟨t, ht⟩ : ∃ t : Int, total = 2 ^ (depth - max) * t := by
    refine ⟨((∑ i ∈ range (last + 1), 2 ^ (max - min (len i) max) : Nat) : Int) - 2 ^ max, ?_⟩
    rw [mul_sub, hscale, hdepth]
    ring
  have hdiv : total / 2 ^ (depth - max) = t := by rw [ht, Int.mul_ediv_cancel_left _ hpow.ne']
  -- every leaf that is cut costs less than one of the limit is worth
  have hcost : 0 ≤ total ∧ total < 2 ^ (depth - max) * deepestCount (fun i => min (len i) max) last max := by
    have hterm : ∀ i ∈ range (last + 1),
        0 ≤ (if max < len i then (2 ^ (depth - max) - 2 ^ (depth - len i) : Int) else 0) ∧
        (if max < len i then (2 ^ (depth - max) - 2 ^ (depth - len i) : Int) else 0) ≤
          2 ^ (depth - max) * (if min (len i) max = max then 1 else 0) := by
      intro i hi
      split
      · rename_i hlt
        rw [if_pos (Nat.min_eq_right hlt.le)]
        have h1 : (2 ^ (depth - len i) : Int) ≤ 2 ^ (depth - max) :=
          pow_le_pow_right₀ (by norm_num) (by omega)
        have h2 : (0 : Int) < 2 ^ (depth - len i) := by positivity
        constructor <;> linarith
      · exact ⟨le_rfl, by positivity⟩
    rw [htotal]
    refine ⟨sum_nonneg fun i hi => (hterm i hi).1, ?_⟩
    rw [deepestCount_eq_sum]
    push_cast
    rw [mul_sum]
    refine sum_lt_sum (fun i hi => (hterm i hi).2) ⟨last, mem_range.2 (Nat.lt_succ_self last), ?_⟩
    rw [h.deepest, if_pos hmax, if_pos (Nat.min_eq_right hmax.le), Nat.sub_self, pow_zero]
    linarith
  rw [hdiv]
  rw [ht] at hcost
  have hnonneg : 0 ≤ t := nonneg_of_mul_nonneg_right hcost.1 hpow
  refine ⟨hnonneg, ?_, fun i _ => min_le_right _ _, ?_, ?_⟩
  · intro i j hij hj
    exact min_le_min_right max (h.mono i j hij hj)
  · rw [ht, hdepth, ← mul_add] at hscale
    exact mul_left_cancel₀ hpow.ne' hscale
  · have := lt_of_mul_lt_mul_left hcost.2 hpow.le
    omega

theorem Limited.congr (h : Limited len last max cost) (hsame : ∀ i ≤ last, len' i = len i) :
    Limited len' last max cost := by
  refine ⟨fun i j hij hj => ?_, fun i hi => ?_, ?_, ?_⟩
  · rw [hsame i (hij.trans hj), hsame j hj]
    exact h.mono i j hij hj
  · rw [hsame i hi]
    exact h.le i hi
  · rw [← h.sum, sum_congr rfl fun i hi => by rw [hsame i (Nat.le_of_lt_succ (mem_range.1 hi))]]
  · rw [deepestCount, filter_congr fun i hi => by rw [hsame i (Nat.le_of_lt_succ (mem_range.1 hi))]]
    exact h.deepest

/-- The last leaf is one of the deepest. -/
theorem Limited.deepest_last (h : Limited len last max cost) : len last = max := by
  obtain ⟨i, hi⟩ := card_pos.1 (lt_of_le_of_lt (Nat.zero_le _) h.deepest)
  obtain ⟨hi, hlen⟩ := mem_filter.1 hi
  have hi := Nat.le_of_lt_succ (mem_range.1 hi)
  exact le_antisymm (h.le last le_rfl) (hlen ▸ h.mono i last hi le_rfl)

/-- Nothing owed: the lengths fill a tree of the limit's depth. -/
theorem Limited.full (h : Limited len last max 0) : Full len last max := by
  refine ⟨h.mono, h.deepest_last, ?_⟩
  have hsum := h.sum
  rw [add_zero] at hsum
  exact_mod_cast hsum

/-- The deepest leaves of a full tree come in pairs. -/
theorem Full.even_deepest {depth : Nat} (h : Full len last depth) (hdepth : 0 < depth) :
    2 ∣ deepestCount len last depth := by
  have hsplit : ∑ i ∈ range (last + 1), 2 ^ (depth - len i) = deepestCount len last depth +
      ∑ i ∈ range (last + 1), if len i = depth then 0 else 2 ^ (depth - len i) := by
    rw [deepestCount_eq_sum, ← sum_add_distrib]
    refine sum_congr rfl fun i _ => ?_
    split
    · rename_i heq
      rw [heq, Nat.sub_self, pow_zero, Nat.add_zero]
    · rw [Nat.zero_add]
  have hrest : 2 ∣ ∑ i ∈ range (last + 1), if len i = depth then 0 else 2 ^ (depth - len i) := by
    refine dvd_sum fun i hi => ?_
    have hle : len i ≤ depth := h.deepest ▸ h.mono i last (Nat.le_of_lt_succ (mem_range.1 hi)) le_rfl
    split
    · exact dvd_zero _
    · exact dvd_pow_self 2 (by omega)
  have hwhole : 2 ∣ 2 ^ depth := dvd_pow_self 2 hdepth.ne'
  rw [← h.sum, hsplit] at hwhole
  exact (Nat.dvd_add_iff_left hrest).2 hwhole

end LengthLimit
