/-
Tabled asymmetric numeral systems, over any alphabet: a table of `2 ^ log` slots gives every symbol as
many states as it has slots.

A state of the encoder is a number from `2 ^ log` to twice that, a slot number above `2 ^ log`. To
encode a symbol with `c` slots it sheds low bits until the rest `x` is from `c` to `2 * c`, and goes to
the slot where the symbol occurs for the `x - c`-th time. The decoder finds `x` again from the slot
(`select_spec`) and with it how many bits were shed (`shed_unique`).
-/
import Mathlib.Tactic

namespace Tans

section
variable {α : Type} [DecidableEq α]

/-- The slot where `a` occurs for the `r`-th time, the first being the 0-th. -/
def select (a : α) : List α → Nat → Nat
  | [], _ => 0
  | b :: slots, r => if b = a then (if r = 0 then 0 else select a slots (r - 1) + 1) else select a slots r + 1

theorem select_spec {a : α} : ∀ {slots : List α} {r : Nat}, r < slots.count a →
    slots[select a slots r]? = some a ∧ (slots.take (select a slots r)).count a = r
  | [], r, h => by simp at h
  | b :: slots, r, h => by
    unfold select
    by_cases hb : b = a
    · subst hb
      rw [if_pos rfl]
      rw [List.count_cons_self] at h
      by_cases h0 : r = 0
      · simp [h0]
      · obtain ⟨h1, h2⟩ := select_spec (show r - 1 < slots.count b by omega)
        rw [if_neg h0, List.getElem?_cons_succ, List.take_succ_cons, List.count_cons_self, h2]
        exact ⟨h1, by omega⟩
    · rw [if_neg hb]
      rw [List.count_cons_of_ne hb] at h
      obtain ⟨h1, h2⟩ := select_spec h
      rw [List.getElem?_cons_succ, List.take_succ_cons, List.count_cons_of_ne hb]
      exact ⟨h1, h2⟩

theorem select_lt {a : α} {slots : List α} {r : Nat} (h : r < slots.count a) : select a slots r < slots.length := by
  obtain ⟨h1, -⟩ := select_spec h
  exact (List.getElem?_eq_some_iff.1 h1).1

/-- A slot is found again from its symbol and how often that occurs before it. -/
theorem select_count {a : α} : ∀ {slots : List α} {u : Nat}, slots[u]? = some a →
    select a slots ((slots.take u).count a) = u
  | [], u, h => by simp at h
  | b :: slots, 0, h => by
    cases h
    simp [select]
  | b :: slots, u + 1, h => by
    rw [List.getElem?_cons_succ] at h
    have ih := select_count h
    unfold select
    rw [List.take_succ_cons]
    by_cases hb : b = a
    · subst hb
      rw [if_pos rfl, List.count_cons_self, if_neg (by omega), Nat.add_sub_cancel, ih]
    · rw [if_neg hb, List.count_cons_of_ne hb, ih]

theorem count_take_lt {a : α} : ∀ {slots : List α} {u : Nat}, slots[u]? = some a →
    (slots.take u).count a < slots.count a
  | [], u, h => by simp at h
  | b :: slots, 0, h => by
    cases h
    simp
  | b :: slots, u + 1, h => by
    rw [List.getElem?_cons_succ] at h
    have ih := count_take_lt h
    rw [List.take_succ_cons, List.count_cons, List.count_cons]
    omega

end

/-! ## Shedding bits -/

variable {log v n : Nat}

theorem log2_state (h1 : 2 ^ log ≤ v) (h2 : v < 2 ^ (log + 1)) : Nat.log2 v = log := by
  have : 0 < 2 ^ log := by positivity
  exact (Nat.log2_eq_iff (by omega)).2 ⟨h1, h2⟩

/-- What is left of a state has as many bits fewer as were shed. -/
theorem shed_unique (h1 : 2 ^ log ≤ v) (h2 : v < 2 ^ (log + 1)) (hx : 0 < v >>> n) :
    n ≤ log ∧ log - Nat.log2 (v >>> n) = n := by
  rw [Nat.shiftRight_eq_div_pow] at hx ⊢
  have hn : n ≤ log := by
    by_contra hc
    have : 2 ^ (log + 1) ≤ 2 ^ n := Nat.pow_le_pow_right (by norm_num) (by omega)
    rw [Nat.div_eq_of_lt (by omega)] at hx
    omega
  refine ⟨hn, ?_⟩
  have hlog : Nat.log2 (v / 2 ^ n) = log - n := by
    refine (Nat.log2_eq_iff (by omega)).2 ⟨?_, ?_⟩
    · rw [Nat.le_div_iff_mul_le (by positivity), ← pow_add, Nat.sub_add_cancel hn]
      exact h1
    · rw [Nat.div_lt_iff_lt_mul (by positivity), ← pow_add, show log - n + 1 + n = log + 1 by omega]
      exact h2
  omega

/-- Only one number of bits shed leaves `c` to `2 * c`. -/
theorem shed_once {c m : Nat} (hn : c ≤ v >>> n ∧ v >>> n < 2 * c) (hm : c ≤ v >>> m ∧ v >>> m < 2 * c) : n = m := by
  have hhalf : ∀ {i j : Nat}, i < j → v >>> j ≤ (v >>> i) / 2 := by
    intro i j hij
    have hpow : v >>> (i + 1) = (v >>> i) / 2 := by rw [Nat.shiftRight_add]; rfl
    rw [← hpow, Nat.shiftRight_eq_div_pow, Nat.shiftRight_eq_div_pow]
    exact Nat.div_le_div_left (Nat.pow_le_pow_right (by norm_num) hij) (by positivity)
  rcases Nat.lt_trichotomy n m with hlt | heq | hgt
  · have := hhalf hlt
    omega
  · exact heq
  · have := hhalf hgt
    omega

/-- The decoder's baseline and the bits shed give the state back. -/
theorem shed_restore (h1 : 2 ^ log ≤ v) (h2 : v < 2 ^ (log + 1)) (hx : 0 < v >>> n) :
    ((v >>> n) <<< n - 2 ^ log) + v % 2 ^ n = v - 2 ^ log := by
  obtain ⟨hn, hlog⟩ := shed_unique h1 h2 hx
  have hle : 2 ^ log ≤ (v >>> n) <<< n := by
    have h3 := Nat.log2_self_le (by omega : v >>> n ≠ 0)
    have h4 : Nat.log2 (v >>> n) = log - n := by
      have := Nat.log2_lt (n := v >>> n) (k := log + 1) (by omega)
      have h5 : v >>> n < 2 ^ (log + 1) := lt_of_le_of_lt (Nat.shiftRight_le v n) h2
      have := this.2 h5
      omega
    rw [h4] at h3
    rw [Nat.shiftLeft_eq]
    calc 2 ^ log = 2 ^ (log - n) * 2 ^ n := by rw [← pow_add, Nat.sub_add_cancel hn]
      _ ≤ (v >>> n) * 2 ^ n := Nat.mul_le_mul_right _ h3
  have hsplit : (v >>> n) <<< n + v % 2 ^ n = v := by
    rw [Nat.shiftRight_eq_div_pow, Nat.shiftLeft_eq, Nat.mul_comm]
    exact Nat.div_add_mod v (2 ^ n)
  omega

end Tans
