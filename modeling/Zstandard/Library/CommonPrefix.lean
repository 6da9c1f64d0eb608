/-
The length of the longest common prefix of two lists, and how a comparison in pieces finds it.

A comparison that has reached `pos` without a difference looks at the next `n` elements of both lists: the common
prefix of the two pieces is what is left of the common prefix of the lists, cut at `n` (`commonPrefix_piece`). So a
piece that agrees lets it go on to `pos + n`, and a piece that does not gives the answer.
-/
import Mathlib.Tactic

namespace CommonPrefix

variable {α : Type} [DecidableEq α]

def commonPrefix : List α → List α → Nat
  | a :: l, b :: r => if a = b then commonPrefix l r + 1 else 0
  | _, _ => 0

/-- It is the largest length to which both lists reach and agree. -/
theorem le_commonPrefix_iff : ∀ {l r : List α} {n : Nat},
    n ≤ commonPrefix l r ↔ n ≤ l.length ∧ n ≤ r.length ∧ l.take n = r.take n
  | l, r, 0 => by simp
  | [], r, n + 1 => by simp [commonPrefix]
  | a :: l, [], n + 1 => by simp [commonPrefix]
  | a :: l, b :: r, n + 1 => by
    unfold commonPrefix
    simp only [List.length_cons, Nat.succ_le_succ_iff, List.take_succ_cons, List.cons.injEq]
    split
    · rename_i heq
      rw [Nat.succ_le_succ_iff, le_commonPrefix_iff]
      constructor
      · rintro ⟨hl, hr, htake⟩
        exact ⟨hl, hr, heq, htake⟩
      · rintro ⟨hl, hr, -, htake⟩
        exact ⟨hl, hr, htake⟩
    · rename_i hne
      constructor
      · intro h
        omega
      · rintro ⟨-, -, heq, -⟩
        exact absurd heq hne

theorem commonPrefix_le_left (l r : List α) : commonPrefix l r ≤ l.length := (le_commonPrefix_iff.1 le_rfl).1

theorem commonPrefix_le_right (l r : List α) : commonPrefix l r ≤ r.length := (le_commonPrefix_iff.1 le_rfl).2.1

/-- The next `n` elements, after `pos` that agree. -/
theorem commonPrefix_piece {l r : List α} {pos : Nat} (n : Nat) (hpos : pos ≤ commonPrefix l r) :
    commonPrefix ((l.drop pos).take n) ((r.drop pos).take n) = min n (commonPrefix l r - pos) := by
  have hl := commonPrefix_le_left l r
  have hr := commonPrefix_le_right l r
  have hagree := (le_commonPrefix_iff.1 hpos).2.2
  -- both sides have the same lower bounds
  have hiff : ∀ k, k ≤ commonPrefix ((l.drop pos).take n) ((r.drop pos).take n) ↔
      k ≤ min n (commonPrefix l r - pos) := by
    intro k
    rw [le_commonPrefix_iff, List.length_take, List.length_take, List.length_drop, List.length_drop, List.take_take,
      List.take_take]
    constructor
    · rintro ⟨hkl, hkr, htake⟩
      rw [min_eq_left (by omega)] at htake
      have : pos + k ≤ commonPrefix l r := by
        refine le_commonPrefix_iff.2 ⟨by omega, by omega, ?_⟩
        rw [List.take_add, List.take_add, hagree, htake]
      omega
    · intro hk
      have hall := le_commonPrefix_iff.1 (show pos + k ≤ commonPrefix l r by omega)
      refine ⟨by omega, by omega, ?_⟩
      rw [min_eq_left (by omega), List.take_drop, List.take_drop, hall.2.2]
  exact le_antisymm ((hiff _).1 le_rfl) ((hiff _).2 le_rfl)

theorem commonPrefix_take {l r : List α} (n : Nat) :
    commonPrefix (l.take n) (r.take n) = min n (commonPrefix l r) := by
  have := commonPrefix_piece (l := l) (r := r) n (Nat.zero_le _)
  rwa [List.drop_zero, List.drop_zero, Nat.sub_zero] at this

/-- Everything after `pos` that agree. -/
theorem commonPrefix_drop {l r : List α} {pos : Nat} (hpos : pos ≤ commonPrefix l r) :
    commonPrefix (l.drop pos) (r.drop pos) = commonPrefix l r - pos := by
  have hl := commonPrefix_le_left (l.drop pos) (r.drop pos)
  have hr := commonPrefix_le_right (l.drop pos) (r.drop pos)
  have hpiece := commonPrefix_piece (commonPrefix (l.drop pos) (r.drop pos) + commonPrefix l r) hpos
  rw [commonPrefix_take] at hpiece
  omega

/-- Two lists of one length are equal, or they differ inside. -/
theorem commonPrefix_lt_iff {l r : List α} (hlength : l.length = r.length) : commonPrefix l r < l.length ↔ l ≠ r := by
  rw [← not_le, not_iff_not, le_commonPrefix_iff]
  constructor
  · rintro ⟨-, -, htake⟩
    rwa [List.take_length, hlength, List.take_length] at htake
  · rintro rfl
    exact ⟨le_rfl, le_rfl, rfl⟩

end CommonPrefix
