/-
Ranges of places that tile a stretch: each begins where the one before it ends.

A tiling of a list cuts it into pieces that give it back when they are put together (`Tiles.flatten`), and two of its
ranges have no place in common (`Tiles.disjoint`).
-/
import Mathlib.Tactic

namespace Tiling

/-- The ranges lead from `start` to `stop` without a gap or an overlap. -/
def Tiles : List (Nat × Nat) → Nat → Nat → Prop
  | [], start, stop => start = stop
  | r :: rest, start, stop => r.1 = start ∧ r.1 ≤ r.2 ∧ Tiles rest r.2 stop

theorem Tiles.le : ∀ {ranges : List (Nat × Nat)} {start stop : Nat}, Tiles ranges start stop → start ≤ stop
  | [], _, _, h => Nat.le_of_eq h
  | r :: rest, _, _, ⟨hstart, hle, hrest⟩ => by
    have := hrest.le
    omega

theorem Tiles.within : ∀ {ranges : List (Nat × Nat)} {start stop : Nat}, Tiles ranges start stop → ∀ r ∈ ranges,
    start ≤ r.1 ∧ r.1 ≤ r.2 ∧ r.2 ≤ stop
  | [], _, _, _, r, hr => absurd hr List.not_mem_nil
  | q :: rest, _, _, ⟨hstart, hle, hrest⟩, r, hr => by
    have hend := hrest.le
    rcases List.mem_cons.1 hr with rfl | hr
    · omega
    · have := hrest.within r hr
      omega

/-- Every range ends before the later ones begin. -/
theorem Tiles.disjoint : ∀ {ranges : List (Nat × Nat)} {start stop : Nat}, Tiles ranges start stop →
    ranges.Pairwise fun r s => r.2 ≤ s.1
  | [], _, _, _ => .nil
  | _ :: _, _, _, ⟨_, _, hrest⟩ => List.pairwise_cons.2 ⟨fun s hs => (hrest.within s hs).1, hrest.disjoint⟩

/-- The pieces sum to the stretch. -/
theorem Tiles.sum : ∀ {ranges : List (Nat × Nat)} {start stop : Nat}, Tiles ranges start stop →
    (ranges.map fun r => r.2 - r.1).sum = stop - start
  | [], start, stop, h => by
    have heq : start = stop := h
    rw [heq, Nat.sub_self, List.map_nil, List.sum_nil]
  | r :: rest, _, _, ⟨hstart, hle, hrest⟩ => by
    have := hrest.le
    rw [List.map_cons, List.sum_cons, hrest.sum]
    omega

/-- The pieces of a list, put together again. -/
theorem Tiles.flatten {α : Type} (l : List α) : ∀ {ranges : List (Nat × Nat)} {start : Nat},
    Tiles ranges start l.length → (ranges.map fun r => (l.drop r.1).take (r.2 - r.1)).flatten = l.drop start
  | [], _, h => (List.drop_of_length_le (Nat.le_of_eq (Eq.symm h))).symm
  | r :: rest, _, ⟨hstart, hle, hrest⟩ => by
    rw [List.map_cons, List.flatten_cons, hrest.flatten l, ← hstart, show l.drop r.2 = (l.drop r.1).drop (r.2 - r.1) by
      rw [List.drop_drop, Nat.add_sub_cancel' hle], List.take_append_drop]

end Tiling
