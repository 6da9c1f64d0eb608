/-
Linked structures over positions: a node has a link in every direction, and a link leads to a node, to nothing or to a
mark. When the positions below a floor are given up and all others move down by one distance, the structure is
translated as soon as each of its links is.
-/
import Mathlib.Tactic

namespace Links

variable {ι : Type}

inductive Link where
  | nothing
  | mark
  | node (p : Nat)
deriving DecidableEq, Repr

/-- What is left of a link when the nodes below `low` are given up. -/
def Link.above (low : Nat) : Link → Link
  | .node p => if low ≤ p then .node p else .nothing
  | l => l

/-- The same, with the nodes that stay moved down by `d`. -/
def Link.moved (low d : Nat) : Link → Link
  | .node p => if low ≤ p then .node (p - d) else .nothing
  | l => l

@[simp] theorem Link.above_nothing (low : Nat) : Link.nothing.above low = .nothing := rfl
@[simp] theorem Link.above_mark (low : Nat) : Link.mark.above low = .mark := rfl
@[simp] theorem Link.moved_nothing (low d : Nat) : Link.nothing.moved low d = .nothing := rfl
@[simp] theorem Link.moved_mark (low d : Nat) : Link.mark.moved low d = .mark := rfl

theorem Link.above_node {low p : Nat} (h : low ≤ p) : (Link.node p).above low = .node p := if_pos h
theorem Link.above_node_below {low p : Nat} (h : p < low) : (Link.node p).above low = .nothing := if_neg (by omega)
theorem Link.moved_node {low d p : Nat} (h : low ≤ p) : (Link.node p).moved low d = .node (p - d) := if_pos h
theorem Link.moved_node_below {low d p : Nat} (h : p < low) : (Link.node p).moved low d = .nothing :=
  if_neg (by omega)

theorem Link.moved_above (low d : Nat) (l : Link) : (l.above low).moved low d = l.moved low d := by
  cases l with
  | nothing => rfl
  | mark => rfl
  | node p =>
    by_cases h : low ≤ p
    · rw [above_node h]
    · rw [above_node_below (by omega), moved_node_below (by omega), moved_nothing]

/-- Where a path of directions leads from a link; past an end there is nothing. -/
def follow (link : Nat → ι → Link) : List ι → Link → Link
  | [], l => l
  | i :: is, .node p => follow link is (link p i)
  | _ :: _, _ => .nothing

@[simp] theorem follow_nil (link : Nat → ι → Link) (l : Link) : follow link [] l = l := by
  cases l <;> rfl

@[simp] theorem follow_node (link : Nat → ι → Link) (i : ι) (is : List ι) (p : Nat) :
    follow link (i :: is) (.node p) = follow link is (link p i) := rfl

/-- The links of the nodes that stay, one by one: each is the old link moved, and leads below `live`. -/
structure Translated (low d live : Nat) (link link' : Nat → ι → Link) : Prop where
  moved : ∀ p i, low ≤ p → p < live → link' (p - d) i = (link p i).moved low d
  below : ∀ p i q, low ≤ p → p < live → link p i = .node q → q < live

/-- A path leads, after the move, to the moved image of where it led in the structure without what was given up. -/
theorem Translated.follow_eq {low d live : Nat} {link link' : Nat → ι → Link} (h : Translated low d live link link') :
    ∀ (path : List ι) (l : Link), (∀ p, l = .node p → p < live) →
      follow link' path (l.moved low d) =
        (follow (fun p i => (link p i).above low) path (l.above low)).moved low d
  | [], l, _ => by rw [follow_nil, follow_nil, Link.moved_above]
  | _ :: _, .nothing, _ => rfl
  | _ :: _, .mark, _ => rfl
  | i :: is, .node p, hl => by
    by_cases hp : low ≤ p
    · -- the first node stays, so both walks take the same step
      rw [Link.moved_node hp, Link.above_node hp, follow_node, follow_node, h.moved p i hp (hl p rfl)]
      rw [h.follow_eq is (link p i) fun q hq => h.below p i q hp (hl p rfl) hq]
    · rw [Link.moved_node_below (by omega), Link.above_node_below (by omega)]; rfl

end Links
