/-
Prefix codes over any alphabet, read from the top of a stack of bits.

A complete code of some depth gives every word of that many bits the one symbol whose code it begins with. A stream
then spells its symbols in one way only. What a table says of a few bits holds of the stream they were taken from,
also where the bits behind its end were filled up with zeros.
-/
import Zstandard.Library.BitStack

namespace PrefixCode

open BitStack

variable {α : Type} {code : α → Field} {stream p q r : Nat} {s s' : α} {a b : List α}

/-! ## Spelling -/

/-- At bit `p` the stream goes on with the code of `s`. -/
structure Heads (code : α → Field) (stream p : Nat) (s : α) : Prop where
  pos : 0 < (code s).2
  le : (code s).2 ≤ p
  bits : field stream p (code s).2 = (code s).1

/-- From bit `p` down to bit `q` the stream is the codes of some symbols, the first one on top. -/
def Spells (code : α → Field) (stream : Nat) : Nat → List α → Nat → Prop
  | p, [], q => p = q
  | p, s :: a, q => Heads code stream p s ∧ Spells code stream (p - (code s).2) a q

theorem Spells.le : ∀ {a : List α} {p : Nat}, Spells code stream p a q → q ≤ p
  | [], _, h => le_of_eq h.symm
  | _ :: _, _, h => (Spells.le h.2).trans (Nat.sub_le _ _)

theorem Spells.append : ∀ {a : List α} {p : Nat}, Spells code stream p a q → Spells code stream q b r →
    Spells code stream p (a ++ b) r
  | [], _, h, hb => by cases h; exact hb
  | _ :: _, _, h, hb => ⟨h.1, h.2.append hb⟩

theorem Heads.spells (h : Heads code stream p s) : Spells code stream p [s] (p - (code s).2) := ⟨h, rfl⟩

/-- A stream that ends in the codes of some symbols is the stack of their codes. -/
theorem spells_zero_iff (hfit : ∀ s, (code s).1 < 2 ^ (code s).2) : ∀ {a : List α} {p : Nat},
    Spells code stream p a 0 ↔ (∀ s ∈ a, 0 < (code s).2) ∧ Reads stream p (a.reverse.map code)
  | [], p => by
    constructor
    · intro h
      cases h
      exact ⟨by simp, rfl, by simp [Nat.mod_one]⟩
    · rintro ⟨-, h⟩
      exact h.depth
  | s :: a, p => by
    have ih := @spells_zero_iff hfit a (p - (code s).2)
    rw [List.reverse_cons, List.map_append, List.map_singleton, Reads.snoc_iff, Nat.mod_eq_of_lt (hfit s),
      List.forall_mem_cons]
    constructor
    · rintro ⟨h, hrest⟩
      exact ⟨⟨h.pos, (ih.1 hrest).1⟩, h.le, h.bits, (ih.1 hrest).2⟩
    · rintro ⟨⟨hpos, hall⟩, hle, hbits, hrest⟩
      exact ⟨⟨hpos, hle, hbits⟩, ih.2 ⟨hall, hrest⟩⟩

/-! ## Words out of a stream -/

theorem Heads.pad (h : Heads code stream p s) (k : Nat) : Heads code (stream <<< k) (p + k) s :=
  ⟨h.pos, h.le.trans (Nat.le_add_right _ _), by rw [field_pad k h.le]; exact h.bits⟩

theorem Spells.pad (k : Nat) : ∀ {a : List α} {p : Nat}, Spells code stream p a q →
    Spells code (stream <<< k) (p + k) a (q + k)
  | [], _, h => by cases h; rfl
  | s :: a, p, h => by
    have ih := Spells.pad k h.2
    rw [← Nat.sub_add_comm h.1.le] at ih
    exact ⟨h.1.pad k, ih⟩

theorem Heads.of_pad {k : Nat} (h : Heads code (stream <<< k) (p + k) s) (hs : (code s).2 ≤ p) :
    Heads code stream p s :=
  ⟨h.pos, hs, by rw [← field_pad k hs]; exact h.bits⟩

theorem Spells.of_pad {k : Nat} : ∀ {a : List α} {p : Nat}, Spells code (stream <<< k) (p + k) a (q + k) →
    Spells code stream p a q
  | [], _, h => Nat.add_right_cancel h
  | s :: a, p, h => by
    have hle := h.2.le
    have hs : (code s).2 ≤ p := by
      have := h.1.le
      omega
    have hrest := h.2
    rw [Nat.sub_add_comm hs] at hrest
    exact ⟨h.1.of_pad hs, hrest.of_pad⟩

/-- The word read at `p` begins as the stream goes on there. -/
theorem Heads.field {n : Nat} (h : Heads code stream p s) (hs : (code s).2 ≤ n) (hn : n ≤ p) :
    Heads code (field stream p n) n s :=
  ⟨h.pos, hs, by rw [field_field hs (le_refl n) hn, Nat.sub_self, Nat.sub_zero]; exact h.bits⟩

theorem Heads.of_field {n t : Nat} (h : Heads code (BitStack.field stream p n) t s) (ht : t ≤ n) (hn : n ≤ p) :
    Heads code stream (p - (n - t)) s := by
  have hle := h.le
  exact ⟨h.pos, by omega, by rw [← field_field hle ht hn]; exact h.bits⟩

/-- What a word spells, the stream it was read from spells. -/
theorem Spells.of_field {n : Nat} (hn : n ≤ p) : ∀ {a : List α} {t t' : Nat}, t ≤ n →
    Spells code (BitStack.field stream p n) t a t' → Spells code stream (p - (n - t)) a (p - (n - t'))
  | [], _, _, _, h => by cases h; rfl
  | s :: a, t, t', ht, h => by
    have ih := Spells.of_field hn (show t - (code s).2 ≤ n by omega) h.2
    have hle := h.1.le
    rw [show p - (n - (t - (code s).2)) = p - (n - t) - (code s).2 by omega] at ih
    exact ⟨h.1.of_field ht hn, ih⟩

/-! ## Complete codes -/

/-- Every word of `depth` bits begins with the code of exactly one symbol. -/
structure Complete (code : α → Field) (depth : Nat) : Prop where
  le : ∀ s, (code s).2 ≤ depth
  covers : ∀ v < 2 ^ depth, ∃ s, Heads code v depth s
  unique : ∀ v s s', Heads code v depth s → Heads code v depth s' → s = s'

variable {depth : Nat}

theorem Complete.heads_unique (hc : Complete code depth) (h : Heads code stream p s) (h' : Heads code stream p s') :
    s = s' :=
  hc.unique _ s s' ((h.pad depth).field (hc.le s) (Nat.le_add_left _ _))
    ((h'.pad depth).field (hc.le s') (Nat.le_add_left _ _))

/-- Of two spellings from one bit the longer one goes on where the shorter one ends. -/
theorem Complete.spells_prefix (hc : Complete code depth) : ∀ {a b : List α} {p : Nat},
    Spells code stream p a q → Spells code stream p b r → a.length ≤ b.length →
      ∃ c, b = a ++ c ∧ Spells code stream q c r
  | [], b, _, ha, hb, _ => by cases ha; exact ⟨b, rfl, hb⟩
  | s :: a, s' :: b, p, ha, hb, hlen => by
    obtain rfl := hc.heads_unique ha.1 hb.1
    obtain ⟨c, rfl, hrest⟩ := Complete.spells_prefix hc ha.2 hb.2 (Nat.le_of_succ_le_succ hlen)
    exact ⟨c, rfl, hrest⟩

end PrefixCode
