/-
A stack of bits inside one number.

Fields are pushed on top of each other, the first one lowest, and read back from the top: reading `n`
bits at depth `p` gives the bits just below `p` and leaves the depth `p - n`. What is pushed above a
depth does not change what is read below it, so a stream that ends in a stack reads as that stack.
-/
import Mathlib.Tactic

namespace BitStack

/-! ## Reading -/

/-- The `n` bits of `stream` just below bit `p`. -/
def field (stream p n : Nat) : Nat := stream >>> (p - n) % 2 ^ n

theorem field_lt (stream p n : Nat) : field stream p n < 2 ^ n := Nat.mod_lt _ (by positivity)

@[simp] theorem field_zero (stream p : Nat) : field stream p 0 = 0 := by simp [field, Nat.mod_one]

theorem field_eq_div (stream p n : Nat) : field stream p n = stream / 2 ^ (p - n) % 2 ^ n := by
  rw [field, Nat.shiftRight_eq_div_pow]

/-- One wide read is the narrow reads it covers, the first in its high bits. -/
theorem field_add {stream p m n : Nat} (h : m + n ≤ p) :
    field stream p (m + n) = field stream p m * 2 ^ n + field stream (p - m) n := by
  have h1 : p - m = p - (m + n) + n := by omega
  have h2 : p - m - n = p - (m + n) := by omega
  simp only [field_eq_div]
  rw [h2, h1, pow_add 2 (p - (m + n)) n, ← Nat.div_div_eq_div_mul, pow_add, Nat.mul_comm (2 ^ m),
    Nat.mod_mul, Nat.mul_comm (2 ^ n), Nat.add_comm]

/-- The high part of a wide read. -/
theorem field_add_div {stream p m n : Nat} (h : m + n ≤ p) :
    field stream p (m + n) / 2 ^ n = field stream p m := by
  rw [field_add h, Nat.add_comm, Nat.add_mul_div_right _ _ (by positivity), Nat.div_eq_of_lt (field_lt _ _ _),
    Nat.zero_add]

/-- The low part of a wide read. -/
theorem field_add_mod {stream p m n : Nat} (h : m + n ≤ p) :
    field stream p (m + n) % 2 ^ n = field stream (p - m) n := by
  rw [field_add h, Nat.add_comm, Nat.add_mul_mod_self_right, Nat.mod_eq_of_lt (field_lt _ _ _)]

/-- Bits above the depth are not read. -/
theorem field_mod {stream p n k : Nat} (hn : n ≤ p) (hp : p ≤ k) :
    field (stream % 2 ^ k) p n = field stream p n := by
  have h1 : k = (p - n) + (k - (p - n)) := by omega
  rw [field_eq_div, field_eq_div, h1, pow_add, Nat.mod_mul_right_div_self,
    Nat.mod_mod_of_dvd _ (pow_dvd_pow 2 (by omega))]

/-- Bits below the read are not read either. -/
theorem field_shift {stream p n k : Nat} (hk : k + n ≤ p) :
    field (stream >>> k) (p - k) n = field stream p n := by
  have h1 : p - n = k + (p - k - n) := by omega
  rw [field, field, ← Nat.shiftRight_add, ← h1]

/-- A read inside a word that was itself read. -/
theorem field_field {stream p q n t : Nat} (hn : n ≤ t) (ht : t ≤ q) (hq : q ≤ p) :
    field (field stream p q) t n = field stream (p - (q - t)) n := by
  have hk : p - (q - t) - (p - q) = t := by omega
  conv_lhs => rw [field.eq_1 stream p q, field_mod hn ht, ← hk]
  exact field_shift (by omega)

/-- Zeros below a stream. -/
theorem field_pad {stream p n : Nat} (k : Nat) (hn : n ≤ p) : field (stream <<< k) (p + k) n = field stream p n := by
  rw [← field_shift (show k + n ≤ p + k by omega), Nat.add_sub_cancel, Nat.shiftLeft_eq, Nat.shiftRight_eq_div_pow,
    Nat.mul_div_cancel _ (by positivity)]

/-- The top bit of a number whose low `k` bits are split off. -/
theorem log2_add_mul {low x k : Nat} (hlow : low < 2 ^ k) (hx : x ≠ 0) :
    Nat.log2 (low + 2 ^ k * x) = k + Nat.log2 x := by
  have hpos : 0 < 2 ^ k := by positivity
  have hne : low + 2 ^ k * x ≠ 0 := by
    have : 0 < 2 ^ k * x := Nat.mul_pos hpos (by omega)
    omega
  rw [Nat.log2_eq_iff hne]
  have h1 : 2 ^ Nat.log2 x ≤ x := Nat.log2_self_le hx
  have h2 : x + 1 ≤ 2 ^ (Nat.log2 x + 1) := Nat.lt_log2_self
  constructor
  · rw [pow_add]
    calc 2 ^ k * 2 ^ Nat.log2 x ≤ 2 ^ k * x := Nat.mul_le_mul_left _ h1
      _ ≤ low + 2 ^ k * x := Nat.le_add_left _ _
  · rw [Nat.add_assoc, pow_add]
    calc low + 2 ^ k * x < 2 ^ k * 1 + 2 ^ k * x := by omega
      _ = 2 ^ k * (x + 1) := by ring
      _ ≤ 2 ^ k * 2 ^ (Nat.log2 x + 1) := Nat.mul_le_mul_left _ h2

/-! ## Pushing -/

/-- A field as it is pushed: its value, of which the low bits count, and its width. -/
abbrev Field := Nat × Nat

/-- The depth of a stack of fields. -/
def width (fs : List Field) : Nat := (fs.map (·.2)).sum

/-- The number a stack of fields is, the first field in its lowest bits. -/
def pack : List Field → Nat
  | [] => 0
  | f :: fs => f.1 % 2 ^ f.2 + 2 ^ f.2 * pack fs

@[simp] theorem width_nil : width [] = 0 := rfl
@[simp] theorem width_cons (f : Field) (fs : List Field) : width (f :: fs) = f.2 + width fs := by simp [width]
@[simp] theorem width_append (a b : List Field) : width (a ++ b) = width a + width b := by simp [width]
@[simp] theorem pack_nil : pack [] = 0 := rfl

theorem pack_lt : ∀ fs : List Field, pack fs < 2 ^ width fs
  | [] => by simp
  | f :: fs => by
    have h := pack_lt fs
    have hf : f.1 % 2 ^ f.2 < 2 ^ f.2 := Nat.mod_lt _ (by positivity)
    rw [pack, width_cons, pow_add]
    calc f.1 % 2 ^ f.2 + 2 ^ f.2 * pack fs < 2 ^ f.2 * 1 + 2 ^ f.2 * pack fs := by omega
      _ = 2 ^ f.2 * (pack fs + 1) := by ring
      _ ≤ 2 ^ f.2 * 2 ^ width fs := Nat.mul_le_mul_left _ h

theorem pack_append : ∀ a b : List Field, pack (a ++ b) = pack a + 2 ^ width a * pack b
  | [], b => by simp
  | f :: a, b => by
    rw [List.cons_append, pack, pack, pack_append a b, width_cons, pow_add]
    ring

/-- How high the bits of a stack reach depends on its top. -/
theorem pack_append_lt (a b : List Field) (k : Nat) : pack (a ++ b) < 2 ^ (width a + k) ↔ pack b < 2 ^ k := by
  rw [pack_append, pow_add]
  have ha := pack_lt a
  constructor
  · intro h
    exact Nat.lt_of_mul_lt_mul_left (lt_of_le_of_lt (Nat.le_add_left _ _) h)
  · intro h
    calc pack a + 2 ^ width a * pack b < 2 ^ width a * (pack b + 1) := by rw [Nat.mul_add]; omega
      _ ≤ 2 ^ width a * 2 ^ k := Nat.mul_le_mul_left _ h

/-- What lies below the last `b` of a stack. -/
theorem pack_append_mod (a b : List Field) : pack (a ++ b) % 2 ^ width a = pack a := by
  rw [pack_append, Nat.add_mul_mod_self_left, Nat.mod_eq_of_lt (pack_lt a)]

/-- The top field is read first. -/
theorem field_pack (a b : List Field) (v n : Nat) :
    field (pack (a ++ (v, n) :: b)) (width a + n) n = v % 2 ^ n := by
  rw [field_eq_div, Nat.add_sub_cancel, pack_append, Nat.add_mul_div_left _ _ (by positivity),
    Nat.div_eq_of_lt (pack_lt a), Nat.zero_add, pack, Nat.add_mul_mod_self_left, Nat.mod_mod]

/-! ## Streams that end in a stack -/

/-- At depth `p`, `stream` reads as the stack `fs`, its top first. -/
structure Reads (stream p : Nat) (fs : List Field) : Prop where
  depth : p = width fs
  bits : stream % 2 ^ p = pack fs

/-- A stack followed by a mark at its top. -/
theorem Reads.marked (fs : List Field) : Reads (pack fs + 2 ^ width fs) (width fs) fs :=
  ⟨rfl, by rw [Nat.add_mod_right, Nat.mod_eq_of_lt (pack_lt fs)]⟩

section
variable {stream p : Nat} {fs : List Field} {v n : Nat}

theorem Reads.width_le (h : Reads stream p (fs ++ [(v, n)])) : n ≤ p := by
  rw [h.depth, width_append, width_cons]
  omega

/-- Reading the top field. -/
theorem Reads.field (h : Reads stream p (fs ++ [(v, n)])) : field stream p n = v % 2 ^ n := by
  rw [← field_mod h.width_le (le_refl p), h.bits]
  have hd := h.depth
  rw [width_append, width_cons, width_nil, Nat.add_zero] at hd
  rw [hd]
  exact field_pack fs [] v n

/-- What the top field leaves. -/
theorem Reads.pop (h : Reads stream p (fs ++ [(v, n)])) : Reads stream (p - n) fs := by
  have hd := h.depth
  rw [width_append, width_cons, width_nil, Nat.add_zero] at hd
  have hp : p - n = width fs := by omega
  refine ⟨hp, ?_⟩
  rw [hp, ← pack_append_mod fs [(v, n)], ← h.bits, Nat.mod_mod_of_dvd _ (pow_dvd_pow 2 (by omega))]

end

theorem Reads.snoc_iff {stream p v n : Nat} {fs : List Field} :
    Reads stream p (fs ++ [(v, n)]) ↔ n ≤ p ∧ BitStack.field stream p n = v % 2 ^ n ∧ Reads stream (p - n) fs := by
  constructor
  · intro h
    exact ⟨h.width_le, h.field, h.pop⟩
  · rintro ⟨hle, htop, hbelow⟩
    have hd := hbelow.depth
    refine ⟨by rw [width_append, width_cons, width_nil]; omega, ?_⟩
    rw [pack_append, pack, pack_nil, ← htop, ← hbelow.bits, ← hd, field_eq_div, Nat.mul_zero, Nat.add_zero]
    conv_lhs => rw [show p = p - n + n by omega, pow_add, Nat.mod_mul]

/-! ## Streams that begin with a stack -/

/-- `stream` begins with the stack `fs`, the lowest field first. -/
def Begins (stream : Nat) (fs : List Field) : Prop := stream % 2 ^ width fs = pack fs

section
variable {stream : Nat} {a b fs : List Field} {v n : Nat}

theorem Begins.pack (fs : List Field) (high : Nat) : Begins (pack fs + 2 ^ width fs * high) fs := by
  unfold Begins
  rw [Nat.add_mul_mod_self_left, Nat.mod_eq_of_lt (pack_lt fs)]

theorem Begins.left (h : Begins stream (a ++ b)) : Begins stream a := by
  unfold Begins at *
  rw [← pack_append_mod a b, ← h, Nat.mod_mod_of_dvd _ (pow_dvd_pow 2 (by rw [width_append]; omega))]

theorem Begins.right (h : Begins stream (a ++ b)) : Begins (stream >>> width a) b := by
  unfold Begins at *
  rw [width_append, pow_add, pack_append] at h
  rw [Nat.shiftRight_eq_div_pow]
  have h1 := congrArg (· / 2 ^ width a) h
  beta_reduce at h1
  rw [Nat.mod_mul_right_div_self, Nat.add_mul_div_left _ _ (by positivity), Nat.div_eq_of_lt (pack_lt a),
    Nat.zero_add] at h1
  exact h1

/-- The lowest field. -/
theorem Begins.head (h : Begins stream ((v, n) :: fs)) : stream % 2 ^ n = v % 2 ^ n := by
  have := Begins.left (a := [(v, n)]) (b := fs) h
  unfold Begins at this
  simpa [BitStack.pack] using this

/-- What follows the lowest field. -/
theorem Begins.tail (h : Begins stream ((v, n) :: fs)) : Begins (stream >>> n) fs := by
  have := Begins.right (a := [(v, n)]) (b := fs) h
  rwa [width_cons, width_nil, Nat.add_zero] at this

theorem Begins.append (ha : Begins stream a) (hb : Begins (stream >>> width a) b) : Begins stream (a ++ b) := by
  unfold Begins at *
  rw [width_append, pow_add, pack_append, Nat.mod_mul, ha, ← Nat.shiftRight_eq_div_pow, hb]

/-- Where the fields end in zeros, a stream that is cut off among these still begins with them. -/
theorem Begins.cut {k : Nat} (h : Begins stream fs) (hlt : BitStack.pack fs < 2 ^ k) : Begins (stream % 2 ^ k) fs := by
  unfold Begins at *
  rcases Nat.le_total (width fs) k with hle | hle
  · rw [Nat.mod_mod_of_dvd _ (pow_dvd_pow 2 hle), h]
  · have hmod : stream % 2 ^ k = BitStack.pack fs := by
      rw [← Nat.mod_mod_of_dvd stream (pow_dvd_pow 2 hle), h, Nat.mod_eq_of_lt hlt]
    rw [hmod, Nat.mod_eq_of_lt (pack_lt fs)]

/-- What a stream that is cut off begins with ends in zeros. -/
theorem Begins.lt_of_cut {k : Nat} (h : Begins (stream % 2 ^ k) fs) : BitStack.pack fs < 2 ^ k := by
  unfold Begins at h
  rw [← h]
  exact lt_of_le_of_lt (Nat.mod_le _ _) (Nat.mod_lt _ (by positivity))

/-- In front of the cut nothing has changed. -/
theorem Begins.of_cut {k : Nat} (h : Begins (stream % 2 ^ k) fs) (hle : width fs ≤ k) : Begins stream fs := by
  unfold Begins at *
  rwa [Nat.mod_mod_of_dvd _ (pow_dvd_pow 2 hle)] at h

end

end BitStack
