/-
What the backward bitstream reader reads: the bits of the payload from its end mark down.

`d.At p` says that the reader stands at bit `p` of the payload with its container loaded around it.
A read inside the container gives the bits below `p`, a reload moves nothing but the container, and
after a reload either 57 bits can be read or the container holds all that is left.
-/
import Zstandard.Entropy.Bitstream
import Zstandard.Library.BitStack

namespace Zstandard

open BitStack

/-! ## Payloads as numbers -/

theorem readLe_append : ∀ a b : Bytes, readLe (a ++ b) = readLe a + 256 ^ a.length * readLe b
  | [], b => by simp [readLe]
  | x :: a, b => by
    rw [List.cons_append, readLe, readLe, readLe_append a b, List.length_cons, pow_succ]
    ring

theorem pow_256 (n : Nat) : 256 ^ n = 2 ^ (8 * n) := by
  rw [pow_mul]
  rfl

/-- A few bytes out of a payload. -/
theorem readLe_slice (src : Bytes) (offset n : Nat) :
    readLe ((src.drop offset).take n) = readLe src >>> (8 * offset) % 2 ^ (8 * n) := by
  rcases Nat.lt_or_ge src.length offset with hshort | hlong
  · have hlt : readLe src < 2 ^ (8 * offset) := by
      refine lt_of_lt_of_le (readLe_lt src) ?_
      rw [pow_256]
      exact Nat.pow_le_pow_right (by norm_num) (by omega)
    rw [List.drop_eq_nil_of_le (by omega), List.take_nil, Nat.shiftRight_eq_div_pow, Nat.div_eq_of_lt hlt, Nat.zero_mod]
    rfl
  have hlen : (src.take offset).length = offset := by simp; omega
  have hsplit : readLe src = readLe (src.take offset) + 256 ^ offset * readLe (src.drop offset) := by
    conv_lhs => rw [← List.take_append_drop offset src, readLe_append, hlen]
  have hlow := readLe_lt (src.take offset)
  rw [hlen, pow_256] at hlow
  rw [hsplit, pow_256, Nat.shiftRight_eq_div_pow, Nat.add_mul_div_left _ _ (by positivity), Nat.div_eq_of_lt hlow,
    Nat.zero_add]
  have htail : readLe (src.drop offset) = readLe ((src.drop offset).take n) +
      256 ^ ((src.drop offset).take n).length * readLe ((src.drop offset).drop n) := by
    conv_lhs => rw [← List.take_append_drop n (src.drop offset), readLe_append]
  have htake := readLe_lt ((src.drop offset).take n)
  rw [htail]
  rcases Nat.lt_or_ge (src.drop offset).length n with h8 | h8
  · have hnil : (src.drop offset).drop n = [] := List.drop_eq_nil_of_le (by omega)
    rw [hnil, readLe.eq_1, Nat.mul_zero, Nat.add_zero, Nat.mod_eq_of_lt]
    refine lt_of_lt_of_le htake ?_
    rw [pow_256]
    exact Nat.pow_le_pow_right (by norm_num) (by rw [List.length_take]; omega)
  · have hlen8 : ((src.drop offset).take n).length = n := by rw [List.length_take]; omega
    rw [hlen8, pow_256] at htake
    rw [hlen8, pow_256, Nat.add_mul_mod_self_left, Nat.mod_eq_of_lt htake]

/-- A loaded container. -/
theorem readU64_eq (src : Bytes) (offset : Nat) : readU64 src offset = readLe src >>> (8 * offset) % 2 ^ 64 :=
  readLe_slice src offset 8

namespace BitDStream

/-! ## Where the reader stands -/

/-- The reader stands at bit `p` of its payload. -/
structure At (d : BitDStream) (p : Nat) : Prop where
  container : d.bitContainer = readLe d.src >>> (8 * d.ptr) % 2 ^ 64
  consumed : d.bitsConsumed ≤ 64
  position : p + d.bitsConsumed = 8 * d.ptr + 64

/-- Everything that is left is in the container, or 57 bits are. -/
def Settled (d : BitDStream) : Prop := d.ptr = 0 ∨ d.bitsConsumed ≤ 7

/-- `n` bits can be read before the next reload. -/
def Holds (d : BitDStream) (n : Nat) : Prop := d.bitsConsumed + n ≤ 64

variable {d : BitDStream} {p n : Nat}

theorem At.holds_le (h : d.At p) (hn : d.Holds n) : n ≤ p := by
  have := h.position
  unfold Holds at hn
  omega

theorem Settled.holds (hs : d.Settled) (h : d.At p) (hn : n ≤ 57) (hp : n ≤ p) : d.Holds n := by
  have := h.position
  unfold Holds
  rcases hs with h0 | h0 <;> omega

/-- A new reader stands below the end mark. -/
theorem new_at {src : Bytes} (h : BitDStream.new src = .ok d) : d.src = src ∧ d.At (Nat.log2 (readLe src)) := by
  unfold BitDStream.new at h
  split at h
  · cases h
  rename_i last hlast
  split at h
  · cases h
  rename_i hne
  have hsrc : src = src.dropLast ++ [last] := by
    rw [List.dropLast_append_getLast? last hlast]
  have hlen : src.length = src.dropLast.length + 1 := by
    conv_lhs => rw [hsrc]
    simp
  have hb := last.toNat_lt
  have hpos : last.toNat ≠ 0 := fun h0 => hne (UInt8.toNat_inj.mp h0)
  have hlow := readLe_lt src.dropLast
  -- the end mark is the top bit of the last byte
  have hlog : Nat.log2 (readLe src) = 8 * src.dropLast.length + Nat.log2 last.toNat := by
    have hone : readLe [last] = last.toNat := by simp [readLe]
    rw [pow_256] at hlow
    conv_lhs => rw [hsrc, readLe_append, hone, pow_256]
    exact log2_add_mul hlow hpos
  have hhb : highbit32 last.toNat ≤ 7 := by
    unfold highbit32
    have := (Nat.log2_lt hpos).mpr (show last.toNat < 2 ^ 8 by omega)
    omega
  split at h
  · -- the container holds the last eight bytes
    rename_i h8
    cases h
    unfold containerBytes at h8 ⊢
    refine ⟨rfl, readU64_eq _ _, by simp only; omega, ?_⟩
    simp only
    rw [hlog]
    unfold highbit32 at hhb ⊢
    omega
  · -- the whole payload fits, and the bytes it lacks count as consumed
    rename_i h8
    cases h
    unfold containerBytes at h8 ⊢
    refine ⟨rfl, ?_, by simp only; omega, ?_⟩
    · simp only [Nat.mul_zero, Nat.shiftRight_zero]
      rw [Nat.mod_eq_of_lt]
      refine lt_of_lt_of_le (readLe_lt src) ?_
      rw [pow_256]
      exact Nat.pow_le_pow_right (by norm_num) (by omega)
    · simp only
      rw [hlog]
      unfold highbit32 at hhb ⊢
      omega

/-- A new reader has read its end mark only, or holds the whole payload. -/
theorem new_room {src : Bytes} (h : BitDStream.new src = .ok d) : d.bitsConsumed ≤ 8 ∨ d.ptr = 0 := by
  unfold BitDStream.new at h
  split at h
  · cases h
  split at h
  · cases h
  split at h
  · cases h
    exact .inl (Nat.sub_le _ _)
  · cases h
    exact .inr rfl

/-! ## Reads -/

theorem skipBits_at (h : d.At p) (hn : d.Holds n) : (d.skipBits n).At (p - n) := by
  have := h.position
  unfold Holds at hn
  refine ⟨h.container, hn, ?_⟩
  unfold skipBits
  simp only
  omega

/-- A read inside the container. -/
theorem lookBitsFast_eq (h : d.At p) (hn : d.Holds n) (h1 : 1 ≤ n) : d.lookBitsFast n = field (readLe d.src) p n := by
  have hpos := h.position
  unfold Holds at hn
  have hexp : p - n = 8 * d.ptr + (64 - n - d.bitsConsumed) := by omega
  unfold lookBitsFast topBits containerBits
  rw [Nat.mod_eq_of_lt (by omega : d.bitsConsumed < 64), Nat.mod_eq_of_lt (by omega : 64 - n < 64), h.container, field,
    hexp, Nat.shiftRight_add]
  generalize readLe d.src >>> (8 * d.ptr) = A
  simp only [Nat.shiftLeft_eq, Nat.shiftRight_eq_div_pow]
  have h64 : 2 ^ 64 = 2 ^ (64 - n) * 2 ^ n := by rw [← pow_add]; congr 1; omega
  have h64n : 2 ^ (64 - n) = 2 ^ (64 - n - d.bitsConsumed) * 2 ^ d.bitsConsumed := by
    rw [← pow_add]; congr 1; omega
  rw [Nat.mod_mul_mod, h64, Nat.mod_mul_right_div_self, h64n, Nat.mul_div_mul_right _ _ (by positivity)]

theorem lookBitsFast_lt (d : BitDStream) (h1 : 1 ≤ n) (hn : n ≤ 64) : d.lookBitsFast n < 2 ^ n := by
  unfold lookBitsFast topBits containerBits
  rw [Nat.mod_eq_of_lt (by omega : 64 - n < 64), Nat.shiftRight_eq_div_pow, Nat.div_lt_iff_lt_mul (by positivity),
    ← pow_add, show n + (64 - n) = 64 by omega]
  exact Nat.mod_lt _ (by positivity)

/-- A read that reaches past the end finds zeros there. -/
theorem lookBitsFast_pad (h : d.At p) (hroom : d.Holds n ∨ d.ptr = 0) (hp : 0 < p) (h1 : 1 ≤ n) (hn : n ≤ 64) :
    d.lookBitsFast n = field (readLe d.src <<< n) (p + n) n := by
  rcases Nat.le_total n p with hle | hle
  · have hholds : d.Holds n := by
      have := h.position
      unfold Holds at *
      omega
    rw [lookBitsFast_eq h hholds h1, field_pad n hle]
  have hpos := h.position
  have hptr : d.ptr = 0 := by
    unfold Holds at hroom
    omega
  rw [hptr] at hpos
  have hcon := h.container
  rw [hptr, Nat.mul_zero, Nat.shiftRight_zero] at hcon
  unfold lookBitsFast topBits containerBits
  rw [Nat.mod_eq_of_lt (by omega : d.bitsConsumed < 64), Nat.mod_eq_of_lt (by omega : 64 - n < 64), hcon,
    field, Nat.add_sub_cancel, show d.bitsConsumed = 64 - p by omega]
  simp only [Nat.shiftLeft_eq, Nat.shiftRight_eq_div_pow]
  have h64 : 2 ^ 64 = 2 ^ p * 2 ^ (64 - p) := by rw [← pow_add]; congr 1; omega
  have h64n : 2 ^ (64 - p) = 2 ^ (n - p) * 2 ^ (64 - n) := by rw [← pow_add]; congr 1; omega
  have hn' : 2 ^ n = 2 ^ p * 2 ^ (n - p) := by rw [← pow_add]; congr 1; omega
  rw [Nat.mod_mul_mod]
  conv_lhs => rw [h64, Nat.mul_mod_mul_right, h64n, ← Nat.mul_assoc, Nat.mul_div_cancel _ (by positivity)]
  rw [hn', Nat.mul_comm (2 ^ p), ← Nat.mul_assoc, Nat.mul_div_cancel _ (by positivity), Nat.mul_comm (2 ^ (n - p)),
    Nat.mul_mod_mul_right]

theorem readBitsFast_at (h : d.At p) (hn : d.Holds n) (h1 : 1 ≤ n) :
    (d.readBitsFast n).1 = field (readLe d.src) p n ∧ (d.readBitsFast n).2.At (p - n) :=
  ⟨lookBitsFast_eq h hn h1, skipBits_at h hn⟩

theorem readBits_at (h : d.At p) (hn : d.Holds n) :
    (d.readBits n).1 = field (readLe d.src) p n ∧ (d.readBits n).2.At (p - n) := by
  unfold readBits
  by_cases h0 : n = 0
  · rw [if_pos h0, h0]
    exact ⟨(field_zero _ _).symm, h⟩
  · have hfast : d.canReadFast n = true := by
      unfold Holds at hn
      simp [canReadFast, h0, containerBits, hn]
    rw [if_neg h0, if_pos hfast]
    exact readBitsFast_at h hn (by omega)

theorem readBitsFastZeroSafe_at (h : d.At p) (hn : d.Holds n) :
    (d.readBitsFastZeroSafe n).1 = field (readLe d.src) p n ∧ (d.readBitsFastZeroSafe n).2.At (p - n) := by
  unfold readBitsFastZeroSafe
  by_cases h0 : n = 0
  · subst h0
    exact ⟨by simp [Nat.mod_one], skipBits_at h hn⟩
  · refine ⟨?_, skipBits_at h hn⟩
    simp only
    rw [lookBitsFast_eq h hn (by omega), Nat.mod_eq_of_lt (field_lt _ _ _)]

@[simp] theorem skipBits_bitsConsumed (d : BitDStream) (n : Nat) :
    (d.skipBits n).bitsConsumed = d.bitsConsumed + n := rfl
@[simp] theorem skipBits_src (d : BitDStream) (n : Nat) : (d.skipBits n).src = d.src := rfl
@[simp] theorem skipBits_ptr (d : BitDStream) (n : Nat) : (d.skipBits n).ptr = d.ptr := rfl

theorem readBitsFast_snd (d : BitDStream) (n : Nat) : (d.readBitsFast n).2 = d.skipBits n := rfl
theorem readBitsFastZeroSafe_snd (d : BitDStream) (n : Nat) : (d.readBitsFastZeroSafe n).2 = d.skipBits n := rfl

theorem readBits_snd (d : BitDStream) (n : Nat) : (d.readBits n).2 = d.skipBits n := by
  unfold readBits
  split
  · rename_i h0
    rw [h0]
    rfl
  · split <;> rfl

/-! ## Reloads -/

@[simp] theorem moveBack_src (d : BitDStream) (n : Nat) : (d.moveBack n).src = d.src := rfl

theorem moveBack_at (h : d.At p) {k : Nat} (hk : k ≤ d.ptr) (hc : 8 * k ≤ d.bitsConsumed) : (d.moveBack k).At p := by
  have hpos := h.position
  have hcon := h.consumed
  unfold moveBack
  refine ⟨readU64_eq _ _, ?_, ?_⟩ <;> simp only <;> omega

/-- Past the container, a reload reports it and changes nothing. -/
theorem reload_overflow (h : 64 < d.bitsConsumed) : d.reload = (.overflow, d) := by
  unfold reload containerBits
  rw [if_pos h]

@[simp] theorem reload_src (d : BitDStream) : d.reload.2.src = d.src := by
  unfold reload reloadFast
  split
  · rfl
  split
  · split <;> rfl
  split
  · rfl
  · dsimp only
    split <;> rfl

/-- A reload moves the container only. -/
theorem reload_at (h : d.At p) : d.reload.1 ≠ .overflow ∧ d.reload.2.At p ∧ d.reload.2.Settled := by
  have hpos := h.position
  have hcon := h.consumed
  unfold reload reloadFast containerBits containerBytes
  rw [if_neg (by omega)]
  by_cases h8 : d.ptr ≥ 8
  · rw [if_pos h8, if_neg (by omega)]
    refine ⟨by simp, moveBack_at h (by omega) (by omega), .inr ?_⟩
    unfold moveBack
    simp only
    omega
  rw [if_neg h8]
  by_cases h0 : d.ptr = 0
  · rw [if_pos h0]
    refine ⟨?_, h, .inl h0⟩
    simp only
    split <;> simp
  rw [if_neg h0]
  simp only
  by_cases hfar : d.bitsConsumed / 8 > d.ptr
  · rw [if_pos hfar]
    refine ⟨by simp, moveBack_at h (le_refl _) (by omega), .inl ?_⟩
    unfold moveBack
    simp
  · rw [if_neg hfar]
    refine ⟨by simp, moveBack_at h (by omega) (by omega), .inr ?_⟩
    unfold moveBack
    simp only
    omega

/-- An unfinished reload leaves 57 bits to read. -/
theorem reload_unfinished (h : d.At p) (hu : d.reload.1 = .unfinished) : d.reload.2.bitsConsumed ≤ 7 := by
  have hcon := h.consumed
  unfold reload reloadFast containerBits containerBytes at hu ⊢
  rw [if_neg (by omega)] at hu ⊢
  by_cases h8 : d.ptr ≥ 8
  · rw [if_pos h8, if_neg (by omega)]
    unfold moveBack
    simp only
    omega
  rw [if_neg h8] at hu ⊢
  by_cases h0 : d.ptr = 0
  · rw [if_pos h0] at hu
    simp only at hu
    split at hu <;> cases hu
  rw [if_neg h0] at hu ⊢
  simp only at hu ⊢
  by_cases hfar : d.bitsConsumed / 8 > d.ptr
  · rw [if_pos hfar] at hu
    cases hu
  · rw [if_neg hfar]
    unfold moveBack
    simp only
    omega

/-- A reload that is not unfinished has reached the start of the payload. -/
theorem reload_finished (h : d.At p) (hu : d.reload.1 ≠ .unfinished) : d.reload.2.ptr = 0 := by
  have hcon := h.consumed
  unfold reload reloadFast containerBits containerBytes at hu ⊢
  rw [if_neg (by omega)] at hu ⊢
  by_cases h8 : d.ptr ≥ 8
  · rw [if_pos h8, if_neg (by omega)] at hu
    exact absurd rfl hu
  rw [if_neg h8] at hu ⊢
  by_cases h0 : d.ptr = 0
  · rw [if_pos h0]
    exact h0
  rw [if_neg h0] at hu ⊢
  simp only at hu ⊢
  by_cases hfar : d.bitsConsumed / 8 > d.ptr
  · rw [if_pos hfar]
    unfold moveBack
    simp
  · rw [if_neg hfar] at hu
    exact absurd rfl hu

/-- The stream has ended when nothing is left below the reader. -/
theorem endOfStream_iff (h : d.At p) : d.endOfStream = true ↔ p = 0 := by
  have hpos := h.position
  have hcon := h.consumed
  unfold endOfStream containerBits
  simp only [Bool.and_eq_true, decide_eq_true_eq]
  constructor
  · rintro ⟨h1, h2⟩
    omega
  · intro h0
    constructor <;> omega

/-- Two settled readers at one place of one payload are the same. -/
theorem At.unique {d' : BitDStream} (h : d.At p) (h' : d'.At p) (hs : d.Settled) (hs' : d'.Settled)
    (hsrc : d.src = d'.src) : d = d' := by
  have h1 := h.position
  have h2 := h'.position
  have h3 := h.container
  have h4 := h'.container
  have hc := h.consumed
  have hc' := h'.consumed
  have hptr : d.ptr = d'.ptr := by
    rcases hs with hs | hs <;> rcases hs' with hs' | hs' <;> omega
  rw [← hsrc, ← hptr, ← h3] at h4
  cases d
  cases d'
  simp only at hsrc hptr h1 h2 h4
  subst hsrc hptr
  simp only [mk.injEq, true_and]
  exact ⟨h4.symm, by omega⟩

/-! ## Past the end -/

/-- The reader stands at bit `q`, which is negative once more was read than there is. -/
structure StandsAt (d : BitDStream) (q : Int) : Prop where
  container : d.bitContainer = readLe d.src >>> (8 * d.ptr) % 2 ^ 64
  within : d.bitsConsumed ≤ 64 ∨ d.ptr = 0
  position : q + d.bitsConsumed = 8 * d.ptr + 64

theorem At.standsAt (h : d.At p) : d.StandsAt p :=
  ⟨h.container, .inl h.consumed, by have := h.position; omega⟩

section
variable {q : Int}

theorem StandsAt.at (h : d.StandsAt q) (hq : 0 ≤ q) : d.At q.toNat := by
  have hpos := h.position
  refine ⟨h.container, ?_, by omega⟩
  rcases h.within with h0 | h0 <;> omega

/-- Reading `n` bits from a container that holds them, or the last one. -/
theorem StandsAt.skip (h : d.StandsAt q) (hn : d.Holds n ∨ d.ptr = 0) : (d.skipBits n).StandsAt (q - n) := by
  have hpos := h.position
  refine ⟨h.container, ?_, ?_⟩
  · exact hn.imp id id
  · simp only [skipBits_bitsConsumed, skipBits_ptr]
    omega

/-- What is left after a read was there before it. -/
theorem StandsAt.holds (h : d.StandsAt q) (hn : d.Holds n ∨ d.ptr = 0) (hq : (n : Int) ≤ q) : d.Holds n := by
  have hpos := h.position
  unfold Holds at *
  omega

theorem Settled.room (hs : d.Settled) (hn : n ≤ 57) : d.Holds n ∨ d.ptr = 0 := by
  unfold Holds
  rcases hs with h0 | h0 <;> omega

/-- A reload reports exactly the reads past the end. -/
theorem StandsAt.reload (h : d.StandsAt q) :
    (d.reload.1 = .overflow ↔ q < 0) ∧ d.reload.2.StandsAt q ∧ d.reload.2.Settled := by
  have hpos := h.position
  rcases Int.lt_or_le q 0 with hq | hq
  · have hover : 64 < d.bitsConsumed := by omega
    have hptr : d.ptr = 0 := h.within.resolve_left (by omega)
    rw [reload_overflow hover]
    exact ⟨⟨fun _ => hq, fun _ => rfl⟩, h, .inl hptr⟩
  · obtain ⟨h1, h2, h3⟩ := reload_at (h.at hq)
    refine ⟨⟨fun h' => absurd h' h1, fun h' => absurd h' (by omega)⟩, ?_, h3⟩
    have := h2.standsAt
    rwa [Int.toNat_of_nonneg hq] at this

theorem StandsAt.endOfStream_iff (h : d.StandsAt q) (hq : 0 ≤ q) : d.endOfStream = true ↔ q = 0 := by
  rw [BitDStream.endOfStream_iff (h.at hq)]
  omega

/-- A fast reload moves the container only, and only while eight more bytes are left. -/
theorem StandsAt.reloadFast (h : d.StandsAt q) :
    d.reloadFast.2.StandsAt q ∧ (d.reloadFast.1 = .unfinished → d.reloadFast.2.bitsConsumed ≤ 7) := by
  unfold BitDStream.reloadFast containerBytes
  by_cases h8 : d.ptr < 8
  · rw [if_pos h8]
    exact ⟨h, nofun⟩
  have hcon := h.within.resolve_right (by omega)
  have hpos := h.position
  have hq : 0 ≤ q := by omega
  have hmoved := moveBack_at (h.at hq) (show d.bitsConsumed / 8 ≤ d.ptr by omega) (by omega)
  rw [if_neg h8]
  constructor
  · have := hmoved.standsAt
    rwa [Int.toNat_of_nonneg hq] at this
  · intro _
    unfold moveBack
    simp only
    omega

/-- After a reload 57 bits can be read, or the container is the last one. -/
theorem StandsAt.reload_unfinished (h : d.StandsAt q) (hu : d.reload.1 = .unfinished) :
    d.reload.2.bitsConsumed ≤ 7 := by
  have hq : 0 ≤ q := by
    by_contra hneg
    rw [h.reload.1.2 (by omega)] at hu
    cases hu
  exact BitDStream.reload_unfinished (h.at hq) hu

theorem StandsAt.reload_finished (h : d.StandsAt q) (hu : d.reload.1 ≠ .unfinished) : d.reload.2.ptr = 0 := by
  rcases Int.lt_or_le q 0 with hq | hq
  · have hpos := h.position
    rw [reload_overflow (by omega)]
    exact h.within.resolve_left (by omega)
  · exact BitDStream.reload_finished (h.at hq) hu

end

end BitDStream

end Zstandard
