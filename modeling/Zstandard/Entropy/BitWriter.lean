/-
The forward bitstream writer of the entropy coders, and what it writes: the stack of fields that the
backward reader pops.

A flush writes the whole container and keeps the whole bytes of it. The clamped flush never moves past
the end, so a writer that stands there may have lost bits; `close` reports that as a size of zero. The
fast flush does not look: the slice it writes to ends the program instead.
-/
import Zstandard.Entropy.BitReader

namespace Zstandard

open BitStack

/-- `BitCStream`: a container of pending bits, and where its bytes go. -/
structure BitCStream where
  bitContainer : Nat
  bitPos : Nat
  dst : Bytes
  bytePos : Nat
  endPos : Nat
deriving DecidableEq, Repr

/-- `write_u64`: the slice has to hold all eight bytes. -/
def writeU64 (output : Bytes) (offset value : Nat) : Result Bytes :=
  if offset + 8 ≤ output.length then
    .ok (output.take offset ++ writeLe value 8 ++ output.drop (offset + 8))
  else .error .generic

namespace BitCStream

/-- `new`: one word is kept free at the end. -/
def new (dst : Bytes) : Result BitCStream :=
  if dst.length ≤ containerBytes then .error .dstSizeTooSmall
  else .ok { bitContainer := 0, bitPos := 0, dst, bytePos := 0, endPos := dst.length - containerBytes }

/-- The container with a value put above its bits. -/
def orBits (c : BitCStream) (value : Nat) : Nat :=
  c.bitContainer ||| (value <<< (c.bitPos % containerBits)) % 2 ^ containerBits

/-- `add_bits`: the field is masked. -/
def addBits (c : BitCStream) (value nbBits : Nat) : BitCStream :=
  { c with bitContainer := c.orBits (value &&& bitMask nbBits), bitPos := c.bitPos + nbBits }

/-- `add_bits_fast`: the field is clean already. -/
def addBitsFast (c : BitCStream) (value nbBits : Nat) : BitCStream :=
  { c with bitContainer := c.orBits value, bitPos := c.bitPos + nbBits }

/-- `flush_bits_fast`: the caller has made room. -/
def flushBitsFast (c : BitCStream) : Result BitCStream := do
  let nbBytes := c.bitPos >>> 3
  let dst ← writeU64 c.dst c.bytePos c.bitContainer
  .ok { c with dst, bytePos := c.bytePos + nbBytes, bitPos := c.bitPos % 8
               bitContainer := c.bitContainer >>> (nbBytes * 8) }

/-- `flush_bits`: the pointer does not go past the last word. -/
def flushBits (c : BitCStream) : Result BitCStream := do
  let nbBytes := c.bitPos >>> 3
  let dst ← writeU64 c.dst c.bytePos c.bitContainer
  .ok { c with dst, bytePos := min (c.bytePos + nbBytes) c.endPos, bitPos := c.bitPos % 8
               bitContainer := c.bitContainer >>> (nbBytes * 8) }

/-- The flush of a coder that was told whether the destination is large enough for any stream. -/
def flush (fast : Bool) (c : BitCStream) : Result BitCStream := if fast then c.flushBitsFast else c.flushBits

/-- The size of the stream, with what the destination then holds. -/
def close (c : BitCStream) : Result (Nat × Bytes) := do
  let c ← (c.addBitsFast 1 1).flushBits
  if c.bytePos ≥ c.endPos then .ok (0, c.dst)
  else .ok (c.bytePos + (if c.bitPos > 0 then 1 else 0), c.dst)

end BitCStream

/-! ## Bytes written -/

theorem writeLe_take : ∀ (n k value : Nat), k ≤ n → (writeLe value n).take k = writeLe value k
  | _, 0, _, _ => by simp [writeLe]
  | 0, k + 1, _, h => absurd h (by omega)
  | n + 1, k + 1, value, h => by
    rw [writeLe, List.take_succ_cons, writeLe_take n k _ (by omega), writeLe]

theorem readLe_writeLe_mod (n value : Nat) : readLe (writeLe value n) = value % 256 ^ n := by
  induction n generalizing value with
  | zero => simp [writeLe, readLe, Nat.mod_one]
  | succ n ih =>
    rw [writeLe, readLe, ih, pow_succ', Nat.mod_mul]
    congr 1
    simp

theorem readLe_inj : ∀ {a b : Bytes}, a.length = b.length → readLe a = readLe b → a = b
  | [], [], _, _ => rfl
  | x :: a, y :: b, hlen, h => by
    have hx := x.toNat_lt
    have hy := y.toNat_lt
    simp only [readLe] at h
    have htail := readLe_inj (a := a) (b := b) (by simpa using hlen) (by omega)
    rw [htail, UInt8.toNat_inj.1 (by omega : x.toNat = y.toNat)]

/-- What a write of `n` bytes leaves below the first `k` of them. -/
theorem put_take {output : Bytes} {offset value n k : Nat} (h : offset + n ≤ output.length) (hk : k ≤ n) :
    readLe ((output.take offset ++ writeLe value n ++ output.drop (offset + n)).take (offset + k)) =
      readLe (output.take offset) + 2 ^ (8 * offset) * (value % 2 ^ (8 * k)) := by
  have hlen : (output.take offset).length = offset := by rw [List.length_take]; omega
  rw [List.append_assoc, List.take_append, hlen, Nat.add_sub_cancel_left, List.take_of_length_le (by omega),
    List.take_append_of_le_length (by rw [writeLe_length]; omega), writeLe_take n k value hk, readLe_append, hlen,
    readLe_writeLe_mod, pow_256, pow_256]

theorem put_length {output : Bytes} {offset value n : Nat} (h : offset + n ≤ output.length) :
    (output.take offset ++ writeLe value n ++ output.drop (offset + n)).length = output.length := by
  simp only [List.length_append, List.length_take, List.length_drop, writeLe_length]
  omega

/-- A payload whose last byte is not zero has an end mark. -/
theorem BitDStream.new_ok {src : Bytes} (hne : src ≠ []) (h : 256 ^ (src.length - 1) ≤ readLe src) :
    ∃ d, BitDStream.new src = .ok d := by
  have hlast := List.getLast?_eq_some_getLast hne
  have hpos : src.getLast hne ≠ 0 := by
    intro h0
    have hsplit : src = src.dropLast ++ [src.getLast hne] := (List.dropLast_append_getLast hne).symm
    have hlow := readLe_lt src.dropLast
    rw [List.length_dropLast] at hlow
    rw [hsplit, readLe_append, h0] at h
    simp [readLe] at h
    omega
  unfold BitDStream.new
  rw [hlast]
  simp only
  rw [if_neg hpos]
  split
  · exact ⟨_, rfl⟩
  · exact ⟨_, rfl⟩

namespace BitCStream

variable {c : BitCStream} {fs : List Field} {k n v : Nat}

/-! ## What has been written -/

/-- The writer holds `fs`, with at most `k` bits of it pending, unless it stands at the end. -/
structure Holds (c : BitCStream) (fs : List Field) (k : Nat) : Prop where
  room : c.endPos + 8 = c.dst.length
  within : c.bytePos ≤ c.endPos
  pending : c.bitContainer < 2 ^ c.bitPos
  bitPos_le : c.bitPos ≤ k
  bits : c.bytePos < c.endPos → width fs = 8 * c.bytePos + c.bitPos ∧
    readLe (c.dst.take c.bytePos) + 2 ^ (8 * c.bytePos) * c.bitContainer = pack fs

theorem Holds.mono {k' : Nat} (h : c.Holds fs k) (hk : k ≤ k') : c.Holds fs k' :=
  ⟨h.room, h.within, h.pending, le_trans h.bitPos_le hk, h.bits⟩

theorem new_holds {dst : Bytes} (h : BitCStream.new dst = .ok c) : c.Holds [] 0 := by
  unfold BitCStream.new containerBytes at h
  split at h
  · cases h
  · cases h
    refine ⟨by simp only; omega, Nat.zero_le _, by simp, le_refl _, fun _ => ⟨by simp, by simp [readLe]⟩⟩

theorem orBits_eq {value : Nat} (hp : c.bitContainer < 2 ^ c.bitPos) (hv : value < 2 ^ n) (hn : c.bitPos + n < 64) :
    c.orBits value = c.bitContainer + 2 ^ c.bitPos * value := by
  have hlt : value <<< c.bitPos < 2 ^ 64 := by
    rw [Nat.shiftLeft_eq]
    calc value * 2 ^ c.bitPos < 2 ^ n * 2 ^ c.bitPos := Nat.mul_lt_mul_of_pos_right hv (by positivity)
      _ = 2 ^ (n + c.bitPos) := (pow_add 2 n c.bitPos).symm
      _ ≤ 2 ^ 64 := Nat.pow_le_pow_right (by norm_num) (by omega)
  unfold orBits containerBits
  rw [Nat.mod_eq_of_lt (by omega : c.bitPos < 64), Nat.mod_eq_of_lt hlt, Nat.or_comm,
    ← Nat.shiftLeft_add_eq_or_of_lt hp, Nat.shiftLeft_eq]
  ring

theorem Holds.addBitsFast (h : c.Holds fs k) (hv : v < 2 ^ n) (hn : k + n < 64) :
    (c.addBitsFast v n).Holds (fs ++ [(v, n)]) (k + n) := by
  have hle := h.bitPos_le
  have hor := orBits_eq h.pending hv (by omega)
  unfold BitCStream.addBitsFast
  refine ⟨h.room, h.within, ?_, by simp only; omega, fun hlt => ?_⟩
  · simp only
    rw [hor, pow_add]
    have := h.pending
    calc c.bitContainer + 2 ^ c.bitPos * v < 2 ^ c.bitPos * (v + 1) := by rw [Nat.mul_add]; omega
      _ ≤ 2 ^ c.bitPos * 2 ^ n := Nat.mul_le_mul_left _ hv
  · obtain ⟨hw, hb⟩ := h.bits hlt
    simp only at hlt ⊢
    refine ⟨by rw [width_append, width_cons, width_nil]; omega, ?_⟩
    rw [pack_append, hw, hor, ← hb, pack, pack_nil, Nat.mod_eq_of_lt hv, pow_add]
    ring

theorem Holds.addBits (h : c.Holds fs k) (hmask : n < 32) (hn : k + n < 64) :
    (c.addBits v n).Holds (fs ++ [(v, n)]) (k + n) := by
  have hadd := h.addBitsFast (v := v % 2 ^ n) (Nat.mod_lt _ (by positivity)) hn
  unfold BitCStream.addBits
  rw [and_bitMask hmask]
  refine ⟨hadd.room, hadd.within, hadd.pending, hadd.bitPos_le, fun hlt => ?_⟩
  obtain ⟨hw, hb⟩ := hadd.bits hlt
  rw [width_append, width_cons] at hw
  refine ⟨by rw [width_append, width_cons]; exact hw, hb.trans ?_⟩
  simp only [pack_append, pack, Nat.mod_mod]

/-- A flush writes the container and keeps what is left of a byte. -/
theorem flushBits_eq (hroom : c.endPos + 8 = c.dst.length) (hin : c.bytePos ≤ c.endPos) :
    c.flushBits = .ok { c with
      dst := c.dst.take c.bytePos ++ writeLe c.bitContainer 8 ++ c.dst.drop (c.bytePos + 8)
      bytePos := min (c.bytePos + c.bitPos >>> 3) c.endPos, bitPos := c.bitPos % 8
      bitContainer := c.bitContainer >>> (c.bitPos >>> 3 * 8) } := by
  unfold flushBits writeU64
  rw [if_pos (by omega)]
  rfl

/-- A word written over the end of the stream that has its whole bytes takes them out of the container. -/
theorem Holds.written (h : c.Holds fs k) (hk : k < 64) {word : Nat}
    (hword : word % 2 ^ (8 * (c.bitPos / 8)) = c.bitContainer % 2 ^ (8 * (c.bitPos / 8))) :
    Holds { c with
      dst := c.dst.take c.bytePos ++ writeLe word 8 ++ c.dst.drop (c.bytePos + 8)
      bytePos := min (c.bytePos + c.bitPos / 8) c.endPos, bitPos := c.bitPos % 8
      bitContainer := c.bitContainer >>> (c.bitPos / 8 * 8) } fs 7 := by
  have hle := h.bitPos_le
  have hroom := h.room
  have hin := h.within
  refine ⟨?_, ?_, ?_, ?_, fun hlt => ?_⟩
  · simp only
    rw [put_length (by omega)]
    exact hroom
  · exact Nat.min_le_right _ _
  · simp only
    rw [Nat.shiftRight_eq_div_pow, Nat.div_lt_iff_lt_mul (by positivity), ← pow_add,
      show c.bitPos % 8 + c.bitPos / 8 * 8 = c.bitPos by omega]
    exact h.pending
  · simp only
    omega
  · simp only at hlt ⊢
    have hmin : min (c.bytePos + c.bitPos / 8) c.endPos = c.bytePos + c.bitPos / 8 := by omega
    obtain ⟨hw, hb⟩ := h.bits (by omega)
    rw [hmin, put_take (by omega) (by omega), hword]
    refine ⟨by omega, ?_⟩
    rw [← hb, Nat.shiftRight_eq_div_pow, Nat.mul_add, pow_add, Nat.mul_comm (c.bitPos / 8) 8]
    have hsplit := Nat.mod_add_div c.bitContainer (2 ^ (8 * (c.bitPos / 8)))
    calc readLe (c.dst.take c.bytePos) + 2 ^ (8 * c.bytePos) * (c.bitContainer % 2 ^ (8 * (c.bitPos / 8))) +
          2 ^ (8 * c.bytePos) * 2 ^ (8 * (c.bitPos / 8)) * (c.bitContainer / 2 ^ (8 * (c.bitPos / 8)))
        = readLe (c.dst.take c.bytePos) + 2 ^ (8 * c.bytePos) *
          (c.bitContainer % 2 ^ (8 * (c.bitPos / 8)) +
            2 ^ (8 * (c.bitPos / 8)) * (c.bitContainer / 2 ^ (8 * (c.bitPos / 8)))) := by ring
      _ = readLe (c.dst.take c.bytePos) + 2 ^ (8 * c.bytePos) * c.bitContainer := by rw [hsplit]

theorem Holds.flushBits (h : c.Holds fs k) (hk : k < 64) : ∃ c', c.flushBits = .ok c' ∧ c'.Holds fs 7 := by
  refine ⟨_, flushBits_eq h.room h.within, ?_⟩
  rw [show c.bitPos >>> 3 = c.bitPos / 8 from Nat.shiftRight_eq_div_pow _ _]
  exact h.written hk rfl

/-! ## The room -/

/-- The bits up to where the writer stands. -/
def used (c : BitCStream) : Nat := 8 * c.bytePos + c.bitPos

@[simp] theorem addBits_used : (c.addBits v n).used = c.used + n := (Nat.add_assoc _ _ _).symm

/-- A clamped flush never moves the writer further. -/
theorem flushBits_used {c' : BitCStream} (h : c.flushBits = .ok c') : c'.used ≤ c.used ∧ c'.endPos = c.endPos := by
  unfold flushBits at h
  obtain ⟨dst, -, h⟩ := bind_ok h
  cases h
  have h3 : c.bitPos >>> 3 = c.bitPos / 8 := Nat.shiftRight_eq_div_pow _ _
  refine ⟨?_, rfl⟩
  unfold used
  simp only
  rw [h3]
  omega

/-! ## The fast flush -/

/-- The writer has not reached the end. -/
def Free (c : BitCStream) : Prop := c.bytePos < c.endPos

@[simp] theorem addBits_free : (c.addBits v n).Free ↔ c.Free := Iff.rfl

/-- Both flushes agree as long as the end is not reached, and who has not reached it never did. -/
theorem flush_swap {c' : BitCStream} {fast : Bool} (fast' : Bool) (h : c.flush fast = .ok c') (hfree : c'.Free) :
    c.flush fast' = .ok c' ∧ c.Free := by
  unfold flush flushBits flushBitsFast at *
  unfold Free at *
  cases hdst : writeU64 c.dst c.bytePos c.bitContainer with
  | error e =>
    rw [hdst] at h
    cases fast <;> cases h
  | ok dst =>
    rw [hdst] at h
    cases fast <;> cases h <;> simp only at hfree <;> constructor
    · cases fast'
      · rfl
      · simp only [if_true, ok_bind]
        congr 2
        omega
    · omega
    · cases fast'
      · simp only [Bool.false_eq_true, if_false, ok_bind]
        congr 2
        omega
      · rfl
    · omega

/-- A stream of a size was never at the end. -/
theorem close_free {size : Nat} {dst : Bytes} (h : c.close = .ok (size, dst)) (hne : size ≠ 0) : c.Free := by
  unfold close at h
  obtain ⟨c', hflush, h⟩ := bind_ok h
  split at h
  · cases h
    exact absurd rfl hne
  · rename_i hend
    exact (@flush_swap _ _ false false hflush (not_le.1 hend)).2

/-! ## Closing -/

/-- The last word written puts the mark behind the fields. -/
theorem Holds.marked_read {m : BitCStream} (h : m.Holds (fs ++ [(1, 1)]) k) (hk : k < 64)
    (hend : min (m.bytePos + m.bitPos / 8) m.endPos < m.endPos) :
    width fs + 1 = 8 * m.bytePos + m.bitPos ∧
      readLe ((m.dst.take m.bytePos ++ writeLe m.bitContainer 8 ++ m.dst.drop (m.bytePos + 8)).take
        (m.bytePos + (m.bitPos + 7) / 8)) = pack fs + 2 ^ width fs := by
  have hroom := h.room
  have hin := h.within
  have hbit := h.bitPos_le
  obtain ⟨hw, hb⟩ := h.bits (by omega)
  rw [width_append, width_cons, width_nil] at hw
  refine ⟨hw, ?_⟩
  have hpend : m.bitContainer < 2 ^ (8 * ((m.bitPos + 7) / 8)) :=
    lt_of_lt_of_le h.pending (Nat.pow_le_pow_right (by norm_num) (by omega))
  rw [put_take (by omega) (by omega), Nat.mod_eq_of_lt hpend, hb, pack_append]
  simp [pack]

/-- The size of a stream of `w` bits in front of its mark: nothing, when the whole bytes reach the end. -/
def streamSize (w endPos : Nat) : Nat := if (w + 1) / 8 < endPos then (w + 8) / 8 else 0

/-- What a stream that was closed says and holds, from the fields alone. -/
theorem Holds.close_exact (h : c.Holds fs k) (hk : k + 1 < 64) (hused : c.used ≤ width fs) :
    ∃ dst, c.close = .ok (streamSize (width fs) c.endPos, dst) ∧ dst.length = c.dst.length ∧
      (streamSize (width fs) c.endPos ≠ 0 →
        readLe (dst.take (streamSize (width fs) c.endPos)) = pack fs + 2 ^ width fs) := by
  have hmark := h.addBitsFast (v := 1) (n := 1) (by norm_num) hk
  have hmarkUsed : (c.addBitsFast 1 1).used = c.used + 1 := (Nat.add_assoc _ _ _).symm
  have hends : (c.addBitsFast 1 1).endPos = c.endPos := rfl
  have hdst : (c.addBitsFast 1 1).dst = c.dst := rfl
  have hmarked : 1 ≤ (c.addBitsFast 1 1).bitPos := Nat.le_add_left _ _
  unfold BitCStream.close
  rw [← hends, ← hdst]
  generalize c.addBitsFast 1 1 = m at hmark hmarked hmarkUsed
  have hroom := hmark.room
  have hin := hmark.within
  unfold used at hmarkUsed hused
  rw [flushBits_eq hroom hin, ok_bind]
  simp only
  rw [show m.bitPos >>> 3 = m.bitPos / 8 from Nat.shiftRight_eq_div_pow _ _]
  unfold streamSize
  by_cases hend : min (m.bytePos + m.bitPos / 8) m.endPos ≥ m.endPos
  · rw [if_pos hend, if_neg (by omega)]
    exact ⟨_, rfl, put_length (by omega), fun h0 => absurd rfl h0⟩
  · obtain ⟨hw, hread⟩ := hmark.marked_read (by omega) (not_le.1 hend)
    have hsize : min (m.bytePos + m.bitPos / 8) m.endPos + (if m.bitPos % 8 > 0 then 1 else 0) =
      (width fs + 8) / 8 := by
      split <;> omega
    rw [if_neg hend, hsize, if_pos (by omega)]
    refine ⟨_, rfl, put_length (by omega), fun _ => ?_⟩
    rw [show (width fs + 8) / 8 = m.bytePos + (m.bitPos + 7) / 8 by omega]
    exact hread

/-- A stream that was closed reads back as the fields that were written; it was not at the end when the bits
and the mark stay below it. -/
theorem Holds.close (h : c.Holds fs k) (hk : k + 1 < 64) :
    ∃ size dst, c.close = .ok (size, dst) ∧ (size ≠ 0 → size ≤ dst.length ∧
      ∃ d, BitDStream.new (dst.take size) = .ok d ∧ d.At (width fs) ∧ Reads (readLe d.src) (width fs) fs) ∧
      ((c.used + 1) / 8 < c.endPos → size ≠ 0) := by
  have hmark := h.addBitsFast (v := 1) (n := 1) (by norm_num) hk
  have hused : (c.addBitsFast 1 1).used = c.used + 1 := (Nat.add_assoc _ _ _).symm
  have hends : (c.addBitsFast 1 1).endPos = c.endPos := rfl
  have hmarked : 1 ≤ (c.addBitsFast 1 1).bitPos := Nat.le_add_left _ _
  unfold BitCStream.close
  rw [← hused, ← hends]
  generalize c.addBitsFast 1 1 = m at hmark hmarked
  unfold used
  have hroom := hmark.room
  have hin := hmark.within
  have hbit := hmark.bitPos_le
  rw [flushBits_eq hroom hin, ok_bind]
  simp only
  have h3 : m.bitPos >>> 3 = m.bitPos / 8 := Nat.shiftRight_eq_div_pow _ _
  rw [h3]
  by_cases hend : min (m.bytePos + m.bitPos / 8) m.endPos ≥ m.endPos
  · -- no room for the mark: the size is zero
    rw [if_pos hend]
    exact ⟨0, _, rfl, fun h0 => absurd rfl h0, fun hroom => by omega⟩
  · rw [if_neg hend]
    -- the last byte, when there is one, holds the bits left over
    have hsize : min (m.bytePos + m.bitPos / 8) m.endPos + (if m.bitPos % 8 > 0 then 1 else 0) =
        m.bytePos + (m.bitPos + 7) / 8 := by
      split <;> omega
    rw [hsize]
    obtain ⟨hw, hread⟩ := hmark.marked_read (by omega) (not_le.1 hend)
    refine ⟨_, _, rfl, fun hne => ?_, fun _ => by omega⟩
    have hle : m.bytePos + (m.bitPos + 7) / 8 ≤ m.dst.length := by omega
    have hlen : ((m.dst.take m.bytePos ++ writeLe m.bitContainer 8 ++ m.dst.drop (m.bytePos + 8)).take
        (m.bytePos + (m.bitPos + 7) / 8)).length = m.bytePos + (m.bitPos + 7) / 8 := by
      rw [List.length_take, put_length (by omega)]
      omega
    rw [put_length (by omega)]
    refine ⟨hle, ?_⟩
    generalize (m.dst.take m.bytePos ++ writeLe m.bitContainer 8 ++ m.dst.drop (m.bytePos + 8)).take
      (m.bytePos + (m.bitPos + 7) / 8) = stream at *
    obtain ⟨d, hd⟩ : ∃ d, BitDStream.new stream = .ok d := by
      refine BitDStream.new_ok (fun h0 => ?_) ?_
      · rw [h0] at hlen
        exact hne hlen.symm
      · rw [hlen, hread, pow_256]
        have : 2 ^ (8 * (m.bytePos + (m.bitPos + 7) / 8 - 1)) ≤ 2 ^ width fs :=
          Nat.pow_le_pow_right (by norm_num) (by omega)
        omega
    obtain ⟨hsrc, hat⟩ := BitDStream.new_at hd
    -- the mark is the top bit, so the reader finds the whole width of the fields below it
    have hlog : Nat.log2 (readLe stream) = width fs := by
      have := log2_add_mul (pack_lt fs) (show 1 ≠ 0 by norm_num)
      rw [Nat.mul_one, show Nat.log2 1 = 0 by rfl, Nat.add_zero] at this
      rw [hread, this]
    rw [hlog] at hat
    refine ⟨d, hd, hat, ?_⟩
    rw [hsrc, hread]
    exact Reads.marked fs

end BitCStream

end Zstandard
