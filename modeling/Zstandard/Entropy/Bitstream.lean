/-
The backward bitstream reader of the entropy coders: a 64-bit container loaded from the end of the
payload, read from its top bits, reloaded towards the start.

The pointers of the source are offsets into the payload. Shift amounts are masked to the container
width as the source masks them, so every read is defined, also after the stream is exhausted.
-/
import Zstandard.Wire.Bytes

namespace Zstandard

/-- `BitDStreamStatus`: what a reload finds. -/
inductive BitDStreamStatus where
  | unfinished | endOfBuffer | completed | overflow
deriving DecidableEq, Repr

/-- The container is a 64-bit word. -/
def containerBytes : Nat := 8

/-- The bits of the container. -/
def containerBits : Nat := 64

/-- `highbit32` of a nonzero value. -/
def highbit32 (value : Nat) : Nat := Nat.log2 value

/-- `wrapping_sub` on `u32`. -/
def wrappingSub32 (a b : Nat) : Nat := (a + 2 ^ 32 - b % 2 ^ 32) % 2 ^ 32

/-- `BIT_MASK[nb_bits]`. The table has 32 entries, and a width beyond them panics in the source. -/
def bitMask (nbBits : Nat) : Nat := if nbBits < 32 then 2 ^ nbBits - 1 else 0

theorem and_bitMask {nbBits : Nat} (h : nbBits < 32) (value : Nat) : value &&& bitMask nbBits = value % 2 ^ nbBits := by
  rw [bitMask, if_pos h, Nat.and_two_pow_sub_one_eq_mod]

theorem and_bitMask_lt (value nbBits : Nat) : value &&& bitMask nbBits < 2 ^ nbBits := by
  refine lt_of_le_of_lt Nat.and_le_right ?_
  unfold bitMask
  have := Nat.two_pow_pos nbBits
  split <;> omega

/-- `BitDStream`: the container, loaded at `ptr`, and how many of its bits are used up, from the top. -/
structure BitDStream where
  src : Bytes
  ptr : Nat
  bitContainer : Nat
  bitsConsumed : Nat
deriving DecidableEq, Repr

/-- `read_u64`: the container at an offset with eight bytes left. -/
def readU64 (src : Bytes) (offset : Nat) : Nat := readLe ((src.drop offset).take 8)

namespace BitDStream

/-- `new`: the last byte carries the end mark, above which nothing is read. -/
def new (src : Bytes) : Result BitDStream :=
  match src.getLast? with
  | none => .error .srcSizeWrong
  | some lastByte =>
    if lastByte = 0 then .error (.corruption "bitstream end marker is zero") else
    let bitsConsumed := 8 - highbit32 lastByte.toNat
    if containerBytes ≤ src.length then
      let ptr := src.length - containerBytes
      .ok { src, ptr, bitContainer := readU64 src ptr, bitsConsumed }
    else
      .ok { src, ptr := 0, bitContainer := readLe src
            bitsConsumed := bitsConsumed + (containerBytes - src.length) * 8 }

/-- `get_middle_bits`: a field that begins at bit `start`. -/
def getMiddleBits (d : BitDStream) (start nbBits : Nat) : Nat :=
  (d.bitContainer >>> (start % containerBits)) &&& bitMask nbBits

/-- `look_bits`: the next field by its position from below. -/
def lookBits (d : BitDStream) (nbBits : Nat) : Nat :=
  d.getMiddleBits (wrappingSub32 (wrappingSub32 containerBits d.bitsConsumed) nbBits) nbBits

/-- The container without its consumed bits, moved to the top. -/
def topBits (d : BitDStream) : Nat := (d.bitContainer <<< (d.bitsConsumed % containerBits)) % 2 ^ containerBits

/-- `look_bits_fast`: the next field by two shifts, which a width of zero breaks. -/
def lookBitsFast (d : BitDStream) (nbBits : Nat) : Nat :=
  d.topBits >>> ((containerBits - nbBits) % containerBits)

/-- `skip_bits`. -/
def skipBits (d : BitDStream) (nbBits : Nat) : BitDStream := { d with bitsConsumed := d.bitsConsumed + nbBits }

/-- Whether the container still holds a field that is not empty. -/
def canReadFast (d : BitDStream) (nbBits : Nat) : Bool :=
  nbBits ≠ 0 && d.bitsConsumed + nbBits ≤ containerBits

/-- `read_bits_fast`. -/
def readBitsFast (d : BitDStream) (nbBits : Nat) : Nat × BitDStream :=
  (d.lookBitsFast nbBits, d.skipBits nbBits)

/-- `read_bits`: nothing at width zero, and the slow look past the end of the container. -/
def readBits (d : BitDStream) (nbBits : Nat) : Nat × BitDStream :=
  if nbBits = 0 then (0, d)
  else if d.canReadFast nbBits then d.readBitsFast nbBits
  else (d.lookBits nbBits, d.skipBits nbBits)

/-- `read_bits_fast_zero_safe`: the mask clears the whole container that a zero-width shift leaves. -/
def readBitsFastZeroSafe (d : BitDStream) (nbBits : Nat) : Nat × BitDStream :=
  (d.lookBitsFast nbBits % 2 ^ nbBits, d.skipBits nbBits)

/-- The reader with its container loaded `nbBytes` nearer the start. -/
def moveBack (d : BitDStream) (nbBytes : Nat) : BitDStream :=
  { d with ptr := d.ptr - nbBytes, bitsConsumed := d.bitsConsumed - nbBytes * 8
           bitContainer := readU64 d.src (d.ptr - nbBytes) }

/-- `reload_fast`: whole bytes that are used up are replaced, eight bytes from the start or more. -/
def reloadFast (d : BitDStream) : BitDStreamStatus × BitDStream :=
  if d.ptr < containerBytes then (.overflow, d) else (.unfinished, d.moveBack (d.bitsConsumed / 8))

/-- `reload`: near the start of the payload fewer bytes are left to load, at it none. -/
def reload (d : BitDStream) : BitDStreamStatus × BitDStream :=
  if d.bitsConsumed > containerBits then (.overflow, d)
  else if d.ptr ≥ containerBytes then d.reloadFast
  else if d.ptr = 0 then (if d.bitsConsumed < containerBits then .endOfBuffer else .completed, d)
  else
    let nbBytes := d.bitsConsumed / 8
    if nbBytes > d.ptr then (.endOfBuffer, d.moveBack d.ptr) else (.unfinished, d.moveBack nbBytes)

/-- `end_of_stream`: every bit has been read, and none beyond. -/
def endOfStream (d : BitDStream) : Bool := d.ptr = 0 && d.bitsConsumed = containerBits

end BitDStream

end Zstandard
