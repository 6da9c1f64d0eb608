/-
XXH64 as the crate computes it: a state that takes its input in pieces and a digest that leaves the
state alone.

The pieces do not matter. An update consumes the stripes of the bytes still buffered and the new ones
(`update_eq_stripes`), and what is left over after the whole stripes of a prefix is all that the
stripes of the rest see of it (`stripes_append`).
-/
import Zstandard.Wire.Bytes

namespace Zstandard

/-- `PRIME64_1` and the four below are the multipliers of XXH64. -/
def prime64_1 : UInt64 := 0x9E3779B185EBCA87
def prime64_2 : UInt64 := 0xC2B2AE3D27D4EB4F
def prime64_3 : UInt64 := 0x165667B19E3779F9
def prime64_4 : UInt64 := 0x85EBCA77C2B2AE63
def prime64_5 : UInt64 := 0x27D4EB2F165667C5

/-- `rotate_left`, by fewer bits than the word has. -/
def rotateLeft (x n : UInt64) : UInt64 := (x <<< n) ||| (x >>> (64 - n))

/-- `read_u64_le`. -/
def readU64Le (src : Bytes) : UInt64 := UInt64.ofNat (readLe (src.take 8))

/-- `round`: one word into a lane. -/
def xxhRound (acc lane : UInt64) : UInt64 := rotateLeft (acc + lane * prime64_2) 31 * prime64_1

/-- `merge_round`: one lane into the hash. -/
def mergeRound (acc value : UInt64) : UInt64 := (acc ^^^ xxhRound 0 value) * prime64_1 + prime64_4

/-- `avalanche`: the last mixing. -/
def avalanche (hash : UInt64) : UInt64 :=
  let hash := hash ^^^ (hash >>> 33)
  let hash := hash * prime64_2
  let hash := hash ^^^ (hash >>> 29)
  let hash := hash * prime64_3
  hash ^^^ (hash >>> 32)

/-- `Xxh64State`, with the filled part of its buffer. -/
structure Xxh64State where
  seed : UInt64
  totalLen : UInt64
  v1 : UInt64
  v2 : UInt64
  v3 : UInt64
  v4 : UInt64
  buffered : Bytes
  buffered_lt : buffered.length < 32
deriving DecidableEq

namespace Xxh64State

/-- `new`: four lanes set off from the seed. -/
def new (seed : UInt64) : Xxh64State :=
  { seed, totalLen := 0, v1 := seed + prime64_1 + prime64_2, v2 := seed + prime64_2, v3 := seed
    v4 := seed - prime64_1, buffered := [], buffered_lt := by decide }

/-- `consume_chunk`: one stripe of 32 bytes. -/
def consumeChunk (s : Xxh64State) (input : Bytes) : Xxh64State :=
  { s with
    v1 := xxhRound s.v1 (readU64Le input)
    v2 := xxhRound s.v2 (readU64Le (input.drop 8))
    v3 := xxhRound s.v3 (readU64Le (input.drop 16))
    v4 := xxhRound s.v4 (readU64Le (input.drop 24)) }

/-- The loop over whole stripes; the rest, shorter than a stripe, is buffered. -/
def consumeStripes (s : Xxh64State) (input : Bytes) : Xxh64State :=
  if h : input.length < 32 then { s with buffered := input, buffered_lt := h }
  else consumeStripes (s.consumeChunk (input.take 32)) (input.drop 32)
termination_by input.length
decreasing_by simp; omega

/-- The input part of `update`: fill the buffer, and consume it and the whole stripes once it is full. -/
def takeInput (s : Xxh64State) (input : Bytes) : Xxh64State :=
  if h : s.buffered.length + input.length < 32 then
    { s with buffered := s.buffered ++ input, buffered_lt := by rw [List.length_append]; exact h }
  else if s.buffered.length ≠ 0 then
    let fill := 32 - s.buffered.length
    consumeStripes (s.consumeChunk (s.buffered ++ input.take fill)) (input.drop fill)
  else consumeStripes s input

/-- `update`: the length is counted first, with wrap-around. -/
def update (s : Xxh64State) (input : Bytes) : Xxh64State :=
  takeInput { s with totalLen := s.totalLen + UInt64.ofNat input.length } input

/-- The eight-byte steps of the tail. -/
def digestEights (hash : UInt64) (input : Bytes) : UInt64 × Bytes :=
  if input.length < 8 then (hash, input)
  else
    digestEights (rotateLeft (hash ^^^ xxhRound 0 (readU64Le input)) 27 * prime64_1 + prime64_4) (input.drop 8)
termination_by input.length
decreasing_by simp; omega

/-- The four-byte step of the tail. -/
def digestFour (hash : UInt64) (input : Bytes) : UInt64 × Bytes :=
  if input.length < 4 then (hash, input)
  else
    (rotateLeft (hash ^^^ UInt64.ofNat (readU32Le input) * prime64_1) 23 * prime64_2 + prime64_3, input.drop 4)

/-- One byte of the tail. -/
def digestByte (hash : UInt64) (b : UInt8) : UInt64 :=
  rotateLeft (hash ^^^ UInt64.ofNat b.toNat * prime64_5) 11 * prime64_1

/-- `digest`: the lanes converge if a stripe has been seen, and the buffered bytes are the tail. -/
def digest (s : Xxh64State) : UInt64 :=
  let hash :=
    if s.totalLen ≥ 32 then
      let value := rotateLeft s.v1 1 + rotateLeft s.v2 7 + rotateLeft s.v3 12 + rotateLeft s.v4 18
      mergeRound (mergeRound (mergeRound (mergeRound value s.v1) s.v2) s.v3) s.v4
    else s.seed + prime64_5
  let (hash, input) := digestEights (hash + s.totalLen) s.buffered
  let (hash, input) := digestFour hash input
  avalanche (input.foldl digestByte hash)

end Xxh64State

/-- `xxh64`: the hash of a slice at once. -/
def xxh64 (input : Bytes) (seed : UInt64) : UInt64 := ((Xxh64State.new seed).update input).digest

/-! ## Pieces do not matter -/

namespace Xxh64State

theorem consumeStripes_of_lt (s : Xxh64State) {input : Bytes} (h : input.length < 32) :
    s.consumeStripes input = { s with buffered := input, buffered_lt := h } := by
  rw [consumeStripes, dif_pos h]

theorem consumeStripes_of_le (s : Xxh64State) {input : Bytes} (h : 32 ≤ input.length) :
    s.consumeStripes input = (s.consumeChunk (input.take 32)).consumeStripes (input.drop 32) := by
  rw [consumeStripes, dif_neg (by omega)]

/-- What is buffered does not reach the stripes. -/
theorem consumeStripes_setBuffered (s : Xxh64State) {buffered : Bytes} (hb : buffered.length < 32) (input : Bytes) :
    ({ s with buffered, buffered_lt := hb } : Xxh64State).consumeStripes input = s.consumeStripes input := by
  induction hn : input.length using Nat.strong_induction_on generalizing s input with
  | _ n ih =>
    rcases Nat.lt_or_ge input.length 32 with h | h
    · rw [consumeStripes_of_lt _ h, consumeStripes_of_lt _ h]
    · rw [consumeStripes_of_le _ h, consumeStripes_of_le _ h]
      exact ih _ (by simp; omega) (s.consumeChunk (input.take 32)) _ rfl

/-- The length counter only rides along. -/
theorem consumeStripes_setTotalLen (n : UInt64) (s : Xxh64State) (input : Bytes) :
    ({ s with totalLen := n } : Xxh64State).consumeStripes input =
      { s.consumeStripes input with totalLen := n } := by
  induction hn : input.length using Nat.strong_induction_on generalizing s input with
  | _ m ih =>
    rcases Nat.lt_or_ge input.length 32 with h | h
    · rw [consumeStripes_of_lt _ h, consumeStripes_of_lt _ h]
    · rw [consumeStripes_of_le _ h, consumeStripes_of_le _ h, ← ih _ (by simp; omega) _ _ rfl]
      congr 1

/-- Input is taken in one form, whatever is buffered: the stripes of the buffered and the new bytes. -/
theorem takeInput_eq_stripes (s : Xxh64State) (input : Bytes) :
    s.takeInput input = s.consumeStripes (s.buffered ++ input) := by
  have hb := s.buffered_lt
  unfold takeInput
  split
  · rename_i h
    rw [consumeStripes_of_lt _ (by rw [List.length_append]; exact h)]
  rename_i h
  split
  · rw [consumeStripes_of_le s (by rw [List.length_append]; omega), List.take_append, List.drop_append,
      List.take_of_length_le (by omega), List.drop_of_length_le (by omega), List.nil_append]
  · rename_i h0
    rw [List.length_eq_zero_iff.1 (not_not.1 h0), List.nil_append]

theorem update_eq_stripes (s : Xxh64State) (input : Bytes) :
    s.update input =
      { s.consumeStripes (s.buffered ++ input) with totalLen := s.totalLen + UInt64.ofNat input.length } :=
  (takeInput_eq_stripes _ input).trans (consumeStripes_setTotalLen _ s _)

/-- What the whole stripes of a prefix leave over is all that the rest sees of it. -/
theorem stripes_append (s : Xxh64State) (a b : Bytes) :
    s.consumeStripes (a ++ b) = (s.consumeStripes a).consumeStripes ((s.consumeStripes a).buffered ++ b) := by
  induction hn : a.length using Nat.strong_induction_on generalizing s a with
  | _ n ih =>
    rcases Nat.lt_or_ge a.length 32 with h | h
    · rw [consumeStripes_of_lt s h]
      exact (consumeStripes_setBuffered s h (a ++ b)).symm
    · rw [consumeStripes_of_le s h, consumeStripes_of_le s (by rw [List.length_append]; omega),
        List.take_append_of_le_length h, List.drop_append_of_le_length h]
      exact ih _ (by simp; omega) _ _ rfl

/-- Two updates are one update with both pieces. -/
theorem update_append (s : Xxh64State) (a b : Bytes) : (s.update a).update b = s.update (a ++ b) := by
  rw [update_eq_stripes s (a ++ b), ← List.append_assoc, stripes_append, update_eq_stripes _ b, update_eq_stripes s a]
  simp only [consumeStripes_setTotalLen, List.length_append]
  congr 1
  simp [UInt64.add_assoc]

theorem update_nil (s : Xxh64State) : s.update [] = s := by
  rw [update_eq_stripes, List.append_nil, consumeStripes_of_lt _ s.buffered_lt]
  simp

end Xxh64State

/-- A checksum taken over pieces is the checksum of their concatenation. -/
theorem xxh64_foldl (pieces : List Bytes) (seed : UInt64) :
    (pieces.foldl Xxh64State.update (Xxh64State.new seed)).digest = xxh64 pieces.flatten seed := by
  have key : ∀ (pieces : List Bytes) (s : Xxh64State), pieces.foldl Xxh64State.update s = s.update pieces.flatten := by
    intro pieces
    induction pieces with
    | nil => intro s; exact s.update_nil.symm
    | cons p ps ih => intro s; rw [List.foldl_cons, ih, List.flatten_cons, Xxh64State.update_append]
  rw [key]; rfl

end Zstandard
