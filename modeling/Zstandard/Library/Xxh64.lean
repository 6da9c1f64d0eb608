/-
XXH64 by its definition: four lanes over the whole stripes of the input, each lane a fold over its own words, a tail of
eight-byte words, at most one four-byte word and single bytes, all in arithmetic on 64-bit words.
-/
import Mathlib.Data.BitVec
import Mathlib.Data.Nat.Digits.Defs

namespace Xxh64

/-- The arithmetic is modulo `2 ^ 64`. -/
abbrev Word := BitVec 64

/-- Five odd constants. -/
def prime1 : Word := 0x9E3779B185EBCA87
def prime2 : Word := 0xC2B2AE3D27D4EB4F
def prime3 : Word := 0x165667B19E3779F9
def prime4 : Word := 0x85EBCA77C2B2AE63
def prime5 : Word := 0x27D4EB2F165667C5

/-- The little-endian number that bytes spell. -/
def littleEndian (bytes : List UInt8) : Nat := Nat.ofDigits 256 (bytes.map UInt8.toNat)

/-- The `width` bytes at `offset` as a word. -/
def wordAt (src : List UInt8) (offset width : Nat) : Word :=
  BitVec.ofNat 64 (littleEndian ((src.drop offset).take width))

/-- One word into a lane. -/
def round (acc lane : Word) : Word := (acc + lane * prime2).rotateLeft 31 * prime1

/-- One lane into the accumulator. -/
def mergeRound (acc value : Word) : Word := (acc ^^^ round 0 value) * prime1 + prime4

/-- Lane `i` begins at `start` and takes the word at `8 * i` of each of the first `stripes` stripes. -/
def lane (src : List UInt8) (i stripes : Nat) (start : Word) : Word :=
  (List.range stripes).foldl (fun acc k => round acc (wordAt src (32 * k + 8 * i) 8)) start

/-- The four lanes together. -/
def converged (a b c d : Word) : Word :=
  let sum := a.rotateLeft 1 + b.rotateLeft 7 + c.rotateLeft 12 + d.rotateLeft 18
  mergeRound (mergeRound (mergeRound (mergeRound sum a) b) c) d

/-- An eight-byte word of the tail. -/
def takeEight (acc word : Word) : Word := (acc ^^^ round 0 word).rotateLeft 27 * prime1 + prime4

/-- The four-byte word of the tail. -/
def takeFour (acc word : Word) : Word := (acc ^^^ word * prime1).rotateLeft 23 * prime2 + prime3

/-- A single byte of the tail. -/
def takeOne (acc : Word) (byte : UInt8) : Word := (acc ^^^ BitVec.ofNat 64 byte.toNat * prime5).rotateLeft 11 * prime1

/-- The bytes behind the whole stripes. -/
def tail (acc : Word) (src : List UInt8) : Word :=
  let eights := src.length / 8
  let acc := (List.range eights).foldl (fun acc k => takeEight acc (wordAt src (8 * k) 8)) acc
  let rest := src.drop (8 * eights)
  if 4 ≤ rest.length then (rest.drop 4).foldl takeOne (takeFour acc (wordAt rest 0 4)) else rest.foldl takeOne acc

/-- The last mixing: every bit of the accumulator reaches every bit of the hash. -/
def avalanche (acc : Word) : Word :=
  let acc := (acc ^^^ acc >>> 33) * prime2
  let acc := (acc ^^^ acc >>> 29) * prime3
  acc ^^^ acc >>> 32

/-- The accumulator before the length is added. -/
def accumulated (seed : Word) (src : List UInt8) : Word :=
  if src.length < 32 then seed + prime5
  else
    let stripes := src.length / 32
    converged (lane src 0 stripes (seed + prime1 + prime2)) (lane src 1 stripes (seed + prime2))
      (lane src 2 stripes seed) (lane src 3 stripes (seed - prime1))

/-- XXH64 of `src`. -/
def hash (seed : Word) (src : List UInt8) : Word :=
  avalanche (tail (accumulated seed src + BitVec.ofNat 64 src.length) (src.drop (32 * (src.length / 32))))

example : hash 0 [] = 0xEF46DB3751D8E999 := by decide +kernel

/-! ## Unrolling -/

theorem littleEndian_nil : littleEndian [] = 0 := rfl

theorem littleEndian_cons (b : UInt8) (bytes : List UInt8) :
    littleEndian (b :: bytes) = b.toNat + 256 * littleEndian bytes := by
  unfold littleEndian
  rw [List.map_cons, Nat.ofDigits_cons]

theorem lane_zero (src : List UInt8) (i : Nat) (start : Word) : lane src i 0 start = start := rfl

/-- The first stripe first. -/
theorem lane_succ (src : List UInt8) (i stripes : Nat) (start : Word) :
    lane src i (stripes + 1) start = lane (src.drop 32) i stripes (round start (wordAt src (8 * i) 8)) := by
  have hwords : (fun acc k => round acc (wordAt src (32 * (k + 1) + 8 * i) 8)) =
      fun acc k => round acc (wordAt (src.drop 32) (32 * k + 8 * i) 8) := by
    funext acc k
    unfold wordAt
    rw [List.drop_drop, show 32 + (32 * k + 8 * i) = 32 * (k + 1) + 8 * i by omega]
  unfold lane
  rw [List.range_succ_eq_map, List.foldl_cons, List.foldl_map, hwords, Nat.mul_zero, Nat.zero_add]

theorem tail_of_lt (acc : Word) {src : List UInt8} (h : src.length < 8) :
    tail acc src = if 4 ≤ src.length then (src.drop 4).foldl takeOne (takeFour acc (wordAt src 0 4))
      else src.foldl takeOne acc := by
  unfold tail
  rw [Nat.div_eq_of_lt h]
  rfl

theorem tail_of_le (acc : Word) {src : List UInt8} (h : 8 ≤ src.length) :
    tail acc src = tail (takeEight acc (wordAt src 0 8)) (src.drop 8) := by
  obtain ⟨n, hn⟩ : ∃ n, src.length / 8 = n + 1 := ⟨src.length / 8 - 1, by omega⟩
  have hn' : (src.drop 8).length / 8 = n := by rw [List.length_drop]; omega
  have hrest : src.drop (8 * (n + 1)) = (src.drop 8).drop (8 * n) := by
    rw [List.drop_drop, show 8 + 8 * n = 8 * (n + 1) by omega]
  have hwords : (fun acc k => takeEight acc (wordAt src (8 * (k + 1)) 8)) =
      fun acc k => takeEight acc (wordAt (src.drop 8) (8 * k) 8) := by
    funext acc k
    unfold wordAt
    rw [List.drop_drop, show 8 + 8 * k = 8 * (k + 1) by omega]
  unfold tail
  dsimp only
  rw [hn, hn', hrest, List.range_succ_eq_map, List.foldl_cons, List.foldl_map, hwords, Nat.mul_zero]

end Xxh64
