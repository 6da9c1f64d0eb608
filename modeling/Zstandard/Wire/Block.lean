/-
The three-byte block header: parsing, writing, and that each undoes the other. The parser reads
exactly three bytes, so it is incremental, and the size field is what its 21 bits can hold.
-/
import Zstandard.Wire.Bytes
import Zstandard.Library.Incremental

namespace Zstandard

open Reader

/-! ## Incremental slice reads -/

theorem getByte_incremental (pos : Nat) : Incremental Error.unexpectedEof (getByte · pos) := by
  intro s t
  simp only [getByte]
  by_cases h : pos < s.length
  · right; rw [List.getElem?_append_left h]
  · left; rw [List.getElem?_eq_none (by omega)]

theorem getRange_incremental (pos stop : Nat) : Incremental Error.unexpectedEof (getRange · pos stop) := by
  intro s t
  simp only [getRange]
  by_cases h : pos ≤ stop ∧ stop ≤ s.length
  · right
    rw [if_pos h, if_pos (by simp; omega), List.drop_append_of_le_length (by omega),
      List.take_append_of_le_length (by simp; omega)]
  · left; rw [if_neg h]

/-! ## Block headers -/

/-- `BLOCK_SIZE_MAX`: the largest payload of one block. -/
def blockSizeMax : Nat := 128 * 1024
/-- `BLOCK_HEADER_SIZE`. -/
def blockHeaderSize : Nat := 3

/-- `BlockType`. -/
inductive BlockType where
  | raw | rle | compressed
deriving DecidableEq, Repr

/-- `BlockHeader`. -/
structure BlockHeader where
  lastBlock : Bool
  blockType : BlockType
  blockSize : Nat
deriving DecidableEq, Repr

/-- The type of two bits; one value is reserved. -/
def BlockType.parse (bits : Nat) : Result BlockType :=
  match bits with
  | 0 => .ok .raw
  | 1 => .ok .rle
  | 2 => .ok .compressed
  | _ => .error (.corruption "reserved block type")

/-- The two bits of a type. -/
def BlockType.bits : BlockType → Nat
  | .raw => 0
  | .rle => 1
  | .compressed => 2

/-- `BlockHeader::parse`: three bytes. -/
def BlockHeader.parse (src : Bytes) : Result BlockHeader :=
  if src.length < blockHeaderSize then .error .unexpectedEof else do
    let value := readU24Le src
    let blockType ← BlockType.parse (value / 2 % 4)
    .ok { lastBlock := value % 2 = 1, blockType, blockSize := value / 8 }

/-- The number that the three bytes spell. -/
def BlockHeader.value (h : BlockHeader) : Nat := h.lastBlock.toNat + h.blockType.bits * 2 + h.blockSize * 8

/-- `encode`, the three bytes of `write_to` and `write_at`. -/
def BlockHeader.encode (h : BlockHeader) : Bytes := writeLe h.value 3

/-- The bytes behind the header, one for a repeated byte. -/
def BlockHeader.payloadSize (h : BlockHeader) : Nat :=
  match h.blockType with
  | .raw | .compressed => h.blockSize
  | .rle => 1

@[simp] theorem BlockHeader.encode_length (h : BlockHeader) : h.encode.length = 3 := writeLe_length _ _

theorem BlockType.parse_bits (t : BlockType) : BlockType.parse t.bits = .ok t := by cases t <;> rfl

theorem readU24Le_append {s : Bytes} (h : blockHeaderSize ≤ s.length) (t : Bytes) :
    readU24Le (s ++ t) = readU24Le s := by
  unfold readU24Le; rw [List.take_append_of_le_length (by simpa [blockHeaderSize] using h)]

theorem BlockHeader.parse_incremental : Incremental Error.unexpectedEof BlockHeader.parse := by
  intro s t
  by_cases h : s.length < blockHeaderSize
  · left; unfold BlockHeader.parse; rw [if_pos h]
  · right; unfold BlockHeader.parse
    rw [if_neg h, if_neg (by simp; omega), readU24Le_append (by omega)]

/-- What a parsed block header says about its bytes. -/
theorem BlockHeader.parse_ok {src : Bytes} {h : BlockHeader} (hp : BlockHeader.parse src = .ok h) :
    3 ≤ src.length ∧ h.blockSize < 2 ^ 21 := by
  unfold BlockHeader.parse at hp
  split at hp
  · cases hp
  · rename_i hlen
    obtain ⟨t, -, h'⟩ := bind_ok hp
    cases h'
    have hb := readLe_lt (src.take 3)
    have h3 : (src.take 3).length = 3 := by simp [blockHeaderSize] at hlen ⊢; omega
    rw [h3] at hb
    refine ⟨by simpa [blockHeaderSize] using hlen, ?_⟩
    show readLe (src.take 3) / 8 < 2 ^ 21
    omega

/-- A written header parses back, whatever follows it. -/
theorem BlockHeader.parse_encode (h : BlockHeader) (hs : h.blockSize < 2 ^ 21) (rest : Bytes) :
    BlockHeader.parse (h.encode ++ rest) = .ok h := by
  obtain ⟨last, type, size⟩ := h
  simp only at hs
  unfold BlockHeader.parse
  rw [if_neg (by simp [blockHeaderSize]), readU24Le_append (by simp [blockHeaderSize])]
  have hbits : type.bits < 3 := by cases type <;> decide
  have hlast : last.toNat < 2 := by cases last <;> decide
  have hv : readU24Le (BlockHeader.encode ⟨last, type, size⟩) = last.toNat + type.bits * 2 + size * 8 := by
    unfold readU24Le BlockHeader.encode
    rw [List.take_of_length_le (by simp), readLe_writeLe _ _ (by simp only [BlockHeader.value]; omega)]
    rfl
  simp only [hv]
  rw [show (last.toNat + type.bits * 2 + size * 8) / 2 % 4 = type.bits by omega, BlockType.parse_bits, ok_bind]
  congr 2
  · cases last <;> simp <;> omega
  · omega

end Zstandard
