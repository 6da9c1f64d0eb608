/-
Frame headers and the frame walkers: parsing of standard, magicless and skippable headers, and
`find_frame_compressed_size`, `decompress_bound` and `decompressed_size`, which measure frames from
their block headers without decoding anything.

The header parser is built from checked reads, so it is incremental, and it never reads past the
header size it reports.
-/
import Zstandard.Wire.Block

namespace Zstandard

open Reader

/-! ## Headers -/

/-- The four bytes a standard frame begins with, as a little-endian number. -/
def zstdMagicNumber : Nat := 0xFD2FB528

/-- The first of the sixteen magic numbers of a skippable frame. -/
def skippableMagicBase : Nat := 0x184D2A50

/-- `Format`: whether standard frames begin with their magic number. -/
inductive Format where
  | zstd1 | zstd1Magicless
deriving DecidableEq, Repr

/-- The bytes in front of the frame descriptor. -/
def Format.magicSize : Format → Nat
  | .zstd1 => 4
  | .zstd1Magicless => 0

/-- `ZstandardFrameHeader`. In a single-segment frame the window is the content size. -/
structure ZstandardFrameHeader where
  headerSize : Nat
  windowSize : Nat
  blockSizeMax : Nat
  contentSize : Option Nat
  dictionaryId : Option Nat
  checksum : Bool
  singleSegment : Bool
deriving DecidableEq, Repr

/-- `SkippableFrame`: a frame of user data, of which a decoder reads only the size. -/
structure SkippableFrame where
  headerSize : Nat
  magicVariant : Nat
  size : Nat
deriving DecidableEq, Repr

/-- A parsed header of either kind. -/
inductive FrameHeader where
  | zstandard (header : ZstandardFrameHeader)
  | skippable (frame : SkippableFrame)
deriving DecidableEq, Repr

/-- `decode_window_descriptor`: a power of two from 1 KiB on, and up to seven eighths of it more. -/
def decodeWindowDescriptor (descriptor : Nat) : Nat :=
  let windowBase := 2 ^ (10 + descriptor / 8)
  windowBase + windowBase / 8 * (descriptor % 8)

/-- The bytes of the content size field. -/
def frameContentSizeFieldSize (flag : Nat) (singleSegment : Bool) : Nat :=
  match flag with
  | 0 => singleSegment.toNat
  | 1 => 2
  | 2 => 4
  | _ => 8

/-- The content size a field spells: two bytes count from 256 on. -/
def decodeFrameContentSize (field : Bytes) : Nat :=
  if field.length = 2 then readLe field + 256 else readLe field

/-- The bytes of the dictionary id field. -/
def dictionaryIdSize (descriptor : Nat) : Nat :=
  match descriptor % 4 with
  | 0 => 0
  | 1 => 1
  | 2 => 2
  | _ => 4

/-- The window field at `pos` and the position after it; single-segment frames have none. -/
def readWindowField (singleSegment : Bool) (pos : Nat) (src : Bytes) : Result (Nat × Nat) :=
  if singleSegment then .ok (0, pos)
  else do .ok (decodeWindowDescriptor (← getByte src pos).toNat, pos + 1)

/-- The dictionary id field of `size` bytes at `pos`; a zero id is no id. -/
def readDictionaryIdField (size pos : Nat) (src : Bytes) : Result (Option Nat) :=
  if size = 0 then .ok none
  else do
    let value := readLe (← getRange src pos (pos + size))
    .ok (if value ≠ 0 then some value else none)

/-- The content size field of `size` bytes at `pos`. -/
def readContentSizeField (size pos : Nat) (src : Bytes) : Result (Option Nat) :=
  if size = 0 then .ok none
  else do .ok (some (decodeFrameContentSize (← getRange src pos (pos + size))))

/-- The window a frame works with: in single-segment frames, its content size. -/
def effectiveWindowSize (singleSegment : Bool) (contentSize : Option Nat) (window : Nat) : Result Nat :=
  if singleSegment then
    match contentSize with
    | some n => .ok n
    | none => .error (.corruption "single-segment frames must include a content size")
  else .ok window

/-- `parse_zstandard_frame_header`: the descriptor, then the fields it announces. -/
def parseZstandardFrameHeader (format : Format) (src : Bytes) : Result FrameHeader := do
  let descriptor := (← getByte src format.magicSize).toNat
  if descriptor / 8 % 2 = 1 then .error (.corruption "frame header reserved bit is set") else
  let singleSegment : Bool := descriptor / 32 % 2 = 1
  let idSize := dictionaryIdSize descriptor
  let fcsSize := frameContentSizeFieldSize (descriptor / 64) singleSegment
  let (window, pos) ← readWindowField singleSegment (format.magicSize + 1) src
  let dictionaryId ← readDictionaryIdField idSize pos src
  let contentSize ← readContentSizeField fcsSize (pos + idSize) src
  let windowSize ← effectiveWindowSize singleSegment contentSize window
  .ok (.zstandard {
    headerSize := pos + idSize + fcsSize, windowSize,
    blockSizeMax := min windowSize blockSizeMax, contentSize, dictionaryId,
    checksum := descriptor / 4 % 2 = 1, singleSegment })

/-- Any of the sixteen magic numbers of a skippable frame. -/
def isSkippableMagic (magic : Nat) : Bool := magic / 16 * 16 = skippableMagicBase

/-- The header of a skippable frame whose magic number has been read. -/
def parseSkippableFrameHeader (magic : Nat) (src : Bytes) : Result FrameHeader :=
  if src.length < 8 then .error .unexpectedEof
  else .ok (.skippable {
    headerSize := 8, magicVariant := magic - skippableMagicBase, size := readU32Le (src.drop 4) })

/-- `parse_frame_header_with_format`: the magic number decides, where the format has one. -/
def parseFrameHeaderWithFormat (format : Format) (src : Bytes) : Result FrameHeader :=
  if format = .zstd1Magicless then parseZstandardFrameHeader format src
  else if src.length < 4 then .error .unexpectedEof
  else
    let magic := readU32Le src
    if magic = zstdMagicNumber then parseZstandardFrameHeader format src
    else if isSkippableMagic magic then parseSkippableFrameHeader magic src
    else .error (.badMagic magic)

/-! ### The parser is incremental -/

theorem readWindowField_incremental (single : Bool) (pos : Nat) :
    Incremental Error.unexpectedEof (readWindowField single pos) :=
  (incremental_const _).ite ((getByte_incremental pos).bind fun _ => incremental_const _)

theorem readDictionaryIdField_incremental (size pos : Nat) :
    Incremental Error.unexpectedEof (readDictionaryIdField size pos) :=
  (incremental_const _).ite ((getRange_incremental pos _).bind fun _ => incremental_const _)

theorem readContentSizeField_incremental (size pos : Nat) :
    Incremental Error.unexpectedEof (readContentSizeField size pos) :=
  (incremental_const _).ite ((getRange_incremental pos _).bind fun _ => incremental_const _)

theorem parseZstandardFrameHeader_incremental (format : Format) :
    Incremental Error.unexpectedEof (parseZstandardFrameHeader format) := by
  refine (getByte_incremental _).bind fun b => (incremental_const _).ite ?_
  refine (readWindowField_incremental _ _).bind fun w => ?_
  refine (readDictionaryIdField_incremental _ _).bind fun d => ?_
  exact (readContentSizeField_incremental _ _).bind fun c => incremental_const _

theorem parseSkippableFrameHeader_incremental (magic : Nat) :
    Incremental Error.unexpectedEof (parseSkippableFrameHeader magic) := by
  intro s t
  simp only [parseSkippableFrameHeader]
  by_cases h : s.length < 8
  · left; rw [if_pos h]
  · right
    rw [if_neg h, if_neg (by simp; omega), List.drop_append_of_le_length (by omega)]
    unfold readU32Le; rw [List.take_append_of_le_length (by simp; omega)]

theorem parseFrameHeader_incremental (format : Format) :
    Incremental Error.unexpectedEof (parseFrameHeaderWithFormat format) := by
  intro s t
  unfold parseFrameHeaderWithFormat
  by_cases hf : format = .zstd1Magicless
  · simp only [if_pos hf]; exact parseZstandardFrameHeader_incremental format s t
  simp only [if_neg hf]
  by_cases h : s.length < 4
  · left; rw [if_pos h]
  · have hm : readU32Le (s ++ t) = readU32Le s := by
      unfold readU32Le; rw [List.take_append_of_le_length (by omega)]
    have ht : ¬ (s ++ t).length < 4 := by simp; omega
    rw [hm, if_neg h, if_neg ht]
    have hz := parseZstandardFrameHeader_incremental format
    have hk := parseSkippableFrameHeader_incremental (readU32Le s)
    exact (hz.ite (c := readU32Le s = zstdMagicNumber)
      (hk.ite (c := isSkippableMagic (readU32Le s) = true) (incremental_const _))) s t

/-! ### What a parsed header says -/

theorem readWindowField_ok {single : Bool} {pos : Nat} {src : Bytes} {w p : Nat}
    (h : readWindowField single pos src = .ok (w, p)) :
    pos ≤ p ∧ (single = false → p ≤ src.length) ∧ p ≤ pos + 1 := by
  unfold readWindowField at h
  split at h
  · rename_i hs; cases h; exact ⟨le_refl _, fun h' => by simp [h'] at hs, by omega⟩
  · obtain ⟨b, hb, h⟩ := bind_ok h
    cases h
    have := List.getElem?_eq_some_iff.1 (getByte_ok hb)
    exact ⟨by omega, fun _ => by obtain ⟨h, -⟩ := this; omega, le_refl _⟩

theorem readDictionaryIdField_ok {size pos : Nat} {src : Bytes} {d : Option Nat}
    (h : readDictionaryIdField size pos src = .ok d) : size = 0 ∨ pos + size ≤ src.length := by
  unfold readDictionaryIdField at h
  split at h
  · exact .inl (by assumption)
  · obtain ⟨r, hr, -⟩ := bind_ok h
    exact .inr (getRange_ok hr).2.1

theorem readContentSizeField_ok {size pos : Nat} {src : Bytes} {c : Option Nat}
    (h : readContentSizeField size pos src = .ok c) :
    (size = 0 ∧ c = none) ∨ (pos + size ≤ src.length ∧ c.isSome) := by
  unfold readContentSizeField at h
  split at h
  · cases h; exact .inl ⟨by assumption, rfl⟩
  · obtain ⟨r, hr, h⟩ := bind_ok h
    cases h; exact .inr ⟨(getRange_ok hr).2.1, rfl⟩

/-- A parsed standard header lies inside the input, after the magic number, and bounds its blocks
by the window and by `BLOCK_SIZE_MAX`. -/
structure HeaderOk (format : Format) (src : Bytes) (h : ZstandardFrameHeader) : Prop where
  pos : format.magicSize < h.headerSize
  le : h.headerSize ≤ src.length
  block : h.blockSizeMax = min h.windowSize Zstandard.blockSizeMax

theorem parseZstandardFrameHeader_ok {format : Format} {src : Bytes} {fh : FrameHeader}
    (h : parseZstandardFrameHeader format src = .ok fh) :
    ∃ header, fh = .zstandard header ∧ HeaderOk format src header := by
  unfold parseZstandardFrameHeader at h
  obtain ⟨b, hb, h⟩ := bind_ok h
  obtain ⟨hlen, -⟩ := List.getElem?_eq_some_iff.1 (getByte_ok hb)
  simp only at h
  split at h
  · cases h
  obtain ⟨⟨w, p⟩, hw, h⟩ := bind_ok h
  obtain ⟨d, hd, h⟩ := bind_ok h
  obtain ⟨c, hc, h⟩ := bind_ok h
  obtain ⟨ws, -, h⟩ := bind_ok h
  cases h
  obtain ⟨hp1, -, hp2⟩ := readWindowField_ok hw
  have hp3 : p ≤ src.length := by
    unfold readWindowField at hw
    split at hw
    · cases hw; omega
    · obtain ⟨b', hb', hw⟩ := bind_ok hw
      cases hw
      obtain ⟨hlen', -⟩ := List.getElem?_eq_some_iff.1 (getByte_ok hb')
      omega
  have hd' := readDictionaryIdField_ok hd
  have hc' := readContentSizeField_ok hc
  refine ⟨_, rfl, ?_, ?_, rfl⟩
  · show format.magicSize < p + _ + _
    omega
  · show p + _ + _ ≤ src.length
    rcases hd' with hd' | hd' <;> rcases hc' with ⟨hc', -⟩ | ⟨hc', -⟩ <;> omega

theorem parseFrameHeader_ok {format : Format} {src : Bytes} {fh : FrameHeader}
    (h : parseFrameHeaderWithFormat format src = .ok fh) :
    (∃ header, fh = .zstandard header ∧ HeaderOk format src header) ∨
    (∃ frame, fh = .skippable frame ∧ frame.headerSize = 8 ∧ 8 ≤ src.length ∧ frame.size < 2 ^ 32) := by
  unfold parseFrameHeaderWithFormat at h
  split at h
  · exact .inl (parseZstandardFrameHeader_ok h)
  split at h
  · cases h
  simp only at h
  split at h
  · exact .inl (parseZstandardFrameHeader_ok h)
  split at h
  · unfold parseSkippableFrameHeader at h
    split at h
    · cases h
    · rename_i hlen
      cases h
      refine .inr ⟨_, rfl, rfl, by omega, ?_⟩
      have := readLe_lt ((src.drop 4).take 4)
      rw [show ((src.drop 4).take 4).length = 4 by simp; omega] at this
      exact this
  · cases h

/-! ### The parser reads no further than the header -/

theorem getByte_take {src : Bytes} {pos n : Nat} (h : pos < n) : getByte (src.take n) pos = getByte src pos := by
  unfold getByte; rw [List.getElem?_take_of_lt h]

theorem getRange_take {src : Bytes} {pos stop n : Nat} (h : stop ≤ n) :
    getRange (src.take n) pos stop = getRange src pos stop := by
  unfold getRange
  rw [List.length_take]
  by_cases hc : pos ≤ stop ∧ stop ≤ src.length
  · rw [if_pos hc, if_pos (by omega), List.drop_take, List.take_take, min_eq_left (by omega)]
  · rw [if_neg hc, if_neg (by omega)]

theorem readWindowField_take {single : Bool} {pos n w p : Nat} {src : Bytes}
    (h : readWindowField single pos src = .ok (w, p)) (hp : p ≤ n) :
    readWindowField single pos (src.take n) = .ok (w, p) := by
  unfold readWindowField at h ⊢
  split at h
  · rw [if_pos (by assumption)]; exact h
  · rw [if_neg (by assumption)]
    obtain ⟨b, hb, h⟩ := bind_ok h
    cases h
    rw [getByte_take (by omega), hb]
    rfl

theorem readDictionaryIdField_take {size pos n : Nat} {src : Bytes} (hp : pos + size ≤ n) :
    readDictionaryIdField size pos (src.take n) = readDictionaryIdField size pos src := by
  unfold readDictionaryIdField
  rw [getRange_take hp]

theorem readContentSizeField_take {size pos n : Nat} {src : Bytes} (hp : pos + size ≤ n) :
    readContentSizeField size pos (src.take n) = readContentSizeField size pos src := by
  unfold readContentSizeField
  rw [getRange_take hp]

theorem parseZstandardFrameHeader_take {format : Format} {src : Bytes} {header : ZstandardFrameHeader}
    (h : parseZstandardFrameHeader format src = .ok (.zstandard header)) {n : Nat} (hn : header.headerSize ≤ n) :
    parseZstandardFrameHeader format (src.take n) = .ok (.zstandard header) := by
  obtain ⟨header', he, hok⟩ := parseZstandardFrameHeader_ok h
  cases he
  have hpos := hok.pos
  unfold parseZstandardFrameHeader at h ⊢
  obtain ⟨b, hb, h⟩ := bind_ok h
  simp only at h
  split at h
  · cases h
  rename_i hres
  obtain ⟨⟨w, p⟩, hw, h⟩ := bind_ok h
  obtain ⟨d, hd, h⟩ := bind_ok h
  obtain ⟨c, hc, h⟩ := bind_ok h
  obtain ⟨ws, hws, h⟩ := bind_ok h
  cases h
  simp only at hn hpos
  rw [getByte_take (by omega), hb, ok_bind]
  simp only [if_neg hres]
  rw [readWindowField_take hw (by omega), ok_bind]
  simp only
  rw [readDictionaryIdField_take (by omega), hd, ok_bind, readContentSizeField_take (by omega), hc, ok_bind, hws]
  rfl

/-- The header alone, or any longer piece of the input, parses the same. -/
theorem parseFrameHeader_take {format : Format} {src : Bytes} {n : Nat} {fh : FrameHeader}
    (h : parseFrameHeaderWithFormat format src = .ok fh)
    (hn : match fh with | .zstandard header => header.headerSize ≤ n | .skippable frame => frame.headerSize ≤ n) :
    parseFrameHeaderWithFormat format (src.take n) = .ok fh := by
  have h' := h
  unfold parseFrameHeaderWithFormat at h ⊢
  have hz : parseZstandardFrameHeader format src = .ok fh →
      parseZstandardFrameHeader format (src.take n) = .ok fh := by
    intro hp
    obtain ⟨header, rfl, _⟩ := parseZstandardFrameHeader_ok hp
    exact parseZstandardFrameHeader_take hp hn
  split at h
  · rw [if_pos (by assumption)]; exact hz h
  rename_i hf
  rw [if_neg hf]
  have hformat : format.magicSize = 4 := by cases format <;> simp_all [Format.magicSize]
  -- the header is longer than the magic number in either case
  have h4 : 4 ≤ src.length ∧ 4 ≤ n := by
    rcases parseFrameHeader_ok h' with ⟨header, rfl, hok⟩ | ⟨frame, rfl, h8, hlen, _⟩
    · have := hok.pos; have := hok.le; simp only at hn; omega
    · simp only at hn; omega
  have hmagic : readU32Le (src.take n) = readU32Le src := by
    unfold readU32Le; rw [List.take_take, min_eq_left h4.2]
  rw [if_neg (by omega)] at h
  rw [if_neg (by rw [List.length_take]; omega), hmagic]
  simp only at h ⊢
  split at h
  · rw [if_pos (by assumption)]; exact hz h
  rw [if_neg (by assumption)]
  split at h
  · rw [if_pos (by assumption)]
    unfold parseSkippableFrameHeader at h ⊢
    split at h
    · cases h
    cases h
    simp only at hn
    rw [if_neg (by rw [List.length_take]; omega)]
    unfold readU32Le
    rw [List.drop_take, List.take_take, min_eq_left (by omega)]
  · cases h

/-! ## Frame sizes without decoding -/

/-- What the walkers learn of one frame: its bytes, and what it decodes to at most and by declaration. -/
structure FrameSizeInfo where
  compressedSize : Nat
  decompressedBound : Nat
  declaredSize : Option Nat
deriving DecidableEq, Repr

/-- The block walk of `frame_size_info`: the position after the last block and the number of blocks.
Every block takes at least its header, so `src.length` rounds are enough. -/
def walkBlocks (src : Bytes) : Nat → Nat → Nat → Result (Nat × Nat)
  | 0, _, _ => .error .unexpectedEof
  | fuel + 1, pos, blocks => do
    let blockHeader ← BlockHeader.parse (← getFrom src pos)
    let pos := pos + (blockHeaderSize + blockHeader.payloadSize)
    if pos > src.length then .error .unexpectedEof else
    if blockHeader.lastBlock then .ok (pos, blocks + 1) else walkBlocks src fuel pos (blocks + 1)

/-- The end of a frame whose last block ends at `pos`. -/
def skipChecksum (checksum : Bool) (src : Bytes) (pos : Nat) : Result Nat :=
  if checksum then if pos + 4 > src.length then .error .unexpectedEof else .ok (pos + 4) else .ok pos

/-- `saturating_mul` on 64-bit counters. -/
def saturatingMul (a b : Nat) : Nat := min (a * b) (2 ^ 64 - 1)

/-- `frame_size_info`: the first frame of the input, measured from its headers. -/
def frameSizeInfo (format : Format) (src : Bytes) : Result FrameSizeInfo := do
  match ← parseFrameHeaderWithFormat format src with
  | .skippable skippable =>
    let compressedSize := skippable.headerSize + skippable.size
    if src.length < compressedSize then .error .unexpectedEof
    else .ok { compressedSize, decompressedBound := 0, declaredSize := some 0 }
  | .zstandard header =>
    let (pos, blocks) ← walkBlocks src src.length header.headerSize 0
    let pos ← skipChecksum header.checksum src pos
    .ok {
      compressedSize := pos
      decompressedBound := header.contentSize.getD (saturatingMul blocks header.blockSizeMax)
      declaredSize := header.contentSize }

/-- The loop of `for_each_frame`. Every frame takes at least one byte, so `src.length` rounds are
enough. -/
def forEachFrameLoop {α : Type} (format : Format) (fold : α → FrameSizeInfo → Result α) :
    Nat → Bytes → α → Result α
  | _, [], seed => .ok seed
  | 0, _, _ => .error .generic
  | fuel + 1, src, seed => do
    let info ← frameSizeInfo format src
    let seed ← fold seed info
    forEachFrameLoop format fold fuel (src.drop info.compressedSize) seed

/-- `for_each_frame`: a fold over the frames of the whole input, which is not empty. -/
def forEachFrame {α : Type} (format : Format) (fold : α → FrameSizeInfo → Result α) (src : Bytes)
    (seed : α) : Result α :=
  if src.isEmpty then .error .unexpectedEof else forEachFrameLoop format fold src.length src seed

/-- `find_frame_compressed_size_with_format`: the first frame only. -/
def findFrameCompressedSizeWithFormat (format : Format) (src : Bytes) : Result Nat := do
  .ok (← frameSizeInfo format src).compressedSize

/-- `decompress_bound_with_format`: the sum of the bounds of all frames. -/
def decompressBoundWithFormat (format : Format) (src : Bytes) : Result Nat :=
  forEachFrame format (fun total info => checkedAdd total info.decompressedBound .outputSizeOverflow) src 0

/-- One frame more in a declared total, which a frame without a declaration ends. -/
def addDeclaredSize (total : Option Nat) (info : FrameSizeInfo) : Result (Option Nat) :=
  match total, info.declaredSize with
  | some total, some declared => do .ok (some (← checkedAdd total declared .outputSizeOverflow))
  | _, _ => .ok none

/-- `decompressed_size_with_format`: what the frames declare together, if all of them declare. -/
def decompressedSizeWithFormat (format : Format) (src : Bytes) : Result (Option Nat) :=
  forEachFrame format addDeclaredSize src (some 0)

end Zstandard
