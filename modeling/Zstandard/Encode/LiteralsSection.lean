/-
The literals section of an encoded block: Huffman streams if they save enough, a repeated byte, or the literals as they
are.

The table that an encoder hands to the next block is the one its decoder has then, so a run of sections is read back to
its literals. The strongest strategy keeps streams that save next to nothing, among them some whose description is
spoilt; sections of other lengths do not come near.
-/
import Zstandard.Decode.Literals
import Zstandard.Encode.Blocks
import Zstandard.Encode.SequenceSection
import Zstandard.Entropy.HuffmanChoice
import Zstandard.Wire.HeaderWriter

namespace Zstandard

open Huff0

/-! ## What an encoder keeps -/

/-- `LiteralsRepeatMode`: whether the previous table may be repeated, and whether that has to be checked. -/
inductive LiteralsRepeatMode where
  | none | check | valid
deriving DecidableEq, Repr

/-- `LiteralsEncodingState`: the table a later section may repeat. -/
structure LiteralsEncodingState where
  huffmanTable : Option CTableX1 := none
  repeatMode : LiteralsRepeatMode := .none
  compressionDisabled : Bool := false

/-- `with_table_and_repeat_mode`. -/
def LiteralsEncodingState.withTableAndRepeatMode (huffmanTable : Option CTableX1) (repeatMode : LiteralsRepeatMode)
    (compressionDisabled : Bool) : LiteralsEncodingState where
  huffmanTable
  repeatMode := if huffmanTable.isSome then repeatMode else .none
  compressionDisabled

/-- The buffers of the literals, of which a section makes use but reads nothing. -/
structure LiteralsScratch where
  huffmanDst : Bytes := []
  workspace : CompressWorkspace := {}

/-! ## Headers -/

/-- The header of compressed literals, by the size they regenerate. -/
structure CompressedLiteralsLayout where
  headerSize : Nat
  sizeFormat : Nat
  singleStream : Bool

namespace CompressedLiteralsLayout

/-- The largest size its field holds. -/
def maxCompressedSize (l : CompressedLiteralsLayout) : Nat :=
  match l.sizeFormat with
  | 0 | 1 => 0x3FF
  | 2 => 0x3FFF
  | _ => 0x3FFFF

/-- One stream or four. -/
def streamMode (l : CompressedLiteralsLayout) : StreamMode := if l.singleStream then .single else .four

end CompressedLiteralsLayout

/-- `compressed_literals_layout`. -/
def compressedLiteralsLayout (regeneratedSize : Nat) (repeatMode : LiteralsRepeatMode) : CompressedLiteralsLayout :=
  let headerSize := 3 + (if regeneratedSize ≥ 1024 then 1 else 0) + (if regeneratedSize ≥ 16 * 1024 then 1 else 0)
  let singleStream := decide (regeneratedSize < 256 ∨ repeatMode = .valid ∧ headerSize = 3)
  let sizeFormat := if headerSize = 3 then (if singleStream then 0 else 1) else if headerSize = 4 then 2 else 3
  { headerSize, sizeFormat, singleStream }

/-- Fewer literals are stored. -/
def minimumLiteralsToCompress (parserStrategy : ParserStrategy) (repeatMode : LiteralsRepeatMode) : Nat :=
  if repeatMode = .valid then 6 else 8 <<< min (9 - parserStrategy.zstdRank) 3

/-- What compression has to save. -/
def minimumCompressedBlockGain (rawSize : Nat) (parserStrategy : ParserStrategy) : Nat :=
  let minlog :=
    if parserStrategy.zstdRank ≥ ParserStrategy.binaryTreeUltra.zstdRank then parserStrategy.zstdRank - 1 else 6
  rawSize >>> minlog + 2

/-- Whether it saves that. -/
def compressedLiteralsClearMinimumGain (rawSize compressedSize : Nat) (parserStrategy : ParserStrategy) : Bool :=
  decide (compressedSize < rawSize - minimumCompressedBlockGain rawSize parserStrategy)

/-- The strongest strategies search for the depth. -/
def huffmanTableDepth (parserStrategy : ParserStrategy) : TableDepth :=
  if parserStrategy.zstdRank ≥ ParserStrategy.binaryTreeUltra.zstdRank then .searched else .estimated

/-- `append_compressed_literals_header`. -/
def compressedLiteralsHeader (blockType sizeFormat regeneratedSize compressedSize : Nat) : Bytes :=
  let lowBits := blockType ||| sizeFormat <<< 2
  match sizeFormat with
  | 0 | 1 => writeLe (lowBits ||| regeneratedSize <<< 4 ||| compressedSize <<< 14) 3
  | 2 => writeLe (lowBits ||| regeneratedSize <<< 4 ||| compressedSize <<< 18) 4
  | _ => writeLe (lowBits ||| regeneratedSize <<< 4 ||| compressedSize <<< 22) 5

/-- The bytes of a header of plain or repeated literals. -/
def rawOrRleLiteralsHeaderLen (regeneratedSize : Nat) : Nat :=
  if regeneratedSize ≤ 31 then 1 else if regeneratedSize ≤ 0x0FFF then 2 else 3

/-- `append_raw_or_rle_literals_header`. -/
def rawOrRleLiteralsHeader (blockType regeneratedSize : Nat) : Bytes :=
  if rawOrRleLiteralsHeaderLen regeneratedSize = 1 then [UInt8.ofNat (blockType ||| regeneratedSize <<< 3)]
  else if rawOrRleLiteralsHeaderLen regeneratedSize = 2 then writeLe (blockType ||| 1 <<< 2 ||| regeneratedSize <<< 4) 2
  else writeLe (blockType ||| 3 <<< 2 ||| regeneratedSize <<< 4) 3

/-! ## The section -/

/-- The checks on what the Huffman coder has come up with, and the section they admit. -/
def acceptCompressedLiterals (src compressed : Bytes) (literalsState : LiteralsEncodingState)
    (parserStrategy : ParserStrategy) (choice : PreferredTableCompression) : Option (Bytes × LiteralsEncodingState) :=
  let layout := compressedLiteralsLayout src.length literalsState.repeatMode
  if ¬ compressedLiteralsClearMinimumGain src.length compressed.length parserStrategy then none
  else if compressed.length = 1 ∧ (src.length ≥ 8 ∨ allBytesEqual src) then none
  else if compressed.length > layout.maxCompressedSize then none
  else
    let blockType := if choice.reusedTable then 3 else 2
    some (compressedLiteralsHeader blockType layout.sizeFormat src.length compressed.length ++ compressed,
      .withTableAndRepeatMode (some choice.table) (if choice.reusedTable then literalsState.repeatMode else .check)
        literalsState.compressionDisabled)

/-- `encode_compressed_literals_direct`: the bytes of the section and the next state, if it is worth it. -/
def encodeCompressedLiteralsDirect (src : Bytes) (literalsState : LiteralsEncodingState)
    (parserStrategy : ParserStrategy) (compressibility : Compressibility) (scratch : LiteralsScratch) :
    Result (Option (Bytes × LiteralsEncodingState) × LiteralsScratch) :=
  if literalsState.compressionDisabled then .ok (none, scratch)
  else if src.length < minimumLiteralsToCompress parserStrategy literalsState.repeatMode then
    .ok (none, scratch)
  else do
  let huffmanDst := scratch.huffmanDst ++ List.replicate (compressBound src.length - scratch.huffmanDst.length) 0
  let (choice, huffmanDst, workspace) ← compressPreferExistingTableIntoMode huffmanDst src literalsState.huffmanTable
    (compressedLiteralsLayout src.length literalsState.repeatMode).streamMode (huffmanTableDepth parserStrategy)
    compressibility scratch.workspace
  .ok (choice.bind fun choice =>
    acceptCompressedLiterals src (huffmanDst.take choice.written) literalsState parserStrategy choice,
    ⟨huffmanDst, workspace⟩)

/-- The section without Huffman streams. -/
def plainLiterals (src : Bytes) : Bytes :=
  if src.length ≥ 8 ∧ allBytesEqual src ∧
      rawOrRleLiteralsHeaderLen src.length + 1 < rawOrRleLiteralsHeaderLen src.length + src.length then
    rawOrRleLiteralsHeader 1 src.length ++ src.take 1
  else rawOrRleLiteralsHeader 0 src.length ++ src

/-- `encode_literals_section_direct`: the bytes of the section and the next state. -/
def encodeLiteralsSectionDirect (src : Bytes) (literalsState : LiteralsEncodingState) (parserStrategy : ParserStrategy)
    (compressibility : Compressibility) (scratch : LiteralsScratch) :
    Result (Bytes × LiteralsEncodingState × LiteralsScratch) :=
  if literalsState.compressionDisabled then
    .ok (rawOrRleLiteralsHeader 0 src.length ++ src, literalsState, scratch)
  else do
  let (compressed, scratch) ← encodeCompressedLiteralsDirect src literalsState parserStrategy compressibility scratch
  match compressed.filter fun c => c.1.length < rawOrRleLiteralsHeaderLen src.length + src.length with
  | some (bytes, compressedState) => .ok (bytes, compressedState, scratch)
  | none => .ok (plainLiterals src, literalsState, scratch)

/-! ## In step -/

/-- A decoder's table that reads the codes of a table. -/
def Huff0.HuffmanDTable.Decodes (t : HuffmanDTable) (ctable : CTable) : Prop :=
  match t with
  | .single t => t.Decodes ctable
  | .double t => t.Decodes ctable

/-- A table that codes the next block is one its decoder has. -/
def LiteralsEncodingState.InStep (e : LiteralsEncodingState) (d : LiteralsState) : Prop :=
  ∀ table, e.huffmanTable = some table → table.Valid ∧ ∃ t, d.huffmanTable = some t ∧ t.Decodes table.coding

theorem LiteralsEncodingState.inStep_empty (d : LiteralsState) : LiteralsEncodingState.InStep {} d := nofun

/-- Spelled streams are decoded, by either kind of table. -/
theorem Huff0.StreamMode.Spelled.decompress {mode : StreamMode} {table : CTableX1} {t : HuffmanDTable}
    {streams src : Bytes}
    (hspelled : mode.Spelled table.coding streams src) (hvalid : table.Valid) (ht : t.Decodes table.coding) :
    (if mode = .four then decompress4X src.length streams t else decompress1X src.length streams t) = .ok src ∧
      streams ≠ [] ∧ (mode = .four → 10 ≤ streams.length) := by
  obtain ⟨weights, hcodes, hlog⟩ := hvalid
  cases mode with
  | single =>
    have hne : streams ≠ [] := by
      rintro rfl
      obtain ⟨last, hlast, -⟩ := hspelled.marked
      cases hlast
    refine ⟨?_, hne, nofun⟩
    rw [if_neg (by decide)]
    cases t with
    | single t => exact (decompress1X1_iff ht hcodes.fits).2 ⟨rfl, hspelled⟩
    | double t => exact decompress1X2_spelled hcodes.complete hlog ht hcodes.fits hspelled
  | four =>
    have hlen : 10 ≤ streams.length := hspelled.payload_length
    refine ⟨?_, List.ne_nil_of_length_pos (by omega), fun _ => hlen⟩
    rw [if_pos rfl]
    cases t with
    | single t => exact (decompress4X1_iff ht hcodes.fits).2 hspelled
    | double t => exact decompress4X2_spelled hcodes.complete hlog ht hcodes.fits hspelled

/-- The table of a described section, of the kind that its sizes call for. -/
theorem literalsHuffmanTable_decodes {table : CTableX1} {description : Bytes} (h : DescribedBy table description)
    (payload : Bytes) (header : CompressedLiteralsHeader) (d : LiteralsState) :
    ∃ t, literalsHuffmanTable (description ++ payload) 2 header d = .ok (t, description.length) ∧
      t.Decodes table.coding := by
  obtain ⟨stats, hread, hlog, hsize, hcodes⟩ := h payload
  unfold literalsHuffmanTable
  rw [if_pos rfl]
  split
  · obtain ⟨t, ht, hdecodes⟩ := readDtableX2_decodes hread hcodes
    rw [ht, ok_bind, hsize]
    exact ⟨.double t, rfl, hdecodes⟩
  · obtain ⟨t, ht, -, hdecodes⟩ := readDtableX1_decodes hread hcodes
    rw [ht, ok_bind, hsize]
    exact ⟨.single t, rfl, hdecodes⟩

/-- What stands for some literals is split into a table and streams. -/
theorem Huff0.PreferredTableCompression.Sound.table {choice : PreferredTableCompression} {mode : StreamMode}
    {e : LiteralsEncodingState}
    {d : LiteralsState} {src bytes : Bytes} (h : choice.Sound mode e.huffmanTable src bytes) (hstep : e.InStep d)
    (header : CompressedLiteralsHeader) :
    ∃ t size, literalsHuffmanTable bytes (if choice.reusedTable then 3 else 2) header d = .ok (t, size) ∧
      size ≤ bytes.length ∧ t.Decodes choice.table.coding ∧ mode.Spelled choice.table.coding (bytes.drop size) src := by
  cases hreused : choice.reusedTable with
  | true =>
    obtain ⟨hprevious, hspelled⟩ := h.1 hreused
    obtain ⟨-, t, ht, hdecodes⟩ := hstep _ hprevious
    refine ⟨t, 0, ?_, Nat.zero_le _, hdecodes, hspelled⟩
    unfold literalsHuffmanTable
    rw [if_neg (by decide), ht]
  | false =>
    obtain ⟨description, payload, rfl, hdescribed, hspelled⟩ := h.2 hreused
    obtain ⟨t, ht, hdecodes⟩ := literalsHuffmanTable_decodes hdescribed payload header d
    refine ⟨t, description.length, ht, ?_, hdecodes, ?_⟩
    · rw [List.length_append]
      omega
    · rwa [List.drop_left]

/-! ## Reading a section -/

theorem or_shiftLeft {a k : Nat} (h : a < 2 ^ k) (b : Nat) : a ||| b <<< k = a + 2 ^ k * b := by
  rw [Nat.or_comm, ← Nat.shiftLeft_add_eq_or_of_lt h, Nat.shiftLeft_eq]
  ring

/-- The first byte of a section. -/
theorem getByte_writeLe {n : Nat} (hn : n ≠ 0) (value : Nat) (rest : Bytes) :
    ∃ b, getByte (writeLe value n ++ rest) 0 = .ok b ∧ b.toNat = value % 256 := by
  obtain ⟨n, rfl⟩ := Nat.exists_eq_succ_of_ne_zero hn
  exact ⟨_, rfl, by rw [toNat_ofNat_small (Nat.mod_lt _ (by norm_num))]⟩

theorem getRange_writeLe (n value : Nat) (rest : Bytes) :
    getRange (writeLe value n ++ rest) 0 n = .ok (writeLe value n) := by
  have h := getRange_append [] (writeLe value n) rest (writeLe_length n value)
  rwa [List.nil_append, List.length_nil, Nat.zero_add] at h

/-- The layouts there are, by the number of literals. -/
theorem compressedLiteralsLayout_cases (n : Nat) (repeatMode : LiteralsRepeatMode) :
    (n < 1024 ∧ compressedLiteralsLayout n repeatMode = ⟨3, 0, true⟩) ∨
    (256 ≤ n ∧ n < 1024 ∧ compressedLiteralsLayout n repeatMode = ⟨3, 1, false⟩) ∨
    (1024 ≤ n ∧ n < 16 * 1024 ∧ compressedLiteralsLayout n repeatMode = ⟨4, 2, false⟩) ∨
    (16 * 1024 ≤ n ∧ compressedLiteralsLayout n repeatMode = ⟨5, 3, false⟩) := by
  unfold compressedLiteralsLayout
  by_cases h1 : n < 1024
  · rw [if_neg (not_le.2 h1), if_neg (by omega)]
    by_cases hsingle : n < 256 ∨ repeatMode = .valid
    · refine .inl ⟨h1, ?_⟩
      simp only [Nat.add_zero, and_true, hsingle, decide_true, if_true]
    · refine .inr (.inl ⟨by omega, h1, ?_⟩)
      simp only [Nat.add_zero, and_true, hsingle, decide_false, if_true]
      rfl
  · rw [if_pos (not_lt.1 h1)]
    by_cases h2 : n < 16 * 1024
    · rw [if_neg (not_le.2 h2)]
      refine .inr (.inr (.inl ⟨not_lt.1 h1, h2, ?_⟩))
      have : ¬ (n < 256 ∨ repeatMode = .valid ∧ (3 + 1 + 0 : Nat) = 3) := by omega
      simp only [this, decide_false]
      rfl
    · rw [if_pos (not_lt.1 h2)]
      refine .inr (.inr (.inr ⟨not_lt.1 h2, ?_⟩))
      have : ¬ (n < 256 ∨ repeatMode = .valid ∧ (3 + 1 + 1 : Nat) = 3) := by omega
      simp only [this, decide_false]
      rfl

/-- The bytes of a header and the bits of each of its sizes, by its format. -/
def Formats (sizeFormat headerSize bits : Nat) : Prop :=
  (sizeFormat < 2 ∧ headerSize = 3 ∧ bits = 10) ∨ (sizeFormat = 2 ∧ headerSize = 4 ∧ bits = 14) ∨
    (sizeFormat = 3 ∧ headerSize = 5 ∧ bits = 18)

section
variable {blockType sizeFormat headerSize bits regeneratedSize compressedSize : Nat}

theorem compressedLiteralsHeader_eq (htype : blockType < 4) (hformat : Formats sizeFormat headerSize bits)
    (hsize : regeneratedSize < 2 ^ bits) :
    compressedLiteralsHeader blockType sizeFormat regeneratedSize compressedSize =
      writeLe (blockType + 4 * sizeFormat + 16 * regeneratedSize + 2 ^ (4 + bits) * compressedSize) headerSize := by
  have hlow : blockType ||| sizeFormat <<< 2 = blockType + 4 * sizeFormat := or_shiftLeft htype sizeFormat
  have hformat4 : sizeFormat < 4 := by rcases hformat with h | h | h <;> omega
  have hmiddle : blockType + 4 * sizeFormat ||| regeneratedSize <<< 4 =
      blockType + 4 * sizeFormat + 16 * regeneratedSize :=
    or_shiftLeft (by omega) regeneratedSize
  have hhigh : blockType + 4 * sizeFormat + 16 * regeneratedSize ||| compressedSize <<< (4 + bits) =
      blockType + 4 * sizeFormat + 16 * regeneratedSize + 2 ^ (4 + bits) * compressedSize :=
    or_shiftLeft (by rw [pow_add]; omega) compressedSize
  unfold compressedLiteralsHeader
  dsimp only
  rw [hlow, hmiddle, ← hhigh]
  rcases hformat with ⟨hf, rfl, rfl⟩ | ⟨rfl, rfl, rfl⟩ | ⟨rfl, rfl, rfl⟩
  · interval_cases sizeFormat <;> rfl
  · rfl
  · rfl

/-- The reader of a header gets what was put into it. -/
theorem compressedLiteralsHeader_reads (htype : blockType < 4) (hformat : Formats sizeFormat headerSize bits)
    (hsize : regeneratedSize < 2 ^ bits) (hcompressed : compressedSize < 2 ^ bits) (rest : Bytes) :
    (compressedLiteralsHeader blockType sizeFormat regeneratedSize compressedSize).length = headerSize ∧
    (∃ b, getByte (compressedLiteralsHeader blockType sizeFormat regeneratedSize compressedSize ++ rest) 0 = .ok b ∧
      b.toNat % 4 = blockType ∧ b.toNat / 4 % 4 = sizeFormat) ∧
    readCompressedLiteralsHeader
      (compressedLiteralsHeader blockType sizeFormat regeneratedSize compressedSize ++ rest) sizeFormat =
        .ok ⟨headerSize, regeneratedSize, compressedSize, decide (sizeFormat ≠ 0)⟩ := by
  rw [compressedLiteralsHeader_eq htype hformat hsize]
  generalize hvalue : blockType + 4 * sizeFormat + 16 * regeneratedSize + 2 ^ (4 + bits) * compressedSize = value
  have hbits : 256 ^ headerSize = 2 ^ (4 + bits) * 2 ^ bits := by
    rcases hformat with ⟨-, rfl, rfl⟩ | ⟨-, rfl, rfl⟩ | ⟨-, rfl, rfl⟩ <;> norm_num
  have hformat4 : sizeFormat < 4 := by rcases hformat with h | h | h <;> omega
  have hpow : 2 ^ (4 + bits) = 16 * 2 ^ bits := pow_add 2 4 bits
  have hlow : blockType + 4 * sizeFormat + 16 * regeneratedSize < 2 ^ (4 + bits) := by rw [hpow]; omega
  have hlt : value < 256 ^ headerSize := by
    rw [← hvalue, hbits]
    calc _ < 2 ^ (4 + bits) + 2 ^ (4 + bits) * compressedSize := Nat.add_lt_add_right hlow _
      _ = 2 ^ (4 + bits) * (compressedSize + 1) := by ring
      _ ≤ 2 ^ (4 + bits) * 2 ^ bits := Nat.mul_le_mul_left _ hcompressed
  have hhigh : value / 2 ^ (4 + bits) = compressedSize := by
    rw [← hvalue, Nat.add_mul_div_left _ _ (by positivity), Nat.div_eq_of_lt hlow, Nat.zero_add]
  have hmiddle : value / 2 ^ 4 % 2 ^ bits = regeneratedSize := by
    have hsplit : value = blockType + 4 * sizeFormat + 16 * (regeneratedSize + 2 ^ bits * compressedSize) := by
      rw [← hvalue, hpow]
      ring
    have hdiv : value / 2 ^ 4 = regeneratedSize + 2 ^ bits * compressedSize := by omega
    rw [hdiv, Nat.add_mul_mod_self_left, Nat.mod_eq_of_lt hsize]
  have hread := readLe_writeLe headerSize value hlt
  refine ⟨writeLe_length _ _, ?_, ?_⟩
  · obtain ⟨b, hb, hbyte⟩ := getByte_writeLe (show headerSize ≠ 0 by
      rcases hformat with ⟨-, rfl, -⟩ | ⟨-, rfl, -⟩ | ⟨-, rfl, -⟩ <;> decide) value rest
    have hsplit : value = blockType + 4 * sizeFormat + 16 * (regeneratedSize + 2 ^ bits * compressedSize) := by
      rw [← hvalue, hpow]
      ring
    refine ⟨b, hb, ?_, ?_⟩
    · rw [hbyte]
      omega
    · rw [hbyte]
      omega
  · have hrange := getRange_writeLe headerSize value rest
    unfold readCompressedLiteralsHeader
    rcases hformat with ⟨hf, rfl, rfl⟩ | ⟨rfl, rfl, rfl⟩ | ⟨rfl, rfl, rfl⟩
    · interval_cases sizeFormat
      all_goals
        dsimp only
        rw [hrange, ok_bind, hread, hmiddle, ← hhigh]
        rfl
    · dsimp only
      rw [hrange, ok_bind, hread, hmiddle, ← hhigh]
      rfl
    · dsimp only
      rw [hrange, ok_bind, hread, hmiddle, ← hhigh]
      rfl

end

/-! ## Literals as they are -/

/-- The header of a raw or a repeated section. -/
theorem rawOrRleLiteralsHeader_reads {blockType n : Nat} (htype : blockType < 4) (hn : n < 2 ^ 20) (rest : Bytes) :
    ∃ b, getByte (rawOrRleLiteralsHeader blockType n ++ rest) 0 = .ok b ∧ b.toNat % 4 = blockType ∧
      decodeRawOrRleSize (rawOrRleLiteralsHeader blockType n ++ rest) (b.toNat / 4 % 4) =
        .ok ((rawOrRleLiteralsHeader blockType n).length, n) := by
  have hshort : blockType ||| n <<< 3 = blockType + 8 * n := or_shiftLeft (by omega) n
  have hlong : ∀ f < 4, blockType ||| f <<< 2 ||| n <<< 4 = blockType + 4 * f + 16 * n := by
    intro f hf
    have hlow : blockType ||| f <<< 2 = blockType + 4 * f := or_shiftLeft htype f
    rw [hlow]
    exact or_shiftLeft (by omega) n
  by_cases hsmall : n ≤ 31
  · have hheader : rawOrRleLiteralsHeader blockType n = [UInt8.ofNat (blockType ||| n <<< 3)] := by
      unfold rawOrRleLiteralsHeader rawOrRleLiteralsHeaderLen
      rw [if_pos hsmall]
      rfl
    have hbyte : (UInt8.ofNat (blockType ||| n <<< 3)).toNat = blockType + 8 * n := by
      rw [hshort]
      exact toNat_ofNat_small (by omega)
    have hget : getByte ([UInt8.ofNat (blockType ||| n <<< 3)] ++ rest) 0 =
      .ok (UInt8.ofNat (blockType ||| n <<< 3)) := rfl
    rw [hheader]
    refine ⟨_, hget, by omega, ?_⟩
    unfold decodeRawOrRleSize
    split
    · omega
    · omega
    · rw [hget, ok_bind, hbyte]
      congr 2
      omega
  by_cases hmiddle : n ≤ 0x0FFF
  · have hheader : rawOrRleLiteralsHeader blockType n = writeLe (blockType + 4 * 1 + 16 * n) 2 := by
      unfold rawOrRleLiteralsHeader rawOrRleLiteralsHeaderLen
      rw [if_neg hsmall, if_pos hmiddle, hlong 1 (by omega)]
      rfl
    rw [hheader]
    obtain ⟨b, hb, hbyte⟩ := getByte_writeLe (show 2 ≠ 0 by decide) (blockType + 4 * 1 + 16 * n) rest
    refine ⟨b, hb, by omega, ?_⟩
    have hdiv : (blockType + 4 * 1 + 16 * n) / 16 = n := by omega
    rw [show b.toNat / 4 % 4 = 1 by omega]
    unfold decodeRawOrRleSize
    rw [getRange_writeLe, ok_bind, readLe_writeLe _ _ (by norm_num; omega), writeLe_length, hdiv]
    rfl
  · have hheader : rawOrRleLiteralsHeader blockType n = writeLe (blockType + 4 * 3 + 16 * n) 3 := by
      unfold rawOrRleLiteralsHeader rawOrRleLiteralsHeaderLen
      rw [if_neg hsmall, if_neg hmiddle, hlong 3 (by omega)]
      rfl
    rw [hheader]
    obtain ⟨b, hb, hbyte⟩ := getByte_writeLe (show 3 ≠ 0 by decide) (blockType + 4 * 3 + 16 * n) rest
    refine ⟨b, hb, by omega, ?_⟩
    have hdiv : (blockType + 4 * 3 + 16 * n) / 16 = n := by omega
    rw [show b.toNat / 4 % 4 = 3 by omega]
    unfold decodeRawOrRleSize
    rw [getRange_writeLe, ok_bind, readLe_writeLe _ _ (by norm_num; omega), writeLe_length, hdiv]
    rfl

section
variable {src : Bytes} {blockSizeMax : Nat} (hsize : src.length ≤ blockSizeMax) (hmax : blockSizeMax ≤ blocksizeMax)
  (d : LiteralsState) (rest : Bytes)
include hsize hmax

theorem raw_decodes : ∃ literals, decodeLiteralsSectionInto (rawOrRleLiteralsHeader 0 src.length ++ src ++ rest)
    d blockSizeMax =
    .ok ((rawOrRleLiteralsHeader 0 src.length ++ src).length, literals, d) ∧ literals.asSlice = src := by
  unfold blocksizeMax at hmax
  obtain ⟨b, hb, htype, hread⟩ := rawOrRleLiteralsHeader_reads (show 0 < 4 by decide)
    (show src.length < 2 ^ 20 by omega) (src ++ rest)
  generalize rawOrRleLiteralsHeader 0 src.length = header at hb hread ⊢
  have hdrop : (header ++ (src ++ rest)).drop header.length = src ++ rest := List.drop_left
  have hstop : header.length + src.length ≤ (header ++ (src ++ rest)).length := by
    simp only [List.length_append]
    omega
  have hraw : ∃ literals, decodeRawLiteralsInto (header ++ (src ++ rest)) (b.toNat / 4 % 4) blockSizeMax =
      .ok (header.length + src.length, literals) ∧ literals.asSlice = src := by
    unfold decodeRawLiteralsInto
    rw [hread, ok_bind]
    dsimp only
    unfold ensureRegeneratedSize
    rw [if_neg (not_lt.2 hsize), ok_bind, if_neg (not_lt.2 hstop)]
    split
    · refine ⟨_, rfl, ?_⟩
      unfold DecodedLiterals.asSlice
      dsimp only
      rw [hdrop, List.take_take, Nat.min_eq_left (by omega), List.take_left]
    · refine ⟨_, rfl, ?_⟩
      rw [DecodedLiterals.asSlice_ofScratch, hdrop, List.take_left]
  obtain ⟨literals, hraw, hslice⟩ := hraw
  refine ⟨literals, ?_, hslice⟩
  rw [List.append_assoc, List.length_append]
  unfold decodeLiteralsSectionInto
  rw [hb, ok_bind]
  dsimp only
  rw [htype]
  show (decodeRawLiteralsInto _ _ _ >>= _) = _
  rw [hraw]
  rfl

/-- A section without Huffman streams is read back, and leaves the decoder as it is. -/
theorem plainLiterals_decodes : ∃ literals, decodeLiteralsSectionInto (plainLiterals src ++ rest) d blockSizeMax =
    .ok ((plainLiterals src).length, literals, d) ∧ literals.asSlice = src := by
  unfold plainLiterals
  split
  · rename_i hrle
    obtain ⟨hlong, hequal, -⟩ := hrle
    cases src with
    | nil => exact absurd hlong (by decide)
    | cons first others =>
      have hreplicate := allBytesEqual_replicate hequal
      unfold blocksizeMax at hmax
      generalize hn : (first :: others).length = n at *
      obtain ⟨b, hb, htype, hread⟩ := rawOrRleLiteralsHeader_reads (show 1 < 4 by decide) (show n < 2 ^ 20 by omega)
        (first :: rest)
      generalize rawOrRleLiteralsHeader 1 n = header at hb hread ⊢
      have hsplit : header ++ (first :: others).take 1 ++ rest = header ++ first :: rest := by simp
      have hrle : decodeRleLiteralsInto (header ++ first :: rest) (b.toNat / 4 % 4) blockSizeMax =
          .ok (header.length + 1, .ofScratch (List.replicate n first)) := by
        unfold decodeRleLiteralsInto
        rw [hread, ok_bind]
        dsimp only
        unfold ensureRegeneratedSize
        rw [if_neg (not_lt.2 hsize), ok_bind, getByte_append, ok_bind]
      refine ⟨.ofScratch (List.replicate n first), ?_, ?_⟩
      · rw [hsplit, List.length_append]
        unfold decodeLiteralsSectionInto
        rw [hb, ok_bind]
        dsimp only
        rw [htype]
        show (decodeRleLiteralsInto _ _ _ >>= _) = _
        rw [hrle]
        rfl
      · rw [DecodedLiterals.asSlice_ofScratch]
        exact hreplicate.symm
  · exact raw_decodes hsize hmax d rest

end

/-! ## Huffman streams -/

/-- The layout of a section fits its sizes, and tells its streams. -/
theorem compressedLiteralsLayout_formats {n : Nat} (repeatMode : LiteralsRepeatMode) (hn : n ≤ blocksizeMax) :
    ∃ bits, Formats (compressedLiteralsLayout n repeatMode).sizeFormat
      (compressedLiteralsLayout n repeatMode).headerSize bits ∧
      n < 2 ^ bits ∧ (compressedLiteralsLayout n repeatMode).maxCompressedSize < 2 ^ bits ∧
      ((compressedLiteralsLayout n repeatMode).sizeFormat ≠ 0 ↔
        (compressedLiteralsLayout n repeatMode).streamMode = .four) ∧
      ((compressedLiteralsLayout n repeatMode).streamMode = .four → 256 ≤ n) := by
  unfold blocksizeMax at hn
  rcases compressedLiteralsLayout_cases n repeatMode with ⟨h, heq⟩ | ⟨hlow, h, heq⟩ | ⟨hlow, h, heq⟩ | ⟨hlow, heq⟩
  · rw [heq]
    exact ⟨10, .inl ⟨by decide, rfl, rfl⟩, by omega, by decide, by decide, fun hfour => absurd hfour (by decide)⟩
  · rw [heq]
    exact ⟨10, .inl ⟨by decide, rfl, rfl⟩, by omega, by decide, by decide, fun _ => hlow⟩
  · rw [heq]
    exact ⟨14, .inr (.inl ⟨rfl, rfl, rfl⟩), by omega, by decide, by decide, fun _ => by omega⟩
  · rw [heq]
    exact ⟨18, .inr (.inr ⟨rfl, rfl, rfl⟩), by omega, by decide, by decide, fun _ => by omega⟩

/-- A section of Huffman streams is read back, and its table is the one for the next block on either side. -/
theorem acceptCompressedLiterals_decodes {src compressed bytes : Bytes} {e e' : LiteralsEncodingState}
    {d : LiteralsState} {parserStrategy : ParserStrategy} {choice : PreferredTableCompression} {blockSizeMax : Nat}
    (h : acceptCompressedLiterals src compressed e parserStrategy choice = some (bytes, e'))
    (hsound : choice.Sound (compressedLiteralsLayout src.length e.repeatMode).streamMode e.huffmanTable src compressed)
    (hvalid : choice.table.Valid) (hstep : e.InStep d) (hsize : src.length ≤ blockSizeMax)
    (hmax : blockSizeMax ≤ blocksizeMax) (rest : Bytes) :
    ∃ literals d', decodeLiteralsSectionInto (bytes ++ rest) d blockSizeMax = .ok (bytes.length, literals, d') ∧
      literals.asSlice = src ∧ e'.InStep d' := by
  unfold acceptCompressedLiterals at h
  dsimp only at h
  split at h
  · cases h
  split at h
  · cases h
  split at h
  · cases h
  rename_i hsmall
  cases h
  obtain ⟨bits, hformat, hn, hbound, hfour, -⟩ := compressedLiteralsLayout_formats e.repeatMode (hsize.trans hmax)
  generalize compressedLiteralsLayout src.length e.repeatMode = layout at *
  obtain ⟨t, size, htable, hfits, hdecodes, hspelled⟩ := hsound.table hstep
    ⟨layout.headerSize, src.length, compressed.length, decide (layout.sizeFormat ≠ 0)⟩
  obtain ⟨hdecompress, hne, hten⟩ := hspelled.decompress hvalid hdecodes
  have hlen : (compressed.drop size).length = compressed.length - size := List.length_drop
  have hpos := List.length_pos_iff.2 hne
  have htype : (if choice.reusedTable = true then 3 else 2) < 4 := by split <;> decide
  obtain ⟨hheader, ⟨b, hb, hbtype, hbformat⟩, hread⟩ := compressedLiteralsHeader_reads htype hformat hn
    (show compressed.length < 2 ^ bits by omega) (compressed ++ rest)
  generalize compressedLiteralsHeader (if choice.reusedTable = true then 3 else 2) layout.sizeFormat src.length
    compressed.length = header at *
  have hpayload : getRange (header ++ (compressed ++ rest)) layout.headerSize (layout.headerSize + compressed.length) =
      .ok compressed := by
    rw [← hheader]
    exact getRange_append header compressed rest rfl
  have hhuffman : decodeHuffmanLiteralsInto (header ++ (compressed ++ rest))
    (if choice.reusedTable = true then 3 else 2)
      layout.sizeFormat d blockSizeMax =
        .ok (layout.headerSize + compressed.length, .ofScratch src, { huffmanTable := some t }) := by
    unfold decodeHuffmanLiteralsInto decodeCompressedLiteralsHeader
    rw [hread, ok_bind]
    dsimp only
    rw [if_neg (by omega), if_neg (by
      rintro ⟨hstreams, hshort⟩
      have := hten (hfour.1 (of_decide_eq_true hstreams))
      omega), ok_bind]
    dsimp only
    unfold ensureRegeneratedSize getFrom
    rw [if_neg (not_lt.2 hsize), ok_bind, hpayload, ok_bind, htable, ok_bind]
    dsimp only
    rw [if_pos hfits, ok_bind, if_neg (by rwa [List.isEmpty_iff])]
    split
    · rename_i hstreams
      rw [if_pos (hfour.1 (of_decide_eq_true hstreams))] at hdecompress
      rw [hdecompress]
      rfl
    · rename_i hstreams
      rw [if_neg fun hmode => hstreams (decide_eq_true (hfour.2 hmode))] at hdecompress
      rw [hdecompress]
      rfl
  refine ⟨.ofScratch src, { huffmanTable := some t }, ?_, DecodedLiterals.asSlice_ofScratch src, ?_⟩
  · rw [List.append_assoc, List.length_append, hheader]
    unfold decodeLiteralsSectionInto
    rw [hb, ok_bind]
    dsimp only
    rw [hbtype, hbformat]
    cases hreused : choice.reusedTable with
    | true =>
      rw [hreused] at hhuffman
      exact hhuffman
    | false =>
      rw [hreused] at hhuffman
      exact hhuffman
  · rintro table htableEq
    cases htableEq
    exact ⟨hvalid, t, rfl, hdecodes⟩

/-! ## Any section -/

theorem rawOrRleLiteralsHeader_length (blockType n : Nat) :
    (rawOrRleLiteralsHeader blockType n).length = rawOrRleLiteralsHeaderLen n := by
  unfold rawOrRleLiteralsHeader
  split
  · rename_i hone
    exact hone.symm
  split
  · rename_i htwo
    rw [htwo]
    exact writeLe_length _ _
  · rename_i hone htwo
    rw [writeLe_length]
    unfold rawOrRleLiteralsHeaderLen at hone htwo ⊢
    rw [if_neg fun h => hone (if_pos h)] at htwo ⊢
    rw [if_neg fun h => htwo (if_pos h)]

/-- No streams are kept at such a length whose description a refused try can have spoilt. -/
def KeepsDescriptions (parserStrategy : ParserStrategy) (n : Nat) : Prop :=
  parserStrategy ≠ .binaryTreeUltra2 ∨ n < 256 ∨ 512 ≤ n

/-- Four streams that clear the minimum gain save more than a refused try can cost. -/
theorem clearMinimumGain_four {parserStrategy : ParserStrategy} {n compressedSize : Nat} (hn : 256 ≤ n)
    (hkeeps : KeepsDescriptions parserStrategy n)
    (h : compressedLiteralsClearMinimumGain n compressedSize parserStrategy = true) : compressedSize + 4 < n := by
  unfold compressedLiteralsClearMinimumGain minimumCompressedBlockGain at h
  rw [decide_eq_true_eq] at h
  have h6 : n >>> 6 = n / 64 := Nat.shiftRight_eq_div_pow n 6
  have h7 : n >>> 7 = n / 128 := Nat.shiftRight_eq_div_pow n 7
  have h8 : n >>> 8 = n / 256 := Nat.shiftRight_eq_div_pow n 8
  by_cases hlast : parserStrategy = .binaryTreeUltra2
  · subst hlast
    have hlong : 512 ≤ n := by
      rcases hkeeps with hne | hshort | hlong
      · exact absurd rfl hne
      · omega
      · exact hlong
    have h : compressedSize < n - (n >>> 8 + 2) := h
    omega
  · by_cases hultra : parserStrategy = .binaryTreeUltra
    · subst hultra
      have h : compressedSize < n - (n >>> 7 + 2) := h
      omega
    · have hrank : ¬ parserStrategy.zstdRank ≥ ParserStrategy.binaryTreeUltra.zstdRank := by
        cases parserStrategy <;> first | decide | exact absurd rfl hultra | exact absurd rfl hlast
      dsimp only at h
      rw [if_neg hrank] at h
      omega

/-- The bytes of a section: a decoder in step reads the literals from them, and the two sides are in step behind it. -/
def SectionOf (src bytes : Bytes) (e' : LiteralsEncodingState) (d : LiteralsState) (blockSizeMax : Nat) : Prop :=
  ∀ rest, ∃ literals d', decodeLiteralsSectionInto (bytes ++ rest) d blockSizeMax = .ok (bytes.length, literals, d') ∧
    literals.asSlice = src ∧ e'.InStep d'

section
variable {src : Bytes} {e e' : LiteralsEncodingState} {d : LiteralsState} {parserStrategy : ParserStrategy}
  {compressibility : Compressibility} {scratch scratch' : LiteralsScratch} {blockSizeMax : Nat}
  (hstep : e.InStep d) (hscratch : scratch.workspace.Sized) (hsize : src.length ≤ blockSizeMax)
  (hmax : blockSizeMax ≤ blocksizeMax) (hkeeps : KeepsDescriptions parserStrategy src.length)
include hstep hscratch hsize hmax hkeeps

/-- What the Huffman coder finds worth it is read back. -/
theorem encodeCompressedLiteralsDirect_decodes {result : Option (Bytes × LiteralsEncodingState)}
    (h : encodeCompressedLiteralsDirect src e parserStrategy compressibility scratch = .ok (result, scratch')) :
    scratch'.workspace.Sized ∧ ∀ c, result = some c → SectionOf src c.1 c.2 d blockSizeMax := by
  unfold encodeCompressedLiteralsDirect at h
  split at h
  · cases h
    exact ⟨hscratch, nofun⟩
  split at h
  · cases h
    exact ⟨hscratch, nofun⟩
  obtain ⟨⟨choice, huffmanDst, workspace⟩, hchoice, h⟩ := bind_ok h
  cases h
  have hroom : compressBound src.length ≤
      (scratch.huffmanDst ++ List.replicate (compressBound src.length - scratch.huffmanDst.length) 0).length := by
    rw [List.length_append, List.length_replicate]
    omega
  obtain ⟨hsized, hgood⟩ := compressPreferExistingTableIntoMode_ok (fun t ht => (hstep t ht).1) hroom hscratch hchoice
  refine ⟨hsized, ?_⟩
  rintro ⟨bytes, e'⟩ hc rest
  obtain ⟨choice, rfl, haccept⟩ := Option.bind_eq_some_iff.1 hc
  obtain ⟨hvalid, hle, -, hsound⟩ := hgood choice rfl
  have hlen : (huffmanDst.take choice.written).length = choice.written := by
    rw [List.length_take]
    omega
  refine acceptCompressedLiterals_decodes haccept (hsound.resolve_right ?_) hvalid hstep hsize hmax rest
  rintro ⟨-, -, hfour, hclose⟩
  obtain ⟨-, -, -, -, -, hlow⟩ := compressedLiteralsLayout_formats e.repeatMode (hsize.trans hmax)
  unfold acceptCompressedLiterals at haccept
  dsimp only at haccept
  rw [hlen] at haccept
  split at haccept
  · cases haccept
  · rename_i hclear
    have := clearMinimumGain_four (hlow hfour) hkeeps (not_not.1 hclear)
    omega

/-- A section is read back by any decoder in step with its encoder, keeps them in step, and is no longer than the
literals with a header. -/
theorem encodeLiteralsSectionDirect_decodes {bytes : Bytes}
    (h : encodeLiteralsSectionDirect src e parserStrategy compressibility scratch = .ok (bytes, e', scratch')) :
    scratch'.workspace.Sized ∧ SectionOf src bytes e' d blockSizeMax ∧
      bytes.length ≤ rawOrRleLiteralsHeaderLen src.length + src.length := by
  unfold encodeLiteralsSectionDirect at h
  split at h
  · cases h
    refine ⟨hscratch, fun rest => ?_, by rw [List.length_append, rawOrRleLiteralsHeader_length]⟩
    obtain ⟨literals, hdecode, hslice⟩ := raw_decodes hsize hmax d rest
    exact ⟨literals, d, hdecode, hslice, hstep⟩
  obtain ⟨⟨compressed, scratch1⟩, hcompressed, h⟩ := bind_ok h
  obtain ⟨hsized, hgood⟩ := encodeCompressedLiteralsDirect_decodes hstep hscratch hsize hmax hkeeps hcompressed
  dsimp only at h
  split at h
  · rename_i hfilter
    cases h
    obtain ⟨hsome, hshort⟩ := Option.filter_eq_some_iff.1 hfilter
    exact ⟨hsized, hgood _ hsome, (of_decide_eq_true hshort).le⟩
  · cases h
    refine ⟨hsized, fun rest => ?_, ?_⟩
    · obtain ⟨literals, hdecode, hslice⟩ := plainLiterals_decodes hsize hmax d rest
      exact ⟨literals, d, hdecode, hslice, hstep⟩
    · unfold plainLiterals
      split
      · rename_i hrle
        rw [List.length_append, List.length_take, rawOrRleLiteralsHeader_length]
        omega
      · rw [List.length_append, rawOrRleLiteralsHeader_length]

end

end Zstandard
