/-
The literals section of a compressed block: its headers and the raw, RLE and Huffman payloads, with
the Huffman table that a treeless section takes over from an earlier block.

Decoded literals carry sixteen readable bytes past their end, because the sequence executor copies
in units of sixteen. A zero-copy raw section has the rest of the block there; the scratch buffer has
whatever it held, which the model takes to be zeros: no byte of it ever reaches the output
(`decodeAndExecuteSequences_agrees`).
-/
import Zstandard.Entropy.Huff0
import Zstandard.Wire.Block

namespace Zstandard

open Huff0

/-- `LiteralsState`: the table a treeless section uses. -/
structure LiteralsState where
  huffmanTable : Option HuffmanDTable := none
deriving DecidableEq, Repr

/-- The bytes behind the literals that a copy may read. -/
def literalOverreadHeadroom : Nat := 16

/-- Decoded literals, followed by the headroom the executor over-reads. -/
structure DecodedLiterals where
  padded : Bytes
  len : Nat
  headroom : len + literalOverreadHeadroom ≤ padded.length

namespace DecodedLiterals

/-- The literal bytes alone. -/
def asSlice (l : DecodedLiterals) : Bytes := l.padded.take l.len

/-- Literals in the scratch buffer, with fresh headroom. -/
def ofScratch (bytes : Bytes) : DecodedLiterals :=
  { padded := bytes ++ List.replicate literalOverreadHeadroom 0, len := bytes.length, headroom := by simp }

@[simp] theorem asSlice_length (l : DecodedLiterals) : l.asSlice.length = l.len := by
  have := l.headroom; simp [asSlice]; omega

@[simp] theorem asSlice_ofScratch (bytes : Bytes) : (ofScratch bytes).asSlice = bytes := by
  simp [asSlice, ofScratch]

end DecodedLiterals

/-- The header of compressed literals. -/
structure CompressedLiteralsHeader where
  headerSize : Nat
  regeneratedSize : Nat
  compressedSize : Nat
  fourStreams : Bool
deriving DecidableEq, Repr

/-- The header of a raw or RLE section: its size and the number of literals. -/
def decodeRawOrRleSize (src : Bytes) (sizeFormat : Nat) : Result (Nat × Nat) :=
  match sizeFormat with
  | 1 => do let header ← getRange src 0 2; .ok (2, readLe header / 16)
  | 3 => do let header ← getRange src 0 3; .ok (3, readLe header / 16)
  | _ => do let header0 ← getByte src 0; .ok (1, header0.toNat / 8)

/-- The fields of a Huffman section header, before its checks. -/
def readCompressedLiteralsHeader (src : Bytes) (sizeFormat : Nat) : Result CompressedLiteralsHeader :=
  match sizeFormat with
  | 2 => do
    let value := readLe (← getRange src 0 4)
    .ok { headerSize := 4, regeneratedSize := value / 2 ^ 4 % 2 ^ 14, compressedSize := value / 2 ^ 18
          fourStreams := true }
  | 3 => do
    let value := readLe (← getRange src 0 5)
    .ok { headerSize := 5, regeneratedSize := value / 2 ^ 4 % 2 ^ 18, compressedSize := value / 2 ^ 22
          fourStreams := true }
  | _ => do
    let value := readLe (← getRange src 0 3)
    .ok { headerSize := 3, regeneratedSize := value / 2 ^ 4 % 2 ^ 10, compressedSize := value / 2 ^ 14
          fourStreams := sizeFormat = 1 }

/-- The header, whose sizes have to be there. -/
def decodeCompressedLiteralsHeader (src : Bytes) (sizeFormat : Nat) : Result CompressedLiteralsHeader := do
  let header ← readCompressedLiteralsHeader src sizeFormat
  if header.compressedSize = 0 then
    .error (.corruption "compressed literals section has an empty payload")
  else if header.fourStreams ∧ header.compressedSize < 10 then
    .error (.corruption "4-stream literals section is smaller than the jump-table minimum")
  else .ok header

/-- Literals fit a block. -/
def ensureRegeneratedSize (regeneratedSize blockSizeMax : Nat) : Result Unit :=
  if regeneratedSize > blockSizeMax then
    .error (.corruption "literals section exceeds the frame block size limit")
  else .ok ()

theorem headroom_left {src : Bytes} {headerSize regeneratedSize : Nat}
    (h : headerSize + regeneratedSize + literalOverreadHeadroom ≤ src.length) :
    regeneratedSize + literalOverreadHeadroom ≤
      ((src.drop headerSize).take (regeneratedSize + literalOverreadHeadroom)).length := by
  rw [List.length_take, List.length_drop]
  omega

/-- Plain literals. -/
def decodeRawLiteralsInto (src : Bytes) (sizeFormat blockSizeMax : Nat) : Result (Nat × DecodedLiterals) := do
  let (headerSize, regeneratedSize) ← decodeRawOrRleSize src sizeFormat
  ensureRegeneratedSize regeneratedSize blockSizeMax
  let stop := headerSize + regeneratedSize
  if stop > src.length then .error .unexpectedEof else
  if h : stop + literalOverreadHeadroom ≤ src.length then
    -- zero copy: the headroom is the rest of the block
    .ok (stop, {
      padded := (src.drop headerSize).take (regeneratedSize + literalOverreadHeadroom), len := regeneratedSize
      headroom := headroom_left h })
  else .ok (stop, .ofScratch ((src.drop headerSize).take regeneratedSize))

/-- One repeated literal. -/
def decodeRleLiteralsInto (src : Bytes) (sizeFormat blockSizeMax : Nat) : Result (Nat × DecodedLiterals) := do
  let (headerSize, regeneratedSize) ← decodeRawOrRleSize src sizeFormat
  ensureRegeneratedSize regeneratedSize blockSizeMax
  let byte ← getByte src headerSize
  .ok (headerSize + 1, .ofScratch (List.replicate regeneratedSize byte))

/-- The Huffman table of a section and the size of its description: a section of type 2 brings its
own, a treeless one takes over the table of an earlier block. -/
def literalsHuffmanTable (payload : Bytes) (blockType : Nat) (header : CompressedLiteralsHeader)
    (state : LiteralsState) : Result (HuffmanDTable × Nat) :=
  if blockType = 2 then
    if header.fourStreams && prefersDoubleSymbolDecoder header.regeneratedSize payload.length then do
      let (t, size) ← readDtableX2 payload
      .ok (.double t, size)
    else do
      let (t, size) ← readDtableX1 payload
      .ok (.single t, size)
  else
    match state.huffmanTable with
    | some t => .ok (t, 0)
    | none => .error (.corruption "treeless literals require a prior Huff0 table")

/-- Huffman streams, with a table of their own or the previous one. -/
def decodeHuffmanLiteralsInto (src : Bytes) (blockType sizeFormat : Nat) (state : LiteralsState)
    (blockSizeMax : Nat) : Result (Nat × DecodedLiterals × LiteralsState) := do
  let header ← decodeCompressedLiteralsHeader src sizeFormat
  ensureRegeneratedSize header.regeneratedSize blockSizeMax
  let payloadEnd := header.headerSize + header.compressedSize
  let payload ← getRange src header.headerSize payloadEnd
  let (dtable, tableSize) ← literalsHuffmanTable payload blockType header state
  let streams ← getFrom payload tableSize
  if streams.isEmpty then .error (.corruption "compressed literals payload is missing Huff0 streams") else
  let literals ←
    if header.fourStreams then decompress4X header.regeneratedSize streams dtable
    else decompress1X header.regeneratedSize streams dtable
  .ok (payloadEnd, .ofScratch literals, { huffmanTable := some dtable })

/-- Decode a literals section: the bytes it takes, the literals, and the state for the next block. -/
def decodeLiteralsSectionInto (src : Bytes) (state : LiteralsState) (blockSizeMax : Nat) :
    Result (Nat × DecodedLiterals × LiteralsState) := do
  let header0 := (← getByte src 0).toNat
  let blockType := header0 % 4
  let sizeFormat := header0 / 4 % 4
  match blockType with
  | 0 => do
    let (size, literals) ← decodeRawLiteralsInto src sizeFormat blockSizeMax
    .ok (size, literals, state)
  | 1 => do
    let (size, literals) ← decodeRleLiteralsInto src sizeFormat blockSizeMax
    .ok (size, literals, state)
  | _ => decodeHuffmanLiteralsInto src blockType sizeFormat state blockSizeMax

end Zstandard
