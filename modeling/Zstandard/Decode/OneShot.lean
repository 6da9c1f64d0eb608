/-
The one-shot decoder: `decode_into_with_scratch` over any destination, and on it `decode_all` and
`decode_into_slice`.

The loops over blocks and frames recurse on fuel. A block takes at least its header and a frame at
least one byte, so the length of the input is fuel enough: where it runs out the input has as well.
-/
import Zstandard.Decode.Block
import Zstandard.Wire.Frame
import Zstandard.Wire.Xxhash

namespace Zstandard

open Bounded

/-! ## Options -/

/-- `DecoderOptions`. -/
structure DecoderOptions where
  maxWindowSize : Option Nat
  maxOutputSize : Option Nat
  verifyChecksum : Bool
  singleFrame : Bool
  format : Format
deriving DecidableEq, Repr

/-- `DEFAULT_MAX_WINDOW_SIZE`. -/
def defaultMaxWindowSize : Nat := 2 ^ 27

/-- `Default for DecoderOptions`. -/
def DecoderOptions.initial : DecoderOptions :=
  { maxWindowSize := some defaultMaxWindowSize, maxOutputSize := none, verifyChecksum := true, singleFrame := false
    format := .zstd1 }

/-! ## The cursor -/

/-- `Cursor`: the input, and how far it has been read. -/
structure Cursor where
  src : Bytes
  pos : Nat
deriving DecidableEq, Repr

namespace Cursor

def new (src : Bytes) : Cursor := { src, pos := 0 }

def isEmpty (c : Cursor) : Bool := c.pos = c.src.length

def remainingSlice (c : Cursor) : Bytes := c.src.drop c.pos

/-- The next `len` bytes. -/
def readExact (c : Cursor) (len : Nat) : Result (Bytes × Cursor) := do
  let bytes ← getRange c.src c.pos (c.pos + len)
  .ok (bytes, { c with pos := c.pos + len })

/-- The next byte. -/
def readU8 (c : Cursor) : Result (UInt8 × Cursor) := do
  let byte ← getByte c.src c.pos
  .ok (byte, { c with pos := c.pos + 1 })

/-- The next four bytes, little-endian. -/
def readU32Le (c : Cursor) : Result (Nat × Cursor) := do
  let (bytes, c) ← c.readExact 4
  .ok (Zstandard.readU32Le bytes, c)

end Cursor

/-! ## One frame -/

/-- `ensure_total_size_limit`. -/
def ensureTotalSizeLimit (currentOutputSize contentSize : Nat) (maxOutputSize : Option Nat) : Result Unit :=
  match maxOutputSize with
  | none => .ok ()
  | some limit => do
    let total ← checkedAdd currentOutputSize contentSize .outputSizeOverflow
    if total > limit then .error (.outputSizeTooLarge total limit) else .ok ()

/-- The dictionary a frame is decoded with: the caller's, unless the frame asks for another. -/
def checkDictionary (dictionary : Option DecoderDictionary) (header : ZstandardFrameHeader) : Result Unit :=
  match dictionary, header.dictionaryId with
  | none, some id => .error (.dictionaryRequired (some id))
  | some d, some id => if d.id ≠ id then .error (.dictionaryMismatch id d.id) else .ok ()
  | _, none => .ok ()

/-- The window a caller allows. -/
def checkWindowSize (options : DecoderOptions) (header : ZstandardFrameHeader) : Result Unit :=
  match options.maxWindowSize with
  | some max => if header.windowSize > max then .error (.windowSizeTooLarge header.windowSize max) else .ok ()
  | none => .ok ()

/-- The content-size check at the head of a frame. -/
def checkContentSize (options : DecoderOptions) (header : ZstandardFrameHeader) (outLen : Nat) : Result Unit :=
  match header.contentSize with
  | some size => ensureTotalSizeLimit outLen size options.maxOutputSize
  | none => .ok ()

/-- The checks a frame passes before its first block is read. -/
def admitFrame (dictionary : Option DecoderDictionary) (options : DecoderOptions) (header : ZstandardFrameHeader)
    (outLen : Nat) : Result Unit := do
  checkDictionary dictionary header
  checkWindowSize options header
  checkContentSize options header outLen

/-- The content-size check at the end of a frame. -/
def checkProduced (header : ZstandardFrameHeader) (produced : Nat) : Result Unit :=
  match header.contentSize with
  | some expected => if produced ≠ expected then .error (.contentSizeMismatch expected produced) else .ok ()
  | none => .ok ()

/-- The two checksums have to agree. -/
def checkChecksum (expected actual : Nat) : Result Unit :=
  if actual ≠ expected then .error (.checksumMismatch expected actual) else .ok ()

/-- The checksum of a frame, as it is stored: the low half of its XXH64. -/
def frameChecksum (bytes : Bytes) : Nat := (xxh64 bytes 0).toNat % 2 ^ 32

section Definitions

variable {σ : Type} (o : Output σ)

/-- One block of the loop of `decode_zstandard_frame`, behind its header. -/
def decodeFrameBlock (cursor : Cursor) (header : BlockHeader) (p : FrameParams) (st : EntropyState) (out : σ)
    (limit : OutputLimit) : Result (Cursor × σ × EntropyState) :=
  match header.blockType with
  | .raw =>
    if header.blockSize > p.blockSizeMax then .error blockSizeExceeded else do
    let (data, cursor) ← cursor.readExact header.payloadSize
    .ok (cursor, ← appendBytes o out data limit, st)
  | .rle =>
    if header.blockSize > p.blockSizeMax then .error blockSizeExceeded else do
    let (byte, cursor) ← cursor.readU8
    .ok (cursor, ← appendRepeated o out byte header.blockSize limit, st)
  | .compressed => do
    let (data, cursor) ← cursor.readExact header.payloadSize
    .ok (cursor, ← decodeCompressedBlockInto o data p st out limit)

/-- The loop of `decode_zstandard_frame`. -/
def decodeBlocks (p : FrameParams) (limit : OutputLimit) : Nat → Cursor → EntropyState → σ → Result (Cursor × σ)
  | 0, _, _, _ => .error .unexpectedEof
  | fuel + 1, cursor, st, out => do
    let (headerBytes, cursor) ← cursor.readExact blockHeaderSize
    let header ← BlockHeader.parse headerBytes
    let (cursor, out, st) ← decodeFrameBlock o cursor header p st out limit
    if header.lastBlock then .ok (cursor, out) else decodeBlocks p limit fuel cursor st out

/-- The trailer of `decode_zstandard_frame`. -/
def readFrameChecksum (options : DecoderOptions) (header : ZstandardFrameHeader) (cursor : Cursor) (frame : Bytes) :
    Result Cursor :=
  if header.checksum then do
    let (expected, cursor) ← cursor.readU32Le
    if options.verifyChecksum then checkChecksum expected (frameChecksum frame)
    .ok cursor
  else .ok cursor

/-- `decode_zstandard_frame`: the header once more, the blocks and the checksum. -/
def decodeZstandardFrame (options : DecoderOptions) (dictionary : Option DecoderDictionary) (cursor : Cursor)
    (header : ZstandardFrameHeader) (out : σ) : Result (Cursor × σ) := do
  let (_, cursor) ← cursor.readExact header.headerSize
  let frameStart := o.len out
  admitFrame dictionary options header frameStart
  let p : FrameParams := { blockSizeMax := header.blockSizeMax, frameStart, windowSize := header.windowSize
                           dictionary := dictionary.map (·.content) }
  let (cursor, out) ← decodeBlocks o p (.wholeOutput options.maxOutputSize) cursor.src.length cursor
    (.initial dictionary) out
  let cursor ← readFrameChecksum options header cursor ((o.asSlice out).drop frameStart)
  checkProduced header (o.len out - frameStart)
  .ok (cursor, out)

/-! ## Every frame -/

/-- A skippable frame, header and content. -/
def skipSkippableFrame (cursor : Cursor) (frame : SkippableFrame) : Result Cursor := do
  let (_, cursor) ← cursor.readExact (frame.headerSize + frame.size)
  .ok cursor

/-- The loop of `decode_into_with_scratch`. -/
def decodeFrames (options : DecoderOptions) (dictionary : Option DecoderDictionary) : Nat → Cursor → σ → Result σ
  | 0, cursor, out => if cursor.isEmpty then .ok out else .error .generic
  | fuel + 1, cursor, out =>
    if cursor.isEmpty then .ok out else do
    match ← parseFrameHeaderWithFormat options.format cursor.remainingSlice with
    | .skippable frame =>
      if options.singleFrame then .error (.trailingInput cursor.pos) else
      let cursor ← skipSkippableFrame cursor frame
      decodeFrames options dictionary fuel cursor out
    | .zstandard header =>
      let (cursor, out) ← decodeZstandardFrame o options dictionary cursor header out
      if options.singleFrame ∧ ¬ cursor.isEmpty then .error (.trailingInput cursor.pos) else
      decodeFrames options dictionary fuel cursor out

/-- `decode_into_with_scratch`, on a cleared destination. -/
def decodeInto (options : DecoderOptions) (dictionary : Option DecoderDictionary) (src : Bytes) (out : σ) : Result σ :=
  if src.isEmpty then .error .unexpectedEof else decodeFrames o options dictionary src.length (.new src) out

end Definitions

/-- `decode_all`, and with a dictionary its `_with_dict` twin. -/
def decodeAll (alloc : Allocator) (options : DecoderOptions) (dictionary : Option DecoderDictionary) (src : Bytes) :
    Result Bytes := do
  let out ← decodeInto (decodeOutput alloc) options dictionary src (.growable [])
  .ok out.asSlice

/-- `decode_into_slice`: how much of the destination was filled, and the destination. -/
def decodeIntoSlice (alloc : Allocator) (options : DecoderOptions) (dictionary : Option DecoderDictionary)
    (src dst : Bytes) : Result (Nat × Bytes) := do
  let out ← decodeInto (decodeOutput alloc) options dictionary src (.fixedOf dst)
  .ok (out.len, out.asSlice)

end Zstandard
