/-
Which errors speak of the size of the output. Only the checks of the output cap raise them: reading headers, building
tables, decoding literals and reading sequences end in other errors, whatever the input. One lemma for each function
of the decoder below the cap, tagged so that the lemmas of its callers find it.
-/
import Zstandard.Decode.OneShot
import Zstandard.Library.Capped

namespace Zstandard

open Simulation Fse Huff0

/-- The errors that reject an input for the size of its output. -/
def Error.RefusesSize : Error → Prop
  | .outputSizeTooLarge _ _ => True
  | .outputSizeOverflow => True
  | _ => False

instance : DecidablePred Error.RefusesSize
  | .outputSizeTooLarge _ _ | .outputSizeOverflow => isTrue trivial
  | .generic | .invalidParameter _ | .dstSizeTooSmall | .srcSizeWrong | .unexpectedEof | .badMagic _ | .corruption _
  | .tableLogTooLarge | .maxSymbolValueTooLarge | .maxSymbolValueTooSmall | .workSpaceTooSmall
  | .windowSizeTooLarge _ _ | .dictionaryRequired _ | .dictionaryMismatch _ _ | .contentSizeTooLarge _
  | .contentSizeMismatch _ _ | .trailingInput _ | .checksumMismatch _ _ => isFalse id

/-- An error that does not speak of the size of the output. -/
abbrev SizePlain {α : Type} (x : Result α) : Prop := Plain Error.RefusesSize x

@[grind ←] theorem error_sizePlain {α : Type} {e : Error} (h : ¬ e.RefusesSize) : SizePlain (.error e : Result α) :=
  .of_error h

@[grind =] theorem corruption_refusesSize (message : String) : (Error.corruption message).RefusesSize ↔ False := Iff.rfl

attribute [grind] Error.RefusesSize

/-! ## Slices -/

section Slices

variable (src : Bytes) (pos stop : Nat)

@[grind ←] theorem getByte_sizePlain : SizePlain (getByte src pos) := by
  unfold getByte
  grind

@[grind ←] theorem getRange_sizePlain : SizePlain (getRange src pos stop) := by
  unfold getRange
  grind

@[grind ←] theorem getFrom_sizePlain : SizePlain (getFrom src pos) := by
  unfold getFrom
  grind

@[grind ←] theorem Cursor.readExact_sizePlain (c : Cursor) (len : Nat) : SizePlain (c.readExact len) := by
  unfold Cursor.readExact
  grind

@[grind ←] theorem Cursor.readU8_sizePlain (c : Cursor) : SizePlain c.readU8 := by
  unfold Cursor.readU8
  grind

@[grind ←] theorem Cursor.readU32Le_sizePlain (c : Cursor) : SizePlain c.readU32Le := by
  unfold Cursor.readU32Le
  grind

end Slices

/-! ## Tables -/

section Tables

variable (src : Bytes) (normalizedCounter : List Int) (maxSymbolValue tableLog : Nat)

@[grind ←] theorem readZeroRun_sizePlain (maxSymbolIndex : Nat) (r : NcountReader) :
    SizePlain (readZeroRun src maxSymbolIndex r) := by
  unfold readZeroRun
  grind

@[grind ←] theorem readCounts_sizePlain (maxSymbolIndex : Nat) : ∀ (fuel : Nat) (r : NcountReader),
    SizePlain (readCounts src maxSymbolIndex fuel r)
  | 0, r => .of_ok r
  | fuel + 1, r => by
    have ih := readCounts_sizePlain maxSymbolIndex fuel
    unfold readCounts
    grind

@[grind ←] theorem readNcountPadded_sizePlain (counterLen maxSymbolIndex maxTableLog : Nat) :
    SizePlain (readNcountPadded src counterLen maxSymbolIndex maxTableLog) := by
  unfold readNcountPadded
  grind

@[grind ←] theorem readNcount_sizePlain (counterLen maxTableLog : Nat) :
    SizePlain (readNcount src counterLen maxSymbolValue maxTableLog) := by
  unfold readNcount
  grind

@[grind ←] theorem buildEntries_sizePlain : SizePlain (buildEntries normalizedCounter maxSymbolValue tableLog) := by
  unfold buildEntries checkTableArguments spreadSymbols
  grind

@[grind ←] theorem buildDtable_sizePlain : SizePlain (buildDtable normalizedCounter maxSymbolValue tableLog) := by
  unfold buildDtable
  grind

@[grind ←] theorem SequencePart.buildSequenceDtable_sizePlain (part : SequencePart) :
    SizePlain (part.buildSequenceDtable normalizedCounter maxSymbolValue tableLog) := by
  unfold SequencePart.buildSequenceDtable buildSequenceDtableDirect buildOffsetSequenceDtableDirect
  grind

@[grind ←] theorem TableTarget.slot_sizePlain (target : TableTarget) {table : Result DTable} (h : SizePlain table) :
    SizePlain (target.slot table) := by
  unfold TableTarget.slot
  grind

@[grind ←] theorem decodeSeqTableBoth_sizePlain (part : SequencePart) (mode : CompressionMode) (target : TableTarget)
    (slot : SequenceTableSlot) : SizePlain (decodeSeqTableBoth part mode target src slot) := by
  unfold decodeSeqTableBoth
  grind

@[grind ←] theorem setupTables_sizePlain (tables : SequenceTablesState) : SizePlain (setupTables tables) := by
  unfold setupTables setupSlot SequencePart.missingTable
  grind

end Tables

/-! ## Huffman literals -/

section Literals

variable (src : Bytes)

@[grind ←] theorem BitDStream.new_sizePlain : SizePlain (BitDStream.new src) := by
  unfold BitDStream.new
  grind

@[grind ←] theorem decodeTail_sizePlain (dt : DTable) (fast : Bool) (dstLen : Nat) :
    ∀ (fuel : Nat) (out : List Nat) (state other : Nat) (bitD : BitDStream),
      SizePlain (decodeTail dt fast dstLen fuel out state other bitD)
  | 0, _, _, _, _ => .of_error id
  | fuel + 1, _, _, _, _ => by
    have ih := decodeTail_sizePlain dt fast dstLen fuel
    unfold decodeTail
    grind

@[grind ←] theorem Fse.decompress_sizePlain (dstLen maxSymbolValue maxTableLog : Nat) :
    SizePlain (Fse.decompress dstLen src maxSymbolValue maxTableLog) := by
  unfold Fse.decompress Fse.decompressInterleaved2
  grind

@[grind ←] theorem readStats_sizePlain : SizePlain (readStats src) := by
  unfold readStats readWeights
  grind

@[grind ←] theorem readDtableX1_sizePlain : SizePlain (readDtableX1 src) := by
  unfold readDtableX1
  grind

@[grind ←] theorem fillDtableX2ForWeight_sizePlain (tableLog nbBits limit : Nat) (base : Bytes) :
    ∀ (symbols : List Nat) (start : Nat) (slots : List DEltX2),
      SizePlain (fillDtableX2ForWeight tableLog nbBits limit base symbols start slots)
  | [], _, slots => .of_ok slots
  | _ :: rest, _, _ => by
    have ih := fillDtableX2ForWeight_sizePlain tableLog nbBits limit base rest
    unfold fillDtableX2ForWeight
    grind

@[grind ←] theorem fillLevel2Weights_sizePlain (p : X2Plan) (consumedBits start stop : Nat) (base : UInt8) :
    ∀ (n weight : Nat) (slots : List DEltX2), SizePlain (fillLevel2Weights p consumedBits start stop base
      n weight slots)
  | 0, _, slots => .of_ok slots
  | n + 1, _, _ => by
    have ih := fillLevel2Weights_sizePlain p consumedBits start stop base n
    unfold fillLevel2Weights
    grind

@[grind ←] theorem fillDtableX2Level2_sizePlain (p : X2Plan) (consumedBits minWeight start stop : Nat) (base : UInt8)
    (slots : List DEltX2) : SizePlain (fillDtableX2Level2 p consumedBits minWeight start stop base slots) := by
  have hweights := fillLevel2Weights_sizePlain p consumedBits start stop base (p.maxWeight + 1 - minWeight) minWeight
  unfold fillDtableX2Level2
  dsimp only
  split
  · split
    · exact .of_error id
    · split
      · exact .of_error id
      · exact hweights _
  · exact hweights slots

@[grind ←] theorem fillSubTables_sizePlain (p : X2Plan) (nbBits minWeight : Nat) :
    ∀ (symbols : List Nat) (start : Nat) (slots : List DEltX2),
      SizePlain (fillSubTables p nbBits minWeight symbols start slots)
  | [], _, slots => .of_ok slots
  | _ :: rest, _, _ => by
    have ih := fillSubTables_sizePlain p nbBits minWeight rest
    unfold fillSubTables
    grind

@[grind ←] theorem fillDtableX2_sizePlain (p : X2Plan) :
    ∀ (n weight : Nat) (slots : List DEltX2), SizePlain (fillDtableX2 p n weight slots)
  | 0, _, slots => .of_ok slots
  | n + 1, _, _ => by
    have ih := fillDtableX2_sizePlain p n
    unfold fillDtableX2
    grind

@[grind ←] theorem readDtableX2_sizePlain : SizePlain (readDtableX2 src) := by
  unfold readDtableX2
  grind

@[grind ←] theorem openStreams_sizePlain (size : Nat) : SizePlain (openStreams size src) := by
  unfold openStreams splitStreams
  grind

@[grind ←] theorem closeStreams_sizePlain (finish : Nat → Bytes → BitDStream → Bytes × BitDStream) (s : Streams)
    (state : StreamState × StreamState × StreamState × StreamState) : SizePlain (closeStreams finish s state) := by
  unfold closeStreams
  grind

@[grind ←] theorem decompress4X_sizePlain (size : Nat) (t : HuffmanDTable) : SizePlain (decompress4X size src t) := by
  unfold decompress4X decompress4X1 decompress4X2
  grind

@[grind ←] theorem decompress1X_sizePlain (size : Nat) (t : HuffmanDTable) : SizePlain (decompress1X size src t) := by
  unfold decompress1X decompress1X1 decompress1X2
  grind

@[grind ←] theorem decodeRawOrRleSize_sizePlain (sizeFormat : Nat) : SizePlain (decodeRawOrRleSize src sizeFormat) := by
  unfold decodeRawOrRleSize
  grind

@[grind ←] theorem ensureRegeneratedSize_sizePlain (regeneratedSize blockSizeMax : Nat) :
    SizePlain (ensureRegeneratedSize regeneratedSize blockSizeMax) := by
  unfold ensureRegeneratedSize
  grind

@[grind ←] theorem literalsHuffmanTable_sizePlain (blockType : Nat) (header : CompressedLiteralsHeader)
    (state : LiteralsState) : SizePlain (literalsHuffmanTable src blockType header state) := by
  unfold literalsHuffmanTable
  grind

@[grind ←] theorem decodeCompressedLiteralsHeader_sizePlain (sizeFormat : Nat) :
    SizePlain (decodeCompressedLiteralsHeader src sizeFormat) := by
  unfold decodeCompressedLiteralsHeader readCompressedLiteralsHeader
  grind

@[grind ←] theorem decodeHuffmanLiteralsInto_sizePlain (blockType sizeFormat : Nat) (state : LiteralsState)
    (blockSizeMax : Nat) : SizePlain (decodeHuffmanLiteralsInto src blockType sizeFormat state blockSizeMax) := by
  unfold decodeHuffmanLiteralsInto
  grind

theorem decodeLiteralsSectionInto_sizePlain (state : LiteralsState) (blockSizeMax : Nat) :
    SizePlain (decodeLiteralsSectionInto src state blockSizeMax) := by
  unfold decodeLiteralsSectionInto decodeRawLiteralsInto decodeRleLiteralsInto
  grind

end Literals

/-! ## Sequences -/

theorem parseSequenceSection_sizePlain (src : Bytes) (tables : SequenceTablesState) (target : TableTarget) :
    SizePlain (parseSequenceSection src tables target) := by
  unfold parseSequenceSection parseSequenceCount
  grind

@[grind ←] theorem entryAt_sizePlain (t : SequenceDTable) (state : Nat) : SizePlain (entryAt t state) := by
  unfold entryAt
  grind

theorem initSequenceReader_sizePlain (bitstream : Bytes) (tables : SequenceTablesState) :
    SizePlain (initSequenceReader bitstream tables) := by
  unfold initSequenceReader
  grind

theorem updateStates_sizePlain (tables : SequenceTablesState) (r : SequenceReader) :
    SizePlain (updateStates tables r) := by
  unfold updateStates
  grind

theorem placeSpec_sizePlain (c : ExecContext) (out : Bytes) (ip literalLength offset matchLength : Nat) :
    SizePlain (placeSpec c out ip literalLength offset matchLength) := by
  unfold placeSpec dictionaryMatchSpec offsetTooFar
  grind

/-! ## Frames -/

section Fields

variable (singleSegment : Bool) (size pos : Nat) (src : Bytes)

@[grind ←] theorem readWindowField_sizePlain : SizePlain (readWindowField singleSegment pos src) := by
  unfold readWindowField
  grind

@[grind ←] theorem readDictionaryIdField_sizePlain : SizePlain (readDictionaryIdField size pos src) := by
  unfold readDictionaryIdField
  grind

@[grind ←] theorem readContentSizeField_sizePlain : SizePlain (readContentSizeField size pos src) := by
  unfold readContentSizeField
  grind

@[grind ←] theorem effectiveWindowSize_sizePlain (contentSize : Option Nat) (window : Nat) :
    SizePlain (effectiveWindowSize singleSegment contentSize window) := by
  unfold effectiveWindowSize
  grind

end Fields

@[grind ←] theorem parseZstandardFrameHeader_sizePlain (format : Format) (src : Bytes) :
    SizePlain (parseZstandardFrameHeader format src) := by
  unfold parseZstandardFrameHeader
  grind

theorem parseFrameHeaderWithFormat_sizePlain (format : Format) (src : Bytes) :
    SizePlain (parseFrameHeaderWithFormat format src) := by
  unfold parseFrameHeaderWithFormat parseSkippableFrameHeader
  grind

theorem BlockHeader.parse_sizePlain (src : Bytes) : SizePlain (BlockHeader.parse src) := by
  unfold BlockHeader.parse BlockType.parse
  grind

theorem checkDictionary_sizePlain (dictionary : Option DecoderDictionary) (header : ZstandardFrameHeader) :
    SizePlain (checkDictionary dictionary header) := by
  unfold checkDictionary
  grind

theorem checkWindowSize_sizePlain (options : DecoderOptions) (header : ZstandardFrameHeader) :
    SizePlain (checkWindowSize options header) := by
  unfold checkWindowSize
  grind

theorem checkProduced_sizePlain (header : ZstandardFrameHeader) (produced : Nat) :
    SizePlain (checkProduced header produced) := by
  unfold checkProduced
  grind

@[grind ←] theorem checkChecksum_sizePlain (expected actual : Nat) : SizePlain (checkChecksum expected actual) := by
  unfold checkChecksum
  grind

theorem readFrameChecksum_sizePlain (options : DecoderOptions) (header : ZstandardFrameHeader) (cursor : Cursor)
    (frame : Bytes) : SizePlain (readFrameChecksum options header cursor frame) := by
  unfold readFrameChecksum
  grind

end Zstandard
