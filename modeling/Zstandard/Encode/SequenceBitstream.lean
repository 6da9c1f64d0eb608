/-
The encoders of the sequence bitstream: over prepared sequences or straight over commands and their codes, with a loop
that trusts its bounds or one that checks them. All of them lay down the same fields, last sequence first.

A debug assertion that fails is an error here, like an index outside a slice: a run that ends well is one of a build
without assertions too. Each run lists the writers it had right before its flushes.
-/
import Zstandard.Entropy.Fields
import Zstandard.Entropy.Interleaved
import Zstandard.Encode.CodeHistogram

namespace Zstandard

open Fse BitStack Hist

/-! ## Sequences, prepared -/

/-- `EncodedSequence`: the three codes of a sequence, each with the bits behind it. -/
structure EncodedSequence where
  llCode : UInt8
  llExtra : Nat
  ofCode : UInt8
  ofExtra : Nat
  mlCode : UInt8
  mlExtra : Nat
deriving DecidableEq, Repr

/-- `table[index]`. -/
def indexed (table : List Nat) (index : Nat) : Result Nat :=
  match table[index]? with
  | some value => .ok value
  | none => .error .generic

/-- `a - b` of unsigned integers. -/
def checkedSub (a b : Nat) : Result Nat := if b ≤ a then .ok (a - b) else .error .generic

/-- The extra bits of a literal length code. -/
def llBits (code : UInt8) : Result Nat := indexed literalLengthExtraBits code.toNat

/-- The extra bits of a match length code. -/
def mlBits (code : UInt8) : Result Nat := indexed matchLengthExtraBits code.toNat

/-- `literal_length_code`: a table up to 63, then by the highest bit. -/
def literalLengthCode (literalLength : Nat) : Result Nat :=
  if literalLength ≤ 63 then indexed literalLengthCodeTable literalLength
  else if literalLength ≤ 0x1FFFF then .ok (highbit32 literalLength + 19)
  else .error (.invalidParameter "literal length exceeds the supported range")

/-- `match_length_code`: a table up to 127 above the shortest match, then by the highest bit. -/
def matchLengthCode (matchLength : Nat) : Result Nat :=
  if matchLength < 3 then .error (.invalidParameter "match length must be at least 3 bytes") else
  let mlBase := matchLength - 3
  if mlBase ≤ 127 then indexed matchLengthCodeTable mlBase
  else if mlBase ≤ 0x1FFFF then .ok (highbit32 mlBase + 36)
  else .error (.invalidParameter "match length exceeds the supported range")

/-- `offset_code`: the highest bit of the offset value. -/
def offsetCode (offsetValue : Nat) : Result Nat :=
  if offsetValue = 0 then .error (.invalidParameter "offset value must be non-zero") else .ok (highbit32 offsetValue)

/-- What a sequence is above the baselines of its codes. A shift by 32 or more overflows. -/
def SequenceCommand.extras (sequence : SequenceCommand) (llCode ofCode mlCode : UInt8) : Result EncodedSequence := do
  let llExtra ← checkedSub sequence.literalLength (← indexed literalLengthBaselines llCode.toNat)
  let ofExtra ← (if ofCode.toNat < 32 then checkedSub sequence.offsetValue (1 <<< ofCode.toNat) else .error .generic)
  let mlExtra ← checkedSub sequence.matchLength (← indexed matchLengthBaselines mlCode.toNat)
  .ok { llCode, llExtra, ofCode, ofExtra, mlCode, mlExtra }

/-- `encode_sequence_command`. -/
def encodeSequenceCommand (sequence : SequenceCommand) : Result EncodedSequence := do
  let llCode ← literalLengthCode sequence.literalLength
  let mlCode ← matchLengthCode sequence.matchLength
  let ofCode ← offsetCode sequence.offsetValue
  sequence.extras (UInt8.ofNat llCode) (UInt8.ofNat ofCode) (UInt8.ofNat mlCode)

/-! ## The room for the stream -/

/-- `SequenceCTables`: the encoding tables of one section. -/
structure SequenceCTables where
  literalLengths : CTable
  offsets : CTable
  matchLengths : CTable
deriving DecidableEq, Repr

/-- The bits of a section at most: every state, every extra bit and the end mark. -/
def sequenceBitstreamBoundBits (sequenceCount extraBits : Nat) (tables : SequenceCTables) : Nat :=
  let stateBits := tables.literalLengths.tableLog + tables.offsets.tableLog + tables.matchLengths.tableLog
  let bits := stateBits + extraBits
  let bits := if sequenceCount > 1 then bits + (sequenceCount - 1) * stateBits else bits
  bits + 1

/-- `weighted`: the counters up to `last`, each times the width of its code. They have to make up the total. -/
def weighted (stats : SequenceCodeStats) (last : Nat) (fieldWidth : Nat → Nat) : Result Nat :=
  let sum := ((List.range (last + 1)).map (tally stats.counts)).sum
  if sum < 2 ^ 32 ∧ sum = stats.total then
    .ok ((List.range (last + 1)).map fun code => tally stats.counts code * fieldWidth code).sum
  else .error .generic

/-- The extra bits of all sequences, read off the counts of their codes. -/
def extraBitsFromCodeCounts (literalStats offsetStats matchStats : SequenceCodeStats) : Result Nat := do
  let literalEnd := min literalStats.maxSymbol (literalLengthExtraBits.length - 1)
  let matchEnd := min matchStats.maxSymbol (matchLengthExtraBits.length - 1)
  let literalBits ← weighted literalStats literalEnd fun code => literalLengthExtraBits.getD code 0
  let matchBits ← weighted matchStats matchEnd fun code => matchLengthExtraBits.getD code 0
  let offsetBits ← weighted offsetStats offsetStats.maxSymbol id
  .ok (literalBits + matchBits + offsetBits)

/-! ## The writer -/

/-- What an accumulator takes behind up to seven bits that a flush leaves. -/
def streamAccumulatorMin : Nat := containerBits - 7

/-- The writer, with those it has been right before each flush. -/
structure SequenceStream where
  bitC : BitCStream
  flushed : List BitCStream

/-- `debug_assert!`, an overflow or an index past the end. -/
def require (p : Prop) [Decidable p] : Result Unit := if p then .ok () else .error .generic

namespace SequenceStream

/-- `add_bits`, which asserts that the field is narrow and fits. -/
def addBits (s : SequenceStream) (value nbBits : Nat) : Result SequenceStream := do
  require (nbBits < 32)
  require (nbBits + s.bitC.bitPos < containerBits)
  .ok { s with bitC := s.bitC.addBits value nbBits }

/-- `add_bits_fast`, which asserts that nothing stands above the field. -/
def addBitsFast (s : SequenceStream) (value nbBits : Nat) : Result SequenceStream := do
  require (nbBits + s.bitC.bitPos < containerBits)
  require (value >>> nbBits = 0)
  .ok { s with bitC := s.bitC.addBitsFast value nbBits }

/-- A flush, recorded with the container that it writes. -/
def flushWith (flush : BitCStream → Result BitCStream) (s : SequenceStream) : Result SequenceStream := do
  require (s.bitC.bytePos ≤ s.bitC.endPos)
  let bitC ← flush s.bitC
  .ok { bitC, flushed := s.bitC :: s.flushed }

def flushBits : SequenceStream → Result SequenceStream := flushWith BitCStream.flushBits

def flushBitsFast : SequenceStream → Result SequenceStream := flushWith BitCStream.flushBitsFast

/-- `flush_bits_unchecked`: a word that the slice does not hold is written beyond it, which is an error as well. -/
def flushBitsUnchecked : SequenceStream → Result SequenceStream := flushWith BitCStream.flushBitsFast

/-- `close`: the end mark, and the bytes that are used up, none where they reach the end. -/
def close (s : SequenceStream) : Result (Nat × Bytes × List BitCStream) := do
  let s ← s.addBitsFast 1 1
  let s ← s.flushBits
  if s.bitC.bytePos ≥ s.bitC.endPos then .ok (0, s.bitC.dst, s.flushed)
  else .ok (s.bitC.bytePos + (if s.bitC.bitPos > 0 then 1 else 0), s.bitC.dst, s.flushed)

/-- `ensure_bits_capacity`: a flush where the field would not fit. -/
def ensureBitsCapacity (s : SequenceStream) (nbBits : Nat) : Result SequenceStream :=
  if nbBits ≥ containerBits then .error (.invalidParameter "bitstream write exceeds the accumulator width")
  else if s.bitC.bitPos + nbBits ≥ streamAccumulatorMin then s.flushBits
  else .ok s

/-- `add_bits_checked`: a field of any width below the accumulator's. -/
def addBitsChecked (s : SequenceStream) (value nbBits : Nat) : Result SequenceStream :=
  if nbBits = 0 then .ok s else do
    let s ← s.ensureBitsCapacity nbBits
    s.addBits value nbBits

/-- The extra bits of an offset, in two fields where they are many. -/
def addOffsetBitsChecked (s : SequenceStream) (value nbBits : Nat) (longOffsets : Bool) : Result SequenceStream :=
  if longOffsets = false ∨ nbBits < streamAccumulatorMin then s.addBitsChecked value nbBits else do
    let extraBits := nbBits - (streamAccumulatorMin - 1)
    let s ← (if extraBits ≠ 0 then do
        let s ← s.addBitsChecked value extraBits
        s.flushBits
      else .ok s)
    s.addBitsChecked (value >>> extraBits) (nbBits - extraBits)

end SequenceStream

/-- `encode_symbol_unchecked` up to the bits it adds: a state outside the table is read there. -/
def encodeStateUnchecked (ct : CTable) (value symbol : Nat) : Result (Nat × Nat) :=
  let transform := ct.symbolTt.getD symbol default
  let nbBitsOut := (value + transform.deltaNbBits) >>> 16
  match ct.stateAt ((value >>> nbBitsOut : Nat) + transform.deltaFindState) with
  | .ok next => .ok (nbBitsOut, next)
  | .error _ => .error .generic

namespace SequenceStream

/-- `encode_symbol`: the bits of a state that its successor does not hold. -/
def encodeSymbol (s : SequenceStream) (value : Nat) (ct : CTable) (symbol : UInt8) : Result (SequenceStream × Nat) := do
  let (nbBitsOut, next) ← encodeState ct value symbol.toNat
  let s ← s.addBits value nbBitsOut
  .ok (s, next)

/-- `encode_symbol_unchecked`. -/
def encodeSymbolUnchecked (s : SequenceStream) (value : Nat) (ct : CTable) (symbol : UInt8) :
    Result (SequenceStream × Nat) := do
  let (nbBitsOut, next) ← encodeStateUnchecked ct value symbol.toNat
  let s ← s.addBits value nbBitsOut
  .ok (s, next)

/-- `flush_cstate`: the whole state, which the decoder begins with. -/
def flushCstate (s : SequenceStream) (value : Nat) (ct : CTable) : Result SequenceStream := do
  let s ← s.addBits value ct.tableLog
  s.flushBits

end SequenceStream

/-! ## The encoders -/

/-- The writer and the three states. -/
structure SequenceEncoder where
  stream : SequenceStream
  stateMatchLengths : Nat
  stateOffsets : Nat
  stateLiteralLengths : Nat

namespace SequenceEncoder

/-- The states of the last sequence, which is encoded first. -/
def initStates (tables : SequenceCTables) (stream : SequenceStream) (llCode ofCode mlCode : UInt8) :
    Result SequenceEncoder := do
  let stateMatchLengths ← initCstate2 tables.matchLengths mlCode.toNat
  let stateOffsets ← initCstate2 tables.offsets ofCode.toNat
  let stateLiteralLengths ← initCstate2 tables.literalLengths llCode.toNat
  .ok { stream, stateMatchLengths, stateOffsets, stateLiteralLengths }

/-- The three symbols of a sequence in the loop that trusts its bounds. -/
def encodeSymbolsUnchecked (tables : SequenceCTables) (e : SequenceEncoder) (llCode ofCode mlCode : UInt8) :
    Result SequenceEncoder := do
  let (stream, stateOffsets) ← e.stream.encodeSymbolUnchecked e.stateOffsets tables.offsets ofCode
  let (stream, stateMatchLengths) ← stream.encodeSymbolUnchecked e.stateMatchLengths tables.matchLengths mlCode
  let (stream, stateLiteralLengths) ← stream.encodeSymbolUnchecked e.stateLiteralLengths tables.literalLengths llCode
  .ok { stream, stateMatchLengths, stateOffsets, stateLiteralLengths }

/-- The three symbols of a sequence in the loop that checks. -/
def encodeSymbols (tables : SequenceCTables) (e : SequenceEncoder) (llCode ofCode mlCode : UInt8) :
    Result SequenceEncoder := do
  let stream ← e.stream.ensureBitsCapacity tables.offsets.tableLog
  let (stream, stateOffsets) ← stream.encodeSymbol e.stateOffsets tables.offsets ofCode
  let stream ← stream.ensureBitsCapacity tables.matchLengths.tableLog
  let (stream, stateMatchLengths) ← stream.encodeSymbol e.stateMatchLengths tables.matchLengths mlCode
  let stream ← stream.ensureBitsCapacity tables.literalLengths.tableLog
  let (stream, stateLiteralLengths) ← stream.encodeSymbol e.stateLiteralLengths tables.literalLengths llCode
  .ok { stream, stateMatchLengths, stateOffsets, stateLiteralLengths }

/-- The raw bits of a sequence in the loop that trusts its bounds, with that loop's flush. -/
def addExtrasUnchecked (flush : SequenceStream → Result SequenceStream) (e : SequenceEncoder)
    (sequence : EncodedSequence) : Result SequenceEncoder := do
  let mlNbits ← mlBits sequence.mlCode
  let ofNbits := sequence.ofCode.toNat
  let stream ← e.stream.addBitsFast sequence.llExtra (← llBits sequence.llCode)
  let stream ← (if stream.bitC.bitPos + mlNbits + ofNbits ≥ streamAccumulatorMin then flush stream else .ok stream)
  let stream ← stream.addBitsFast sequence.mlExtra mlNbits
  let stream ← stream.addBitsFast sequence.ofExtra ofNbits
  let stream ← flush stream
  .ok { e with stream }

/-- The raw bits of a sequence, checked. -/
def addExtras (longOffsets : Bool) (e : SequenceEncoder) (sequence : EncodedSequence) : Result SequenceEncoder := do
  let stream ← e.stream.addBitsChecked sequence.llExtra (← llBits sequence.llCode)
  let stream ← stream.addBitsChecked sequence.mlExtra (← mlBits sequence.mlCode)
  let stream ← stream.addOffsetBitsChecked sequence.ofExtra sequence.ofCode.toNat longOffsets
  .ok { e with stream }

/-- A flush of the stream, with the states as they are. -/
def flushStream (e : SequenceEncoder) : Result SequenceEncoder := do
  let stream ← e.stream.flushBits
  .ok { e with stream }

/-- The last states, and the end of the stream. -/
def finish (tables : SequenceCTables) (e : SequenceEncoder) : Result (Nat × Bytes × List BitCStream) := do
  let stream ← e.stream.ensureBitsCapacity tables.matchLengths.tableLog
  let stream ← stream.flushCstate e.stateMatchLengths tables.matchLengths
  let stream ← stream.ensureBitsCapacity tables.offsets.tableLog
  let stream ← stream.flushCstate e.stateOffsets tables.offsets
  let stream ← stream.ensureBitsCapacity tables.literalLengths.tableLog
  let stream ← stream.flushCstate e.stateLiteralLengths tables.literalLengths
  stream.close

end SequenceEncoder

/-- `dst` as long as the stream may get, and the room of the stream in it. -/
def byteCapacityOf (bitCapacity : Nat) : Nat := (bitCapacity + 7) / 8 + containerBytes + 8

/-- `resize` to at least a capacity: what was there stays. -/
def resized (dst : Bytes) (byteCapacity : Nat) : Bytes :=
  if dst.length < byteCapacity then dst ++ List.replicate (byteCapacity - dst.length) 0 else dst

/-- What `dst` holds at the end. -/
def truncated (dst : Bytes) (byteCapacity : Nat) (closed : Nat × Bytes × List BitCStream) :
    Result (Bytes × List BitCStream) :=
  let (written, out, flushed) := closed
  if written = 0 then .error .dstSizeTooSmall else .ok ((out ++ dst.drop byteCapacity).take written, flushed)

/-- `encode_sequence_bitstream_into`: prepared sequences, from the last to the first. -/
def encodeSequenceBitstreamInto (dst : Bytes) (sequences : List EncodedSequence) (extraBits : Nat)
    (tables : SequenceCTables) (longOffsets : Bool) : Result (Bytes × List BitCStream) := do
  let byteCapacity := byteCapacityOf (sequenceBitstreamBoundBits sequences.length extraBits tables)
  let dst := resized dst byteCapacity
  let bitC ← BitCStream.new (dst.take byteCapacity)
  let last ← (match sequences.getLast? with
    | some last => .ok last
    | none => .error .unexpectedEof)
  let e ← SequenceEncoder.initStates tables ⟨bitC, []⟩ last.llCode last.ofCode last.mlCode
  let e ← e.addExtras longOffsets last
  let e ← e.flushStream
  let e ← (if longOffsets = false then
      sequences.dropLast.reverse.foldlM (fun e sequence => do
        let e ← e.encodeSymbolsUnchecked tables sequence.llCode sequence.ofCode sequence.mlCode
        e.addExtrasUnchecked SequenceStream.flushBitsFast sequence) e
    else
      sequences.dropLast.reverse.foldlM (fun e sequence => do
        let e ← e.encodeSymbols tables sequence.llCode sequence.ofCode sequence.mlCode
        e.addExtras longOffsets sequence) e)
  truncated dst byteCapacity (← e.finish tables)

/-- A command and its codes. -/
structure CodedCommand where
  command : SequenceCommand
  llCode : UInt8
  ofCode : UInt8
  mlCode : UInt8

/-- The commands and their codes at an index. -/
def codedAt (sequences : List SequenceCommand) (llCodes ofCodes mlCodes : Bytes) (index : Nat) : Result CodedCommand :=
  match sequences[index]?, llCodes[index]?, ofCodes[index]?, mlCodes[index]? with
  | some command, some llCode, some ofCode, some mlCode => .ok { command, llCode, ofCode, mlCode }
  | _, _, _, _ => .error .generic

/-- `encode_sequence_bitstream_direct_into`: the same from the commands and their codes. -/
def encodeSequenceBitstreamDirectInto (dst : Bytes) (sequences : List SequenceCommand)
    (llCodes ofCodes mlCodes : Bytes) (extraBits : Nat) (tables : SequenceCTables) (longOffsets : Bool) :
    Result (Bytes × List BitCStream) := do
  let byteCapacity := byteCapacityOf (sequenceBitstreamBoundBits sequences.length extraBits tables)
  let dst := resized dst byteCapacity
  let bitC ← BitCStream.new (dst.take byteCapacity)
  let n ← checkedSub sequences.length 1
  let last ← codedAt sequences llCodes ofCodes mlCodes n
  let e ← SequenceEncoder.initStates tables ⟨bitC, []⟩ last.llCode last.ofCode last.mlCode
  let e ← e.addExtras longOffsets (← last.command.extras last.llCode last.ofCode last.mlCode)
  let e ← e.flushStream
  let e ← (if longOffsets = false then
      (List.range n).reverse.foldlM (fun e i => do
        let seq ← codedAt sequences llCodes ofCodes mlCodes i
        let e ← e.encodeSymbolsUnchecked tables seq.llCode seq.ofCode seq.mlCode
        e.addExtrasUnchecked SequenceStream.flushBitsUnchecked
          (← seq.command.extras seq.llCode seq.ofCode seq.mlCode)) e
    else
      (List.range n).reverse.foldlM (fun e i => do
        let seq ← codedAt sequences llCodes ofCodes mlCodes i
        let e ← e.encodeSymbols tables seq.llCode seq.ofCode seq.mlCode
        e.addExtras longOffsets (← seq.command.extras seq.llCode seq.ofCode seq.mlCode)) e)
  truncated dst byteCapacity (← e.finish tables)

/-! ## The fields -/

/-- The raw bits of a sequence, from the bottom: literal length, match length, offset. -/
def EncodedSequence.extraFields (sequence : EncodedSequence) : List Field :=
  [(sequence.llExtra, literalLengthExtraBits.getD sequence.llCode.toNat 0),
    (sequence.mlExtra, matchLengthExtraBits.getD sequence.mlCode.toNat 0), (sequence.ofExtra, sequence.ofCode.toNat)]

/-- The three states between two sequences. -/
structure SequenceStates where
  matchLength : Nat
  offset : Nat
  literalLength : Nat
deriving DecidableEq, Repr

/-- The states in front of the sequences, and the fields below them: a reader, which starts at the top, finds the raw
bits of the first sequence and then the bits that lead to the states of the next one. -/
def sequenceFields (tables : SequenceCTables) : List EncodedSequence → Result (SequenceStates × List Field)
  | [] => .error .unexpectedEof
  | [last] => do
    let matchLength ← initCstate2 tables.matchLengths last.mlCode.toNat
    let offset ← initCstate2 tables.offsets last.ofCode.toNat
    let literalLength ← initCstate2 tables.literalLengths last.llCode.toNat
    .ok ({ matchLength, offset, literalLength }, last.extraFields)
  | sequence :: rest => do
    let (states, fields) ← sequenceFields tables rest
    let (ofNbits, offset) ← encodeState tables.offsets states.offset sequence.ofCode.toNat
    let (mlNbits, matchLength) ← encodeState tables.matchLengths states.matchLength sequence.mlCode.toNat
    let (llNbits, literalLength) ← encodeState tables.literalLengths states.literalLength sequence.llCode.toNat
    .ok ({ matchLength, offset, literalLength },
      fields ++ [(states.offset, ofNbits), (states.matchLength, mlNbits), (states.literalLength, llNbits)] ++
        sequence.extraFields)

/-- All fields of the stream: a reader starts with the three states, that of the literal length first. -/
def prescribedFields (tables : SequenceCTables) (sequences : List EncodedSequence) : Result (List Field) := do
  let (states, fields) ← sequenceFields tables sequences
  .ok (fields ++ [(states.matchLength, tables.matchLengths.tableLog), (states.offset, tables.offsets.tableLog),
    (states.literalLength, tables.literalLengths.tableLog)])

/-! ## What the writer keeps -/

/-- A writer right before a flush: fewer bits pending than the container holds, the word within the buffer, and the
whole bytes not past the end. -/
structure BitCStream.Unclamped (byteCapacity : Nat) (c : BitCStream) : Prop where
  length : c.dst.length = byteCapacity
  pending : c.bitPos < containerBits
  room : c.bytePos + containerBytes ≤ byteCapacity
  unclamped : c.bytePos + c.bitPos / 8 ≤ c.endPos

namespace SequenceStream

/-- The writer holds `fs`, at most `k` bits of it pending, in a buffer of `cap` bytes, and no flush was clamped. -/
structure Lays (cap : Nat) (s : SequenceStream) (fs : List Field) (k : Nat) : Prop where
  holds : s.bitC.Holds fs k
  used_le : s.bitC.used ≤ width fs
  length : s.bitC.dst.length = cap
  flushed : ∀ c ∈ s.flushed, c.Unclamped cap

variable {cap k n v : Nat} {s : SequenceStream} {fs : List Field}

theorem Lays.mono {k' : Nat} (h : s.Lays cap fs k) (hk : k ≤ k') : s.Lays cap fs k' :=
  ⟨h.holds.mono hk, h.used_le, h.length, h.flushed⟩

theorem Lays.addBits (h : s.Lays cap fs k) (hn : n < 32) (hk : k + n < 64) :
    ∃ s', s.addBits v n = .ok s' ∧ s'.Lays cap (fs ++ [(v, n)]) (k + n) := by
  have hbit := h.holds.bitPos_le
  have hused := h.used_le
  refine ⟨{ s with bitC := s.bitC.addBits v n }, ?_, h.holds.addBits hn hk, ?_, h.length, h.flushed⟩
  · unfold SequenceStream.addBits require containerBits
    rw [if_pos hn, if_pos (by omega), ok_bind, ok_bind]
  · rw [BitCStream.addBits_used, width_append, width_cons, width_nil]
    omega

theorem Lays.addBitsFast (h : s.Lays cap fs k) (hv : v < 2 ^ n) (hk : k + n < 64) :
    ∃ s', s.addBitsFast v n = .ok s' ∧ s'.Lays cap (fs ++ [(v, n)]) (k + n) := by
  have hbit := h.holds.bitPos_le
  have hused := h.used_le
  refine ⟨{ s with bitC := s.bitC.addBitsFast v n }, ?_, h.holds.addBitsFast hv hk, ?_, h.length, h.flushed⟩
  · unfold SequenceStream.addBitsFast require containerBits
    rw [if_pos (by omega), if_pos (by rw [Nat.shiftRight_eq_div_pow, Nat.div_eq_of_lt hv]), ok_bind, ok_bind]
  · rw [show (s.bitC.addBitsFast v n).used = s.bitC.used + n from (Nat.add_assoc _ _ _).symm, width_append, width_cons,
      width_nil]
    omega

/-- As long as the fields stay below the last word, every kind of flush takes the whole bytes. -/
theorem Lays.flushWith (h : s.Lays cap fs k) (hk : k < 64) (hroom : width fs + 64 < 8 * cap)
    {flush : BitCStream → Result BitCStream} (fast : Bool) (hflush : flush = BitCStream.flush fast) :
    ∃ s', s.flushWith flush = .ok s' ∧ s'.Lays cap fs 7 := by
  subst hflush
  have hend := h.holds.room
  rw [h.length] at hend
  have hin := h.holds.within
  have hbit := h.holds.bitPos_le
  have hused := h.used_le
  obtain ⟨c, hclamped, hholds⟩ := h.holds.flushBits hk
  obtain ⟨hless, hends⟩ := BitCStream.flushBits_used hclamped
  have hlength := BitCStream.flushBits_length h.holds.exact hclamped
  have hfree : c.Free := by
    unfold BitCStream.Free BitCStream.used at *
    omega
  obtain ⟨hsame, -⟩ := @BitCStream.flush_swap _ _ false fast hclamped hfree
  refine ⟨⟨c, s.bitC :: s.flushed⟩, ?_, hholds, hless.trans hused, hlength.trans h.length, ?_⟩
  · unfold SequenceStream.flushWith require
    rw [if_pos hin, ok_bind, hsame, ok_bind]
  · rintro c' (_ | ⟨_, hc'⟩)
    · unfold BitCStream.used at hused
      refine ⟨h.length, ?_, ?_, ?_⟩
      · unfold containerBits
        omega
      · unfold containerBytes
        omega
      · omega
    · exact h.flushed c' hc'

theorem Lays.flushBits (h : s.Lays cap fs k) (hk : k < 64) (hroom : width fs + 64 < 8 * cap) :
    ∃ s', s.flushBits = .ok s' ∧ s'.Lays cap fs 7 :=
  h.flushWith hk hroom false rfl

theorem Lays.flushBitsFast (h : s.Lays cap fs k) (hk : k < 64) (hroom : width fs + 64 < 8 * cap) :
    ∃ s', s.flushBitsFast = .ok s' ∧ s'.Lays cap fs 7 :=
  h.flushWith hk hroom true rfl

theorem Lays.ensureBitsCapacity (h : s.Lays cap fs k) (hk : k < 64) (hn : n ≤ 56) (hroom : width fs + 64 < 8 * cap) :
    ∃ s' k', s.ensureBitsCapacity n = .ok s' ∧ s'.Lays cap fs k' ∧ k' + n < 64 := by
  unfold SequenceStream.ensureBitsCapacity streamAccumulatorMin containerBits
  rw [if_neg (by omega)]
  split
  · obtain ⟨s', hs', hlays⟩ := h.flushBits hk hroom
    exact ⟨s', 7, hs', hlays, by omega⟩
  · exact ⟨s, s.bitC.bitPos, rfl, ⟨h.holds.exact, h.used_le, h.length, h.flushed⟩, by omega⟩

/-- A field of no bits. -/
theorem Lays.nothing (h : s.Lays cap fs k) : s.Lays cap (fs ++ [(v, 0)]) k := by
  have hwidth : width (fs ++ [(v, 0)]) = width fs := by rw [width_append, width_cons, width_nil]; omega
  have hpack : pack (fs ++ [(v, 0)]) = pack fs := by rw [pack_append]; simp [pack, Nat.mod_one]
  refine ⟨⟨h.holds.room, h.holds.within, h.holds.pending, h.holds.bitPos_le, ?_⟩, ?_, h.length, h.flushed⟩
  · rw [hwidth, hpack]
    exact h.holds.bits
  · rw [hwidth]
    exact h.used_le

theorem Lays.addBitsChecked (h : s.Lays cap fs k) (hk : k < 64) (hn : n < 32) (hroom : width fs + 64 < 8 * cap) :
    ∃ s', s.addBitsChecked v n = .ok s' ∧ s'.Lays cap (fs ++ [(v, n)]) 63 := by
  unfold SequenceStream.addBitsChecked
  by_cases hzero : n = 0
  · subst hzero
    exact ⟨s, if_pos rfl, h.nothing.mono (by omega)⟩
  · rw [if_neg hzero]
    obtain ⟨s1, k', h1, hlays, hk'⟩ := h.ensureBitsCapacity (n := n) hk (by omega) hroom
    obtain ⟨s2, h2, hlays⟩ := hlays.addBits (v := v) hn hk'
    refine ⟨s2, ?_, hlays.mono (by omega)⟩
    rw [h1, ok_bind, h2]

/-- No offset code is wide enough for the split. -/
theorem Lays.addOffsetBitsChecked (h : s.Lays cap fs k) (hk : k < 64) (hn : n < 32) (hroom : width fs + 64 < 8 * cap)
    (longOffsets : Bool) :
    ∃ s', s.addOffsetBitsChecked v n longOffsets = .ok s' ∧ s'.Lays cap (fs ++ [(v, n)]) 63 := by
  unfold SequenceStream.addOffsetBitsChecked streamAccumulatorMin containerBits
  rw [if_pos (.inr (by omega))]
  exact h.addBitsChecked hk hn hroom

theorem Lays.flushCstate (h : s.Lays cap fs k) (ct : CTable) (hlog : ct.tableLog ≤ 9) (hk : k + ct.tableLog < 64)
    (hroom : width fs + ct.tableLog + 64 < 8 * cap) :
    ∃ s', s.flushCstate v ct = .ok s' ∧ s'.Lays cap (fs ++ [(v, ct.tableLog)]) 7 := by
  obtain ⟨s1, h1, hlays⟩ := h.addBits (v := v) (n := ct.tableLog) (by omega) hk
  obtain ⟨s2, h2, hlays⟩ := hlays.flushBits hk (by rw [width_append, width_cons, width_nil]; omega)
  refine ⟨s2, ?_, hlays⟩
  unfold SequenceStream.flushCstate
  rw [h1, ok_bind, h2]

/-- The stream, closed: its size and what it holds. -/
theorem Lays.close (h : s.Lays cap fs 7) (hroom : width fs + 65 < 8 * cap) :
    ∃ out flushed, s.close = .ok ((width fs + 8) / 8, out, flushed) ∧ out.length = cap ∧
      readLe (out.take ((width fs + 8) / 8)) = pack fs + 2 ^ width fs ∧ ∀ c ∈ flushed, c.Unclamped cap := by
  obtain ⟨s1, h1, hlays⟩ := h.addBitsFast (v := 1) (n := 1) (by norm_num) (by norm_num)
  obtain ⟨s2, h2, hlays2⟩ := hlays.flushBits (by norm_num) (by rw [width_append, width_cons, width_nil]; omega)
  have hend := h.holds.room
  rw [h.length] at hend
  obtain ⟨out, hclose, hlength, hread⟩ := h.holds.close_exact (by norm_num) h.used_le
  have hsize : BitCStream.streamSize (width fs) s.bitC.endPos = (width fs + 8) / 8 := by
    unfold BitCStream.streamSize
    rw [if_pos (by omega)]
  rw [hsize] at hclose hread
  refine ⟨out, s2.flushed, ?_, hlength.trans h.length, hread (by omega), hlays2.flushed⟩
  -- the writer inside goes through the same two steps
  have hinner : (s.bitC.addBitsFast 1 1).flushBits = .ok s2.bitC := by
    unfold SequenceStream.addBitsFast require at h1
    obtain ⟨_, -, h1⟩ := bind_ok h1
    obtain ⟨_, -, h1⟩ := bind_ok h1
    cases h1
    unfold SequenceStream.flushBits SequenceStream.flushWith at h2
    obtain ⟨_, -, h2⟩ := bind_ok h2
    obtain ⟨c, hc, h2⟩ := bind_ok h2
    cases h2
    exact hc
  unfold BitCStream.close at hclose
  rw [hinner, ok_bind] at hclose
  unfold SequenceStream.close
  rw [h1, ok_bind, h2, ok_bind]
  split at hclose
  · simp only [Except.ok.injEq, Prod.mk.injEq] at hclose
    omega
  · rename_i hnot
    simp only [Except.ok.injEq, Prod.mk.injEq] at hclose
    rw [if_neg hnot, hclose.1, hclose.2]

end SequenceStream

/-! ## Tables that can encode -/

/-- From each of `states` the table encodes the codes, in at most its accuracy many bits, and starts in one of them. -/
structure Fse.CTable.EncodesOver (ct : CTable) (states : Nat → Prop) (codes : Bytes) : Prop where
  tableLog_le : ct.tableLog ≤ tablelogMax
  init : ∀ code ∈ codes, ∃ first, initCstate2 ct code.toNat = .ok first ∧ states first
  step : ∀ code ∈ codes, ∀ state, states state → ∃ nbBits next, encodeState ct state code.toNat = .ok (nbBits, next) ∧
    nbBits ≤ ct.tableLog ∧ states next

/-- The table can encode the codes one after the other. -/
def Fse.CTable.Encodes (ct : CTable) (codes : Bytes) : Prop := ∃ states, ct.EncodesOver states codes

theorem encodeStateUnchecked_eq {ct : CTable} {value symbol : Nat} {r : Nat × Nat}
    (h : encodeState ct value symbol = .ok r) : encodeStateUnchecked ct value symbol = .ok r := by
  unfold encodeState at h
  unfold encodeStateUnchecked
  split at h
  · cases h
  · obtain ⟨next, hnext, h⟩ := bind_ok h
    cases h
    dsimp only
    rw [hnext]

/-- What the codes and extras of a prepared sequence are within. -/
structure EncodedSequence.Fits (sequence : EncodedSequence) : Prop where
  llCode_le : sequence.llCode.toNat ≤ 35
  ofCode_lt : sequence.ofCode.toNat < 32
  mlCode_le : sequence.mlCode.toNat ≤ 52
  llExtra_lt : sequence.llExtra < 2 ^ literalLengthExtraBits.getD sequence.llCode.toNat 0
  ofExtra_lt : sequence.ofExtra < 2 ^ sequence.ofCode.toNat
  mlExtra_lt : sequence.mlExtra < 2 ^ matchLengthExtraBits.getD sequence.mlCode.toNat 0

theorem indexed_getD {table : List Nat} {i : Nat} (h : i < table.length) : indexed table i = .ok (table.getD i 0) := by
  unfold indexed
  rw [List.getElem?_eq_getElem h, List.getD_eq_getElem _ _ h]

theorem EncodedSequence.Fits.llBits {sequence : EncodedSequence} (h : sequence.Fits) :
    llBits sequence.llCode = .ok (literalLengthExtraBits.getD sequence.llCode.toNat 0) ∧
      literalLengthExtraBits.getD sequence.llCode.toNat 0 ≤ 16 :=
  ⟨indexed_getD (Nat.lt_succ_of_le h.llCode_le), getD_le_of_forall (by decide) _⟩

theorem EncodedSequence.Fits.mlBits {sequence : EncodedSequence} (h : sequence.Fits) :
    mlBits sequence.mlCode = .ok (matchLengthExtraBits.getD sequence.mlCode.toNat 0) ∧
      matchLengthExtraBits.getD sequence.mlCode.toNat 0 ≤ 16 :=
  ⟨indexed_getD (Nat.lt_succ_of_le h.mlCode_le), getD_le_of_forall (by decide) _⟩

/-! ## The steps of the encoders -/

/-- The bits of the three states. -/
def SequenceCTables.stateBits (tables : SequenceCTables) : Nat :=
  tables.literalLengths.tableLog + tables.offsets.tableLog + tables.matchLengths.tableLog

/-- The raw bits of sequences. -/
def payloadBits (sequences : List EncodedSequence) : Nat := (sequences.map fun s => width s.extraFields).sum

namespace SequenceEncoder

variable {tables : SequenceCTables} {cap k : Nat} {e : SequenceEncoder} {fs : List Field} {sequence : EncodedSequence}

theorem addExtras_ok (h : e.stream.Lays cap fs k) (hk : k < 64) (hfits : sequence.Fits)
    (hroom : width fs + width sequence.extraFields + 64 < 8 * cap) (longOffsets : Bool) :
    ∃ stream, e.addExtras longOffsets sequence = .ok { e with stream } ∧
      stream.Lays cap (fs ++ sequence.extraFields) 63 := by
  obtain ⟨hll, hllLe⟩ := hfits.llBits
  obtain ⟨hml, hmlLe⟩ := hfits.mlBits
  have hof := hfits.ofCode_lt
  unfold EncodedSequence.extraFields at hroom ⊢
  simp only [width_cons, width_nil] at hroom
  obtain ⟨s1, h1, hlays1⟩ := h.addBitsChecked (v := sequence.llExtra)
    (n := literalLengthExtraBits.getD sequence.llCode.toNat 0) hk (by omega) (by omega)
  obtain ⟨s2, h2, hlays2⟩ := hlays1.addBitsChecked (v := sequence.mlExtra)
    (n := matchLengthExtraBits.getD sequence.mlCode.toNat 0) (by omega) (by omega)
    (by rw [width_append, width_cons, width_nil]; omega)
  obtain ⟨s3, h3, hlays3⟩ := hlays2.addOffsetBitsChecked (v := sequence.ofExtra) (n := sequence.ofCode.toNat)
    (by omega) hof (by simp only [width_append, width_cons, width_nil]; omega) longOffsets
  refine ⟨s3, ?_, ?_⟩
  · unfold addExtras
    rw [hll, ok_bind, h1, ok_bind, hml, ok_bind, h2, ok_bind, h3, ok_bind]
  · simpa only [List.append_assoc, List.cons_append, List.nil_append] using hlays3

/-- At most 34 bits are pending in front of the raw bits: 7 that a flush left behind and three transitions. -/
theorem addExtrasUnchecked_ok (h : e.stream.Lays cap fs 34) (hfits : sequence.Fits)
    (hroom : width fs + width sequence.extraFields + 64 < 8 * cap) :
    ∃ stream, e.addExtrasUnchecked SequenceStream.flushBitsFast sequence = .ok { e with stream } ∧
      stream.Lays cap (fs ++ sequence.extraFields) 7 := by
  obtain ⟨hll, hllLe⟩ := hfits.llBits
  obtain ⟨hml, hmlLe⟩ := hfits.mlBits
  have hof := hfits.ofCode_lt
  unfold EncodedSequence.extraFields at hroom ⊢
  simp only [width_cons, width_nil] at hroom
  unfold addExtrasUnchecked
  rw [hml, ok_bind, hll, ok_bind]
  generalize hnll : literalLengthExtraBits.getD sequence.llCode.toNat 0 = nll at *
  generalize hnml : matchLengthExtraBits.getD sequence.mlCode.toNat 0 = nml at *
  obtain ⟨s1, h1, hlays1⟩ := h.addBitsFast (hnll ▸ hfits.llExtra_lt) (by omega)
  have hwidth1 : width (fs ++ [(sequence.llExtra, nll)]) = width fs + nll := by
    rw [width_append, width_cons, width_nil]; omega
  -- 50 bits at most: where the other two fields might not fit, they are flushed
  obtain ⟨s2, k', h2, hlays2, hk'⟩ : ∃ s2 k', (if s1.bitC.bitPos + nml + sequence.ofCode.toNat ≥ streamAccumulatorMin
      then s1.flushBitsFast else .ok s1) = .ok s2 ∧ s2.Lays cap (fs ++ [(sequence.llExtra, nll)]) k' ∧
        k' + nml + sequence.ofCode.toNat < 64 := by
    unfold streamAccumulatorMin containerBits
    split
    · obtain ⟨s2, h2, hlays2⟩ := hlays1.flushBitsFast (by omega) (by omega)
      exact ⟨s2, 7, h2, hlays2, by omega⟩
    · exact ⟨s1, s1.bitC.bitPos, rfl, ⟨hlays1.holds.exact, hlays1.used_le, hlays1.length, hlays1.flushed⟩, by omega⟩
  obtain ⟨s3, h3, hlays3⟩ := hlays2.addBitsFast (hnml ▸ hfits.mlExtra_lt) (by omega)
  obtain ⟨s4, h4, hlays4⟩ := hlays3.addBitsFast hfits.ofExtra_lt (by omega)
  obtain ⟨s5, h5, hlays5⟩ := hlays4.flushBitsFast (by omega)
    (by simp only [width_append, width_cons, width_nil]; omega)
  refine ⟨s5, ?_, ?_⟩
  · rw [h1, ok_bind, h2, ok_bind, h3, ok_bind, h4, ok_bind, h5, ok_bind]
  · simpa only [List.append_assoc, List.cons_append, List.nil_append] using hlays5

/-- The encoder has laid down the fields of `sequences`, in states from which the tables go on. -/
def Stands (tables : SequenceCTables) (ll of ml : Nat → Prop) (cap k : Nat) (sequences : List EncodedSequence)
    (e : SequenceEncoder) : Prop :=
  ∃ states fs, sequenceFields tables sequences = .ok (states, fs) ∧
    e.stateMatchLengths = states.matchLength ∧ e.stateOffsets = states.offset ∧
    e.stateLiteralLengths = states.literalLength ∧
    (ll states.literalLength ∧ of states.offset ∧ ml states.matchLength) ∧ e.stream.Lays cap fs k ∧
    width fs + tables.stateBits ≤ sequences.length * tables.stateBits + payloadBits sequences

theorem Stands.mono {tables : SequenceCTables} {ll of ml : Nat → Prop} {k' : Nat} {sequences : List EncodedSequence}
    (h : Stands tables ll of ml cap k sequences e) (hk : k ≤ k') : Stands tables ll of ml cap k' sequences e := by
  obtain ⟨states, fs, hfields, hml, hof, hll, hlive, hlays, hwidth⟩ := h
  exact ⟨states, fs, hfields, hml, hof, hll, hlive, hlays.mono hk, hwidth⟩

/-- Three tables that can encode some codes, from the states they reach. -/
structure Codable (tables : SequenceCTables) (ll of ml : Nat → Prop) (llCodes ofCodes mlCodes : Bytes) : Prop where
  literalLengths : tables.literalLengths.EncodesOver ll llCodes
  offsets : tables.offsets.EncodesOver of ofCodes
  matchLengths : tables.matchLengths.EncodesOver ml mlCodes

variable {ll of ml : Nat → Prop} {llCodes ofCodes mlCodes : Bytes} {done : List EncodedSequence}

/-- What one turn of either loop does to the encoder. -/
def StepOk (tables : SequenceCTables) (ll of ml : Nat → Prop) (cap k : Nat) (sequence : EncodedSequence)
    (step : SequenceEncoder → Result SequenceEncoder) : Prop :=
  ∀ (e : SequenceEncoder) (done : List EncodedSequence), done ≠ [] → Stands tables ll of ml cap k done e →
    (done.length + 1) * tables.stateBits + payloadBits (sequence :: done) + 64 < 8 * cap →
    ∃ e', step e = .ok e' ∧ Stands tables ll of ml cap k (sequence :: done) e'

/-- The fields of one more sequence in front. -/
theorem sequenceFields_cons (hne : done ≠ []) {states : SequenceStates}
    (hdone : sequenceFields tables done = .ok (states, fs)) {ofNbits mlNbits llNbits offset matchLength
      literalLength : Nat}
    (hof : encodeState tables.offsets states.offset sequence.ofCode.toNat = .ok (ofNbits, offset))
    (hml : encodeState tables.matchLengths states.matchLength sequence.mlCode.toNat = .ok (mlNbits, matchLength))
    (hll : encodeState tables.literalLengths states.literalLength sequence.llCode.toNat =
      .ok (llNbits, literalLength)) :
    sequenceFields tables (sequence :: done) = .ok ({ matchLength, offset, literalLength },
      fs ++ [(states.offset, ofNbits)] ++ [(states.matchLength, mlNbits)] ++ [(states.literalLength, llNbits)] ++
        sequence.extraFields) := by
  obtain ⟨next, rest, rfl⟩ := List.exists_cons_of_ne_nil hne
  rw [sequenceFields, hdone, ok_bind]
  · simp only [hof, hml, hll, ok_bind, List.append_assoc, List.cons_append, List.nil_append]
  · exact List.cons_ne_nil _ _

section
variable (hcodable : Codable tables ll of ml llCodes ofCodes mlCodes) (hfits : sequence.Fits)
  (hll : sequence.llCode ∈ llCodes) (hof : sequence.ofCode ∈ ofCodes) (hml : sequence.mlCode ∈ mlCodes)
include hcodable hfits hll hof hml

theorem unchecked_step : StepOk tables ll of ml cap 7 sequence (fun e => do
    let e ← e.encodeSymbolsUnchecked tables sequence.llCode sequence.ofCode sequence.mlCode
    e.addExtrasUnchecked SequenceStream.flushBitsFast sequence) := by
  rintro ⟨stream, _, _, _⟩ done hne ⟨states, fs, hdone, rfl, rfl, rfl, ⟨hllLive, hofLive, hmlLive⟩, hlays, hwidth⟩ hroom
  obtain ⟨ofNbits, offset, hofStep, hofLe, hofLive'⟩ := hcodable.offsets.step _ hof _ hofLive
  obtain ⟨mlNbits, matchLength, hmlStep, hmlLe, hmlLive'⟩ := hcodable.matchLengths.step _ hml _ hmlLive
  obtain ⟨llNbits, literalLength, hllStep, hllLe, hllLive'⟩ := hcodable.literalLengths.step _ hll _ hllLive
  have hofLog := hcodable.offsets.tableLog_le
  have hmlLog := hcodable.matchLengths.tableLog_le
  have hllLog := hcodable.literalLengths.tableLog_le
  unfold tablelogMax at hofLog hmlLog hllLog
  dsimp only at hlays
  obtain ⟨s1, h1, hlays1⟩ := hlays.addBits (v := states.offset) (n := ofNbits) (by omega) (by omega)
  obtain ⟨s2, h2, hlays2⟩ := hlays1.addBits (v := states.matchLength) (n := mlNbits) (by omega) (by omega)
  obtain ⟨s3, h3, hlays3⟩ := hlays2.addBits (v := states.literalLength) (n := llNbits) (by omega) (by omega)
  have hcost : payloadBits (sequence :: done) = width sequence.extraFields + payloadBits done := rfl
  have hstates : ofNbits + mlNbits + llNbits ≤ tables.stateBits := by unfold SequenceCTables.stateBits; omega
  have hsum : width (fs ++ [(states.offset, ofNbits)] ++ [(states.matchLength, mlNbits)] ++
      [(states.literalLength, llNbits)]) = width fs + (ofNbits + mlNbits + llNbits) := by
    simp only [width_append, width_cons, width_nil]
    omega
  rw [hcost, Nat.succ_mul] at hroom
  obtain ⟨s4, h4, hlays4⟩ := addExtrasUnchecked_ok (e := ⟨s3, matchLength, offset, literalLength⟩)
    (hlays3.mono (by omega)) hfits (by rw [hsum]; omega)
  refine ⟨⟨s4, matchLength, offset, literalLength⟩, ?_, _, _, sequenceFields_cons hne hdone hofStep hmlStep hllStep,
    rfl, rfl, rfl, ⟨hllLive', hofLive', hmlLive'⟩, hlays4, ?_⟩
  · unfold encodeSymbolsUnchecked SequenceStream.encodeSymbolUnchecked
    simp only [encodeStateUnchecked_eq hofStep, encodeStateUnchecked_eq hmlStep,
      encodeStateUnchecked_eq hllStep, h1, h2, h3, ok_bind, h4]
  · rw [width_append, hsum, List.length_cons, Nat.succ_mul, hcost]
    omega

theorem checked_step (longOffsets : Bool) : StepOk tables ll of ml cap 63 sequence (fun e => do
    let e ← e.encodeSymbols tables sequence.llCode sequence.ofCode sequence.mlCode
    e.addExtras longOffsets sequence) := by
  rintro ⟨stream, _, _, _⟩ done hne ⟨states, fs, hdone, rfl, rfl, rfl, ⟨hllLive, hofLive, hmlLive⟩, hlays, hwidth⟩ hroom
  obtain ⟨ofNbits, offset, hofStep, hofLe, hofLive'⟩ := hcodable.offsets.step _ hof _ hofLive
  obtain ⟨mlNbits, matchLength, hmlStep, hmlLe, hmlLive'⟩ := hcodable.matchLengths.step _ hml _ hmlLive
  obtain ⟨llNbits, literalLength, hllStep, hllLe, hllLive'⟩ := hcodable.literalLengths.step _ hll _ hllLive
  have hofLog := hcodable.offsets.tableLog_le
  have hmlLog := hcodable.matchLengths.tableLog_le
  have hllLog := hcodable.literalLengths.tableLog_le
  unfold tablelogMax at hofLog hmlLog hllLog
  dsimp only at hlays
  have hcost : payloadBits (sequence :: done) = width sequence.extraFields + payloadBits done := rfl
  have hstates : ofNbits + mlNbits + llNbits ≤ tables.stateBits := by unfold SequenceCTables.stateBits; omega
  rw [hcost, Nat.succ_mul] at hroom
  obtain ⟨t1, k1, g1, hlays1, hk1⟩ := hlays.ensureBitsCapacity (n := tables.offsets.tableLog) (by omega) (by omega)
    (by omega)
  obtain ⟨s1, h1, hlays1⟩ := hlays1.addBits (v := states.offset) (n := ofNbits) (by omega) (by omega)
  obtain ⟨t2, k2, g2, hlays2, hk2⟩ := hlays1.ensureBitsCapacity (n := tables.matchLengths.tableLog)
    (by omega) (by omega) (by simp only [width_append, width_cons, width_nil]; omega)
  obtain ⟨s2, h2, hlays2⟩ := hlays2.addBits (v := states.matchLength) (n := mlNbits) (by omega) (by omega)
  obtain ⟨t3, k3, g3, hlays3, hk3⟩ := hlays2.ensureBitsCapacity (n := tables.literalLengths.tableLog) (by omega)
    (by omega) (by simp only [width_append, width_cons, width_nil]; omega)
  obtain ⟨s3, h3, hlays3⟩ := hlays3.addBits (v := states.literalLength) (n := llNbits) (by omega) (by omega)
  have hsum : width (fs ++ [(states.offset, ofNbits)] ++ [(states.matchLength, mlNbits)] ++
      [(states.literalLength, llNbits)]) = width fs + (ofNbits + mlNbits + llNbits) := by
    simp only [width_append, width_cons, width_nil]
    omega
  obtain ⟨s4, h4, hlays4⟩ := addExtras_ok (e := ⟨s3, matchLength, offset, literalLength⟩) hlays3 (by omega) hfits
    (by rw [hsum]; omega) longOffsets
  refine ⟨⟨s4, matchLength, offset, literalLength⟩, ?_, _, _, sequenceFields_cons hne hdone hofStep hmlStep hllStep,
    rfl, rfl, rfl, ⟨hllLive', hofLive', hmlLive'⟩, hlays4, ?_⟩
  · unfold encodeSymbols SequenceStream.encodeSymbol
    simp only [hofStep, hmlStep, hllStep, g1, g2, g3, h1, h2, h3, ok_bind, h4]
  · rw [width_append, hsum, List.length_cons, Nat.succ_mul, hcost]
    omega

end

/-- The loop from the last sequence but one down to the first. -/
theorem steps_ok {step : SequenceEncoder → EncodedSequence → Result SequenceEncoder} {limit : Nat}
    (hlimit : limit + 64 < 8 * cap) : ∀ (rest done : List EncodedSequence) (e : SequenceEncoder),
    (∀ sequence ∈ rest, StepOk tables ll of ml cap k sequence (step · sequence)) → done ≠ [] →
    Stands tables ll of ml cap k done e →
    (rest.length + done.length) * tables.stateBits + (payloadBits rest + payloadBits done) ≤ limit →
    ∃ e', rest.foldlM step e = .ok e' ∧ Stands tables ll of ml cap k (rest.reverse ++ done) e'
  | [], done, e, _, _, h, _ => ⟨e, rfl, h⟩
  | sequence :: rest, done, e, hsteps, hne, h, hle => by
    have hcost : payloadBits (sequence :: rest) + payloadBits done =
        payloadBits rest + payloadBits (sequence :: done) := by
      unfold payloadBits
      simp only [List.map_cons, List.sum_cons]
      omega
    have hcount : (sequence :: rest).length + done.length = rest.length + (sequence :: done).length := by
      simp only [List.length_cons]
      omega
    rw [hcost, hcount] at hle
    have hmul : (done.length + 1) * tables.stateBits ≤ (rest.length + (sequence :: done).length) * tables.stateBits :=
      Nat.mul_le_mul_right _ (by rw [List.length_cons]; omega)
    obtain ⟨e1, h1, hstands⟩ := hsteps sequence List.mem_cons_self e done hne h (by omega)
    obtain ⟨e2, h2, hstands⟩ := steps_ok hlimit rest (sequence :: done) e1
      (fun s hs => hsteps s (List.mem_cons_of_mem _ hs)) (List.cons_ne_nil _ _) hstands hle
    refine ⟨e2, ?_, ?_⟩
    · rw [List.foldlM_cons]
      rw [show step e sequence = .ok e1 from h1, ok_bind, h2]
    · rwa [List.reverse_cons, List.append_assoc, List.singleton_append]

/-- The last sequence, from an empty stream. -/
theorem start_ok {last : EncodedSequence} (hcodable : Codable tables ll of ml llCodes ofCodes mlCodes)
    (hfits : last.Fits)
    (hll : last.llCode ∈ llCodes) (hof : last.ofCode ∈ ofCodes) (hml : last.mlCode ∈ mlCodes) {stream : SequenceStream}
    (hstream : stream.Lays cap [] 0) (hroom : tables.stateBits + payloadBits [last] + 64 < 8 * cap)
    (longOffsets : Bool) :
    ∃ e₁ e₂ e₃, initStates tables stream last.llCode last.ofCode last.mlCode = .ok e₁ ∧
      e₁.addExtras longOffsets last = .ok e₂ ∧ e₂.flushStream = .ok e₃ ∧ Stands tables ll of ml cap 7 [last] e₃ := by
  obtain ⟨matchLength, hmlInit, hmlLive⟩ := hcodable.matchLengths.init _ hml
  obtain ⟨offset, hofInit, hofLive⟩ := hcodable.offsets.init _ hof
  obtain ⟨literalLength, hllInit, hllLive⟩ := hcodable.literalLengths.init _ hll
  have hcost : payloadBits [last] = width last.extraFields := rfl
  rw [hcost] at hroom
  obtain ⟨s1, h1, hlays1⟩ := addExtras_ok (e := ⟨stream, matchLength, offset, literalLength⟩) hstream (by omega) hfits
    (by rw [width_nil]; omega) longOffsets
  obtain ⟨s2, h2, hlays2⟩ := hlays1.flushBits (by omega) (by rw [List.nil_append]; omega)
  refine ⟨_, _, ⟨s2, matchLength, offset, literalLength⟩, ?_, h1, ?_, { matchLength, offset, literalLength },
    last.extraFields, ?_, rfl, rfl, rfl, ⟨hllLive, hofLive, hmlLive⟩, hlays2, ?_⟩
  · unfold initStates
    rw [hmlInit, ok_bind, hofInit, ok_bind, hllInit, ok_bind]
  · unfold flushStream
    rw [h2, ok_bind]
  · rw [sequenceFields, hmlInit, ok_bind, hofInit, ok_bind, hllInit, ok_bind]
  · rw [hcost, List.length_singleton]
    omega

/-- The states above all fields, and the mark. -/
theorem finish_ok (hll : tables.literalLengths.tableLog ≤ 9) (hof : tables.offsets.tableLog ≤ 9)
    (hml : tables.matchLengths.tableLog ≤ 9) (h : Stands tables ll of ml cap 63 done e)
    (hroom : done.length * tables.stateBits + payloadBits done + 65 < 8 * cap) :
    ∃ fields out flushed, prescribedFields tables done = .ok fields ∧
      e.finish tables = .ok ((width fields + 8) / 8, out, flushed) ∧ out.length = cap ∧
      readLe (out.take ((width fields + 8) / 8)) = pack fields + 2 ^ width fields ∧
      width fields ≤ done.length * tables.stateBits + payloadBits done ∧ ∀ c ∈ flushed, c.Unclamped cap := by
  obtain ⟨stream, _, _, _⟩ := e
  obtain ⟨states, fs, hdone, rfl, rfl, rfl, -, hlays, hwidth⟩ := h
  dsimp only at hlays
  unfold SequenceCTables.stateBits at hwidth hroom ⊢
  obtain ⟨t1, k1, g1, hlays1, hk1⟩ := hlays.ensureBitsCapacity (n := tables.matchLengths.tableLog) (by omega) (by omega)
    (by omega)
  obtain ⟨s1, h1, hlays1⟩ := hlays1.flushCstate (v := states.matchLength) tables.matchLengths hml hk1 (by omega)
  obtain ⟨t2, k2, g2, hlays2, hk2⟩ := hlays1.ensureBitsCapacity (n := tables.offsets.tableLog) (by omega) (by omega)
    (by simp only [width_append, width_cons, width_nil]; omega)
  obtain ⟨s2, h2, hlays2⟩ := hlays2.flushCstate (v := states.offset) tables.offsets hof hk2
    (by simp only [width_append, width_cons, width_nil]; omega)
  obtain ⟨t3, k3, g3, hlays3, hk3⟩ := hlays2.ensureBitsCapacity (n := tables.literalLengths.tableLog) (by omega)
    (by omega) (by simp only [width_append, width_cons, width_nil]; omega)
  obtain ⟨s3, h3, hlays3⟩ := hlays3.flushCstate (v := states.literalLength) tables.literalLengths hll hk3
    (by simp only [width_append, width_cons, width_nil]; omega)
  simp only [List.append_assoc, List.cons_append, List.nil_append] at hlays3
  generalize hfields : fs ++ [(states.matchLength, tables.matchLengths.tableLog),
    (states.offset, tables.offsets.tableLog), (states.literalLength, tables.literalLengths.tableLog)] = fields at hlays3
  have htotal : width fields = width fs + tables.matchLengths.tableLog + tables.offsets.tableLog +
      tables.literalLengths.tableLog := by
    rw [← hfields]
    simp only [width_append, width_cons, width_nil]
    omega
  obtain ⟨out, flushed, hclose, hlength, hread, hflushed⟩ := hlays3.close (by omega)
  refine ⟨fields, out, flushed, ?_, ?_, hlength, hread, by omega, hflushed⟩
  · unfold prescribedFields
    rw [hdone, ok_bind]
    dsimp only
    rw [hfields]
  · unfold finish
    simp only [g1, g2, g3, h1, h2, h3, ok_bind, hclose]

end SequenceEncoder

/-! ## The prepared sequences -/

section
variable {tables : SequenceCTables} {ll of ml : Nat → Prop} {llCodes ofCodes mlCodes : Bytes}

/-- The bytes of a number that they hold. -/
theorem take_eq_writeLe {out : Bytes} {written value : Nat} (hle : written ≤ out.length)
    (hread : readLe (out.take written) = value) : out.take written = writeLe value written := by
  have hlength : (out.take written).length = written := List.length_take_of_le hle
  apply readLe_inj
  · rw [writeLe_length, hlength]
  · rw [readLe_writeLe_mod, ← hread, Nat.mod_eq_of_lt]
    have hlt := readLe_lt (out.take written)
    rwa [hlength] at hlt

theorem resized_length (dst : Bytes) (byteCapacity : Nat) : byteCapacity ≤ (resized dst byteCapacity).length := by
  unfold resized
  split
  · rw [List.length_append, List.length_replicate]
    omega
  · omega

/-- Whatever `longOffsets` says, the encoder of prepared sequences writes their fields. -/
theorem encodeSequenceBitstreamInto_ok (hcodable : SequenceEncoder.Codable tables ll of ml llCodes ofCodes mlCodes)
    {sequences : List EncodedSequence} (hne : sequences ≠ []) (hfits : ∀ s ∈ sequences, s.Fits)
    (hcodes : ∀ s ∈ sequences, s.llCode ∈ llCodes ∧ s.ofCode ∈ ofCodes ∧ s.mlCode ∈ mlCodes) (dst : Bytes) :
    ∃ fields, prescribedFields tables sequences = .ok fields ∧ ∀ longOffsets, ∃ flushed,
      encodeSequenceBitstreamInto dst sequences (payloadBits sequences) tables longOffsets =
        .ok (writeLe (pack fields + 2 ^ width fields) (width fields / 8 + 1), flushed) ∧
      ∀ c ∈ flushed, c.Unclamped
        (byteCapacityOf (sequenceBitstreamBoundBits sequences.length (payloadBits sequences) tables)) := by
  have hll := hcodable.literalLengths.tableLog_le
  have hof := hcodable.offsets.tableLog_le
  have hml := hcodable.matchLengths.tableLog_le
  have hsplit := List.dropLast_append_getLast hne
  generalize hlast : sequences.getLast hne = last at hsplit
  have hget : sequences.getLast? = some last := by rw [List.getLast?_eq_some_getLast hne, hlast]
  have hmem : last ∈ sequences := by rw [← hsplit]; simp
  have hcount : sequences.length = sequences.dropLast.length + 1 := by
    rw [← hsplit]; simp
  have hpayload : payloadBits sequences = payloadBits sequences.dropLast + payloadBits [last] := by
    conv_lhs => rw [← hsplit]
    unfold payloadBits
    rw [List.map_append, List.sum_append]
  have hbound : sequenceBitstreamBoundBits sequences.length (payloadBits sequences) tables =
      sequences.length * tables.stateBits + payloadBits sequences + 1 := by
    unfold sequenceBitstreamBoundBits SequenceCTables.stateBits
    dsimp only
    rw [hcount]
    split
    · rw [Nat.add_sub_cancel, Nat.succ_mul]
      omega
    · rw [show sequences.dropLast.length = 0 by omega]
      omega
  rw [hbound]
  unfold tablelogMax at hll hof hml
  generalize hcap : byteCapacityOf (sequences.length * tables.stateBits + payloadBits sequences + 1) = cap
  have hroom : sequences.length * tables.stateBits + payloadBits sequences + 65 < 8 * cap := by
    rw [← hcap]
    unfold byteCapacityOf containerBytes
    omega
  have hlength : ((resized dst cap).take cap).length = cap := List.length_take_of_le (resized_length dst cap)
  obtain ⟨bitC, hnew⟩ : ∃ bitC, BitCStream.new ((resized dst cap).take cap) = .ok bitC := by
    unfold BitCStream.new
    rw [hlength, if_neg (by unfold containerBytes; omega)]
    exact ⟨_, rfl⟩
  have hstream : SequenceStream.Lays cap ⟨bitC, []⟩ [] 0 := by
    have hholds := BitCStream.new_holds hnew
    unfold BitCStream.new at hnew
    split at hnew
    · cases hnew
    · cases hnew
      exact ⟨hholds, le_rfl, hlength, by rintro c (_ | _)⟩
  have hboth : ∀ longOffsets, ∃ fields flushed, prescribedFields tables sequences = .ok fields ∧
      encodeSequenceBitstreamInto dst sequences (payloadBits sequences) tables longOffsets =
        .ok (writeLe (pack fields + 2 ^ width fields) (width fields / 8 + 1), flushed) ∧
      ∀ c ∈ flushed, c.Unclamped cap := by
    intro longOffsets
    obtain ⟨hllLast, hofLast, hmlLast⟩ := hcodes last hmem
    obtain ⟨e₁, e₂, e₃, h₁, h₂, h₃, hstands⟩ := SequenceEncoder.start_ok hcodable (hfits last hmem) hllLast hofLast
      hmlLast hstream (by rw [hpayload, hcount, Nat.succ_mul] at hroom; omega) longOffsets
    -- both loops go through the same sequences and end up holding the same fields
    obtain ⟨e₄, h₄, hstands₄⟩ : ∃ e₄, (if longOffsets = false then
          sequences.dropLast.reverse.foldlM (fun e sequence => do
            let e ← e.encodeSymbolsUnchecked tables sequence.llCode sequence.ofCode sequence.mlCode
            e.addExtrasUnchecked SequenceStream.flushBitsFast sequence) e₃
        else
          sequences.dropLast.reverse.foldlM (fun e sequence => do
            let e ← e.encodeSymbols tables sequence.llCode sequence.ofCode sequence.mlCode
            e.addExtras longOffsets sequence) e₃) = .ok e₄ ∧
        SequenceEncoder.Stands tables ll of ml cap 63 sequences e₄ := by
      have hmem' : ∀ s ∈ sequences.dropLast.reverse, s ∈ sequences := fun s hs =>
        List.mem_of_mem_dropLast (List.mem_reverse.1 hs)
      have hle : (sequences.dropLast.reverse.length + [last].length) * tables.stateBits +
          (payloadBits sequences.dropLast.reverse + payloadBits [last]) ≤
            sequences.length * tables.stateBits + payloadBits sequences := by
        rw [List.length_reverse, hpayload, hcount, List.length_singleton]
        unfold payloadBits
        rw [List.map_reverse, List.sum_reverse]
      have hback : sequences.dropLast.reverse.reverse ++ [last] = sequences := by rw [List.reverse_reverse, hsplit]
      cases longOffsets with
      | false =>
        obtain ⟨e₄, h₄, hstands₄⟩ := SequenceEncoder.steps_ok (by omega) _ _ e₃ (fun s hs =>
          SequenceEncoder.unchecked_step hcodable (hfits s (hmem' s hs)) (hcodes s (hmem' s hs)).1
            (hcodes s (hmem' s hs)).2.1 (hcodes s (hmem' s hs)).2.2) (List.cons_ne_nil _ _) hstands hle
        rw [hback] at hstands₄
        exact ⟨e₄, h₄, hstands₄.mono (by omega)⟩
      | true =>
        obtain ⟨e₄, h₄, hstands₄⟩ := SequenceEncoder.steps_ok (by omega) _ _ e₃ (fun s hs =>
          SequenceEncoder.checked_step hcodable (hfits s (hmem' s hs)) (hcodes s (hmem' s hs)).1
            (hcodes s (hmem' s hs)).2.1 (hcodes s (hmem' s hs)).2.2 true) (List.cons_ne_nil _ _)
          (hstands.mono (by omega)) hle
        rw [hback] at hstands₄
        exact ⟨e₄, h₄, hstands₄⟩
    obtain ⟨fields, out, flushed, hfields, h₅, hout, hread, hwidth, hflushed⟩ :=
      SequenceEncoder.finish_ok hll hof hml hstands₄ hroom
    refine ⟨fields, flushed, hfields, ?_, hflushed⟩
    have hsize : (width fields + 8) / 8 = width fields / 8 + 1 := by omega
    have hbytes := take_eq_writeLe (by omega) hread
    unfold encodeSequenceBitstreamInto
    dsimp only
    rw [hbound, hcap, hnew, ok_bind, hget]
    simp only [ok_bind]
    rw [h₁, ok_bind, h₂, ok_bind, h₃, ok_bind, h₄, ok_bind, h₅, ok_bind]
    unfold truncated
    dsimp only
    rw [if_neg (by omega), List.take_append_of_le_length (by omega), hbytes, hsize]
  obtain ⟨fields, -, hfields, -⟩ := hboth false
  refine ⟨fields, hfields, fun longOffsets => ?_⟩
  obtain ⟨fields', flushed, hfields', hencode, hflushed⟩ := hboth longOffsets
  obtain rfl : fields = fields' := Except.ok.inj (hfields.symm.trans hfields')
  exact ⟨flushed, hencode, hflushed⟩

end

/-! ## The room is what the sequences take -/

theorem sum_occurrences (w : Nat → Nat) (n : Nat) : ∀ codes : Bytes, (∀ code ∈ codes, code.toNat < n) →
    ((List.range n).map fun s => occurrences codes s * w s).sum = (codes.map fun code => w code.toNat).sum
  | [], _ => by simp [occurrences_nil]
  | code :: codes, h => by
    have hone : ((List.range n).map fun s => if code.toNat = s then w s else 0).sum = w code.toNat := by
      have hlt := h code List.mem_cons_self
      have hfinset := Finset.sum_ite_eq (Finset.range n) code.toNat w
      rw [if_pos (Finset.mem_range.2 hlt)] at hfinset
      exact hfinset
    have hrest := sum_occurrences w n codes fun c hc => h c (List.mem_cons_of_mem _ hc)
    have hsplit : ∀ s, occurrences (code :: codes) s * w s =
        occurrences codes s * w s + if code.toNat = s then w s else 0 := by
      intro s
      rw [occurrences_cons, Nat.add_mul]
      split
      · rw [Nat.one_mul]
      · rw [Nat.zero_mul]
    simp only [hsplit, List.sum_map_add, hone, hrest, List.map_cons, List.sum_cons]
    omega

theorem weighted_eq {stats : SequenceCodeStats} {codes : Bytes} (h : stats.Counts codes) (hlen : codes.length < 2 ^ 32)
    {last : Nat} (hlast : last < 256) (hcodes : ∀ code ∈ codes, code.toNat ≤ last) (fieldWidth : Nat → Nat) :
    weighted stats last fieldWidth = .ok (codes.map fun code => fieldWidth code.toNat).sum := by
  have htally : ∀ w : Nat → Nat, (List.range (last + 1)).map (fun code => tally stats.counts code * w code) =
      (List.range (last + 1)).map fun code => occurrences codes code * w code := by
    intro w
    apply List.map_congr_left
    intro code hcode
    have := List.mem_range.1 hcode
    rw [h.count code (by omega)]
  have hwithin : ∀ code ∈ codes, code.toNat < last + 1 := fun code hcode => Nat.lt_succ_of_le (hcodes code hcode)
  have hall := htally fun _ => 1
  simp only [Nat.mul_one] at hall
  have htotal := sum_occurrences (fun _ => 1) (last + 1) codes hwithin
  simp only [Nat.mul_one, List.map_const', List.sum_replicate, smul_eq_mul] at htotal
  unfold weighted
  dsimp only
  rw [htally, sum_occurrences _ _ _ hwithin,
    show (fun code => tally stats.counts code) = tally stats.counts from rfl] at *
  rw [hall, htotal, if_pos ⟨hlen, h.total.symm⟩]

/-- The largest symbol is one of the codes. -/
theorem SequenceCodeStats.Counts.maxSymbol_le {stats : SequenceCodeStats} {codes : Bytes} (h : stats.Counts codes)
    (hne : codes ≠ []) {bound : Nat} (hcodes : ∀ code ∈ codes, code.toNat ≤ bound) : stats.maxSymbol ≤ bound := by
  obtain ⟨code, hcode, heq⟩ := occurrences_pos_iff.1 (h.occurs hne)
  rw [← heq]
  exact hcodes code hcode

theorem SequenceCodeStats.Counts.le_maxSymbol {stats : SequenceCodeStats} {codes : Bytes} (h : stats.Counts codes) :
    ∀ code ∈ codes, code.toNat ≤ stats.maxSymbol := by
  intro code hcode
  by_contra hlt
  have hzero := h.above code.toNat (not_le.1 hlt)
  have hpos : 0 < occurrences codes code.toNat := occurrences_pos_iff.2 ⟨code, hcode, rfl⟩
  omega

/-! ## Commands, prepared -/

/-- A literal length is its baseline and a number of its extra bits. -/
theorem literalLengthCode_spec {literalLength : Nat} (h : literalLength ≤ 0x1FFFF) :
    literalLengthCode literalLength = .ok (literalLengthCodeUnchecked literalLength) ∧
      literalLengthBaselines.getD (literalLengthCodeUnchecked literalLength) 0 ≤ literalLength ∧
      literalLength < literalLengthBaselines.getD (literalLengthCodeUnchecked literalLength) 0 +
        2 ^ literalLengthExtraBits.getD (literalLengthCodeUnchecked literalLength) 0 := by
  unfold literalLengthCode literalLengthCodeUnchecked
  split
  · rename_i hsmall
    refine ⟨indexed_getD (Nat.lt_succ_of_le hsmall), ?_⟩
    have htable : ∀ n ≤ 63, literalLengthBaselines.getD (literalLengthCodeTable.getD n 0) 0 ≤ n ∧
        n < literalLengthBaselines.getD (literalLengthCodeTable.getD n 0) 0 +
          2 ^ literalLengthExtraBits.getD (literalLengthCodeTable.getD n 0) 0 := by decide +kernel
    exact htable literalLength hsmall
  · rename_i hlarge
    refine ⟨rfl, ?_⟩
    have hlow : 6 ≤ Nat.log2 literalLength := (Nat.le_log2 (by omega)).2 (by omega)
    have hhigh : Nat.log2 literalLength < 17 := (Nat.log2_lt (by omega)).2 (by omega)
    have hself := Nat.log2_self_le (show literalLength ≠ 0 by omega)
    have hlt := Nat.lt_log2_self (n := literalLength)
    have htable : ∀ k < 17, 6 ≤ k → literalLengthBaselines.getD (k + 19) 0 = 2 ^ k ∧
        literalLengthExtraBits.getD (k + 19) 0 = k := by decide
    obtain ⟨hbase, hextra⟩ := htable _ hhigh hlow
    unfold highbit32
    rw [hbase, hextra]
    rw [pow_succ] at hlt
    omega

set_option maxRecDepth 2000 in
theorem matchLengthCode_spec {matchLength : Nat} (h3 : 3 ≤ matchLength) (h : matchLength ≤ 0x1FFFF + 3) :
    matchLengthCode matchLength = .ok (matchLengthCodeUnchecked matchLength) ∧
      matchLengthBaselines.getD (matchLengthCodeUnchecked matchLength) 0 ≤ matchLength ∧
      matchLength < matchLengthBaselines.getD (matchLengthCodeUnchecked matchLength) 0 +
        2 ^ matchLengthExtraBits.getD (matchLengthCodeUnchecked matchLength) 0 := by
  unfold matchLengthCode matchLengthCodeUnchecked
  rw [if_neg (by omega)]
  dsimp only
  split
  · rename_i hsmall
    refine ⟨indexed_getD (Nat.lt_succ_of_le hsmall), ?_⟩
    have htable : ∀ n ≤ 127, matchLengthBaselines.getD (matchLengthCodeTable.getD n 0) 0 ≤ n + 3 ∧
        n + 3 < matchLengthBaselines.getD (matchLengthCodeTable.getD n 0) 0 +
          2 ^ matchLengthExtraBits.getD (matchLengthCodeTable.getD n 0) 0 := by decide +kernel
    have hentry := htable (matchLength - 3) hsmall
    rwa [Nat.sub_add_cancel h3] at hentry
  · rename_i hlarge
    rw [if_pos (by omega)]
    refine ⟨rfl, ?_⟩
    have hlow : 7 ≤ Nat.log2 (matchLength - 3) := (Nat.le_log2 (by omega)).2 (by omega)
    have hhigh : Nat.log2 (matchLength - 3) < 17 := (Nat.log2_lt (by omega)).2 (by omega)
    have hself := Nat.log2_self_le (show matchLength - 3 ≠ 0 by omega)
    have hlt := Nat.lt_log2_self (n := matchLength - 3)
    have htable : ∀ k < 17, 7 ≤ k → matchLengthBaselines.getD (k + 36) 0 = 2 ^ k + 3 ∧
        matchLengthExtraBits.getD (k + 36) 0 = k := by decide
    obtain ⟨hbase, hextra⟩ := htable _ hhigh hlow
    unfold highbit32
    rw [hbase, hextra]
    rw [pow_succ] at hlt
    omega

/-- The codes of a command in range, and what it is above their baselines. -/
def SequenceCommand.prepared (sequence : SequenceCommand) : EncodedSequence where
  llCode := SequencePart.literalLength.code sequence
  llExtra := sequence.literalLength - literalLengthBaselines.getD (literalLengthCodeUnchecked sequence.literalLength) 0
  ofCode := SequencePart.offset.code sequence
  ofExtra := sequence.offsetValue - 2 ^ offsetCodeUnchecked sequence.offsetValue
  mlCode := SequencePart.matchLength.code sequence
  mlExtra := sequence.matchLength - matchLengthBaselines.getD (matchLengthCodeUnchecked sequence.matchLength) 0

theorem toNat_ofNat_small {n : Nat} (h : n < 256) : (UInt8.ofNat n).toNat = n := Nat.mod_eq_of_lt h

theorem SequenceCommand.prepared_fits {sequence : SequenceCommand} (h : sequence.InRange) : sequence.prepared.Fits := by
  obtain ⟨-, hllBase, hllExtra⟩ := literalLengthCode_spec h.literalLength_le
  obtain ⟨-, hmlBase, hmlExtra⟩ := matchLengthCode_spec h.le_matchLength h.matchLength_le
  have hllLe := literalLengthCode_le h.literalLength_le
  have hmlLe := matchLengthCode_le h.matchLength_le
  have hofLt : offsetCodeUnchecked sequence.offsetValue < 32 :=
    (Nat.log2_lt h.offsetValue_pos.ne').2 h.offsetValue_lt
  have hlt : sequence.offsetValue < 2 ^ (offsetCodeUnchecked sequence.offsetValue + 1) := Nat.lt_log2_self
  rw [pow_succ] at hlt
  have hll := toNat_ofNat_small (show literalLengthCodeUnchecked sequence.literalLength < 256 by omega)
  have hof := toNat_ofNat_small (show offsetCodeUnchecked sequence.offsetValue < 256 by omega)
  have hml := toNat_ofNat_small (show matchLengthCodeUnchecked sequence.matchLength < 256 by omega)
  unfold SequenceCommand.prepared SequencePart.code
  constructor
  · exact hll.trans_le hllLe
  · exact hof.trans_lt hofLt
  · exact hml.trans_le hmlLe
  · dsimp only
    rw [hll]
    omega
  · dsimp only
    rw [hof]
    omega
  · dsimp only
    rw [hml]
    omega

theorem SequenceCommand.extras_prepared {sequence : SequenceCommand} (h : sequence.InRange) :
    sequence.extras sequence.prepared.llCode sequence.prepared.ofCode sequence.prepared.mlCode =
      .ok sequence.prepared := by
  obtain ⟨-, hllBase, -⟩ := literalLengthCode_spec h.literalLength_le
  obtain ⟨-, hmlBase, -⟩ := matchLengthCode_spec h.le_matchLength h.matchLength_le
  have hllLe := literalLengthCode_le h.literalLength_le
  have hmlLe := matchLengthCode_le h.matchLength_le
  have hofLt : offsetCodeUnchecked sequence.offsetValue < 32 :=
    (Nat.log2_lt h.offsetValue_pos.ne').2 h.offsetValue_lt
  have hself : 2 ^ offsetCodeUnchecked sequence.offsetValue ≤ sequence.offsetValue :=
    Nat.log2_self_le h.offsetValue_pos.ne'
  unfold SequenceCommand.extras SequenceCommand.prepared SequencePart.code
  dsimp only
  rw [toNat_ofNat_small (by omega), toNat_ofNat_small (by omega), toNat_ofNat_small (by omega),
    indexed_getD (Nat.lt_succ_of_le hllLe), indexed_getD (Nat.lt_succ_of_le hmlLe)]
  unfold checkedSub
  rw [ok_bind, if_pos hllBase, ok_bind, if_pos hofLt, Nat.one_shiftLeft, if_pos hself, ok_bind, ok_bind,
    if_pos hmlBase, ok_bind]

theorem encodeSequenceCommand_ok {sequence : SequenceCommand} (h : sequence.InRange) :
    encodeSequenceCommand sequence = .ok sequence.prepared := by
  have hof : offsetCode sequence.offsetValue = .ok (offsetCodeUnchecked sequence.offsetValue) :=
    if_neg h.offsetValue_pos.ne'
  unfold encodeSequenceCommand
  rw [(literalLengthCode_spec h.literalLength_le).1, ok_bind,
    (matchLengthCode_spec h.le_matchLength h.matchLength_le).1, ok_bind, hof, ok_bind]
  exact SequenceCommand.extras_prepared h

theorem encodeSequenceCommands_ok : ∀ {sequences : List SequenceCommand}, (∀ s ∈ sequences, s.InRange) →
    sequences.mapM encodeSequenceCommand = .ok (sequences.map SequenceCommand.prepared)
  | [], _ => rfl
  | sequence :: sequences, h => by
    rw [List.mapM_cons, encodeSequenceCommand_ok (h sequence List.mem_cons_self), ok_bind,
      encodeSequenceCommands_ok fun s hs => h s (List.mem_cons_of_mem _ hs)]
    rfl

/-! ## The commands, straight -/

section
variable {sequences : List SequenceCommand} {llCodes ofCodes mlCodes : Bytes}

/-- The commands and their codes at an index are those of the prepared sequence there. -/
theorem codedAt_ok (hcodes : populateCodes sequences = (llCodes, ofCodes, mlCodes)) {i : Nat}
    (hi : i < sequences.length) : ∃ sequence encoded, sequences[i]? = some sequence ∧
      (sequences.map SequenceCommand.prepared)[i]? = some encoded ∧ encoded = sequence.prepared ∧
      codedAt sequences llCodes ofCodes mlCodes i =
        .ok ⟨sequence, encoded.llCode, encoded.ofCode, encoded.mlCode⟩ := by
  unfold populateCodes at hcodes
  cases hcodes
  refine ⟨sequences[i], sequences[i].prepared, List.getElem?_eq_getElem hi, ?_, rfl, ?_⟩
  · rw [List.getElem?_map, List.getElem?_eq_getElem hi]
    rfl
  · unfold codedAt
    simp only [List.getElem?_map, List.getElem?_eq_getElem hi, Option.map_some]
    rfl

/-- A loop that fetches from the last index down goes through the list backwards. -/
theorem foldlM_range_reverse {α β : Type} {f : β → Nat → Result β} {g : β → α → Result β} {l : List α}
    (h : ∀ i a, l[i]? = some a → ∀ b, f b i = g b a) (b : β) :
    (List.range l.length).reverse.foldlM f b = l.reverse.foldlM g b := by
  induction l using List.reverseRecOn generalizing b with
  | nil => rfl
  | append_singleton l a ih =>
    have hlast := h l.length a (by rw [List.getElem?_append_right le_rfl, Nat.sub_self]; rfl)
    have hinit : ∀ i x, l[i]? = some x → ∀ b, f b i = g b x := fun i x hi =>
      h i x (by rw [List.getElem?_append_left (List.getElem?_eq_some_iff.1 hi).1]; exact hi)
    rw [List.length_append, List.length_singleton, List.range_succ, List.reverse_append, List.reverse_append,
      List.reverse_singleton, List.reverse_singleton, List.singleton_append, List.singleton_append, List.foldlM_cons,
      List.foldlM_cons, hlast]
    cases g b a with
    | error e => rfl
    | ok b' => exact ih hinit b'

/-- Straight from the commands, the same steps are taken as with prepared sequences. -/
theorem encodeSequenceBitstreamDirectInto_eq (hne : sequences ≠ []) (hsequences : ∀ s ∈ sequences, s.InRange)
    (hcodes : populateCodes sequences = (llCodes, ofCodes, mlCodes)) (dst : Bytes) (extraBits : Nat)
    (tables : SequenceCTables) (longOffsets : Bool) :
    encodeSequenceBitstreamDirectInto dst sequences llCodes ofCodes mlCodes extraBits tables longOffsets =
      encodeSequenceBitstreamInto dst (sequences.map SequenceCommand.prepared) extraBits tables longOffsets := by
  have hpos := List.length_pos_iff.2 hne
  unfold encodeSequenceBitstreamDirectInto encodeSequenceBitstreamInto
  dsimp only
  rw [List.length_map]
  cases BitCStream.new _ with
  | error e => rfl
  | ok bitC =>
    have hn : checkedSub sequences.length 1 = .ok (sequences.length - 1) := if_pos hpos
    obtain ⟨last, encoded, hlast, hencoded, rfl, hcoded⟩ := codedAt_ok hcodes (show sequences.length - 1 < _ by omega)
    have hget : (sequences.map SequenceCommand.prepared).getLast? = some last.prepared := by
      rw [List.getLast?_eq_getElem?, List.length_map]
      exact hencoded
    have hextras := SequenceCommand.extras_prepared (hsequences last (List.mem_of_getElem? hlast))
    rw [hn, hget]
    simp only [ok_bind, hcoded, hextras]
    have hlength : sequences.length - 1 = (sequences.map SequenceCommand.prepared).dropLast.length := by
      rw [List.length_dropLast, List.length_map]
    -- what is fetched at an index is the prepared sequence there
    have hfetch : ∀ i encoded, (sequences.map SequenceCommand.prepared).dropLast[i]? = some encoded →
        ∃ sequence, codedAt sequences llCodes ofCodes mlCodes i =
            .ok ⟨sequence, encoded.llCode, encoded.ofCode, encoded.mlCode⟩ ∧
          sequence.extras encoded.llCode encoded.ofCode encoded.mlCode = .ok encoded := by
      intro i encoded hi
      have hlt := (List.getElem?_eq_some_iff.1 hi).1
      rw [← hlength] at hlt
      obtain ⟨sequence, encoded', hsequence, hencoded', rfl, hcoded⟩ := codedAt_ok hcodes (show i < _ by omega)
      rw [List.getElem?_dropLast, if_pos (by rw [List.length_map]; exact hlt), hencoded'] at hi
      cases hi
      exact ⟨sequence, hcoded, SequenceCommand.extras_prepared (hsequences sequence (List.mem_of_getElem? hsequence))⟩
    have hunchecked : ∀ e : SequenceEncoder, (List.range (sequences.length - 1)).reverse.foldlM (fun e i => do
          let seq ← codedAt sequences llCodes ofCodes mlCodes i
          let e ← e.encodeSymbolsUnchecked tables seq.llCode seq.ofCode seq.mlCode
          e.addExtrasUnchecked SequenceStream.flushBitsUnchecked
            (← seq.command.extras seq.llCode seq.ofCode seq.mlCode)) e =
        (sequences.map SequenceCommand.prepared).dropLast.reverse.foldlM (fun e sequence => do
          let e ← e.encodeSymbolsUnchecked tables sequence.llCode sequence.ofCode sequence.mlCode
          e.addExtrasUnchecked SequenceStream.flushBitsFast sequence) e := by
      rw [hlength]
      apply foldlM_range_reverse
      intro i encoded hi e
      obtain ⟨sequence, hcoded, hextras⟩ := hfetch i encoded hi
      simp only [hcoded, ok_bind, hextras]
      rfl
    have hchecked : ∀ e : SequenceEncoder, (List.range (sequences.length - 1)).reverse.foldlM (fun e i => do
          let seq ← codedAt sequences llCodes ofCodes mlCodes i
          let e ← e.encodeSymbols tables seq.llCode seq.ofCode seq.mlCode
          e.addExtras longOffsets (← seq.command.extras seq.llCode seq.ofCode seq.mlCode)) e =
        (sequences.map SequenceCommand.prepared).dropLast.reverse.foldlM (fun e sequence => do
          let e ← e.encodeSymbols tables sequence.llCode sequence.ofCode sequence.mlCode
          e.addExtras longOffsets sequence) e := by
      rw [hlength]
      apply foldlM_range_reverse
      intro i encoded hi e
      obtain ⟨sequence, hcoded, hextras⟩ := hfetch i encoded hi
      simp only [hcoded, ok_bind, hextras]
    simp only [hunchecked, hchecked]

end

/-! ## The tables of the encoder -/

/-- A table that is dual to decode entries encodes the symbols that have a share of the slots. -/
theorem Fse.Dual.encodes {tableLog : Nat} {states : Nat → Prop} {share : Nat → Nat} {ct : CTable}
    {entries : List DecodeEntry} (h : Dual tableLog states share ct entries) (hlog : tableLog ≤ tablelogMax)
    {codes : Bytes} (hcodes : ∀ code ∈ codes, share code.toNat ≠ 0) : ct.Encodes codes := by
  refine ⟨states, ?_, ?_, ?_⟩
  · rw [h.tableLog_eq]
    exact hlog
  · intro code hcode
    obtain ⟨first, _, _, hinit, hlive, -⟩ := h.init (hcodes code hcode)
    exact ⟨first, hinit, hlive⟩
  · intro code hcode state hstate
    obtain ⟨nbBits, next, _, hstep, hle, hlive, -⟩ := h.step (hcodes code hcode) hstate
    exact ⟨nbBits, next, hstep, by rw [h.tableLog_eq]; exact hle, hlive⟩

/-- Every table built from a normalized distribution encodes the symbols that occur in it. -/
theorem buildCtable_encodes {normalizedCounter : List Int} {maxSymbolValue tableLog : Nat}
    (hn : Normalized normalizedCounter maxSymbolValue tableLog) (hlog : 4 ≤ tableLog) (hle : tableLog ≤ tablelogMax)
    (hmax : maxSymbolValue ≤ symbolvalueMax) {codes : Bytes}
    (hcodes : ∀ code ∈ codes, shareOf normalizedCounter maxSymbolValue code.toNat ≠ 0) :
    ∃ ct, buildCtable normalizedCounter maxSymbolValue tableLog = .ok ct ∧ ct.Encodes codes := by
  obtain ⟨ct, entries, hct, -, hdual⟩ := buildTables_dual hn hlog hle hmax
  exact ⟨ct, hct, hdual.encodes hle hcodes⟩

/-- `build_rle_ctable`: one symbol, of no bits. -/
def buildRleCtable (symbol : UInt8) : CTable where
  tableLog := 0
  maxSymbolValue := symbol.toNat
  stateTable := List.replicate tablesizeMax 0
  symbolTt := List.replicate (symbolvalueMax + 1) default

/-- The room that the histograms ask for is the raw bits of the sequences. -/
theorem extraBitsFromCodeCounts_ok {sequences : List SequenceCommand} (hne : sequences ≠ [])
    (hsequences : ∀ s ∈ sequences, s.InRange) (hlen : sequences.length < 2 ^ 32) {llCodes ofCodes mlCodes : Bytes}
    (hcodes : populateCodes sequences = (llCodes, ofCodes, mlCodes)) :
    extraBitsFromCodeCounts (analyzeAllCodes llCodes ofCodes mlCodes).1 (analyzeAllCodes llCodes ofCodes mlCodes).2.1
      (analyzeAllCodes llCodes ofCodes mlCodes).2.2 = .ok (payloadBits (sequences.map SequenceCommand.prepared)) := by
  unfold populateCodes at hcodes
  cases hcodes
  -- every part's largest symbol bounds its codes, and its own alphabet
  have hpart : ∀ part : SequencePart, (analyzePart part (sequences.map part.code)).maxSymbol ≤ part.maxSymbolValue ∧
      ∀ fieldWidth, weighted (analyzePart part (sequences.map part.code))
        (analyzePart part (sequences.map part.code)).maxSymbol fieldWidth =
          .ok (sequences.map fun s => fieldWidth (part.code s).toNat).sum := by
    intro part
    have hcodes : ∀ code ∈ sequences.map part.code, code.toNat ≤ part.maxSymbolValue := by
      intro code hcode
      obtain ⟨sequence, hsequence, rfl⟩ := List.mem_map.1 hcode
      exact part.code_le (hsequences sequence hsequence)
    have hcounts := analyzePart_counts part (by rwa [List.length_map]) hcodes
    have hmax := hcounts.maxSymbol_le (by simpa using hne) hcodes
    have halphabet : part.maxSymbolValue < 256 := by cases part <;> decide
    refine ⟨hmax, fun fieldWidth => ?_⟩
    rw [weighted_eq hcounts (by rwa [List.length_map]) (by omega) hcounts.le_maxSymbol, List.map_map]
    rfl
  obtain ⟨hll, hllSum⟩ := hpart .literalLength
  obtain ⟨hof, hofSum⟩ := hpart .offset
  obtain ⟨hml, hmlSum⟩ := hpart .matchLength
  unfold extraBitsFromCodeCounts analyzeAllCodes
  dsimp only
  rw [Nat.min_eq_left (show _ ≤ literalLengthExtraBits.length - 1 from hll),
    Nat.min_eq_left (show _ ≤ matchLengthExtraBits.length - 1 from hml), hllSum, ok_bind, hmlSum, ok_bind,
      hofSum, ok_bind]
  congr 1
  unfold payloadBits
  rw [List.map_map, ← List.sum_map_add, ← List.sum_map_add]
  congr 1
  apply List.map_congr_left
  intro sequence _
  simp only [Function.comp_apply, EncodedSequence.extraFields, width_cons, width_nil, SequenceCommand.prepared, id_eq]
  omega

/-! ## The encoders agree -/

/-- Of commands with their codes, in tables that can encode those, every encoder writes the same bytes: the fields that
the format prescribes, and the mark. The room that the histograms of the codes ask for is enough: no flush is clamped
or leaves the buffer, and none finds more than the container pending. -/
theorem sequence_encoders_agree {sequences : List SequenceCommand} (hne : sequences ≠ [])
    (hsequences : ∀ s ∈ sequences, s.InRange) (hlen : sequences.length < 2 ^ 32) {llCodes ofCodes mlCodes : Bytes}
    (hcodes : populateCodes sequences = (llCodes, ofCodes, mlCodes)) {tables : SequenceCTables}
    (hll : tables.literalLengths.Encodes llCodes) (hof : tables.offsets.Encodes ofCodes)
    (hml : tables.matchLengths.Encodes mlCodes) (dst : Bytes) :
    ∃ encoded fields extraBits, sequences.mapM encodeSequenceCommand = .ok encoded ∧
      prescribedFields tables encoded = .ok fields ∧
      extraBitsFromCodeCounts (analyzeAllCodes llCodes ofCodes mlCodes).1 (analyzeAllCodes llCodes ofCodes mlCodes).2.1
        (analyzeAllCodes llCodes ofCodes mlCodes).2.2 = .ok extraBits ∧
      ∀ longOffsets, ∃ flushed,
        encodeSequenceBitstreamInto dst encoded extraBits tables longOffsets =
          .ok (writeLe (pack fields + 2 ^ width fields) (width fields / 8 + 1), flushed) ∧
        encodeSequenceBitstreamDirectInto dst sequences llCodes ofCodes mlCodes extraBits tables longOffsets =
          .ok (writeLe (pack fields + 2 ^ width fields) (width fields / 8 + 1), flushed) ∧
        ∀ c ∈ flushed, c.Unclamped
          (byteCapacityOf (sequenceBitstreamBoundBits sequences.length extraBits tables)) := by
  obtain ⟨ll, hll⟩ := hll
  obtain ⟨of, hof⟩ := hof
  obtain ⟨ml, hml⟩ := hml
  have hfits : ∀ s ∈ sequences.map SequenceCommand.prepared, s.Fits := by
    intro s hs
    obtain ⟨sequence, hsequence, rfl⟩ := List.mem_map.1 hs
    exact SequenceCommand.prepared_fits (hsequences sequence hsequence)
  have hmem : ∀ s ∈ sequences.map SequenceCommand.prepared, s.llCode ∈ llCodes ∧ s.ofCode ∈ ofCodes ∧
      s.mlCode ∈ mlCodes := by
    intro s hs
    obtain ⟨sequence, hsequence, rfl⟩ := List.mem_map.1 hs
    unfold populateCodes at hcodes
    cases hcodes
    exact ⟨List.mem_map_of_mem hsequence, List.mem_map_of_mem hsequence, List.mem_map_of_mem hsequence⟩
  have hcodable : SequenceEncoder.Codable tables ll of ml llCodes ofCodes mlCodes := ⟨hll, hof, hml⟩
  have hprepared : sequences.map SequenceCommand.prepared ≠ [] := by simpa using hne
  obtain ⟨fields, hfields, hencode⟩ := encodeSequenceBitstreamInto_ok hcodable hprepared hfits hmem dst
  rw [List.length_map] at hencode
  refine ⟨_, fields, payloadBits (sequences.map SequenceCommand.prepared),
    encodeSequenceCommands_ok hsequences, hfields, ?_, ?_⟩
  · exact extraBitsFromCodeCounts_ok hne hsequences hlen hcodes
  · intro longOffsets
    obtain ⟨flushed, hok, hflushed⟩ := hencode longOffsets
    refine ⟨flushed, hok, ?_, hflushed⟩
    rw [encodeSequenceBitstreamDirectInto_eq hne hsequences hcodes]
    exact hok

theorem sequence_encoders_agree_predefined : ∃ tables bytes extraBits, ∀ longOffsets, ∃ flushed,
    encodeSequenceBitstreamDirectInto [7] [⟨2, 4, 16⟩, ⟨70000, 5, 9⟩] [2, 35] [4, 3]
      [1, 2] extraBits tables longOffsets =
      .ok (bytes, flushed) := by
  have hne : ([⟨2, 4, 16⟩, ⟨70000, 5, 9⟩] : List SequenceCommand) ≠ [] := List.cons_ne_nil _ _
  have hsequences : ∀ s ∈ ([⟨2, 4, 16⟩, ⟨70000, 5, 9⟩] : List SequenceCommand), s.InRange := by
    rintro s (_ | ⟨_, _ | ⟨_, hs⟩⟩)
    · constructor <;> norm_num
    · constructor <;> norm_num
    · cases hs
  have hcodes : populateCodes [⟨2, 4, 16⟩, ⟨70000, 5, 9⟩] = ([2, 35], [4, 3], [1, 2]) := by decide +kernel
  have hllShare : ∀ code ∈ ([2, 35] : Bytes), shareOf literalLengthDefaultDistribution 35 code.toNat ≠ 0 := by
    simp [shareOf, literalLengthDefaultDistribution]
  have hofShare : ∀ code ∈ ([4, 3] : Bytes), shareOf offsetDefaultDistribution 28 code.toNat ≠ 0 := by
    simp [shareOf, offsetDefaultDistribution]
  have hmlShare : ∀ code ∈ ([1, 2] : Bytes), shareOf matchLengthDefaultDistribution 52 code.toNat ≠ 0 := by
    simp [shareOf, matchLengthDefaultDistribution]
  have hllNormalized : Normalized literalLengthDefaultDistribution 35 6 := ⟨by decide, by decide, by decide⟩
  have hofNormalized : Normalized offsetDefaultDistribution 28 5 := ⟨by decide, by decide, by decide⟩
  have hmlNormalized : Normalized matchLengthDefaultDistribution 52 6 := ⟨by decide, by decide, by decide⟩
  obtain ⟨literalLengths, -, hll⟩ := buildCtable_encodes hllNormalized (by decide) (by decide) (by decide) hllShare
  obtain ⟨offsets, -, hof⟩ := buildCtable_encodes hofNormalized (by decide) (by decide) (by decide) hofShare
  obtain ⟨matchLengths, -, hml⟩ := buildCtable_encodes hmlNormalized (by decide) (by decide) (by decide) hmlShare
  have htables : (⟨literalLengths, offsets, matchLengths⟩ : SequenceCTables).literalLengths.Encodes [2, 35] := hll
  obtain ⟨_, fields, extraBits, -, -, -, hencode⟩ :=
    sequence_encoders_agree hne hsequences (by norm_num) hcodes htables hof hml [7]
  refine ⟨⟨literalLengths, offsets, matchLengths⟩, writeLe (pack fields + 2 ^ width fields) (width fields / 8 + 1),
    extraBits, fun longOffsets => ?_⟩
  obtain ⟨flushed, -, hdirect, -⟩ := hencode longOffsets
  exact ⟨flushed, hdirect⟩

end Zstandard
