/-
Executing the sequences of one compressed block, twice.

The faithful executor writes through the raw memory of the destination: wide copies while the slack
lasts (`checked` says whether anything has to watch for it), the exact executor near the end of a
fixed destination. The specification executor appends to a list. Both run the same loop over the
sequence bitstream, so `runSequences` is written once over what they share, a `Sink`.

`decodeAndExecuteSequences_agrees` is the refinement: on a growable destination the two give the same
bytes, states and errors; on a fixed one the executor accepts exactly when the specification does
and the bytes fit.
-/
import Zstandard.Decode.Kernel

namespace Zstandard

/-! ## The loop -/

/-- Where a block's sequences are executed, and how. -/
structure Sink (σ : Type) where
  /-- The output position. -/
  len : σ → Nat
  /-- Copy a run of literals and then a match: the literal cursor, the literal length, the offset
  and the match length. -/
  place : σ → Nat → Nat → Nat → Nat → Result σ
  /-- The same, for the last sequence of the block. -/
  placeLast : σ → Nat → Nat → Nat → Nat → Result σ

/-- The locals of the sequence loop. -/
structure ExecState (σ : Type) where
  out : σ
  reps : DecoderRepeatOffsets
  ip : Nat
  budget : Nat

/-- What a block may still produce, and the literals it may use. -/
structure ExecBounds where
  literalsLen : Nat
  blockRemaining : Nat
  outputRemaining : Nat
  limit : OutputLimit

/-- The merged budget: the smaller of the two limits. -/
def ExecBounds.budget (b : ExecBounds) : Nat := min b.blockRemaining b.outputRemaining

/-- The `execute_sequence!` body: bounds, offset resolution, copies. -/
def executeSequence {σ : Type} (len : σ → Nat) (place : σ → Nat → Nat → Nat → Nat → Result σ) (b : ExecBounds)
    (s : ExecState σ) (seq : RawSequence) : Result (ExecState σ) := do
  let total := seq.literalLength + seq.matchLength
  let newIp := s.ip + seq.literalLength
  if total > s.budget ∨ newIp > b.literalsLen then
    if newIp > b.literalsLen then
      .error (.corruption "sequence literal length exceeds literals buffer")
    else
      .error (sequenceBudgetError total (b.blockRemaining - (b.budget - s.budget)) (len s.out) b.limit)
  else
    let (offset, reps) := s.reps.resolveDecode seq.offsetValue seq.literalLength
    let out ← place s.out s.ip seq.literalLength offset seq.matchLength
    .ok { out, reps, ip := newIp, budget := s.budget - total }

/-- The main loop, over the sequences before the last: state updates, execution, reload. -/
def sequenceLoop {σ : Type} (sink : Sink σ) (b : ExecBounds) (tables : SequenceTablesState) :
    Nat → SequenceReader → ExecState σ → Result (SequenceReader × ExecState σ)
  | 0, r, s => .ok (r, s)
  | n + 1, r, s => do
    let (seq, r) := decodeSequence r
    let r ← updateStates tables r
    let s ← executeSequence sink.len sink.place b s seq
    let (status, bitD) := r.bitD.reload
    if status = .overflow then .error (.corruption "sequence bitstream overflow") else
    sequenceLoop sink b tables n { r with bitD } s

/-- `execute_block_sequences` up to the trailing literals. -/
def runSequences {σ : Type} (sink : Sink σ) (b : ExecBounds) (tables : SequenceTablesState)
    (section_ : ParsedSequenceSection) (out : σ) (reps : DecoderRepeatOffsets) : Result (ExecState σ) := do
  let r ← initSequenceReader section_.bitstream tables
  let (r, s) ← sequenceLoop sink b tables (section_.numberOfSequences - 1) r
    { out, reps, ip := 0, budget := b.budget }
  let (seq, r) := decodeSequence r
  let s ← executeSequence sink.len sink.placeLast b s seq
  let (status, bitD) := r.bitD.reload
  if status = .overflow ∨ ¬ bitD.endOfStream then
    .error (.corruption "sequence bitstream was not fully consumed")
  else .ok s

/-! ## The faithful executor -/

/-- What every sequence of a block reads besides the output. -/
structure ExecContext where
  frameStart : Nat
  windowSize : Nat
  dictionary : Option Bytes
  literals : DecodedLiterals

def offsetTooFar : Error := .corruption "sequence offset exceeds the available history window"

/-- `execute_dictionary_match`: a match that does not start in the output. -/
def executeDictionaryMatch (alloc : Allocator) (c : ExecContext) (r : Region) (offset matchLength : Nat) :
    Result Region :=
  if offset = DecoderRepeatOffsets.offsetSentinel then .error (.corruption "repeat offset 1 minus 1 is zero") else
  let producedInFrame := r.len - c.frameStart
  match c.dictionary with
  | some dict =>
    if producedInFrame > c.windowSize then .error offsetTooFar
    else if offset > dict.length + producedInFrame then .error offsetTooFar
    else appendMatchFromDictionaryHistory alloc r c.frameStart dict offset matchLength
  | none => .error offsetTooFar

/-- `execute_sequence_exact`. -/
def executeSequenceExact (alloc : Allocator) (c : ExecContext) (r : Region)
    (ip literalLength offset matchLength : Nat) :
    Result Region := do
  let r ← r.append alloc ((c.literals.padded.drop ip).take literalLength)
  if offset ≤ r.len - c.frameStart ∧ offset ≤ c.windowSize then
    appendMatchFromHistory alloc r (r.len - offset) matchLength
  else executeDictionaryMatch alloc c r offset matchLength

/-- The copies of one sequence: wide ones, unless the destination may run out of slack. -/
def placeSequence (alloc : Allocator) (c : ExecContext) (wildcopyEnd : Nat) (checked : Bool) (r : Region)
    (ip literalLength offset matchLength : Nat) : Result Region :=
  if ¬ checked ∨ r.len + (literalLength + matchLength) ≤ wildcopyEnd then
    let mem := copyLiterals r.mem r.len c.literals.padded ip literalLength
    let outPos := r.len + literalLength
    if offset ≤ outPos - c.frameStart ∧ offset ≤ c.windowSize then
      .ok { r with mem := copyMatchInline mem outPos (outPos - offset) matchLength, len := outPos + matchLength }
    else executeDictionaryMatch alloc c { r with mem, len := outPos } offset matchLength
  else executeSequenceExact alloc c r ip literalLength offset matchLength

def regionSink (alloc : Allocator) (c : ExecContext) (wildcopyEnd : Nat) (checked : Bool) : Sink Region :=
  { len := Region.len, place := placeSequence alloc c wildcopyEnd checked
    placeLast := placeSequence alloc c wildcopyEnd true }

/-- The outcome of a block: the output, and what the next block of the frame starts from. -/
structure BlockOutcome (σ : Type) where
  out : σ
  tables : SequenceTablesState
  reps : DecoderRepeatOffsets

/-- `decode_and_execute_sequences`. -/
def decodeAndExecuteSequences (alloc : Allocator) (section_ : ParsedSequenceSection) (tables : SequenceTablesState)
    (out : DecodeOut) (c : ExecContext) (blockSizeMax : Nat) (reps : DecoderRepeatOffsets) (limit : OutputLimit) :
    Result (BlockOutcome DecodeOut) := do
  if section_.numberOfSequences = 0 then
    let remaining ← limit.remaining out.len
    let out ← appendTrailingLiterals out c.literals.asSlice 0 blockSizeMax remaining limit
    .ok { out, tables, reps }
  else
    let tables ← setupTables tables
    let remaining ← limit.remaining out.len
    let region := out.region alloc (min remaining blockSizeMax + wildcopyOverlength)
    let wildcopyEnd := region.mem.length - wildcopyOverlength
    let checked := ¬ out.len + min blockSizeMax remaining ≤ wildcopyEnd
    let b : ExecBounds := { literalsLen := c.literals.len, blockRemaining := blockSizeMax
                            outputRemaining := remaining, limit }
    let s ← runSequences (regionSink alloc c wildcopyEnd checked) b tables section_ region reps
    let consumed := b.budget - s.budget
    let out ← appendTrailingLiterals s.out.toOut c.literals.asSlice s.ip (blockSizeMax - consumed)
      (remaining - consumed) limit
    .ok { out, tables, reps := s.reps }

/-! ## The specification executor -/

/-- A match that does not start in the output, on lists. -/
def dictionaryMatchSpec (c : ExecContext) (out : Bytes) (offset matchLength : Nat) : Result Bytes :=
  if offset = DecoderRepeatOffsets.offsetSentinel then .error (.corruption "repeat offset 1 minus 1 is zero") else
  let producedInFrame := out.length - c.frameStart
  match c.dictionary with
  | some dict =>
    if producedInFrame > c.windowSize then .error offsetTooFar
    else if offset > dict.length + producedInFrame then .error offsetTooFar
    else .ok (copyWithDictionary out c.frameStart dict offset matchLength)
  | none => .error offsetTooFar

/-- One sequence on lists: append the literals, then the match. -/
def placeSpec (c : ExecContext) (out : Bytes) (ip literalLength offset matchLength : Nat) : Result Bytes :=
  let out := out ++ (c.literals.asSlice.drop ip).take literalLength
  if offset ≤ out.length - c.frameStart ∧ offset ≤ c.windowSize then .ok (Lz.copy out offset matchLength)
  else dictionaryMatchSpec c out offset matchLength

def specSink (c : ExecContext) : Sink Bytes :=
  { len := List.length, place := placeSpec c, placeLast := placeSpec c }

/-- The trailing literals on lists. -/
def appendTrailingSpec (out : Bytes) (literals : Bytes) (literalCursor remainingBlockBytes remainingOutputBytes : Nat)
    (limit : OutputLimit) : Result Bytes :=
  if literalCursor > literals.length then
    .error (.corruption "sequence literal cursor exceeded literals buffer")
  else do
    let trailing := literals.drop literalCursor
    ensureDecodeOutputRoom out.length trailing.length remainingBlockBytes remainingOutputBytes limit
    .ok (out ++ trailing)

/-- What `decode_and_execute_sequences` is for, on lists. -/
def executeSequencesSpec (section_ : ParsedSequenceSection) (tables : SequenceTablesState) (out : Bytes)
    (c : ExecContext) (blockSizeMax : Nat) (reps : DecoderRepeatOffsets) (limit : OutputLimit) :
    Result (BlockOutcome Bytes) := do
  if section_.numberOfSequences = 0 then
    let remaining ← limit.remaining out.length
    let out ← appendTrailingSpec out c.literals.asSlice 0 blockSizeMax remaining limit
    .ok { out, tables, reps }
  else
    let tables ← setupTables tables
    let remaining ← limit.remaining out.length
    let b : ExecBounds := { literalsLen := c.literals.len, blockRemaining := blockSizeMax
                            outputRemaining := remaining, limit }
    let s ← runSequences (specSink c) b tables section_ out reps
    let consumed := b.budget - s.budget
    let out ← appendTrailingSpec s.out c.literals.asSlice s.ip (blockSizeMax - consumed)
      (remaining - consumed) limit
    .ok { out, tables, reps := s.reps }

end Zstandard
