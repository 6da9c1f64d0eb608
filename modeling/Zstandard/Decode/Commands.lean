/-
The command-list decoder, which the profiled block path runs instead of the fused loop: first every
sequence of a block is decoded into a list, then the list is executed.

It reads the plain decode tables, refills its container at other points than the fused loop, and
executes with plain appends.
-/
import Zstandard.Encode.Plan

namespace Zstandard

open Fse

/-! ## Decoding -/

/-- The three plain tables of a block. -/
structure CommandTables where
  literalLengths : DTable
  offsets : DTable
  matchLengths : DTable

/-- The plain tables, where a block left all three. -/
def SequenceTablesState.plain (tables : SequenceTablesState) : Result CommandTables :=
  match tables.literalLengths.dtable, tables.offsets.dtable, tables.matchLengths.dtable with
  | none, _, _ => .error SequencePart.literalLength.missingTable
  | _, none, _ => .error SequencePart.offset.missingTable
  | _, _, none => .error SequencePart.matchLength.missingTable
  | some literalLengths, some offsets, some matchLengths => .ok { literalLengths, offsets, matchLengths }

/-- The three states of the command-list decoder, with the entries they name. -/
structure CommandReader where
  bitD : BitDStream
  lit : DecodeEntry
  off : DecodeEntry
  ml : DecodeEntry

/-- `peek_entry_fast`. A state outside the table is an error here as in `entryAt`. -/
def plainEntryAt (t : DTable) (state : Nat) : Result DecodeEntry :=
  match t.entries[state]? with
  | some e => .ok e
  | none => .error .generic

def initCommandReader (bitstream : Bytes) (t : CommandTables) : Result CommandReader := do
  let bitD ← BitDStream.new bitstream
  let (ll, bitD) := initDstate bitD t.literalLengths.tableLog
  let (of, bitD) := initDstate bitD t.offsets.tableLog
  let (ml, bitD) := initDstate bitD t.matchLengths.tableLog
  let lit ← plainEntryAt t.literalLengths ll
  let off ← plainEntryAt t.offsets of
  let ml ← plainEntryAt t.matchLengths ml
  .ok { bitD, lit, off, ml }

/-- One sequence: the extra bits of offset, match and literals, with a reload only where the literal
bits would not fit. -/
def decodeCommand (r : CommandReader) : SequenceCommand × BitDStream :=
  let matchExtraBits := matchLengthExtraBits.getD r.ml.symbol 0
  let literalExtraBits := literalLengthExtraBits.getD r.lit.symbol 0
  let (offsetExtra, bitD) := r.bitD.readBitsFastZeroSafe r.off.symbol
  let (matchExtra, bitD) := bitD.readBitsFastZeroSafe matchExtraBits
  let bitD := if literalExtraBits ≠ 0 ∧ ¬ bitD.canReadFast literalExtraBits then bitD.reload.2 else bitD
  let (literalExtra, bitD) := bitD.readBitsFastZeroSafe literalExtraBits
  ({ literalLength := literalLengthBaselines.getD r.lit.symbol 0 + literalExtra
     matchLength := matchLengthBaselines.getD r.ml.symbol 0 + matchExtra
     offsetValue := 2 ^ r.off.symbol + offsetExtra }, bitD)

/-- `update_state_with_entry_fast` for the three states in turn. -/
def updateCommandStates (t : CommandTables) (r : CommandReader) : Result CommandReader := do
  let (litLow, bitD) := r.bitD.readBitsFastZeroSafe r.lit.nbBits
  let (mlLow, bitD) := bitD.readBitsFastZeroSafe r.ml.nbBits
  let (offLow, bitD) := bitD.readBitsFastZeroSafe r.off.nbBits
  let lit ← plainEntryAt t.literalLengths (r.lit.newState + litLow)
  let ml ← plainEntryAt t.matchLengths (r.ml.newState + mlLow)
  let off ← plainEntryAt t.offsets (r.off.newState + offLow)
  .ok { bitD, lit, off, ml }

/-- The sequences before the last. -/
def decodeCommandsLoop (t : CommandTables) : Nat → CommandReader → Result (List SequenceCommand × CommandReader)
  | 0, r => .ok ([], r)
  | n + 1, r => do
    let (seq, bitD) := decodeCommand r
    let r ← updateCommandStates t { r with bitD }
    let (status, bitD) := r.bitD.reload
    if status = .overflow then .error (.corruption "sequence bitstream overflow") else
    let (seqs, r) ← decodeCommandsLoop t n { r with bitD }
    .ok (seq :: seqs, r)

/-- `decode_sequence_commands_into_stats`: the sequences and the bytes their matches produce. -/
def decodeSequenceCommandsIntoStats (section_ : ParsedSequenceSection) (tables : SequenceTablesState) :
    Result (List SequenceCommand × Nat) := do
  if section_.numberOfSequences = 0 then .ok ([], 0) else
  let t ← tables.plain
  let r ← initCommandReader section_.bitstream t
  let (seqs, r) ← decodeCommandsLoop t (section_.numberOfSequences - 1) r
  let (seq, bitD) := decodeCommand r
  let (status, bitD) := bitD.reload
  if status = .overflow ∨ ¬ bitD.endOfStream then
    .error (.corruption "sequence bitstream was not fully consumed")
  else .ok (seqs ++ [seq], matchBytes (seqs ++ [seq]))

/-! ## Executing -/

/-- The match of a command: from the output, else from the dictionary if there is one. -/
def executeCommandMatch (alloc : Allocator) (c : ExecContext) (r : Region) (offset matchLength : Nat) :
    Result Region :=
  let producedInFrame := r.len - c.frameStart
  if offset ≤ min producedInFrame c.windowSize then appendMatchFromHistory alloc r (r.len - offset) matchLength
  else
    match c.dictionary with
    | none => .error offsetTooFar
    | some dictionary =>
      if producedInFrame > c.windowSize then .error offsetTooFar
      else if offset > dictionary.length + producedInFrame then .error offsetTooFar
      else appendMatchFromDictionaryHistory alloc r c.frameStart dictionary offset matchLength

/-- The loops of `execute_sequences_with_dictionary` and `execute_sequences_without_dictionary`: the
output, the repeat offsets and the literal cursor after the last command. -/
def executeCommands (alloc : Allocator) (c : ExecContext) :
    List SequenceCommand → Region → RepeatOffsets → Nat → Result (Region × RepeatOffsets × Nat)
  | [], r, reps, cursor => .ok (r, reps, cursor)
  | seq :: seqs, r, reps, cursor => do
    let (offset, reps) ← reps.resolveValues seq.literalLength seq.offsetValue
    let literalEnd := cursor + seq.literalLength
    if literalEnd > c.literals.asSlice.length then
      .error (.corruption "sequence literal length exceeds literals buffer")
    else
      let r ← r.append alloc ((c.literals.asSlice.drop cursor).take seq.literalLength)
      let r ← executeCommandMatch alloc c r offset seq.matchLength
      executeCommands alloc c seqs r reps literalEnd

/-- `execute_sequences_with_total_match_bytes`: the output and the repeat offsets after the block. -/
def executeSequencesWithTotalMatchBytes (alloc : Allocator) (out : DecodeOut) (c : ExecContext) (blockSizeMax : Nat)
    (sequences : List SequenceCommand) (reps : RepeatOffsets) (maxOutputSize : Option Nat) (totalMatchBytes : Nat) :
    Result (DecodeOut × RepeatOffsets) := do
  let blockOutputSize := c.literals.asSlice.length + totalMatchBytes
  if blockOutputSize > blockSizeMax then .error blockOutputTooLarge else
  let finalLen := out.len + blockOutputSize
  match maxOutputSize.filter (finalLen > ·) with
  | some limit => .error (.outputSizeTooLarge finalLen limit)
  | none => do
    let (r, reps, cursor) ← executeCommands alloc c sequences
      (out.region alloc (blockOutputSize + wildcopyOverlength)) reps 0
    if cursor > c.literals.asSlice.length then
      .error (.corruption "sequence literal cursor exceeded literals buffer")
    else
      let r ← r.append alloc (c.literals.asSlice.drop cursor)
      .ok (r.toOut, reps)

/-- `decode_sequence_commands` followed by `execute_sequences`. -/
def decodeThenExecute (alloc : Allocator) (section_ : ParsedSequenceSection) (tables : SequenceTablesState)
    (out : DecodeOut) (c : ExecContext) (blockSizeMax : Nat) (reps : RepeatOffsets) (maxOutputSize : Option Nat) :
    Result (DecodeOut × RepeatOffsets) := do
  let (sequences, totalMatchBytes) ← decodeSequenceCommandsIntoStats section_ tables
  executeSequencesWithTotalMatchBytes alloc out c blockSizeMax sequences reps maxOutputSize totalMatchBytes

end Zstandard
