/-
The streaming decoder: input pushed in pieces, a state that says what the next bytes are, and an output
buffer that is also the match history of the frame being decoded.

Each `process_…` function says whether it made progress; `process` runs them until one did not. A drain
moves the read cursor of the output and drops the front of the buffer once no match can reach it.
-/
import Zstandard.Decode.OneShot

namespace Zstandard

/-! ## The state -/

/-- `FrameDecodeState`: what the blocks of a frame share. -/
structure FrameDecodeState where
  header : ZstandardFrameHeader
  entropy : EntropyState
  checksum : Option Xxh64State
  frameOutputSize : Nat
  windowSize : Nat
  frameStart : Nat

/-- The frame state `start_frame` builds. -/
def FrameDecodeState.opened (dictionary : Option DecoderDictionary) (header : ZstandardFrameHeader) (frameStart : Nat) :
    FrameDecodeState :=
  { header, entropy := .initial dictionary, checksum := if header.checksum then some (.new 0) else none
    frameOutputSize := 0, windowSize := header.windowSize, frameStart }

/-- `absorb_block_output`, with the entropy state the block leaves. -/
def FrameDecodeState.absorbBlockOutput (f : FrameDecodeState) (entropy : EntropyState) (produced : Bytes) :
    FrameDecodeState :=
  { f with entropy, checksum := f.checksum.map (·.update produced)
           frameOutputSize := f.frameOutputSize + produced.length }

/-- `DecoderState`: what the next input is read as. -/
inductive DecoderState where
  | frameHeader
  | skippable (remaining : Nat)
  | blockHeader
  | blockPayload (header : BlockHeader)
  | frameChecksum
deriving DecidableEq, Repr

/-- Whether a frame is open. -/
def DecoderState.inFrame : DecoderState → Bool
  | .frameHeader => false
  | .skippable _ => false
  | .blockHeader => true
  | .blockPayload _ => true
  | .frameChecksum => true

/-- `StreamingDecoder`, without the fields that only keep allocations. -/
structure StreamingDecoder where
  options : DecoderOptions
  dictionary : Option DecoderDictionary
  input : Bytes
  inputPos : Nat
  output : Bytes
  outputPos : Nat
  state : DecoderState
  currentFrame : Option FrameDecodeState
  totalOutputSize : Nat
  receivedInput : Bool
  finishedInput : Bool
  inputDropped : Nat
  decodedAFrame : Bool

namespace StreamingDecoder

/-- `with_prepared_dict`, and `new` without a dictionary. -/
def new (dictionary : Option DecoderDictionary) (options : DecoderOptions) : StreamingDecoder :=
  { options, dictionary, input := [], inputPos := 0, output := [], outputPos := 0, state := .frameHeader
    currentFrame := none, totalOutputSize := 0, receivedInput := false, finishedInput := false, inputDropped := 0
    decodedAFrame := false }

/-- `unconsumed_input`. -/
def unconsumedInput (d : StreamingDecoder) : Bytes := d.input.drop d.inputPos

/-- `pending_output`: what has not been drained. -/
def pendingOutput (d : StreamingDecoder) : Bytes := d.output.drop d.outputPos

/-- `pending_output_len`. -/
def pendingOutputLen (d : StreamingDecoder) : Nat := d.output.length - d.outputPos

/-- `stream_input_pos`. -/
def streamInputPos (d : StreamingDecoder) : Nat := d.inputDropped + d.inputPos

/-- `input_pos += count`. -/
def advance (d : StreamingDecoder) (count : Nat) : StreamingDecoder := { d with inputPos := d.inputPos + count }

/-! ## Compaction -/

/-- `compact_input`: read bytes go once they are half of the buffer. -/
def compactInput (d : StreamingDecoder) : StreamingDecoder :=
  if d.inputPos = 0 then d
  else if d.inputPos = d.input.length then
    { d with inputDropped := d.inputDropped + d.inputPos, input := [], inputPos := 0 }
  else if d.inputPos ≥ 4096 ∨ d.inputPos * 2 ≥ d.input.length then
    { d with inputDropped := d.inputDropped + d.inputPos, input := d.input.drop d.inputPos, inputPos := 0 }
  else d

/-- `retain_for_matches`: one byte more than the window while a frame is open. -/
def retainForMatches (d : StreamingDecoder) : Nat :=
  match d.currentFrame with
  | some frame => frame.windowSize + 1
  | none => 0

/-- `release_history`, without its assertions. -/
def releaseHistory (d : StreamingDecoder) (dropped : Nat) : StreamingDecoder :=
  { d with currentFrame := d.currentFrame.map fun frame => { frame with frameStart := frame.frameStart - dropped } }

/-- `compact_output`, going on where an assertion of `release_history` fails. -/
def compactOutput (d : StreamingDecoder) : StreamingDecoder :=
  let droppable := min d.outputPos (d.output.length - d.retainForMatches)
  if droppable = 0 then d
  else if droppable = d.output.length then { d with output := [], outputPos := 0 }.releaseHistory droppable
  else if d.currentFrame.isNone then d
  else if droppable * 2 ≥ d.output.length then
    { d with output := d.output.drop droppable, outputPos := d.outputPos - droppable }.releaseHistory droppable
  else d

/-- What `release_history` asserts of the current frame: it starts inside the buffer, and what is held of it is its
output by the count of that, or more than its window. -/
def HistoryAsserted (d : StreamingDecoder) : Prop :=
  ∀ frame ∈ d.currentFrame, frame.frameStart ≤ d.output.length ∧
    (d.output.length - frame.frameStart = frame.frameOutputSize ∨
      d.output.length - frame.frameStart > frame.windowSize)

instance (d : StreamingDecoder) : Decidable d.HistoryAsserted :=
  inferInstanceAs (Decidable (∀ frame ∈ d.currentFrame, _))

/-- `release_history`; an assertion that fails stops the decoder. -/
def releaseHistoryAsserting (d : StreamingDecoder) (dropped : Nat) : Result StreamingDecoder :=
  if (d.releaseHistory dropped).HistoryAsserted then .ok (d.releaseHistory dropped) else .error .generic

/-- `compact_output`; an assertion that fails stops the decoder. -/
def compactOutputAsserting (d : StreamingDecoder) : Result StreamingDecoder :=
  let droppable := min d.outputPos (d.output.length - d.retainForMatches)
  if droppable = 0 then .ok d
  else if droppable = d.output.length then { d with output := [], outputPos := 0 }.releaseHistoryAsserting droppable
  else if d.currentFrame.isNone then .ok d
  else if droppable * 2 ≥ d.output.length then
    { d with output := d.output.drop droppable, outputPos := d.outputPos - droppable }.releaseHistoryAsserting droppable
  else .ok d

/-- `compact_between_frames`. That no frame is open is asserted there. -/
def compactBetweenFrames (d : StreamingDecoder) : StreamingDecoder :=
  if d.outputPos ≠ 0 ∧ d.outputPos * 2 ≥ d.output.length then
    { d with output := d.output.drop d.outputPos, outputPos := 0 }
  else d

/-! ## Frames and blocks -/

/-- `start_frame`. -/
def startFrame (d : StreamingDecoder) (header : ZstandardFrameHeader) : Result StreamingDecoder := do
  let d := d.compactBetweenFrames
  admitFrame d.dictionary d.options header d.totalOutputSize
  .ok { d with currentFrame := some (.opened d.dictionary header d.output.length) }

/-- What the blocks of the current frame are decoded with. -/
def frameParams (d : StreamingDecoder) (frame : FrameDecodeState) : FrameParams :=
  { blockSizeMax := frame.header.blockSizeMax, frameStart := frame.frameStart, windowSize := frame.windowSize
    dictionary := d.dictionary.map (·.content) }

/-- The cap on a block: what the stream has produced and already released counts as well. -/
def outputLimit (d : StreamingDecoder) : OutputLimit :=
  .after (d.totalOutputSize - d.output.length) d.options.maxOutputSize

/-- `decode_block`. -/
def decodeBlock (alloc : Allocator) (d : StreamingDecoder) (header : BlockHeader) (payload : Bytes) :
    Result StreamingDecoder :=
  match d.currentFrame with
  | none => .error .generic
  | some frame => do
    let (out, entropy) ← Zstandard.decodeBlock (decodeOutput alloc) header payload (d.frameParams frame) frame.entropy
      (.growable d.output) d.outputLimit
    let produced := out.asSlice.drop d.output.length
    .ok { d with
      output := out.asSlice
      currentFrame := some (frame.absorbBlockOutput entropy produced)
      totalOutputSize := d.totalOutputSize + produced.length }

/-- `finish_frame`. -/
def finishFrame (d : StreamingDecoder) : Result StreamingDecoder :=
  match d.currentFrame with
  | none => .error .generic
  | some frame => do
    checkProduced frame.header frame.frameOutputSize
    .ok { d with currentFrame := none, decodedAFrame := true }

/-! ## The state machine -/

/-- `process_frame_header`: nothing is consumed before the whole header is there. -/
def processFrameHeader (d : StreamingDecoder) : Result (Bool × StreamingDecoder) :=
  if d.inputPos = d.input.length then .ok (false, d)
  else if d.options.singleFrame ∧ d.decodedAFrame then .error (.trailingInput d.streamInputPos)
  else
    match parseFrameHeaderWithFormat d.options.format d.unconsumedInput with
    | .ok (.skippable frame) =>
      if d.options.singleFrame then .error (.trailingInput d.streamInputPos)
      else .ok (true, { d.advance frame.headerSize with state := .skippable frame.size })
    | .ok (.zstandard header) => do
      let d ← (d.advance header.headerSize).startFrame header
      .ok (true, { d with state := .blockHeader })
    | .error .unexpectedEof => .ok (false, d)
    | .error e => .error e

/-- `process_skippable_frame`. Skipping no bytes is no progress, even where it ends the frame. -/
def processSkippableFrame (d : StreamingDecoder) (remaining : Nat) : Bool × StreamingDecoder :=
  let consumed := min (d.input.length - d.inputPos) remaining
  let remaining := remaining - consumed
  (consumed ≠ 0,
    { d.advance consumed with state := if remaining = 0 then .frameHeader else .skippable remaining })

/-- `process_block_header`. -/
def processBlockHeader (d : StreamingDecoder) : Result (Bool × StreamingDecoder) :=
  if d.input.length - d.inputPos < blockHeaderSize then .ok (false, d) else do
  let header ← BlockHeader.parse (d.unconsumedInput.take blockHeaderSize)
  .ok (true, { d.advance blockHeaderSize with state := .blockPayload header })

/-- `process_block_payload`: the payload is consumed before it is decoded. -/
def processBlockPayload (alloc : Allocator) (d : StreamingDecoder) (header : BlockHeader) :
    Result (Bool × StreamingDecoder) :=
  if d.input.length - d.inputPos < header.payloadSize then .ok (false, d) else do
  let payload := d.unconsumedInput.take header.payloadSize
  let d ← (d.advance header.payloadSize).decodeBlock alloc header payload
  if header.lastBlock then
    if d.currentFrame.any (·.header.checksum) then .ok (true, { d with state := .frameChecksum }) else
    let d ← d.finishFrame
    .ok (true, { d with state := .frameHeader })
  else .ok (true, { d with state := .blockHeader })

/-- The comparison of `process_frame_checksum`. -/
def verifyFrameChecksum (d : StreamingDecoder) (frame : FrameDecodeState) (expected : Nat) : Result Unit :=
  if d.options.verifyChecksum then
    match frame.checksum with
    | none => .error (.corruption "missing frame checksum state")
    | some state => checkChecksum expected (state.digest.toNat % 2 ^ 32)
  else .ok ()

/-- `process_frame_checksum`. -/
def processFrameChecksum (d : StreamingDecoder) : Result (Bool × StreamingDecoder) :=
  if d.input.length - d.inputPos < 4 then .ok (false, d) else
  let expected := Zstandard.readU32Le d.unconsumedInput
  match d.currentFrame with
  | none => .error .generic
  | some frame => do
    d.verifyFrameChecksum frame expected
    let d ← (d.advance 4).finishFrame
    .ok (true, { d with state := .frameHeader })

/-- One round of `process`, before the input is compacted. -/
def processStep (alloc : Allocator) (d : StreamingDecoder) : Result (Bool × StreamingDecoder) :=
  match d.state with
  | .frameHeader => d.processFrameHeader
  | .skippable remaining => .ok (d.processSkippableFrame remaining)
  | .blockHeader => d.processBlockHeader
  | .blockPayload header => d.processBlockPayload alloc header
  | .frameChecksum => d.processFrameChecksum

/-- The loop of `process`. Only the payload of an empty block takes no input, and its header did. -/
def processLoop (alloc : Allocator) : Nat → StreamingDecoder → Result StreamingDecoder
  | 0, _ => .error .generic
  | fuel + 1, d => do
    let (progress, d) ← d.processStep alloc
    if progress then processLoop alloc fuel d.compactInput else .ok d

/-- `process`: each round consumes input or, where it does not, changes the state once. -/
def process (alloc : Allocator) (d : StreamingDecoder) : Result StreamingDecoder :=
  d.processLoop alloc (2 * (d.input.length - d.inputPos) + 2)

/-! ## The operations -/

/-- What `push` does before it processes. -/
def feed (d : StreamingDecoder) (src : Bytes) : StreamingDecoder :=
  { d with receivedInput := d.receivedInput || !src.isEmpty, input := d.input ++ src }

/-- `push`. -/
def push (alloc : Allocator) (d : StreamingDecoder) (src : Bytes) : Result StreamingDecoder :=
  if d.finishedInput then .error (.invalidParameter "cannot push after finish")
  else (d.feed src).process alloc

/-- `finish_status`: the input ends where a frame does. -/
def finishStatus (d : StreamingDecoder) : Result Unit :=
  if d.receivedInput = false then .error .unexpectedEof
  else if d.currentFrame.isSome ∨ d.state ≠ .frameHeader then .error .unexpectedEof
  else if d.inputPos ≠ d.input.length then .error .unexpectedEof
  else .ok ()

/-- `finish`. -/
def finish (alloc : Allocator) (d : StreamingDecoder) : Result StreamingDecoder :=
  if d.finishedInput then do
    d.finishStatus
    .ok d
  else do
    let d ← { d with finishedInput := true }.process alloc
    d.finishStatus
    .ok d

/-- `reset`: the output that is still pending stays. -/
def reset (d : StreamingDecoder) : Result StreamingDecoder := do
  d.finishStatus
  .ok { d with input := [], inputPos := 0, state := .frameHeader, currentFrame := none, totalOutputSize := 0
               receivedInput := false, finishedInput := false, inputDropped := 0, decodedAFrame := false }

/-- `consume_output`; consuming more than is pending panics. -/
def consumeOutput (d : StreamingDecoder) (count : Nat) : StreamingDecoder :=
  { d with outputPos := d.outputPos + count }.compactOutput

/-- `read`. -/
def read (d : StreamingDecoder) (dstLen : Nat) : Bytes × StreamingDecoder :=
  let count := min dstLen d.pendingOutputLen
  if count = 0 then ([], d) else (d.pendingOutput.take count, d.consumeOutput count)

/-- `take_output`: behind a finished frame the buffer itself, as no match needs it. -/
def takeOutput (d : StreamingDecoder) : Bytes × StreamingDecoder :=
  if d.outputPos = 0 ∧ d.currentFrame.isNone then (d.output, { d with output := [] })
  else (d.pendingOutput, { d with outputPos := d.output.length }.compactOutput)

end StreamingDecoder

end Zstandard
