/-
The streaming encoder: input is buffered up to one block, a full buffer goes out as one block or two, and the frame
buffer that the match finders index is compacted once it holds a window beyond the window.

What encodes one block is a parameter (`BlockCoder`): functions of what the encoder hands over, which append to the
output and give the new states back. The components a stream only carries from block to block are types of their own
(`Pieces`). A call that fails leaves the encoder as it then is, so every operation gives its error, if any, beside the
new encoder. The scratch that an encoder keeps across frames is parser state and buffers; two that differ in buffers are
alike.
-/
import Zstandard.Decode.Out
import Zstandard.Encode.Finders
import Zstandard.Encode.Floors
import Zstandard.Encode.Fingerprint
import Zstandard.Encode.LongDistance
import Zstandard.Wire.HeaderWriter

namespace Zstandard

/-- `saturating_add` and `saturating_mul` of a `usize`. -/
def usizeAdd (a b : Nat) : Nat := min (a + b) usizeMax

/-- `saturating_mul`. -/
def usizeMul (a b : Nat) : Nat := min (a * b) usizeMax

/-- The components that the streaming encoder hands from one block to the next without looking inside. -/
structure Pieces where
  Overrides : Type
  Dictionary : Type
  Prefixed : Type
  Literals : Type
  Tables : Type
  Ldm : Type
  PriceState : Type
  Hash3 : Type
  Buffers : Type

variable {π : Pieces}

/-- `EncoderOptions`; the compression level is part of the overrides that the parameters are resolved from. -/
structure EncoderOptions (π : Pieces) where
  blockSize : Nat
  checksum : Bool
  writeDictId : Bool
  overrides : π.Overrides
  pledgedSrcSize : Option UInt64
  writeContentSize : Bool
  format : Format

/-- What the stream reads of `CompressionParameters`. -/
structure CompressionParameters where
  matchFinder : MatchFinderParameters
  maxHistoryBytes : Nat
  strategy : UpstreamStrategy
  ldm : Option Ldm.LdmParameters

/-- `EntropyEncodeScratch`: the parser state of a frame, and buffers. -/
structure Scratch (π : Pieces) where
  buffers : π.Buffers
  optPriceState : Option π.PriceState
  optHash3 : Option π.Hash3
  optSourceBt : Option BinaryTreeFinder
  optDictBt : Option BinaryTreeFinder
  optPrefixLen : Option Nat

/-- What one block leaves for the next, beside the match state. -/
structure Coding (π : Pieces) where
  literalsState : π.Literals
  repeatOffsets : RepeatOffsets
  sequenceTables : π.Tables
  scratch : Scratch π
  ldm : Option π.Ldm

/-- The same parser state. Of the rest only the buffers may differ, and a prefix length that no tree was built from. -/
structure Scratch.Alike (s s' : Scratch π) : Prop where
  optPriceState : s'.optPriceState = s.optPriceState
  optHash3 : s'.optHash3 = s.optHash3
  optSourceBt : s'.optSourceBt = s.optSourceBt
  optDictBt : s'.optDictBt = s.optDictBt
  optPrefixLen : s'.optPrefixLen = s.optPrefixLen ∨ s.optSourceBt = none ∧ s.optDictBt = none

/-- Two codings that differ in buffers only. -/
structure Coding.Alike (c c' : Coding π) : Prop where
  literalsState : c'.literalsState = c.literalsState
  repeatOffsets : c'.repeatOffsets = c.repeatOffsets
  sequenceTables : c'.sequenceTables = c.sequenceTables
  scratch : c.scratch.Alike c'.scratch
  ldm : c'.ldm = c.ldm

/-- `StreamingMatchState`: with a dictionary the finders search across its end. -/
inductive StreamingMatchState (π : Pieces) where
  | contiguous (matchState : ContiguousBlockMatchState)
  | prefixed (matchState : π.Prefixed)

/-- The outcome of encoding one block over a match state. -/
structure EncodedBlock (π : Pieces) (M : Type) where
  error : Option Error
  bytes : Bytes
  matchState : M
  coding : Coding π

/-- Two encoded blocks that differ in buffers only. -/
structure EncodedBlock.Alike {M : Type} (r r' : EncodedBlock π M) : Prop where
  error : r'.error = r.error
  bytes : r'.bytes = r.bytes
  matchState : r'.matchState = r.matchState
  coding : r.coding.Alike r'.coding

/-- What the streaming encoder calls. No operation changes the cycle that a contiguous finder's tables wrap at, and a
buffer is filled before it is read, so what it held makes no difference. -/
structure BlockCoder (π : Pieces) where
  validateOverrides : π.Overrides → Result Unit
  compressionParameters : EncoderOptions π → Option π.Dictionary → CompressionParameters
  content : π.Dictionary → Bytes
  frameDictionaryId : π.Dictionary → Option UInt32
  newPrefixed : π.Dictionary → Nat → Nat → MatchFinderParameters → π.Prefixed
  newLiterals : Option π.Dictionary → CompressionParameters → π.Literals
  defaultTables : π.Tables
  sequenceEncodingState : π.Dictionary → π.Tables
  repeatOffsets : π.Dictionary → RepeatOffsets
  newLdm : Ldm.LdmParameters → Nat → π.Ldm
  loadDictionary : π.Ldm → Bytes → π.Ldm
  shiftLdm : π.Ldm → Nat → π.Ldm
  shiftHash3 : π.Hash3 → Nat → π.Hash3
  newBuffers : π.Buffers
  insertRange : ContiguousBlockMatchState → Bytes → Nat → Nat → ContiguousBlockMatchState
  seedOptimalPrices : Scratch π → Bytes → RepeatOffsets → CompressionParameters → ContiguousBlockMatchState →
    Option π.Ldm → Option Error × Scratch π × ContiguousBlockMatchState × Option π.Ldm
  encodeContiguous : Bytes → Nat → Nat → ContiguousBlockMatchState → Bool → CompressionParameters → Coding π →
    EncodedBlock π ContiguousBlockMatchState
  encodePrefixed : Bytes → Bytes → Nat → Nat → π.Prefixed → Bool → CompressionParameters → Coding π →
    EncodedBlock π π.Prefixed
  insertRange_period : ∀ m frame start stop, (insertRange m frame start stop).rebasePeriod = m.rebasePeriod
  seed_period : ∀ scratch block reps params m ldm,
    (seedOptimalPrices scratch block reps params m ldm).2.2.1.rebasePeriod = m.rebasePeriod
  encode_period : ∀ frame start stop m last params coding,
    (encodeContiguous frame start stop m last params coding).matchState.rebasePeriod = m.rebasePeriod
  seed_alike : ∀ scratch scratch' block reps params m ldm, scratch.Alike scratch' →
    (seedOptimalPrices scratch' block reps params m ldm).1 = (seedOptimalPrices scratch block reps params m ldm).1 ∧
    (seedOptimalPrices scratch block reps params m ldm).2.1.Alike
      (seedOptimalPrices scratch' block reps params m ldm).2.1 ∧
    (seedOptimalPrices scratch' block reps params m ldm).2.2 = (seedOptimalPrices scratch block reps params m ldm).2.2
  encode_alike : ∀ frame start stop m last params coding coding', coding.Alike coding' →
    (encodeContiguous frame start stop m last params coding).Alike
      (encodeContiguous frame start stop m last params coding')
  encodePrefixed_alike : ∀ content frame start stop p last params coding coding', coding.Alike coding' →
    (encodePrefixed content frame start stop p last params coding).Alike
      (encodePrefixed content frame start stop p last params coding')

/-! ## Sizes -/

/-- `history_limit_for`: the history a block may look back on. -/
def historyLimitFor (params : CompressionParameters) : Nat := min params.maxHistoryBytes maxDeclarableWindowSize

/-- The largest block of a stream with these parameters and options. -/
def streamBlockSize (params : CompressionParameters) (options : EncoderOptions π) : Nat :=
  blockSizeFor params.maxHistoryBytes options.blockSize (options.pledgedSrcSize.map UInt64.toNat)

/-- `history_slack_for`: what the frame grows beyond its history before it is compacted. -/
def historySlackFor (params : CompressionParameters) (options : EncoderOptions π) : Nat :=
  let historyLimit := historyLimitFor params
  let period := params.matchFinder.rebasePeriod
  let unwidened := usizeAdd (usizeMul historyLimit 2) (streamBlockSize params options)
  if period ≥ unwidened then historyLimit else max historyLimit period

/-- `frame_capacity_for`: history, slack and one block. -/
def frameCapacityFor (params : CompressionParameters) (options : EncoderOptions π) : Nat :=
  usizeAdd (usizeAdd (historyLimitFor params) (historySlackFor params options)) (streamBlockSize params options)

/-- `match_position_limit_for`: no position is above the capacity or a pledged size. -/
def matchPositionLimitFor (params : CompressionParameters) (options : EncoderOptions π) : Nat :=
  min (frameCapacityFor params options) (options.pledgedSrcSize.elim usizeMax UInt64.toNat)

/-! ## The frame in progress -/

/-- The frame buffer, and what is keyed to it or carried along it. -/
structure StreamFrame (π : Pieces) where
  frame : Bytes
  matchState : StreamingMatchState π
  coding : Coding π

/-- `clear_frame_parser_state`. -/
def Scratch.clearFrameParserState (s : Scratch π) : Scratch π :=
  { s with optPriceState := none, optHash3 := none, optSourceBt := none, optDictBt := none }

/-- `shift_frame_positions`: of the scratch only the hash of three bytes holds positions. -/
def Scratch.shiftFramePositions (coder : BlockCoder π) (s : Scratch π) (delta : Nat) : Scratch π :=
  { s with optHash3 := s.optHash3.map (coder.shiftHash3 · delta) }

/-- `new_match_state`. -/
def newMatchState (coder : BlockCoder π) (dictionary : Option π.Dictionary) (params : CompressionParameters)
    (frameCapacity positionLimit : Nat) : StreamingMatchState π :=
  match dictionary with
  | none => .contiguous (.newWithPositionLimit positionLimit params.matchFinder)
  | some dictionary =>
    if coder.content dictionary = [] then .contiguous (.newWithPositionLimit positionLimit params.matchFinder)
    else .prefixed (coder.newPrefixed dictionary frameCapacity positionLimit params.matchFinder)

/-- `aligned_drop`: how much to drop when `want` bytes have scrolled out of the window. -/
def alignedDrop (params : CompressionParameters) (want : Nat) : Nat :=
  let period := params.matchFinder.rebasePeriod
  if period > want then want else want - want % period

namespace StreamFrame

/-- The end of `compact_frame`, where the finder cannot be rebased: it is emptied or built anew, and filled again. -/
def rebuild (coder : BlockCoder π) (options : EncoderOptions π) (params : CompressionParameters) (s : StreamFrame π) :
    StreamFrame π :=
  let limit := matchPositionLimitFor params options
  let resetInPlace := match s.matchState with
    | .contiguous m => m.resetIfCompatible params.matchFinder limit
    | .prefixed _ => none
  let m := resetInPlace.getD (.newWithPositionLimit limit params.matchFinder)
  if params.matchFinder.parserStrategy.isBinaryTree then { s with matchState := .contiguous m }
  else { s with matchState := .contiguous (coder.insertRange m s.frame 0 s.frame.length) }

/-- `compact_frame`. -/
def compact (coder : BlockCoder π) (options : EncoderOptions π) (params : CompressionParameters) (historyLimit : Nat)
    (s : StreamFrame π) : StreamFrame π :=
  let liveEnd := s.frame.length
  let dropped := alignedDrop params (liveEnd - historyLimit)
  let s :=
    { s with
      frame := s.frame.drop dropped
      coding :=
        { s.coding with
          ldm := s.coding.ldm.map (coder.shiftLdm · dropped)
          scratch := s.coding.scratch.shiftFramePositions coder dropped } }
  let rebased := match s.matchState with
    | .contiguous m => m.shiftPositions dropped liveEnd
    | .prefixed _ => none
  match rebased with
  | some m => { s with matchState := .contiguous m }
  | none => s.rebuild coder options params

/-- What `encode_buffered_block` does to the frame: compaction, the block appended, its first parse where it opens the
frame, and its encoding. The bytes are those that go to the output. -/
def encodeBlock (coder : BlockCoder π) (options : EncoderOptions π) (dictionary : Option π.Dictionary)
    (params : CompressionParameters) (block : Bytes) (lastBlock : Bool) (s : StreamFrame π) :
    Option Error × Bytes × StreamFrame π :=
  let historyLimit := historyLimitFor params
  let s := if s.frame.length > usizeAdd historyLimit (historySlackFor params options) then
      s.compact coder options params historyLimit else s
  let blockStart := s.frame.length
  let s := { s with frame := s.frame ++ block }
  let blockEnd := s.frame.length
  let capped := { params with maxHistoryBytes := historyLimit }
  match s.matchState with
  | .contiguous m =>
    let (error, scratch, m, ldm) :=
      if blockStart = 0 then
        coder.seedOptimalPrices s.coding.scratch (s.frame.take blockEnd) s.coding.repeatOffsets capped m s.coding.ldm
      else (none, s.coding.scratch, m, s.coding.ldm)
    let s := { s with matchState := .contiguous m, coding := { s.coding with scratch, ldm } }
    match error with
    | some error => (some error, [], s)
    | none =>
      let r := coder.encodeContiguous s.frame blockStart blockEnd m lastBlock capped s.coding
      (r.error, r.bytes, { s with matchState := .contiguous r.matchState, coding := r.coding })
  | .prefixed p =>
    let r := coder.encodePrefixed (dictionary.elim [] coder.content) s.frame blockStart blockEnd p lastBlock capped
      s.coding
    (r.error, r.bytes, { s with matchState := .prefixed r.matchState, coding := r.coding })

end StreamFrame

/-! ## The encoder -/

/-- `StreamingEncoder`. -/
structure StreamingEncoder (π : Pieces) where
  options : EncoderOptions π
  dictionary : Option π.Dictionary
  params : CompressionParameters
  bufferedInput : Bytes
  state : StreamFrame π
  checksum : Option Xxh64State
  output : Bytes
  outputPos : Nat
  savings : Int
  contentLen : Nat
  finished : Bool

namespace StreamingEncoder

/-- `block_size`. -/
def blockSize (e : StreamingEncoder π) : Nat := streamBlockSize e.params e.options

/-- `frame_capacity`. -/
def frameCapacity (e : StreamingEncoder π) : Nat := frameCapacityFor e.params e.options

/-- `history_limit`. -/
def historyLimit (e : StreamingEncoder π) : Nat := historyLimitFor e.params

/-- One block, and one byte more on a stream whose pledge is exactly one block. -/
def pushTarget (e : StreamingEncoder π) : Nat :=
  e.blockSize + if e.options.pledgedSrcSize.map UInt64.toNat = some e.blockSize then 1 else 0

/-- `next_block_size`: the optimal strategies split a block later, by its sequences. -/
def nextBlockSize (e : StreamingEncoder π) : Nat :=
  let available := e.bufferedInput.length
  if e.params.strategy.isOptimal then min available e.blockSize
  else clampTo 1 available (upstreamOptimalBlockSize e.bufferedInput 0 e.blockSize e.params.strategy e.savings)

/-- `encode_buffered_block`: the front of the input buffer becomes a block. -/
def encodeBufferedBlock (coder : BlockCoder π) (e : StreamingEncoder π) (take : Nat) (lastBlock : Bool) :
    Option Error × StreamingEncoder π :=
  let (error, bytes, state) :=
    e.state.encodeBlock coder e.options e.dictionary e.params (e.bufferedInput.take take) lastBlock
  let outputBefore := e.output.length
  let e := { e with bufferedInput := e.bufferedInput.drop take, state, output := e.output ++ bytes }
  match error with
  | some error => (some error, e)
  | none => (none, { e with savings := e.savings + ((take : Int) - ((e.output.length : Int) - outputBefore)) })

/-- At most two blocks: the split heuristic runs once, and what it leaves goes out as one block. -/
def encodeBufferedChunk (coder : BlockCoder π) (e : StreamingEncoder π) : Option Error × StreamingEncoder π :=
  let (error, e) := e.encodeBufferedBlock coder e.nextBlockSize false
  match error with
  | some error => (some error, e)
  | none =>
    if e.bufferedInput.isEmpty then (none, e) else e.encodeBufferedBlock coder e.bufferedInput.length false

/-- The loop of `push`. It gives the input that an error left behind; nothing at all means that it did not end. -/
def pushLoop (coder : BlockCoder π) (target : Nat) :
    Nat → Bytes → StreamingEncoder π → Option (Option Error × StreamingEncoder π × Bytes)
  | _, [], e => some (none, e, [])
  | 0, _ :: _, _ => none
  | fuel + 1, b :: src, e =>
    let take := min (target - e.bufferedInput.length) (b :: src).length
    let e := { e with bufferedInput := e.bufferedInput ++ (b :: src).take take }
    let src := (b :: src).drop take
    if e.bufferedInput.length = target then
      match e.encodeBufferedChunk coder with
      | (some error, e) => some (some error, e, src)
      | (none, e) => pushLoop coder target fuel src e
    else pushLoop coder target fuel src e

/-- `push`, with the part of the input that it has not taken. -/
def push (coder : BlockCoder π) (e : StreamingEncoder π) (src : Bytes) :
    Option (Option Error × StreamingEncoder π × Bytes) :=
  if e.finished then some (some (.invalidParameter "cannot push after finish"), e, src)
  else
    let e := { e with checksum := e.checksum.map (·.update src), contentLen := e.contentLen + src.length }
    pushLoop coder e.pushTarget src.length src e

/-- `flush`: what is buffered becomes a block. -/
def flush (coder : BlockCoder π) (e : StreamingEncoder π) : Option Error × StreamingEncoder π :=
  if e.finished then (some (.invalidParameter "cannot flush after finish"), e)
  else if e.bufferedInput.isEmpty then (none, e)
  else e.encodeBufferedBlock coder e.bufferedInput.length false

/-- The pledge is checked before the last block goes out, and the checksum follows it. -/
def finish (coder : BlockCoder π) (e : StreamingEncoder π) : Option Error × StreamingEncoder π :=
  if e.finished then (none, e)
  else if e.options.pledgedSrcSize.any (·.toNat ≠ e.contentLen) then
    (some (.invalidParameter "stream carried a different number of bytes than pledged_src_size"), e)
  else
    let (error, e) := e.encodeBufferedBlock coder e.bufferedInput.length true
    match error with
    | some error => (some error, e)
    | none =>
      let trailer := e.checksum.elim [] fun checksum => writeLe (checksum.digest.toNat % 2 ^ 32) 4
      (none, { e with output := e.output ++ trailer, finished := true })

/-- The header goes behind whatever the output still holds. The window of a stream can be declared (`header_ok`), so the
errors of the header writers, which come behind bytes that they have pushed, are not met here. -/
def writeHeader (coder : BlockCoder π) (e : StreamingEncoder π) : Result Bytes :=
  let frameWindowSize := UInt64.ofNat e.historyLimit
  let dictionaryId := if e.options.writeDictId then e.dictionary.bind coder.frameDictionaryId else none
  match e.options.pledgedSrcSize.filter fun _ => e.options.writeContentSize with
  | some pledged =>
    if pledged ≤ frameWindowSize then
      .ok (writeSingleSegmentHeaderWithDict e.output pledged e.options.checksum dictionaryId e.options.format)
    else
      writeWindowedHeaderWithContentSize e.output frameWindowSize pledged e.options.checksum dictionaryId
        e.options.format
  | none => writeWindowedHeaderWithDict e.output frameWindowSize e.options.checksum dictionaryId e.options.format

/-- The frame state that `reset_frame_state` sets up. Of the old one only the scratch is left, its parser
state cleared. -/
def newFrameState (coder : BlockCoder π) (options : EncoderOptions π) (dictionary : Option π.Dictionary)
    (params : CompressionParameters) (scratch : Scratch π) : StreamFrame π where
  frame := []
  matchState := newMatchState coder dictionary params (frameCapacityFor params options)
    (matchPositionLimitFor params options)
  coding :=
    { ldm := params.ldm.map fun ldm =>
        let state := coder.newLdm ldm (historyLimitFor params)
        dictionary.elim state fun dictionary => coder.loadDictionary state (coder.content dictionary)
      sequenceTables := dictionary.elim coder.defaultTables coder.sequenceEncodingState
      repeatOffsets := dictionary.elim .initial coder.repeatOffsets
      literalsState := coder.newLiterals dictionary params
      scratch := scratch.clearFrameParserState }

/-- `reset_frame_state`: the encoder as new, in its old buffers. -/
def resetFrameState (coder : BlockCoder π) (e : StreamingEncoder π) : Option Error × StreamingEncoder π :=
  let e :=
    { e with
      bufferedInput := []
      savings := 0
      state := newFrameState coder e.options e.dictionary e.params e.state.coding.scratch
      checksum := if e.options.checksum then some (.new 0) else none
      contentLen := 0
      finished := false }
  match e.writeHeader coder with
  | .ok output => (none, { e with output })
  | .error error => (some error, e)

/-- `reset`, for a finished frame. -/
def reset (coder : BlockCoder π) (e : StreamingEncoder π) : Option Error × StreamingEncoder π :=
  if e.finished = false then (some (.invalidParameter "cannot reset before finish"), e)
  else e.resetFrameState coder

/-- The scratch of a new encoder. -/
def newScratch (coder : BlockCoder π) : Scratch π := ⟨coder.newBuffers, none, none, none, none, none⟩

/-- `validate_options`. -/
def validateOptions (coder : BlockCoder π) (options : EncoderOptions π) : Result Unit :=
  if options.blockSize = 0 ∨ options.blockSize > 128 * 1024 then
    .error (.invalidParameter "block_size must be in 1..=128 KiB")
  else coder.validateOverrides options.overrides

/-- `with_prepared_dictionary`. -/
def new (coder : BlockCoder π) (options : EncoderOptions π) (dictionary : Option π.Dictionary) :
    Result (StreamingEncoder π) := do
  validateOptions coder options
  let params := coder.compressionParameters options dictionary
  let encoder : StreamingEncoder π :=
    { options, dictionary, params, bufferedInput := [],
      state := newFrameState coder options dictionary params (newScratch coder),
      checksum := none, output := [], outputPos := 0, savings := 0, contentLen := 0, finished := false }
  match encoder.resetFrameState coder with
  | (none, encoder) => .ok encoder
  | (some error, _) => .error error

/-! ## Draining -/

/-- `pending_output`: what has not been drained. -/
def pendingOutput (e : StreamingEncoder π) : Bytes := e.output.drop e.outputPos

/-- `compact_output`: drained bytes go once they are half of the buffer. -/
def compactOutput (e : StreamingEncoder π) : StreamingEncoder π :=
  if e.outputPos = 0 then e
  else if e.outputPos = e.output.length then { e with output := [], outputPos := 0 }
  else if e.outputPos * 2 ≥ e.output.length then { e with output := e.output.drop e.outputPos, outputPos := 0 }
  else e

/-- `take_output`: everything that is pending. -/
def takeOutput (e : StreamingEncoder π) : Bytes × StreamingEncoder π :=
  if e.outputPos = 0 then (e.output, { e with output := [] })
  else (e.output.drop e.outputPos, { e with output := [], outputPos := 0 })

/-- `read` into a slice of `dstLen` bytes. -/
def read (e : StreamingEncoder π) (dstLen : Nat) : Bytes × StreamingEncoder π :=
  let count := min dstLen e.pendingOutput.length
  if count = 0 then ([], e)
  else ((e.output.drop e.outputPos).take count, { e with outputPos := e.outputPos + count }.compactOutput)

/-- `consume_output` of bytes that `pending_output` has shown; nothing where it panics. -/
def consumeOutput (e : StreamingEncoder π) (count : Nat) : Option (Bytes × StreamingEncoder π) :=
  if count ≤ e.pendingOutput.length then
    some (e.pendingOutput.take count, { e with outputPos := e.outputPos + count }.compactOutput)
  else none

end StreamingEncoder

/-! ## Runs -/

/-- A call of the caller's. -/
inductive StreamOp where
  | push (src : Bytes)
  | flush
  | finish
  | reset
  | take
  | read (dstLen : Nat)
  | consume (count : Nat)
deriving DecidableEq, Repr

namespace StreamingEncoder

/-- One call: its error, the bytes it delivers, and the new encoder; nothing where it panics or does not end. -/
def perform (coder : BlockCoder π) (op : StreamOp) (e : StreamingEncoder π) :
    Option (Option Error × Bytes × StreamingEncoder π) :=
  match op with
  | .push src => (e.push coder src).map fun (error, e, _) => (error, [], e)
  | .flush => let (error, e) := e.flush coder; some (error, [], e)
  | .finish => let (error, e) := e.finish coder; some (error, [], e)
  | .reset => let (error, e) := e.reset coder; some (error, [], e)
  | .take => let (bytes, e) := e.takeOutput; some (none, bytes, e)
  | .read dstLen => let (bytes, e) := e.read dstLen; some (none, bytes, e)
  | .consume count => (e.consumeOutput count).map fun (bytes, e) => (none, bytes, e)

/-- A run that ends at its first error, with what it has delivered by the end; nothing where a call panics. -/
def runOk (coder : BlockCoder π) : List StreamOp → Bytes × StreamingEncoder π →
    Option (Result (Bytes × StreamingEncoder π))
  | [], s => some (.ok s)
  | op :: ops, (delivered, e) =>
    match e.perform coder op with
    | none => none
    | some (some error, _, _) => some (.error error)
    | some (none, bytes, e) => runOk coder ops (delivered ++ bytes, e)

/-- The encoder after a run of calls, whether or not some of them failed. -/
def runAll (coder : BlockCoder π) : List StreamOp → StreamingEncoder π → Option (StreamingEncoder π)
  | [], e => some e
  | op :: ops, e => (e.perform coder op).bind fun (_, _, e) => e.runAll coder ops

end StreamingEncoder

/-! ## A coder that tallies -/

/-- A raw block: its header says its size and whether it is the last. -/
def storeBlock (block : Bytes) (lastBlock : Bool) : Bytes := writeLe (block.length * 8 + lastBlock.toNat) 3 ++ block

/-- The prices are a count of bytes, and the buffers hold the block before. -/
def tallyingPieces : Pieces := ⟨Unit, Unit, Unit, Unit, Unit, Unit, Nat, Unit, Bytes⟩

/-- The bytes counted so far. -/
def tallied (prices : Option tallyingPieces.PriceState) : Nat := Option.getD (α := Nat) prices 0

/-- The scratch behind a block: its bytes are counted, and it is left in the buffers. -/
def tally (scratch : Scratch tallyingPieces) (block : Bytes) : Scratch tallyingPieces :=
  { scratch with buffers := block, optPriceState := some (tallied scratch.optPriceState + block.length : Nat) }

theorem tally_alike {scratch scratch' : Scratch tallyingPieces} (h : scratch.Alike scratch') (block : Bytes) :
    (tally scratch block).Alike (tally scratch' block) := by
  refine ⟨?_, h.optHash3, h.optSourceBt, h.optDictBt, h.optPrefixLen⟩
  unfold tally
  rw [h.optPriceState]

/-- A stored block, and before it the count of what its frame has parsed. -/
def tallyBlock (block : Bytes) (lastBlock : Bool) (coding : Coding tallyingPieces) : Bytes :=
  UInt8.ofNat (tallied coding.scratch.optPriceState) :: storeBlock block lastBlock

/-- One block over any match state, which stays as it was. -/
def tallyingBlock {M : Type} (frame : Bytes) (start stop : Nat) (matchState : M) (lastBlock : Bool)
    (coding : Coding tallyingPieces) : EncodedBlock tallyingPieces M :=
  let block := (frame.take stop).drop start
  ⟨none, tallyBlock block lastBlock coding, matchState, { coding with scratch := tally coding.scratch block }⟩

theorem tallyingBlock_alike {M : Type} (frame : Bytes) (start stop : Nat) (matchState : M) (lastBlock : Bool)
    {coding coding' : Coding tallyingPieces} (h : coding.Alike coding') :
    (tallyingBlock frame start stop matchState lastBlock coding).Alike
      (tallyingBlock frame start stop matchState lastBlock coding') := by
  refine ⟨rfl, ?_, rfl, h.literalsState, h.repeatOffsets, h.sequenceTables, tally_alike h.scratch _, h.ldm⟩
  show tallyBlock _ lastBlock coding' = tallyBlock _ lastBlock coding
  unfold tallyBlock
  rw [h.scratch.optPriceState]

/-- A block coder whose blocks depend on the parser state: it stores them behind the count of the bytes that its frame
has parsed, the first block twice. Its finder is a chain of eight slots, and its window is `window` bytes. -/
def tallyingCoder (window : Nat) : BlockCoder tallyingPieces where
  validateOverrides _ := .ok ()
  compressionParameters _ _ :=
    { matchFinder := ⟨.lazy, 3, 3, 0, 0, 4, 1, 32, 0, 0, 0, 8, 4, 4, 0, 0, 0, false, true, 12, false,
      none, none, none, 0⟩
      maxHistoryBytes := window
      strategy := .lazy
      ldm := none }
  content _ := []
  frameDictionaryId _ := none
  newPrefixed _ _ _ _ := ()
  newLiterals _ _ := ()
  defaultTables := ()
  sequenceEncodingState _ := ()
  repeatOffsets _ := .initial
  newLdm _ _ := ()
  loadDictionary _ _ := ()
  shiftLdm _ _ := ()
  shiftHash3 _ _ := ()
  newBuffers := []
  insertRange m _ _ _ := m
  seedOptimalPrices scratch block _ _ m ldm := (none, tally scratch block, m, ldm)
  encodeContiguous frame start stop m last _ coding := tallyingBlock frame start stop m last coding
  encodePrefixed _ frame start stop p last _ coding := tallyingBlock frame start stop p last coding
  insertRange_period _ _ _ _ := rfl
  seed_period _ _ _ _ _ _ := rfl
  encode_period _ _ _ _ _ _ _ := rfl
  seed_alike _ _ block _ _ _ _ h := ⟨rfl, tally_alike h block, rfl⟩
  encode_alike frame start stop m last _ _ _ h := tallyingBlock_alike frame start stop m last h
  encodePrefixed_alike _ frame start stop p last _ _ _ h := tallyingBlock_alike frame start stop p last h

def tallyingOptions : EncoderOptions tallyingPieces := ⟨4096, true, false, (), none, false, .zstd1⟩

end Zstandard
