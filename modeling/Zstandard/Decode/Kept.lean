/-
The streaming decoder with the state each step leaves behind when it fails.

The steps are the ones of `Decode.Streaming`, with the same results; here an error comes with the decoder a
caller still holds. A compressed block that is rejected leaves whatever it got to change.
-/
import Zstandard.Decode.Stream

namespace Zstandard

namespace StreamingDecoder

/-! ## The state a step leaves -/

/-- What is left of a decoder whose compressed block was rejected: whatever the block got to change. -/
abbrev Leftover := StreamingDecoder → BlockHeader → Bytes → StreamingDecoder

section
variable (alloc : Allocator) (left : Leftover)

def processFrameHeaderKept (d : StreamingDecoder) : Result Bool × StreamingDecoder :=
  if d.inputPos = d.input.length then (.ok false, d)
  else if d.options.singleFrame ∧ d.decodedAFrame then (.error (.trailingInput d.streamInputPos), d)
  else
    match parseFrameHeaderWithFormat d.options.format d.unconsumedInput with
    | .ok (.skippable frame) =>
      if d.options.singleFrame then (.error (.trailingInput d.streamInputPos), d)
      else (.ok true, { d.advance frame.headerSize with state := .skippable frame.size })
    | .ok (.zstandard header) =>
      match (d.advance header.headerSize).startFrame header with
      | .ok d => (.ok true, { d with state := .blockHeader })
      | .error e => (.error e, (d.advance header.headerSize).compactBetweenFrames)
    | .error .unexpectedEof => (.ok false, d)
    | .error e => (.error e, d)

def processBlockHeaderKept (d : StreamingDecoder) : Result Bool × StreamingDecoder :=
  if d.input.length - d.inputPos < blockHeaderSize then (.ok false, d)
  else
    match BlockHeader.parse (d.unconsumedInput.take blockHeaderSize) with
    | .ok header => (.ok true, { d.advance blockHeaderSize with state := .blockPayload header })
    | .error e => (.error e, d)

/-- `finish_frame`, which takes the frame before it looks at its size. -/
def finishFrameKept (d : StreamingDecoder) : Result Unit × StreamingDecoder :=
  match d.finishFrame with
  | .ok d => (.ok (), d)
  | .error e => (.error e, { d with currentFrame := none })

/-- `decode_block`. Raw and run-length blocks are looked at before anything changes, and fewer than two bytes
of a compressed block do not get past its section headers. -/
def decodeBlockKept (d : StreamingDecoder) (header : BlockHeader) (payload : Bytes) : Result Unit × StreamingDecoder :=
  match d.decodeBlock alloc header payload with
  | .ok d => (.ok (), d)
  | .error e =>
    (.error e,
      if header.blockType = .compressed ∧ d.currentFrame.isSome ∧ 2 ≤ payload.length then left d header payload else d)

/-- The end of a frame: the next state, unless the frame is rejected. -/
def endFrameKept (d : StreamingDecoder) : Result Bool × StreamingDecoder :=
  match d.finishFrameKept with
  | (.ok (), d) => (.ok true, { d with state := .frameHeader })
  | (.error e, d) => (.error e, d)

def processBlockPayloadKept (d : StreamingDecoder) (header : BlockHeader) : Result Bool × StreamingDecoder :=
  if d.input.length - d.inputPos < header.payloadSize then (.ok false, d)
  else
    let payload := d.unconsumedInput.take header.payloadSize
    match (d.advance header.payloadSize).decodeBlockKept alloc left header payload with
    | (.error e, d) => (.error e, d)
    | (.ok (), d) =>
      if header.lastBlock then
        if d.currentFrame.any (·.header.checksum) then (.ok true,
          { d with state := .frameChecksum }) else d.endFrameKept
      else (.ok true, { d with state := .blockHeader })

def processFrameChecksumKept (d : StreamingDecoder) : Result Bool × StreamingDecoder :=
  if d.input.length - d.inputPos < 4 then (.ok false, d)
  else
    let expected := Zstandard.readU32Le d.unconsumedInput
    match d.currentFrame with
    | none => (.error .generic, d.advance 4)
    | some frame =>
      match d.verifyFrameChecksum frame expected with
      | .error e => (.error e, d.advance 4)
      | .ok () => (d.advance 4).endFrameKept

def processStepKept (d : StreamingDecoder) : Result Bool × StreamingDecoder :=
  match d.state with
  | .frameHeader => d.processFrameHeaderKept
  | .skippable remaining => (.ok (d.processSkippableFrame remaining).1, (d.processSkippableFrame remaining).2)
  | .blockHeader => d.processBlockHeaderKept
  | .blockPayload header => d.processBlockPayloadKept alloc left header
  | .frameChecksum => d.processFrameChecksumKept

def processLoopKept : Nat → StreamingDecoder → Result Unit × StreamingDecoder
  | 0, d => (.error .generic, d)
  | fuel + 1, d =>
    match d.processStepKept alloc left with
    | (.error e, d) => (.error e, d)
    | (.ok true, d) => processLoopKept fuel d.compactInput
    | (.ok false, d) => (.ok (), d)

def processKept (d : StreamingDecoder) : Result Unit × StreamingDecoder :=
  processLoopKept alloc left (2 * (d.input.length - d.inputPos) + 2) d

def pushKept (d : StreamingDecoder) (src : Bytes) : Result Unit × StreamingDecoder :=
  if d.finishedInput then (.error (.invalidParameter "cannot push after finish"), d)
  else (d.feed src).processKept alloc left

def finishKept (d : StreamingDecoder) : Result Unit × StreamingDecoder :=
  if d.finishedInput then (d.finishStatus, d)
  else
    match ({ d with finishedInput := true } : StreamingDecoder).processKept alloc left with
    | (.error e, d) => (.error e, d)
    | (.ok (), d) => (d.finishStatus, d)

/-! ## The same results -/

/-- The result, and the state when it is one that goes on. -/
def keptResult {A : Type} : Result A × StreamingDecoder → Result (A × StreamingDecoder)
  | (.ok a, d) => .ok (a, d)
  | (.error e, _) => .error e

theorem endFrameKept_result (d : StreamingDecoder) :
    keptResult d.endFrameKept = (do
      let d ← d.finishFrame
      .ok (true, { d with state := .frameHeader })) := by
  unfold endFrameKept finishFrameKept
  cases d.finishFrame <;> rfl

theorem processFrameHeaderKept_result (d : StreamingDecoder) :
    keptResult d.processFrameHeaderKept = d.processFrameHeader := by
  unfold processFrameHeaderKept processFrameHeader
  split
  · rfl
  split
  · rfl
  cases parseFrameHeaderWithFormat d.options.format d.unconsumedInput with
  | error e => cases e <;> rfl
  | ok fh =>
    cases fh with
    | skippable frame =>
      simp only
      split <;> rfl
    | zstandard header =>
      simp only
      cases (d.advance header.headerSize).startFrame header <;> rfl

theorem processBlockPayloadKept_result (d : StreamingDecoder) (header : BlockHeader) :
    keptResult (d.processBlockPayloadKept alloc left header) = d.processBlockPayload alloc header := by
  unfold processBlockPayloadKept processBlockPayload decodeBlockKept
  split
  · rfl
  simp only
  cases (d.advance header.payloadSize).decodeBlock alloc header (d.unconsumedInput.take header.payloadSize) with
  | error e => rfl
  | ok d =>
    rw [ok_bind]
    simp only
    split
    · split
      · rfl
      · exact endFrameKept_result d
    · rfl

theorem processFrameChecksumKept_result (d : StreamingDecoder) :
    keptResult d.processFrameChecksumKept = d.processFrameChecksum := by
  unfold processFrameChecksumKept processFrameChecksum
  split
  · rfl
  simp only
  cases d.currentFrame with
  | none => rfl
  | some frame =>
    simp only
    cases d.verifyFrameChecksum frame (Zstandard.readU32Le d.unconsumedInput) with
    | error e => rfl
    | ok _ => exact endFrameKept_result (d.advance 4)

theorem processStepKept_result (d : StreamingDecoder) :
    keptResult (d.processStepKept alloc left) = d.processStep alloc := by
  unfold processStepKept processStep
  cases d.state with
  | frameHeader => exact processFrameHeaderKept_result d
  | skippable remaining => rfl
  | blockHeader =>
    simp only
    unfold processBlockHeaderKept processBlockHeader
    split
    · rfl
    · cases BlockHeader.parse (d.unconsumedInput.take blockHeaderSize) <;> rfl
  | blockPayload header => exact processBlockPayloadKept_result alloc left d header
  | frameChecksum => exact processFrameChecksumKept_result d

theorem processLoopKept_result : ∀ (fuel : Nat) (d : StreamingDecoder),
    (keptResult (d.processLoopKept alloc left fuel)).map Prod.snd = d.processLoop alloc fuel
  | 0, _ => rfl
  | fuel + 1, d => by
    have hstep := processStepKept_result alloc left d
    unfold processLoopKept processLoop
    rw [← hstep]
    rcases d.processStepKept alloc left with ⟨e | progress, d'⟩
    · rfl
    · cases progress
      · rfl
      · exact processLoopKept_result fuel d'.compactInput

/-- The state of a call that succeeds is the one `push` and `finish` return, and they fail alike. -/
theorem pushKept_result (d : StreamingDecoder) (src : Bytes) :
    (keptResult (d.pushKept alloc left src)).map Prod.snd = d.push alloc src := by
  unfold pushKept push
  split
  · rfl
  · exact processLoopKept_result alloc left _ _

theorem finishKept_result (d : StreamingDecoder) :
    (keptResult (d.finishKept alloc left)).map Prod.snd = d.finish alloc := by
  unfold finishKept finish
  split
  · cases d.finishStatus <;> rfl
  · have hprocess := processLoopKept_result alloc left (2 * (d.input.length - d.inputPos) + 2)
      { d with finishedInput := true }
    unfold process processKept
    rw [← hprocess]
    rcases ({ d with finishedInput := true } : StreamingDecoder).processLoopKept alloc left
      (2 * (d.input.length - d.inputPos) + 2) with ⟨e | _, d'⟩
    · rfl
    · simp only [keptResult, Except.map, ok_bind]
      cases d'.finishStatus <;> rfl

/-! ## Runs that go on after an error -/

/-- A call on a decoder, `finish` included. -/
inductive Operation where
  | call (c : Call)
  | finish
deriving DecidableEq, Repr

/-- One operation: what it returns, and the decoder it leaves. -/
def Operation.run (d : StreamingDecoder) : Operation → Result Unit × StreamingDecoder
  | .call (.push src) => d.pushKept alloc left src
  | .call .takeOutput => (.ok (), d.takeOutput.2)
  | .call (.read dstLen) => (.ok (), (d.read dstLen).2)
  | .finish => d.finishKept alloc left

/-- The decoder after a list of operations, whatever they returned. -/
def afterOperations (d : StreamingDecoder) (ops : List Operation) : StreamingDecoder :=
  ops.foldl (fun d op => (op.run alloc left d).2) d

/-- A push or a `finish` that returns an error. Pushing behind a `finish` is refused, which says nothing about
the input. -/
def Operation.DecodingError (d : StreamingDecoder) (op : Operation) : Prop :=
  (∃ e, (op.run alloc left d).1 = .error e) ∧ ∀ src, op = .call (.push src) → d.finishedInput = false

/-- The next round takes its input and fails where other input would be taken: a frame that is not opened, a
compressed block that is rejected, or the wrong checksum of a frame whose size is right. -/
def Wasted (d : StreamingDecoder) : Prop :=
  match d.state with
  | .frameHeader => ∃ header e, d.inputPos ≠ d.input.length ∧ ¬ (d.options.singleFrame ∧ d.decodedAFrame) ∧
      parseFrameHeaderWithFormat d.options.format d.unconsumedInput = .ok (.zstandard header) ∧
      admitFrame d.dictionary d.options header d.totalOutputSize = .error e
  | .blockPayload header => header.blockType = .compressed ∧ 2 ≤ header.payloadSize ∧
      header.payloadSize ≤ d.input.length - d.inputPos ∧ d.currentFrame.isSome ∧
      ∃ e, (d.advance header.payloadSize).decodeBlock alloc header
        (d.unconsumedInput.take header.payloadSize) = .error e
  | .frameChecksum => ∃ frame e, 4 ≤ d.input.length - d.inputPos ∧ d.currentFrame = some frame ∧
      d.verifyFrameChecksum frame (Zstandard.readU32Le d.unconsumedInput) = .error e ∧ frame.checksum.isSome ∧
      checkProduced frame.header frame.frameOutputSize = .ok ()
  | _ => False

/-- No round of a call is wasted. -/
def CleanLoop : Nat → StreamingDecoder → Prop
  | 0, _ => True
  | fuel + 1, d => ¬ d.Wasted alloc ∧
    match d.processStepKept alloc left with
    | (.ok true, d) => CleanLoop fuel d.compactInput
    | _ => True

/-- No round of an operation is wasted. -/
def Operation.Clean (d : StreamingDecoder) : Operation → Prop
  | .call (.push src) =>
    d.finishedInput = false → (d.feed src).CleanLoop alloc left
      (2 * ((d.feed src).input.length - (d.feed src).inputPos) + 2)
  | .finish =>
    d.finishedInput = false →
      ({ d with finishedInput := true } : StreamingDecoder).CleanLoop alloc left (2 * (d.input.length - d.inputPos) + 2)
  | _ => True

/-- No round of any operation is wasted. -/
def CleanRun : StreamingDecoder → List Operation → Prop
  | _, [] => True
  | d, op :: ops => op.Clean alloc left d ∧ CleanRun (op.run alloc left d).2 ops

end

end StreamingDecoder

end Zstandard
