/-
Encoding one block: raw, RLE, one compressed block, or several sub-blocks cut after the sequences
have been planned.

What a compression attempt answers is left open: for each block it is either nothing, so that the
block is stored raw, or a payload with the entropy state the next block starts from. Everything else
is the encoder's: which bytes, sequences and literals each sub-block gets, what it does to the two
repeat offset histories it simulates, and what it falls back to.
-/
import Zstandard.Encode.Plan

namespace Zstandard

/-! ## Emitted blocks -/

/-- What an emitted block holds behind its header. A compressed block is kept with the plan it was
made from and the index of its first sequence in the plan of the whole block. -/
inductive BlockBody where
  | raw (bytes : Bytes)
  | rle (byte : UInt8)
  | compressed (payload : Bytes) (plan : SequencePlan) (seqStart : Nat)
deriving DecidableEq, Repr

/-- The bytes behind the header. -/
def BlockBody.payload : BlockBody → Bytes
  | .raw bytes => bytes
  | .rle byte => [byte]
  | .compressed payload _ _ => payload

/-- The type in the header. -/
def BlockBody.blockType : BlockBody → BlockType
  | .raw _ => .raw
  | .rle _ => .rle
  | .compressed .. => .compressed

/-- A block as the encoder appends it, with a header that fits what follows. -/
structure OutBlock where
  header : BlockHeader
  body : BlockBody
  type : header.blockType = body.blockType
  size : body.payload.length = header.payloadSize
deriving DecidableEq, Repr

namespace OutBlock

/-- A block of the bytes themselves. -/
def raw (lastBlock : Bool) (bytes : Bytes) : OutBlock :=
  ⟨{ lastBlock, blockType := .raw, blockSize := bytes.length }, .raw bytes, rfl, rfl⟩

/-- A block of one repeated byte. -/
def rle (lastBlock : Bool) (byte : UInt8) (size : Nat) : OutBlock :=
  ⟨{ lastBlock, blockType := .rle, blockSize := size }, .rle byte, rfl, rfl⟩

/-- A compressed block, with the part of the plan that it encodes. -/
def compressed (lastBlock : Bool) (payload : Bytes) (plan : SequencePlan) (seqStart : Nat) : OutBlock :=
  ⟨{ lastBlock, blockType := .compressed, blockSize := payload.length }, .compressed payload plan seqStart, rfl, rfl⟩

/-- The bytes of the block. -/
def bytes (b : OutBlock) : Bytes := b.header.encode ++ b.body.payload

end OutBlock

/-! ## Where to split -/

/-- `UpstreamStrategy`: the strategies of the reference encoder. -/
inductive UpstreamStrategy where
  | fast | doubleFast | greedy | lazy | lazy2 | binaryTreeLazy2 | binaryTreeOpt | binaryTreeUltra
  | binaryTreeUltra2
deriving DecidableEq, Repr

/-- What block encoding reads of `CompressionParameters`. -/
structure BlockParameters where
  strategy : UpstreamStrategy
  windowLog : Nat
deriving DecidableEq, Repr

/-- `should_try_post_sequence_split`. -/
def shouldTryPostSequenceSplit (params : BlockParameters) (seqCount : Nat) : Bool :=
  (params.strategy = .binaryTreeOpt ∨ params.strategy = .binaryTreeUltra ∨ params.strategy = .binaryTreeUltra2)
    ∧ params.windowLog ≥ 17 ∧ seqCount > 4

/-- A part with fewer sequences than this is not cut further, and a plan is cut no oftener than the next says. -/
def postSplitMinSequences : Nat := 300
def postSplitMaxSplits : Nat := 196

/-- The boundaries of a block's partitions: every part holds at least one sequence. -/
structure SplitPoints (seqCount : Nat) where
  points : List Nat
  first : points.head? = some 0
  last : points.getLast? = some seqCount
  increasing : points.Pairwise (· < ·)

/-- `derive_splits_recursive`, over the estimated cost of a range of sequences. -/
def deriveSplitsRecursive (cost : Nat → Nat → Nat) (splits : List Nat) (start stop : Nat) : List Nat :=
  if stop - start < postSplitMinSequences ∨ splits.length ≥ postSplitMaxSplits then splits
  else
    let mid := (start + stop) / 2
    if cost start mid + cost mid stop < cost start stop then
      deriveSplitsRecursive cost (deriveSplitsRecursive cost splits start mid ++ [mid]) mid stop
    else splits
termination_by stop - start
decreasing_by all_goals simp only [postSplitMinSequences] at *; omega

/-- The recursion appends boundaries strictly inside its range, in order. -/
theorem deriveSplitsRecursive_append (cost : Nat → Nat → Nat) (splits : List Nat) (start stop : Nat) :
    ∃ new, deriveSplitsRecursive cost splits start stop = splits ++ new ∧
      new.Pairwise (· < ·) ∧ ∀ p ∈ new, start < p ∧ p < stop := by
  induction splits, start, stop using deriveSplitsRecursive.induct cost with
  | case1 splits start stop h => exact ⟨[], by rw [deriveSplitsRecursive, if_pos h]; simp, .nil, by simp⟩
  | case2 splits start stop h mid hcost ih _ ih' =>
    obtain ⟨left, hl, hlp, hlr⟩ := ih
    obtain ⟨right, hr, hrp, hrr⟩ := ih'
    have hmid : start < mid ∧ mid < stop := by
      simp only [postSplitMinSequences, not_or, mid] at h ⊢; omega
    refine ⟨left ++ mid :: right, ?_, ?_, fun p hp => ?_⟩
    · rw [deriveSplitsRecursive, if_neg h]
      simp only
      rw [if_pos hcost]
      show deriveSplitsRecursive cost (deriveSplitsRecursive cost splits start mid ++ [mid]) mid stop = _
      rw [hr, hl]
      simp
    · refine List.pairwise_append.2 ⟨hlp, List.pairwise_cons.2 ⟨fun p hp => (hrr p hp).1, hrp⟩, ?_⟩
      intro p hp q hq
      have hp := (hlr p hp).2
      rcases List.mem_cons.1 hq with rfl | hq
      · exact hp
      · exact hp.trans (hrr q hq).1
    · rcases List.mem_append.1 hp with hp | hp
      · have := hlr p hp; omega
      · rcases List.mem_cons.1 hp with rfl | hp
        · exact hmid
        · have := hrr p hp; omega
  | case3 splits start stop h mid hcost =>
    refine ⟨[], ?_, .nil, by simp⟩
    rw [deriveSplitsRecursive, if_neg h]
    simp only
    rw [if_neg hcost, List.append_nil]

/-- `find_post_sequence_splits`. -/
def findPostSequenceSplits (cost : Nat → Nat → Nat) (seqCount : Nat) (h : 0 < seqCount) : SplitPoints seqCount where
  points := 0 :: ((deriveSplitsRecursive cost [] 0 seqCount).mergeSort ++ [seqCount])
  first := rfl
  last := by rw [← List.cons_append, List.getLast?_append_of_ne_nil _ (by simp)]; rfl
  increasing := by
    obtain ⟨new, hnew, hp, hr⟩ := deriveSplitsRecursive_append cost [] 0 seqCount
    rw [List.nil_append] at hnew
    have hsort : new.mergeSort = new := List.mergeSort_of_pairwise (hp.imp fun h => by simpa using h.le)
    rw [hnew, hsort]
    refine List.pairwise_cons.2 ⟨fun p hmem => ?_, List.pairwise_append.2 ⟨hp, List.pairwise_singleton _ _, ?_⟩⟩
    · rcases List.mem_append.1 hmem with hmem | hmem
      · exact (hr p hmem).1
      · rw [List.mem_singleton.1 hmem]; exact h
    · intro p hmem q hq
      rw [List.mem_singleton.1 hq]
      exact (hr p hmem).2

/-- `build_literal_offset_table`: where the literals of each sequence start. -/
def buildLiteralOffsetTable (sequences : List SequenceCommand) : List Nat :=
  sequences.scanl (fun cum seq => cum + seq.literalLength) 0

/-! ## Repeat offsets across sub-blocks -/

/-- What `reconcile_subblock_repcodes` leaves behind. -/
structure Reconciled where
  sequences : List SequenceCommand
  offsetCodes : List Nat
  decoderReps : RepeatOffsets
  compressorReps : RepeatOffsets
deriving DecidableEq, Repr

/-- The value of an explicit offset. A sum past the largest u32 ends the program. -/
def explicitOffsetValue (rawOffset : Nat) : Result Nat :=
  if rawOffset + 3 < 2 ^ 32 then .ok (rawOffset + 3) else .error .generic

/-- `reconcile_subblock_repcodes`: replace the repeat codes that mean something else to the decoder,
and advance both histories through the sequences as replaced. -/
def reconcileSubblockRepcodes :
    List SequenceCommand → List Nat → RepeatOffsets → RepeatOffsets → Result Reconciled
  | seq :: sequences, code :: offsetCodes, decoderReps, compressorReps => do
    let ll0 := seq.literalLength == 0
    let cRaw := compressorReps.resolveRepcodeToRaw seq.offsetValue ll0
    let dRaw := decoderReps.resolveRepcodeToRaw seq.offsetValue ll0
    let patch := 1 ≤ seq.offsetValue ∧ seq.offsetValue ≤ 3 ∧ cRaw ≠ dRaw
    let offsetValue ← if patch then explicitOffsetValue cRaw else .ok seq.offsetValue
    let r ← reconcileSubblockRepcodes sequences offsetCodes (decoderReps.advanceRepState offsetValue ll0)
      (compressorReps.advanceRepState offsetValue ll0)
    .ok { r with sequences := { seq with offsetValue } :: r.sequences
                 offsetCodes := (if patch then offsetCodeUnchecked offsetValue else code) :: r.offsetCodes }
  | sequences, offsetCodes, decoderReps, compressorReps =>
    .ok { sequences, offsetCodes, decoderReps, compressorReps }

/-! ## Sub-blocks -/

/-- The locals of `encode_split_subblocks`. -/
structure SplitState (E : Type) where
  out : List OutBlock
  srcPos : Nat
  compressorReps : RepeatOffsets
  decoderReps : RepeatOffsets
  prevWasUncompressed : Bool
  anyCompressed : Bool
  entropy : E

/-- The answer of `encode_compressed_block_direct`: the payload and the entropy state after it, or
nothing. -/
abbrev Attempt (E : Type) := Option (Bytes × E)

/-- The sequences of a part, the first `n` from `seqStart` on. -/
def part {α : Type} (l : List α) (seqStart seqEnd : Nat) : List α := (l.drop seqStart).take (seqEnd - seqStart)

/-- The literals of a part; the last part takes the trailing ones too. -/
def SequencePlan.subLiterals (plan : SequencePlan) (litOffsets : List Nat) (seqStart seqEnd : Nat) : Bytes :=
  let litEnd := if seqEnd = plan.sequences.length then plan.literals.length else litOffsets.getD seqEnd 0
  part plan.literals (litOffsets.getD seqStart 0) litEnd

variable {E : Type}

/-- The sequences of a part, reconciled behind a raw sub-block. -/
def SplitState.reconciled (s : SplitState E) (plan : SequencePlan) (seqStart seqEnd : Nat) : Result Reconciled :=
  let sequences := part plan.sequences seqStart seqEnd
  let offsetCodes := part plan.offsetCodes seqStart seqEnd
  if s.prevWasUncompressed then reconcileSubblockRepcodes sequences offsetCodes s.decoderReps s.compressorReps
  else .ok { sequences, offsetCodes, decoderReps := s.decoderReps, compressorReps := s.compressorReps }

/-- The body of the loop of `encode_split_subblocks`. A slice out of bounds, an offset that does not fit
and an offset value that does not resolve, at which the source panics, are errors. -/
def splitSubblock (chunk : Bytes) (plan : SequencePlan) (litOffsets : List Nat) (lastBlock : Bool)
    (seqStart seqEnd : Nat) (attempt : Attempt E) (s : SplitState E) : Result (SplitState E) := do
  let subLiterals := plan.subLiterals litOffsets seqStart seqEnd
  let r ← s.reconciled plan seqStart seqEnd
  let srcBytes := subLiterals.length + matchBytes r.sequences
  let subChunk ← getRange chunk s.srcPos (s.srcPos + srcBytes)
  -- the walk starts from the history that reconciling has already advanced
  let (_, repeatOffsets) ← r.decoderReps.resolveAll r.sequences
  let subPlan : SequencePlan :=
    { literals := subLiterals, sequences := r.sequences
      literalCodes := part plan.literalCodes seqStart seqEnd, offsetCodes := r.offsetCodes
      matchCodes := part plan.matchCodes seqStart seqEnd, repeatOffsets }
  match attempt with
  | some (payload, entropy) =>
    .ok { out := s.out ++ [.compressed lastBlock payload subPlan seqStart], srcPos := s.srcPos + srcBytes
          compressorReps := repeatOffsets, decoderReps := repeatOffsets, prevWasUncompressed := false
          anyCompressed := true, entropy }
  | none =>
    .ok { s with
          out := s.out ++ [.raw lastBlock subChunk], srcPos := s.srcPos + srcBytes
          compressorReps := r.sequences.foldl
            (fun reps seq => reps.advanceRepStateEncode seq.offsetValue (seq.literalLength == 0)) r.compressorReps
          decoderReps := r.decoderReps, prevWasUncompressed := true }

/-- The loop of `encode_split_subblocks`, over the boundaries left and the answers to come. -/
def splitLoop (chunk : Bytes) (plan : SequencePlan) (litOffsets : List Nat) (lastFrameBlock : Bool) :
    List Nat → List (Attempt E) → SplitState E → Result (SplitState E)
  | seqStart :: seqEnd :: points, attempt :: attempts, s => do
    let lastBlock := lastFrameBlock && points.isEmpty
    let s ← splitSubblock chunk plan litOffsets lastBlock seqStart seqEnd attempt s
    splitLoop chunk plan litOffsets lastFrameBlock (seqEnd :: points) attempts s
  | _, _, s => .ok s

/-- `encode_split_subblocks`: the blocks it appends, and what it returns to its caller. -/
def encodeSplitSubblocks (chunk : Bytes) (plan : SequencePlan) (splitPoints litOffsets : List Nat)
    (initialRepeatOffsets : RepeatOffsets) (entropy : E) (lastFrameBlock : Bool) (attempts : List (Attempt E)) :
    Result (List OutBlock × Option (RepeatOffsets × E)) := do
  let s ← splitLoop chunk plan litOffsets lastFrameBlock splitPoints attempts
    { out := [], srcPos := 0, compressorReps := initialRepeatOffsets, decoderReps := initialRepeatOffsets
      prevWasUncompressed := false, anyCompressed := false, entropy }
  .ok (s.out, if s.anyCompressed then some (s.decoderReps, s.entropy) else none)

/-! ## Blocks -/

/-- Shorter chunks are stored. -/
def minCompressibleBlockSize : Nat := 7

/-- `should_emit_raw_block_without_compression`. -/
def shouldEmitRawBlockWithoutCompression (rawSize : Nat) : Bool := rawSize < minCompressibleBlockSize

/-- `all_bytes_equal`, of a chunk that is not empty. -/
def allBytesEqual : Bytes → Bool
  | [] => true
  | first :: rest => rest.all (· == first)

/-- What a block of the frame starts from. -/
structure BlockState (E : Type) where
  repeatOffsets : RepeatOffsets
  entropy : E

/-- What the planner, the splitter and the compression attempts answer for a block. -/
structure BlockChoices (E : Type) where
  plan : SequencePlan
  splits : SplitPoints plan.sequences.length
  /-- The answers for the sub-blocks, one each. -/
  attempts : List (Attempt E)
  attempted : attempts.length + 1 = splits.points.length
  /-- The answer for the block as a whole. -/
  whole : Attempt E

/-- Whether the plan is cut into sub-blocks. -/
def BlockChoices.split (choices : BlockChoices E) (params : BlockParameters) : Bool :=
  shouldTryPostSequenceSplit params choices.plan.sequences.length && choices.splits.points.length > 2

/-- The block encoders from the plan on: the blocks appended and the state after them. -/
def encodePlannedBlock (params : BlockParameters) (chunk : Bytes) (choices : BlockChoices E) (st : BlockState E)
    (lastBlock : Bool) : Result (List OutBlock × BlockState E) :=
  let plan := choices.plan
  if choices.split params then do
    let (out, next) ← encodeSplitSubblocks chunk plan choices.splits.points
      (buildLiteralOffsetTable plan.sequences) st.repeatOffsets st.entropy lastBlock choices.attempts
    match next with
    | some (repeatOffsets, entropy) => .ok (out, { repeatOffsets, entropy })
    -- every sub-block was raw: the fallback appends to what the sub-blocks have appended
    | none => .ok (out ++ [.raw lastBlock chunk], st)
  else
    match choices.whole with
    | some (payload, entropy) =>
      .ok ([.compressed lastBlock payload plan 0], { repeatOffsets := plan.repeatOffsets, entropy })
    | none => .ok ([.raw lastBlock chunk], st)

/-- What `encode_block_into_contiguous` and its prefixed twin append. The two differ in the planner
they call and in the match state they feed. -/
def encodeBlock (params : BlockParameters) (chunk : Bytes) (choices : BlockChoices E) (st : BlockState E)
    (lastBlock : Bool) : Result (List OutBlock × BlockState E) :=
  match chunk with
  | [] => .ok ([.raw lastBlock []], st)
  | byte :: _ =>
    if shouldEmitRawBlockWithoutCompression chunk.length then .ok ([.raw lastBlock chunk], st)
    else if chunk.length ≥ 2 ∧ allBytesEqual chunk then .ok ([.rle lastBlock byte chunk.length], st)
    else encodePlannedBlock params chunk choices st lastBlock

/-- `encode_block_into_contiguous`: the two encoders differ in the parser that made the plan. -/
def encodeBlockIntoContiguous (params : BlockParameters) (chunk : Bytes) (choices : BlockChoices E)
    (st : BlockState E) (lastBlock : Bool) : Result (List OutBlock × BlockState E) :=
  encodeBlock params chunk choices st lastBlock

/-- `encode_block_into_prefixed_contiguous`. -/
def encodeBlockIntoPrefixedContiguous (params : BlockParameters) (chunk : Bytes) (choices : BlockChoices E)
    (st : BlockState E) (lastBlock : Bool) : Result (List OutBlock × BlockState E) :=
  encodeBlock params chunk choices st lastBlock

end Zstandard
