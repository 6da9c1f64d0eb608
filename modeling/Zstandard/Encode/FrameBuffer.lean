/-
The frame buffer of the streaming encoder stays within its capacity, and every compaction keeps a window and rebases the
finder. Capacity, history limit, block size and rebase period are computed apart; what makes them fit is that either one
period covers the whole buffer, or the slack holds a whole period.

A run of calls is a run of single steps: the buffer topped up, one block encoded from it, or a change that touches
neither the buffer nor the frame. The invariant is carried over steps.
-/
import Zstandard.Encode.StreamingEncoder

namespace Zstandard

variable {π : Pieces}

/-! ## Sizes -/

theorem historyLimitFor_le (params : CompressionParameters) : historyLimitFor params ≤ 2 ^ 27 := min_le_right _ _

theorem streamBlockSize_pos (params : CompressionParameters) (options : EncoderOptions π) :
    0 < streamBlockSize params options := by
  unfold streamBlockSize blockSizeFor
  refine lt_min (lt_of_lt_of_le ?_ (le_max_right _ _)) (lt_of_lt_of_le Nat.one_pos (le_max_right _ _))
  decide

theorem streamBlockSize_le (params : CompressionParameters) (options : EncoderOptions π) :
    streamBlockSize params options ≤ max (historyLimitFor params) 1 := by
  unfold streamBlockSize blockSizeFor
  exact (min_le_right _ _).trans (max_le_max (min_le_left _ _) le_rfl)

theorem usizeAdd_eq {a b : Nat} (h : a + b ≤ 2 ^ 63) : usizeAdd a b = a + b :=
  min_eq_left (h.trans (by decide))

theorem usizeMul_eq {a b : Nat} (h : a * b ≤ 2 ^ 63) : usizeMul a b = a * b :=
  min_eq_left (h.trans (by decide))

/-- The two bands: a period that covers two windows and a block, or a slack that holds a period. -/
theorem historySlackFor_spec (params : CompressionParameters) (options : EncoderOptions π) :
    (2 * historyLimitFor params + streamBlockSize params options ≤ params.matchFinder.rebasePeriod ∧
      historySlackFor params options = historyLimitFor params) ∨
    (params.matchFinder.rebasePeriod ≤ historySlackFor params options ∧
      historyLimitFor params ≤ historySlackFor params options ∧
      historySlackFor params options ≤ 2 * historyLimitFor params + streamBlockSize params options) := by
  have hhistory := historyLimitFor_le params
  have hblock := streamBlockSize_le params options
  have hunwidened : usizeAdd (usizeMul (historyLimitFor params) 2) (streamBlockSize params options) =
      2 * historyLimitFor params + streamBlockSize params options := by
    rw [usizeMul_eq (by omega), usizeAdd_eq (by omega), Nat.mul_comm]
  unfold historySlackFor
  dsimp only
  rw [hunwidened]
  split
  · exact .inl ⟨‹_›, rfl⟩
  · exact .inr ⟨le_max_right _ _, le_max_left _ _, by omega⟩

/-- Nothing saturates. -/
theorem historyAndSlack_eq (params : CompressionParameters) (options : EncoderOptions π) :
    usizeAdd (historyLimitFor params) (historySlackFor params options) =
      historyLimitFor params + historySlackFor params options := by
  have hhistory := historyLimitFor_le params
  have hblock := streamBlockSize_le params options
  apply usizeAdd_eq
  rcases historySlackFor_spec params options with ⟨-, h⟩ | ⟨-, -, h⟩ <;> omega

theorem frameCapacityFor_eq (params : CompressionParameters) (options : EncoderOptions π) :
    frameCapacityFor params options =
      historyLimitFor params + historySlackFor params options + streamBlockSize params options := by
  have hhistory := historyLimitFor_le params
  have hblock := streamBlockSize_le params options
  unfold frameCapacityFor
  rw [historyAndSlack_eq]
  apply usizeAdd_eq
  rcases historySlackFor_spec params options with ⟨-, h⟩ | ⟨-, -, h⟩ <;> omega

/-- What a compaction of a buffer of `liveEnd` bytes drops. -/
structure DropOk (params : CompressionParameters) (options : EncoderOptions π) (liveEnd dropped : Nat) : Prop where
  keeps : dropped + historyLimitFor params ≤ liveEnd
  makesRoom : liveEnd ≤ dropped + historyLimitFor params + historySlackFor params options
  route : liveEnd ≤ params.matchFinder.rebasePeriod ∨
    0 < dropped ∧ dropped % params.matchFinder.rebasePeriod = 0

/-- In either band the drop that compaction decides on leaves a window, makes room for a block, and can be rebased. -/
theorem alignedDrop_ok {params : CompressionParameters} {options : EncoderOptions π} {liveEnd : Nat}
    (hover : historyLimitFor params + historySlackFor params options < liveEnd)
    (hcapacity : liveEnd ≤ frameCapacityFor params options) :
    DropOk params options liveEnd (alignedDrop params (liveEnd - historyLimitFor params)) := by
  rw [frameCapacityFor_eq] at hcapacity
  have hperiod := params.matchFinder.rebasePeriod_pos
  unfold alignedDrop
  dsimp only
  rcases historySlackFor_spec params options with ⟨hwide, hslack⟩ | ⟨hheld, hslack, -⟩
  · -- the buffer is inside one period, so whatever is dropped is moved bodily
    have hlive : liveEnd ≤ params.matchFinder.rebasePeriod := by omega
    split
    · exact ⟨by omega, by omega, .inl hlive⟩
    · -- only a window of no bytes can want a whole period
      have hmod : (liveEnd - historyLimitFor params) % params.matchFinder.rebasePeriod = 0 := by
        rw [show liveEnd - historyLimitFor params = params.matchFinder.rebasePeriod by omega, Nat.mod_self]
      exact ⟨by omega, by omega, .inl hlive⟩
  · -- more than a period has scrolled out, so at least one whole period goes
    have hlt := Nat.mod_lt (liveEnd - historyLimitFor params) hperiod
    have hle := Nat.mod_le (liveEnd - historyLimitFor params) params.matchFinder.rebasePeriod
    rw [if_neg (by omega)]
    refine ⟨by omega, by omega, .inr ⟨by omega, ?_⟩⟩
    exact Nat.sub_mod_eq_zero_of_mod_eq (Nat.mod_mod _ _).symm

/-! ## The frame -/

/-- A contiguous finder has the period that the sizes were computed from. -/
def StreamFrame.PeriodOk (params : CompressionParameters) (s : StreamFrame π) : Prop :=
  ∀ m, s.matchState = .contiguous m → m.rebasePeriod = params.matchFinder.rebasePeriod

/-- A state rebases by either route. -/
theorem ContiguousBlockMatchState.shiftPositions_isSome {m : ContiguousBlockMatchState} {delta liveEnd : Nat}
    (h : liveEnd ≤ m.rebasePeriod ∨ delta % m.rebasePeriod = 0) :
    ∃ m', m.shiftPositions delta liveEnd = some m' := by
  unfold shiftPositions
  rw [if_neg (by omega)]
  exact ⟨_, rfl⟩

theorem MatchFinder.shiftPositionsBySlot_length (f : MatchFinder) (delta : Nat) :
    (f.shiftPositionsBySlot delta).previous.length = f.previous.length := by
  simp only [MatchFinder.shiftPositionsBySlot, List.length_append, shiftRawPositions_length]
  rw [← List.length_append, List.take_append_drop, movedToFront_length]

/-- Rebasing leaves the tables of a finder as long as they were. -/
theorem ContiguousBlockMatchStateInner.rebasePeriod_shift (delta : Nat) (bySlot : Bool) :
    ∀ inner : ContiguousBlockMatchStateInner, (inner.shiftPositions delta bySlot).rebasePeriod = inner.rebasePeriod
  | .chain f => by
    cases bySlot with
    | false => exact shiftRawPositions_length f.previous delta noPos
    | true => exact f.shiftPositionsBySlot_length delta
  | .binaryTree f => by cases bySlot <;> rfl
  | .fast _ | .wideFast _ | .doubleFast _ | .wideDoubleFast _ | .row _ => rfl

theorem ContiguousBlockMatchState.rebasePeriod_shift {m m' : ContiguousBlockMatchState} {delta liveEnd : Nat}
    (h : m.shiftPositions delta liveEnd = some m') : m'.rebasePeriod = m.rebasePeriod := by
  unfold shiftPositions at h
  split at h
  · cases h
  · obtain rfl := Option.some.inj h
    exact m.inner.rebasePeriod_shift delta _

theorem ContiguousBlockMatchState.rebasePeriod_reset (m : ContiguousBlockMatchState) :
    m.reset.rebasePeriod = m.rebasePeriod := by
  unfold rebasePeriod reset
  cases m.inner with
  | chain f => exact List.length_replicate
  | _ => rfl

theorem newMatchState_periodOk (coder : BlockCoder π) (dictionary : Option π.Dictionary)
    (params : CompressionParameters) (capacity limit : Nat) {m : ContiguousBlockMatchState}
    (h : newMatchState coder dictionary params capacity limit = .contiguous m) :
    m.rebasePeriod = params.matchFinder.rebasePeriod := by
  unfold newMatchState at h
  have hnew := ContiguousBlockMatchState.rebasePeriod_new limit params.matchFinder
  split at h
  · obtain rfl := StreamingMatchState.contiguous.inj h; exact hnew
  · split at h
    · obtain rfl := StreamingMatchState.contiguous.inj h; exact hnew
    · cases h

/-- How a compaction goes: a window is kept, and a contiguous finder is rebased. -/
structure CompactOk (coder : BlockCoder π) (options : EncoderOptions π) (params : CompressionParameters)
    (s : StreamFrame π) : Prop where
  keeps : historyLimitFor params ≤ (s.compact coder options params (historyLimitFor params)).frame.length
  suffix : (s.compact coder options params (historyLimitFor params)).frame =
    s.frame.drop (alignedDrop params (s.frame.length - historyLimitFor params))
  makesRoom : (s.compact coder options params (historyLimitFor params)).frame.length +
    streamBlockSize params options ≤ frameCapacityFor params options
  rebased : ∀ m, s.matchState = .contiguous m →
    ∃ m', m.shiftPositions (alignedDrop params (s.frame.length - historyLimitFor params)) s.frame.length = some m' ∧
      (s.compact coder options params (historyLimitFor params)).matchState = .contiguous m' ∧
      (s.frame.length ≤ m.rebasePeriod ∨
        0 < alignedDrop params (s.frame.length - historyLimitFor params) ∧
        alignedDrop params (s.frame.length - historyLimitFor params) % m.rebasePeriod = 0)

theorem StreamFrame.rebuild_frame (coder : BlockCoder π) (options : EncoderOptions π) (params : CompressionParameters)
    (s : StreamFrame π) : (s.rebuild coder options params).frame = s.frame := by
  unfold rebuild
  dsimp only
  split <;> rfl

theorem StreamFrame.compact_frame (coder : BlockCoder π) (options : EncoderOptions π) (params : CompressionParameters)
    (historyLimit : Nat) (s : StreamFrame π) : (s.compact coder options params historyLimit).frame =
      s.frame.drop (alignedDrop params (s.frame.length - historyLimit)) := by
  unfold compact
  dsimp only
  split
  · rfl
  · exact StreamFrame.rebuild_frame ..

/-- A buffer over the limit and within its capacity is compacted as it should be. -/
theorem StreamFrame.compact_ok (coder : BlockCoder π) {options : EncoderOptions π} {params : CompressionParameters}
    {s : StreamFrame π} (hperiod : s.PeriodOk params)
    (hover : historyLimitFor params + historySlackFor params options < s.frame.length)
    (hcapacity : s.frame.length ≤ frameCapacityFor params options) : CompactOk coder options params s := by
  have hdrop := alignedDrop_ok hover hcapacity
  have hkeeps := hdrop.keeps
  have hroom := hdrop.makesRoom
  constructor
  · rw [StreamFrame.compact_frame, List.length_drop]; omega
  · exact StreamFrame.compact_frame ..
  · rw [StreamFrame.compact_frame, List.length_drop, frameCapacityFor_eq]; omega
  · intro m hm
    have hroute := hdrop.route
    rw [← hperiod m hm] at hroute
    obtain ⟨m', hm'⟩ := ContiguousBlockMatchState.shiftPositions_isSome (hroute.imp_right And.right)
    refine ⟨m', hm', ?_, hroute⟩
    unfold compact
    dsimp only
    rw [hm]; dsimp only
    rw [hm']

theorem StreamFrame.rebuild_periodOk (coder : BlockCoder π) (options : EncoderOptions π)
    (params : CompressionParameters) {s : StreamFrame π} (h : s.PeriodOk params) :
    (s.rebuild coder options params).PeriodOk params := by
  -- whichever finder is taken, emptied in place or built anew, has the period of the parameters
  have hm : ∀ m₀ : Option ContiguousBlockMatchState,
      (∀ m, m₀ = some m → m.rebasePeriod = params.matchFinder.rebasePeriod) → ∀ limit : Nat,
      (m₀.getD (.newWithPositionLimit limit params.matchFinder)).rebasePeriod = params.matchFinder.rebasePeriod := by
    intro m₀ h₀ limit
    cases m₀ with
    | none => exact ContiguousBlockMatchState.rebasePeriod_new limit params.matchFinder
    | some m => exact h₀ m rfl
  have hreset : ∀ m₀, s.matchState = .contiguous m₀ → ∀ m,
      m₀.resetIfCompatible params.matchFinder (matchPositionLimitFor params options) = some m →
      m.rebasePeriod = params.matchFinder.rebasePeriod := by
    intro m₀ hstate m hm
    unfold ContiguousBlockMatchState.resetIfCompatible at hm
    split at hm
    · cases hm
    · obtain rfl := Option.some.inj hm
      rw [ContiguousBlockMatchState.rebasePeriod_reset]
      exact h m₀ hstate
  unfold rebuild
  dsimp only
  split
  · intro m heq
    obtain rfl := StreamingMatchState.contiguous.inj heq
    refine hm _ ?_ _
    split
    · rename_i m₀ hstate
      exact hreset m₀ hstate
    · rintro _ ⟨⟩
  · intro m heq
    obtain rfl := StreamingMatchState.contiguous.inj heq
    rw [coder.insertRange_period]
    refine hm _ ?_ _
    split
    · rename_i m₀ hstate
      exact hreset m₀ hstate
    · rintro _ ⟨⟩

theorem StreamFrame.compact_periodOk (coder : BlockCoder π) (options : EncoderOptions π)
    (params : CompressionParameters) (historyLimit : Nat) {s : StreamFrame π} (h : s.PeriodOk params) :
    (s.compact coder options params historyLimit).PeriodOk params := by
  unfold compact
  dsimp only
  split
  · rename_i m heq
    intro m' hm'
    obtain rfl := StreamingMatchState.contiguous.inj hm'
    split at heq
    · rename_i m₀ hm₀
      rw [ContiguousBlockMatchState.rebasePeriod_shift heq]; exact h m₀ hm₀
    · cases heq
  · exact StreamFrame.rebuild_periodOk coder options params h

/-- The invariant of the frame between blocks. -/
structure StreamFrame.Within (options : EncoderOptions π) (params : CompressionParameters)
    (s : StreamFrame π) : Prop where
  length_le : s.frame.length ≤ frameCapacityFor params options
  period : s.PeriodOk params

/-- What is left of the old frame when a block is appended to it. -/
def StreamFrame.beforeBlock (coder : BlockCoder π) (options : EncoderOptions π) (params : CompressionParameters)
    (s : StreamFrame π) : StreamFrame π :=
  if s.frame.length > usizeAdd (historyLimitFor params) (historySlackFor params options) then
    s.compact coder options params (historyLimitFor params) else s

theorem StreamFrame.beforeBlock_within (coder : BlockCoder π) {options : EncoderOptions π}
    {params : CompressionParameters} {s : StreamFrame π} (h : s.Within options params) :
    (s.beforeBlock coder options params).frame.length + streamBlockSize params options ≤
      frameCapacityFor params options ∧
      (s.beforeBlock coder options params).PeriodOk params := by
  unfold beforeBlock
  rw [historyAndSlack_eq]
  split
  · exact ⟨(StreamFrame.compact_ok coder h.period ‹_› h.length_le).makesRoom,
      StreamFrame.compact_periodOk coder options params _ h.period⟩
  · exact ⟨by rw [frameCapacityFor_eq]; omega, h.period⟩

/-- What compaction drops is the front, and where it drops anything a window is left. -/
theorem StreamFrame.beforeBlock_held (coder : BlockCoder π) {options : EncoderOptions π}
    {params : CompressionParameters} {s : StreamFrame π} (h : s.Within options params) :
    ∃ dropped, s.frame = dropped ++ (s.beforeBlock coder options params).frame ∧
      (dropped = [] ∨ historyLimitFor params ≤ (s.beforeBlock coder options params).frame.length) := by
  unfold beforeBlock
  rw [historyAndSlack_eq]
  split
  · have hcompact := StreamFrame.compact_ok coder h.period ‹_› h.length_le
    refine ⟨s.frame.take (alignedDrop params (s.frame.length - historyLimitFor params)), ?_, .inr hcompact.keeps⟩
    rw [hcompact.suffix, List.take_append_drop]
  · exact ⟨[], rfl, .inl rfl⟩

/-- Encoding a block appends it to what was left, whatever comes of it, and the finder keeps its period. -/
theorem StreamFrame.encodeBlock_spec (coder : BlockCoder π) (options : EncoderOptions π)
    (dictionary : Option π.Dictionary) (params : CompressionParameters) (block : Bytes) (lastBlock : Bool)
    (s : StreamFrame π) :
    (s.encodeBlock coder options dictionary params block lastBlock).2.2.frame =
        (s.beforeBlock coder options params).frame ++ block ∧
      ((s.beforeBlock coder options params).PeriodOk params →
        (s.encodeBlock coder options dictionary params block lastBlock).2.2.PeriodOk params) := by
  unfold encodeBlock
  dsimp only
  rw [show (if s.frame.length > usizeAdd (historyLimitFor params) (historySlackFor params options) then
    s.compact coder options params (historyLimitFor params) else s) = s.beforeBlock coder options params from rfl]
  generalize s.beforeBlock coder options params = s
  cases hm : s.matchState with
  | prefixed p =>
    refine ⟨rfl, fun _ m h => ?_⟩
    cases h
  | contiguous m =>
    dsimp only
    -- the finder before the block is encoded, whether or not the block is parsed twice
    generalize hseed : (if s.frame.length = 0 then
      coder.seedOptimalPrices s.coding.scratch ((s.frame ++ block).take (s.frame ++ block).length)
        s.coding.repeatOffsets { params with maxHistoryBytes := historyLimitFor params } m s.coding.ldm
      else (none, s.coding.scratch, m, s.coding.ldm)) = seed
    have hperiod : seed.2.2.1.rebasePeriod = m.rebasePeriod := by
      subst hseed
      split
      · exact coder.seed_period ..
      · rfl
    obtain ⟨error, scratch, m', ldm⟩ := seed
    cases error with
    | some error =>
      refine ⟨rfl, fun h m₁ hm₁ => ?_⟩
      obtain rfl := StreamingMatchState.contiguous.inj hm₁
      rw [← h m hm]; exact hperiod
    | none =>
      refine ⟨rfl, fun h m₁ hm₁ => ?_⟩
      obtain rfl := StreamingMatchState.contiguous.inj hm₁
      dsimp only
      rw [coder.encode_period, ← h m hm]; exact hperiod

/-- A block of at most the block size keeps the frame within its capacity. -/
theorem StreamFrame.encodeBlock_within (coder : BlockCoder π) {options : EncoderOptions π}
    (dictionary : Option π.Dictionary) {params : CompressionParameters} {block : Bytes} (lastBlock : Bool)
    {s : StreamFrame π} (h : s.Within options params) (hblock : block.length ≤ streamBlockSize params options) :
    (s.encodeBlock coder options dictionary params block lastBlock).2.2.Within options params := by
  obtain ⟨hlen, hperiod⟩ := StreamFrame.beforeBlock_within coder h
  obtain ⟨hframe, hkept⟩ := s.encodeBlock_spec coder options dictionary params block lastBlock
  refine ⟨?_, hkept hperiod⟩
  rw [hframe, List.length_append]; omega

/-! ## Single steps -/

namespace StreamingEncoder

/-- Input taken into the buffer. -/
def topUp (e : StreamingEncoder π) (src : Bytes) : StreamingEncoder π :=
  { e with bufferedInput := e.bufferedInput ++ src }

/-- One turn of the loop: the buffer is topped up, and a full one is encoded. -/
theorem pushLoop_cons (coder : BlockCoder π) (target fuel : Nat) (b : UInt8) (src : Bytes) (e : StreamingEncoder π)
    {take : Nat} (htake : min (target - e.bufferedInput.length) (b :: src).length = take) :
    pushLoop coder target (fuel + 1) (b :: src) e =
      if (e.topUp ((b :: src).take take)).bufferedInput.length = target then
        match (e.topUp ((b :: src).take take)).encodeBufferedChunk coder with
        | (some error, e) => some (some error, e, (b :: src).drop take)
        | (none, e) => pushLoop coder target fuel ((b :: src).drop take) e
      else pushLoop coder target fuel ((b :: src).drop take) (e.topUp ((b :: src).take take)) := by
  subst htake; rfl

/-- A change that touches neither the buffer nor the frame, and leaves the drained bytes inside the output. -/
structure SameFrame (e e' : StreamingEncoder π) : Prop where
  options : e'.options = e.options
  dictionary : e'.dictionary = e.dictionary
  params : e'.params = e.params
  buffered : e'.bufferedInput = e.bufferedInput
  state : e'.state = e.state
  pos : e.outputPos ≤ e.output.length → e'.outputPos ≤ e'.output.length

/-- A single step of a call: the buffer topped up to the target, one block encoded, a new frame, or anything that leaves
the buffer and the frame alone. -/
inductive Step (coder : BlockCoder π) : StreamingEncoder π → StreamingEncoder π → Prop
  | topUp (e : StreamingEncoder π) (src : Bytes) (h : e.bufferedInput.length + src.length ≤ e.pushTarget) :
    Step coder e (e.topUp src)
  | block (e : StreamingEncoder π) (take : Nat) (lastBlock : Bool) (h : take ≤ e.blockSize) :
    Step coder e (e.encodeBufferedBlock coder take lastBlock).2
  | newFrame (e : StreamingEncoder π) : Step coder e (e.resetFrameState coder).2
  | other (e e' : StreamingEncoder π) (h : SameFrame e e') : Step coder e e'

abbrev Steps (coder : BlockCoder π) : StreamingEncoder π → StreamingEncoder π → Prop :=
  Relation.ReflTransGen (Step coder)

/-- The invariant of every state on the way. -/
structure Within (e : StreamingEncoder π) : Prop where
  state : e.state.Within e.options e.params
  buffered_le : e.bufferedInput.length ≤ e.pushTarget

/-- What an encoder never changes, and what one block does to the others. -/
structure Encoded (coder : BlockCoder π) (take : Nat) (lastBlock : Bool) (e e' : StreamingEncoder π) : Prop where
  options : e'.options = e.options
  dictionary : e'.dictionary = e.dictionary
  params : e'.params = e.params
  buffered : e'.bufferedInput = e.bufferedInput.drop take
  state : e'.state =
    (e.state.encodeBlock coder e.options e.dictionary e.params (e.bufferedInput.take take) lastBlock).2.2
  checksum : e'.checksum = e.checksum
  contentLen : e'.contentLen = e.contentLen
  finished : e'.finished = e.finished
  output : e'.output = e.output ++
    (e.state.encodeBlock coder e.options e.dictionary e.params (e.bufferedInput.take take) lastBlock).2.1
  outputPos : e'.outputPos = e.outputPos
  savings : e'.savings = e.savings + if (e.state.encodeBlock coder e.options e.dictionary e.params
    (e.bufferedInput.take take) lastBlock).1 = none then (take : Int) - (e.state.encodeBlock coder e.options
      e.dictionary e.params (e.bufferedInput.take take) lastBlock).2.1.length else 0

theorem encodeBufferedBlock_encoded (coder : BlockCoder π) (e : StreamingEncoder π) (take : Nat) (lastBlock : Bool) :
    Encoded coder take lastBlock e (e.encodeBufferedBlock coder take lastBlock).2 := by
  unfold encodeBufferedBlock
  dsimp only
  split
  · rename_i error herror
    refine ⟨rfl, rfl, rfl, rfl, rfl, rfl, rfl, rfl, rfl, rfl, ?_⟩
    rw [herror, if_neg (by simp)]
    exact (Int.add_zero _).symm
  · rename_i herror
    refine ⟨rfl, rfl, rfl, rfl, rfl, rfl, rfl, rfl, rfl, rfl, ?_⟩
    dsimp only
    rw [if_pos herror, List.length_append, Nat.cast_add]
    ring

theorem encodeBufferedBlock_error (coder : BlockCoder π) (e : StreamingEncoder π) (take : Nat) (lastBlock : Bool) :
    (e.encodeBufferedBlock coder take lastBlock).1 =
      (e.state.encodeBlock coder e.options e.dictionary e.params (e.bufferedInput.take take) lastBlock).1 := by
  unfold encodeBufferedBlock
  dsimp only
  split
  · exact Eq.symm ‹_›
  · exact Eq.symm ‹_›

/-- The frame header, wherever it goes. -/
def header (coder : BlockCoder π) (e : StreamingEncoder π) : Result Bytes :=
  writeHeader coder { e with output := [] }

theorem writeHeader_eq (coder : BlockCoder π) (e : StreamingEncoder π) :
    e.writeHeader coder = (e.header coder).map (e.output ++ ·) := by
  unfold header writeHeader historyLimit
  dsimp only
  split
  · rename_i pledged _
    by_cases hsmall : pledged ≤ UInt64.ofNat (historyLimitFor e.params)
    · rw [if_pos hsmall, if_pos hsmall]
      exact congrArg Except.ok (writeSingleSegmentHeaderWithDict_append ..)
    · rw [if_neg hsmall, if_neg hsmall]
      exact writeWindowedHeaderWithContentSize_append ..
  · exact writeWindowedHeaderWithDict_append ..

/-- The window of a stream is one that a header can declare. -/
theorem header_ok (coder : BlockCoder π) (e : StreamingEncoder π) : ∃ written, e.header coder = .ok written := by
  have hwindow : ∃ descriptor, encodeWindowDescriptor (max (UInt64.ofNat e.historyLimit).toNat (1 <<< 10)) =
    .ok descriptor := by
    rcases encodeWindowDescriptor_spec (max (UInt64.ofNat e.historyLimit).toNat (1 <<< 10)) with
      ⟨descriptor, -, hok, -⟩ | ⟨-, hnone⟩
    · exact ⟨descriptor, hok⟩
    · have hlimit : e.historyLimit ≤ 2 ^ 27 := historyLimitFor_le e.params
      have htop := hnone (decodeWindowDescriptor 255) ⟨255, by decide, rfl⟩
      have hround : (UInt64.ofNat e.historyLimit).toNat = e.historyLimit :=
        UInt64.toNat_ofNat_of_lt' (lt_of_le_of_lt hlimit (by decide))
      rw [hround] at htop
      norm_num [decodeWindowDescriptor] at htop
      omega
  obtain ⟨descriptor, hwindow⟩ := hwindow
  unfold header writeHeader
  dsimp only
  split
  · split
    · exact ⟨_, rfl⟩
    · unfold writeWindowedHeaderWithContentSize
      dsimp only
      rw [show historyLimit { e with output := [] } = e.historyLimit from rfl, hwindow]
      exact ⟨_, rfl⟩
  · unfold writeWindowedHeaderWithDict
    dsimp only
    rw [show historyLimit { e with output := [] } = e.historyLimit from rfl, hwindow]
    exact ⟨_, rfl⟩

/-- What a new frame on an encoder is like. -/
structure Opened (coder : BlockCoder π) (e e' : StreamingEncoder π) : Prop where
  options : e'.options = e.options
  dictionary : e'.dictionary = e.dictionary
  params : e'.params = e.params
  buffered : e'.bufferedInput = []
  state : e'.state = newFrameState coder e.options e.dictionary e.params e.state.coding.scratch
  checksum : e'.checksum = if e.options.checksum then some (.new 0) else none
  savings : e'.savings = 0
  contentLen : e'.contentLen = 0
  finished : e'.finished = false
  output : ∃ written, e.header coder = .ok written ∧ e'.output = e.output ++ written
  outputPos : e'.outputPos = e.outputPos

theorem resetFrameState_opened (coder : BlockCoder π) (e : StreamingEncoder π) :
    (e.resetFrameState coder).1 = none ∧ Opened coder e (e.resetFrameState coder).2 := by
  obtain ⟨written, hheader⟩ := e.header_ok coder
  unfold resetFrameState
  dsimp only
  rw [writeHeader_eq]
  -- the header says nothing of what the new frame resets
  rw [show header coder { e with
    bufferedInput := [], savings := 0,
    state := newFrameState coder e.options e.dictionary e.params e.state.coding.scratch,
    checksum := if e.options.checksum then some (.new 0) else none, contentLen := 0, finished := false } =
      e.header coder from rfl, hheader]
  exact ⟨rfl, rfl, rfl, rfl, rfl, rfl, rfl, rfl, rfl, rfl, ⟨written, hheader, rfl⟩, rfl⟩

theorem pushTarget_congr {e e' : StreamingEncoder π} (hoptions : e'.options = e.options)
    (hparams : e'.params = e.params) : e'.pushTarget = e.pushTarget := by
  unfold pushTarget blockSize; rw [hoptions, hparams]

theorem Step.pushTarget {coder : BlockCoder π} {e e' : StreamingEncoder π} (h : Step coder e e') :
    e'.pushTarget = e.pushTarget := by
  cases h with
  | topUp src h => rfl
  | block take lastBlock h =>
    have henc := e.encodeBufferedBlock_encoded coder take lastBlock
    exact pushTarget_congr henc.options henc.params
  | newFrame =>
    have hopen := (e.resetFrameState_opened coder).2
    exact pushTarget_congr hopen.options hopen.params
  | other _ h => exact pushTarget_congr h.options h.params

theorem Steps.pushTarget {coder : BlockCoder π} {e e' : StreamingEncoder π} (h : Steps coder e e') :
    e'.pushTarget = e.pushTarget := by
  induction h with
  | refl => rfl
  | tail _ hstep ih => rw [hstep.pushTarget, ih]

theorem newFrameState_within (coder : BlockCoder π) (options : EncoderOptions π) (dictionary : Option π.Dictionary)
    (params : CompressionParameters) (scratch : Scratch π) :
    (newFrameState coder options dictionary params scratch).Within options params :=
  ⟨Nat.zero_le _, fun _ hm => newMatchState_periodOk coder dictionary params _ _ hm⟩

/-- One step keeps the invariant. -/
theorem Step.within {coder : BlockCoder π} {e e' : StreamingEncoder π} (h : Step coder e e') (hw : e.Within) :
    e'.Within := by
  have htarget := h.pushTarget
  cases h with
  | topUp src h =>
    refine ⟨hw.state, ?_⟩
    show (e.bufferedInput ++ src).length ≤ e.pushTarget
    rw [List.length_append]; exact h
  | block take lastBlock h =>
    have henc := e.encodeBufferedBlock_encoded coder take lastBlock
    refine ⟨?_, ?_⟩
    · rw [henc.options, henc.params, henc.state]
      refine StreamFrame.encodeBlock_within coder e.dictionary lastBlock hw.state ?_
      rw [List.length_take]
      exact (min_le_left _ _).trans h
    · rw [htarget, henc.buffered, List.length_drop]
      exact (Nat.sub_le _ _).trans hw.buffered_le
  | newFrame =>
    have hopen := (e.resetFrameState_opened coder).2
    refine ⟨?_, ?_⟩
    · rw [hopen.options, hopen.params, hopen.state]; exact newFrameState_within ..
    · rw [hopen.buffered]; exact Nat.zero_le _
  | other _ h =>
    refine ⟨?_, ?_⟩
    · rw [h.options, h.params, h.state]; exact hw.state
    · rw [htarget, h.buffered]; exact hw.buffered_le

theorem Steps.within {coder : BlockCoder π} {e e' : StreamingEncoder π} (h : Steps coder e e') (hw : e.Within) :
    e'.Within := by
  induction h with
  | refl => exact hw
  | tail _ hstep ih => exact hstep.within ih

/-! ## Calls are runs of steps -/

theorem blockSize_pos (e : StreamingEncoder π) : 0 < e.blockSize := streamBlockSize_pos e.params e.options

theorem pushTarget_bounds (e : StreamingEncoder π) : e.blockSize ≤ e.pushTarget ∧ e.pushTarget ≤ e.blockSize + 1 := by
  unfold pushTarget
  split <;> omega

theorem nextBlockSize_bounds {e : StreamingEncoder π} (h : 0 < e.bufferedInput.length) :
    0 < e.nextBlockSize ∧ e.nextBlockSize ≤ e.blockSize ∧ e.nextBlockSize ≤ e.bufferedInput.length := by
  have hpos := e.blockSize_pos
  unfold nextBlockSize
  dsimp only
  split
  · omega
  · have hle := upstreamOptimalBlockSize_le e.bufferedInput 0 e.blockSize e.params.strategy e.savings
    unfold clampTo
    omega

/-- What the output holds stays, and more may go behind it. -/
structure Grows (e e' : StreamingEncoder π) : Prop where
  output : ∃ produced, e'.output = e.output ++ produced
  outputPos : e'.outputPos = e.outputPos

theorem Grows.refl (e : StreamingEncoder π) : Grows e e := ⟨⟨[], (List.append_nil _).symm⟩, rfl⟩

theorem Grows.trans {e₀ e₁ e₂ : StreamingEncoder π} (h : Grows e₀ e₁) (h' : Grows e₁ e₂) : Grows e₀ e₂ := by
  obtain ⟨⟨produced, houtput⟩, hpos⟩ := h
  obtain ⟨⟨produced', houtput'⟩, hpos'⟩ := h'
  exact ⟨⟨produced ++ produced', by rw [houtput', houtput, List.append_assoc]⟩, hpos'.trans hpos⟩

theorem encodeBufferedBlock_grows (coder : BlockCoder π) (e : StreamingEncoder π) (take : Nat) (lastBlock : Bool) :
    Grows e (e.encodeBufferedBlock coder take lastBlock).2 := by
  have henc := e.encodeBufferedBlock_encoded coder take lastBlock
  exact ⟨⟨_, henc.output⟩, henc.outputPos⟩

/-- `e'` goes on from `e` with `src` taken in: the frame buffer and the input buffer hold all of it, in order, but for
what compaction dropped from the front of a frame of which a window is left; the output only grows. -/
structure TakesIn (src : Bytes) (e e' : StreamingEncoder π) : Prop where
  params : e'.params = e.params
  grows : Grows e e'
  held : ∃ dropped, e.state.frame ++ e.bufferedInput ++ src = dropped ++ (e'.state.frame ++ e'.bufferedInput) ∧
    (dropped = [] ∧ e.state.frame.length ≤ e'.state.frame.length ∨ e.historyLimit ≤ e'.state.frame.length)

theorem TakesIn.refl (e : StreamingEncoder π) : TakesIn [] e e :=
  ⟨rfl, .refl e, [], List.append_nil _, .inl ⟨rfl, le_rfl⟩⟩

theorem TakesIn.trans {src more : Bytes} {e₀ e₁ e₂ : StreamingEncoder π} (h : TakesIn src e₀ e₁)
    (h' : TakesIn more e₁ e₂) : TakesIn (src ++ more) e₀ e₂ := by
  obtain ⟨hparams, hgrows, dropped, hheld, hkept⟩ := h
  obtain ⟨hparams', hgrows', dropped', hheld', hkept'⟩ := h'
  have hlimit : e₁.historyLimit = e₀.historyLimit := by unfold historyLimit; rw [hparams]
  refine ⟨hparams'.trans hparams, hgrows.trans hgrows', dropped ++ dropped', ?_, ?_⟩
  · rw [← List.append_assoc, hheld, List.append_assoc, hheld', List.append_assoc]
  · rw [hlimit] at hkept'
    rcases hkept' with ⟨rfl, hgrown⟩ | hwindow
    · rw [List.append_nil]
      exact hkept.imp (fun h => ⟨h.1, h.2.trans hgrown⟩) fun h => h.trans hgrown
    · exact .inr hwindow

theorem topUp_takesIn (e : StreamingEncoder π) (src : Bytes) : TakesIn src e (e.topUp src) :=
  ⟨rfl, ⟨⟨[], (List.append_nil _).symm⟩, rfl⟩, [], List.append_assoc .., .inl ⟨rfl, le_rfl⟩⟩

/-- A block moves from the input buffer to the end of the frame. -/
theorem encodeBufferedBlock_takesIn (coder : BlockCoder π) {e : StreamingEncoder π} (h : e.Within) (take : Nat)
    (lastBlock : Bool) : TakesIn [] e (e.encodeBufferedBlock coder take lastBlock).2 := by
  have henc := e.encodeBufferedBlock_encoded coder take lastBlock
  obtain ⟨hframe, -⟩ := e.state.encodeBlock_spec coder e.options e.dictionary e.params
    (e.bufferedInput.take take) lastBlock
  obtain ⟨dropped, hheld, hkept⟩ := StreamFrame.beforeBlock_held coder h.state
  rw [← henc.state] at hframe
  refine ⟨henc.params, encodeBufferedBlock_grows coder e take lastBlock, dropped, ?_, ?_⟩
  · rw [List.append_nil, hframe, henc.buffered, List.append_assoc (StreamFrame.frame _), List.take_append_drop, hheld,
      List.append_assoc]
  · rw [hframe, List.length_append]
    rcases hkept with rfl | hwindow
    · exact .inl ⟨rfl, by rw [hheld, List.nil_append]; exact Nat.le_add_right _ _⟩
    · exact .inr (hwindow.trans (Nat.le_add_right _ _))

/-- A full buffer goes out in one block or two, none longer than a block, and is empty unless a block fails. -/
theorem encodeBufferedChunk_spec (coder : BlockCoder π) {e : StreamingEncoder π}
    (hw : e.Within) (h : e.bufferedInput.length = e.pushTarget) :
    Steps coder e (e.encodeBufferedChunk coder).2 ∧ TakesIn [] e (e.encodeBufferedChunk coder).2 ∧
      (e.encodeBufferedChunk coder).2.bufferedInput.length < e.pushTarget ∧
      (e.encodeBufferedChunk coder).2.finished = e.finished ∧
      ((e.encodeBufferedChunk coder).1 = none → (e.encodeBufferedChunk coder).2.bufferedInput = []) := by
  have hpos := e.blockSize_pos
  obtain ⟨hge, hle⟩ := e.pushTarget_bounds
  obtain ⟨hn, hnblock, hnlen⟩ := e.nextBlockSize_bounds (by omega)
  have henc := e.encodeBufferedBlock_encoded coder e.nextBlockSize false
  have hstep : Step coder e _ := Step.block e e.nextBlockSize false hnblock
  have htakes := encodeBufferedBlock_takesIn coder hw e.nextBlockSize false
  have hlen : (e.encodeBufferedBlock coder e.nextBlockSize false).2.bufferedInput.length =
      e.bufferedInput.length - e.nextBlockSize := by rw [henc.buffered, List.length_drop]
  unfold encodeBufferedChunk
  dsimp only
  generalize e.encodeBufferedBlock coder e.nextBlockSize false = first at hlen hstep henc htakes
  obtain ⟨error, e₁⟩ := first
  dsimp only at hlen hstep henc htakes ⊢
  cases error with
  | some error => exact ⟨.single hstep, htakes, by dsimp only; omega, henc.finished, fun h => by cases h⟩
  | none =>
    dsimp only
    by_cases hempty : e₁.bufferedInput.isEmpty
    · rw [if_pos hempty]
      exact ⟨.single hstep, htakes, by dsimp only; omega, henc.finished, fun _ => List.isEmpty_iff.1 hempty⟩
    · rw [if_neg hempty]
      -- what the heuristic left is at most a block, one byte being gone already
      have hblock : e₁.bufferedInput.length ≤ e₁.blockSize := by
        have : e₁.blockSize = e.blockSize := by unfold blockSize; rw [henc.options, henc.params]
        omega
      have henc' := e₁.encodeBufferedBlock_encoded coder e₁.bufferedInput.length false
      have hdrained : (e₁.encodeBufferedBlock coder e₁.bufferedInput.length false).2.bufferedInput = [] := by
        rw [henc'.buffered, List.drop_length]
      have htakes' := encodeBufferedBlock_takesIn coder (hstep.within hw) e₁.bufferedInput.length false
      refine ⟨.tail (.single hstep) (Step.block e₁ e₁.bufferedInput.length false hblock), htakes.trans htakes', ?_, ?_,
        fun _ => hdrained⟩
      · rw [hdrained, List.length_nil]; omega
      · rw [henc'.finished, henc.finished]

/-- The invariant between calls: the buffer is not full. -/
structure Ready (e : StreamingEncoder π) : Prop where
  within : e.Within
  buffered_lt : e.bufferedInput.length < e.pushTarget

/-- How a push ends: by steps, with a buffer that is not full, and with all its input taken in unless a block failed. -/
structure Pushed (coder : BlockCoder π) (src : Bytes) (e : StreamingEncoder π) (error : Option Error)
    (e' : StreamingEncoder π) (rest : Bytes) : Prop where
  steps : Steps coder e e'
  buffered_lt : e'.bufferedInput.length < e'.pushTarget
  finished : e'.finished = e.finished
  taken : ∃ taken, src = taken ++ rest ∧ TakesIn taken e e'
  all : error = none → rest = []

section
variable {coder : BlockCoder π} {piece src rest : Bytes} {e e₁ e' : StreamingEncoder π} {error : Option Error}

/-- What has been taken in already stands in front. -/
theorem Pushed.after (h : Pushed coder src e₁ error e' rest) (hsteps : Steps coder e e₁)
    (hfinished : e₁.finished = e.finished) (htakes : TakesIn piece e e₁) :
    Pushed coder (piece ++ src) e error e' rest where
  steps := hsteps.trans h.steps
  buffered_lt := h.buffered_lt
  finished := h.finished.trans hfinished
  taken := by
    obtain ⟨taken, hpieces, htakes'⟩ := h.taken
    exact ⟨piece ++ taken, by rw [List.append_assoc, ← hpieces], htakes.trans htakes'⟩
  all := h.all

/-- A call that fails takes in what it has taken in so far. -/
theorem Pushed.of_failed (failure : Error) (rest : Bytes) (hsteps : Steps coder e e')
    (hlt : e'.bufferedInput.length < e'.pushTarget) (hfinished : e'.finished = e.finished)
    (htakes : TakesIn piece e e') :
    Pushed coder (piece ++ rest) e (some failure) e' rest :=
  ⟨hsteps, hlt, hfinished, ⟨piece, rfl, htakes⟩, fun h => by cases h⟩

theorem Pushed.ready (h : Pushed coder src e error e' rest) (hready : e.Ready) : e'.Ready :=
  ⟨Steps.within h.steps hready.within, h.buffered_lt⟩

end

/-- The loop ends within one turn for each byte. -/
theorem pushLoop_spec (coder : BlockCoder π) : ∀ (fuel : Nat) (src : Bytes) (e : StreamingEncoder π),
    src.length ≤ fuel → e.Ready →
    ∃ error e' rest, pushLoop coder e.pushTarget fuel src e = some (error, e', rest) ∧
      Pushed coder src e error e' rest
  | fuel, [], e, _, h => by
    refine ⟨none, e, [], ?_, .refl, h.buffered_lt, rfl, ⟨[], rfl, .refl e⟩, fun _ => rfl⟩
    cases fuel <;> rfl
  | 0, _ :: _, _, hfuel, _ => by simp at hfuel
  | fuel + 1, b :: src, e, hfuel, h => by
    rw [List.length_cons] at hfuel
    have hlt := h.buffered_lt
    -- at least one byte goes into a buffer that is not full
    have htake : 0 < min (e.pushTarget - e.bufferedInput.length) (b :: src).length := by
      rw [List.length_cons]; omega
    have hrest : ((b :: src).drop (min (e.pushTarget - e.bufferedInput.length) (b :: src).length)).length ≤ fuel := by
      rw [List.length_drop, List.length_cons] at *; omega
    have htop : e.bufferedInput.length +
        ((b :: src).take (min (e.pushTarget - e.bufferedInput.length) (b :: src).length)).length ≤ e.pushTarget := by
      rw [List.length_take]; omega
    generalize heq : min (e.pushTarget - e.bufferedInput.length) (b :: src).length = take at htake hrest htop
    rw [pushLoop_cons coder e.pushTarget fuel b src e heq]
    have hstep : Step coder e _ := Step.topUp e _ htop
    have htarget := hstep.pushTarget
    have hw := hstep.within h.within
    have htakes := e.topUp_takesIn ((b :: src).take take)
    have hlen : (e.topUp ((b :: src).take take)).bufferedInput.length ≤ e.pushTarget := by
      unfold topUp
      rw [List.length_append]; exact htop
    have hfinished : (e.topUp ((b :: src).take take)).finished = e.finished := rfl
    have hsplit := List.take_append_drop take (b :: src)
    generalize e.topUp ((b :: src).take take) = e₁ at hstep htarget hw htakes hlen hfinished
    split
    · -- the buffer is full, so it goes out before the rest is taken in
      rename_i hfull
      rw [← htarget] at hfull
      obtain ⟨hsteps, htakes₂, hlt₂, hkept, -⟩ := encodeBufferedChunk_spec coder hw hfull
      generalize e₁.encodeBufferedChunk coder = chunk at hsteps htakes₂ hlt₂ hkept
      obtain ⟨error, e₂⟩ := chunk
      dsimp only at hsteps htakes₂ hlt₂ hkept ⊢
      have htakes' := htakes.trans htakes₂
      rw [List.append_nil] at htakes'
      have htarget₂ := Steps.pushTarget hsteps
      rw [← htarget₂] at hlt₂
      have hsteps' := Relation.ReflTransGen.head hstep hsteps
      have hkept' := hkept.trans hfinished
      cases error with
      | some error =>
        have hpushed := Pushed.of_failed error ((b :: src).drop take) hsteps' hlt₂ hkept' htakes'
        rw [hsplit] at hpushed
        exact ⟨_, _, _, rfl, hpushed⟩
      | none =>
        obtain ⟨error, e', rest, hrun, hpushed⟩ :=
          pushLoop_spec coder fuel ((b :: src).drop take) e₂ hrest ⟨Steps.within hsteps hw, hlt₂⟩
        rw [htarget₂, htarget] at hrun
        have hpushed := hpushed.after hsteps' hkept' htakes'
        rw [hsplit] at hpushed
        exact ⟨error, e', rest, hrun, hpushed⟩
    · obtain ⟨error, e', rest, hrun, hpushed⟩ :=
        pushLoop_spec coder fuel ((b :: src).drop take) e₁ hrest ⟨hw, by rw [htarget]; omega⟩
      rw [htarget] at hrun
      have hpushed := hpushed.after (.single hstep) hfinished htakes
      rw [hsplit] at hpushed
      exact ⟨error, e', rest, hrun, hpushed⟩

theorem push_spec (coder : BlockCoder π) {e : StreamingEncoder π} (h : e.Ready) (src : Bytes) :
    ∃ error e' rest, e.push coder src = some (error, e', rest) ∧ Pushed coder src e error e' rest := by
  unfold push
  split
  · exact ⟨_, e, src, rfl, .of_failed _ src .refl h.buffered_lt rfl (.refl e)⟩
  · dsimp only
    -- the checksum and the count of the content are no concern of the buffer
    have hother : Step coder e { e with
        checksum := e.checksum.map (·.update src), contentLen := e.contentLen + src.length } :=
      Step.other e _ ⟨rfl, rfl, rfl, rfl, rfl, id⟩
    have htakes : TakesIn [] e { e with
        checksum := e.checksum.map (·.update src), contentLen := e.contentLen + src.length } :=
      ⟨rfl, ⟨⟨[], (List.append_nil _).symm⟩, rfl⟩, [], List.append_nil _, .inl ⟨rfl, le_rfl⟩⟩
    obtain ⟨error, e', rest, hrun, hpushed⟩ := pushLoop_spec coder src.length
      src { e with checksum := e.checksum.map (·.update src), contentLen := e.contentLen + src.length } le_rfl
      ⟨hother.within h.within, by rw [hother.pushTarget]; exact h.buffered_lt⟩
    exact ⟨error, e', rest, hrun, hpushed.after (.single hother) rfl htakes⟩

/-- The whole buffer of an encoder between calls is at most one block. -/
theorem Ready.buffered_le_block {e : StreamingEncoder π} (h : e.Ready) : e.bufferedInput.length ≤ e.blockSize := by
  have := h.buffered_lt
  have := e.pushTarget_bounds
  omega

/-- Encoding the whole buffer is one step. -/
theorem Ready.encodeAll (coder : BlockCoder π) {e : StreamingEncoder π} (h : e.Ready) (lastBlock : Bool) :
    Step coder e (e.encodeBufferedBlock coder e.bufferedInput.length lastBlock).2 ∧
      (e.encodeBufferedBlock coder e.bufferedInput.length lastBlock).2.Ready := by
  have hstep : Step coder e _ := Step.block e e.bufferedInput.length lastBlock h.buffered_le_block
  refine ⟨hstep, hstep.within h.within, ?_⟩
  rw [hstep.pushTarget, (e.encodeBufferedBlock_encoded coder _ lastBlock).buffered, List.drop_length]
  exact (Nat.zero_le _).trans_lt h.buffered_lt

theorem Ready.other {coder : BlockCoder π} {e e' : StreamingEncoder π} (h : e.Ready) (hsame : SameFrame e e') :
    Steps coder e e' ∧ e'.Ready := by
  have hstep : Step coder e e' := Step.other e e' hsame
  refine ⟨.single hstep, hstep.within h.within, ?_⟩
  rw [hstep.pushTarget, hsame.buffered]; exact h.buffered_lt

theorem resetFrameState_ready (coder : BlockCoder π) {e : StreamingEncoder π} (h : e.Within) :
    (e.resetFrameState coder).2.Ready := by
  have hstep : Step coder e _ := Step.newFrame e
  refine ⟨hstep.within h, ?_⟩
  rw [(e.resetFrameState_opened coder).2.buffered, hstep.pushTarget]
  exact (e.blockSize_pos).trans_le e.pushTarget_bounds.1

/-- What draining does: bytes that were pending are gone from the front, and nothing but the output changes. -/
structure Drained (e : StreamingEncoder π) (bytes : Bytes) (e' : StreamingEncoder π) : Prop where
  same : e' = { e with output := e'.output, outputPos := e'.outputPos }
  stream : bytes ++ e'.pendingOutput = e.pendingOutput
  pos : e.outputPos ≤ e.output.length → e'.outputPos ≤ e'.output.length

theorem Drained.sameFrame {e e' : StreamingEncoder π} {bytes : Bytes} (h : Drained e bytes e') : SameFrame e e' where
  options := by rw [h.same]
  dictionary := by rw [h.same]
  params := by rw [h.same]
  buffered := by rw [h.same]
  state := by rw [h.same]
  pos := h.pos

theorem compactOutput_drained (e : StreamingEncoder π) : Drained e [] e.compactOutput := by
  unfold compactOutput
  split_ifs with hzero hall
  · exact ⟨rfl, rfl, id⟩
  · refine ⟨rfl, ?_, fun _ => Nat.zero_le _⟩
    -- everything has been drained
    unfold pendingOutput
    rw [hall, List.drop_length]
    rfl
  · exact ⟨rfl, rfl, fun _ => Nat.zero_le _⟩
  · exact ⟨rfl, rfl, id⟩

theorem takeOutput_drained (e : StreamingEncoder π) : Drained e e.takeOutput.1 e.takeOutput.2 := by
  unfold takeOutput
  split_ifs with h
  · refine ⟨rfl, ?_, fun _ => h.le⟩
    unfold pendingOutput
    rw [h]
    exact List.append_nil _
  · exact ⟨rfl, List.append_nil _, fun _ => Nat.zero_le _⟩

/-- Pending bytes are drained by moving over them. -/
theorem advance_drained {e : StreamingEncoder π} {count : Nat} (h : count ≤ e.pendingOutput.length) :
    Drained e (e.pendingOutput.take count) (compactOutput { e with outputPos := e.outputPos + count }) := by
  have hdrained := compactOutput_drained { e with outputPos := e.outputPos + count }
  refine ⟨?_, ?_, fun hpos => hdrained.pos ?_⟩
  · exact hdrained.same
  · have hstream := hdrained.stream
    rw [List.nil_append] at hstream
    rw [hstream]
    unfold pendingOutput
    rw [← List.drop_drop]
    exact List.take_append_drop ..
  · unfold pendingOutput at h
    rw [List.length_drop] at h
    dsimp only
    omega

theorem read_drained (e : StreamingEncoder π) (dstLen : Nat) : Drained e (e.read dstLen).1 (e.read dstLen).2 := by
  unfold read
  dsimp only
  split_ifs
  · exact ⟨rfl, rfl, id⟩
  · exact advance_drained (min_le_right _ _)

theorem flush_steps (coder : BlockCoder π) {e : StreamingEncoder π} (h : e.Ready) :
    Steps coder e (e.flush coder).2 ∧ (e.flush coder).2.Ready := by
  obtain ⟨hstep, hready⟩ := h.encodeAll coder false
  unfold flush
  split_ifs
  · exact ⟨.refl, h⟩
  · exact ⟨.refl, h⟩
  · exact ⟨.single hstep, hready⟩

theorem flush_takesIn (coder : BlockCoder π) {e : StreamingEncoder π} (h : e.Ready) :
    TakesIn [] e (e.flush coder).2 := by
  unfold flush
  split_ifs
  · exact .refl e
  · exact .refl e
  · exact encodeBufferedBlock_takesIn coder h.within _ false

theorem finish_steps (coder : BlockCoder π) {e : StreamingEncoder π} (h : e.Ready) :
    Steps coder e (e.finish coder).2 ∧ (e.finish coder).2.Ready := by
  obtain ⟨hstep, hready⟩ := h.encodeAll coder true
  unfold finish
  split_ifs
  · exact ⟨.refl, h⟩
  · exact ⟨.refl, h⟩
  · dsimp only
    generalize e.encodeBufferedBlock coder e.bufferedInput.length true = encoded at hstep hready
    obtain ⟨error, e₁⟩ := encoded
    cases error with
    | some error => exact ⟨.single hstep, hready⟩
    | none =>
      -- the trailer and the flag
      have hother : Steps coder e₁ { e₁ with
          output := e₁.output ++ e₁.checksum.elim [] fun checksum => writeLe (checksum.digest.toNat % 2 ^ 32) 4
          finished := true } ∧ _ := hready.other
        ⟨rfl, rfl, rfl, rfl, rfl, fun h => h.trans (by rw [List.length_append]; exact Nat.le_add_right _ _)⟩
      exact ⟨.head hstep hother.1, hother.2⟩

/-- Every call that returns is a run of steps between states that are ready. -/
theorem perform_steps (coder : BlockCoder π) {e e' : StreamingEncoder π} (h : e.Ready) {op : StreamOp}
    {error : Option Error} {bytes : Bytes} (hop : e.perform coder op = some (error, bytes, e')) :
    Steps coder e e' ∧ e'.Ready := by
  cases op with
  | push src =>
    obtain ⟨error', e₁, rest, hpush, hpushed⟩ := push_spec coder h src
    unfold perform at hop
    dsimp only at hop
    rw [hpush] at hop
    obtain ⟨-, -, rfl⟩ := by simpa using hop
    exact ⟨hpushed.steps, hpushed.ready h⟩
  | flush =>
    obtain rfl : (e.flush coder).2 = e' := congrArg (fun r => r.2.2) (Option.some.inj hop)
    exact flush_steps coder h
  | finish =>
    obtain rfl : (e.finish coder).2 = e' := congrArg (fun r => r.2.2) (Option.some.inj hop)
    exact finish_steps coder h
  | reset =>
    obtain rfl : (e.reset coder).2 = e' := congrArg (fun r => r.2.2) (Option.some.inj hop)
    unfold reset
    split_ifs
    · exact ⟨.refl, h⟩
    · exact ⟨.single (Step.newFrame e), resetFrameState_ready coder h.within⟩
  | take =>
    obtain rfl : e.takeOutput.2 = e' := congrArg (fun r => r.2.2) (Option.some.inj hop)
    exact h.other e.takeOutput_drained.sameFrame
  | read dstLen =>
    obtain rfl : (e.read dstLen).2 = e' := congrArg (fun r => r.2.2) (Option.some.inj hop)
    exact h.other (e.read_drained dstLen).sameFrame
  | consume count =>
    obtain ⟨⟨bytes', e₁⟩, hconsume, heq⟩ := Option.map_eq_some_iff.1 hop
    obtain rfl : e₁ = e' := congrArg (fun r => r.2.2) heq
    unfold consumeOutput at hconsume
    split at hconsume
    · rename_i hcount
      obtain rfl : _ = e₁ := congrArg Prod.snd (Option.some.inj hconsume)
      exact h.other (advance_drained hcount).sameFrame
    · cases hconsume

theorem runAll_ready (coder : BlockCoder π) : ∀ (ops : List StreamOp) {e e' : StreamingEncoder π}, e.Ready →
    e.runAll coder ops = some e' → Steps coder e e' ∧ e'.Ready
  | [], e, e', h, hrun => by
    obtain rfl := Option.some.inj hrun
    exact ⟨.refl, h⟩
  | op :: ops, e, e', h, hrun => by
    obtain ⟨⟨error, bytes, e₁⟩, hop, hrun⟩ := Option.bind_eq_some_iff.1 hrun
    obtain ⟨hsteps, hready⟩ := perform_steps coder h hop
    obtain ⟨hsteps', hready'⟩ := runAll_ready coder ops hready hrun
    exact ⟨hsteps.trans hsteps', hready'⟩

theorem new_ready {coder : BlockCoder π} {options : EncoderOptions π} {dictionary : Option π.Dictionary}
    {e : StreamingEncoder π} (h : new coder options dictionary = .ok e) : e.Ready := by
  unfold new at h
  obtain ⟨-, -, h⟩ := bind_ok h
  dsimp only at h
  split at h
  · rename_i e₁ heq
    obtain rfl := Except.ok.inj h
    have hready := congrArg Prod.snd heq
    dsimp only at hready
    rw [← hready]
    apply resetFrameState_ready
    constructor
    · exact newFrameState_within ..
    · exact Nat.zero_le _
  · cases h

/-! ## The bound -/

/-- What holds of an encoder in the middle of any call: its frame fits, and if the next block has to compact it, that
keeps a window and rebases a contiguous finder, by whole periods or inside one. -/
structure Bounded (coder : BlockCoder π) (e : StreamingEncoder π) : Prop where
  frame_le : e.state.frame.length ≤ e.frameCapacity
  compacts : usizeAdd e.historyLimit (historySlackFor e.params e.options) < e.state.frame.length →
    CompactOk coder e.options e.params e.state

theorem Within.bounded (coder : BlockCoder π) {e : StreamingEncoder π} (h : e.Within) : Bounded coder e where
  frame_le := h.state.length_le
  compacts hover := by
    unfold historyLimit at hover
    rw [historyAndSlack_eq] at hover
    exact StreamFrame.compact_ok coder h.state.period hover h.state.length_le

/-- After any run of calls, every push ends, by steps, and takes in all its input unless a block failed: what it took
is, in order, in the frame buffer and the input buffer, behind what was there but for what a compaction dropped. A flush
only moves it. And wherever steps lead from there, the frame is within its capacity and a compaction keeps a window and
rebases. -/
theorem frame_buffer_bounded {coder : BlockCoder π} {options : EncoderOptions π} {dictionary : Option π.Dictionary}
    {e₀ e : StreamingEncoder π} {ops : List StreamOp} (hnew : new coder options dictionary = .ok e₀)
    (hrun : e₀.runAll coder ops = some e) :
    (∀ src, ∃ error e' taken rest, e.push coder src = some (error, e', rest) ∧ Steps coder e e' ∧ src = taken ++ rest ∧
      TakesIn taken e e' ∧ (error = none → rest = [])) ∧
    TakesIn [] e (e.flush coder).2 ∧ Steps coder e₀ e ∧ ∀ e', Steps coder e e' → Bounded coder e' := by
  obtain ⟨hsteps, hready⟩ := runAll_ready coder ops (new_ready hnew) hrun
  refine ⟨fun src => ?_, flush_takesIn coder hready, hsteps,
    fun e' he' => Within.bounded coder (Steps.within he' hready.within)⟩
  obtain ⟨error, e', rest, hpush, hpushed⟩ := push_spec coder hready src
  obtain ⟨taken, hpieces, htakes⟩ := hpushed.taken
  exact ⟨error, e', taken, rest, hpush, hpushed.steps, hpieces, htakes, hpushed.all⟩

/-- With a window of four bytes a frame of nine is over its limit; the push that fills the next block compacts it. -/
theorem tallying_runs : ∃ e₀ e e', new (tallyingCoder 4) tallyingOptions none = .ok e₀ ∧
    e₀.runAll (tallyingCoder 4) [.push [1, 2, 3, 4, 5, 6, 7, 8, 9], .flush, .push [10]] = some e ∧
    usizeAdd e.historyLimit (historySlackFor e.params e.options) < e.state.frame.length ∧
    e.state.frame = [1, 2, 3, 4, 5, 6, 7, 8, 9] ∧ e.bufferedInput = [10] ∧
    e.push (tallyingCoder 4) [11, 12, 13, 14] = some (none, e', []) ∧
    e'.state.frame = [6, 7, 8, 9, 10, 11, 12, 13] ∧ e'.bufferedInput = [14] := by
  have hruns : ∃ e₀ e, new (tallyingCoder 4) tallyingOptions none = .ok e₀ ∧
      e₀.runAll (tallyingCoder 4) [.push [1, 2, 3, 4, 5, 6, 7, 8, 9], .flush, .push [10]] = some e ∧
      usizeAdd e.historyLimit (historySlackFor e.params e.options) < e.state.frame.length ∧
      e.state.frame = [1, 2, 3, 4, 5, 6, 7, 8, 9] ∧ e.bufferedInput = [10] ∧
      (e.push (tallyingCoder 4) [11, 12, 13, 14]).map
        (fun r => (r.1, r.2.2, r.2.1.state.frame, r.2.1.bufferedInput)) =
        some (none, [], [6, 7, 8, 9, 10, 11, 12, 13], [14]) := by
    refine ⟨_, _, rfl, rfl, ?_, rfl, rfl, ?_⟩
    · decide
    · decide +kernel
  obtain ⟨e₀, e, hnew, hrun, hover, hframe, hbuffered, hpush⟩ := hruns
  obtain ⟨⟨error, e', rest⟩, hpush, hfields⟩ := Option.map_eq_some_iff.1 hpush
  simp only [Prod.mk.injEq] at hfields
  obtain ⟨rfl, rfl, hframe', hbuffered'⟩ := hfields
  exact ⟨e₀, e, e', hnew, hrun, hover, hframe, hbuffered, hpush, hframe', hbuffered'⟩

/-- The compaction in the middle of the last push drops five bytes; the four that were taken in stand
behind the rest. -/
theorem frame_buffer_bounded_tallying : ∃ (e₀ e e' : StreamingEncoder tallyingPieces) (taken : Bytes),
    new (tallyingCoder 4) tallyingOptions none = .ok e₀ ∧
    e₀.runAll (tallyingCoder 4) [.push [1, 2, 3, 4, 5, 6, 7, 8, 9], .flush, .push [10]] = some e ∧
    usizeAdd e.historyLimit (historySlackFor e.params e.options) < e.state.frame.length ∧
    e.push (tallyingCoder 4) [11, 12, 13, 14] = some (none, e', []) ∧
    e'.state.frame = [6, 7, 8, 9, 10, 11, 12, 13] ∧ e'.bufferedInput = [14] ∧
    [11, 12, 13, 14] = taken ++ [] ∧ TakesIn taken e e' ∧
    ∀ e', Steps (tallyingCoder 4) e e' → Bounded (tallyingCoder 4) e' := by
  obtain ⟨e₀, e, e', hnew, hrun, hover, -, -, hpush, hframe, hbuffered⟩ := tallying_runs
  obtain ⟨hpushes, -, hsteps, hbounded⟩ := frame_buffer_bounded hnew hrun
  obtain ⟨error, e'', taken, rest, hpush', -, hpieces, htakes, -⟩ := hpushes [11, 12, 13, 14]
  rw [hpush] at hpush'
  cases hpush'
  exact ⟨e₀, e, e', taken, hnew, hrun, hover, hpush, hframe, hbuffered, hpieces, htakes, hbounded⟩

end StreamingEncoder

end Zstandard
