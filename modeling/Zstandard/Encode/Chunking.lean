/-
What a stream delivers depends on its content and on where it was flushed, not on how the content was cut into pushes or
when the output was drained.

Two things are set aside first. `Tracks` relates an encoder that nothing was drained from to one with buffers of its own
that has delivered part of its output; every operation keeps it. And a push is its bytes fed one by one (`push_feeds`),
so that a run of calls is a list of events, bytes and flushes, which the content and the places of the flushes determine
up to repeated flushes (`happenings_canonical`).
-/
import Zstandard.Encode.FrameBuffer
import Zstandard.Library.Follows

namespace Zstandard

open Simulation

variable {π : Pieces}

/-! ## Alike -/

theorem Scratch.Alike.refl (s : Scratch π) : s.Alike s := ⟨rfl, rfl, rfl, rfl, .inl rfl⟩

theorem Coding.Alike.refl (c : Coding π) : c.Alike c := ⟨rfl, rfl, rfl, .refl _, rfl⟩

/-- Clearing the parser state leaves nothing that differs. -/
theorem Scratch.clearFrameParserState_alike (s s' : Scratch π) :
    s.clearFrameParserState.Alike s'.clearFrameParserState :=
  ⟨rfl, rfl, rfl, rfl, .inr ⟨rfl, rfl⟩⟩

theorem Scratch.Alike.shift {s s' : Scratch π} (h : s.Alike s') (coder : BlockCoder π) (delta : Nat) :
    (s.shiftFramePositions coder delta).Alike (s'.shiftFramePositions coder delta) :=
  ⟨h.optPriceState, congrArg (Option.map _) h.optHash3, h.optSourceBt, h.optDictBt, h.optPrefixLen⟩

namespace StreamFrame

structure Alike (s s' : StreamFrame π) : Prop where
  frame : s'.frame = s.frame
  matchState : s'.matchState = s.matchState
  coding : s.coding.Alike s'.coding

theorem Alike.refl (s : StreamFrame π) : s.Alike s := ⟨rfl, rfl, .refl _⟩

theorem Alike.rebuild {s s' : StreamFrame π} (h : s.Alike s') (coder : BlockCoder π) (options : EncoderOptions π)
    (params : CompressionParameters) : (s.rebuild coder options params).Alike (s'.rebuild coder options params) := by
  unfold StreamFrame.rebuild
  rw [h.matchState, h.frame]
  dsimp only
  split
  · exact ⟨rfl, rfl, h.coding⟩
  · exact ⟨rfl, rfl, h.coding⟩

theorem Alike.compact {s s' : StreamFrame π} (h : s.Alike s') (coder : BlockCoder π) (options : EncoderOptions π)
    (params : CompressionParameters) (historyLimit : Nat) :
    (s.compact coder options params historyLimit).Alike (s'.compact coder options params historyLimit) := by
  unfold StreamFrame.compact
  rw [h.matchState, h.frame]
  dsimp only
  -- the bytes that go and the tables that are shifted are the same
  have hdropped : ∀ dropped, StreamFrame.Alike
      { s with
        frame := s.frame.drop dropped
        coding := { s.coding with
          ldm := s.coding.ldm.map (coder.shiftLdm · dropped)
          scratch := s.coding.scratch.shiftFramePositions coder dropped } }
      { s' with
        frame := s.frame.drop dropped
        coding := { s'.coding with
          ldm := s'.coding.ldm.map (coder.shiftLdm · dropped)
          scratch := s'.coding.scratch.shiftFramePositions coder dropped } } := by
    intro dropped
    refine ⟨rfl, h.matchState, h.coding.literalsState, h.coding.repeatOffsets, h.coding.sequenceTables,
      h.coding.scratch.shift coder dropped, ?_⟩
    exact congrArg (Option.map _) h.coding.ldm
  split
  · exact ⟨rfl, rfl, (hdropped _).coding⟩
  · have hrebuilt := (hdropped (alignedDrop params (s.frame.length - historyLimit))).rebuild coder options params
    rw [h.matchState] at hrebuilt
    exact hrebuilt

/-- Frames that are alike give the same block, and are alike again. -/
theorem Alike.encodeBlock {s s' : StreamFrame π} (h : s.Alike s') (coder : BlockCoder π) (options : EncoderOptions π)
    (dictionary : Option π.Dictionary) (params : CompressionParameters) (block : Bytes) (lastBlock : Bool) :
    (s'.encodeBlock coder options dictionary params block lastBlock).1 =
      (s.encodeBlock coder options dictionary params block lastBlock).1 ∧
    (s'.encodeBlock coder options dictionary params block lastBlock).2.1 =
      (s.encodeBlock coder options dictionary params block lastBlock).2.1 ∧
    (s.encodeBlock coder options dictionary params block lastBlock).2.2.Alike
      (s'.encodeBlock coder options dictionary params block lastBlock).2.2 := by
  have hbefore : (s.beforeBlock coder options params).Alike (s'.beforeBlock coder options params) := by
    unfold beforeBlock
    rw [h.frame]
    split
    · exact h.compact coder options params _
    · exact h
  have hunfold : ∀ s : StreamFrame π, (if s.frame.length > usizeAdd (historyLimitFor params)
      (historySlackFor params options) then s.compact coder options params (historyLimitFor params) else s) =
      s.beforeBlock coder options params := fun _ => rfl
  unfold StreamFrame.encodeBlock
  dsimp only
  rw [hunfold, hunfold]
  generalize s.beforeBlock coder options params = s at hbefore
  generalize s'.beforeBlock coder options params = s' at hbefore
  obtain ⟨hframe, hmatch, hcoding⟩ := hbefore
  rw [hframe, hmatch]
  cases s.matchState with
  | prefixed p =>
    dsimp only
    have hencoded := coder.encodePrefixed_alike (dictionary.elim [] coder.content) (s.frame ++ block) s.frame.length
      (s.frame ++ block).length p lastBlock { params with maxHistoryBytes := historyLimitFor params } _ _ hcoding
    exact ⟨hencoded.error, hencoded.bytes, rfl, congrArg StreamingMatchState.prefixed hencoded.matchState,
      hencoded.coding⟩
  | contiguous m =>
    dsimp only
    -- whether or not the block is parsed twice, what is handed to the encoder is alike
    have hseed : ∀ seed seed',
        (if s.frame.length = 0 then
          coder.seedOptimalPrices s.coding.scratch ((s.frame ++ block).take (s.frame ++ block).length)
            s.coding.repeatOffsets { params with maxHistoryBytes := historyLimitFor params } m s.coding.ldm
          else (none, s.coding.scratch, m, s.coding.ldm)) = seed →
        (if s.frame.length = 0 then
          coder.seedOptimalPrices s'.coding.scratch ((s.frame ++ block).take (s.frame ++ block).length)
            s'.coding.repeatOffsets { params with maxHistoryBytes := historyLimitFor params } m s'.coding.ldm
          else (none, s'.coding.scratch, m, s'.coding.ldm)) = seed' →
        seed'.1 = seed.1 ∧ seed.2.1.Alike seed'.2.1 ∧ seed'.2.2 = seed.2.2 := by
      rintro seed seed' rfl rfl
      rw [hcoding.repeatOffsets, hcoding.ldm]
      split
      · exact coder.seed_alike _ _ _ _ _ _ _ hcoding.scratch
      · exact ⟨rfl, hcoding.scratch, rfl⟩
    generalize heq : (if s.frame.length = 0 then
      coder.seedOptimalPrices s.coding.scratch ((s.frame ++ block).take (s.frame ++ block).length)
        s.coding.repeatOffsets { params with maxHistoryBytes := historyLimitFor params } m s.coding.ldm
      else (none, s.coding.scratch, m, s.coding.ldm)) = seed
    generalize heq' : (if s.frame.length = 0 then
      coder.seedOptimalPrices s'.coding.scratch ((s.frame ++ block).take (s.frame ++ block).length)
        s'.coding.repeatOffsets { params with maxHistoryBytes := historyLimitFor params } m s'.coding.ldm
      else (none, s'.coding.scratch, m, s'.coding.ldm)) = seed'
    obtain ⟨herror, hscratch, hrest⟩ := hseed seed seed' heq heq'
    obtain ⟨error, scratch, m₁, ldm⟩ := seed
    obtain ⟨error', scratch', m₁', ldm'⟩ := seed'
    dsimp only at herror hscratch hrest
    obtain ⟨rfl, rfl⟩ := Prod.mk.inj hrest
    subst herror
    have hcoding' : Coding.Alike { s.coding with scratch := scratch, ldm := ldm' }
        { s'.coding with scratch := scratch', ldm := ldm' } :=
      ⟨hcoding.literalsState, hcoding.repeatOffsets, hcoding.sequenceTables, hscratch, rfl⟩
    cases error' with
    | some error => exact ⟨rfl, rfl, rfl, rfl, hcoding'⟩
    | none =>
      dsimp only
      have hencoded := coder.encode_alike (s.frame ++ block) s.frame.length (s.frame ++ block).length m₁' lastBlock
        { params with maxHistoryBytes := historyLimitFor params } _ _ hcoding'
      exact ⟨hencoded.error, hencoded.bytes, rfl, congrArg StreamingMatchState.contiguous hencoded.matchState,
        hencoded.coding⟩

end StreamFrame

/-- An operation's outcome as a result. -/
def settle {α : Type} : Option Error × α → Result α
  | (none, a) => .ok a
  | (some error, _) => .error error

namespace StreamingEncoder

/-! ## Tracking -/

/-- `e'` is `e` with other buffers, and has delivered some of its output; `lead` had been delivered before `e` began. -/
structure Tracks (lead : Bytes) (e : StreamingEncoder π) (delivered : Bytes) (e' : StreamingEncoder π) : Prop where
  options : e'.options = e.options
  dictionary : e'.dictionary = e.dictionary
  params : e'.params = e.params
  buffered : e'.bufferedInput = e.bufferedInput
  state : e.state.Alike e'.state
  checksum : e'.checksum = e.checksum
  savings : e'.savings = e.savings
  contentLen : e'.contentLen = e.contentLen
  finished : e'.finished = e.finished
  pos : e.outputPos ≤ e.output.length
  pos' : e'.outputPos ≤ e'.output.length
  stream : delivered ++ e'.pendingOutput = lead ++ e.pendingOutput

theorem Tracks.refl {e : StreamingEncoder π} (h : e.outputPos ≤ e.output.length) : Tracks [] e [] e :=
  ⟨rfl, rfl, rfl, rfl, .refl _, rfl, rfl, rfl, rfl, h, h, rfl⟩

variable {lead delivered : Bytes} {e e' : StreamingEncoder π}

theorem Tracks.pushTarget (h : Tracks lead e delivered e') : e'.pushTarget = e.pushTarget :=
  pushTarget_congr h.options h.params

theorem Tracks.nextBlockSize (h : Tracks lead e delivered e') : e'.nextBlockSize = e.nextBlockSize := by
  unfold StreamingEncoder.nextBlockSize blockSize
  rw [h.options, h.params, h.buffered, h.savings]

/-- Output behind output. -/
theorem Tracks.append (h : Tracks lead e delivered e') (bytes : Bytes) :
    delivered ++ (e'.output ++ bytes).drop e'.outputPos = lead ++ (e.output ++ bytes).drop e.outputPos := by
  have hstream := h.stream
  unfold pendingOutput at hstream
  rw [List.drop_append_of_le_length h.pos, List.drop_append_of_le_length h.pos', ← List.append_assoc, hstream,
    List.append_assoc]

/-- A block comes out the same on both, and costs the splitter the same. -/
theorem Tracks.encodeBufferedBlock (h : Tracks lead e delivered e') (coder : BlockCoder π) (take : Nat)
    (lastBlock : Bool) :
    Simulation.Alike (fun e e' => Tracks lead e delivered e') (settle (e.encodeBufferedBlock coder take lastBlock))
      (settle (e'.encodeBufferedBlock coder take lastBlock)) := by
  have henc := e.encodeBufferedBlock_encoded coder take lastBlock
  have henc' := e'.encodeBufferedBlock_encoded coder take lastBlock
  have herror := e.encodeBufferedBlock_error coder take lastBlock
  have herror' := e'.encodeBufferedBlock_error coder take lastBlock
  obtain ⟨hsame, hbytes, hstate⟩ := h.state.encodeBlock coder e.options e.dictionary e.params
    (e.bufferedInput.take take) lastBlock
  rw [h.options, h.dictionary, h.params, h.buffered, hsame] at herror'
  have houtput := henc.output
  have houtput' := henc'.output
  rw [h.options, h.dictionary, h.params, h.buffered, hbytes] at houtput'
  have hsavings := henc.savings
  have hsavings' := henc'.savings
  rw [h.options, h.dictionary, h.params, h.buffered, hsame, hbytes, h.savings] at hsavings'
  have hafter := henc'.state
  rw [h.options, h.dictionary, h.params, h.buffered] at hafter
  have htracks : Tracks lead (e.encodeBufferedBlock coder take lastBlock).2 delivered
      (e'.encodeBufferedBlock coder take lastBlock).2 := by
    constructor
    · rw [henc.options, henc'.options, h.options]
    · rw [henc.dictionary, henc'.dictionary, h.dictionary]
    · rw [henc.params, henc'.params, h.params]
    · rw [henc.buffered, henc'.buffered, h.buffered]
    · rw [henc.state, hafter]; exact hstate
    · rw [henc.checksum, henc'.checksum, h.checksum]
    · rw [hsavings, hsavings']
    · rw [henc.contentLen, henc'.contentLen, h.contentLen]
    · rw [henc.finished, henc'.finished, h.finished]
    · rw [henc.outputPos, houtput, List.length_append]; exact h.pos.trans (Nat.le_add_right _ _)
    · rw [henc'.outputPos, houtput', List.length_append]; exact h.pos'.trans (Nat.le_add_right _ _)
    · unfold pendingOutput
      rw [henc.outputPos, henc'.outputPos, houtput, houtput']
      exact h.append _
  -- both fail alike, and where they do not, both go on from states that still match
  rw [← herror] at herror'
  revert herror' htracks
  generalize e.encodeBufferedBlock coder take lastBlock = r
  generalize e'.encodeBufferedBlock coder take lastBlock = r'
  intro herror' htracks
  obtain ⟨error, e₁⟩ := r
  obtain ⟨error', e₁'⟩ := r'
  dsimp only at herror' htracks
  subst herror'
  cases error' with
  | none => exact .ok htracks
  | some error => exact .error error

theorem settle_encodeBufferedChunk (coder : BlockCoder π) (e : StreamingEncoder π) :
    settle (e.encodeBufferedChunk coder) = (settle (e.encodeBufferedBlock coder e.nextBlockSize false) >>= fun e =>
      if e.bufferedInput.isEmpty then .ok e
      else settle (e.encodeBufferedBlock coder e.bufferedInput.length false)) := by
  unfold encodeBufferedChunk
  dsimp only
  generalize e.encodeBufferedBlock coder e.nextBlockSize false = first
  obtain ⟨error, e₁⟩ := first
  cases error with
  | some error => rfl
  | none =>
    show settle (if _ then _ else _) = (if _ then _ else _)
    split_ifs
    · rfl
    · rfl

theorem Tracks.encodeBufferedChunk (h : Tracks lead e delivered e') (coder : BlockCoder π) :
    Simulation.Alike (fun e e' => Tracks lead e delivered e') (settle (e.encodeBufferedChunk coder))
      (settle (e'.encodeBufferedChunk coder)) := by
  rw [settle_encodeBufferedChunk, settle_encodeBufferedChunk, h.nextBlockSize]
  refine (h.encodeBufferedBlock coder e.nextBlockSize false).bind fun e₁ e₁' _ _ h₁ => ?_
  rw [h₁.buffered]
  split
  · exact .ok h₁
  · exact h₁.encodeBufferedBlock coder e₁.bufferedInput.length false

theorem Tracks.flush (h : Tracks lead e delivered e') (coder : BlockCoder π) :
    Simulation.Alike (fun e e' => Tracks lead e delivered e') (settle (e.flush coder)) (settle (e'.flush coder)) := by
  unfold StreamingEncoder.flush
  rw [h.finished, h.buffered]
  split_ifs
  · exact .error _
  · exact .ok h
  · exact h.encodeBufferedBlock coder e.bufferedInput.length false

/-- Everything behind the last block. -/
def closed (e : StreamingEncoder π) : StreamingEncoder π :=
  { e with
    output := e.output ++ e.checksum.elim [] fun checksum => writeLe (checksum.digest.toNat % 2 ^ 32) 4
    finished := true }

theorem settle_finish (coder : BlockCoder π) (e : StreamingEncoder π) :
    settle (e.finish coder) = if e.finished then .ok e
      else if e.options.pledgedSrcSize.any (·.toNat ≠ e.contentLen) then
        .error (.invalidParameter "stream carried a different number of bytes than pledged_src_size")
      else settle (e.encodeBufferedBlock coder e.bufferedInput.length true) >>= fun e => .ok e.closed := by
  unfold finish
  split_ifs
  · rfl
  · rfl
  · dsimp only
    generalize e.encodeBufferedBlock coder e.bufferedInput.length true = encoded
    obtain ⟨error, e₁⟩ := encoded
    cases error with
    | some error => rfl
    | none => rfl

theorem Tracks.closed (h : Tracks lead e delivered e') : Tracks lead e.closed delivered e'.closed := by
  refine ⟨h.options, h.dictionary, h.params, h.buffered, h.state, h.checksum, h.savings, h.contentLen, rfl, ?_, ?_, ?_⟩
  · unfold StreamingEncoder.closed
    rw [List.length_append]; exact h.pos.trans (Nat.le_add_right _ _)
  · unfold StreamingEncoder.closed
    rw [List.length_append]; exact h.pos'.trans (Nat.le_add_right _ _)
  · unfold StreamingEncoder.closed pendingOutput
    rw [h.checksum]; exact h.append _

theorem Tracks.finish (h : Tracks lead e delivered e') (coder : BlockCoder π) :
    Simulation.Alike (fun e e' => Tracks lead e delivered e') (settle (e.finish coder)) (settle (e'.finish coder)) := by
  rw [settle_finish, settle_finish, h.finished, h.options, h.contentLen, h.buffered]
  split_ifs
  · exact .ok h
  · exact .error _
  · exact (h.encodeBufferedBlock coder e.bufferedInput.length true).bind fun _ _ _ _ h₁ => .ok h₁.closed

theorem Drained.tracks {bytes : Bytes} {e₁ : StreamingEncoder π} (hdrained : Drained e' bytes e₁)
    (h : Tracks lead e delivered e') : Tracks lead e (delivered ++ bytes) e₁ := by
  obtain ⟨hsame, hstream, hpos⟩ := hdrained
  refine ⟨?_, ?_, ?_, ?_, ?_, ?_, ?_, ?_, ?_, h.pos, hpos h.pos', ?_⟩
  · rw [hsame]; exact h.options
  · rw [hsame]; exact h.dictionary
  · rw [hsame]; exact h.params
  · rw [hsame]; exact h.buffered
  · rw [hsame]; exact h.state
  · rw [hsame]; exact h.checksum
  · rw [hsame]; exact h.savings
  · rw [hsame]; exact h.contentLen
  · rw [hsame]; exact h.finished
  · rw [List.append_assoc, hstream]; exact h.stream

/-! ## A push is its bytes -/

/-- One byte into the buffer, and the buffer out if that fills it. -/
def takeByte (coder : BlockCoder π) (e : StreamingEncoder π) (b : UInt8) : Result (StreamingEncoder π) :=
  if (e.topUp [b]).bufferedInput.length = e.pushTarget then settle ((e.topUp [b]).encodeBufferedChunk coder)
  else .ok (e.topUp [b])

/-- Content that the checksum and the pledge count. -/
def counted (e : StreamingEncoder π) (src : Bytes) : StreamingEncoder π :=
  { e with checksum := e.checksum.map (·.update src), contentLen := e.contentLen + src.length }

def feed (coder : BlockCoder π) (e : StreamingEncoder π) (b : UInt8) : Result (StreamingEncoder π) :=
  takeByte coder (e.counted [b]) b

theorem counted_nil (e : StreamingEncoder π) : e.counted [] = e := by
  unfold counted
  have hchecksum : e.checksum.map (·.update []) = e.checksum := by
    cases e.checksum with
    | none => rfl
    | some checksum => exact congrArg some checksum.update_nil
  rw [hchecksum]; rfl

theorem counted_append (e : StreamingEncoder π) (a b : Bytes) : (e.counted a).counted b = e.counted (a ++ b) := by
  unfold counted
  have hchecksum : (e.checksum.map (·.update a)).map (·.update b) = e.checksum.map (·.update (a ++ b)) := by
    cases e.checksum with
    | none => rfl
    | some checksum => exact congrArg some (checksum.update_append a b)
  dsimp only
  rw [hchecksum, List.length_append, Nat.add_assoc]

theorem encodeBufferedBlock_counted (coder : BlockCoder π) (e : StreamingEncoder π) (src : Bytes) (take : Nat)
    (lastBlock : Bool) : settle ((e.counted src).encodeBufferedBlock coder take lastBlock) =
      (settle (e.encodeBufferedBlock coder take lastBlock)).map (·.counted src) := by
  unfold encodeBufferedBlock counted
  dsimp only
  cases (e.state.encodeBlock coder e.options e.dictionary e.params (e.bufferedInput.take take) lastBlock).1 with
  | none => rfl
  | some error => rfl

theorem encodeBufferedChunk_counted (coder : BlockCoder π) (e : StreamingEncoder π) (src : Bytes) :
    settle ((e.counted src).encodeBufferedChunk coder) =
      (settle (e.encodeBufferedChunk coder)).map (·.counted src) := by
  rw [settle_encodeBufferedChunk, settle_encodeBufferedChunk, encodeBufferedBlock_counted,
    show (e.counted src).nextBlockSize = e.nextBlockSize from rfl]
  cases settle (e.encodeBufferedBlock coder e.nextBlockSize false) with
  | error error => rfl
  | ok e₁ =>
    dsimp only [Except.map, bind, Except.bind]
    rw [show (e₁.counted src).bufferedInput = e₁.bufferedInput from rfl]
    split
    · rfl
    · exact encodeBufferedBlock_counted ..

/-- Nothing that a byte in the buffer leads to reads the counts. -/
theorem takeByte_counted (coder : BlockCoder π) (e : StreamingEncoder π) (src : Bytes) (b : UInt8) :
    takeByte coder (e.counted src) b = (takeByte coder e b).map (·.counted src) := by
  unfold takeByte
  rw [show (e.counted src).topUp [b] = (e.topUp [b]).counted src from rfl,
    show ((e.topUp [b]).counted src).bufferedInput = (e.topUp [b]).bufferedInput from rfl,
    show (e.counted src).pushTarget = e.pushTarget from rfl]
  split
  · exact encodeBufferedChunk_counted ..
  · rfl

/-- Counting all at once or byte by byte. -/
theorem feeds_counted (coder : BlockCoder π) : ∀ (src : Bytes) (e : StreamingEncoder π),
    src.foldlM (takeByte coder) (e.counted src) = src.foldlM (feed coder) e
  | [], e => by rw [counted_nil]; rfl
  | b :: src, e => by
    rw [List.foldlM_cons, List.foldlM_cons]
    rw [show e.counted (b :: src) = (e.counted [b]).counted src by rw [counted_append]; rfl, takeByte_counted]
    show ((takeByte coder (e.counted [b]) b).map (·.counted src) >>= _) = (takeByte coder (e.counted [b]) b >>= _)
    cases takeByte coder (e.counted [b]) b with
    | error error => rfl
    | ok e₁ => exact feeds_counted coder src e₁

/-- Bytes that do not fill the buffer. -/
theorem takeBytes_room (coder : BlockCoder π) : ∀ (src : Bytes) (e : StreamingEncoder π),
    e.bufferedInput.length + src.length < e.pushTarget → src.foldlM (takeByte coder) e = .ok (e.topUp src)
  | [], e, _ => by
    unfold topUp
    rw [List.append_nil]; rfl
  | b :: src, e, h => by
    rw [List.length_cons] at h
    have hlen : (e.topUp [b]).bufferedInput.length = e.bufferedInput.length + 1 := List.length_append
    rw [List.foldlM_cons, takeByte, if_neg (by omega)]
    refine (takeBytes_room coder src (e.topUp [b]) ?_).trans ?_
    · rw [hlen, show (e.topUp [b]).pushTarget = e.pushTarget from rfl]; omega
    · unfold topUp
      dsimp only
      rw [List.append_assoc]; rfl

/-- Bytes that just fill it. -/
theorem takeBytes_full (coder : BlockCoder π) {src : Bytes} {e : StreamingEncoder π} (hsrc : src ≠ [])
    (h : e.bufferedInput.length + src.length = e.pushTarget) :
    src.foldlM (takeByte coder) e = settle ((e.topUp src).encodeBufferedChunk coder) := by
  obtain ⟨front, b, rfl⟩ : ∃ front b, src = front ++ [b] :=
    ⟨src.dropLast, src.getLast hsrc, (List.dropLast_append_getLast hsrc).symm⟩
  rw [List.length_append, List.length_singleton] at h
  rw [List.foldlM_append, takeBytes_room coder front e (by omega)]
  have htop : (e.topUp front).topUp [b] = e.topUp (front ++ [b]) := by
    unfold topUp
    dsimp only
    rw [List.append_assoc]
  have hlen : (e.topUp (front ++ [b])).bufferedInput.length = e.pushTarget := by
    unfold topUp
    rw [List.length_append, List.length_append, List.length_singleton]; omega
  show ([b].foldlM (takeByte coder) (e.topUp front)) = _
  rw [List.foldlM_cons, takeByte, htop, if_pos (by exact hlen)]
  cases settle ((e.topUp (front ++ [b])).encodeBufferedChunk coder) with
  | error error => rfl
  | ok e₁ => rfl

/-- The loop of a push takes its bytes one by one. -/
theorem pushLoop_takes (coder : BlockCoder π) : ∀ (fuel : Nat) (src : Bytes) (e : StreamingEncoder π),
    src.length ≤ fuel → e.Ready →
    ∀ error e' rest, pushLoop coder e.pushTarget fuel src e = some (error, e', rest) →
      settle (error, e') = src.foldlM (takeByte coder) e
  | fuel, [], e, _, _, error, e', rest, hrun => by
    have hrun : some (none, e, []) = some (error, e', rest) := by
      rw [← hrun]; cases fuel <;> rfl
    cases hrun
    rfl
  | 0, _ :: _, _, hfuel, _, _, _, _, _ => by simp at hfuel
  | fuel + 1, b :: src, e, hfuel, hready, error, e', rest, hrun => by
    rw [List.length_cons] at hfuel
    have h := hready.buffered_lt
    rw [pushLoop_cons coder e.pushTarget fuel b src e rfl] at hrun
    generalize htake : min (e.pushTarget - e.bufferedInput.length) (b :: src).length = take at hrun
    rw [List.length_cons] at htake
    have hrest : ((b :: src).drop take).length ≤ fuel := by
      rw [List.length_drop, List.length_cons]; omega
    have hlen : ((b :: src).take take).length = take := by
      rw [List.length_take, List.length_cons]; omega
    have htop : (e.topUp ((b :: src).take take)).bufferedInput.length = e.bufferedInput.length + take := by
      unfold topUp
      rw [List.length_append, hlen]
    have htarget : (e.topUp ((b :: src).take take)).pushTarget = e.pushTarget := rfl
    have htopUp : Step coder e (e.topUp ((b :: src).take take)) := .topUp e _ (by rw [hlen]; omega)
    have hw : (e.topUp ((b :: src).take take)).Within := htopUp.within hready.within
    rw [← List.take_append_drop take (b :: src), List.foldlM_append]
    split at hrun
    · rename_i hfull
      -- the last byte of the piece fills the buffer, and that is where bytes taken one by one encode it
      have hne : (b :: src).take take ≠ [] := List.ne_nil_of_length_pos (by omega)
      rw [takeBytes_full coder hne (by omega)]
      rw [← htarget] at hfull
      obtain ⟨hsteps, -, hlt, -⟩ := encodeBufferedChunk_spec coder hw hfull
      have hw₁ := Steps.within hsteps hw
      generalize (e.topUp ((b :: src).take take)).encodeBufferedChunk coder = chunk at hrun hsteps hlt hw₁
      obtain ⟨error₁, e₁⟩ := chunk
      have htarget₁ := Steps.pushTarget hsteps
      rw [htarget] at htarget₁ hlt
      cases error₁ with
      | some error₁ =>
        cases hrun
        rfl
      | none =>
        dsimp only at hrun hlt htarget₁ hw₁
        rw [← htarget₁] at hrun hlt
        exact pushLoop_takes coder fuel _ e₁ hrest ⟨hw₁, hlt⟩ error e' rest hrun
    · -- the input ends before the buffer is full
      rw [takeBytes_room coder _ e (by omega)]
      exact pushLoop_takes coder fuel _ (e.topUp _) hrest ⟨hw, by omega⟩ error e' rest hrun

/-- A push feeds its bytes. -/
theorem push_feeds (coder : BlockCoder π) (h : e.Ready) (hopen : e.finished = false) (src : Bytes) :
    ∃ error e' rest, e.push coder src = some (error, e', rest) ∧ e'.Ready ∧ e'.finished = false ∧
      settle (error, e') = src.foldlM (feed coder) e := by
  obtain ⟨error, e', rest, hpush, hpushed⟩ := push_spec coder h src
  refine ⟨error, e', rest, hpush, hpushed.ready h, hpushed.finished.trans hopen, ?_⟩
  unfold push at hpush
  rw [if_neg (by simp [hopen])] at hpush
  rw [← feeds_counted]
  have hsame : SameFrame e (e.counted src) := ⟨rfl, rfl, rfl, rfl, rfl, id⟩
  have hcounted : Steps coder e (e.counted src) ∧ (e.counted src).Ready := h.other hsame
  exact pushLoop_takes coder src.length src (e.counted src) le_rfl hcounted.2 error e' rest hpush

theorem Tracks.feed (h : Tracks lead e delivered e') (coder : BlockCoder π) (b : UInt8) :
    Simulation.Alike (fun e e' => Tracks lead e delivered e') (feed coder e b) (feed coder e' b) := by
  have htop : Tracks lead ((e.counted [b]).topUp [b]) delivered ((e'.counted [b]).topUp [b]) := by
    refine ⟨h.options, h.dictionary, h.params, ?_, h.state, ?_, h.savings, ?_, h.finished, h.pos, h.pos', h.stream⟩
    · exact congrArg (· ++ [b]) h.buffered
    · exact congrArg (Option.map (·.update [b])) h.checksum
    · exact congrArg (· + [b].length) h.contentLen
  unfold StreamingEncoder.feed takeByte
  rw [htop.buffered, show (e'.counted [b]).pushTarget = e'.pushTarget from rfl, h.pushTarget,
    show (e.counted [b]).pushTarget = e.pushTarget from rfl]
  split
  · exact htop.encodeBufferedChunk coder
  · exact .ok htop

/-! ## Events -/

/-- What a run of calls comes down to, its drains set aside. -/
inductive Happening where
  | byte (b : UInt8)
  | flush
deriving DecidableEq, Repr

def happen (coder : BlockCoder π) (e : StreamingEncoder π) : Happening → Result (StreamingEncoder π)
  | .byte b => feed coder e b
  | .flush => settle (e.flush coder)

/-- A second flush has nothing to do. -/
theorem flush_twice (coder : BlockCoder π) (e : StreamingEncoder π) (rest : List Happening) :
    (.flush :: .flush :: rest).foldlM (happen coder) e = (.flush :: rest).foldlM (happen coder) e := by
  rw [List.foldlM_cons, List.foldlM_cons]
  cases hflush : happen coder e .flush with
  | error error => rfl
  | ok e₁ =>
    show (happen coder e₁ .flush >>= fun e => rest.foldlM (happen coder) e) = rest.foldlM (happen coder) e₁
    have hdone : happen coder e₁ .flush = .ok e₁ := by
      unfold happen StreamingEncoder.flush at hflush ⊢
      dsimp only at hflush ⊢
      split_ifs at hflush with hfinished hempty
      · cases hflush
      · cases hflush
        rw [if_neg hfinished, if_pos hempty]; rfl
      · have henc := e.encodeBufferedBlock_encoded coder e.bufferedInput.length false
        generalize e.encodeBufferedBlock coder e.bufferedInput.length false = r at hflush henc
        obtain ⟨error, e₂⟩ := r
        cases error with
        | some error => cases hflush
        | none =>
          cases hflush
          have hempty₁ := henc.buffered
          rw [List.drop_length] at hempty₁
          have hfinished₁ := henc.finished
          dsimp only at hempty₁ hfinished₁
          rw [hfinished₁, if_neg hfinished, hempty₁]
          rfl
    rw [hdone]; rfl

end StreamingEncoder

namespace StreamOp

def isDrain : StreamOp → Bool
  | .take | .read _ | .consume _ => true
  | _ => false

/-- The calls of a frame before it is finished. -/
def inBody : StreamOp → Bool
  | .push _ | .flush => true
  | op => op.isDrain

def happenings : List StreamOp → List StreamingEncoder.Happening
  | [] => []
  | .push src :: ops => src.map .byte ++ happenings ops
  | .flush :: ops => .flush :: happenings ops
  | _ :: ops => happenings ops

def content : List StreamOp → Bytes
  | [] => []
  | .push src :: ops => src ++ content ops
  | _ :: ops => content ops

/-- The content positions at which a run of calls flushes, the first call being at `pos`. -/
def flushes : List StreamOp → Nat → List Nat
  | [], _ => []
  | .push src :: ops, pos => flushes ops (pos + src.length)
  | .flush :: ops, pos => pos :: flushes ops pos
  | _ :: ops, pos => flushes ops pos

/-- Content with one flush at each of the positions. -/
def canonical (places : List Nat) : Bytes → Nat → List StreamingEncoder.Happening
  | [], pos => if pos ∈ places then [.flush] else []
  | b :: src, pos => (if pos ∈ places then [.flush] else []) ++ .byte b :: canonical places src (pos + 1)

theorem canonical_congr {places places' : List Nat} : ∀ (src : Bytes) (pos : Nat),
    (∀ q, pos ≤ q → (q ∈ places ↔ q ∈ places')) → canonical places src pos = canonical places' src pos
  | [], pos, h => by
    unfold canonical
    simp only [h pos le_rfl]
  | b :: src, pos, h => by
    unfold canonical
    rw [canonical_congr src (pos + 1) fun q hq => h q (by omega)]
    simp only [h pos le_rfl]

theorem le_of_mem_flushes : ∀ (ops : List StreamOp) (pos : Nat) {q : Nat}, q ∈ flushes ops pos → pos ≤ q
  | [], _, _, h => by cases h
  | op :: ops, pos, q, h => by
    cases op with
    | push src => exact (Nat.le_add_right _ _).trans (le_of_mem_flushes ops _ h)
    | flush =>
      rcases List.mem_cons.1 h with rfl | h
      · exact le_rfl
      · exact le_of_mem_flushes ops pos h
    | finish | reset | take | read _ | consume _ => exact le_of_mem_flushes ops pos h

/-- No flush among bytes. -/
theorem canonical_append {places : List Nat} (rest : Bytes) : ∀ (src : Bytes) (pos : Nat),
    (∀ q ∈ places, pos + src.length ≤ q) →
    canonical places (src ++ rest) pos = src.map .byte ++ canonical places rest (pos + src.length)
  | [], pos, _ => rfl
  | b :: src, pos, h => by
    have hnot : pos ∉ places := fun hmem => by
      have := h pos hmem
      rw [List.length_cons] at this
      omega
    rw [List.cons_append, canonical, if_neg hnot, canonical_append rest src (pos + 1) fun q hq => by
      have := h q hq
      rw [List.length_cons] at this
      omega]
    rw [List.length_cons, show pos + (src.length + 1) = pos + 1 + src.length by omega]
    rfl

/-- Two frames of one input: the same content, flushed at the same places, and otherwise only drained. -/
structure SameInput (body tail body' tail' : List StreamOp) : Prop where
  calls : ∀ op ∈ body, op.inBody = true
  drains : ∀ op ∈ tail, op.isDrain = true
  calls' : ∀ op ∈ body', op.inBody = true
  drains' : ∀ op ∈ tail', op.isDrain = true
  sameContent : content body' = content body
  sameFlushes : ∀ pos, pos ∈ flushes body' 0 ↔ pos ∈ flushes body 0

theorem SameInput.canonical_eq {body tail body' tail' : List StreamOp} (h : SameInput body tail body' tail') :
    canonical (flushes body' 0) (content body') 0 = canonical (flushes body 0) (content body) 0 := by
  rw [h.sameContent]
  exact canonical_congr _ 0 fun pos _ => h.sameFlushes pos

end StreamOp

namespace StreamingEncoder

open StreamOp

/-- A run of calls does what its content with a flush at each of its flush positions does. -/
theorem happenings_canonical (coder : BlockCoder π) : ∀ (ops : List StreamOp) (pos : Nat) (e : StreamingEncoder π),
    (happenings ops).foldlM (happen coder) e =
      (canonical (flushes ops pos) (content ops) pos).foldlM (happen coder) e
  | [], pos, e => by
    show _ = (if pos ∈ ([] : List Nat) then [Happening.flush] else []).foldlM (happen coder) e
    rw [if_neg List.not_mem_nil]
    rfl
  | op :: ops, pos, e => by
    cases op with
    | push src =>
      unfold happenings content flushes
      rw [canonical_append _ src pos fun q hq => le_of_mem_flushes ops _ hq, List.foldlM_append, List.foldlM_append]
      congr 1
      funext e₁
      exact happenings_canonical coder ops (pos + src.length) e₁
    | flush =>
      unfold happenings content flushes
      have hflush : (Happening.flush :: happenings ops).foldlM (happen coder) e =
          (Happening.flush :: canonical (flushes ops pos) (content ops) pos).foldlM (happen coder) e := by
        rw [List.foldlM_cons, List.foldlM_cons]
        congr 1
        funext e₁
        exact happenings_canonical coder ops pos e₁
      rw [hflush]
      -- the flush here is the one that belongs before the next byte, whether or not there is another
      cases content ops with
      | nil =>
        unfold canonical
        rw [if_pos List.mem_cons_self]
        split
        · exact flush_twice coder e []
        · rfl
      | cons b src =>
        have hlater : canonical (pos :: flushes ops pos) src (pos + 1) = canonical (flushes ops pos) src (pos + 1) := by
          apply canonical_congr
          intro q hq
          rw [List.mem_cons]
          constructor
          · rintro (rfl | h)
            · omega
            · exact h
          · exact .inr
        unfold canonical
        rw [if_pos List.mem_cons_self, hlater]
        split
        · exact flush_twice coder e _
        · rfl
    | finish | reset | take | read _ | consume _ => exact happenings_canonical coder ops pos e

/-! ## Runs -/

theorem runOk_append (coder : BlockCoder π) (rest : List StreamOp) {r : Result (Bytes × StreamingEncoder π)} :
    ∀ (ops : List StreamOp) (s : Bytes × StreamingEncoder π), runOk coder (ops ++ rest) s = some r →
    ∃ r₁, runOk coder ops s = some r₁ ∧
      ((∃ error, r₁ = .error error ∧ r = .error error) ∨ ∃ s₁, r₁ = .ok s₁ ∧ runOk coder rest s₁ = some r)
  | [], s, h => ⟨.ok s, rfl, .inr ⟨s, rfl, h⟩⟩
  | op :: ops, (delivered, e), h => by
    rw [List.cons_append, runOk] at h
    rw [runOk]
    split at h
    · cases h
    · cases h
      exact ⟨_, rfl, .inl ⟨_, rfl, rfl⟩⟩
    · exact runOk_append coder rest ops _ h

/-- What holds between calls of a frame that is not finished: `s` is what was delivered and the encoder. -/
structure Follows (lead : Bytes) (e : StreamingEncoder π) (s : Bytes × StreamingEncoder π) : Prop where
  tracks : Tracks lead e s.1 s.2
  ready : s.2.Ready
  unfinished : s.2.finished = false

theorem perform_drain (coder : BlockCoder π) {op : StreamOp} (hop : op.isDrain = true) {error : Option Error}
    {bytes : Bytes} {e e' : StreamingEncoder π} (h : e.perform coder op = some (error, bytes, e')) :
    error = none ∧ Drained e bytes e' := by
  cases op with
  | push src => cases hop
  | flush => cases hop
  | finish => cases hop
  | reset => cases hop
  | take => cases h; exact ⟨rfl, e.takeOutput_drained⟩
  | read dstLen => cases h; exact ⟨rfl, e.read_drained dstLen⟩
  | consume count =>
    obtain ⟨⟨bytes', e₁⟩, hconsume, heq⟩ := Option.map_eq_some_iff.1 h
    cases heq
    unfold consumeOutput at hconsume
    split at hconsume
    · rename_i hcount
      cases hconsume
      exact ⟨rfl, advance_drained hcount⟩
    · cases hconsume

theorem flush_finished (coder : BlockCoder π) (e : StreamingEncoder π) : (e.flush coder).2.finished = e.finished := by
  unfold StreamingEncoder.flush
  split_ifs
  · rfl
  · rfl
  · exact (e.encodeBufferedBlock_encoded coder e.bufferedInput.length false).finished

/-- A call that delivers nothing. -/
theorem Follows.of_tracks {lead delivered : Bytes} {x : Result (StreamingEncoder π)} {error : Option Error}
    {e' : StreamingEncoder π} (hready : e'.Ready) (hopen : e'.finished = false)
    (h : Simulation.Alike (fun e e' => Tracks lead e delivered e') x (settle (error, e'))) :
    Simulation.Alike (Follows lead) x (settle (error, (delivered ++ [], e'))) := by
  rw [List.append_nil]
  cases error with
  | some error =>
    rw [Simulation.Alike.eq_error h]
    exact .error error
  | none =>
    obtain ⟨e, rfl, htracks⟩ := Simulation.Alike.exists_ok h
    exact .ok ⟨htracks, hready, hopen⟩

/-- One call, against what it comes down to. -/
theorem Follows.perform {lead : Bytes} {e : StreamingEncoder π} {s : Bytes × StreamingEncoder π}
    (h : Follows lead e s) (coder : BlockCoder π) {op : StreamOp} (hop : op.inBody = true) {error : Option Error}
    {bytes : Bytes} {e' : StreamingEncoder π} (hperform : s.2.perform coder op = some (error, bytes, e')) :
    Simulation.Alike (Follows lead) ((happenings [op]).foldlM (happen coder) e)
      (settle (error, (s.1 ++ bytes, e'))) := by
  obtain ⟨delivered, e₁⟩ := s
  obtain ⟨htracks, hready₁, hopen₁⟩ := h
  dsimp only at htracks hready₁ hopen₁ hperform ⊢
  have hready := (perform_steps coder hready₁ hperform).2
  by_cases hdrain : op.isDrain = true
  · -- a drain is no happening: bytes pass from what is pending to what is delivered
    obtain ⟨rfl, hdrained⟩ := perform_drain coder hdrain hperform
    have hnothing : happenings [op] = [] := by cases op <;> first | rfl | cases hdrain
    rw [hnothing]
    refine .ok ⟨hdrained.tracks htracks, hready, ?_⟩
    rw [hdrained.same]; exact hopen₁
  · cases op with
    | push src =>
      obtain ⟨error', e₂, rest, hpush, -, hopen, hfeeds⟩ := push_feeds coder hready₁ hopen₁ src
      unfold StreamingEncoder.perform at hperform
      dsimp only at hperform
      rw [hpush] at hperform
      cases hperform
      have hsteps : (happenings [.push src]).foldlM (happen coder) e = src.foldlM (feed coder) e := by
        unfold happenings happenings
        rw [List.append_nil, List.foldlM_map]
        rfl
      have halike := Simulation.Alike.foldlM (fun _ _ b (h : Tracks lead _ delivered _) => h.feed coder b) src htracks
      rw [hsteps]
      rw [← hfeeds] at halike
      exact Follows.of_tracks hready hopen halike
    | flush =>
      cases hperform
      have hsteps : (happenings [.flush]).foldlM (happen coder) e = settle (e.flush coder) := by
        unfold happenings happenings
        rw [List.foldlM_cons]
        show (settle (e.flush coder) >>= fun e => .ok e) = settle (e.flush coder)
        cases settle (e.flush coder) <;> rfl
      rw [hsteps]
      exact Follows.of_tracks hready ((flush_finished coder e₁).trans hopen₁) (htracks.flush coder)
    | take => exact absurd rfl hdrain
    | read dstLen => exact absurd rfl hdrain
    | consume count => exact absurd rfl hdrain
    | finish => cases hop
    | reset => cases hop

theorem happenings_cons (op : StreamOp) (ops : List StreamOp) :
    happenings (op :: ops) = happenings [op] ++ happenings ops := by
  cases op with
  | push src => exact congrArg (· ++ happenings ops) (List.append_nil _).symm
  | flush | finish | reset | take | read _ | consume _ => rfl

/-- The calls before a frame is finished. -/
theorem Follows.body (coder : BlockCoder π) : ∀ (ops : List StreamOp), (∀ op ∈ ops, op.inBody = true) →
    ∀ {lead : Bytes} {e : StreamingEncoder π} {s : Bytes × StreamingEncoder π}, Follows lead e s →
    ∀ {r : Result (Bytes × StreamingEncoder π)}, runOk coder ops s = some r →
      Simulation.Alike (Follows lead) ((happenings ops).foldlM (happen coder) e) r
  | [], _, _, _, _, h, _, hrun => by
    cases hrun
    exact .ok h
  | op :: ops, hbody, lead, e, (delivered, e₁), h, r, hrun => by
    rw [runOk] at hrun
    rw [happenings_cons, List.foldlM_append]
    split at hrun
    · cases hrun
    · rename_i error bytes e₂ hperform
      cases hrun
      rw [(h.perform coder (hbody op List.mem_cons_self) hperform).eq_error]
      exact .error error
    · rename_i bytes e₂ hperform
      obtain ⟨e₃, hsteps, hfollows⟩ := (h.perform coder (hbody op List.mem_cons_self) hperform).exists_ok
      rw [hsteps]
      exact Follows.body coder ops (fun op hop => hbody op (List.mem_cons_of_mem _ hop)) hfollows hrun

/-- The calls after it: they cannot fail. -/
theorem Tracks.tail (coder : BlockCoder π) {lead : Bytes} {e : StreamingEncoder π} : ∀ (ops : List StreamOp),
    (∀ op ∈ ops, op.isDrain = true) → ∀ {delivered : Bytes} {e' : StreamingEncoder π}, Tracks lead e delivered e' →
    ∀ {r : Result (Bytes × StreamingEncoder π)}, runOk coder ops (delivered, e') = some r →
      ∃ s, r = .ok s ∧ Tracks lead e s.1 s.2
  | [], _, _, _, h, _, hrun => by
    cases hrun
    exact ⟨_, rfl, h⟩
  | op :: ops, hdrains, delivered, e', h, r, hrun => by
    rw [runOk] at hrun
    split at hrun
    · cases hrun
    · rename_i error bytes e₁ hperform
      obtain ⟨herror, -⟩ := perform_drain coder (hdrains op List.mem_cons_self) hperform
      cases herror
    · rename_i bytes e₁ hperform
      obtain ⟨-, hdrained⟩ := perform_drain coder (hdrains op List.mem_cons_self) hperform
      exact Tracks.tail coder ops (fun op hop => hdrains op (List.mem_cons_of_mem _ hop)) (hdrained.tracks h) hrun

/-- What a run has delivered and what it holds ready. -/
def stream (s : Bytes × StreamingEncoder π) : Bytes := s.1 ++ s.2.pendingOutput

/-- The calls of one frame. -/
def frameCalls (body tail : List StreamOp) : List StreamOp := body ++ .finish :: tail

/-- A whole frame gives the stream that its content with its flushes gives. -/
theorem Follows.frame (coder : BlockCoder π) {body tail : List StreamOp} (hbody : ∀ op ∈ body, op.inBody = true)
    (htail : ∀ op ∈ tail, op.isDrain = true) {lead : Bytes} {e : StreamingEncoder π} {s : Bytes × StreamingEncoder π}
    (h : Follows lead e s) {r : Result (Bytes × StreamingEncoder π)}
    (hrun : runOk coder (frameCalls body tail) s = some r) :
    Simulation.Alike (fun (e : StreamingEncoder π) s => stream s = lead ++ e.pendingOutput)
      ((canonical (flushes body 0) (content body) 0).foldlM (happen coder) e >>= fun e =>
        settle (e.finish coder)) r := by
  obtain ⟨r₁, hrun₁, hrest⟩ := runOk_append coder (.finish :: tail) body s hrun
  have halike := Follows.body coder body hbody h hrun₁
  rw [happenings_canonical coder body 0 e] at halike
  rcases hrest with ⟨error, rfl, rfl⟩ | ⟨⟨delivered, e₁⟩, rfl, hrest⟩
  · rw [halike.eq_error]
    exact .error error
  · obtain ⟨e₂, hsteps, hfollows⟩ := halike.exists_ok
    rw [hsteps]
    show Simulation.Alike _ (settle (e₂.finish coder)) r
    have hfinish := hfollows.tracks.finish coder
    rw [runOk] at hrest
    unfold StreamingEncoder.perform at hrest
    dsimp only at hrest hfinish
    generalize e₁.finish coder = finished at hrest hfinish
    obtain ⟨error, e₃⟩ := finished
    cases error with
    | some error =>
      cases hrest
      rw [hfinish.eq_error]
      exact .error error
    | none =>
      obtain ⟨e₄, hfinished, htracks⟩ := hfinish.exists_ok
      dsimp only at hrest
      rw [List.append_nil] at hrest
      obtain ⟨s', rfl, htracks'⟩ := htracks.tail coder tail htail hrest
      rw [hfinished]
      exact .ok htracks'.stream

/-- Two encoders that follow one give the same streams for the same input. -/
theorem Follows.same_stream (coder : BlockCoder π) {body tail body' tail' : List StreamOp}
    (hinput : SameInput body tail body' tail') {lead lead' : Bytes} {e : StreamingEncoder π}
    {s s' : Bytes × StreamingEncoder π} (h : Follows lead e s) (h' : Follows lead' e s')
    {r r' : Result (Bytes × StreamingEncoder π)} (hrun : runOk coder (frameCalls body tail) s = some r)
    (hrun' : runOk coder (frameCalls body' tail') s' = some r') :
    Simulation.Alike (fun s s' => ∃ bytes, stream s = lead ++ bytes ∧ stream s' = lead' ++ bytes) r r' := by
  have hframe := Follows.frame coder hinput.calls hinput.drains h hrun
  have hframe' := Follows.frame coder hinput.calls' hinput.drains' h' hrun'
  rw [hinput.canonical_eq] at hframe'
  exact hframe.symm.trans hframe' fun s e s' hs hs' => ⟨e.pendingOutput, hs, hs'⟩

/-! ## Reachable encoders -/

theorem Step.config {coder : BlockCoder π} {e e' : StreamingEncoder π} (h : Step coder e e') :
    e'.options = e.options ∧ e'.dictionary = e.dictionary ∧ e'.params = e.params := by
  cases h with
  | topUp src h => exact ⟨rfl, rfl, rfl⟩
  | block take lastBlock h =>
    have henc := e.encodeBufferedBlock_encoded coder take lastBlock
    exact ⟨henc.options, henc.dictionary, henc.params⟩
  | newFrame =>
    have hopen := (e.resetFrameState_opened coder).2
    exact ⟨hopen.options, hopen.dictionary, hopen.params⟩
  | other _ h => exact ⟨h.options, h.dictionary, h.params⟩

theorem Step.pos {coder : BlockCoder π} {e e' : StreamingEncoder π} (h : Step coder e e')
    (hpos : e.outputPos ≤ e.output.length) : e'.outputPos ≤ e'.output.length := by
  cases h with
  | topUp src h => exact hpos
  | block take lastBlock h =>
    have henc := e.encodeBufferedBlock_encoded coder take lastBlock
    rw [henc.output, henc.outputPos, List.length_append]
    exact hpos.trans (Nat.le_add_right _ _)
  | newFrame =>
    have hopen := (e.resetFrameState_opened coder).2
    obtain ⟨written, -, houtput⟩ := hopen.output
    rw [houtput, hopen.outputPos, List.length_append]
    exact hpos.trans (Nat.le_add_right _ _)
  | other _ h => exact h.pos hpos

theorem Steps.config_pos {coder : BlockCoder π} {e e' : StreamingEncoder π} (h : Steps coder e e')
    (hpos : e.outputPos ≤ e.output.length) :
    (e'.options = e.options ∧ e'.dictionary = e.dictionary ∧ e'.params = e.params) ∧
      e'.outputPos ≤ e'.output.length := by
  induction h with
  | refl => exact ⟨⟨rfl, rfl, rfl⟩, hpos⟩
  | tail _ hstep ih =>
    obtain ⟨⟨hoptions, hdictionary, hparams⟩, hpos'⟩ := ih
    obtain ⟨h₁, h₂, h₃⟩ := hstep.config
    exact ⟨⟨h₁.trans hoptions, h₂.trans hdictionary, h₃.trans hparams⟩, hstep.pos hpos'⟩

/-- An encoder fresh from `new`: an open frame with nothing but its header. -/
theorem new_opened {coder : BlockCoder π} {options : EncoderOptions π} {dictionary : Option π.Dictionary}
    {e₀ : StreamingEncoder π} (h : new coder options dictionary = .ok e₀) :
    ∃ e : StreamingEncoder π, Opened coder e e₀ ∧ e.output = [] ∧ e.outputPos = 0 := by
  unfold new at h
  obtain ⟨-, -, h⟩ := bind_ok h
  dsimp only at h
  split at h
  · rename_i e₁ heq
    cases h
    have hopen := congrArg Prod.snd heq
    dsimp only at hopen
    let params := coder.compressionParameters options dictionary
    refine ⟨{ options, dictionary, params, bufferedInput := [],
              state := newFrameState coder options dictionary params (newScratch coder),
              checksum := none, output := [], outputPos := 0, savings := 0, contentLen := 0, finished := false },
      ?_, rfl, rfl⟩
    rw [← hopen]
    exact (resetFrameState_opened coder _).2
  · cases h

/-- The header says the options, the dictionary and the parameters. -/
theorem header_congr (coder : BlockCoder π) {e e' : StreamingEncoder π} (hoptions : e'.options = e.options)
    (hdictionary : e'.dictionary = e.dictionary) (hparams : e'.params = e.params) :
    e'.header coder = e.header coder := by
  unfold header writeHeader historyLimit
  dsimp only
  rw [hoptions, hdictionary, hparams]

/-- A frame opened on an encoder that has been used follows one opened on an encoder that has not, behind what the old
frame left to be drained. -/
theorem Opened.follows {coder : BlockCoder π} {e e' start e₀ : StreamingEncoder π} (h : Opened coder e e')
    (h₀ : Opened coder start e₀) (hoptions : e.options = start.options) (hdictionary : e.dictionary = start.dictionary)
    (hparams : e.params = start.params) (houtput : start.output = []) (houtputPos : start.outputPos = 0)
    (hpos : e.outputPos ≤ e.output.length) :
    Tracks e.pendingOutput e₀ [] e' := by
  obtain ⟨written, hheader, hout⟩ := h.output
  obtain ⟨written₀, hheader₀, hout₀⟩ := h₀.output
  rw [header_congr coder hoptions hdictionary hparams, hheader₀] at hheader
  cases hheader
  rw [houtput, List.nil_append] at hout₀
  have hpos₀ : e₀.outputPos = 0 := h₀.outputPos.trans houtputPos
  refine ⟨?_, ?_, ?_, ?_, ?_, ?_, ?_, ?_, ?_, ?_, ?_, ?_⟩
  · rw [h.options, h₀.options, hoptions]
  · rw [h.dictionary, h₀.dictionary, hdictionary]
  · rw [h.params, h₀.params, hparams]
  · rw [h.buffered, h₀.buffered]
  · rw [h.state, h₀.state, hoptions, hdictionary, hparams]
    exact ⟨rfl, rfl, rfl, rfl, rfl, Scratch.clearFrameParserState_alike _ _, rfl⟩
  · rw [h.checksum, h₀.checksum, hoptions]
  · rw [h.savings, h₀.savings]
  · rw [h.contentLen, h₀.contentLen]
  · rw [h.finished, h₀.finished]
  · rw [hpos₀]; exact Nat.zero_le _
  · rw [h.outputPos, hout, List.length_append]; exact hpos.trans (Nat.le_add_right _ _)
  · unfold pendingOutput
    rw [h.outputPos, hpos₀, hout, hout₀, List.drop_append_of_le_length hpos]
    rfl

/-! ## Delivery -/

/-- How many of the pending bytes a call asks for. -/
def asked (e : StreamingEncoder π) : StreamOp → Nat
  | .take => e.pendingOutput.length
  | .read dstLen => dstLen
  | .consume count => count
  | _ => 0

/-- A call hands out the front of what is pending, as much as it asks for, and what it produces goes behind the rest. A
drain produces nothing. -/
structure Delivers (e : StreamingEncoder π) (op : StreamOp) (bytes : Bytes) (e' : StreamingEncoder π) : Prop where
  handed : bytes = e.pendingOutput.take (e.asked op)
  left : ∃ produced, e'.pendingOutput = e.pendingOutput.drop (e.asked op) ++ produced ∧
    (op.isDrain = true → produced = [])

theorem Grows.delivers {e e' : StreamingEncoder π} (h : Grows e e') (hpos : e.outputPos ≤ e.output.length)
    {op : StreamOp} (hasked : e.asked op = 0) (hop : op.isDrain = false) : Delivers e op [] e' := by
  obtain ⟨⟨produced, houtput⟩, houtputPos⟩ := h
  refine ⟨by rw [hasked, List.take_zero], produced, ?_, by simp [hop]⟩
  unfold pendingOutput
  rw [hasked, List.drop_zero, houtputPos, houtput, List.drop_append_of_le_length hpos]

theorem Drained.delivers {e e' : StreamingEncoder π} {bytes : Bytes} (h : Drained e bytes e') {op : StreamOp}
    (hhanded : bytes = e.pendingOutput.take (e.asked op)) : Delivers e op bytes e' := by
  refine ⟨hhanded, [], ?_, fun _ => rfl⟩
  have hstream := h.stream
  rw [hhanded] at hstream
  rw [List.append_nil]
  exact List.append_cancel_left (hstream.trans (List.take_append_drop (e.asked op) e.pendingOutput).symm)

theorem finish_grows (coder : BlockCoder π) (e : StreamingEncoder π) : Grows e (e.finish coder).2 := by
  have hblock := encodeBufferedBlock_grows coder e e.bufferedInput.length true
  unfold StreamingEncoder.finish
  split_ifs
  · exact .refl e
  · exact .refl e
  · dsimp only
    generalize e.encodeBufferedBlock coder e.bufferedInput.length true = encoded at hblock
    obtain ⟨error, e₁⟩ := encoded
    cases error with
    | some error => exact hblock
    | none => exact hblock.trans ⟨⟨_, rfl⟩, rfl⟩

theorem reset_grows (coder : BlockCoder π) (e : StreamingEncoder π) : Grows e (e.reset coder).2 := by
  unfold reset
  split_ifs
  · exact .refl e
  · have hopened := (e.resetFrameState_opened coder).2
    obtain ⟨written, -, houtput⟩ := hopened.output
    exact ⟨⟨written, houtput⟩, hopened.outputPos⟩

theorem takeOutput_fst (e : StreamingEncoder π) : e.takeOutput.1 = e.pendingOutput := by
  unfold takeOutput pendingOutput
  split_ifs with h
  · rw [h, List.drop_zero]
  · rfl

theorem read_fst (e : StreamingEncoder π) (dstLen : Nat) : (e.read dstLen).1 = e.pendingOutput.take dstLen := by
  unfold read
  dsimp only
  split_ifs with h
  · have hnone : (e.pendingOutput.take dstLen).length = 0 := by rw [List.length_take]; exact h
    exact (List.eq_nil_of_length_eq_zero hnone).symm
  · exact List.take_eq_take_min.symm

theorem perform_delivers (coder : BlockCoder π) {e e' : StreamingEncoder π} (h : e.Ready)
    (hpos : e.outputPos ≤ e.output.length) {op : StreamOp} {error : Option Error} {bytes : Bytes}
    (hop : e.perform coder op = some (error, bytes, e')) : Delivers e op bytes e' := by
  cases op with
  | push src =>
    obtain ⟨error', e₁, rest, hpush, hpushed⟩ := push_spec coder h src
    obtain ⟨taken, -, htakes⟩ := hpushed.taken
    unfold StreamingEncoder.perform at hop
    dsimp only at hop
    rw [hpush] at hop
    cases hop
    exact htakes.grows.delivers hpos rfl rfl
  | flush =>
    cases hop
    exact (flush_takesIn coder h).grows.delivers hpos rfl rfl
  | finish =>
    cases hop
    exact (finish_grows coder e).delivers hpos rfl rfl
  | reset =>
    cases hop
    exact (reset_grows coder e).delivers hpos rfl rfl
  | take =>
    cases hop
    exact e.takeOutput_drained.delivers (by rw [takeOutput_fst]; exact (List.take_length ..).symm)
  | read dstLen =>
    cases hop
    exact (e.read_drained dstLen).delivers (e.read_fst dstLen)
  | consume count =>
    obtain ⟨⟨bytes', e₁⟩, hconsume, heq⟩ := Option.map_eq_some_iff.1 hop
    cases heq
    unfold consumeOutput at hconsume
    split at hconsume
    · rename_i hcount
      cases hconsume
      exact (advance_drained hcount).delivers rfl
    · cases hconsume

/-! ## The result -/

/-- The run that ends in `s'` gives the bytes of the run that ends in `s` behind `lead`: those delivered with those
still pending, and those delivered where nothing is. -/
structure SameBytes (lead : Bytes) (s s' : Bytes × StreamingEncoder π) : Prop where
  stream : stream s' = lead ++ stream s
  delivered : s.2.pendingOutput = [] → s'.2.pendingOutput = [] → s'.1 = lead ++ s.1

theorem SameBytes.of_stream {lead : Bytes} {s s' : Bytes × StreamingEncoder π}
    (h : StreamingEncoder.stream s' = lead ++ StreamingEncoder.stream s) : SameBytes lead s s' := by
  refine ⟨h, fun hdrained hdrained' => ?_⟩
  unfold StreamingEncoder.stream at h
  rwa [hdrained, hdrained', List.append_nil, List.append_nil] at h

/-- Every call on an encoder that calls have led to hands out the pending bytes that it asks for, once and in order, and
no others. In the middle of a frame, two ways to cut, flush and drain the same input deliver the same bytes. A frame
after a reset, however cut and drained, delivers the bytes of a frame on a new encoder, behind what had not been drained
of the old one. -/
theorem stream_independent_of_chunks {coder : BlockCoder π} {options : EncoderOptions π}
    {dictionary : Option π.Dictionary} {e₀ e : StreamingEncoder π} {calls : List StreamOp}
    (hnew : new coder options dictionary = .ok e₀) (hrun : e₀.runAll coder calls = some e) :
    (∀ {op error bytes e'}, e.perform coder op = some (error, bytes, e') → Delivers e op bytes e') ∧
    (e.finished = false → ∀ {body tail body' tail' r r'}, SameInput body tail body' tail' →
      runOk coder (frameCalls body tail) ([], e) = some r → runOk coder (frameCalls body' tail') ([], e) = some r' →
      Simulation.Alike (SameBytes []) r r') ∧
    (e.finished = true → ∃ e', e.reset coder = (none, e') ∧ e'.finished = false ∧
      ∀ {body tail body' tail' r r'}, SameInput body tail body' tail' →
      runOk coder (frameCalls body tail) ([], e₀) = some r → runOk coder (frameCalls body' tail') ([], e') = some r' →
      Simulation.Alike (SameBytes e.pendingOutput) r r') := by
  obtain ⟨start, hopened, houtput, houtputPos⟩ := new_opened hnew
  have hready₀ := new_ready hnew
  obtain ⟨hsteps, hready⟩ := runAll_ready coder calls hready₀ hrun
  have hpos₀ : e₀.outputPos ≤ e₀.output.length := by
    rw [hopened.outputPos, houtputPos]; exact Nat.zero_le _
  obtain ⟨⟨hoptions, hdictionary, hparams⟩, hpos⟩ := Steps.config_pos hsteps hpos₀
  refine ⟨fun hop => perform_delivers coder hready hpos hop, ?_, ?_⟩
  · intro hunfinished body tail body' tail' r r' hinput hr hr'
    have hfollows : Follows [] e ([], e) := ⟨.refl hpos, hready, hunfinished⟩
    refine (Follows.same_stream coder hinput hfollows hfollows hr hr').mono ?_
    rintro s s' ⟨bytes, hs, hs'⟩
    exact .of_stream (by rw [hs, hs', List.nil_append, List.nil_append])
  · intro hfinished
    obtain ⟨hnone, hopened'⟩ := e.resetFrameState_opened coder
    have hready' := resetFrameState_ready coder hready.within
    have hreset : e.reset coder = e.resetFrameState coder := by
      unfold reset
      rw [if_neg (by simp [hfinished])]
    rw [hopened.options] at hoptions
    rw [hopened.dictionary] at hdictionary
    rw [hopened.params] at hparams
    -- the new frame goes behind what the last one left undelivered
    have htracks := hopened'.follows hopened hoptions hdictionary hparams houtput houtputPos hpos
    rw [hreset]
    generalize e.resetFrameState coder = opened at hopened' hready' hnone htracks
    obtain ⟨error, e'⟩ := opened
    dsimp only at hopened' hready' hnone htracks
    refine ⟨e', by rw [hnone], hopened'.finished, ?_⟩
    intro body tail body' tail' r r' hinput hr hr'
    have hfollows : Follows [] e₀ ([], e₀) := ⟨.refl hpos₀, hready₀, hopened.finished⟩
    have hfollows' : Follows e.pendingOutput e₀ ([], e') := ⟨htracks, hready', hopened'.finished⟩
    refine (Follows.same_stream coder hinput hfollows hfollows' hr hr').mono ?_
    rintro s s' ⟨bytes, hs, hs'⟩
    exact .of_stream (by rw [hs, hs', List.nil_append])

/-- Seven bytes in two pieces, and the same in five with repeated flushes and drains between. -/
theorem pieces_sameInput : SameInput [.push [1, 2, 3, 4, 5, 6], .flush, .push [7]] [.take]
    [.push [1], .push [], .push [2, 3, 4, 5], .read 2, .push [6], .flush, .flush, .push [7], .consume 1]
    [.read 3, .take] where
  calls := by decide
  drains := by decide
  calls' := by decide
  drains' := by decide
  sameContent := rfl
  sameFlushes pos := by
    show pos ∈ [6, 6] ↔ pos ∈ [6]
    simp

theorem tallying_frames : ∃ e₀ e s s' e' s'', new (tallyingCoder 4) tallyingOptions none = .ok e₀ ∧
    e₀.runAll (tallyingCoder 4) [.push [9], .finish, .read 3] = some e ∧ e.finished = true ∧ e₀.finished = false ∧
    runOk (tallyingCoder 4) (frameCalls [.push [1, 2, 3, 4, 5, 6], .flush, .push [7]] [.take]) ([], e₀) =
      some (.ok s) ∧
    runOk (tallyingCoder 4) (frameCalls [.push [1], .push [], .push [2, 3, 4, 5], .read 2, .push [6], .flush, .flush,
      .push [7], .consume 1] [.read 3, .take]) ([], e₀) = some (.ok s') ∧
    e.reset (tallyingCoder 4) = (none, e') ∧
    runOk (tallyingCoder 4) (frameCalls [.push [1], .push [], .push [2, 3, 4, 5], .read 2, .push [6], .flush, .flush,
      .push [7], .consume 1] [.read 3, .take]) ([], e') = some (.ok s'') ∧
    s.2.pendingOutput = [] ∧ s'.2.pendingOutput = [] ∧ s''.2.pendingOutput = [] ∧ s.1.length = 29 :=
  ⟨_, _, _, _, _, _, rfl, rfl, rfl, rfl, rfl, rfl, rfl, rfl, rfl, rfl, rfl, rfl⟩

/-- Both runs on a new encoder deliver all they produce, and the same; the one after the reset delivers what was left of
the old frame and then that. -/
theorem stream_independent_of_chunks_tallying : ∃ (e₀ e e' : StreamingEncoder tallyingPieces)
    (s s' s'' : Bytes × StreamingEncoder tallyingPieces), new (tallyingCoder 4) tallyingOptions none = .ok e₀ ∧
    e₀.runAll (tallyingCoder 4) [.push [9], .finish, .read 3] = some e ∧
    runOk (tallyingCoder 4) (frameCalls [.push [1, 2, 3, 4, 5, 6], .flush, .push [7]] [.take]) ([], e₀) =
      some (.ok s) ∧
    runOk (tallyingCoder 4) (frameCalls [.push [1], .push [], .push [2, 3, 4, 5], .read 2, .push [6], .flush, .flush,
      .push [7], .consume 1] [.read 3, .take]) ([], e₀) = some (.ok s') ∧
    e.reset (tallyingCoder 4) = (none, e') ∧
    runOk (tallyingCoder 4) (frameCalls [.push [1], .push [], .push [2, 3, 4, 5], .read 2, .push [6], .flush, .flush,
      .push [7], .consume 1] [.read 3, .take]) ([], e') = some (.ok s'') ∧
    s.1.length = 29 ∧ s'.1 = s.1 ∧ s''.1 = e.pendingOutput ++ s.1 ∧ (e.read 5).1 = e.pendingOutput.take 5 := by
  obtain ⟨e₀, e, s, s', e', s'', hnew, hrun, hfinished, hopen, hr, hr', hreset, hr'', hdrained, hdrained', hdrained'',
    hlength⟩ := tallying_frames
  have hnone : e₀.runAll (tallyingCoder 4) [] = some e₀ := rfl
  obtain ⟨hdelivers, -, hafter⟩ := stream_independent_of_chunks hnew hrun
  obtain ⟨-, hsame, -⟩ := stream_independent_of_chunks hnew hnone
  obtain ⟨e₁, hreset₁, -, hafter⟩ := hafter hfinished
  rw [hreset] at hreset₁
  cases hreset₁
  refine ⟨e₀, e, e', s, s', s'', hnew, hrun, hr, hr', hreset, hr'', hlength, ?_, ?_, ?_⟩
  · obtain ⟨t', heq, hbytes⟩ := (hsame hopen pieces_sameInput hr hr').exists_ok
    cases heq
    exact hbytes.delivered hdrained hdrained'
  · obtain ⟨t'', heq, hbytes⟩ := (hafter pieces_sameInput hr hr'').exists_ok
    cases heq
    exact hbytes.delivered hdrained hdrained''
  · exact (@hdelivers (.read 5) _ _ _ rfl).handed

end StreamingEncoder

end Zstandard
