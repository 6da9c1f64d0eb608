/-
What the streaming decoder may drop: the front of its output moves under a frame that is being decoded,
and no match can tell.

`Held` is the invariant. The buffer is the end of everything the stream has produced, and the current
frame's part of it is all of the frame's output or more than a window of it (`HistoryRel`). Every operation
keeps it, whatever it drops (`Held.release` is the one argument about dropping), so it holds along every
run (`Reached`), the runs with failed calls included. A compressed block that is rejected after it has
written leaves bytes in the buffer that the frame does not count, and `Counted` keeps track of these.
-/
import Zstandard.Decode.Streaming
import Zstandard.Decode.History
import Zstandard.Decode.Slice

namespace Zstandard

open Simulation

/-! ## Dropping history -/

/-- Bytes may go from the front of an output as long as more than a window stays. -/
theorem HistoryRel.drop {window fsA fsB : Nat} {a b : Bytes} (h : HistoryRel window fsA a fsB b) {k : Nat}
    (hk : k + (window + 1) ≤ a.length) : HistoryRel window (fsA - k) (a.drop k) fsB b := by
  obtain ⟨preA, preB, held, rfl, rfl, h⟩ := h
  rw [List.length_append] at hk
  rcases Nat.lt_or_ge preA.length k with hpre | hpre
  · -- the drop reaches into the common end, of which a window is left
    refine ⟨[], preB ++ held.take (k - preA.length), held.drop (k - preA.length), ?_, ?_, .inr ⟨?_, ?_, ?_⟩⟩
    · rw [List.drop_append, List.drop_eq_nil_of_le hpre.le]
    · rw [List.append_assoc, List.take_append_drop]
    · rw [List.length_nil]; omega
    · rw [List.length_append]; omega
    · rw [List.length_drop]; omega
  · refine ⟨preA.drop k, preB, held, List.drop_append_of_le_length hpre, rfl,
      h.imp (fun h => ⟨?_, h.2⟩) fun h => ⟨?_, h.2⟩⟩
    · rw [List.length_drop, h.1]
    · rw [List.length_drop]; omega

namespace StreamingDecoder

/-- Everything the decoder has produced, had it dropped nothing: what was drained and what is pending. -/
def uncompacted (d : StreamingDecoder) (drained : Bytes) : Bytes := drained ++ d.pendingOutput

/-- The invariant of the output buffer: what was drained so far, and where in everything produced the
current frame starts. -/
structure Held (d : StreamingDecoder) (drained : Bytes) (start : Nat) : Prop where
  pos : d.outputPos ≤ d.output.length
  behind : ∃ dropped, drained = dropped ++ d.output.take d.outputPos
  idle : d.state.inFrame = false → d.currentFrame = none
  history : ∀ frame ∈ d.currentFrame,
    HistoryRel frame.windowSize frame.frameStart d.output start (d.uncompacted drained)
  frameOnly : ∀ frame ∈ d.currentFrame, start + d.output.length ≤ (d.uncompacted drained).length + frame.frameStart
  entropy : ∀ frame ∈ d.currentFrame, frame.entropy.Ok

variable {d : StreamingDecoder} {drained : Bytes} {start : Nat}

/-- The buffer is the end of everything produced. -/
theorem Held.uncompacted_eq (h : d.Held drained start) : ∃ dropped, d.uncompacted drained = dropped ++ d.output := by
  obtain ⟨dropped, hd⟩ := h.behind
  refine ⟨dropped, ?_⟩
  unfold uncompacted pendingOutput
  rw [hd, List.append_assoc, List.take_append_drop]

/-- The one way history is dropped: a drained prefix, behind more than a window of the current frame. -/
theorem Held.release (h : d.Held drained start) {k : Nat} (hk : k ≤ d.outputPos)
    (hwin : ∀ frame ∈ d.currentFrame, k + (frame.windowSize + 1) ≤ d.output.length) :
    ({ d with output := d.output.drop k, outputPos := d.outputPos - k }.releaseHistory k).Held drained start := by
  obtain ⟨dropped, hd⟩ := h.behind
  have hpos := h.pos
  have hpending : (d.output.drop k).drop (d.outputPos - k) = d.pendingOutput := by
    unfold pendingOutput
    rw [List.drop_drop]; congr 1; omega
  have hu : ({ d with output := d.output.drop k, outputPos := d.outputPos - k }.releaseHistory k).uncompacted drained =
      d.uncompacted drained := by
    show drained ++ _ = _; rw [uncompacted, ← hpending]; rfl
  refine ⟨?_, ⟨dropped ++ d.output.take k, ?_⟩, fun hs => ?_, fun f hf => ?_, fun f hf => ?_, fun f hf => ?_⟩
  · simp only [releaseHistory, List.length_drop]; omega
  · simp only [releaseHistory]
    rw [List.append_assoc, ← List.take_add, hd]
    congr 2; omega
  · simp only [releaseHistory]
    rw [h.idle hs]; rfl
  all_goals
    obtain ⟨frame, hframe, rfl⟩ := Option.map_eq_some_iff.1 hf
  · rw [hu]
    exact (h.history frame hframe).drop (hwin frame hframe)
  · rw [hu]
    have := h.frameOnly frame hframe
    have := hwin frame hframe
    simp only [releaseHistory, List.length_drop]
    omega
  · exact h.entropy frame hframe

theorem Held.compactOutput (h : d.Held drained start) : d.compactOutput.Held drained start := by
  unfold StreamingDecoder.compactOutput
  simp only
  split
  · exact h
  rename_i hne
  have hwin : ∀ frame ∈ d.currentFrame,
      min d.outputPos (d.output.length - d.retainForMatches) + (frame.windowSize + 1) ≤ d.output.length := by
    intro frame hf
    have hr : d.retainForMatches = frame.windowSize + 1 := by unfold retainForMatches; rw [hf]
    rw [hr] at hne ⊢
    omega
  have hrel := h.release (min_le_left _ _) hwin
  split
  · -- everything goes: the same, written with an empty buffer
    rename_i hall
    have hpos := h.pos
    have hzero : d.outputPos - d.output.length = 0 := by omega
    rw [hall, List.drop_length, hzero] at hrel
    rw [hall]
    exact hrel
  split
  · exact h
  split
  · exact hrel
  · exact h

theorem Held.compactBetweenFrames (h : d.Held drained start) (hidle : d.currentFrame = none) :
    d.compactBetweenFrames.Held drained start := by
  unfold StreamingDecoder.compactBetweenFrames
  split
  · have hrel := h.release (le_refl d.outputPos) (by rw [hidle]; exact fun _ hf => (nomatch hf))
    have heq : ({ d with output := d.output.drop d.outputPos, outputPos := d.outputPos - d.outputPos }.releaseHistory
        d.outputPos) = { d with output := d.output.drop d.outputPos, outputPos := 0 } := by
      simp only [releaseHistory, hidle, Option.map_none, Nat.sub_self]
    rwa [heq] at hrel
  · exact h

theorem releaseHistory_zero (d : StreamingDecoder) : d.releaseHistory 0 = d := by
  unfold releaseHistory
  cases d with | mk => simp

/-- Compaction drops the same from the output and from the offsets into it. -/
theorem compactOutput_eq (hpos : d.outputPos ≤ d.output.length) : ∃ k ≤ d.outputPos,
    d.compactOutput = { d with output := d.output.drop k, outputPos := d.outputPos - k }.releaseHistory k := by
  have hnone : d = { d with output := d.output.drop 0, outputPos := d.outputPos - 0 }.releaseHistory 0 := by
    rw [releaseHistory_zero]; rfl
  unfold compactOutput
  simp only
  split
  · exact ⟨0, Nat.zero_le _, hnone⟩
  split
  · rename_i hall
    have hle : d.output.length ≤ d.outputPos := hall ▸ min_le_left _ _
    refine ⟨d.output.length, hle, ?_⟩
    rw [hall, List.drop_length, Nat.sub_eq_zero_of_le hpos]
  split
  · exact ⟨0, Nat.zero_le _, hnone⟩
  split
  · exact ⟨_, min_le_left _ _, rfl⟩
  · exact ⟨0, Nat.zero_le _, hnone⟩

/-! ## Drains -/

theorem uncompacted_of_pending {d' : StreamingDecoder} {drained' : Bytes} {n : Nat}
    (hd : drained' = drained ++ d.pendingOutput.take n)
    (hp : d'.pendingOutput = d.pendingOutput.drop n) : d'.uncompacted drained' = d.uncompacted drained := by
  unfold uncompacted
  rw [hd, hp, List.append_assoc, List.take_append_drop]

theorem pendingOutput_consumeOutput {count : Nat} (hc : d.outputPos + count ≤ d.output.length) :
    (d.consumeOutput count).pendingOutput = d.pendingOutput.drop count := by
  obtain ⟨k, hk, heq⟩ := compactOutput_eq (d := { d with outputPos := d.outputPos + count }) hc
  have heq : d.consumeOutput count = _ := heq
  rw [heq]
  simp only [pendingOutput, releaseHistory, List.drop_drop] at hk ⊢
  congr 1; omega

theorem takeOutput_fst (d : StreamingDecoder) : d.takeOutput.1 = d.pendingOutput := by
  unfold takeOutput pendingOutput
  split
  · rename_i hc
    rw [hc.1]; rfl
  · rfl

/-- The read cursor moves on over `count` pending bytes. -/
theorem Held.advance (h : d.Held drained start) {count : Nat} (hc : count ≤ d.pendingOutputLen) :
    { d with outputPos := d.outputPos + count }.Held (drained ++ d.pendingOutput.take count) start := by
  obtain ⟨dropped, hd⟩ := h.behind
  have hpos := h.pos
  unfold pendingOutputLen at hc
  have hu : ({ d with outputPos := d.outputPos + count } : StreamingDecoder).uncompacted
      (drained ++ d.pendingOutput.take count) = d.uncompacted drained := by
    unfold uncompacted pendingOutput
    simp only
    rw [List.append_assoc, ← List.drop_drop, List.take_append_drop]
  refine ⟨by simp only; omega, ⟨dropped, ?_⟩, h.idle, ?_, ?_, h.entropy⟩
  · simp only
    rw [hd, List.append_assoc, pendingOutput, ← List.take_add]
  · rw [hu]; exact h.history
  · rw [hu]; exact h.frameOnly

theorem Held.consumeOutput (h : d.Held drained start) {count : Nat} (hc : count ≤ d.pendingOutputLen) :
    (d.consumeOutput count).Held (drained ++ d.pendingOutput.take count) start :=
  (h.advance hc).compactOutput

theorem Held.read (h : d.Held drained start) (dstLen : Nat) :
    (d.read dstLen).2.Held (drained ++ (d.read dstLen).1) start := by
  unfold StreamingDecoder.read
  simp only
  split
  · rw [List.append_nil]; exact h
  · exact h.consumeOutput (min_le_right _ _)

theorem Held.takeOutput (h : d.Held drained start) : d.takeOutput.2.Held (drained ++ d.takeOutput.1) start := by
  have hpos := h.pos
  unfold StreamingDecoder.takeOutput
  split
  · rename_i hc
    have hnone : d.currentFrame = none := Option.isNone_iff_eq_none.1 hc.2
    obtain ⟨dropped, hd⟩ := h.behind
    refine ⟨by simp only [hc.1]; exact Nat.zero_le _, ⟨drained ++ d.output, by simp⟩, h.idle, ?_, ?_, ?_⟩ <;>
      (simp only [hnone]; exact fun _ hf => (nomatch hf))
  · have hadv := h.advance (le_refl d.pendingOutputLen)
    have htake : d.pendingOutput.take d.pendingOutputLen = d.pendingOutput := by
      rw [List.take_of_length_le]; unfold pendingOutput pendingOutputLen; rw [List.length_drop]
    have hend : d.outputPos + d.pendingOutputLen = d.output.length := by unfold pendingOutputLen; omega
    rw [htake, hend] at hadv
    exact hadv.compactOutput

/-! ## The rounds of the state machine -/

/-- Nothing but the output, the current frame and whether there may be one matters. -/
theorem Held.of_eq (h : d.Held drained start) {d' : StreamingDecoder} (ho : d'.output = d.output)
    (hp : d'.outputPos = d.outputPos) (hf : d'.currentFrame = d.currentFrame)
    (hs : d'.state.inFrame = false → d'.currentFrame = none) : d'.Held drained start := by
  have hu : d'.uncompacted drained = d.uncompacted drained := by unfold uncompacted pendingOutput; rw [ho, hp]
  refine ⟨by rw [ho, hp]; exact h.pos, by rw [ho, hp]; exact h.behind, hs, ?_, ?_, ?_⟩
  · rw [hf, hu, ho]; exact h.history
  · rw [hf, hu, ho]; exact h.frameOnly
  · rw [hf]; exact h.entropy

/-- Without a current frame nothing depends on where one starts, nor on the state. -/
theorem Held.closed (h : d.Held drained start) {d' : StreamingDecoder} (ho : d'.output = d.output)
    (hp : d'.outputPos = d.outputPos) (hf : d'.currentFrame = none) (start' : Nat) : d'.Held drained start' := by
  refine ⟨by rw [ho, hp]; exact h.pos, by rw [ho, hp]; exact h.behind, fun _ => hf, ?_, ?_, ?_⟩ <;>
    (rw [hf]; exact fun _ hf => (nomatch hf))

section CompactBetweenFrames

variable (d : StreamingDecoder)

/-- Only the output moves. -/
theorem compactBetweenFrames_eq : ∃ output outputPos, d.compactBetweenFrames = { d with output, outputPos } := by
  unfold compactBetweenFrames
  split
  · exact ⟨_, _, rfl⟩
  · exact ⟨d.output, d.outputPos, rfl⟩

theorem uncompacted_compactBetweenFrames (drained : Bytes) :
    d.compactBetweenFrames.uncompacted drained = d.uncompacted drained := by
  unfold compactBetweenFrames uncompacted pendingOutput
  split <;> rfl

end CompactBetweenFrames

/-- A frame opened at the end of the output. -/
theorem Held.opened (h : d.Held drained start) {dictionary : Option DecoderDictionary} {header : ZstandardFrameHeader}
    {d' : StreamingDecoder} (ho : d'.output = d.output) (hp : d'.outputPos = d.outputPos)
    (hf' : d'.currentFrame = some (.opened dictionary header d.output.length)) (hs : d'.state.inFrame = true) :
    d'.Held drained (d.uncompacted drained).length := by
  have hu : d'.uncompacted drained = d.uncompacted drained := by unfold uncompacted pendingOutput; rw [ho, hp]
  refine ⟨by rw [ho, hp]; exact h.pos, by rw [ho, hp]; exact h.behind, fun hs' => absurd hs' (by simp [hs]), ?_, ?_, ?_⟩
  all_goals
    rintro f hf
    obtain rfl := Option.some.inj (hf'.symm.trans hf)
  · rw [hu, ho]; exact .start _ _ _
  · rw [hu, ho]; exact le_refl _
  · exact EntropyState.initial_ok dictionary

/-- A decoder whose current frame has taken in a block. -/
def afterBlock (d : StreamingDecoder) (frame : FrameDecodeState) (entropy : EntropyState) (produced : Bytes) :
    StreamingDecoder :=
  { d with output := d.output ++ produced, currentFrame := some (frame.absorbBlockOutput entropy produced)
           totalOutputSize := d.totalOutputSize + produced.length }

/-- Bytes appended for the current frame, whatever else of it a block changes. -/
theorem Held.appended (h : d.Held drained start) {frame frame' : FrameDecodeState} (hf : d.currentFrame = some frame)
    (hwin : frame'.windowSize = frame.windowSize) (hstart : frame'.frameStart = frame.frameStart)
    (hok : frame'.entropy.Ok) (bytes : Bytes) {d' : StreamingDecoder} (ho : d'.output = d.output ++ bytes)
    (hp : d'.outputPos = d.outputPos) (hf' : d'.currentFrame = some frame') (hs : d'.state.inFrame = true) :
    d'.Held drained start := by
  have hpos := h.pos
  have hu : d'.uncompacted drained = d.uncompacted drained ++ bytes := by
    unfold uncompacted pendingOutput
    rw [ho, hp, List.drop_append_of_le_length hpos, List.append_assoc]
  refine ⟨by rw [ho, hp, List.length_append]; omega, ?_, fun hs' => absurd hs' (by simp [hs]), ?_, ?_, ?_⟩
  · rw [ho, hp, List.take_append_of_le_length hpos]; exact h.behind
  all_goals
    rintro f hfx
    obtain rfl : frame' = f := Option.some.inj (hf'.symm.trans hfx)
  · rw [hwin, hstart, hu, ho]
    exact (h.history frame hf).append bytes
  · rw [hstart, hu, ho]
    have := h.frameOnly frame hf
    simp only [List.length_append]
    omega
  · exact hok

end StreamingDecoder

/-! ## A block on the decoder's buffer -/

/-- The bytes and the entropy state of a block decoded onto `out` as the streaming decoder does. -/
def decodeBlockOnto (alloc : Allocator) (header : BlockHeader) (payload : Bytes) (p : FrameParams) (st : EntropyState)
    (out : Bytes) (limit : OutputLimit) : Result (Bytes × EntropyState) :=
  (fun r => (r.1.asSlice, r.2)) <$> decodeBlock (decodeOutput alloc) header payload p st (.growable out) limit

theorem map_eq_ok_iff {α β : Type} {f : α → β} {x : Result α} {b : β} : f <$> x = .ok b ↔ ∃ a, x = .ok a ∧ f a = b := by
  cases x <;> simp

theorem decodeBlockOnto_iff (alloc : Allocator) {header : BlockHeader} {payload : Bytes} {p : FrameParams}
    {st : EntropyState} (hst : st.Ok) {out : Bytes} (hfs : p.frameStart ≤ out.length) {limit : OutputLimit}
    {r : Bytes × EntropyState} :
    decodeBlockOnto alloc header payload p st out limit = .ok r ↔
      decodeBlock bytesOutput header payload p st out limit = .ok r := by
  have hrel : OutputRel none (.growable out) out := ⟨rfl, rfl⟩
  have h := decodeBlock_agrees (decodeOutput_agrees alloc none) hrel header payload hst hfs limit
  refine (h.ok_iff (fun a b hr => ?_) r).trans (and_iff_left ?_)
  · exact Prod.ext hr.1.holds hr.2
  · rintro cap ⟨⟩

theorem HistoryRel.refl {window fs : Nat} {a : Bytes} (h : fs ≤ a.length) : HistoryRel window fs a fs a :=
  ⟨a.take fs, a.take fs, a.drop fs, by simp, by simp, .inl (by simp [h])⟩

theorem LimitLe.refl (limit : OutputLimit) (n : Nat) : LimitLe limit n limit n := ⟨rfl, le_refl _⟩

/-- A block only adds to the output. -/
theorem decodeBlock_extends {header : BlockHeader} {payload : Bytes} {p : FrameParams} {st st' : EntropyState}
    {out out' : Bytes} (hfs : p.frameStart ≤ out.length) {limit : OutputLimit}
    (h : decodeBlock bytesOutput header payload p st out limit = .ok (out', st')) :
    ∃ produced, out' = out ++ produced := by
  obtain ⟨_, _, hext, _⟩ := decodeBlock_follows (HistoryRel.refl hfs) (LimitLe.refl limit _) rfl header payload st _ h
  exact hext.imp fun _ hx => hx.1

namespace StreamingDecoder

theorem decodeBlock_ok_iff {alloc : Allocator} {d d' : StreamingDecoder} {frame : FrameDecodeState}
    (hf : d.currentFrame = some frame) (hst : frame.entropy.Ok) (hfs : frame.frameStart ≤ d.output.length)
    {header : BlockHeader} {payload : Bytes} :
    d.decodeBlock alloc header payload = .ok d' ↔
      ∃ produced entropy, Zstandard.decodeBlock bytesOutput header payload (d.frameParams frame) frame.entropy d.output
        d.outputLimit = .ok (d.output ++ produced, entropy) ∧ d' = d.afterBlock frame entropy produced := by
  unfold decodeBlock
  rw [hf]
  constructor
  · intro h
    obtain ⟨⟨out, entropy⟩, h1, h⟩ := bind_ok h
    have h2 := (decodeBlockOnto_iff alloc (p := d.frameParams frame) hst hfs).1
      (show decodeBlockOnto alloc _ _ _ _ _ _ = .ok (out.asSlice, entropy) by rw [decodeBlockOnto, h1]; rfl)
    obtain ⟨produced, hp⟩ := decodeBlock_extends (p := d.frameParams frame) hfs h2
    cases h
    refine ⟨produced, entropy, by rw [← hp]; exact h2, ?_⟩
    unfold afterBlock
    rw [hp, List.drop_left]
  · rintro ⟨produced, entropy, h1, rfl⟩
    have h2 := (decodeBlockOnto_iff alloc (p := d.frameParams frame) hst hfs).2 h1
    obtain ⟨⟨out, entropy'⟩, h3, h4⟩ := map_eq_ok_iff.1 h2
    obtain ⟨h5, rfl⟩ := Prod.mk.inj h4
    simp only at h5
    simp only [h3, ok_bind]
    simp only [h5, List.drop_left, afterBlock]

/-! ## One round -/

variable {d d' : StreamingDecoder} {drained : Bytes} {start : Nat}

theorem startFrame_ok_iff {header : ZstandardFrameHeader} :
    d.startFrame header = .ok d' ↔ admitFrame d.dictionary d.options header d.totalOutputSize = .ok () ∧
      d' = { d with output := d.compactBetweenFrames.output, outputPos := d.compactBetweenFrames.outputPos
                    currentFrame := some (.opened d.dictionary header d.compactBetweenFrames.output.length) } := by
  obtain ⟨output, outputPos, heq⟩ := d.compactBetweenFrames_eq
  unfold startFrame
  rw [heq]
  constructor
  · intro h
    obtain ⟨_, h1, h⟩ := bind_ok h
    cases h
    exact ⟨h1, rfl⟩
  · rintro ⟨h1, rfl⟩
    simp only [h1, ok_bind]

theorem finishFrame_ok_iff :
    d.finishFrame = .ok d' ↔ ∃ frame, d.currentFrame = some frame ∧
      checkProduced frame.header frame.frameOutputSize = .ok () ∧
      d' = { d with currentFrame := none, decodedAFrame := true } := by
  unfold finishFrame
  cases hf : d.currentFrame with
  | none => simp
  | some frame =>
    constructor
    · intro h
      obtain ⟨_, h1, h⟩ := bind_ok h
      cases h
      exact ⟨frame, rfl, h1, rfl⟩
    · rintro ⟨frame', hf', h1, rfl⟩
      obtain rfl := Option.some.inj hf'
      simp only [h1, ok_bind]

/-- A frame that opens starts at the end of what was produced so far. -/
theorem Held.startFrame (h : d.Held drained start) (hidle : d.currentFrame = none) {header : ZstandardFrameHeader}
    (hs : d.startFrame header = .ok d') (state : DecoderState) (hstate : state.inFrame = true) :
    StreamingDecoder.Held { d' with state } drained (d.uncompacted drained).length ∧
      StreamingDecoder.uncompacted { d' with state } drained = d.uncompacted drained := by
  obtain ⟨-, rfl⟩ := startFrame_ok_iff.1 hs
  have hu := d.uncompacted_compactBetweenFrames drained
  constructor
  · rw [← hu]
    exact (h.compactBetweenFrames hidle).opened rfl rfl rfl hstate
  · exact hu

theorem Held.processFrameHeader (h : d.Held drained start) (hstate : d.state.inFrame = false) {progress : Bool}
    (hs : d.processFrameHeader = .ok (progress, d')) : d'.Held drained (d.uncompacted drained).length := by
  have hidle := h.idle hstate
  unfold StreamingDecoder.processFrameHeader at hs
  split at hs
  · cases hs; exact h.closed rfl rfl hidle _
  split at hs
  · cases hs
  split at hs
  · split at hs
    · cases hs
    · cases hs; refine h.closed ?_ ?_ ?_ _ <;> first | rfl | exact hidle
  · rename_i header _
    obtain ⟨d1, h1, hs⟩ := bind_ok hs
    cases hs
    have hi : (d.advance header.headerSize).Held drained start := h.of_eq rfl rfl rfl fun _ => hidle
    exact (hi.startFrame hidle h1 .blockHeader rfl).1
  · cases hs; exact h.closed rfl rfl hidle _
  · cases hs

theorem Held.finishFrame (h : d.Held drained start) (hs : d.finishFrame = .ok d') (state : DecoderState) :
    { d' with state }.Held drained start := by
  obtain ⟨_, -, -, rfl⟩ := finishFrame_ok_iff.1 hs
  refine h.closed ?_ ?_ ?_ _ <;> rfl

theorem Held.decodeBlock (h : d.Held drained start) (hstate : d.state.inFrame = true) {alloc : Allocator}
    {header : BlockHeader} {payload : Bytes} (hp : payload.length = header.payloadSize)
    (hs : d.decodeBlock alloc header payload = .ok d') : d'.Held drained start ∧ d'.state = d.state := by
  cases hf : d.currentFrame with
  | none => unfold StreamingDecoder.decodeBlock at hs; rw [hf] at hs; cases hs
  | some frame =>
    have hok := h.entropy frame hf
    have hfs : frame.frameStart ≤ d.output.length := (h.history frame hf).le.1
    obtain ⟨produced, entropy, h1, rfl⟩ := (decodeBlock_ok_iff hf hok hfs).1 hs
    have hdecoded := decodeBlock_decoded hp (p := d.frameParams frame) hok hfs h1
    have happ : (d.afterBlock frame entropy produced).Held drained start :=
      h.appended hf (by rfl) (by rfl) (show (frame.absorbBlockOutput entropy produced).entropy.Ok from hdecoded.ok)
        produced rfl rfl rfl hstate
    exact ⟨happ, rfl⟩

theorem length_unconsumed_take {n : Nat} (hn : ¬ d.input.length - d.inputPos < n) :
    (d.unconsumedInput.take n).length = n := by
  unfold unconsumedInput
  rw [List.length_take, List.length_drop]
  omega

/-- A round keeps the invariant; a frame it opens starts at the end of what was produced so far. -/
theorem Held.processStep (h : d.Held drained start) {alloc : Allocator} {progress : Bool}
    (hs : d.processStep alloc = .ok (progress, d')) :
    d'.Held drained (if d.state = .frameHeader then (d.uncompacted drained).length else start) := by
  unfold StreamingDecoder.processStep at hs
  cases hstate : d.state with
  | frameHeader =>
    rw [hstate] at hs
    rw [if_pos rfl]
    exact h.processFrameHeader (by rw [hstate]; rfl) hs
  | skippable remaining =>
    rw [hstate] at hs
    rw [if_neg (by simp)]
    have hidle := h.idle (by rw [hstate]; rfl)
    cases hs
    refine h.closed ?_ ?_ ?_ _ <;> first | rfl | exact hidle
  | blockHeader =>
    rw [hstate] at hs
    rw [if_neg (by simp)]
    simp only [StreamingDecoder.processBlockHeader] at hs
    split at hs
    · cases hs; exact h
    · obtain ⟨header, _, hs⟩ := bind_ok hs
      cases hs
      exact h.of_eq rfl rfl rfl (by simp [DecoderState.inFrame])
  | blockPayload header =>
    rw [hstate] at hs
    rw [if_neg (by simp)]
    simp only [StreamingDecoder.processBlockPayload] at hs
    split at hs
    · cases hs; exact h
    rename_i hlen
    obtain ⟨d1, h1, hs⟩ := bind_ok hs
    have hi : (d.advance header.payloadSize).Held drained start := h.of_eq rfl rfl rfl h.idle
    have hin : (d.advance header.payloadSize).state.inFrame = true := by show d.state.inFrame = true; rw [hstate]; rfl
    obtain ⟨hd1, hst1⟩ := hi.decodeBlock hin (length_unconsumed_take hlen) h1
    split at hs
    · split at hs
      · cases hs; exact hd1.of_eq rfl rfl rfl (by simp [DecoderState.inFrame])
      · obtain ⟨d2, h2, hs⟩ := bind_ok hs
        cases hs
        exact hd1.finishFrame h2 _
    · cases hs; exact hd1.of_eq rfl rfl rfl (by simp [DecoderState.inFrame])
  | frameChecksum =>
    rw [hstate] at hs
    rw [if_neg (by simp)]
    simp only [StreamingDecoder.processFrameChecksum] at hs
    split at hs
    · cases hs; exact h
    have hi : (d.advance 4).Held drained start := h.of_eq rfl rfl rfl h.idle
    split at hs
    · cases hs
    · obtain ⟨_, -, hs⟩ := bind_ok hs
      obtain ⟨d1, h1, hs⟩ := bind_ok hs
      cases hs
      exact hi.finishFrame h1 _

/-! ## What a rejected block leaves -/

end StreamingDecoder

/-- Whether the match of a sequence starts in the output. The others go by `execute_dictionary_match`. -/
def ExecContext.matchesOutput (c : ExecContext) (s : ExecState Bytes) (seq : RawSequence) : Bool :=
  let offset := (s.reps.resolveDecode seq.offsetValue seq.literalLength).1
  offset ≤ s.out.length + seq.literalLength - c.frameStart ∧ offset ≤ c.windowSize

/-- How much of the output a block leaves that is rejected at a sequence or behind the last one. The length of a
buffer that grows is set by each match from the dictionary, and once more behind the last sequence. -/
def rejectedFrom (c : ExecContext) (b : ExecBounds) (tables : SequenceTablesState) :
    Nat → SequenceReader → Bytes → ExecState Bytes → Bytes
  | 0, r, kept, s =>
    match executeSequence List.length (placeSpec c) b s (decodeSequence r).1 with
    | .ok last => last.out
    | .error _ => kept
  | n + 1, r, kept, s =>
    match updateStates tables (decodeSequence r).2 with
    | .error _ => kept
    | .ok next =>
      match executeSequence List.length (placeSpec c) b s (decodeSequence r).1 with
      | .error _ => kept
      | .ok done =>
        -- `execute_dictionary_match` sets the length, the other kernels leave that to the end of the block
        let kept := if c.matchesOutput s (decodeSequence r).1 then kept else done.out
        if next.bitD.reload.1 = .overflow then kept
        else rejectedFrom c b tables n { next with bitD := next.bitD.reload.2 } kept done

/-- The output that a rejected compressed block leaves: what it was, where the block does not come to its sequences. -/
def rejectedOutput (payload : Bytes) (p : FrameParams) (st : EntropyState) (out : Bytes)
    (limit : OutputLimit) : Bytes :=
  let reached : Result Bytes := do
    let (literalsSize, literals, _) ← decodeLiteralsSectionInto payload st.literals p.blockSizeMax
    if literals.len > p.blockSizeMax then .error .generic else
    let (parsed, tables) ← parseSequenceSection (← getFrom payload literalsSize) st.sequences .sequenceOnly
    if parsed.numberOfSequences = 0 then .error .generic else
    let tables ← setupTables tables
    let remaining ← limit.remaining out.length
    let c : ExecContext :=
      { frameStart := p.frameStart, windowSize := p.windowSize, dictionary := p.dictionary, literals }
    let b : ExecBounds := { literalsLen := literals.len, blockRemaining := p.blockSizeMax
                            outputRemaining := remaining, limit }
    let r ← initSequenceReader parsed.bitstream tables
    .ok (rejectedFrom c b tables (parsed.numberOfSequences - 1) r out
      { out, reps := st.reps, ip := 0, budget := b.budget })
  reached.toOption.getD out

namespace StreamingDecoder

/-- The bytes that a rejected block leaves in the output. The others look before they write. -/
def rejectedBytes (d : StreamingDecoder) (frame : FrameDecodeState) (header : BlockHeader) (payload : Bytes) : Bytes :=
  match header.blockType with
  | .raw => []
  | .rle => []
  | .compressed =>
    (rejectedOutput payload (d.frameParams frame) frame.entropy d.output d.outputLimit).drop d.output.length

/-! ## Every run -/

variable {d d' : StreamingDecoder} {drained : Bytes} {start : Nat}

/-- What a round that fails may leave behind: the input it consumed, and the output, the entropy state and
the frame as far as it got with them; and how many bytes a block wrote that was rejected. -/
inductive Failed (alloc : Allocator) (d : StreamingDecoder) : StreamingDecoder → Nat → Prop
  | input (inputPos : Nat) : Failed alloc d { d with inputPos } 0
  | header (inputPos : Nat) : d.state.inFrame = false → Failed alloc d { d.compactBetweenFrames with inputPos } 0
  | block {header : BlockHeader} {frame : FrameDecodeState} {e : Error} (inputPos : Nat) (entropy : EntropyState) :
    d.state = .blockPayload header → d.currentFrame = some frame → entropy.Ok →
    d.decodeBlock alloc header (d.unconsumedInput.take header.payloadSize) = .error e →
    Failed alloc d { d with
        inputPos
        output := d.output ++ d.rejectedBytes frame header (d.unconsumedInput.take header.payloadSize)
        currentFrame := some { frame with entropy } }
      (d.rejectedBytes frame header (d.unconsumedInput.take header.payloadSize)).length
  | frameEnd {frame : FrameDecodeState} (inputPos : Nat) (bytes : Bytes) :
    Failed alloc d { d with inputPos, output := d.output ++ bytes, currentFrame := none
                            totalOutputSize := d.totalOutputSize + bytes.length } 0

/-- The states of a streaming decoder in a run of any operations, with what was drained so far, where in
everything produced the current frame starts, and how much of that rejected blocks of the frame wrote. A
`push` is `feed` and rounds with the input compacted between them, a `finish` is `close` and such rounds. -/
inductive Reached (alloc : Allocator) (dictionary : Option DecoderDictionary) (options : DecoderOptions) :
    StreamingDecoder → Bytes → Nat → Nat → Prop
  | new : Reached alloc dictionary options (.new dictionary options) [] 0 0
  | feed {d : StreamingDecoder} {drained : Bytes} {start rejected : Nat} (src : Bytes) :
    Reached alloc dictionary options d drained start rejected →
    Reached alloc dictionary options (d.feed src) drained start rejected
  | close {d : StreamingDecoder} {drained : Bytes} {start rejected : Nat} :
    Reached alloc dictionary options d drained start rejected →
    Reached alloc dictionary options { d with finishedInput := true } drained start rejected
  | round {d d' : StreamingDecoder} {drained : Bytes} {start rejected : Nat} {progress : Bool} :
    Reached alloc dictionary options d drained start rejected → d.processStep alloc = .ok (progress, d') →
    Reached alloc dictionary options d' drained
      (if d.state = .frameHeader then (d.uncompacted drained).length else start)
      (if d.state = .frameHeader then 0 else rejected)
  | failed {d d' : StreamingDecoder} {drained : Bytes} {start rejected written : Nat} :
    Reached alloc dictionary options d drained start rejected → Failed alloc d d' written →
    Reached alloc dictionary options d' drained start (rejected + written)
  | compactInput {d : StreamingDecoder} {drained : Bytes} {start rejected : Nat} :
    Reached alloc dictionary options d drained start rejected →
    Reached alloc dictionary options d.compactInput drained start rejected
  | read {d : StreamingDecoder} {drained : Bytes} {start rejected : Nat} (dstLen : Nat) :
    Reached alloc dictionary options d drained start rejected →
    Reached alloc dictionary options (d.read dstLen).2 (drained ++ (d.read dstLen).1) start rejected
  | consumeOutput {d : StreamingDecoder} {drained : Bytes} {start rejected count : Nat} :
    Reached alloc dictionary options d drained start rejected → count ≤ d.pendingOutputLen →
    Reached alloc dictionary options (d.consumeOutput count) (drained ++ d.pendingOutput.take count) start rejected
  | takeOutput {d : StreamingDecoder} {drained : Bytes} {start rejected : Nat} :
    Reached alloc dictionary options d drained start rejected →
    Reached alloc dictionary options d.takeOutput.2 (drained ++ d.takeOutput.1) start rejected
  | reset {d d' : StreamingDecoder} {drained : Bytes} {start rejected : Nat} :
    Reached alloc dictionary options d drained start rejected → d.reset = .ok d' →
    Reached alloc dictionary options d' drained start rejected

section Runs

variable {alloc : Allocator} {dictionary : Option DecoderDictionary} {options : DecoderOptions} {rejected : Nat}

theorem Held.failed (h : d.Held drained start) {written : Nat} (hf : Failed alloc d d' written) :
    d'.Held drained start := by
  cases hf with
  | input inputPos => exact h.of_eq rfl rfl rfl h.idle
  | header inputPos hstate =>
    have hc := h.compactBetweenFrames (h.idle hstate)
    exact hc.of_eq rfl rfl rfl hc.idle
  | block inputPos entropy hstate hframe hok =>
    exact h.appended hframe (by rfl) (by rfl) hok _ rfl rfl rfl (by show d.state.inFrame = true; rw [hstate]; rfl)
  | frameEnd inputPos bytes =>
    have hpos := h.pos
    refine ⟨by simp only [List.length_append]; omega, ?_, fun _ => rfl, ?_, ?_, ?_⟩
    · simp only
      rw [List.take_append_of_le_length hpos]; exact h.behind
    all_goals rintro _ ⟨⟩

theorem Held.compactInput (h : d.Held drained start) : d.compactInput.Held drained start := by
  unfold StreamingDecoder.compactInput
  split
  · exact h
  split
  · exact h.of_eq rfl rfl rfl h.idle
  split
  · exact h.of_eq rfl rfl rfl h.idle
  · exact h

theorem Held.reset (h : d.Held drained start) (hr : d.reset = .ok d') : d'.Held drained start := by
  unfold StreamingDecoder.reset at hr
  obtain ⟨_, -, hr⟩ := bind_ok hr
  cases hr
  refine h.closed ?_ ?_ ?_ _ <;> rfl

theorem Held.new (dictionary : Option DecoderDictionary) (options : DecoderOptions) :
    (StreamingDecoder.new dictionary options).Held [] 0 := by
  refine ⟨le_refl _, ⟨[], rfl⟩, fun _ => rfl, ?_, ?_, ?_⟩ <;> rintro _ ⟨⟩

/-- The invariant holds along every run. -/
theorem Reached.held (h : Reached alloc dictionary options d drained start rejected) : d.Held drained start := by
  induction h with
  | new => exact .new dictionary options
  | feed src _ ih => exact ih.of_eq rfl rfl rfl ih.idle
  | close _ ih => exact ih.of_eq rfl rfl rfl ih.idle
  | round _ hs ih => exact ih.processStep hs
  | failed _ hf ih => exact ih.failed hf
  | compactInput _ ih => exact ih.compactInput
  | read dstLen _ ih => exact ih.read dstLen
  | consumeOutput _ hc ih => exact ih.consumeOutput hc
  | takeOutput _ ih => exact ih.takeOutput
  | reset _ hr ih => exact ih.reset hr

/-! ### The count of a frame's output -/

/-- A frame's count of its output, and what its rejected blocks wrote, make up what was produced since it started. -/
def Counted (d : StreamingDecoder) (drained : Bytes) (start rejected : Nat) : Prop :=
  ∀ frame ∈ d.currentFrame, start + frame.frameOutputSize + rejected = (d.uncompacted drained).length

theorem Counted.closed (hf : d.currentFrame = none) : d.Counted drained start rejected := by
  intro frame hframe
  rw [hf] at hframe
  cases hframe

/-- Nothing but what was produced and the count matters. -/
theorem Counted.of_eq (h : d.Counted drained start rejected) {drained' : Bytes}
    (hu : d'.uncompacted drained' = d.uncompacted drained)
    (hf : d'.currentFrame.map (·.frameOutputSize) = d.currentFrame.map (·.frameOutputSize)) :
    d'.Counted drained' start rejected := by
  intro frame' hframe'
  rw [hframe', Option.map_some] at hf
  obtain ⟨frame, hframe, hsize⟩ := Option.map_eq_some_iff.1 hf.symm
  rw [hu, ← hsize]
  exact h frame hframe

/-- Bytes appended for the current frame, counted or written by a block that is rejected. -/
theorem Counted.appended (h : d.Counted drained start rejected) (hpos : d.outputPos ≤ d.output.length)
    {frame frame' : FrameDecodeState} (hf : d.currentFrame = some frame) {bytes : Bytes} {written : Nat}
    (hsize : frame'.frameOutputSize + written = frame.frameOutputSize + bytes.length)
    (ho : d'.output = d.output ++ bytes) (hp : d'.outputPos = d.outputPos) (hf' : d'.currentFrame = some frame') :
    d'.Counted drained start (rejected + written) := by
  intro f hfx
  obtain rfl : frame' = f := Option.some.inj (hf'.symm.trans hfx)
  have hu : d'.uncompacted drained = d.uncompacted drained ++ bytes := by
    unfold uncompacted pendingOutput
    rw [ho, hp, List.drop_append_of_le_length hpos, List.append_assoc]
  have hcount := h frame hf
  rw [hu, List.length_append, ← hcount]
  omega

theorem Counted.consumeOutput (h : d.Counted drained start rejected) {count : Nat}
    (hc : d.outputPos + count ≤ d.output.length) :
    (d.consumeOutput count).Counted (drained ++ d.pendingOutput.take count) start rejected := by
  refine h.of_eq (uncompacted_of_pending rfl (pendingOutput_consumeOutput hc)) ?_
  obtain ⟨k, -, heq⟩ := compactOutput_eq (d := { d with outputPos := d.outputPos + count }) hc
  have heq : d.consumeOutput count = _ := heq
  rw [heq]
  show (d.currentFrame.map _).map _ = _
  rw [Option.map_map]
  rfl

theorem Counted.decodeBlock (h : d.Counted drained start rejected) (hheld : d.Held drained start)
    {header : BlockHeader} {payload : Bytes} (hs : d.decodeBlock alloc header payload = .ok d') :
    d'.Counted drained start rejected := by
  cases hf : d.currentFrame with
  | none => unfold StreamingDecoder.decodeBlock at hs; rw [hf] at hs; cases hs
  | some frame =>
    obtain ⟨produced, entropy, -, rfl⟩ := (decodeBlock_ok_iff hf (hheld.entropy frame hf)
      (hheld.history frame hf).le.1).1 hs
    have hcounted : (d.afterBlock frame entropy produced).Counted drained start (rejected + 0) :=
      h.appended hheld.pos hf (by rfl) rfl rfl rfl
    exact hcounted

theorem Counted.processFrameHeader (hheld : d.Held drained start) (hidle : d.currentFrame = none) {progress : Bool}
    (hs : d.processFrameHeader = .ok (progress, d')) : d'.Counted drained (d.uncompacted drained).length 0 := by
  unfold StreamingDecoder.processFrameHeader at hs
  split at hs
  · cases hs; exact .closed hidle
  split at hs
  · cases hs
  split at hs
  · split at hs
    · cases hs
    · cases hs; exact .closed hidle
  · rename_i header _
    obtain ⟨d1, h1, hs⟩ := bind_ok hs
    cases hs
    have hi : (d.advance header.headerSize).Held drained start := hheld.of_eq rfl rfl rfl fun _ => hidle
    have hu := (hi.startFrame hidle h1 .blockHeader rfl).2
    obtain ⟨-, rfl⟩ := startFrame_ok_iff.1 h1
    intro frame hframe
    cases hframe
    rw [hu]
    rfl
  · cases hs; exact .closed hidle
  · cases hs

theorem finishFrame_closed (hs : d.finishFrame = .ok d') : d'.currentFrame = none := by
  obtain ⟨_, -, -, rfl⟩ := finishFrame_ok_iff.1 hs
  rfl

/-- A round counts what it appends; a frame it opens starts from none. -/
theorem Counted.processStep (h : d.Counted drained start rejected) (hheld : d.Held drained start) {progress : Bool}
    (hs : d.processStep alloc = .ok (progress, d')) :
    d'.Counted drained (if d.state = .frameHeader then (d.uncompacted drained).length else start)
      (if d.state = .frameHeader then 0 else rejected) := by
  unfold StreamingDecoder.processStep at hs
  cases hstate : d.state with
  | frameHeader =>
    rw [hstate] at hs
    exact Counted.processFrameHeader hheld (hheld.idle (by rw [hstate]; rfl)) hs
  | skippable remaining =>
    rw [hstate] at hs
    cases hs
    exact .closed (hheld.idle (by rw [hstate]; rfl))
  | blockHeader =>
    rw [hstate] at hs
    simp only [StreamingDecoder.processBlockHeader] at hs
    split at hs
    · cases hs; exact h
    · obtain ⟨header, _, hs⟩ := bind_ok hs
      cases hs
      exact h
  | blockPayload header =>
    rw [hstate] at hs
    simp only [StreamingDecoder.processBlockPayload] at hs
    split at hs
    · cases hs; exact h
    obtain ⟨d1, h1, hs⟩ := bind_ok hs
    have hi : (d.advance header.payloadSize).Held drained start := hheld.of_eq rfl rfl rfl hheld.idle
    -- what the block appends is what `absorb_block_output` counts
    have hd1 : d1.Counted drained start rejected :=
      Counted.decodeBlock (d := d.advance header.payloadSize) (h.of_eq rfl rfl) hi h1
    split at hs
    · split at hs
      · cases hs; exact hd1.of_eq rfl rfl
      · obtain ⟨d2, h2, hs⟩ := bind_ok hs
        cases hs
        have hclosed := finishFrame_closed h2
        exact .closed hclosed
    · cases hs; exact hd1.of_eq rfl rfl
  | frameChecksum =>
    rw [hstate] at hs
    simp only [StreamingDecoder.processFrameChecksum] at hs
    split at hs
    · cases hs; exact h
    split at hs
    · cases hs
    · obtain ⟨_, -, hs⟩ := bind_ok hs
      obtain ⟨d1, h1, hs⟩ := bind_ok hs
      cases hs
      have hclosed := finishFrame_closed h1
      exact .closed hclosed

theorem Counted.failed (h : d.Counted drained start rejected) (hheld : d.Held drained start) {written : Nat}
    (hf : Failed alloc d d' written) : d'.Counted drained start (rejected + written) := by
  cases hf with
  | input inputPos => exact h.of_eq rfl rfl
  | header inputPos hstate =>
    obtain ⟨output, outputPos, heq⟩ := d.compactBetweenFrames_eq
    refine .closed ?_
    rw [heq]
    exact hheld.idle hstate
  | block inputPos entropy hstate hframe hok => exact h.appended hheld.pos hframe (by rfl) rfl rfl rfl
  | frameEnd inputPos bytes => exact .closed rfl

theorem Counted.takeOutput (h : d.Counted drained start rejected) (hpos : d.outputPos ≤ d.output.length) :
    d.takeOutput.2.Counted (drained ++ d.takeOutput.1) start rejected := by
  rw [takeOutput_fst]
  unfold StreamingDecoder.takeOutput
  split
  · rename_i hc
    exact .closed (Option.isNone_iff_eq_none.1 hc.2)
  · have hend : d.outputPos + d.pendingOutputLen = d.output.length := by unfold pendingOutputLen; omega
    have hconsume := h.consumeOutput hend.le
    rw [List.take_of_length_le (by unfold pendingOutput pendingOutputLen; rw [List.length_drop])] at hconsume
    unfold StreamingDecoder.consumeOutput at hconsume
    rw [hend] at hconsume
    exact hconsume

/-- The count is kept along every run. -/
theorem Reached.counted (h : Reached alloc dictionary options d drained start rejected) :
    d.Counted drained start rejected := by
  induction h with
  | new => exact .closed rfl
  | feed src _ ih => exact ih.of_eq rfl rfl
  | close _ ih => exact ih.of_eq rfl rfl
  | round hd hs ih => exact ih.processStep hd.held hs
  | failed hd hf ih => exact ih.failed hd.held hf
  | compactInput _ ih =>
    unfold StreamingDecoder.compactInput
    split
    · exact ih
    split
    · exact ih.of_eq rfl rfl
    split
    · exact ih.of_eq rfl rfl
    · exact ih
  | @read d drained start rejected dstLen hd ih =>
    have hpos := hd.held.pos
    unfold StreamingDecoder.read
    simp only
    split
    · rw [List.append_nil]; exact ih
    · exact ih.consumeOutput (by unfold pendingOutputLen; omega)
  | consumeOutput hd hc ih =>
    have hpos := hd.held.pos
    exact ih.consumeOutput (by unfold pendingOutputLen at hc; omega)
  | takeOutput hd ih => exact ih.takeOutput hd.held.pos
  | reset _ hr ih =>
    unfold StreamingDecoder.reset at hr
    obtain ⟨_, -, hr⟩ := bind_ok hr
    cases hr
    exact .closed rfl

/-! ### The calls -/

theorem Reached.processLoop : ∀ (fuel : Nat) {d d' : StreamingDecoder} {start rejected : Nat},
    Reached alloc dictionary options d drained start rejected → d.processLoop alloc fuel = .ok d' →
    ∃ start' rejected', Reached alloc dictionary options d' drained start' rejected'
  | 0, _, _, _, _, _, hp => by cases hp
  | fuel + 1, d, d', start, rejected, h, hp => by
    unfold StreamingDecoder.processLoop at hp
    obtain ⟨⟨progress, d1⟩, h1, hp⟩ := bind_ok hp
    simp only at hp
    split at hp
    · exact Reached.processLoop fuel (h.round h1).compactInput hp
    · cases hp; exact ⟨_, _, h.round h1⟩

/-- The calls that succeed are runs of the operations above. -/
theorem Reached.push (h : Reached alloc dictionary options d drained start rejected) {src : Bytes}
    (hp : d.push alloc src = .ok d') :
    ∃ start' rejected', Reached alloc dictionary options d' drained start' rejected' := by
  unfold StreamingDecoder.push at hp
  split at hp
  · cases hp
  · exact (h.feed src).processLoop _ hp

theorem Reached.finish (h : Reached alloc dictionary options d drained start rejected) (hp : d.finish alloc = .ok d') :
    ∃ start' rejected', Reached alloc dictionary options d' drained start' rejected' := by
  unfold StreamingDecoder.finish at hp
  split at hp
  · obtain ⟨_, -, hp⟩ := bind_ok hp
    cases hp
    exact ⟨start, rejected, h⟩
  · obtain ⟨d1, h1, hp⟩ := bind_ok hp
    obtain ⟨_, -, hp⟩ := bind_ok hp
    cases hp
    exact h.close.processLoop _ h1

end Runs

/-! ## The assertions -/

/-- Whether `compact_output` drops anything. -/
def Drops (d : StreamingDecoder) : Prop :=
  let droppable := min d.outputPos (d.output.length - d.retainForMatches)
  droppable ≠ 0 ∧ (droppable = d.output.length ∨ (d.currentFrame.isSome ∧ droppable * 2 ≥ d.output.length))

instance (d : StreamingDecoder) : Decidable d.Drops := inferInstanceAs (Decidable (_ ∧ _))

/-- The assertions hold in a compaction that drops nothing, and where they hold behind it. -/
theorem compactOutputAsserting_iff :
    d.compactOutputAsserting = .ok d.compactOutput ↔ (d.Drops → d.compactOutput.HistoryAsserted) := by
  unfold compactOutputAsserting compactOutput Drops
  simp only
  by_cases h0 : min d.outputPos (d.output.length - d.retainForMatches) = 0
  · -- nothing may go
    rw [if_pos h0, if_pos h0]
    exact iff_of_true rfl fun hdrops => absurd h0 hdrops.1
  simp only [if_neg h0]
  by_cases hall : min d.outputPos (d.output.length - d.retainForMatches) = d.output.length
  · -- everything goes
    simp only [if_pos hall, releaseHistoryAsserting]
    split
    · rename_i hok
      exact ⟨fun _ _ => hok, fun _ => rfl⟩
    · rename_i hno
      exact ⟨fun h => (by cases h), fun h => absurd (h ⟨h0, .inl hall⟩) hno⟩
  simp only [if_neg hall]
  by_cases hnone : d.currentFrame.isNone
  · -- between frames the buffer waits until all of it can go
    simp only [if_pos hnone, true_iff]
    rintro ⟨-, h | h⟩
    · exact absurd h hall
    · rw [Option.isNone_iff_eq_none] at hnone
      rw [hnone] at h
      cases h.1
  simp only [if_neg hnone]
  by_cases hhalf : min d.outputPos (d.output.length - d.retainForMatches) * 2 ≥ d.output.length
  · simp only [if_pos hhalf, releaseHistoryAsserting]
    split
    · rename_i hok
      exact ⟨fun _ _ => hok, fun _ => rfl⟩
    · rename_i hno
      have hsome : d.currentFrame.isSome := by
        cases hf : d.currentFrame with
        | none => rw [hf] at hnone; exact absurd rfl hnone
        | some frame => rfl
      exact ⟨fun h => (by cases h), fun h => absurd (h ⟨h0, .inr ⟨hsome, hhalf⟩⟩) hno⟩
  · simp only [if_neg hhalf, true_iff]
    rintro ⟨-, h | h⟩
    · exact absurd h hall
    · exact absurd h.2 hhalf

theorem retainForMatches_some {frame : FrameDecodeState} (hf : d.currentFrame = some frame) :
    d.retainForMatches = frame.windowSize + 1 := by
  unfold retainForMatches
  rw [hf]

/-- Within a frame a prefix goes once it is half of the buffer. -/
theorem compactOutput_half {frame : FrameDecodeState} (hf : d.currentFrame = some frame) {k : Nat}
    (hk : min d.outputPos (d.output.length - (frame.windowSize + 1)) = k) (h0 : k ≠ 0)
    (hhalf : k * 2 ≥ d.output.length) :
    d.compactOutput = { d with output := d.output.drop k, outputPos := d.outputPos - k }.releaseHistory k ∧
      d.compactOutputAsserting =
        { d with output := d.output.drop k, outputPos := d.outputPos - k }.releaseHistoryAsserting k := by
  have hall : k ≠ d.output.length := by omega
  have hnone : ¬ d.currentFrame.isNone := by rw [hf]; simp
  unfold compactOutput compactOutputAsserting
  simp only [retainForMatches_some hf, hk]
  rw [if_neg h0, if_neg hall, if_neg hnone, if_pos hhalf, if_neg h0, if_neg hall, if_neg hnone, if_pos hhalf]
  exact ⟨rfl, rfl⟩

/-- What is held of the current frame behind a compaction is as much as before, or more than its window. -/
theorem Held.asserted_iff (h : d.Held drained start) {rejected : Nat} (hc : d.Counted drained start rejected)
    (hdrops : d.Drops) : d.compactOutput.HistoryAsserted ↔
      ∀ frame ∈ d.currentFrame, rejected ≠ 0 → frame.windowSize < d.output.length - frame.frameStart := by
  cases hf : d.currentFrame with
  | none =>
    obtain ⟨k, -, heq⟩ := compactOutput_eq h.pos
    refine iff_of_true ?_ ?_
    · rw [heq]
      intro frame hframe
      have hframe : frame ∈ d.currentFrame.map _ := hframe
      rw [hf] at hframe
      cases hframe
    · rintro frame ⟨⟩
  | some frame =>
    obtain ⟨h0, hhow⟩ := hdrops
    rw [retainForMatches_some hf] at h0 hhow
    have hhalf := (hhow.resolve_left (by omega)).2
    -- the prefix that goes leaves a window and a byte
    generalize hk : min d.outputPos (d.output.length - (frame.windowSize + 1)) = k at h0 hhalf
    obtain ⟨heq, -⟩ := compactOutput_half hf hk h0 hhalf
    have hkeep : k + (frame.windowSize + 1) ≤ d.output.length := by omega
    have hcount := hc frame hf
    have hle := (h.history frame hf).le
    obtain ⟨preA, preB, held, ha, hb, hcases⟩ := h.history frame hf
    have hall : d.output.length - frame.frameStart = frame.frameOutputSize + rejected ∨
        frame.windowSize < d.output.length - frame.frameStart := by
      rw [hb, List.length_append] at hcount
      rw [ha, List.length_append]
      rcases hcases with ⟨h1, h2⟩ | ⟨h1, h2, h3⟩
      · exact .inl (by omega)
      · exact .inr (by omega)
    have hiff : d.compactOutput.HistoryAsserted ↔ frame.frameStart - k ≤ d.output.length - k ∧
        (d.output.length - k - (frame.frameStart - k) = frame.frameOutputSize ∨
          d.output.length - k - (frame.frameStart - k) > frame.windowSize) := by
      rw [heq]
      unfold HistoryAsserted releaseHistory
      simp only [hf, Option.map_some, Option.mem_def, Option.some.injEq, forall_eq', List.length_drop]
    rw [hiff]
    constructor
    · rintro ⟨-, hheld⟩ f hfx hrejected
      obtain rfl := Option.some.inj hfx
      omega
    · intro hwithin
      have hwithin := hwithin frame rfl
      refine ⟨by omega, ?_⟩
      by_cases hrejected : rejected = 0
      · omega
      · have := hwithin hrejected
        omega

end StreamingDecoder

/-! ## What a match can tell -/

/-- The bytes one sequence appends to an output that grows, or nothing where it is rejected. -/
def sequenceBytes (alloc : Allocator) (c : ExecContext) (out : Bytes) (ip literalLength offset matchLength : Nat) :
    Option Bytes :=
  ((executeSequenceExact alloc c ((DecodeOut.growable out).region alloc (literalLength + matchLength)) ip literalLength
    offset matchLength).toOption).map fun r => r.asSlice.drop out.length

/-- The bytes one block appends, and the entropy state it leaves. -/
def blockBytes (alloc : Allocator) (header : BlockHeader) (payload : Bytes) (p : FrameParams) (st : EntropyState)
    (out : Bytes) (limit : OutputLimit) : Option (Bytes × EntropyState) :=
  (decodeBlockOnto alloc header payload p st out limit).toOption.map fun r => (r.1.drop out.length, r.2)

theorem sequenceBytes_eq_spec (alloc : Allocator) {c : ExecContext} {out : Bytes} {ip ll offset : Nat}
    (hfs : c.frameStart ≤ out.length) (ho : 0 < offset) (hip : ip + ll ≤ c.literals.len) (n : Nat) :
    sequenceBytes alloc c out ip ll offset n = (placeSpec c out ip ll offset n).toOption.map (·.drop out.length) := by
  have hholds : ((DecodeOut.growable out).region alloc (ll + n)).Holds out := by
    refine ⟨?_, rfl⟩
    show (out ++ _).take out.length = out
    rw [List.take_left]
  have h : PlaceAgrees _ (executeSequenceExact alloc c _ ip ll offset n) _ :=
    executeSequenceExact_agrees hholds hfs ho hip
  unfold sequenceBytes
  cases hy : placeSpec c out ip ll offset n with
  | error e =>
    obtain ⟨e', he, -⟩ := h.error e hy
    rw [he]; rfl
  | ok b =>
    obtain ⟨r, hr, hreach⟩ := h.ok b hy (.inl rfl)
    rw [hr]
    exact congrArg some (congrArg _ hreach.holds.1)

section History

variable {window fsA fsB : Nat} {a b : Bytes} (h : HistoryRel window fsA a fsB b)

include h

/-- One sequence on two outputs with the same history. -/
theorem sequenceBytes_eq (alloc : Allocator) {c : ExecContext} (hw : c.windowSize = window) {ip ll offset : Nat}
    (ho : 0 < offset) (hip : ip + ll ≤ c.literals.len) (n : Nat) :
    sequenceBytes alloc { c with frameStart := fsA } a ip ll offset n =
      sequenceBytes alloc { c with frameStart := fsB } b ip ll offset n := by
  subst hw
  obtain ⟨r, hA, hB⟩ := placeSpec_eq h ip ll ho n
  rw [sequenceBytes_eq_spec alloc (by exact h.le.1) ho (by exact hip), hA,
    sequenceBytes_eq_spec alloc (by exact h.le.2) ho (by exact hip), hB]
  cases r with
  | error e => rfl
  | ok x =>
    show some ((a ++ x).drop a.length) = some ((b ++ x).drop b.length)
    rw [List.drop_left, List.drop_left]

/-- One block on two outputs with the same history, under caps that leave it the same room. -/
theorem blockBytes_eq (alloc : Allocator) {p : FrameParams} (hw : p.windowSize = window) {st : EntropyState}
    (hst : st.Ok) {limitA limitB : OutputLimit} (hAB : LimitLe limitA a.length limitB b.length)
    (hBA : LimitLe limitB b.length limitA a.length) (header : BlockHeader) (payload : Bytes) :
    blockBytes alloc header payload { p with frameStart := fsA } st a limitA =
      blockBytes alloc header payload { p with frameStart := fsB } st b limitB := by
  have hiffA : ∀ r, decodeBlockOnto alloc header payload { p with frameStart := fsA } st a limitA = .ok r ↔ _ :=
    fun r => decodeBlockOnto_iff alloc hst h.le.1
  have hiffB : ∀ r, decodeBlockOnto alloc header payload { p with frameStart := fsB } st b limitB = .ok r ↔ _ :=
    fun r => decodeBlockOnto_iff alloc hst h.le.2
  have hfA := decodeBlock_follows h hAB hw header payload st
  have hfB := decodeBlock_follows h.symm hBA hw header payload st
  unfold blockBytes
  cases hA : decodeBlockOnto alloc header payload { p with frameStart := fsA } st a limitA with
  | ok x =>
    obtain ⟨y, hy, ⟨z, hxz, hyz⟩, hst'⟩ := hfA x ((hiffA x).1 hA)
    rw [(hiffB y).2 hy]
    show some (x.1.drop a.length, x.2) = some (y.1.drop b.length, y.2)
    rw [hxz, hyz, List.drop_left, List.drop_left, hst']
  | error e =>
    cases hB : decodeBlockOnto alloc header payload { p with frameStart := fsB } st b limitB with
    | error e' => rfl
    | ok y =>
      obtain ⟨x, hx, -⟩ := hfB y ((hiffB y).1 hB)
      rw [(hiffA x).2 hx] at hA
      cases hA

end History

namespace StreamingDecoder

/-- Compaction is unobservable as long as no drain drops history under bytes of a rejected block: along every
run, a drain passes the assertions of `release_history` exactly when it drops nothing, or the current frame has no
bytes of a block that was rejected behind its writes, or more than a window of the frame is held. What is held of
the frame is all of what was produced since it started or more than a window of it, its start is inside the buffer,
and every sequence and every block is decoded from the buffer as it would be from everything produced so far. -/
theorem compaction_unobservable_iff (alloc : Allocator) (dictionary : Option DecoderDictionary)
    (options : DecoderOptions) {d : StreamingDecoder} {drained : Bytes} {start rejected : Nat}
    (h : Reached alloc dictionary options d drained start rejected) :
    (∀ count ≤ d.pendingOutputLen,
      let read := { d with outputPos := d.outputPos + count }
      read.compactOutputAsserting = .ok (d.consumeOutput count) ↔
        (read.Drops → ∀ frame ∈ d.currentFrame,
          rejected ≠ 0 → frame.windowSize < d.output.length - frame.frameStart)) ∧
    (d.state.inFrame = false → d.currentFrame = none) ∧
    ∀ frame ∈ d.currentFrame,
      let all := d.uncompacted drained
      let held := d.output.drop frame.frameStart
      d.output <:+ all ∧ (held = all.drop start ∨ (held <:+ all.drop start ∧ frame.windowSize < held.length)) ∧
      frame.frameStart ≤ d.output.length ∧ start ≤ all.length ∧
      (∀ (c : ExecContext) (bytes : Bytes) (ip literalLength offset matchLength : Nat),
        c.windowSize = frame.windowSize →
        0 < offset → ip + literalLength ≤ c.literals.len →
        sequenceBytes alloc { c with frameStart := frame.frameStart } (d.output ++ bytes) ip literalLength offset
            matchLength =
          sequenceBytes alloc { c with frameStart := start } (all ++ bytes) ip literalLength offset matchLength) ∧
      (∀ (header : BlockHeader) (payload bytes : Bytes) (st : EntropyState) (limit : OutputLimit), st.Ok →
        limit.maxOutputSize = d.options.maxOutputSize →
        limit.produced all.length = d.outputLimit.produced d.output.length →
        blockBytes alloc header payload (d.frameParams frame) st (d.output ++ bytes) d.outputLimit =
          blockBytes alloc header payload { d.frameParams frame with frameStart := start } st
            (all ++ bytes) limit) := by
  have hheld := h.held
  have hpos := hheld.pos
  refine ⟨fun count hcount => ?_, hheld.idle, fun frame hf => ?_⟩
  · intro read
    have hread : read.Held (drained ++ d.pendingOutput.take count) start := hheld.advance hcount
    have hcounted : read.Counted (drained ++ d.pendingOutput.take count) start rejected := by
      refine h.counted.of_eq (uncompacted_of_pending rfl ?_) rfl
      unfold pendingOutput
      rw [List.drop_drop]
    rw [show read.compactOutputAsserting = .ok (d.consumeOutput count) ↔ _ from compactOutputAsserting_iff]
    exact forall_congr' fun hdrops => hread.asserted_iff hcounted hdrops
  intro all held
  obtain ⟨dropped, hall⟩ := hheld.uncompacted_eq
  have hhist : HistoryRel frame.windowSize frame.frameStart d.output start all := hheld.history frame hf
  have honly : start + d.output.length ≤ all.length + frame.frameStart := hheld.frameOnly frame hf
  have hle := hhist.le
  have hsuffix : d.output <:+ all := ⟨dropped, hall.symm⟩
  refine ⟨hsuffix, ?_, hle.1, hle.2, ?_, ?_⟩
  · obtain ⟨preA, preB, common, ha, hb, hc⟩ := hhist
    rcases hc with ⟨hA, hB⟩ | ⟨hA, hB, hw⟩
    · refine .inl ?_
      show d.output.drop _ = _
      rw [ha, hb, hA, hB, List.drop_left, List.drop_left]
    · refine .inr ⟨?_, ?_⟩
      · -- both are ends of everything produced, and the held one is not the longer
        refine List.suffix_of_suffix_length_le ((List.drop_suffix _ _).trans hsuffix) (List.drop_suffix _ _) ?_
        simp only [held, List.length_drop]
        omega
      · simp only [held, List.length_drop, ha, List.length_append]
        omega
  · intro c bytes ip ll offset n hw ho hip
    exact sequenceBytes_eq (hhist.append bytes) alloc hw ho hip n
  · intro header payload bytes st limit hst hmax hprod
    have hAB : LimitLe d.outputLimit (d.output ++ bytes).length limit (all ++ bytes).length := by
      rw [List.length_append, List.length_append]
      exact LimitLe.add ⟨hmax.symm, hprod.le⟩ _
    have hBA : LimitLe limit (all ++ bytes).length d.outputLimit (d.output ++ bytes).length := by
      rw [List.length_append, List.length_append]
      exact LimitLe.add ⟨hmax, hprod.ge⟩ _
    exact blockBytes_eq (hhist.append bytes) alloc (p := d.frameParams frame) rfl hst hAB hBA header payload

/-- A two-byte frame as one raw block. -/
def twoByteFrame : Bytes := [0x28, 0xB5, 0x2F, 0xFD, 0x20, 0x02, 0x11, 0x00, 0x00, 0x61, 0x62]

/-- A frame of a hundred zeros. -/
def zerosFrame : Bytes := [0x28, 0xB5, 0x2F, 0xFD, 0x20, 0x64, 0x23, 0x03, 0x00, 0x00]

/-- A frame of ten bytes whose compressed block writes five and is rejected then, its bitstream not read to the end. -/
def unreadFrame : Bytes :=
  [0x28, 0xB5, 0x2F, 0xFD, 0x20, 0x0A, 0x55, 0x00, 0x00, 0x10, 0x61, 0x62, 0x01, 0x54, 0x02, 0x00, 0x00, 0x00, 0x01]

theorem rejected_reached : ∃ (d : StreamingDecoder) (frame : FrameDecodeState),
    ((StreamingDecoder.new none .initial).push zeroAllocator (zerosFrame ++ unreadFrame)).toOption.isNone ∧
      Reached zeroAllocator none .initial d [] 100 5 ∧
      d.output = List.replicate 100 0 ++ [0x61, 0x62, 0x62, 0x62, 0x62] ∧ d.outputPos = 0 ∧
      d.currentFrame = some frame ∧ frame.frameStart = 100 ∧ frame.frameOutputSize = 0 ∧ frame.windowSize = 10 := by
  have h0 : Reached zeroAllocator none .initial _ _ _ _ := .new
  have opened := h0.feed (zerosFrame ++ unreadFrame) |>.round rfl |>.compactInput
  have decoded := opened.round rfl |>.compactInput |>.round rfl |>.compactInput
  have next := decoded.round rfl |>.compactInput |>.round rfl |>.compactInput
  have failed := next.failed (.block 13 _ rfl rfl (EntropyState.initial_ok none) rfl)
  exact ⟨_, _, by decide +kernel, failed, rfl, rfl, rfl, rfl, rfl, rfl⟩

/-- The push that brings the rejected block fails, and `take_output` then leaves five bytes of a frame that counts none,
inside its window of ten. -/
theorem compaction_unobservable_rejected : ∃ (d : StreamingDecoder) (start rejected : Nat),
    ((StreamingDecoder.new none .initial).push zeroAllocator (zerosFrame ++ unreadFrame)).toOption.isNone ∧
      Reached zeroAllocator none .initial d [] start rejected ∧
      d.takeOutput.1 = List.replicate 100 0 ++ [0x61, 0x62, 0x62, 0x62, 0x62] ∧
      { d with outputPos := d.output.length }.compactOutputAsserting = .error .generic ∧
      ∃ frame, d.takeOutput.2.currentFrame = some frame ∧ d.takeOutput.2.output.length - frame.frameStart = 5 ∧
        frame.frameOutputSize = 0 ∧ frame.windowSize = 10 := by
  obtain ⟨d, frame, hpush, hreached, hout, hpos, hframe, hstart, hsize, hwindow⟩ := rejected_reached
  have hlen : d.output.length = 105 := by rw [hout]; rfl
  obtain ⟨hdrop, hasserting⟩ := compactOutput_half (d := { d with outputPos := d.output.length }) hframe
    (show min d.output.length _ = 94 by rw [hlen, hwindow]; rfl) (by decide) (by rw [hlen]; decide)
  have htake : d.takeOutput.2 =
      { d with output := d.output.drop 94, outputPos := d.output.length - 94 }.releaseHistory 94 := by
    unfold StreamingDecoder.takeOutput
    rw [if_neg (by rw [hframe]; simp)]
    exact hdrop
  have hcurrent : d.takeOutput.2.currentFrame = some { frame with frameStart := frame.frameStart - 94 } := by
    rw [htake]
    unfold releaseHistory
    rw [hframe]
    rfl
  have hheld : d.takeOutput.2.output.length - (frame.frameStart - 94) = 5 := by
    rw [htake]
    unfold releaseHistory
    simp only [List.length_drop, hlen, hstart]
  refine ⟨d, 100, 5, hpush, hreached, ?_, ?_, _, hcurrent, hheld, hsize, hwindow⟩
  · rw [takeOutput_fst, pendingOutput, hpos, hout]; rfl
  · rw [hasserting]
    unfold releaseHistoryAsserting
    rw [show StreamingDecoder.releaseHistory _ _ = _ from htake.symm]
    refine if_neg fun hasserted => ?_
    obtain ⟨-, h⟩ := hasserted _ hcurrent
    simp only [hheld, hsize, hwindow] at h
    omega

/-- A frame of ten bytes of which three have come. -/
def begunFrame : Bytes := [0x28, 0xB5, 0x2F, 0xFD, 0x20, 0x0A, 0x18, 0x00, 0x00, 0x61, 0x62, 0x63]

theorem begun_reached : ∃ (d : StreamingDecoder) (frame : FrameDecodeState),
    Reached zeroAllocator none .initial d [] 100 0 ∧ d.output = List.replicate 100 0 ++ [0x61, 0x62, 0x63] ∧
      d.outputPos = 0 ∧ d.currentFrame = some frame ∧ frame.frameStart = 100 ∧ frame.windowSize = 10 := by
  have h0 : Reached zeroAllocator none .initial _ _ _ _ := .new
  have opened := h0.feed (zerosFrame ++ begunFrame) |>.round rfl |>.compactInput
  have decoded := opened.round rfl |>.compactInput |>.round rfl |>.compactInput
  have next := decoded.round rfl |>.compactInput |>.round rfl |>.compactInput |>.round rfl |>.compactInput
  exact ⟨_, _, next, rfl, rfl, rfl, rfl, rfl⟩

/-- Behind a hundred bytes of an earlier frame, of which all but eight go. -/
theorem compaction_unobservable_iff_begun : ∃ (d : StreamingDecoder) (frame : FrameDecodeState),
    { d with outputPos := d.outputPos + 103 }.Drops ∧
      { d with outputPos := d.outputPos + 103 }.compactOutputAsserting = .ok (d.consumeOutput 103) ∧
      (d.consumeOutput 103).output = List.replicate 8 0 ++ [0x61, 0x62, 0x63] ∧
      (d.consumeOutput 103).currentFrame = some frame ∧ frame.frameStart = 8 ∧ frame.windowSize = 10 ∧
      ∀ (c : ExecContext) (bytes : Bytes) (ip literalLength offset matchLength : Nat), c.windowSize = frame.windowSize →
        0 < offset → ip + literalLength ≤ c.literals.len →
        sequenceBytes zeroAllocator { c with frameStart := 8 } (List.replicate 8 0 ++ [0x61, 0x62, 0x63] ++ bytes) ip
            literalLength offset matchLength =
          sequenceBytes zeroAllocator { c with frameStart := 100 } (List.replicate 100 0 ++ [0x61, 0x62, 0x63] ++ bytes)
            ip literalLength offset matchLength := by
  obtain ⟨d, frame, hreached, hout, hpos, hframe, hstart, hwindow⟩ := begun_reached
  have hlen : d.output.length = 103 := by rw [hout]; rfl
  have hcount : 103 ≤ d.pendingOutputLen := by unfold pendingOutputLen; rw [hpos, hlen]
  have hdroppable : min (d.outputPos + 103) (d.output.length - (frame.windowSize + 1)) = 92 := by
    rw [hpos, hlen, hwindow]
    rfl
  obtain ⟨hdrop, -⟩ := compactOutput_half (d := { d with outputPos := d.outputPos + 103 }) hframe hdroppable (by decide)
    (by rw [hlen]; decide)
  have hconsume : d.consumeOutput 103 =
      { d with output := d.output.drop 92, outputPos := d.outputPos + 103 - 92 }.releaseHistory 92 := hdrop
  have hcurrent : (d.consumeOutput 103).currentFrame = some { frame with frameStart := frame.frameStart - 92 } := by
    rw [hconsume]
    unfold releaseHistory
    rw [hframe]
    rfl
  have hafter : (d.consumeOutput 103).output = List.replicate 8 0 ++ [0x61, 0x62, 0x63] := by
    rw [hconsume]
    show d.output.drop 92 = _
    rw [hout]
    rfl
  obtain ⟨hasserts, -⟩ := compaction_unobservable_iff zeroAllocator none .initial hreached
  obtain ⟨-, -, hheld⟩ := compaction_unobservable_iff zeroAllocator none .initial (hreached.consumeOutput hcount)
  obtain ⟨-, -, -, -, hsequence, -⟩ := hheld _ hcurrent
  refine ⟨d, _, ?_, (hasserts 103 hcount).2 fun _ _ _ h => absurd rfl h, hafter, hcurrent, ?_, hwindow, ?_⟩
  · have hretain : { d with outputPos := d.outputPos + 103 }.retainForMatches = frame.windowSize + 1 :=
      retainForMatches_some hframe
    unfold Drops
    simp only [hretain, hdroppable]
    exact ⟨by decide, .inr ⟨by rw [hframe]; rfl, by rw [hlen]; decide⟩⟩
  · simp only [hstart]
  · have hall : (d.consumeOutput 103).uncompacted ([] ++ d.pendingOutput.take 103) = List.replicate 100 0 ++
      [0x61, 0x62, 0x63] := by
      rw [uncompacted_of_pending rfl (pendingOutput_consumeOutput (by rw [hpos, hlen])), uncompacted,
        pendingOutput, hpos, hout]
      rfl
    rw [hall, hafter] at hsequence
    simp only [hstart] at hsequence
    exact hsequence

end StreamingDecoder

end Zstandard
