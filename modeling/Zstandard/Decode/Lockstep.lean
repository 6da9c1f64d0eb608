/-
The streaming decoder in lockstep with the one-shot decoder.

`Tracks` relates a streaming decoder to the input it is being fed. What it holds says where one-shot
decoding of that input is (`reading`), and each round moves to a point from which one-shot decoding
completes in the same way (`Tracks.processStep`, one lemma for each state). A call ends because the input
so far has run out, or because an empty skippable frame has ended.
-/
import Zstandard.Decode.Continue
import Zstandard.Decode.Compaction
import Zstandard.Library.Stops

namespace Zstandard

namespace StreamingDecoder

/-! ## Where one-shot decoding is -/

/-- What comes next, with the current frame's output starting at `start`. -/
def phase (d : StreamingDecoder) (start : Nat) : Phase :=
  match d.state, d.currentFrame with
  | .skippable remaining, _ => .skippable remaining
  | .blockHeader, some f => .blockHeader ⟨f.header, f.entropy, start⟩
  | .blockPayload header, some f => .blockPayload header ⟨f.header, f.entropy, start⟩
  | .frameChecksum, some f => .frameChecksum ⟨f.header, f.entropy, start⟩
  | _, _ => .frameHeader

/-- The point of one-shot decoding a decoder fed with `src` has come to. -/
def reading (d : StreamingDecoder) (src drained : Bytes) (start : Nat) : Reading :=
  { phase := d.phase start, cursor := { src, pos := d.streamInputPos }, out := d.uncompacted drained
    decodedAFrame := d.decodedAFrame }

/-- How much of the input has arrived. -/
def reach (d : StreamingDecoder) : Nat := d.inputDropped + d.input.length

/-- The current frame as the one-shot decoder has it: `u` is everything produced. -/
structure FrameTracks (u : Bytes) (start : Nat) (f : FrameDecodeState) : Prop where
  window : f.windowSize = f.header.windowSize
  start_le : start ≤ u.length
  size : f.frameOutputSize = u.length - start
  checksum : f.checksum = if f.header.checksum then some ((Xxh64State.new 0).update (u.drop start)) else none

/-- A decoder that is being fed `src` and has decoded what arrived of it. -/
structure Tracks (src : Bytes) (d : StreamingDecoder) (drained : Bytes) (start : Nat) : Prop where
  held : d.Held drained start
  inside : d.inputPos ≤ d.input.length
  input : d.input <+: src.drop d.inputDropped
  arrived : d.reach ≤ src.length
  total : d.totalOutputSize = (d.uncompacted drained).length
  opened : d.state.inFrame = true → d.currentFrame.isSome
  multi : ∀ n, d.state = .skippable n → d.options.singleFrame = false
  frame : ∀ f ∈ d.currentFrame, FrameTracks (d.uncompacted drained) start f
  sum : d.state = .frameChecksum → ∀ f ∈ d.currentFrame, f.header.checksum = true

/-- What a round leaves alone. -/
structure Same (d d' : StreamingDecoder) : Prop where
  options : d'.options = d.options
  dictionary : d'.dictionary = d.dictionary
  input : d'.input = d.input
  inputDropped : d'.inputDropped = d.inputDropped
  receivedInput : d'.receivedInput = d.receivedInput
  finishedInput : d'.finishedInput = d.finishedInput

/-- The input a decoder still has to go through, and whether it is behind a block header. -/
def rank (d : StreamingDecoder) : Nat :=
  2 * (d.input.length - d.inputPos) + match d.state with | .blockPayload _ => 1 | _ => 0

section Points

variable (src : Bytes) (d : StreamingDecoder) (drained : Bytes) (start : Nat)

/-- One-shot decoding completes from where the decoder is. -/
def Completing (out : Bytes) (stops : List Nat) : Prop :=
  Completes d.options d.dictionary (d.reading src drained start) out stops

/-- The input so far has run out inside an item, or at its own end. -/
def Starved : Prop := ∀ out stops, d.Completing src drained start out stops →
  (∀ z ∈ stops, d.reach < z) ∧ (d.reach = src.length → d.state = .frameHeader ∧ d.streamInputPos = src.length)

/-- An empty skippable frame has ended. -/
def Stopped (d' : StreamingDecoder) (start' : Nat) : Prop :=
  d'.state = .frameHeader ∧ ∀ out stops, d.Completing src drained start out stops ↔
    ∃ rest, d'.Completing src drained start' out rest ∧
      stops = if d'.streamInputPos < src.length then d'.streamInputPos :: rest else rest

/-- What a round may do. -/
def RoundOk : Result (Bool × StreamingDecoder) → Prop
  | .error _ => ∀ out stops, ¬ d.Completing src drained start out stops
  | .ok (true, d') => ∃ start', Tracks src d' drained start' ∧ Same d d' ∧ d'.rank < d.rank ∧
      ∀ out stops, d.Completing src drained start out stops ↔ d'.Completing src drained start' out stops
  | .ok (false, d') => (d' = d ∧ d.Starved src drained start) ∨
      ∃ start', Tracks src d' drained start' ∧ Same d d' ∧ d.Stopped src drained start d' start'

end Points

variable {src : Bytes} {d d' : StreamingDecoder} {drained : Bytes} {start : Nat}

/-! ## The input so far and the whole input -/

theorem Tracks.unconsumed (h : Tracks src d drained start) : d.unconsumedInput <+: src.drop d.streamInputPos := by
  obtain ⟨t, ht⟩ := h.input
  have hin := h.inside
  refine ⟨t, ?_⟩
  unfold unconsumedInput streamInputPos
  rw [← List.drop_drop, ← ht, List.drop_append_of_le_length hin]

theorem Tracks.pos_le (h : Tracks src d drained start) : d.streamInputPos ≤ d.reach := by
  have := h.inside
  unfold streamInputPos reach
  omega

theorem length_unconsumed (d : StreamingDecoder) : d.unconsumedInput.length = d.input.length - d.inputPos := by
  unfold unconsumedInput; rw [List.length_drop]

/-- What an item reads of the input so far, it reads of the whole input. -/
theorem Tracks.take (h : Tracks src d drained start) {n : Nat} (hn : ¬ d.input.length - d.inputPos < n) :
    d.unconsumedInput.take n = (src.drop d.streamInputPos).take n ∧ d.streamInputPos + n ≤ src.length := by
  obtain ⟨t, ht⟩ := h.unconsumed
  have hlen := d.length_unconsumed
  constructor
  · rw [← ht, List.take_append_of_le_length (by omega)]
  · have harrived := h.arrived
    have hin := h.inside
    unfold reach at harrived
    unfold streamInputPos
    omega

theorem isEmpty_eq_false_iff {pos : Nat} : ({ src, pos } : Cursor).isEmpty = false ↔ pos ≠ src.length := by
  unfold Cursor.isEmpty; simp

/-- An item that has not arrived: the decoder waits, and every stop is behind the item. -/
theorem Tracks.starved {n : Nat} (hn : d.input.length - d.inputPos < n)
    (hin : d.inputPos ≤ d.input.length)
    (hitem : ∀ out stops, d.Completing src drained start out stops →
      d.streamInputPos + n ≤ src.length ∧ ∀ z ∈ stops, d.streamInputPos + n ≤ z) : d.Starved src drained start := by
  intro out stops hc
  obtain ⟨h1, h2⟩ := hitem out stops hc
  have hreach : d.reach < d.streamInputPos + n := by unfold reach streamInputPos; omega
  exact ⟨fun z hz => lt_of_lt_of_le hreach (h2 z hz), fun h => by omega⟩

/-- The input moves on, to a state that has a current frame exactly if this one does. -/
theorem Tracks.advance (h : Tracks src d drained start) {n : Nat} (hn : ¬ d.input.length - d.inputPos < n)
    (state : DecoderState) (hin : state.inFrame = d.state.inFrame)
    (hmulti : ∀ m, state = .skippable m → d.options.singleFrame = false)
    (hsum : state = .frameChecksum → d.state = .frameChecksum) :
    Tracks src { d.advance n with state } drained start ∧ Same d { d.advance n with state } := by
  have hinside := h.inside
  refine ⟨⟨h.held.of_eq rfl rfl rfl (fun hs => h.held.idle (hin.symm.trans hs)), ?_, h.input, h.arrived,
    h.total, ?_, hmulti, h.frame, fun hs => h.sum (hsum hs)⟩, ⟨rfl, rfl, rfl, rfl, rfl, rfl⟩⟩
  · show d.inputPos + n ≤ d.input.length
    omega
  · intro hs; exact h.opened (by rw [← hin]; exact hs)

theorem completing_advance {n : Nat} {state : DecoderState} {out : Bytes} {stops : List Nat} :
    Completing src { d.advance n with state } drained start out stops ↔ Completes d.options d.dictionary
      ⟨({ d with state } : StreamingDecoder).phase start, { src, pos := d.streamInputPos + n }, d.uncompacted drained,
        d.decodedAFrame⟩ out stops := by
  have hpos : StreamingDecoder.streamInputPos { d.advance n with state } = d.streamInputPos + n :=
    (Nat.add_assoc _ _ _).symm
  unfold Completing reading
  rw [hpos]
  rfl

/-! ## At a frame header -/

theorem completing_frameHeader (hstate : d.state = .frameHeader) {out : Bytes} {stops : List Nat} :
    d.Completing src drained start out stops ↔ Completes d.options d.dictionary
      ⟨.frameHeader, { src, pos := d.streamInputPos }, d.uncompacted drained, d.decodedAFrame⟩ out stops := by
  unfold Completing reading phase
  rw [hstate]

/-- Frame headers wait for as long as their header has not arrived. -/
theorem Tracks.frameHeader_starved (h : Tracks src d drained start) (hstate : d.state = .frameHeader)
    (hwait : d.inputPos = d.input.length ∨
      parseFrameHeaderWithFormat d.options.format d.unconsumedInput = .error .unexpectedEof) :
    d.Starved src drained start := by
  by_cases hend : d.streamInputPos = src.length
  · -- the input has ended, between two frames
    intro out stops hc
    rw [completing_frameHeader hstate, completes_end (by unfold Cursor.isEmpty; simpa using hend)] at hc
    rw [hc.2]
    exact ⟨fun _ hz => (nomatch hz), fun _ => ⟨hstate, hend⟩⟩
  have hne : ({ src, pos := d.streamInputPos } : Cursor).isEmpty = false := isEmpty_eq_false_iff.2 hend
  have hlen : (src.drop d.streamInputPos).length = src.length - d.streamInputPos := List.length_drop
  obtain ⟨t, ht⟩ := h.unconsumed
  cases hp : parseFrameHeaderWithFormat d.options.format (src.drop d.streamInputPos) with
  | error e =>
    intro out stops hc
    exact absurd ((completing_frameHeader hstate).1 hc) (not_completes_of_error hne hp)
  | ok fh =>
    have hpos := FrameHeader.headerSize_pos hp
    -- a header that has arrived is parsed
    have harrive : ∀ n, (∀ m, n ≤ m → parseFrameHeaderWithFormat d.options.format ((src.drop d.streamInputPos).take m) =
        .ok fh) → 0 < n → d.input.length - d.inputPos < n := by
      intro n htake hn
      by_contra hge
      rcases hwait with hw | hw
      · omega
      · have := htake d.unconsumedInput.length (by rw [length_unconsumed]; omega)
        rw [← ht, List.take_left, hw] at this
        cases this
    cases fh with
    | skippable frame =>
      have hshort := harrive frame.headerSize (fun m hm => parseFrameHeader_take hp hm) hpos.1
      refine starved hshort h.inside fun out stops hc => ?_
      obtain ⟨-, hc⟩ := (completes_skippable hne hp).1 ((completing_frameHeader hstate).1 hc)
      exact ⟨by omega, hc.stops_le⟩
    | zstandard header =>
      have hshort := harrive header.headerSize (fun m hm => parseFrameHeader_take hp hm) hpos.1
      refine starved hshort h.inside fun out stops hc => ?_
      obtain ⟨-, -, hc⟩ := (completes_zstandard hne hp (by simp only; omega)).1 ((completing_frameHeader hstate).1 hc)
      exact ⟨by omega, hc.stops_le⟩

theorem FrameTracks.opened (u : Bytes) (dictionary : Option DecoderDictionary) (header : ZstandardFrameHeader)
    (frameStart : Nat) : FrameTracks u u.length (.opened dictionary header frameStart) := by
  refine ⟨rfl, le_refl _, ?_, ?_⟩
  · rw [Nat.sub_self]; rfl
  · rw [List.drop_length, Xxh64State.update_nil]; rfl

theorem Tracks.processFrameHeader (h : Tracks src d drained start) (hstate : d.state = .frameHeader) :
    d.RoundOk src drained start d.processFrameHeader := by
  have hin := h.inside
  obtain ⟨t, ht⟩ := h.unconsumed
  unfold StreamingDecoder.processFrameHeader
  split
  · exact .inl ⟨rfl, h.frameHeader_starved hstate (.inl (by assumption))⟩
  rename_i hmore
  have hpos : d.streamInputPos < src.length := by
    have := h.arrived
    unfold reach at this; unfold streamInputPos; omega
  have hne : ({ src, pos := d.streamInputPos } : Cursor).isEmpty = false := isEmpty_eq_false_iff.2 (by omega)
  split
  · -- more input behind the only frame
    rename_i hsingle
    intro out stops hc
    have := ((completing_frameHeader hstate).1 hc).1 hsingle.1 hsingle.2
    rw [hne] at this; cases this
  rename_i hsingle
  have hparse : ∀ fh, parseFrameHeaderWithFormat d.options.format d.unconsumedInput = .ok fh →
      parseFrameHeaderWithFormat d.options.format (src.drop d.streamInputPos) = .ok fh := by
    intro fh hp; rw [← ht]; exact (parseFrameHeader_incremental _).ok_append hp t
  split
  · rename_i frame hp
    have hfull := hparse _ hp
    have hiff : ∀ out stops, d.Completing src drained start out stops ↔ _ := fun out stops =>
      (completing_frameHeader hstate).trans (completes_skippable hne hfull)
    split
    · rename_i hs
      intro out stops hc
      have := ((hiff out stops).1 hc).1
      rw [hs] at this; cases this
    · rename_i hs
      have hs : d.options.singleFrame = false := by simpa using hs
      obtain ⟨hpos8, hle⟩ := FrameHeader.headerSize_pos hp
      rw [length_unconsumed] at hle
      obtain ⟨htr, hsame⟩ := h.advance (n := frame.headerSize) (by omega) (.skippable frame.size)
        (by rw [hstate]; rfl) (fun _ _ => hs) (by rintro ⟨⟩)
      refine ⟨start, htr, hsame, ?_, fun out stops => ?_⟩
      · unfold rank
        simp only [hstate, StreamingDecoder.advance]
        omega
      · rw [hiff, completing_advance]
        exact and_iff_right hs
  · rename_i header hp
    have hfull := hparse _ hp
    obtain ⟨hpos0, hle⟩ := FrameHeader.headerSize_pos hp
    rw [length_unconsumed] at hle
    have hidle := h.held.idle (by rw [hstate]; rfl)
    have hiff : ∀ out stops, d.Completing src drained start out stops ↔ _ := fun out stops =>
      (completing_frameHeader hstate).trans (completes_zstandard hne hfull
      (h.take (n := header.headerSize) (by omega)).2)
    have htotal : (d.advance header.headerSize).totalOutputSize = (d.uncompacted drained).length := h.total
    cases hs : (d.advance header.headerSize).startFrame header with
    | error e =>
      intro out stops hc
      obtain ⟨-, hadm, -⟩ := (hiff out stops).1 hc
      have := startFrame_ok_iff.2 ⟨by rw [htotal]; exact hadm, rfl⟩
      rw [hs] at this; cases this
    | ok d1 =>
      have hi : (d.advance header.headerSize).Held drained start := h.held.of_eq rfl rfl rfl fun _ => hidle
      obtain ⟨hheld, hu⟩ := hi.startFrame hidle hs .blockHeader rfl
      obtain ⟨hadm, rfl⟩ := startFrame_ok_iff.1 hs
      refine ⟨(d.uncompacted drained).length, ⟨hheld, ?_, h.input, h.arrived, ?_, fun _ => rfl, ?_, ?_, by rintro ⟨⟩⟩,
        ⟨rfl, rfl, rfl, rfl, rfl, rfl⟩, ?_, fun out stops => ?_⟩
      · show d.inputPos + header.headerSize ≤ d.input.length
        omega
      · rw [hu]; exact htotal
      · rintro n ⟨⟩
      · rintro f hf
        obtain rfl := Option.some.inj hf
        rw [hu]
        exact .opened _ _ _ _
      · unfold rank
        simp only [hstate, StreamingDecoder.advance]
        omega
      · have hsingle' : d.options.singleFrame = true → d.decodedAFrame = false := fun h1 =>
          Bool.eq_false_iff.2 fun h2 => hsingle ⟨h1, h2⟩
        rw [htotal] at hadm
        rw [hiff, and_iff_right hsingle', and_iff_right (by exact hadm)]
        unfold Completing reading
        rw [hu]
        show Completes _ _ ⟨_, { src, pos := d.inputDropped + d.inputPos + header.headerSize }, _, _⟩ _ _ ↔ _
        rw [Nat.add_assoc]
        exact Iff.rfl
  · exact .inl ⟨rfl, h.frameHeader_starved hstate (.inr (by assumption))⟩
  · rename_i e hne' hp
    intro out stops hc
    have hfull : parseFrameHeaderWithFormat d.options.format (src.drop d.streamInputPos) = .error e := by
      rw [← ht]; exact (parseFrameHeader_incremental _).error_append hp hne' t
    exact not_completes_of_error hne hfull ((completing_frameHeader hstate).1 hc)

/-! ## Inside a skippable frame -/

theorem completing_skippable {n : Nat} (hstate : d.state = .skippable n) {out : Bytes} {stops : List Nat} :
    d.Completing src drained start out stops ↔ Completes d.options d.dictionary
      ⟨.skippable n, { src, pos := d.streamInputPos }, d.uncompacted drained, d.decodedAFrame⟩ out stops := by
  unfold Completing reading phase
  rw [hstate]

theorem Tracks.processSkippableFrame (h : Tracks src d drained start) {n : Nat} (hstate : d.state = .skippable n) :
    d.RoundOk src drained start (.ok (d.processSkippableFrame n)) := by
  have hin := h.inside
  have hs := h.multi n hstate
  unfold StreamingDecoder.processSkippableFrame
  simp only
  rcases Nat.eq_zero_or_pos n with rfl | hn
  · -- the empty frame ends here
    simp only [Nat.min_zero, Nat.sub_zero, if_true, ne_eq, not_true, decide_false]
    obtain ⟨htr, hsame⟩ := h.advance (n := 0) (by omega) .frameHeader (by rw [hstate]; rfl) (by rintro m ⟨⟩)
      (by rintro ⟨⟩)
    refine .inr ⟨start, htr, hsame, rfl, fun out stops => ?_⟩
    have hpos := h.pos_le
    have harrived := h.arrived
    rw [completing_skippable hstate, completes_stop hs (by simp only; omega)]
    refine exists_congr fun rest => and_congr
      (completing_frameHeader (d := { d.advance 0 with state := .frameHeader }) rfl).symm ?_
    have hcond : (({ src, pos := d.streamInputPos } : Cursor).isEmpty = false) = (d.streamInputPos < src.length) :=
      propext (isEmpty_eq_false_iff.trans ⟨fun h => by omega, fun h => by omega⟩)
    simp only [hcond]
    exact Iff.rfl
  rcases Nat.eq_zero_or_pos (d.input.length - d.inputPos) with hzero | hsome
  · -- none of it has arrived
    simp only [hzero, Nat.zero_min, Nat.sub_zero, if_neg (show n ≠ 0 by omega), ne_eq, not_true, decide_false]
    refine .inl ⟨?_, starved (n := n) (by omega) hin fun out stops hc => ?_⟩
    · cases d; simp only at hstate; subst hstate; rfl
    · have hc := (completing_skippable hstate).1 hc
      have hle : d.streamInputPos + n ≤ src.length := hc.2.1
      have hc := (completes_skip hn hs (le_refl n) fun _ => hle).1 hc
      exact ⟨hle, hc.stops_le⟩
  · have hk : min (d.input.length - d.inputPos) n ≠ 0 := by omega
    simp only [ne_eq, hk, not_false_eq_true, decide_true]
    have hfits := (h.take (n := min (d.input.length - d.inputPos) n) (by omega)).2
    have hle := min_le_right (d.input.length - d.inputPos) n
    have hle' := min_le_left (d.input.length - d.inputPos) n
    generalize min (d.input.length - d.inputPos) n = k at hk hfits hle hle'
    obtain ⟨htr, hsame⟩ := h.advance (n := k) (by omega)
      (if n - k = 0 then .frameHeader else .skippable (n - k)) (by rw [hstate]; split <;> rfl) (fun _ _ => hs)
      (by split <;> rintro ⟨⟩)
    refine ⟨start, htr, hsame, ?_, fun out stops => ?_⟩
    · unfold rank
      by_cases hend : n - k = 0
      · simp only [hstate, StreamingDecoder.advance, if_pos hend]; omega
      · simp only [hstate, StreamingDecoder.advance, if_neg hend]; omega
    · rw [completing_skippable hstate, completes_skip hn hs hle (fun heq => heq ▸ hfits), completing_advance]
      refine iff_of_eq ?_
      by_cases hend : n - k = 0
      · simp only [if_pos hend]; rfl
      · simp only [if_neg hend]; rfl

/-! ## Inside a frame -/

theorem phase_of_frame {frame : FrameDecodeState} (hf : d.currentFrame = some frame) :
    d.phase start = match d.state with
      | .skippable n => .skippable n
      | .frameHeader => .frameHeader
      | .blockHeader => .blockHeader ⟨frame.header, frame.entropy, start⟩
      | .blockPayload header => .blockPayload header ⟨frame.header, frame.entropy, start⟩
      | .frameChecksum => .frameChecksum ⟨frame.header, frame.entropy, start⟩ := by
  unfold phase
  rw [hf]
  cases d.state <;> rfl

theorem Tracks.processBlockHeader (h : Tracks src d drained start) (hstate : d.state = .blockHeader) :
    d.RoundOk src drained start d.processBlockHeader := by
  obtain ⟨frame, hf⟩ := Option.isSome_iff_exists.1 (h.opened (by rw [hstate]; rfl))
  have hiff : ∀ out stops, d.Completing src drained start out stops ↔ Completes d.options d.dictionary
      ⟨.blockHeader ⟨frame.header, frame.entropy, start⟩, { src, pos := d.streamInputPos }, d.uncompacted drained,
        d.decodedAFrame⟩ out stops := by
    intro out stops
    unfold Completing reading
    rw [phase_of_frame hf, hstate]
  unfold StreamingDecoder.processBlockHeader
  split
  · rename_i hshort
    refine .inl ⟨rfl, starved hshort h.inside fun out stops hc => ?_⟩
    obtain ⟨header, hle, -, hc⟩ := completes_blockHeader.1 ((hiff out stops).1 hc)
    exact ⟨hle, hc.stops_le⟩
  rename_i hlong
  obtain ⟨htake, hle⟩ := h.take hlong
  cases hp : BlockHeader.parse (d.unconsumedInput.take blockHeaderSize) with
  | error e =>
    intro out stops hc
    obtain ⟨header, -, hp', -⟩ := completes_blockHeader.1 ((hiff out stops).1 hc)
    rw [← htake, hp] at hp'; cases hp'
  | ok header =>
    obtain ⟨htr, hsame⟩ := h.advance hlong (.blockPayload header) (by rw [hstate]; rfl) (by rintro m ⟨⟩)
      (by rintro ⟨⟩)
    refine ⟨start, htr, hsame, ?_, fun out stops => ?_⟩
    · unfold rank
      simp only [hstate, StreamingDecoder.advance, blockHeaderSize] at *
      omega
    · have hphase : ({ d with state := .blockPayload header } : StreamingDecoder).phase start =
          .blockPayload header ⟨frame.header, frame.entropy, start⟩ := phase_of_frame hf
      rw [hiff, completes_blockHeader, completing_advance, hphase]
      constructor
      · rintro ⟨header', -, hp', hc⟩
        rw [← htake, hp] at hp'
        obtain rfl := Except.ok.inj hp'
        exact hc
      · intro hc
        exact ⟨header, hle, by rw [← htake]; exact hp, hc⟩

/-- A block on the decoder's buffer is a block on everything produced. -/
theorem Tracks.decodeBlock_iff (h : Tracks src d drained start) {frame : FrameDecodeState}
    (hf : d.currentFrame = some frame) {header : BlockHeader} {payload produced : Bytes} {entropy : EntropyState} :
    Zstandard.decodeBlock bytesOutput header payload (d.frameParams frame) frame.entropy d.output d.outputLimit =
        .ok (d.output ++ produced, entropy) ↔
      Zstandard.decodeBlock bytesOutput header payload
        (OpenFrame.params d.dictionary ⟨frame.header, frame.entropy, start⟩) frame.entropy (d.uncompacted drained)
        (.wholeOutput d.options.maxOutputSize) = .ok (d.uncompacted drained ++ produced, entropy) := by
  have hhist := h.held.history frame hf
  have hwin := (h.frame frame hf).window
  obtain ⟨dropped, hall⟩ := h.held.uncompacted_eq
  have hlen : d.output.length ≤ d.totalOutputSize := by rw [h.total, hall, List.length_append]; omega
  have hproduced : d.outputLimit.produced d.output.length =
      (OutputLimit.wholeOutput d.options.maxOutputSize).produced (d.uncompacted drained).length := by
    simp only [outputLimit, OutputLimit.after, OutputLimit.wholeOutput, OutputLimit.produced, ← h.total]
    omega
  have hparams : OpenFrame.params d.dictionary ⟨frame.header, frame.entropy, start⟩ =
      { d.frameParams frame with frameStart := start } := by
    simp only [OpenFrame.params, frameParams, hwin]
  have hto : LimitLe d.outputLimit d.output.length (.wholeOutput d.options.maxOutputSize)
    (d.uncompacted drained).length :=
    ⟨rfl, hproduced.ge⟩
  have hback : LimitLe (.wholeOutput d.options.maxOutputSize) (d.uncompacted drained).length d.outputLimit
      d.output.length := ⟨rfl, hproduced.le⟩
  rw [hparams]
  exact decodeBlock_same hhist hto (p := d.frameParams frame) rfl hback

theorem FrameTracks.absorb {u : Bytes} {f : FrameDecodeState} (h : FrameTracks u start f) (entropy : EntropyState)
    (produced : Bytes) : FrameTracks (u ++ produced) start (f.absorbBlockOutput entropy produced) := by
  have hle := h.start_le
  refine ⟨h.window, by rw [List.length_append]; omega, ?_, ?_⟩
  · show f.frameOutputSize + produced.length = _
    rw [h.size, List.length_append]; omega
  · show f.checksum.map _ = _
    rw [h.checksum, List.drop_append_of_le_length hle]
    by_cases hc : f.header.checksum = true
    · rw [if_pos hc, Option.map_some, Xxh64State.update_append]
      exact (if_pos hc).symm
    · rw [if_neg hc]
      exact (if_neg hc).symm

/-- A decoder that has taken in a block. -/
theorem Tracks.afterBlock (h : Tracks src d drained start) {frame : FrameDecodeState} (hf : d.currentFrame = some frame)
    (hstate : d.state.inFrame = true) {entropy : EntropyState} (hok : entropy.Ok) (produced : Bytes) :
    Tracks src (d.afterBlock frame entropy produced) drained start ∧
      (d.afterBlock frame entropy produced).uncompacted drained = d.uncompacted drained ++ produced := by
  have hpos := h.held.pos
  have hu : (d.afterBlock frame entropy produced).uncompacted drained = d.uncompacted drained ++ produced := by
    unfold uncompacted pendingOutput StreamingDecoder.afterBlock
    simp only
    rw [List.drop_append_of_le_length hpos, List.append_assoc]
  have hheld : (d.afterBlock frame entropy produced).Held drained start :=
    h.held.appended hf (by rfl) (by rfl) (show (frame.absorbBlockOutput entropy produced).entropy.Ok from hok)
      produced rfl
      rfl rfl hstate
  refine ⟨⟨hheld, h.inside, h.input, h.arrived, ?_, fun _ => rfl, h.multi, ?_, ?_⟩, hu⟩
  · rw [hu, List.length_append, ← h.total]; rfl
  · rintro f hf'
    obtain rfl := Option.some.inj hf'
    rw [hu]
    exact (h.frame frame hf).absorb entropy produced
  · rintro hs f hf'
    obtain rfl := Option.some.inj hf'
    exact h.sum hs frame hf

/-- A frame that ends. -/
theorem Tracks.finishFrame (h : Tracks src d drained start) {frame : FrameDecodeState}
    (hf : d.currentFrame = some frame) :
    match d.finishFrame with
    | .error _ => checkProduced frame.header ((d.uncompacted drained).length - start) ≠ .ok ()
    | .ok d' => checkProduced frame.header ((d.uncompacted drained).length - start) = .ok () ∧
        Tracks src { d' with state := .frameHeader } drained start ∧ Same d d' ∧
        d'.uncompacted drained = d.uncompacted drained ∧ d'.decodedAFrame = true ∧ d'.inputPos = d.inputPos := by
  have hsize := (h.frame frame hf).size
  cases hs : d.finishFrame with
  | error e =>
    intro hc
    have := finishFrame_ok_iff.2 ⟨frame, hf, by rw [hsize]; exact hc, rfl⟩
    rw [hs] at this; cases this
  | ok d' =>
    have hheld := h.held.finishFrame hs .frameHeader
    obtain ⟨frame', hf', hc, rfl⟩ := finishFrame_ok_iff.1 hs
    obtain rfl := Option.some.inj (hf.symm.trans hf')
    rw [hsize] at hc
    exact ⟨hc, ⟨hheld, h.inside, h.input, h.arrived, h.total, by rintro ⟨⟩, by rintro n ⟨⟩, by rintro f ⟨⟩,
      by rintro ⟨⟩⟩,
      ⟨rfl, rfl, rfl, rfl, rfl, rfl⟩, rfl, rfl, rfl⟩

/-- At a payload one-shot decoding takes in the block and goes on behind it. -/
theorem Tracks.completing_payload (h : Tracks src d drained start) {header : BlockHeader}
    (hstate : d.state = .blockPayload header) {frame : FrameDecodeState} (hf : d.currentFrame = some frame)
    (hlong : ¬ d.input.length - d.inputPos < header.payloadSize) {out : Bytes} {stops : List Nat} :
    d.Completing src drained start out stops ↔ ∃ produced entropy,
      Zstandard.decodeBlock bytesOutput header (d.unconsumedInput.take header.payloadSize) (d.frameParams frame)
        frame.entropy d.output d.outputLimit = .ok (d.output ++ produced, entropy) ∧
      AfterBlock d.options d.dictionary header.lastBlock ⟨frame.header, entropy, start⟩
        { src, pos := d.streamInputPos + header.payloadSize } (d.uncompacted drained ++ produced) out stops := by
  obtain ⟨htake, hle⟩ := h.take hlong
  unfold Completing reading
  rw [phase_of_frame hf, hstate]
  unfold Completes
  simp only
  rw [Cursor.readExact_of_le (by exact hle), ← htake]
  constructor
  · rintro ⟨payload, c', u, entropy, hread, hd, hafter⟩
    simp only [Except.ok.injEq, Prod.mk.injEq] at hread
    obtain ⟨rfl, rfl⟩ := hread
    obtain ⟨produced, rfl⟩ := decodeBlock_extends (by exact (h.frame frame hf).start_le) hd
    exact ⟨produced, entropy, (h.decodeBlock_iff hf).2 hd, hafter⟩
  · rintro ⟨produced, entropy, hd, hafter⟩
    exact ⟨_, _, _, entropy, rfl, (h.decodeBlock_iff hf).1 hd, hafter⟩

/-- Behind a block: the next block, the frame's checksum or its end. -/
theorem Tracks.behindBlock {d1 : StreamingDecoder} (h1 : Tracks src d1 drained start) {frame : FrameDecodeState}
    (hf : d1.currentFrame = some frame) (hin : d1.state.inFrame = true) (hsame : Same d d1)
    (hrank : 2 * (d1.input.length - d1.inputPos) < d.rank) {last : Bool}
    (hafter : ∀ out stops, d.Completing src drained start out stops ↔ AfterBlock d.options d.dictionary last
      ⟨frame.header, frame.entropy, start⟩ { src, pos := d1.streamInputPos } (d1.uncompacted drained) out stops) :
    d.RoundOk src drained start (if last then
      if d1.currentFrame.any (·.header.checksum) then .ok (true, { d1 with state := .frameChecksum }) else do
      let d2 ← d1.finishFrame
      .ok (true, { d2 with state := .frameHeader })
    else .ok (true, { d1 with state := .blockHeader })) := by
  have hopts : d1.options = d.options := hsame.options
  have hdict : d1.dictionary = d.dictionary := hsame.dictionary
  have htracks : ∀ state : DecoderState, state.inFrame = true → (∀ n, state ≠ .skippable n) →
      (state = .frameChecksum → frame.header.checksum = true) →
      Tracks src { d1 with state } drained start ∧ Same d { d1 with state } := by
    intro state hs hskip hsum
    refine ⟨⟨h1.held.of_eq rfl rfl rfl fun h => ?_, h1.inside, h1.input, h1.arrived, h1.total, fun _ => h1.opened hin,
      fun n hn => absurd hn (hskip n), h1.frame, fun h f hf' => Option.some.inj (hf.symm.trans hf') ▸ hsum h⟩,
      ⟨hsame.options, hsame.dictionary, hsame.input, hsame.inputDropped, hsame.receivedInput, hsame.finishedInput⟩⟩
    rw [show state.inFrame = false from h] at hs; cases hs
  cases last with
  | false =>
    obtain ⟨htr, hsame'⟩ := htracks .blockHeader rfl (by simp) (by rintro ⟨⟩)
    rw [if_neg (by simp)]
    refine ⟨start, htr, hsame', by unfold rank; simpa [rank] using hrank, fun out stops => ?_⟩
    rw [hafter, Completing, reading, phase_of_frame (by exact hf)]
    simp only [hopts, hdict]
    exact Iff.rfl
  | true =>
    have hany : d1.currentFrame.any (·.header.checksum) = frame.header.checksum := by rw [hf]; rfl
    rw [if_pos rfl, hany]
    split
    · rename_i hsum
      obtain ⟨htr, hsame'⟩ := htracks .frameChecksum rfl (by simp) fun _ => hsum
      refine ⟨start, htr, hsame', by unfold rank; simpa [rank] using hrank, fun out stops => ?_⟩
      rw [hafter, Completing, reading, phase_of_frame (by exact hf)]
      simp only [hopts, hdict]
      exact (and_iff_right hsum).symm
    · rename_i hsum
      have hfin := h1.finishFrame hf
      have hafter' := fun out stops => (hafter out stops).trans (afterBlocks_iff (by simpa using hsum))
      cases hs : d1.finishFrame with
      | error e =>
        rw [hs] at hfin
        exact fun out stops hc => hfin ((hafter' out stops).1 hc).1
      | ok d2 =>
        rw [hs] at hfin
        obtain ⟨hprod, htr, hsame2, hu2, hdec, hpos2⟩ := hfin
        have hpos : d2.streamInputPos = d1.streamInputPos := by
          unfold streamInputPos; rw [hsame2.inputDropped, hpos2]
        refine ⟨start, htr, ⟨hsame2.options.trans hsame.options, hsame2.dictionary.trans hsame.dictionary,
          hsame2.input.trans hsame.input, hsame2.inputDropped.trans hsame.inputDropped,
          hsame2.receivedInput.trans hsame.receivedInput, hsame2.finishedInput.trans hsame.finishedInput⟩, ?_,
          fun out stops => ?_⟩
        · unfold rank
          simp only [hsame2.input, hpos2]
          exact hrank
        · rw [hafter', and_iff_right hprod, completing_frameHeader rfl]
          show _ ↔ Completes d2.options d2.dictionary ⟨_, { src, pos := d2.streamInputPos }, d2.uncompacted drained,
            d2.decodedAFrame⟩ out stops
          rw [hsame2.options, hsame2.dictionary, hopts, hdict, hpos, hu2, hdec]

theorem Tracks.processBlockPayload (h : Tracks src d drained start) {alloc : Allocator} {header : BlockHeader}
    (hstate : d.state = .blockPayload header) : d.RoundOk src drained start (d.processBlockPayload alloc header) := by
  obtain ⟨frame, hf⟩ := Option.isSome_iff_exists.1 (h.opened (by rw [hstate]; rfl))
  have hinside := h.inside
  unfold StreamingDecoder.processBlockPayload
  split
  · rename_i hshort
    refine .inl ⟨rfl, starved hshort hinside fun out stops hc => ?_⟩
    unfold Completing reading at hc
    rw [phase_of_frame hf, hstate] at hc
    obtain ⟨payload, c', u, entropy, hread, -, hafter⟩ := hc
    obtain ⟨hle, -, rfl⟩ := Cursor.readExact_ok hread
    exact ⟨hle, hafter.stops_le⟩
  rename_i hlong
  have hiff : ∀ out stops, d.Completing src drained start out stops ↔ _ := fun out stops =>
    h.completing_payload hstate hf hlong
  obtain ⟨htr, hsame⟩ := h.advance hlong d.state rfl h.multi id
  have hok := h.held.entropy frame hf
  have hfs : frame.frameStart ≤ d.output.length := (h.held.history frame hf).le.1
  have hdecode : ∀ d', (d.advance header.payloadSize).decodeBlock alloc header
      (d.unconsumedInput.take header.payloadSize) = .ok d' ↔ _ :=
    fun d' => decodeBlock_ok_iff (d := d.advance header.payloadSize) hf hok hfs
  simp only
  cases hd : (d.advance header.payloadSize).decodeBlock alloc header (d.unconsumedInput.take header.payloadSize) with
  | error e =>
    intro out stops hc
    obtain ⟨produced, entropy, h1, -⟩ := (hiff out stops).1 hc
    rw [(hdecode _).2 ⟨produced, entropy, h1, rfl⟩] at hd
    cases hd
  | ok d1 =>
    obtain ⟨produced, entropy, h1, rfl⟩ := (hdecode d1).1 hd
    have hdecoded := decodeBlock_decoded (length_unconsumed_take hlong) (p := d.frameParams frame) hok hfs h1
    have hin : (d.advance header.payloadSize).state.inFrame = true := by show d.state.inFrame = true; rw [hstate]; rfl
    obtain ⟨htr1, hu1⟩ := Tracks.afterBlock (d := d.advance header.payloadSize) htr hf hin hdecoded.ok produced
    have hsame1 : Same d ((d.advance header.payloadSize).afterBlock frame entropy produced) :=
      ⟨rfl, rfl, rfl, rfl, rfl, rfl⟩
    refine htr1.behindBlock rfl hin hsame1 ?_ fun out stops => ?_
    · have hrank : d.rank = 2 * (d.input.length - d.inputPos) + 1 := by unfold rank; rw [hstate]
      show 2 * (d.input.length - (d.inputPos + header.payloadSize)) < d.rank
      omega
    · rw [hiff, hu1]
      have hpos : StreamingDecoder.streamInputPos ((d.advance header.payloadSize).afterBlock frame entropy produced) =
          d.streamInputPos + header.payloadSize := (Nat.add_assoc _ _ _).symm
      rw [hpos]
      constructor
      · rintro ⟨produced', entropy', h2, hafter⟩
        obtain ⟨hp, rfl⟩ := Prod.mk.inj (Except.ok.inj (h1.symm.trans h2))
        obtain rfl := List.append_cancel_left hp
        exact hafter
      · intro hafter
        exact ⟨produced, entropy, h1, hafter⟩

theorem Tracks.processFrameChecksum (h : Tracks src d drained start) (hstate : d.state = .frameChecksum) :
    d.RoundOk src drained start d.processFrameChecksum := by
  obtain ⟨frame, hf⟩ := Option.isSome_iff_exists.1 (h.opened (by rw [hstate]; rfl))
  have hsum := h.sum hstate frame hf
  have hiff : ∀ out stops, d.Completing src drained start out stops ↔ Completes d.options d.dictionary
      ⟨.frameChecksum ⟨frame.header, frame.entropy, start⟩, { src, pos := d.streamInputPos }, d.uncompacted drained,
        d.decodedAFrame⟩ out stops := by
    intro out stops
    unfold Completing reading
    rw [phase_of_frame hf, hstate]
  have hiff := fun out stops => (hiff out stops).trans (completes_frameChecksum hsum)
  unfold StreamingDecoder.processFrameChecksum
  split
  · rename_i hshort
    refine .inl ⟨rfl, starved hshort h.inside fun out stops hc => ?_⟩
    obtain ⟨hle, -, -, hc⟩ := (hiff out stops).1 hc
    exact ⟨hle, hc.stops_le⟩
  rename_i hlong
  obtain ⟨htake, hle⟩ := h.take hlong
  obtain ⟨htr, -⟩ := h.advance hlong d.state rfl h.multi id
  have hread : Zstandard.readU32Le d.unconsumedInput = Zstandard.readU32Le (src.drop d.streamInputPos) := by
    unfold Zstandard.readU32Le; rw [htake]
  have hverify : d.verifyFrameChecksum frame (Zstandard.readU32Le d.unconsumedInput) = .ok () ↔
      (d.options.verifyChecksum = true → checkChecksum (Zstandard.readU32Le (src.drop d.streamInputPos))
        (frameChecksum ((d.uncompacted drained).drop start)) = .ok ()) := by
    unfold verifyFrameChecksum
    rw [(h.frame frame hf).checksum, if_pos hsum, hread]
    split
    · rename_i hv
      constructor
      · exact fun hc _ => hc
      · exact fun hc => hc hv
    · rename_i hv; exact ⟨fun _ hv' => absurd hv' hv, fun _ => rfl⟩
  simp only [hf]
  cases hv : d.verifyFrameChecksum frame (Zstandard.readU32Le d.unconsumedInput) with
  | error e =>
    intro out stops hc
    obtain ⟨-, hcheck, -⟩ := (hiff out stops).1 hc
    rw [hverify.2 hcheck] at hv; cases hv
  | ok _ =>
    have hcheck := hverify.1 hv
    have hfin := Tracks.finishFrame (d := d.advance 4) htr hf
    simp only [ok_bind]
    cases hs : (d.advance 4).finishFrame with
    | error e =>
      rw [hs] at hfin
      exact fun out stops hc => hfin ((hiff out stops).1 hc).2.2.1
    | ok d2 =>
      rw [hs] at hfin
      obtain ⟨hprod, htr2, hsame2, hu2, hdec, hpos2⟩ := hfin
      have hpos : d2.streamInputPos = d.streamInputPos + 4 := by
        unfold streamInputPos
        rw [hsame2.inputDropped, hpos2]
        exact (Nat.add_assoc _ _ _).symm
      refine ⟨start, htr2, ⟨hsame2.options, hsame2.dictionary, hsame2.input, hsame2.inputDropped, hsame2.receivedInput,
        hsame2.finishedInput⟩, ?_, fun out stops => ?_⟩
      · unfold rank
        simp only [hsame2.input, hpos2, StreamingDecoder.advance, hstate]
        omega
      · rw [hiff, and_iff_right hle, and_iff_right hcheck, and_iff_right (by exact hprod), completing_frameHeader rfl]
        show _ ↔ Completes d2.options d2.dictionary ⟨_, { src, pos := d2.streamInputPos }, d2.uncompacted drained,
          d2.decodedAFrame⟩ out stops
        rw [hsame2.options, hsame2.dictionary, hpos, hu2, hdec]
        exact Iff.rfl

/-- One round, from any state. -/
theorem Tracks.processStep (h : Tracks src d drained start) (alloc : Allocator) :
    d.RoundOk src drained start (d.processStep alloc) := by
  unfold StreamingDecoder.processStep
  cases hstate : d.state with
  | frameHeader => exact h.processFrameHeader hstate
  | skippable remaining => exact h.processSkippableFrame hstate
  | blockHeader => exact h.processBlockHeader hstate
  | blockPayload header => exact h.processBlockPayload hstate
  | frameChecksum => exact h.processFrameChecksum hstate

end StreamingDecoder

end Zstandard
