/-
Streaming decoders that only fail, and what one round does to any other.

A step that fails before it has taken its input fails again, and so does a block whose size alone is too much
and a frame that is over. Three steps take their input first and can be taken again with other input: opening
a frame, decoding a compressed block and comparing a checksum. Those are the wasted rounds.
-/
import Zstandard.Decode.Kept

namespace Zstandard

namespace StreamingDecoder

/-! ## A decoder that only fails -/

/-- A block of this header is rejected whatever its payload is. -/
def RefusesBlock (d : StreamingDecoder) (header : BlockHeader) (frame : FrameDecodeState) : Prop :=
  if header.blockType = .compressed then header.payloadSize < 2
  else header.blockSize > frame.header.blockSizeMax ∨
    ∃ max ∈ d.options.maxOutputSize, d.totalOutputSize + header.blockSize > max

/-- No checksum completes this frame. -/
def RefusesChecksum (d : StreamingDecoder) (frame : FrameDecodeState) : Prop :=
  (d.options.verifyChecksum ∧ frame.checksum = none) ∨ ∃ e, checkProduced frame.header frame.frameOutputSize = .error e

/-- No round makes progress, whatever is pushed. -/
def Refusing (d : StreamingDecoder) : Prop :=
  match d.state with
  | .frameHeader => d.inputPos < d.input.length ∧ ((d.options.singleFrame ∧ d.decodedAFrame) ∨
      (∃ e ≠ Error.unexpectedEof, parseFrameHeaderWithFormat d.options.format d.unconsumedInput = .error e) ∨
      (d.options.singleFrame ∧
        ∃ frame, parseFrameHeaderWithFormat d.options.format d.unconsumedInput = .ok (.skippable frame)))
  | .skippable _ => False
  | .blockHeader => blockHeaderSize ≤ d.input.length - d.inputPos ∧
      ∃ e, BlockHeader.parse (d.unconsumedInput.take blockHeaderSize) = .error e
  | .blockPayload header => ∀ frame ∈ d.currentFrame, d.RefusesBlock header frame
  | .frameChecksum => ∀ frame ∈ d.currentFrame, d.RefusesChecksum frame

/-- What every round keeps: the read position is inside the input, and the buffer holds nothing that was not
counted. -/
structure Healthy (d : StreamingDecoder) : Prop where
  inside : d.inputPos ≤ d.input.length
  total : d.output.length ≤ d.totalOutputSize

/-- A decoder that will not decode any more, or whose input is over and incomplete. -/
structure Stuck (d : StreamingDecoder) : Prop where
  healthy : d.Healthy
  refuses : d.Refusing ∨ d.finishedInput ∧ ∃ e, d.finishStatus = .error e

/-- The output is as it was, and so is whether the input is over. -/
structure OutputKept (d d' : StreamingDecoder) : Prop where
  output : d'.output = d.output
  outputPos : d'.outputPos = d.outputPos
  total : d'.totalOutputSize = d.totalOutputSize
  finishedInput : d'.finishedInput = d.finishedInput

theorem OutputKept.refl (d : StreamingDecoder) : OutputKept d d := ⟨rfl, rfl, rfl, rfl⟩

section Rounds

variable {alloc : Allocator} {left : Leftover} {d d' : StreamingDecoder} {header : BlockHeader} {payload : Bytes}
  {frame : FrameDecodeState}

theorem error_bind_ok_iff {A B : Type} {x : Result A} {f : A → B} :
    (∃ e, (do let a ← x; .ok (f a)) = (.error e : Result B)) ↔ ∃ e, x = .error e := by
  cases x with
  | error e => exact iff_of_true ⟨e, rfl⟩ ⟨e, rfl⟩
  | ok a => exact iff_of_false (by rintro ⟨e, he⟩; cases he) (by rintro ⟨e, he⟩; cases he)

/-- Raw and run-length blocks are rejected for their size, or for the cap on the output. -/
theorem plainBlock_error_iff (hplain : header.blockType ≠ .compressed) (hp : payload.length = header.payloadSize)
    (p : FrameParams) (st : EntropyState) (b : Bytes) (limit : OutputLimit) :
    (∃ e, Zstandard.decodeBlock (decodeOutput alloc) header payload p st (.growable b) limit = .error e) ↔
      header.blockSize > p.blockSizeMax ∨ ∃ e, limit.checkTotal (b.length + header.blockSize) = .error e := by
  unfold BlockHeader.payloadSize at hp
  unfold Zstandard.decodeBlock
  cases ht : header.blockType with
  | compressed => exact absurd ht hplain
  | raw =>
    simp only [ht] at hp ⊢
    by_cases hsize : header.blockSize > p.blockSizeMax
    · rw [if_pos hsize]
      exact iff_of_true ⟨_, rfl⟩ (.inl hsize)
    · rw [if_neg hsize, or_iff_right hsize, ← hp]
      exact error_bind_ok_iff.trans error_bind_ok_iff
  | rle =>
    simp only [ht] at hp ⊢
    by_cases hsize : header.blockSize > p.blockSizeMax
    · rw [if_pos hsize]
      exact iff_of_true ⟨_, rfl⟩ (.inl hsize)
    · obtain ⟨byte, rfl⟩ := List.length_eq_one_iff.1 hp
      rw [if_neg hsize, or_iff_right hsize]
      exact error_bind_ok_iff.trans error_bind_ok_iff

theorem decodeRawOrRleSize_pos {src : Bytes} {sizeFormat n m : Nat}
    (h : decodeRawOrRleSize src sizeFormat = .ok (n, m)) :
    1 ≤ n := by
  unfold decodeRawOrRleSize at h
  split at h <;>
  · obtain ⟨_, -, h⟩ := bind_ok h
    cases h
    omega

theorem decodeLiteralsSectionInto_pos {src : Bytes} {state state' : LiteralsState} {blockSizeMax n : Nat}
    {literals : DecodedLiterals} (h : decodeLiteralsSectionInto src state blockSizeMax = .ok (n, literals, state')) :
    1 ≤ n := by
  unfold decodeLiteralsSectionInto at h
  obtain ⟨header0, -, h⟩ := bind_ok h
  simp only at h
  split at h
  · obtain ⟨⟨size, l⟩, hraw, h⟩ := bind_ok h
    cases h
    unfold decodeRawLiteralsInto at hraw
    obtain ⟨⟨headerSize, regeneratedSize⟩, hsize, hraw⟩ := bind_ok hraw
    obtain ⟨_, -, hraw⟩ := bind_ok hraw
    have := decodeRawOrRleSize_pos hsize
    simp only at hraw
    split at hraw
    · cases hraw
    split at hraw <;> cases hraw <;> omega
  · obtain ⟨⟨size, l⟩, hrle, h⟩ := bind_ok h
    cases h
    unfold decodeRleLiteralsInto at hrle
    obtain ⟨⟨headerSize, regeneratedSize⟩, -, hrle⟩ := bind_ok hrle
    obtain ⟨_, -, hrle⟩ := bind_ok hrle
    obtain ⟨_, -, hrle⟩ := bind_ok hrle
    cases hrle
    omega
  · unfold decodeHuffmanLiteralsInto at h
    obtain ⟨header, hheader, h⟩ := bind_ok h
    obtain ⟨_, -, h⟩ := bind_ok h
    obtain ⟨payload, -, h⟩ := bind_ok h
    obtain ⟨⟨_, _⟩, -, h⟩ := bind_ok h
    obtain ⟨streams, -, h⟩ := bind_ok h
    simp only at h
    -- an empty payload is refused with its header
    have hsize : header.compressedSize ≠ 0 := by
      unfold decodeCompressedLiteralsHeader at hheader
      obtain ⟨header', -, hheader⟩ := bind_ok hheader
      split at hheader
      · cases hheader
      split at hheader <;> cases hheader
      assumption
    split at h
    · cases h
    split at h <;>
    · obtain ⟨_, -, h⟩ := bind_ok h
      cases h
      omega

/-- A compressed block needs a literals header and the count of its sequences. -/
theorem compressedBlock_short {σ : Type} {o : Output σ} (hp : payload.length < 2) (p : FrameParams) (st : EntropyState)
    (out : σ) (limit : OutputLimit) : ∃ e, decodeCompressedBlockInto o payload p st out limit = .error e := by
  unfold decodeCompressedBlockInto
  cases hl : decodeLiteralsSectionInto payload st.literals p.blockSizeMax with
  | error e => exact ⟨e, rfl⟩
  | ok r =>
    obtain ⟨n, literals, ls⟩ := r
    have hn := decodeLiteralsSectionInto_pos hl
    rw [ok_bind]
    simp only
    split
    · exact ⟨_, rfl⟩
    cases hs : getFrom payload n with
    | error e => exact ⟨e, rfl⟩
    | ok rest =>
      obtain ⟨hle, rfl⟩ := getFrom_ok hs
      have hempty : payload.drop n = [] := List.drop_eq_nil_of_le (by omega)
      rw [hempty]
      exact ⟨.unexpectedEof, rfl⟩

/-- A block is rejected whatever it holds exactly when it is one of those. -/
theorem refusesBlock_iff (hd : d.Healthy) (hf : d.currentFrame = some frame) (hp : payload.length = header.payloadSize)
    (hclean : header.blockType = .compressed → header.payloadSize < 2) :
    (∃ e, d.decodeBlock alloc header payload = .error e) ↔ d.RefusesBlock header frame := by
  have htotal := hd.total
  unfold StreamingDecoder.decodeBlock RefusesBlock
  rw [hf]
  refine error_bind_ok_iff.trans ?_
  by_cases hplain : header.blockType = .compressed
  · rw [if_pos hplain]
    refine iff_of_true ?_ (hclean hplain)
    unfold Zstandard.decodeBlock
    simp only [hplain]
    exact compressedBlock_short (by rw [hp]; exact hclean hplain) _ _ _ _
  · rw [if_neg hplain, plainBlock_error_iff hplain hp]
    have hproduced : d.outputLimit.produced (d.output.length + header.blockSize) =
      d.totalOutputSize + header.blockSize := by
      show d.totalOutputSize - d.output.length + (d.output.length + header.blockSize) = _
      omega
    refine or_congr Iff.rfl ?_
    rw [show (∃ e, d.outputLimit.checkTotal (d.output.length + header.blockSize) = .error e) ↔
      ¬ d.outputLimit.checkTotal (d.output.length + header.blockSize) = .ok () by
        cases d.outputLimit.checkTotal (d.output.length + header.blockSize) <;> simp, checkTotal_ok_iff, hproduced]
    simp [outputLimit, OutputLimit.after]

/-! ### What one round does -/

theorem Healthy.advance (hd : d.Healthy) {n : Nat} (hn : ¬ d.input.length - d.inputPos < n) :
    (d.advance n).Healthy := by
  have := hd.inside
  exact ⟨by show d.inputPos + n ≤ d.input.length; omega, hd.total⟩

theorem Healthy.compactInput (hd : d.Healthy) : d.compactInput.Healthy := by
  obtain ⟨k, hk, heq⟩ := d.compactInput_eq
  have := hd.inside
  rw [heq]
  exact ⟨by simp only [List.length_drop]; omega, hd.total⟩

theorem rank_compactInput (d : StreamingDecoder) : d.compactInput.rank = d.rank := by
  obtain ⟨k, hk, heq⟩ := d.compactInput_eq
  rw [heq]
  unfold rank
  simp only [List.length_drop]
  omega

variable (alloc) in
/-- What a round may do to a decoder in order: go on with less to read, wait, or fail for good, unless it is
wasted. -/
def RoundKept (d : StreamingDecoder) : Result Bool × StreamingDecoder → Prop
  | (.ok true, d') => d'.Healthy ∧ d'.finishedInput = d.finishedInput ∧ d'.rank < d.rank
  | (.ok false, d') => d'.Healthy ∧ OutputKept d d'
  | (.error _, d') => d.Wasted alloc ∨ (d'.Healthy ∧ d'.Refusing ∧ d'.finishedInput = d.finishedInput)

theorem Healthy.waits (hd : d.Healthy) : RoundKept alloc d (.ok false, d) := ⟨hd, .refl d⟩

theorem Healthy.processFrameHeaderKept (hd : d.Healthy) (hs : d.state = .frameHeader) :
    RoundKept alloc d d.processFrameHeaderKept := by
  have hin := hd.inside
  unfold StreamingDecoder.processFrameHeaderKept
  by_cases hend : d.inputPos = d.input.length
  · rw [if_pos hend]; exact hd.waits
  rw [if_neg hend]
  -- an error that leaves the input where it is comes back
  have hfail : ∀ e, ((d.options.singleFrame ∧ d.decodedAFrame) ∨
      (∃ e ≠ Error.unexpectedEof, parseFrameHeaderWithFormat d.options.format d.unconsumedInput = .error e) ∨
      (d.options.singleFrame ∧
        ∃ frame, parseFrameHeaderWithFormat d.options.format d.unconsumedInput = .ok (.skippable frame))) →
      RoundKept alloc d (.error e, d) := by
    refine fun e h => .inr ⟨hd, ?_, rfl⟩
    unfold Refusing
    rw [hs]
    exact ⟨by omega, h⟩
  by_cases hsingle : d.options.singleFrame ∧ d.decodedAFrame
  · rw [if_pos hsingle]; exact hfail _ (.inl hsingle)
  rw [if_neg hsingle]
  have hlen := length_unconsumed d
  cases hp : parseFrameHeaderWithFormat d.options.format d.unconsumedInput with
  | error e =>
    cases e
    case unexpectedEof => exact hd.waits
    all_goals exact hfail _ (.inr (.inl ⟨_, by simp, hp⟩))
  | ok fh =>
    cases fh with
    | skippable frame =>
      obtain ⟨h0, hle⟩ := FrameHeader.headerSize_pos hp
      simp only
      split
      · exact hfail _ (.inr (.inr ⟨by assumption, frame, hp⟩))
      · have hadv := hd.advance (n := frame.headerSize) (by omega)
        refine ⟨⟨hadv.inside, hadv.total⟩, rfl, ?_⟩
        unfold rank StreamingDecoder.advance
        simp only [hs]
        omega
    | zstandard header =>
      obtain ⟨h0, hle⟩ := FrameHeader.headerSize_pos hp
      simp only
      have hadv := hd.advance (n := header.headerSize) (by omega)
      cases hstart : (d.advance header.headerSize).startFrame header with
      | error e =>
        left
        unfold Wasted
        rw [hs]
        cases hpermit : admitFrame d.dictionary d.options header d.totalOutputSize with
        | error e' => exact ⟨header, e', hend, hsingle, hp, hpermit⟩
        | ok _ =>
          have := (startFrame_ok_iff (d := d.advance header.headerSize)).2 ⟨hpermit, rfl⟩
          rw [this] at hstart
          cases hstart
      | ok d' =>
        obtain ⟨-, rfl⟩ := startFrame_ok_iff.1 hstart
        refine ⟨⟨hadv.inside, ?_⟩, rfl, ?_⟩
        · refine le_trans ?_ hd.total
          show (d.advance header.headerSize).compactBetweenFrames.output.length ≤ d.output.length
          unfold compactBetweenFrames
          split
          · simp [StreamingDecoder.advance]
          · rfl
        · unfold rank StreamingDecoder.advance
          simp only [hs]
          omega

theorem Healthy.processBlockHeaderKept (hd : d.Healthy) (hs : d.state = .blockHeader) :
    RoundKept alloc d d.processBlockHeaderKept := by
  have hin := hd.inside
  unfold StreamingDecoder.processBlockHeaderKept
  split
  · exact hd.waits
  rename_i hn
  cases hp : BlockHeader.parse (d.unconsumedInput.take blockHeaderSize) with
  | error e =>
    refine .inr ⟨hd, ?_, rfl⟩
    unfold Refusing
    rw [hs]
    exact ⟨by omega, e, hp⟩
  | ok header =>
    have hadv := hd.advance hn
    refine ⟨⟨hadv.inside, hadv.total⟩, rfl, ?_⟩
    unfold rank StreamingDecoder.advance
    unfold blockHeaderSize at hn ⊢
    simp only [hs]
    omega

/-- The end of a frame goes on, or leaves a decoder without a frame. -/
theorem endFrameKept_spec (d : StreamingDecoder) :
    (∃ frame, d.currentFrame = some frame ∧ checkProduced frame.header frame.frameOutputSize = .ok () ∧
      d.endFrameKept = (.ok true, { d with currentFrame := none, decodedAFrame := true, state := .frameHeader })) ∨
    ∃ e, d.endFrameKept = (.error e, { d with currentFrame := none }) := by
  unfold StreamingDecoder.endFrameKept finishFrameKept
  cases hf : d.finishFrame with
  | error e => exact .inr ⟨e, rfl⟩
  | ok d' =>
    obtain ⟨frame, hframe, hsize, rfl⟩ := finishFrame_ok_iff.1 hf
    exact .inl ⟨frame, hframe, hsize, rfl⟩

/-- A decoder without a frame refuses what should come inside one. -/
theorem refusing_of_no_frame (hf : d.currentFrame = none) (hs : (∃ header, d.state = .blockPayload header) ∨
    d.state = .frameChecksum) : d.Refusing := by
  unfold Refusing
  rcases hs with ⟨header, hs⟩ | hs <;>
  · rw [hs]
    simp [hf]

theorem decodeBlock_leaves (hd : d.Healthy) (h : d.decodeBlock alloc header payload = .ok d') :
    ∃ output frame total, output.length ≤ total ∧
      d' = { d with output := output, currentFrame := some frame, totalOutputSize := total } := by
  unfold StreamingDecoder.decodeBlock at h
  cases hf : d.currentFrame with
  | none => rw [hf] at h; cases h
  | some frame =>
    rw [hf] at h
    obtain ⟨⟨out, entropy⟩, -, h⟩ := bind_ok h
    cases h
    refine ⟨_, _, _, ?_, rfl⟩
    have := hd.total
    simp only [List.length_drop]
    omega

theorem Healthy.processBlockPayloadKept (hd : d.Healthy) (hs : d.state = .blockPayload header) :
    RoundKept alloc d (d.processBlockPayloadKept alloc left header) := by
  have hin := hd.inside
  unfold StreamingDecoder.processBlockPayloadKept
  split
  · exact hd.waits
  rename_i hn
  have hadv := hd.advance hn
  have hpayload : (d.unconsumedInput.take header.payloadSize).length = header.payloadSize := by
    rw [List.length_take, length_unconsumed]; omega
  simp only
  cases hb : (d.advance header.payloadSize).decodeBlock alloc header (d.unconsumedInput.take header.payloadSize) with
  | error e =>
    unfold decodeBlockKept
    rw [hb]
    simp only
    cases hf : d.currentFrame with
    | none =>
      rw [if_neg (by
        rintro ⟨-, h, -⟩
        rw [show (d.advance header.payloadSize).currentFrame = none from hf] at h
        cases h)]
      exact .inr ⟨hadv, refusing_of_no_frame hf (.inl ⟨header, hs⟩), rfl⟩
    | some frame =>
      by_cases hbad : header.blockType = .compressed ∧ 2 ≤ header.payloadSize
      · left
        unfold Wasted
        rw [hs]
        exact ⟨hbad.1, hbad.2, by omega, by rw [hf]; rfl, e, hb⟩
      · rw [if_neg (by rw [hpayload]; exact fun h => hbad ⟨h.1, h.2.2⟩)]
        refine .inr ⟨hadv, ?_, rfl⟩
        have hrefuses := (@refusesBlock_iff alloc _ _ _ _ hadv
          (show (d.advance header.payloadSize).currentFrame = some frame from hf)
          hpayload (fun h => by by_contra hge; exact hbad ⟨h, by omega⟩)).1 ⟨e, hb⟩
        unfold Refusing
        rw [show (d.advance header.payloadSize).state = .blockPayload header from hs]
        intro frame' hf'
        rw [show (d.advance header.payloadSize).currentFrame = some frame from hf] at hf'
        cases hf'
        exact hrefuses
  | ok d' =>
    obtain ⟨output, frame, total, htotal, rfl⟩ := decodeBlock_leaves hadv hb
    unfold decodeBlockKept
    rw [hb]
    have hrank : ∀ d1 : StreamingDecoder, d1.input = d.input → d1.inputPos = d.inputPos + header.payloadSize →
        (∀ h, d1.state ≠ .blockPayload h) → d1.rank < d.rank := by
      intro d1 hinput hpos hstate
      unfold rank
      rw [hs, hinput, hpos]
      split
      · exact absurd (by assumption) (hstate _)
      · omega
    simp only
    split
    · split
      · exact ⟨⟨hadv.inside, htotal⟩, rfl, hrank _ rfl rfl fun _ => nofun⟩
      · rcases endFrameKept_spec { d.advance header.payloadSize with
          output := output, currentFrame := some frame, totalOutputSize := total } with ⟨_, -, -, heq⟩ | ⟨e, heq⟩
        · rw [heq]
          exact ⟨⟨hadv.inside, htotal⟩, rfl, hrank _ rfl rfl fun _ => nofun⟩
        · rw [heq]
          exact .inr ⟨⟨hadv.inside, htotal⟩, refusing_of_no_frame rfl (.inl ⟨header, hs⟩), rfl⟩
    · exact ⟨⟨hadv.inside, htotal⟩, rfl, hrank _ rfl rfl fun _ => nofun⟩

/-- A checksum that is refused for more than its value is refused again. -/
theorem refusesChecksum_of_error {expected : Nat} {e : Error} (hv : d.verifyFrameChecksum frame expected = .error e)
    (hbad : ¬ (frame.checksum.isSome ∧ checkProduced frame.header frame.frameOutputSize = .ok ())) :
    d.RefusesChecksum frame := by
  unfold verifyFrameChecksum at hv
  split at hv
  · rename_i hverify
    cases hsum : frame.checksum with
    | none => exact .inl ⟨hverify, hsum⟩
    | some state =>
      right
      rw [hsum] at hbad
      cases hsize : checkProduced frame.header frame.frameOutputSize with
      | error e => exact ⟨e, rfl⟩
      | ok _ => exact absurd ⟨rfl, hsize⟩ hbad
  · cases hv

theorem Healthy.processFrameChecksumKept (hd : d.Healthy) (hs : d.state = .frameChecksum) :
    RoundKept alloc d d.processFrameChecksumKept := by
  have hin := hd.inside
  unfold StreamingDecoder.processFrameChecksumKept
  split
  · exact hd.waits
  rename_i hn
  have hadv := hd.advance hn
  simp only
  cases hf : d.currentFrame with
  | none => exact .inr ⟨hadv, refusing_of_no_frame hf (.inr hs), rfl⟩
  | some frame =>
    simp only
    cases hv : d.verifyFrameChecksum frame (Zstandard.readU32Le d.unconsumedInput) with
    | error e =>
      by_cases hbad : frame.checksum.isSome ∧ checkProduced frame.header frame.frameOutputSize = .ok ()
      · left
        unfold Wasted
        rw [hs]
        exact ⟨frame, e, by omega, hf, hv, hbad⟩
      · refine .inr ⟨hadv, ?_, rfl⟩
        unfold Refusing
        rw [show (d.advance 4).state = .frameChecksum from hs]
        intro frame' hf'
        rw [show (d.advance 4).currentFrame = some frame from hf] at hf'
        cases hf'
        exact refusesChecksum_of_error hv hbad
    | ok _ =>
      simp only
      rcases endFrameKept_spec (d.advance 4) with ⟨_, -, -, heq⟩ | ⟨e, heq⟩
      · rw [heq]
        refine ⟨⟨hadv.inside, hadv.total⟩, rfl, ?_⟩
        unfold rank StreamingDecoder.advance
        simp only [hs]
        omega
      · rw [heq]
        exact .inr ⟨⟨hadv.inside, hadv.total⟩, refusing_of_no_frame rfl (.inr hs), rfl⟩

/-- What a round does, in every state. -/
theorem Healthy.processStepKept (hd : d.Healthy) : RoundKept alloc d (d.processStepKept alloc left) := by
  unfold StreamingDecoder.processStepKept
  cases hs : d.state with
  | frameHeader => exact hd.processFrameHeaderKept hs
  | skippable remaining =>
    simp only
    unfold processSkippableFrame
    simp only
    have hadv := hd.advance (n := min (d.input.length - d.inputPos) remaining) (by omega)
    by_cases h0 : min (d.input.length - d.inputPos) remaining ≠ 0
    · rw [decide_eq_true h0]
      refine ⟨⟨hadv.inside, hadv.total⟩, rfl, ?_⟩
      have := hd.inside
      unfold rank StreamingDecoder.advance
      simp only [hs]
      split
      · rename_i h
        split at h <;> cases h
      · omega
    · rw [decide_eq_false h0]
      exact ⟨⟨hadv.inside, hadv.total⟩, rfl, rfl, rfl, rfl⟩
  | blockHeader => exact hd.processBlockHeaderKept hs
  | blockPayload header => exact hd.processBlockPayloadKept hs
  | frameChecksum => exact hd.processFrameChecksumKept hs

/-! ### A stuck decoder stays stuck -/

/-- A round of a refusing decoder waits or fails, and leaves it refusing, its output as it was. -/
structure RoundRefused (d : StreamingDecoder) (r : Result Bool × StreamingDecoder) : Prop where
  stays : r.1 ≠ .ok true
  healthy : r.2.Healthy
  refusing : r.2.Refusing
  kept : OutputKept d r.2

theorem Refusing.waits (h : d.Refusing) (hd : d.Healthy) : RoundRefused d (.ok false, d) :=
  ⟨nofun, hd, h, .refl d⟩

theorem Refusing.fails (h : d.Refusing) (hd : d.Healthy) (e : Error) : RoundRefused d (.error e, d) :=
  ⟨nofun, hd, h, .refl d⟩

theorem Refusing.processFrameHeaderKept (h : d.Refusing) (hd : d.Healthy) (hs : d.state = .frameHeader) :
    RoundRefused d d.processFrameHeaderKept := by
  have h' := h
  unfold Refusing at h'
  rw [hs] at h'
  obtain ⟨hpos, h'⟩ := h'
  unfold StreamingDecoder.processFrameHeaderKept
  rw [if_neg (by omega)]
  by_cases hsingle : d.options.singleFrame ∧ d.decodedAFrame
  · rw [if_pos hsingle]; exact h.fails hd _
  rw [if_neg hsingle]
  rcases h' with h' | ⟨e, he, hp⟩ | ⟨hs, frame, hp⟩
  · exact absurd h' hsingle
  · rw [hp]
    cases e
    case unexpectedEof => exact absurd rfl he
    all_goals exact h.fails hd _
  · rw [hp]
    simp only [if_pos hs]
    exact h.fails hd _

theorem Refusing.processBlockPayloadKept (h : d.Refusing) (hd : d.Healthy) (hs : d.state = .blockPayload header) :
    RoundRefused d (d.processBlockPayloadKept alloc left header) := by
  unfold StreamingDecoder.processBlockPayloadKept
  split
  · exact h.waits hd
  rename_i hn
  have hadv := hd.advance hn
  have hpayload : (d.unconsumedInput.take header.payloadSize).length = header.payloadSize := by
    rw [List.length_take, length_unconsumed]; omega
  have hadvRefusing : (d.advance header.payloadSize).Refusing := by
    unfold Refusing at h ⊢
    rw [hs] at h
    rw [show (d.advance header.payloadSize).state = .blockPayload header from hs]
    exact h
  -- the block is rejected, and nothing but the input is taken
  suffices hblock : ∃ e, (d.advance header.payloadSize).decodeBlockKept alloc left header
      (d.unconsumedInput.take header.payloadSize) = (.error e, d.advance header.payloadSize) by
    obtain ⟨e, hblock⟩ := hblock
    simp only [hblock]
    exact ⟨nofun, hadv, hadvRefusing, rfl, rfl, rfl, rfl⟩
  unfold decodeBlockKept
  cases hf : d.currentFrame with
  | none =>
    have herror : (d.advance header.payloadSize).decodeBlock alloc header (d.unconsumedInput.take header.payloadSize) =
        .error .generic := by
      unfold StreamingDecoder.decodeBlock
      rw [show (d.advance header.payloadSize).currentFrame = none from hf]
    rw [herror]
    exact ⟨.generic, by
      rw [if_neg (by
        rintro ⟨-, h, -⟩
        rw [show (d.advance header.payloadSize).currentFrame = none from hf] at h
        cases h)]⟩
  | some frame =>
    have hframe : (d.advance header.payloadSize).currentFrame = some frame := hf
    unfold Refusing at h
    rw [hs] at h
    have hrefuses : (d.advance header.payloadSize).RefusesBlock header frame := h frame hf
    have hshort : header.blockType = .compressed → header.payloadSize < 2 := by
      intro hc
      unfold RefusesBlock at hrefuses
      rw [if_pos hc] at hrefuses
      exact hrefuses
    obtain ⟨e, herror⟩ := (@refusesBlock_iff alloc _ _ _ _ hadv hframe hpayload hshort).2 hrefuses
    rw [herror]
    refine ⟨e, ?_⟩
    rw [if_neg (by rw [hpayload]; rintro ⟨hc, -, h2⟩; have := hshort hc; omega)]

theorem Refusing.processFrameChecksumKept (h : d.Refusing) (hd : d.Healthy) (hs : d.state = .frameChecksum) :
    RoundRefused d d.processFrameChecksumKept := by
  unfold StreamingDecoder.processFrameChecksumKept
  split
  · exact h.waits hd
  rename_i hn
  have hadv := hd.advance hn
  have hadvRefusing : (d.advance 4).Refusing := by
    unfold Refusing at h ⊢
    rw [hs] at h
    rw [show (d.advance 4).state = .frameChecksum from hs]
    exact h
  simp only
  cases hf : d.currentFrame with
  | none => exact ⟨nofun, hadv, hadvRefusing, rfl, rfl, rfl, rfl⟩
  | some frame =>
    simp only
    cases hv : d.verifyFrameChecksum frame (Zstandard.readU32Le d.unconsumedInput) with
    | error e => exact ⟨nofun, hadv, hadvRefusing, rfl, rfl, rfl, rfl⟩
    | ok _ =>
      -- the value is right, so it is the size that is wrong
      unfold Refusing at h
      rw [hs] at h
      simp only
      rcases endFrameKept_spec (d.advance 4) with ⟨frame', hf', hsize, -⟩ | ⟨e, heq⟩
      · rw [show (d.advance 4).currentFrame = some frame from hf] at hf'
        cases hf'
        rcases h frame hf with ⟨hverify, hsum⟩ | ⟨e, he⟩
        · unfold verifyFrameChecksum at hv
          rw [if_pos hverify, hsum] at hv
          cases hv
        · rw [hsize] at he; cases he
      · rw [heq]
        exact ⟨nofun, ⟨hadv.inside, hadv.total⟩, refusing_of_no_frame rfl (.inr hs), rfl, rfl, rfl, rfl⟩

theorem Refusing.processStepKept (h : d.Refusing) (hd : d.Healthy) : RoundRefused d (d.processStepKept alloc left) := by
  unfold StreamingDecoder.processStepKept
  cases hs : d.state with
  | frameHeader => exact h.processFrameHeaderKept hd hs
  | skippable remaining => unfold Refusing at h; rw [hs] at h; exact h.elim
  | blockHeader =>
    have h' := h
    unfold Refusing at h'
    rw [hs] at h'
    obtain ⟨hlen, e, hp⟩ := h'
    simp only
    unfold StreamingDecoder.processBlockHeaderKept
    rw [if_neg (by omega), hp]
    exact h.fails hd e
  | blockPayload header => exact h.processBlockPayloadKept hd hs
  | frameChecksum => exact h.processFrameChecksumKept hd hs

/-- A refusing decoder is never at the end of a complete input. -/
theorem Refusing.finishStatus (h : d.Refusing) : ∃ e, d.finishStatus = .error e := by
  unfold StreamingDecoder.finishStatus
  split
  · exact ⟨_, rfl⟩
  split
  · exact ⟨_, rfl⟩
  rename_i hstate
  push Not at hstate
  unfold Refusing at h
  rw [hstate.2] at h
  rw [if_pos (by have := h.1; omega)]
  exact ⟨_, rfl⟩

/-! ### Between the rounds -/

theorem Healthy.feed (hd : d.Healthy) (src : Bytes) : (d.feed src).Healthy :=
  ⟨by have := hd.inside; simp only [StreamingDecoder.feed, List.length_append]; omega, hd.total⟩

theorem unconsumedInput_feed (hd : d.Healthy) (src : Bytes) :
    (d.feed src).unconsumedInput = d.unconsumedInput ++ src := by
  unfold unconsumedInput StreamingDecoder.feed
  exact List.drop_append_of_le_length hd.inside

/-- More input changes nothing: what is refused is refused for bytes already there, or whatever comes. -/
theorem Refusing.feed (h : d.Refusing) (hd : d.Healthy) (src : Bytes) : (d.feed src).Refusing := by
  have hlen : (d.feed src).input.length = d.input.length + src.length := List.length_append
  have hun := unconsumedInput_feed hd src
  have hunLen := length_unconsumed d
  unfold Refusing at h ⊢
  rw [show (d.feed src).state = d.state from rfl]
  cases hs : d.state with
  | frameHeader =>
    rw [hs] at h
    obtain ⟨hpos, h⟩ := h
    refine ⟨by show d.inputPos < _; omega, h.imp_right (Or.imp ?_ ?_)⟩
    · rintro ⟨e, he, hp⟩
      refine ⟨e, he, ?_⟩
      rw [hun]
      exact (parseFrameHeader_incremental _).error_append hp he src
    · rintro ⟨hsingle, frame, hp⟩
      refine ⟨hsingle, frame, ?_⟩
      rw [hun]
      exact (parseFrameHeader_incremental _).ok_append hp src
  | skippable remaining => rw [hs] at h; exact h
  | blockHeader =>
    rw [hs] at h
    obtain ⟨hle, h⟩ := h
    refine ⟨by show _ ≤ _ - d.inputPos; omega, ?_⟩
    rw [hun, List.take_append_of_le_length (by omega)]
    exact h
  | blockPayload header => rw [hs] at h; exact h
  | frameChecksum => rw [hs] at h; exact h

/-- What a drain may change: the buffer gets shorter, and the current frame starts earlier in it. -/
structure Drained (d d' : StreamingDecoder) : Prop where
  shorter : d'.output.length ≤ d.output.length
  same : ∃ f : Nat → Nat, d' = { d with
    output := d'.output, outputPos := d'.outputPos
    currentFrame := d.currentFrame.map fun frame => { frame with frameStart := f frame.frameStart } }

theorem Drained.of_output {output : Bytes} {outputPos : Nat} (h : output.length ≤ d.output.length) :
    Drained d { d with output, outputPos } := by
  refine ⟨h, id, ?_⟩
  cases d.currentFrame <;> rfl

theorem Drained.released {output : Bytes} {outputPos : Nat} (h : output.length ≤ d.output.length) (dropped : Nat) :
    Drained d (({ d with output, outputPos } : StreamingDecoder).releaseHistory dropped) :=
  ⟨h, (· - dropped), rfl⟩

theorem Drained.compactOutput (d : StreamingDecoder) (outputPos : Nat) :
    Drained d ({ d with outputPos } : StreamingDecoder).compactOutput := by
  unfold StreamingDecoder.compactOutput
  simp only
  split
  · exact .of_output (le_refl _)
  split
  · exact .released (Nat.zero_le _) _
  split
  · exact .of_output (le_refl _)
  split
  · exact .released (by rw [List.length_drop]; omega) _
  · exact .of_output (le_refl _)

theorem Drained.read (d : StreamingDecoder) (dstLen : Nat) : Drained d (d.read dstLen).2 := by
  unfold StreamingDecoder.read
  simp only
  split
  · exact .of_output (le_refl d.output.length)
  · exact .compactOutput d _

theorem Drained.takeOutput (d : StreamingDecoder) : Drained d d.takeOutput.2 := by
  unfold StreamingDecoder.takeOutput
  split
  · exact .of_output (Nat.zero_le d.output.length)
  · exact .compactOutput d _

theorem Healthy.drained (hd : d.Healthy) (h : Drained d d') : d'.Healthy := by
  obtain ⟨hshort, f, heq⟩ := h
  have htotal := hd.total
  rw [heq] at hshort ⊢
  exact ⟨hd.inside, hshort.trans htotal⟩

theorem Refusing.drained (h : d.Refusing) (hdrain : Drained d d') : d'.Refusing := by
  obtain ⟨-, f, heq⟩ := hdrain
  rw [heq]
  unfold Refusing at h ⊢
  cases hs : d.state with
  | frameHeader => rw [hs] at h; exact h
  | skippable remaining => rw [hs] at h; exact h
  | blockHeader => rw [hs] at h; exact h
  | blockPayload header =>
    rw [hs] at h
    rintro _ hframe
    obtain ⟨frame, hf, rfl⟩ := Option.map_eq_some_iff.1 hframe
    exact h frame hf
  | frameChecksum =>
    rw [hs] at h
    rintro _ hframe
    obtain ⟨frame, hf, rfl⟩ := Option.map_eq_some_iff.1 hframe
    exact h frame hf

theorem finishStatus_drained (hdrain : Drained d d') : d'.finishStatus = d.finishStatus := by
  obtain ⟨-, f, heq⟩ := hdrain
  rw [heq]
  unfold StreamingDecoder.finishStatus
  simp only [Option.isSome_map]

theorem Stuck.drained (h : d.Stuck) (hdrain : Drained d d') : d'.Stuck := by
  refine ⟨h.healthy.drained hdrain, h.refuses.imp (·.drained hdrain) ?_⟩
  rintro ⟨hfin, e, he⟩
  refine ⟨?_, e, (finishStatus_drained hdrain).trans he⟩
  obtain ⟨-, f, heq⟩ := hdrain
  rw [heq]
  exact hfin

end Rounds

end StreamingDecoder

end Zstandard
