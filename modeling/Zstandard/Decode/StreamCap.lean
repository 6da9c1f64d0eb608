/-
The output cap of the streaming decoder, where what has been produced and released counts as well. Two decoders run
side by side, one under the cap and one without, in the same state but for the option (`Apart`); `streamPeak` is the
most the second comes to ask for over a run of calls.
-/
import Zstandard.Decode.OutputCap
import Zstandard.Decode.Refusing

namespace Zstandard

open Simulation

/-! ## One block -/

/-- `decodeBlock`. -/
def blockPeak (header : BlockHeader) (payload : Bytes) (p : FrameParams) (st : EntropyState) (out : Bytes)
    (before : Nat) : Nat :=
  match header.blockType with
  | .raw => if header.blockSize > p.blockSizeMax then 0 else before + (out.length + payload.length)
  | .rle =>
    if header.blockSize > p.blockSizeMax then 0
    else onOk (getByte payload 0) fun _ => before + (out.length + header.blockSize)
  | .compressed => compressedPeak payload p st out before

theorem decodeBlock_capped {before cap : Nat} {out : Bytes} (header : BlockHeader) (payload : Bytes) {p : FrameParams}
    (hfs : p.frameStart ≤ out.length) (hblock : p.blockSizeMax ≤ usizeMax) (hfits : before + out.length ≤ cap)
    (st : EntropyState) :
    Capped cap Error.RefusesSize (fun x y => x = y ∧ before + y.1.length ≤ cap)
      (blockPeak header payload p st out before)
      (decodeBlock bytesOutput header payload p st out (.after before (some cap)))
      (decodeBlock bytesOutput header payload p st out (.after before none)) := by
  unfold blockPeak decodeBlock
  cases header.blockType with
  | raw =>
    dsimp only
    split
    · exact .of_error id
    refine (appendBytes_capped payload).map ?_
    rintro x y - - ⟨rfl, hlen⟩
    exact .of_ok ⟨rfl, hlen⟩
  | rle =>
    dsimp only
    split
    · exact .of_error id
    refine .bind_same (getByte_sizePlain payload 0) fun byte _ => ?_
    rw [appendRepeated_eq_appendBytes, appendRepeated_eq_appendBytes]
    have happend := @appendBytes_capped before cap out (List.replicate header.blockSize byte)
    rw [List.length_replicate] at happend
    refine happend.map ?_
    rintro x y - - ⟨rfl, hlen⟩
    exact .of_ok ⟨rfl, hlen⟩
  | compressed => exact decodeCompressedBlockInto_capped payload hfs hblock hfits st

/-! ## A block that is rejected -/

section
variable {c : ExecContext} {b : ExecBounds} {tables : SequenceTablesState} {room : Nat}

/-- What the sequences before a rejected one leave is within the budget of the block. -/
theorem rejectedFrom_le (hb : b.literalsLen = c.literals.len) : ∀ (n : Nat) {r : SequenceReader} {kept : Bytes}
    {s : ExecState Bytes}, c.frameStart ≤ s.out.length → s.out.length + s.budget ≤ room → kept.length ≤ room →
    (rejectedFrom c b tables n r kept s).length ≤ room
  | 0, r, kept, s, hfs, hroom, hkept => by
    unfold rejectedFrom
    cases hlast : executeSequence List.length (placeSpec c) b s (decodeSequence r).1 with
    | error e => exact hkept
    | ok last =>
      have hstep := executeSequence_specStep hb hfs hlast
      have := hstep.produced
      dsimp only
      omega
  | n + 1, r, kept, s, hfs, hroom, hkept => by
    unfold rejectedFrom
    cases updateStates tables (decodeSequence r).2 with
    | error e => exact hkept
    | ok next =>
      dsimp only
      cases hdone : executeSequence List.length (placeSpec c) b s (decodeSequence r).1 with
      | error e => exact hkept
      | ok done =>
        have hstep := executeSequence_specStep hb hfs hdone
        have hproduced := hstep.produced
        dsimp only
        have hkept' : (if c.matchesOutput s (decodeSequence r).1 then kept else done.out).length ≤ room := by
          split
          · exact hkept
          · omega
        split
        · exact hkept'
        · exact rejectedFrom_le hb n (hfs.trans hstep.grows) (by omega) hkept'

end

theorem exists_of_map_ok {α β : Type} {f : α → β} {x : Result α} {b : β} (h : f <$> x = .ok b) : ∃ a, f a = b := by
  cases x with
  | error e => cases h
  | ok a => exact ⟨a, Except.ok.inj h⟩

theorem getD_toOption {α : Type} {P : α → Prop} {x : Result α} {a : α} (ha : P a) (h : ∀ b, x = .ok b → P b) :
    P (x.toOption.getD a) := by
  cases x with
  | error e => exact ha
  | ok b => exact h b rfl

/-- What a rejected block leaves is within the cap. -/
theorem rejectedOutput_le {p : FrameParams} {out : Bytes} {before cap : Nat} (hfs : p.frameStart ≤ out.length)
    (hfits : before + out.length ≤ cap) (payload : Bytes) (st : EntropyState) :
    before + (rejectedOutput payload p st out (.after before (some cap))).length ≤ cap := by
  unfold rejectedOutput
  dsimp only
  refine getD_toOption (P := fun left : Bytes => before + left.length ≤ cap) hfits fun left h => ?_
  obtain ⟨⟨literalsSize, literals, _⟩, -, h⟩ := bind_ok h
  dsimp only at h
  split at h
  · cases h
  obtain ⟨rest, -, h⟩ := bind_ok h
  obtain ⟨⟨parsed, tables⟩, -, h⟩ := bind_ok h
  dsimp only at h
  split at h
  · cases h
  obtain ⟨tables', -, h⟩ := bind_ok h
  obtain ⟨remaining, hremaining, h⟩ := bind_ok h
  obtain ⟨r, -, h⟩ := bind_ok h
  cases h
  -- the budget is no more than the cap leaves
  have hroom : remaining = cap - (before + out.length) := by
    unfold OutputLimit.remaining OutputLimit.after OutputLimit.produced at hremaining
    dsimp only at hremaining
    rw [if_pos hfits] at hremaining
    exact (Except.ok.inj hremaining).symm
  have hle := @rejectedFrom_le
    { frameStart := p.frameStart, windowSize := p.windowSize, dictionary := p.dictionary, literals }
    { literalsLen := literals.len, blockRemaining := p.blockSizeMax, outputRemaining := remaining,
      limit := .after before (some cap) } tables' (cap - before) rfl (parsed.numberOfSequences - 1) r out
    { out, reps := st.reps, ip := 0, budget := min p.blockSizeMax remaining } hfs
    (by dsimp only; omega) (by omega)
  have := hle
  unfold ExecBounds.budget
  dsimp only at this ⊢
  omega

namespace StreamingDecoder

/-! ## What the uncapped decoder asks for -/

section Peaks

variable (alloc : Allocator) (d : StreamingDecoder)

/-- `processFrameHeader`. -/
def headerPeak : Nat :=
  if d.inputPos = d.input.length then 0
  else if d.options.singleFrame ∧ d.decodedAFrame then 0
  else onOk (parseFrameHeaderWithFormat d.options.format d.unconsumedInput) fun
    | .skippable _ => 0
    | .zstandard header => declaredPeak d.dictionary d.options header d.totalOutputSize

/-- `processBlockPayload`. -/
def payloadPeak (header : BlockHeader) : Nat :=
  if d.input.length - d.inputPos < header.payloadSize then 0
  else
    match d.currentFrame with
    | none => 0
    | some frame =>
      blockPeak header (d.unconsumedInput.take header.payloadSize) (d.frameParams frame) frame.entropy d.output
        (d.totalOutputSize - d.output.length)

/-- `processStep`. -/
def stepPeak : Nat :=
  match d.state with
  | .frameHeader => d.headerPeak
  | .blockPayload header => d.payloadPeak header
  | .skippable _ | .blockHeader | .frameChecksum => 0

/-- `processLoop`. -/
def processLoopPeak : Nat → StreamingDecoder → Nat
  | 0, _ => 0
  | fuel + 1, d => max d.stepPeak (onOk (d.processStep alloc) fun (progress, d) =>
      if progress then processLoopPeak fuel d.compactInput else 0)

def processPeak : Nat := processLoopPeak alloc (2 * (d.input.length - d.inputPos) + 2) d

/-- One call. -/
def callPeak : Call → Nat
  | .push src => if d.finishedInput then 0 else (d.feed src).processPeak alloc
  | .takeOutput | .read _ => 0

def callsPeak : List Call → StreamingDecoder × Bytes → Nat
  | [], _ => 0
  | call :: calls, s => max (s.1.callPeak alloc call) (onOk (call.run alloc s) (callsPeak calls))

def finishPeak : Nat := if d.finishedInput then 0 else { d with finishedInput := true }.processPeak alloc

/-- The most output a streaming decoder without a cap comes to ask for over the calls and `finish`. -/
def streamPeak (options : DecoderOptions) (dictionary : Option DecoderDictionary) (calls : List Call) : Nat :=
  let first := (StreamingDecoder.new dictionary (options.withCap none), [])
  max (callsPeak alloc calls first) (onOk (calls.foldlM (Call.run alloc) first) fun s => s.1.finishPeak alloc)

end Peaks

/-! ## Side by side -/

/-- The decoder with another cap, or with none. -/
def withCap (d : StreamingDecoder) (maxOutputSize : Option Nat) : StreamingDecoder :=
  { d with options := d.options.withCap maxOutputSize }

/-- What a decoder keeps under a cap. -/
structure BelowCap (cap : Nat) (d : StreamingDecoder) : Prop where
  fits : d.totalOutputSize ≤ cap
  frame : ∀ f ∈ d.currentFrame, f.header.blockSizeMax ≤ usizeMax

/-- The same decoder under the cap and without one. -/
def Apart (cap : Nat) (x y : StreamingDecoder) : Prop :=
  ∃ d : StreamingDecoder, x = d.withCap (some cap) ∧ y = d.withCap none ∧ d.BelowCap cap

variable {cap : Nat} {d e : StreamingDecoder} {src drained : Bytes} {start : Nat}

theorem tracks_withCap {m : Option Nat} : Tracks src (d.withCap m) drained start ↔ Tracks src d drained start := by
  constructor
  · rintro ⟨hheld, hinside, hinput, harrived, htotal, hopened, hmulti, hframe, hsum⟩
    exact ⟨hheld.of_eq rfl rfl rfl hheld.idle, hinside, hinput, harrived, htotal, hopened, hmulti, hframe, hsum⟩
  · rintro ⟨hheld, hinside, hinput, harrived, htotal, hopened, hmulti, hframe, hsum⟩
    exact ⟨hheld.of_eq rfl rfl rfl hheld.idle, hinside, hinput, harrived, htotal, hopened, hmulti, hframe, hsum⟩

/-- What is still held is part of what was produced. -/
theorem Tracks.output_le (h : Tracks src d drained start) : d.output.length ≤ d.totalOutputSize := by
  obtain ⟨dropped, hsplit⟩ := h.held.uncompacted_eq
  rw [h.total, hsplit, List.length_append]
  omega

/-! ## One round -/

theorem compactBetweenFrames_withCap (d : StreamingDecoder) (m : Option Nat) :
    (d.withCap m).compactBetweenFrames = d.compactBetweenFrames.withCap m := by
  by_cases hcompacts : d.outputPos ≠ 0 ∧ d.outputPos * 2 ≥ d.output.length
  · have hdropped : d.compactBetweenFrames = { d with output := d.output.drop d.outputPos, outputPos := 0 } :=
      if_pos hcompacts
    rw [hdropped]
    exact if_pos hcompacts
  · have hkept : d.compactBetweenFrames = d := if_neg hcompacts
    rw [hkept]
    exact if_neg hcompacts

theorem startFrame_withCap (d : StreamingDecoder) (m : Option Nat) (header : ZstandardFrameHeader) :
    (d.withCap m).startFrame header =
      admitFrame d.dictionary (d.options.withCap m) header d.totalOutputSize >>= fun _ =>
        .ok (withCap { d.compactBetweenFrames with
          currentFrame := some (.opened d.dictionary header d.compactBetweenFrames.output.length) } m) := by
  unfold startFrame
  rw [compactBetweenFrames_withCap]
  obtain ⟨output, outputPos, heq⟩ := d.compactBetweenFrames_eq
  rw [heq]
  rfl

theorem startFrame_capped (hcap : cap ≤ usizeMax) (h : d.BelowCap cap) {header : ZstandardFrameHeader}
    (hblock : header.blockSizeMax ≤ usizeMax) :
    Capped cap Error.RefusesSize (Apart cap) (declaredPeak d.dictionary
      (d.options.withCap none) header d.totalOutputSize)
      ((d.withCap (some cap)).startFrame header) ((d.withCap none).startFrame header) := by
  rw [startFrame_withCap, startFrame_withCap]
  refine (admitFrame_capped hcap header).map fun _ _ _ _ _ => .of_ok ⟨_, rfl, rfl, ?_, ?_⟩
  · obtain ⟨output, outputPos, heq⟩ := d.compactBetweenFrames_eq
    rw [heq]
    exact h.fits
  · rintro f ⟨⟩
    exact hblock

theorem processFrameHeader_capped (hcap : cap ≤ usizeMax) (h : d.BelowCap cap) :
    Capped cap Error.RefusesSize (fun x y => x.1 = y.1 ∧ Apart cap x.2 y.2) (d.withCap none).headerPeak
      (d.withCap (some cap)).processFrameHeader (d.withCap none).processFrameHeader := by
  have hpeak : (d.withCap none).headerPeak = d.headerPeak := rfl
  rw [hpeak]
  unfold headerPeak
  by_cases hend : d.inputPos = d.input.length
  · have hstop : ∀ m, (d.withCap m).processFrameHeader = .ok (false, d.withCap m) := fun m => if_pos hend
    rw [hstop, hstop, if_pos hend]
    exact .of_ok ⟨rfl, d, rfl, rfl, h⟩
  by_cases hsingle : d.options.singleFrame ∧ d.decodedAFrame
  · have hstop : ∀ m, (d.withCap m).processFrameHeader = .error (.trailingInput d.streamInputPos) :=
      fun m => (if_neg hend).trans (if_pos hsingle)
    rw [hstop, hstop, if_neg hend, if_pos hsingle]
    exact .of_error id
  have hparse : ∀ m, (d.withCap m).processFrameHeader = _ := fun m => (if_neg hend).trans (if_neg hsingle)
  have hheader : ∀ m, parseFrameHeaderWithFormat (d.withCap m).options.format (d.withCap m).unconsumedInput =
    parseFrameHeaderWithFormat d.options.format d.unconsumedInput := fun _ => rfl
  have hplain := parseFrameHeaderWithFormat_sizePlain d.options.format d.unconsumedInput
  rw [hparse, hparse, hheader, hheader, if_neg hend, if_neg hsingle]
  cases hp : parseFrameHeaderWithFormat d.options.format d.unconsumedInput with
  | error e =>
    rw [onOk_error]
    cases e with
    | unexpectedEof => exact .of_ok ⟨rfl, d, rfl, rfl, h⟩
    | _ => exact .of_error (hplain _ hp)
  | ok frame =>
    rw [onOk_ok]
    cases frame with
    | skippable frame =>
      dsimp only
      by_cases hone : d.options.singleFrame
      · have hone : ∀ m, (d.withCap m).options.singleFrame := fun _ => hone
        rw [if_pos (hone _), if_pos (hone _)]
        exact .of_error id
      · have hone : ∀ m, ¬ (d.withCap m).options.singleFrame := fun _ => hone
        rw [if_neg (hone _), if_neg (hone _)]
        exact .of_ok ⟨rfl, { d.advance frame.headerSize with state := .skippable frame.size }, rfl, rfl,
          h.fits, h.frame⟩
    | zstandard header =>
      dsimp only
      have hblock := (parseFrameHeaderWithFormat_blockSizeMax hp).trans (by decide : blockSizeMax ≤ usizeMax)
      have hadvanced : (d.advance header.headerSize).BelowCap cap := ⟨h.fits, h.frame⟩
      refine (startFrame_capped hcap hadvanced hblock).map ?_
      rintro x y - - ⟨e, rfl, rfl, he⟩
      exact .of_ok ⟨rfl, { e with state := .blockHeader }, rfl, rfl, he.fits, he.frame⟩

/-- `decode_block` on lists, its errors included. -/
theorem decodeBlock_eq_map (alloc : Allocator) {frame : FrameDecodeState} (hf : d.currentFrame = some frame)
    (hst : frame.entropy.Ok) (hfs : frame.frameStart ≤ d.output.length) (header : BlockHeader) (payload : Bytes) :
    d.decodeBlock alloc header payload =
      (fun r => d.afterBlock frame r.2 (r.1.drop d.output.length)) <$>
        Zstandard.decodeBlock bytesOutput header payload (d.frameParams frame) frame.entropy d.output
          d.outputLimit := by
  have hrel : OutputRel none (.growable d.output) d.output := ⟨rfl, rfl⟩
  have hfs' : (d.frameParams frame).frameStart ≤ d.output.length := hfs
  have hagrees := decodeBlock_agrees (decodeOutput_agrees alloc none) hrel header payload hst hfs' d.outputLimit
  cases hspec : Zstandard.decodeBlock bytesOutput header payload (d.frameParams frame) frame.entropy d.output
    d.outputLimit with
  | error e =>
    obtain ⟨e', he, hsame⟩ := hagrees.error e hspec
    unfold decodeBlock
    rw [hf]
    dsimp only
    rw [he, hsame rfl]
    rfl
  | ok r =>
    obtain ⟨out, entropy⟩ := r
    obtain ⟨produced, rfl⟩ := decodeBlock_extends hfs' hspec
    rw [map_ok]
    dsimp only
    rw [List.drop_left]
    exact (decodeBlock_ok_iff hf hst hfs).2 ⟨produced, entropy, hspec, rfl⟩

theorem decodeBlock_streamCapped (alloc : Allocator) (h : d.BelowCap cap) {frame : FrameDecodeState}
    (hf : d.currentFrame = some frame) (hst : frame.entropy.Ok) (hfs : frame.frameStart ≤ d.output.length)
    (hheld : d.output.length ≤ d.totalOutputSize) (header : BlockHeader) (payload : Bytes) :
    Capped cap Error.RefusesSize (Apart cap)
      (blockPeak header payload (d.frameParams frame) frame.entropy d.output (d.totalOutputSize - d.output.length))
      ((d.withCap (some cap)).decodeBlock alloc header payload)
      ((d.withCap none).decodeBlock alloc header payload) := by
  have hfits := h.fits
  have hlists : ∀ m, (d.withCap m).decodeBlock alloc header payload =
      (fun r => (d.afterBlock frame r.2 (r.1.drop d.output.length)).withCap m) <$>
        Zstandard.decodeBlock bytesOutput header payload (d.frameParams frame) frame.entropy d.output
          (.after (d.totalOutputSize - d.output.length) m) :=
    fun m => decodeBlock_eq_map (d := d.withCap m) alloc hf hst hfs header payload
  rw [hlists, hlists]
  refine (decodeBlock_capped header payload (p := d.frameParams frame) hfs (h.frame frame hf) (by omega)
    frame.entropy).map ?_
  rintro x ⟨out, entropy⟩ - hspec ⟨rfl, hlen⟩
  obtain ⟨produced, rfl⟩ := decodeBlock_extends (p := d.frameParams frame) hfs hspec
  refine .of_ok ⟨_, rfl, rfl, ?_, ?_⟩
  · show d.totalOutputSize + ((d.output ++ produced).drop d.output.length).length ≤ cap
    rw [List.drop_left]
    rw [List.length_append] at hlen
    omega
  · rintro f ⟨⟩
    exact h.frame frame hf

theorem finishFrame_alike (h : d.BelowCap cap) :
    Alike (Apart cap) (d.withCap (some cap)).finishFrame (d.withCap none).finishFrame := by
  unfold finishFrame
  cases hf : d.currentFrame with
  | none =>
    have hnone : ∀ m, (d.withCap m).currentFrame = none := fun _ => hf
    rw [hnone, hnone]
    exact .error _
  | some frame =>
    have hsome : ∀ m, (d.withCap m).currentFrame = some frame := fun _ => hf
    rw [hsome, hsome]
    refine .bind_same fun _ _ => .ok ⟨{ d with currentFrame := none, decodedAFrame := true }, rfl, rfl, h.fits, ?_⟩
    rintro f ⟨⟩

theorem finishFrame_sizePlain (d : StreamingDecoder) : SizePlain d.finishFrame := by
  unfold finishFrame
  cases d.currentFrame with
  | none => exact .of_error id
  | some frame => exact .bind (checkProduced_sizePlain frame.header frame.frameOutputSize) fun _ _ => .of_ok _

theorem processBlockPayload_capped (alloc : Allocator) (ht : Tracks src d drained start) (h : d.BelowCap cap)
    (header : BlockHeader) :
    Capped cap Error.RefusesSize (fun x y => x.1 = y.1 ∧ Apart cap x.2 y.2) ((d.withCap none).payloadPeak header)
      ((d.withCap (some cap)).processBlockPayload alloc header)
      ((d.withCap none).processBlockPayload alloc header) := by
  have hpeak : (d.withCap none).payloadPeak header = d.payloadPeak header := rfl
  rw [hpeak]
  unfold payloadPeak
  by_cases hwait : d.input.length - d.inputPos < header.payloadSize
  · have hstop : ∀ m, (d.withCap m).processBlockPayload alloc header = .ok (false, d.withCap m) := fun m => if_pos hwait
    rw [hstop, hstop, if_pos hwait]
    exact .of_ok ⟨rfl, d, rfl, rfl, h⟩
  have hdecode : ∀ m, (d.withCap m).processBlockPayload alloc header = (do
      let e ← ((d.advance header.payloadSize).withCap m).decodeBlock alloc header
        (d.unconsumedInput.take header.payloadSize)
      if header.lastBlock then
        if e.currentFrame.any (·.header.checksum) then .ok (true, { e with state := .frameChecksum }) else
        let e ← e.finishFrame
        .ok (true, { e with state := .frameHeader })
      else .ok (true, { e with state := .blockHeader })) := fun m => if_neg hwait
  rw [hdecode, hdecode, if_neg hwait]
  cases hf : d.currentFrame with
  | none =>
    have hnone : ∀ m payload, ((d.advance header.payloadSize).withCap m).decodeBlock alloc header payload =
        .error .generic := by
      intro m payload
      unfold decodeBlock
      rw [show ((d.advance header.payloadSize).withCap m).currentFrame = none from hf]
    rw [hnone, hnone]
    exact .of_error id
  | some frame =>
    have hadvanced : (d.advance header.payloadSize).BelowCap cap := ⟨h.fits, h.frame⟩
    refine (decodeBlock_streamCapped alloc hadvanced hf (ht.held.entropy frame hf) (ht.held.history frame hf).le.1
      ht.output_le header _).map ?_
    rintro x y - - ⟨e, rfl, rfl, he⟩
    by_cases hlast : header.lastBlock
    swap
    · rw [if_neg hlast, if_neg hlast]
      exact .of_ok ⟨rfl, { e with state := .blockHeader }, rfl, rfl, he.fits, he.frame⟩
    rw [if_pos hlast, if_pos hlast]
    by_cases hsum : e.currentFrame.any (·.header.checksum)
    · rw [if_pos (show (e.withCap (some cap)).currentFrame.any _ = true from hsum),
        if_pos (show (e.withCap none).currentFrame.any _ = true from hsum)]
      exact .of_ok ⟨rfl, { e with state := .frameChecksum }, rfl, rfl, he.fits, he.frame⟩
    rw [if_neg (show ¬ (e.withCap (some cap)).currentFrame.any _ = true from hsum),
      if_neg (show ¬ (e.withCap none).currentFrame.any _ = true from hsum)]
    refine (Capped.of_alike (Nat.zero_le cap) (finishFrame_alike he) (finishFrame_sizePlain _)).map ?_
    rintro x y - - ⟨e', rfl, rfl, he'⟩
    exact .of_ok ⟨rfl, { e' with state := .frameHeader }, rfl, rfl, he'.fits, he'.frame⟩

theorem processBlockHeader_capped (h : d.BelowCap cap) :
    Capped cap Error.RefusesSize (fun x y => x.1 = y.1 ∧ Apart cap x.2 y.2) 0
      (d.withCap (some cap)).processBlockHeader (d.withCap none).processBlockHeader := by
  by_cases hwait : d.input.length - d.inputPos < blockHeaderSize
  · have hstop : ∀ m, (d.withCap m).processBlockHeader = .ok (false, d.withCap m) := fun m => if_pos hwait
    rw [hstop, hstop]
    exact .of_ok ⟨rfl, d, rfl, rfl, h⟩
  have hread : ∀ m, (d.withCap m).processBlockHeader = (do
      let header ← BlockHeader.parse (d.unconsumedInput.take blockHeaderSize)
      .ok (true, withCap { d.advance blockHeaderSize with state := .blockPayload header } m)) := fun m => if_neg hwait
  rw [hread, hread]
  refine .of_alike (Nat.zero_le cap) ?_ (.bind (BlockHeader.parse_sizePlain _) fun _ _ => .of_ok _)
  exact .bind_same fun header _ => .ok ⟨rfl, _, rfl, rfl, h.fits, h.frame⟩

theorem verifyFrameChecksum_sizePlain (d : StreamingDecoder) (frame : FrameDecodeState) (expected : Nat) :
    SizePlain (d.verifyFrameChecksum frame expected) := by
  unfold verifyFrameChecksum
  grind

theorem processFrameChecksum_capped (h : d.BelowCap cap) :
    Capped cap Error.RefusesSize (fun x y => x.1 = y.1 ∧ Apart cap x.2 y.2) 0
      (d.withCap (some cap)).processFrameChecksum (d.withCap none).processFrameChecksum := by
  by_cases hwait : d.input.length - d.inputPos < 4
  · have hstop : ∀ m, (d.withCap m).processFrameChecksum = .ok (false, d.withCap m) := fun m => if_pos hwait
    rw [hstop, hstop]
    exact .of_ok ⟨rfl, d, rfl, rfl, h⟩
  cases hf : d.currentFrame with
  | none =>
    have hnone : ∀ m, (d.withCap m).processFrameChecksum = .error .generic := by
      intro m
      refine (if_neg hwait).trans ?_
      rw [show (d.withCap m).currentFrame = none from hf]
    rw [hnone, hnone]
    exact .of_error id
  | some frame =>
    have hverify : ∀ m, (d.withCap m).processFrameChecksum = (do
        d.verifyFrameChecksum frame (Zstandard.readU32Le d.unconsumedInput)
        let e ← ((d.advance 4).withCap m).finishFrame
        .ok (true, { e with state := .frameHeader })) := by
      intro m
      refine (if_neg hwait).trans ?_
      rw [show (d.withCap m).currentFrame = some frame from hf]
      rfl
    have hadvanced : (d.advance 4).BelowCap cap := ⟨h.fits, h.frame⟩
    rw [hverify, hverify]
    refine .of_alike (Nat.zero_le cap) ?_ ?_
    · refine .bind_same fun _ _ => (finishFrame_alike hadvanced).bind ?_
      rintro x y - - ⟨e, rfl, rfl, he⟩
      exact .ok ⟨rfl, { e with state := .frameHeader }, rfl, rfl, he.fits, he.frame⟩
    · refine .bind (verifyFrameChecksum_sizePlain d frame _) fun _ _ => ?_
      exact .bind (finishFrame_sizePlain _) fun _ _ => .of_ok _

/-- One round. -/
theorem processStep_capped (alloc : Allocator) (hcap : cap ≤ usizeMax) (ht : Tracks src d drained start)
    (h : d.BelowCap cap) :
    Capped cap Error.RefusesSize (fun x y => x.1 = y.1 ∧ Apart cap x.2 y.2) (d.withCap none).stepPeak
      ((d.withCap (some cap)).processStep alloc) ((d.withCap none).processStep alloc) := by
  have hstate : ∀ m, (d.withCap m).state = d.state := fun _ => rfl
  unfold stepPeak StreamingDecoder.processStep
  rw [hstate, hstate]
  cases d.state with
  | frameHeader => exact processFrameHeader_capped hcap h
  | skippable remaining =>
    exact .of_ok ⟨rfl, (d.processSkippableFrame remaining).2, rfl, rfl, h.fits, h.frame⟩
  | blockHeader => exact processBlockHeader_capped h
  | blockPayload header => exact processBlockPayload_capped alloc ht h header
  | frameChecksum => exact processFrameChecksum_capped h

/-! ## A run of calls -/

theorem compactInput_withCap (d : StreamingDecoder) (m : Option Nat) :
    (d.withCap m).compactInput = d.compactInput.withCap m := by
  unfold compactInput
  simp only [apply_ite (fun d => withCap d m)]
  rfl

theorem BelowCap.compactInput (h : d.BelowCap cap) : d.compactInput.BelowCap cap := by
  obtain ⟨k, -, heq⟩ := d.compactInput_eq
  rw [heq]
  exact ⟨h.fits, h.frame⟩

theorem processLoop_capped (alloc : Allocator) (hcap : cap ≤ usizeMax) : ∀ (fuel : Nat) {d : StreamingDecoder}
    {start : Nat}, Tracks src d drained start → d.BelowCap cap →
      Capped cap Error.RefusesSize (Apart cap) (processLoopPeak alloc fuel (d.withCap none))
        ((d.withCap (some cap)).processLoop alloc fuel) ((d.withCap none).processLoop alloc fuel)
  | 0, _, _, _, _ => .of_error id
  | fuel + 1, d, start, ht, h => by
    have hround := (tracks_withCap.2 ht : Tracks src (d.withCap (some cap)) drained start).processStep alloc
    unfold processLoopPeak StreamingDecoder.processLoop
    refine (processStep_capped alloc hcap ht h).bind ?_
    rintro ⟨progress, x⟩ ⟨_, y⟩ hx - ⟨hprogress, e, hxe, hye, he⟩
    obtain rfl : progress = _ := hprogress
    obtain rfl : x = e.withCap (some cap) := hxe
    obtain rfl : y = e.withCap none := hye
    rw [hx] at hround
    cases progress with
    | false => exact .of_ok ⟨e, rfl, rfl, he⟩
    | true =>
      obtain ⟨start', hte, -⟩ := hround
      have hcompacted := ((tracks_withCap.1 hte).compactInput).1
      dsimp only
      rw [if_pos rfl, if_pos rfl, if_pos rfl, compactInput_withCap, compactInput_withCap]
      exact processLoop_capped alloc hcap fuel hcompacted he.compactInput

theorem process_capped (alloc : Allocator) (hcap : cap ≤ usizeMax) (ht : Tracks src d drained start)
    (h : d.BelowCap cap) : Capped cap Error.RefusesSize (Apart cap) ((d.withCap none).processPeak alloc)
      ((d.withCap (some cap)).process alloc) ((d.withCap none).process alloc) :=
  processLoop_capped alloc hcap _ ht h

theorem compactOutput_withCap (d : StreamingDecoder) (m : Option Nat) :
    (d.withCap m).compactOutput = d.compactOutput.withCap m := by
  unfold compactOutput
  simp only [apply_ite (fun d => withCap d m)]
  rfl

theorem takeOutput_withCap (d : StreamingDecoder) (m : Option Nat) :
    (d.withCap m).takeOutput = (d.takeOutput.1, d.takeOutput.2.withCap m) := by
  by_cases hwhole : d.outputPos = 0 ∧ d.currentFrame.isNone
  · have htaken : d.takeOutput = (d.output, { d with output := [] }) := if_pos hwhole
    rw [htaken]
    exact if_pos hwhole
  · have htaken : d.takeOutput = (d.pendingOutput, { d with outputPos := d.output.length }.compactOutput) :=
      if_neg hwhole
    rw [htaken]
    refine (if_neg hwhole).trans ?_
    rw [← compactOutput_withCap]
    rfl

theorem read_withCap (d : StreamingDecoder) (m : Option Nat) (dstLen : Nat) :
    (d.withCap m).read dstLen = ((d.read dstLen).1, (d.read dstLen).2.withCap m) := by
  by_cases hnone : min dstLen d.pendingOutputLen = 0
  · have hread : d.read dstLen = ([], d) := if_pos hnone
    rw [hread]
    exact if_pos hnone
  · have hread : d.read dstLen = (d.pendingOutput.take (min dstLen d.pendingOutputLen),
      d.consumeOutput (min dstLen d.pendingOutputLen)) := if_neg hnone
    rw [hread]
    refine (if_neg hnone).trans ?_
    unfold consumeOutput
    rw [← compactOutput_withCap]
    rfl

theorem BelowCap.afterDrain (h : d.BelowCap cap) (hdrained : Drained d e) : e.BelowCap cap := by
  obtain ⟨-, f, heq⟩ := hdrained
  rw [heq]
  refine ⟨h.fits, fun g hg => ?_⟩
  obtain ⟨frame, hframe, rfl⟩ := Option.map_eq_some_iff.1 hg
  exact h.frame frame hframe

section Calls

variable {options : DecoderOptions} {dictionary : Option DecoderDictionary}

/-- One call, on a decoder under the cap that is being fed `src`. -/
theorem call_capped (alloc : Allocator) (hcap : cap ≤ usizeMax)
    (hfed : Fed (options.withCap (some cap)) dictionary src (d.withCap (some cap)) drained start) (h : d.BelowCap cap)
    (call : Call) (hcall : call.pushed <+: src.drop d.reach) :
    Capped cap Error.RefusesSize (fun x y => Apart cap x.1 y.1 ∧ x.2 = y.2) ((d.withCap none).callPeak alloc call)
      (call.run alloc (d.withCap (some cap), drained)) (call.run alloc (d.withCap none, drained)) := by
  cases call with
  | push bytes =>
    have hunfinished : d.finishedInput = false := hfed.unfinished
    have hpush : ∀ m, (d.withCap m).push alloc bytes = ((d.feed bytes).withCap m).process alloc :=
      fun m => if_neg (by rw [show (d.withCap m).finishedInput = false from hunfinished]; exact Bool.false_ne_true)
    have hpeak : (d.withCap none).callPeak alloc (.push bytes) = ((d.feed bytes).withCap none).processPeak alloc :=
      if_neg (by rw [show (d.withCap none).finishedInput = false from hunfinished]; exact Bool.false_ne_true)
    have htracks : Tracks src (d.feed bytes) drained start := tracks_withCap.1 (hfed.feed hcall).1.tracks
    rw [hpeak]
    unfold Call.run
    dsimp only
    rw [hpush, hpush]
    refine (process_capped alloc hcap htracks ⟨h.fits, h.frame⟩).map fun x y _ _ hxy => .of_ok ⟨hxy, rfl⟩
  | takeOutput =>
    unfold Call.run
    dsimp only
    rw [takeOutput_withCap, takeOutput_withCap]
    exact .of_ok ⟨⟨_, rfl, rfl, h.afterDrain (.takeOutput d)⟩, rfl⟩
  | read dstLen =>
    unfold Call.run
    dsimp only
    rw [read_withCap, read_withCap]
    exact .of_ok ⟨⟨_, rfl, rfl, h.afterDrain (.read d dstLen)⟩, rfl⟩

/-- Calls that push no more than `src`, and what is known of the decoder behind them. -/
theorem calls_capped (alloc : Allocator) (hcap : cap ≤ usizeMax) : ∀ (calls : List Call) {d : StreamingDecoder}
    {drained : Bytes} {start : Nat},
      Fed (options.withCap (some cap)) dictionary src (d.withCap (some cap)) drained start → d.BelowCap cap →
      pushedInput calls <+: src.drop d.reach →
      Capped cap Error.RefusesSize
        (fun x y => Apart cap x.1 y.1 ∧ x.2 = y.2 ∧ x.1.reach = d.reach + (pushedInput calls).length ∧
          ∃ start, Fed (options.withCap (some cap)) dictionary src x.1 x.2 start)
        (callsPeak alloc calls (d.withCap none, drained))
        (calls.foldlM (Call.run alloc) (d.withCap (some cap), drained))
        (calls.foldlM (Call.run alloc) (d.withCap none, drained))
  | [], d, drained, start, hfed, h, _ => .of_ok ⟨⟨d, rfl, rfl, h⟩, rfl, rfl, start, hfed⟩
  | call :: calls, d, drained, start, hfed, h, hpushed => by
    obtain ⟨rest, hrest⟩ := hpushed
    have hsplit : call.pushed ++ (pushedInput calls ++ rest) = src.drop d.reach := by
      rw [← List.append_assoc]
      exact hrest
    have hnext := hfed.call alloc call ⟨_, hsplit⟩
    rw [List.foldlM_cons, List.foldlM_cons]
    refine (call_capped alloc hcap hfed h call ⟨_, hsplit⟩).bind ?_
    rintro ⟨x, drainedX⟩ ⟨y, drainedY⟩ hx - ⟨⟨e, hxe, hye, he⟩, hdrained⟩
    obtain rfl : x = e.withCap (some cap) := hxe
    obtain rfl : y = e.withCap none := hye
    obtain rfl : drainedX = drainedY := hdrained
    rw [hx] at hnext
    obtain ⟨start', hfed', hreach, -⟩ := hnext
    have hreach' : e.reach = d.reach + call.pushed.length := hreach
    have hcalls := calls_capped alloc hcap calls hfed' he
      ⟨rest, by rw [hreach', ← List.drop_drop, ← hsplit, List.drop_left]⟩
    have hlength : (pushedInput (call :: calls)).length = call.pushed.length + (pushedInput calls).length :=
      List.length_append
    rw [hreach', Nat.add_assoc, ← hlength] at hcalls
    exact hcalls

theorem finishStatus_sizePlain (d : StreamingDecoder) : SizePlain d.finishStatus := by
  unfold finishStatus
  grind

theorem finish_capped (alloc : Allocator) (hcap : cap ≤ usizeMax)
    (hfed : Fed (options.withCap (some cap)) dictionary src (d.withCap (some cap)) drained start) (h : d.BelowCap cap) :
    Capped cap Error.RefusesSize (Apart cap) ((d.withCap none).finishPeak alloc) ((d.withCap (some cap)).finish alloc)
      ((d.withCap none).finish alloc) := by
  have hopen : ∀ m, ¬ (d.withCap m).finishedInput = true := by
    intro m hfinished
    exact Bool.false_ne_true (hfed.unfinished.symm.trans hfinished)
  have hfinish : ∀ m, (d.withCap m).finish alloc = (do
      let e ← (withCap { d with finishedInput := true } m).process alloc
      e.finishStatus
      .ok e) := fun m => if_neg (hopen m)
  have hpeak : (d.withCap none).finishPeak alloc = (withCap { d with finishedInput := true } none).processPeak alloc :=
    if_neg (hopen none)
  have htracks : Tracks src { d with finishedInput := true } drained start := by
    obtain ⟨hheld, hinside, hinput, harrived, htotal, hopened, hmulti, hframe, hsum⟩ := tracks_withCap.1 hfed.tracks
    exact ⟨hheld.of_eq rfl rfl rfl hheld.idle, hinside, hinput, harrived, htotal, hopened, hmulti, hframe, hsum⟩
  rw [hpeak, hfinish, hfinish]
  refine (process_capped alloc hcap htracks ⟨h.fits, h.frame⟩).map ?_
  rintro x y - - ⟨e, rfl, rfl, he⟩
  have hstatus : ∀ m, (e.withCap m).finishStatus = e.finishStatus := fun _ => rfl
  rw [hstatus, hstatus]
  refine .of_alike (Nat.zero_le cap) ?_ (.bind (finishStatus_sizePlain e) fun _ _ => .of_ok _)
  exact .bind_same fun _ _ => .ok ⟨e, rfl, rfl, he⟩

end Calls

/-- Streaming decoding under a cap. -/
theorem streamDecode_capped (alloc : Allocator) (hcap : cap ≤ usizeMax) (options : DecoderOptions)
    (dictionary : Option DecoderDictionary) (calls : List Call) :
    Capped cap Error.RefusesSize Eq (streamPeak alloc options dictionary calls)
      (streamDecode alloc (options.withCap (some cap)) dictionary calls)
      (streamDecode alloc (options.withCap none) dictionary calls) := by
  have hfirst : ∀ m, StreamingDecoder.new dictionary (options.withCap m) = (new dictionary options).withCap m :=
    fun _ => rfl
  have hbelow : (new dictionary options).BelowCap cap := ⟨Nat.zero_le cap, by rintro f ⟨⟩⟩
  have hfed : Fed (options.withCap (some cap)) dictionary (pushedInput calls)
    ((new dictionary options).withCap (some cap))
      [] 0 := Fed.new (options.withCap (some cap)) dictionary (pushedInput calls)
  unfold streamPeak streamDecode
  dsimp only
  rw [hfirst, hfirst]
  refine (calls_capped alloc hcap calls hfed hbelow (List.prefix_refl _)).bind ?_
  rintro ⟨x, drainedX⟩ ⟨y, drainedY⟩ - - ⟨⟨e, hxe, hye, he⟩, hdrained, -, start, hfed'⟩
  obtain rfl : x = e.withCap (some cap) := hxe
  obtain rfl : y = e.withCap none := hye
  obtain rfl : drainedX = drainedY := hdrained
  refine (finish_capped alloc hcap hfed' he).map ?_
  rintro x y - - ⟨e', rfl, rfl, he'⟩
  rw [takeOutput_withCap, takeOutput_withCap]
  exact .of_ok rfl

/-- What is known of the decoder under the cap behind calls that it accepts, whatever is pushed next. -/
theorem calls_fed (alloc : Allocator) (hcap : cap ≤ usizeMax) (options : DecoderOptions)
    (dictionary : Option DecoderDictionary) {calls : List Call} {drained : Bytes} (next : Bytes)
    (h : calls.foldlM (Call.run alloc) (.new dictionary (options.withCap (some cap)), []) = .ok (d, drained)) :
    ∃ (e : StreamingDecoder) (start : Nat), d = e.withCap (some cap) ∧ e.BelowCap cap ∧
      d.reach = (pushedInput calls).length ∧
      Fed (options.withCap (some cap)) dictionary (pushedInput calls ++ next) d drained start := by
  have hbelow : (new dictionary options).BelowCap cap := ⟨Nat.zero_le cap, by rintro f ⟨⟩⟩
  have hfed : Fed (options.withCap (some cap)) dictionary (pushedInput calls ++ next)
      ((new dictionary options).withCap (some cap)) [] 0 := Fed.new (options.withCap (some cap)) dictionary _
  have hcalls := calls_capped alloc hcap calls hfed hbelow (List.prefix_append _ _)
  obtain ⟨-, y, -, ⟨e, rfl, -, he⟩, -, hreach, start, hfed'⟩ := hcalls.le_of_ok h
  exact ⟨e, start, rfl, he, hreach.trans (Nat.zero_add _), hfed'⟩

/-- Over every run of calls the decoder under the cap accepts, what was produced and released is at most the cap. -/
theorem calls_below_cap (alloc : Allocator) (hcap : cap ≤ usizeMax) (options : DecoderOptions)
    (dictionary : Option DecoderDictionary) {calls : List Call} {drained : Bytes}
    (h : calls.foldlM (Call.run alloc) (.new dictionary (options.withCap (some cap)), []) = .ok (d, drained)) :
    d.totalOutputSize ≤ cap ∧ (drained ++ d.pendingOutput).length = d.totalOutputSize := by
  obtain ⟨e, start, rfl, he, -, hfed⟩ := calls_fed alloc hcap options dictionary [] h
  exact ⟨he.fits, hfed.tracks.total.symm⟩

/-! ## Calls that fail -/

section Failing

variable {d' : StreamingDecoder}

/-- What is held of the output is part of what was produced, and what is not drained yet is pending. -/
structure Accounted (drained : Bytes) (d : StreamingDecoder) : Prop where
  pos : d.outputPos ≤ d.output.length
  held : d.output.length ≤ d.totalOutputSize
  total : (drained ++ d.pendingOutput).length = d.totalOutputSize
  frame : ∀ f ∈ d.currentFrame, f.entropy.Ok ∧ f.frameStart ≤ d.output.length

theorem Tracks.accounted (h : Tracks src d drained start) : Accounted drained d :=
  ⟨h.held.pos, h.output_le, h.total.symm, fun f hf => ⟨h.held.entropy f hf, (h.held.history f hf).le.1⟩⟩

theorem Accounted.appended (h : Accounted drained d) {bytes : Bytes} {pending : Bytes}
    (hpending : pending = (d.output ++ bytes).drop d.outputPos) :
    (drained ++ pending).length = d.totalOutputSize + bytes.length := by
  rw [hpending, List.drop_append_of_le_length h.pos, ← List.append_assoc, List.length_append, ← h.total]
  rfl

theorem rejectedBytes_le (ha : Accounted drained d) (h : d.BelowCap cap) {frame : FrameDecodeState}
    (hf : d.currentFrame = some frame) (header : BlockHeader) (payload : Bytes) :
    d.totalOutputSize + ((d.withCap (some cap)).rejectedBytes frame header payload).length ≤ cap := by
  have hfits := h.fits
  have hheld := ha.held
  unfold rejectedBytes
  cases header.blockType with
  | raw => exact hfits
  | rle => exact hfits
  | compressed =>
    have hroom : d.totalOutputSize - d.output.length + d.output.length ≤ cap := by omega
    have hfs : (d.frameParams frame).frameStart ≤ d.output.length := (ha.frame frame hf).2
    have hle := rejectedOutput_le hfs hroom payload frame.entropy
    show d.totalOutputSize + ((rejectedOutput payload (d.frameParams frame) frame.entropy d.output
      (.after (d.totalOutputSize - d.output.length) (some cap))).drop d.output.length).length ≤ cap
    rw [List.length_drop]
    omega

/-- Whatever else a rejected compressed block changed, the bytes it wrote are behind the output. -/
def LeavesRejected (left : Leftover) : Prop :=
  ∀ (d : StreamingDecoder) (frame : FrameDecodeState) (header : BlockHeader) (payload : Bytes),
    d.currentFrame = some frame →
    (left d header payload).pendingOutput = (d.output ++ d.rejectedBytes frame header payload).drop d.outputPos

variable {alloc : Allocator} {left : Leftover} {e : Error}

theorem processFrameHeaderKept_left (h : d.processFrameHeaderKept = (.error e, d')) :
    d'.pendingOutput = d.pendingOutput := by
  unfold StreamingDecoder.processFrameHeaderKept at h
  have hbetween := fun n => (d.advance n).uncompacted_compactBetweenFrames []
  split at h
  · cases h
  split at h
  · cases h; rfl
  split at h
  · split at h
    · cases h; rfl
    · cases h
  · rename_i header _
    split at h
    · cases h
    · cases h
      exact hbetween header.headerSize
  · cases h
  · cases h; rfl

theorem endFrameKept_left (h : d.endFrameKept = (.error e, d')) : d'.pendingOutput = d.pendingOutput := by
  rcases d.endFrameKept_spec with ⟨frame, -, -, heq⟩ | ⟨e', heq⟩
  · rw [heq] at h; cases h
  · rw [heq] at h; cases h; rfl

theorem processFrameChecksumKept_left (h : d.processFrameChecksumKept = (.error e, d')) :
    d'.pendingOutput = d.pendingOutput := by
  unfold StreamingDecoder.processFrameChecksumKept at h
  split at h
  · cases h
  dsimp only at h
  split at h
  · cases h; rfl
  · split at h
    · cases h; rfl
    · exact endFrameKept_left (d := d.advance 4) h

/-- A block, rejected or not, leaves no more than the cap to be drained. -/
theorem decodeBlockKept_left (hleft : LeavesRejected left) (ha : Accounted drained d) (h : d.BelowCap cap)
    {header : BlockHeader} {payload : Bytes} {r : Result Unit}
    (hblock : (d.withCap (some cap)).decodeBlockKept alloc left header payload = (r, d')) :
    (drained ++ d'.pendingOutput).length ≤ cap := by
  have hfits := h.fits
  unfold decodeBlockKept at hblock
  cases hdecode : (d.withCap (some cap)).decodeBlock alloc header payload with
  | error e =>
    rw [hdecode] at hblock
    dsimp only at hblock
    split at hblock
    · rename_i hcompressed
      cases hblock
      obtain ⟨frame, hf⟩ := Option.isSome_iff_exists.1 hcompressed.2.1
      rw [ha.appended (hleft (d.withCap (some cap)) frame header payload hf)]
      exact rejectedBytes_le ha h hf header payload
    · cases hblock
      exact ha.total.trans_le hfits
  | ok d₁ =>
    rw [hdecode] at hblock
    cases hblock
    cases hf : d.currentFrame with
    | none =>
      unfold StreamingDecoder.decodeBlock at hdecode
      rw [show (d.withCap (some cap)).currentFrame = none from hf] at hdecode
      cases hdecode
    | some frame =>
      obtain ⟨hok, hfs⟩ := ha.frame frame hf
      obtain ⟨-, -, -, e, rfl, -, he⟩ := (decodeBlock_streamCapped alloc h hf hok hfs ha.held header
        payload).le_of_ok hdecode
      rw [decodeBlock_eq_map (d := d.withCap (some cap)) alloc hf hok hfs header payload] at hdecode
      obtain ⟨x, heq⟩ := exists_of_map_ok hdecode
      have hlen : (e.withCap (some cap)).totalOutputSize ≤ cap := he.fits
      rw [← heq] at hlen ⊢
      have htotal := ha.appended (show (d.output ++ x.1.drop d.output.length).drop d.outputPos = _ from rfl)
      exact htotal.trans_le hlen

/-- A round that fails leaves no more than the cap to be drained. -/
theorem processStepKept_left (hleft : LeavesRejected left) (ha : Accounted drained d) (h : d.BelowCap cap)
    (hstep : (d.withCap (some cap)).processStepKept alloc left = (.error e, d')) :
    (drained ++ d'.pendingOutput).length ≤ cap := by
  have hsame : ∀ {x : StreamingDecoder}, x.pendingOutput = d.pendingOutput →
    (drained ++ x.pendingOutput).length ≤ cap := by
    intro x hx
    rw [hx, ha.total]
    exact h.fits
  unfold processStepKept at hstep
  split at hstep
  · exact hsame (processFrameHeaderKept_left (d := d.withCap (some cap)) hstep)
  · cases hstep
  · unfold processBlockHeaderKept at hstep
    split at hstep
    · cases hstep
    split at hstep
    · cases hstep
    · cases hstep
      exact hsame rfl
  · rename_i header hstate
    unfold processBlockPayloadKept at hstep
    split at hstep
    · cases hstep
    have hadvanced : Accounted drained (d.advance header.payloadSize) := ⟨ha.pos, ha.held, ha.total, ha.frame⟩
    have hbelow : (d.advance header.payloadSize).BelowCap cap := ⟨h.fits, h.frame⟩
    dsimp only at hstep
    split at hstep
    · rename_i hblock
      cases hstep
      exact decodeBlockKept_left hleft hadvanced hbelow hblock
    · rename_i d₁ hblock
      have hle := decodeBlockKept_left hleft hadvanced hbelow hblock
      split at hstep
      · split at hstep
        · cases hstep
        · rw [endFrameKept_left hstep]
          exact hle
      · cases hstep
  · exact hsame (processFrameChecksumKept_left (d := d.withCap (some cap)) hstep)

/-- The rounds of a call leave no more than the cap to be drained, whether or not the last of them fails. -/
theorem processLoopKept_left (hcap : cap ≤ usizeMax) (hleft : LeavesRejected left) : ∀ (fuel : Nat)
    {d : StreamingDecoder} {start : Nat}, Tracks src d drained start → d.BelowCap cap →
      ∀ {r d'}, (d.withCap (some cap)).processLoopKept alloc left fuel = (r, d') →
      (drained ++ d'.pendingOutput).length ≤ cap
  | 0, d, start, ht, h, r, d', hloop => by
    cases hloop
    exact ht.accounted.total.trans_le h.fits
  | fuel + 1, d, start, ht, h, r', d', hloop => by
    unfold processLoopKept at hloop
    have hresult := processStepKept_result alloc left (d.withCap (some cap))
    cases hstep : (d.withCap (some cap)).processStepKept alloc left with
    | mk r x =>
    rw [hstep] at hloop hresult
    cases r with
    | error e₁ =>
      cases hloop
      exact processStepKept_left hleft ht.accounted h hstep
    | ok progress =>
      have hround := (tracks_withCap.2 ht : Tracks src (d.withCap (some cap)) drained start).processStep alloc
      obtain ⟨-, y, -, hapart⟩ := (processStep_capped alloc hcap ht h).le_of_ok hresult.symm
      obtain ⟨-, e', hxe, -, he⟩ := hapart
      obtain rfl : x = e'.withCap (some cap) := hxe
      rw [← hresult] at hround
      cases progress with
      | false =>
        cases hloop
        rcases hround with ⟨heq, -⟩ | ⟨start', hte, -⟩
        · exact (congrArg (fun x => (drained ++ x.pendingOutput).length) heq).trans_le
            (ht.accounted.total.trans_le h.fits)
        · exact hte.accounted.total.trans_le he.fits
      | true =>
        obtain ⟨start', hte, -⟩ := hround
        have hcompacted := ((tracks_withCap.1 hte).compactInput).1
        dsimp only at hloop
        rw [compactInput_withCap] at hloop
        exact processLoopKept_left hcap hleft fuel hcompacted he.compactInput hloop

/-- A push or a finish that fails, behind calls that the decoder under the cap accepts, leaves no more than the cap to
be drained. -/
theorem failed_below_cap (alloc : Allocator) (hcap : cap ≤ usizeMax) (options : DecoderOptions)
    (dictionary : Option DecoderDictionary) (hleft : LeavesRejected left) {calls : List Call} {drained : Bytes}
    (h : calls.foldlM (Call.run alloc) (.new dictionary (options.withCap (some cap)), []) = .ok
    (d, drained)) {e : Error}
    (hfailed : (∃ bytes, d.pushKept alloc left bytes = (.error e, d')) ∨ d.finishKept alloc left = (.error e, d')) :
    (drained ++ d'.pendingOutput).length ≤ cap := by
  rcases hfailed with ⟨bytes, hpush⟩ | hfinish
  · obtain ⟨f, start, rfl, hbelow, hreach, hfed⟩ := calls_fed alloc hcap options dictionary bytes h
    have htracks : Tracks _ (f.feed bytes) drained start :=
      tracks_withCap.1 (hfed.feed (by rw [hreach, List.drop_left])).1.tracks
    unfold pushKept at hpush
    rw [if_neg (by rw [hfed.unfinished]; exact Bool.false_ne_true)] at hpush
    exact processLoopKept_left (d := f.feed bytes) hcap hleft _ htracks ⟨hbelow.fits, hbelow.frame⟩ hpush
  · obtain ⟨f, start, rfl, hbelow, hreach, hfed⟩ := calls_fed alloc hcap options dictionary [] h
    have ht := tracks_withCap.1 hfed.tracks
    have htracks : Tracks _ { f with finishedInput := true } drained start :=
      ⟨ht.held.of_eq rfl rfl rfl ht.held.idle, ht.inside, ht.input, ht.arrived, ht.total, ht.opened, ht.multi, ht.frame,
        ht.sum⟩
    have hloop := @processLoopKept_left cap _ drained alloc left hcap hleft
      (2 * (f.input.length - f.inputPos) + 2) { f with finishedInput := true } start htracks ⟨hbelow.fits, hbelow.frame⟩
    unfold finishKept at hfinish
    rw [if_neg (by rw [hfed.unfinished]; exact Bool.false_ne_true)] at hfinish
    split at hfinish
    · rename_i hprocess
      cases hfinish
      exact hloop hprocess
    · -- the rounds were accepted, and the input ends inside a frame
      rename_i hprocess
      obtain ⟨-, rfl⟩ := Prod.mk.inj hfinish
      exact hloop hprocess

end Failing

end StreamingDecoder

open StreamingDecoder

/-- Rejected for the size of the output. -/
def SizeRejected {α : Type} (x : Result α) : Prop := ∃ e, x = .error e ∧ e.RefusesSize

/-- A frame that declares five bytes and holds none. -/
def emptyDeclared : Bytes := [0x28, 0xB5, 0x2F, 0xFD, 0x20, 0x05, 0x01, 0x00, 0x00]

/-- Two bytes under caps of two and of one. -/
example : decodeAll zeroAllocator (DecoderOptions.initial.withCap (some 2)) none twoByteFrame = .ok [0x61, 0x62] ∧
    decodeAll zeroAllocator (DecoderOptions.initial.withCap (some 1)) none twoByteFrame =
      .error (.outputSizeTooLarge 2 1) := by
  decide

end Zstandard
