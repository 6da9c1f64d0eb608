/-
The output cap of the one-shot decoder. `outputPeak` is the most the decoder without a cap comes to ask for: the
declared size of a frame, a raw or RLE block, a sequence, the literals behind the last one. Under a cap, decoding is
rejected for the size of the output exactly when that is more than the cap, and is otherwise what it is without one.

The checks of the executor go against one budget, the smaller of what is left of the block and of the cap;
`UnderCap` says how the two budgets stay together.
-/
import Zstandard.Decode.SizeErrors
import Zstandard.Decode.Slice

namespace Zstandard

open Simulation

/-! ## What the uncapped decoder asks for -/

/-- The bounds of a block's sequences. -/
def blockBounds (c : ExecContext) (blockSizeMax remaining : Nat) (limit : OutputLimit) : ExecBounds :=
  { literalsLen := c.literals.len, blockRemaining := blockSizeMax, outputRemaining := remaining, limit }

/-- The bounds where there is no cap, `before` bytes behind the start of the stream. -/
def freeBounds (c : ExecContext) (blockSizeMax before : Nat) : ExecBounds :=
  blockBounds c blockSizeMax usizeMax (.after before none)

/-- The output a sequence asks for, where neither its literals nor the size of its block reject it. -/
def sequencePeak (b : ExecBounds) (t : ExecState Bytes) (seq : RawSequence) : Nat :=
  if seq.literalLength + seq.matchLength > t.budget ∨ t.ip + seq.literalLength > b.literalsLen then 0
  else b.limit.produced (t.out.length + (seq.literalLength + seq.matchLength))

/-- `sequenceLoop`. -/
def loopPeak (c : ExecContext) (b : ExecBounds) (tables : SequenceTablesState) :
    Nat → SequenceReader → ExecState Bytes → Nat
  | 0, _, _ => 0
  | n + 1, r, t =>
    let (seq, r) := decodeSequence r
    onOk (updateStates tables r) fun r =>
      max (sequencePeak b t seq) (onOk (executeSequence List.length (placeSpec c) b t seq) fun t =>
        let (status, bitD) := r.bitD.reload
        if status = .overflow then 0 else loopPeak c b tables n { r with bitD } t)

/-- `runSequences`. -/
def runPeak (c : ExecContext) (b : ExecBounds) (tables : SequenceTablesState) (section_ : ParsedSequenceSection)
    (out : Bytes) (reps : DecoderRepeatOffsets) : Nat :=
  onOk (initSequenceReader section_.bitstream tables) fun r =>
    let t : ExecState Bytes := { out, reps, ip := 0, budget := b.budget }
    max (loopPeak c b tables (section_.numberOfSequences - 1) r t)
      (onOk (sequenceLoop (specSink c) b tables (section_.numberOfSequences - 1) r t) fun (r, t) =>
        sequencePeak b t (decodeSequence r).1)

/-- `appendTrailingSpec`. -/
def trailingPeak (before : Nat) (out literals : Bytes) (literalCursor remainingBlockBytes : Nat) : Nat :=
  if literalCursor > literals.length ∨ (literals.drop literalCursor).length > remainingBlockBytes then 0
  else before + (out.length + (literals.drop literalCursor).length)

/-- `executeSequencesSpec`. -/
def executePeak (section_ : ParsedSequenceSection) (tables : SequenceTablesState) (out : Bytes) (c : ExecContext)
    (blockSizeMax : Nat) (reps : DecoderRepeatOffsets) (before : Nat) : Nat :=
  if section_.numberOfSequences = 0 then trailingPeak before out c.literals.asSlice 0 blockSizeMax
  else
    onOk (setupTables tables) fun tables =>
      let b := freeBounds c blockSizeMax before
      max (runPeak c b tables section_ out reps) (onOk (runSequences (specSink c) b tables section_ out reps) fun s =>
        trailingPeak before s.out c.literals.asSlice s.ip (blockSizeMax - (b.budget - s.budget)))

/-- `decodeCompressedBlockInto`. -/
def compressedPeak (src : Bytes) (p : FrameParams) (st : EntropyState) (out : Bytes) (before : Nat) : Nat :=
  onOk (decodeLiteralsSectionInto src st.literals p.blockSizeMax) fun (literalsSize, literals, _) =>
    if literals.len > p.blockSizeMax then 0
    else onOk (getFrom src literalsSize) fun sequenceSection =>
      onOk (parseSequenceSection sequenceSection st.sequences .sequenceOnly) fun (parsed, tables) =>
        if parsed.numberOfSequences = 0 ∧ parsed.headerSize ≠ sequenceSection.length then 0
        else
          let c : ExecContext :=
            { frameStart := p.frameStart, windowSize := p.windowSize, dictionary := p.dictionary, literals }
          executePeak parsed tables out c p.blockSizeMax st.reps before

/-- `decodeFrameBlock`. -/
def frameBlockPeak (cursor : Cursor) (header : BlockHeader) (p : FrameParams) (st : EntropyState) (out : Bytes)
    (before : Nat) : Nat :=
  match header.blockType with
  | .raw =>
    if header.blockSize > p.blockSizeMax then 0
    else onOk (cursor.readExact header.payloadSize) fun (data, _) => before + (out.length + data.length)
  | .rle =>
    if header.blockSize > p.blockSizeMax then 0
    else onOk cursor.readU8 fun _ => before + (out.length + header.blockSize)
  | .compressed => onOk (cursor.readExact header.payloadSize) fun (data, _) => compressedPeak data p st out before

/-- `decodeBlocks`. -/
def blocksPeak (p : FrameParams) : Nat → Cursor → EntropyState → Bytes → Nat
  | 0, _, _, _ => 0
  | fuel + 1, cursor, st, out =>
    onOk (cursor.readExact blockHeaderSize) fun (headerBytes, cursor) =>
      onOk (BlockHeader.parse headerBytes) fun header =>
        max (frameBlockPeak cursor header p st out 0)
          (onOk (decodeFrameBlock bytesOutput cursor header p st out (.wholeOutput none)) fun (cursor, out, st) =>
            if header.lastBlock then 0 else blocksPeak p fuel cursor st out)

/-- `admitFrame`: the size the header declares, where its dictionary and its window are accepted. -/
def declaredPeak (dictionary : Option DecoderDictionary) (options : DecoderOptions) (header : ZstandardFrameHeader)
    (outLen : Nat) : Nat :=
  onOk (checkDictionary dictionary header) fun _ =>
    onOk (checkWindowSize options header) fun _ => (header.contentSize.map (outLen + ·)).getD 0

/-- `decodeZstandardFrame`. -/
def framePeak (options : DecoderOptions) (dictionary : Option DecoderDictionary) (cursor : Cursor)
    (header : ZstandardFrameHeader) (out : Bytes) : Nat :=
  onOk (cursor.readExact header.headerSize) fun (_, cursor) =>
    let p : FrameParams := { blockSizeMax := header.blockSizeMax, frameStart := out.length
                             windowSize := header.windowSize, dictionary := dictionary.map (·.content) }
    max (declaredPeak dictionary options header out.length)
      (onOk (admitFrame dictionary options header out.length) fun _ =>
        blocksPeak p cursor.src.length cursor (.initial dictionary) out)

/-- `decodeFrames`. -/
def framesPeak (options : DecoderOptions) (dictionary : Option DecoderDictionary) : Nat → Cursor → Bytes → Nat
  | 0, _, _ => 0
  | fuel + 1, cursor, out =>
    if cursor.isEmpty then 0
    else onOk (parseFrameHeaderWithFormat options.format cursor.remainingSlice) fun
      | .skippable frame =>
        if options.singleFrame then 0
        else onOk (skipSkippableFrame cursor frame) fun cursor => framesPeak options dictionary fuel cursor out
      | .zstandard header =>
        max (framePeak options dictionary cursor header out)
          (onOk (decodeZstandardFrame bytesOutput options dictionary cursor header out) fun (cursor, out) =>
            if options.singleFrame ∧ ¬ cursor.isEmpty then 0 else framesPeak options dictionary fuel cursor out)

/-- The options with another cap, or with none. -/
def DecoderOptions.withCap (options : DecoderOptions) (maxOutputSize : Option Nat) : DecoderOptions :=
  { options with maxOutputSize }

@[simp] theorem DecoderOptions.withCap_singleFrame (options : DecoderOptions) (maxOutputSize : Option Nat) :
    (options.withCap maxOutputSize).singleFrame = options.singleFrame := rfl

/-- The most output `decode_all` comes to ask for when it has no cap. -/
def outputPeak (options : DecoderOptions) (dictionary : Option DecoderDictionary) (src : Bytes) : Nat :=
  if src.isEmpty then 0 else framesPeak (options.withCap none) dictionary src.length (.new src) []

/-! ## Sequences -/

/-- The loop's states with a cap and without: the same but for the budget, whose smaller limit may be the cap. -/
structure UnderCap (before cap start block : Nat) (s t : ExecState Bytes) : Prop where
  same : s = { t with budget := min t.budget (cap - (before + t.out.length)) }
  fits : before + t.out.length ≤ cap
  spent : t.out.length + t.budget = start + block
  grows : start ≤ t.out.length

section Sequences

variable {c : ExecContext} {before cap start block : Nat}

theorem sequenceBudgetError_block {additional blockRemaining outLen : Nat} {limit : OutputLimit}
    (h : blockRemaining < additional) :
    sequenceBudgetError additional blockRemaining outLen limit = blockOutputTooLarge :=
  if_pos h

theorem sequenceBudgetError_over {additional blockRemaining outLen : Nat} (hroom : additional ≤ blockRemaining)
    (hover : cap < before + outLen + additional) :
    sequenceBudgetError additional blockRemaining outLen (.after before (some cap)) =
      .outputSizeTooLarge (before + outLen + additional) cap := by
  unfold sequenceBudgetError
  rw [if_neg (by omega)]
  exact if_pos hover

theorem executeSequence_capped (hfs : c.frameStart ≤ start) (hstart : before + start ≤ cap) (hblock : block ≤ usizeMax)
    {s t : ExecState Bytes} (h : UnderCap before cap start block s t) (seq : RawSequence) :
    Capped cap Error.RefusesSize (UnderCap before cap start block) (sequencePeak (freeBounds c block before) t seq)
      (executeSequence List.length (placeSpec c)
        (blockBounds c block (cap - (before + start)) (.after before (some cap))) s seq)
      (executeSequence List.length (placeSpec c) (freeBounds c block before) t seq) := by
  obtain ⟨rfl, hfits, hspent, hgrows⟩ := h
  unfold sequencePeak
  by_cases hip : t.ip + seq.literalLength > c.literals.len
  · -- the literals run out first, whatever the budget
    rw [if_pos (.inr hip)]
    unfold executeSequence
    simp only [freeBounds, blockBounds, hip, or_true, if_true]
    exact .of_error id
  have hused : min block (cap - (before + start)) - min t.budget (cap - (before + t.out.length)) =
      t.out.length - start := by omega
  by_cases hblockFull : seq.literalLength + seq.matchLength > t.budget
  · -- too much for the block: the cap is not asked
    have hleft : seq.literalLength + seq.matchLength > block - (t.out.length - start) := by omega
    have hfree : min block usizeMax - t.budget = t.out.length - start := by omega
    rw [if_pos (.inl hblockFull)]
    unfold executeSequence
    simp only [freeBounds, blockBounds, ExecBounds.budget, hip, hblockFull, or_false, if_false, if_true, hused, hfree]
    rw [if_pos (by omega), sequenceBudgetError_block hleft, sequenceBudgetError_block hleft]
    exact .of_error id
  rw [if_neg (by simp only [freeBounds, blockBounds]; omega)]
  show Capped cap _ _ (before + (t.out.length + (seq.literalLength + seq.matchLength))) _ _
  by_cases hover : cap < before + (t.out.length + (seq.literalLength + seq.matchLength))
  · -- the block would take it, the cap does not
    unfold executeSequence
    simp only [freeBounds, blockBounds, hip, hblockFull, or_false, if_false]
    rw [if_pos (by omega)]
    simp only [ExecBounds.budget, hused]
    rw [sequenceBudgetError_over (by omega) (by omega)]
    exact .of_refusal hover trivial
  · refine .of_alike (by omega) ?_ ?_
    · unfold executeSequence
      simp only [freeBounds, blockBounds, hip, hblockFull, or_false, if_false]
      rw [if_neg (by omega)]
      refine .bind_same fun out hout => .ok ⟨?_, ?_, ?_, ?_⟩
      all_goals
        have hlen := length_placeSpec (t.reps.resolveDecode_pos seq.offsetValue seq.literalLength) (by omega)
          (by omega) hout
      all_goals simp only
      · congr 1
        omega
      all_goals omega
    · unfold executeSequence
      simp only [freeBounds, blockBounds, hip, hblockFull, or_false, if_false]
      exact .bind (placeSpec_sizePlain c _ _ _ _ _) fun _ _ => .of_ok _

theorem sequenceLoop_capped (hfs : c.frameStart ≤ start) (hstart : before + start ≤ cap) (hblock : block ≤ usizeMax)
    (tables : SequenceTablesState) : ∀ (n : Nat) (r : SequenceReader) {s t : ExecState Bytes},
      UnderCap before cap start block s t →
      Capped cap Error.RefusesSize (fun x y => x.1 = y.1 ∧ UnderCap before cap start block x.2 y.2)
        (loopPeak c (freeBounds c block before) tables n r t)
        (sequenceLoop (specSink c) (blockBounds c block (cap - (before + start))
        (.after before (some cap))) tables n r s) (sequenceLoop (specSink c) (freeBounds c block before) tables n r t)
  | 0, _, _, _, h => .of_ok ⟨rfl, h⟩
  | n + 1, r, s, t, h => by
    unfold loopPeak sequenceLoop
    cases decodeSequence r with | mk seq r0 => ?_
    refine .bind_same (updateStates_sizePlain tables r0) fun r1 _ => ?_
    refine (executeSequence_capped hfs hstart hblock h seq).bind fun s1 t1 _ _ h1 => ?_
    dsimp only
    split
    · exact .of_error id
    · exact sequenceLoop_capped hfs hstart hblock tables n _ h1

theorem runSequences_capped (hfs : c.frameStart ≤ start) (hblock : block ≤ usizeMax) (tables : SequenceTablesState)
    (section_ : ParsedSequenceSection) {out : Bytes} (hout : out.length = start) (hfits : before + start ≤ cap)
    (reps : DecoderRepeatOffsets) :
    Capped cap Error.RefusesSize (UnderCap before cap start block)
      (runPeak c (freeBounds c block before) tables section_ out reps)
      (runSequences (specSink c) (blockBounds c block (cap - (before + start)) (.after before (some cap))) tables
        section_ out reps)
      (runSequences (specSink c) (freeBounds c block before) tables section_ out reps) := by
  have hfirst : UnderCap before cap start block
      { out, reps, ip := 0, budget := (blockBounds c block (cap - (before + start)) (.after before (some cap))).budget }
      { out, reps, ip := 0, budget := (freeBounds c block before).budget } := by
    simp only [freeBounds, blockBounds, ExecBounds.budget]
    refine ⟨?_, ?_, ?_, ?_⟩
    · rw [hout, Nat.min_eq_left hblock]
    all_goals simp only
    all_goals omega
  unfold runPeak runSequences
  refine .bind_same (initSequenceReader_sizePlain section_.bitstream tables) fun r _ => ?_
  refine (sequenceLoop_capped hfs hfits hblock tables _ r hfirst).bind ?_
  rintro ⟨r1, s1⟩ ⟨r2, t1⟩ - - ⟨hr, h1⟩
  obtain rfl : r1 = r2 := hr
  dsimp only
  cases decodeSequence r1 with | mk seq r0 => ?_
  refine (executeSequence_capped hfs hfits hblock h1 seq).map fun s2 t2 _ _ h2 => ?_
  dsimp only
  split
  · exact .of_error id
  · exact .of_ok h2

/-- The literals behind the last sequence. -/
theorem appendTrailingSpec_capped {out literals : Bytes} {cursor blockBytes room : Nat}
    (hfits : before + out.length ≤ cap) (hroom : room = cap - (before + out.length)) {free : Nat}
    (hfree : blockBytes ≤ free) :
    Capped cap Error.RefusesSize (fun x y => x = y ∧ before + y.length ≤ cap)
      (trailingPeak before out literals cursor blockBytes)
      (appendTrailingSpec out literals cursor blockBytes room (.after before (some cap)))
      (appendTrailingSpec out literals cursor blockBytes free (.after before none)) := by
  subst hroom
  unfold trailingPeak appendTrailingSpec ensureDecodeOutputRoom
  by_cases hcursor : cursor > literals.length
  · rw [if_pos hcursor, if_pos hcursor, if_pos (.inl hcursor)]
    exact .of_error id
  rw [if_neg hcursor, if_neg hcursor]
  dsimp only
  by_cases hblockFull : (literals.drop cursor).length > blockBytes
  · rw [if_pos hblockFull, if_pos hblockFull, if_pos (.inr hblockFull)]
    exact .of_error id
  rw [if_neg hblockFull, if_neg hblockFull, if_neg (by omega), if_neg (c := _ > free) (by omega)]
  by_cases hover : cap < before + (out.length + (literals.drop cursor).length)
  · rw [if_pos (by omega)]
    exact .of_refusal hover trivial
  · rw [if_neg (by omega)]
    refine .of_alike (Nat.le_of_not_lt hover) (.ok ⟨rfl, ?_⟩) (.of_ok _)
    rw [List.length_append]
    omega

/-- A block of sequences under a cap. -/
theorem executeSequencesSpec_capped {out : Bytes} (hfs : c.frameStart ≤ out.length) (hfits : before + out.length ≤ cap)
    (hblock : block ≤ usizeMax) (section_ : ParsedSequenceSection) (tables : SequenceTablesState)
    (reps : DecoderRepeatOffsets) :
    Capped cap Error.RefusesSize (fun x y => x = y ∧ before + y.out.length ≤ cap)
      (executePeak section_ tables out c block reps before)
      (executeSequencesSpec section_ tables out c block reps (.after before (some cap)))
      (executeSequencesSpec section_ tables out c block reps (.after before none)) := by
  have hremaining : (OutputLimit.after before (some cap)).remaining out.length = .ok (cap - (before + out.length)) :=
    if_pos hfits
  unfold executePeak executeSequencesSpec
  rw [hremaining]
  split
  · refine (appendTrailingSpec_capped hfits rfl hblock).map ?_
    rintro x y - - ⟨rfl, hlen⟩
    exact .of_ok ⟨rfl, hlen⟩
  refine .bind_same (setupTables_sizePlain tables) fun tables' _ => ?_
  refine (runSequences_capped hfs hblock tables' section_ rfl hfits reps).bind ?_
  rintro s t - - ⟨rfl, hfits', hspent, hgrows⟩
  have hused : min block (cap - (before + out.length)) - min t.budget (cap - (before + t.out.length)) =
      t.out.length - out.length := by omega
  have hfree : min block usizeMax - t.budget = t.out.length - out.length := by omega
  simp only [blockBounds, freeBounds, ExecBounds.budget, hused, hfree]
  refine (appendTrailingSpec_capped hfits' (by omega) (by omega)).map ?_
  rintro x y - - ⟨rfl, hlen⟩
  exact .of_ok ⟨rfl, hlen⟩

/-! What a block of sequences produces where there is no cap. -/

theorem executeSequence_reaches {t : ExecState Bytes} (hfs : c.frameStart ≤ t.out.length) (seq : RawSequence) :
    Reaches (fun t => before + t.out.length) (before + t.out.length) (sequencePeak (freeBounds c block before) t seq)
      (executeSequence List.length (placeSpec c) (freeBounds c block before) t seq) := by
  intro t' ht'
  have hstep := executeSequence_specStep rfl hfs ht'
  unfold executeSequence at ht'
  dsimp only at ht'
  unfold sequencePeak
  split at ht'
  · split at ht' <;> cases ht'
  rename_i hroom
  rw [if_neg hroom]
  obtain ⟨out, -, ht'⟩ := bind_ok ht'
  cases ht'
  have hproduced := hstep.produced
  have hgrows := hstep.grows
  show _ = max _ (before + (t.out.length + (seq.literalLength + seq.matchLength)))
  dsimp only at hproduced hgrows ⊢
  omega

theorem sequenceLoop_reaches (tables : SequenceTablesState) : ∀ (n : Nat) (r : SequenceReader) {t : ExecState Bytes},
    c.frameStart ≤ t.out.length → Reaches (fun x => before + x.2.out.length) (before + t.out.length)
      (loopPeak c (freeBounds c block before) tables n r t)
      (sequenceLoop (specSink c) (freeBounds c block before) tables n r t)
  | 0, _, _, _ => .of_ok rfl
  | n + 1, r, t, hfs => by
    unfold loopPeak sequenceLoop
    cases decodeSequence r with | mk seq r0 => ?_
    refine .bind_same fun r1 _ => (executeSequence_reaches hfs seq).bind fun t1 ht1 => ?_
    dsimp only
    split
    · exact .of_error _
    · exact sequenceLoop_reaches tables n _ (hfs.trans (executeSequence_specStep rfl hfs ht1).grows)

theorem runSequences_reaches (tables : SequenceTablesState) (section_ : ParsedSequenceSection) {out : Bytes}
    (hfs : c.frameStart ≤ out.length) (reps : DecoderRepeatOffsets) :
    Reaches (fun t => before + t.out.length) (before + out.length)
      (runPeak c (freeBounds c block before) tables section_ out reps)
      (runSequences (specSink c) (freeBounds c block before) tables section_ out reps) := by
  unfold runPeak runSequences
  refine .bind_same fun r _ => (sequenceLoop_reaches tables _ r hfs).bind ?_
  rintro ⟨r1, t1⟩ h1
  have hgrows := (sequenceLoop_specStep (b := freeBounds c block before) rfl _ hfs (Nat.zero_le _) h1).grows
  dsimp only
  cases decodeSequence r1 with | mk seq r0 => ?_
  refine (executeSequence_reaches (hfs.trans hgrows) seq).map fun t2 _ t3 ht3 => ?_
  split at ht3 <;> cases ht3
  rfl

theorem appendTrailingSpec_reaches {out literals : Bytes} {cursor blockBytes free : Nat} :
    Reaches (fun out => before + out.length) (before + out.length) (trailingPeak before out literals cursor blockBytes)
      (appendTrailingSpec out literals cursor blockBytes free (.after before none)) := by
  intro out' hout'
  unfold appendTrailingSpec ensureDecodeOutputRoom at hout'
  unfold trailingPeak
  split at hout'
  · cases hout'
  obtain ⟨_, hroom, hout'⟩ := bind_ok hout'
  cases hout'
  split at hroom
  · cases hroom
  rw [if_neg (by omega)]
  show before + (out ++ literals.drop cursor).length = _
  rw [List.length_append]
  omega

theorem executeSequencesSpec_reaches {out : Bytes} (hfs : c.frameStart ≤ out.length) (section_ : ParsedSequenceSection)
    (tables : SequenceTablesState) (reps : DecoderRepeatOffsets) :
    Reaches (fun outcome => before + outcome.out.length) (before + out.length)
      (executePeak section_ tables out c block reps before)
      (executeSequencesSpec section_ tables out c block reps (.after before none)) := by
  unfold executePeak executeSequencesSpec
  split
  · refine appendTrailingSpec_reaches.map ?_
    rintro x - y ⟨⟩
    rfl
  refine .bind_same fun tables' _ => (runSequences_reaches tables' section_ hfs reps).bind fun s _ => ?_
  refine appendTrailingSpec_reaches.map ?_
  rintro x - y ⟨⟩
  rfl

end Sequences

/-! ## Blocks -/

section Blocks

variable {before cap : Nat} {out : Bytes}

theorem decodeCompressedBlockInto_capped (src : Bytes) {p : FrameParams} (hfs : p.frameStart ≤ out.length)
    (hblock : p.blockSizeMax ≤ usizeMax) (hfits : before + out.length ≤ cap) (st : EntropyState) :
    Capped cap Error.RefusesSize (fun x y => x = y ∧ before + y.1.length ≤ cap) (compressedPeak src p st out before)
      (decodeCompressedBlockInto bytesOutput src p st out (.after before (some cap)))
      (decodeCompressedBlockInto bytesOutput src p st out (.after before none)) := by
  unfold compressedPeak decodeCompressedBlockInto
  refine .bind_same (decodeLiteralsSectionInto_sizePlain src st.literals p.blockSizeMax) ?_
  rintro ⟨literalsSize, literals, literalsState⟩ -
  dsimp only
  split
  · exact .of_error id
  refine .bind_same (getFrom_sizePlain src literalsSize) fun sequenceSection _ => ?_
  refine .bind_same (parseSequenceSection_sizePlain sequenceSection st.sequences .sequenceOnly) ?_
  rintro ⟨parsed, tables⟩ -
  dsimp only
  split
  · exact .of_error id
  refine (executeSequencesSpec_capped ?_ hfits hblock parsed tables st.reps).map ?_
  · exact hfs
  · rintro x y - - ⟨rfl, hlen⟩
    exact .of_ok ⟨rfl, hlen⟩

/-- A raw or RLE block. -/
theorem appendBytes_capped (bytes : Bytes) :
    Capped cap Error.RefusesSize (fun x y => x = y ∧ before + y.length ≤ cap) (before + (out.length + bytes.length))
      (appendBytes bytesOutput out bytes (.after before (some cap)))
      (appendBytes bytesOutput out bytes (.after before none)) := by
  have hfree : appendBytes bytesOutput out bytes (.after before none) = .ok (out ++ bytes) := rfl
  have hcapped : appendBytes bytesOutput out bytes (.after before (some cap)) =
      (if before + (out.length + bytes.length) > cap then
        .error (.outputSizeTooLarge (before + (out.length + bytes.length)) cap) else .ok ()) >>=
        fun _ => .ok (out ++ bytes) := rfl
  rw [hfree, hcapped]
  by_cases hover : cap < before + (out.length + bytes.length)
  · rw [if_pos hover]
    exact .of_refusal hover trivial
  · rw [if_neg hover]
    refine .of_alike (Nat.le_of_not_lt hover) (.ok ⟨rfl, ?_⟩) (.of_ok _)
    rw [List.length_append]
    omega

theorem appendRepeated_eq_appendBytes (byte : UInt8) (count : Nat) (limit : OutputLimit) :
    appendRepeated bytesOutput out byte count limit =
      appendBytes bytesOutput out (List.replicate count byte) limit := by
  unfold appendRepeated appendBytes
  rw [List.length_replicate]

theorem decodeFrameBlock_capped (cursor : Cursor) (header : BlockHeader) {p : FrameParams}
    (hfs : p.frameStart ≤ out.length) (hblock : p.blockSizeMax ≤ usizeMax) (hfits : before + out.length ≤ cap)
    (st : EntropyState) :
    Capped cap Error.RefusesSize (fun x y => x = y ∧ before + y.2.1.length ≤ cap)
      (frameBlockPeak cursor header p st out before)
      (decodeFrameBlock bytesOutput cursor header p st out (.after before (some cap)))
      (decodeFrameBlock bytesOutput cursor header p st out (.after before none)) := by
  unfold frameBlockPeak decodeFrameBlock
  cases header.blockType with
  | raw =>
    dsimp only
    split
    · exact .of_error id
    refine .bind_same (cursor.readExact_sizePlain _) ?_
    rintro ⟨data, cursor'⟩ -
    refine (appendBytes_capped data).map ?_
    rintro x y - - ⟨rfl, hlen⟩
    exact .of_ok ⟨rfl, hlen⟩
  | rle =>
    dsimp only
    split
    · exact .of_error id
    refine .bind_same cursor.readU8_sizePlain ?_
    rintro ⟨byte, cursor'⟩ -
    rw [appendRepeated_eq_appendBytes, appendRepeated_eq_appendBytes]
    have happend := @appendBytes_capped before cap out (List.replicate header.blockSize byte)
    rw [List.length_replicate] at happend
    refine happend.map ?_
    rintro x y - - ⟨rfl, hlen⟩
    exact .of_ok ⟨rfl, hlen⟩
  | compressed =>
    refine .bind_same (cursor.readExact_sizePlain _) ?_
    rintro ⟨data, cursor'⟩ -
    refine (decodeCompressedBlockInto_capped data hfs hblock hfits st).map ?_
    rintro x y - - ⟨rfl, hlen⟩
    exact .of_ok ⟨rfl, hlen⟩

theorem decodeCompressedBlockInto_reaches (src : Bytes) {p : FrameParams} (hfs : p.frameStart ≤ out.length)
    (st : EntropyState) :
    Reaches (fun x => before + x.1.length) (before + out.length) (compressedPeak src p st out before)
      (decodeCompressedBlockInto bytesOutput src p st out (.after before none)) := by
  unfold compressedPeak decodeCompressedBlockInto
  refine .bind_same ?_
  rintro ⟨literalsSize, literals, literalsState⟩ -
  dsimp only
  split
  · exact .of_error _
  refine .bind_same fun sequenceSection _ => .bind_same ?_
  rintro ⟨parsed, tables⟩ -
  dsimp only
  split
  · exact .of_error _
  refine (executeSequencesSpec_reaches ?_ parsed tables st.reps).map ?_
  · exact hfs
  · rintro x - y ⟨⟩
    rfl

theorem decodeFrameBlock_reaches (cursor : Cursor) (header : BlockHeader) {p : FrameParams}
    (hfs : p.frameStart ≤ out.length) (st : EntropyState) :
    Reaches (fun x => before + x.2.1.length) (before + out.length) (frameBlockPeak cursor header p st out before)
      (decodeFrameBlock bytesOutput cursor header p st out (.after before none)) := by
  have happended : ∀ bytes : Bytes, before + (out ++ bytes).length =
      max (before + out.length) (before + (out.length + bytes.length)) := by
    intro bytes
    rw [List.length_append]
    omega
  unfold frameBlockPeak decodeFrameBlock
  cases header.blockType with
  | raw =>
    dsimp only
    split
    · exact .of_error _
    refine .bind_same ?_
    rintro ⟨data, cursor'⟩ - x ⟨⟩
    exact happended data
  | rle =>
    dsimp only
    split
    · exact .of_error _
    refine .bind_same ?_
    rintro ⟨byte, cursor'⟩ - x ⟨⟩
    have hrepeated := happended (List.replicate header.blockSize byte)
    rw [List.length_replicate] at hrepeated
    exact hrepeated
  | compressed =>
    refine .bind_same ?_
    rintro ⟨data, cursor'⟩ -
    refine (decodeCompressedBlockInto_reaches data hfs st).map ?_
    rintro x - y ⟨⟩
    rfl

end Blocks

/-! ## Frames -/

section Frames

variable {cap : Nat} {options : DecoderOptions} {dictionary : Option DecoderDictionary}

theorem decodeBlocks_capped {p : FrameParams} (hblock : p.blockSizeMax ≤ usizeMax) :
    ∀ (fuel : Nat) (cursor : Cursor) (st : EntropyState) {out : Bytes}, st.Ok → p.frameStart ≤ out.length →
      out.length ≤ cap →
      Capped cap Error.RefusesSize (fun x y => x = y ∧ y.2.length ≤ cap) (blocksPeak p fuel cursor st out)
        (decodeBlocks bytesOutput p (.wholeOutput (some cap)) fuel cursor st out)
        (decodeBlocks bytesOutput p (.wholeOutput none) fuel cursor st out)
  | 0, _, _, _, _, _, _ => .of_error id
  | fuel + 1, cursor, st, out, hst, hfs, hfits => by
    unfold blocksPeak decodeBlocks
    refine .bind_same (cursor.readExact_sizePlain _) ?_
    rintro ⟨headerBytes, cursor'⟩ -
    refine .bind_same (BlockHeader.parse_sizePlain headerBytes) fun header _ => ?_
    refine (decodeFrameBlock_capped cursor' header hfs hblock (by omega) st).bind ?_
    rintro x ⟨cursor2, out2, st2⟩ - hdecoded ⟨rfl, hlen⟩
    have hleft := decodeFrameBlock_decoded hst hfs hdecoded
    rw [Nat.zero_add] at hlen
    dsimp only
    split
    · exact .of_ok ⟨rfl, hlen⟩
    · exact decodeBlocks_capped hblock fuel cursor2 st2 hleft.ok (hfs.trans hleft.grows) hlen

theorem parseFrameHeaderWithFormat_blockSizeMax {format : Format} {src : Bytes} {header : ZstandardFrameHeader}
    (h : parseFrameHeaderWithFormat format src = .ok (.zstandard header)) :
    header.blockSizeMax ≤ Zstandard.blockSizeMax := by
  have hparse : parseZstandardFrameHeader format src = .ok (.zstandard header) := by
    unfold parseFrameHeaderWithFormat at h
    split at h
    · exact h
    split at h
    · cases h
    dsimp only at h
    split at h
    · exact h
    split at h
    · unfold parseSkippableFrameHeader at h
      split at h <;> cases h
    · cases h
  unfold parseZstandardFrameHeader at hparse
  obtain ⟨_, -, hparse⟩ := bind_ok hparse
  dsimp only at hparse
  split at hparse
  · cases hparse
  obtain ⟨_, -, hparse⟩ := bind_ok hparse
  obtain ⟨_, -, hparse⟩ := bind_ok hparse
  obtain ⟨_, -, hparse⟩ := bind_ok hparse
  obtain ⟨_, -, hparse⟩ := bind_ok hparse
  cases hparse
  exact Nat.min_le_right _ _

/-- The check at the head of a frame. -/
theorem admitFrame_capped (hcap : cap ≤ usizeMax) (header : ZstandardFrameHeader) {outLen : Nat} :
    Capped cap Error.RefusesSize (fun _ _ => True) (declaredPeak dictionary options header outLen)
      (admitFrame dictionary (options.withCap (some cap)) header outLen)
      (admitFrame dictionary (options.withCap none) header outLen) := by
  unfold declaredPeak admitFrame
  refine .bind_same (checkDictionary_sizePlain dictionary header) fun _ _ => ?_
  refine .bind_same (checkWindowSize_sizePlain options header) fun _ _ => ?_
  unfold checkContentSize
  cases header.contentSize with
  | none => exact .of_ok trivial
  | some size =>
    show Capped cap _ _ (outLen + size) (ensureTotalSizeLimit outLen size (some cap)) (.ok ())
    unfold ensureTotalSizeLimit checkedAdd
    dsimp only
    by_cases hover : cap < outLen + size
    · split
      · rw [ok_bind, if_pos hover]
        exact .of_refusal hover trivial
      · exact .of_refusal hover trivial
    · rw [if_pos (by unfold usizeMax at hcap; omega), ok_bind, if_neg hover]
      exact .of_alike (Nat.le_of_not_lt hover) (.ok trivial) (.of_ok _)

theorem decodeZstandardFrame_capped (hcap : cap ≤ usizeMax) (cursor : Cursor) {header : ZstandardFrameHeader}
    (hblock : header.blockSizeMax ≤ usizeMax) {out : Bytes} (hfits : out.length ≤ cap) :
    Capped cap Error.RefusesSize (fun x y => x = y ∧ y.2.length ≤ cap)
      (framePeak (options.withCap none) dictionary cursor header out)
      (decodeZstandardFrame bytesOutput (options.withCap (some cap)) dictionary cursor header out)
      (decodeZstandardFrame bytesOutput (options.withCap none) dictionary cursor header out) := by
  unfold framePeak decodeZstandardFrame
  refine .bind_same (cursor.readExact_sizePlain _) ?_
  rintro ⟨_, cursor'⟩ -
  refine (admitFrame_capped hcap header).bind fun _ _ _ _ _ => ?_
  refine (decodeBlocks_capped hblock _ cursor' _ (EntropyState.initial_ok dictionary) (le_refl _) hfits).map ?_
  rintro x ⟨cursor2, out2⟩ - - ⟨rfl, hlen⟩
  refine .of_alike (Nat.zero_le cap) ?_ ?_
  · refine .bind_same fun cursor3 _ => .bind_same fun _ _ => .ok ⟨rfl, hlen⟩
  · refine .bind (readFrameChecksum_sizePlain _ header cursor2 _) fun _ _ => ?_
    exact .bind (checkProduced_sizePlain header _) fun _ _ => .of_ok _

theorem skipSkippableFrame_sizePlain (cursor : Cursor) (frame : SkippableFrame) :
    SizePlain (skipSkippableFrame cursor frame) := by
  unfold skipSkippableFrame
  grind

theorem decodeFrames_capped (hcap : cap ≤ usizeMax) : ∀ (fuel : Nat) (cursor : Cursor) {out : Bytes},
    out.length ≤ cap →
      Capped cap Error.RefusesSize (fun x y => x = y ∧ y.length ≤ cap)
        (framesPeak (options.withCap none) dictionary fuel cursor out)
        (decodeFrames bytesOutput (options.withCap (some cap)) dictionary fuel cursor out)
        (decodeFrames bytesOutput (options.withCap none) dictionary fuel cursor out)
  | 0, cursor, out, hfits => by
    unfold framesPeak decodeFrames
    split
    · exact .of_ok ⟨rfl, hfits⟩
    · exact .of_error id
  | fuel + 1, cursor, out, hfits => by
    unfold framesPeak decodeFrames
    split
    · exact .of_ok ⟨rfl, hfits⟩
    refine .bind_same (parseFrameHeaderWithFormat_sizePlain _ _) fun frame hframe => ?_
    cases frame with
    | skippable frame =>
      by_cases hsingle : options.singleFrame
      · simp only [DecoderOptions.withCap_singleFrame, hsingle, if_true]
        exact .of_error id
      · simp only [DecoderOptions.withCap_singleFrame, hsingle, Bool.false_eq_true, if_false]
        exact .bind_same (skipSkippableFrame_sizePlain cursor frame) fun cursor' _ =>
            decodeFrames_capped hcap fuel cursor' hfits
    | zstandard header =>
      have hblock := (parseFrameHeaderWithFormat_blockSizeMax hframe).trans (by decide : blockSizeMax ≤ usizeMax)
      refine (decodeZstandardFrame_capped hcap cursor hblock hfits).bind ?_
      rintro x ⟨cursor2, out2⟩ - - ⟨rfl, hlen⟩
      by_cases htail : options.singleFrame ∧ ¬ cursor2.isEmpty
      · simp only [DecoderOptions.withCap_singleFrame, htail]
        exact .of_error id
      · simp only [DecoderOptions.withCap_singleFrame, htail, if_false]
        exact decodeFrames_capped hcap fuel cursor2 hlen

/-- One-shot decoding under a cap. -/
theorem decodeAll_capped (alloc : Allocator) (hcap : cap ≤ usizeMax) (src : Bytes) :
    Capped cap Error.RefusesSize (fun x y => x = y ∧ y.length ≤ cap) (outputPeak options dictionary src)
      (decodeAll alloc (options.withCap (some cap)) dictionary src)
      (decodeAll alloc (options.withCap none) dictionary src) := by
  rw [decodeAll_eq, decodeAll_eq]
  unfold outputPeak decodeInto
  split
  · exact .of_error id
  · exact decodeFrames_capped hcap _ _ (Nat.zero_le cap)

theorem decodeBlocks_reaches {p : FrameParams} : ∀ (fuel : Nat) (cursor : Cursor) (st : EntropyState) {out : Bytes},
    st.Ok → p.frameStart ≤ out.length →
      Reaches (fun x => x.2.length) out.length (blocksPeak p fuel cursor st out)
        (decodeBlocks bytesOutput p (.wholeOutput none) fuel cursor st out)
  | 0, _, _, _, _, _ => .of_error _
  | fuel + 1, cursor, st, out, hst, hfs => by
    unfold blocksPeak decodeBlocks
    refine .bind_same ?_
    rintro ⟨headerBytes, cursor'⟩ -
    refine .bind_same fun header _ => ?_
    have hblock := @decodeFrameBlock_reaches 0 out cursor' header p hfs st
    simp only [Nat.zero_add] at hblock
    refine hblock.bind ?_
    rintro ⟨cursor2, out2, st2⟩ hdecoded
    have hleft := decodeFrameBlock_decoded hst hfs hdecoded
    dsimp only
    split
    · exact .of_ok rfl
    · exact decodeBlocks_reaches fuel cursor2 st2 hleft.ok (hfs.trans hleft.grows)

/-- What a frame that is accepted declares is what it produces. -/
theorem decodeZstandardFrame_reaches (cursor : Cursor) (header : ZstandardFrameHeader) (out : Bytes) :
    Reaches (fun x => x.2.length) out.length (framePeak (options.withCap none) dictionary cursor header out)
      (decodeZstandardFrame bytesOutput (options.withCap none) dictionary cursor header out) := by
  unfold framePeak decodeZstandardFrame
  refine .bind_same ?_
  rintro ⟨_, cursor'⟩ - ⟨cursor3, out3⟩ hframe
  obtain ⟨_, hallow, hframe⟩ := bind_ok hframe
  obtain ⟨⟨cursor2, out2⟩, hblocks, hframe⟩ := bind_ok hframe
  obtain ⟨_, -, hframe⟩ := bind_ok hframe
  obtain ⟨_, hproduced, hframe⟩ := bind_ok hframe
  cases hframe
  have hreached := decodeBlocks_reaches _ cursor' _ (EntropyState.initial_ok dictionary) (le_refl _) _ hblocks
  have hgrows := decodeBlocks_grows _ (EntropyState.initial_ok dictionary) (le_refl _) hblocks
  have hdeclared : declaredPeak dictionary (options.withCap none) header out.length ≤ out3.length := by
    obtain ⟨_, hdictionary, hwindow⟩ := bind_ok hallow
    obtain ⟨_, hwindow, -⟩ := bind_ok hwindow
    unfold declaredPeak
    rw [hdictionary, onOk_ok, hwindow, onOk_ok]
    replace hproduced : checkProduced header (out3.length - out.length) = .ok () := hproduced
    unfold checkProduced at hproduced
    cases hsize : header.contentSize with
    | none => exact Nat.zero_le _
    | some expected =>
      rw [hsize] at hproduced
      dsimp only at hproduced
      split at hproduced
      · cases hproduced
      · show out.length + expected ≤ out3.length
        omega
  replace hallow : admitFrame dictionary (options.withCap none) header out.length = .ok () := hallow
  dsimp only at hreached ⊢
  rw [hallow, onOk_ok]
  refine hreached.trans ?_
  rw [Nat.max_left_comm]
  exact (Nat.max_eq_right (hdeclared.trans_eq hreached)).symm

theorem decodeFrames_reaches : ∀ (fuel : Nat) (cursor : Cursor) (out : Bytes),
    Reaches List.length out.length (framesPeak (options.withCap none) dictionary fuel cursor out)
      (decodeFrames bytesOutput (options.withCap none) dictionary fuel cursor out)
  | 0, cursor, out => by
    unfold framesPeak decodeFrames
    split
    · exact .of_ok rfl
    · exact .of_error _
  | fuel + 1, cursor, out => by
    unfold framesPeak decodeFrames
    split
    · exact .of_ok rfl
    refine .bind_same fun frame _ => ?_
    cases frame with
    | skippable frame =>
      dsimp only
      split
      · exact .of_error _
      · exact .bind_same fun cursor' _ => decodeFrames_reaches fuel cursor' out
    | zstandard header =>
      refine (decodeZstandardFrame_reaches cursor header out).bind ?_
      rintro ⟨cursor2, out2⟩ -
      dsimp only
      split
      · exact .of_error _
      · exact decodeFrames_reaches fuel cursor2 out2

/-- An input the decoder without a cap accepts gives exactly what it asked for at the most. -/
theorem decodeAll_reaches (alloc : Allocator) (options : DecoderOptions) (src : Bytes) {out : Bytes}
    (h : decodeAll alloc (options.withCap none) dictionary src = .ok out) :
    out.length = outputPeak options dictionary src := by
  rw [decodeAll_eq] at h
  unfold decodeInto at h
  unfold outputPeak
  split at h
  · cases h
  rename_i hsrc
  rw [if_neg hsrc]
  have hreached := decodeFrames_reaches src.length (.new src) [] out h
  rw [List.length_nil, Nat.zero_max] at hreached
  exact hreached

/-- Under a cap one-shot decoding gives what it gives without one, where that fits. -/
theorem decodeAll_withCap_iff (alloc : Allocator) (options : DecoderOptions) (hcap : cap ≤ usizeMax)
    (src out : Bytes) :
    decodeAll alloc (options.withCap (some cap)) dictionary src = .ok out ↔
      decodeAll alloc (options.withCap none) dictionary src = .ok out ∧ out.length ≤ cap := by
  have hcapped := @decodeAll_capped cap options dictionary alloc hcap src
  constructor
  · intro h
    obtain ⟨-, _, hfree, rfl, hlen⟩ := hcapped.le_of_ok h
    exact ⟨hfree, hlen⟩
  · rintro ⟨hfree, hlen⟩
    have hpeak := decodeAll_reaches alloc options src hfree
    obtain ⟨_, hok, rfl, -⟩ := (hcapped.agrees (by omega)).symm.of_ok hfree
    exact hok

end Frames

end Zstandard
