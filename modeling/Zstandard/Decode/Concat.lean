/-
Concatenated inputs: the frames of one input followed by the frames of another decode to the one's output followed
by the other's, and to nothing else.

Each phase of the decoder is run twice: on an input that ends, and on one where more follows and other output stands
in front. `Behind` relates the two cursors. A frame reads the same items from both, its blocks append the same bytes
to both outputs, and its checks see the same bytes. What follows an input is therefore read from where it ends, and
read there as on its own.
-/
import Zstandard.Decode.OutputCap
import Zstandard.Decode.Continue

namespace Zstandard

open Simulation

/-! ## An input with more behind it -/

/-- `c'` has before it what `c` has, and then `tail`. -/
structure Behind (tail : Bytes) (c c' : Cursor) : Prop where
  inside : c.pos ≤ c.src.length
  inside' : c'.pos ≤ c'.src.length
  rest : c'.remainingSlice = c.remainingSlice ++ tail

namespace Behind

variable {tail : Bytes} {c c' c1 : Cursor}

/-- Cursors with the same bytes before them. -/
theorem symm (h : Behind [] c c') : Behind [] c' c :=
  ⟨h.inside', h.inside, by rw [h.rest, List.append_nil, List.append_nil]⟩

theorem length (h : Behind tail c c') :
    c'.src.length - c'.pos = c.src.length - c.pos + tail.length := by
  have hlength := congrArg List.length h.rest
  simpa [Cursor.remainingSlice] using hlength

theorem forward (h : Behind tail c c') {n : Nat} (hn : c.pos + n ≤ c.src.length) :
    Behind tail { c with pos := c.pos + n } { c' with pos := c'.pos + n } := by
  have hlength := h.length
  have hinside := h.inside
  have hinside' := h.inside'
  refine ⟨hn, by dsimp only; omega, ?_⟩
  have hrest := congrArg (List.drop n) h.rest
  unfold Cursor.remainingSlice at hrest ⊢
  rwa [List.drop_append_of_le_length (by rw [List.length_drop]; omega), List.drop_drop, List.drop_drop] at hrest

theorem readExact (h : Behind tail c c') {n : Nat} {bytes : Bytes} (hread : c.readExact n = .ok (bytes, c1)) :
    ∃ c1', c'.readExact n = .ok (bytes, c1') ∧ Behind tail c1 c1' := by
  obtain ⟨hn, rfl, rfl⟩ := Cursor.readExact_ok hread
  have hlength := h.length
  have hinside := h.inside
  refine ⟨_, ?_, h.forward hn⟩
  rw [Cursor.readExact_of_le (by have := h.inside'; omega)]
  have hrest := congrArg (List.take n) h.rest
  unfold Cursor.remainingSlice at hrest
  rw [List.take_append_of_le_length (by rw [List.length_drop]; omega)] at hrest
  rw [hrest]

theorem blockRead (h : Behind tail c c') {header : BlockHeader} {payload : Bytes}
    (hread : BlockRead c header payload c1) : ∃ c1', BlockRead c' header payload c1' ∧ Behind tail c1 c1' := by
  obtain ⟨bytes, c2, hheader, hparse, hpayload⟩ := blockRead_iff.1 hread
  obtain ⟨c2', hheader', h2⟩ := h.readExact hheader
  obtain ⟨c1', hpayload', h1⟩ := h2.readExact hpayload
  exact ⟨c1', blockRead_iff.2 ⟨bytes, c2', hheader', hparse, hpayload'⟩, h1⟩

theorem readFrameChecksum (h : Behind tail c c') {options : DecoderOptions} {header : ZstandardFrameHeader}
    {frame : Bytes} (hread : readFrameChecksum options header c frame = .ok c1) :
    ∃ c1', Zstandard.readFrameChecksum options header c' frame = .ok c1' ∧ Behind tail c1 c1' := by
  cases hsum : header.checksum with
  | true =>
    obtain ⟨hin, hcheck, rfl⟩ := (readFrameChecksum_ok_iff hsum).1 hread
    have hlength := h.length
    have hinside := h.inside
    have hinside' := h.inside'
    -- the four bytes are before the end of the input
    have hbytes : readU32Le (c'.src.drop c'.pos) = readU32Le (c.src.drop c.pos) := by
      have hrest := h.rest
      unfold Cursor.remainingSlice at hrest
      unfold readU32Le
      rw [hrest, List.take_append_of_le_length (by rw [List.length_drop]; omega)]
    exact ⟨_, (readFrameChecksum_ok_iff hsum).2 ⟨by omega, fun hverify => hbytes ▸ hcheck hverify, rfl⟩, h.forward hin⟩
  | false =>
    unfold Zstandard.readFrameChecksum at hread ⊢
    rw [hsum, if_neg (by simp)] at hread ⊢
    cases hread
    exact ⟨c', rfl, h⟩

theorem parsed (h : Behind tail c c') {format : Format} {fh : FrameHeader}
    (hparse : parseFrameHeaderWithFormat format c.remainingSlice = .ok fh) :
    parseFrameHeaderWithFormat format c'.remainingSlice = .ok fh := by
  rw [h.rest]
  exact (parseFrameHeader_incremental format).ok_append hparse tail

theorem skipSkippableFrame (h : Behind tail c c') {frame : SkippableFrame}
    (hskip : skipSkippableFrame c frame = .ok c1) :
    ∃ c1', Zstandard.skipSkippableFrame c' frame = .ok c1' ∧ Behind tail c1 c1' := by
  obtain ⟨⟨bytes, c2⟩, hread, hskip⟩ := bind_ok hskip
  cases hskip
  obtain ⟨c1', hread', h1⟩ := h.readExact hread
  refine ⟨c1', ?_, h1⟩
  unfold Zstandard.skipSkippableFrame
  rw [hread', ok_bind]

/-- Only an input with something behind it goes on where the other ends. -/
theorem nonempty (h : Behind tail c c') (hc : c.isEmpty = false) : c'.isEmpty = false := by
  have hlength := h.length
  have hinside := h.inside
  unfold Cursor.isEmpty at hc ⊢
  rw [decide_eq_false_iff_not] at hc ⊢
  omega

end Behind

/-! ## Blocks where there is no cap

Without a cap, what was produced before the bytes at hand shows only in the text of an error. -/

section Uncapped

variable {j k : Nat}

theorem sequenceLoop_uncapped {σ : Type} (sink : Sink σ) (b : ExecBounds) (tables : SequenceTablesState) :
    ∀ (n : Nat) (r : SequenceReader) (s : ExecState σ),
      sequenceLoop sink { b with limit := .after j none } tables n r s =
        sequenceLoop sink { b with limit := .after k none } tables n r s
  | 0, _, _ => rfl
  | n + 1, r, s => by
    unfold sequenceLoop
    simp only [sequenceLoop_uncapped sink b tables n]
    rfl

theorem runSequences_uncapped {σ : Type} (sink : Sink σ) (b : ExecBounds) (tables : SequenceTablesState)
    (section_ : ParsedSequenceSection) (out : σ) (reps : DecoderRepeatOffsets) :
    runSequences sink { b with limit := .after j none } tables section_ out reps =
      runSequences sink { b with limit := .after k none } tables section_ out reps := by
  unfold runSequences
  simp only [sequenceLoop_uncapped (j := j) (k := k)]
  rfl

theorem appendTrailingSpec_uncapped (out literals : Bytes) (cursor blockBytes room : Nat) :
    Follows (· = ·) (appendTrailingSpec out literals cursor blockBytes room (.after j none))
      (appendTrailingSpec out literals cursor blockBytes room (.after k none)) := by
  unfold appendTrailingSpec ensureDecodeOutputRoom
  split
  · exact .of_error _
  dsimp only
  split
  · exact .of_error _
  split
  · exact .of_error _
  · exact .of_ok rfl

theorem executeSequencesSpec_uncapped (section_ : ParsedSequenceSection) (tables : SequenceTablesState) (out : Bytes)
    (c : ExecContext) (blockSizeMax : Nat) (reps : DecoderRepeatOffsets) :
    Follows (· = ·) (executeSequencesSpec section_ tables out c blockSizeMax reps (.after j none))
      (executeSequencesSpec section_ tables out c blockSizeMax reps (.after k none)) := by
  unfold executeSequencesSpec
  split
  · refine .bind_same fun remaining _ => Follows.bind (appendTrailingSpec_uncapped _ _ _ _ _) ?_
    rintro _ out' _ rfl
    exact .of_ok rfl
  refine .bind_same fun tables' _ => .bind_same fun remaining _ => ?_
  dsimp only
  rw [runSequences_uncapped (j := j) (k := k) (specSink c) ⟨c.literals.len, blockSizeMax, remaining, .after j none⟩]
  refine .bind_same fun s _ => Follows.bind (appendTrailingSpec_uncapped _ _ _ _ _) ?_
  rintro _ out' _ rfl
  exact .of_ok rfl

theorem decodeBlock_uncapped (header : BlockHeader) (payload : Bytes) (p : FrameParams) (st : EntropyState)
    (out : Bytes) :
    Follows (· = ·) (decodeBlock bytesOutput header payload p st out (.after j none))
      (decodeBlock bytesOutput header payload p st out (.after k none)) := by
  unfold decodeBlock
  cases header.blockType with
  | raw => exact fun _ h => ⟨_, h, rfl⟩
  | rle => exact fun _ h => ⟨_, h, rfl⟩
  | compressed =>
    unfold decodeCompressedBlockInto
    refine .bind_same fun ⟨n, literals, ls⟩ _ => ?_
    dsimp only
    split
    · exact .of_error _
    refine .bind_same fun rest _ => .bind_same fun ⟨parsed, tables⟩ _ => ?_
    dsimp only
    split
    · exact .of_error _
    refine Follows.bind (executeSequencesSpec_uncapped _ _ _ _ _ _) ?_
    rintro _ outcome _ rfl
    exact .of_ok rfl

/-- A block of one frame, decoded onto another output where the same frame has come as far. -/
theorem decodeBlock_moved {window fsA fsB : Nat} {a b : Bytes} (h : HistoryRel window fsA a fsB b) {p : FrameParams}
    (hw : p.windowSize = window) (header : BlockHeader) (payload : Bytes) (st : EntropyState) :
    Follows (fun x y => Extends a b x.1 y.1 ∧ x.2 = y.2)
      (decodeBlock bytesOutput header payload { p with frameStart := fsA } st a (.wholeOutput none))
      (decodeBlock bytesOutput header payload { p with frameStart := fsB } st b (.wholeOutput none)) := by
  have hlimit : LimitLe (.after b.length none) a.length (.wholeOutput none) b.length :=
    ⟨rfl, by simp only [OutputLimit.produced, OutputLimit.after, OutputLimit.wholeOutput]; omega⟩
  intro x hx
  obtain ⟨x', hx', rfl⟩ := decodeBlock_uncapped (k := b.length) _ _ _ _ _ x hx
  exact decodeBlock_follows h hlimit hw header payload st x hx'

end Uncapped

/-! ## Frames with more behind them -/

section Moved

variable {tail : Bytes}

/-- The blocks of a frame append the same to another output, whatever stands in front of it. -/
theorem BlocksRun.moved {p : FrameParams} {c c1 : Cursor} {st : EntropyState} {out out1 : Bytes} {k : Nat}
    (h : BlocksRun p (.wholeOutput none) c st out k c1 out1) :
    ∀ {c' : Cursor} {fs : Nat} {b : Bytes}, Behind tail c c' → HistoryRel p.windowSize p.frameStart out fs b →
      ∃ x c1', out1 = out ++ x ∧ Behind tail c1 c1' ∧
        BlocksRun { p with frameStart := fs } (.wholeOutput none) c' st b k c1' (b ++ x) := by
  induction h with
  | @last c c1 st st1 out out1 header payload read decode isLast =>
    intro c' fs b hc hout
    obtain ⟨c1', read', h1⟩ := hc.blockRead read
    obtain ⟨⟨b1, _⟩, decode', ⟨x, rfl, rfl⟩, rfl⟩ := decodeBlock_moved hout rfl header payload st _ decode
    exact ⟨x, c1', rfl, h1, .last read' decode' isLast⟩
  | @more c c1 c2 st st1 out out1 out2 header payload k read decode notLast rest ih =>
    intro c' fs b hc hout
    obtain ⟨c1', read', h1⟩ := hc.blockRead read
    obtain ⟨⟨b1, _⟩, decode', ⟨x, rfl, rfl⟩, rfl⟩ := decodeBlock_moved hout rfl header payload st _ decode
    obtain ⟨y, c2', rfl, h2, rest'⟩ := ih h1 (hout.append x)
    refine ⟨x ++ y, c2', List.append_assoc _ _ _, h2, ?_⟩
    rw [← List.append_assoc]
    exact .more read' decode' notLast rest'

variable {options : DecoderOptions} {dictionary : Option DecoderDictionary} (hcap : options.maxOutputSize = none)

include hcap

theorem admitFrame_uncapped (header : ZstandardFrameHeader) (m n : Nat) :
    admitFrame dictionary options header m = admitFrame dictionary options header n := by
  unfold admitFrame checkContentSize ensureTotalSizeLimit
  rw [hcap]

/-- A frame appends the same to another output, and ends where it ends. -/
theorem decodeZstandardFrame_moved {c c1 c' : Cursor} {header : ZstandardFrameHeader} {u u1 : Bytes}
    (h : decodeZstandardFrame bytesOutput options dictionary c header u = .ok (c1, u1)) (hc : Behind tail c c')
    (u' : Bytes) :
    ∃ x c1', u1 = u ++ x ∧ Behind tail c1 c1' ∧
      decodeZstandardFrame bytesOutput options dictionary c' header u' = .ok (c1', u' ++ x) := by
  obtain ⟨hin, hadmit, k, c2, hrun, hsum, hproduced⟩ := decodeZstandardFrame_ok_iff.1 h
  have hin' := (hc.forward hin).inside'
  rw [hcap] at hrun
  obtain ⟨x, c2', rfl, h2, hrun'⟩ := hrun.moved (hc.forward hin) (HistoryRel.start header.windowSize u u')
  obtain ⟨c1', hsum', h1⟩ := h2.readFrameChecksum hsum
  rw [List.drop_left] at hsum'
  rw [List.length_append, Nat.add_sub_cancel_left] at hproduced
  refine ⟨x, c1', rfl, h1, decodeZstandardFrame_ok_iff.2 ⟨hin', ?_, k, c2', ?_, ?_, ?_⟩⟩
  · rwa [admitFrame_uncapped hcap header u'.length u.length]
  · rwa [hcap]
  · rwa [List.drop_left]
  · rwa [List.length_append, Nat.add_sub_cancel_left]

/-- The frames of an input append the same to another output, and what is behind them is read from where they end. -/
theorem FramesRun.moved {c : Cursor} {u out : Bytes} (h : FramesRun options dictionary c u out) :
    ∀ {c' : Cursor} (u' : Bytes), Behind tail c c' → options.singleFrame = false →
      ∃ x c1', out = u ++ x ∧ c1'.pos ≤ c1'.src.length ∧ c1'.remainingSlice = tail ∧
        ∀ z, FramesRun options dictionary c' u' z ↔ FramesRun options dictionary c1' (u' ++ x) z := by
  induction h with
  | @done c u empty =>
    intro c' u' hc _
    refine ⟨[], c', (List.append_nil u).symm, hc.inside', ?_, fun z => by rw [List.append_nil]⟩
    rw [hc.rest, (isEmpty_iff_remainingSlice hc.inside).1 empty, List.nil_append]
  | @skippable c c1 u out frame nonempty header multi skip rest ih =>
    intro c' u' hc hmulti
    obtain ⟨c1', skip', h1⟩ := hc.skipSkippableFrame skip
    obtain ⟨x, c2', rfl, hin, htail, hiff⟩ := ih u' h1 hmulti
    refine ⟨x, c2', rfl, hin, htail, fun z => ?_⟩
    rw [← hiff, framesRun_of_nonempty (hc.nonempty nonempty), hc.parsed header]
    constructor
    · rintro ⟨fh, hfh, hrun⟩
      cases hfh
      obtain ⟨-, c3, hskip, hrun⟩ := hrun
      rw [skip'] at hskip
      cases hskip
      exact hrun
    · intro hrun
      exact ⟨_, rfl, multi, c1', skip', hrun⟩
  | @zstandard c c1 u u1 out header nonempty parsed decode single rest ih =>
    intro c' u' hc hmulti
    obtain ⟨x, c1', rfl, h1, decode'⟩ := decodeZstandardFrame_moved hcap decode hc u'
    obtain ⟨y, c2', rfl, hin, htail, hiff⟩ := ih (u' ++ x) h1 hmulti
    refine ⟨x ++ y, c2', List.append_assoc _ _ _, hin, htail, fun z => ?_⟩
    rw [← List.append_assoc, ← hiff, framesRun_of_nonempty (hc.nonempty nonempty), hc.parsed parsed]
    constructor
    · rintro ⟨fh, hfh, hrun⟩
      cases hfh
      obtain ⟨c3, u3, hdecode, -, hrun⟩ := hrun
      rw [decode'] at hdecode
      cases hdecode
      exact hrun
    · intro hrun
      exact ⟨_, rfl, c1', _, decode', fun h => (by rw [hmulti] at h; cases h), hrun⟩

/-- From where nothing is left but `b`, the frames of `b` are read as on their own. -/
theorem framesRun_iff_of_remainingSlice {b : Bytes} {c : Cursor} (hin : c.pos ≤ c.src.length)
    (hrest : c.remainingSlice = b)
    (hmulti : options.singleFrame = false) (u z : Bytes) :
    FramesRun options dictionary c u z ↔ ∃ y, z = u ++ y ∧ FramesRun options dictionary (.new b) [] y := by
  have hbehind : Behind [] c (.new b) :=
    ⟨hin, Nat.zero_le _, by rw [hrest, List.append_nil]; rfl⟩
  constructor
  · intro hrun
    obtain ⟨y, c1, rfl, hin1, hrest1, hiff⟩ := hrun.moved hcap [] hbehind hmulti
    refine ⟨y, rfl, (hiff y).2 ?_⟩
    exact (framesRun_of_empty ((isEmpty_iff_remainingSlice hin1).2 hrest1)).2 rfl
  · rintro ⟨y, rfl, hrun⟩
    obtain ⟨y', c1, hy, hin1, hrest1, hiff⟩ := hrun.moved hcap u hbehind.symm hmulti
    obtain rfl : y = y' := hy
    exact (hiff _).2 ((framesRun_of_empty ((isEmpty_iff_remainingSlice hin1).2 hrest1)).2 rfl)

/-- Two inputs one behind the other, without a cap. -/
theorem decodeInto_append {a b x : Bytes} (hmulti : options.singleFrame = false)
    (ha : decodeInto bytesOutput options dictionary a [] = .ok x) (hb : b ≠ []) (z : Bytes) :
    decodeInto bytesOutput options dictionary (a ++ b) [] = .ok z ↔
      ∃ y, decodeInto bytesOutput options dictionary b [] = .ok y ∧ z = x ++ y := by
  obtain ⟨-, hrun⟩ := decodeInto_ok_iff.1 ha
  have hbehind : Behind b (.new a) (.new (a ++ b)) := ⟨Nat.zero_le _, Nat.zero_le _, rfl⟩
  obtain ⟨x', c1, hx, hin, hrest, hiff⟩ := hrun.moved hcap [] hbehind hmulti
  obtain rfl : x = x' := hx
  rw [decodeInto_ok_iff, hiff, framesRun_iff_of_remainingSlice hcap hin hrest hmulti]
  constructor
  · rintro ⟨-, y, rfl, hy⟩
    exact ⟨y, decodeInto_ok_iff.2 ⟨hb, hy⟩, rfl⟩
  · rintro ⟨y, hy, rfl⟩
    exact ⟨by simp [hb], y, rfl, (decodeInto_ok_iff.1 hy).2⟩

end Moved

/-! ## Concatenation -/

section Append

variable {options : DecoderOptions} {dictionary : Option DecoderDictionary}

/-- Under a cap the decoder gives what it gives without one, where that fits. -/
theorem decodeAll_ok_iff_uncapped (alloc : Allocator) (hcap : ∀ cap ∈ options.maxOutputSize, cap ≤ usizeMax)
    (src out : Bytes) :
    decodeAll alloc options dictionary src = .ok out ↔
      decodeAll alloc (options.withCap none) dictionary src = .ok out ∧
        ∀ cap ∈ options.maxOutputSize, out.length ≤ cap := by
  cases hmax : options.maxOutputSize with
  | none =>
    have hsame : options.withCap none = options := by unfold DecoderOptions.withCap; rw [← hmax]
    simp [hsame]
  | some cap =>
    have hsame : options.withCap (some cap) = options := by unfold DecoderOptions.withCap; rw [← hmax]
    have hcapped := @decodeAll_withCap_iff cap dictionary alloc options (hcap cap hmax) src out
    rw [hsame] at hcapped
    simpa using hcapped

/-- The frames of two inputs, one input behind the other: where the first decodes on its own, the two decode to its
output followed by what the second decodes to on its own, as far as the cap allows, and to nothing else. -/
theorem decodeAll_append (alloc : Allocator) (hcap : ∀ cap ∈ options.maxOutputSize, cap ≤ usizeMax)
    (hmulti : options.singleFrame = false) {a b x : Bytes} (ha : decodeAll alloc options dictionary a = .ok x)
    (hb : b ≠ []) (z : Bytes) :
    decodeAll alloc options dictionary (a ++ b) = .ok z ↔
      ∃ y, decodeAll alloc options dictionary b = .ok y ∧ z = x ++ y ∧
        ∀ cap ∈ options.maxOutputSize, x.length + y.length ≤ cap := by
  have hfree := (decodeAll_ok_iff_uncapped alloc hcap a x).1 ha
  rw [decodeAll_ok_iff_uncapped alloc hcap, decodeAll_eq]
  rw [decodeAll_eq] at hfree
  have hnone : (options.withCap none).maxOutputSize = none := rfl
  rw [decodeInto_append hnone hmulti hfree.1 hb]
  constructor
  · rintro ⟨⟨y, hy, rfl⟩, hfits⟩
    rw [List.length_append] at hfits
    refine ⟨y, (decodeAll_ok_iff_uncapped alloc hcap b y).2 ⟨by rwa [decodeAll_eq], ?_⟩, rfl, hfits⟩
    exact fun cap hc => le_trans (Nat.le_add_left _ _) (hfits cap hc)
  · rintro ⟨y, hy, rfl, hfits⟩
    have hyfree := ((decodeAll_ok_iff_uncapped alloc hcap b y).1 hy).1
    rw [decodeAll_eq] at hyfree
    exact ⟨⟨y, hyfree, rfl⟩, by rwa [List.length_append]⟩

/-- The frame of one byte twice, under a cap of two bytes. -/
theorem decodeAll_append_oneByteFrame :
    decodeAll zeroAllocator (DecoderOptions.initial.withCap (some 2)) none (oneByteFrame ++ oneByteFrame) =
      .ok [0x61, 0x61] := by
  have hcap : ∀ cap ∈ (DecoderOptions.initial.withCap (some 2)).maxOutputSize, cap ≤ usizeMax := by
    rintro cap ⟨⟩
    decide
  have hone : decodeAll zeroAllocator (DecoderOptions.initial.withCap (some 2)) none oneByteFrame = .ok [0x61] := by
    decide
  refine (decodeAll_append zeroAllocator hcap rfl hone (by decide) _).2 ⟨[0x61], hone, rfl, ?_⟩
  rintro cap ⟨⟩
  decide

end Append

end Zstandard
