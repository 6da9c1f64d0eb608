/-
The frame walkers agree with the decoder. On an input that decodes, `find_frame_compressed_size`
cuts off exactly the frame the decoder reads, `decompress_bound` is at least what it produces and
`decompressed_size`, where it is known, is exactly that; and each frame decodes by itself.

The walk follows the decoder's run block by block (`BlocksRun.walk`). A frame decoded by itself is the
same run in a window of the input (`Cursor.Window`) and on an output that starts with it
(`BlocksRun.window`).
-/
import Zstandard.Decode.Run
import Zstandard.Decode.History

namespace Zstandard

open Simulation

/-! ## The walk -/

theorem BlockHeader.parse_take {src : Bytes} {header : BlockHeader}
    (h : BlockHeader.parse (src.take blockHeaderSize) = .ok header) : BlockHeader.parse src = .ok header := by
  have := BlockHeader.parse_incremental.ok_append h (src.drop blockHeaderSize)
  rwa [List.take_append_drop] at this

/-- The walker takes the decoder's steps. -/
theorem BlocksRun.walk {p : FrameParams} {limit : OutputLimit} {c c' : Cursor} {st : EntropyState} {out out' : Bytes}
    {k : Nat} (h : BlocksRun p limit c st out k c' out') {start : Nat} :
    start ≤ c.pos → ∀ (fuel n : Nat), c.src.length ≤ c.pos + fuel →
      walkBlocks (c.src.drop start) fuel (c.pos - start) n = .ok (c'.pos - start, n + k) := by
  induction h with
  | last read _ isLast =>
    intro hs fuel n hf
    have hin := read.inside
    cases fuel with
    | zero => simp only [blockHeaderSize] at hin; omega
    | succ fuel =>
      unfold walkBlocks getFrom
      rw [if_pos (by simp; omega), ok_bind, List.drop_drop, Nat.add_sub_cancel' hs,
        BlockHeader.parse_take read.parsed, ok_bind, read.cursor]
      simp only [isLast, if_true, List.length_drop]
      rw [if_neg (by omega), Nat.sub_add_comm hs]
  | more read _ notLast _ ih =>
    intro hs fuel n hf
    have hin := read.inside
    have hcur := read.cursor
    cases fuel with
    | zero => simp only [blockHeaderSize] at hin; omega
    | succ fuel =>
      unfold walkBlocks getFrom
      rw [if_pos (by simp; omega), ok_bind, List.drop_drop, Nat.add_sub_cancel' hs,
        BlockHeader.parse_take read.parsed, ok_bind]
      simp only [notLast, Bool.false_eq_true, if_false, List.length_drop]
      rw [hcur] at ih
      simp only at ih
      have := ih (by omega) fuel (n + 1) (by simp only [blockHeaderSize] at *; omega)
      rw [Nat.sub_add_comm hs] at this
      rw [if_neg (by omega), this]
      congr 2; omega

/-- Where a decoded frame ends, and what its headers say about its size. -/
structure FrameSized (format : Format) (c : Cursor) (header : ZstandardFrameHeader) (produced : Nat) (c' : Cursor)
    (blocks : Nat) : Prop where
  done : FrameDone c c'
  walk : walkBlocks c.remainingSlice c.remainingSlice.length header.headerSize 0 =
    .ok (c'.pos - c.pos - (if header.checksum then 4 else 0), blocks)
  info : frameSizeInfo format c.remainingSlice = .ok {
    compressedSize := c'.pos - c.pos
    decompressedBound := header.contentSize.getD (saturatingMul blocks header.blockSizeMax)
    declaredSize := header.contentSize }
  le : produced ≤ blocks * header.blockSizeMax
  declared : ∀ n ∈ header.contentSize, produced = n

theorem checkProduced_ok {header : ZstandardFrameHeader} {n : Nat} (h : checkProduced header n = .ok ()) :
    ∀ m ∈ header.contentSize, n = m := by
  intro m hm
  unfold checkProduced at h
  rw [Option.mem_def.1 hm] at h
  by_contra hne
  simp [hne] at h

theorem decodeZstandardFrame_sized {options : DecoderOptions} {dictionary : Option DecoderDictionary} {c c' : Cursor}
    {header : ZstandardFrameHeader} {out out' : Bytes}
    (hp : parseFrameHeaderWithFormat options.format c.remainingSlice = .ok (.zstandard header))
    (h : decodeZstandardFrame bytesOutput options dictionary c header out = .ok (c', out')) :
    out.length ≤ out'.length ∧
      ∃ k, FrameSized options.format c header (out'.length - out.length) c' k := by
  obtain ⟨c1, k, c2, h1, -, hrun, hsum, hprod⟩ := decodeZstandardFrame_run h
  obtain ⟨hin1, -, rfl⟩ := Cursor.readExact_ok h1
  have hd := hrun.done (EntropyState.initial_ok dictionary) (by exact le_refl _)
  obtain ⟨hsrc, hfwd, hins, hgrow, hle⟩ := hd
  simp only at hsrc hfwd hle
  obtain ⟨hc', hins'⟩ := readFrameChecksum_ok hsum hins
  have hpos : c'.pos = c2.pos + if header.checksum then 4 else 0 := by rw [hc']
  have hsrc' : c'.src = c.src := by rw [hc']; exact hsrc
  have hstart : c.pos ≤ c.pos + header.headerSize := by omega
  have hwalk := hrun.walk hstart c.remainingSlice.length 0
    (by simp only [Cursor.remainingSlice, List.length_drop]; omega)
  simp only [Nat.add_sub_cancel_left, Nat.zero_add] at hwalk
  change walkBlocks c.remainingSlice _ _ _ = _ at hwalk
  refine ⟨hgrow, k, ⟨hsrc', by rw [hpos]; omega, hins'⟩, ?_, ?_, by omega, checkProduced_ok hprod⟩
  · rw [hwalk, hpos]; congr 2; omega
  · unfold frameSizeInfo
    rw [hp, ok_bind]
    simp only [hwalk, ok_bind]
    have hskip : skipChecksum header.checksum c.remainingSlice (c2.pos - c.pos) = .ok (c'.pos - c.pos) := by
      unfold skipChecksum
      rw [hpos] at hins' ⊢
      simp only [Cursor.remainingSlice, List.length_drop]
      rw [hsrc'] at hins'
      split
      · rename_i hck
        simp only [hck, if_true] at hins' ⊢
        rw [if_neg (by omega)]; congr 1; omega
      · simp only [Nat.add_zero]
    rw [hskip, ok_bind]

/-! ## A frame by itself -/

/-- The second cursor reads the `n` bytes from `start` of the first one's input. -/
structure Cursor.Window (start n : Nat) (cA cB : Cursor) : Prop where
  src : cB.src = (cA.src.drop start).take n
  pos : cA.pos = start + cB.pos
  fits : start + n ≤ cA.src.length

namespace Cursor.Window

variable {start n : Nat} {cA cB cA' : Cursor}

theorem length (h : Cursor.Window start n cA cB) : cB.src.length = n := by
  have := h.fits
  rw [h.src]; simp; omega

theorem slice (h : Cursor.Window start n cA cB) {i m : Nat} (hm : i + m ≤ n) :
    (cB.src.drop i).take m = (cA.src.drop (start + i)).take m := by
  rw [h.src, List.drop_take, List.take_take, List.drop_drop, min_eq_left (by omega)]

theorem advance (h : Cursor.Window start n cA cB) (m : Nat) :
    Cursor.Window start n { cA with pos := cA.pos + m } { cB with pos := cB.pos + m } :=
  ⟨h.src, by simp only; rw [h.pos]; omega, h.fits⟩

theorem readExact (h : Cursor.Window start n cA cB) {m : Nat} {bytes : Bytes}
    (hr : cA.readExact m = .ok (bytes, cA')) (hle : cA'.pos ≤ start + n) :
    ∃ cB', cB.readExact m = .ok (bytes, cB') ∧ Cursor.Window start n cA' cB' := by
  have hpos := h.pos
  obtain ⟨-, rfl, rfl⟩ := Cursor.readExact_ok hr
  simp only at hle
  refine ⟨_, ?_, h.advance m⟩
  rw [Cursor.readExact_of_le (by rw [h.length]; omega), h.slice (by omega), ← hpos]

theorem blockRead (h : Cursor.Window start n cA cB) {header : BlockHeader} {payload : Bytes}
    (hr : BlockRead cA header payload cA') (hle : cA'.pos ≤ start + n) :
    ∃ cB', BlockRead cB header payload cB' ∧ Cursor.Window start n cA' cB' := by
  have hpos := h.pos
  obtain ⟨h1, h2, rfl, rfl⟩ := hr
  simp only at hle
  refine ⟨_, ⟨?_, by rw [h.length]; omega, ?_, rfl⟩, h.advance _⟩
  · rw [h.slice (by omega), ← hpos]; exact h1
  · rw [h.slice (by omega)]; congr 2; omega

end Cursor.Window

/-- The same run, in a window of the input and on an output with the same history. -/
theorem BlocksRun.window {pA : FrameParams} {limitA limitB : OutputLimit} {cA cA' : Cursor} {st : EntropyState}
    {a a' : Bytes} {k : Nat} (h : BlocksRun pA limitA cA st a k cA' a') {start n fsB : Nat} :
    ∀ {cB : Cursor} {b : Bytes}, st.Ok → Cursor.Window start n cA cB → cA'.pos ≤ start + n →
      HistoryRel pA.windowSize pA.frameStart a fsB b → LimitLe limitA a.length limitB b.length →
      ∃ cB' b', BlocksRun { pA with frameStart := fsB } limitB cB st b k cB' b' ∧ Cursor.Window start n cA' cB' ∧
        Extends a b a' b' := by
  induction h with
  | last read decode isLast =>
    intro cB b _ hw hle hh hl
    obtain ⟨cB', hr, hw'⟩ := hw.blockRead read hle
    obtain ⟨⟨b', st'⟩, hb, hx, rfl⟩ := decodeBlock_follows hh hl (p := pA) rfl _ _ _ _ decode
    exact ⟨cB', b', .last hr hb isLast, hw', hx⟩
  | more read decode notLast rest ih =>
    intro cB b hst hw hle hh hl
    have hd := decodeBlock_decoded read.payload_length hst hh.le.1 decode
    have hmono := (rest.done hd.ok (le_trans hh.le.1 hd.grows)).forward
    obtain ⟨cB', hr, hw'⟩ := hw.blockRead read (by omega)
    obtain ⟨⟨b', st'⟩, hb, hx, rfl⟩ := decodeBlock_follows hh hl (p := pA) rfl _ _ _ _ decode
    obtain ⟨x, ha', hb'⟩ := hx
    simp only at ha' hb'
    subst ha' hb'
    obtain ⟨cB'', b'', hrun, hw'', y, hay, hby⟩ := ih hd.ok hw' hle (hh.append x)
      (by rw [List.length_append, List.length_append]; exact hl.add _)
    exact ⟨cB'', b'', .more hr hb notLast hrun, hw'', x ++ y, by rw [hay, List.append_assoc],
      by rw [hby, List.append_assoc]⟩

theorem readFrameChecksum_window {options : DecoderOptions} {header : ZstandardFrameHeader} {start n : Nat}
    {cA cB cA' : Cursor} (h : Cursor.Window start n cA cB) {frame : Bytes}
    (hr : readFrameChecksum options header cA frame = .ok cA') (hle : cA'.pos ≤ start + n) :
    ∃ cB', readFrameChecksum options header cB frame = .ok cB' ∧ Cursor.Window start n cA' cB' := by
  unfold readFrameChecksum at hr ⊢
  split at hr
  · rw [if_pos (by assumption)]
    obtain ⟨⟨expected, c1⟩, h1, hr⟩ := bind_ok hr
    obtain ⟨⟨bytes, c2⟩, h2, h1⟩ := bind_ok h1
    simp only [Except.ok.injEq, Prod.mk.injEq] at h1
    obtain ⟨rfl, rfl⟩ := h1
    have hcheck : cA' = c2 ∧ (options.verifyChecksum = true →
        checkChecksum (readU32Le bytes) (frameChecksum frame) = .ok ()) := by
      simp only at hr
      split at hr
      · obtain ⟨_, hc, hr⟩ := bind_ok hr; cases hr; exact ⟨rfl, fun _ => hc⟩
      · rename_i hv; cases hr; exact ⟨rfl, fun hv' => absurd hv' hv⟩
    obtain ⟨rfl, hcheck⟩ := hcheck
    obtain ⟨cB', h3, h4⟩ := h.readExact h2 hle
    refine ⟨cB', ?_, h4⟩
    unfold Cursor.readU32Le
    rw [h3, ok_bind, ok_bind]
    simp only
    split
    · rename_i hv; rw [hcheck hv, ok_bind]
    · rfl
  · rw [if_neg (by assumption)]
    cases hr
    exact ⟨cB, rfl, h⟩

theorem admitFrame_nil {dictionary : Option DecoderDictionary} {options : DecoderOptions}
    {header : ZstandardFrameHeader}
    {n : Nat} (h : admitFrame dictionary options header n = .ok ()) :
    admitFrame dictionary options header 0 = .ok () := by
  unfold admitFrame at h ⊢
  obtain ⟨_, h1, h⟩ := bind_ok h
  obtain ⟨_, h2, h⟩ := bind_ok h
  rw [h1, ok_bind, h2, ok_bind]
  unfold checkContentSize ensureTotalSizeLimit at h ⊢
  cases hs : header.contentSize with
  | none => rfl
  | some size =>
    rw [hs] at h
    cases hm : options.maxOutputSize with
    | none => rfl
    | some max =>
      rw [hm] at h
      obtain ⟨total, ht, h⟩ := bind_ok h
      obtain ⟨rfl, hlt⟩ := checkedAdd_ok ht
      simp only
      rw [checkedAdd_of_lt (by omega), ok_bind]
      split at h
      · cases h
      · rw [if_neg (by omega)]

/-- The bytes of a frame. -/
def framePiece (c c' : Cursor) : Bytes := (c.src.drop c.pos).take (c'.pos - c.pos)

/-- A frame that decodes inside an input decodes by itself, to the bytes it appended. -/
theorem decodeZstandardFrame_piece {options : DecoderOptions} {dictionary : Option DecoderDictionary} {c c' : Cursor}
    {header : ZstandardFrameHeader} {out out' : Bytes}
    (hp : parseFrameHeaderWithFormat options.format c.remainingSlice = .ok (.zstandard header))
    (h : decodeZstandardFrame bytesOutput options dictionary c header out = .ok (c', out')) :
    ∃ x, out' = out ++ x ∧
      decodeZstandardFrame bytesOutput options dictionary (.new (framePiece c c')) header [] =
        .ok ({ src := framePiece c c', pos := c'.pos - c.pos }, x) := by
  obtain ⟨hgrow, k, hsized⟩ := decodeZstandardFrame_sized hp h
  obtain ⟨hsrc, hfwd, hins⟩ := hsized.done
  obtain ⟨c1, k', c2, h1, hpermit, hrun, hsum, hprod⟩ := decodeZstandardFrame_run h
  have hw : Cursor.Window c.pos (c'.pos - c.pos) c (.new (framePiece c c')) :=
    ⟨rfl, rfl, by rw [← hsrc]; omega⟩
  obtain ⟨hin1, -, hc1⟩ := Cursor.readExact_ok h1
  have hd := hrun.done (EntropyState.initial_ok dictionary) (by exact le_refl _)
  have hpos := (readFrameChecksum_ok hsum hd.inside).1
  have hfwd2 := hd.forward
  rw [hc1] at hfwd2
  have hle2 : c2.pos ≤ c'.pos := by rw [hpos]; simp only; omega
  simp only at hfwd2
  obtain ⟨cB1, hr1, hw1⟩ := hw.readExact h1 (by rw [hc1]; simp only; omega)
  have hlimit : LimitLe (.wholeOutput options.maxOutputSize) out.length (.wholeOutput options.maxOutputSize)
      ([] : Bytes).length := ⟨rfl, by simp [OutputLimit.produced, OutputLimit.wholeOutput]⟩
  have hstart : HistoryRel header.windowSize out.length out 0 [] := .start _ out []
  obtain ⟨cB2, b', hrunB, hw2, x, hax, hbx⟩ := hrun.window (EntropyState.initial_ok dictionary) hw1 (by omega)
    hstart hlimit
  rw [List.nil_append] at hbx
  subst hax hbx
  rw [List.drop_left] at hsum
  obtain ⟨cB3, hsumB, hw3⟩ := readFrameChecksum_window hw2 hsum (by omega)
  have hcB3 : cB3 = { src := framePiece c c', pos := c'.pos - c.pos } := by
    obtain ⟨src, pos⟩ := cB3
    have h3 := hw3.pos
    have h4 := hw3.src
    simp only at h3 h4
    rw [hsrc] at h4
    rw [show pos = c'.pos - c.pos by omega, h4]
    rfl
  rw [List.length_append, Nat.add_sub_cancel_left] at hprod
  refine ⟨b', rfl, ?_⟩
  unfold decodeZstandardFrame
  have hlen : ∀ b : Bytes, bytesOutput.len b = b.length := fun _ => rfl
  have hslice : ∀ b : Bytes, bytesOutput.asSlice b = b := fun _ => rfl
  rw [hr1, ok_bind]
  simp only [hlen, hslice, List.length_nil, List.drop_zero, Nat.sub_zero]
  have hblocks := hrunB.decodeBlocks (Nat.le_add_left cB1.src.length cB1.pos)
  simp only at hblocks
  rw [admitFrame_nil hpermit, ok_bind, hblocks, ok_bind]
  simp only
  rw [hsumB, ok_bind, hprod, ok_bind, hcB3]

/-! ## Every frame -/

/-- The size a frame declares or, where it declares none, the size its block headers allow. -/
def declaredOrAllowed (format : Format) (src : Bytes) : Nat :=
  match parseFrameHeaderWithFormat format src with
  | .ok (.zstandard header) =>
    match walkBlocks src src.length header.headerSize 0 with
    | .ok (_, blocks) => header.contentSize.getD (blocks * header.blockSizeMax)
    | .error _ => 0
  | _ => 0

/-- A frame of an input: its bytes, what the walker says of it, the size it declares or allows, and
what it decodes to. -/
structure SizedFrame where
  piece : Bytes
  info : FrameSizeInfo
  allowed : Nat
  out : Bytes

section Frames

variable (options : DecoderOptions) (dictionary : Option DecoderDictionary)

/-- `f` is the first frame of `src`. -/
structure SizedFrame.Heads (src : Bytes) (f : SizedFrame) : Prop where
  info : frameSizeInfo options.format src = .ok f.info
  pos : 0 < f.info.compressedSize
  inside : f.info.compressedSize ≤ src.length
  piece : f.piece = src.take f.info.compressedSize
  whole : findFrameCompressedSizeWithFormat options.format f.piece = .ok f.piece.length
  decode : decodeInto bytesOutput options dictionary f.piece [] = .ok f.out
  allowed : declaredOrAllowed options.format src = f.allowed
  bound : f.allowed < 2 ^ 64 → f.info.decompressedBound = f.allowed
  le : f.out.length ≤ f.allowed
  declared : ∀ n ∈ f.info.declaredSize, f.out.length = n

/-- An input cut into its frames. -/
inductive FramesCut : Bytes → List SizedFrame → Prop
  | nil : FramesCut [] []
  | cons {src : Bytes} {f : SizedFrame} {frames : List SizedFrame} (head : f.Heads options dictionary src)
    (tail : FramesCut (src.drop f.info.compressedSize) frames) : FramesCut src (f :: frames)

end Frames

section Cut

variable {options : DecoderOptions} {dictionary : Option DecoderDictionary}

theorem decodeInto_skippable {piece : Bytes} {frame : SkippableFrame}
    (hp : parseFrameHeaderWithFormat options.format piece = .ok (.skippable frame))
    (hs : options.singleFrame = false) (hlen : piece.length = frame.headerSize + frame.size)
    (hpos : 0 < frame.headerSize) : decodeInto bytesOutput options dictionary piece [] = .ok [] := by
  obtain ⟨n, hn⟩ : ∃ n, piece.length = n + 1 := ⟨piece.length - 1, by omega⟩
  unfold decodeInto
  rw [if_neg (by simp; rintro rfl; simp at hn), hn]
  unfold decodeFrames
  have hne : (Cursor.new piece).isEmpty = false := by simp [Cursor.isEmpty, Cursor.new, hn]
  have hskip : skipSkippableFrame (.new piece) frame = .ok { src := piece, pos := piece.length } := by
    unfold skipSkippableFrame
    rw [Cursor.readExact_of_le (by simp [Cursor.new, hlen]), ok_bind]
    simp [Cursor.new, hlen]
  rw [hne]
  simp only [Bool.false_eq_true, if_false]
  rw [show (Cursor.new piece).remainingSlice = piece from rfl, hp, ok_bind]
  simp only [hs, Bool.false_eq_true, if_false, hskip, ok_bind]
  cases n <;> simp [decodeFrames, Cursor.isEmpty]

theorem decodeInto_zstandard {piece x : Bytes} {header : ZstandardFrameHeader}
    (hp : parseFrameHeaderWithFormat options.format piece = .ok (.zstandard header)) (hpos : 0 < piece.length)
    (hd : decodeZstandardFrame bytesOutput options dictionary (.new piece) header [] =
      .ok ({ src := piece, pos := piece.length }, x)) : decodeInto bytesOutput options dictionary piece [] = .ok x := by
  obtain ⟨n, hn⟩ : ∃ n, piece.length = n + 1 := ⟨piece.length - 1, by omega⟩
  unfold decodeInto
  rw [if_neg (by simp; rintro rfl; simp at hn), hn]
  unfold decodeFrames
  have hne : (Cursor.new piece).isEmpty = false := by simp [Cursor.isEmpty, Cursor.new, hn]
  rw [hne]
  simp only [Bool.false_eq_true, if_false]
  rw [show (Cursor.new piece).remainingSlice = piece from rfl, hp, ok_bind]
  simp only [hd, ok_bind]
  have hempty : ({ src := piece, pos := piece.length } : Cursor).isEmpty = true := by simp [Cursor.isEmpty]
  rw [hempty]
  cases n <;> simp [decodeFrames, hempty]

theorem skippable_heads (dictionary : Option DecoderDictionary) {c c' : Cursor} {frame : SkippableFrame}
    (hin : c.pos ≤ c.src.length)
    (hp : parseFrameHeaderWithFormat options.format c.remainingSlice = .ok (.skippable frame))
    (hs : options.singleFrame = false) (h : skipSkippableFrame c frame = .ok c') :
    ∃ f : SizedFrame, f.Heads options dictionary c.remainingSlice ∧ f.out = [] ∧
      c'.remainingSlice = c.remainingSlice.drop f.info.compressedSize ∧ c'.pos ≤ c'.src.length := by
  obtain ⟨⟨_, c1⟩, h1, h⟩ := bind_ok h
  cases h
  obtain ⟨hin', -, rfl⟩ := Cursor.readExact_ok h1
  have h8 : frame.headerSize = 8 := by
    rcases parseFrameHeader_ok hp with ⟨_, h, _⟩ | ⟨frame', h, h8, _⟩
    · cases h
    · cases h; exact h8
  have hlen : c.remainingSlice.length = c.src.length - c.pos := by simp [Cursor.remainingSlice]
  refine ⟨{ piece := c.remainingSlice.take (frame.headerSize + frame.size)
            info := { compressedSize := frame.headerSize + frame.size, decompressedBound := 0, declaredSize := some 0 }
            allowed := 0, out := [] }, ?_, rfl, ?_, hin'⟩
  · have hparse : parseFrameHeaderWithFormat options.format (c.remainingSlice.take (frame.headerSize + frame.size)) =
        .ok (.skippable frame) := parseFrameHeader_take hp (by simp only; omega)
    have hplen : (c.remainingSlice.take (frame.headerSize + frame.size)).length = frame.headerSize + frame.size := by
      rw [List.length_take]; omega
    refine ⟨?_, by simp only; omega, by simp only; omega, rfl, ?_, ?_, ?_, fun _ => rfl, le_refl _, ?_⟩
    · unfold frameSizeInfo
      rw [hp, ok_bind]
      simp only
      rw [if_neg (by omega)]
    · unfold findFrameCompressedSizeWithFormat frameSizeInfo
      rw [hparse, ok_bind]
      simp only
      rw [if_neg (by omega), ok_bind, hplen]
    · exact decodeInto_skippable hparse hs hplen (by omega)
    · unfold declaredOrAllowed
      rw [hp]
    · rintro n hn; cases hn; rfl
  · simp [Cursor.remainingSlice]

theorem zstandard_heads {c c' : Cursor} {header : ZstandardFrameHeader} {out out' : Bytes}
    (hp : parseFrameHeaderWithFormat options.format c.remainingSlice = .ok (.zstandard header))
    (h : decodeZstandardFrame bytesOutput options dictionary c header out = .ok (c', out')) :
    ∃ f : SizedFrame, f.Heads options dictionary c.remainingSlice ∧ out' = out ++ f.out ∧
      c'.remainingSlice = c.remainingSlice.drop f.info.compressedSize ∧ c'.pos ≤ c'.src.length := by
  obtain ⟨_, k, hsized⟩ := decodeZstandardFrame_sized hp h
  obtain ⟨x, rfl, hpiece⟩ := decodeZstandardFrame_piece hp h
  obtain ⟨⟨hsrc, hfwd, hins⟩, hwalk, hinfo, hle, hdecl⟩ := hsized
  rw [List.length_append, Nat.add_sub_cancel_left] at hle hdecl
  have hlen : c.remainingSlice.length = c.src.length - c.pos := by simp [Cursor.remainingSlice]
  have hins2 : c'.pos ≤ c.src.length := hsrc ▸ hins
  have hplen : (framePiece c c').length = c'.pos - c.pos := by
    simp only [framePiece, List.length_take, List.length_drop]
    omega
  -- the header of the piece is the frame's, since the piece's decoding reads it whole
  have hparse : parseFrameHeaderWithFormat options.format (framePiece c c') = .ok (.zstandard header) := by
    obtain ⟨c1, _, _, h1, _⟩ := decodeZstandardFrame_run hpiece
    obtain ⟨hhead, -, -⟩ := Cursor.readExact_ok h1
    simp only [Cursor.new, Nat.zero_add] at hhead
    exact parseFrameHeader_take hp (by simp only; omega)
  refine ⟨{ piece := framePiece c c', info := _, allowed := header.contentSize.getD (k * header.blockSizeMax)
            out := x }, ⟨hinfo, by simp only; omega, by simp only; omega, rfl, ?_, ?_, ?_, ?_, ?_, hdecl⟩,
    rfl, ?_, hins⟩
  · obtain ⟨_, k', hs⟩ := decodeZstandardFrame_sized (c := .new (framePiece c c')) hparse hpiece
    have hinfo' := hs.info
    change frameSizeInfo options.format (framePiece c c') = _ at hinfo'
    unfold findFrameCompressedSizeWithFormat
    simp only
    rw [hinfo', ok_bind, hplen]
    rfl
  · exact decodeInto_zstandard hparse (show 0 < (framePiece c c').length by omega) (by rw [hplen]; exact hpiece)
  · unfold declaredOrAllowed
    rw [hp]
    simp only [hwalk]
  · simp only
    cases header.contentSize with
    | some n => intro _; rfl
    | none =>
      intro hlt
      simp only [Option.getD_none] at hlt ⊢
      exact min_eq_left (by omega)
  · simp only
    cases hc : header.contentSize with
    | some n => rw [hdecl n hc]; exact le_refl _
    | none => exact hle
  · simp only [Cursor.remainingSlice, hsrc, List.drop_drop]
    congr 1; omega

/-- A run over the frames of an input cuts it into them. -/
theorem FramesRun.cut {c : Cursor} {out out' : Bytes} (h : FramesRun options dictionary c out out') :
    c.pos ≤ c.src.length →
      ∃ frames, FramesCut options dictionary c.remainingSlice frames ∧ out' = out ++ (frames.map (·.out)).flatten := by
  induction h with
  | @done c out empty =>
    intro _
    have hend : c.remainingSlice = [] := by
      simp only [Cursor.isEmpty, decide_eq_true_eq] at empty
      simp [Cursor.remainingSlice, empty]
    rw [hend]
    exact ⟨[], .nil, by simp⟩
  | skippable _ header multi skip _ ih =>
    intro hin
    obtain ⟨f, hf, hout, hrest, hin'⟩ := skippable_heads dictionary hin header multi skip
    obtain ⟨frames, hcut, rfl⟩ := ih hin'
    rw [hrest] at hcut
    exact ⟨f :: frames, .cons hf hcut, by simp [hout]⟩
  | zstandard _ parsed decode _ _ ih =>
    intro _
    obtain ⟨f, hf, rfl, hrest, hin'⟩ := zstandard_heads parsed decode
    obtain ⟨frames, hcut, rfl⟩ := ih hin'
    rw [hrest] at hcut
    exact ⟨f :: frames, .cons hf hcut, by simp⟩

/-- `find_frame_compressed_size` applied to what is left, until nothing is. -/
def cutFrames (format : Format) : Nat → Bytes → Result (List Bytes)
  | _, [] => .ok []
  | 0, _ => .error .generic
  | fuel + 1, src => do
    let n ← findFrameCompressedSizeWithFormat format src
    let pieces ← cutFrames format fuel (src.drop n)
    .ok (src.take n :: pieces)

/-- The sum of the sizes the frames of an input declare, with the size its block headers allow
standing in for a frame that declares none. -/
def declaredSizes (format : Format) : Nat → Bytes → Nat
  | 0, _ => 0
  | fuel + 1, src =>
    match findFrameCompressedSizeWithFormat format src with
    | .ok n => declaredOrAllowed format src + declaredSizes format fuel (src.drop n)
    | .error _ => 0

theorem SizedFrame.Heads.find {src : Bytes} {f : SizedFrame} (h : f.Heads options dictionary src) :
    findFrameCompressedSizeWithFormat options.format src = .ok f.info.compressedSize := by
  unfold findFrameCompressedSizeWithFormat
  rw [h.info, ok_bind]

theorem SizedFrame.Heads.nonempty {src : Bytes} {f : SizedFrame} (h : f.Heads options dictionary src) :
    ∃ b bs, src = b :: bs := by
  have h1 := h.pos
  have h2 := h.inside
  cases src with
  | nil => simp at h2; omega
  | cons b bs => exact ⟨b, bs, rfl⟩

theorem FramesCut.cutFrames {src : Bytes} {frames : List SizedFrame} (h : FramesCut options dictionary src frames) :
    ∀ {fuel : Nat}, src.length ≤ fuel → Zstandard.cutFrames options.format fuel src = .ok (frames.map (·.piece)) := by
  induction h with
  | nil => intro fuel _; cases fuel <;> rfl
  | cons head _ ih =>
    intro fuel hf
    have h1 := head.pos
    have h2 := head.inside
    obtain ⟨b, bs, rfl⟩ := head.nonempty
    cases fuel with
    | zero => simp at hf
    | succ fuel =>
      unfold Zstandard.cutFrames
      rw [head.find, ok_bind, ih (by rw [List.length_drop]; omega), ok_bind, List.map_cons, head.piece]

theorem FramesCut.flatten {src : Bytes} {frames : List SizedFrame} (h : FramesCut options dictionary src frames) :
    (frames.map (·.piece)).flatten = src := by
  induction h with
  | nil => rfl
  | cons head _ ih => rw [List.map_cons, List.flatten_cons, ih, head.piece, List.take_append_drop]

theorem FramesCut.decode {src : Bytes} {frames : List SizedFrame} (h : FramesCut options dictionary src frames) :
    List.Forall₂ (fun piece out => findFrameCompressedSizeWithFormat options.format piece = .ok piece.length ∧
      decodeInto bytesOutput options dictionary piece [] = .ok out) (frames.map (·.piece)) (frames.map (·.out)) := by
  induction h with
  | nil => exact .nil
  | cons head _ ih => exact .cons ⟨head.whole, head.decode⟩ ih

theorem FramesCut.declaredSizes {src : Bytes} {frames : List SizedFrame} (h : FramesCut options dictionary src frames) :
    ∀ {fuel : Nat}, src.length ≤ fuel →
      Zstandard.declaredSizes options.format fuel src = (frames.map (·.allowed)).sum := by
  induction h with
  | nil =>
    intro fuel _
    cases fuel with
    | zero => rfl
    | succ fuel =>
      have : findFrameCompressedSizeWithFormat options.format [] = .error .unexpectedEof := by
        cases hf : options.format <;> rfl
      unfold Zstandard.declaredSizes
      rw [this]
      rfl
  | cons head _ ih =>
    intro fuel hf
    have h1 := head.pos
    have h2 := head.inside
    cases fuel with
    | zero => omega
    | succ fuel =>
      unfold Zstandard.declaredSizes
      rw [head.find]
      simp only
      rw [ih (by rw [List.length_drop]; omega), head.allowed, List.map_cons, List.sum_cons]

/-- The walkers fold over the frames. -/
theorem FramesCut.forEachFrameLoop {α : Type} {fold : α → FrameSizeInfo → Result α} {src : Bytes}
    {frames : List SizedFrame} (h : FramesCut options dictionary src frames) :
    ∀ {fuel : Nat} {seed : α}, src.length ≤ fuel →
      Zstandard.forEachFrameLoop options.format fold fuel src seed =
        frames.foldlM (fun seed f => fold seed f.info) seed := by
  induction h with
  | nil => intro fuel seed _; cases fuel <;> rfl
  | cons head _ ih =>
    intro fuel seed hf
    have h1 := head.pos
    have h2 := head.inside
    have hinfo := head.info
    obtain ⟨b, bs, rfl⟩ := head.nonempty
    cases fuel with
    | zero => simp at hf
    | succ fuel =>
      unfold Zstandard.forEachFrameLoop
      rw [hinfo, ok_bind, List.foldlM_cons]
      congr 1
      funext seed'
      exact ih (by rw [List.length_drop]; omega)

theorem FramesCut.foldBound {src : Bytes} {frames : List SizedFrame} (h : FramesCut options dictionary src frames) :
    ∀ {total : Nat}, total + (frames.map (·.allowed)).sum < 2 ^ 64 →
      frames.foldlM (fun total (f : SizedFrame) => checkedAdd total f.info.decompressedBound
        .outputSizeOverflow) total =
        .ok (total + (frames.map (·.allowed)).sum) := by
  induction h with
  | nil => intro total _; rfl
  | cons head _ ih =>
    intro total hlt
    rw [List.map_cons, List.sum_cons] at hlt ⊢
    rw [List.foldlM_cons, head.bound (by omega), checkedAdd_of_lt (by omega), ok_bind, ih (by omega), Nat.add_assoc]

theorem FramesCut.length_le {src : Bytes} {frames : List SizedFrame} (h : FramesCut options dictionary src frames) :
    (frames.map (·.out)).flatten.length ≤ (frames.map (·.allowed)).sum := by
  induction h with
  | nil => exact le_refl _
  | cons head _ ih =>
    simp only [List.map_cons, List.flatten_cons, List.length_append, List.sum_cons]
    have := head.le
    omega

theorem foldlM_addDeclaredSize_none (frames : List SizedFrame) :
    frames.foldlM (fun total (f : SizedFrame) => addDeclaredSize total f.info) none = .ok none := by
  induction frames with
  | nil => rfl
  | cons f frames ih => rw [List.foldlM_cons]; exact ih

theorem FramesCut.foldDeclared {src : Bytes} {frames : List SizedFrame} (h : FramesCut options dictionary src frames) :
    ∀ {total : Nat}, total + (frames.map (·.allowed)).sum < 2 ^ 64 →
      ∃ size, frames.foldlM (fun total (f : SizedFrame) => addDeclaredSize total f.info) (some total) = .ok size ∧
        ∀ n ∈ size, n = total + (frames.map (·.out)).flatten.length := by
  induction h with
  | nil => intro total _; exact ⟨some total, rfl, fun n hn => by cases hn; rfl⟩
  | @cons src f frames head _ ih =>
    intro total hlt
    rw [List.map_cons, List.sum_cons] at hlt
    rw [List.foldlM_cons]
    have hle := head.le
    cases hd : f.info.declaredSize with
    | none =>
      have : addDeclaredSize (some total) f.info = .ok none := by unfold addDeclaredSize; rw [hd]
      rw [this, ok_bind, foldlM_addDeclaredSize_none]
      exact ⟨none, rfl, fun n hn => (nomatch hn)⟩
    | some n =>
      have hn := head.declared n hd
      have : addDeclaredSize (some total) f.info = .ok (some (total + n)) := by
        unfold addDeclaredSize
        rw [hd]
        simp only
        rw [checkedAdd_of_lt (by omega), ok_bind]
      rw [this, ok_bind]
      obtain ⟨size, hs, hall⟩ := ih (show total + n + _ < 2 ^ 64 by omega)
      refine ⟨size, hs, fun m hm => ?_⟩
      rw [hall m hm, List.map_cons, List.flatten_cons, List.length_append, hn, Nat.add_assoc]

end Cut

/-- Frame sizing is consistent with decoding. -/
theorem frameSizes_consistent (alloc : Allocator) (options : DecoderOptions) (dictionary : Option DecoderDictionary)
    (src out : Bytes) (h : decodeAll alloc options dictionary src = .ok out) :
    (∃ pieces outs, cutFrames options.format src.length src = .ok pieces ∧ pieces.flatten = src ∧
      List.Forall₂ (fun piece out => findFrameCompressedSizeWithFormat options.format piece = .ok piece.length ∧
        decodeAll alloc options dictionary piece = .ok out) pieces outs ∧
      outs.flatten = out) ∧
    (declaredSizes options.format src.length src < 2 ^ 64 →
      (∃ bound, decompressBoundWithFormat options.format src = .ok bound ∧ out.length ≤ bound) ∧
      ∃ size, decompressedSizeWithFormat options.format src = .ok size ∧ ∀ n ∈ size, n = out.length) := by
  rw [decodeAll_eq] at h
  unfold decodeInto at h
  split at h
  · cases h
  rename_i hne
  obtain ⟨frames, hcut, rfl⟩ := (decodeFrames_run _ h).cut (Nat.zero_le _)
  change FramesCut options dictionary src frames at hcut
  rw [List.nil_append]
  constructor
  · refine ⟨frames.map (·.piece), frames.map (·.out), hcut.cutFrames (le_refl _), hcut.flatten, ?_, rfl⟩
    simpa only [decodeAll_eq] using hcut.decode
  intro hlt
  rw [hcut.declaredSizes (le_refl _)] at hlt
  constructor
  · refine ⟨_, ?_, hcut.length_le⟩
    unfold decompressBoundWithFormat forEachFrame
    rw [if_neg hne, hcut.forEachFrameLoop (le_refl _), hcut.foldBound (by omega), Nat.zero_add]
  · unfold decompressedSizeWithFormat forEachFrame
    obtain ⟨size, hs, hall⟩ := hcut.foldDeclared (show 0 + _ < 2 ^ 64 by omega)
    rw [if_neg hne, hcut.forEachFrameLoop (le_refl _)]
    exact ⟨size, hs, fun n hn => by rw [hall n hn, Nat.zero_add]⟩

/-- Two frames, the second a skippable one of length zero. -/
theorem frameSizes_consistent_small :
    (∃ pieces outs, cutFrames .zstd1 18 (oneByteFrame ++ [0x50, 0x2A, 0x4D, 0x18, 0, 0, 0, 0]) = .ok pieces ∧
      pieces.flatten = oneByteFrame ++ [0x50, 0x2A, 0x4D, 0x18, 0, 0, 0, 0] ∧
      List.Forall₂ (fun piece out => findFrameCompressedSizeWithFormat .zstd1 piece = .ok piece.length ∧
        decodeAll zeroAllocator .initial none piece = .ok out) pieces outs ∧ outs.flatten = [0x61]) ∧
    (∃ bound, decompressBoundWithFormat .zstd1 (oneByteFrame ++ [0x50, 0x2A, 0x4D, 0x18, 0, 0, 0, 0]) = .ok bound ∧
      1 ≤ bound) ∧
    ∃ size, decompressedSizeWithFormat .zstd1 (oneByteFrame ++ [0x50, 0x2A, 0x4D, 0x18, 0, 0, 0, 0]) = .ok size ∧
      ∀ n ∈ size, n = 1 := by
  obtain ⟨h1, h2⟩ := frameSizes_consistent zeroAllocator .initial none
    (oneByteFrame ++ [0x50, 0x2A, 0x4D, 0x18, 0, 0, 0, 0]) [0x61] (by decide)
  exact ⟨h1, h2 (by decide)⟩

end Zstandard
