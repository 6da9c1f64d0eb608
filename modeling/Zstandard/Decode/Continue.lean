/-
One-shot decoding continued from any point of an input: at a frame header, inside a skippable frame, at
a block header, at a payload, at a checksum.

`Completes` says what one-shot decoding of the rest gives, and one lemma for each phase says what the
next item of the input makes of it. A driver that stops and resumes is compared with the one-shot decoder
through these, item by item. Along with the output goes the list of the places where an empty skippable
frame ends and more input follows, which is where the streaming decoder stops.
-/
import Zstandard.Decode.Sizing

namespace Zstandard

/-! ## Empty skippable frames -/

/-- A skippable frame without content. -/
def isEmptySkippable (format : Format) (piece : Bytes) : Bool :=
  match parseFrameHeaderWithFormat format piece with
  | .ok (.skippable frame) => frame.size = 0
  | _ => false

/-- Where an empty skippable frame ends and another frame follows, the first piece starting at `pos`. -/
def stopsFrom (format : Format) : Nat → List Bytes → List Nat
  | _, [] => []
  | pos, piece :: pieces =>
    if isEmptySkippable format piece ∧ pieces ≠ [] then
      (pos + piece.length) :: stopsFrom format (pos + piece.length) pieces
    else stopsFrom format (pos + piece.length) pieces

/-- The stops behind a cursor at a frame header. -/
def stopsAt (format : Format) (c : Cursor) : List Nat :=
  match cutFrames format c.remainingSlice.length c.remainingSlice with
  | .ok pieces => stopsFrom format c.pos pieces
  | .error _ => []

/-- The stops of an input. -/
def stops (format : Format) (src : Bytes) : List Nat := stopsAt format (.new src)

section Stops

variable {options : DecoderOptions} {dictionary : Option DecoderDictionary} {c c' : Cursor} {out out' : Bytes}

theorem isEmpty_iff_remainingSlice (h : c.pos ≤ c.src.length) : c.isEmpty = true ↔ c.remainingSlice = [] := by
  unfold Cursor.isEmpty Cursor.remainingSlice
  rw [decide_eq_true_eq, List.drop_eq_nil_iff]
  omega

/-- The first frame of a run, and the stops of the rest. -/
theorem stopsAt_cons {f : SizedFrame} (head : f.Heads options dictionary c.remainingSlice) (hsrc : c'.src = c.src)
    (hpos : c'.pos = c.pos + f.info.compressedSize) (hin : c'.pos ≤ c'.src.length)
    (rest : FramesRun options dictionary c' out out') :
    stopsAt options.format c =
      if isEmptySkippable options.format f.piece ∧ c'.isEmpty = false then c'.pos :: stopsAt options.format c'
      else stopsAt options.format c' := by
  have hrest : c'.remainingSlice = c.remainingSlice.drop f.info.compressedSize := by
    unfold Cursor.remainingSlice; rw [hsrc, hpos, List.drop_drop]
  obtain ⟨frames, hcut, -⟩ := rest.cut hin
  have hcut' := FramesCut.cons head (by rw [← hrest]; exact hcut)
  have hlen : f.piece.length = f.info.compressedSize := by
    have := head.inside
    rw [head.piece, List.length_take]; omega
  unfold stopsAt
  rw [hcut'.cutFrames (le_refl _), hcut.cutFrames (le_refl _)]
  simp only [List.map_cons, stopsFrom, hlen, ← hpos]
  have hiff : frames.map (·.piece) ≠ [] ↔ c'.isEmpty = false := by
    rw [← Bool.not_eq_true, isEmpty_iff_remainingSlice hin, not_iff_not, List.map_eq_nil_iff]
    constructor
    · rintro rfl; rw [← hcut.flatten]; rfl
    · intro h
      rw [h] at hcut
      cases hcut with
      | nil => rfl
      | cons head _ => have h1 := head.pos; have h2 := head.inside; simp at h2; omega
  simp only [hiff]

theorem stopsAt_skippable {frame : SkippableFrame} (hin : c.pos ≤ c.src.length)
    (hp : parseFrameHeaderWithFormat options.format c.remainingSlice = .ok (.skippable frame))
    (hs : options.singleFrame = false) (hskip : skipSkippableFrame c frame = .ok c')
    (rest : FramesRun options dictionary c' out out') :
    stopsAt options.format c =
      if frame.size = 0 ∧ c'.isEmpty = false then c'.pos :: stopsAt options.format c'
        else stopsAt options.format c' := by
  obtain ⟨f, head, -, -, hin'⟩ := skippable_heads dictionary hin hp hs hskip
  obtain ⟨⟨_, c1⟩, h1, h⟩ := bind_ok hskip
  obtain rfl : c1 = c' := Except.ok.inj h
  obtain ⟨hle, -, hc⟩ := Cursor.readExact_ok h1
  have hlen : c.remainingSlice.length = c.src.length - c.pos := by simp [Cursor.remainingSlice]
  have hsize : f.info.compressedSize = frame.headerSize + frame.size := by
    have hinfo := head.info
    unfold frameSizeInfo at hinfo
    rw [hp, ok_bind] at hinfo
    simp only at hinfo
    rw [if_neg (by omega)] at hinfo
    rw [← Except.ok.inj hinfo]
  rw [stopsAt_cons head (by rw [hc]) (by rw [hsize, hc]) hin' rest]
  have hpiece : isEmptySkippable options.format f.piece = decide (frame.size = 0) := by
    unfold isEmptySkippable
    rw [head.piece, hsize, parseFrameHeader_take hp (by simp only; omega)]
  simp only [hpiece, decide_eq_true_eq]

theorem stopsAt_zstandard {header : ZstandardFrameHeader} {u : Bytes}
    (hp : parseFrameHeaderWithFormat options.format c.remainingSlice = .ok (.zstandard header))
    (hd : decodeZstandardFrame bytesOutput options dictionary c header u = .ok (c', out))
    (rest : FramesRun options dictionary c' out out') : stopsAt options.format c = stopsAt options.format c' := by
  obtain ⟨f, head, -, -, hin'⟩ := zstandard_heads hp hd
  obtain ⟨-, k, hsized⟩ := decodeZstandardFrame_sized hp hd
  obtain ⟨hsrc, hfwd, -⟩ := hsized.done
  have hsize : f.info.compressedSize = c'.pos - c.pos := by
    rw [Except.ok.inj (head.info.symm.trans hsized.info)]
  rw [stopsAt_cons head hsrc (by rw [hsize]; omega) hin' rest]
  have hpiece : isEmptySkippable options.format f.piece = false := by
    have hle : header.headerSize ≤ c'.pos - c.pos := by
      obtain ⟨c1, _, c2, h1, -, hrun, hsum, -⟩ := decodeZstandardFrame_run hd
      obtain ⟨-, -, rfl⟩ := Cursor.readExact_ok h1
      have hdone := hrun.done (EntropyState.initial_ok dictionary) (by exact le_refl _)
      have hf := hdone.forward
      have hc := (readFrameChecksum_ok hsum hdone.inside).1
      simp only at hf
      rw [hc]; simp only; omega
    unfold isEmptySkippable
    rw [head.piece, hsize, parseFrameHeader_take hp (by exact hle)]
  rw [hpiece, if_neg (by simp)]

end Stops

/-! ## The rest of an input -/

/-- A frame that is being decoded: its header, the entropy state of its next block, and where its output
starts. -/
structure OpenFrame where
  header : ZstandardFrameHeader
  entropy : EntropyState
  start : Nat

def OpenFrame.params (dictionary : Option DecoderDictionary) (f : OpenFrame) : FrameParams :=
  { blockSizeMax := f.header.blockSizeMax, frameStart := f.start, windowSize := f.header.windowSize
    dictionary := dictionary.map (·.content) }

/-- What comes next in an input, and in which frame. -/
inductive Phase where
  | frameHeader
  | skippable (remaining : Nat)
  | blockHeader (f : OpenFrame)
  | blockPayload (header : BlockHeader) (f : OpenFrame)
  | frameChecksum (f : OpenFrame)

/-- A point in the decoding of an input: what comes next, what was decoded, and whether a frame was. -/
structure Reading where
  phase : Phase
  cursor : Cursor
  out : Bytes
  decodedAFrame : Bool

section Completes

variable (options : DecoderOptions) (dictionary : Option DecoderDictionary)

/-- Whole frames to the end of the input. -/
def Frames (c : Cursor) (u out : Bytes) (stops : List Nat) : Prop :=
  FramesRun options dictionary c u out ∧ stops = stopsAt options.format c

/-- The end of a frame behind its last block, and the frames after it. -/
def AfterBlocks (f : OpenFrame) (c : Cursor) (u out : Bytes) (stops : List Nat) : Prop :=
  ∃ c', readFrameChecksum options f.header c (u.drop f.start) = .ok c' ∧
    checkProduced f.header (u.length - f.start) = .ok () ∧ (options.singleFrame = true → c'.isEmpty = true) ∧
    Frames options dictionary c' u out stops

/-- The blocks of a frame from here on, its end, and the frames after it. -/
def Blocks (f : OpenFrame) (c : Cursor) (u out : Bytes) (stops : List Nat) : Prop :=
  ∃ k c' u', BlocksRun (f.params dictionary) (.wholeOutput options.maxOutputSize) c f.entropy u k c' u' ∧
    AfterBlocks options dictionary f c' u' out stops

/-- The rest of a frame behind a decoded block. -/
def AfterBlock (last : Bool) (f : OpenFrame) (c : Cursor) (u out : Bytes) (stops : List Nat) : Prop :=
  if last then AfterBlocks options dictionary f c u out stops else Blocks options dictionary f c u out stops

/-- One-shot decoding completes from `r` with the output `out`, past `stops`. -/
def Completes (r : Reading) (out : Bytes) (stops : List Nat) : Prop :=
  match r.phase with
  | .frameHeader =>
    (options.singleFrame = true → r.decodedAFrame = true → r.cursor.isEmpty = true) ∧
      Frames options dictionary r.cursor r.out out stops
  | .skippable remaining =>
    options.singleFrame = false ∧ r.cursor.pos + remaining ≤ r.cursor.src.length ∧
      ∃ rest, Frames options dictionary { r.cursor with pos := r.cursor.pos + remaining } r.out out rest ∧
        stops = if remaining = 0 ∧ r.cursor.isEmpty = false then r.cursor.pos :: rest else rest
  | .blockHeader f => Blocks options dictionary f r.cursor r.out out stops
  | .blockPayload header f => ∃ payload c' u entropy,
    r.cursor.readExact header.payloadSize = .ok (payload, c') ∧
      decodeBlock bytesOutput header payload (f.params dictionary) f.entropy r.out
        (.wholeOutput options.maxOutputSize) =
        .ok (u, entropy) ∧
      AfterBlock options dictionary header.lastBlock { f with entropy } c' u out stops
  | .frameChecksum f => f.header.checksum = true ∧ AfterBlocks options dictionary f r.cursor r.out out stops

variable {options dictionary} {c : Cursor} {u out : Bytes} {stops : List Nat} {fin : Bool}

/-! ## Frame headers -/

theorem framesRun_of_empty (h : c.isEmpty = true) : FramesRun options dictionary c u out ↔ out = u := by
  constructor
  · intro hr
    cases hr with
    | done => rfl
    | skippable nonempty => rw [h] at nonempty; cases nonempty
    | zstandard nonempty => rw [h] at nonempty; cases nonempty
  · rintro rfl; exact .done h

theorem framesRun_of_nonempty (h : c.isEmpty = false) : FramesRun options dictionary c u out ↔
    ∃ fh, parseFrameHeaderWithFormat options.format c.remainingSlice = .ok fh ∧
      match fh with
      | .skippable frame => options.singleFrame = false ∧ ∃ c', skipSkippableFrame c frame = .ok c' ∧
          FramesRun options dictionary c' u out
      | .zstandard header => ∃ c' u', decodeZstandardFrame bytesOutput options dictionary c header u = .ok (c', u') ∧
          (options.singleFrame = true → c'.isEmpty = true) ∧ FramesRun options dictionary c' u' out := by
  constructor
  · intro hr
    cases hr with
    | done empty => rw [h] at empty; cases empty
    | skippable _ header multi skip rest => exact ⟨_, header, multi, _, skip, rest⟩
    | zstandard _ parsed decode single rest => exact ⟨_, parsed, _, _, decode, single, rest⟩
  · rintro ⟨fh, hp, hr⟩
    cases fh with
    | skippable frame =>
      obtain ⟨hs, c', hskip, hr⟩ := hr
      exact .skippable h hp hs hskip hr
    | zstandard header =>
      obtain ⟨c', u', hd, hs, hr⟩ := hr
      exact .zstandard h hp hd hs hr

theorem FrameHeader.headerSize_pos {format : Format} {bytes : Bytes} {fh : FrameHeader}
    (h : parseFrameHeaderWithFormat format bytes = .ok fh) :
    match fh with
    | .zstandard header => 0 < header.headerSize ∧ header.headerSize ≤ bytes.length
    | .skippable frame => 0 < frame.headerSize ∧ frame.headerSize ≤ bytes.length := by
  rcases parseFrameHeader_ok h with ⟨header, rfl, hok⟩ | ⟨frame, rfl, h8, hlen, -⟩
  · have := hok.pos
    exact ⟨by omega, hok.le⟩
  · exact ⟨by omega, by omega⟩

/-- A run is what the loop over frames does, on any fuel that covers the rest of the input. -/
theorem FramesRun.decodeFrames (h : FramesRun options dictionary c u out) :
    ∀ {fuel : Nat}, c.src.length ≤ c.pos + fuel →
    c.pos ≤ c.src.length → Zstandard.decodeFrames bytesOutput options dictionary fuel c u = .ok out := by
  induction h with
  | done empty =>
    intro fuel _ _
    cases fuel <;> simp [Zstandard.decodeFrames, empty]
  | @skippable c c' u out frame nonempty header multi skip rest ih =>
    intro fuel hfuel hin
    obtain ⟨f, head, -, -, hin'⟩ := skippable_heads dictionary hin header multi skip
    obtain ⟨⟨_, c1⟩, h1, h⟩ := bind_ok skip
    obtain rfl : c1 = c' := Except.ok.inj h
    obtain ⟨hle, -, hc⟩ := Cursor.readExact_ok h1
    have hpos := (FrameHeader.headerSize_pos header).1
    cases fuel with
    | zero => omega
    | succ fuel =>
      unfold Zstandard.decodeFrames
      rw [nonempty, if_neg (by simp), header, ok_bind]
      simp only [multi, Bool.false_eq_true, if_false]
      rw [skip, ok_bind]
      exact ih (by rw [hc]; simp only; omega) hin'
  | @zstandard c c' u u' out header nonempty parsed decode single rest ih =>
    intro fuel hfuel hin
    obtain ⟨-, k, hsized⟩ := decodeZstandardFrame_sized parsed decode
    obtain ⟨hsrc, hfwd, hins⟩ := hsized.done
    cases fuel with
    | zero => rw [hsrc] at hins; omega
    | succ fuel =>
      unfold Zstandard.decodeFrames
      rw [nonempty, if_neg (by simp), parsed, ok_bind]
      simp only
      rw [decode, ok_bind]
      simp only
      rw [if_neg fun h => h.2 (single h.1)]
      exact ih (by rw [hsrc]; omega) hins

theorem decodeInto_ok_iff {src : Bytes} :
    decodeInto bytesOutput options dictionary src [] = .ok out ↔
      src ≠ [] ∧ FramesRun options dictionary (.new src) [] out := by
  unfold decodeInto
  cases src with
  | nil => simp
  | cons b bs =>
    rw [if_neg (by simp)]
    constructor
    · exact fun h => ⟨by simp, decodeFrames_run _ h⟩
    · rintro ⟨-, h⟩
      exact h.decodeFrames (Nat.le_add_left _ _) (Nat.zero_le _)

/-- The end of the input. -/
theorem completes_end (h : c.isEmpty = true) :
    Completes options dictionary ⟨.frameHeader, c, u, fin⟩ out stops ↔ out = u ∧ stops = [] := by
  unfold Completes Frames
  have hend : c.remainingSlice = [] := (isEmpty_iff_remainingSlice (by simp [Cursor.isEmpty] at h; omega)).1 h
  have hstops : stopsAt options.format c = [] := by unfold stopsAt; rw [hend]; rfl
  simp only [h, implies_true, true_and, framesRun_of_empty h, hstops]

theorem not_completes_of_error (h : c.isEmpty = false) {e : Error}
    (hp : parseFrameHeaderWithFormat options.format c.remainingSlice = .error e) :
    ¬ Completes options dictionary ⟨.frameHeader, c, u, fin⟩ out stops := by
  rintro ⟨-, hr, -⟩
  obtain ⟨fh, hp', -⟩ := (framesRun_of_nonempty h).1 hr
  rw [hp] at hp'; cases hp'

/-- A skippable frame header. -/
theorem completes_skippable (hne : c.isEmpty = false) {frame : SkippableFrame}
    (hp : parseFrameHeaderWithFormat options.format c.remainingSlice = .ok (.skippable frame)) :
    Completes options dictionary ⟨.frameHeader, c, u, fin⟩ out stops ↔
      options.singleFrame = false ∧
        Completes options dictionary ⟨.skippable frame.size, { c with pos := c.pos + frame.headerSize }, u, fin⟩ out
          stops := by
  have hin : c.pos ≤ c.src.length := by
    by_contra hgt
    have : c.remainingSlice = [] := List.drop_eq_nil_of_le (by omega)
    rw [this] at hp
    rcases parseFrameHeader_ok hp with ⟨_, h, _⟩ | ⟨_, _, _, h8, _⟩
    · cases h
    · simp at h8
  unfold Completes Frames
  simp only
  constructor
  · rintro ⟨-, hr, rfl⟩
    obtain ⟨fh, hp', hr⟩ := (framesRun_of_nonempty hne).1 hr
    obtain rfl := Except.ok.inj (hp.symm.trans hp')
    obtain ⟨hs, c', hskip, hr⟩ := hr
    have hstops := stopsAt_skippable hin hp hs hskip hr
    obtain ⟨⟨_, c1⟩, h1, h⟩ := bind_ok hskip
    obtain rfl : c1 = c' := Except.ok.inj h
    obtain ⟨hle, -, hc⟩ := Cursor.readExact_ok h1
    subst hc
    simp only [← Nat.add_assoc] at hr hstops hle
    refine ⟨hs, hs, hle, _, ⟨hr, rfl⟩, ?_⟩
    rw [hstops]
    by_cases hz : frame.size = 0 <;> simp [hz]
  · rintro ⟨hs, -, hle, rest, ⟨hr, rfl⟩, rfl⟩
    have hskip : skipSkippableFrame c frame = .ok { c with pos := c.pos + frame.headerSize + frame.size } := by
      unfold skipSkippableFrame
      rw [Cursor.readExact_of_le (by omega), ok_bind, Nat.add_assoc]
    have hstops := stopsAt_skippable hin hp hs hskip hr
    refine ⟨fun h => (by rw [hs] at h; cases h), (framesRun_of_nonempty hne).2 ⟨_, hp, hs, _, hskip, hr⟩, ?_⟩
    rw [hstops]
    by_cases hz : frame.size = 0 <;> simp [hz]

theorem decodeZstandardFrame_ok_iff {c' : Cursor} {header : ZstandardFrameHeader} {u' : Bytes} :
    decodeZstandardFrame bytesOutput options dictionary c header u = .ok (c', u') ↔
      c.pos + header.headerSize ≤ c.src.length ∧ admitFrame dictionary options header u.length = .ok () ∧
      ∃ k c2, BlocksRun (OpenFrame.params dictionary ⟨header, .initial dictionary, u.length⟩)
          (.wholeOutput options.maxOutputSize) { c with pos := c.pos + header.headerSize }
          (.initial dictionary) u k c2 u' ∧
        readFrameChecksum options header c2 (u'.drop u.length) = .ok c' ∧
        checkProduced header (u'.length - u.length) = .ok () := by
  constructor
  · intro h
    obtain ⟨c1, k, c2, h1, hadm, hrun, hsum, hprod⟩ := decodeZstandardFrame_run h
    obtain ⟨hle, -, rfl⟩ := Cursor.readExact_ok h1
    exact ⟨hle, hadm, k, c2, hrun, hsum, hprod⟩
  · rintro ⟨hle, hadm, k, c2, hrun, hsum, hprod⟩
    have hblocks := hrun.decodeBlocks (Nat.le_add_left c.src.length _)
    unfold decodeZstandardFrame
    have hlen : ∀ b : Bytes, bytesOutput.len b = b.length := fun _ => rfl
    have hslice : ∀ b : Bytes, bytesOutput.asSlice b = b := fun _ => rfl
    rw [Cursor.readExact_of_le hle, ok_bind]
    simp only [hlen, hslice]
    rw [hadm, ok_bind]
    unfold OpenFrame.params at hblocks
    simp only at hblocks
    rw [hblocks, ok_bind]
    simp only
    rw [hsum, ok_bind, hprod, ok_bind]

/-- A frame header. -/
theorem completes_zstandard (hne : c.isEmpty = false) {header : ZstandardFrameHeader}
    (hp : parseFrameHeaderWithFormat options.format c.remainingSlice = .ok (.zstandard header))
    (hle : c.pos + header.headerSize ≤ c.src.length) :
    Completes options dictionary ⟨.frameHeader, c, u, fin⟩ out stops ↔
      (options.singleFrame = true → fin = false) ∧ admitFrame dictionary options header u.length = .ok () ∧
        Completes options dictionary ⟨.blockHeader ⟨header, .initial dictionary, u.length⟩,
          { c with pos := c.pos + header.headerSize }, u, fin⟩ out stops := by
  unfold Completes Frames Blocks AfterBlocks
  simp only
  constructor
  · rintro ⟨hsingle, hr, rfl⟩
    obtain ⟨fh, hp', hr⟩ := (framesRun_of_nonempty hne).1 hr
    obtain rfl := Except.ok.inj (hp.symm.trans hp')
    obtain ⟨c', u', hd, hs, hr⟩ := hr
    have hstops := stopsAt_zstandard hp hd hr
    obtain ⟨-, hadm, k, c2, hrun, hsum, hprod⟩ := decodeZstandardFrame_ok_iff.1 hd
    refine ⟨fun h => ?_, hadm, k, c2, u', hrun, c', hsum, hprod, hs, hr, hstops⟩
    rcases Bool.eq_false_or_eq_true fin with hf | hf
    · have := hsingle h hf; rw [hne] at this; cases this
    · exact hf
  · rintro ⟨hsingle, hadm, k, c2, u', hrun, c', hsum, hprod, hs, hr, rfl⟩
    have hd := decodeZstandardFrame_ok_iff.2 ⟨hle, hadm, k, c2, hrun, hsum, hprod⟩
    refine ⟨fun h hf => ?_, (framesRun_of_nonempty hne).2 ⟨_, hp, c', u', hd, hs, hr⟩,
      (stopsAt_zstandard hp hd hr).symm⟩
    rw [hsingle h] at hf; cases hf

/-! ## Skippable frames -/

theorem completes_skip {n k : Nat} (hn : 0 < n) (hs : options.singleFrame = false) (hk : k ≤ n)
    (hfit : k = n → c.pos + n ≤ c.src.length) :
    Completes options dictionary ⟨.skippable n, c, u, fin⟩ out stops ↔
      Completes options dictionary ⟨if n - k = 0 then .frameHeader else .skippable (n - k),
        { c with pos := c.pos + k }, u, fin⟩ out stops := by
  unfold Completes
  by_cases heq : n - k = 0
  · obtain rfl : k = n := by omega
    simp only [if_pos heq, hs, Bool.false_eq_true, false_implies, true_and, hfit rfl,
      if_neg (show ¬ (k = 0 ∧ c.isEmpty = false) by omega)]
    constructor
    · rintro ⟨rest, hr, rfl⟩; exact hr
    · rintro hr; exact ⟨stops, hr, rfl⟩
  · simp only [hs, true_and, if_neg (show ¬ (n = 0 ∧ c.isEmpty = false) by omega), heq, false_and, if_false,
      Nat.add_assoc, Nat.add_sub_cancel' hk]

/-- The end of an empty skippable frame: a stop, unless the input ends as well. -/
theorem completes_stop (hs : options.singleFrame = false) (hin : c.pos ≤ c.src.length) :
    Completes options dictionary ⟨.skippable 0, c, u, fin⟩ out stops ↔
      ∃ rest, Completes options dictionary ⟨.frameHeader, c, u, fin⟩ out rest ∧
        stops = if c.isEmpty = false then c.pos :: rest else rest := by
  unfold Completes
  simp only [hs, Bool.false_eq_true, false_implies, true_and, Nat.add_zero, hin]

/-! ## Blocks and checksums -/

theorem blocks_iff {f : OpenFrame} :
    Blocks options dictionary f c u out stops ↔ ∃ header payload c' u' entropy, BlockRead c header payload c' ∧
      decodeBlock bytesOutput header payload (f.params dictionary) f.entropy u (.wholeOutput options.maxOutputSize) =
        .ok (u', entropy) ∧
      AfterBlock options dictionary header.lastBlock { f with entropy } c' u' out stops := by
  unfold Blocks AfterBlock
  constructor
  · rintro ⟨k, c', u', hrun, hafter⟩
    cases hrun with
    | last read decode isLast => exact ⟨_, _, _, _, _, read, decode, by rw [if_pos isLast]; exact hafter⟩
    | more read decode notLast rest =>
      exact ⟨_, _, _, _, _, read, decode, by rw [notLast, if_neg (by simp)]; exact ⟨_, _, _, rest, hafter⟩⟩
  · rintro ⟨header, payload, c', u', entropy, read, decode, hafter⟩
    cases hlast : header.lastBlock with
    | true =>
      rw [hlast, if_pos rfl] at hafter
      exact ⟨1, c', u', .last read decode hlast, hafter⟩
    | false =>
      rw [hlast, if_neg (by simp)] at hafter
      obtain ⟨k, c'', u'', hrun, hafter⟩ := hafter
      exact ⟨k + 1, c'', u'', .more read decode hlast hrun, hafter⟩

theorem completes_blockHeader {f : OpenFrame} :
    Completes options dictionary ⟨.blockHeader f, c, u, fin⟩ out stops ↔
      ∃ header, c.pos + blockHeaderSize ≤ c.src.length ∧
        BlockHeader.parse ((c.src.drop c.pos).take blockHeaderSize) = .ok header ∧
        Completes options dictionary ⟨.blockPayload header f, { c with pos := c.pos + blockHeaderSize }, u, fin⟩ out
          stops := by
  unfold Completes
  simp only
  rw [blocks_iff]
  constructor
  · rintro ⟨header, payload, c', u', entropy, read, decode, hafter⟩
    obtain ⟨bytes, c1, h1, h2, h3⟩ := blockRead_iff.1 read
    obtain ⟨hle, rfl, rfl⟩ := Cursor.readExact_ok h1
    exact ⟨header, hle, h2, payload, c', u', entropy, h3, decode, hafter⟩
  · rintro ⟨header, hle, h2, payload, c', u', entropy, h3, decode, hafter⟩
    exact ⟨header, payload, c', u', entropy, blockRead_iff.2 ⟨_, _, Cursor.readExact_of_le hle, h2, h3⟩, decode, hafter⟩

/-- What follows a frame's last block where it has no checksum. -/
theorem afterBlocks_iff {f : OpenFrame} (hsum : f.header.checksum = false) :
    AfterBlocks options dictionary f c u out stops ↔ checkProduced f.header (u.length - f.start) = .ok () ∧
      Completes options dictionary ⟨.frameHeader, c, u, true⟩ out stops := by
  unfold AfterBlocks Completes readFrameChecksum
  rw [hsum]
  simp only [Bool.false_eq_true, if_false, forall_const]
  constructor
  · rintro ⟨c', hc, h⟩
    obtain rfl := Except.ok.inj hc
    exact h
  · rintro h; exact ⟨c, rfl, h⟩

theorem readFrameChecksum_ok_iff {header : ZstandardFrameHeader} (hsum : header.checksum = true) {frame : Bytes}
    {c' : Cursor} :
    readFrameChecksum options header c frame = .ok c' ↔ c.pos + 4 ≤ c.src.length ∧
      (options.verifyChecksum = true →
        checkChecksum (readU32Le (c.src.drop c.pos)) (frameChecksum frame) = .ok ()) ∧
          c' = { c with pos := c.pos + 4 } := by
  unfold readFrameChecksum Cursor.readU32Le
  rw [if_pos hsum]
  have hread : readU32Le ((c.src.drop c.pos).take 4) = readU32Le (c.src.drop c.pos) := by
    unfold readU32Le; rw [List.take_take, min_self]
  constructor
  · intro h
    obtain ⟨⟨expected, c1⟩, h1, h⟩ := bind_ok h
    obtain ⟨⟨bytes, c2⟩, h2, h1⟩ := bind_ok h1
    obtain ⟨hle, rfl, rfl⟩ := Cursor.readExact_ok h2
    simp only [Except.ok.injEq, Prod.mk.injEq] at h1
    obtain ⟨rfl, rfl⟩ := h1
    rw [hread] at h
    refine ⟨hle, ?_⟩
    simp only at h
    split at h
    · obtain ⟨_, hc, h⟩ := bind_ok h
      exact ⟨fun _ => hc, (Except.ok.inj h).symm⟩
    · rename_i hv
      exact ⟨fun hv' => absurd hv' hv, (Except.ok.inj h).symm⟩
  · rintro ⟨hle, hc, rfl⟩
    rw [Cursor.readExact_of_le hle, ok_bind]
    simp only [ok_bind, hread]
    split
    · rename_i hv; rw [hc hv, ok_bind]
    · rfl

theorem completes_frameChecksum {f : OpenFrame} (hsum : f.header.checksum = true) :
    Completes options dictionary ⟨.frameChecksum f, c, u, fin⟩ out stops ↔ c.pos + 4 ≤ c.src.length ∧
      (options.verifyChecksum = true →
        checkChecksum (readU32Le (c.src.drop c.pos)) (frameChecksum (u.drop f.start)) = .ok ()) ∧
      checkProduced f.header (u.length - f.start) = .ok () ∧
      Completes options dictionary ⟨.frameHeader, { c with pos := c.pos + 4 }, u, true⟩ out stops := by
  unfold Completes AfterBlocks
  simp only [hsum, true_and, forall_const, readFrameChecksum_ok_iff hsum]
  constructor
  · rintro ⟨c', ⟨h1, h2, rfl⟩, h⟩; exact ⟨h1, h2, h⟩
  · rintro ⟨h1, h2, h⟩; exact ⟨_, ⟨h1, h2, rfl⟩, h⟩

/-! ## Where the stops are -/

theorem stopsFrom_sorted (format : Format) : ∀ (pieces : List Bytes) (pos : Nat),
    (∀ z ∈ stopsFrom format pos pieces, pos ≤ z) ∧ (stopsFrom format pos pieces).Pairwise (· ≤ ·)
  | [], _ => ⟨fun _ hz => (nomatch hz), .nil⟩
  | piece :: pieces, pos => by
    obtain ⟨h1, h2⟩ := stopsFrom_sorted format pieces (pos + piece.length)
    unfold stopsFrom
    split
    · refine ⟨fun z hz => ?_, .cons (fun z hz => h1 z hz) h2⟩
      rcases List.mem_cons.1 hz with rfl | hz
      · omega
      · have := h1 z hz; omega
    · exact ⟨fun z hz => by have := h1 z hz; omega, h2⟩

theorem stopsAt_sorted (format : Format) (c : Cursor) :
    (∀ z ∈ stopsAt format c, c.pos ≤ z) ∧ (stopsAt format c).Pairwise (· ≤ ·) := by
  unfold stopsAt
  split
  · exact stopsFrom_sorted format _ _
  · exact ⟨fun _ hz => (nomatch hz), .nil⟩

theorem BlocksRun.pos_le {p : FrameParams} {limit : OutputLimit} {c' : Cursor} {st : EntropyState}
    {u' : Bytes} {k : Nat} (h : BlocksRun p limit c st u k c' u') : c.pos ≤ c'.pos := by
  induction h with
  | last read _ _ => rw [read.cursor]; simp only; omega
  | more read _ _ _ ih =>
    rw [read.cursor] at ih
    simp only at ih
    omega

theorem AfterBlocks.stops_le {f : OpenFrame} (h : AfterBlocks options dictionary f c u out stops) :
    ∀ z ∈ stops, c.pos ≤ z := by
  obtain ⟨c', hread, -, -, -, rfl⟩ := h
  intro z hz
  have hz := (stopsAt_sorted _ _).1 z hz
  have hpos : c.pos ≤ c'.pos := by
    cases hsum : f.header.checksum with
    | true =>
      obtain ⟨-, -, rfl⟩ := (readFrameChecksum_ok_iff hsum).1 hread
      simp only; omega
    | false =>
      unfold readFrameChecksum at hread
      rw [hsum, if_neg (by simp)] at hread
      rw [Except.ok.inj hread]
  omega

theorem AfterBlock.stops_le {last : Bool} {f : OpenFrame} (h : AfterBlock options dictionary last f c u out stops) :
    ∀ z ∈ stops, c.pos ≤ z := by
  unfold AfterBlock at h
  split at h
  · exact h.stops_le
  · obtain ⟨k, c', u', hrun, hafter⟩ := h
    exact fun z hz => le_trans hrun.pos_le (hafter.stops_le z hz)

/-- No stop is behind the point it is reached from. -/
theorem Completes.stops_le {r : Reading} (h : Completes options dictionary r out stops) :
    ∀ z ∈ stops, r.cursor.pos ≤ z := by
  obtain ⟨phase, c, u, fin⟩ := r
  intro z hz
  cases phase with
  | frameHeader =>
    obtain ⟨-, -, rfl⟩ := h
    exact (stopsAt_sorted _ _).1 z hz
  | skippable n =>
    obtain ⟨-, -, rest, ⟨-, rfl⟩, rfl⟩ := h
    have hrest := (stopsAt_sorted options.format { c with pos := c.pos + n }).1
    simp only at hz hrest ⊢
    split at hz
    · rcases List.mem_cons.1 hz with rfl | hz
      · exact le_refl _
      · have := hrest z hz; omega
    · have := hrest z hz; omega
  | blockHeader f =>
    have h : AfterBlock options dictionary false f c u out stops := by unfold AfterBlock; rw [if_neg (by simp)]; exact h
    exact h.stops_le z hz
  | blockPayload header f =>
    obtain ⟨payload, c', u', entropy, hread, -, hafter⟩ := h
    obtain ⟨-, -, rfl⟩ := Cursor.readExact_ok hread
    have := hafter.stops_le z hz
    simp only at this ⊢
    omega
  | frameChecksum f => exact AfterBlocks.stops_le h.2 z hz

theorem AfterBlocks.stops_unique {f : OpenFrame} {out' : Bytes} {stops' : List Nat}
    (h : AfterBlocks options dictionary f c u out stops) (h' : AfterBlocks options dictionary f c u out' stops') :
    stops = stops' := by
  obtain ⟨c1, hread, -, -, -, rfl⟩ := h
  obtain ⟨c2, hread', -, -, -, rfl⟩ := h'
  rw [Except.ok.inj (hread.symm.trans hread')]

theorem Blocks.stops_unique {f : OpenFrame} {out' : Bytes} {stops' : List Nat}
    (h : Blocks options dictionary f c u out stops) (h' : Blocks options dictionary f c u out' stops') :
    stops = stops' := by
  obtain ⟨_, c1, u1, hrun, hafter⟩ := h
  obtain ⟨_, c2, u2, hrun', hafter'⟩ := h'
  have heq := (hrun.decodeBlocks (Nat.le_add_left _ _)).symm.trans (hrun'.decodeBlocks (Nat.le_add_left _ _))
  obtain ⟨rfl, rfl⟩ := Prod.mk.inj (Except.ok.inj heq)
  exact hafter.stops_unique hafter'

/-- The stops of the rest of an input are determined by the point it is decoded from. -/
theorem Completes.stops_unique {r : Reading} {out' : Bytes} {stops' : List Nat}
    (h : Completes options dictionary r out stops) (h' : Completes options dictionary r out' stops') :
      stops = stops' := by
  obtain ⟨phase, c, u, fin⟩ := r
  cases phase with
  | frameHeader =>
    obtain ⟨-, -, rfl⟩ := h
    obtain ⟨-, -, rfl⟩ := h'
    rfl
  | skippable n =>
    obtain ⟨-, -, _, ⟨-, rfl⟩, rfl⟩ := h
    obtain ⟨-, -, _, ⟨-, rfl⟩, rfl⟩ := h'
    rfl
  | blockHeader f => exact Blocks.stops_unique h h'
  | blockPayload header f =>
    obtain ⟨_, _, _, _, hread, hd, hafter⟩ := h
    obtain ⟨_, _, _, _, hread', hd', hafter'⟩ := h'
    obtain ⟨rfl, rfl⟩ := Prod.mk.inj (Except.ok.inj (hread.symm.trans hread'))
    obtain ⟨rfl, rfl⟩ := Prod.mk.inj (Except.ok.inj (hd.symm.trans hd'))
    unfold AfterBlock at hafter hafter'
    split at hafter
    · rename_i hlast
      rw [if_pos hlast] at hafter'
      exact hafter.stops_unique hafter'
    · rename_i hlast
      rw [if_neg hlast] at hafter'
      exact hafter.stops_unique hafter'
  | frameChecksum f => exact AfterBlocks.stops_unique h.2 h'.2

end Completes

end Zstandard
