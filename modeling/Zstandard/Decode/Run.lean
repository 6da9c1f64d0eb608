/-
The successful runs of the one-shot drivers, without their fuel: the blocks of a frame (`BlocksRun`)
and the frames of an input (`FramesRun`). The drivers succeed exactly along such runs
(`decodeBlocks_iff_run`, `decodeFrames_run`), so what holds along a run is proved by induction on it.
-/
import Zstandard.Decode.Slice

namespace Zstandard

/-! ## Reading a block -/

namespace Cursor

/-- A cursor inside its input. -/
def Ok (c : Cursor) : Prop := c.pos ≤ c.src.length

theorem readExact_of_le {c : Cursor} {n : Nat} (h : c.pos + n ≤ c.src.length) :
    c.readExact n = .ok ((c.src.drop c.pos).take n, { c with pos := c.pos + n }) := by
  unfold readExact getRange
  rw [if_pos ⟨by omega, h⟩, ok_bind, Nat.add_sub_cancel_left]

theorem readExact_length {c c' : Cursor} {n : Nat} {bytes : Bytes} (h : c.readExact n = .ok (bytes, c')) :
    bytes.length = n := by
  obtain ⟨h1, rfl, -⟩ := readExact_ok h
  simp; omega

theorem readU8_ok_iff {c c' : Cursor} {byte : UInt8} :
    c.readU8 = .ok (byte, c') ↔ c.readExact 1 = .ok ([byte], c') := by
  unfold readU8 readExact getByte getRange
  rcases Nat.lt_or_ge c.pos c.src.length with h | h
  · rw [List.getElem?_eq_getElem h, if_pos ⟨by omega, by omega⟩, Nat.add_sub_cancel_left, List.drop_eq_getElem_cons h,
      List.take_succ_cons, List.take_zero]
    simp
  · rw [List.getElem?_eq_none h, if_neg (by omega)]
    simp

end Cursor

/-- A block header and its payload, read at a cursor. -/
structure BlockRead (c : Cursor) (header : BlockHeader) (payload : Bytes) (c' : Cursor) : Prop where
  parsed : BlockHeader.parse ((c.src.drop c.pos).take blockHeaderSize) = .ok header
  inside : c.pos + (blockHeaderSize + header.payloadSize) ≤ c.src.length
  payload : payload = (c.src.drop (c.pos + blockHeaderSize)).take header.payloadSize
  cursor : c' = { c with pos := c.pos + (blockHeaderSize + header.payloadSize) }

theorem BlockRead.payload_length {c c' : Cursor} {header : BlockHeader} {payload : Bytes}
    (h : BlockRead c header payload c') : payload.length = header.payloadSize := by
  have := h.inside
  rw [h.payload]; simp; omega

theorem decodeFrameBlock_ok_iff {cursor cursor' : Cursor} {header : BlockHeader} {p : FrameParams}
    {st st' : EntropyState} {out out' : Bytes} {limit : OutputLimit} :
    decodeFrameBlock bytesOutput cursor header p st out limit = .ok (cursor', out', st') ↔
      ∃ payload, cursor.readExact header.payloadSize = .ok (payload, cursor') ∧
        decodeBlock bytesOutput header payload p st out limit = .ok (out', st') := by
  unfold decodeFrameBlock decodeBlock BlockHeader.payloadSize
  cases header.blockType with
  | raw =>
    simp only
    split
    · simp
    constructor
    · intro h
      obtain ⟨⟨data, c⟩, h1, h⟩ := bind_ok h
      obtain ⟨out1, h2, h⟩ := bind_ok h
      cases h
      exact ⟨data, h1, by rw [h2]; rfl⟩
    · rintro ⟨payload, h1, h⟩
      obtain ⟨out1, h2, h⟩ := bind_ok h
      cases h
      rw [h1, ok_bind]
      simp only [h2, ok_bind]
  | rle =>
    simp only
    split
    · simp
    constructor
    · intro h
      obtain ⟨⟨byte, c⟩, h1, h⟩ := bind_ok h
      obtain ⟨out1, h2, h⟩ := bind_ok h
      cases h
      refine ⟨[byte], Cursor.readU8_ok_iff.1 h1, ?_⟩
      simp only [getByte, List.getElem?_cons_zero, ok_bind] at h2 ⊢
      rw [h2]; rfl
    · rintro ⟨payload, h1, h⟩
      obtain ⟨byte, hb, h⟩ := bind_ok h
      obtain ⟨out1, h2, h⟩ := bind_ok h
      cases h
      have hlen := Cursor.readExact_length h1
      obtain ⟨byte', rfl⟩ := List.length_eq_one_iff.1 hlen
      cases hb
      rw [Cursor.readU8_ok_iff.2 h1, ok_bind]
      simp only [h2, ok_bind]
  | compressed =>
    constructor
    · intro h
      obtain ⟨⟨data, c⟩, h1, h⟩ := bind_ok h
      obtain ⟨r, h2, h⟩ := bind_ok h
      cases h
      exact ⟨data, h1, h2⟩
    · rintro ⟨payload, h1, h⟩
      rw [h1, ok_bind]
      simp only [h, ok_bind]

/-! ## The blocks of a frame -/

/-- A successful run over the blocks of a frame: from a cursor, a state and an output, so many blocks
to a cursor and an output. -/
inductive BlocksRun (p : FrameParams) (limit : OutputLimit) :
    Cursor → EntropyState → Bytes → Nat → Cursor → Bytes → Prop
  | last {c c' : Cursor} {st st' : EntropyState} {out out' : Bytes} {header : BlockHeader} {payload : Bytes}
    (read : BlockRead c header payload c')
    (decode : decodeBlock bytesOutput header payload p st out limit = .ok (out', st'))
    (isLast : header.lastBlock = true) : BlocksRun p limit c st out 1 c' out'
  | more {c c' c'' : Cursor} {st st' : EntropyState} {out out' out'' : Bytes} {header : BlockHeader} {payload : Bytes}
    {k : Nat} (read : BlockRead c header payload c')
    (decode : decodeBlock bytesOutput header payload p st out limit = .ok (out', st'))
    (notLast : header.lastBlock = false) (rest : BlocksRun p limit c' st' out' k c'' out'') :
    BlocksRun p limit c st out (k + 1) c'' out''

/-- A header and a block read one after the other. -/
theorem blockRead_iff {c c' : Cursor} {header : BlockHeader} {payload : Bytes} :
    BlockRead c header payload c' ↔
      ∃ bytes c1, c.readExact blockHeaderSize = .ok (bytes, c1) ∧ BlockHeader.parse bytes = .ok header ∧
        c1.readExact header.payloadSize = .ok (payload, c') := by
  constructor
  · rintro ⟨h1, h2, rfl, rfl⟩
    refine ⟨_, _, Cursor.readExact_of_le (by omega), h1, ?_⟩
    rw [Cursor.readExact_of_le (by simp only; omega)]
    simp only [Nat.add_assoc]
  · rintro ⟨bytes, c1, h1, h2, h3⟩
    obtain ⟨h4, rfl, rfl⟩ := Cursor.readExact_ok h1
    obtain ⟨h5, rfl, rfl⟩ := Cursor.readExact_ok h3
    simp only at h5
    exact ⟨h2, by omega, rfl, by simp [Nat.add_assoc]⟩

theorem decodeBlocks_run {p : FrameParams} {limit : OutputLimit} :
    ∀ (fuel : Nat) {c c' : Cursor} {st : EntropyState} {out out' : Bytes},
      decodeBlocks bytesOutput p limit fuel c st out = .ok (c', out') → ∃ k, BlocksRun p limit c st out k c' out'
  | 0, _, _, _, _, _, h => by cases h
  | fuel + 1, c, c', st, out, out', h => by
    unfold decodeBlocks at h
    obtain ⟨⟨bytes, c1⟩, h1, h⟩ := bind_ok h
    obtain ⟨header, h2, h⟩ := bind_ok h
    obtain ⟨⟨c2, out1, st1⟩, h3, h⟩ := bind_ok h
    obtain ⟨payload, h4, h5⟩ := decodeFrameBlock_ok_iff.1 h3
    have hread := blockRead_iff.2 ⟨bytes, c1, h1, h2, h4⟩
    simp only at h
    split at h
    · cases h; exact ⟨1, .last hread h5 (by assumption)⟩
    · obtain ⟨k, hk⟩ := decodeBlocks_run fuel h
      exact ⟨k + 1, .more hread h5 (by simpa using ‹¬ header.lastBlock = true›) hk⟩

/-- A run is what the loop does, on any fuel that covers the rest of the input. -/
theorem BlocksRun.decodeBlocks {p : FrameParams} {limit : OutputLimit} {c c' : Cursor} {st : EntropyState}
    {out out' : Bytes} {k : Nat} (h : BlocksRun p limit c st out k c' out') :
    ∀ {fuel : Nat}, c.src.length ≤ c.pos + fuel →
      Zstandard.decodeBlocks bytesOutput p limit fuel c st out = .ok (c', out') := by
  induction h with
  | last read decode isLast =>
    intro fuel hf
    have := read.inside
    obtain ⟨bytes, c1, h1, h2, h3⟩ := blockRead_iff.1 read
    cases fuel with
    | zero => simp only [blockHeaderSize] at this; omega
    | succ fuel =>
      rw [Zstandard.decodeBlocks, h1, ok_bind]
      simp only [h2, ok_bind, decodeFrameBlock_ok_iff.2 ⟨_, h3, decode⟩, if_pos isLast]
  | more read decode notLast _ ih =>
    intro fuel hf
    have := read.inside
    have hcur := read.cursor
    obtain ⟨bytes, c1, h1, h2, h3⟩ := blockRead_iff.1 read
    simp only [blockHeaderSize] at this hcur
    cases fuel with
    | zero => omega
    | succ fuel =>
      rw [Zstandard.decodeBlocks, h1, ok_bind]
      simp only [h2, ok_bind, decodeFrameBlock_ok_iff.2 ⟨_, h3, decode⟩, notLast, Bool.false_eq_true, if_false]
      refine ih ?_
      rw [hcur]; simp only; omega

theorem decodeBlocks_iff_run {p : FrameParams} {limit : OutputLimit} {c c' : Cursor} {st : EntropyState}
    {out out' : Bytes} :
    decodeBlocks bytesOutput p limit c.src.length c st out = .ok (c', out') ↔
      ∃ k, BlocksRun p limit c st out k c' out' :=
  ⟨decodeBlocks_run _, fun ⟨_, h⟩ => h.decodeBlocks (by omega)⟩

/-- What a run over blocks leaves: the cursor moved on inside its input, and an output extended by at
most a block for each block. -/
structure BlocksDone (p : FrameParams) (c : Cursor) (out : Bytes) (k : Nat) (c' : Cursor) (out' : Bytes) : Prop where
  src : c'.src = c.src
  forward : c.pos < c'.pos
  inside : c'.pos ≤ c'.src.length
  grows : out.length ≤ out'.length
  le : out'.length ≤ out.length + k * p.blockSizeMax

theorem BlocksRun.done {p : FrameParams} {limit : OutputLimit} {c c' : Cursor} {st : EntropyState} {out out' : Bytes}
    {k : Nat} (h : BlocksRun p limit c st out k c' out') :
    st.Ok → p.frameStart ≤ out.length → BlocksDone p c out k c' out' := by
  induction h with
  | last read decode _ =>
    intro hst hfs
    have hd := decodeBlock_decoded read.payload_length hst hfs decode
    have := read.inside
    rw [read.cursor]
    exact ⟨rfl, by simp only [blockHeaderSize]; omega, this, hd.grows, by rw [Nat.one_mul]; exact hd.le⟩
  | more read decode _ _ ih =>
    intro hst hfs
    have hd := decodeBlock_decoded read.payload_length hst hfs decode
    have hb := ih hd.ok (le_trans hfs hd.grows)
    obtain ⟨h1, h2, h3, h4, h5⟩ := hb
    rw [read.cursor] at h1 h2
    simp only at h1 h2
    have hle := hd.le
    simp only at hle
    exact ⟨h1, by omega, h3, le_trans hd.grows h4, by rw [Nat.succ_mul]; omega⟩

/-! ## The frames of an input -/

/-- A successful run over the frames of an input. -/
inductive FramesRun (options : DecoderOptions) (dictionary : Option DecoderDictionary) : Cursor → Bytes → Bytes → Prop
  | done {c : Cursor} {out : Bytes} (empty : c.isEmpty = true) : FramesRun options dictionary c out out
  | skippable {c c' : Cursor} {out out' : Bytes} {frame : SkippableFrame} (nonempty : c.isEmpty = false)
    (header : parseFrameHeaderWithFormat options.format c.remainingSlice = .ok (.skippable frame))
    (multi : options.singleFrame = false) (skip : skipSkippableFrame c frame = .ok c')
    (rest : FramesRun options dictionary c' out out') : FramesRun options dictionary c out out'
  | zstandard {c c' : Cursor} {out out' out'' : Bytes} {header : ZstandardFrameHeader} (nonempty : c.isEmpty = false)
    (parsed : parseFrameHeaderWithFormat options.format c.remainingSlice = .ok (.zstandard header))
    (decode : decodeZstandardFrame bytesOutput options dictionary c header out = .ok (c', out'))
    (single : options.singleFrame = true → c'.isEmpty = true)
    (rest : FramesRun options dictionary c' out' out'') : FramesRun options dictionary c out out''

theorem decodeFrames_run {options : DecoderOptions} {dictionary : Option DecoderDictionary} :
    ∀ (fuel : Nat) {c : Cursor} {out out' : Bytes},
      decodeFrames bytesOutput options dictionary fuel c out = .ok out' → FramesRun options dictionary c out out'
  | 0, c, out, out', h => by
    unfold decodeFrames at h
    split at h
    · cases h; exact .done (by assumption)
    · cases h
  | fuel + 1, c, out, out', h => by
    unfold decodeFrames at h
    split at h
    · cases h; exact .done (by assumption)
    rename_i hne
    have hne : c.isEmpty = false := by simpa using hne
    obtain ⟨fh, h1, h⟩ := bind_ok h
    cases fh with
    | skippable frame =>
      simp only at h
      split at h
      · cases h
      obtain ⟨c', h2, h⟩ := bind_ok h
      exact .skippable hne h1 (by simpa using ‹¬ options.singleFrame = true›) h2 (decodeFrames_run fuel h)
    | zstandard header =>
      obtain ⟨⟨c', out1⟩, h2, h⟩ := bind_ok h
      simp only at h
      split at h
      · cases h
      rename_i hs
      exact .zstandard hne h1 h2 (fun h => by simpa using fun hc => hs ⟨h, hc⟩) (decodeFrames_run fuel h)

theorem decodeZstandardFrame_run {options : DecoderOptions} {dictionary : Option DecoderDictionary} {c c' : Cursor}
    {header : ZstandardFrameHeader} {out out' : Bytes}
    (h : decodeZstandardFrame bytesOutput options dictionary c header out = .ok (c', out')) :
    ∃ c1 k c2, c.readExact header.headerSize = .ok ((c.src.drop c.pos).take header.headerSize, c1) ∧
      admitFrame dictionary options header out.length = .ok () ∧
      BlocksRun { blockSizeMax := header.blockSizeMax, frameStart := out.length, windowSize := header.windowSize
                  dictionary := dictionary.map (·.content) } (.wholeOutput options.maxOutputSize) c1
        (.initial dictionary) out k c2 out' ∧
      readFrameChecksum options header c2 (out'.drop out.length) = .ok c' ∧
      checkProduced header (out'.length - out.length) = .ok () := by
  unfold decodeZstandardFrame at h
  obtain ⟨⟨bytes, c1⟩, h1, h⟩ := bind_ok h
  obtain ⟨_, h2, h⟩ := bind_ok h
  obtain ⟨⟨c2, out1⟩, h3, h⟩ := bind_ok h
  obtain ⟨c3, h4, h⟩ := bind_ok h
  obtain ⟨_, h5, h⟩ := bind_ok h
  cases h
  obtain ⟨k, hk⟩ := decodeBlocks_run _ h3
  obtain ⟨_, rfl, -⟩ := Cursor.readExact_ok h1
  exact ⟨c1, k, c2, h1, h2, hk, h4, h5⟩

/-- What a decoded frame leaves: the cursor moved on inside its input. -/
structure FrameDone (c c' : Cursor) : Prop where
  src : c'.src = c.src
  forward : c.pos < c'.pos
  inside : c'.pos ≤ c'.src.length

theorem readFrameChecksum_ok {options : DecoderOptions} {header : ZstandardFrameHeader} {c c' : Cursor} {frame : Bytes}
    (h : readFrameChecksum options header c frame = .ok c') (hin : c.pos ≤ c.src.length) :
    c' = { c with pos := c.pos + if header.checksum then 4 else 0 } ∧ c'.pos ≤ c'.src.length := by
  unfold readFrameChecksum at h
  split at h
  · obtain ⟨⟨expected, c1⟩, h1, h⟩ := bind_ok h
    obtain ⟨⟨bytes, c2⟩, h2, h1⟩ := bind_ok h1
    cases h1
    have hc : c' = c1 := by
      simp only at h
      split at h
      · obtain ⟨_, _, h⟩ := bind_ok h; cases h; rfl
      · cases h; rfl
    obtain ⟨h3, -, rfl⟩ := Cursor.readExact_ok h2
    rw [hc, if_pos (by assumption)]
    exact ⟨rfl, h3⟩
  · cases h
    rw [if_neg (by assumption)]
    exact ⟨rfl, hin⟩

end Zstandard
