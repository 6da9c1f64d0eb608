/-
Where a literals section ends, measured from its header alone, and what becomes of the retained Huffman table when a
section is refused.

The layout agrees with the decoder: what the decoder takes and what it produces are what the header says. For the
Huffman sections the second half is a fact about the decoders, which fill their segments exactly as long as every
entry of a double-symbol table stands for one or two symbols; the table in the slot was read from a description
(`LiteralsState.Reachable`), so it does.
-/
import Zstandard.Decode.Literals
import Zstandard.Entropy.Agreement

namespace Zstandard

open Huff0

/-! ## The layout -/

structure LiteralsSectionLayout where
  headerSize : Nat
  sectionSize : Nat
  regeneratedSize : Nat
  compressed : Bool
deriving DecidableEq, Repr

def parseLiteralsSectionLayout (src : Bytes) : Result LiteralsSectionLayout := do
  let header0 := (← getByte src 0).toNat
  let blockType := header0 % 4
  let sizeFormat := header0 / 4 % 4
  if blockType = 0 ∨ blockType = 1 then
    let (headerSize, regeneratedSize) ← decodeRawOrRleSize src sizeFormat
    -- raw stores its literals as they are, RLE the one byte that repeats
    let payload := if blockType = 0 then regeneratedSize else 1
    let sectionSize ← checkedAdd headerSize payload .outputSizeOverflow
    .ok { headerSize, sectionSize, regeneratedSize, compressed := false }
  else
    let header ← decodeCompressedLiteralsHeader src sizeFormat
    let sectionSize ← checkedAdd header.headerSize header.compressedSize .outputSizeOverflow
    .ok { headerSize := header.headerSize, sectionSize, regeneratedSize := header.regeneratedSize, compressed := true }

/-! ## The slot of the table -/

/-- The payload of a Huffman section; nothing has touched the slot yet. -/
def huffmanPayload (src : Bytes) (sizeFormat blockSizeMax : Nat) : Result (CompressedLiteralsHeader × Nat × Bytes) := do
  let header ← decodeCompressedLiteralsHeader src sizeFormat
  ensureRegeneratedSize header.regeneratedSize blockSizeMax
  let payloadEnd := header.headerSize + header.compressedSize
  let payload ← getRange src header.headerSize payloadEnd
  .ok (header, payloadEnd, payload)

/-- The literals of a Huffman section, once its table is in the slot. -/
def huffmanStreams (payload : Bytes) (header : CompressedLiteralsHeader) (dtable : HuffmanDTable) (tableSize : Nat) :
    Result DecodedLiterals := do
  let streams ← getFrom payload tableSize
  if streams.isEmpty then .error (.corruption "compressed literals payload is missing Huff0 streams") else
  let literals ←
    if header.fourStreams then decompress4X header.regeneratedSize streams dtable
    else decompress1X header.regeneratedSize streams dtable
  .ok (.ofScratch literals)

/-- `decode_huffman_literals_into` with the slot it leaves, also when it fails: a table that fails to parse is
dropped, and one that was read stays whatever becomes of the streams. -/
def decodeHuffmanLiteralsKeeping (src : Bytes) (blockType sizeFormat : Nat) (state : LiteralsState)
    (blockSizeMax : Nat) : Result (Nat × DecodedLiterals) × LiteralsState :=
  match huffmanPayload src sizeFormat blockSizeMax with
  | .error e => (.error e, state)
  | .ok (header, payloadEnd, payload) =>
    match literalsHuffmanTable payload blockType header state with
    | .error e => (.error e, if blockType = 2 then { huffmanTable := none } else state)
    | .ok (dtable, tableSize) =>
      ((huffmanStreams payload header dtable tableSize).map (fun literals => (payloadEnd, literals)),
        { huffmanTable := some dtable })

/-- `decode_literals_section_into` with the slot it leaves. -/
def decodeLiteralsSectionKeeping (src : Bytes) (state : LiteralsState) (blockSizeMax : Nat) :
    Result (Nat × DecodedLiterals) × LiteralsState :=
  match getByte src 0 with
  | .error e => (.error e, state)
  | .ok header0 =>
    let blockType := header0.toNat % 4
    let sizeFormat := header0.toNat / 4 % 4
    if blockType = 0 then (decodeRawLiteralsInto src sizeFormat blockSizeMax, state)
    else if blockType = 1 then (decodeRleLiteralsInto src sizeFormat blockSizeMax, state)
    else decodeHuffmanLiteralsKeeping src blockType sizeFormat state blockSizeMax

/-- The state that a section leaves to the next one, decoded or refused. -/
def LiteralsState.after (state : LiteralsState) (src : Bytes) (blockSizeMax : Nat) : LiteralsState :=
  (decodeLiteralsSectionKeeping src state blockSizeMax).2

/-- The slot of a decoder: empty at first or filled from a dictionary, and then what the sections leave in it. -/
inductive LiteralsState.Reachable : LiteralsState → Prop where
  | fresh : Reachable {}
  | dictionary {desc : Bytes} {table : DTableX2} {size : Nat} (h : readDtableX2 desc = .ok (table, size)) :
    Reachable { huffmanTable := some (.double table) }
  | section_ {state : LiteralsState} (src : Bytes) (blockSizeMax : Nat) (h : Reachable state) :
    Reachable (state.after src blockSizeMax)

theorem decodeHuffmanLiteralsInto_eq (src : Bytes) (blockType sizeFormat : Nat) (state : LiteralsState)
    (blockSizeMax : Nat) :
    decodeHuffmanLiteralsInto src blockType sizeFormat state blockSizeMax =
      (decodeHuffmanLiteralsKeeping src blockType sizeFormat state blockSizeMax).1.map fun r =>
        (r.1, r.2, (decodeHuffmanLiteralsKeeping src blockType sizeFormat state blockSizeMax).2) := by
  unfold decodeHuffmanLiteralsInto decodeHuffmanLiteralsKeeping huffmanPayload
  cases decodeCompressedLiteralsHeader src sizeFormat with
  | error e => rfl
  | ok header =>
    simp only [ok_bind]
    cases ensureRegeneratedSize header.regeneratedSize blockSizeMax with
    | error e => rfl
    | ok _ =>
      simp only [ok_bind]
      cases getRange src header.headerSize (header.headerSize + header.compressedSize) with
      | error e => rfl
      | ok payload =>
        simp only [ok_bind]
        cases literalsHuffmanTable payload blockType header state with
        | error e => rfl
        | ok table =>
          obtain ⟨dtable, tableSize⟩ := table
          simp only [ok_bind]
          unfold huffmanStreams
          cases getFrom payload tableSize with
          | error e => rfl
          | ok streams =>
            simp only [ok_bind]
            split
            · rfl
            · split
              · cases decompress4X header.regeneratedSize streams dtable <;> rfl
              · cases decompress1X header.regeneratedSize streams dtable <;> rfl

/-- Where it succeeds, the decoder leaves the slot it returns. -/
theorem decodeLiteralsSectionInto_eq (src : Bytes) (state : LiteralsState) (blockSizeMax : Nat) :
    decodeLiteralsSectionInto src state blockSizeMax =
      (decodeLiteralsSectionKeeping src state blockSizeMax).1.map fun r =>
        (r.1, r.2, state.after src blockSizeMax) := by
  unfold decodeLiteralsSectionInto LiteralsState.after decodeLiteralsSectionKeeping
  cases hbyte : getByte src 0 with
  | error e => rfl
  | ok header0 =>
    rw [ok_bind]
    dsimp only
    have hlt : header0.toNat % 4 < 4 := Nat.mod_lt _ (by decide)
    generalize header0.toNat % 4 = blockType at *
    match blockType, hlt with
    | 0, _ =>
      rw [if_pos rfl]
      cases decodeRawLiteralsInto src (header0.toNat / 4 % 4) blockSizeMax <;> rfl
    | 1, _ =>
      rw [if_neg (by decide), if_pos rfl]
      cases decodeRleLiteralsInto src (header0.toNat / 4 % 4) blockSizeMax <;> rfl
    | n + 2, _ =>
      rw [if_neg (by omega), if_neg (by omega)]
      exact decodeHuffmanLiteralsInto_eq src (n + 2) _ state blockSizeMax

/-! ## How much the decoders produce -/

namespace Huff0

/-- Every lookup in the table emits one or two symbols. -/
def DTableX2.Emits (t : DTableX2) : Prop :=
  ∀ d : BitDStream, 1 ≤ (t.entries.getD (d.lookBitsFast t.tableLog) default).sequence.length ∧
    (t.entries.getD (d.lookBitsFast t.tableLog) default).sequence.length ≤ 2

section Emits

variable {t : DTableX2} {size : Nat}

theorem decodeSymbolX2_length (ht : t.Emits) (s : StreamState) :
    s.1.length < (decodeSymbolX2 t s).1.length ∧ (decodeSymbolX2 t s).1.length ≤ s.1.length + 2 := by
  have hentry := ht s.2
  unfold decodeSymbolX2
  dsimp only
  rw [List.length_append, List.length_reverse]
  omega

theorem decodeSymbolsX2_length (ht : t.Emits) : ∀ (n : Nat) (s : StreamState),
    (decodeSymbolsX2 t n s).1.length ≤ s.1.length + 2 * n
  | 0, s => le_rfl
  | n + 1, s => by
    have hone := decodeSymbolX2_length ht s
    have hrest := decodeSymbolsX2_length ht n (decodeSymbolX2 t s)
    unfold decodeSymbolsX2
    omega

/-- A reloading loop never fills more than its segment. -/
theorem decodeGroupsX2_length (ht : t.Emits) {n width : Nat} (hwidth : 2 * n ≤ width) :
    ∀ (fuel : Nat) (s : StreamState), s.1.length ≤ size → (decodeGroupsX2 t size n width fuel s).1.length ≤ size
  | 0, s, h => h
  | fuel + 1, (out, bitD), h => by
    unfold decodeGroupsX2
    dsimp only
    split
    · rename_i hmore
      have hround := decodeSymbolsX2_length ht n (out, bitD.reload.2)
      exact decodeGroupsX2_length ht hwidth fuel _ (by dsimp only at hround; omega)
    · exact h

theorem decodePairsX2_length (ht : t.Emits) : ∀ (fuel : Nat) (s : StreamState), s.1.length ≤ size →
    size < s.1.length + fuel →
    (decodePairsX2 t size fuel s).1.length ≤ size ∧ size < (decodePairsX2 t size fuel s).1.length + 2
  | 0, s, h, hfuel => by omega
  | fuel + 1, s, h, hfuel => by
    have hone := decodeSymbolX2_length ht s
    unfold decodePairsX2
    split
    · exact decodePairsX2_length ht fuel _ (by omega) (by omega)
    · exact ⟨h, by omega⟩

theorem decodeLastSymbolX2_length (ht : t.Emits) (s : StreamState) :
    (decodeLastSymbolX2 t s).1.length = s.1.length + 1 := by
  have hentry := ht s.2
  unfold decodeLastSymbolX2
  dsimp only
  rw [List.length_append, List.length_take]
  omega

/-- `decode_stream_x2` fills its segment. -/
theorem decodeStreamX2_length (ht : t.Emits) {out : Bytes} (bitD : BitDStream) (h : out.length ≤ size) :
    (decodeStreamX2 t size out bitD).1.length = size := by
  unfold decodeStreamX2
  extract_lets s1 s2
  have h1 : s1.1.length ≤ size := by
    show (ite _ _ _ : StreamState).1.length ≤ size
    split
    · split
      · exact decodeGroupsX2_length ht (by decide) _ _ h
      · exact decodeGroupsX2_length ht (by decide) _ _ h
    · exact h
  have h2 : s2.1.length ≤ size ∧ size < s2.1.length + 2 := by
    show (ite _ _ _ : StreamState).1.length ≤ size ∧ size < (ite _ _ _ : StreamState).1.length + 2
    split
    · exact decodePairsX2_length ht _ _ (decodeGroupsX2_length ht (by decide) _ _ h1) (by omega)
    · omega
  split
  · have hlast := decodeLastSymbolX2_length ht s2
    omega
  · omega

/-- The lockstep loop keeps every stream inside its segment when a round fits wherever it goes on. -/
theorem fourStreamLoop_length {decode : StreamState → StreamState} {more : StreamState → StreamState → StreamState →
    StreamState → Bool} {most z1 z2 z3 z4 : Nat} (hdecode : ∀ s, (decode s).1.length ≤ s.1.length + most)
    (hmore : ∀ s1 s2 s3 s4, more s1 s2 s3 s4 = true → s1.1.length + most ≤ z1 ∧ s2.1.length + most ≤ z2 ∧
      s3.1.length + most ≤ z3 ∧ s4.1.length + most ≤ z4) :
    ∀ (fuel : Nat) (endSignal : Bool) (s1 s2 s3 s4 : StreamState), s1.1.length ≤ z1 → s2.1.length ≤ z2 →
      s3.1.length ≤ z3 → s4.1.length ≤ z4 →
      let r := fourStreamLoop decode more fuel endSignal s1 s2 s3 s4
      r.1.1.length ≤ z1 ∧ r.2.1.1.length ≤ z2 ∧ r.2.2.1.1.length ≤ z3 ∧ r.2.2.2.1.length ≤ z4
  | 0, endSignal, s1, s2, s3, s4, h1, h2, h3, h4 => ⟨h1, h2, h3, h4⟩
  | fuel + 1, endSignal, s1, s2, s3, s4, h1, h2, h3, h4 => by
    unfold fourStreamLoop
    split
    · rename_i hgo
      obtain ⟨m1, m2, m3, m4⟩ := hmore s1 s2 s3 s4 (Bool.and_eq_true_iff.1 hgo).2
      exact fourStreamLoop_length hdecode hmore fuel _ _ _ _ _ ((hdecode s1).trans m1) ((hdecode s2).trans m2)
        ((hdecode s3).trans m3) ((hdecode s4).trans m4)
    · exact ⟨h1, h2, h3, h4⟩

theorem decompress4X2_length (ht : t.Emits) {payload out : Bytes}
    (h : decompress4X2 size payload t = .ok out) : out.length = size := by
  rw [decompress4X2_eq] at h
  obtain ⟨s, hs, h⟩ := bind_ok h
  obtain ⟨-, -, hseg, -, -, -, -, -, -, -, -, -, hsegment, hlast⟩ := openStreams_ok_iff.1 hs
  have hwithin : (lockstepX2 t size s).1.1.length ≤ s.segment ∧ (lockstepX2 t size s).2.1.1.length ≤ s.segment ∧
      (lockstepX2 t size s).2.2.1.1.length ≤ s.segment ∧ (lockstepX2 t size s).2.2.2.1.length ≤ s.last :=
    fourStreamLoop_length (decodeSymbolsX2_length ht 4) (fun _ _ _ _ hmore => of_decide_eq_true hmore) (size + 1) true
      _ _ _ _ (Nat.zero_le _) (Nat.zero_le _) (Nat.zero_le _) (Nat.zero_le _)
  obtain ⟨w1, w2, w3, w4⟩ := hwithin
  obtain ⟨-, rfl⟩ := (closeStreams_ok_iff w1 w2 w3).1 h
  simp only [List.length_append, List.length_reverse]
  rw [decodeStreamX2_length ht _ w1, decodeStreamX2_length ht _ w2, decodeStreamX2_length ht _ w3,
    decodeStreamX2_length ht _ w4]
  omega

theorem decompress1X2_length {payload out : Bytes} (h : decompress1X2 size payload t = .ok out) :
    out.length = size := by
  obtain ⟨bitD, -, h⟩ := bind_ok h
  dsimp only at h
  split at h
  · cases h
  · rename_i hclean
    cases h
    rw [List.length_reverse]
    exact not_not.1 fun hne => hclean (.inl hne)

end Emits

theorem readDtableX2_emits {desc : Bytes} {t : DTableX2} {size : Nat} (h : readDtableX2 desc = .ok (t, size)) :
    t.Emits := by
  have hstats : ∃ stats, readStats desc = .ok stats := by
    rw [readDtableX2_eq] at h
    obtain ⟨stats, hstats, -⟩ := bind_ok h
    exact ⟨stats, hstats⟩
  obtain ⟨stats, hstats⟩ := hstats
  obtain ⟨entries, repeatValid, hentries, -⟩ := readCtableX1WithRepeatValidity_ok hstats
  obtain ⟨t', ht', hdecodes⟩ := readDtableX2_decodes hstats (readCtableX1_codes hstats hentries)
  rw [h] at ht'
  cases ht'
  exact fun d => ⟨(hdecodes.answers_looked d).some, (hdecodes.answers_looked d).two⟩

theorem decompressX1_length {desc : Bytes} {t : DTableX1} {descSize : Nat} (h : readDtableX1 desc = .ok (t, descSize))
    {size : Nat} {payload out : Bytes} :
    (decompress1X1 size payload t = .ok out → out.length = size) ∧
      (decompress4X1 size payload t = .ok out → out.length = size) := by
  have hstats : ∃ stats, readStats desc = .ok stats := by
    obtain ⟨stats, hstats, -⟩ := bind_ok h
    exact ⟨stats, hstats⟩
  obtain ⟨stats, hstats⟩ := hstats
  obtain ⟨entries, repeatValid, hentries, -⟩ := readCtableX1WithRepeatValidity_ok hstats
  have hcodes := readCtableX1_codes hstats hentries
  obtain ⟨t', ht', -, hdecodes⟩ := readDtableX1_decodes hstats hcodes
  rw [h] at ht'
  cases ht'
  refine ⟨fun hout => ((decompress1X1_iff hdecodes hcodes.fits).1 hout).1, fun hout => ?_⟩
  obtain ⟨-, -, hseg, p1, p2, p3, p4, o1, o2, o3, o4, -, rfl, ⟨l1, l2, l3, l4⟩, -⟩ :=
    (decompress4X1_iff hdecodes hcodes.fits).1 hout
  simp only [List.length_append]
  omega

/-- A table that was read from a description. -/
inductive HuffmanDTable.Described : HuffmanDTable → Prop where
  | single {desc : Bytes} {t : DTableX1} {size : Nat} (h : readDtableX1 desc = .ok (t, size)) : Described (.single t)
  | double {desc : Bytes} {t : DTableX2} {size : Nat} (h : readDtableX2 desc = .ok (t, size)) : Described (.double t)

theorem HuffmanDTable.Described.length {t : HuffmanDTable} (ht : t.Described) {size : Nat} {payload out : Bytes} :
    (decompress1X size payload t = .ok out → out.length = size) ∧
      (decompress4X size payload t = .ok out → out.length = size) := by
  cases ht with
  | single h => exact decompressX1_length h
  | double h => exact ⟨decompress1X2_length, decompress4X2_length (readDtableX2_emits h)⟩

end Huff0

/-! ## What the slot holds -/

/-- The slot is empty or holds a table that was read from a description. -/
def LiteralsState.Described (state : LiteralsState) : Prop := ∀ t, state.huffmanTable = some t → t.Described

theorem literalsHuffmanTable_described {payload : Bytes} {blockType : Nat} {header : CompressedLiteralsHeader}
    {state : LiteralsState} (hstate : state.Described) {t : HuffmanDTable} {size : Nat}
    (h : literalsHuffmanTable payload blockType header state = .ok (t, size)) : t.Described := by
  unfold literalsHuffmanTable at h
  split at h
  · split at h
    · obtain ⟨⟨table, tableSize⟩, hread, h⟩ := bind_ok h
      cases h
      exact .double hread
    · obtain ⟨⟨table, tableSize⟩, hread, h⟩ := bind_ok h
      cases h
      exact .single hread
  · split at h
    · rename_i htable
      cases h
      exact hstate _ htable
    · cases h

theorem LiteralsState.Described.after {state : LiteralsState} (hstate : state.Described) (src : Bytes)
    (blockSizeMax : Nat) : (state.after src blockSizeMax).Described := by
  unfold LiteralsState.after decodeLiteralsSectionKeeping decodeHuffmanLiteralsKeeping
  split
  · exact hstate
  dsimp only
  split
  · exact hstate
  split
  · exact hstate
  split
  · exact hstate
  split
  · split
    · intro t ht
      cases ht
    · exact hstate
  · rename_i htable
    rintro t ⟨⟩
    exact literalsHuffmanTable_described hstate htable

theorem LiteralsState.Reachable.described {state : LiteralsState} (h : state.Reachable) : state.Described := by
  induction h with
  | fresh =>
    intro t ht
    cases ht
  | dictionary hread =>
    rintro t ⟨⟩
    exact .double hread
  | section_ src blockSizeMax _ ih => exact ih.after src blockSizeMax

/-! ## The layout is what the decoder takes -/

theorem decodeRawOrRleSize_ok {src : Bytes} {sizeFormat headerSize regeneratedSize : Nat}
    (h : decodeRawOrRleSize src sizeFormat = .ok (headerSize, regeneratedSize)) :
    headerSize ≤ 3 ∧ regeneratedSize < 2 ^ 24 := by
  have hread : ∀ {n : Nat} {header : Bytes}, getRange src 0 n = .ok header → n ≤ 3 → readLe header < 2 ^ 24 := by
    intro n header hget hn
    have hlt := readLe_lt header
    rw [getRange_length hget, Nat.sub_zero] at hlt
    have : (256 : Nat) ^ n ≤ 256 ^ 3 := Nat.pow_le_pow_right (by decide) hn
    omega
  unfold decodeRawOrRleSize at h
  split at h
  · obtain ⟨header, hget, h⟩ := bind_ok h
    have := hread hget (by decide)
    cases h
    omega
  · obtain ⟨header, hget, h⟩ := bind_ok h
    have := hread hget (by decide)
    cases h
    omega
  · obtain ⟨header0, -, h⟩ := bind_ok h
    have : header0.toNat < 256 := header0.toNat_lt
    cases h
    omega

theorem decodeCompressedLiteralsHeader_ok {src : Bytes} {sizeFormat : Nat} {header : CompressedLiteralsHeader}
    (h : decodeCompressedLiteralsHeader src sizeFormat = .ok header) :
    header.headerSize ≤ 5 ∧ header.compressedSize < 2 ^ 40 := by
  have hread : ∀ {n : Nat} {bytes : Bytes}, getRange src 0 n = .ok bytes → n ≤ 5 → readLe bytes < 2 ^ 40 := by
    intro n bytes hget hn
    have hlt := readLe_lt bytes
    rw [getRange_length hget, Nat.sub_zero] at hlt
    have : (256 : Nat) ^ n ≤ 256 ^ 5 := Nat.pow_le_pow_right (by decide) hn
    omega
  obtain ⟨header', hheader, h⟩ := bind_ok h
  have hfields : header'.headerSize ≤ 5 ∧ header'.compressedSize < 2 ^ 40 := by
    unfold readCompressedLiteralsHeader at hheader
    split at hheader <;>
    · obtain ⟨bytes, hget, hheader⟩ := bind_ok hheader
      have := hread hget (by decide)
      cases hheader
      dsimp only
      omega
  split at h
  · cases h
  split at h
  · cases h
  · cases h
    exact hfields

/-- What the layout of a decoded section says: where it ends and how much it holds. -/
def LaysOut (src : Bytes) (size : Nat) (literals : DecodedLiterals) : Prop :=
  size ≤ src.length ∧ ∃ layout, parseLiteralsSectionLayout src = .ok layout ∧ layout.sectionSize = size ∧
    layout.regeneratedSize = literals.asSlice.length

variable {src : Bytes} {header0 : UInt8} {blockSizeMax size : Nat} {literals : DecodedLiterals}

theorem raw_laysOut (hbyte : getByte src 0 = .ok header0) (htype : header0.toNat % 4 = 0)
    (h : decodeRawLiteralsInto src (header0.toNat / 4 % 4) blockSizeMax = .ok (size, literals)) :
    LaysOut src size literals := by
  obtain ⟨⟨headerSize, regeneratedSize⟩, hsize, h⟩ := bind_ok h
  obtain ⟨hheader, hregenerated⟩ := decodeRawOrRleSize_ok hsize
  obtain ⟨-, -, h⟩ := bind_ok h
  dsimp only at h
  split at h
  · cases h
  rename_i hend
  have hlayout : parseLiteralsSectionLayout src =
      .ok ⟨headerSize, headerSize + regeneratedSize, regeneratedSize, false⟩ := by
    unfold parseLiteralsSectionLayout
    rw [hbyte, ok_bind]
    dsimp only
    rw [if_pos (.inl htype), hsize, ok_bind]
    dsimp only
    rw [if_pos htype, checkedAdd_of_lt (by omega), ok_bind]
  split at h
  · cases h
    refine ⟨by omega, _, hlayout, rfl, ?_⟩
    rw [DecodedLiterals.asSlice_length]
  · cases h
    refine ⟨by omega, _, hlayout, rfl, ?_⟩
    rw [DecodedLiterals.asSlice_ofScratch, List.length_take, List.length_drop]
    dsimp only
    omega

theorem rle_laysOut (hbyte : getByte src 0 = .ok header0) (htype : header0.toNat % 4 = 1)
    (h : decodeRleLiteralsInto src (header0.toNat / 4 % 4) blockSizeMax = .ok (size, literals)) :
    LaysOut src size literals := by
  obtain ⟨⟨headerSize, regeneratedSize⟩, hsize, h⟩ := bind_ok h
  obtain ⟨hheader, hregenerated⟩ := decodeRawOrRleSize_ok hsize
  obtain ⟨-, -, h⟩ := bind_ok h
  obtain ⟨byte, hget, h⟩ := bind_ok h
  obtain ⟨hlt, -⟩ := List.getElem?_eq_some_iff.1 (getByte_ok hget)
  cases h
  refine ⟨hlt, ⟨headerSize, headerSize + 1, regeneratedSize, false⟩, ?_, rfl, ?_⟩
  · unfold parseLiteralsSectionLayout
    rw [hbyte, ok_bind]
    dsimp only
    rw [if_pos (.inr htype), hsize, ok_bind]
    dsimp only
    rw [if_neg (by omega), checkedAdd_of_lt (by omega), ok_bind]
  · rw [DecodedLiterals.asSlice_ofScratch, List.length_replicate]

theorem huffmanStreams_length {payload : Bytes} {header : CompressedLiteralsHeader} {dtable : HuffmanDTable}
    {tableSize : Nat} (ht : dtable.Described) (h : huffmanStreams payload header dtable tableSize = .ok literals) :
    literals.asSlice.length = header.regeneratedSize := by
  obtain ⟨streams, -, h⟩ := bind_ok h
  split at h
  · cases h
  dsimp only at h
  split at h
  · obtain ⟨bytes, hbytes, h⟩ := bind_ok h
    cases h
    rw [DecodedLiterals.asSlice_ofScratch]
    exact ht.length.2 hbytes
  · obtain ⟨bytes, hbytes, h⟩ := bind_ok h
    cases h
    rw [DecodedLiterals.asSlice_ofScratch]
    exact ht.length.1 hbytes

theorem huffman_laysOut {state : LiteralsState} (hstate : state.Described) (hbyte : getByte src 0 = .ok header0)
    (hraw : header0.toNat % 4 ≠ 0) (hrle : header0.toNat % 4 ≠ 1)
    (h : (decodeHuffmanLiteralsKeeping src (header0.toNat % 4) (header0.toNat / 4 % 4) state blockSizeMax).1 =
      .ok (size, literals)) : LaysOut src size literals := by
  unfold decodeHuffmanLiteralsKeeping at h
  split at h
  · cases h
  rename_i header payloadEnd payload hpayload
  split at h
  · cases h
  rename_i dtable tableSize htable
  obtain ⟨header', hheader, hpayload⟩ := bind_ok hpayload
  obtain ⟨-, -, hpayload⟩ := bind_ok hpayload
  obtain ⟨payload', hget, hpayload⟩ := bind_ok hpayload
  cases hpayload
  obtain ⟨hheaderSize, hcompressed⟩ := decodeCompressedLiteralsHeader_ok hheader
  obtain ⟨-, hend, -⟩ := getRange_ok hget
  have hproduced : size = header.headerSize + header.compressedSize ∧
      header.regeneratedSize = literals.asSlice.length := by
    cases hstreams : huffmanStreams payload header dtable tableSize with
    | error e =>
      rw [hstreams] at h
      cases h
    | ok literals' =>
      rw [hstreams] at h
      cases h
      exact ⟨rfl, (huffmanStreams_length (literalsHuffmanTable_described hstate htable) hstreams).symm⟩
  obtain ⟨rfl, hproduced⟩ := hproduced
  refine ⟨hend, ⟨header.headerSize, header.headerSize + header.compressedSize, header.regeneratedSize, true⟩, ?_, rfl,
    hproduced⟩
  unfold parseLiteralsSectionLayout
  rw [hbyte, ok_bind]
  dsimp only
  rw [if_neg (by omega), hheader, ok_bind, checkedAdd_of_lt (by omega), ok_bind]

theorem section_laysOut {state state' : LiteralsState} (hstate : state.Described)
    (h : decodeLiteralsSectionInto src state blockSizeMax = .ok (size, literals, state')) :
    LaysOut src size literals := by
  rw [decodeLiteralsSectionInto_eq] at h
  have hkept : (decodeLiteralsSectionKeeping src state blockSizeMax).1 = .ok (size, literals) := by
    cases hresult : (decodeLiteralsSectionKeeping src state blockSizeMax).1 with
    | error e =>
      rw [hresult] at h
      cases h
    | ok r =>
      rw [hresult] at h
      cases h
      rfl
  unfold decodeLiteralsSectionKeeping at hkept
  split at hkept
  · cases hkept
  rename_i header0 hbyte
  dsimp only at hkept
  split at hkept
  · exact raw_laysOut hbyte ‹_› hkept
  split at hkept
  · exact rle_laysOut hbyte ‹_› hkept
  · exact huffman_laysOut hstate hbyte ‹_› ‹_› hkept

/-! ## Tables that fail to parse -/

/-- The table of a section of type 2, where the section gets as far as it. -/
def newTable (src : Bytes) (blockSizeMax : Nat) : Option (Result (HuffmanDTable × Nat)) :=
  match getByte src 0 with
  | .error _ => none
  | .ok header0 =>
    if header0.toNat % 4 = 2 then
      match huffmanPayload src (header0.toNat / 4 % 4) blockSizeMax with
      | .error _ => none
      | .ok (header, _, payload) => some (literalsHuffmanTable payload 2 header {})
    else none

/-- A section that takes its table from an earlier one. -/
def Treeless (src : Bytes) : Prop := ∃ header0, getByte src 0 = .ok header0 ∧ header0.toNat % 4 = 3

/-- The slot after a run of sections, decoded or refused. -/
def LiteralsState.afterAll : LiteralsState → List (Bytes × Nat) → LiteralsState
  | state, [] => state
  | state, (src, blockSizeMax) :: rest => (state.after src blockSizeMax).afterAll rest

/-- A new table depends on nothing but its section. -/
theorem literalsHuffmanTable_new (payload : Bytes) (header : CompressedLiteralsHeader) (state : LiteralsState) :
    literalsHuffmanTable payload 2 header state = literalsHuffmanTable payload 2 header {} := by
  unfold literalsHuffmanTable
  rw [if_pos rfl, if_pos rfl]

/-- The slot changes only for a new table: to it, or to nothing where it fails to parse. -/
theorem LiteralsState.after_eq (state : LiteralsState) (src : Bytes) (blockSizeMax : Nat) :
    state.after src blockSizeMax =
      match newTable src blockSizeMax with
      | none => state
      | some (.error _) => { huffmanTable := none }
      | some (.ok (t, _)) => { huffmanTable := some t } := by
  unfold after decodeLiteralsSectionKeeping decodeHuffmanLiteralsKeeping newTable
  cases hbyte : getByte src 0 with
  | error e => rfl
  | ok header0 =>
    dsimp only
    by_cases hraw : header0.toNat % 4 = 0
    · rw [if_pos hraw, if_neg (by omega)]
    rw [if_neg hraw]
    by_cases hrle : header0.toNat % 4 = 1
    · rw [if_pos hrle, if_neg (by omega)]
    rw [if_neg hrle]
    by_cases hnew : header0.toNat % 4 = 2
    · rw [if_pos hnew, hnew]
      cases huffmanPayload src (header0.toNat / 4 % 4) blockSizeMax with
      | error e => rfl
      | ok r =>
        obtain ⟨header, payloadEnd, payload⟩ := r
        dsimp only
        rw [literalsHuffmanTable_new]
        cases literalsHuffmanTable payload 2 header {} with
        | error e => rfl
        | ok t => rfl
    · -- a treeless section leaves the table it found
      simp only [if_neg hnew]
      cases huffmanPayload src (header0.toNat / 4 % 4) blockSizeMax with
      | error e => rfl
      | ok r =>
        obtain ⟨header, payloadEnd, payload⟩ := r
        dsimp only
        unfold literalsHuffmanTable
        rw [if_neg hnew]
        obtain ⟨_ | t⟩ := state
        · rfl
        · rfl

theorem newTable_error (state : LiteralsState) {src : Bytes} {blockSizeMax : Nat} {e : Error}
    (h : newTable src blockSizeMax = some (.error e)) :
    (decodeLiteralsSectionKeeping src state blockSizeMax).1 = .error e := by
  unfold newTable at h
  split at h
  · cases h
  rename_i header0 hbyte
  split at h
  · rename_i hnew
    split at h
    · cases h
    rename_i header payloadEnd payload hpayload
    unfold decodeLiteralsSectionKeeping decodeHuffmanLiteralsKeeping
    rw [hbyte]
    dsimp only
    rw [if_neg (by omega), if_neg (by omega), hpayload, hnew]
    dsimp only
    rw [literalsHuffmanTable_new, Option.some.inj h]
  · cases h

theorem treeless_refused {src : Bytes} (h : Treeless src) (blockSizeMax : Nat)
    (r : Nat × DecodedLiterals × LiteralsState) :
    decodeLiteralsSectionInto src { huffmanTable := none } blockSizeMax ≠ .ok r := by
  obtain ⟨header0, hbyte, htype⟩ := h
  intro hok
  unfold decodeLiteralsSectionInto at hok
  rw [hbyte, ok_bind] at hok
  dsimp only at hok
  rw [htype] at hok
  obtain ⟨header, -, hok⟩ := bind_ok hok
  obtain ⟨-, -, hok⟩ := bind_ok hok
  obtain ⟨payload, -, hok⟩ := bind_ok hok
  obtain ⟨t, htable, -⟩ := bind_ok hok
  cases htable

theorem cleared_afterAll : ∀ {later : List (Bytes × Nat)}, (∀ s ∈ later, ∀ t, newTable s.1 s.2 ≠ some (.ok t)) →
    LiteralsState.afterAll { huffmanTable := none } later = { huffmanTable := none }
  | [], _ => rfl
  | (src, blockSizeMax) :: rest, h => by
    have hone := h _ List.mem_cons_self
    have hstep : LiteralsState.after { huffmanTable := none } src blockSizeMax = { huffmanTable := none } := by
      rw [LiteralsState.after_eq]
      split
      · rfl
      · rfl
      · rename_i t size htable
        exact absurd htable (hone (t, size))
    unfold LiteralsState.afterAll
    rw [hstep]
    exact cleared_afterAll fun s hs => h s (List.mem_cons_of_mem _ hs)

/-- In every state that a decoder can come to: a section that decodes lies inside its input and is as long, and holds
as many literals, as its layout says; and when the new table of a section fails to parse, the slot is cleared, and
after any sections that bring no table of their own a treeless one is refused. -/
theorem literals_layout_agrees {state : LiteralsState} (hstate : state.Reachable) (src : Bytes) (blockSizeMax : Nat) :
    (∀ size literals state', decodeLiteralsSectionInto src state blockSizeMax = .ok (size, literals, state') →
      size ≤ src.length ∧ ∃ layout, parseLiteralsSectionLayout src = .ok layout ∧ layout.sectionSize = size ∧
        layout.regeneratedSize = literals.asSlice.length) ∧
    (∀ e, newTable src blockSizeMax = some (.error e) →
      (decodeLiteralsSectionKeeping src state blockSizeMax).1 = .error e ∧
      (state.after src blockSizeMax).huffmanTable = none ∧
      ∀ later : List (Bytes × Nat), (∀ s ∈ later, ∀ t, newTable s.1 s.2 ≠ some (.ok t)) →
        ∀ treeless limit, Treeless treeless → ∀ r,
          decodeLiteralsSectionInto treeless ((state.after src blockSizeMax).afterAll later) limit ≠ .ok r) := by
  refine ⟨fun size literals state' h => section_laysOut hstate.described h, fun e he => ?_⟩
  have hafter : state.after src blockSizeMax = { huffmanTable := none } := by
    rw [LiteralsState.after_eq, he]
  refine ⟨?_, by rw [hafter], fun later hlater treeless limit htreeless r => ?_⟩
  · exact newTable_error state he
  · rw [hafter, cleared_afterAll hlater]
    exact treeless_refused htreeless limit r

/-- A raw section of three literals, and a section whose table fails to parse: after it a treeless one is refused. -/
theorem literals_layout_agrees_cleared :
    (∃ layout, parseLiteralsSectionLayout [24, 1, 2, 3] = .ok layout ∧ layout.sectionSize = 4 ∧
      layout.regeneratedSize = 3) ∧
    (LiteralsState.after {} [2, 64, 0, 5] 1024).huffmanTable = none ∧
    ∀ r, decodeLiteralsSectionInto [3, 64, 0, 0] (LiteralsState.after {} [2, 64, 0, 5] 1024) 1024 ≠ .ok r := by
  obtain ⟨hdecoded, -⟩ := literals_layout_agrees .fresh [24, 1, 2, 3] 1024
  obtain ⟨-, hcleared⟩ := literals_layout_agrees .fresh [2, 64, 0, 5] 1024
  obtain ⟨-, hnone, hrefused⟩ := hcleared .srcSizeWrong (by decide +kernel)
  refine ⟨?_, hnone, hrefused [] (fun s hs => absurd hs List.not_mem_nil) [3, 64, 0, 0] 1024 ⟨3, rfl, rfl⟩⟩
  exact (hdecoded 4 (.ofScratch [1, 2, 3]) {} rfl).2

end Zstandard
