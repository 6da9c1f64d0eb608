/-
The sequence section of a compressed block: the sequence count, the compression modes, the three
decode tables with their persistence across blocks, and the repeat offsets.

A decoder's repeat offset is never zero: `DecoderRepeatOffsets` carries that as a field, and every
resolution of an offset value keeps it.
-/
import Zstandard.Entropy.Fse
import Zstandard.Wire.Block

namespace Zstandard

open Fse

/-! ## Codes -/

/-- The smallest literal length of each code. -/
def literalLengthBaselines : List Nat :=
  [0, 1, 2, 3, 4, 5, 6, 7, 8, 9, 10, 11, 12, 13, 14, 15, 16, 18, 20, 22, 24, 28, 32, 40, 48, 64,
   128, 256, 512, 1024, 2048, 4096, 8192, 16384, 32768, 65536]

/-- The bits above it. -/
def literalLengthExtraBits : List Nat :=
  [0, 0, 0, 0, 0, 0, 0, 0, 0, 0, 0, 0, 0, 0, 0, 0, 1, 1, 1, 1, 2, 2, 3, 3, 4, 6, 7, 8, 9, 10, 11,
   12, 13, 14, 15, 16]

/-- The smallest match length of each code. -/
def matchLengthBaselines : List Nat :=
  [3, 4, 5, 6, 7, 8, 9, 10, 11, 12, 13, 14, 15, 16, 17, 18, 19, 20, 21, 22, 23, 24, 25, 26, 27,
   28, 29, 30, 31, 32, 33, 34, 35, 37, 39, 41, 43, 47, 51, 59, 67, 83, 99, 131, 259, 515, 1027,
   2051, 4099, 8195, 16387, 32771, 65539]

/-- The bits above it. -/
def matchLengthExtraBits : List Nat :=
  [0, 0, 0, 0, 0, 0, 0, 0, 0, 0, 0, 0, 0, 0, 0, 0, 0, 0, 0, 0, 0, 0, 0, 0, 0, 0, 0, 0, 0, 0, 0, 0,
   1, 1, 1, 1, 2, 2, 3, 3, 4, 4, 5, 7, 8, 9, 10, 11, 12, 13, 14, 15, 16]

/-- The predefined distributions of the format, `-1` for less than one slot. -/
def literalLengthDefaultDistribution : List Int :=
  [4, 3, 2, 2, 2, 2, 2, 2, 2, 2, 2, 2, 2, 1, 1, 1, 2, 2, 2, 2, 2, 2, 2, 2, 2, 3, 2, 1, 1, 1, 1, 1,
   -1, -1, -1, -1]
def offsetDefaultDistribution : List Int :=
  [1, 1, 1, 1, 1, 1, 2, 2, 2, 1, 1, 1, 1, 1, 1, 1, 1, 1, 1, 1, 1, 1, 1, 1, -1, -1, -1, -1, -1]
def matchLengthDefaultDistribution : List Int :=
  [1, 4, 3, 2, 2, 2, 2, 2, 2, 1, 1, 1, 1, 1, 1, 1, 1, 1, 1, 1, 1, 1, 1, 1, 1, 1, 1, 1, 1, 1, 1, 1,
   1, 1, 1, 1, 1, 1, 1, 1, 1, 1, 1, 1, 1, 1, -1, -1, -1, -1, -1, -1, -1]

/-- `SequenceCompressionMode`: how a section gives one of its tables. -/
inductive CompressionMode where
  | predefined | rle | fseCompressed | «repeat»
deriving DecidableEq, Repr

def CompressionMode.fromBits : Nat → CompressionMode
  | 0 => .predefined
  | 1 => .rle
  | 2 => .fseCompressed
  | _ => .repeat

/-- The three alphabets of a sequence. -/
inductive SequencePart where
  | literalLength | offset | matchLength
deriving DecidableEq, Repr

namespace SequencePart

/-- The largest code of an alphabet. -/
def maxSymbolValue : SequencePart → Nat
  | .literalLength => 35
  | .offset => 31
  | .matchLength => 52

/-- The log of the largest table of an alphabet. -/
def maxAccuracyLog : SequencePart → Nat
  | .literalLength | .matchLength => 9
  | .offset => 8

/-- The predefined distribution, with its table log. -/
def defaultDistribution : SequencePart → List Int × Nat
  | .literalLength => (literalLengthDefaultDistribution, 6)
  | .offset => (offsetDefaultDistribution, 5)
  | .matchLength => (matchLengthDefaultDistribution, 6)

/-- The entry a sequence table holds for a decode entry of this alphabet. -/
def entry : SequencePart → DecodeEntry → SequenceDecodeEntry
  | .literalLength => (·.withBaseline literalLengthBaselines literalLengthExtraBits)
  | .offset => DecodeEntry.asOffset
  | .matchLength => (·.withBaseline matchLengthBaselines matchLengthExtraBits)

/-- `build_sequence_dtable_direct` or its offset twin, with the alphabet's own tables. -/
def buildSequenceDtable (part : SequencePart) (normalizedCounter : List Int)
    (maxSymbolValue tableLog : Nat) : Result SequenceDTable :=
  match part with
  | .literalLength => buildSequenceDtableDirect normalizedCounter maxSymbolValue tableLog
      literalLengthBaselines literalLengthExtraBits
  | .offset => buildOffsetSequenceDtableDirect normalizedCounter maxSymbolValue tableLog
  | .matchLength => buildSequenceDtableDirect normalizedCounter maxSymbolValue tableLog
      matchLengthBaselines matchLengthExtraBits

/-- `build_sequence_dtable_from` or its offset twin, with the alphabet's own tables. -/
def sequenceDtableFrom (part : SequencePart) (dt : DTable) : SequenceDTable :=
  match part with
  | .literalLength => buildSequenceDtableFrom dt literalLengthBaselines literalLengthExtraBits
  | .offset => buildOffsetSequenceDtableFrom dt
  | .matchLength => buildSequenceDtableFrom dt matchLengthBaselines matchLengthExtraBits

/-- The error of a repeat without a previous table. -/
def missingTable : SequencePart → Error
  | .literalLength => .corruption "missing literal-length FSE table"
  | .offset => .corruption "missing offset FSE table"
  | .matchLength => .corruption "missing match-length FSE table"

end SequencePart

/-! ## Tables that persist across blocks -/

/-- One alphabet's share of `SequenceTablesState`: the plain table (a dictionary's, or one built for
inspection), the table the decoder reads, whether that one must be rebuilt from the plain table,
and whether a previous table exists. -/
structure SequenceTableSlot where
  dtable : Option DTable := none
  seq : SequenceDTable := { tableLog := 0, entries := [] }
  dirty : Bool := true
  has : Bool := false
deriving DecidableEq, Repr

/-- `SequenceTablesState`: the tables that the next section may repeat. -/
structure SequenceTablesState where
  literalLengths : SequenceTableSlot := {}
  offsets : SequenceTableSlot := {}
  matchLengths : SequenceTableSlot := {}
deriving DecidableEq, Repr

inductive TableTarget where
  | sequenceOnly | both
deriving DecidableEq, Repr

/-- The plain table `target` asks for. -/
def TableTarget.slot (target : TableTarget) (table : Result DTable) : Result (Option DTable) :=
  match target with
  | .sequenceOnly => .ok none
  | .both => some <$> table

/-- `decode_seq_table_both`, with the dirty flag its caller clears: the slot after the block's table
header, and the bytes the header takes. -/
def decodeSeqTableBoth (part : SequencePart) (mode : CompressionMode) (target : TableTarget)
    (src : Bytes) (slot : SequenceTableSlot) : Result (SequenceTableSlot × Nat) :=
  match mode with
  | .predefined => do
    let (distribution, tableLog) := part.defaultDistribution
    let dtable ← target.slot (buildDtable distribution (distribution.length - 1) tableLog)
    let seq ← part.buildSequenceDtable distribution (distribution.length - 1) tableLog
    .ok ({ dtable, seq, dirty := false, has := true }, 0)
  | .rle => do
    let symbol := (← getByte src 0).toNat
    if symbol > part.maxSymbolValue then
      .error (.corruption "sequence RLE symbol exceeds the supported code range") else
    let dtable ← target.slot (.ok (buildRleDtable symbol))
    .ok ({ dtable, seq := part.sequenceDtableFrom (buildRleDtable symbol), dirty := false, has := true }, 1)
  | .fseCompressed => do
    let n ← readNcount src (symbolvalueMax + 1) part.maxSymbolValue part.maxAccuracyLog
    let dtable ← target.slot (buildDtable n.normalizedCounter n.maxSymbolValue n.tableLog)
    let seq ← part.buildSequenceDtable n.normalizedCounter n.maxSymbolValue n.tableLog
    .ok ({ dtable, seq, dirty := false, has := true }, n.size)
  | .repeat =>
    if slot.has then .ok (slot, 0)
    else .error (.corruption "sequence repeat mode requires a previous FSE table")

/-- `ParsedSequenceSection`: the count, the bytes of the header and the bitstream behind it. -/
structure ParsedSequenceSection where
  numberOfSequences : Nat
  headerSize : Nat
  bitstream : Bytes
deriving DecidableEq, Repr

/-- The count, in one to three bytes. -/
def parseSequenceCount (src : Bytes) : Result (Nat × Nat) := do
  let byte0 := (← getByte src 0).toNat
  if byte0 < 128 then .ok (byte0, 1)
  else if byte0 < 255 then do
    let byte1 := (← getByte src 1).toNat
    .ok ((byte0 - 128) * 256 + byte1, 2)
  else do
    let byte1 := (← getByte src 1).toNat
    let byte2 := (← getByte src 2).toNat
    .ok (0x7F00 + byte1 + byte2 * 256, 3)

/-- `parse_sequence_section`: the count, the modes and a table for each alphabet. -/
def parseSequenceSection (src : Bytes) (tables : SequenceTablesState) (target : TableTarget) :
    Result (ParsedSequenceSection × SequenceTablesState) := do
  let (numberOfSequences, countSize) ← parseSequenceCount src
  if numberOfSequences = 0 then
    .ok ({ numberOfSequences, headerSize := countSize, bitstream := [] }, tables)
  else do
    let modesByte := (← getByte src countSize).toNat
    if modesByte % 4 ≠ 0 then
      .error (.corruption "sequence compression modes reserved bits are set") else
    let cursor := countSize + 1
    let (literalLengths, n) ← decodeSeqTableBoth .literalLength (.fromBits (modesByte / 64)) target
      (src.drop cursor) tables.literalLengths
    let cursor := cursor + n
    let (offsets, n) ← decodeSeqTableBoth .offset (.fromBits (modesByte / 16 % 4)) target
      (src.drop cursor) tables.offsets
    let cursor := cursor + n
    let (matchLengths, n) ← decodeSeqTableBoth .matchLength (.fromBits (modesByte / 4 % 4)) target
      (src.drop cursor) tables.matchLengths
    let cursor := cursor + n
    let bitstream ← getFrom src cursor
    if bitstream.isEmpty then .error .unexpectedEof else
    .ok ({ numberOfSequences, headerSize := cursor, bitstream }, { literalLengths, offsets, matchLengths })

/-- `decode_setup` for one alphabet: a dictionary's table is converted on first use. -/
def setupSlot (part : SequencePart) (slot : SequenceTableSlot) : Result SequenceTableSlot :=
  if slot.dirty then
    match slot.dtable with
    | some dt => .ok { slot with seq := part.sequenceDtableFrom dt, dirty := false, has := true }
    | none => .error part.missingTable
  else if slot.has then .ok slot
  else .error part.missingTable

/-- The table part of `decode_setup`. -/
def setupTables (tables : SequenceTablesState) : Result SequenceTablesState := do
  let literalLengths ← setupSlot .literalLength tables.literalLengths
  let offsets ← setupSlot .offset tables.offsets
  let matchLengths ← setupSlot .matchLength tables.matchLengths
  .ok { literalLengths, offsets, matchLengths }

/-! ## Symbols stay in their alphabets -/

/-- Both tables of a slot hold symbols of the alphabet only. -/
structure SequenceTableSlot.Ok (part : SequencePart) (slot : SequenceTableSlot) : Prop where
  dtable : ∀ dt ∈ slot.dtable, ∀ e ∈ dt.entries, e.symbol ≤ part.maxSymbolValue
  seq : ∀ e ∈ slot.seq.entries, ∃ d : DecodeEntry, d.symbol ≤ part.maxSymbolValue ∧ e = part.entry d

/-- Every table that is there belongs to its alphabet. -/
structure SequenceTablesState.Ok (tables : SequenceTablesState) : Prop where
  literalLengths : tables.literalLengths.Ok .literalLength
  offsets : tables.offsets.Ok .offset
  matchLengths : tables.matchLengths.Ok .matchLength

theorem SequenceTableSlot.ok_default (part : SequencePart) : ({} : SequenceTableSlot).Ok part :=
  ⟨fun _ h => (nomatch h), fun _ h => (nomatch h)⟩

theorem SequenceTablesState.ok_default : ({} : SequenceTablesState).Ok :=
  ⟨SequenceTableSlot.ok_default _, SequenceTableSlot.ok_default _, SequenceTableSlot.ok_default _⟩

theorem SequencePart.sequenceDtableFrom_entries (part : SequencePart) (dt : DTable) :
    (part.sequenceDtableFrom dt).entries = dt.entries.map part.entry := by
  cases part <;> rfl

theorem SequencePart.buildSequenceDtable_ok {part : SequencePart} {normalizedCounter : List Int}
    {maxSymbolValue tableLog : Nat} {t : SequenceDTable}
    (h : part.buildSequenceDtable normalizedCounter maxSymbolValue tableLog = .ok t) :
    ∃ entries, buildEntries normalizedCounter maxSymbolValue tableLog = .ok entries ∧
      t = { tableLog, entries := entries.map part.entry } := by
  cases part <;>
  · obtain ⟨entries, h1, h2⟩ := bind_ok h
    cases h2
    exact ⟨entries, h1, rfl⟩

theorem TableTarget.slot_ok {target : TableTarget} {table : Result DTable} {dtable : Option DTable}
    (h : target.slot table = .ok dtable) : ∀ dt ∈ dtable, table = .ok dt := by
  cases target with
  | sequenceOnly => cases h; exact fun _ h => (nomatch h)
  | both =>
    cases ht : table with
    | error e => rw [ht] at h; cases h
    | ok dt =>
      rw [ht] at h; cases h
      intro dt' hm
      rw [Option.mem_some_iff.1 hm]

theorem buildDtable_symbol_le {normalizedCounter : List Int} {maxSymbolValue tableLog : Nat} {dt : DTable}
    (h : buildDtable normalizedCounter maxSymbolValue tableLog = .ok dt) :
    ∀ e ∈ dt.entries, e.symbol ≤ maxSymbolValue := by
  obtain ⟨entries, h1, h2⟩ := bind_ok h
  cases h2
  exact buildEntries_symbol_le h1

/-- The slot a table description leaves, when both tables come from counts within the alphabet. -/
theorem SequenceTableSlot.Ok.of_counts {part : SequencePart} {target : TableTarget} {normalizedCounter : List Int}
    {maxSymbolValue tableLog : Nat} {dtable : Option DTable} {seq : SequenceDTable}
    (hmax : maxSymbolValue ≤ part.maxSymbolValue)
    (hd : target.slot (buildDtable normalizedCounter maxSymbolValue tableLog) = .ok dtable)
    (hs : part.buildSequenceDtable normalizedCounter maxSymbolValue tableLog = .ok seq) :
    ({ dtable, seq, dirty := false, has := true } : SequenceTableSlot).Ok part := by
  refine ⟨fun dt hdt e he => ?_, fun e he => ?_⟩
  · exact le_trans (buildDtable_symbol_le (TableTarget.slot_ok hd dt hdt) e he) hmax
  · obtain ⟨entries, h1, rfl⟩ := part.buildSequenceDtable_ok hs
    obtain ⟨d, hd, rfl⟩ := List.mem_map.1 he
    exact ⟨d, le_trans (buildEntries_symbol_le h1 d hd) hmax, rfl⟩

theorem decodeSeqTableBoth_slotOk {part : SequencePart} {mode : CompressionMode} {target : TableTarget}
    {src : Bytes} {slot slot' : SequenceTableSlot} {n : Nat} (hok : slot.Ok part)
    (h : decodeSeqTableBoth part mode target src slot = .ok (slot', n)) : slot'.Ok part := by
  cases mode with
  | predefined =>
    obtain ⟨dtable, hd, h⟩ := bind_ok h
    obtain ⟨seq, hs, h⟩ := bind_ok h
    cases h
    exact .of_counts (by cases part <;> decide) hd hs
  | rle =>
    obtain ⟨b, _, h⟩ := bind_ok h
    simp only at h
    split at h
    · cases h
    rename_i hle
    obtain ⟨dtable, hd, h⟩ := bind_ok h
    cases h
    refine ⟨fun dt hdt e he => ?_, fun e he => ?_⟩
    · have := TableTarget.slot_ok hd dt hdt
      cases this
      rw [List.mem_singleton.1 he]
      simp only; omega
    · rw [part.sequenceDtableFrom_entries] at he
      obtain ⟨d, hd, rfl⟩ := List.mem_map.1 he
      rw [List.mem_singleton.1 hd]
      exact ⟨_, by simp only; omega, rfl⟩
  | fseCompressed =>
    obtain ⟨nc, hn, h⟩ := bind_ok h
    obtain ⟨dtable, hd, h⟩ := bind_ok h
    obtain ⟨seq, hs, h⟩ := bind_ok h
    cases h
    exact .of_counts (readNcount_maxSymbolValue hn) hd hs
  | «repeat» =>
    unfold decodeSeqTableBoth at h
    simp only at h
    split at h
    · cases h; exact hok
    · cases h

theorem parseSequenceSection_tablesOk {src : Bytes} {tables tables' : SequenceTablesState} {target : TableTarget}
    {s : ParsedSequenceSection} (hok : tables.Ok)
    (h : parseSequenceSection src tables target = .ok (s, tables')) : tables'.Ok := by
  unfold parseSequenceSection at h
  obtain ⟨⟨n, countSize⟩, _, h⟩ := bind_ok h
  simp only at h
  split at h
  · cases h; exact hok
  obtain ⟨modes, _, h⟩ := bind_ok h
  split at h
  · cases h
  obtain ⟨⟨ll, n1⟩, h1, h⟩ := bind_ok h
  obtain ⟨⟨off, n2⟩, h2, h⟩ := bind_ok h
  obtain ⟨⟨ml, n3⟩, h3, h⟩ := bind_ok h
  obtain ⟨_, _, h⟩ := bind_ok h
  split at h
  · cases h
  · cases h
    exact ⟨decodeSeqTableBoth_slotOk hok.1 h1, decodeSeqTableBoth_slotOk hok.2 h2, decodeSeqTableBoth_slotOk hok.3 h3⟩

theorem setupSlot_ok {part : SequencePart} {slot slot' : SequenceTableSlot} (hok : slot.Ok part)
    (h : setupSlot part slot = .ok slot') : slot'.Ok part := by
  unfold setupSlot at h
  split at h
  · split at h
    · rename_i dt hdt
      cases h
      refine ⟨hok.dtable, fun e he => ?_⟩
      rw [part.sequenceDtableFrom_entries] at he
      obtain ⟨d, hd, rfl⟩ := List.mem_map.1 he
      exact ⟨d, hok.dtable dt hdt d hd, rfl⟩
    · cases h
  · split at h
    · cases h; exact hok
    · cases h

theorem setupTables_tablesOk {tables tables' : SequenceTablesState} (hok : tables.Ok)
    (h : setupTables tables = .ok tables') : tables'.Ok := by
  obtain ⟨ll, h1, h⟩ := bind_ok h
  obtain ⟨off, h2, h⟩ := bind_ok h
  obtain ⟨ml, h3, h⟩ := bind_ok h
  cases h
  exact ⟨setupSlot_ok hok.1 h1, setupSlot_ok hok.2 h2, setupSlot_ok hok.3 h3⟩

/-- No match a decoder can read is empty. -/
theorem SequenceTablesState.Ok.matchBaseline {tables : SequenceTablesState} (h : tables.Ok) :
    ∀ e ∈ tables.matchLengths.seq.entries, 0 < e.baseline := by
  intro e he
  obtain ⟨d, hd, rfl⟩ := h.matchLengths.seq e he
  have : ∀ s ≤ 52, 0 < matchLengthBaselines.getD s 0 := by decide
  exact this d.symbol hd

/-! ## Repeat offsets -/

/-- `RepeatOffsets`: the three most recent offsets, the latest first. -/
structure RepeatOffsets where
  rep1 : Nat
  rep2 : Nat
  rep3 : Nat
deriving DecidableEq, Repr

/-- `Default for RepeatOffsets`. -/
def RepeatOffsets.initial : RepeatOffsets := ⟨1, 4, 8⟩

/-- The repeat offsets of a decoder, none of which is ever zero. -/
structure DecoderRepeatOffsets extends RepeatOffsets where
  pos : 0 < rep1 ∧ 0 < rep2 ∧ 0 < rep3
deriving DecidableEq, Repr

namespace DecoderRepeatOffsets

def initial : DecoderRepeatOffsets := { RepeatOffsets.initial with pos := by decide }

/-- The index of the repeat an offset value names: without literals it is one further on. -/
def repIndex (offsetValue literalLength : Nat) : Nat := offsetValue + if literalLength = 0 then 1 else 0

/-- An explicit offset moves in front of the other two. -/
def push (r : DecoderRepeatOffsets) (offset : Nat) (h : 0 < offset) : DecoderRepeatOffsets :=
  ⟨⟨offset, r.rep1, r.rep2⟩, h, r.pos.1, r.pos.2.1⟩

/-- `OFFSET_SENTINEL`, the offset of an invalid repeat. -/
def offsetSentinel : Nat := 2 ^ 32 - 1

/-- `resolve_rep_offset_decode`: the offset of a repeat and the repeat offsets after it. -/
def resolveRepOffsetDecode (r : DecoderRepeatOffsets) (offsetValue literalLength : Nat) :
    Nat × DecoderRepeatOffsets :=
  if offsetValue = 0 then (offsetSentinel, r)
  else if repIndex offsetValue literalLength = 2 then
    (r.rep2, ⟨⟨r.rep2, r.rep1, r.rep3⟩, r.pos.2.1, r.pos.1, r.pos.2.2⟩)
  else if repIndex offsetValue literalLength = 3 then
    (r.rep3, ⟨⟨r.rep3, r.rep1, r.rep2⟩, r.pos.2.2, r.pos.1, r.pos.2.1⟩)
  else if h : r.rep1 ≤ 1 then (offsetSentinel, r)
  else (r.rep1 - 1, r.push (r.rep1 - 1) (by omega))

/-- The inline resolution of the executor, with the rare repeats outlined. -/
def resolveDecode (r : DecoderRepeatOffsets) (offsetValue literalLength : Nat) :
    Nat × DecoderRepeatOffsets :=
  if h : offsetValue > 3 then (offsetValue - 3, r.push (offsetValue - 3) (by omega))
  else if offsetValue = 1 ∧ literalLength ≠ 0 then (r.rep1, r)
  else r.resolveRepOffsetDecode offsetValue literalLength

theorem resolveRepOffsetDecode_pos (r : DecoderRepeatOffsets) (ov ll : Nat) :
    0 < (r.resolveRepOffsetDecode ov ll).1 := by
  have hp := r.pos
  unfold resolveRepOffsetDecode offsetSentinel
  split
  · simp
  split
  · exact hp.2.1
  split
  · exact hp.2.2
  split
  · simp
  · show 0 < r.rep1 - 1
    omega

/-- A resolved offset is never zero. -/
theorem resolveDecode_pos (r : DecoderRepeatOffsets) (ov ll : Nat) : 0 < (r.resolveDecode ov ll).1 := by
  unfold resolveDecode
  split
  · show 0 < ov - 3
    omega
  split
  · exact r.pos.1
  · exact r.resolveRepOffsetDecode_pos ov ll

end DecoderRepeatOffsets

/-! ## The sequence reader -/

/-- The three FSE states of a block's sequence bitstream, with their table entries. -/
structure SequenceReader where
  bitD : BitDStream
  lit : SequenceDecodeEntry
  off : SequenceDecodeEntry
  ml : SequenceDecodeEntry

/-- A sequence as the bitstream gives it, before its offset value is resolved. -/
structure RawSequence where
  literalLength : Nat
  matchLength : Nat
  offsetValue : Nat
deriving DecidableEq, Repr

/-- `get_entry_raw`. A state outside the table, which the source may not read and no table built from
a valid distribution leads to, is an error. -/
def entryAt (t : SequenceDTable) (state : Nat) : Result SequenceDecodeEntry :=
  match t.entries[state]? with
  | some e => .ok e
  | none => .error .generic

/-- The three initial states, each behind a reload. -/
def initSequenceReader (bitstream : Bytes) (tables : SequenceTablesState) : Result SequenceReader := do
  let bitD ← BitDStream.new bitstream
  let (ll, bitD) := initDstate bitD tables.literalLengths.seq.tableLog
  let (of, bitD) := initDstate bitD tables.offsets.seq.tableLog
  let (ml, bitD) := initDstate bitD tables.matchLengths.seq.tableLog
  let lit ← entryAt tables.literalLengths.seq ll
  let off ← entryAt tables.offsets.seq of
  let ml ← entryAt tables.matchLengths.seq ml
  .ok { bitD, lit, off, ml }

/-- `read_bits_fast` guarded against a zero width. -/
def readExtra (bitD : BitDStream) (nbBits : Nat) : Nat × BitDStream :=
  if nbBits > 0 then bitD.readBitsFast nbBits else (0, bitD)

/-- The `decode_sequence!` body: the extra bits of offset, match and literals, in that order. -/
def decodeSequence (r : SequenceReader) : RawSequence × SequenceReader :=
  let (offsetExtra, bitD) := readExtra r.bitD r.off.nbAdditionalBits
  let (matchExtra, bitD) := readExtra bitD r.ml.nbAdditionalBits
  let bitD :=
    if r.off.nbAdditionalBits + r.ml.nbAdditionalBits + r.lit.nbAdditionalBits ≥ 31 then bitD.reload.2
    else bitD
  let (literalExtra, bitD) := readExtra bitD r.lit.nbAdditionalBits
  ({ literalLength := r.lit.baseline + literalExtra, matchLength := r.ml.baseline + matchExtra
     offsetValue := 2 ^ r.off.nbAdditionalBits + offsetExtra }, { r with bitD })

/-- The state updates after a sequence that is not the last: one read for all three states. -/
def updateStates (tables : SequenceTablesState) (r : SequenceReader) : Result SequenceReader := do
  let llBits := r.lit.nbBits
  let mlBits := r.ml.nbBits
  let ofBits := r.off.nbBits
  let (stateVal, bitD) := readExtra r.bitD (llBits + mlBits + ofBits)
  let lit ← entryAt tables.literalLengths.seq (r.lit.newState + (stateVal >>> (mlBits + ofBits)) % 2 ^ llBits)
  let ml ← entryAt tables.matchLengths.seq (r.ml.newState + (stateVal >>> ofBits) % 2 ^ mlBits)
  let off ← entryAt tables.offsets.seq (r.off.newState + stateVal % 2 ^ ofBits)
  .ok { bitD, lit, off, ml }

end Zstandard
