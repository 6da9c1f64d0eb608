/-
The sequence decode tables in the slots that the blocks of a frame share.

A slot's arrays are as long as the largest table and are written in place: a block's table goes over the
older one, a predefined or a dictionary's table is copied in, and what lies behind the active entries is
whatever was there before. The slots show the tables of the decoder at every point of a frame, and these
are the tables that the format gives the blocks: the described one, or the last one described before.
-/
import Zstandard.Decode.Slice
import Zstandard.Entropy.NcountSafe
import Zstandard.Library.Follows

namespace Zstandard

open Fse Simulation

/-! ## Arrays and what is active of them -/

namespace Fse

/-- An array of the largest size that nothing has been built in. -/
def DTable.fresh : DTable :=
  { tableLog := 0, fastMode := false, entries := List.replicate tablesizeMax default }

/-- The same for a sequence table. -/
def SequenceDTable.fresh : SequenceDTable := { tableLog := 0, entries := List.replicate tablesizeMax default }

/-- How many entries of a table the decoder can come to: a table of log 0 has one. -/
def activeSize (tableLog : Nat) : Nat := if tableLog = 0 then 1 else 2 ^ tableLog

/-- The entries that a table of this size uses. -/
def DTable.active (dt : DTable) : DTable := { dt with entries := dt.entries.take (activeSize dt.tableLog) }

/-- The entries that a sequence table of this size uses. -/
def SequenceDTable.active (t : SequenceDTable) : SequenceDTable :=
  { t with entries := t.entries.take (activeSize t.tableLog) }

/-- `copy_active_from`. -/
def DTable.copyActiveFrom (dt src : DTable) : DTable :=
  { src with entries := src.entries.take (activeSize src.tableLog) ++ dt.entries.drop (activeSize src.tableLog) }

/-- `copy_active_from`: what is behind them stays. -/
def SequenceDTable.copyActiveFrom (t src : SequenceDTable) : SequenceDTable :=
  { src with entries := src.entries.take (activeSize src.tableLog) ++ t.entries.drop (activeSize src.tableLog) }

/-- `build_rle_dtable`. -/
def buildRleDtableInto (dt : DTable) (symbol : Nat) : DTable :=
  { tableLog := 0, fastMode := false, entries := dt.entries.set 0 { newState := 0, symbol, nbBits := 0 } }

/-- An array of a table of some log: it is whole, and the table fits. -/
structure DTable.Whole (dt : DTable) : Prop where
  length : dt.entries.length = tablesizeMax
  fits : dt.tableLog ≤ tablelogMax

/-- An array of the largest size, with a table that fits. -/
structure SequenceDTable.Whole (t : SequenceDTable) : Prop where
  length : t.entries.length = tablesizeMax
  fits : t.tableLog ≤ tablelogMax

theorem activeSize_le {tableLog : Nat} (h : tableLog ≤ tablelogMax) : activeSize tableLog ≤ tablesizeMax := by
  unfold activeSize
  split
  · decide
  · exact Nat.pow_le_pow_right (by norm_num) h

theorem activeSize_eq {tableLog : Nat} (h : tableLog ≠ 0) : activeSize tableLog = 2 ^ tableLog := by
  unfold activeSize
  rw [if_neg h]

theorem DTable.fresh_whole : DTable.fresh.Whole := ⟨List.length_replicate, Nat.zero_le _⟩

theorem SequenceDTable.fresh_whole : SequenceDTable.fresh.Whole := ⟨List.length_replicate, Nat.zero_le _⟩

theorem DTable.copyActiveFrom_active {dt src : DTable} (hdt : dt.Whole) (hsrc : src.Whole) :
    (dt.copyActiveFrom src).Whole ∧ (dt.copyActiveFrom src).active = src.active := by
  have hlen : (src.entries.take (activeSize src.tableLog)).length = activeSize src.tableLog := by
    have := activeSize_le hsrc.fits
    rw [List.length_take, hsrc.length]
    omega
  refine ⟨⟨?_, hsrc.fits⟩, ?_⟩
  · have := activeSize_le hsrc.fits
    unfold copyActiveFrom
    rw [List.length_append, hlen, List.length_drop, hdt.length]
    omega
  · unfold active copyActiveFrom
    simp only
    rw [List.take_left' hlen]

theorem SequenceDTable.copyActiveFrom_active {t src : SequenceDTable} (ht : t.Whole) (hsrc : src.Whole) :
    (t.copyActiveFrom src).Whole ∧ (t.copyActiveFrom src).active = src.active := by
  have hlen : (src.entries.take (activeSize src.tableLog)).length = activeSize src.tableLog := by
    have := activeSize_le hsrc.fits
    rw [List.length_take, hsrc.length]
    omega
  refine ⟨⟨?_, hsrc.fits⟩, ?_⟩
  · have := activeSize_le hsrc.fits
    unfold copyActiveFrom
    rw [List.length_append, hlen, List.length_drop, ht.length]
    omega
  · unfold active copyActiveFrom
    simp only
    rw [List.take_left' hlen]

theorem buildRleDtableInto_active {dt : DTable} (hdt : dt.Whole) (symbol : Nat) :
    (buildRleDtableInto dt symbol).Whole ∧ (buildRleDtableInto dt symbol).active = buildRleDtable symbol := by
  have hlen := hdt.length
  refine ⟨⟨by unfold buildRleDtableInto; rw [List.length_set, hlen], Nat.zero_le _⟩, ?_⟩
  unfold buildRleDtableInto DTable.active buildRleDtable activeSize
  cases hentries : dt.entries with
  | nil =>
    rw [hentries] at hlen
    cases hlen
  | cons e rest => rfl

/-- Copying an array's active entries embeds the active table. -/
theorem copyEntries_active (embed : DecodeEntry → SequenceDecodeEntry) {dt : DTable} {out : SequenceDTable}
    (hdt : dt.Whole) (hout : out.Whole) :
    (copyEntries embed dt out).Whole ∧
      (copyEntries embed dt out).active = { tableLog := dt.tableLog, entries := dt.active.entries.map embed } := by
  have hsize := activeSize_le hdt.fits
  have hlen : ((dt.entries.take (activeSize dt.tableLog)).map embed).length = activeSize dt.tableLog := by
    rw [List.length_map, List.length_take, hdt.length]
    omega
  have hcopy : copyEntries embed dt out =
      { tableLog := dt.tableLog
        entries := (dt.entries.take (activeSize dt.tableLog)).map embed ++
          out.entries.drop (activeSize dt.tableLog) } :=
    rfl
  rw [hcopy]
  refine ⟨⟨?_, hdt.fits⟩, ?_⟩
  · rw [List.length_append, hlen, List.length_drop, hout.length]
    omega
  · unfold SequenceDTable.active DTable.active
    simp only
    rw [List.take_left' hlen]

section
variable {normalizedCounter : List Int} {maxSymbolValue tableLog : Nat}
  (hn : Normalized normalizedCounter maxSymbolValue tableLog) (hlog : minTablelog ≤ tableLog)
  (hle : tableLog ≤ tablelogMax) (hmax : maxSymbolValue ≤ symbolvalueMax)

include hn hlog hle hmax in
/-- Of a table built in place, what is active is the table built afresh. -/
theorem buildDtableInto_active {dt : DTable} (hdt : dt.Whole) :
    Alike (fun whole fresh => whole.Whole ∧ whole.active = fresh)
      (buildDtableInto dt normalizedCounter maxSymbolValue tableLog)
      (buildDtable normalizedCounter maxSymbolValue tableLog) := by
  unfold minTablelog at hlog
  have hroom : 2 ^ tableLog ≤ tablesizeMax := Nat.pow_le_pow_right (by norm_num) hle
  have hlen := hdt.length
  obtain ⟨slots, ct, entries, -, hentries, h⟩ := buildTables_laidOut hn (by omega) hle hmax
  have hbuild := buildDtableInto_eq hn (by omega) hmax (show 2 ^ tableLog ≤ dt.entries.length by omega)
  rw [hbuild]
  unfold buildDtable
  rw [hentries]
  refine .ok ⟨⟨?_, hle⟩, ?_⟩
  · simp only [List.length_append, List.length_drop, h.length.2]
    omega
  · unfold DTable.active
    simp only
    rw [activeSize_eq (by omega), List.take_left' h.length.2]

include hn hlog hle hmax in
theorem buildDirectInto_active (embed : DecodeEntry → SequenceDecodeEntry) {out : SequenceDTable} (hout : out.Whole) :
    Alike (fun whole fresh => whole.Whole ∧ whole.active = fresh)
      (buildDirectInto embed out normalizedCounter maxSymbolValue tableLog)
      ((buildEntries normalizedCounter maxSymbolValue tableLog).bind fun entries =>
        .ok { tableLog, entries := entries.map embed }) := by
  unfold minTablelog at hlog
  have hroom : 2 ^ tableLog ≤ tablesizeMax := Nat.pow_le_pow_right (by norm_num) hle
  have hlen := hout.length
  obtain ⟨slots, ct, entries, -, hentries, h⟩ := buildTables_laidOut hn (by omega) hle hmax
  rw [buildDirectInto_eq hn (by omega) hmax hle embed (by omega), hentries]
  have hmap : (entries.map embed).length = 2 ^ tableLog := by rw [List.length_map, h.length.2]
  refine .ok ⟨⟨?_, hle⟩, ?_⟩
  · simp only [List.length_append, List.length_drop, hmap]
    omega
  · unfold SequenceDTable.active
    simp only
    rw [activeSize_eq (by omega), List.take_left' hmap]

end

end Fse

/-! ## The shared slots -/

/-- `build_sequence_dtable_direct` or its offset twin into an array in use. -/
def SequencePart.buildSequenceDtableInto (part : SequencePart) (out : SequenceDTable) (normalizedCounter : List Int)
    (maxSymbolValue tableLog : Nat) : Result SequenceDTable :=
  match part with
  | .literalLength => buildSequenceDtableDirectInto out normalizedCounter maxSymbolValue tableLog
      literalLengthBaselines literalLengthExtraBits
  | .offset => buildOffsetSequenceDtableDirectInto out normalizedCounter maxSymbolValue tableLog
  | .matchLength => buildSequenceDtableDirectInto out normalizedCounter maxSymbolValue tableLog
      matchLengthBaselines matchLengthExtraBits

/-- `build_sequence_dtable_from` or its offset twin into an array in use. -/
def SequencePart.sequenceDtableFromInto (part : SequencePart) (dt : DTable) (out : SequenceDTable) : SequenceDTable :=
  match part with
  | .literalLength => buildSequenceDtableFromInto dt literalLengthBaselines literalLengthExtraBits out
  | .offset => buildOffsetSequenceDtableFromInto dt out
  | .matchLength => buildSequenceDtableFromInto dt matchLengthBaselines matchLengthExtraBits out

/-- `build_rle_sequence_dtable` or its offset twin: the first entry of an array in use. -/
def SequencePart.buildRleInto (part : SequencePart) (out : SequenceDTable) (symbol : Nat) : SequenceDTable :=
  { tableLog := 0, entries := out.entries.set 0 (part.entry { newState := 0, symbol, nbBits := 0 }) }

/-- `predefined_sequence_dtable`. -/
def SequencePart.predefinedSequenceDtable (part : SequencePart) : Result DTable :=
  let (distribution, tableLog) := part.defaultDistribution
  buildDtableInto .fresh distribution (distribution.length - 1) tableLog

/-- `predefined_seq_dtable`. -/
def SequencePart.predefinedSeqDtable (part : SequencePart) : Result SequenceDTable :=
  let (distribution, tableLog) := part.defaultDistribution
  part.buildSequenceDtableInto .fresh distribution (distribution.length - 1) tableLog

/-- One alphabet's share of `SequenceTablesState`, its arrays whole. -/
structure SharedSlot where
  dtable : Option DTable := none
  seq : SequenceDTable := .fresh
  dirty : Bool := true
  has : Bool := false

/-- The three shared slots. -/
structure SharedTables where
  literalLengths : SharedSlot := {}
  offsets : SharedSlot := {}
  matchLengths : SharedSlot := {}

/-- The plain table `target` asks for, built into the slot's own or a fresh one. -/
def TableTarget.slotInto (target : TableTarget) (dtSlot : Option DTable) (build : DTable → Result DTable) :
    Result (Option DTable) :=
  match target with
  | .sequenceOnly => .ok none
  | .both => some <$> build (dtSlot.getD .fresh)

/-- `decode_seq_table_both`, with the dirty flag its caller clears, over the slot that is there. -/
def decodeSeqTableBothInto (part : SequencePart) (mode : CompressionMode) (target : TableTarget) (src : Bytes)
    (slot : SharedSlot) : Result (SharedSlot × Nat) :=
  match mode with
  | .predefined => do
    let dtable ← target.slotInto slot.dtable fun dt => do .ok (dt.copyActiveFrom (← part.predefinedSequenceDtable))
    let seq := slot.seq.copyActiveFrom (← part.predefinedSeqDtable)
    .ok ({ dtable, seq, dirty := false, has := true }, 0)
  | .rle => do
    let symbol := (← getByte src 0).toNat
    if symbol > part.maxSymbolValue then
      .error (.corruption "sequence RLE symbol exceeds the supported code range") else
    let dtable ← target.slotInto slot.dtable fun dt => .ok (buildRleDtableInto dt symbol)
    .ok ({ dtable, seq := part.buildRleInto slot.seq symbol, dirty := false, has := true }, 1)
  | .fseCompressed => do
    let n ← readNcount src (symbolvalueMax + 1) part.maxSymbolValue part.maxAccuracyLog
    let dtable ← target.slotInto slot.dtable fun dt =>
      buildDtableInto dt n.normalizedCounter n.maxSymbolValue n.tableLog
    let seq ← part.buildSequenceDtableInto slot.seq n.normalizedCounter n.maxSymbolValue n.tableLog
    .ok ({ dtable, seq, dirty := false, has := true }, n.size)
  | .repeat =>
    if slot.has then .ok (slot, 0)
    else .error (.corruption "sequence repeat mode requires a previous FSE table")

/-- `parse_sequence_section`. -/
def parseSequenceSectionInto (src : Bytes) (tables : SharedTables) (target : TableTarget) :
    Result (ParsedSequenceSection × SharedTables) := do
  let (numberOfSequences, countSize) ← parseSequenceCount src
  if numberOfSequences = 0 then
    .ok ({ numberOfSequences, headerSize := countSize, bitstream := [] }, tables)
  else do
    let modesByte := (← getByte src countSize).toNat
    if modesByte % 4 ≠ 0 then
      .error (.corruption "sequence compression modes reserved bits are set") else
    let cursor := countSize + 1
    let (literalLengths, n) ← decodeSeqTableBothInto .literalLength (.fromBits (modesByte / 64)) target
      (src.drop cursor) tables.literalLengths
    let cursor := cursor + n
    let (offsets, n) ← decodeSeqTableBothInto .offset (.fromBits (modesByte / 16 % 4)) target
      (src.drop cursor) tables.offsets
    let cursor := cursor + n
    let (matchLengths, n) ← decodeSeqTableBothInto .matchLength (.fromBits (modesByte / 4 % 4)) target
      (src.drop cursor) tables.matchLengths
    let cursor := cursor + n
    let bitstream ← getFrom src cursor
    if bitstream.isEmpty then .error .unexpectedEof else
    .ok ({ numberOfSequences, headerSize := cursor, bitstream }, { literalLengths, offsets, matchLengths })

/-- `decode_setup` for one alphabet. -/
def setupSlotInto (part : SequencePart) (slot : SharedSlot) : Result SharedSlot :=
  if slot.dirty then
    match slot.dtable with
    | some dt => .ok { slot with seq := part.sequenceDtableFromInto dt slot.seq, dirty := false, has := true }
    | none => .error part.missingTable
  else if slot.has then .ok slot
  else .error part.missingTable

/-- The table part of `decode_setup`. -/
def setupTablesInto (tables : SharedTables) : Result SharedTables := do
  let literalLengths ← setupSlotInto .literalLength tables.literalLengths
  let offsets ← setupSlotInto .offset tables.offsets
  let matchLengths ← setupSlotInto .matchLength tables.matchLengths
  .ok { literalLengths, offsets, matchLengths }

/-! ## What a slot shows -/

/-- What is active of the arrays is the decoder's slot. The table to read is shown once it need not be rebuilt. -/
structure SharedSlot.Shows (shared : SharedSlot) (slot : SequenceTableSlot) : Prop where
  dtable : shared.dtable.map DTable.active = slot.dtable
  seq : slot.dirty = false → shared.seq.active = slot.seq
  dirty : shared.dirty = slot.dirty
  has : shared.has = slot.has
  plainWhole : ∀ dt ∈ shared.dtable, dt.Whole
  whole : shared.seq.Whole

/-- Slot by slot, the shared tables show those of the state. -/
structure SharedTables.Shows (shared : SharedTables) (tables : SequenceTablesState) : Prop where
  literalLengths : shared.literalLengths.Shows tables.literalLengths
  offsets : shared.offsets.Shows tables.offsets
  matchLengths : shared.matchLengths.Shows tables.matchLengths

theorem SharedSlot.shows_default : ({} : SharedSlot).Shows {} :=
  ⟨rfl, fun h => (nomatch h), rfl, rfl, fun _ h => (nomatch h), SequenceDTable.fresh_whole⟩

theorem SequencePart.buildSequenceDtableInto_eq (part : SequencePart) (out : SequenceDTable) (counts : List Int)
    (maxSymbolValue tableLog : Nat) : part.buildSequenceDtableInto out counts maxSymbolValue tableLog =
      buildDirectInto part.entry out counts maxSymbolValue tableLog := by
  cases part <;> rfl

theorem SequencePart.buildSequenceDtable_eq (part : SequencePart) (counts : List Int) (maxSymbolValue tableLog : Nat) :
    part.buildSequenceDtable counts maxSymbolValue tableLog =
      (buildEntries counts maxSymbolValue tableLog).bind fun entries =>
        .ok { tableLog, entries := entries.map part.entry } := by
  cases part <;> rfl

theorem SequencePart.sequenceDtableFromInto_eq (part : SequencePart) (dt : DTable) (out : SequenceDTable) :
    part.sequenceDtableFromInto dt out = copyEntries part.entry dt out := by
  cases part <;> rfl

theorem SequencePart.sequenceDtableFrom_eq (part : SequencePart) (dt : DTable) :
    part.sequenceDtableFrom dt = { tableLog := dt.tableLog, entries := dt.entries.map part.entry } := by
  cases part <;> rfl

theorem SequencePart.buildRleInto_active (part : SequencePart) {out : SequenceDTable} (hout : out.Whole)
    (symbol : Nat) : (part.buildRleInto out symbol).Whole ∧
      (part.buildRleInto out symbol).active = part.sequenceDtableFrom (buildRleDtable symbol) := by
  have hlen := hout.length
  refine ⟨⟨by unfold buildRleInto; rw [List.length_set, hlen], Nat.zero_le _⟩, ?_⟩
  rw [part.sequenceDtableFrom_eq]
  unfold buildRleInto SequenceDTable.active buildRleDtable activeSize
  cases hentries : out.entries with
  | nil =>
    rw [hentries] at hlen
    cases hlen
  | cons e rest => rfl

/-- The default distributions fill their tables. -/
theorem SequencePart.defaultDistribution_normalized (part : SequencePart) :
    Normalized part.defaultDistribution.1 (part.defaultDistribution.1.length - 1) part.defaultDistribution.2 ∧
      minTablelog ≤ part.defaultDistribution.2 ∧ part.defaultDistribution.2 ≤ tablelogMax ∧
      part.defaultDistribution.1.length - 1 ≤ symbolvalueMax := by
  cases part <;> exact ⟨⟨by decide, by decide, by decide⟩, by decide, by decide, by decide⟩

/-- A plain table over the slot's own shows the one built afresh. -/
theorem TableTarget.slotInto_shows {target : TableTarget} {dtSlot : Option DTable} {build : DTable → Result DTable}
    {fresh : Result DTable} (hslot : ∀ dt ∈ dtSlot, dt.Whole)
    (h : ∀ dt : DTable, dt.Whole → Alike (fun whole fresh => whole.Whole ∧ whole.active = fresh) (build dt) fresh) :
    Alike (fun whole fresh => whole.map DTable.active = fresh ∧ ∀ dt ∈ whole, dt.Whole)
      (target.slotInto dtSlot build) (target.slot fresh) := by
  cases target with
  | sequenceOnly => exact .ok ⟨rfl, fun _ h => (nomatch h)⟩
  | both =>
    have hold : (dtSlot.getD .fresh).Whole := by
      cases dtSlot with
      | none => exact DTable.fresh_whole
      | some dt => exact hslot dt rfl
    unfold slotInto slot
    simp only
    have hbuild := h _ hold
    generalize build (dtSlot.getD .fresh) = whole at hbuild ⊢
    cases hbuild with
    | ok hmade =>
      refine .ok ⟨congrArg some hmade.2, fun dt hdt => ?_⟩
      cases hdt
      exact hmade.1
    | error e => exact .error e

section
variable {part : SequencePart} {target : TableTarget} {shared : SharedSlot} {slot : SequenceTableSlot}

/-- What a block's two tables leave in the slot. -/
theorem SharedSlot.Shows.made {dtable whole : Option DTable} {seq seqWhole : SequenceDTable}
    (hd : whole.map DTable.active = dtable ∧ ∀ dt ∈ whole, dt.Whole) (hs : seqWhole.Whole ∧ seqWhole.active = seq) :
    SharedSlot.Shows { dtable := whole, seq := seqWhole, dirty := false, has := true }
      { dtable, seq, dirty := false, has := true } :=
  ⟨hd.1, fun _ => hs.2, rfl, rfl, hd.2, hs.1⟩

/-- The predefined tables are built once, and copied into the slot. -/
theorem SequencePart.predefined_shows (part : SequencePart) :
    (∀ dt : DTable, dt.Whole → Alike (fun whole fresh => whole.Whole ∧ whole.active = fresh)
      (do .ok (dt.copyActiveFrom (← part.predefinedSequenceDtable)) : Result DTable)
      (buildDtable part.defaultDistribution.1 (part.defaultDistribution.1.length - 1) part.defaultDistribution.2)) ∧
    ∀ out : SequenceDTable, out.Whole → Alike (fun whole fresh => whole.Whole ∧ whole.active = fresh)
      (do .ok (out.copyActiveFrom (← part.predefinedSeqDtable)) : Result SequenceDTable)
      (part.buildSequenceDtable part.defaultDistribution.1 (part.defaultDistribution.1.length - 1)
        part.defaultDistribution.2) := by
  obtain ⟨hn, hlog, hle, hmax⟩ := part.defaultDistribution_normalized
  constructor
  · intro dt hdt
    unfold predefinedSequenceDtable
    have hbuild := buildDtableInto_active hn hlog hle hmax DTable.fresh_whole
    simp only
    generalize buildDtableInto .fresh part.defaultDistribution.1 _ _ = whole at hbuild ⊢
    generalize buildDtable part.defaultDistribution.1 _ _ = fresh at hbuild ⊢
    cases hbuild with
    | ok h =>
      obtain ⟨h1, h2⟩ := DTable.copyActiveFrom_active hdt h.1
      exact .ok ⟨h1, h2.trans h.2⟩
    | error e => exact .error e
  · intro out hout
    unfold predefinedSeqDtable
    have hbuild := buildDirectInto_active hn hlog hle hmax part.entry SequenceDTable.fresh_whole
    rw [part.buildSequenceDtable_eq]
    simp only [part.buildSequenceDtableInto_eq]
    generalize buildDirectInto part.entry .fresh part.defaultDistribution.1 _ _ = whole at hbuild ⊢
    generalize Except.bind (buildEntries part.defaultDistribution.1 _ _) _ = fresh at hbuild ⊢
    cases hbuild with
    | ok h =>
      obtain ⟨h1, h2⟩ := SequenceDTable.copyActiveFrom_active hout h.1
      exact .ok ⟨h1, h2.trans h.2⟩
    | error e => exact .error e

/-- One alphabet's table header, over a shared slot and over the decoder's. -/
theorem decodeSeqTableBothInto_shows (h : shared.Shows slot) (mode : CompressionMode) (src : Bytes) :
    Alike (fun a b => a.1.Shows b.1 ∧ a.2 = b.2) (decodeSeqTableBothInto part mode target src shared)
      (decodeSeqTableBoth part mode target src slot) := by
  cases mode with
  | predefined =>
    obtain ⟨hplain, hseq⟩ := part.predefined_shows
    refine Alike.bind (TableTarget.slotInto_shows h.plainWhole hplain) fun whole dtable _ _ hd => ?_
    have hs := hseq _ h.whole
    show Alike _ (part.predefinedSeqDtable >>= _)
      (part.buildSequenceDtable part.defaultDistribution.1 (part.defaultDistribution.1.length - 1)
        part.defaultDistribution.2 >>= _)
    generalize part.buildSequenceDtable part.defaultDistribution.1 _ _ = fresh at hs ⊢
    cases hpre : part.predefinedSeqDtable with
    | ok t =>
      rw [hpre] at hs
      cases hs with
      | ok hs => exact .ok ⟨.made hd hs, rfl⟩
    | error e =>
      rw [hpre] at hs
      cases hs with
      | error => exact .error e
  | rle =>
    refine Alike.bind_same fun b _ => ?_
    by_cases hsym : b.toNat > part.maxSymbolValue
    · simp only [if_pos hsym]
      exact .error _
    · simp only [if_neg hsym]
      refine Alike.bind (TableTarget.slotInto_shows h.plainWhole fun dt hdt => .ok (buildRleDtableInto_active hdt _))
        fun whole dtable _ _ hd => .ok ⟨.made hd (part.buildRleInto_active h.whole _), rfl⟩
  | fseCompressed =>
    refine Alike.bind_same fun n hread => ?_
    obtain ⟨hn, hlog, hle, -, -⟩ := readNcount_normalized hread
    have hmax := readNcount_maxSymbolValue hread
    have hbounds : part.maxAccuracyLog ≤ tablelogMax ∧ part.maxSymbolValue ≤ symbolvalueMax := by
      cases part <;> decide
    refine Alike.bind (TableTarget.slotInto_shows h.plainWhole fun dt hdt =>
      buildDtableInto_active hn hlog (by omega) (by omega) hdt) fun whole dtable _ _ hd => ?_
    rw [part.buildSequenceDtable_eq, part.buildSequenceDtableInto_eq]
    exact Alike.bind (buildDirectInto_active hn hlog (by omega) (by omega) part.entry h.whole)
      fun seqWhole seq _ _ hs => .ok ⟨.made hd hs, rfl⟩
  | «repeat» =>
    unfold decodeSeqTableBothInto decodeSeqTableBoth
    simp only [h.has]
    by_cases hhas : slot.has = true
    · rw [if_pos hhas, if_pos hhas]
      exact .ok ⟨h, rfl⟩
    · rw [if_neg hhas, if_neg hhas]
      exact .error _

theorem setupSlotInto_shows (h : shared.Shows slot) :
    Alike SharedSlot.Shows (setupSlotInto part shared) (setupSlot part slot) := by
  have hplain := h.dtable
  unfold setupSlotInto setupSlot
  simp only [h.dirty, h.has]
  by_cases hdirty : slot.dirty = true
  · rw [if_pos hdirty, if_pos hdirty]
    cases hdt : shared.dtable with
    | none =>
      rw [hdt, Option.map_none] at hplain
      rw [← hplain]
      exact .error _
    | some dt =>
      rw [hdt, Option.map_some] at hplain
      have hcopy := copyEntries_active part.entry (h.plainWhole dt hdt) h.whole
      rw [← hplain]
      simp only [part.sequenceDtableFromInto_eq, part.sequenceDtableFrom_eq]
      refine .ok ⟨rfl, fun _ => hcopy.2, rfl, rfl, fun dt' hdt' => ?_, hcopy.1⟩
      cases hdt'
      exact h.plainWhole dt hdt
  · rw [if_neg hdirty, if_neg hdirty]
    by_cases hhas : slot.has = true
    · rw [if_pos hhas, if_pos hhas]
      exact .ok h
    · rw [if_neg hhas, if_neg hhas]
      exact .error _

end

section
variable {shared : SharedTables} {tables : SequenceTablesState}

theorem parseSequenceSectionInto_shows (h : shared.Shows tables) (src : Bytes) (target : TableTarget) :
    Alike (fun a b => a.1 = b.1 ∧ a.2.Shows b.2) (parseSequenceSectionInto src shared target)
      (parseSequenceSection src tables target) := by
  refine Alike.bind_same fun count _ => ?_
  obtain ⟨numberOfSequences, countSize⟩ := count
  simp only
  by_cases hnone : numberOfSequences = 0
  · rw [if_pos hnone, if_pos hnone]
    exact .ok ⟨rfl, h⟩
  rw [if_neg hnone, if_neg hnone]
  refine Alike.bind_same fun modes _ => ?_
  by_cases hreserved : modes.toNat % 4 ≠ 0
  · rw [if_pos hreserved, if_pos hreserved]
    exact .error _
  rw [if_neg hreserved, if_neg hreserved]
  refine Alike.bind (decodeSeqTableBothInto_shows h.literalLengths _ _) ?_
  rintro ⟨ll, n⟩ ⟨ll', n'⟩ - - ⟨hll, rfl⟩
  refine Alike.bind (decodeSeqTableBothInto_shows h.offsets _ _) ?_
  rintro ⟨of, n⟩ ⟨of', n'⟩ - - ⟨hof, rfl⟩
  refine Alike.bind (decodeSeqTableBothInto_shows h.matchLengths _ _) ?_
  rintro ⟨ml, n⟩ ⟨ml', n'⟩ - - ⟨hml, rfl⟩
  refine Alike.bind_same fun bitstream _ => ?_
  by_cases hempty : bitstream.isEmpty = true
  · simp only [if_pos hempty]
    exact .error _
  · simp only [if_neg hempty]
    exact .ok ⟨rfl, hll, hof, hml⟩

theorem setupTablesInto_shows (h : shared.Shows tables) :
    Alike SharedTables.Shows (setupTablesInto shared) (setupTables tables) :=
  Alike.bind (setupSlotInto_shows h.literalLengths) fun _ _ _ _ h1 =>
    Alike.bind (setupSlotInto_shows h.offsets) fun _ _ _ _ h2 =>
      Alike.bind (setupSlotInto_shows h.matchLengths) fun _ _ _ _ h3 => .ok ⟨h1, h2, h3⟩

end

/-! ## The tables of the format -/

/-- The tables that the format lets the next block repeat. -/
structure PreviousTables where
  literalLengths : Option SequenceDTable := none
  offsets : Option SequenceDTable := none
  matchLengths : Option SequenceDTable := none

/-- The table that a block's mode denotes, with the bytes that describe it. -/
def describedTable (part : SequencePart) (mode : CompressionMode) (src : Bytes) (previous : Option SequenceDTable) :
    Result (SequenceDTable × Nat) :=
  match mode with
  | .predefined => do
    let table ← part.buildSequenceDtable part.defaultDistribution.1 (part.defaultDistribution.1.length - 1)
      part.defaultDistribution.2
    .ok (table, 0)
  | .rle => do
    let symbol := (← getByte src 0).toNat
    if symbol > part.maxSymbolValue then
      .error (.corruption "sequence RLE symbol exceeds the supported code range")
    else .ok (part.sequenceDtableFrom (buildRleDtable symbol), 1)
  | .fseCompressed => do
    let n ← readNcount src (symbolvalueMax + 1) part.maxSymbolValue part.maxAccuracyLog
    let table ← part.buildSequenceDtable n.normalizedCounter n.maxSymbolValue n.tableLog
    .ok (table, n.size)
  | .repeat =>
    match previous with
    | some table => .ok (table, 0)
    | none => .error (.corruption "sequence repeat mode requires a previous FSE table")

/-- What a section describes: its tables are the ones that the next section may repeat. A section without
sequences describes none. -/
def describedSection (src : Bytes) (previous : PreviousTables) : Result (ParsedSequenceSection × PreviousTables) := do
  let (numberOfSequences, countSize) ← parseSequenceCount src
  if numberOfSequences = 0 then
    .ok ({ numberOfSequences, headerSize := countSize, bitstream := [] }, previous)
  else do
    let modesByte := (← getByte src countSize).toNat
    if modesByte % 4 ≠ 0 then
      .error (.corruption "sequence compression modes reserved bits are set") else
    let cursor := countSize + 1
    let (literalLengths, n) ← describedTable .literalLength (.fromBits (modesByte / 64)) (src.drop cursor)
      previous.literalLengths
    let cursor := cursor + n
    let (offsets, n) ← describedTable .offset (.fromBits (modesByte / 16 % 4)) (src.drop cursor) previous.offsets
    let cursor := cursor + n
    let (matchLengths, n) ← describedTable .matchLength (.fromBits (modesByte / 4 % 4)) (src.drop cursor)
      previous.matchLengths
    let cursor := cursor + n
    let bitstream ← getFrom src cursor
    if bitstream.isEmpty then .error .unexpectedEof else
    .ok ({ numberOfSequences, headerSize := cursor, bitstream },
      { literalLengths := some literalLengths, offsets := some offsets, matchLengths := some matchLengths })

/-- The tables after the sections of a frame's blocks, in order. -/
def describedRun (start : PreviousTables) (sections : List Bytes) : Result PreviousTables :=
  sections.foldlM (fun previous src => (·.2) <$> describedSection src previous) start

/-- The tables that a dictionary gives the first block. -/
def PreviousTables.ofDictionary (dictionary : Option DecoderDictionary) : PreviousTables :=
  match dictionary with
  | none => {}
  | some d => {
      literalLengths := d.sequenceTables.literalLengths.dtable.map SequencePart.literalLength.sequenceDtableFrom
      offsets := d.sequenceTables.offsets.dtable.map SequencePart.offset.sequenceDtableFrom
      matchLengths := d.sequenceTables.matchLengths.dtable.map SequencePart.matchLength.sequenceDtableFrom }

/-- The flag of a slot says whether there is a previous table, and the slot holds that table: ready, or plain
and to be rebuilt from. -/
structure SequenceTableSlot.Denotes (part : SequencePart) (slot : SequenceTableSlot)
    (previous : Option SequenceDTable) : Prop where
  has : slot.has = previous.isSome
  plain : slot.dirty = true → slot.dtable.map part.sequenceDtableFrom = previous
  ready : slot.dirty = false → previous = some slot.seq

/-- Slot by slot, the state is what the format calls the previous tables. -/
structure SequenceTablesState.Denotes (tables : SequenceTablesState) (previous : PreviousTables) : Prop where
  literalLengths : tables.literalLengths.Denotes .literalLength previous.literalLengths
  offsets : tables.offsets.Denotes .offset previous.offsets
  matchLengths : tables.matchLengths.Denotes .matchLength previous.matchLengths

section
variable {part : SequencePart} {target : TableTarget} {slot : SequenceTableSlot} {previous : Option SequenceDTable}

theorem SequenceTableSlot.Denotes.made (dtable : Option DTable) (seq : SequenceDTable) :
    SequenceTableSlot.Denotes part { dtable, seq, dirty := false, has := true } (some seq) :=
  ⟨rfl, fun hd => (nomatch hd), fun _ => rfl⟩

/-- The two tables of a distribution are built or refused together. -/
theorem TableTarget.slot_buildDtable (target : TableTarget) {counts : List Int} {maxSymbolValue tableLog : Nat}
    {f : Option DTable → SequenceDTable → Result (SequenceTableSlot × Nat)}
    {g : SequenceDTable → Result (SequenceDTable × Nat)}
    (h : ∀ dtable seq, Alike (fun a b => a.1.Denotes part (some b.1) ∧ a.2 = b.2) (f dtable seq) (g seq)) :
    Alike (fun a b => a.1.Denotes part (some b.1) ∧ a.2 = b.2)
      (do
        let dtable ← target.slot (buildDtable counts maxSymbolValue tableLog)
        let seq ← part.buildSequenceDtable counts maxSymbolValue tableLog
        f dtable seq)
      (part.buildSequenceDtable counts maxSymbolValue tableLog >>= g) := by
  rw [part.buildSequenceDtable_eq]
  unfold buildDtable
  cases buildEntries counts maxSymbolValue tableLog with
  | error e => cases target <;> exact .error e
  | ok entries => cases target <;> exact h _ _

theorem decodeSeqTableBoth_denotes (h : slot.Denotes part previous) (mode : CompressionMode) (src : Bytes) :
    Alike (fun a b => a.1.Denotes part (some b.1) ∧ a.2 = b.2) (decodeSeqTableBoth part mode target src slot)
      (describedTable part mode src previous) := by
  cases mode with
  | predefined => exact target.slot_buildDtable fun dtable seq => .ok ⟨.made dtable seq, rfl⟩
  | rle =>
    refine Alike.bind_same fun b _ => ?_
    by_cases hsym : b.toNat > part.maxSymbolValue
    · simp only [if_pos hsym]
      exact .error _
    · simp only [if_neg hsym]
      cases target <;> exact .ok ⟨.made _ _, rfl⟩
  | fseCompressed =>
    exact Alike.bind_same fun n _ => target.slot_buildDtable fun dtable seq => .ok ⟨.made dtable seq, rfl⟩
  | «repeat» =>
    unfold decodeSeqTableBoth describedTable
    simp only [h.has]
    cases previous with
    | none => exact .error _
    | some table => exact .ok ⟨h, rfl⟩

/-- Setting up a slot makes its table ready, and fails where there is none. -/
theorem setupSlot_denotes (h : slot.Denotes part previous) :
    (previous = none ∧ ∃ e, setupSlot part slot = .error e) ∨ ∃ t slot', previous = some t ∧
      setupSlot part slot = .ok slot' ∧ slot'.Denotes part previous ∧ slot'.dirty = false ∧ slot'.seq = t := by
  unfold setupSlot
  by_cases hdirty : slot.dirty = true
  · rw [if_pos hdirty]
    have hplain := h.plain hdirty
    cases hdt : slot.dtable with
    | none =>
      rw [hdt] at hplain
      exact .inl ⟨hplain.symm, _, rfl⟩
    | some dt =>
      rw [hdt] at hplain
      subst hplain
      exact .inr ⟨_, _, rfl, rfl, .made _ _, rfl, rfl⟩
  · have hready := h.ready (by simpa using hdirty)
    have hhas := h.has
    rw [if_neg hdirty]
    subst hready
    rw [if_pos (show slot.has = true from hhas)]
    exact .inr ⟨_, _, rfl, rfl, h, by simpa using hdirty, rfl⟩

theorem SequenceTableSlot.Denotes.setup {slot' : SequenceTableSlot} (h : slot.Denotes part previous)
    (hs : setupSlot part slot = .ok slot') : slot'.Denotes part previous := by
  rcases setupSlot_denotes h with ⟨-, e, he⟩ | ⟨t, ready, -, hready, hd, -⟩
  · rw [hs] at he
    cases he
  · rw [hs] at hready
    cases hready
    exact hd

end

section
variable {tables : SequenceTablesState} {previous : PreviousTables}

/-- A section over the decoder's tables, and as the format reads it. -/
theorem parseSequenceSection_denotes (h : tables.Denotes previous) (src : Bytes) (target : TableTarget) :
    Alike (fun a b => a.1 = b.1 ∧ a.2.Denotes b.2) (parseSequenceSection src tables target)
      (describedSection src previous) := by
  refine Alike.bind_same fun count _ => ?_
  obtain ⟨numberOfSequences, countSize⟩ := count
  simp only
  by_cases hnone : numberOfSequences = 0
  · rw [if_pos hnone, if_pos hnone]
    exact .ok ⟨rfl, h⟩
  rw [if_neg hnone, if_neg hnone]
  refine Alike.bind_same fun modes _ => ?_
  by_cases hreserved : modes.toNat % 4 ≠ 0
  · rw [if_pos hreserved, if_pos hreserved]
    exact .error _
  rw [if_neg hreserved, if_neg hreserved]
  refine Alike.bind (decodeSeqTableBoth_denotes h.literalLengths _ _) ?_
  rintro ⟨ll, n⟩ ⟨ll', n'⟩ - - ⟨hll, rfl⟩
  refine Alike.bind (decodeSeqTableBoth_denotes h.offsets _ _) ?_
  rintro ⟨of, n⟩ ⟨of', n'⟩ - - ⟨hof, rfl⟩
  refine Alike.bind (decodeSeqTableBoth_denotes h.matchLengths _ _) ?_
  rintro ⟨ml, n⟩ ⟨ml', n'⟩ - - ⟨hml, rfl⟩
  refine Alike.bind_same fun bitstream _ => ?_
  by_cases hempty : bitstream.isEmpty = true
  · simp only [if_pos hempty]
    exact .error _
  · simp only [if_neg hempty]
    exact .ok ⟨rfl, hll, hof, hml⟩

/-- A section with sequences describes a table for each alphabet. -/
theorem describedSection_some {src : Bytes} {s : ParsedSequenceSection} {next : PreviousTables}
    (h : describedSection src previous = .ok (s, next)) (hs : s.numberOfSequences ≠ 0) :
    ∃ ll of ml, next = { literalLengths := some ll, offsets := some of, matchLengths := some ml } := by
  unfold describedSection at h
  obtain ⟨⟨numberOfSequences, countSize⟩, -, h⟩ := bind_ok h
  simp only at h
  split at h
  · rename_i h0
    cases h
    exact absurd h0 hs
  obtain ⟨modes, -, h⟩ := bind_ok h
  split at h
  · cases h
  obtain ⟨⟨ll, n1⟩, -, h⟩ := bind_ok h
  obtain ⟨⟨of, n2⟩, -, h⟩ := bind_ok h
  obtain ⟨⟨ml, n3⟩, -, h⟩ := bind_ok h
  obtain ⟨bitstream, -, h⟩ := bind_ok h
  split at h
  · cases h
  · cases h
    exact ⟨ll, of, ml, rfl⟩

/-- Setting up tables of which each alphabet has one. -/
theorem setupTables_denotes {ll of ml : SequenceDTable}
    (h : tables.Denotes { literalLengths := some ll, offsets := some of, matchLengths := some ml }) :
    ∃ ready, setupTables tables = .ok ready ∧
      ready.Denotes { literalLengths := some ll, offsets := some of, matchLengths := some ml } ∧
      (ready.literalLengths.dirty = false ∧ ready.literalLengths.seq = ll) ∧
      (ready.offsets.dirty = false ∧ ready.offsets.seq = of) ∧
      (ready.matchLengths.dirty = false ∧ ready.matchLengths.seq = ml) := by
  have hready : ∀ {part : SequencePart} {slot : SequenceTableSlot} {t : SequenceDTable}, slot.Denotes part (some t) →
      ∃ slot', setupSlot part slot = .ok slot' ∧ slot'.Denotes part (some t) ∧ slot'.dirty = false ∧ slot'.seq = t := by
    intro part slot t h
    rcases setupSlot_denotes h with ⟨hnone, -⟩ | ⟨t', slot', ht, hrest⟩
    · cases hnone
    · cases ht
      exact ⟨slot', hrest⟩
  obtain ⟨s1, h1, d1, e1⟩ := hready h.literalLengths
  obtain ⟨s2, h2, d2, e2⟩ := hready h.offsets
  obtain ⟨s3, h3, d3, e3⟩ := hready h.matchLengths
  refine ⟨{ literalLengths := s1, offsets := s2, matchLengths := s3 }, ?_, ⟨d1, d2, d3⟩, e1, e2, e3⟩
  unfold setupTables
  rw [h1, h2, h3]
  rfl

end

/-! ## Where a frame starts -/

namespace Fse

/-- A table over a fresh array. -/
def DTable.padded (dt : DTable) : DTable :=
  { dt with entries := dt.entries ++ (List.replicate tablesizeMax default).drop dt.entries.length }

/-- A table whose counts were read for an alphabet, as a dictionary's are. -/
def DTable.Read (part : SequencePart) (dt : DTable) : Prop :=
  ∃ src n, readNcount src (symbolvalueMax + 1) part.maxSymbolValue part.maxAccuracyLog = .ok n ∧
    buildDtable n.normalizedCounter n.maxSymbolValue n.tableLog = .ok dt

theorem DTable.Read.padded_active {part : SequencePart} {dt : DTable} (h : dt.Read part) :
    dt.padded.Whole ∧ dt.padded.active = dt := by
  obtain ⟨src, n, hread, hbuild⟩ := h
  obtain ⟨hn, hlog, hle, -, -⟩ := readNcount_normalized hread
  have hmax := readNcount_maxSymbolValue hread
  have hbounds : part.maxAccuracyLog ≤ tablelogMax ∧ part.maxSymbolValue ≤ symbolvalueMax := by
    cases part <;> decide
  have hinto := buildDtableInto_active hn hlog (show n.tableLog ≤ tablelogMax by omega)
    (show n.maxSymbolValue ≤ symbolvalueMax by omega) DTable.fresh_whole
  have hroom : 2 ^ n.tableLog ≤ tablesizeMax := Nat.pow_le_pow_right (by norm_num) (by omega)
  unfold minTablelog at hlog
  have hpad := buildDtableInto_eq hn (by omega) (show n.maxSymbolValue ≤ symbolvalueMax by omega)
    (show 2 ^ n.tableLog ≤ DTable.fresh.entries.length by rw [DTable.fresh_whole.length]; exact hroom)
  have hlen : dt.entries.length = 2 ^ n.tableLog := by
    obtain ⟨slots, ct, entries, -, hentries, hl⟩ := buildTables_laidOut hn (show 4 ≤ n.tableLog by omega) (by omega)
      (show n.maxSymbolValue ≤ symbolvalueMax by omega)
    unfold buildDtable at hbuild
    rw [hentries] at hbuild
    cases hbuild
    exact hl.length.2
  rw [hbuild] at hinto hpad
  rw [hpad] at hinto
  cases hinto with
  | ok hok =>
    unfold DTable.padded
    rw [hlen]
    exact hok

end Fse

/-- `with_tables` for one alphabet, over the whole array of a dictionary's table. -/
def SharedSlot.ofDtable (dtable : Option DTable) : SharedSlot :=
  { dtable := dtable.map DTable.padded, has := dtable.isSome }

/-- `Dictionary::sequence_tables`, or the default without a dictionary. -/
def SharedTables.initial (dictionary : Option DecoderDictionary) : SharedTables :=
  match dictionary with
  | none => {}
  | some d => {
      literalLengths := .ofDtable d.sequenceTables.literalLengths.dtable
      offsets := .ofDtable d.sequenceTables.offsets.dtable
      matchLengths := .ofDtable d.sequenceTables.matchLengths.dtable }

theorem SharedSlot.ofDtable_shows {part : SequencePart} {dtable : Option DTable} (h : ∀ dt ∈ dtable, dt.Read part) :
    (SharedSlot.ofDtable dtable).Shows (.ofDtable dtable) := by
  refine ⟨?_, fun hd => (nomatch hd), rfl, rfl, ?_, SequenceDTable.fresh_whole⟩
  · cases dtable with
    | none => rfl
    | some dt => exact congrArg some (h dt rfl).padded_active.2
  · intro whole hw
    obtain ⟨dt, hdt, rfl⟩ := Option.map_eq_some_iff.1 hw
    exact (h dt hdt).padded_active.1

theorem SequenceTableSlot.Denotes.ofDtable (part : SequencePart) (dtable : Option DTable) :
    (SequenceTableSlot.ofDtable dtable).Denotes part (dtable.map part.sequenceDtableFrom) :=
  ⟨by cases dtable <;> rfl, fun _ => rfl, fun hd => (nomatch hd)⟩

theorem ParsedCounts.dtable_read {part : SequencePart} {src : Bytes} {counts : ParsedCounts part}
    {dt : { dt : DTable // ∀ e ∈ dt.entries, e.symbol ≤ part.maxSymbolValue }}
    (hc : readSequenceCounts part src = .ok counts) (h : counts.dtable = .ok dt) : dt.1.Read part := by
  unfold readSequenceCounts at hc
  split at hc
  · rename_i n hn
    cases hc
    unfold ParsedCounts.dtable at h
    split at h
    · rename_i dt' hb
      cases h
      exact ⟨src, n, hn, hb⟩
    · cases h
  · cases hc

/-- A parsed dictionary has no sequence tables, or one for each alphabet, as they were read. -/
theorem DecoderDictionary.parse_slots {src : Bytes} {d : DecoderDictionary} (h : DecoderDictionary.parse src = .ok d) :
    ∃ ll of ml : Option DTable, d.sequenceTables = { literalLengths := .ofDtable ll, offsets := .ofDtable of
                                                     matchLengths := .ofDtable ml } ∧
      (∀ dt ∈ ll, dt.Read .literalLength) ∧ (∀ dt ∈ of, dt.Read .offset) ∧ ∀ dt ∈ ml, dt.Read .matchLength := by
  unfold DecoderDictionary.parse at h
  split at h
  · cases h
    exact ⟨none, none, none, rfl, fun _ h => (nomatch h), fun _ h => (nomatch h), fun _ h => (nomatch h)⟩
  unfold DecoderDictionary.parseFormatted at h
  obtain ⟨huffman, -, h⟩ := bind_ok h
  obtain ⟨ofCounts, h1, h⟩ := bind_ok h
  obtain ⟨mlCounts, h2, h⟩ := bind_ok h
  obtain ⟨llCounts, h3, h⟩ := bind_ok h
  simp only at h
  split at h
  · cases h
  obtain ⟨reps, -, h⟩ := bind_ok h
  obtain ⟨of, h4, h⟩ := bind_ok h
  obtain ⟨ml, h5, h⟩ := bind_ok h
  obtain ⟨ll, h6, h⟩ := bind_ok h
  cases h
  refine ⟨some ll.1, some of.1, some ml.1, rfl, fun dt hdt => ?_, fun dt hdt => ?_, fun dt hdt => ?_⟩
  · cases hdt
    exact ParsedCounts.dtable_read h3 h6
  · cases hdt
    exact ParsedCounts.dtable_read h1 h4
  · cases hdt
    exact ParsedCounts.dtable_read h2 h5

/-! ## Runs -/

/-- A dictionary is one that the decoder accepts. -/
def Accepted (dictionary : Option DecoderDictionary) : Prop :=
  ∀ d ∈ dictionary, ∃ src, DecoderDictionary.parse src = .ok d

/-- The slots after some of a frame's blocks, whose sequence sections are listed: each section is parsed, and
the tables are set up wherever the decoder comes to execute sequences. -/
inductive SharedTables.Reached (dictionary : Option DecoderDictionary) : List Bytes → SharedTables → Prop
  | start : Reached dictionary [] (.initial dictionary)
  | parsed {sections : List Bytes} {src : Bytes} {tables tables' : SharedTables} {target : TableTarget}
    {s : ParsedSequenceSection} : Reached dictionary sections tables →
      parseSequenceSectionInto src tables target = .ok (s, tables') → Reached dictionary (sections ++ [src]) tables'
  | setup {sections : List Bytes} {tables tables' : SharedTables} : Reached dictionary sections tables →
      setupTablesInto tables = .ok tables' → Reached dictionary sections tables'

theorem SharedTables.initial_shows {dictionary : Option DecoderDictionary} (hd : Accepted dictionary) :
    (SharedTables.initial dictionary).Shows (EntropyState.initial dictionary).sequences ∧
      (EntropyState.initial dictionary).sequences.Denotes (.ofDictionary dictionary) := by
  cases dictionary with
  | none =>
    have hnone : ∀ part, ({} : SequenceTableSlot).Denotes part none := fun part => .ofDtable part none
    exact ⟨⟨SharedSlot.shows_default, SharedSlot.shows_default, SharedSlot.shows_default⟩, hnone _, hnone _, hnone _⟩
  | some d =>
    obtain ⟨src, hsrc⟩ := hd d rfl
    obtain ⟨ll, of, ml, heq, h1, h2, h3⟩ := DecoderDictionary.parse_slots hsrc
    unfold initial EntropyState.initial PreviousTables.ofDictionary
    simp only [heq]
    exact ⟨⟨SharedSlot.ofDtable_shows h1, SharedSlot.ofDtable_shows h2, SharedSlot.ofDtable_shows h3⟩,
      .ofDtable _ ll, .ofDtable _ of, .ofDtable _ ml⟩

/-- At every point of a frame the slots show tables of the decoder, which are those of the format. -/
theorem SharedTables.Reached.shows {dictionary : Option DecoderDictionary} (hd : Accepted dictionary)
    {sections : List Bytes} {shared : SharedTables} (h : shared.Reached dictionary sections) :
    ∃ tables previous, shared.Shows tables ∧ tables.Reached dictionary ∧ tables.Denotes previous ∧
      describedRun (.ofDictionary dictionary) sections = .ok previous := by
  induction h with
  | start =>
    obtain ⟨h1, h2⟩ := SharedTables.initial_shows hd
    exact ⟨_, _, h1, .start, h2, rfl⟩
  | @parsed sections src tables tables' target s _ hparse ih =>
    obtain ⟨t, previous, hshows, hreached, hdenotes, hrun⟩ := ih
    obtain ⟨⟨s', t'⟩, hp, rfl, hshows'⟩ := (parseSequenceSectionInto_shows hshows src target).of_ok hparse
    obtain ⟨⟨s', previous'⟩, hdesc, rfl, hdenotes'⟩ := (parseSequenceSection_denotes hdenotes src target).of_ok hp
    refine ⟨t', previous', hshows', .parsed hreached hp, hdenotes', ?_⟩
    unfold describedRun at hrun ⊢
    rw [List.foldlM_append, hrun]
    simp only [ok_bind, List.foldlM_cons, List.foldlM_nil, hdesc]
    rfl
  | @setup sections tables tables' _ hsetup ih =>
    obtain ⟨t, previous, hshows, hreached, hdenotes, hrun⟩ := ih
    obtain ⟨t', hs, hshows'⟩ := (setupTablesInto_shows hshows).of_ok hsetup
    refine ⟨t', previous, hshows', .setup hreached hs, ?_, hrun⟩
    obtain ⟨ll, h1, hs⟩ := bind_ok hs
    obtain ⟨of, h2, hs⟩ := bind_ok hs
    obtain ⟨ml, h3, hs⟩ := bind_ok hs
    cases hs
    exact ⟨hdenotes.literalLengths.setup h1, hdenotes.offsets.setup h2, hdenotes.matchLengths.setup h3⟩

def SharedTables.slot (tables : SharedTables) : SequencePart → SharedSlot
  | .literalLength => tables.literalLengths
  | .offset => tables.offsets
  | .matchLength => tables.matchLengths

def PreviousTables.table (previous : PreviousTables) : SequencePart → Option SequenceDTable
  | .literalLength => previous.literalLengths
  | .offset => previous.offsets
  | .matchLength => previous.matchLengths

/-- The mode that a section names for an alphabet, where it has sequences. -/
def sectionMode (src : Bytes) (part : SequencePart) : Option CompressionMode :=
  match parseSequenceCount src with
  | .ok (numberOfSequences, countSize) =>
    if numberOfSequences = 0 then none
    else (src[countSize]?).map fun modesByte => match part with
      | .literalLength => .fromBits (modesByte.toNat / 64)
      | .offset => .fromBits (modesByte.toNat / 16 % 4)
      | .matchLength => .fromBits (modesByte.toNat / 4 % 4)
  | .error _ => none

/-- A section that repeats a table has one to repeat. -/
theorem describedSection_repeat {src : Bytes} {previous : PreviousTables} {x : ParsedSequenceSection × PreviousTables}
    (h : describedSection src previous = .ok x) {part : SequencePart} (hmode : sectionMode src part = some .repeat) :
    previous.table part ≠ none := by
  have hrepeat : ∀ {part : SequencePart} {mode : CompressionMode} {src : Bytes} {previous : Option SequenceDTable}
      {y : SequenceDTable × Nat}, describedTable part mode src previous = .ok y → mode = .repeat → previous ≠ none := by
    rintro part mode src previous y hy rfl rfl
    cases hy
  unfold describedSection at h
  obtain ⟨⟨numberOfSequences, countSize⟩, hcount, h⟩ := bind_ok h
  unfold sectionMode at hmode
  rw [hcount] at hmode
  simp only at h hmode
  split at h
  · rename_i h0
    rw [if_pos h0] at hmode
    cases hmode
  rename_i h0
  obtain ⟨modes, hbyte, h⟩ := bind_ok h
  rw [if_neg h0, getByte_ok hbyte, Option.map_some, Option.some.injEq] at hmode
  split at h
  · cases h
  obtain ⟨⟨ll, n1⟩, h1, h⟩ := bind_ok h
  obtain ⟨⟨of, n2⟩, h2, h⟩ := bind_ok h
  obtain ⟨⟨ml, n3⟩, h3, h⟩ := bind_ok h
  cases part with
  | literalLength => exact hrepeat h1 hmode
  | offset => exact hrepeat h2 hmode
  | matchLength => exact hrepeat h3 hmode

/-- The sequence tables persist as the format says. At every point of a frame the flag of an alphabet is set
exactly when there is a previous table; a section that repeats a table that there is not is refused; and the
next section is taken as the format takes it, its tables being, once they are set up, the ones it denotes. -/
theorem sequenceTables_persist {dictionary : Option DecoderDictionary} (hd : Accepted dictionary)
    {sections : List Bytes} {tables : SharedTables} (h : tables.Reached dictionary sections) :
    ∃ previous, describedRun (.ofDictionary dictionary) sections = .ok previous ∧
      (∀ part, (tables.slot part).has = (previous.table part).isSome) ∧
      ∀ src target,
        (∀ part, sectionMode src part = some .repeat → previous.table part = none →
          ∃ e, parseSequenceSectionInto src tables target = .error e) ∧
        Alike (fun parsed described => parsed.1 = described.1 ∧
            (parsed.1.numberOfSequences ≠ 0 → ∃ ready, setupTablesInto parsed.2 = .ok ready ∧
              ∀ part, described.2.table part = some (ready.slot part).seq.active))
          (parseSequenceSectionInto src tables target) (describedSection src previous) := by
  obtain ⟨t, previous, hshows, -, hdenotes, hrun⟩ := h.shows hd
  refine ⟨previous, hrun, fun part => ?_, fun src target => ?_⟩
  · cases part with
    | literalLength => exact hshows.literalLengths.has.trans hdenotes.literalLengths.has
    | offset => exact hshows.offsets.has.trans hdenotes.offsets.has
    | matchLength => exact hshows.matchLengths.has.trans hdenotes.matchLengths.has
  have hparse : Alike (fun parsed described => parsed.1 = described.1 ∧ ∃ t : SequenceTablesState,
      parsed.2.Shows t ∧ t.Denotes described.2) (parseSequenceSectionInto src tables target)
        (describedSection src previous) :=
    (parseSequenceSectionInto_shows hshows src target).trans (parseSequenceSection_denotes hdenotes src target)
      fun _ b _ h1 h2 => ⟨h1.1.trans h2.1, b.2, h1.2, h2.2⟩
  constructor
  · intro part hmode hnone
    cases hp : parseSequenceSectionInto src tables target with
    | error e => exact ⟨e, rfl⟩
    | ok a =>
      obtain ⟨c, hc, -⟩ := hparse.of_ok hp
      exact absurd hnone (describedSection_repeat hc hmode)
  · generalize parseSequenceSectionInto src tables target = parsed at hparse ⊢
    generalize hdescribed : describedSection src previous = described at hparse ⊢
    cases hparse with
    | error e => exact .error e
    | @ok parsed described hr =>
      obtain ⟨heq, t, hshows, hdenotes⟩ := hr
      refine .ok ⟨heq, fun hs => ?_⟩
      obtain ⟨s, next⟩ := described
      simp only at heq hdenotes ⊢
      obtain ⟨ll, of, ml, rfl⟩ := describedSection_some hdescribed (by rw [← heq]; exact hs)
      obtain ⟨ready, hready, -, ⟨c1, e1⟩, ⟨c2, e2⟩, ⟨c3, e3⟩⟩ := setupTables_denotes hdenotes
      obtain ⟨shared, hshared, hsame⟩ := (setupTablesInto_shows hshows).symm.of_ok hready
      refine ⟨shared, hshared, fun part => ?_⟩
      cases part with
      | literalLength => exact congrArg some (e1.symm.trans (hsame.literalLengths.seq c1).symm)
      | offset => exact congrArg some (e2.symm.trans (hsame.offsets.seq c2).symm)
      | matchLength => exact congrArg some (e3.symm.trans (hsame.matchLengths.seq c3).symm)

/-- The slots after the sections, the tables set up for the sequences of each. -/
def SharedTables.afterSections (tables : SharedTables) (sections : List Bytes) : Result SharedTables :=
  sections.foldlM (fun tables src => do
    let parsed ← parseSequenceSectionInto src tables .sequenceOnly
    setupTablesInto parsed.2) tables

theorem SharedTables.Reached.afterSections {dictionary : Option DecoderDictionary} : ∀ {sections done : List Bytes}
    {tables after : SharedTables}, tables.Reached dictionary done → tables.afterSections sections = .ok after →
    after.Reached dictionary (done ++ sections)
  | [], done, tables, after, h, hrun => by
    cases hrun
    rwa [List.append_nil]
  | src :: sections, done, tables, after, h, hrun => by
    unfold SharedTables.afterSections at hrun
    rw [List.foldlM_cons] at hrun
    obtain ⟨ready, hready, hrun⟩ := bind_ok hrun
    obtain ⟨parsed, hparsed, hsetup⟩ := bind_ok hready
    rw [show done ++ src :: sections = (done ++ [src]) ++ sections by simp]
    exact ((h.parsed hparsed).setup hsetup).afterSections hrun

/-- Behind a section with predefined literal lengths and one with predefined offsets, a section that repeats all three
tables is decoded by the last of each, one of them kept over both. Without the two there is nothing to repeat. -/
theorem sequenceTables_persist_repeated :
    (∃ e, parseSequenceSectionInto [1, 0xFC, 1] (.initial none) .sequenceOnly = .error e) ∧
      ∃ tables parsed ready,
        (SharedTables.initial none).afterSections [[1, 0x14, 2, 3, 1], [1, 0x4C, 5, 1]] = .ok tables ∧
        (∀ part, (tables.slot part).has = true) ∧
        parseSequenceSectionInto [1, 0xFC, 1] tables .sequenceOnly = .ok parsed ∧
        setupTablesInto parsed.2 = .ok ready ∧
        (ready.slot .literalLength).seq.active = SequencePart.literalLength.sequenceDtableFrom (buildRleDtable 5) ∧
        (describedTable .offset .predefined [] none).toOption = some ((ready.slot .offset).seq.active, 0) ∧
        (ready.slot .matchLength).seq.active = SequencePart.matchLength.sequenceDtableFrom (buildRleDtable 3) := by
  have hnone : Accepted none := by
    intro d hd
    cases hd
  constructor
  · -- before the first section there is no table to repeat
    obtain ⟨previous, hrun, -, hnext⟩ := sequenceTables_persist hnone .start
    cases hrun
    exact (hnext _ _).1 .literalLength (by decide) rfl
  have hafter : ((SharedTables.initial none).afterSections [[1, 0x14, 2, 3, 1], [1, 0x4C, 5, 1]]).isOk = true := by
    decide +kernel
  cases htables : (SharedTables.initial none).afterSections [[1, 0x14, 2, 3, 1], [1, 0x4C, 5, 1]] with
  | error e =>
    rw [htables] at hafter
    cases hafter
  | ok tables =>
    obtain ⟨previous, hrun, hhas, hnext⟩ :=
      sequenceTables_persist hnone (SharedTables.Reached.start.afterSections htables)
    obtain ⟨literalLengths, offsets, matchLengths⟩ := previous
    rw [List.nil_append] at hrun
    have htable : ∀ (part : SequencePart) {table : Option SequenceDTable},
        (describedRun (.ofDictionary none) [[1, 0x14, 2, 3, 1], [1, 0x4C, 5, 1]]).toOption.bind (·.table part) = table →
        PreviousTables.table ⟨literalLengths, offsets, matchLengths⟩ part = table := by
      intro part table h
      rw [hrun] at h
      exact h
    have hpredefined : (describedTable .offset .predefined [] none).toOption.map (·.2) = some 0 := by decide +kernel
    obtain ⟨⟨of, n⟩, hof, hn⟩ := Option.map_eq_some_iff.1 hpredefined
    obtain rfl : n = 0 := hn
    obtain rfl : literalLengths = some (SequencePart.literalLength.sequenceDtableFrom (buildRleDtable 5)) :=
      htable .literalLength (by decide +kernel)
    obtain rfl : matchLengths = some (SequencePart.matchLength.sequenceDtableFrom (buildRleDtable 3)) :=
      htable .matchLength (by decide +kernel)
    have hoffsets : offsets = (describedTable .offset .predefined [] none).toOption.map (·.1) :=
      htable .offset (by decide +kernel)
    rw [hof, Option.map_some] at hoffsets
    obtain rfl := hoffsets
    obtain ⟨parsed, hparsed, heq, hready⟩ := (hnext [1, 0xFC, 1] .sequenceOnly).2.symm.of_ok rfl
    obtain ⟨ready, hready, hslots⟩ := hready (by rw [heq]; exact Nat.one_ne_zero)
    refine ⟨tables, parsed, ready, rfl, fun part => ?_, hparsed, hready, ?_, ?_, ?_⟩
    · rw [hhas]
      cases part <;> rfl
    · exact (Option.some.inj (hslots .literalLength)).symm
    · rw [hof, ← Option.some.inj (hslots .offset)]
    · exact (Option.some.inj (hslots .matchLength)).symm

end Zstandard
