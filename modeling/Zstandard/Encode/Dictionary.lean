/-
Dictionaries in both directions: `Dictionary::parse` for the encoder and for the decoder.

A parse reads one description of every table and builds the tables of its own direction from it. The
two directions agree: they accept the same bytes, and what they build describes the same entropy
distributions (`Dictionary.directions_agree`). The reads validate everything the builders check.
-/
import Zstandard.Encode.SequenceTables
import Zstandard.Decode.Dictionary
import Zstandard.Library.Follows

namespace Zstandard

open Fse Simulation

/-! ## Parsing -/

/-- Which half of a formatted dictionary's entropy tables to build. -/
inductive TableDirection where
  | encoding | decoding
deriving DecidableEq, Repr

/-- A decode table of one alphabet. -/
abbrev PartDTable (part : SequencePart) : Type := { dt : DTable // ∀ e ∈ dt.entries, e.symbol ≤ part.maxSymbolValue }

/-- The entropy tables only the decoder reads. -/
structure DecoderTables where
  huffmanTable : Huff0.DTableX2
  offsetTable : PartDTable .offset
  matchLengthTable : PartDTable .matchLength
  literalLengthTable : PartDTable .literalLength

/-- The entropy tables only the encoder reads. -/
structure EncoderTables where
  huffmanEncodingTable : Huff0.CTableX1
  huffmanRepeatValid : Bool
  offsetEncodingState : SequenceEncodingPartState
  matchLengthEncodingState : SequenceEncodingPartState
  literalLengthEncodingState : SequenceEncodingPartState

/-- `ParsedCounts::encoding_state`. -/
def ParsedCounts.encodingState {part : SequencePart} (counts : ParsedCounts part) (requiredMaxSymbol : Nat) :
    Result SequenceEncodingPartState := do
  let table ← SequenceEncodingTable.fromNormalizedCounts counts.1.normalizedCounter counts.1.maxSymbolValue
    counts.1.tableLog
  let repeatMode := repeatModeForNormalizedCounts counts.1.normalizedCounter counts.1.maxSymbolValue requiredMaxSymbol
  .ok { table, repeatMode }

def dictionaryOffsetRequiredMaxSymbol (contentLen : Nat) : Nat :=
  if contentLen ≤ 2 ^ 32 - 1 - 128 * 1024 then
    min (highbit32 (contentLen + 128 * 1024)) SequencePart.offset.maxSymbolValue
  else SequencePart.offset.maxSymbolValue

structure Dictionary where
  id : Nat
  sourceSize : Nat
  source : Bytes
  contentStart : Nat
  rawContent : Bool
  decoderTables : Option DecoderTables
  encoderTables : Option EncoderTables
  repeatOffsets : DecoderRepeatOffsets

/-- The Huffman table of a direction. -/
inductive HuffmanHalf where
  | decoding (table : Huff0.DTableX2)
  | encoding (table : Huff0.CTableX1) (repeatValid : Bool)

/-- The Huffman table at the head of a dictionary's tables, and the size of its description. -/
def readHuffmanHalf (direction : TableDirection) (src : Bytes) : Result (HuffmanHalf × Nat) :=
  match direction with
  | .decoding => do
    let (table, size) ← Huff0.readDtableX2 src
    .ok (.decoding table, size)
  | .encoding => do
    let (table, size, repeatValid) ← Huff0.readCtableX1WithRepeatValidity src
    .ok (.encoding table repeatValid, size)

/-- The tables of a direction. -/
def buildTables (half : HuffmanHalf) (offsets : ParsedCounts .offset) (matchLengths : ParsedCounts .matchLength)
    (literalLengths : ParsedCounts .literalLength) (contentLen : Nat) :
    Result (Option DecoderTables × Option EncoderTables) :=
  match half with
  | .decoding huffmanTable => do
    let offsetTable ← offsets.dtable
    let matchLengthTable ← matchLengths.dtable
    let literalLengthTable ← literalLengths.dtable
    .ok (some { huffmanTable, offsetTable, matchLengthTable, literalLengthTable }, none)
  | .encoding huffmanEncodingTable huffmanRepeatValid => do
    let offsetEncodingState ← offsets.encodingState (dictionaryOffsetRequiredMaxSymbol contentLen)
    let matchLengthEncodingState ← matchLengths.encodingState SequencePart.matchLength.maxSymbolValue
    let literalLengthEncodingState ← literalLengths.encodingState SequencePart.literalLength.maxSymbolValue
    .ok (none, some { huffmanEncodingTable, huffmanRepeatValid, offsetEncodingState, matchLengthEncodingState,
                      literalLengthEncodingState })

namespace Dictionary

/-- `Dictionary::raw`: content alone. -/
def raw (content : Bytes) : Dictionary :=
  { id := 0, sourceSize := content.length, source := content, contentStart := 0, rawContent := true
    decoderTables := none, encoderTables := none, repeatOffsets := .initial }

/-- A formatted dictionary, behind its magic number and id. -/
def parseFormatted (src : Bytes) (direction : TableDirection) : Result Dictionary := do
  let cursor := 8
  let (half, huffmanSize) ← readHuffmanHalf direction (src.drop cursor)
  let cursor := cursor + huffmanSize
  let offsets ← readSequenceCounts .offset (src.drop cursor)
  let cursor := cursor + offsets.1.size
  let matchLengths ← readSequenceCounts .matchLength (src.drop cursor)
  let cursor := cursor + matchLengths.1.size
  let literalLengths ← readSequenceCounts .literalLength (src.drop cursor)
  let cursor := cursor + literalLengths.1.size
  if cursor + 12 > src.length then .error (.corruption "dictionary is truncated") else
  let content := src.drop (cursor + 12)
  let repeatOffsets ← DecoderDictionary.checkRepeatOffsets (readU32Le (src.drop cursor))
    (readU32Le (src.drop (cursor + 4))) (readU32Le (src.drop (cursor + 8))) content.length
  let (decoderTables, encoderTables) ← buildTables half offsets matchLengths literalLengths content.length
  .ok { id := readU32Le (src.drop 4), sourceSize := src.length, source := src
        contentStart := src.length - content.length, rawContent := false, decoderTables, encoderTables, repeatOffsets }

/-- `Dictionary::parse`. -/
def parse (src : Bytes) (direction : TableDirection) : Result Dictionary :=
  if src.length < 8 ∨ readU32Le src ≠ zstdDictionaryMagic then .ok (raw src) else parseFormatted src direction

def content (d : Dictionary) : Bytes := d.source.drop d.contentStart

/-! ## The decoder's view -/

/-- What a dictionary parsed for decoding gives a frame. -/
def decoderDictionary (d : Dictionary) : DecoderDictionary :=
  match d.decoderTables with
  | none =>
    { id := d.id, content := d.content, literalsState := {}, sequenceTables := {}, repeatOffsets := d.repeatOffsets
      tablesOk := SequenceTablesState.ok_default }
  | some t =>
    { id := d.id, content := d.content, literalsState := { huffmanTable := some (.double t.huffmanTable) }
      sequenceTables := {
        literalLengths := .ofDtable (some t.literalLengthTable.1)
        offsets := .ofDtable (some t.offsetTable.1)
        matchLengths := .ofDtable (some t.matchLengthTable.1) }
      repeatOffsets := d.repeatOffsets
      tablesOk := ⟨SequenceTableSlot.ofDtable_ok t.literalLengthTable.2,
        SequenceTableSlot.ofDtable_ok t.offsetTable.2, SequenceTableSlot.ofDtable_ok t.matchLengthTable.2⟩ }

/-- The decoder's dictionary is the dictionary parsed for decoding. -/
theorem decoderDictionary_parse (src : Bytes) :
    DecoderDictionary.parse src = Dictionary.decoderDictionary <$> parse src .decoding := by
  unfold DecoderDictionary.parse parse
  split
  · rfl
  · unfold DecoderDictionary.parseFormatted parseFormatted readHuffmanHalf
    simp only
    cases Huff0.readDtableX2 (src.drop 8) with
    | error e => rfl
    | ok r =>
    obtain ⟨table, size⟩ := r
    simp only [ok_bind]
    cases readSequenceCounts .offset (src.drop (8 + size)) with
    | error e => rfl
    | ok offsets =>
    simp only [ok_bind]
    cases readSequenceCounts .matchLength (src.drop (8 + size + offsets.1.size)) with
    | error e => rfl
    | ok matchLengths =>
    simp only [ok_bind]
    cases readSequenceCounts .literalLength (src.drop (8 + size + offsets.1.size + matchLengths.1.size)) with
    | error e => rfl
    | ok literalLengths =>
    simp only [ok_bind]
    generalize 8 + size + offsets.1.size + matchLengths.1.size + literalLengths.1.size = cursor
    split
    · rfl
    · rename_i hfits
      cases DecoderDictionary.checkRepeatOffsets (readU32Le (src.drop cursor)) (readU32Le (src.drop (cursor + 4)))
        (readU32Le (src.drop (cursor + 8))) (src.drop (cursor + 12)).length with
      | error e => rfl
      | ok reps =>
      simp only [ok_bind, buildTables]
      cases offsets.dtable with
      | error e => rfl
      | ok offsetTable =>
      simp only [ok_bind]
      cases matchLengths.dtable with
      | error e => rfl
      | ok matchLengthTable =>
      simp only [ok_bind]
      cases literalLengths.dtable with
      | error e => rfl
      | ok literalLengthTable =>
      have hstart : src.length - (src.drop (cursor + 12)).length = cursor + 12 := by
        rw [List.length_drop]; omega
      simp only [ok_bind, map_ok, decoderDictionary, content, hstart]

end Dictionary

/-! ## The directions agree -/

/-- The entropy distributions a formatted dictionary describes. -/
structure DictionaryEntropy where
  huffman : Huff0.Stats
  offsets : Ncount
  matchLengths : Ncount
  literalLengths : Ncount

/-- A table of the encoder was built from a distribution. -/
def SequenceEncodingPartState.Describes (st : SequenceEncodingPartState) (n : Ncount) : Prop :=
  buildCtable n.normalizedCounter n.maxSymbolValue n.tableLog = .ok st.table.table

structure EncoderTables.Describes (t : EncoderTables) (e : DictionaryEntropy) : Prop where
  huffman : Huff0.buildCtableFromWeights e.huffman.huffWeight e.huffman.tableLog = .ok t.huffmanEncodingTable.entries
  huffmanLog : t.huffmanEncodingTable.tableLog = e.huffman.tableLog
  offsets : t.offsetEncodingState.Describes e.offsets
  matchLengths : t.matchLengthEncodingState.Describes e.matchLengths
  literalLengths : t.literalLengthEncodingState.Describes e.literalLengths

structure DecoderTables.Describes (t : DecoderTables) (e : DictionaryEntropy) : Prop where
  huffman : Huff0.buildDtableX2 e.huffman = .ok t.huffmanTable
  offsets : buildDtable e.offsets.normalizedCounter e.offsets.maxSymbolValue e.offsets.tableLog = .ok t.offsetTable.1
  matchLengths : buildDtable e.matchLengths.normalizedCounter e.matchLengths.maxSymbolValue e.matchLengths.tableLog =
    .ok t.matchLengthTable.1
  literalLengths : buildDtable e.literalLengths.normalizedCounter e.literalLengths.maxSymbolValue
    e.literalLengths.tableLog = .ok t.literalLengthTable.1

/-- The tables of both directions describe the same distributions, and raw content has neither. -/
inductive TablesAgree : Bool → Option EncoderTables → Option DecoderTables → Prop
  | raw : TablesAgree true none none
  | formatted {te : EncoderTables} {td : DecoderTables} (e : DictionaryEntropy) (encoding : te.Describes e)
      (decoding : td.Describes e) : TablesAgree false (some te) (some td)

/-- `e`, parsed for encoding, and `d`, parsed for decoding, are the same dictionary. -/
structure Dictionary.Agrees (e d : Dictionary) : Prop where
  id : e.id = d.id
  sourceSize : e.sourceSize = d.sourceSize
  source : e.source = d.source
  contentStart : e.contentStart = d.contentStart
  rawContent : e.rawContent = d.rawContent
  repeatOffsets : e.repeatOffsets = d.repeatOffsets
  tables : TablesAgree e.rawContent e.encoderTables d.decoderTables

/-- Both directions read the Huffman header the same way. -/
theorem readHuffmanHalf_matches (src : Bytes) :
    Matches (fun e d => e.2 = d.2 ∧ ∃ (stats : Huff0.Stats) (entries : List Huff0.CElt) (repeatValid : Bool)
        (table : Huff0.DTableX2), e.1 = .encoding ⟨stats.tableLog, entries⟩ repeatValid ∧ d.1 = .decoding table ∧
        Huff0.buildCtableFromWeights stats.huffWeight stats.tableLog = .ok entries ∧
        Huff0.buildDtableX2 stats = .ok table)
      (readHuffmanHalf .encoding src) (readHuffmanHalf .decoding src) := by
  unfold readHuffmanHalf
  simp only
  rw [Huff0.readDtableX2_eq]
  cases hs : Huff0.readStats src with
  | error e =>
    unfold Huff0.readCtableX1WithRepeatValidity
    rw [hs]
    exact .of_error e e
  | ok stats =>
    obtain ⟨entries, repeatValid, hentries, hread⟩ := Huff0.readCtableX1WithRepeatValidity_ok hs
    obtain ⟨table, htable⟩ := Huff0.buildDtableX2_ok (Huff0.readStats_ok hs)
    simp only [hread, ok_bind, htable, map_ok]
    exact .of_ok ⟨rfl, stats, entries, repeatValid, table, rfl, rfl, hentries, htable⟩

theorem readSequenceCounts_ok {part : SequencePart} {src : Bytes} {counts : ParsedCounts part}
    (h : readSequenceCounts part src = .ok counts) :
    readNcount src (symbolvalueMax + 1) part.maxSymbolValue part.maxAccuracyLog = .ok counts.1 := by
  unfold readSequenceCounts at h
  split at h
  · rename_i n hn
    cases h
    exact hn
  · cases h

theorem ParsedCounts.dtable_ok {part : SequencePart} {counts : ParsedCounts part} {t : PartDTable part}
    (h : counts.dtable = .ok t) :
    buildDtable counts.1.normalizedCounter counts.1.maxSymbolValue counts.1.tableLog = .ok t.1 := by
  unfold ParsedCounts.dtable at h
  split at h
  · rename_i dt hdt
    cases h
    exact hdt
  · cases h

theorem ParsedCounts.dtable_eq_error {part : SequencePart} {counts : ParsedCounts part} {e : Error}
    (h : buildDtable counts.1.normalizedCounter counts.1.maxSymbolValue counts.1.tableLog = .error e) :
    counts.dtable = .error e := by
  unfold ParsedCounts.dtable
  split
  · rename_i dt hdt
    rw [h] at hdt
    cases hdt
  · rename_i e' he
    rw [h] at he
    cases he
    rfl

/-- Counts that were read build both tables or neither. -/
theorem encodingState_matches {part : SequencePart} {src : Bytes} {counts : ParsedCounts part}
    (h : readSequenceCounts part src = .ok counts) (requiredMaxSymbol : Nat) :
    Matches (fun (st : SequenceEncodingPartState) (t : PartDTable part) => st.Describes counts.1 ∧
        buildDtable counts.1.normalizedCounter counts.1.maxSymbolValue counts.1.tableLog = .ok t.1)
      (counts.encodingState requiredMaxSymbol) counts.dtable := by
  obtain ⟨hnorm, -⟩ := readNcount_normalized (readSequenceCounts_ok h)
  have hiff := buildCtable_ok_iff counts.1.maxSymbolValue counts.1.tableLog hnorm.atLeast
  unfold ParsedCounts.encodingState SequenceEncodingTable.fromNormalizedCounts
  cases hct : buildCtable counts.1.normalizedCounter counts.1.maxSymbolValue counts.1.tableLog with
  | error e =>
    cases hdt : buildDtable counts.1.normalizedCounter counts.1.maxSymbolValue counts.1.tableLog with
    | error e' =>
      rw [ParsedCounts.dtable_eq_error hdt]
      exact .of_error e e'
    | ok dt =>
      obtain ⟨ct, h'⟩ := hiff.mpr ⟨dt, hdt⟩
      rw [hct] at h'
      cases h'
  | ok ct =>
    cases hdt : counts.dtable with
    | error e =>
      obtain ⟨dt, h'⟩ := hiff.mp ⟨ct, hct⟩
      unfold ParsedCounts.dtable at hdt
      split at hdt
      · cases hdt
      · rename_i he
        rw [h'] at he
        cases he
    | ok t => exact .of_ok ⟨hct, ParsedCounts.dtable_ok hdt⟩

theorem Dictionary.parseFormatted_matches (src : Bytes) :
    Matches Dictionary.Agrees (parseFormatted src .encoding) (parseFormatted src .decoding) := by
  unfold parseFormatted
  refine (readHuffmanHalf_matches (src.drop 8)).bind ?_
  rintro ⟨_, size⟩ ⟨_, _⟩ - - ⟨rfl, stats, entries, repeatValid, table, rfl, rfl, hentries, htable⟩
  simp only
  refine Matches.bind_same fun offsets ho => Matches.bind_same fun matchLengths hm =>
    Matches.bind_same fun literalLengths hl => ?_
  generalize 8 + size + offsets.1.size + matchLengths.1.size + literalLengths.1.size = cursor
  split
  · exact .of_error _ _
  refine Matches.bind_same fun reps _ => ?_
  have htables : Matches (fun e d => TablesAgree false e.2 d.1)
      (buildTables (.encoding ⟨stats.tableLog, entries⟩ repeatValid) offsets matchLengths literalLengths
        (src.drop (cursor + 12)).length)
      (buildTables (.decoding table) offsets matchLengths literalLengths (src.drop (cursor + 12)).length) := by
    refine (encodingState_matches ho _).bind fun _ _ _ _ ho' => ?_
    refine (encodingState_matches hm _).bind fun _ _ _ _ hm' => ?_
    refine (encodingState_matches hl _).bind fun _ _ _ _ hl' => ?_
    exact .of_ok (.formatted ⟨stats, offsets.1, matchLengths.1, literalLengths.1⟩
      ⟨hentries, rfl, ho'.1, hm'.1, hl'.1⟩ ⟨htable, ho'.2, hm'.2, hl'.2⟩)
  refine htables.bind ?_
  rintro ⟨_, te⟩ ⟨td, _⟩ - - ht
  exact .of_ok ⟨rfl, rfl, rfl, rfl, rfl, rfl, ht⟩

/-- Parsing a byte string for encoding and parsing it for decoding succeed together, and describe the same
dictionary: id, content, repeat offsets and entropy distributions, or raw content in both directions. -/
theorem Dictionary.directions_agree (src : Bytes) :
    ((∃ e, parse src .encoding = .ok e) ↔ ∃ d, parse src .decoding = .ok d) ∧
      ∀ e d, parse src .encoding = .ok e → parse src .decoding = .ok d → e.Agrees d := by
  have h : Matches Dictionary.Agrees (parse src .encoding) (parse src .decoding) := by
    unfold parse
    split
    · exact .of_ok ⟨rfl, rfl, rfl, rfl, rfl, rfl, .raw⟩
    · exact parseFormatted_matches src
  exact ⟨h.ok_iff, fun e d he hd => h.related he hd⟩

/-- A formatted dictionary: two bytes of equal weight, two codes of equal count in every alphabet, and one
byte of content. -/
def smallDictionary : Bytes :=
  [0x37, 0xA4, 0x30, 0xEC, 1, 0, 0, 0, 128, 0x10, 0x10, 0x3F, 0x10, 0x3F, 0x10, 0x3F,
   1, 0, 0, 0, 1, 0, 0, 0, 1, 0, 0, 0, 7]

theorem Dictionary.directions_agree_small :
    ∃ e d, parse smallDictionary .encoding = .ok e ∧ parse smallDictionary .decoding = .ok d ∧
      e.rawContent = false ∧ e.Agrees d := by
  have hraw : (match parse smallDictionary .encoding with
      | .ok e => !e.rawContent
      | .error _ => false) = true := by decide +kernel
  cases he : parse smallDictionary .encoding with
  | error _ =>
    rw [he] at hraw
    cases hraw
  | ok e =>
    rw [he] at hraw
    obtain ⟨hiff, hagree⟩ := Dictionary.directions_agree smallDictionary
    obtain ⟨d, hd⟩ := hiff.mp ⟨e, he⟩
    exact ⟨e, d, rfl, hd, by simpa using hraw, hagree e d he hd⟩

end Zstandard
