/-
Dictionaries on the decoding side: `Dictionary::parse` for decoding, and the entropy state a frame
that uses the dictionary starts from.

A parsed dictionary carries what its parse has checked: sequence tables within their alphabets and
repeat offsets that are never zero.
-/
import Zstandard.Decode.Literals
import Zstandard.Decode.Sequence

namespace Zstandard

open Fse

def zstdDictionaryMagic : Nat := 0xEC30A437

/-- What a dictionary gives the decoder. -/
structure DecoderDictionary where
  id : Nat
  content : Bytes
  literalsState : LiteralsState
  sequenceTables : SequenceTablesState
  repeatOffsets : DecoderRepeatOffsets
  tablesOk : sequenceTables.Ok

/-- Counts of an alphabet, read and validated but not yet built into a table. -/
abbrev ParsedCounts (part : SequencePart) : Type := { n : Ncount // n.maxSymbolValue ≤ part.maxSymbolValue }

/-- `read_sequence_counts`. -/
def readSequenceCounts (part : SequencePart) (src : Bytes) : Result (ParsedCounts part) :=
  match h : readNcount src (symbolvalueMax + 1) part.maxSymbolValue part.maxAccuracyLog with
  | .ok n => .ok ⟨n, readNcount_maxSymbolValue h⟩
  | .error e => .error e

/-- `ParsedCounts::dtable`. -/
def ParsedCounts.dtable {part : SequencePart} (counts : ParsedCounts part) :
    Result { dt : DTable // ∀ e ∈ dt.entries, e.symbol ≤ part.maxSymbolValue } :=
  match h : buildDtable counts.1.normalizedCounter counts.1.maxSymbolValue counts.1.tableLog with
  | .ok dt => .ok ⟨dt, fun e he => le_trans (buildDtable_symbol_le h e he) counts.2⟩
  | .error e => .error e

/-- A slot that holds a plain table only, converted on first use (`with_tables`). -/
def SequenceTableSlot.ofDtable (dtable : Option DTable) : SequenceTableSlot := { dtable, has := dtable.isSome }

theorem SequenceTableSlot.ofDtable_ok {part : SequencePart} {dt : DTable}
    (h : ∀ e ∈ dt.entries, e.symbol ≤ part.maxSymbolValue) : (SequenceTableSlot.ofDtable (some dt)).Ok part := by
  refine ⟨fun dt' hdt => ?_, fun _ h => (nomatch h)⟩
  cases hdt
  exact h

namespace DecoderDictionary

/-- `Dictionary::raw`: content alone. -/
def raw (content : Bytes) : DecoderDictionary :=
  { id := 0, content, literalsState := {}, sequenceTables := {}, repeatOffsets := .initial
    tablesOk := SequenceTablesState.ok_default }

/-- The repeat offsets of a dictionary, each inside its content. -/
def checkRepeatOffsets (rep1 rep2 rep3 contentLen : Nat) : Result DecoderRepeatOffsets :=
  if h : (0 < rep1 ∧ 0 < rep2 ∧ 0 < rep3) ∧ rep1 ≤ contentLen ∧ rep2 ≤ contentLen ∧ rep3 ≤ contentLen then
    .ok ⟨⟨rep1, rep2, rep3⟩, h.1⟩
  else .error (.corruption "dictionary repeat offset exceeds dictionary content")

/-- A formatted dictionary, behind its magic number and id. -/
def parseFormatted (src : Bytes) : Result DecoderDictionary := do
  let cursor := 8
  let (huffmanTable, huffmanSize) ← Huff0.readDtableX2 (src.drop cursor)
  let cursor := cursor + huffmanSize
  let offsets ← readSequenceCounts .offset (src.drop cursor)
  let cursor := cursor + offsets.1.size
  let matchLengths ← readSequenceCounts .matchLength (src.drop cursor)
  let cursor := cursor + matchLengths.1.size
  let literalLengths ← readSequenceCounts .literalLength (src.drop cursor)
  let cursor := cursor + literalLengths.1.size
  if cursor + 12 > src.length then .error (.corruption "dictionary is truncated") else
  let content := src.drop (cursor + 12)
  let repeatOffsets ← checkRepeatOffsets (readU32Le (src.drop cursor)) (readU32Le (src.drop (cursor + 4)))
    (readU32Le (src.drop (cursor + 8))) content.length
  let offsetTable ← offsets.dtable
  let matchLengthTable ← matchLengths.dtable
  let literalLengthTable ← literalLengths.dtable
  .ok {
    id := readU32Le (src.drop 4), content, literalsState := { huffmanTable := some (.double huffmanTable) }
    sequenceTables := {
      literalLengths := .ofDtable (some literalLengthTable.1)
      offsets := .ofDtable (some offsetTable.1)
      matchLengths := .ofDtable (some matchLengthTable.1) }
    repeatOffsets
    tablesOk := ⟨SequenceTableSlot.ofDtable_ok literalLengthTable.2, SequenceTableSlot.ofDtable_ok offsetTable.2,
      SequenceTableSlot.ofDtable_ok matchLengthTable.2⟩ }

/-- `Dictionary::parse` in the decoding direction. -/
def parse (src : Bytes) : Result DecoderDictionary :=
  if src.length < 8 ∨ readU32Le src ≠ zstdDictionaryMagic then .ok (raw src) else parseFormatted src

end DecoderDictionary

end Zstandard
