/-
The sequence tables of the encoder that outlive a block: a compression table with the symbols it can
encode, and how freely a later block may repeat it.
-/
import Zstandard.Entropy.Ctables
import Zstandard.Decode.Sequence

namespace Zstandard

open Fse

inductive SequenceRepeatMode where
  | none | check | valid
deriving DecidableEq, Repr

/-- A part's FSE compression table, and which symbols it can encode. -/
structure SequenceEncodingTable where
  table : CTable
  supportedSymbols : List Bool
deriving DecidableEq, Repr

/-- `SequenceEncodingTable::from_normalized_counts`. -/
def SequenceEncodingTable.fromNormalizedCounts (normalized : List Int) (maxSymbolValue tableLog : Nat) :
    Result SequenceEncodingTable := do
  let table ← buildCtable normalized maxSymbolValue tableLog
  let supported := (normalized.take (maxSymbolValue + 1)).map fun c => decide (c ≠ 0)
  .ok { table, supportedSymbols := supported ++ List.replicate (symbolvalueMax + 1 - supported.length) false }

structure SequenceEncodingPartState where
  table : SequenceEncodingTable
  repeatMode : SequenceRepeatMode
deriving DecidableEq, Repr

def repeatModeForNormalizedCounts (normalized : List Int) (dictMaxSymbolValue requiredMaxSymbolValue : Nat) :
    SequenceRepeatMode :=
  if dictMaxSymbolValue < requiredMaxSymbolValue then .check
  else if (normalized.take (requiredMaxSymbolValue + 1)).any (· = 0) then .check
  else .valid

theorem fromNormalizedCounts_table {counts : List Int} {maxSymbolValue tableLog : Nat} {t : SequenceEncodingTable}
    (h : SequenceEncodingTable.fromNormalizedCounts counts maxSymbolValue tableLog = .ok t) :
    buildCtable counts maxSymbolValue tableLog = .ok t.table := by
  unfold SequenceEncodingTable.fromNormalizedCounts at h
  obtain ⟨ct, hct, h⟩ := bind_ok h
  cases h
  exact hct

end Zstandard
