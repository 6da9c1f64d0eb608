/-
The compression tables of both entropy coders, built from the descriptions that the decoders read:
an FSE table from normalized counts and a Huffman table from weights.

Both builders of an FSE table lay out the same spread, so they differ in one check only: a count
below -1, which no header that is read contains.
-/
import Zstandard.Entropy.Normalized
import Zstandard.Entropy.Huff0Tables

namespace Zstandard

namespace Fse

/-! ## FSE compression tables -/

def tablesizeMax : Nat := 2 ^ tablelogMax

/-- `SymbolCompressionTransform`: where a symbol's states begin, and how many bits it takes to one of them. -/
structure SymbolCompressionTransform where
  deltaFindState : Int
  deltaNbBits : Nat
deriving DecidableEq, Repr

instance : Inhabited SymbolCompressionTransform := ⟨⟨0, 0⟩⟩

/-- `CTable`. -/
structure CTable where
  tableLog : Nat
  maxSymbolValue : Nat
  stateTable : List Nat
  symbolTt : List SymbolCompressionTransform
deriving DecidableEq, Repr

/-- The running totals of the slots, `cumul`: where the states of each symbol start. -/
def cumulative : List Int → Nat → List Nat
  | [], _ => []
  | count :: counts, total => total :: cumulative counts (total + count.natAbs)

/-- The states in slot order, each filed behind those of its symbol so far. `u` is the first slot. -/
def fillStateTable (tableSize : Nat) : List Nat → Nat → List Nat → List Nat → List Nat
  | [], _, _, stateTable => stateTable
  | symbol :: rest, u, cumul, stateTable =>
    let slot := cumul.getD symbol 0
    fillStateTable tableSize rest (u + 1) (cumul.set symbol (slot + 1)) (stateTable.set slot (tableSize + u))

/-- The transform of a symbol whose states start at `total`. -/
def symbolTransform (tableLog : Nat) (count : Int) (total : Nat) : SymbolCompressionTransform :=
  if count = 0 then { deltaFindState := 0, deltaNbBits := ((tableLog + 1) <<< 16) - 2 ^ tableLog }
  else if count = -1 ∨ count = 1 then
    { deltaFindState := (total : Int) - 1, deltaNbBits := (tableLog <<< 16) - 2 ^ tableLog }
  else
    let maxBitsOut := tableLog - highbit32 (count.toNat - 1)
    let minStatePlus := count.toNat <<< maxBitsOut
    { deltaFindState := (total : Int) - count, deltaNbBits := (maxBitsOut <<< 16) - minStatePlus }

/-- The transforms of the symbols, one behind the other in the table. -/
def symbolTransforms (tableLog : Nat) : List Int → Nat → List SymbolCompressionTransform
  | [], _ => []
  | count :: counts, total =>
    symbolTransform tableLog count total :: symbolTransforms tableLog counts (total + count.natAbs)

/-- The entries beyond the alphabet: the transform of an absent symbol. -/
def padTransforms (tableLog : Nat) (transforms : List SymbolCompressionTransform) : List SymbolCompressionTransform :=
  transforms ++ List.replicate (symbolvalueMax + 1 - transforms.length) (symbolTransform tableLog 0 0)

/-- `build_ctable`. -/
def buildCtable (normalizedCounter : List Int) (maxSymbolValue tableLog : Nat) : Result CTable := do
  checkTableArguments normalizedCounter maxSymbolValue tableLog
  let counts := normalizedCounter.take (maxSymbolValue + 1)
  if counts.any (· < -1) then .error (.corruption "invalid normalized FSE count") else
  let (tableSymbol, _) ← spreadSymbols normalizedCounter maxSymbolValue tableLog
  .ok {
    tableLog, maxSymbolValue
    stateTable := fillStateTable (2 ^ tableLog) tableSymbol 0 (cumulative counts 0) (List.replicate tablesizeMax 0)
    symbolTt := padTransforms tableLog (symbolTransforms tableLog counts 0) }

/-- Both builders accept the same counts, as long as none is below -1. -/
theorem buildCtable_ok_iff {counts : List Int} (maxSymbolValue tableLog : Nat) (h : ∀ c ∈ counts, -1 ≤ c) :
    (∃ ct, buildCtable counts maxSymbolValue tableLog = .ok ct) ↔
      ∃ dt, buildDtable counts maxSymbolValue tableLog = .ok dt := by
  have hany : (counts.take (maxSymbolValue + 1)).any (fun c => decide (c < -1)) = false := by
    rw [List.any_eq_false]
    intro c hc
    have := h c (List.mem_of_mem_take hc)
    simpa using this
  unfold buildCtable buildDtable buildEntries
  cases checkTableArguments counts maxSymbolValue tableLog with
  | error e => exact ⟨fun ⟨_, hct⟩ => (nomatch hct), fun ⟨_, hdt⟩ => (nomatch hdt)⟩
  | ok _ =>
    simp only [ok_bind, hany]
    cases spreadSymbols counts maxSymbolValue tableLog with
    | error e => exact ⟨fun ⟨_, hct⟩ => (nomatch hct), fun ⟨_, hdt⟩ => (nomatch hdt)⟩
    | ok spread => exact ⟨fun _ => ⟨_, rfl⟩, fun _ => ⟨_, rfl⟩⟩

end Fse

namespace Huff0

/-! ## Huffman compression tables -/

/-- `CElt`: a code and its length. -/
structure CElt where
  val : Nat
  nbBits : Nat
deriving DecidableEq, Repr

instance : Inhabited CElt := ⟨⟨0, 0⟩⟩

/-- `CTableX1`: a code for each symbol. -/
structure CTableX1 where
  tableLog : Nat
  entries : List CElt
deriving DecidableEq, Repr

/-- The code length of a weight: none for an absent symbol. -/
def bitsOfWeight (tableLog weight : Nat) : Nat := if weight = 0 then 0 else tableLog + 1 - weight

/-- `min` when the loop of the ranks, from the deepest up, has passed `steps` of them. -/
def rankMin (nbPerRank : Nat → Nat) (tableLog : Nat) : Nat → Nat
  | 0 => 0
  | steps + 1 => (rankMin nbPerRank tableLog steps + nbPerRank (tableLog - steps)) >>> 1

/-- `val_per_rank`: the first code of every length. -/
def valPerRank (nbPerRank : Nat → Nat) (tableLog : Nat) : List Nat :=
  (List.range (tablelogMax + 1)).map fun n =>
    if 1 ≤ n ∧ n ≤ tableLog then rankMin nbPerRank tableLog (tableLog - n) else 0

/-- The codes of the symbols in order: each takes the next code of its length. -/
def assignCodes : List Nat → List Nat → List CElt
  | [], _ => []
  | nbBits :: rest, vals =>
    if nbBits = 0 then default :: assignCodes rest vals
    else { val := vals.getD nbBits 0, nbBits } :: assignCodes rest (vals.set nbBits (vals.getD nbBits 0 + 1))

/-- `build_ctable_from_weights`. -/
def buildCtableFromWeights (huffWeight : List Nat) (tableLog : Nat) : Result (List CElt) :=
  if tableLog = 0 ∨ tableLog > tablelogMax then .error (.corruption "invalid Huff0 table log")
  else if huffWeight.any fun w => w ≠ 0 && (decide (w > tableLog) || decide (tableLog + 1 - w = 0) ||
      decide (tableLog + 1 - w > tablelogMax)) then
    .error (.corruption "invalid Huff0 weight")
  else
    let lengths := huffWeight.map (bitsOfWeight tableLog)
    let entries := assignCodes lengths (valPerRank (fun n => lengths.count n) tableLog)
    .ok (entries ++ List.replicate (symbolvalueMax + 1 - entries.length) default)

/-- `read_ctable_x1_with_repeat_validity`: the table, its size and whether every byte has a code. -/
def readCtableX1WithRepeatValidity (src : Bytes) : Result (CTableX1 × Nat × Bool) := do
  let stats ← readStats src
  let entries ← buildCtableFromWeights stats.huffWeight stats.tableLog
  let repeatValid := stats.nbSymbols = symbolvalueMax + 1 ∧ stats.huffWeight.all (· ≠ 0)
  .ok ({ tableLog := stats.tableLog, entries }, stats.size, repeatValid)

theorem buildCtableFromWeights_ok {stats : Stats} (h : stats.Ok) :
    ∃ entries, buildCtableFromWeights stats.huffWeight stats.tableLog = .ok entries := by
  have hpos := h.tableLog_pos
  have hle := h.tableLog_le
  unfold buildCtableFromWeights
  rw [if_neg (by omega), if_neg]
  · exact ⟨_, rfl⟩
  · rw [Bool.not_eq_true, List.any_eq_false]
    intro w hw
    have := h.weight_le w hw
    by_cases h0 : w = 0
    · simp [h0]
    · simp only [Bool.and_eq_true, Bool.or_eq_true, decide_eq_true_eq, not_and, not_or]
      intro _
      omega

theorem readCtableX1WithRepeatValidity_ok {src : Bytes} {stats : Stats} (h : readStats src = .ok stats) :
    ∃ entries repeatValid, buildCtableFromWeights stats.huffWeight stats.tableLog = .ok entries ∧
      readCtableX1WithRepeatValidity src =
        .ok ({ tableLog := stats.tableLog, entries }, stats.size, repeatValid) := by
  obtain ⟨entries, he⟩ := buildCtableFromWeights_ok (readStats_ok h)
  unfold readCtableX1WithRepeatValidity
  rw [h, ok_bind, he]
  exact ⟨entries, _, rfl, rfl⟩

end Huff0

end Zstandard
