/-
The sequence section of a block as the encoder writes it: for each of the three alphabets it chooses a table, whether
predefined, of one symbol, described in the section or repeated from an earlier block, and keeps what a later block may
repeat.

Every choice is judged by what the decoder makes of it (`SequenceTableChoice.Reads`): behind the header of the choice it
sets up a table that pairs up with the encoder's over the codes of the block, and what the encoder keeps for the next
block the decoder has kept as well.
-/
import Zstandard.Encode.SequenceReading
import Zstandard.Encode.SequenceTables
import Zstandard.Encode.Finders
import Zstandard.Entropy.Shares
import Zstandard.Entropy.NcountCut

namespace Zstandard

open Fse Hist

/-! ## Parts and strategies -/

namespace SequencePart

/-- The largest code of the predefined distribution. -/
def defaultMaxSymbol : SequencePart → Nat
  | .literalLength => 35
  | .offset => 28
  | .matchLength => 52

/-- Whether the predefined distribution has every code up to this one. -/
def defaultAllowed (part : SequencePart) (maxSymbol : Nat) : Bool := maxSymbol ≤ part.defaultMaxSymbol

end SequencePart

/-- `zstd_rank`: the number of a strategy in the format's reference encoder. -/
def ParserStrategy.zstdRank : ParserStrategy → Nat
  | .fast => 1
  | .doubleFast => 2
  | .greedy => 3
  | .lazy => 4
  | .lazy2 => 5
  | .greedyRow => 3
  | .lazyRow => 4
  | .lazy2Row => 5
  | .binaryTreeLazy2 => 6
  | .binaryTreeOpt => 7
  | .binaryTreeUltra => 8
  | .binaryTreeUltra2 => 9

/-! ## What an encoder keeps and chooses -/

/-- `SequenceEncodingState`: the tables a later block may repeat. -/
structure SequenceEncodingState where
  literalLengths : Option SequenceEncodingPartState := none
  offsets : Option SequenceEncodingPartState := none
  matchLengths : Option SequenceEncodingPartState := none
deriving DecidableEq, Repr

/-- A table for the block's codes of one part, the header that describes it, and how a later block may repeat it. -/
structure SequenceTableChoice where
  mode : CompressionMode
  header : Bytes
  encoding : SequenceEncodingTable
  persistMode : Option SequenceRepeatMode
deriving DecidableEq, Repr

/-- What a chosen table leaves for the next block. -/
def SequenceTableChoice.intoPartState (choice : SequenceTableChoice) : Option SequenceEncodingPartState :=
  choice.persistMode.map fun mode => { table := choice.encoding, repeatMode := mode }

namespace SequenceEncodingTable

/-- Whether the table has every code. -/
def supportsAll (table : SequenceEncodingTable) (codes : Bytes) : Bool :=
  codes.all fun code => table.supportedSymbols.getD code.toNat false

/-- The same, by the counts. -/
def supportsAllFromStats (table : SequenceEncodingTable) (stats : SequenceCodeStats) : Bool :=
  (List.range (stats.maxSymbol + 1)).all fun symbol =>
    ¬ (tally stats.counts symbol > 0 ∧ ¬ table.supportedSymbols.getD symbol false)

end SequenceEncodingTable

/-! ## Costs -/

/-- Costs are in fractions of a bit, over `2 ^ 8`. -/
def costAccuracyLog : Nat := 8

/-- `- 256 * log2 (i / 256)` for each probability `i / 256`. -/
def inverseProbabilityLog256 : List Nat :=
  [0, 2048, 1792, 1642, 1536, 1453, 1386, 1329, 1280, 1236, 1197, 1162, 1130, 1100, 1073, 1047, 1024, 1001, 980, 960,
   941, 923, 906, 889, 874, 859, 844, 830, 817, 804, 791, 779, 768, 756, 745, 734, 724, 714, 704, 694, 685, 676, 667,
   658, 650, 642, 633, 626, 618, 610, 603, 595, 588, 581, 574, 567, 561, 554, 548, 542, 535, 529, 523, 517, 512, 506,
   500, 495, 489, 484, 478, 473, 468, 463, 458, 453, 448, 443, 438, 434, 429, 424, 420, 415, 411, 407, 402, 398, 394,
   390, 386, 382, 377, 373, 370, 366, 362, 358, 354, 350, 347, 343, 339, 336, 332, 329, 325, 322, 318, 315, 311, 308,
   305, 302, 298, 295, 292, 289, 286, 282, 279, 276, 273, 270, 267, 264, 261, 258, 256, 253, 250, 247, 244, 241, 239,
   236, 233, 230, 228, 225, 222, 220, 217, 215, 212, 209, 207, 204, 202, 199, 197, 194, 192, 190, 187, 185, 182, 180,
   178, 175, 173, 171, 168, 166, 164, 162, 159, 157, 155, 153, 151, 149, 146, 144, 142, 140, 138, 136, 134, 132, 130,
   128, 126, 123, 121, 119, 117, 115, 114, 112, 110, 108, 106, 104, 102, 100, 98, 96, 94, 93, 91, 89, 87, 85, 83, 82,
   80, 78, 76, 74, 73, 71, 69, 67, 66, 64, 62, 61, 59, 57, 55, 54, 52, 50, 49, 47, 46, 44, 42, 41, 39, 37, 36, 34, 33,
   31, 30, 28, 26, 25, 23, 22, 20, 19, 17, 16, 14, 13, 11, 10, 8, 7, 5, 4, 2, 1]

/-- `u64::MAX`, the cost of what cannot be had. -/
def noCost : Nat := 2 ^ 64 - 1

/-- `cross_entropy_cost_bits`: what a predefined distribution costs on these counts. -/
def crossEntropyCostBits (defaultNorm : List Int) (defaultLog : Nat) (counts : List Nat) (maxSymbol : Nat) :
    Result Nat := do
  let shift := costAccuracyLog - defaultLog
  let cost ← (List.range (maxSymbol + 1)).foldlM (fun cost symbol => do
    let norm ← (match defaultNorm[symbol]? with
      | some norm => .ok norm
      | none => .error .generic)
    let normAcc := if norm = -1 then 1 else norm.toNat
    let price ← indexed inverseProbabilityLog256 (normAcc <<< shift)
    .ok (cost + tally counts symbol * price)) 0
  .ok (cost >>> costAccuracyLog)

/-- `entropy_cost_bits`: what a distribution of their own costs. -/
def entropyCostBits (counts : List Nat) (maxSymbol total : Nat) : Result Nat := do
  let cost ← (List.range (maxSymbol + 1)).foldlM (fun cost symbol => do
    let count := tally counts symbol
    if count = 0 then .ok cost else
    let norm := 256 * count / total
    let price ← indexed inverseProbabilityLog256 (if norm = 0 then 1 else norm)
    .ok (cost + count * price)) 0
  .ok (cost >>> costAccuracyLog)

/-- The array of normalized counts, zero behind the alphabet. -/
def wholeCounter (normalized : List Int) : List Int :=
  normalized ++ List.replicate (symbolvalueMax + 1 - normalized.length) 0

/-- The bytes of the header that the counts would have. -/
def ncountCostBytes (part : SequencePart) (stats : SequenceCodeStats) : Result Nat := do
  let tableLog := optimalTableLog part.maxAccuracyLog stats.total stats.maxSymbol
  let (log, normalized) ← normalizeCount (symbolvalueMax + 1) tableLog stats.counts stats.total stats.maxSymbol
    (stats.total ≥ 2048)
  if log = 0 then .error .generic else
  let bound ← ncountWriteBound stats.maxSymbol tableLog
  let (size, _) ← writeNcount (List.replicate bound 0) (wholeCounter normalized) stats.maxSymbol tableLog
  .ok size

/-- `ctable_bit_cost`: the bits of a symbol, as a fixed-point number. -/
def ctableBitCost (ct : CTable) (symbol accuracyLog : Nat) : Result Nat :=
  if symbol > ct.maxSymbolValue then .error (.corruption "FSE symbol exceeds compression table") else do
  let transform := ct.symbolTt.getD symbol default
  let minNbBits := transform.deltaNbBits >>> 16
  let threshold := (minNbBits + 1) <<< 16
  let tableSize := 1 <<< ct.tableLog
  let deltaFromThreshold ← checkedSub threshold (transform.deltaNbBits + tableSize)
  let normalizedDelta := (deltaFromThreshold <<< accuracyLog) >>> ct.tableLog
  checkedSub ((minNbBits + 1) * (1 <<< accuracyLog)) normalizedDelta

/-- The loop of `sequence_table_cost_bits`: nothing where a symbol is as dear as an absent one. -/
def sequenceTableCost (ct : CTable) (stats : SequenceCodeStats) (badCost : Nat) : List Nat → Nat → Result (Option Nat)
  | [], cost => .ok (some cost)
  | symbol :: symbols, cost =>
    let count := tally stats.counts symbol
    if count = 0 then sequenceTableCost ct stats badCost symbols cost else do
    let bitCost ← ctableBitCost ct symbol costAccuracyLog
    if bitCost ≥ badCost then .ok none else
    sequenceTableCost ct stats badCost symbols (cost + count * bitCost)

/-- What an existing table costs, nothing of use where it lacks a code. -/
def sequenceTableCostBits (table : SequenceEncodingTable) (stats : SequenceCodeStats) : Result Nat :=
  if table.table.maxSymbolValue < stats.maxSymbol then .ok noCost else do
  let badCost := (table.table.tableLog + 1) <<< costAccuracyLog
  match ← sequenceTableCost table.table stats badCost (List.range (stats.maxSymbol + 1)) 0 with
  | none => .ok noCost
  | some cost => .ok (cost >>> costAccuracyLog)

/-! ## Choosing -/

/-- The fast strategies repeat a table for fewer sequences than this. -/
def fastSelectorRepeatMaxSequences : Nat := 1000

/-- The choice of the fast parsers, without prices. -/
def selectTableChoiceFastPath (part : SequencePart) (previous : Option SequenceEncodingPartState)
    (parserStrategy : ParserStrategy) (stats : SequenceCodeStats) : Option CompressionMode :=
  if parserStrategy.zstdRank ≥ ParserStrategy.lazy.zstdRank then none
  else if ¬ part.defaultAllowed stats.maxSymbol then some .fseCompressed
  else
    let repeatChoice := previous.filter fun entry =>
      entry.repeatMode = .valid ∧ entry.table.supportsAllFromStats stats
    if repeatChoice.isSome ∧ stats.total < fastSelectorRepeatMaxSequences then some .repeat
    else
      let defaultLog := part.defaultDistribution.2
      let multiplier := 10 - parserStrategy.zstdRank
      let dynamicFseNbSeqMin := ((1 <<< defaultLog) * multiplier) >>> 3
      if stats.total < dynamicFseNbSeqMin ∨ stats.mostFrequent < stats.total >>> (defaultLog - 1) then some .predefined
      else some .fseCompressed

/-- `select_table_choice`: one code only, the fast rules, or the cheapest of the costs. -/
def selectTableChoice (part : SequencePart) (previous : Option SequenceEncodingPartState)
    (parserStrategy : ParserStrategy) (stats : SequenceCodeStats) : Result CompressionMode :=
  if stats.mostFrequent = stats.total then
    if part.defaultAllowed stats.maxSymbol ∧ stats.total ≤ 2 then .ok .predefined else .ok .rle
  else
    match selectTableChoiceFastPath part previous parserStrategy stats with
    | some choice => .ok choice
    | none => do
      let basicCost ← (if part.defaultAllowed stats.maxSymbol then
        crossEntropyCostBits part.defaultDistribution.1 part.defaultDistribution.2 stats.counts stats.maxSymbol
        else .ok noCost)
      let repeatCost ← (match previous.filter fun entry =>
          entry.repeatMode ≠ .none ∧ entry.table.supportsAllFromStats stats with
        | some entry => sequenceTableCostBits entry.table stats
        | none => .ok noCost)
      let headerBytes ← ncountCostBytes part stats
      let entropyBits ← entropyCostBits stats.counts stats.maxSymbol stats.total
      let compressedCost := headerBytes * 8 + entropyBits
      if basicCost ≤ repeatCost ∧ basicCost ≤ compressedCost then .ok .predefined
      else if repeatCost ≤ compressedCost then .ok .repeat
      else .ok .fseCompressed

/-! ## Building -/

/-- A table with every code. -/
def allSymbolsSupported : List Bool := List.replicate (symbolvalueMax + 1) true

/-- The table of the format, which is built from its distribution once. -/
def buildPredefinedTableChoice (part : SequencePart) : Result SequenceTableChoice := do
  let (distribution, tableLog) := part.defaultDistribution
  let table ← buildCtable distribution (distribution.length - 1) tableLog
  .ok { mode := .predefined, header := [], encoding := { table, supportedSymbols := allSymbolsSupported }
        persistMode := none }

/-- The previous table, without a header. -/
def buildRepeatTableChoice (previous : SequenceEncodingPartState) : SequenceTableChoice where
  mode := .repeat
  header := []
  encoding := previous.table
  persistMode := some previous.repeatMode

/-- One code for every sequence. It is not repeated. -/
def buildRleTableChoice (symbol : Nat) : SequenceTableChoice where
  mode := .rle
  header := [UInt8.ofNat symbol]
  encoding :=
    { table := buildRleCtable (UInt8.ofNat symbol)
      supportedSymbols := (List.replicate (symbolvalueMax + 1) false).set symbol true }
  persistMode := none

/-- The counts that a table is made for: the last code does not pay, as its state starts the stream. -/
def effectiveCounts (stats : SequenceCodeStats) (codes : Bytes) : Result (List Nat × Nat) :=
  match codes.getLast? with
  | none => .error .unexpectedEof
  | some last =>
    let count := tally stats.counts last.toNat
    if count > 1 then .ok (stats.counts.set last.toNat (count - 1), codes.length - 1)
    else .ok (stats.counts, codes.length)

/-- A table built from the counts, with its description; none where the counts do not give one. -/
def buildCompressedTableChoice (part : SequencePart) (codes : Bytes) (stats : SequenceCodeStats) :
    Result (Option SequenceTableChoice) :=
  if codes.length ≤ 1 then .ok none else do
  let tableLog := optimalTableLog part.maxAccuracyLog codes.length stats.maxSymbol
  let (counts, total) ← effectiveCounts stats codes
  if total ≤ 1 then .ok none else
  let (log, normalized) ← normalizeCount (symbolvalueMax + 1) tableLog counts total stats.maxSymbol (total ≥ 2048)
  if log = 0 then .ok none else
  let normalized := wholeCounter normalized
  let bound ← ncountWriteBound stats.maxSymbol tableLog
  let (headerSize, header) ← writeNcount (List.replicate bound 0) normalized stats.maxSymbol tableLog
  let encoding ← SequenceEncodingTable.fromNormalizedCounts normalized stats.maxSymbol tableLog
  .ok (some { mode := .fseCompressed, header := header.take headerSize, encoding, persistMode := some .check })

/-- The table of a chosen mode. -/
def buildSelectedTableChoice (part : SequencePart) (codes : Bytes) (previous : Option SequenceEncodingPartState)
    (stats : SequenceCodeStats) (mode : CompressionMode) : Result SequenceTableChoice :=
  match mode with
  | .predefined => buildPredefinedTableChoice part
  | .rle => .ok (buildRleTableChoice stats.maxSymbol)
  | .repeat =>
    match (previous.filter fun entry => entry.repeatMode ≠ .none).filter fun entry => entry.table.supportsAll codes with
    | some entry => .ok (buildRepeatTableChoice entry)
    | none => .error .generic
  | .fseCompressed => do
    match ← buildCompressedTableChoice part codes stats with
    | some choice => .ok choice
    | none => .error .generic

/-- The choice for one alphabet. -/
def buildSequencePartChoiceWithStats (part : SequencePart) (codes : Bytes)
    (previous : Option SequenceEncodingPartState) (parserStrategy : ParserStrategy) (stats : SequenceCodeStats) :
    Result SequenceTableChoice := do
  let mode ← selectTableChoice part previous parserStrategy stats
  buildSelectedTableChoice part codes previous stats mode

/-! ## The section -/

/-- `encode_sequence_count`: one to three bytes. -/
def encodeSequenceCount (numberOfSequences : Nat) : Result Bytes :=
  if numberOfSequences ≥ 2 ^ 16 + 0x7F00 then .error (.invalidParameter "too many sequences in one block")
  else if numberOfSequences < 128 then .ok [UInt8.ofNat numberOfSequences]
  else if numberOfSequences < 0x7F00 then
    .ok [UInt8.ofNat (128 + numberOfSequences >>> 8), UInt8.ofNat (numberOfSequences % 256)]
  else
    let value := numberOfSequences - 0x7F00
    .ok [255, UInt8.ofNat (value % 256), UInt8.ofNat (value >>> 8 % 256)]

/-- The bytes of a count. -/
def encodedSequenceCountSize (numberOfSequences : Nat) : Nat :=
  if numberOfSequences < 128 then 1 else if numberOfSequences < 0x7F00 then 2 else 3

/-- The two bits of a mode. -/
def CompressionMode.bits : CompressionMode → Nat
  | .predefined => 0
  | .rle => 1
  | .fseCompressed => 2
  | .repeat => 3

/-- `SequenceSectionStats`: the sizes of the parts of a section, and its modes. -/
structure SequenceSectionStats where
  headerSize : Nat := 0
  bitstreamSize : Nat := 0
  lastCountSize : Nat := 0
  longOffsets : Bool := false
  modes : Option (CompressionMode × CompressionMode × CompressionMode) := none
deriving DecidableEq, Repr

/-- The three choices, with what they cost. -/
structure SequenceStatisticsBuild where
  literalChoice : SequenceTableChoice
  offsetChoice : SequenceTableChoice
  matchChoice : SequenceTableChoice
  stats : SequenceSectionStats
  extraBits : Nat

/-- The header of the last described table, the match lengths' first. -/
def lastCompressedCountSize (literalChoice offsetChoice matchChoice : SequenceTableChoice) : Nat :=
  if matchChoice.mode = .fseCompressed then matchChoice.header.length
  else if offsetChoice.mode = .fseCompressed then offsetChoice.header.length
  else if literalChoice.mode = .fseCompressed then literalChoice.header.length
  else 0

/-- Whether an offset has more extra bits than the accumulator takes at once. -/
def detectLongOffsets (offsetCodes : Bytes) : Bool := offsetCodes.any fun code => code.toNat ≥ streamAccumulatorMin

/-- `build_sequences_statistics`: the choices for the three alphabets. -/
def buildSequencesStatistics (sequenceCount : Nat) (literalCodes offsetCodes matchCodes : Bytes)
    (state : SequenceEncodingState) (parserStrategy : ParserStrategy) : Result SequenceStatisticsBuild := do
  let (llStats, ofStats, mlStats) := analyzeAllCodes literalCodes offsetCodes matchCodes
  let literalChoice ← buildSequencePartChoiceWithStats .literalLength literalCodes state.literalLengths parserStrategy
    llStats
  let offsetChoice ← buildSequencePartChoiceWithStats .offset offsetCodes state.offsets parserStrategy ofStats
  let matchChoice ← buildSequencePartChoiceWithStats .matchLength matchCodes state.matchLengths parserStrategy mlStats
  let headerSize := encodedSequenceCountSize sequenceCount + 1 + literalChoice.header.length +
    offsetChoice.header.length + matchChoice.header.length
  let extraBits ← extraBitsFromCodeCounts llStats ofStats mlStats
  .ok { literalChoice, offsetChoice, matchChoice, extraBits
        stats := { headerSize, lastCountSize := lastCompressedCountSize literalChoice offsetChoice matchChoice
                   longOffsets := detectLongOffsets offsetCodes
                   modes := some (literalChoice.mode, offsetChoice.mode, matchChoice.mode) } }

/-- The tables of a build's choices. -/
def SequenceStatisticsBuild.tables (build : SequenceStatisticsBuild) : SequenceCTables where
  literalLengths := build.literalChoice.encoding.table
  offsets := build.offsetChoice.encoding.table
  matchLengths := build.matchChoice.encoding.table

/-- The state for the next block. -/
def SequenceStatisticsBuild.intoNextState (build : SequenceStatisticsBuild) : SequenceEncodingState where
  literalLengths := build.literalChoice.intoPartState
  offsets := build.offsetChoice.intoPartState
  matchLengths := build.matchChoice.intoPartState

/-- The codes of a block's sequences, and the prepared sequences unless the codes were at hand. -/
structure SequenceEncodeScratch where
  literalCodes : Bytes
  offsetCodes : Bytes
  matchCodes : Bytes
  encoded : List EncodedSequence
  useDirectPath : Bool

/-- The codes of all sequences, alone or with each sequence prepared. -/
def prepareSeqStoreEncodeScratch (sequences : List SequenceCommand) (codesPrecomputed : Bool) :
    Result SequenceEncodeScratch :=
  if codesPrecomputed then
    let (literalCodes, offsetCodes, matchCodes) := populateCodes sequences
    .ok { literalCodes, offsetCodes, matchCodes, encoded := [], useDirectPath := true }
  else do
    let encoded ← sequences.mapM encodeSequenceCommand
    .ok { literalCodes := encoded.map (·.llCode), offsetCodes := encoded.map (·.ofCode)
          matchCodes := encoded.map (·.mlCode), encoded, useDirectPath := false }

/-- `encode_sequence_section_direct`: the bytes of the section, what the next block may repeat, and the sizes. The
bitstream is written over `bitstreamScratch`, whatever an earlier block left there. -/
def encodeSequenceSectionDirect (state : SequenceEncodingState) (parserStrategy : ParserStrategy)
    (bitstreamScratch : Bytes) (sequences : List SequenceCommand) (scratch : SequenceEncodeScratch) :
    Result (Bytes × SequenceEncodingState × SequenceSectionStats) := do
  let sequenceCount := if scratch.useDirectPath then sequences.length else scratch.encoded.length
  if sequenceCount = 0 then .ok ([0], state, {}) else
  let build ← buildSequencesStatistics sequenceCount scratch.literalCodes scratch.offsetCodes scratch.matchCodes state
    parserStrategy
  let (bitstream, _) ← (if scratch.useDirectPath then
    encodeSequenceBitstreamDirectInto bitstreamScratch sequences scratch.literalCodes scratch.offsetCodes
      scratch.matchCodes build.extraBits build.tables build.stats.longOffsets
    else encodeSequenceBitstreamInto bitstreamScratch scratch.encoded build.extraBits build.tables
      build.stats.longOffsets)
  let count ← encodeSequenceCount sequenceCount
  let modes := build.literalChoice.mode.bits <<< 6 ||| build.offsetChoice.mode.bits <<< 4 |||
    build.matchChoice.mode.bits <<< 2
  .ok (count ++ [UInt8.ofNat modes] ++ build.literalChoice.header ++ build.offsetChoice.header ++
    build.matchChoice.header ++ bitstream, build.intoNextState, { build.stats with bitstreamSize := bitstream.length })

/-- A block's sequences, prepared and encoded. -/
def encodeSequences (state : SequenceEncodingState) (parserStrategy : ParserStrategy) (bitstreamScratch : Bytes)
    (codesPrecomputed : Bool) (sequences : List SequenceCommand) :
    Result (Bytes × SequenceEncodingState × SequenceSectionStats) := do
  let scratch ← prepareSeqStoreEncodeScratch sequences codesPrecomputed
  encodeSequenceSectionDirect state parserStrategy bitstreamScratch sequences scratch

end Zstandard
