/-
Huff0 decoding: the weight description, the single-symbol (X1) and double-symbol (X2) decode
tables, and the one- and four-stream decoders over either table.

Each stream writes its own segment of the destination, so a decoder returns its segment as the
list of the bytes it emitted and the destination is the segments in order.
-/
import Zstandard.Entropy.Fse

namespace Zstandard

namespace Huff0

def tablelogMax : Nat := 12
def decoderFastTablelog : Nat := 11
def symbolvalueMax : Nat := 255
def maxFseTablelogForHuffHeader : Nat := 6

/-! ## Descriptions -/

/-- What `read_stats` leaves in its output parameters, with the size it returns. -/
structure Stats where
  huffWeight : List Nat
  rankStats : List Nat
  nbSymbols : Nat
  tableLog : Nat
  size : Nat

/-- The weights of a direct description: two to a byte, the high nibble first. -/
def unpackWeights : Bytes → List Nat
  | [] => []
  | b :: bs => b.toNat / 16 :: b.toNat % 16 :: unpackWeights bs

/-- The explicit weights of a description and the size of the description. -/
def readWeights (src : Bytes) : Result (List Nat × Nat) :=
  match src with
  | [] => .error .srcSizeWrong
  | header :: rest =>
    let iSize := header.toNat
    if iSize ≥ 128 then
      let oSize := iSize - 127
      let iSize := (oSize + 1) / 2
      if iSize + 1 > src.length ∨ oSize ≥ symbolvalueMax + 1 then .error .srcSizeWrong
      else .ok ((unpackWeights (rest.take iSize)).take oSize, iSize + 1)
    else if iSize + 1 > src.length then .error .srcSizeWrong
    else do
      let weights ← Fse.decompress symbolvalueMax (rest.take iSize) tablelogMax maxFseTablelogForHuffHeader
      .ok (weights, iSize + 1)

/-- The share of the code space that the weights take. -/
def weightTotal (weights : List Nat) : Nat := (weights.map fun w => 2 ^ w / 2).sum

/-- `read_stats`: the weights of a description, with the last one, which they imply. -/
def readStats (src : Bytes) : Result Stats := do
  let (weights, size) ← readWeights src
  if weights.any (· ≥ tablelogMax) then .error (.corruption "invalid Huff0 weight") else
  let total := weightTotal weights
  if total = 0 then .error (.corruption "empty Huff0 weight table") else
  let tableLog := highbit32 total + 1
  if tableLog > tablelogMax then .error (.corruption "Huff0 table log too large") else
  let rest := 2 ^ tableLog - total
  if 2 ^ highbit32 rest ≠ rest then .error (.corruption "non power-of-two Huff0 weight remainder") else
  let huffWeight := weights ++ [highbit32 rest + 1]
  let rankStats := (List.range (tablelogMax + 1)).map fun w => huffWeight.count w
  if rankStats.getD 1 0 < 2 ∨ rankStats.getD 1 0 % 2 = 1 then
    .error (.corruption "invalid Huff0 rank-1 weight count")
  else .ok { huffWeight, rankStats, nbSymbols := weights.length + 1, tableLog, size }

/-- The slots `start..stop` of a table overwritten with one entry. -/
def fillRange {α : Type} (slots : List α) (start stop : Nat) (entry : α) : List α :=
  slots.take start ++ List.replicate (stop - start) entry ++ slots.drop stop

/-! ## The single-symbol table -/

/-- A slot of the single-symbol table. -/
structure DEltX1 where
  byte : UInt8
  nbBits : Nat
deriving DecidableEq, Repr

instance : Inhabited DEltX1 := ⟨⟨0, 0⟩⟩

/-- `DTableX1`: what the next `tableLog` bits decode to. -/
structure DTableX1 where
  tableLog : Nat
  entries : List DEltX1
deriving DecidableEq, Repr

/-- The first slot of every rank, from the number of symbols of each rank. -/
def rankStarts : List Nat → Nat → Nat → List Nat
  | [], _, _ => []
  | count :: counts, weight, next =>
    next :: rankStarts counts (weight + 1) (next + count * 2 ^ (weight - 1))

/-- The fill loop of `read_dtable_x1`: every symbol fills the slots after those of its rank so far. -/
def fillDtableX1 (tableLog : Nat) : List (Nat × Nat) → List Nat → List DEltX1 → List DEltX1
  | [], _, entries => entries
  | (weight, symbol) :: rest, rankVal, entries =>
    let start := rankVal.getD weight 0
    let stop := start + 2 ^ weight / 2
    fillDtableX1 tableLog rest (rankVal.set weight stop)
      (fillRange entries start stop { byte := UInt8.ofNat symbol, nbBits := tableLog + 1 - weight })

/-- `read_dtable_x1`, with the size of the description. -/
def readDtableX1 (src : Bytes) : Result (DTableX1 × Nat) := do
  let stats ← readStats src
  if stats.tableLog > tablelogMax then
    .error (.corruption "Huff0 table log exceeds decode table capacity") else
  let rankVal := 0 :: rankStarts ((stats.rankStats.drop 1).take stats.tableLog) 1 0
  let entries := fillDtableX1 stats.tableLog stats.huffWeight.zipIdx rankVal
    (List.replicate (2 ^ stats.tableLog) default)
  .ok ({ tableLog := stats.tableLog, entries }, stats.size)

/-! ## Single-symbol decoding -/

/-- `decode_symbol_x1`. -/
def decodeSymbolX1 (t : DTableX1) (bitD : BitDStream) : UInt8 × BitDStream :=
  let entry := t.entries.getD (bitD.lookBitsFast t.tableLog) default
  (entry.byte, bitD.skipBits entry.nbBits)

/-- `n` symbols with no reload between them; the bytes are prepended to `out`. -/
def decodeSymbolsX1 (t : DTableX1) : Nat → Bytes → BitDStream → Bytes × BitDStream
  | 0, out, bitD => (out, bitD)
  | n + 1, out, bitD =>
    let (b, bitD) := decodeSymbolX1 t bitD
    decodeSymbolsX1 t n (b :: out) bitD

/-- The reloading loop of `decode_stream_x1`: four symbols a round while more than three are wanted. -/
def decodeFoursX1 (t : DTableX1) (size : Nat) : Nat → Bytes → BitDStream → Bytes × BitDStream
  | 0, out, bitD => (out, bitD)
  | fuel + 1, out, bitD =>
    let (status, bitD) := bitD.reload
    if status = .unfinished ∧ out.length < size - 3 then
      let (out, bitD) := decodeSymbolsX1 t 4 out bitD
      decodeFoursX1 t size fuel out bitD
    else (out, bitD)

/-- `decode_stream_x1` into a segment of `size` bytes that already holds `out` (newest first). -/
def decodeStreamX1 (t : DTableX1) (size : Nat) (out : Bytes) (bitD : BitDStream) : Bytes × BitDStream :=
  let (out, bitD) := decodeFoursX1 t size (size + 1) out bitD
  decodeSymbolsX1 t (size - out.length) out bitD

/-- One stream, single symbols: every byte of the size, and every bit of the stream. -/
def decompress1X1 (size : Nat) (src : Bytes) (t : DTableX1) : Result Bytes := do
  let bitD ← BitDStream.new src
  let (out, bitD) := decodeStreamX1 t size [] bitD
  if out.length ≠ size ∨ ¬ bitD.endOfStream then
    .error (.corruption "Huff0 stream did not terminate cleanly")
  else .ok out.reverse

/-- The four payloads of a four-stream section, after its jump table. -/
def splitStreams (src : Bytes) : Result (Bytes × Bytes × Bytes × Bytes) :=
  let length1 := readLe (src.take 2)
  let length2 := readLe ((src.drop 2).take 2)
  let length3 := readLe ((src.drop 4).take 2)
  if length1 + length2 + length3 + 6 > src.length then
    .error (.corruption "invalid Huff0 4X segment lengths")
  else
    let body := src.drop 6
    .ok (body.take length1, (body.drop length1).take length2,
      (body.drop (length1 + length2)).take length3, body.drop (length1 + length2 + length3))

/-- The four streams of a section and the sizes of the segments they write. -/
structure Streams where
  d1 : BitDStream
  d2 : BitDStream
  d3 : BitDStream
  d4 : BitDStream
  segment : Nat
  last : Nat

/-- The checks and the set-up both four-stream decoders share. -/
def openStreams (size : Nat) (src : Bytes) : Result Streams := do
  if src.length < 10 then .error (.corruption "truncated Huff0 4X stream") else
  if size < 6 then .error (.corruption "Huff0 4X output too small to split") else
  let (s1, s2, s3, s4) ← splitStreams src
  let d1 ← BitDStream.new s1
  let d2 ← BitDStream.new s2
  let d3 ← BitDStream.new s3
  let d4 ← BitDStream.new s4
  let segment := (size + 3) / 4
  if 3 * segment > size then .error (.corruption "Huff0 4X segment starts past the output") else
  .ok { d1, d2, d3, d4, segment, last := size - 3 * segment }

/-- One stream with the bytes of its segment so far, newest first. -/
abbrev StreamState := Bytes × BitDStream

/-- The lockstep loop of the four-stream decoders: a round of `decode` on every stream while
`more` allows one, then a fast reload of all four. -/
def fourStreamLoop (decode : StreamState → StreamState) (more : StreamState → StreamState → StreamState →
    StreamState → Bool) : Nat → Bool → StreamState → StreamState → StreamState → StreamState →
    StreamState × StreamState × StreamState × StreamState
  | 0, _, s1, s2, s3, s4 => (s1, s2, s3, s4)
  | fuel + 1, endSignal, s1, s2, s3, s4 =>
    if endSignal && more s1 s2 s3 s4 then
      let (o1, d1) := decode s1
      let (o2, d2) := decode s2
      let (o3, d3) := decode s3
      let (o4, d4) := decode s4
      let (r1, d1) := d1.reloadFast
      let (r2, d2) := d2.reloadFast
      let (r3, d3) := d3.reloadFast
      let (r4, d4) := d4.reloadFast
      let unfinished := r1 = .unfinished ∧ r2 = .unfinished ∧ r3 = .unfinished ∧ r4 = .unfinished
      fourStreamLoop decode more fuel unfinished (o1, d1) (o2, d2) (o3, d3) (o4, d4)
    else (s1, s2, s3, s4)

/-- The end of both four-stream decoders: every segment finished by `finish`, every stream spent. -/
def closeStreams (finish : Nat → Bytes → BitDStream → Bytes × BitDStream) (s : Streams)
    (state : StreamState × StreamState × StreamState × StreamState) : Result Bytes :=
  let ((o1, d1), (o2, d2), (o3, d3), (o4, d4)) := state
  if o1.length > s.segment ∨ o2.length > s.segment ∨ o3.length > s.segment then
    .error (.corruption "Huff0 segment overrun")
  else
    let (o1, d1) := finish s.segment o1 d1
    let (o2, d2) := finish s.segment o2 d2
    let (o3, d3) := finish s.segment o3 d3
    let (o4, d4) := finish s.last o4 d4
    if d1.endOfStream && d2.endOfStream && d3.endOfStream && d4.endOfStream then
      .ok (o1.reverse ++ o2.reverse ++ o3.reverse ++ o4.reverse)
    else .error (.corruption "Huff0 stream did not consume all bits")

/-- Four streams, single symbols, a few rounds between two reloads. -/
def decompress4X1 (size : Nat) (src : Bytes) (t : DTableX1) : Result Bytes := do
  let s ← openStreams size src
  -- `op4 < olimit`: the fourth segment is the shortest, so its cursor bounds the other three.
  let more := fun (_ _ _ s4 : StreamState) => decide (s4.1.length < s.last - 3)
  closeStreams (decodeStreamX1 t) s
    (fourStreamLoop (fun p => decodeSymbolsX1 t 4 p.1 p.2) more (size + 1) true
      ([], s.d1) ([], s.d2) ([], s.d3) ([], s.d4))

/-! ## The double-symbol table -/

/-- A slot of the double-symbol table: one byte or two. -/
structure DEltX2 where
  sequence : Bytes
  nbBits : Nat
deriving DecidableEq, Repr

instance : Inhabited DEltX2 := ⟨⟨[], 0⟩⟩

/-- `DTableX2`: what the next `tableLog` bits decode to, two symbols where they hold two codes. -/
structure DTableX2 where
  tableLog : Nat
  entries : List DEltX2
deriving DecidableEq, Repr

/-- `fill_dtable_x2_for_weight` on the slots from `start`: a run for every symbol in `symbols`, whose
entry emits `base` before the symbol. -/
def fillDtableX2ForWeight (tableLog nbBits limit : Nat) (base : Bytes) :
    List Nat → Nat → List DEltX2 → Result (List DEltX2)
  | [], _, slots => .ok slots
  | symbol :: rest, start, slots =>
    if nbBits > tableLog then .error (.corruption "Huff0 X2 symbol is deeper than its table") else
    let stop := start + 2 ^ (tableLog - nbBits)
    if stop > limit then .error (.corruption "Huff0 X2 rank runs past the table") else
    fillDtableX2ForWeight tableLog nbBits limit base rest stop
      (fillRange slots start stop { sequence := base ++ [UInt8.ofNat symbol], nbBits })

/-- The tables a double-symbol fill reads. `rankVal consumed w` is where rank `w` starts in a table
entered after `consumed` bits; `symbolsOf w` are the symbols of rank `w` in order. -/
structure X2Plan where
  tableLog : Nat
  maxWeight : Nat
  nbBitsBaseline : Nat
  rankVal : Nat → Nat → Nat
  symbolsOf : Nat → List Nat

/-- The loop over the second symbol's weights of `fill_dtable_x2_level2`. -/
def fillLevel2Weights (p : X2Plan) (consumedBits start stop : Nat) (base : UInt8) :
    Nat → Nat → List DEltX2 → Result (List DEltX2)
  | 0, _, slots => .ok slots
  | n + 1, weight, slots => do
    let at_ := start + p.rankVal consumedBits weight
    if at_ > stop then .error (.corruption "Huff0 X2 rank starts past the table") else
    let slots ← fillDtableX2ForWeight p.tableLog (p.nbBitsBaseline - weight + consumedBits) stop [base]
      (p.symbolsOf weight) at_ slots
    fillLevel2Weights p consumedBits start stop base n (weight + 1) slots

/-- `fill_dtable_x2_level2` on the slots `start..stop`, reached after `base` was decoded. -/
def fillDtableX2Level2 (p : X2Plan) (consumedBits minWeight start stop : Nat) (base : UInt8)
    (slots : List DEltX2) : Result (List DEltX2) := do
  let slots ←
    if minWeight > 1 then
      if minWeight > tablelogMax then .error (.corruption "Huff0 X2 weight exceeds the table log") else
      let skip := p.rankVal consumedBits minWeight
      if start + skip > stop then .error (.corruption "Huff0 X2 single-symbol run overflows")
      else .ok (fillRange slots start (start + skip) { sequence := [base], nbBits := consumedBits })
    else .ok slots
  fillLevel2Weights p consumedBits start stop base (p.maxWeight + 1 - minWeight) minWeight slots

/-- A sub-table for every symbol of one rank. -/
def fillSubTables (p : X2Plan) (nbBits minWeight : Nat) :
    List Nat → Nat → List DEltX2 → Result (List DEltX2)
  | [], _, slots => .ok slots
  | symbol :: rest, start, slots => do
    let stop := start + 2 ^ (p.tableLog - nbBits)
    if stop > slots.length then .error (.corruption "Huff0 X2 rank runs past the table") else
    let slots ← fillDtableX2Level2 p nbBits minWeight start stop (UInt8.ofNat symbol) slots
    fillSubTables p nbBits minWeight rest stop slots

/-- The loop of `fill_dtable_x2` over the ranks. -/
def fillDtableX2 (p : X2Plan) : Nat → Nat → List DEltX2 → Result (List DEltX2)
  | 0, _, slots => .ok slots
  | n + 1, weight, slots => do
    let nbBits := p.nbBitsBaseline - weight
    let minBits := p.nbBitsBaseline - p.maxWeight
    let symbols := p.symbolsOf weight
    let at_ := p.rankVal 0 weight
    let slots ←
      if p.tableLog - nbBits ≥ minBits then
        -- `(nb_bits as i32 + scale_log).max(1)`
        let minWeight := max (nbBits + p.nbBitsBaseline - p.tableLog) 1
        fillSubTables p nbBits minWeight symbols at_ slots
      else if at_ > slots.length then .error (.corruption "Huff0 X2 rank starts past the table")
      else fillDtableX2ForWeight p.tableLog nbBits slots.length [] symbols at_ slots
    fillDtableX2 p n (weight + 1) slots

/-- The greatest weight at most `w` that some symbol has. -/
def maxWeightBelow (rankStats : List Nat) : Nat → Nat
  | 0 => 0
  | w + 1 => if rankStats.getD (w + 1) 0 = 0 then maxWeightBelow rankStats w else w + 1

/-- Row 0 of `rank_val`: the first slot of every rank in a table of `targetLog` bits. -/
def rankValRow (rankStats : List Nat) (targetLog tableLog : Nat) : Nat → Nat
  | 0 => 0
  | w + 1 => rankValRow rankStats targetLog tableLog w +
      if w = 0 then 0 else rankStats.getD w 0 * 2 ^ (w + targetLog - tableLog - 1)

/-- `read_dtable_x2`, with the size of the description. -/
def readDtableX2 (src : Bytes) : Result (DTableX2 × Nat) := do
  let stats ← readStats src
  if stats.tableLog > tablelogMax then
    .error (.corruption "Huff0 table log exceeds decode table capacity") else
  let targetLog := if stats.tableLog ≤ decoderFastTablelog then decoderFastTablelog else tablelogMax
  let maxWeight := maxWeightBelow stats.rankStats stats.tableLog
  let row := rankValRow stats.rankStats targetLog stats.tableLog
  if row (maxWeight + 1) ≠ 2 ^ targetLog then
    .error (.corruption "Huff0 X2 ranks do not tile the table") else
  let minBits := stats.tableLog + 1 - maxWeight
  let plan : X2Plan := {
    tableLog := targetLog, maxWeight, nbBitsBaseline := stats.tableLog + 1
    rankVal := fun consumed weight =>
      if consumed = 0 ∨ minBits ≤ consumed ∧ consumed ≤ targetLog - minBits then row weight >>> consumed else 0
    symbolsOf := fun weight => (stats.huffWeight.zipIdx.filter (·.1 = weight)).map (·.2) }
  let entries ← fillDtableX2 plan maxWeight 1 (List.replicate (2 ^ targetLog) default)
  .ok ({ tableLog := targetLog, entries }, stats.size)

/-! ## Double-symbol decoding -/

/-- `decode_symbol_x2`: the one or two bytes of an entry. The garbage byte a one-symbol entry also
writes is overwritten by the next entry. -/
def decodeSymbolX2 (t : DTableX2) (s : StreamState) : StreamState :=
  let entry := t.entries.getD (s.2.lookBitsFast t.tableLog) default
  (entry.sequence.reverse ++ s.1, s.2.skipBits entry.nbBits)

/-- `decode_last_symbol_x2`: the first byte of an entry; the reader is pinned at the container's end. -/
def decodeLastSymbolX2 (t : DTableX2) (s : StreamState) : StreamState :=
  let entry := t.entries.getD (s.2.lookBitsFast t.tableLog) default
  let bitD :=
    if entry.sequence.length = 1 then s.2.skipBits entry.nbBits
    else if s.2.bitsConsumed < containerBits then
      { s.2 with bitsConsumed := min (s.2.bitsConsumed + entry.nbBits) containerBits }
    else s.2
  (entry.sequence.take 1 ++ s.1, bitD)

/-- `n` entries with no reload between them. -/
def decodeSymbolsX2 (t : DTableX2) : Nat → StreamState → StreamState
  | 0, s => s
  | n + 1, s => decodeSymbolsX2 t n (decodeSymbolX2 t s)

/-- A reloading loop of `decode_stream_x2`: `n` entries a round while `width` bytes are left. -/
def decodeGroupsX2 (t : DTableX2) (size n width : Nat) : Nat → StreamState → StreamState
  | 0, s => s
  | fuel + 1, (out, bitD) =>
    let (status, bitD) := bitD.reload
    if status = .unfinished ∧ out.length + width ≤ size then
      decodeGroupsX2 t size n width fuel (decodeSymbolsX2 t n (out, bitD))
    else (out, bitD)

/-- The loop with no reload, while two bytes are left. -/
def decodePairsX2 (t : DTableX2) (size : Nat) : Nat → StreamState → StreamState
  | 0, s => s
  | fuel + 1, s =>
    if s.1.length + 2 ≤ size then decodePairsX2 t size fuel (decodeSymbolX2 t s) else s

/-- A whole stream, double symbols as long as there is room for two. -/
def decodeStreamX2 (t : DTableX2) (size : Nat) (out : Bytes) (bitD : BitDStream) : Bytes × BitDStream :=
  let s : StreamState :=
    if size - out.length ≥ containerBytes then
      if t.tableLog ≤ decoderFastTablelog then decodeGroupsX2 t size 5 10 (size + 1) (out, bitD)
      else decodeGroupsX2 t size 4 containerBytes (size + 1) (out, bitD)
    else (out, bitD.reload.2)
  let s :=
    if size - s.1.length ≥ 2 then
      decodePairsX2 t size (size + 1) (decodeGroupsX2 t size 1 2 (size + 1) s)
    else s
  if s.1.length < size then decodeLastSymbolX2 t s else s

/-- One stream, double symbols. -/
def decompress1X2 (size : Nat) (src : Bytes) (t : DTableX2) : Result Bytes := do
  let bitD ← BitDStream.new src
  let (out, bitD) := decodeStreamX2 t size [] bitD
  if out.length ≠ size ∨ ¬ bitD.endOfStream then
    .error (.corruption "Huff0 stream did not terminate cleanly")
  else .ok out.reverse

/-- Four streams, double symbols. -/
def decompress4X2 (size : Nat) (src : Bytes) (t : DTableX2) : Result Bytes := do
  let s ← openStreams size src
  let more := fun (s1 s2 s3 s4 : StreamState) =>
    decide (s1.1.length + containerBytes ≤ s.segment ∧ s2.1.length + containerBytes ≤ s.segment ∧
      s3.1.length + containerBytes ≤ s.segment ∧ s4.1.length + containerBytes ≤ s.last)
  closeStreams (decodeStreamX2 t) s
    (fourStreamLoop (decodeSymbolsX2 t 4) more (size + 1) true
      ([], s.d1) ([], s.d2) ([], s.d3) ([], s.d4))

/-! ## Either table -/

/-- `ALGO_TIME`: table build time and decode time per 256 bytes of the single- and double-symbol
decoders, by compression ratio in sixteenths. -/
def algoTime : List ((Nat × Nat) × (Nat × Nat)) :=
  [((0, 0), (1, 1)), ((0, 0), (1, 1)), ((150, 216), (381, 119)), ((170, 205), (514, 112)),
   ((177, 199), (539, 110)), ((197, 194), (644, 107)), ((221, 192), (735, 107)), ((256, 189), (881, 106)),
   ((359, 188), (1167, 109)), ((582, 187), (1570, 114)), ((688, 187), (1712, 122)), ((825, 186), (1965, 136)),
   ((976, 185), (2131, 150)), ((1180, 186), (2070, 175)), ((1377, 185), (1731, 202)), ((1412, 185), (1695, 202))]

/-- Whether the double decoder is expected to be faster, by measured times. -/
def prefersDoubleSymbolDecoder (regeneratedSize compressedSize : Nat) : Bool :=
  if regeneratedSize = 0 then false else
  let quantized :=
    if compressedSize ≥ regeneratedSize then 15 else compressedSize * 16 / regeneratedSize
  let per256 := regeneratedSize / 256
  let time := algoTime.getD quantized ((0, 0), (0, 0))
  let single := time.1.1 + time.1.2 * per256
  let double := time.2.1 + time.2.2 * per256
  double + double / 32 < single

/-- `HuffmanDTable`: the table of either decoder. -/
inductive HuffmanDTable where
  | single (table : DTableX1)
  | double (table : DTableX2)
deriving DecidableEq, Repr

/-- One stream, by the decoder of the table. -/
def decompress1X (size : Nat) (src : Bytes) : HuffmanDTable → Result Bytes
  | .single t => decompress1X1 size src t
  | .double t => decompress1X2 size src t

/-- Four streams, by the decoder of the table. -/
def decompress4X (size : Nat) (src : Bytes) : HuffmanDTable → Result Bytes
  | .single t => decompress4X1 size src t
  | .double t => decompress4X2 size src t

end Huff0

end Zstandard
