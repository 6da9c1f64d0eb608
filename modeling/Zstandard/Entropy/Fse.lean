/-
FSE decoding: the normalized-count header, the symbol spread, the decode tables (plain and with the
sequence baselines embedded) and the two-state interleaved decoder of the Huffman weights.

The loops of the source are recursions on fuel, each with the bound that makes the source's loop
stop; arrays are lists indexed by `getD` and `set`.
-/
import Zstandard.Entropy.Bitstream

namespace Zstandard

namespace Fse

def tablelogMax : Nat := 9
def symbolvalueMax : Nat := 255
def minTablelog : Nat := 5

/-! ## The normalized-count header -/

/-- The locals of `read_ncount`. -/
structure NcountReader where
  ip : Nat
  bitStream : Nat
  bitCount : Nat
  remaining : Int
  threshold : Nat
  nbBits : Nat
  charnum : Nat
  previous0 : Bool
  normalizedCounter : List Int

/-- What `read_ncount` leaves in its output parameters, with the size it returns. -/
structure Ncount where
  normalizedCounter : List Int
  maxSymbolValue : Nat
  tableLog : Nat
  size : Nat

/-- Whether four bytes are left at the next position. -/
def canReloadU32 (srcLen ip bitCount : Nat) : Bool := ip + bitCount / 8 + 4 ≤ srcLen

/-- `u32::from_le_bytes(src[ip..ip + 4])`. -/
def readU32At (src : Bytes) (ip : Nat) : Nat := readU32Le (src.drop ip)

/-- The `0xFFFF` runs: 24 absent symbols for every 16 set bits. -/
def skipLongZeroRuns (src : Bytes) : Nat → Nat → NcountReader → Nat × NcountReader
  | 0, n0, r => (n0, r)
  | fuel + 1, n0, r =>
    if r.bitStream % 2 ^ 16 = 0xFFFF then
      if r.ip + 6 ≤ src.length then
        skipLongZeroRuns src fuel (n0 + 24)
          { r with ip := r.ip + 2, bitStream := readU32At src (r.ip + 2) >>> (r.bitCount % 32) }
      else
        skipLongZeroRuns src fuel (n0 + 24)
          { r with bitStream := r.bitStream >>> 16, bitCount := r.bitCount + 16 }
    else (n0, r)

/-- The two-bit repeat flags: three more absent symbols for every set pair. -/
def skipShortZeroRuns : Nat → Nat → NcountReader → Nat × NcountReader
  | 0, n0, r => (n0, r)
  | fuel + 1, n0, r =>
    if r.bitStream % 4 = 3 then
      skipShortZeroRuns fuel (n0 + 3) { r with bitStream := r.bitStream >>> 2, bitCount := r.bitCount + 2 }
    else (n0, r)

/-- The run of absent symbols that follows a zero count. -/
def readZeroRun (src : Bytes) (maxSymbolIndex : Nat) (r : NcountReader) : Result NcountReader :=
  let (n0, r) := skipLongZeroRuns src (src.length + 4) r.charnum r
  let (n0, r) := skipShortZeroRuns 32 n0 r
  let n0 := n0 + r.bitStream % 4
  let r := { r with bitCount := r.bitCount + 2 }
  if n0 > maxSymbolIndex then .error .maxSymbolValueTooSmall else
  let r := { r with charnum := max r.charnum n0 }
  if canReloadU32 src.length r.ip r.bitCount then
    let ip := r.ip + r.bitCount / 8
    .ok { r with ip, bitCount := r.bitCount % 8, bitStream := readU32At src ip >>> (r.bitCount % 8) }
  else .ok { r with bitStream := r.bitStream >>> 2 }

/-- The count at the head of the stream, plus one, and its width. -/
def readCount (r : NcountReader) : Int × Nat :=
  let max : Int := (2 * r.threshold - 1 : Int) - r.remaining
  let low : Int := (r.bitStream % r.threshold : Nat)
  if low < max then (low, r.nbBits - 1)
  else
    let count : Int := (r.bitStream % (2 * r.threshold) : Nat)
    (if count ≥ r.threshold then count - max else count, r.nbBits)

/-- Halve the threshold until it is at most what remains. -/
def lowerThreshold : Nat → NcountReader → NcountReader
  | 0, r => r
  | fuel + 1, r =>
    if r.remaining < r.threshold then
      lowerThreshold fuel { r with nbBits := r.nbBits - 1, threshold := r.threshold / 2 }
    else r

/-- One count of the loop of `read_ncount`. -/
def readSymbolCount (src : Bytes) (r : NcountReader) : NcountReader :=
  let (count, width) := readCount r
  let count := count - 1
  let r := { r with
    bitCount := r.bitCount + width
    remaining := r.remaining - |count|
    normalizedCounter := r.normalizedCounter.set r.charnum count
    charnum := r.charnum + 1
    previous0 := count = 0 }
  let r := lowerThreshold 32 r
  let r :=
    if canReloadU32 src.length r.ip r.bitCount then
      { r with ip := r.ip + r.bitCount / 8, bitCount := r.bitCount % 8 }
    else { r with bitCount := r.bitCount - 8 * (src.length - 4 - r.ip), ip := src.length - 4 }
  { r with bitStream := readU32At src r.ip >>> (r.bitCount % 32) }

/-- The loop over the counts of a description. -/
def readCounts (src : Bytes) (maxSymbolIndex : Nat) : Nat → NcountReader → Result NcountReader
  | 0, r => .ok r
  | fuel + 1, r =>
    if r.remaining > 1 ∧ r.charnum ≤ maxSymbolIndex then do
      let r ← (if r.previous0 then readZeroRun src maxSymbolIndex r else .ok r)
      readCounts src maxSymbolIndex fuel (readSymbolCount src r)
    else .ok r

/-- `read_ncount` on at least four bytes. -/
def readNcountPadded (src : Bytes) (counterLen maxSymbolIndex maxTableLog : Nat) : Result Ncount := do
  let bitStream := readU32At src 0
  let tableLog := bitStream % 16 + minTablelog
  if tableLog > maxTableLog then .error .tableLogTooLarge else
  let r ← readCounts src maxSymbolIndex (maxSymbolIndex + 1) {
    ip := 0, bitStream := bitStream >>> 4, bitCount := 4, remaining := 2 ^ tableLog + 1
    threshold := 2 ^ tableLog, nbBits := tableLog + 1, charnum := 0, previous0 := false
    normalizedCounter := List.replicate counterLen 0 }
  if r.remaining ≠ 1 ∨ r.bitCount > 32 then .error (.corruption "invalid FSE ncount") else
  .ok { normalizedCounter := r.normalizedCounter, maxSymbolValue := r.charnum - 1, tableLog
        size := r.ip + (r.bitCount + 7) / 8 }

/-- `read_ncount` into a zeroed counter array of `counterLen` entries. A short input is read from a
zero-padded copy. -/
def readNcount (src : Bytes) (counterLen maxSymbolValue maxTableLog : Nat) : Result Ncount :=
  if maxSymbolValue > symbolvalueMax ∨ maxSymbolValue ≥ counterLen then .error .maxSymbolValueTooLarge
  else if maxTableLog > tablelogMax then .error .tableLogTooLarge
  else if src.length < 4 then do
    let n ← readNcountPadded (src ++ List.replicate (4 - src.length) 0) counterLen maxSymbolValue maxTableLog
    if n.size > src.length then .error (.corruption "truncated FSE ncount") else .ok n
  else readNcountPadded src counterLen maxSymbolValue maxTableLog

theorem lowerThreshold_charnum : ∀ (fuel : Nat) (r : NcountReader), (lowerThreshold fuel r).charnum = r.charnum
  | 0, _ => rfl
  | fuel + 1, r => by
    unfold lowerThreshold
    split
    · rw [lowerThreshold_charnum fuel]
    · rfl

theorem readSymbolCount_charnum (src : Bytes) (r : NcountReader) :
    (readSymbolCount src r).charnum = r.charnum + 1 := by
  unfold readSymbolCount
  simp only
  split <;> simp only [lowerThreshold_charnum]

theorem skipLongZeroRuns_charnum (src : Bytes) :
    ∀ (fuel n0 : Nat) (r : NcountReader), (skipLongZeroRuns src fuel n0 r).2.charnum = r.charnum
  | 0, _, _ => rfl
  | fuel + 1, n0, r => by
    unfold skipLongZeroRuns
    split
    · split <;> rw [skipLongZeroRuns_charnum src fuel]
    · rfl

theorem skipShortZeroRuns_charnum :
    ∀ (fuel n0 : Nat) (r : NcountReader), (skipShortZeroRuns fuel n0 r).2.charnum = r.charnum
  | 0, _, _ => rfl
  | fuel + 1, n0, r => by
    unfold skipShortZeroRuns
    split
    · rw [skipShortZeroRuns_charnum fuel]
    · rfl

theorem readZeroRun_charnum {src : Bytes} {maxSymbolIndex : Nat} {r r' : NcountReader}
    (hr : r.charnum ≤ maxSymbolIndex) (h : readZeroRun src maxSymbolIndex r = .ok r') :
    r'.charnum ≤ maxSymbolIndex := by
  unfold readZeroRun at h
  simp only [skipShortZeroRuns_charnum, skipLongZeroRuns_charnum] at h
  split at h
  · cases h
  · split at h <;> cases h <;> exact max_le hr (by omega)

/-- The counts never leave the alphabet. -/
theorem readCounts_charnum {src : Bytes} {maxSymbolIndex : Nat} :
    ∀ (fuel : Nat) {r r' : NcountReader}, r.charnum ≤ maxSymbolIndex + 1 →
      readCounts src maxSymbolIndex fuel r = .ok r' → r'.charnum ≤ maxSymbolIndex + 1
  | 0, r, r', hr, h => by cases h; exact hr
  | fuel + 1, r, r', hr, h => by
    unfold readCounts at h
    split at h
    · rename_i hc
      obtain ⟨r1, h1, h2⟩ := bind_ok h
      refine readCounts_charnum fuel ?_ h2
      have : r1.charnum ≤ maxSymbolIndex := by
        split at h1
        · exact readZeroRun_charnum hc.2 h1
        · cases h1; exact hc.2
      rw [readSymbolCount_charnum]; omega
    · cases h; exact hr

/-- A header that is read names no symbol beyond the alphabet's last. -/
theorem readNcount_maxSymbolValue {src : Bytes} {counterLen maxSymbolValue maxTableLog : Nat} {n : Ncount}
    (h : readNcount src counterLen maxSymbolValue maxTableLog = .ok n) : n.maxSymbolValue ≤ maxSymbolValue := by
  have hpad : ∀ {src : Bytes} {n : Ncount}, readNcountPadded src counterLen maxSymbolValue maxTableLog = .ok n →
      n.maxSymbolValue ≤ maxSymbolValue := by
    intro src n h
    unfold readNcountPadded at h
    simp only at h
    split at h
    · cases h
    obtain ⟨r, hr, h⟩ := bind_ok h
    have := readCounts_charnum _ (Nat.zero_le _) hr
    split at h
    · cases h
    · cases h; simp only; omega
  unfold readNcount at h
  split at h
  · cases h
  split at h
  · cases h
  split at h
  · obtain ⟨n', h1, h2⟩ := bind_ok h
    split at h2
    · cases h2
    · cases h2; exact hpad h1
  · exact hpad h

/-! ## Decode tables -/

/-- A state: its symbol, and the bits that lead to the next. -/
structure DecodeEntry where
  newState : Nat
  symbol : Nat
  nbBits : Nat
deriving DecidableEq, Repr

instance : Inhabited DecodeEntry := ⟨⟨0, 0, 0⟩⟩

/-- `DTable`. `fastMode` says that every state reads a bit. -/
structure DTable where
  tableLog : Nat
  fastMode : Bool
  entries : List DecodeEntry
deriving DecidableEq, Repr

/-- A state of a sequence table, with the baseline and the extra bits of its code. -/
structure SequenceDecodeEntry where
  newState : Nat
  nbBits : Nat
  nbAdditionalBits : Nat
  baseline : Nat
deriving DecidableEq, Repr

instance : Inhabited SequenceDecodeEntry := ⟨⟨0, 0, 0, 0⟩⟩

/-- `SequenceDTable`. -/
structure SequenceDTable where
  tableLog : Nat
  entries : List SequenceDecodeEntry
deriving DecidableEq, Repr

/-- `table_step`: odd, so the steps reach every slot. -/
def tableStep (tableSize : Nat) : Nat := tableSize / 2 + tableSize / 8 + 3

/-- The symbols placed so far, the next state of each symbol and the last free slot. -/
structure Spread where
  tableSymbol : List Nat
  symbolNext : List Nat
  highThreshold : Nat

/-- The first pass: symbols of probability "less than one" take the slots from the top down. -/
def placeLowProbability (s : Spread) (symbol : Nat) (count : Int) : Spread :=
  if count = -1 then
    { tableSymbol := s.tableSymbol.set s.highThreshold symbol, symbolNext := s.symbolNext.set symbol 1
      highThreshold := s.highThreshold - 1 }
  else { s with symbolNext := s.symbolNext.set symbol count.toNat }

/-- The next slot of the spread at or below `highThreshold`. -/
def advancePosition (tableSize highThreshold : Nat) : Nat → Nat → Nat
  | 0, position => position
  | fuel + 1, position =>
    let position := (position + tableStep tableSize) % tableSize
    if position > highThreshold then advancePosition tableSize highThreshold fuel position else position

/-- The second pass, for one symbol: `count` slots, a step apart. -/
def placeSymbol (tableSize highThreshold symbol : Nat) : Nat → List Nat × Nat → List Nat × Nat
  | 0, acc => acc
  | n + 1, (tableSymbol, position) =>
    placeSymbol tableSize highThreshold symbol n
      (tableSymbol.set position symbol, advancePosition tableSize highThreshold tableSize position)

/-- Both passes over the counts: the symbol of every slot and the first state of every symbol. -/
def spreadSymbols (normalizedCounter : List Int) (maxSymbolIndex tableLog : Nat) :
    Result (List Nat × List Nat) :=
  let tableSize := 2 ^ tableLog
  let counts := (normalizedCounter.take (maxSymbolIndex + 1)).zipIdx
  let spread := counts.foldl (fun s c => placeLowProbability s c.2 c.1)
    { tableSymbol := List.replicate tableSize 0, symbolNext := List.replicate (symbolvalueMax + 1) 0
      highThreshold := tableSize - 1 }
  let (tableSymbol, position) :=
    counts.foldl (fun acc c => placeSymbol tableSize spread.highThreshold c.2 c.1.toNat acc)
      (spread.tableSymbol, 0)
  if position ≠ 0 then .error .generic else .ok (tableSymbol, spread.symbolNext)

/-- The state transitions of the slots in order: each occurrence of a symbol takes its next state. -/
def stateEntries (tableLog : Nat) : List Nat → List Nat → List DecodeEntry
  | [], _ => []
  | symbol :: rest, symbolNext =>
    let nextState := symbolNext.getD symbol 0
    let nbBits := tableLog - highbit32 nextState
    { newState := (nextState <<< nbBits) - 2 ^ tableLog, symbol, nbBits } ::
      stateEntries tableLog rest (symbolNext.set symbol (nextState + 1))

/-- The argument checks that every table builder makes. -/
def checkTableArguments (normalizedCounter : List Int) (maxSymbolValue tableLog : Nat) : Result Unit :=
  if maxSymbolValue > symbolvalueMax ∨ maxSymbolValue ≥ normalizedCounter.length then
    .error .maxSymbolValueTooLarge
  else if tableLog = 0 then .error (.corruption "FSE table log must be non-zero")
  else if tableLog > tablelogMax then .error .tableLogTooLarge
  else .ok ()

/-- The decode entries that every table builder computes from the counts. -/
def buildEntries (normalizedCounter : List Int) (maxSymbolValue tableLog : Nat) :
    Result (List DecodeEntry) := do
  checkTableArguments normalizedCounter maxSymbolValue tableLog
  let (tableSymbol, symbolNext) ← spreadSymbols normalizedCounter maxSymbolValue tableLog
  .ok (stateEntries tableLog tableSymbol symbolNext)

theorem mem_placeSymbol {tableSize highThreshold symbol bound : Nat} (hs : symbol ≤ bound) :
    ∀ (n : Nat) (acc : List Nat × Nat), (∀ s ∈ acc.1, s ≤ bound) →
      ∀ s ∈ (placeSymbol tableSize highThreshold symbol n acc).1, s ≤ bound
  | 0, _, h => h
  | n + 1, (tableSymbol, position), h => by
    unfold placeSymbol
    refine mem_placeSymbol hs n _ fun s hm => ?_
    rcases List.mem_or_eq_of_mem_set hm with hm | rfl
    · exact h s hm
    · exact hs

/-- Every slot of the spread holds a symbol of the alphabet. -/
theorem spreadSymbols_le {normalizedCounter : List Int} {maxSymbolIndex tableLog : Nat}
    {tableSymbol symbolNext : List Nat}
    (h : spreadSymbols normalizedCounter maxSymbolIndex tableLog = .ok (tableSymbol, symbolNext)) :
    ∀ s ∈ tableSymbol, s ≤ maxSymbolIndex := by
  unfold spreadSymbols at h
  simp only at h
  generalize hc : (normalizedCounter.take (maxSymbolIndex + 1)).zipIdx = counts at h
  have hidx : ∀ c ∈ counts, c.2 ≤ maxSymbolIndex := by
    intro c hm
    rw [← hc] at hm
    have := List.snd_lt_of_mem_zipIdx hm
    simp only [List.length_take] at this
    omega
  have h1 : ∀ s ∈ (counts.foldl (fun s c => placeLowProbability s c.2 c.1)
      { tableSymbol := List.replicate (2 ^ tableLog) 0, symbolNext := List.replicate (symbolvalueMax + 1) 0
        highThreshold := 2 ^ tableLog - 1 }).tableSymbol, s ≤ maxSymbolIndex := by
    refine List.foldlRecOn counts _ (motive := fun sp : Spread => ∀ s ∈ sp.tableSymbol, s ≤ maxSymbolIndex)
      (fun s hs => by rw [List.eq_of_mem_replicate hs]; omega) fun sp hsp c hc s hs => ?_
    unfold placeLowProbability at hs
    split at hs
    · rcases List.mem_or_eq_of_mem_set hs with hs | rfl
      · exact hsp s hs
      · exact hidx c hc
    · exact hsp s hs
  split at h
  · cases h
  · cases h
    exact List.foldlRecOn counts _ (motive := fun acc : List Nat × Nat => ∀ s ∈ acc.1, s ≤ maxSymbolIndex) h1
      fun acc hacc c hc => mem_placeSymbol (hidx c hc) _ _ hacc

theorem stateEntries_symbol (tableLog : Nat) :
    ∀ (tableSymbol symbolNext : List Nat), (stateEntries tableLog tableSymbol symbolNext).map (·.symbol) = tableSymbol
  | [], _ => rfl
  | symbol :: rest, symbolNext => by
    unfold stateEntries
    rw [List.map_cons, stateEntries_symbol tableLog rest]

theorem buildEntries_symbol_le {normalizedCounter : List Int} {maxSymbolValue tableLog : Nat}
    {entries : List DecodeEntry} (h : buildEntries normalizedCounter maxSymbolValue tableLog = .ok entries) :
    ∀ e ∈ entries, e.symbol ≤ maxSymbolValue := by
  unfold buildEntries at h
  obtain ⟨_, _, h⟩ := bind_ok h
  obtain ⟨⟨tableSymbol, symbolNext⟩, hs, h⟩ := bind_ok h
  cases h
  intro e he
  refine spreadSymbols_le hs _ ?_
  rw [← stateEntries_symbol tableLog tableSymbol symbolNext]
  exact List.mem_map_of_mem he

/-- `build_dtable`. -/
def buildDtable (normalizedCounter : List Int) (maxSymbolValue tableLog : Nat) : Result DTable := do
  let entries ← buildEntries normalizedCounter maxSymbolValue tableLog
  let fastMode := (normalizedCounter.take (maxSymbolValue + 1)).all (· < 2 ^ (tableLog - 1))
  .ok { tableLog, fastMode, entries }

/-- One state, which reads nothing. -/
def buildRleDtable (symbol : Nat) : DTable :=
  { tableLog := 0, fastMode := false, entries := [{ newState := 0, symbol, nbBits := 0 }] }

/-- A decode entry with the baseline and extra bits of its symbol embedded. -/
def DecodeEntry.withBaseline (baselines extraBits : List Nat) (e : DecodeEntry) : SequenceDecodeEntry :=
  { newState := e.newState, nbBits := e.nbBits, nbAdditionalBits := extraBits.getD e.symbol 0
    baseline := baselines.getD e.symbol 0 }

/-- A decode entry of an offset table: the code is its own number of extra bits. -/
def DecodeEntry.asOffset (e : DecodeEntry) : SequenceDecodeEntry :=
  { newState := e.newState, nbBits := e.nbBits, nbAdditionalBits := e.symbol, baseline := 0 }

/-- A sequence table from a table of codes. -/
def buildSequenceDtableFrom (dt : DTable) (baselines extraBits : List Nat) : SequenceDTable :=
  { tableLog := dt.tableLog, entries := dt.entries.map (·.withBaseline baselines extraBits) }

/-- The same for offsets, whose baselines are powers of two. -/
def buildOffsetSequenceDtableFrom (dt : DTable) : SequenceDTable :=
  { tableLog := dt.tableLog, entries := dt.entries.map DecodeEntry.asOffset }

/-- A sequence table without the table of codes. -/
def buildSequenceDtableDirect (normalizedCounter : List Int) (maxSymbolValue tableLog : Nat)
    (baselines extraBits : List Nat) : Result SequenceDTable := do
  let entries ← buildEntries normalizedCounter maxSymbolValue tableLog
  .ok { tableLog, entries := entries.map (·.withBaseline baselines extraBits) }

/-- The same for offsets. -/
def buildOffsetSequenceDtableDirect (normalizedCounter : List Int) (maxSymbolValue tableLog : Nat) :
    Result SequenceDTable := do
  let entries ← buildEntries normalizedCounter maxSymbolValue tableLog
  .ok { tableLog, entries := entries.map DecodeEntry.asOffset }

/-- A sequence table of one code. -/
def buildRleSequenceDtable (symbol : Nat) (baselines extraBits : List Nat) : SequenceDTable :=
  buildSequenceDtableFrom (buildRleDtable symbol) baselines extraBits

/-- An offset table of one code. -/
def buildRleOffsetSequenceDtable (symbol : Nat) : SequenceDTable :=
  buildOffsetSequenceDtableFrom (buildRleDtable symbol)

/-! ## The interleaved decoder -/

/-- `init_dstate`: the first state, and a reload. -/
def initDstate (bitD : BitDStream) (tableLog : Nat) : Nat × BitDStream :=
  let (state, bitD) := bitD.readBits tableLog
  (state, bitD.reload.2)

/-- `decode_symbol` and `decode_symbol_fast`: the symbol of a state and the next state. -/
def decodeSymbol (dt : DTable) (fast : Bool) (state : Nat) (bitD : BitDStream) : Nat × Nat × BitDStream :=
  let info := dt.entries.getD state default
  let (lowBits, bitD) := if fast then bitD.readBitsFast info.nbBits else bitD.readBits info.nbBits
  (info.symbol, info.newState + lowBits, bitD)

/-- The four-symbol loop. `out` is what has been written, newest first; `room` is `olimit`. -/
def decodeFours (dt : DTable) (fast : Bool) (olimit : Nat) :
    Nat → List Nat → Nat → Nat → BitDStream → List Nat × Nat × Nat × BitDStream
  | 0, out, state1, state2, bitD => (out, state1, state2, bitD)
  | fuel + 1, out, state1, state2, bitD =>
    let (status, bitD) := bitD.reload
    if status = .unfinished ∧ out.length < olimit then
      let (a, state1, bitD) := decodeSymbol dt fast state1 bitD
      let (b, state2, bitD) := decodeSymbol dt fast state2 bitD
      let (c, state1, bitD) := decodeSymbol dt fast state1 bitD
      let (d, state2, bitD) := decodeSymbol dt fast state2 bitD
      decodeFours dt fast olimit fuel (d :: c :: b :: a :: out) state1 state2 bitD
    else (out, state1, state2, bitD)

/-- The tail: one symbol a round, the states taking turns, until the stream overflows; then the
other state holds the last symbol. -/
def decodeTail (dt : DTable) (fast : Bool) (dstLen : Nat) :
    Nat → List Nat → Nat → Nat → BitDStream → Result (List Nat)
  | 0, _, _, _, _ => .error .dstSizeTooSmall
  | fuel + 1, out, state, other, bitD =>
    if out.length > dstLen - 2 then .error .dstSizeTooSmall else
    let (a, state, bitD) := decodeSymbol dt fast state bitD
    let (status, bitD) := bitD.reload
    if status = .overflow then
      let (b, _, _) := decodeSymbol dt fast other bitD
      .ok (b :: a :: out)
    else decodeTail dt fast dstLen fuel (a :: out) other state bitD

/-- `decompress_interleaved2` into a destination of `dstLen` entries. -/
def decompressInterleaved2 (dstLen : Nat) (src : Bytes) (dt : DTable) : Result (List Nat) := do
  if dt.tableLog = 0 then
    .error (.corruption "FSE interleaved decode does not support RLE tables") else
  let bitD ← BitDStream.new src
  let (state1, bitD) := initDstate bitD dt.tableLog
  let (state2, bitD) := initDstate bitD dt.tableLog
  let (status, bitD) := bitD.reload
  if status = .overflow then
    .error (.corruption "FSE bitstream is too short to hold both initial states") else
  let (out, state1, state2, bitD) := decodeFours dt dt.fastMode (dstLen - 3) dstLen [] state1 state2 bitD
  let out ← decodeTail dt dt.fastMode dstLen (dstLen + 1) out state1 state2 bitD
  .ok out.reverse

/-- `decompress`: a description, then two interleaved streams of symbols. -/
def decompress (dstLen : Nat) (src : Bytes) (maxSymbolValue maxTableLog : Nat) : Result (List Nat) := do
  let n ← readNcount src (symbolvalueMax + 1) maxSymbolValue maxTableLog
  let dtable ← buildDtable n.normalizedCounter n.maxSymbolValue n.tableLog
  decompressInterleaved2 dstLen (src.drop n.size) dtable

end Fse

end Zstandard
