/-
Reading a Huffman weight description, with every array access spelled out.

The checked reader keeps the arrays of the source and stops at an index out of range, a logarithm of zero, a
difference below zero and a loop that runs out of its bound. On no input does it stop. Three facts carry the
compressed weights: the spread of a distribution meets a free slot in every round of its step, a slot's next
state is never zero and never past twice the table, and no bits lead from a state of the table outside it.
-/
import Zstandard.Entropy.NcountSafe
import Zstandard.Entropy.Answers

namespace Zstandard

/-- A write at an index; no value is a fault. -/
def setChecked {α : Type} (a : List α) (i : Nat) (x : α) : Option (List α) :=
  if i < a.length then some (a.set i x) else none

theorem setChecked_eq {α : Type} {a : List α} {i : Nat} (h : i < a.length) (x : α) :
    setChecked a i x = some (a.set i x) := by
  unfold setChecked
  rw [if_pos h]

/-- A loop whose steps never fault, by what every step keeps. -/
theorem foldlM_eq_some {α β : Type} (step : β → α → β) {checked : β → α → Option β} (keeps : β → Prop) :
    ∀ {l : List α} {b : β}, keeps b →
      (∀ x ∈ l, ∀ b, keeps b → checked b x = some (step b x) ∧ keeps (step b x)) →
        l.foldlM checked b = some (l.foldl step b) ∧ keeps (l.foldl step b)
  | [], _, hb, _ => ⟨rfl, hb⟩
  | x :: l, b, hb, hstep => by
    obtain ⟨heq, hkeep⟩ := hstep x (by simp) b hb
    rw [List.foldlM_cons, heq, List.foldl_cons]
    exact foldlM_eq_some step keeps hkeep fun y hy => hstep y (by simp [hy])

namespace Fse

/-! ## The decode table -/

def placeLowProbabilityChecked (s : Spread) (c : Int × Nat) : Option Spread :=
  if c.1 = -1 then do
    let tableSymbol ← setChecked s.tableSymbol s.highThreshold c.2
    let symbolNext ← setChecked s.symbolNext c.2 1
    some { tableSymbol, symbolNext, highThreshold := s.highThreshold - 1 }
  else do
    let symbolNext ← setChecked s.symbolNext c.2 c.1.toNat
    some { s with symbolNext }

/-- The loop to the next slot, which a whole round of the step must find. -/
def advancePositionChecked (tableSize highThreshold : Nat) : Nat → Nat → Option Nat
  | 0, _ => none
  | fuel + 1, position =>
    let position := (position + tableStep tableSize) % tableSize
    if position > highThreshold then advancePositionChecked tableSize highThreshold fuel position else some position

def placeSymbolChecked (tableSize highThreshold symbol : Nat) : Nat → List Nat × Nat → Option (List Nat × Nat)
  | 0, acc => some acc
  | n + 1, (tableSymbol, position) => do
    let tableSymbol ← setChecked tableSymbol position symbol
    let position ← advancePositionChecked tableSize highThreshold tableSize position
    placeSymbolChecked tableSize highThreshold symbol n (tableSymbol, position)

def spreadSymbolsChecked (normalizedCounter : List Int) (maxSymbolIndex tableLog : Nat) :
    Option (Result (List Nat × List Nat)) := do
  let tableSize := 2 ^ tableLog
  let counts := (normalizedCounter.take (maxSymbolIndex + 1)).zipIdx
  if normalizedCounter.length ≤ maxSymbolIndex then none else
  let spread ← counts.foldlM placeLowProbabilityChecked
    { tableSymbol := List.replicate tableSize 0, symbolNext := List.replicate (symbolvalueMax + 1) 0
      highThreshold := tableSize - 1 }
  let (tableSymbol, position) ←
    counts.foldlM (fun acc c => placeSymbolChecked tableSize spread.highThreshold c.2 c.1.toNat acc)
      (spread.tableSymbol, 0)
  if position ≠ 0 then some (.error .generic) else some (.ok (tableSymbol, spread.symbolNext))

def stateEntriesChecked (tableLog : Nat) : List Nat → List Nat → Option (List DecodeEntry)
  | [], _ => some []
  | symbol :: rest, symbolNext => do
    let nextState ← symbolNext[symbol]?
    if nextState = 0 ∨ tableLog < highbit32 nextState then none else
    let nbBits := tableLog - highbit32 nextState
    if nextState <<< nbBits < 2 ^ tableLog then none else
    let entries ← stateEntriesChecked tableLog rest (symbolNext.set symbol (nextState + 1))
    some ({ newState := (nextState <<< nbBits) - 2 ^ tableLog, symbol, nbBits } :: entries)

def buildDtableChecked (normalizedCounter : List Int) (maxSymbolValue tableLog : Nat) : Option (Result DTable) :=
  match checkTableArguments normalizedCounter maxSymbolValue tableLog with
  | .error e => some (.error e)
  | .ok () => do
    match ← spreadSymbolsChecked normalizedCounter maxSymbolValue tableLog with
    | .error e => some (.error e)
    | .ok (tableSymbol, symbolNext) => do
      let entries ← stateEntriesChecked tableLog tableSymbol symbolNext
      let fastMode := (normalizedCounter.take (maxSymbolValue + 1)).all (· < 2 ^ (tableLog - 1))
      some (.ok { tableLog, fastMode, entries })

theorem placeLowProbabilityChecked_eq {size : Nat} {s : Spread} {c : Int × Nat}
    (hs : s.highThreshold < size ∧ s.tableSymbol.length = size ∧ s.symbolNext.length = symbolvalueMax + 1)
    (hc : c.2 ≤ symbolvalueMax) :
    placeLowProbabilityChecked s c = some (placeLowProbability s c.2 c.1) ∧
      ((placeLowProbability s c.2 c.1).highThreshold < size ∧
      (placeLowProbability s c.2 c.1).tableSymbol.length = size ∧
        (placeLowProbability s c.2 c.1).symbolNext.length = symbolvalueMax + 1) := by
  obtain ⟨hhigh, hsymbols, hnext⟩ := hs
  unfold placeLowProbabilityChecked placeLowProbability
  by_cases hlow : c.1 = -1
  · rw [if_pos hlow, if_pos hlow, setChecked_eq (by omega), setChecked_eq (by omega)]
    refine ⟨rfl, ?_, ?_, ?_⟩
    · simp only
      omega
    · rw [List.length_set, hsymbols]
    · rw [List.length_set, hnext]
  · rw [if_neg hlow, if_neg hlow, setChecked_eq (by omega)]
    refine ⟨rfl, hhigh, hsymbols, ?_⟩
    rw [List.length_set, hnext]

theorem advancePositionChecked_eq {tableLog high : Nat} : ∀ (fuel : Nat) {k : Nat},
    (∃ j, j < fuel ∧ walk (2 ^ tableLog) (k + 1 + j) ≤ high) →
      advancePositionChecked (2 ^ tableLog) high fuel (walk (2 ^ tableLog) k) =
        some (advancePosition (2 ^ tableLog) high fuel (walk (2 ^ tableLog) k))
  | 0, _, ⟨_, hj, _⟩ => absurd hj (Nat.not_lt_zero _)
  | fuel + 1, k, ⟨j, hj, hgood⟩ => by
    unfold advancePositionChecked advancePosition
    simp only
    rw [← walk_succ]
    by_cases hover : walk (2 ^ tableLog) (k + 1) > high
    · rw [if_pos hover, if_pos hover]
      apply advancePositionChecked_eq fuel
      -- the slot that is met is not the one just passed over
      obtain ⟨j, rfl⟩ : ∃ i, j = i + 1 := by
        refine ⟨j - 1, ?_⟩
        have : j ≠ 0 := by
          rintro rfl
          rw [Nat.add_zero] at hgood
          omega
        omega
      refine ⟨j, by omega, ?_⟩
      rwa [show k + 1 + 1 + j = k + 1 + (j + 1) by omega]
    · rw [if_neg hover, if_neg hover]

/-- A round of the step comes past the first slot. -/
theorem walk_home (tableLog k : Nat) : ∃ j, j < 2 ^ tableLog ∧ walk (2 ^ tableLog) (k + 1 + j) = 0 := by
  have hpos : 0 < 2 ^ tableLog := by positivity
  have hlt := Nat.mod_lt (k + 1) hpos
  have hsplit := Nat.div_add_mod (k + 1) (2 ^ tableLog)
  refine ⟨(2 ^ tableLog - (k + 1) % 2 ^ tableLog) % 2 ^ tableLog, Nat.mod_lt _ hpos, ?_⟩
  have hdvd : 2 ^ tableLog ∣ k + 1 + (2 ^ tableLog - (k + 1) % 2 ^ tableLog) % 2 ^ tableLog := by
    rw [Nat.dvd_iff_mod_eq_zero, Nat.add_mod, Nat.mod_mod, ← Nat.add_mod]
    rw [show k + 1 + (2 ^ tableLog - (k + 1) % 2 ^ tableLog) = 2 ^ tableLog * ((k + 1) / 2 ^ tableLog + 1) by
      rw [Nat.mul_add, Nat.mul_one]; omega]
    exact Nat.mul_mod_right _ _
  unfold walk
  exact Nat.mod_eq_zero_of_dvd (Dvd.dvd.mul_right hdvd _)

theorem placeSymbolChecked_eq {tableLog high symbol : Nat} : ∀ (n : Nat) {acc : List Nat × Nat},
    (acc.1.length = 2 ^ tableLog ∧ ∃ k, acc.2 = walk (2 ^ tableLog) k) →
      placeSymbolChecked (2 ^ tableLog) high symbol n acc = some (placeSymbol (2 ^ tableLog) high symbol n acc) ∧
        ((placeSymbol (2 ^ tableLog) high symbol n acc).1.length = 2 ^ tableLog ∧
          ∃ k, (placeSymbol (2 ^ tableLog) high symbol n acc).2 = walk (2 ^ tableLog) k)
  | 0, _, h => ⟨rfl, h⟩
  | n + 1, (tableSymbol, position), ⟨hlen, k, hk⟩ => by
    simp only at hlen hk
    subst hk
    obtain ⟨j, hj, hzero⟩ := walk_home tableLog k
    have hmet : ∃ j, j < 2 ^ tableLog ∧ walk (2 ^ tableLog) (k + 1 + j) ≤ high := ⟨j, hj, by omega⟩
    obtain ⟨i, hi, -, -⟩ := advancePosition_walk (2 ^ tableLog) hmet
    unfold placeSymbolChecked placeSymbol
    rw [setChecked_eq (by rw [hlen]; exact walk_lt k), advancePositionChecked_eq _ hmet]
    apply placeSymbolChecked_eq n
    exact ⟨by rw [List.length_set, hlen], _, hi⟩

theorem spreadSymbolsChecked_eq {normalizedCounter : List Int} {maxSymbolValue : Nat} (tableLog : Nat)
    (hal : maxSymbolValue < normalizedCounter.length) (hmax : maxSymbolValue ≤ symbolvalueMax) :
    spreadSymbolsChecked normalizedCounter maxSymbolValue tableLog =
      some (spreadSymbols normalizedCounter maxSymbolValue tableLog) := by
  have hpos : 0 < 2 ^ tableLog := by positivity
  have hsymbol : ∀ c ∈ (normalizedCounter.take (maxSymbolValue + 1)).zipIdx, c.2 ≤ symbolvalueMax := by
    intro c hc
    have := List.snd_lt_of_mem_zipIdx hc
    rw [List.length_take] at this
    omega
  unfold spreadSymbolsChecked spreadSymbols
  simp only
  rw [if_neg (by omega)]
  generalize (normalizedCounter.take (maxSymbolValue + 1)).zipIdx = counts at hsymbol
  obtain ⟨hfirst, -, hlen, -⟩ := foldlM_eq_some (fun s (c : Int × Nat) => placeLowProbability s c.2 c.1)
    (fun s => s.highThreshold < 2 ^ tableLog ∧ s.tableSymbol.length = 2 ^ tableLog ∧
      s.symbolNext.length = symbolvalueMax + 1)
    (b := { tableSymbol := List.replicate (2 ^ tableLog) 0, symbolNext := List.replicate (symbolvalueMax + 1) 0
            highThreshold := 2 ^ tableLog - 1 })
    ⟨by simp only; omega, by simp, by simp⟩ fun c hc s hs => placeLowProbabilityChecked_eq hs (hsymbol c hc)
  rw [hfirst]
  generalize counts.foldl _ _ = spread at hlen
  obtain ⟨hsecond, -⟩ := foldlM_eq_some
    (fun acc (c : Int × Nat) => placeSymbol (2 ^ tableLog) spread.highThreshold c.2 c.1.toNat acc)
    (fun acc : List Nat × Nat => acc.1.length = 2 ^ tableLog ∧ ∃ k, acc.2 = walk (2 ^ tableLog) k)
    (l := counts) (b := (spread.tableSymbol, 0)) ⟨hlen, 0, by simp [walk]⟩
    fun c _ acc hacc => placeSymbolChecked_eq c.1.toNat hacc
  rw [Option.bind_eq_bind, Option.bind_some, hsecond, Option.bind_eq_bind, Option.bind_some]
  split <;> rfl

/-- The next states of the slots still to come. -/
structure NextStates (tableLog : Nat) (slots symbolNext : List Nat) : Prop where
  within : ∀ s ∈ slots, s < symbolNext.length
  pos : ∀ s ∈ slots, 0 < symbolNext.getD s 0
  room : ∀ s ∈ slots, symbolNext.getD s 0 + slots.count s ≤ 2 ^ (tableLog + 1)

theorem NextStates.step {tableLog symbol : Nat} {rest symbolNext : List Nat}
    (h : NextStates tableLog (symbol :: rest) symbolNext) :
    NextStates tableLog rest (symbolNext.set symbol (symbolNext.getD symbol 0 + 1)) := by
  have hget : ∀ s, (symbolNext.set symbol (symbolNext.getD symbol 0 + 1)).getD s 0 =
      if s = symbol then symbolNext.getD symbol 0 + 1 else symbolNext.getD s 0 := by
    intro s
    have hin := h.within symbol (by simp)
    rw [List.getD_eq_getElem?_getD, List.getElem?_set]
    by_cases hs : symbol = s
    · subst hs
      rw [if_pos rfl, if_pos hin, if_pos rfl, Option.getD_some]
    · rw [if_neg hs, if_neg (Ne.symm hs), ← List.getD_eq_getElem?_getD]
  constructor
  · intro s hs
    rw [List.length_set]
    exact h.within s (List.mem_cons_of_mem _ hs)
  · intro s hs
    have := h.pos s (List.mem_cons_of_mem _ hs)
    rw [hget]
    split <;> omega
  · intro s hs
    have := h.room s (List.mem_cons_of_mem _ hs)
    rw [List.count_cons] at this
    rw [hget]
    by_cases hsym : s = symbol
    · subst hsym
      rw [if_pos (by simp)] at this
      rw [if_pos rfl]
      omega
    · rw [if_neg hsym]
      omega

theorem stateEntriesChecked_eq {tableLog : Nat} : ∀ {slots symbolNext : List Nat},
    NextStates tableLog slots symbolNext →
    stateEntriesChecked tableLog slots symbolNext = some (stateEntries tableLog slots symbolNext)
  | [], _, _ => rfl
  | symbol :: rest, symbolNext, h => by
    have hin := h.within symbol (by simp)
    have hpos := h.pos symbol (by simp)
    have hroom := h.room symbol (by simp)
    rw [List.count_cons_self] at hroom
    have hget : symbolNext[symbol]? = some (symbolNext.getD symbol 0) := by
      rw [List.getD_eq_getElem _ _ hin, List.getElem?_eq_getElem hin]
    have hlog := log2_le_tableLog hpos (show symbolNext.getD symbol 0 < 2 ^ (tableLog + 1) by omega)
    have hfit := (entryOf_room hpos (show symbolNext.getD symbol 0 < 2 ^ (tableLog + 1) by omega)).1
    unfold stateEntriesChecked stateEntries
    rw [hget]
    simp only [Option.bind_eq_bind, Option.bind_some]
    rw [if_neg (by unfold highbit32; omega), if_neg (by rw [Nat.shiftLeft_eq]; unfold highbit32; omega),
      stateEntriesChecked_eq h.step]
    rfl

theorem buildDtableChecked_eq {normalizedCounter : List Int} {maxSymbolValue tableLog : Nat}
    (hn : Normalized normalizedCounter maxSymbolValue tableLog) (hlog : 4 ≤ tableLog)
    (hmax : maxSymbolValue ≤ symbolvalueMax) :
    buildDtableChecked normalizedCounter maxSymbolValue tableLog =
      some (buildDtable normalizedCounter maxSymbolValue tableLog) := by
  unfold buildDtableChecked buildDtable buildEntries
  cases checkTableArguments normalizedCounter maxSymbolValue tableLog with
  | error e => rfl
  | ok _ =>
    obtain ⟨slots, next, hspread, hslots, hcount, hlen, hnext⟩ := spreadSymbols_spec hn hlog hmax
    rw [spreadSymbolsChecked_eq tableLog hn.alphabet hmax, hspread]
    have hstates : NextStates tableLog slots next := by
      have hsymbol := spreadSymbols_le hspread
      constructor
      · intro s hs
        have := hsymbol s hs
        omega
      · intro s hs
        have := List.count_pos_iff.2 hs
        rw [hcount] at this
        rw [hnext s (hsymbol s hs)]
        omega
      · intro s hs
        have hshare := hcount s
        have hle := List.count_le_length (a := s) (l := slots)
        rw [hnext s (hsymbol s hs), ← hshare, pow_succ]
        omega
    simp only [Option.bind_eq_bind, Option.bind_some]
    rw [stateEntriesChecked_eq hstates]
    rfl

/-! ## The interleaved decoder -/

def decodeSymbolChecked (dt : DTable) (fast : Bool) (state : Nat) (bitD : BitDStream) :
    Option (Nat × Nat × BitDStream) :=
  if state < dt.entries.length then some (decodeSymbol dt fast state bitD) else none

def decodeFoursChecked (dt : DTable) (fast : Bool) (dstLen : Nat) :
    Nat → List Nat → Nat → Nat → BitDStream → Option (List Nat × Nat × Nat × BitDStream)
  | 0, _, _, _, _ => none
  | fuel + 1, out, state1, state2, bitD =>
    let (status, bitD) := bitD.reload
    if status = .unfinished ∧ out.length < dstLen - 3 then do
      if dstLen < out.length + 4 then none else
      let (a, state1, bitD) ← decodeSymbolChecked dt fast state1 bitD
      let (b, state2, bitD) ← decodeSymbolChecked dt fast state2 bitD
      let (c, state1, bitD) ← decodeSymbolChecked dt fast state1 bitD
      let (d, state2, bitD) ← decodeSymbolChecked dt fast state2 bitD
      decodeFoursChecked dt fast dstLen fuel (d :: c :: b :: a :: out) state1 state2 bitD
    else some (out, state1, state2, bitD)

def decodeTailChecked (dt : DTable) (fast : Bool) (dstLen : Nat) :
    Nat → List Nat → Nat → Nat → BitDStream → Option (Result (List Nat))
  | 0, _, _, _, _ => none
  | fuel + 1, out, state, other, bitD =>
    if out.length > dstLen - 2 then some (.error .dstSizeTooSmall) else do
    if dstLen ≤ out.length then none else
    let (a, state, bitD) ← decodeSymbolChecked dt fast state bitD
    let (status, bitD) := bitD.reload
    if status = .overflow then do
      if dstLen ≤ out.length + 1 then none else
      let (b, _, _) ← decodeSymbolChecked dt fast other bitD
      some (.ok (b :: a :: out))
    else decodeTailChecked dt fast dstLen fuel (a :: out) other state bitD

def decompressInterleaved2Checked (dstLen : Nat) (src : Bytes) (dt : DTable) : Option (Result (List Nat)) :=
  if dt.tableLog = 0 then
    some (.error (.corruption "FSE interleaved decode does not support RLE tables")) else
  match BitDStream.new src with
  | .error e => some (.error e)
  | .ok bitD => do
    let (state1, bitD) := initDstate bitD dt.tableLog
    let (state2, bitD) := initDstate bitD dt.tableLog
    let (status, bitD) := bitD.reload
    if status = .overflow then
      some (.error (.corruption "FSE bitstream is too short to hold both initial states")) else
    let (out, state1, state2, bitD) ← decodeFoursChecked dt dt.fastMode dstLen dstLen [] state1 state2 bitD
    let out ← decodeTailChecked dt dt.fastMode dstLen (dstLen + 1) out state1 state2 bitD
    some (out.map List.reverse)

/-- `fse::decompress`. The payload is a slice behind the header. -/
def decompressChecked (dstLen : Nat) (src : Bytes) (maxSymbolValue maxTableLog : Nat) : Option (Result (List Nat)) := do
  match ← readNcountChecked src (symbolvalueMax + 1) maxSymbolValue maxTableLog with
  | .error e => some (.error e)
  | .ok n => do
    match ← buildDtableChecked n.normalizedCounter n.maxSymbolValue n.tableLog with
    | .error e => some (.error e)
    | .ok dtable =>
      if src.length < n.size then none else decompressInterleaved2Checked dstLen (src.drop n.size) dtable

/-- A table whose states lead to its own states, whatever bits are read. -/
structure DTable.Closed (dt : DTable) : Prop where
  log : dt.tableLog ≤ tablelogMax
  length : dt.entries.length = 2 ^ dt.tableLog
  within : ∀ e ∈ dt.entries, e.newState + 2 ^ e.nbBits ≤ 2 ^ dt.tableLog
  wide : dt.fastMode = true → ∀ e ∈ dt.entries, 1 ≤ e.nbBits

theorem readBits_lt (d : BitDStream) {n : Nat} (hn : n ≤ 64) : (d.readBits n).1 < 2 ^ n := by
  unfold BitDStream.readBits
  split
  · positivity
  · split
    · exact BitDStream.lookBitsFast_lt d (by omega) hn
    · exact and_bitMask_lt _ n

section
variable {dt : DTable} (hdt : dt.Closed)
include hdt

theorem decodeSymbolChecked_eq {state : Nat} (hstate : state < 2 ^ dt.tableLog) (bitD : BitDStream) :
    ∃ a next bitD', decodeSymbol dt dt.fastMode state bitD = (a, next, bitD') ∧ next < 2 ^ dt.tableLog ∧
      decodeSymbolChecked dt dt.fastMode state bitD = some (a, next, bitD') := by
  have hlog := hdt.log
  have hin : state < dt.entries.length := by rw [hdt.length]; exact hstate
  have hmem : dt.entries.getD state default ∈ dt.entries := by
    rw [List.getD_eq_getElem _ _ hin]
    exact List.getElem_mem hin
  have hwithin := hdt.within _ hmem
  have hbits : (dt.entries.getD state default).nbBits ≤ dt.tableLog := by
    apply (Nat.pow_le_pow_iff_right (show 1 < 2 by norm_num)).1
    omega
  unfold tablelogMax at hlog
  have hnext : (decodeSymbol dt dt.fastMode state bitD).2.1 < 2 ^ dt.tableLog := by
    unfold decodeSymbol
    generalize dt.entries.getD state default = info at *
    simp only
    by_cases hfast : dt.fastMode = true
    · have := BitDStream.lookBitsFast_lt bitD (hdt.wide hfast _ hmem) (show info.nbBits ≤ 64 by omega)
      simp only [if_pos hfast, BitDStream.readBitsFast]
      omega
    · have := readBits_lt bitD (show info.nbBits ≤ 64 by omega)
      simp only [if_neg hfast]
      omega
  unfold decodeSymbolChecked
  rw [if_pos hin]
  generalize decodeSymbol dt dt.fastMode state bitD = r at hnext
  obtain ⟨a, next, bitD'⟩ := r
  exact ⟨a, next, bitD', rfl, hnext, rfl⟩

theorem decodeFoursChecked_eq (dstLen : Nat) : ∀ (fuel : Nat) (out : List Nat) {state1 state2 : Nat}
    (bitD : BitDStream),
    dstLen < out.length + 4 * fuel → out.length ≤ dstLen → state1 < 2 ^ dt.tableLog → state2 < 2 ^ dt.tableLog →
      ∃ out' state1' state2' bitD', decodeFours dt dt.fastMode (dstLen - 3) fuel out state1 state2 bitD =
          (out', state1', state2', bitD') ∧ out'.length ≤ dstLen ∧ state1' < 2 ^ dt.tableLog ∧
          state2' < 2 ^ dt.tableLog ∧ decodeFoursChecked dt dt.fastMode dstLen fuel out state1 state2 bitD =
            some (out', state1', state2', bitD')
  | 0, _, _, _, _, hfuel, hroom, _, _ => absurd hfuel (by omega)
  | fuel + 1, out, state1, state2, bitD, hfuel, hroom, h1, h2 => by
    unfold decodeFours decodeFoursChecked
    generalize bitD.reload = r
    obtain ⟨status, bitD⟩ := r
    simp only
    by_cases hmore : status = .unfinished ∧ out.length < dstLen - 3
    · obtain ⟨a, s1, bitD1, hplain, hs1, hchecked⟩ := decodeSymbolChecked_eq hdt h1 bitD
      rw [if_pos hmore, if_pos hmore, if_neg (by omega), hplain, hchecked]
      obtain ⟨b, s2, bitD2, hplain, hs2, hchecked⟩ := decodeSymbolChecked_eq hdt h2 bitD1
      simp only [Option.bind_eq_bind, Option.bind_some]
      rw [hplain, hchecked]
      obtain ⟨c, s3, bitD3, hplain, hs3, hchecked⟩ := decodeSymbolChecked_eq hdt hs1 bitD2
      simp only [Option.bind_some]
      rw [hplain, hchecked]
      obtain ⟨d, s4, bitD4, hplain, hs4, hchecked⟩ := decodeSymbolChecked_eq hdt hs2 bitD3
      simp only [Option.bind_some]
      rw [hplain, hchecked]
      apply decodeFoursChecked_eq dstLen fuel _ bitD4
      · simp only [List.length_cons]
        omega
      · simp only [List.length_cons]
        omega
      · exact hs3
      · exact hs4
    · rw [if_neg hmore, if_neg hmore]
      exact ⟨_, _, _, _, rfl, hroom, h1, h2, rfl⟩

theorem decodeTailChecked_eq {dstLen : Nat} (hdst : 2 ≤ dstLen) : ∀ (fuel : Nat) {out : List Nat} {state other : Nat}
    (bitD : BitDStream), dstLen < out.length + fuel → out.length ≤ dstLen → state < 2 ^ dt.tableLog →
      other < 2 ^ dt.tableLog → decodeTailChecked dt dt.fastMode dstLen fuel out state other bitD =
        some (decodeTail dt dt.fastMode dstLen fuel out state other bitD)
  | 0, _, _, _, _, hfuel, hroom, _, _ => absurd hfuel (by omega)
  | fuel + 1, out, state, other, bitD, hfuel, hroom, hstate, hother => by
    unfold decodeTail decodeTailChecked
    by_cases hfull : out.length > dstLen - 2
    · rw [if_pos hfull, if_pos hfull]
    · obtain ⟨a, next, bitD1, hplain, hnext, hchecked⟩ := decodeSymbolChecked_eq hdt hstate bitD
      rw [if_neg hfull, if_neg hfull, if_neg (by omega), hplain, hchecked]
      simp only [Option.bind_eq_bind, Option.bind_some]
      generalize bitD1.reload = r
      obtain ⟨status, bitD2⟩ := r
      simp only
      by_cases hover : status = .overflow
      · obtain ⟨b, last, bitD3, hplain, -, hchecked⟩ := decodeSymbolChecked_eq hdt hother bitD2
        rw [if_pos hover, if_pos hover, if_neg (by omega), hplain, hchecked]
        rfl
      · rw [if_neg hover, if_neg hover]
        apply decodeTailChecked_eq hdst fuel bitD2
        · simp only [List.length_cons]
          omega
        · simp only [List.length_cons]
          omega
        · exact hother
        · exact hnext

theorem decompressInterleaved2Checked_eq {dstLen : Nat} (hdst : 2 ≤ dstLen) (src : Bytes) :
    decompressInterleaved2Checked dstLen src dt = some (decompressInterleaved2 dstLen src dt) := by
  have hlog := hdt.log
  unfold tablelogMax at hlog
  unfold decompressInterleaved2Checked decompressInterleaved2
  by_cases hzero : dt.tableLog = 0
  · rw [if_pos hzero, if_pos hzero]
  rw [if_neg hzero, if_neg hzero]
  cases BitDStream.new src with
  | error e => rfl
  | ok bitD =>
    simp only [ok_bind]
    have hinit : ∀ d : BitDStream, (initDstate d dt.tableLog).1 < 2 ^ dt.tableLog := by
      intro d
      exact readBits_lt d (by omega)
    have h1 := hinit bitD
    generalize initDstate bitD dt.tableLog = first at h1
    obtain ⟨state1, bitD1⟩ := first
    simp only at h1 ⊢
    have h2 := hinit bitD1
    generalize initDstate bitD1 dt.tableLog = second at h2
    obtain ⟨state2, bitD2⟩ := second
    simp only at h2 ⊢
    generalize bitD2.reload = r
    obtain ⟨status, bitD3⟩ := r
    simp only
    by_cases hover : status = .overflow
    · rw [if_pos hover, if_pos hover]
    obtain ⟨out, s1, s2, bitD4, hplain, hroom, hs1, hs2, hchecked⟩ := decodeFoursChecked_eq hdt dstLen dstLen
      [] bitD3 (by simp only [List.length_nil]; omega) (by simp) h1 h2
    rw [if_neg hover, if_neg hover, hplain, hchecked]
    simp only [Option.bind_eq_bind, Option.bind_some]
    rw [decodeTailChecked_eq hdt hdst _ _ (by omega) hroom hs1 hs2, Option.bind_some]
    cases decodeTail dt dt.fastMode dstLen (dstLen + 1) out s1 s2 bitD4 <;> rfl

end

/-- The table of an accepted header is closed. -/
theorem buildDtable_closed {normalizedCounter : List Int} {maxSymbolValue tableLog : Nat}
    (hn : Normalized normalizedCounter maxSymbolValue tableLog) (hlog : 4 ≤ tableLog) (hle : tableLog ≤ tablelogMax)
    (hmax : maxSymbolValue ≤ symbolvalueMax) {dt : DTable}
    (h : buildDtable normalizedCounter maxSymbolValue tableLog = .ok dt) : dt.Closed := by
  obtain ⟨slots, ct, entries, -, hentries, hlaid⟩ := buildTables_laidOut hn hlog hle hmax
  obtain ⟨ct', entries', -, hentries', hdual⟩ := buildTables_dual hn hlog hle hmax
  rw [hentries] at hentries'
  cases hentries'
  unfold buildDtable at h
  rw [hentries] at h
  cases h
  constructor
  · exact hle
  · exact hlaid.length.2
  · exact hlaid.transitions.within
  · intro hfast e he
    exact hdual.wide e he (shareOf_fast hn hlog hfast e.symbol)

theorem decompressChecked_eq {dstLen : Nat} (hdst : 2 ≤ dstLen) (src : Bytes) (maxSymbolValue maxTableLog : Nat) :
    decompressChecked dstLen src maxSymbolValue maxTableLog =
      some (decompress dstLen src maxSymbolValue maxTableLog) := by
  obtain ⟨hchecked, hsound⟩ := readNcountChecked_eq src (symbolvalueMax + 1) maxSymbolValue maxTableLog
  unfold decompressChecked decompress
  rw [hchecked]
  cases hread : readNcount src (symbolvalueMax + 1) maxSymbolValue maxTableLog with
  | error e => rfl
  | ok n =>
    obtain ⟨hn, hlog, hle, hlen, -⟩ := readNcount_normalized hread
    have hsize := hsound n hread
    have hfour : 4 ≤ n.tableLog := le_trans (by decide) hlog
    have hmax : n.maxSymbolValue ≤ symbolvalueMax := by
      have := hn.alphabet
      omega
    simp only [Option.bind_eq_bind, Option.bind_some, ok_bind]
    rw [buildDtableChecked_eq hn hfour hmax]
    cases hbuild : buildDtable n.normalizedCounter n.maxSymbolValue n.tableLog with
    | error e => rfl
    | ok dt =>
      have hlogMax : n.tableLog ≤ tablelogMax := by
        unfold buildDtable buildEntries checkTableArguments at hbuild
        by_contra hover
        rw [if_neg (by omega), if_neg (by omega), if_pos (by omega)] at hbuild
        cases hbuild
      simp only [Option.bind_some, ok_bind]
      rw [if_neg (by omega)]
      exact decompressInterleaved2Checked_eq (buildDtable_closed hn hfour hlogMax hmax hbuild) hdst _

end Fse

namespace Huff0

/-! ## The description -/

/-- The nibble loop of a direct description. With an odd number of weights its last round writes one weight more. -/
def unpackWeightsChecked (src : Bytes) (oSize : Nat) : Nat → Nat → List Nat → Option (List Nat)
  | 0, index, huffWeight => if index < oSize then none else some huffWeight
  | fuel + 1, index, huffWeight =>
    if index < oSize then do
      let b ← src[1 + index / 2]?
      let huffWeight ← setChecked huffWeight index (b.toNat / 16)
      let huffWeight ← setChecked huffWeight (index + 1) (b.toNat % 16)
      unpackWeightsChecked src oSize fuel (index + 2) huffWeight
    else some huffWeight

/-- The array of weights, how many of them the description holds, and its size. -/
def readWeightsChecked (src : Bytes) : Option (Result (List Nat × Nat × Nat)) :=
  let huffWeight := List.replicate (symbolvalueMax + 1) 0
  if src.isEmpty then some (.error .srcSizeWrong) else do
  let header ← src[0]?
  let iSize := header.toNat
  if iSize ≥ 128 then
    let oSize := iSize - 127
    let iSize := (oSize + 1) / 2
    if iSize + 1 > src.length ∨ oSize ≥ symbolvalueMax + 1 then some (.error .srcSizeWrong) else do
    let huffWeight ← unpackWeightsChecked src oSize iSize 0 huffWeight
    some (.ok (huffWeight, oSize, iSize + 1))
  else if iSize + 1 > src.length then some (.error .srcSizeWrong)
  else do
    match ← Fse.decompressChecked symbolvalueMax ((src.drop 1).take iSize) tablelogMax maxFseTablelogForHuffHeader with
    | .error e => some (.error e)
    | .ok weights => some (.ok (weights ++ huffWeight.drop weights.length, weights.length, iSize + 1))

/-- The loop over the explicit weights: how many there are of each, and the slots they take. -/
def countRanksChecked : List Nat → List Nat → Nat → Option (Result (List Nat × Nat))
  | [], rankStats, total => some (.ok (rankStats, total))
  | weight :: weights, rankStats, total =>
    if weight ≥ tablelogMax then some (.error (.corruption "invalid Huff0 weight")) else do
    let count ← rankStats[weight]?
    countRanksChecked weights (rankStats.set weight (count + 1)) (total + 2 ^ weight / 2)

/-- `read_stats` over the arrays of the source. -/
def readStatsChecked (src : Bytes) : Option (Result Stats) := do
  match ← readWeightsChecked src with
  | .error e => some (.error e)
  | .ok (huffWeight, oSize, size) => do
    if huffWeight.length < oSize then none else
    match ← countRanksChecked (huffWeight.take oSize) (List.replicate (tablelogMax + 1) 0) 0 with
    | .error e => some (.error e)
    | .ok (rankStats, total) => do
      if total = 0 then some (.error (.corruption "empty Huff0 weight table")) else
      let tableLog := highbit32 total + 1
      if tableLog > tablelogMax then some (.error (.corruption "Huff0 table log too large")) else
      -- the logarithm of the remainder is taken before the remainder is checked
      if 2 ^ tableLog ≤ total then none else
      let rest := 2 ^ tableLog - total
      if 2 ^ highbit32 rest ≠ rest then some (.error (.corruption "non power-of-two Huff0 weight remainder")) else
      let lastWeight := highbit32 rest + 1
      let huffWeight ← setChecked huffWeight oSize lastWeight
      let count ← rankStats[lastWeight]?
      let rankStats := rankStats.set lastWeight (count + 1)
      let ones ← rankStats[1]?
      if ones < 2 ∨ ones % 2 = 1 then some (.error (.corruption "invalid Huff0 rank-1 weight count"))
      else some (.ok { huffWeight := huffWeight.take (oSize + 1), rankStats, nbSymbols := oSize + 1, tableLog, size })

/-- After `done` bytes the array holds their weights; the rest of the loop appends the others. -/
theorem unpackWeightsChecked_eq (header : UInt8) (rest : Bytes) (oSize : Nat) : ∀ (n done : Nat) {a : List Nat},
    done + n = (oSize + 1) / 2 → done + n ≤ rest.length → 2 * (done + n) ≤ a.length →
      ∃ a', unpackWeightsChecked (header :: rest) oSize n (2 * done) a = some a' ∧ a'.length = a.length ∧
        a'.take (2 * (done + n)) = a.take (2 * done) ++ unpackWeights ((rest.drop done).take n)
  | 0, done, a, hn, _, _ => by
    unfold unpackWeightsChecked
    rw [if_neg (by omega)]
    refine ⟨a, rfl, rfl, ?_⟩
    rw [List.take_zero]
    exact (List.append_nil _).symm
  | n + 1, done, a, hn, hrest, ha => by
    have hin : done < rest.length := by omega
    have hbyte : (header :: rest)[1 + 2 * done / 2]? = some rest[done] := by
      rw [show 1 + 2 * done / 2 = done + 1 by omega, List.getElem?_cons_succ, List.getElem?_eq_getElem hin]
    have hlen : ∀ x y, ((a.set (2 * done) x).set (2 * done + 1) y).length = a.length := by
      intro x y
      rw [List.length_set, List.length_set]
    unfold unpackWeightsChecked
    rw [if_pos (by omega), hbyte]
    simp only [Option.bind_eq_bind, Option.bind_some]
    rw [setChecked_eq (by omega), Option.bind_some, setChecked_eq (by rw [List.length_set]; omega), Option.bind_some]
    generalize hx : rest[done].toNat / 16 = x
    generalize hy : rest[done].toNat % 16 = y
    obtain ⟨a', hloop, hlen', htake⟩ := unpackWeightsChecked_eq header rest oSize n
      (done + 1) (a := (a.set (2 * done) x).set (2 * done + 1) y) (by omega) (by omega) (by rw [hlen]; omega)
    rw [show 2 * done + 2 = 2 * (done + 1) by omega]
    refine ⟨a', hloop, hlen'.trans (hlen x y), ?_⟩
    rw [show done + (n + 1) = done + 1 + n by omega, htake, List.drop_eq_getElem_cons hin,
      List.take_succ_cons, unpackWeights, hx, hy]
    have hsplit : ((a.set (2 * done) x).set (2 * done + 1) y).take (2 * (done + 1)) = a.take (2 * done) ++ [x, y] := by
      refine List.ext_getElem? fun i => ?_
      rcases Nat.lt_or_ge i (2 * done) with hi | hi
      · rw [List.getElem?_take_of_lt (by omega), List.getElem?_set_ne (by omega), List.getElem?_set_ne (by omega),
          List.getElem?_append_left (by rw [List.length_take]; omega), List.getElem?_take_of_lt hi]
      · rw [List.getElem?_append_right (by rw [List.length_take]; omega), List.length_take, Nat.min_eq_left (by omega)]
        obtain rfl | rfl | hover : i = 2 * done ∨ i = 2 * done + 1 ∨ 2 * done + 2 ≤ i := by omega
        · rw [List.getElem?_take_of_lt (by omega), List.getElem?_set_ne (by omega),
            List.getElem?_set_self (by omega), Nat.sub_self]
          rfl
        · rw [List.getElem?_take_of_lt (by omega), List.getElem?_set_self (by rw [List.length_set]; omega),
            Nat.add_sub_cancel_left]
          rfl
        · rw [List.getElem?_eq_none (by rw [List.length_take]; omega), List.getElem?_eq_none (by simp; omega)]
    rw [hsplit, List.append_assoc]
    rfl

/-- The checked reader holds the weights at the front of its array. -/
theorem readWeightsChecked_eq (src : Bytes) :
    (∀ e, readWeights src = .error e → readWeightsChecked src = some (.error e)) ∧
      ∀ weights size, readWeights src = .ok (weights, size) →
        ∃ a, readWeightsChecked src = some (.ok (a, weights.length, size)) ∧ a.length = symbolvalueMax + 1 ∧
          a.take weights.length = weights := by
  cases src with
  | nil =>
    constructor
    · intro e h
      cases h
      rfl
    · intro weights size h
      cases h
  | cons header rest =>
    unfold readWeights readWeightsChecked
    rw [if_neg (by simp), List.getElem?_cons_zero]
    simp only [Option.bind_eq_bind, Option.bind_some]
    by_cases hdirect : header.toNat ≥ 128
    · have hheader := header.toNat_lt
      rw [if_pos hdirect, if_pos hdirect]
      by_cases hsize : (header.toNat - 127 + 1) / 2 + 1 > (header :: rest).length ∨
        header.toNat - 127 ≥ symbolvalueMax + 1
      · rw [if_pos hsize, if_pos hsize]
        constructor
        · rintro e ⟨⟩
          rfl
        · rintro weights size ⟨⟩
      · rw [if_neg hsize, if_neg hsize]
        rw [List.length_cons] at hsize
        constructor
        · rintro e ⟨⟩
        · intro weights size h
          simp only [Except.ok.injEq, Prod.mk.injEq] at h
          obtain ⟨rfl, rfl⟩ := h
          obtain ⟨a, hloop, hlen, htake⟩ := unpackWeightsChecked_eq header rest
            (header.toNat - 127) ((header.toNat - 127 + 1) / 2) 0
            (a := List.replicate (symbolvalueMax + 1) 0) (by omega) (by omega)
            (by rw [List.length_replicate]; unfold symbolvalueMax; omega)
          rw [Nat.mul_zero] at hloop
          rw [Nat.mul_zero, List.take_zero, List.nil_append, List.drop_zero, Nat.zero_add] at htake
          have hcount : ((unpackWeights (rest.take ((header.toNat - 127 + 1) / 2))).take (header.toNat - 127)).length =
              header.toNat - 127 := by
            rw [List.length_take, unpackWeights_length, List.length_take]
            omega
          rw [hloop, hcount]
          refine ⟨a, rfl, hlen.trans List.length_replicate, ?_⟩
          rw [← htake, List.take_take, Nat.min_eq_left (by omega)]
    · rw [if_neg hdirect, if_neg hdirect]
      by_cases hsize : header.toNat + 1 > (header :: rest).length
      · rw [if_pos hsize, if_pos hsize]
        constructor
        · rintro e ⟨⟩
          rfl
        · rintro weights size ⟨⟩
      · rw [if_neg hsize, if_neg hsize, Fse.decompressChecked_eq (by decide), List.drop_one, List.tail_cons]
        cases hread : Fse.decompress symbolvalueMax (rest.take header.toNat) tablelogMax
          maxFseTablelogForHuffHeader with
        | error e =>
          constructor
          · rintro e' ⟨⟩
            rfl
          · rintro weights size ⟨⟩
        | ok weights =>
          constructor
          · rintro e ⟨⟩
          · rintro weights size ⟨⟩
            have hlen := Fse.decompress_length hread (by decide)
            refine ⟨_, rfl, ?_, List.take_left⟩
            rw [List.length_append, List.length_drop, List.length_replicate]
            omega

theorem countRanksChecked_eq : ∀ (weights : List Nat) {rankStats : List Nat} (total : Nat),
    rankStats.length = tablelogMax + 1 → countRanksChecked weights rankStats total = some (
      if weights.any (· ≥ tablelogMax) then .error (.corruption "invalid Huff0 weight")
      else .ok ((List.range (tablelogMax + 1)).map fun w => rankStats.getD w 0 + weights.count w,
        total + weightTotal weights))
  | [], rankStats, total, hlen => by
    have hranks : ((List.range (tablelogMax + 1)).map fun w => rankStats.getD w 0 + ([] : List Nat).count w) =
      rankStats := by
      refine List.ext_getElem (by simp [hlen]) fun w hw hw' => ?_
      rw [List.getElem_map, List.getElem_range, List.getD_eq_getElem _ _ hw', List.count_nil, Nat.add_zero]
    rw [hranks]
    rfl
  | weight :: weights, rankStats, total, hlen => by
    unfold countRanksChecked
    by_cases hover : weight ≥ tablelogMax
    · rw [if_pos hover, List.any_cons, decide_eq_true hover, Bool.true_or, if_pos rfl]
    · have hin : weight < rankStats.length := by omega
      rw [if_neg hover, List.getElem?_eq_getElem hin, Option.bind_eq_bind, Option.bind_some,
        countRanksChecked_eq weights _ (by rw [List.length_set, hlen]), List.any_cons,
          decide_eq_false hover, Bool.false_or]
      congr 1
      split
      · rfl
      congr 2
      · refine List.map_congr_left fun w _ => ?_
        rw [List.getD_eq_getElem?_getD, List.getElem?_set, List.count_cons]
        by_cases hw : weight = w
        · subst hw
          rw [if_pos rfl, if_pos hin, Option.getD_some, if_pos (by simp), List.getD_eq_getElem _ _ hin]
          omega
        · rw [if_neg hw, if_neg (by simpa using hw), ← List.getD_eq_getElem?_getD]
          rfl
      · unfold weightTotal
        rw [List.map_cons, List.sum_cons, Nat.add_assoc]

/-- No access of `read_stats` is out of range. -/
theorem readStatsChecked_eq (src : Bytes) : readStatsChecked src = some (readStats src) := by
  obtain ⟨herror, hok⟩ := readWeightsChecked_eq src
  unfold readStatsChecked readStats
  cases hread : readWeights src with
  | error e =>
    rw [herror e hread]
    rfl
  | ok r =>
    obtain ⟨weights, size⟩ := r
    obtain ⟨a, hchecked, hlen, htake⟩ := hok weights size hread
    have hroom := readWeights_length hread
    rw [hchecked]
    simp only [Option.bind_eq_bind, Option.bind_some, ok_bind]
    rw [if_neg (by omega), htake, countRanksChecked_eq weights 0 List.length_replicate]
    by_cases hover : weights.any (· ≥ tablelogMax) = true
    · rw [if_pos hover, if_pos hover]
      rfl
    rw [if_neg hover, if_neg hover]
    simp only [Option.bind_some, Nat.zero_add]
    by_cases hzero : weightTotal weights = 0
    · rw [if_pos hzero, if_pos hzero]
    rw [if_neg hzero, if_neg hzero]
    by_cases hlog : highbit32 (weightTotal weights) + 1 > tablelogMax
    · rw [if_pos hlog, if_pos hlog]
    have hbelow : weightTotal weights < 2 ^ (highbit32 (weightTotal weights) + 1) := Nat.lt_log2_self
    rw [if_neg hlog, if_neg hlog, if_neg (by omega)]
    by_cases hrest : 2 ^ highbit32 (2 ^ (highbit32 (weightTotal weights) + 1) - weightTotal weights) ≠
        2 ^ (highbit32 (weightTotal weights) + 1) - weightTotal weights
    · rw [if_pos hrest, if_pos hrest]
    obtain ⟨hlast, -, -⟩ := weightTotal_complete hzero (not_not.1 hrest)
    rw [if_neg hrest, if_neg hrest, setChecked_eq (by omega), Option.bind_some]
    generalize highbit32 (2 ^ (highbit32 (weightTotal weights) + 1) - weightTotal weights) + 1 = last at hlast
    generalize highbit32 (weightTotal weights) + 1 = log at hlast hlog
    have hcounts : ∀ l : List Nat, ((List.range (tablelogMax + 1)).map fun w =>
        (List.replicate (tablelogMax + 1) 0).getD w 0 + l.count w) =
        (List.range (tablelogMax + 1)).map fun w => l.count w := by
      intro l
      refine List.map_congr_left fun w hw => ?_
      rw [List.getD_replicate _ (List.mem_range.1 hw), Nat.zero_add]
    have hweights : (a.set weights.length last).take (weights.length + 1) = weights ++ [last] := by
      rw [List.set_eq_take_append_cons_drop, if_pos (by omega), htake, List.take_append,
        List.take_of_length_le (by omega), Nat.add_sub_cancel_left, List.take_succ_cons, List.take_zero]
    have hin : last < ((List.range (tablelogMax + 1)).map fun w => weights.count w).length := by
      rw [List.length_map, List.length_range]
      omega
    have hset : ((List.range (tablelogMax + 1)).map fun w => weights.count w).set last (weights.count last + 1) =
        (List.range (tablelogMax + 1)).map fun w => (weights ++ [last]).count w := by
      refine List.ext_getElem? fun w => ?_
      by_cases hw : last = w
      · subst hw
        rw [List.getElem?_set_self hin, List.getElem?_map, List.getElem?_range (by omega), Option.map_some,
          List.count_append, List.count_singleton_self]
      · rw [List.getElem?_set_ne hw, List.getElem?_map, List.getElem?_map]
        rcases Nat.lt_or_ge w (tablelogMax + 1) with hlt | hge
        · rw [List.getElem?_range hlt, Option.map_some, Option.map_some, List.count_append, List.count_cons_of_ne hw,
            List.count_nil, Nat.add_zero]
        · rw [List.getElem?_eq_none (by rw [List.length_range]; exact hge)]
          rfl
    have hone : ((List.range (tablelogMax + 1)).map fun w => (weights ++ [last]).count w)[1]? =
        some ((weights ++ [last]).count 1) := rfl
    rw [hcounts, List.getElem?_map, List.getElem?_range (by omega), Option.map_some, Option.bind_some, hset, hone,
      Option.bind_some, hweights, List.getD_eq_getElem?_getD, hone, Option.getD_some]
    split <;> rfl

end Huff0

end Zstandard
