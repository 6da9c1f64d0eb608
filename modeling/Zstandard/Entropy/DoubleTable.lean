/-
The double-symbol decode table in the arrays of the source, and what a description gives both table builders.

The builder sorts the symbols by weight, writes down where every rank starts, and rescales that for every number of
bits a first symbol may take. Those arrays hold what the plan of the fill says, so the checked fill reads nothing out
of range and computes the fill. A slot then answers what one or two lookups of the single-symbol table answer.
-/
import Zstandard.Entropy.Description

namespace Zstandard

open BitStack PrefixCode

namespace Huff0

/-! ## The arrays -/

/-- The walk down to the greatest weight in use, which must stop before it runs below zero. -/
def maxWeightChecked (rankStats : List Nat) : Nat → Option Nat
  | 0 => do
    let count ← rankStats[0]?
    if count = 0 then none else some 0
  | w + 1 => do
    let count ← rankStats[w + 1]?
    if count = 0 then maxWeightChecked rankStats w else some (w + 1)

/-- The loop that sorts the symbols by weight, the absent ones last. -/
def sortSymbolsChecked : List (Nat × Nat) → List Nat → Nat → List Nat → Option (List Nat)
  | [], _, _, sortedSymbols => some sortedSymbols
  | (weight, symbol) :: rest, cursor, absentCursor, sortedSymbols =>
    if weight = 0 then do
      let sortedSymbols ← setChecked sortedSymbols absentCursor symbol
      sortSymbolsChecked rest cursor (absentCursor + 1) sortedSymbols
    else do
      let slot ← cursor[weight]?
      let sortedSymbols ← setChecked sortedSymbols slot symbol
      sortSymbolsChecked rest (cursor.set weight (slot + 1)) absentCursor sortedSymbols

/-- A row of `rank_val`: the top row, shifted down. -/
def rescaleRow (row : List Nat) (consumed : Nat) : Nat → Nat → List Nat → Option (List Nat)
  | 0, _, a => some a
  | n + 1, weight, a => do
    let start ← row[weight]?
    let a ← setChecked a weight (start >>> consumed)
    rescaleRow row consumed n (weight + 1) a

def rescaleRows (maxWeight : Nat) : Nat → Nat → List (List Nat) → Option (List (List Nat))
  | 0, _, rankVal => some rankVal
  | n + 1, consumed, rankVal => do
    let top ← rankVal[0]?
    let row ← rankVal[consumed]?
    let row ← rescaleRow top consumed maxWeight 1 row
    let rankVal ← setChecked rankVal consumed row
    rescaleRows maxWeight n (consumed + 1) rankVal

/-- What the fill reads. -/
structure X2Arrays where
  tableLog : Nat
  maxWeight : Nat
  nbBitsBaseline : Nat
  sortedSymbols : List Nat
  rankStart : List Nat
  rankVal : List (List Nat)

/-- The symbols of a rank, a slice of the sorted ones. -/
def X2Arrays.symbolsOf (a : X2Arrays) (weight : Nat) : Option (Result (List Nat)) := do
  let start ← a.rankStart[weight]?
  let stop ← a.rankStart[weight + 1]?
  if start ≤ stop ∧ stop ≤ a.sortedSymbols.length then some (.ok ((a.sortedSymbols.drop start).take (stop - start)))
  else some (.error (.corruption "Huff0 X2 rank bounds are inconsistent"))

/-! ## The fill -/

def fillLevel2WeightsChecked (a : X2Arrays) (row : List Nat) (consumedBits start stop : Nat) (base : UInt8) :
    Nat → Nat → List DEltX2 → Option (Result (List DEltX2))
  | 0, _, slots => some (.ok slots)
  | n + 1, weight, slots => do
    let symbols ← a.symbolsOf weight
    if a.nbBitsBaseline < weight then none else
    let at_ ← row[weight]?
    if start + at_ > stop then some (.error (.corruption "Huff0 X2 rank starts past the table")) else
    match symbols with
    | .error e => some (.error e)
    | .ok symbols =>
      match fillDtableX2ForWeight a.tableLog (a.nbBitsBaseline - weight + consumedBits) stop [base] symbols
          (start + at_) slots with
      | .error e => some (.error e)
      | .ok slots => fillLevel2WeightsChecked a row consumedBits start stop base n (weight + 1) slots

def fillDtableX2Level2Checked (a : X2Arrays) (row : List Nat) (consumedBits minWeight start stop : Nat) (base : UInt8)
    (slots : List DEltX2) : Option (Result (List DEltX2)) :=
  let front : Result (List DEltX2) :=
    if minWeight > 1 then
      match row[minWeight]? with
      | none => .error (.corruption "Huff0 X2 weight exceeds the table log")
      | some skip =>
        if start + skip > stop then .error (.corruption "Huff0 X2 single-symbol run overflows")
        else .ok (fillRange slots start (start + skip) { sequence := [base], nbBits := consumedBits })
    else .ok slots
  match front with
  | .error e => some (.error e)
  | .ok slots =>
    fillLevel2WeightsChecked a row consumedBits start stop base (a.maxWeight + 1 - minWeight) minWeight slots

def fillSubTablesChecked (a : X2Arrays) (row : List Nat) (nbBits minWeight : Nat) :
    List Nat → Nat → List DEltX2 → Option (Result (List DEltX2))
  | [], _, slots => some (.ok slots)
  | symbol :: rest, start, slots => do
    let stop := start + 2 ^ (a.tableLog - nbBits)
    if stop > slots.length then some (.error (.corruption "Huff0 X2 rank runs past the table")) else
    match ← fillDtableX2Level2Checked a row nbBits minWeight start stop (UInt8.ofNat symbol) slots with
    | .error e => some (.error e)
    | .ok slots => fillSubTablesChecked a row nbBits minWeight rest stop slots

/-- `fill_dtable_x2`: the ranks, each from where the top row says. -/
def fillDtableX2Checked (a : X2Arrays) : Nat → Nat → List DEltX2 → Option (Result (List DEltX2))
  | 0, _, slots => some (.ok slots)
  | n + 1, weight, slots => do
    if a.nbBitsBaseline < weight ∨ a.nbBitsBaseline < a.maxWeight then none else
    let nbBits := a.nbBitsBaseline - weight
    let minBits := a.nbBitsBaseline - a.maxWeight
    match ← a.symbolsOf weight with
    | .error e => some (.error e)
    | .ok symbols => do
      let top ← a.rankVal[0]?
      let at_ ← top[weight]?
      if a.tableLog < nbBits then none else
      let filled ←
        if a.tableLog - nbBits ≥ minBits then do
          let row ← a.rankVal[nbBits]?
          fillSubTablesChecked a row nbBits (max (nbBits + a.nbBitsBaseline - a.tableLog) 1) symbols at_ slots
        else if at_ > slots.length then some (.error (.corruption "Huff0 X2 rank starts past the table"))
        else some (fillDtableX2ForWeight a.tableLog nbBits slots.length [] symbols at_ slots)
      match filled with
      | .error e => some (.error e)
      | .ok slots => fillDtableX2Checked a n (weight + 1) slots

/-- The arrays of a description, in the order the source makes them. -/
def Stats.x2Arrays (stats : Stats) (targetLog : Nat) : Option (Result X2Arrays) := do
  let maxWeight ← maxWeightChecked stats.rankStats stats.tableLog
  let (rankStart, nextStart) ← runningTotals (fun _ w => stats.rankStats[w]?) maxWeight 1 0
    (List.replicate (tablelogMax + 2) 0)
  let rankStart ← setChecked rankStart (maxWeight + 1) nextStart
  let sortedSymbols ← sortSymbolsChecked (stats.huffWeight.take stats.nbSymbols).zipIdx rankStart nextStart
    (List.replicate (symbolvalueMax + 1) 0)
  let (row, nextVal) ← runningTotals
    (fun _ w => (stats.rankStats[w]?).map (· * 2 ^ (w + targetLog - stats.tableLog - 1))) maxWeight 1 0
    (List.replicate (tablelogMax + 1) 0)
  if nextVal ≠ 2 ^ targetLog then some (.error (.corruption "Huff0 X2 ranks do not tile the table")) else
  if stats.tableLog + 1 < maxWeight ∨ targetLog < stats.tableLog + 1 - maxWeight then none else
  let minBits := stats.tableLog + 1 - maxWeight
  let rankVal ← setChecked (List.replicate tablelogMax (List.replicate (tablelogMax + 1) 0)) 0 row
  let rankVal ← rescaleRows maxWeight (targetLog - minBits + 1 - minBits) minBits rankVal
  some (.ok { tableLog := targetLog, maxWeight, nbBitsBaseline := stats.tableLog + 1
              sortedSymbols, rankStart, rankVal })

/-- `read_dtable_x2` into a table in use. -/
def readDtableX2Checked (dtable : DTableX2) (src : Bytes) : Option (Result (DTableX2 × Nat)) := do
  match ← readStatsChecked src with
  | .error e => some (.error e)
  | .ok stats => do
    if stats.tableLog > tablelogMax then
      some (.error (.corruption "Huff0 table log exceeds decode table capacity")) else
    let targetLog := if stats.tableLog ≤ decoderFastTablelog then decoderFastTablelog else tablelogMax
    match ← stats.x2Arrays targetLog with
    | .error e => some (.error e)
    | .ok arrays => do
      if dtable.entries.length < 2 ^ targetLog then none else
      match ← fillDtableX2Checked arrays arrays.maxWeight 1 (dtable.entries.take (2 ^ targetLog)) with
      | .error e => some (.error e)
      | .ok slots =>
        some (.ok ({ tableLog := targetLog, entries := slots ++ dtable.entries.drop (2 ^ targetLog) }, stats.size))

/-! ## The checked fill is the fill -/

/-- The arrays hold what the plan says. -/
structure X2Arrays.Holds (a : X2Arrays) (p : X2Plan) : Prop where
  tableLog : a.tableLog = p.tableLog
  maxWeight : a.maxWeight = p.maxWeight
  baseline : a.nbBitsBaseline = p.nbBitsBaseline
  symbols : ∀ w, 1 ≤ w → w ≤ p.maxWeight → a.symbolsOf w = some (.ok (p.symbolsOf w))
  top : ∃ row, a.rankVal[0]? = some row ∧ ∀ w, 1 ≤ w → w ≤ p.maxWeight → row[w]? = some (p.rankVal 0 w)
  rows : ∀ c, p.nbBitsBaseline - p.maxWeight ≤ c → c ≤ p.tableLog - (p.nbBitsBaseline - p.maxWeight) →
    ∃ row, a.rankVal[c]? = some row ∧ ∀ w, 1 ≤ w → w ≤ p.maxWeight → row[w]? = some (p.rankVal c w)

section
variable {a : X2Arrays} {p : X2Plan} (ha : a.Holds p) (hp : p.Tiles)
include ha hp

theorem fillLevel2WeightsChecked_eq {row : List Nat} {c start stop : Nat} {base : UInt8}
    (hrow : ∀ w, 1 ≤ w → w ≤ p.maxWeight → row[w]? = some (p.rankVal c w)) : ∀ (n w : Nat) (slots : List DEltX2),
      1 ≤ w → w + n = p.maxWeight + 1 → fillLevel2WeightsChecked a row c start stop base n w slots =
        some (fillLevel2Weights p c start stop base n w slots)
  | 0, _, _, _, _ => rfl
  | n + 1, w, slots, hw, hn => by
    have hlt := hp.weight_lt
    unfold fillLevel2WeightsChecked fillLevel2Weights
    rw [ha.symbols w hw (by omega), hrow w hw (by omega), ha.tableLog, ha.baseline]
    simp only [Option.bind_eq_bind, Option.bind_some]
    rw [if_neg (by omega)]
    by_cases hpast : start + p.rankVal c w > stop
    · rw [if_pos hpast, if_pos hpast]
    rw [if_neg hpast, if_neg hpast]
    cases fillDtableX2ForWeight p.tableLog (p.nbBitsBaseline - w + c) stop [base] (p.symbolsOf w)
      (start + p.rankVal c w) slots with
    | error e => rfl
    | ok slots' => exact fillLevel2WeightsChecked_eq hrow n (w + 1) slots' (by omega) (by omega)

theorem fillDtableX2Level2Checked_eq {row : List Nat} {c minWeight start stop : Nat} {base : UInt8}
    {slots : List DEltX2}
    (hrow : ∀ w, 1 ≤ w → w ≤ p.maxWeight → row[w]? = some (p.rankVal c w)) (hmin : 1 ≤ minWeight)
    (hmax : minWeight ≤ p.maxWeight) : fillDtableX2Level2Checked a row c minWeight start stop base slots =
      some (fillDtableX2Level2 p c minWeight start stop base slots) := by
  have hle := hp.weight_le
  have hrest : ∀ slots, fillLevel2WeightsChecked a row c start stop base (p.maxWeight + 1 - minWeight) minWeight slots =
      some (fillLevel2Weights p c start stop base (p.maxWeight + 1 - minWeight) minWeight slots) :=
    fun slots => fillLevel2WeightsChecked_eq ha hp hrow _ minWeight slots hmin (by omega)
  unfold fillDtableX2Level2Checked fillDtableX2Level2
  rw [hrow minWeight hmin hmax, ha.maxWeight]
  simp only
  by_cases hone : minWeight > 1
  · have hsmall : ¬ minWeight > tablelogMax := by omega
    rw [if_pos hone, if_pos hone, if_neg hsmall]
    by_cases hpast : start + p.rankVal c minWeight > stop
    · rw [if_pos hpast, if_pos hpast]
      rfl
    · rw [if_neg hpast, if_neg hpast]
      exact hrest _
  · rw [if_neg hone, if_neg hone]
    exact hrest _

theorem fillSubTablesChecked_eq {row : List Nat} {c minWeight : Nat}
    (hrow : ∀ w, 1 ≤ w → w ≤ p.maxWeight → row[w]? = some (p.rankVal c w)) (hmin : 1 ≤ minWeight)
    (hmax : minWeight ≤ p.maxWeight) : ∀ (symbols : List Nat) (start : Nat) (slots : List DEltX2),
      fillSubTablesChecked a row c minWeight symbols start slots =
        some (fillSubTables p c minWeight symbols start slots)
  | [], _, _ => rfl
  | symbol :: rest, start, slots => by
    unfold fillSubTablesChecked fillSubTables
    rw [ha.tableLog]
    simp only
    by_cases hpast : start + 2 ^ (p.tableLog - c) > slots.length
    · rw [if_pos hpast, if_pos hpast]
    rw [if_neg hpast, if_neg hpast, fillDtableX2Level2Checked_eq ha hp hrow hmin hmax]
    cases fillDtableX2Level2 p c minWeight start (start + 2 ^ (p.tableLog - c)) (UInt8.ofNat symbol) slots with
    | error e => rfl
    | ok slots' => exact fillSubTablesChecked_eq hrow hmin hmax rest _ slots'

/-- No index of the fill is out of range, and no bit count below zero. -/
theorem fillDtableX2Checked_eq : ∀ (n w : Nat) (slots : List DEltX2), 1 ≤ w → w + n = p.maxWeight + 1 →
    fillDtableX2Checked a n w slots = some (fillDtableX2 p n w slots)
  | 0, _, _, _, _ => rfl
  | n + 1, w, slots, hw, hn => by
    have hlt := hp.weight_lt
    have hpos := hp.weight_pos
    have hbaseline := hp.baseline
    obtain ⟨top, htop, hstart⟩ := ha.top
    have hrest : ∀ r : Result (List DEltX2), (match r with
        | .error e => some (.error e)
        | .ok slots => fillDtableX2Checked a n (w + 1) slots) = some
            (r >>= fun slots => fillDtableX2 p n (w + 1) slots) := by
      rintro (e | slots)
      · rfl
      · exact fillDtableX2Checked_eq n (w + 1) slots (by omega) (by omega)
    unfold fillDtableX2Checked fillDtableX2
    rw [ha.symbols w hw (by omega), htop, ha.tableLog, ha.baseline, ha.maxWeight]
    simp only [Option.bind_eq_bind, Option.bind_some]
    rw [if_neg (by omega), hstart w hw (by omega)]
    simp only [Option.bind_some]
    rw [if_neg (by omega)]
    by_cases hdeep : p.tableLog - (p.nbBitsBaseline - w) ≥ p.nbBitsBaseline - p.maxWeight
    · obtain ⟨row, hrow, hstarts⟩ := ha.rows (p.nbBitsBaseline - w) (by omega) (by omega)
      rw [if_pos hdeep, if_pos hdeep, hrow, Option.bind_some,
        fillSubTablesChecked_eq ha hp hstarts (le_max_right _ _) (by omega)]
      exact hrest _
    · rw [if_neg hdeep, if_neg hdeep]
      by_cases hpast : p.rankVal 0 w > slots.length
      · rw [if_pos hpast, if_pos hpast]
        rfl
      · rw [if_neg hpast, if_neg hpast]
        exact hrest _

end

/-! ## What the arrays hold -/

theorem maxWeightChecked_eq {rankStats : List Nat} : ∀ {n : Nat}, 1 ≤ maxWeightBelow rankStats n →
    n < rankStats.length →
    maxWeightChecked rankStats n = some (maxWeightBelow rankStats n)
  | 0, h, _ => absurd h (by simp [maxWeightBelow])
  | n + 1, h, hn => by
    have hget : rankStats[n + 1]? = some (rankStats.getD (n + 1) 0) := by
      rw [List.getD_eq_getElem _ _ hn, List.getElem?_eq_getElem]
    unfold maxWeightBelow at h
    unfold maxWeightChecked maxWeightBelow
    rw [hget, Option.bind_eq_bind, Option.bind_some]
    split
    · rename_i hzero
      rw [if_pos hzero] at h
      exact maxWeightChecked_eq h (by omega)
    · rfl

theorem maxWeightBelow_above {rankStats : List Nat} {w : Nat} : ∀ {n : Nat}, maxWeightBelow rankStats n < w → w ≤ n →
    rankStats.getD w 0 = 0
  | 0, h, hn => absurd hn (by omega)
  | n + 1, h, hn => by
    unfold maxWeightBelow at h
    split at h
    · rename_i hzero
      by_cases hw : w = n + 1
      · rw [hw, hzero]
      · exact maxWeightBelow_above h (by omega)
    · omega

/-- The symbols of the weights below one, the absent symbols apart. -/
def symbolsBelow (weights : List Nat) (w : Nat) : Nat := ∑ i ∈ Finset.range w, if i = 0 then 0 else weights.count i

theorem symbolsBelow_succ (weights : List Nat) {w : Nat} (hw : 1 ≤ w) :
    symbolsBelow weights (w + 1) = symbolsBelow weights w + weights.count w := by
  rw [symbolsBelow, Finset.sum_range_succ, if_neg (by omega)]
  rfl

theorem symbolsBelow_one (weights : List Nat) : symbolsBelow weights 1 = 0 := by simp [symbolsBelow]

theorem symbolsBelow_mono (weights : List Nat) {w w' : Nat} (h : w ≤ w') :
    symbolsBelow weights w ≤ symbolsBelow weights w' :=
  Finset.sum_le_sum_of_subset (Finset.range_mono h)

/-- There are no more symbols than weights. -/
theorem symbolsBelow_le (weights : List Nat) (w : Nat) : symbolsBelow weights w + weights.count 0 ≤ weights.length := by
  induction weights with
  | nil => simp [symbolsBelow]
  | cons x weights ih =>
    have hsum : symbolsBelow (x :: weights) w ≤ symbolsBelow weights w + if x = 0 then 0 else 1 := by
      unfold symbolsBelow
      have hsplit : ∀ i ∈ Finset.range w, (if i = 0 then 0 else (x :: weights).count i) =
          (if i = 0 then 0 else weights.count i) + if i = x then (if x = 0 then 0 else 1) else 0 := by
        intro i _
        rw [List.count_cons]
        by_cases hi : i = x
        · subst hi
          by_cases h0 : i = 0 <;> simp [h0]
        · have : (x == i) = false := by simpa using Ne.symm hi
          simp [hi, this]
      rw [Finset.sum_congr rfl hsplit, Finset.sum_add_distrib, Finset.sum_ite_eq']
      split <;> omega
    rw [List.count_cons, List.length_cons]
    by_cases h0 : x = 0
    · simp only [h0, if_pos] at hsum ⊢
      simp only [BEq.rfl, if_true]
      omega
    · have : (x == 0) = false := by simpa using h0
      rw [if_neg h0] at hsum
      rw [this]
      simp only [Bool.false_eq_true, if_false]
      omega

/-- The sort behind the symbols of `pre`: every one of them is in its place. -/
structure Sorted (weights : List Nat) (maxWeight : Nat) (pre cursor : List Nat) (absentCursor : Nat)
    (sortedSymbols : List Nat) : Prop where
  length : sortedSymbols.length = symbolvalueMax + 1
  cursors : maxWeight < cursor.length
  next : ∀ w, 1 ≤ w → w ≤ maxWeight → cursor.getD w 0 = symbolsBelow weights w + pre.count w
  absent : absentCursor = symbolsBelow weights (maxWeight + 1) + pre.count 0
  placed : ∀ w k, 1 ≤ w → w ≤ maxWeight → k < pre.count w →
    sortedSymbols[symbolsBelow weights w + k]? = some (Tans.select w weights k)

section
variable {weights : List Nat} {maxWeight : Nat} (hmax : ∀ w ∈ weights, w ≤ maxWeight)
include hmax

/-- The place of a symbol is in the array and not that of a symbol before it. -/
theorem place_lt {pre rest : List Nat} {w : Nat} (hsplit : weights = pre ++ w :: rest) (hw : 1 ≤ w) :
    symbolsBelow weights w + pre.count w < symbolsBelow weights (w + 1) ∧
      symbolsBelow weights (w + 1) ≤ symbolsBelow weights (maxWeight + 1) := by
  have hcount : pre.count w < weights.count w := by
    rw [hsplit, List.count_append, List.count_cons_self]
    omega
  have hle := hmax w (by rw [hsplit]; simp)
  rw [symbolsBelow_succ weights hw]
  exact ⟨by omega, by rw [← symbolsBelow_succ weights hw]; exact symbolsBelow_mono weights (by omega)⟩

theorem sortSymbolsChecked_eq (hlen : weights.length ≤ symbolvalueMax + 1) :
    ∀ (rest pre : List Nat) {cursor sortedSymbols : List Nat} {absentCursor : Nat},
    weights = pre ++ rest → Sorted weights maxWeight pre cursor absentCursor sortedSymbols →
      ∃ sortedSymbols' cursor' absentCursor', sortSymbolsChecked
        (rest.zipIdx pre.length) cursor absentCursor sortedSymbols =
          some sortedSymbols' ∧ Sorted weights maxWeight weights cursor' absentCursor' sortedSymbols'
  | [], pre, cursor, sortedSymbols, absentCursor, hsplit, hsorted => by
    rw [List.append_nil] at hsplit
    subst hsplit
    exact ⟨sortedSymbols, cursor, absentCursor, rfl, hsorted⟩
  | w :: rest, pre, cursor, sortedSymbols, absentCursor, hsplit, hsorted => by
    have htotal := symbolsBelow_le weights (maxWeight + 1)
    have hnext : pre.length + 1 = (pre ++ [w]).length := by rw [List.length_append, List.length_singleton]
    rw [List.zipIdx_cons, hnext]
    unfold sortSymbolsChecked
    rcases Nat.eq_zero_or_pos w with rfl | hpos
    · have hcount : pre.count 0 < weights.count 0 := by
        rw [hsplit, List.count_append, List.count_cons_self]
        omega
      have hother : ∀ x, 1 ≤ x → (pre ++ [0]).count x = pre.count x := by
        intro x hx
        rw [List.count_append, List.count_cons_of_ne (by omega), List.count_nil, Nat.add_zero]
      rw [if_pos rfl, setChecked_eq (by rw [hsorted.length, hsorted.absent]; omega), Option.bind_eq_bind,
        Option.bind_some]
      refine sortSymbolsChecked_eq hlen rest (pre ++ [0]) (by rw [hsplit]; simp) ?_
      constructor
      · rw [List.length_set]
        exact hsorted.length
      · exact hsorted.cursors
      · intro x hx hle
        rw [hother x hx]
        exact hsorted.next x hx hle
      · rw [hsorted.absent, List.count_append, List.count_singleton_self]
        rfl
      · -- the absent symbols go behind all the others
        intro x k hx hle hk
        rw [hother x hx] at hk
        have hmono := symbolsBelow_mono weights (show x + 1 ≤ maxWeight + 1 by omega)
        have hfull : pre.count x ≤ weights.count x := by
          rw [hsplit, List.count_append]
          omega
        rw [symbolsBelow_succ weights hx] at hmono
        rw [List.getElem?_set_ne (by rw [hsorted.absent]; omega)]
        exact hsorted.placed x k hx hle hk
    · have hle := hmax w (by rw [hsplit]; simp)
      obtain ⟨hplace, htop⟩ := place_lt hmax hsplit hpos
      have hget : cursor[w]? = some (cursor.getD w 0) := by
        rw [List.getD_eq_getElem _ _ (lt_of_le_of_lt hle hsorted.cursors), List.getElem?_eq_getElem]
      have hselect : Tans.select w weights (pre.count w) = pre.length := by
        have hi : weights[pre.length]? = some w := by rw [hsplit]; simp
        have htake : weights.take pre.length = pre := by rw [hsplit]; simp
        have := Tans.select_count hi
        rwa [htake] at this
      have hcursor := hsorted.next w hpos hle
      rw [if_neg (by omega), hget, Option.bind_eq_bind, Option.bind_some, hcursor,
        setChecked_eq (by rw [hsorted.length]; omega), Option.bind_eq_bind, Option.bind_some]
      refine sortSymbolsChecked_eq hlen rest (pre ++ [w]) (by rw [hsplit]; simp) ?_
      constructor
      · rw [List.length_set]
        exact hsorted.length
      · rw [List.length_set]
        exact hsorted.cursors
      · intro x hx hxle
        rw [List.count_append, List.getD_eq_getElem?_getD]
        by_cases hxw : w = x
        · subst hxw
          rw [List.getElem?_set_self (lt_of_le_of_lt hle hsorted.cursors), Option.getD_some, List.count_singleton_self]
          rfl
        · rw [List.getElem?_set_ne hxw, ← List.getD_eq_getElem?_getD, List.count_cons_of_ne (by omega), List.count_nil,
            Nat.add_zero]
          exact hsorted.next x hx hxle
      · rw [hsorted.absent, List.count_append, List.count_cons_of_ne (by omega), List.count_nil]
        rfl
      · intro x k hx hxle hk
        rw [List.count_append] at hk
        by_cases hxw : w = x
        · subst hxw
          rw [List.count_singleton_self] at hk
          by_cases hlast : k = pre.count w
          · rw [hlast, List.getElem?_set_self (by rw [hsorted.length]; omega), hselect]
          · rw [List.getElem?_set_ne (by omega)]
            exact hsorted.placed w k hx hxle (by omega)
        · rw [List.count_cons_of_ne (by omega), List.count_nil, Nat.add_zero] at hk
          have hfull : pre.count x ≤ weights.count x := by
            rw [hsplit, List.count_append]
            omega
          have hend := symbolsBelow_succ weights hx
          -- the ranks do not overlap
          have hapart : symbolsBelow weights x + k ≠ symbolsBelow weights w + pre.count w := by
            rcases Nat.lt_or_gt_of_ne hxw with hlt | hgt
            · have := symbolsBelow_mono weights (show w + 1 ≤ x by omega)
              omega
            · have := symbolsBelow_mono weights (show x + 1 ≤ w by omega)
              omega
          rw [List.getElem?_set_ne (Ne.symm hapart)]
          exact hsorted.placed x k hx hxle hk

end

theorem rescaleRow_eq (row : List Nat) (consumed maxWeight : Nat) : ∀ (n weight : Nat) {a : List Nat},
    weight + n = maxWeight + 1 → maxWeight < row.length → maxWeight < a.length →
      ∃ a', rescaleRow row consumed n weight a = some a' ∧ a'.length = a.length ∧
        ∀ w, a'[w]? = if weight ≤ w ∧ w ≤ maxWeight then some (row.getD w 0 >>> consumed) else a[w]?
  | 0, weight, a, hn, _, _ => by
    refine ⟨a, rfl, rfl, fun w => ?_⟩
    rw [if_neg (by omega)]
  | n + 1, weight, a, hn, hrow, ha => by
    have hget : row[weight]? = some (row.getD weight 0) := by
      rw [List.getD_eq_getElem _ _ (by omega), List.getElem?_eq_getElem]
    obtain ⟨a', hloop, hlen, hall⟩ := rescaleRow_eq row consumed maxWeight n (weight + 1)
      (a := a.set weight (row.getD weight 0 >>> consumed)) (by omega) hrow (by rw [List.length_set]; exact ha)
    unfold rescaleRow
    rw [hget, Option.bind_eq_bind, Option.bind_some, setChecked_eq (by omega), Option.bind_eq_bind, Option.bind_some]
    refine ⟨a', hloop, hlen.trans List.length_set, fun w => ?_⟩
    rw [hall]
    by_cases hw : weight = w
    · subst hw
      rw [if_neg (by omega), if_pos (by omega), List.getElem?_set_self (by omega)]
    · rw [List.getElem?_set_ne hw]
      by_cases hin : weight + 1 ≤ w ∧ w ≤ maxWeight
      · rw [if_pos hin, if_pos (by omega)]
      · rw [if_neg hin, if_neg (by omega)]

/-- Every row that is passed holds the top row shifted down; the top row stays. -/
theorem rescaleRows_eq {top : List Nat} {maxWeight : Nat} (htop : maxWeight < top.length) :
    ∀ (n consumed : Nat) (rankVal : List (List Nat)), 1 ≤ consumed → consumed + n ≤ rankVal.length →
      (∀ row ∈ rankVal, maxWeight < row.length) → rankVal[0]? = some top →
        ∃ rankVal', rescaleRows maxWeight n consumed rankVal = some rankVal' ∧
          (∀ c < consumed, rankVal'[c]? = rankVal[c]?) ∧
          ∀ c, consumed ≤ c → c < consumed + n → ∃ row, rankVal'[c]? = some row ∧
            ∀ w, 1 ≤ w → w ≤ maxWeight → row[w]? = some (top.getD w 0 >>> c)
  | 0, consumed, rankVal, _, _, _, _ => ⟨rankVal, rfl, fun _ _ => rfl, fun c h1 h2 => absurd h1 (by omega)⟩
  | n + 1, consumed, rankVal, hpos, hlen, hrows, hzero => by
    have hin : consumed < rankVal.length := by omega
    obtain ⟨row, hrow, hlenRow, hall⟩ := rescaleRow_eq top consumed maxWeight maxWeight 1 (a := rankVal[consumed])
      (Nat.add_comm 1 maxWeight) htop (hrows _ (List.getElem_mem hin))
    obtain ⟨rankVal', hloop, hbelow, hdone⟩ := rescaleRows_eq htop n (consumed + 1) (rankVal.set consumed row)
      (by omega) (by rw [List.length_set]; omega) (fun r hr => by
        rcases List.mem_or_eq_of_mem_set hr with hr | rfl
        · exact hrows r hr
        · rw [hlenRow]
          exact hrows _ (List.getElem_mem hin)) (by rw [List.getElem?_set_ne (by omega)]; exact hzero)
    unfold rescaleRows
    simp only [Option.bind_eq_bind]
    rw [hzero, Option.bind_some, List.getElem?_eq_getElem hin, Option.bind_some, hrow, Option.bind_some,
      setChecked_eq hin, Option.bind_some]
    refine ⟨rankVal', hloop, fun c hc => ?_, fun c h1 h2 => ?_⟩
    · rw [hbelow c (by omega), List.getElem?_set_ne (by omega)]
    · by_cases hc : c = consumed
      · subst hc
        refine ⟨row, ?_, fun w hw hle => ?_⟩
        · rw [hbelow c (by omega), List.getElem?_set_self hin]
        · rw [hall, if_pos ⟨hw, hle⟩]
      · exact hdone c (by omega) (by omega)

/-- The arrays of a description hold what the plan of its fill says. -/
theorem x2Arrays_eq {src : Bytes} {stats : Stats} (h : readStats src = .ok stats) {targetLog : Nat}
    (hlog : stats.tableLog ≤ targetLog) (htarget : targetLog ≤ tablelogMax) :
    ∃ arrays, stats.x2Arrays targetLog = some (.ok arrays) ∧ arrays.Holds (stats.x2Plan targetLog) := by
  have hok := readStats_ok h
  have hmaxlog := hok.tableLog_le
  have hpos := hok.maxWeight_pos
  have hmw := maxWeightBelow_le stats.rankStats stats.tableLog
  have hlenStats : stats.rankStats.length = tablelogMax + 1 := by
    rw [readStats_rankStats h, List.length_map, List.length_range]
  have hcount : ∀ w ≤ tablelogMax, stats.rankStats[w]? = some (stats.huffWeight.count w) := by
    intro w hw
    rw [readStats_rankStats h, List.getElem?_map, List.getElem?_range (by omega)]
    rfl
  have hsymbols := readStats_length h
  have hweights : ∀ w ∈ stats.huffWeight, w ≤ maxWeightBelow stats.rankStats stats.tableLog := by
    intro w hw
    have hle := hok.weight_le w hw
    by_contra hover
    have hnone := maxWeightBelow_above (show maxWeightBelow stats.rankStats stats.tableLog < w by omega) hle
    rw [hok.ranks w (by omega)] at hnone
    exact absurd (List.count_pos_iff.2 hw) (by omega)
  have htiles := hok.tiles hlog
  unfold Stats.x2Arrays
  rw [maxWeightChecked_eq hpos (by omega)]
  generalize hmaxWeight : maxWeightBelow stats.rankStats stats.tableLog = maxWeight at *
  obtain ⟨starts, hstarts, hlenStarts, hgetStarts⟩ := runningTotals_eq (fun _ w => stats.rankStats[w]?)
    (symbolsBelow stats.huffWeight) maxWeight 1 (a := List.replicate (tablelogMax + 2) 0) (fun i b hi hlt _ =>
      ⟨_, hcount i (by omega), symbolsBelow_succ _ hi⟩) (by rw [List.length_replicate]; omega)
  obtain ⟨row, hrow, hlenRow, hgetRow⟩ := runningTotals_eq
    (fun _ w => (stats.rankStats[w]?).map (· * 2 ^ (w + targetLog - stats.tableLog - 1)))
    (rankValRow stats.rankStats targetLog stats.tableLog) maxWeight 1 (a := List.replicate (tablelogMax + 1) 0)
    (fun i b hi hlt _ => ⟨stats.huffWeight.count i * 2 ^ (i + targetLog - stats.tableLog - 1), by
      rw [hcount i (by omega)]; rfl, by rw [rankValRow_succ _ _ _ hi, hok.ranks i (by omega)]⟩)
    (by rw [List.length_replicate]; omega)
  rw [symbolsBelow_one] at hstarts
  rw [List.length_replicate] at hlenStarts hlenRow
  change runningTotals _ maxWeight 1 0 _ = _ at hrow
  rw [Nat.add_comm 1 maxWeight] at hstarts hrow hgetStarts hgetRow
  simp only [Option.bind_eq_bind, Option.bind_some]
  rw [hstarts]
  simp only [Option.bind_some]
  rw [setChecked_eq (by omega), Option.bind_some, hok.symbols, List.take_length]
  have hgetStart : ∀ w, 1 ≤ w → w ≤ maxWeight + 1 →
      (starts.set (maxWeight + 1) (symbolsBelow stats.huffWeight (maxWeight + 1)))[w]? =
        some (symbolsBelow stats.huffWeight w) := by
    intro w hw hle
    by_cases hlast : w = maxWeight + 1
    · rw [hlast, List.getElem?_set_self (by omega)]
    · have := hgetStarts w
      rw [if_pos (by omega), List.getD_eq_getElem _ _ (by omega)] at this
      rw [List.getElem?_set_ne (Ne.symm hlast), List.getElem?_eq_getElem (by omega), this]
  generalize hrankStart : starts.set (maxWeight + 1) (symbolsBelow stats.huffWeight (maxWeight + 1)) = rankStart at *
  have hlenStart : rankStart.length = tablelogMax + 2 := by rw [← hrankStart, List.length_set, hlenStarts]
  have hunsorted : Sorted stats.huffWeight maxWeight [] rankStart (symbolsBelow stats.huffWeight (maxWeight + 1))
      (List.replicate (symbolvalueMax + 1) 0) := by
    refine ⟨List.length_replicate, by omega, fun w hw hle => ?_, rfl, fun w k _ _ hk => by simp at hk⟩
    rw [List.getD_eq_getElem?_getD, hgetStart w hw (by omega), Option.getD_some, List.count_nil, Nat.add_zero]
  obtain ⟨sorted, cursor, absent, hsort, hsorted⟩ := sortSymbolsChecked_eq hweights hsymbols stats.huffWeight [] rfl
    hunsorted
  have htotal := symbolsBelow_le stats.huffWeight (maxWeight + 1)
  rw [List.length_nil] at hsort
  rw [hsort, Option.bind_some, hrow, Option.bind_some]
  simp only
  rw [if_neg (by rw [not_not]; exact htiles), if_neg (by omega), setChecked_eq (by rw [List.length_replicate]; decide),
    Option.bind_some]
  obtain ⟨rankVal, hrows, hbelow, hdone⟩ := rescaleRows_eq (show maxWeight < row.length by omega)
    (targetLog - (stats.tableLog + 1 - maxWeight) + 1 - (stats.tableLog + 1 - maxWeight))
    (stats.tableLog + 1 - maxWeight)
    ((List.replicate tablelogMax (List.replicate (tablelogMax + 1) 0)).set 0 row) (by omega)
    (by rw [List.length_set, List.length_replicate]; omega) (fun r hr => by
      rcases List.mem_or_eq_of_mem_set hr with hr | rfl
      · rw [List.eq_of_mem_replicate hr, List.length_replicate]
        omega
      · omega) (by rw [List.getElem?_set_self (by rw [List.length_replicate]; decide)])
  rw [hrows, Option.bind_some]
  have hgetRows : ∀ w, 1 ≤ w → w ≤ maxWeight → row.getD w 0 =
    rankValRow stats.rankStats targetLog stats.tableLog w := by
    intro w hw hle
    rw [hgetRow, if_pos (by omega)]
  have hplan : (stats.x2Plan targetLog).maxWeight = maxWeight := hmaxWeight
  have htop : ∀ w, 1 ≤ w → w ≤ maxWeight → (stats.x2Plan targetLog).rankVal 0 w = row.getD w 0 := by
    intro w hw hle
    rw [hgetRows w hw hle]
    simp [Stats.x2Plan]
  have hdeep := (hok.x2Plan_tiles hlog).deep
  refine ⟨_, rfl, rfl, hmaxWeight.symm, rfl, ?_, ?_, ?_⟩
  · intro w hw hle
    rw [hplan] at hle
    have hend := symbolsBelow_succ stats.huffWeight hw
    have hmono := symbolsBelow_mono stats.huffWeight (show w + 1 ≤ maxWeight + 1 by omega)
    have hroom : symbolsBelow stats.huffWeight w ≤ symbolsBelow stats.huffWeight (w + 1) ∧
        symbolsBelow stats.huffWeight (w + 1) ≤ sorted.length := by
      rw [hsorted.length]
      omega
    unfold X2Arrays.symbolsOf
    simp only [Option.bind_eq_bind]
    rw [hgetStart w hw (by omega), Option.bind_some, hgetStart (w + 1) (by omega) (by omega), Option.bind_some,
      if_pos hroom]
    congr 2
    change _ = ((stats.huffWeight.zipIdx 0).filter (·.1 = w)).map (·.2)
    rw [symbolsOf_eq]
    refine List.ext_getElem? fun k => ?_
    rcases Nat.lt_or_ge k (stats.huffWeight.count w) with hk | hk
    · rw [List.getElem?_take_of_lt (by omega), List.getElem?_drop, hsorted.placed w k hw hle hk, List.getElem?_map,
        List.getElem?_range hk, Option.map_some, Nat.zero_add]
    · rw [List.getElem?_eq_none (by rw [List.length_take]; omega),
        List.getElem?_eq_none (by rw [List.length_map, List.length_range]; exact hk)]
  · refine ⟨row, ?_, fun w hw hle => ?_⟩
    · rw [hbelow 0 (by omega), List.getElem?_set_self (by rw [List.length_replicate]; decide)]
    · rw [hplan] at hle
      rw [htop w hw hle, List.getD_eq_getElem _ _ (by omega), List.getElem?_eq_getElem]
  · intro c hlow hhigh
    rw [hplan] at hlow hhigh
    obtain ⟨deep, hget, hvals⟩ := hdone c hlow (by
      change c ≤ targetLog - (stats.tableLog + 1 - maxWeight) at hhigh
      change stats.tableLog + 1 - maxWeight ≤ c at hlow
      omega)
    refine ⟨deep, hget, fun w hw hle => ?_⟩
    rw [hdeep c w (by rw [hplan]; exact hlow) (by rw [hplan]; exact hhigh)]
    rw [hplan] at hle
    rw [hvals w hw hle, htop w hw hle]

theorem readDtableX2Checked_ok {dtable : DTableX2} (hsize : dtable.entries.length = dtableSize) {src : Bytes}
    {stats : Stats} (h : readStats src = .ok stats) :
    ∃ t, readDtableX2Checked dtable src = some (.ok (t, stats.size)) ∧ t.tableLog = stats.targetLog ∧
      t.entries.length = dtableSize ∧ t.Decodes stats.codes := by
  have hok := readStats_ok h
  have hlog := hok.tableLog_le
  have hcodes := readStats_codes h
  have hplan := hcodes.x2Plan hok hok.le_targetLog
  have hlogs : stats.targetLog = decoderFastTablelog ∨ stats.targetLog = tablelogMax := by
    unfold Stats.targetLog
    split <;> simp
  have htarget : stats.targetLog ≤ tablelogMax := by
    rcases hlogs with h | h <;> rw [h]
    decide
  have hroom : 2 ^ stats.targetLog ≤ dtable.entries.length := by
    rw [hsize]
    exact Nat.pow_le_pow_right (by norm_num) htarget
  have hactive : (dtable.entries.take (2 ^ stats.targetLog)).length = 2 ^ stats.targetLog := by
    rw [List.length_take]
    omega
  obtain ⟨arrays, harrays, hholds⟩ := x2Arrays_eq h hok.le_targetLog htarget
  have hsteps : 1 + arrays.maxWeight = (stats.x2Plan stats.targetLog).maxWeight + 1 := by
    rw [hholds.maxWeight, Nat.add_comm]
  obtain ⟨slots, hfill, hlen⟩ := fillDtableX2_ok hplan.toTiles arrays.maxWeight 1
    (dtable.entries.take (2 ^ stats.targetLog)) (le_refl _) hsteps hactive
  have hfilled : FilledBelow (AnswersX2 stats.codes stats.targetLog) slots (2 ^ stats.targetLog) := by
    refine hplan.fillDtableX2 arrays.maxWeight 1 (le_refl _) hsteps hactive hfill ?_
    rw [hplan.first]
    intro v hv
    omega
  unfold readDtableX2Checked
  rw [readStatsChecked_eq, h]
  simp only [Option.bind_eq_bind, Option.bind_some]
  have hif : (if stats.tableLog ≤ decoderFastTablelog then decoderFastTablelog else tablelogMax) =
    stats.targetLog := rfl
  rw [if_neg (by omega), hif, harrays, Option.bind_some]
  simp only
  rw [if_neg (by omega), fillDtableX2Checked_eq hholds hplan.toTiles _ _ _ (le_refl _) hsteps, hfill, Option.bind_some]
  refine ⟨_, rfl, rfl, ?_, hlogs, fun v hv => ?_⟩
  · simp only
    rw [List.length_append, hlen, hactive, List.length_drop, Nat.add_sub_cancel' hroom, hsize]
  · simp only at hv ⊢
    rw [List.getD_append _ _ _ _ (by omega)]
    exact hfilled v hv

/-! ## One table against the other -/

/-- The entry for the next bits of a word of which `p` bits are left; zeros follow its end. -/
def DTableX1.lookup (t : DTableX1) (v p : Nat) : DEltX1 :=
  t.entries.getD (((v <<< t.tableLog) >>> p) % 2 ^ t.tableLog) default

/-- A lookup finds the symbol whose code comes next. -/
theorem DTableX1.Decodes.lookup {t : DTableX1} {ctable : CTable} (ht : t.Decodes ctable) {v p : Nat} {symbol : UInt8}
    (h : Heads ctable.code v p symbol) :
    (t.lookup v p).byte = symbol ∧ (t.lookup v p).nbBits = (ctable symbol).nbBits := by
  have hword := (h.pad t.tableLog).field (ht.complete.le symbol) (Nat.le_add_left _ _)
  have hindex : ((v <<< t.tableLog) >>> p) % 2 ^ t.tableLog =
      BitStack.field (v <<< t.tableLog) (p + t.tableLog) t.tableLog := by
    unfold BitStack.field
    rw [Nat.add_sub_cancel]
  obtain ⟨hheads, hbits⟩ := ht.answers _ (field_lt (v <<< t.tableLog) (p + t.tableLog) t.tableLog)
  unfold DTableX1.lookup
  rw [hindex]
  have hsame := ht.complete.heads_unique hheads hword
  exact ⟨hsame, by rw [hbits, hsame]⟩

/-- What a slot of a double-symbol table of `targetLog` bits must hold: the first symbol of its index, or the first
two, as a single-symbol table decodes them, with the bits both take. -/
structure FirstSymbols (t : DTableX1) (targetLog v : Nat) (entry : DEltX2) : Prop where
  le : entry.nbBits ≤ targetLog
  symbols : (entry.sequence = [(t.lookup v targetLog).byte] ∧ entry.nbBits = (t.lookup v targetLog).nbBits) ∨
    (entry.sequence = [(t.lookup v targetLog).byte, (t.lookup v (targetLog - (t.lookup v targetLog).nbBits)).byte] ∧
      entry.nbBits = (t.lookup v targetLog).nbBits + (t.lookup v (targetLog - (t.lookup v targetLog).nbBits)).nbBits)

theorem AnswersX2.firstSymbols {t : DTableX1} {ctable : CTable} (ht : t.Decodes ctable) {targetLog v : Nat}
    {entry : DEltX2} (h : AnswersX2 ctable targetLog v entry) : FirstSymbols t targetLog v entry := by
  obtain ⟨hsome, htwo, hle, hspells⟩ := h
  refine ⟨hle, ?_⟩
  generalize entry.sequence = symbols at *
  match symbols, hsome, htwo, hspells with
  | [first], _, _, ⟨hfirst, hend⟩ =>
    obtain ⟨hbyte, hbits⟩ := ht.lookup hfirst
    have := hfirst.le
    simp only [CTable.code_snd, Spells] at hend this
    exact .inl ⟨by rw [hbyte], by omega⟩
  | [first, second], _, _, ⟨hfirst, hsecond, hend⟩ =>
    obtain ⟨hbyte, hbits⟩ := ht.lookup hfirst
    simp only [CTable.code_snd] at hsecond hend
    obtain ⟨hbyte', hbits'⟩ := ht.lookup hsecond
    have h1 := hfirst.le
    have h2 := hsecond.le
    simp only [CTable.code_snd, Spells] at hend h1 h2
    rw [hbits]
    exact .inr ⟨by rw [hbyte, hbyte'], by omega⟩

/-! ## Descriptions -/

/-- The weights of a description are the lengths of a complete prefix code of its height. -/
structure Stats.Describes (stats : Stats) : Prop where
  lengths : ∀ {i w : Nat}, stats.huffWeight[i]? = some w →
    (stats.codes (UInt8.ofNat i)).nbBits = if w = 0 then 0 else stats.tableLog + 1 - w
  absent : ∀ symbol : UInt8, stats.huffWeight.length ≤ symbol.toNat → (stats.codes symbol).nbBits = 0
  complete : Complete stats.codes.code stats.tableLog
  height : ∃ symbol, (stats.codes symbol).nbBits = stats.tableLog

theorem readStats_ones {src : Bytes} {stats : Stats} (h : readStats src = .ok stats) :
    2 ≤ stats.rankStats.getD 1 0 := by
  unfold readStats at h
  obtain ⟨⟨weights, size⟩, -, h⟩ := bind_ok h
  simp only at h
  iterate 4 (split at h; · cases h)
  split at h
  · cases h
  · rename_i hones
    cases h
    simp only
    omega

theorem readStats_describes {src : Bytes} {stats : Stats} (h : readStats src = .ok stats) : stats.Describes := by
  have hok := readStats_ok h
  have hcodes := readStats_codes h
  constructor
  · intro i w hi
    rw [hcodes.entry hi]
    split <;> rfl
  · intro symbol hsymbol
    rw [hcodes.absent symbol hsymbol]
    rfl
  · exact hcodes.complete
  · -- two symbols at least are as deep as the code gets
    have hones := readStats_ones h
    rw [hok.ranks 1 (by decide)] at hones
    obtain ⟨i, hi⟩ := List.getElem?_of_mem (List.count_pos_iff.1 (show 0 < stats.huffWeight.count 1 by omega))
    refine ⟨UInt8.ofNat i, ?_⟩
    rw [hcodes.entry hi]
    rfl

/-- Descriptions are parsed without an access out of range, whatever the bytes. One that is read is a complete prefix
code; the single-symbol fill writes every slot of its table once, with the symbol whose code the slot begins with, and
the double-symbol table answers one or two lookups of it at once. -/
theorem description_parsed (src : Bytes) (single : DTableX1) (double : DTableX2)
    (hsingle : single.entries.length = dtableSize) (hdouble : double.entries.length = dtableSize) :
    readStatsChecked src = some (readStats src) ∧
    (∀ e, readStats src = .error e →
      readDtableX1Checked single src = some (.error e) ∧ readDtableX2Checked double src = some (.error e)) ∧
    ∀ stats, readStats src = .ok stats → stats.Describes ∧
      ∃ t t2 rankVal next, readDtableX1Checked single src = some (.ok (t, stats.size)) ∧
        readDtableX2Checked double src = some (.ok (t2, stats.size)) ∧
        t.tableLog = stats.tableLog ∧ t2.tableLog = stats.targetLog ∧
        stats.startsX1 = some (rankVal, next) ∧
        (slotsX1 stats.huffWeight rankVal).Perm (List.range (2 ^ t.tableLog)) ∧
        (∀ v < 2 ^ t.tableLog, Answers stats.codes t.tableLog v (t.entries.getD v default)) ∧
        ∀ v < 2 ^ t2.tableLog, FirstSymbols t t2.tableLog v (t2.entries.getD v default) := by
  refine ⟨readStatsChecked_eq src, fun e h => ⟨?_, ?_⟩, fun stats h => ?_⟩
  · unfold readDtableX1Checked
    rw [readStatsChecked_eq, h]
    rfl
  · unfold readDtableX2Checked
    rw [readStatsChecked_eq, h]
    rfl
  · obtain ⟨t, rankVal, next, hbuild, hlog, -, hstarts, hperm, hdecodes⟩ := readDtableX1Checked_ok hsingle h
    obtain ⟨t2, hbuild2, hlog2, -, hdecodes2⟩ := readDtableX2Checked_ok hdouble h
    refine ⟨readStats_describes h, t, t2, rankVal, next, hbuild, hbuild2, hlog, hlog2, hstarts, hperm, ?_, ?_⟩
    · exact hdecodes.answers
    · exact fun v hv => (hdecodes2.answers v hv).firstSymbols hdecodes

deriving instance DecidableEq for Stats

/-- Three symbols, of two, two and one bits. -/
theorem description_parsed_small :
    ∃ t t2, readDtableX1Checked ⟨0, List.replicate dtableSize default⟩ [129, 17] = some (.ok (t, 2)) ∧
      readDtableX2Checked ⟨0, List.replicate dtableSize default⟩ [129, 17] = some (.ok (t2, 2)) ∧
      t.tableLog = 2 ∧ t2.tableLog = decoderFastTablelog ∧
      ∀ v < 2 ^ t2.tableLog, FirstSymbols t t2.tableLog v (t2.entries.getD v default) := by
  have hread : readStats [129, 17] =
      .ok ⟨[1, 1, 2], [0, 2, 1, 0, 0, 0, 0, 0, 0, 0, 0, 0, 0], 3, 2, 2⟩ := by decide +kernel
  obtain ⟨-, -, hparsed⟩ := description_parsed [129, 17] ⟨0, List.replicate dtableSize default⟩
    ⟨0, List.replicate dtableSize default⟩ List.length_replicate List.length_replicate
  obtain ⟨-, t, t2, -, -, hbuild, hbuild2, hlog, hlog2, -, -, -, hfirst⟩ := hparsed _ hread
  exact ⟨t, t2, hbuild, hbuild2, hlog, hlog2, hfirst⟩

end Huff0

end Zstandard
