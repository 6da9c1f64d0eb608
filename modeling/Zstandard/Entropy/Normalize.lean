/-
Normalizing a histogram: counts that fill a table exactly, and none lost.

The first way rounds every share and gives the rest to the largest; where that would take too much from
it, the second way fixes the small shares and divides what remains in proportion. In both the slots sum
to the size of the table, and a symbol has a count if and only if it occurs.
-/
import Zstandard.Entropy.Normalized

namespace Zstandard

namespace Fse

/-! ## The table log -/

def rtbTable : List Nat := [0, 473195, 504333, 520860, 550000, 700000, 750000, 830000]

def minBitsSymbols (maxSymbolValue : Nat) : Nat :=
  if maxSymbolValue = 0 then 1 else highbit32 maxSymbolValue + 2

/-- The narrowest table log that can hold every symbol the counts can contain. The size is cut to 32 bits
first; of zero the leading zeros are 32, and `31 ^ 32` is 63. -/
def minTableLog (srcSize maxSymbolValue : Nat) : Nat :=
  let cut := max srcSize 2 % 2 ^ 32
  let minBitsSrc := (if cut = 0 then 63 else highbit32 cut) + 1
  min minBitsSrc (minBitsSymbols maxSymbolValue)

def optimalTableLog (maxTableLog srcSize maxSymbolValue : Nat) : Nat :=
  let srcSize := max srcSize 2
  let maxTableLog := max minTablelog (min maxTableLog tablelogMax)
  let maxBitsSrc := highbit32 ((srcSize - 1) % 2 ^ 32) - 2
  let minBits := minTableLog srcSize maxSymbolValue
  let tableLog := if maxBitsSrc < maxTableLog then max maxBitsSrc minTablelog else maxTableLog
  let tableLog := if minBits > tableLog then min minBits maxTableLog else tableLog
  max minTablelog (min tableLog maxTableLog)

/-! ## Rounding -/

/-- The share of a symbol that occurs `value` times, rounded up where the rest beats the table. -/
def probaOf (tableLog step value : Nat) : Nat :=
  let scale := 62 - tableLog
  let vStep := 2 ^ (scale - 20)
  let proba := (value * step) >>> scale
  if proba < 8 then
    let restToBeat := vStep * rtbTable.getD proba 0
    if value * step - proba <<< scale > restToBeat then proba + 1 else proba
  else proba

/-- The locals of the loop of `normalize_count`, with the counts so far. -/
structure Rounding where
  normalizedCounter : List Int
  stillToDistribute : Int
  largest : Nat
  largestP : Nat

/-- The loop: nothing when one symbol is all there is. -/
def roundCounts (tableLog total lowThreshold : Nat) (lowProbCount : Int) : List Nat → Rounding → Option Rounding
  | [], s => some s
  | value :: rest, s =>
    if value = 0 then
      roundCounts tableLog total lowThreshold lowProbCount rest
        { s with normalizedCounter := s.normalizedCounter ++ [0] }
    else if value = total then none
    else if value ≤ lowThreshold then
      roundCounts tableLog total lowThreshold lowProbCount rest { s with
        normalizedCounter := s.normalizedCounter ++ [lowProbCount], stillToDistribute := s.stillToDistribute - 1 }
    else
      let proba := probaOf tableLog (2 ^ 62 / total) value
      let s := if proba > s.largestP then { s with largestP := proba, largest := s.normalizedCounter.length } else s
      roundCounts tableLog total lowThreshold lowProbCount rest { s with
        normalizedCounter := s.normalizedCounter ++ [(proba : Int)]
        stillToDistribute := s.stillToDistribute - proba }

/-! ## Dividing in proportion -/

def notYetAssigned : Int := -2

/-- The first pass of `normalize_count_m2`: the counts, how many symbols it serves and what they take from
the total. -/
def assignLow (lowThreshold lowOne : Nat) (lowProbCount : Int) : List Nat → List Int × Nat × Nat
  | [] => ([], 0, 0)
  | count :: rest =>
    let (counter, distributed, taken) := assignLow lowThreshold lowOne lowProbCount rest
    if count = 0 then (0 :: counter, distributed, taken)
    else if count ≤ lowThreshold then (lowProbCount :: counter, distributed + 1, taken + count)
    else if count ≤ lowOne then (1 :: counter, distributed + 1, taken + count)
    else (notYetAssigned :: counter, distributed, taken)

/-- The second pass: one slot each for the small ones of those that are left. -/
def assignOne (lowOne : Nat) : List Nat → List Int → List Int × Nat × Nat
  | count :: rest, n :: ns =>
    let (counter, distributed, taken) := assignOne lowOne rest ns
    if n = notYetAssigned ∧ count ≤ lowOne then (1 :: counter, distributed + 1, taken + count)
    else (n :: counter, distributed, taken)
  | _, _ => ([], 0, 0)

/-- The first symbol with the largest count. -/
def maxSymbolOf : List Nat → Nat → Nat → Nat → Nat
  | [], _, maxSymbol, _ => maxSymbol
  | count :: rest, symbol, maxSymbol, maxCount =>
    if count > maxCount then maxSymbolOf rest (symbol + 1) symbol count
    else maxSymbolOf rest (symbol + 1) maxSymbol maxCount

/-- One slot more for each symbol with a positive count in turn. A turn that never comes is a loop that
does not end. -/
def dealOut : Nat → Nat → Nat → List Int → Result (List Int)
  | _, 0, _, counter => .ok counter
  | 0, _, _, _ => .error .generic
  | fuel + 1, toDistribute + 1, symbol, counter =>
    if counter.getD symbol 0 > 0 then
      dealOut fuel toDistribute ((symbol + 1) % counter.length) (counter.set symbol (counter.getD symbol 0 + 1))
    else dealOut fuel (toDistribute + 1) ((symbol + 1) % counter.length) counter

/-- The shares of those that are left. -/
def assignRest (vStepLog rStep : Nat) : List Nat → List Int → Nat → Result (List Int)
  | count :: rest, n :: ns, tmpTotal =>
    if n = notYetAssigned then
      let stop := tmpTotal + count * rStep
      let weight := (stop >>> vStepLog) - (tmpTotal >>> vStepLog)
      if weight < 1 then .error .generic else do
      let counter ← assignRest vStepLog rStep rest ns stop
      .ok ((weight : Int) :: counter)
    else do
      let counter ← assignRest vStepLog rStep rest ns tmpTotal
      .ok (n :: counter)
  | _, _, _ => .ok []

/-- A subtraction below zero is an overflow: a panic in a debug build. -/
def checkedSub (a b : Nat) : Result Nat := if b ≤ a then .ok (a - b) else .error .generic

/-- The end of `normalize_count_m2`: `distributed` symbols have a slot, and the others occur `total` times. -/
def normalizeRest (tableLog distributed total : Nat) (counts : List Nat) (counter : List Int) : Result (List Int) := do
  let toDistribute ← checkedSub (2 ^ tableLog) distributed
  if distributed = counts.length then
    let maxSymbol := maxSymbolOf counts 0 0 0
    .ok (counter.set maxSymbol (counter.getD maxSymbol 0 + toDistribute))
  else if total = 0 then dealOut (toDistribute * counts.length) toDistribute 0 counter
  else
    let vStepLog := 62 - tableLog
    let mid := 2 ^ (vStepLog - 1) - 1
    let rStep := (2 ^ vStepLog * toDistribute + mid) / total
    assignRest vStepLog rStep counts counter mid

def normalizeCountM2 (tableLog total : Nat) (counts : List Nat) (lowProbCount : Int) : Result (List Int) := do
  let lowOne := ((total * 3) >>> (tableLog + 1)) % 2 ^ 32
  let (counter, distributed, taken) := assignLow ((total >>> tableLog) % 2 ^ 32) lowOne lowProbCount counts
  let total ← checkedSub total taken
  let toDistribute ← checkedSub (2 ^ tableLog) distributed
  if toDistribute = 0 then .ok counter
  else if total / toDistribute % 2 ^ 32 > lowOne then do
    let (counter, more, taken) := assignOne ((total * 3) / (toDistribute * 2) % 2 ^ 32) counts counter
    let total ← checkedSub total taken
    normalizeRest tableLog (distributed + more) total counts counter
  else normalizeRest tableLog distributed total counts counter

/-- `normalize_count`: the table log, which is zero when one symbol is all there is, and the normalized
counts of the alphabet. -/
def normalizeCount (counterLen tableLog : Nat) (count : List Nat) (total maxSymbolValue : Nat)
    (useLowProbCount : Bool) : Result (Nat × List Int) :=
  if maxSymbolValue > symbolvalueMax ∨ maxSymbolValue ≥ counterLen ∨ maxSymbolValue ≥ count.length then
    .error .maxSymbolValueTooLarge
  else if total < 2 then .error (.invalidParameter "FSE normalization requires at least two symbols")
  else if ¬ (minTablelog ≤ tableLog ∧ tableLog ≤ tablelogMax) then .error .tableLogTooLarge
  else if tableLog < minTableLog total maxSymbolValue then .error .generic
  else
    let lowProbCount : Int := if useLowProbCount then -1 else 1
    let counts := count.take (maxSymbolValue + 1)
    match roundCounts tableLog total ((total >>> tableLog) % 2 ^ 32) lowProbCount counts
        { normalizedCounter := [], stillToDistribute := 2 ^ tableLog, largest := 0, largestP := 0 } with
    | none => .ok (0, [])
    | some s =>
      if -s.stillToDistribute ≥ s.normalizedCounter.getD s.largest 0 / 2 then do
        let counter ← normalizeCountM2 tableLog total counts lowProbCount
        .ok (tableLog, counter)
      else
        .ok (tableLog, s.normalizedCounter.set s.largest (s.normalizedCounter.getD s.largest 0 + s.stillToDistribute))

/-! ## What is left to assign -/

/-- Counts of which some are assigned: `distributed` symbols have a slot, and `pending` symbols, which
occur `total` times together and each more than `floor` times, wait for theirs. A count of -1 is one of at
most `low`. -/
inductive Partly (low floor : Nat) : List Nat → List Int → Nat → Nat → Nat → Prop
  | nil : Partly low floor [] [] 0 0 0
  | absent {counts : List Nat} {ns : List Int} {distributed total pending : Nat} :
    Partly low floor counts ns distributed total pending →
    Partly low floor (0 :: counts) (0 :: ns) distributed total pending
  | one {count : Nat} {counts : List Nat} {ns : List Int} {distributed total pending : Nat} : 0 < count →
    Partly low floor counts ns distributed total pending →
    Partly low floor (count :: counts) (1 :: ns) (distributed + 1) total pending
  | low {count : Nat} {counts : List Nat} {ns : List Int} {distributed total pending : Nat} : 0 < count → count ≤ low →
    Partly low floor counts ns distributed total pending →
    Partly low floor (count :: counts) (-1 :: ns) (distributed + 1) total pending
  | later {count : Nat} {counts : List Nat} {ns : List Int} {distributed total pending : Nat} : 0 < count →
    floor < count → Partly low floor counts ns distributed total pending →
    Partly low floor (count :: counts) (notYetAssigned :: ns) distributed (total + count) (pending + 1)

/-- The symbols that occur. -/
def occurring (counts : List Nat) : Nat := counts.countP (· ≠ 0)

@[simp] theorem occurring_nil : occurring [] = 0 := rfl

theorem occurring_cons (count : Nat) (counts : List Nat) :
    occurring (count :: counts) = occurring counts + if count ≠ 0 then 1 else 0 := by
  unfold occurring
  rw [List.countP_cons]
  by_cases h : count = 0 <;> simp [h]

theorem occurring_le_length (counts : List Nat) : occurring counts ≤ counts.length := List.countP_le_length

theorem occurring_le_sum : ∀ counts : List Nat, occurring counts ≤ counts.sum
  | [] => le_refl 0
  | count :: counts => by
    have := occurring_le_sum counts
    rw [occurring_cons, List.sum_cons]
    split <;> omega

/-- When no symbol occurs more than `low` times, many occur. -/
theorem sum_le_occurring {low : Nat} : ∀ {counts : List Nat}, (∀ c ∈ counts, c ≤ low) →
    counts.sum ≤ occurring counts * low
  | [], _ => Nat.zero_le _
  | count :: counts, h => by
    have ih := sum_le_occurring fun c hc => h c (List.mem_cons_of_mem _ hc)
    have := h count List.mem_cons_self
    rw [occurring_cons, List.sum_cons]
    by_cases h0 : count = 0
    · rw [if_neg (by simpa using h0), Nat.add_zero]
      omega
    · rw [if_pos h0, Nat.add_mul, Nat.one_mul]
      omega

/-- Only a table with a slot for each symbol has shares of less than one slot throughout. -/
theorem occurring_of_low {tableLog : Nat} {counts : List Nat} (hpos : 0 < counts.sum)
    (h : ∀ c ∈ counts, c ≤ counts.sum >>> tableLog) : 2 ^ tableLog ≤ occurring counts := by
  have hsum := sum_le_occurring h
  rw [Nat.shiftRight_eq_div_pow] at hsum
  by_contra hlt
  have h1 : occurring counts * (counts.sum / 2 ^ tableLog) * 2 ^ tableLog ≤ occurring counts * counts.sum := by
    rw [Nat.mul_assoc]
    exact Nat.mul_le_mul_left _ (Nat.div_mul_le_self _ _)
  have h2 : counts.sum * 2 ^ tableLog ≤ occurring counts * counts.sum :=
    le_trans (Nat.mul_le_mul_right _ hsum) h1
  have h3 : occurring counts * counts.sum < 2 ^ tableLog * counts.sum := Nat.mul_lt_mul_of_pos_right (by omega) hpos
  rw [Nat.mul_comm counts.sum] at h2
  omega

/-- The counts that normalizing arrives at: a slot at least for each symbol that occurs, none for another. -/
structure Served (counts : List Nat) (ns : List Int) (slots : Nat) : Prop where
  length : ns.length = counts.length
  atLeast : ∀ n ∈ ns, -1 ≤ n
  total : slotTotal ns = slots
  absent : ∀ i, ns.getD i 0 = 0 ↔ counts.getD i 0 = 0

theorem Served.nil : Served [] [] 0 := ⟨rfl, by simp, rfl, by simp⟩

theorem Served.cons {count : Nat} {n : Int} {counts : List Nat} {ns : List Int} {slots : Nat}
    (h : Served counts ns slots)
    (hn : -1 ≤ n) (h0 : n = 0 ↔ count = 0) : Served (count :: counts) (n :: ns) (n.natAbs + slots) := by
  refine ⟨by rw [List.length_cons, h.length, List.length_cons], ?_, ?_, ?_⟩
  · intro m hm
    rcases List.mem_cons.1 hm with rfl | hm
    · exact hn
    · exact h.atLeast m hm
  · rw [← h.total]
    simp [slotTotal]
  · intro i
    cases i with
    | zero => simpa using h0
    | succ i => simpa using h.absent i

section
variable {low floor : Nat} {counts : List Nat} {ns : List Int} {distributed total pending : Nat}

theorem Partly.length (h : Partly low floor counts ns distributed total pending) : ns.length = counts.length := by
  induction h with
  | nil => rfl
  | absent _ ih | one _ _ ih | low _ _ _ ih | later _ _ _ ih => rw [List.length_cons, List.length_cons, ih]

theorem Partly.occurring_eq (h : Partly low floor counts ns distributed total pending) :
    occurring counts = distributed + pending := by
  induction h with
  | nil => rfl
  | absent _ ih =>
    rw [occurring_cons, ih]
    rfl
  | one hpos _ ih =>
    rw [occurring_cons, ih, if_pos (by omega)]
    omega
  | low hpos _ _ ih =>
    rw [occurring_cons, ih, if_pos (by omega)]
    omega
  | later hpos _ _ ih =>
    rw [occurring_cons, ih, if_pos (by omega)]
    omega

theorem Partly.add_le_sum (h : Partly low floor counts ns distributed total pending) :
    distributed + total ≤ counts.sum := by
  induction h with
  | nil => exact le_refl 0
  | absent _ ih | one _ _ ih | low _ _ _ ih | later _ _ _ ih =>
    rw [List.sum_cons]
    omega

/-- Who waits occurs. -/
theorem Partly.pending_le (h : Partly low floor counts ns distributed total pending) : pending ≤ total := by
  induction h with
  | nil => exact le_refl 0
  | absent _ ih | one _ _ ih | low _ _ _ ih => exact ih
  | later hpos _ _ ih => omega

theorem Partly.total_le_pending {most : Nat} (h : Partly low floor counts ns distributed total pending)
    (hmost : ∀ c ∈ counts, c ≤ most) : total ≤ pending * most := by
  induction h with
  | nil => exact Nat.zero_le _
  | absent _ ih | one _ _ ih | low _ _ _ ih => exact ih fun c hc => hmost c (List.mem_cons_of_mem _ hc)
  | later _ _ _ ih =>
    have := ih fun c hc => hmost c (List.mem_cons_of_mem _ hc)
    have := hmost _ List.mem_cons_self
    rw [Nat.add_mul, Nat.one_mul]
    omega

/-- With nobody waiting every symbol has one slot. -/
theorem Partly.served (h : Partly low floor counts ns distributed total pending) (hnone : pending = 0) :
    Served counts ns distributed := by
  induction h with
  | nil => exact .nil
  | absent _ ih => simpa using (ih hnone).cons (show (-1 : Int) ≤ 0 by norm_num) (show (0 : Int) = 0 ↔ 0 = 0 by simp)
  | @one count _ _ _ _ _ hpos _ ih =>
    rw [Nat.add_comm]
    exact (ih hnone).cons (show (-1 : Int) ≤ 1 by norm_num) (show (1 : Int) = 0 ↔ count = 0 by omega)
  | @low count _ _ _ _ _ hpos _ _ ih =>
    rw [Nat.add_comm]
    exact (ih hnone).cons (show (-1 : Int) ≤ -1 by norm_num) (show (-1 : Int) = 0 ↔ count = 0 by omega)
  | later _ _ _ _ => omega

/-- Where nobody waits and no symbol has a positive count, none occurs more than `low` times. -/
theorem Partly.le_low (h : Partly low floor counts ns distributed total pending) (hnone : pending = 0)
    (hns : ∀ n ∈ ns, n ≤ 0) : ∀ c ∈ counts, c ≤ low := by
  induction h with
  | nil => simp
  | absent _ ih =>
    intro c hc
    rcases List.mem_cons.1 hc with rfl | hc
    · exact Nat.zero_le _
    · exact ih hnone (fun n hn => hns n (List.mem_cons_of_mem _ hn)) c hc
  | one => exact absurd (hns 1 List.mem_cons_self) (by norm_num)
  | low _ hlow _ ih =>
    intro c hc
    rcases List.mem_cons.1 hc with rfl | hc
    · exact hlow
    · exact ih hnone (fun n hn => hns n (List.mem_cons_of_mem _ hn)) c hc
  | later => omega

/-- A symbol that occurs more than `low` times does not have a count of -1. -/
theorem Partly.getD_one (h : Partly low floor counts ns distributed total pending) (hnone : pending = 0) :
    ∀ {i : Nat}, low < counts.getD i 0 → ns.getD i 0 = 1 := by
  induction h with
  | nil => simp
  | absent _ ih =>
    intro i hi
    cases i with
    | zero => simp at hi
    | succ i => simpa using ih hnone (by simpa using hi)
  | one _ _ ih =>
    intro i hi
    cases i with
    | zero => rfl
    | succ i => simpa using ih hnone (by simpa using hi)
  | low _ hlow _ ih =>
    intro i hi
    cases i with
    | zero => exact absurd hlow (by simpa using hi)
    | succ i => simpa using ih hnone (by simpa using hi)
  | later => omega

theorem assignLow_partly {lowOne : Nat} {lowProbCount : Int} (hlow : lowProbCount = 1 ∨ lowProbCount = -1) :
    ∀ counts : List Nat, ∃ pending, Partly low lowOne counts (assignLow low lowOne lowProbCount counts).1
        (assignLow low lowOne lowProbCount counts).2.1
        (counts.sum - (assignLow low lowOne lowProbCount counts).2.2) pending ∧
      (assignLow low lowOne lowProbCount counts).2.2 ≤ counts.sum
  | [] => ⟨0, .nil, le_refl 0⟩
  | count :: counts => by
    obtain ⟨pending, ih, hle⟩ := assignLow_partly hlow counts
    unfold assignLow
    generalize assignLow low lowOne lowProbCount counts = r at *
    obtain ⟨ns, distributed, taken⟩ := r
    simp only at ih hle ⊢
    rw [List.sum_cons]
    by_cases h0 : count = 0
    · rw [if_pos h0]
      subst h0
      rw [Nat.zero_add]
      exact ⟨pending, .absent ih, hle⟩
    · rw [if_neg h0]
      by_cases h1 : count ≤ low
      · rw [if_pos h1]
        simp only
        refine ⟨pending, ?_, by omega⟩
        rw [Nat.add_comm taken count, Nat.add_sub_add_left]
        rcases hlow with rfl | rfl
        · exact .one (by omega) ih
        · exact .low (by omega) h1 ih
      · rw [if_neg h1]
        by_cases h2 : count ≤ lowOne
        · rw [if_pos h2]
          simp only
          refine ⟨pending, ?_, by omega⟩
          rw [Nat.add_comm taken count, Nat.add_sub_add_left]
          exact .one (by omega) ih
        · rw [if_neg h2]
          simp only
          refine ⟨pending + 1, ?_, by omega⟩
          rw [show count + counts.sum - taken = counts.sum - taken + count by omega]
          exact .later (by omega) (by omega) ih

/-- Whoever the second pass serves occurs more than `floor` times. -/
theorem assignOne_partly {lowOne : Nat} (h : Partly low floor counts ns distributed total pending) :
    ∃ pending', Partly low lowOne counts (assignOne lowOne counts ns).1 (distributed + (assignOne lowOne counts ns).2.1)
        (total - (assignOne lowOne counts ns).2.2) pending' ∧ (assignOne lowOne counts ns).2.2 ≤ total ∧
      (assignOne lowOne counts ns).2.1 * (floor + 1) ≤ (assignOne lowOne counts ns).2.2 := by
  induction h with
  | nil => exact ⟨0, .nil, le_refl 0, by simp [assignOne]⟩
  | absent _ ih =>
    obtain ⟨pending', ih, hle⟩ := ih
    unfold assignOne
    simp only
    rw [if_neg (by unfold notYetAssigned; omega)]
    exact ⟨pending', .absent ih, hle⟩
  | one hpos _ ih =>
    obtain ⟨pending', ih, hle⟩ := ih
    unfold assignOne
    simp only
    rw [if_neg (by unfold notYetAssigned; omega)]
    simp only
    rw [Nat.add_right_comm]
    exact ⟨pending', .one hpos ih, hle⟩
  | low hpos hlow _ ih =>
    obtain ⟨pending', ih, hle⟩ := ih
    unfold assignOne
    simp only
    rw [if_neg (by unfold notYetAssigned; omega)]
    simp only
    rw [Nat.add_right_comm]
    exact ⟨pending', .low hpos hlow ih, hle⟩
  | @later count counts ns distributed total pending hpos hfloor _ ih =>
    obtain ⟨pending', ih, hle, htaken⟩ := ih
    unfold assignOne
    generalize assignOne lowOne counts ns = r at *
    obtain ⟨ns', more, taken⟩ := r
    dsimp only at ih hle htaken ⊢
    by_cases hone : notYetAssigned = notYetAssigned ∧ count ≤ lowOne
    · rw [if_pos hone]
      dsimp only
      refine ⟨pending', ?_, by omega, ?_⟩
      · rw [← Nat.add_assoc, Nat.add_sub_add_right]
        exact .one hpos ih
      · rw [Nat.add_mul, Nat.one_mul]
        omega
    · rw [if_neg hone]
      dsimp only
      refine ⟨pending' + 1, ?_, by omega, htaken⟩
      rw [show total + count - taken = total - taken + count by omega]
      exact .later hpos (by omega) ih

theorem shiftRight_mono {a b k : Nat} (h : a ≤ b) : a >>> k ≤ b >>> k := by
  rw [Nat.shiftRight_eq_div_pow, Nat.shiftRight_eq_div_pow]
  exact Nat.div_le_div_right h

theorem shiftRight_lt {a b k : Nat} (h : a + 2 ^ k ≤ b) : a >>> k < b >>> k := by
  rw [Nat.shiftRight_eq_div_pow, Nat.shiftRight_eq_div_pow]
  calc a / 2 ^ k < (a + 2 ^ k) / 2 ^ k := by rw [Nat.add_div_right _ (by positivity)]; omega
    _ ≤ b / 2 ^ k := Nat.div_le_div_right h

/-- Dividing in proportion: where the rarest of those that wait is due a slot, each gets one, and the shares
are the steps of one running total. -/
theorem assignRest_served {vStepLog rStep : Nat} (h : Partly low floor counts ns distributed total pending)
    (hone : 2 ^ vStepLog ≤ (floor + 1) * rStep) :
    ∀ tmpTotal : Nat, ∃ ns', assignRest vStepLog rStep counts ns tmpTotal = .ok ns' ∧
      Served counts ns' (distributed + ((tmpTotal + total * rStep) >>> vStepLog - tmpTotal >>> vStepLog)) := by
  induction h with
  | nil => exact fun tmpTotal => ⟨[], rfl, by simpa using Served.nil⟩
  | absent _ ih =>
    intro tmpTotal
    obtain ⟨ns', heq, hs⟩ := ih tmpTotal
    refine ⟨0 :: ns', ?_, by simpa using hs.cons (show (-1 : Int) ≤ 0 by norm_num) (show (0 : Int) = 0 ↔ 0 = 0 by simp)⟩
    unfold assignRest
    rw [if_neg (by unfold notYetAssigned; norm_num), heq]
    rfl
  | @one count _ _ _ _ _ hpos _ ih =>
    intro tmpTotal
    obtain ⟨ns', heq, hs⟩ := ih tmpTotal
    refine ⟨1 :: ns', ?_, ?_⟩
    · unfold assignRest
      rw [if_neg (by unfold notYetAssigned; norm_num), heq]
      rfl
    · have := hs.cons (show (-1 : Int) ≤ 1 by norm_num) (show (1 : Int) = 0 ↔ count = 0 by omega)
      rwa [Int.natAbs_one, ← Nat.add_assoc, Nat.add_comm 1] at this
  | @low count _ _ _ _ _ hpos _ _ ih =>
    intro tmpTotal
    obtain ⟨ns', heq, hs⟩ := ih tmpTotal
    refine ⟨-1 :: ns', ?_, ?_⟩
    · unfold assignRest
      rw [if_neg (by unfold notYetAssigned; norm_num), heq]
      rfl
    · have := hs.cons (show (-1 : Int) ≤ -1 by norm_num) (show (-1 : Int) = 0 ↔ count = 0 by omega)
      rwa [show (-1 : Int).natAbs = 1 by rfl, ← Nat.add_assoc, Nat.add_comm 1] at this
  | @later count counts ns distributed total pending hpos hfloor _ ih =>
    intro tmpTotal
    obtain ⟨ns', heq, hs⟩ := ih (tmpTotal + count * rStep)
    have hstep : tmpTotal >>> vStepLog < (tmpTotal + count * rStep) >>> vStepLog := by
      apply shiftRight_lt
      have : (floor + 1) * rStep ≤ count * rStep := Nat.mul_le_mul_right _ hfloor
      omega
    refine ⟨(((tmpTotal + count * rStep) >>> vStepLog - tmpTotal >>> vStepLog : Nat) : Int) :: ns', ?_, ?_⟩
    · unfold assignRest
      rw [if_pos rfl]
      simp only
      rw [if_neg (by omega), heq]
      rfl
    · have := hs.cons (show (-1 : Int) ≤ (((tmpTotal + count * rStep) >>> vStepLog - tmpTotal >>> vStepLog : Nat) : Int)
        by omega) (show _ ↔ count = 0 by omega)
      rw [Int.natAbs_natCast] at this
      have hmono : (tmpTotal + count * rStep) >>> vStepLog ≤ (tmpTotal + count * rStep + total * rStep) >>> vStepLog :=
        shiftRight_mono (by omega)
      convert this using 1
      rw [Nat.add_mul, show tmpTotal + (total * rStep + count * rStep) = tmpTotal + count * rStep +
        total * rStep by ring]
      omega

end

end Fse

end Zstandard
