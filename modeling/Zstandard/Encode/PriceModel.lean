/-
The price model of the optimal parser: frequencies of the codes of a frame's sequences and of its literals, the
weights that are logarithms of them, and the prices, a base price minus the weight of a symbol.

Whatever would wrap or leave the type is the error `wrapped`, and so is a cast that is not exact. `unsound` is no
error of the code: it ends a run in which the weight of a sum is taken that is zero or not the sum of its frequencies,
as `marked` ends one in which a price reaches the marker of unreachable nodes.
-/
import Zstandard.Library.Avoids
import Zstandard.Encode.CodeHistogram

namespace Zstandard

open Outcome

/-! ## Arithmetic -/

inductive PriceFault where
  /-- Arithmetic on unsigned or signed numbers of 32 bits that is not exact. -/
  | wrapped
  /-- A price as large as the marker of a node that cannot be reached. -/
  | marked
  /-- A weight taken of a sum that is not the sum of its frequencies, or is zero. -/
  | unsound
  /-- An index past the end, which ends the program. -/
  | outside
  /-- A sequence that does not resolve, which ends the parse. -/
  | refused
  /-- The run goes on. -/
  | unfinished
deriving DecidableEq, Repr

/-- The faults that this is about. -/
def PriceFault.Bad : PriceFault → Prop
  | .wrapped | .marked | .unsound => True
  | .outside | .refused | .unfinished => False

/-- A computation that the arithmetic of prices may stop. -/
abbrev Priced (α : Type) := Except PriceFault α

/-- A sum that has to fit. -/
def addU32 (a b : Nat) : Priced Nat := if a + b < 2 ^ 32 then .ok (a + b) else .error .wrapped

/-- A difference that has to be there. -/
def subU32 (a b : Nat) : Priced Nat := if b ≤ a then .ok (a - b) else .error .wrapped

/-- `freq[code]` -/
def statAt (freq : List Nat) (code : Nat) : Priced Nat :=
  match freq[code]? with
  | some count => .ok count
  | none => .error .outside

/-- `freq[code] += by`. -/
def bumpStat (freq : List Nat) (code amount : Nat) : Priced (List Nat) := do
  let count ← addU32 (← statAt freq code) amount
  .ok (freq.set code count)

/-- `freq.iter().sum()`. -/
def sumStats (freq : List Nat) : Priced Nat := freq.foldlM addU32 0

/-! ## Weights -/

/-- A bit, in the unit of prices. -/
def optPriceUnit : Nat := 256

/-- What a literal adds to the frequency of its byte. -/
def optLiteralFreqAdd : Nat := 2

/-- Shorter blocks are priced without statistics. -/
def optPredefinedThreshold : Nat := 8

/-- `saturating_add(1)`. -/
def saturatingSucc (stat : Nat) : Nat := min (stat + 1) (2 ^ 32 - 1)

/-- The weight of a frequency in whole bits. -/
def optimalBitWeight (stat : Nat) : Nat := highbit32 (saturatingSucc stat) * optPriceUnit

/-- The shift drops what leaves the 32 bits. -/
def optimalFractionalWeight (rawStat : Nat) : Nat :=
  let stat := saturatingSucc rawStat
  let highBit := highbit32 stat
  highBit * optPriceUnit + (stat <<< 8 % 2 ^ 32) >>> highBit

/-! ## Statistics -/

/-- The frequencies of literals and codes with their sums: `OptimalPriceState`, and what a dictionary seeds. -/
structure OptimalPriceState where
  litFreq : List Nat
  litSum : Nat
  llFreq : List Nat
  llSum : Nat
  mlFreq : List Nat
  mlSum : Nat
  ofFreq : List Nat
  ofSum : Nat
deriving DecidableEq, Repr

/-- `scale_stats`: the frequencies scaled down to a sum around `2 ^ logTarget`, none to zero. -/
def scaleStats (freq : List Nat) (logTarget : Nat) : Priced (List Nat × Nat) := do
  let prevSum ← sumStats freq
  let factor := prevSum >>> logTarget
  if factor ≤ 1 then .ok (freq, prevSum) else
  let shift := highbit32 factor
  let freq := freq.map fun f => 1 + f >>> shift
  .ok (freq, ← sumStats freq)

/-- Frequencies of the blocks before, scaled down for the next. -/
def OptimalPriceState.rescale (state : OptimalPriceState) : Priced OptimalPriceState := do
  let (litFreq, litSum) ← scaleStats state.litFreq 12
  let (llFreq, llSum) ← scaleStats state.llFreq 11
  let (mlFreq, mlSum) ← scaleStats state.mlFreq 11
  let (ofFreq, ofSum) ← scaleStats state.ofFreq 11
  .ok { litFreq, litSum, llFreq, llSum, mlFreq, mlSum, ofFreq, ofSum }

/-- A frequency from the bits that a dictionary's table spends on a symbol, at least one. -/
def seedFreq (scaleLog bitCost : Nat) : Nat := if bitCost > 0 then 1 <<< (scaleLog - bitCost) else 1

/-- `optimal_price_seed`, from the bits that the four tables spend on each symbol. -/
def optimalPriceSeed (litCost llCost mlCost ofCost : Nat → Nat) : Priced OptimalPriceState := do
  let litFreq := (List.range 256).map fun symbol => seedFreq 11 (litCost symbol)
  let llFreq := (List.range 36).map fun symbol => seedFreq 10 (llCost symbol)
  let mlFreq := (List.range 53).map fun symbol => seedFreq 10 (mlCost symbol)
  let ofFreq := (List.range 32).map fun symbol => seedFreq 10 (ofCost symbol)
  let litSum ← sumStats litFreq
  let llSum ← sumStats llFreq
  let mlSum ← sumStats mlFreq
  let ofSum ← sumStats ofFreq
  .ok { litFreq, litSum, llFreq, llSum, mlFreq, mlSum, ofFreq, ofSum }

/-! ## The model -/

/-- Whether prices follow the statistics. -/
inductive OptimalPriceType where
  | predefined | dynamic
deriving DecidableEq, Repr

/-- What the parser is built and configured with: `IS_ULTRA` and two switches. -/
structure PriceOptions where
  isUltra : Bool
  longOffsetPenalty : Bool
  compressedLiterals : Bool
deriving DecidableEq, Repr

/-- `OptimalPriceModel`. -/
structure OptimalPriceModel where
  options : PriceOptions
  priceType : OptimalPriceType
  stats : OptimalPriceState
  llSumBasePrice : Nat
  mlSumBasePrice : Nat
  ofSumBasePrice : Nat
  litSumBasePrice : Nat
  mlPriceByCode : List Nat
deriving DecidableEq, Repr

namespace OptimalPriceModel

/-- The weight of a frequency, in fractions of a bit for the ultra strategies. -/
def weight (m : OptimalPriceModel) (stat : Nat) : Nat :=
  if m.options.isUltra then optimalFractionalWeight stat else optimalBitWeight stat

/-- Watches the weight of a sum: it has to be that of the frequencies, and not zero. -/
def sumWeight (m : OptimalPriceModel) (freq : List Nat) (sum : Nat) : Priced Nat :=
  if freq.sum = sum ∧ 0 < sum then .ok (m.weight sum) else .error .unsound

/-- The price of a code: its extra bits, and the base price without the weight of its frequency. -/
def codePrice (m : OptimalPriceModel) (extraBits basePrice : Nat) (freq : List Nat) (code : Nat) : Priced Nat := do
  let price ← addU32 (extraBits * optPriceUnit) basePrice
  subU32 price (m.weight (← statAt freq code))

/-- The weights of the sums, once for each update of the statistics. -/
def setBasePrices (m : OptimalPriceModel) : Priced OptimalPriceModel := do
  let llSumBasePrice ← m.sumWeight m.stats.llFreq m.stats.llSum
  let mlSumBasePrice ← m.sumWeight m.stats.mlFreq m.stats.mlSum
  let ofSumBasePrice ← m.sumWeight m.stats.ofFreq m.stats.ofSum
  let litSumBasePrice ← (if m.options.compressedLiterals then m.sumWeight m.stats.litFreq m.stats.litSum
    else .ok m.litSumBasePrice)
  let mlPriceByCode ← (if m.priceType ≠ .predefined then
      (List.range 53).mapM fun code => do
        m.codePrice (← statAt matchLengthExtraBits code) mlSumBasePrice m.stats.mlFreq code
    else .ok m.mlPriceByCode)
  .ok { m with llSumBasePrice, mlSumBasePrice, ofSumBasePrice, litSumBasePrice, mlPriceByCode }

/-- What the statistics of a first block start from. -/
def optimalBaseLlFrequencies : List Nat := 4 :: 2 :: List.replicate 34 1

def optimalBaseOfFrequencies : List Nat := [6, 2, 1, 1, 2, 3, 4, 4, 4, 3, 2] ++ List.replicate 21 1

/-- A model of given statistics, its base prices not yet set. -/
def ofStats (options : PriceOptions) (priceType : OptimalPriceType) (stats : OptimalPriceState) : OptimalPriceModel :=
  { options, priceType, stats, llSumBasePrice := 0, mlSumBasePrice := 0, ofSumBasePrice := 0, litSumBasePrice := 0,
    mlPriceByCode := List.replicate 53 0 }

/-- The counts of the bytes, scaled down; those that do not occur stay zero. -/
def literalFrequencies (src : Bytes) : Priced (List Nat) := do
  let counts ← src.foldlM (fun counts byte => bumpStat counts byte.toNat 1) (List.replicate 256 0)
  .ok (counts.map fun freq => if freq ≠ 0 then 1 + freq >>> 8 else 0)

def new (src : Bytes) (dictSeed : Option OptimalPriceState) (options : PriceOptions) : Priced OptimalPriceModel :=
  match dictSeed with
  | some seed =>
    let stats :=
      if options.compressedLiterals then seed else { seed with litFreq := List.replicate 256 0, litSum := 0 }
    (ofStats options .dynamic stats).setBasePrices
  | none => do
    let priceType := if src.length ≤ optPredefinedThreshold then .predefined else .dynamic
    let llSum ← sumStats optimalBaseLlFrequencies
    let ofSum ← sumStats optimalBaseOfFrequencies
    let litFreq ← (if options.compressedLiterals then literalFrequencies src else .ok (List.replicate 256 0))
    let litSum ← sumStats litFreq
    let stats := { litFreq, litSum, llFreq := optimalBaseLlFrequencies, llSum, mlFreq := List.replicate 53 1,
                   mlSum := 53, ofFreq := optimalBaseOfFrequencies, ofSum }
    (ofStats options priceType stats).setBasePrices

/-- `from_persisted_state`; what is persisted of a model are its `stats`. -/
def fromPersistedState (state : OptimalPriceState) (options : PriceOptions) : Priced OptimalPriceModel :=
  (ofStats options .dynamic state).setBasePrices

/-- The price of a literal byte, a bit at least. -/
def literalBytePrice (m : OptimalPriceModel) (byte : UInt8) : Priced Nat :=
  if m.options.compressedLiterals = false then .ok (8 * optPriceUnit) else
  match m.priceType with
  | .predefined => .ok (6 * optPriceUnit)
  | .dynamic => do
    let cap ← subU32 m.litSumBasePrice optPriceUnit
    let discount := min (m.weight (← statAt m.stats.litFreq byte.toNat)) cap
    subU32 m.litSumBasePrice discount

/-- The price of a literal length. -/
def llPrice (m : OptimalPriceModel) (literalLength : Nat) : Priced Nat :=
  if m.priceType = .predefined then .ok (m.weight literalLength) else do
  let llCode := literalLengthCodeUnchecked literalLength
  m.codePrice (← statAt literalLengthExtraBits llCode) m.llSumBasePrice m.stats.llFreq llCode

/-- `offset_code_unchecked` as the parser uses it: there is no highest bit of zero. -/
def offsetCodeOf (offsetValue : Nat) : Priced Nat :=
  if offsetValue = 0 then .error .wrapped else .ok (offsetCodeUnchecked offsetValue)

/-- `match_length_code_unchecked` as the parser uses it: the length minus three. -/
def matchLengthCodeOf (matchLength : Nat) : Priced Nat := do
  let _ ← subU32 matchLength 3
  .ok (matchLengthCodeUnchecked matchLength)

/-- The price of an offset, with a surcharge on long ones where the options ask for it. -/
def offsetPrice (m : OptimalPriceModel) (offsetValue : Nat) : Priced Nat := do
  let offCode ← offsetCodeOf offsetValue
  if m.priceType = .predefined then .ok ((16 + offCode) * optPriceUnit) else
  let price ← m.codePrice offCode m.ofSumBasePrice m.stats.ofFreq offCode
  let price ← (if m.options.longOffsetPenalty ∧ offCode ≥ 20 then addU32 price ((offCode - 19) * 2 * optPriceUnit)
    else .ok price)
  addU32 price (optPriceUnit / 5)

/-- The predefined model's `wrapping_sub` is meant to wrap. -/
def matchLengthPrice (m : OptimalPriceModel) (matchLength : Nat) : Priced Nat :=
  if m.priceType = .predefined then .ok (m.weight ((matchLength + 2 ^ 32 - 3) % 2 ^ 32)) else do
  let mlCode ← matchLengthCodeOf matchLength
  statAt m.mlPriceByCode mlCode

/-- One sequence more in the statistics. -/
def updateStats (m : OptimalPriceModel) (literals : Bytes) (literalLength offsetValue matchLength : Nat) :
    Priced OptimalPriceModel := do
  let (litFreq, litSum) ← (if m.options.compressedLiterals then
      literals.foldlM (fun (litFreq, litSum) byte => do
        let litFreq ← bumpStat litFreq byte.toNat optLiteralFreqAdd
        let litSum ← addU32 litSum optLiteralFreqAdd
        .ok (litFreq, litSum)) (m.stats.litFreq, m.stats.litSum)
    else .ok (m.stats.litFreq, m.stats.litSum))
  let llCode := literalLengthCodeUnchecked literalLength
  let mlCode ← matchLengthCodeOf matchLength
  let ofCode ← offsetCodeOf offsetValue
  let llFreq ← bumpStat m.stats.llFreq llCode 1
  let llSum ← addU32 m.stats.llSum 1
  let mlFreq ← bumpStat m.stats.mlFreq mlCode 1
  let mlSum ← addU32 m.stats.mlSum 1
  let ofFreq ← bumpStat m.stats.ofFreq ofCode 1
  let ofSum ← addU32 m.stats.ofSum 1
  { m with stats := { litFreq, litSum, llFreq, llSum, mlFreq, mlSum, ofFreq, ofSum } }.setBasePrices

end OptimalPriceModel

/-! ## Weights grow with what they weigh -/

theorem log2_le_log2 {a b : Nat} (ha : a ≠ 0) (h : a ≤ b) : Nat.log2 a ≤ Nat.log2 b :=
  (Nat.le_log2 (by omega)).2 ((Nat.log2_self_le ha).trans h)

theorem saturatingSucc_bounds (stat : Nat) : 0 < saturatingSucc stat ∧ saturatingSucc stat < 2 ^ 32 := by
  unfold saturatingSucc
  omega

theorem saturatingSucc_eq {stat : Nat} (h : stat + 1 < 2 ^ 32) : saturatingSucc stat = stat + 1 := by
  unfold saturatingSucc
  omega

theorem saturatingSucc_mono {a b : Nat} (h : a ≤ b) : saturatingSucc a ≤ saturatingSucc b := by
  unfold saturatingSucc
  omega

/-- The fraction of a weight is one to two units. -/
theorem fraction_bounds {stat : Nat} (hne : stat ≠ 0) :
    256 ≤ stat * 256 / 2 ^ Nat.log2 stat ∧ stat * 256 / 2 ^ Nat.log2 stat ≤ 511 := by
  have hself := Nat.log2_self_le hne
  have hlt := Nat.lt_log2_self (n := stat)
  rw [pow_succ] at hlt
  constructor
  · rw [Nat.le_div_iff_mul_le (by positivity)]
    omega
  · apply Nat.le_of_lt_succ
    rw [Nat.div_lt_iff_lt_mul (by positivity)]
    omega

theorem optimalFractionalWeight_eq {stat : Nat} (h : stat + 1 < 2 ^ 24) :
    optimalFractionalWeight stat =
      Nat.log2 (stat + 1) * 256 + (stat + 1) * 256 / 2 ^ Nat.log2 (stat + 1) := by
  have hshift : (stat + 1) <<< 8 % 2 ^ 32 = (stat + 1) * 256 := by
    rw [Nat.shiftLeft_eq]
    omega
  unfold optimalFractionalWeight highbit32 optPriceUnit
  dsimp only
  rw [saturatingSucc_eq (by omega), hshift, Nat.shiftRight_eq_div_pow]

theorem optimalFractionalWeight_mono {a b : Nat} (h : a ≤ b) (hb : b + 1 < 2 ^ 24) :
    optimalFractionalWeight a ≤ optimalFractionalWeight b := by
  rw [optimalFractionalWeight_eq (by omega), optimalFractionalWeight_eq hb]
  have hle := log2_le_log2 (Nat.succ_ne_zero a) (Nat.succ_le_succ h)
  rcases Nat.eq_or_lt_of_le hle with heq | hlt
  · have hdiv := Nat.div_le_div_right (c := 2 ^ Nat.log2 (b + 1))
      (Nat.mul_le_mul_right 256 (Nat.succ_le_succ h))
    simp only [Nat.succ_eq_add_one] at heq hdiv
    rw [heq]
    omega
  · have ha := (fraction_bounds (Nat.succ_ne_zero a)).2
    have hb := (fraction_bounds (Nat.succ_ne_zero b)).1
    simp only [Nat.succ_eq_add_one] at ha hb hlt
    omega

/-- Where the shift drops bits, too, a weight is below 33 units. -/
theorem optimalFractionalWeight_le (stat : Nat) {n : Nat} (h : saturatingSucc stat < 2 ^ (n + 1)) :
    optimalFractionalWeight stat ≤ n * 256 + 511 := by
  have hpos := (saturatingSucc_bounds stat).1
  unfold optimalFractionalWeight highbit32 optPriceUnit
  dsimp only
  generalize saturatingSucc stat = s at *
  have hlog : Nat.log2 s ≤ n := Nat.le_of_lt_succ ((Nat.log2_lt (by omega)).2 h)
  have hfraction : (s <<< 8 % 2 ^ 32) >>> Nat.log2 s ≤ 511 := by
    have hshift : s <<< 8 % 2 ^ 32 ≤ s * 256 := by
      rw [Nat.shiftLeft_eq]
      omega
    rw [Nat.shiftRight_eq_div_pow]
    exact (Nat.div_le_div_right hshift).trans (fraction_bounds (by omega)).2
  exact Nat.add_le_add (Nat.mul_le_mul_right 256 hlog) hfraction

namespace OptimalPriceModel

variable {m : OptimalPriceModel} {a b stat bound : Nat}

theorem weight_mono (h : a ≤ b) (hb : b + 1 < 2 ^ 24) : m.weight a ≤ m.weight b := by
  unfold weight
  split
  · exact optimalFractionalWeight_mono h hb
  · exact Nat.mul_le_mul_right _ (log2_le_log2 (saturatingSucc_bounds a).1.ne' (saturatingSucc_mono h))

theorem weight_le_of_lt {n : Nat} (h : saturatingSucc stat < 2 ^ (n + 1)) :
    m.weight stat ≤ n * 256 + 511 := by
  unfold weight
  split
  · exact optimalFractionalWeight_le stat h
  · have hlog : Nat.log2 (saturatingSucc stat) ≤ n :=
      Nat.le_of_lt_succ ((Nat.log2_lt (saturatingSucc_bounds stat).1.ne').2 h)
    exact (Nat.mul_le_mul_right 256 hlog).trans (Nat.le_add_right _ _)

theorem weight_le : m.weight stat ≤ 8447 := weight_le_of_lt (saturatingSucc_bounds stat).2

/-- The weight of a sum as large as those of a block can get. -/
theorem weight_sum_le (h : stat ≤ 2 ^ 20) : m.weight stat ≤ 5631 :=
  weight_le_of_lt (n := 20) (by unfold saturatingSucc; omega)

theorem le_weight (h : 0 < stat) : 256 ≤ m.weight stat := by
  have hlog : 1 ≤ Nat.log2 (saturatingSucc stat) :=
    (Nat.le_log2 (saturatingSucc_bounds stat).1.ne').2 (by unfold saturatingSucc; omega)
  have hmul : 256 ≤ Nat.log2 (saturatingSucc stat) * 256 := Nat.le_mul_of_pos_left _ hlog
  unfold weight
  split
  · exact hmul.trans (Nat.le_add_right _ _)
  · exact hmul

end OptimalPriceModel

/-! ## Sums -/

theorem addU32_avoids {a b : Nat} (h : a + b < 2 ^ 32) : Avoids PriceFault.Bad (addU32 a b) (· = a + b) := by
  unfold addU32
  rw [if_pos h]
  exact .of_ok rfl

theorem subU32_avoids {a b : Nat} (h : b ≤ a) : Avoids PriceFault.Bad (subU32 a b) (· = a - b) := by
  unfold subU32
  rw [if_pos h]
  exact .of_ok rfl

theorem statAt_avoids (freq : List Nat) (code : Nat) :
    Avoids PriceFault.Bad (statAt freq code) (freq[code]? = some ·) := by
  unfold statAt
  cases freq[code]? with
  | none => exact .of_error id
  | some count => exact .of_ok rfl

theorem foldlM_addU32 : ∀ (l : List Nat) (a : Nat), a + l.sum < 2 ^ 32 → l.foldlM addU32 a = .ok (a + l.sum)
  | [], _, _ => rfl
  | x :: l, a, h => by
    rw [List.sum_cons] at h ⊢
    rw [List.foldlM_cons, show addU32 a x = .ok (a + x) from if_pos (by omega)]
    exact (foldlM_addU32 l (a + x) (by omega)).trans (by rw [Nat.add_assoc])

theorem sumStats_ok {freq : List Nat} (h : freq.sum < 2 ^ 32) : sumStats freq = .ok freq.sum := by
  unfold sumStats
  rw [foldlM_addU32 freq 0 (by omega), Nat.zero_add]

theorem sumStats_avoids {freq : List Nat} (h : freq.sum < 2 ^ 32) :
    Avoids PriceFault.Bad (sumStats freq) (freq.sum = ·) := by
  rw [sumStats_ok h]
  exact .of_ok rfl

theorem le_sum_of_getElem? {freq : List Nat} {code count : Nat} (h : freq[code]? = some count) : count ≤ freq.sum :=
  List.single_le_sum (fun _ _ => Nat.zero_le _) count (List.mem_of_getElem? h)

theorem sum_set_add : ∀ {freq : List Nat} {code count : Nat} (amount : Nat), freq[code]? = some count →
    (freq.set code (count + amount)).sum = freq.sum + amount
  | [], _, _, _, h => by simp at h
  | x :: freq, 0, count, amount, h => by
    cases h
    simp only [List.set_cons_zero, List.sum_cons]
    omega
  | x :: freq, code + 1, count, amount, h => by
    rw [List.getElem?_cons_succ] at h
    rw [List.set_cons_succ, List.sum_cons, List.sum_cons, sum_set_add amount h]
    omega

theorem bumpStat_avoids {freq : List Nat} {amount : Nat} (code : Nat) (h : freq.sum + amount < 2 ^ 32) :
    Avoids PriceFault.Bad (bumpStat freq code amount)
      fun freq' => freq'.length = freq.length ∧ freq'.sum = freq.sum + amount := by
  unfold bumpStat
  refine (statAt_avoids freq code).bind fun count hcount => ?_
  have hle := le_sum_of_getElem? hcount
  refine (addU32_avoids (by omega)).bind ?_
  rintro _ rfl
  exact .of_ok ⟨List.length_set, sum_set_add amount hcount⟩

/-! ## Scaling down -/

theorem sum_shiftRight_le (shift : Nat) : ∀ l : List Nat,
    (l.map fun f => 1 + f >>> shift).sum ≤ l.length + l.sum / 2 ^ shift
  | [] => by simp
  | x :: l => by
    have ih := sum_shiftRight_le shift l
    have hdiv : x / 2 ^ shift + l.sum / 2 ^ shift ≤ (x + l.sum) / 2 ^ shift := by
      rw [Nat.le_div_iff_mul_le (by positivity), Nat.add_mul]
      have h1 := Nat.div_mul_le_self x (2 ^ shift)
      have h2 := Nat.div_mul_le_self l.sum (2 ^ shift)
      omega
    rw [List.map_cons, List.sum_cons, List.sum_cons, List.length_cons, Nat.shiftRight_eq_div_pow]
    omega

/-- Scaled frequencies add up to less than twice the target and one for each symbol. -/
theorem scaleStats_avoids {freq : List Nat} {logTarget : Nat} (hsum : freq.sum < 2 ^ 32) (hlog : logTarget ≤ 12)
    (hlength : freq.length ≤ 256) :
    Avoids PriceFault.Bad (scaleStats freq logTarget) fun scaled => scaled.1.length = freq.length ∧
      scaled.1.sum = scaled.2 ∧ scaled.2 ≤ 2 ^ 14 ∧ (0 < freq.sum → 0 < scaled.2) := by
  unfold scaleStats
  refine (sumStats_avoids hsum).bind ?_
  rintro _ rfl
  dsimp only
  have htarget : 2 ^ (logTarget + 1) ≤ 2 ^ 13 := Nat.pow_le_pow_right (by norm_num) (by omega)
  split
  · rename_i hsmall
    rw [Nat.shiftRight_eq_div_pow, Nat.div_le_iff_le_mul_add_pred (by positivity)] at hsmall
    rw [pow_succ] at htarget
    refine .of_ok ⟨rfl, rfl, ?_, id⟩
    dsimp only
    have := Nat.two_pow_pos logTarget
    omega
  · rename_i hlarge
    generalize hfactor : freq.sum >>> logTarget = factor at *
    -- the sum is below the power of two above its highest bit
    have hlt := Nat.lt_log2_self (n := factor)
    have hdiv : freq.sum / 2 ^ logTarget = factor := by rw [← Nat.shiftRight_eq_div_pow, hfactor]
    conv_lhs at hlt => rw [← hdiv]
    rw [Nat.div_lt_iff_lt_mul (by positivity)] at hlt
    have hquotient : freq.sum / 2 ^ Nat.log2 factor < 2 ^ 13 := by
      rw [Nat.div_lt_iff_lt_mul (by positivity)]
      calc freq.sum < 2 ^ (Nat.log2 factor + 1) * 2 ^ logTarget := hlt
        _ = 2 ^ (logTarget + 1) * 2 ^ Nat.log2 factor := by rw [pow_succ, pow_succ]; ring
        _ ≤ 2 ^ 13 * 2 ^ Nat.log2 factor := Nat.mul_le_mul_right _ htarget
    have hle := sum_shiftRight_le (Nat.log2 factor) freq
    unfold highbit32
    rw [sumStats_ok (by omega)]
    refine .of_ok ⟨List.length_map _, rfl, ?_, fun hpos => ?_⟩
    · dsimp only
      omega
    · cases freq with
      | nil => cases hpos
      | cons x freq =>
        dsimp only
        rw [List.map_cons, List.sum_cons]
        exact Nat.add_pos_left (Nat.add_pos_left Nat.one_pos _) _

/-! ## Statistics that add up -/

/-- Every sum is that of its frequencies, at most `bound`, and not zero where its weight is taken. -/
structure OptimalPriceState.Counted (s : OptimalPriceState) (compressedLiterals : Bool) (bound : Nat) : Prop where
  litLength : s.litFreq.length ≤ 256
  llLength : s.llFreq.length ≤ 36
  mlLength : s.mlFreq.length ≤ 53
  ofLength : s.ofFreq.length ≤ 32
  litSum : s.litFreq.sum = s.litSum
  llSum : s.llFreq.sum = s.llSum
  mlSum : s.mlFreq.sum = s.mlSum
  ofSum : s.ofFreq.sum = s.ofSum
  litPos : compressedLiterals = true → 0 < s.litSum
  llPos : 0 < s.llSum
  mlPos : 0 < s.mlSum
  ofPos : 0 < s.ofSum
  litLe : s.litSum ≤ bound
  llLe : s.llSum ≤ bound
  mlLe : s.mlSum ≤ bound
  ofLe : s.ofSum ≤ bound

theorem OptimalPriceState.Counted.mono {s : OptimalPriceState} {compressedLiterals : Bool} {bound bound' : Nat}
    (h : s.Counted compressedLiterals bound) (hle : bound ≤ bound') : s.Counted compressedLiterals bound' where
  __ := h
  litLe := h.litLe.trans hle
  llLe := h.llLe.trans hle
  mlLe := h.mlLe.trans hle
  ofLe := h.ofLe.trans hle

/-- Rescaled statistics add up again, whatever the block before has added to them. -/
theorem OptimalPriceState.Counted.rescale {s : OptimalPriceState} {compressedLiterals : Bool}
    (h : s.Counted compressedLiterals (2 ^ 20)) :
    Avoids PriceFault.Bad s.rescale (·.Counted compressedLiterals (2 ^ 18)) := by
  have hlit := h.litSum ▸ h.litLe
  have hll := h.llSum ▸ h.llLe
  have hml := h.mlSum ▸ h.mlLe
  have hof := h.ofSum ▸ h.ofLe
  have hlitLength := h.litLength
  have hllLength := h.llLength
  have hmlLength := h.mlLength
  have hofLength := h.ofLength
  unfold OptimalPriceState.rescale
  refine (scaleStats_avoids (by omega) (by decide) hlitLength).bind ?_
  rintro ⟨litFreq, litSum⟩ ⟨litLen, litEq, litLe, litPos⟩
  refine (scaleStats_avoids (by omega) (by decide) (by omega)).bind ?_
  rintro ⟨llFreq, llSum⟩ ⟨llLen, llEq, llLe, llPos⟩
  refine (scaleStats_avoids (by omega) (by decide) (by omega)).bind ?_
  rintro ⟨mlFreq, mlSum⟩ ⟨mlLen, mlEq, mlLe, mlPos⟩
  refine (scaleStats_avoids (by omega) (by decide) (by omega)).bind ?_
  rintro ⟨ofFreq, ofSum⟩ ⟨ofLen, ofEq, ofLe, ofPos⟩
  dsimp only at *
  apply Avoids.of_ok
  constructor
  case litPos => exact fun hc => litPos (h.litSum ▸ h.litPos hc)
  case llPos => exact llPos (h.llSum ▸ h.llPos)
  case mlPos => exact mlPos (h.mlSum ▸ h.mlPos)
  case ofPos => exact ofPos (h.ofSum ▸ h.ofPos)
  all_goals dsimp only; omega

theorem seedFreq_bounds (scaleLog bitCost : Nat) (h : scaleLog ≤ 11) :
    1 ≤ seedFreq scaleLog bitCost ∧ seedFreq scaleLog bitCost ≤ 2 ^ 10 := by
  unfold seedFreq
  split
  · rw [Nat.one_shiftLeft]
    exact ⟨Nat.one_le_two_pow, Nat.pow_le_pow_right (by norm_num) (by omega)⟩
  · exact ⟨le_rfl, by norm_num⟩

theorem sum_bounds {l : List Nat} {low high : Nat} (h : ∀ x ∈ l, low ≤ x ∧ x ≤ high) :
    l.length * low ≤ l.sum ∧ l.sum ≤ l.length * high := by
  induction l with
  | nil => simp
  | cons x l ih =>
    have hx := h x List.mem_cons_self
    have hl := ih fun y hy => h y (List.mem_cons_of_mem _ hy)
    rw [List.sum_cons, List.length_cons, Nat.succ_mul, Nat.succ_mul]
    omega

/-- The frequencies of one table of a dictionary. -/
theorem seed_sum (scaleLog n : Nat) (cost : Nat → Nat) (hlog : scaleLog ≤ 11) :
    n ≤ ((List.range n).map fun symbol => seedFreq scaleLog (cost symbol)).sum ∧
      ((List.range n).map fun symbol => seedFreq scaleLog (cost symbol)).sum ≤ n * 2 ^ 10 := by
  have hbounds : ∀ x ∈ (List.range n).map fun symbol => seedFreq scaleLog (cost symbol), 1 ≤ x ∧ x ≤ 2 ^ 10 := by
    intro x hx
    obtain ⟨symbol, -, rfl⟩ := List.mem_map.1 hx
    exact seedFreq_bounds scaleLog (cost symbol) hlog
  have hsum := sum_bounds hbounds
  rwa [List.length_map, List.length_range, Nat.mul_one] at hsum

/-- A dictionary seeds statistics that add up, whatever its tables spend. -/
theorem optimalPriceSeed_ok (litCost llCost mlCost ofCost : Nat → Nat) :
    ∃ seed, optimalPriceSeed litCost llCost mlCost ofCost = .ok seed ∧ seed.Counted true (2 ^ 18) := by
  have hlit := seed_sum 11 256 litCost (by decide)
  have hll := seed_sum 10 36 llCost (by decide)
  have hml := seed_sum 10 53 mlCost (by decide)
  have hof := seed_sum 10 32 ofCost (by decide)
  unfold optimalPriceSeed
  dsimp only
  rw [sumStats_ok (by omega), sumStats_ok (by omega), sumStats_ok (by omega), sumStats_ok (by omega)]
  refine ⟨_, rfl, ?_⟩
  constructor
  case litLength => simp
  case llLength => simp
  case mlLength => simp
  case ofLength => simp
  case litSum => rfl
  case llSum => rfl
  case mlSum => rfl
  case ofSum => rfl
  all_goals dsimp only; omega

namespace OptimalPriceModel

variable {m : OptimalPriceModel} {bound : Nat}

/-- Statistics that add up, with their base prices. -/
structure Sound (m : OptimalPriceModel) : Prop where
  counted : m.stats.Counted m.options.compressedLiterals (2 ^ 20)
  llBase : m.llSumBasePrice = m.weight m.stats.llSum
  mlBase : m.mlSumBasePrice = m.weight m.stats.mlSum
  ofBase : m.ofSumBasePrice = m.weight m.stats.ofSum
  litBase : m.options.compressedLiterals = true → m.litSumBasePrice = m.weight m.stats.litSum
  mlPrices : m.priceType = .dynamic → ∀ price ∈ m.mlPriceByCode, price ≤ 9727

theorem sumWeight_avoids {freq : List Nat} {sum : Nat} (hsum : freq.sum = sum) (hpos : 0 < sum) :
    Avoids PriceFault.Bad (m.sumWeight freq sum) (· = m.weight sum) := by
  unfold sumWeight
  rw [if_pos ⟨hsum, hpos⟩]
  exact .of_ok rfl

/-- No frequency outweighs the sum it is part of. -/
theorem codePrice_avoids {freq : List Nat} {sum basePrice extraBits : Nat} (hsum : freq.sum = sum)
    (hle : sum ≤ 2 ^ 20) (hbase : basePrice = m.weight sum) (hextra : extraBits ≤ 31) (code : Nat) :
    Avoids PriceFault.Bad (m.codePrice extraBits basePrice freq code) (· ≤ extraBits * 256 + 5631) := by
  have hbaseLe : basePrice ≤ 5631 := hbase ▸ weight_sum_le hle
  unfold codePrice optPriceUnit
  refine (addU32_avoids (by omega)).bind ?_
  rintro _ rfl
  refine (statAt_avoids freq code).bind fun count hcount => ?_
  have hweight : m.weight count ≤ basePrice := by
    rw [hbase]
    exact weight_mono (hsum ▸ le_sum_of_getElem? hcount) (by omega)
  exact (subU32_avoids (by omega)).mono fun price hprice => by omega

theorem setBasePrices_avoids (h : m.stats.Counted m.options.compressedLiterals bound) (hbound : bound ≤ 2 ^ 20) :
    Avoids PriceFault.Bad m.setBasePrices fun m' =>
      m'.Sound ∧ m'.stats = m.stats ∧ m'.options = m.options ∧ m'.priceType = m.priceType := by
  unfold setBasePrices
  refine (sumWeight_avoids h.llSum h.llPos).bind ?_
  rintro _ rfl
  refine (sumWeight_avoids h.mlSum h.mlPos).bind ?_
  rintro _ rfl
  refine (sumWeight_avoids h.ofSum h.ofPos).bind ?_
  rintro _ rfl
  have hlit : Avoids PriceFault.Bad (if m.options.compressedLiterals then m.sumWeight m.stats.litFreq m.stats.litSum
      else .ok m.litSumBasePrice)
      fun base => m.options.compressedLiterals = true → base = m.weight m.stats.litSum := by
    split
    · rename_i hc
      exact (sumWeight_avoids h.litSum (h.litPos hc)).mono fun base hbase _ => hbase
    · rename_i hc
      exact .of_ok fun hc' => absurd hc' hc
  refine hlit.bind fun litBase hlitBase => ?_
  have hml : Avoids PriceFault.Bad (if m.priceType ≠ .predefined then
      (List.range 53).mapM fun code => do
        m.codePrice (← statAt matchLengthExtraBits code) (m.weight m.stats.mlSum) m.stats.mlFreq code
      else .ok m.mlPriceByCode) fun prices => m.priceType = .dynamic → ∀ price ∈ prices, price ≤ 9727 := by
    split
    · refine (Avoids.mapM fun code _ => ?_).mono fun prices hprices _ => hprices
      refine (statAt_avoids _ code).bind fun extraBits hextra => ?_
      have hle : extraBits ≤ 16 := by
        have htable : ∀ x ∈ matchLengthExtraBits, x ≤ 16 := by decide
        exact htable _ (List.mem_of_getElem? hextra)
      exact (codePrice_avoids h.mlSum (h.mlLe.trans hbound) rfl (by omega) code).mono fun price hprice => by omega
    · rename_i hc
      exact .of_ok fun hd => absurd (by rw [hd]; decide) hc
  refine hml.bind fun mlPrices hmlPrices => ?_
  exact .of_ok ⟨⟨h.mono hbound, rfl, rfl, rfl, hlitBase, hmlPrices⟩, rfl, rfl, rfl⟩

end OptimalPriceModel

/-! ## Statistics of a block -/

theorem bumpBytes_avoids {bytes : Bytes} {freq : List Nat} (h : freq.sum + bytes.length < 2 ^ 32) :
    Avoids PriceFault.Bad (bytes.foldlM (fun counts byte => bumpStat counts byte.toNat 1) freq)
      fun freq' => freq'.length = freq.length ∧ freq'.sum = freq.sum + bytes.length := by
  rw [← Nat.zero_add bytes.length]
  refine Avoids.foldlM_count (fun n (counts : List Nat) => counts.length = freq.length ∧ counts.sum = freq.sum + n) ?_
    ⟨rfl, rfl⟩
  intro byte _ i hi counts hcounts
  exact (bumpStat_avoids _ (by omega)).mono fun counts' h' => by omega

theorem sum_scaled_literals : ∀ counts : List Nat,
    (counts.map fun freq => if freq ≠ 0 then 1 + freq >>> 8 else 0).sum ≤ counts.length + counts.sum / 2 ^ 8 ∧
      (0 < counts.sum → 0 < (counts.map fun freq => if freq ≠ 0 then 1 + freq >>> 8 else 0).sum)
  | [] => by simp
  | x :: counts => by
    obtain ⟨hle, hpos⟩ := sum_scaled_literals counts
    simp only [List.map_cons, List.sum_cons, List.length_cons, Nat.shiftRight_eq_div_pow] at *
    split
    · omega
    · omega

theorem sum_zeros (n : Nat) : (List.replicate n 0).sum = 0 := by
  rw [List.sum_replicate, smul_zero]

namespace OptimalPriceModel

variable {m : OptimalPriceModel} {bound : Nat}

/-- The literals of a block that is not empty do not scale to nothing. -/
theorem literalFrequencies_avoids {src : Bytes} (hsrc : src.length ≤ 2 ^ 17) :
    Avoids PriceFault.Bad (literalFrequencies src) fun freq =>
      freq.length = 256 ∧ freq.sum ≤ 2 ^ 10 ∧ (src ≠ [] → 0 < freq.sum) := by
  unfold literalFrequencies
  refine (bumpBytes_avoids (by rw [sum_zeros]; omega)).bind ?_
  rintro counts ⟨hlength, hsum⟩
  obtain ⟨hle, hpos⟩ := sum_scaled_literals counts
  rw [sum_zeros] at hsum
  rw [List.length_replicate] at hlength
  refine .of_ok ⟨by rw [List.length_map, hlength], by omega, fun hne => hpos ?_⟩
  have := List.length_pos_of_ne_nil hne
  omega

theorem new_avoids {src : Bytes} {dictSeed : Option OptimalPriceState} (options : PriceOptions) (hne : src ≠ [])
    (hsrc : src.length ≤ 2 ^ 17) (hseed : ∀ seed ∈ dictSeed, seed.Counted true (2 ^ 18)) :
    Avoids PriceFault.Bad (new src dictSeed options) fun m =>
      m.Sound ∧ m.stats.Counted m.options.compressedLiterals (2 ^ 18) ∧ m.options = options := by
  unfold new
  cases dictSeed with
  | some seed =>
    have h := hseed seed rfl
    dsimp only
    generalize hstats : (if options.compressedLiterals then seed
      else { seed with litFreq := List.replicate 256 0, litSum := 0 }) = stats
    have hcounted : stats.Counted options.compressedLiterals (2 ^ 18) := by
      subst hstats
      split
      · rename_i hc
        rwa [hc]
      · rename_i hc
        exact { h with
          litLength := List.length_replicate.le
          litSum := sum_zeros 256
          litPos := fun hc' => absurd hc' hc
          litLe := Nat.zero_le _ }
    refine (setBasePrices_avoids (m := ofStats options .dynamic stats) hcounted (by norm_num)).mono ?_
    rintro m ⟨hsound, hs, ho, -⟩
    exact ⟨hsound, by rw [hs, ho]; exact hcounted, ho⟩
  | none =>
    dsimp only
    refine (sumStats_avoids (by decide)).bind fun llSum hll => ?_
    refine (sumStats_avoids (by decide)).bind fun ofSum hof => ?_
    have hlit : Avoids PriceFault.Bad (if options.compressedLiterals then literalFrequencies src
        else .ok (List.replicate 256 0)) fun freq => freq.length = 256 ∧ freq.sum ≤ 2 ^ 10 ∧
          (options.compressedLiterals = true → 0 < freq.sum) := by
      split
      · exact (literalFrequencies_avoids hsrc).mono fun freq h => ⟨h.1, h.2.1, fun _ => h.2.2 hne⟩
      · rename_i hc
        exact .of_ok ⟨List.length_replicate, by rw [sum_zeros]; omega, fun hc' => absurd hc' hc⟩
    refine hlit.bind ?_
    rintro litFreq ⟨hlength, hle, hpos⟩
    refine (sumStats_avoids (by omega)).bind ?_
    rintro _ rfl
    have hcounted : OptimalPriceState.Counted
        { litFreq, litSum := litFreq.sum, llFreq := optimalBaseLlFrequencies, llSum, mlFreq := List.replicate 53 1,
          mlSum := 53, ofFreq := optimalBaseOfFrequencies, ofSum } options.compressedLiterals (2 ^ 18) := by
      subst hll hof
      constructor
      case litPos => exact hpos
      case llLength => dsimp only; decide
      case mlLength => dsimp only; decide
      case ofLength => dsimp only; decide
      case litSum => rfl
      case llSum => rfl
      case mlSum => dsimp only; decide
      case ofSum => rfl
      case llPos => dsimp only; decide
      case ofPos => dsimp only; decide
      case llLe => dsimp only; decide
      case ofLe => dsimp only; decide
      all_goals dsimp only; omega
    refine (setBasePrices_avoids (m := ofStats options _ _) hcounted (by norm_num)).mono ?_
    rintro m ⟨hsound, hs, ho, -⟩
    exact ⟨hsound, by rw [hs, ho]; exact hcounted, ho⟩

theorem fromPersistedState_avoids {state : OptimalPriceState} {options : PriceOptions}
    (h : state.Counted options.compressedLiterals (2 ^ 18)) :
    Avoids PriceFault.Bad (fromPersistedState state options) fun m =>
      m.Sound ∧ m.stats.Counted m.options.compressedLiterals (2 ^ 18) ∧ m.options = options := by
  refine (setBasePrices_avoids (m := ofStats options .dynamic state) h (by norm_num)).mono ?_
  rintro m ⟨hsound, hs, ho, -⟩
  exact ⟨hsound, by rw [hs, ho]; exact h, ho⟩

/-! ## Prices -/

/-- A literal costs one unit at least: the discount is what the base price allows. -/
theorem literalBytePrice_avoids (hm : m.Sound) (byte : UInt8) :
    Avoids PriceFault.Bad (m.literalBytePrice byte) fun price => 256 ≤ price ∧ price ≤ 5631 := by
  unfold literalBytePrice optPriceUnit
  split
  · exact .of_ok (by norm_num)
  rename_i hc
  have hc' : m.options.compressedLiterals = true := by simpa using hc
  cases m.priceType with
  | predefined => exact .of_ok (by norm_num)
  | dynamic =>
    have hbase := hm.litBase hc'
    have hlow : 256 ≤ m.litSumBasePrice := hbase ▸ le_weight (hm.counted.litPos hc')
    have hhigh : m.litSumBasePrice ≤ 5631 := hbase ▸ weight_sum_le hm.counted.litLe
    dsimp only
    refine (subU32_avoids hlow).bind fun cap hcap => ?_
    refine (statAt_avoids _ _).bind fun count _ => ?_
    exact (subU32_avoids (by omega)).mono fun price hprice => by omega

theorem llPrice_avoids (hm : m.Sound) (literalLength : Nat) :
    Avoids PriceFault.Bad (m.llPrice literalLength) (· ≤ 9727) := by
  unfold llPrice
  split
  · exact .of_ok (weight_le.trans (by norm_num))
  · refine (statAt_avoids _ _).bind fun extraBits hextra => ?_
    have hle : extraBits ≤ 16 := by
      have htable : ∀ x ∈ literalLengthExtraBits, x ≤ 16 := by decide
      exact htable _ (List.mem_of_getElem? hextra)
    exact (codePrice_avoids hm.counted.llSum hm.counted.llLe hm.llBase (by omega) _).mono fun price hprice => by omega

theorem offsetCodeOf_avoids {offsetValue : Nat} (hpos : 0 < offsetValue) (hlt : offsetValue < 2 ^ 32) :
    Avoids PriceFault.Bad (offsetCodeOf offsetValue) (· ≤ 31) := by
  unfold offsetCodeOf
  rw [if_neg (by omega)]
  exact .of_ok (Nat.le_of_lt_succ ((Nat.log2_lt (by omega)).2 hlt))

theorem offsetPrice_avoids (hm : m.Sound) {offsetValue : Nat} (hpos : 0 < offsetValue) (hlt : offsetValue < 2 ^ 32) :
    Avoids PriceFault.Bad (m.offsetPrice offsetValue) (· ≤ 20000) := by
  unfold offsetPrice
  refine (offsetCodeOf_avoids hpos hlt).bind fun offCode hcode => ?_
  split
  · exact .of_ok (by unfold optPriceUnit; omega)
  · refine (codePrice_avoids hm.counted.ofSum hm.counted.ofLe hm.ofBase hcode offCode).bind fun price hprice => ?_
    have hpenalty : Avoids PriceFault.Bad (if m.options.longOffsetPenalty ∧ offCode ≥ 20 then
        addU32 price ((offCode - 19) * 2 * optPriceUnit) else .ok price) (· ≤ 19711) := by
      unfold optPriceUnit
      split
      · exact (addU32_avoids (by omega)).mono fun price' hprice' => by omega
      · exact .of_ok (by omega)
    refine hpenalty.bind fun price' hprice' => ?_
    unfold optPriceUnit
    exact (addU32_avoids (by omega)).mono fun price'' hprice'' => by omega

theorem matchLengthCodeOf_avoids {matchLength : Nat} (h : 3 ≤ matchLength) :
    Avoids PriceFault.Bad (matchLengthCodeOf matchLength) fun _ => True := by
  unfold matchLengthCodeOf
  exact (subU32_avoids h).bind fun _ _ => .of_ok trivial

theorem matchLengthPrice_avoids (hm : m.Sound) {matchLength : Nat} (h : 3 ≤ matchLength) :
    Avoids PriceFault.Bad (m.matchLengthPrice matchLength) (· ≤ 9727) := by
  unfold matchLengthPrice
  split
  · exact .of_ok (weight_le.trans (by norm_num))
  · rename_i htype
    refine (matchLengthCodeOf_avoids h).bind fun mlCode _ => ?_
    refine (statAt_avoids _ _).mono fun price hprice => ?_
    refine hm.mlPrices ?_ price (List.mem_of_getElem? hprice)
    cases hd : m.priceType
    · exact absurd hd htype
    · rfl

/-! ## Statistics of a sequence -/

theorem bumpLiterals_avoids {literals : Bytes} {litFreq : List Nat} {litSum : Nat} (hsum : litFreq.sum = litSum)
    (h : litSum + 2 * literals.length < 2 ^ 32) :
    Avoids PriceFault.Bad
      (literals.foldlM (fun (x : List Nat × Nat) (byte : UInt8) => do
        let litFreq ← bumpStat x.1 byte.toNat optLiteralFreqAdd
        let litSum ← addU32 x.2 optLiteralFreqAdd
        .ok (litFreq, litSum)) (litFreq, litSum))
      fun x => x.1.length = litFreq.length ∧ x.1.sum = x.2 ∧ x.2 = litSum + 2 * literals.length := by
  rw [← Nat.zero_add literals.length]
  refine Avoids.foldlM_count
    (fun n (x : List Nat × Nat) => x.1.length = litFreq.length ∧ x.1.sum = x.2 ∧ x.2 = litSum + 2 * n) ?_
    ⟨rfl, hsum, rfl⟩
  intro byte _ i hi x hx
  unfold optLiteralFreqAdd
  refine (bumpStat_avoids _ (by omega)).bind fun litFreq' hfreq => ?_
  refine (addU32_avoids (by omega)).bind ?_
  rintro _ rfl
  exact .of_ok ⟨by dsimp only; omega, by dsimp only; omega, by dsimp only; omega⟩

/-- A sequence adds two for each of its literals, and one for itself. -/
theorem updateStats_avoids {literals : Bytes} {literalLength offsetValue matchLength : Nat}
    (h : m.stats.Counted m.options.compressedLiterals bound) (hbound : bound + 2 * literals.length + 1 ≤ 2 ^ 20)
    (hpos : 0 < offsetValue) (hlt : offsetValue < 2 ^ 32) (hmatch : 3 ≤ matchLength) :
    Avoids PriceFault.Bad (m.updateStats literals literalLength offsetValue matchLength) fun m' => m'.Sound ∧
      m'.stats.Counted m'.options.compressedLiterals (bound + 2 * literals.length + 1) ∧
        m'.options = m.options := by
  have hlitLe := h.litLe
  have hllLe := h.llLe
  have hmlLe := h.mlLe
  have hofLe := h.ofLe
  have hllSum := h.llSum
  have hmlSum := h.mlSum
  have hofSum := h.ofSum
  have hlit : Avoids PriceFault.Bad (if m.options.compressedLiterals then
      literals.foldlM (fun (x : List Nat × Nat) (byte : UInt8) => do
        let litFreq ← bumpStat x.1 byte.toNat optLiteralFreqAdd
        let litSum ← addU32 x.2 optLiteralFreqAdd
        .ok (litFreq, litSum)) (m.stats.litFreq, m.stats.litSum)
      else .ok (m.stats.litFreq, m.stats.litSum)) fun x => x.1.length = m.stats.litFreq.length ∧ x.1.sum = x.2 ∧
        m.stats.litSum ≤ x.2 ∧ x.2 ≤ m.stats.litSum + 2 * literals.length := by
    split
    · exact (bumpLiterals_avoids h.litSum (by omega)).mono fun x hx => ⟨hx.1, hx.2.1, by omega, by omega⟩
    · exact .of_ok ⟨rfl, h.litSum, le_rfl, by dsimp only; omega⟩
  unfold updateStats
  refine hlit.bind ?_
  rintro ⟨litFreq, litSum⟩ ⟨litLen, litEq, litGe, litLe⟩
  refine (matchLengthCodeOf_avoids hmatch).bind fun mlCode _ => ?_
  refine (offsetCodeOf_avoids hpos hlt).bind fun ofCode _ => ?_
  refine (bumpStat_avoids _ (by omega)).bind ?_
  rintro llFreq ⟨llLen, llEq⟩
  refine (addU32_avoids (by omega)).bind ?_
  rintro _ rfl
  refine (bumpStat_avoids _ (by omega)).bind ?_
  rintro mlFreq ⟨mlLen, mlEq⟩
  refine (addU32_avoids (by omega)).bind ?_
  rintro _ rfl
  refine (bumpStat_avoids _ (by omega)).bind ?_
  rintro ofFreq ⟨ofLen, ofEq⟩
  refine (addU32_avoids (by omega)).bind ?_
  rintro _ rfl
  dsimp only at *
  have hcounted : OptimalPriceState.Counted
      { litFreq, litSum, llFreq, llSum := m.stats.llSum + 1, mlFreq, mlSum := m.stats.mlSum + 1, ofFreq,
        ofSum := m.stats.ofSum + 1 } m.options.compressedLiterals (bound + 2 * literals.length + 1) := by
    have hlitLength := h.litLength
    have hllLength := h.llLength
    have hmlLength := h.mlLength
    have hofLength := h.ofLength
    constructor
    case litPos => exact fun hc => (h.litPos hc).trans_le litGe
    all_goals dsimp only; omega
  refine (setBasePrices_avoids (m := { m with stats := _ }) hcounted hbound).mono ?_
  rintro m' ⟨hsound, hs, ho, -⟩
  exact ⟨hsound, by rw [hs, ho]; exact hcounted, ho⟩

end OptimalPriceModel

end Zstandard
