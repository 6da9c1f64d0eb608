/-
The indices of the price model. Whatever the prices come to, a code is inside the tables of frequencies, which keep
their lengths from the start of a frame to its end.

The arithmetic of the prices is settled elsewhere, so its faults are not among the bad ones here (`Spares`). One index
can leave its table: literals of 131072 bytes, a whole block without a match, have no code.
-/
import Zstandard.Encode.PriceModel

namespace Zstandard

open Outcome

/-- None of the bad faults is one of the arithmetic of prices. -/
def PriceFault.Spares (bad : PriceFault → Prop) : Prop := ∀ e, e.Bad → ¬ bad e

/-- The statistics have a frequency for every byte and for every code. -/
structure OptimalPriceState.Tabled (s : OptimalPriceState) : Prop where
  litLength : s.litFreq.length = 256
  llLength : s.llFreq.length = 36
  mlLength : s.mlFreq.length = 53
  ofLength : s.ofFreq.length = 32

/-- So have the statistics of a model, which keeps a price for every match length code besides. -/
structure OptimalPriceModel.Tabled (m : OptimalPriceModel) : Prop where
  stats : m.stats.Tabled
  mlPricesLength : m.mlPriceByCode.length = 53

section
variable {bad : PriceFault → Prop}

theorem addU32_spared (hbad : PriceFault.Spares bad) (a b : Nat) : Avoids bad (addU32 a b) (· = a + b) := by
  unfold addU32
  split
  · exact .of_ok rfl
  · exact .of_error (hbad .wrapped trivial)

theorem subU32_spared (hbad : PriceFault.Spares bad) (a b : Nat) : Avoids bad (subU32 a b) fun _ => True := by
  unfold subU32
  split
  · exact .of_ok trivial
  · exact .of_error (hbad .wrapped trivial)

theorem statAt_inside {freq : List Nat} {code size : Nat} (hlength : freq.length = size)
    (hcode : bad .outside → code < size) : Avoids bad (statAt freq code) fun _ => True := by
  unfold statAt
  cases hget : freq[code]? with
  | some count => exact .of_ok trivial
  | none =>
    refine .of_error fun houtside => absurd (List.getElem?_eq_none_iff.1 hget) ?_
    have := hcode houtside
    omega

theorem bumpStat_inside (hbad : PriceFault.Spares bad) {freq : List Nat} {code size : Nat}
    (hlength : freq.length = size) (hcode : bad .outside → code < size) (amount : Nat) :
    Avoids bad (bumpStat freq code amount) (·.length = size) := by
  unfold bumpStat
  refine (statAt_inside hlength hcode).bind fun count _ => ?_
  exact (addU32_spared hbad count amount).bind fun _ _ => .of_ok (List.length_set.trans hlength)

theorem sumStats_spared (hbad : PriceFault.Spares bad) (freq : List Nat) : Avoids bad (sumStats freq) fun _ => True :=
  Avoids.foldlM (fun _ => True) (fun f _ sum _ => (addU32_spared hbad sum f).mono fun _ _ => trivial) trivial

/-! ## Statistics -/

theorem scaleStats_inside (hbad : PriceFault.Spares bad) (freq : List Nat) (logTarget : Nat) :
    Avoids bad (scaleStats freq logTarget) (·.1.length = freq.length) := by
  unfold scaleStats
  refine (sumStats_spared hbad freq).bind fun prevSum _ => ?_
  dsimp only
  split
  · exact .of_ok rfl
  · exact (sumStats_spared hbad _).bind fun _ _ => .of_ok (List.length_map _)

theorem OptimalPriceState.Tabled.rescale (hbad : PriceFault.Spares bad) {state : OptimalPriceState}
    (h : state.Tabled) : Avoids bad state.rescale (·.Tabled) := by
  unfold OptimalPriceState.rescale
  refine (scaleStats_inside hbad _ _).bind fun lit hlit => ?_
  refine (scaleStats_inside hbad _ _).bind fun ll hll => ?_
  refine (scaleStats_inside hbad _ _).bind fun ml hml => ?_
  refine (scaleStats_inside hbad _ _).bind fun of hof => ?_
  exact .of_ok ⟨hlit.trans h.litLength, hll.trans h.llLength, hml.trans h.mlLength, hof.trans h.ofLength⟩

theorem optimalPriceSeed_inside (hbad : PriceFault.Spares bad) (litCost llCost mlCost ofCost : Nat → Nat) :
    Avoids bad (optimalPriceSeed litCost llCost mlCost ofCost) (·.Tabled) := by
  unfold optimalPriceSeed
  refine (sumStats_spared hbad _).bind fun _ _ => ?_
  refine (sumStats_spared hbad _).bind fun _ _ => ?_
  refine (sumStats_spared hbad _).bind fun _ _ => ?_
  refine (sumStats_spared hbad _).bind fun _ _ => ?_
  have hrange : ∀ (n : Nat) (f : Nat → Nat), ((List.range n).map f).length = n := fun n f =>
    (List.length_map f).trans List.length_range
  exact .of_ok ⟨hrange 256 _, hrange 36 _, hrange 53 _, hrange 32 _⟩

end

/-! ## Models -/

namespace OptimalPriceModel

section
variable {bad : PriceFault → Prop} {m : OptimalPriceModel}

theorem sumWeight_spared (hbad : PriceFault.Spares bad) (freq : List Nat) (sum : Nat) :
    Avoids bad (m.sumWeight freq sum) fun _ => True := by
  unfold sumWeight
  split
  · exact .of_ok trivial
  · exact .of_error (hbad .unsound trivial)

theorem codePrice_inside (hbad : PriceFault.Spares bad) (extraBits basePrice : Nat) {freq : List Nat} {code size : Nat}
    (hlength : freq.length = size) (hcode : bad .outside → code < size) :
    Avoids bad (m.codePrice extraBits basePrice freq code) fun _ => True := by
  unfold codePrice
  refine (addU32_spared hbad _ _).bind fun price _ => ?_
  exact (statAt_inside hlength hcode).bind fun count _ => subU32_spared hbad _ _

/-- Base prices leave the tables of frequencies as they are. -/
theorem Tabled.setBasePrices (hbad : PriceFault.Spares bad) (hm : m.Tabled) :
    Avoids bad m.setBasePrices (·.Tabled) := by
  unfold OptimalPriceModel.setBasePrices
  refine (sumWeight_spared hbad _ _).bind fun llBase _ => ?_
  refine (sumWeight_spared hbad _ _).bind fun mlBase _ => ?_
  refine (sumWeight_spared hbad _ _).bind fun ofBase _ => ?_
  have hlit : Avoids bad (if m.options.compressedLiterals then m.sumWeight m.stats.litFreq m.stats.litSum
      else .ok m.litSumBasePrice) fun _ => True := by
    split
    · exact sumWeight_spared hbad _ _
    · exact .of_ok trivial
  refine hlit.bind fun litBase _ => ?_
  have hprices : Avoids bad (if m.priceType ≠ .predefined then
      (List.range 53).mapM fun code => do
        m.codePrice (← statAt matchLengthExtraBits code) mlBase m.stats.mlFreq code
      else .ok m.mlPriceByCode) (·.length = 53) := by
    split
    · refine (Avoids.mapM_length fun code hcode => ?_).mono fun prices hprices => hprices.trans List.length_range
      have hlt : code < 53 := List.mem_range.1 hcode
      refine (statAt_inside (by decide : matchLengthExtraBits.length = 53) fun _ => hlt).bind fun extraBits _ => ?_
      exact codePrice_inside hbad _ _ hm.stats.mlLength fun _ => hlt
    · exact .of_ok hm.mlPricesLength
  exact hprices.bind fun prices hlength => .of_ok ⟨hm.stats, hlength⟩

theorem ofStats_tabled (options : PriceOptions) (priceType : OptimalPriceType) {stats : OptimalPriceState}
    (h : stats.Tabled) : (ofStats options priceType stats).Tabled := ⟨h, List.length_replicate⟩

theorem literalFrequencies_inside (hbad : PriceFault.Spares bad) (src : Bytes) :
    Avoids bad (literalFrequencies src) (·.length = 256) := by
  unfold literalFrequencies
  have hcounts : Avoids bad (src.foldlM (fun counts byte => bumpStat counts byte.toNat 1) (List.replicate 256 0))
      (·.length = 256) :=
    Avoids.foldlM (fun counts : List Nat => counts.length = 256)
      (fun byte _ counts hcounts => bumpStat_inside hbad hcounts (fun _ => byte.toNat_lt) 1) List.length_replicate
  exact hcounts.bind fun counts hlength => .of_ok ((List.length_map _).trans hlength)

theorem new_tabled (hbad : PriceFault.Spares bad) (src : Bytes) {dictSeed : Option OptimalPriceState}
    (hseed : ∀ seed ∈ dictSeed, seed.Tabled) (options : PriceOptions) :
    Avoids bad (new src dictSeed options) (·.Tabled) := by
  unfold new
  cases dictSeed with
  | some seed =>
    have htabled := hseed seed rfl
    refine (ofStats_tabled options .dynamic ?_).setBasePrices hbad
    split
    · exact htabled
    · exact ⟨List.length_replicate, htabled.llLength, htabled.mlLength, htabled.ofLength⟩
  | none =>
    dsimp only
    refine (sumStats_spared hbad _).bind fun llSum _ => ?_
    refine (sumStats_spared hbad _).bind fun ofSum _ => ?_
    have hlit : Avoids bad (if options.compressedLiterals then literalFrequencies src else .ok (List.replicate 256 0))
        (·.length = 256) := by
      split
      · exact literalFrequencies_inside hbad src
      · exact .of_ok List.length_replicate
    refine hlit.bind fun litFreq hlength => ?_
    refine (sumStats_spared hbad litFreq).bind fun litSum _ => ?_
    exact (ofStats_tabled options _ ⟨hlength, rfl, rfl, rfl⟩).setBasePrices hbad

theorem fromPersistedState_tabled (hbad : PriceFault.Spares bad) {state : OptimalPriceState} (h : state.Tabled)
    (options : PriceOptions) : Avoids bad (fromPersistedState state options) (·.Tabled) :=
  (ofStats_tabled options .dynamic h).setBasePrices hbad

/-! ## Prices -/

theorem literalBytePrice_inside (hbad : PriceFault.Spares bad) (hm : m.Tabled) (byte : UInt8) :
    Avoids bad (m.literalBytePrice byte) fun _ => True := by
  unfold literalBytePrice
  split
  · exact .of_ok trivial
  · cases m.priceType with
    | predefined => exact .of_ok trivial
    | dynamic =>
      refine (subU32_spared hbad _ _).bind fun cap _ => ?_
      exact (statAt_inside hm.stats.litLength fun _ => byte.toNat_lt).bind fun count _ => subU32_spared hbad _ _

theorem llPrice_inside (hbad : PriceFault.Spares bad) (hm : m.Tabled) {literalLength : Nat}
    (hll : bad .outside → literalLength < 2 ^ 17) : Avoids bad (m.llPrice literalLength) fun _ => True := by
  unfold llPrice
  split
  · exact .of_ok trivial
  · have hcode : bad .outside → literalLengthCodeUnchecked literalLength < 36 := fun houtside =>
      Nat.lt_succ_of_le (literalLengthCode_le (Nat.le_of_lt_succ (hll houtside)))
    refine (statAt_inside (by decide : literalLengthExtraBits.length = 36) hcode).bind fun extraBits _ => ?_
    exact codePrice_inside hbad _ _ hm.stats.llLength hcode

theorem offsetCodeOf_inside (hbad : PriceFault.Spares bad) {offsetValue : Nat} (hlt : offsetValue < 2 ^ 32) :
    Avoids bad (offsetCodeOf offsetValue) (· < 32) := by
  unfold offsetCodeOf
  split
  · exact .of_error (hbad .wrapped trivial)
  · rename_i hpos
    exact .of_ok ((Nat.log2_lt hpos).2 hlt)

theorem offsetPrice_inside (hbad : PriceFault.Spares bad) (hm : m.Tabled) {offsetValue : Nat}
    (hlt : offsetValue < 2 ^ 32) : Avoids bad (m.offsetPrice offsetValue) fun _ => True := by
  unfold offsetPrice
  refine (offsetCodeOf_inside hbad hlt).bind fun offCode hcode => ?_
  split
  · exact .of_ok trivial
  · refine (codePrice_inside hbad _ _ hm.stats.ofLength fun _ => hcode).bind fun price _ => ?_
    have hpenalty : Avoids bad (if m.options.longOffsetPenalty ∧ offCode ≥ 20 then
        addU32 price ((offCode - 19) * 2 * optPriceUnit) else .ok price) fun _ => True := by
      split
      · exact (addU32_spared hbad _ _).mono fun _ _ => trivial
      · exact .of_ok trivial
    exact hpenalty.bind fun price _ => (addU32_spared hbad _ _).mono fun _ _ => trivial

theorem matchLengthCodeOf_inside (hbad : PriceFault.Spares bad) {matchLength : Nat}
    (hml : bad .outside → matchLength < 2 ^ 17 + 3) :
    Avoids bad (matchLengthCodeOf matchLength) fun mlCode => bad .outside → mlCode < 53 := by
  unfold matchLengthCodeOf
  refine (subU32_spared hbad _ _).bind fun _ _ => .of_ok fun houtside => ?_
  exact Nat.lt_succ_of_le (matchLengthCode_le (by have := hml houtside; omega))

theorem matchLengthPrice_inside (hbad : PriceFault.Spares bad) (hm : m.Tabled) {matchLength : Nat}
    (hml : bad .outside → matchLength < 2 ^ 17 + 3) : Avoids bad (m.matchLengthPrice matchLength) fun _ => True := by
  unfold matchLengthPrice
  split
  · exact .of_ok trivial
  · exact (matchLengthCodeOf_inside hbad hml).bind fun mlCode hcode => statAt_inside hm.mlPricesLength hcode

/-! ## The statistics of a sequence -/

theorem Tabled.updateStats (hbad : PriceFault.Spares bad) (hm : m.Tabled) (literals : Bytes)
    {literalLength offsetValue matchLength : Nat} (hll : bad .outside → literalLength < 2 ^ 17)
    (hlt : offsetValue < 2 ^ 32) (hml : bad .outside → matchLength < 2 ^ 17 + 3) :
    Avoids bad (m.updateStats literals literalLength offsetValue matchLength) (·.Tabled) := by
  have hlit : Avoids bad (if m.options.compressedLiterals then
      literals.foldlM (fun (x : List Nat × Nat) (byte : UInt8) => do
        let litFreq ← bumpStat x.1 byte.toNat optLiteralFreqAdd
        let litSum ← addU32 x.2 optLiteralFreqAdd
        .ok (litFreq, litSum)) (m.stats.litFreq, m.stats.litSum)
      else .ok (m.stats.litFreq, m.stats.litSum)) (·.1.length = 256) := by
    split
    · refine Avoids.foldlM (fun x : List Nat × Nat => x.1.length = 256) ?_ hm.stats.litLength
      rintro byte - ⟨litFreq, litSum⟩ hlength
      refine (bumpStat_inside hbad hlength (fun _ => byte.toNat_lt) _).bind fun litFreq' hlength' => ?_
      exact (addU32_spared hbad _ _).bind fun _ _ => .of_ok hlength'
    · exact .of_ok hm.stats.litLength
  unfold OptimalPriceModel.updateStats
  refine hlit.bind ?_
  rintro ⟨litFreq, litSum⟩ hlitLength
  refine (matchLengthCodeOf_inside hbad hml).bind fun mlCode hmlCode => ?_
  refine (offsetCodeOf_inside hbad hlt).bind fun ofCode hofCode => ?_
  have hllCode : bad .outside → literalLengthCodeUnchecked literalLength < 36 := fun houtside =>
    Nat.lt_succ_of_le (literalLengthCode_le (Nat.le_of_lt_succ (hll houtside)))
  refine (bumpStat_inside hbad hm.stats.llLength hllCode 1).bind fun llFreq hllLength => ?_
  refine (addU32_spared hbad _ _).bind fun llSum _ => ?_
  refine (bumpStat_inside hbad hm.stats.mlLength hmlCode 1).bind fun mlFreq hmlLength => ?_
  refine (addU32_spared hbad _ _).bind fun mlSum _ => ?_
  refine (bumpStat_inside hbad hm.stats.ofLength (fun _ => hofCode) 1).bind fun ofFreq hofLength => ?_
  refine (addU32_spared hbad _ _).bind fun ofSum _ => ?_
  have htabled : OptimalPriceModel.Tabled
      { m with stats := { litFreq, litSum, llFreq, llSum, mlFreq, mlSum, ofFreq, ofSum } } :=
    ⟨⟨hlitLength, hllLength, hmlLength, hofLength⟩, hm.mlPricesLength⟩
  exact htabled.setBasePrices hbad

end

end OptimalPriceModel

end Zstandard
