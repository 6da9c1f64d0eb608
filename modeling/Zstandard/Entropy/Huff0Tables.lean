/-
What a Huffman weight description gives every table builder, and that the double-symbol decode table
can be built from all of it.

A description that is read is a full tree: its weights sum to the table, so the ranks of the table
tile it. The double-symbol fill checks every slice it writes; each check is one of the bounds of
`X2Plan.Tiles`.
-/
import Zstandard.Entropy.Huff0

namespace Zstandard

namespace Huff0

/-! ## Full trees -/

/-- A description of a full tree: what `read_stats` has checked once it returns. -/
structure Stats.Ok (s : Stats) : Prop where
  tableLog_pos : 1 ≤ s.tableLog
  tableLog_le : s.tableLog ≤ tablelogMax
  weight_le : ∀ w ∈ s.huffWeight, w ≤ s.tableLog
  total : weightTotal s.huffWeight = 2 ^ s.tableLog
  ranks : ∀ w ≤ tablelogMax, s.rankStats.getD w 0 = s.huffWeight.count w
  symbols : s.nbSymbols = s.huffWeight.length

theorem weightTotal_append (a b : List Nat) : weightTotal (a ++ b) = weightTotal a + weightTotal b := by
  simp [weightTotal]

theorem half_pow_le_weightTotal {weights : List Nat} {w : Nat} (h : w ∈ weights) : 2 ^ w / 2 ≤ weightTotal weights :=
  List.le_sum_of_mem (List.mem_map_of_mem h)

/-- The explicit weights leave a power of two, which the last weight takes. -/
theorem weightTotal_complete {weights : List Nat} (h0 : weightTotal weights ≠ 0) :
    let log := highbit32 (weightTotal weights) + 1
    let rest := 2 ^ log - weightTotal weights
    2 ^ highbit32 rest = rest →
      highbit32 rest + 1 ≤ log ∧ weightTotal (weights ++ [highbit32 rest + 1]) = 2 ^ log ∧ ∀ w ∈ weights, w ≤ log := by
  intro log rest hrest
  have hlow : 2 ^ (log - 1) ≤ weightTotal weights := Nat.log2_self_le h0
  have hhigh : weightTotal weights < 2 ^ log := Nat.lt_log2_self
  have hlog : 2 ^ log = 2 * 2 ^ (log - 1) := by rw [← pow_succ']; rfl
  have hlast : highbit32 rest ≤ log - 1 := by
    have : 2 ^ highbit32 rest ≤ 2 ^ (log - 1) := by rw [hrest]; omega
    exact (Nat.pow_le_pow_iff_right (by norm_num)).mp this
  refine ⟨by omega, ?_, ?_⟩
  · have hone : weightTotal [highbit32 rest + 1] = rest := by
      simp only [weightTotal, List.map_cons, List.map_nil, List.sum_cons, List.sum_nil, pow_succ]
      rw [Nat.mul_div_cancel _ (by norm_num)]
      exact hrest
    rw [weightTotal_append, hone]
    omega
  · intro w hw
    have := half_pow_le_weightTotal hw
    cases w with
    | zero => omega
    | succ w =>
      rw [pow_succ, Nat.mul_div_cancel _ (by norm_num)] at this
      have : w < log := (Nat.pow_lt_pow_iff_right (by norm_num)).mp (lt_of_le_of_lt this hhigh)
      omega

theorem readStats_ok {src : Bytes} {stats : Stats} (h : readStats src = .ok stats) : stats.Ok := by
  unfold readStats at h
  obtain ⟨⟨weights, size⟩, -, h⟩ := bind_ok h
  simp only at h
  split at h
  · cases h
  split at h
  · cases h
  rename_i htotal
  split at h
  · cases h
  rename_i hlog
  split at h
  · cases h
  rename_i hrest
  rw [not_not] at hrest
  obtain ⟨hlast, hsum, hweights⟩ := weightTotal_complete htotal hrest
  split at h
  · cases h
  · cases h
    refine ⟨by simp, by simpa using hlog, ?_, hsum, ?_, by simp⟩
    · intro w hw
      rcases List.mem_append.mp hw with hw | hw
      · exact hweights w hw
      · rw [List.mem_singleton.mp hw]
        exact hlast
    · intro w hw
      rw [List.getD_eq_getElem?_getD, List.getElem?_map, List.getElem?_range (by omega)]
      rfl

/-- The weights, rank by rank. -/
theorem weightTotal_eq_sum {weights : List Nat} {n : Nat} (h : ∀ w ∈ weights, w ≤ n) :
    weightTotal weights = ∑ w ∈ Finset.range (n + 1), weights.count w * (2 ^ w / 2) := by
  unfold weightTotal
  rw [Finset.sum_list_map_count]
  simp only [smul_eq_mul]
  apply Finset.sum_subset
  · intro w hw
    have := h w (List.mem_toFinset.mp hw)
    exact Finset.mem_range.mpr (by omega)
  · intro w _ hw
    rw [List.count_eq_zero_of_not_mem fun hm => hw (List.mem_toFinset.mpr hm), zero_mul]

/-! ## The ranks of the double-symbol table -/

theorem rankValRow_succ (rankStats : List Nat) (targetLog tableLog : Nat) {w : Nat} (hw : 1 ≤ w) :
    rankValRow rankStats targetLog tableLog (w + 1) =
      rankValRow rankStats targetLog tableLog w + rankStats.getD w 0 * 2 ^ (w + targetLog - tableLog - 1) := by
  conv_lhs => unfold rankValRow
  rw [if_neg (by omega)]

theorem rankValRow_eq_sum (rankStats : List Nat) {targetLog tableLog : Nat} (hlog : tableLog ≤ targetLog) :
    ∀ n, rankValRow rankStats targetLog tableLog n =
      2 ^ (targetLog - tableLog) * ∑ w ∈ Finset.range n, rankStats.getD w 0 * (2 ^ w / 2)
  | 0 => by simp [rankValRow]
  | 1 => by simp [rankValRow]
  | n + 2 => by
    rw [rankValRow_succ _ _ _ (by omega), rankValRow_eq_sum rankStats hlog (n + 1),
      Finset.sum_range_succ _ (n + 1), mul_add, pow_succ 2 n, Nat.mul_div_cancel _ (by norm_num)]
    have hexp : n + 1 + targetLog - tableLog - 1 = targetLog - tableLog + n := by omega
    rw [hexp, pow_add]
    ring

theorem maxWeightBelow_le (rankStats : List Nat) : ∀ n, maxWeightBelow rankStats n ≤ n
  | 0 => le_refl _
  | n + 1 => by
    unfold maxWeightBelow
    split
    · have := maxWeightBelow_le rankStats n
      omega
    · exact le_refl _

/-- Above the greatest weight the ranks are empty. -/
theorem rankValRow_maxWeight (rankStats : List Nat) (targetLog tableLog : Nat) : ∀ n,
    rankValRow rankStats targetLog tableLog (maxWeightBelow rankStats n + 1) =
      rankValRow rankStats targetLog tableLog (n + 1)
  | 0 => rfl
  | n + 1 => by
    unfold maxWeightBelow
    split
    · rename_i h0
      rw [rankValRow_maxWeight rankStats targetLog tableLog n, rankValRow_succ _ _ _ (by omega : 1 ≤ n + 1), h0]
      simp
    · rfl

/-- The ranks of a full tree tile the table. -/
theorem Stats.Ok.tiles {stats : Stats} (h : stats.Ok) {targetLog : Nat} (hlog : stats.tableLog ≤ targetLog) :
    rankValRow stats.rankStats targetLog stats.tableLog
      (maxWeightBelow stats.rankStats stats.tableLog + 1) = 2 ^ targetLog := by
  rw [rankValRow_maxWeight, rankValRow_eq_sum _ hlog]
  have hcounts : ∑ w ∈ Finset.range (stats.tableLog + 1), stats.rankStats.getD w 0 * (2 ^ w / 2) =
      weightTotal stats.huffWeight := by
    rw [weightTotal_eq_sum h.weight_le]
    refine Finset.sum_congr rfl fun w hw => ?_
    have := Finset.mem_range.mp hw
    rw [h.ranks w (by have := h.tableLog_le; omega)]
  rw [hcounts, h.total, ← pow_add]
  congr 1
  omega

/-- Some symbol has a weight. -/
theorem Stats.Ok.maxWeight_pos {stats : Stats} (h : stats.Ok) :
    1 ≤ maxWeightBelow stats.rankStats stats.tableLog := by
  by_contra h0
  have h0 : maxWeightBelow stats.rankStats stats.tableLog = 0 := by omega
  have := h.tiles (le_refl _)
  rw [h0] at this
  have hpos : 0 < 2 ^ stats.tableLog := by positivity
  simp [rankValRow] at this
  omega

/-! ## The fill -/

theorem fillRange_length {α : Type} {slots : List α} {start stop : Nat} (entry : α) (h : start ≤ stop)
    (hs : stop ≤ slots.length) : (fillRange slots start stop entry).length = slots.length := by
  simp only [fillRange, List.length_append, List.length_take, List.length_replicate, List.length_drop]
  omega

theorem fillDtableX2ForWeight_ok {tableLog nbBits : Nat} (limit : Nat) (base : Bytes) (hbits : nbBits ≤ tableLog) :
    ∀ (symbols : List Nat) (start : Nat) (slots : List DEltX2),
      start + symbols.length * 2 ^ (tableLog - nbBits) ≤ limit → limit ≤ slots.length →
      ∃ slots', fillDtableX2ForWeight tableLog nbBits limit base symbols start slots = .ok slots' ∧
        slots'.length = slots.length
  | [], _, slots, _, _ => ⟨slots, rfl, rfl⟩
  | symbol :: rest, start, slots, hfit, hlim => by
    rw [List.length_cons, add_mul, one_mul] at hfit
    have hpow : 0 < 2 ^ (tableLog - nbBits) := by positivity
    unfold fillDtableX2ForWeight
    rw [if_neg (by omega)]
    simp only
    rw [if_neg (by omega)]
    have hlen : (fillRange slots start (start + 2 ^ (tableLog - nbBits))
        { sequence := base ++ [UInt8.ofNat symbol], nbBits }).length = slots.length :=
      fillRange_length _ (by omega) (by omega)
    obtain ⟨slots', h, hl⟩ := fillDtableX2ForWeight_ok limit base hbits rest (start + 2 ^ (tableLog - nbBits))
      (fillRange slots start (start + 2 ^ (tableLog - nbBits)) { sequence := base ++ [UInt8.ofNat symbol], nbBits })
      (by omega) (by rw [hlen]; exact hlim)
    exact ⟨slots', h, hl.trans hlen⟩

/-- The ranks of a plan tile its table, at the top and below every first symbol. -/
structure X2Plan.Tiles (p : X2Plan) : Prop where
  baseline : p.nbBitsBaseline ≤ p.tableLog + 1
  weight_pos : 1 ≤ p.maxWeight
  weight_lt : p.maxWeight < p.nbBitsBaseline
  weight_le : p.maxWeight ≤ tablelogMax
  step : ∀ w, 1 ≤ w → w ≤ p.maxWeight →
    p.rankVal 0 w + (p.symbolsOf w).length * 2 ^ (p.tableLog + w - p.nbBitsBaseline) = p.rankVal 0 (w + 1)
  whole : p.rankVal 0 (p.maxWeight + 1) = 2 ^ p.tableLog
  deep : ∀ c w, p.nbBitsBaseline - p.maxWeight ≤ c → c ≤ p.tableLog - (p.nbBitsBaseline - p.maxWeight) →
    p.rankVal c w = p.rankVal 0 w >>> c

section
variable {p : X2Plan}

theorem X2Plan.Tiles.rank_le (hp : p.Tiles) : ∀ n w, 1 ≤ w → w + n = p.maxWeight + 1 → p.rankVal 0 w ≤ 2 ^ p.tableLog
  | 0, w, _, hn => by rw [Nat.add_zero] at hn; rw [hn, hp.whole]
  | n + 1, w, hw, hn => by
    have h := hp.rank_le n (w + 1) (by omega) (by omega)
    have := hp.step w hw (by omega)
    omega

/-- A rank reached after `c` bits ends where the next one starts. -/
theorem X2Plan.Tiles.deep_step (hp : p.Tiles) {c w : Nat} (hw : 1 ≤ w) (hle : w ≤ p.maxWeight)
    (hc : p.nbBitsBaseline - p.maxWeight ≤ c) (hc' : c ≤ p.tableLog - (p.nbBitsBaseline - p.maxWeight))
    (hfit : p.nbBitsBaseline - w + c ≤ p.tableLog) :
    p.rankVal c w + (p.symbolsOf w).length * 2 ^ (p.tableLog - (p.nbBitsBaseline - w + c)) = p.rankVal c (w + 1) := by
  have hlt := hp.weight_lt
  have hexp : p.tableLog + w - p.nbBitsBaseline = p.tableLog - (p.nbBitsBaseline - w + c) + c := by omega
  have hstep := hp.step w hw hle
  rw [hexp, pow_add, ← mul_assoc] at hstep
  rw [hp.deep c w hc hc', hp.deep c (w + 1) hc hc', Nat.shiftRight_eq_div_pow, Nat.shiftRight_eq_div_pow, ← hstep,
    Nat.add_mul_div_right _ _ (by positivity)]

theorem X2Plan.Tiles.deep_le (hp : p.Tiles) {c w : Nat} (hw : 1 ≤ w) (hle : w ≤ p.maxWeight + 1)
    (hc : p.nbBitsBaseline - p.maxWeight ≤ c) (hc' : c ≤ p.tableLog - (p.nbBitsBaseline - p.maxWeight)) :
    p.rankVal c w ≤ 2 ^ (p.tableLog - c) := by
  rw [hp.deep c w hc hc', Nat.shiftRight_eq_div_pow, ← Nat.pow_div (by omega) (by norm_num)]
  exact Nat.div_le_div_right (hp.rank_le (p.maxWeight + 1 - w) w hw (by omega))

theorem fillLevel2Weights_ok (hp : p.Tiles) (base : UInt8) {c start stop : Nat}
    (hc : p.nbBitsBaseline - p.maxWeight ≤ c) (hc' : c ≤ p.tableLog - (p.nbBitsBaseline - p.maxWeight))
    (hstop : start + 2 ^ (p.tableLog - c) = stop) :
    ∀ (n w : Nat) (slots : List DEltX2), 1 ≤ w → w + n = p.maxWeight + 1 → p.nbBitsBaseline + c ≤ p.tableLog + w →
      stop ≤ slots.length →
      ∃ slots', fillLevel2Weights p c start stop base n w slots = .ok slots' ∧ slots'.length = slots.length
  | 0, _, slots, _, _, _, _ => ⟨slots, rfl, rfl⟩
  | n + 1, w, slots, hw, hn, hfit, hlen => by
    have hlt := hp.weight_lt
    have hstart := hp.deep_le hw (by omega) hc hc'
    have hend := hp.deep_le (w := w + 1) (by omega) (by omega) hc hc'
    have hbits : p.nbBitsBaseline - w + c ≤ p.tableLog := by omega
    have hstep := hp.deep_step hw (by omega) hc hc' hbits
    unfold fillLevel2Weights
    simp only
    rw [if_neg (by omega)]
    obtain ⟨slots1, h1, hl1⟩ := fillDtableX2ForWeight_ok stop [base] hbits (p.symbolsOf w)
      (start + p.rankVal c w) slots (by omega) hlen
    obtain ⟨slots2, h2, hl2⟩ := fillLevel2Weights_ok hp base hc hc' hstop n (w + 1) slots1 (by omega) (by omega)
      (by omega) (by omega)
    rw [h1]
    exact ⟨slots2, h2, hl2.trans hl1⟩

theorem fillDtableX2Level2_ok (hp : p.Tiles) (base : UInt8) (start : Nat) (slots : List DEltX2) {c stop : Nat}
    (hc : p.nbBitsBaseline - p.maxWeight ≤ c) (hc' : c ≤ p.tableLog - (p.nbBitsBaseline - p.maxWeight))
    (hstop : start + 2 ^ (p.tableLog - c) = stop) (hlen : stop ≤ slots.length) :
    ∃ slots', fillDtableX2Level2 p c (max (c + p.nbBitsBaseline - p.tableLog) 1) start stop base slots = .ok slots' ∧
      slots'.length = slots.length := by
  have hpos := hp.weight_pos
  have hlt := hp.weight_lt
  have hle := hp.weight_le
  have hbase := hp.baseline
  generalize hmin : max (c + p.nbBitsBaseline - p.tableLog) 1 = minWeight
  have hmw : minWeight ≤ p.maxWeight := by omega
  have hrest : ∀ slots1 : List DEltX2, slots1.length = slots.length →
      ∃ slots', fillLevel2Weights p c start stop base (p.maxWeight + 1 - minWeight) minWeight slots1 = .ok slots' ∧
        slots'.length = slots.length := by
    intro slots1 hl1
    obtain ⟨slots2, h2, hl2⟩ := fillLevel2Weights_ok hp base hc hc' hstop (p.maxWeight + 1 - minWeight)
      minWeight slots1 (by omega) (by omega) (by omega) (by omega)
    exact ⟨slots2, h2, hl2.trans hl1⟩
  unfold fillDtableX2Level2
  simp only
  by_cases hone : minWeight > 1
  · have hs := hp.deep_le (w := minWeight) (by omega) (by omega) hc hc'
    rw [if_pos hone, if_neg (by omega), if_neg (by omega)]
    exact hrest _ (fillRange_length _ (by omega) (by omega))
  · rw [if_neg hone]
    exact hrest _ rfl

theorem fillSubTables_ok (hp : p.Tiles) {c : Nat}
    (hc : p.nbBitsBaseline - p.maxWeight ≤ c) (hc' : c ≤ p.tableLog - (p.nbBitsBaseline - p.maxWeight)) :
    ∀ (symbols : List Nat) (start : Nat) (slots : List DEltX2),
      start + symbols.length * 2 ^ (p.tableLog - c) ≤ slots.length →
      ∃ slots', fillSubTables p c (max (c + p.nbBitsBaseline - p.tableLog) 1) symbols start slots = .ok slots' ∧
        slots'.length = slots.length
  | [], _, slots, _ => ⟨slots, rfl, rfl⟩
  | symbol :: rest, start, slots, hfit => by
    rw [List.length_cons, add_mul, one_mul] at hfit
    unfold fillSubTables
    simp only
    rw [if_neg (by omega)]
    obtain ⟨slots1, h1, hl1⟩ := fillDtableX2Level2_ok hp (UInt8.ofNat symbol) start slots hc hc' rfl
      (by omega)
    obtain ⟨slots2, h2, hl2⟩ := fillSubTables_ok hp hc hc' rest (start + 2 ^ (p.tableLog - c)) slots1 (by omega)
    rw [h1]
    exact ⟨slots2, h2, hl2.trans hl1⟩

/-- No check of the fill fails. -/
theorem fillDtableX2_ok (hp : p.Tiles) : ∀ (n w : Nat) (slots : List DEltX2), 1 ≤ w → w + n = p.maxWeight + 1 →
    slots.length = 2 ^ p.tableLog →
    ∃ slots', fillDtableX2 p n w slots = .ok slots' ∧ slots'.length = slots.length
  | 0, _, slots, _, _, _ => ⟨slots, rfl, rfl⟩
  | n + 1, w, slots, hw, hn, hlen => by
    have hlt := hp.weight_lt
    have hbase := hp.baseline
    have hstart := hp.rank_le (n + 1) w hw hn
    have hend := hp.rank_le n (w + 1) (by omega) (by omega)
    have hstep := hp.step w hw (by omega)
    have hexp : p.tableLog + w - p.nbBitsBaseline = p.tableLog - (p.nbBitsBaseline - w) := by omega
    rw [hexp] at hstep
    have hrest : ∀ slots1 : List DEltX2, slots1.length = slots.length →
        ∃ slots', fillDtableX2 p n (w + 1) slots1 = .ok slots' ∧ slots'.length = slots.length := by
      intro slots1 hl1
      obtain ⟨slots2, h2, hl2⟩ := fillDtableX2_ok hp n (w + 1) slots1 (by omega) (by omega) (hl1.trans hlen)
      exact ⟨slots2, h2, hl2.trans hl1⟩
    unfold fillDtableX2
    simp only
    split
    · obtain ⟨slots1, h1, hl1⟩ := fillSubTables_ok (c := p.nbBitsBaseline - w) hp (by omega) (by omega) (p.symbolsOf w)
        (p.rankVal 0 w) slots (by omega)
      rw [h1]
      exact hrest slots1 hl1
    · rw [if_neg (by omega)]
      obtain ⟨slots1, h1, hl1⟩ := fillDtableX2ForWeight_ok slots.length []
        (by omega : p.nbBitsBaseline - w ≤ p.tableLog) (p.symbolsOf w) (p.rankVal 0 w) slots (by omega) (le_refl _)
      rw [h1]
      exact hrest slots1 hl1

end

/-- The tables `read_dtable_x2` fills a table of `targetLog` bits from. -/
def Stats.x2Plan (stats : Stats) (targetLog : Nat) : X2Plan :=
  let maxWeight := maxWeightBelow stats.rankStats stats.tableLog
  let row := rankValRow stats.rankStats targetLog stats.tableLog
  let minBits := stats.tableLog + 1 - maxWeight
  { tableLog := targetLog, maxWeight, nbBitsBaseline := stats.tableLog + 1
    rankVal := fun consumed weight =>
      if consumed = 0 ∨ minBits ≤ consumed ∧ consumed ≤ targetLog - minBits then row weight >>> consumed else 0
    symbolsOf := fun weight => (stats.huffWeight.zipIdx.filter (·.1 = weight)).map (·.2) }

/-- The depth a double-symbol table is built at. -/
def Stats.targetLog (stats : Stats) : Nat :=
  if stats.tableLog ≤ decoderFastTablelog then decoderFastTablelog else tablelogMax

/-- The double-symbol table of a description: `read_dtable_x2` behind its read. -/
def buildDtableX2 (stats : Stats) : Result DTableX2 := do
  if stats.tableLog > tablelogMax then
    .error (.corruption "Huff0 table log exceeds decode table capacity") else
  if rankValRow stats.rankStats stats.targetLog stats.tableLog (maxWeightBelow stats.rankStats stats.tableLog + 1) ≠
      2 ^ stats.targetLog then
    .error (.corruption "Huff0 X2 ranks do not tile the table") else
  let entries ← fillDtableX2 (stats.x2Plan stats.targetLog) (maxWeightBelow stats.rankStats stats.tableLog) 1
    (List.replicate (2 ^ stats.targetLog) default)
  .ok { tableLog := stats.targetLog, entries }

theorem readDtableX2_eq (src : Bytes) :
    readDtableX2 src = readStats src >>= fun stats => (fun t => (t, stats.size)) <$> buildDtableX2 stats := by
  unfold readDtableX2 buildDtableX2
  cases readStats src with
  | error e => rfl
  | ok stats =>
    simp only [ok_bind]
    by_cases hlog : stats.tableLog > tablelogMax
    · rw [if_pos hlog, if_pos hlog]
      rfl
    rw [if_neg hlog, if_neg hlog]
    by_cases hrow : rankValRow stats.rankStats stats.targetLog stats.tableLog
        (maxWeightBelow stats.rankStats stats.tableLog + 1) ≠ 2 ^ stats.targetLog
    · rw [if_pos hrow]
      exact if_pos hrow
    · rw [if_neg hrow]
      refine (if_neg hrow).trans ?_
      change (fillDtableX2 (stats.x2Plan stats.targetLog) (maxWeightBelow stats.rankStats stats.tableLog) 1
        (List.replicate (2 ^ stats.targetLog) default) >>= fun entries =>
          (.ok (⟨stats.targetLog, entries⟩, stats.size) : Result (DTableX2 × Nat))) = _
      cases fillDtableX2 (stats.x2Plan stats.targetLog) (maxWeightBelow stats.rankStats stats.tableLog) 1
        (List.replicate (2 ^ stats.targetLog) default) <;> rfl

theorem Stats.Ok.le_targetLog {stats : Stats} (hok : stats.Ok) : stats.tableLog ≤ stats.targetLog := by
  have := hok.tableLog_le
  unfold Stats.targetLog
  split <;> omega

theorem length_symbolsOf (weights : List Nat) (w : Nat) :
    (List.map (·.2) (weights.zipIdx.filter (·.1 = w))).length = weights.count w := by
  rw [List.length_map, ← List.countP_eq_length_filter, List.count_eq_countP]
  conv_rhs => rw [← List.zipIdx_map_fst 0 weights, List.countP_map]
  congr 1

theorem Stats.Ok.x2Plan_tiles {stats : Stats} (hok : stats.Ok) {targetLog : Nat} (hlog : stats.tableLog ≤ targetLog) :
    (stats.x2Plan targetLog).Tiles := by
  have hmax := hok.tableLog_le
  have hmw := maxWeightBelow_le stats.rankStats stats.tableLog
  unfold Stats.x2Plan
  refine ⟨by simp only; omega, hok.maxWeight_pos, by simp only; omega, by simp only; omega, ?_, ?_, ?_⟩
  · intro w hw hle
    have hexp : targetLog + w - (stats.tableLog + 1) = w + targetLog - stats.tableLog - 1 := by omega
    simp only [true_or, if_true, Nat.shiftRight_zero]
    rw [rankValRow_succ _ _ _ hw, hok.ranks w (by simp only at hle; omega), length_symbolsOf, hexp]
  · simp only [true_or, if_true, Nat.shiftRight_zero]
    exact hok.tiles hlog
  · intro c w h1 h2
    simp only [true_or, if_true, Nat.shiftRight_zero]
    rw [if_pos (.inr ⟨h1, h2⟩)]

/-- The double-symbol table is built for every description that is read. -/
theorem buildDtableX2_ok {stats : Stats} (hok : stats.Ok) : ∃ t, buildDtableX2 stats = .ok t := by
  have hmax := hok.tableLog_le
  have hmw := maxWeightBelow_le stats.rankStats stats.tableLog
  unfold buildDtableX2
  rw [if_neg (by omega), if_neg (by rw [not_not]; exact hok.tiles hok.le_targetLog)]
  obtain ⟨entries, hfill, -⟩ := fillDtableX2_ok (hok.x2Plan_tiles hok.le_targetLog)
    (maxWeightBelow stats.rankStats stats.tableLog) 1 (List.replicate (2 ^ stats.targetLog) default) (le_refl _)
    (by unfold Stats.x2Plan; simp only; omega) (by unfold Stats.x2Plan; simp)
  rw [hfill]
  exact ⟨_, rfl⟩

end Huff0

end Zstandard
