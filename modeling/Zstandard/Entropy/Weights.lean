/-
FSE coding read back: interleaved symbols over the two tables of a distribution, and the weights of a
Huffman description, whose distribution is made from their own histogram.

A symbol that has the whole table costs no bits in either state, so the decoder, which ends where bits are
missing, cannot tell how often it occurs; every other distribution gives back its symbols.
-/
import Zstandard.Entropy.Huff0
import Zstandard.Entropy.Interleaved
import Zstandard.Entropy.NcountRoundtrip
import Zstandard.Entropy.Shares

namespace Zstandard

namespace Fse

/-! ## Both tables and both coders -/

/-- Coding `src` over the tables of a distribution and back. The clamped coder ends; when the destination
takes its stream, the fast flush makes the same stream, whichever of them `compress_using_ctable` takes, and
the decoder returns `src` into every destination that holds it. -/
def RoundTrips (normalizedCounter : List Int) (maxSymbolValue tableLog : Nat) (dst : Bytes) (src : List Nat) : Prop :=
  ∃ ct dt size out, buildCtable normalizedCounter maxSymbolValue tableLog = .ok ct ∧
    buildDtable normalizedCounter maxSymbolValue tableLog = .ok dt ∧
    compressUsingCtableGeneric dst src ct false = .ok (size, out) ∧
    ((tableLog * src.length + 1) / 8 + containerBytes < dst.length → size ≠ 0) ∧
    (size ≠ 0 → size ≤ out.length ∧ compressUsingCtableGeneric dst src ct true = .ok (size, out) ∧
      compressUsingCtable dst src ct = .ok (size, out) ∧
      ∀ dstLen, src.length ≤ dstLen → decompressInterleaved2 dstLen (out.take size) dt = .ok src)

section
variable {normalizedCounter : List Int} {maxSymbolValue tableLog : Nat}

theorem roundTrips {src : List Nat} (dst : Bytes) (hn : Normalized normalizedCounter maxSymbolValue tableLog)
    (hlog : minTablelog ≤ tableLog ∧ tableLog ≤ tablelogMax) (hmax : maxSymbolValue ≤ symbolvalueMax)
    (hlen : 3 ≤ src.length) (hsupport : ∀ s ∈ src, shareOf normalizedCounter maxSymbolValue s ≠ 0)
    (hwhole : ∀ s ∈ src, shareOf normalizedCounter maxSymbolValue s < 2 ^ tableLog) :
    RoundTrips normalizedCounter maxSymbolValue tableLog dst src := by
  have hmin : 4 ≤ tableLog := le_trans (by decide) hlog.1
  obtain ⟨ct, entries, hct, hentries, hdual⟩ := buildTables_dual hn hmin hlog.2 hmax
  obtain ⟨size, out, hcompress, hpayload, hroom⟩ :=
    @compressUsingCtableGeneric_ok _ _ _ _ _ _ hdual hlog.2 hsupport dst hlen hwhole
  have hdt : buildDtable normalizedCounter maxSymbolValue tableLog = .ok {
      fastMode := (normalizedCounter.take (maxSymbolValue + 1)).all (· < 2 ^ (tableLog - 1)), tableLog, entries } := by
    unfold buildDtable
    rw [hentries]
    rfl
  refine ⟨ct, _, size, out, hct, hdt, hcompress, hroom, fun hne => ⟨(hpayload hne).1,
    compressUsingCtableGeneric_swap true hcompress hne, compressUsingCtableGeneric_swap _ hcompress hne,
      fun dstLen hdst => ?_⟩⟩
  refine decompressInterleaved2_payload (by omega) hlog.2 rfl (fun hfast e he => ?_) (hpayload hne).2 hdst
  exact hdual.wide e he (shareOf_fast hn hmin hfast e.symbol)

end

/-- One symbol in all 32 slots. -/
def wholeTable : List Int := [32]

theorem wholeTable_normalized : Normalized wholeTable 0 5 := ⟨by decide, by decide, by decide⟩

/-- Three times the symbol that has the whole table: the stream holds the two states and no more. -/
theorem roundTrips_whole : ¬ ∀ (normalizedCounter : List Int) (maxSymbolValue tableLog : Nat) (dst : Bytes)
    (src : List Nat), Normalized normalizedCounter maxSymbolValue tableLog →
    minTablelog ≤ tableLog ∧ tableLog ≤ tablelogMax → maxSymbolValue ≤ symbolvalueMax → 3 ≤ src.length →
    (∀ s ∈ src, shareOf normalizedCounter maxSymbolValue s ≠ 0) →
    RoundTrips normalizedCounter maxSymbolValue tableLog dst src := by
  intro h
  obtain ⟨ct, dt, size, out, hct, hdt, hcompress, hroom, hback⟩ :=
    h wholeTable 0 5 (List.replicate 16 0) [0, 0, 0] wholeTable_normalized (by decide) (by decide)
      (by decide) (by decide)
  obtain ⟨-, -, -, hdecode⟩ := hback (hroom (by decide))
  have hfails : (buildCtable wholeTable 0 5).bind (fun ct => (buildDtable wholeTable 0 5).bind fun dt =>
      (compressUsingCtableGeneric (List.replicate 16 0) [0, 0, 0] ct false).bind fun r =>
        decompressInterleaved2 3 (r.2.take r.1) dt) = .error .dstSizeTooSmall := by decide +kernel
  rw [hct, hdt] at hfails
  simp only [Except.bind] at hfails
  rw [hcompress] at hfails
  simp only at hfails
  rw [hdecode 3 (le_refl _)] at hfails
  cases hfails

/-! ## The header in front -/

theorem natAbs_pair_le (counts : List Int) {s t : Nat} (h : s < t) :
    (counts.getD s 0).natAbs + (counts.getD t 0).natAbs ≤ slotTotal counts := by
  have h1 := slotTotal_take_succ counts s
  have h2 := slotTotal_take_mono counts (Nat.succ_le_of_lt h)
  rw [Nat.succ_eq_add_one] at h2
  have h3 := slotTotal_take_succ counts t
  have h4 := slotTotal_take_le counts (t + 1)
  omega

/-- The tables look at the counts of the alphabet only. -/
theorem buildDtable_congr {counts counts' : List Int} {maxSymbolValue : Nat} (tableLog : Nat)
    (htake : counts'.take (maxSymbolValue + 1) = counts.take (maxSymbolValue + 1))
    (hlen : maxSymbolValue < counts.length) (hlen' : maxSymbolValue < counts'.length) :
    buildDtable counts' maxSymbolValue tableLog = buildDtable counts maxSymbolValue tableLog := by
  unfold buildDtable buildEntries checkTableArguments spreadSymbols
  simp only [htake, ge_iff_le, not_le.2 hlen, not_le.2 hlen']

section
variable {normalizedCounter : List Int} {maxSymbolValue tableLog : Nat}

/-- A header and a payload after it decode to the symbols. -/
theorem decompress_written {dst out payload : Bytes} {src : List Nat} {headerSize maxSymbol maxTableLog dstLen : Nat}
    {dt : DTable} (hn : Normalized normalizedCounter maxSymbolValue tableLog)
    (hlast : normalizedCounter.getD maxSymbolValue 0 ≠ 0)
    (hwrite : writeNcount dst normalizedCounter maxSymbolValue tableLog = .ok (headerSize, out))
    (hpayload : payload ≠ [])
    (hsymbol : maxSymbolValue ≤ maxSymbol) (hmax : maxSymbol ≤ symbolvalueMax) (hlog : tableLog ≤ maxTableLog)
    (hmaxLog : maxTableLog ≤ tablelogMax) (hdt : buildDtable normalizedCounter maxSymbolValue tableLog = .ok dt)
    (hback : decompressInterleaved2 dstLen payload dt = .ok src) :
    decompress dstLen (out.take headerSize ++ payload) maxSymbol maxTableLog = .ok src := by
  obtain ⟨-, -, -, -, -, -, -, -, hsize, -⟩ := writeNcount_header hn hwrite
  have htake : (normalizedCounter.take (maxSymbolValue + 1)).length = maxSymbolValue + 1 := by
    rw [List.length_take, Nat.min_eq_left hn.alphabet]
  unfold decompress
  rw [readNcount_writeNcount hn hlast hwrite hpayload hsymbol (Nat.lt_succ_of_le hmax) hmax hlog hmaxLog, ok_bind]
  simp only
  rw [buildDtable_congr tableLog _ hn.alphabet, hdt, ok_bind,
    List.drop_left' (by rw [List.length_take, Nat.min_eq_left hsize]), hback]
  · rw [List.length_append, htake]
    omega
  · rw [List.take_left' htake]

end

end Fse

namespace Huff0

open Fse

/-! ## Compressing weights -/

/-- The histogram of weights, in as many slots as there are weights. -/
def countWeights (weightTable : List Nat) : List Nat :=
  (List.range (tablelogMax + 1)).map fun weight => weightTable.count weight

/-- `compress_weights`: the size, with what the destination then holds. Of a size of 0 the weights are not
compressible, of 1 they are all the same. -/
def compressWeights (dst : Bytes) (weightTable : List Nat) : Result (Nat × Bytes) :=
  if weightTable.length ≤ 1 then .ok (0, dst)
  else if weightTable.any (· > tablelogMax) then .error .generic
  else
    let count := countWeights weightTable
    let maxSymbolValue := weightTable.foldl max 0
    let maxCount := count.foldl max 0
    if maxCount = weightTable.length then .ok (1, dst)
    else if maxCount = 1 then .ok (0, dst)
    else do
      let tableLog := optimalTableLog maxFseTablelogForHuffHeader weightTable.length maxSymbolValue
      let (_, norm) ← normalizeCount (tablelogMax + 1) tableLog count weightTable.length maxSymbolValue false
      let (headerSize, dst) ← writeNcount dst norm maxSymbolValue tableLog
      let ctable ← buildCtable norm maxSymbolValue tableLog
      let (compressedSize, payload) ← compressUsingCtable (dst.drop headerSize) weightTable ctable
      let dst := dst.take headerSize ++ payload
      if compressedSize = 0 then .ok (0, dst) else .ok (headerSize + compressedSize, dst)

/-! ## The histogram of weights -/

theorem foldl_max_spec {values : List Nat} (hne : values ≠ []) :
    values.foldl max 0 ∈ values ∧ ∀ v ∈ values, v ≤ values.foldl max 0 := by
  have hmax : values.foldl max 0 = values.max hne := by rw [List.foldl_max_eq_max hne, Nat.zero_max]
  rw [hmax]
  exact ⟨List.max_mem hne, fun v hv => List.le_max_of_mem hv⟩

theorem sum_one_range (v n : Nat) :
    ((List.range n).map fun w => if v = w then 1 else 0).sum = if v < n then 1 else 0 := by
  induction n with
  | zero => rfl
  | succ n ih =>
    rw [List.range_succ, List.map_append, List.sum_append, ih, List.map_singleton, List.sum_singleton]
    split <;> split <;> split <;> omega

/-- Every occurrence is counted in its slot. -/
theorem sum_count_range {n : Nat} : ∀ {values : List Nat}, (∀ v ∈ values, v < n) →
    ((List.range n).map fun v => values.count v).sum = values.length
  | [], _ => by simp
  | v :: values, h => by
    have hv := h v List.mem_cons_self
    have hrest := sum_count_range fun w hw => h w (List.mem_cons_of_mem _ hw)
    have hsplit : (fun w => (v :: values).count w) = fun w => values.count w + if v = w then 1 else 0 := by
      funext w
      rw [List.count_cons]
      simp only [beq_iff_eq]
    rw [hsplit, List.sum_map_add, hrest, sum_one_range, if_pos hv, List.length_cons]

theorem countWeights_getD {weightTable : List Nat} {weight : Nat} (h : weight ≤ tablelogMax) :
    (countWeights weightTable).getD weight 0 = weightTable.count weight := by
  unfold countWeights
  rw [List.getD_eq_getElem _ _ (by simp; omega)]
  simp

theorem countWeights_take {weightTable : List Nat} {maxSymbolValue : Nat} (h : maxSymbolValue ≤ tablelogMax) :
    (countWeights weightTable).take (maxSymbolValue + 1) =
      (List.range (maxSymbolValue + 1)).map fun weight => weightTable.count weight := by
  unfold countWeights
  rw [← List.map_take, List.take_range, Nat.min_eq_left (by omega)]

/-- The table log that is asked for passes the guard. -/
theorem optimalTableLog_bounds {maxTableLog srcSize maxSymbolValue : Nat}
    (hguard : minTableLog srcSize maxSymbolValue ≤ max minTablelog (min maxTableLog Fse.tablelogMax)) :
    minTableLog srcSize maxSymbolValue ≤ optimalTableLog maxTableLog srcSize maxSymbolValue ∧
      minTablelog ≤ optimalTableLog maxTableLog srcSize maxSymbolValue ∧
      optimalTableLog maxTableLog srcSize maxSymbolValue ≤ max minTablelog (min maxTableLog Fse.tablelogMax) := by
  have hmin : minTableLog (max srcSize 2) maxSymbolValue = minTableLog srcSize maxSymbolValue := by
    unfold minTableLog
    rw [Nat.max_assoc, Nat.max_self]
  unfold optimalTableLog
  simp only [hmin]
  refine ⟨?_, le_max_left _ _, max_le (le_max_left _ _) (Nat.min_le_right _ _)⟩
  refine le_trans ?_ (le_max_right _ _)
  refine le_min ?_ hguard
  by_cases hlow : minTableLog srcSize maxSymbolValue > if highbit32 ((max srcSize 2 - 1) % 2 ^ 32) - 2 <
      max minTablelog (min maxTableLog Fse.tablelogMax) then
      max (highbit32 ((max srcSize 2 - 1) % 2 ^ 32) - 2) minTablelog else
      max minTablelog (min maxTableLog Fse.tablelogMax)
  · rw [if_pos hlow]
    exact le_min (le_refl _) hguard
  · rw [if_neg hlow]
    exact not_lt.1 hlow

section
variable {weightTable : List Nat} (hne : weightTable ≠ []) (hle : ∀ w ∈ weightTable, w ≤ tablelogMax)

include hne hle in
/-- Five bits are enough for any weights. -/
theorem minBits_le : minTableLog weightTable.length (weightTable.foldl max 0) ≤
    max minTablelog (min maxFseTablelogForHuffHeader Fse.tablelogMax) := by
  have htop := hle _ (foldl_max_spec hne).1
  refine le_trans (Nat.min_le_right _ _) ?_
  generalize weightTable.foldl max 0 = maxSymbolValue at htop
  revert htop
  revert maxSymbolValue
  decide

include hne hle in
theorem countWeights_histogram (htwo : 2 ≤ weightTable.length) (hlen : weightTable.length ≤ symbolvalueMax) :
    Histogram (tablelogMax + 1)
      (optimalTableLog maxFseTablelogForHuffHeader weightTable.length (weightTable.foldl max 0))
      (countWeights weightTable) weightTable.length (weightTable.foldl max 0) := by
  obtain ⟨hmem, hmax⟩ := foldl_max_spec hne
  have htop := hle _ hmem
  obtain ⟨hlow, hmin, hup⟩ := optimalTableLog_bounds (minBits_le hne hle)
  unfold symbolvalueMax at hlen
  refine ⟨⟨?_, Nat.lt_succ_of_le htop, ?_⟩, fun c hc => ?_, ?_, htwo, ⟨hmin, le_trans hup (by decide)⟩, hlow⟩
  · exact le_trans htop (by decide)
  · unfold countWeights
    rw [List.length_map, List.length_range]
    exact Nat.lt_succ_of_le htop
  · obtain ⟨w, -, rfl⟩ := List.mem_map.1 hc
    have := weightTable.count_le_length (a := w)
    omega
  · rw [countWeights_take htop]
    exact sum_count_range fun w hw => Nat.lt_succ_of_le (hmax w hw)

include hne hle in
/-- Weights that are not all the same get a distribution over which all of them occur and none has the whole
table. -/
theorem countWeights_normalized {ns : List Int} {tableLog : Nat}
    (hmany : ∀ w, weightTable.count w ≠ weightTable.length)
    (hserved : Served ((countWeights weightTable).take (weightTable.foldl max 0 + 1)) ns (2 ^ tableLog)) :
    Normalized ns (weightTable.foldl max 0) tableLog ∧ ns.getD (weightTable.foldl max 0) 0 ≠ 0 ∧
      ∀ w ∈ weightTable, shareOf ns (weightTable.foldl max 0) w ≠ 0 ∧
        shareOf ns (weightTable.foldl max 0) w < 2 ^ tableLog := by
  obtain ⟨hmem, hmax⟩ := foldl_max_spec hne
  have htop := hle _ hmem
  have htake := @countWeights_take weightTable _ htop
  generalize weightTable.foldl max 0 = maxSymbolValue at *
  have hlen : ns.length = maxSymbolValue + 1 := by
    rw [hserved.length, htake, List.length_map, List.length_range]
  have hshare : ∀ w, shareOf ns maxSymbolValue w = (ns.getD w 0).natAbs := by
    intro w
    unfold shareOf
    rw [List.take_of_length_le hlen.le]
  have hoccurs : ∀ w ∈ weightTable, ns.getD w 0 ≠ 0 := by
    intro w hw h0
    have hcount := (hserved.absent w).1 h0
    have hwmax := hmax w hw
    rw [htake, List.getD_eq_getElem _ _ (by simp; omega), List.getElem_map, List.getElem_range] at hcount
    exact List.count_pos_iff.2 hw |>.ne' hcount
  refine ⟨⟨by omega, hserved.atLeast, by rw [List.take_of_length_le hlen.le, hserved.total]⟩, hoccurs _ hmem,
    fun w hw => ?_⟩
  obtain ⟨other, hother, hdiffer⟩ : ∃ other ∈ weightTable, other ≠ w := by
    by_contra hall
    push Not at hall
    exact hmany w (List.count_eq_length.2 fun v hv => (hall v hv).symm)
  have hw0 := hoccurs w hw
  have hother0 := hoccurs other hother
  rw [hshare, ← hserved.total]
  rcases Nat.lt_or_gt_of_ne hdiffer with hlt | hlt
  · have := natAbs_pair_le ns hlt
    omega
  · have := natAbs_pair_le ns hlt
    omega

end

/-! ## Compressed weights -/

/-- Weights that were compressed decode to themselves. -/
theorem decompress_compressWeights {dst out : Bytes} {weightTable : List Nat} {size : Nat}
    (hlen : weightTable.length ≤ symbolvalueMax) (h : compressWeights dst weightTable = .ok (size, out))
    (hsize : 1 < size) :
    Fse.decompress symbolvalueMax (out.take size) tablelogMax maxFseTablelogForHuffHeader = .ok weightTable := by
  unfold compressWeights at h
  split at h
  · cases h
    omega
  rename_i hone
  split at h
  · cases h
  rename_i hany
  simp only at h
  split at h
  · cases h
    omega
  rename_i hsame
  split at h
  · cases h
    omega
  rename_i honce
  have hne : weightTable ≠ [] := fun h0 => hone (by rw [h0]; exact Nat.zero_le _)
  have hle : ∀ w ∈ weightTable, w ≤ tablelogMax := by simpa using hany
  have hcounts : countWeights weightTable ≠ [] := fun h0 => by
    have := congrArg List.length h0
    simp [countWeights] at this
  obtain ⟨hmost, hmax⟩ := foldl_max_spec hcounts
  have hcount : ∀ w ∈ weightTable, weightTable.count w ≤ (countWeights weightTable).foldl max 0 := fun w hw =>
    hmax _ (List.mem_map.2 ⟨w, List.mem_range.2 (Nat.lt_succ_of_le (hle w hw)), rfl⟩)
  have hatMost : (countWeights weightTable).foldl max 0 ≤ weightTable.length := by
    obtain ⟨w, -, hw⟩ := List.mem_map.1 hmost
    rw [← hw]
    exact List.count_le_length
  have hmany : ∀ w, weightTable.count w ≠ weightTable.length := by
    intro w hw
    have hmem : w ∈ weightTable := List.count_pos_iff.1 (by rw [hw]; omega)
    have := hcount w hmem
    omega
  have hfirst : 1 ≤ (countWeights weightTable).foldl max 0 := by
    obtain ⟨w, hw⟩ := List.exists_mem_of_ne_nil _ hne
    exact le_trans (List.count_pos_iff.2 hw) (hcount w hw)
  have hhist := countWeights_histogram hne hle (by omega) hlen
  obtain ⟨-, -, htable⟩ := optimalTableLog_bounds (minBits_le hne hle)
  generalize optimalTableLog maxFseTablelogForHuffHeader weightTable.length (weightTable.foldl max 0) = tableLog at *
  obtain ⟨⟨log, norm⟩, hnorm, h⟩ := bind_ok h
  obtain ⟨⟨headerSize, dst1⟩, hwrite, h⟩ := bind_ok h
  obtain ⟨ctable, hctable, h⟩ := bind_ok h
  obtain ⟨⟨compressedSize, payload⟩, hcompress, h⟩ := bind_ok h
  simp only at hwrite hctable hcompress h
  split at h
  · cases h
    omega
  rename_i hfits
  cases h
  have htotal : weightTable.length < 2 ^ 32 := lt_of_le_of_lt hlen (by decide)
  rcases hhist.normalizes (.inl htotal) false with ⟨hall, -⟩ | ⟨-, ns, hns, hserved⟩
  · rw [countWeights_take (hle _ (foldl_max_spec hne).1)] at hall
    obtain ⟨w, -, hw⟩ := List.mem_map.1 hall
    exact absurd hw (hmany w)
  cases hnorm.symm.trans hns
  obtain ⟨hn, hlast, hshares⟩ := countWeights_normalized hne hle hmany hserved
  have hsymbol := hle _ (foldl_max_spec hne).1
  generalize weightTable.foldl max 0 = maxSymbolValue at *
  obtain ⟨ct, dt, csize, cout, hct, hdt, hclamped, hroom, hback⟩ :=
    roundTrips (dst1.drop headerSize) hn hhist.range (hhist.alphabet.1) (by omega) (fun w hw => (hshares w hw).1)
      (fun w hw => (hshares w hw).2)
  cases hctable.symm.trans hct
  cases (compressUsingCtableGeneric_swap false hcompress hfits).symm.trans hclamped
  obtain ⟨hin, -, -, hdecode⟩ := hback hfits
  obtain ⟨-, -, -, -, -, -, -, -, hheader, -⟩ := writeNcount_header hn hwrite
  have hpayload : payload.take compressedSize ≠ [] := fun h0 => by
    have := congrArg List.length h0
    rw [List.length_take, List.length_nil] at this
    omega
  rw [List.take_append, List.take_of_length_le (by rw [List.length_take]; omega), List.length_take,
    Nat.min_eq_left hheader, Nat.add_sub_cancel_left]
  exact decompress_written hn hlast hwrite hpayload hsymbol (by decide) htable (by decide) hdt (hdecode _ hlen)

/-- Coding symbols over a distribution in which none of them has the whole table, and coding weights, are undone
by the decoders. -/
theorem coding_roundTrips :
    (∀ (normalizedCounter : List Int) (maxSymbolValue tableLog : Nat) (dst : Bytes) (src : List Nat),
      Normalized normalizedCounter maxSymbolValue tableLog → minTablelog ≤ tableLog ∧ tableLog ≤ Fse.tablelogMax →
      maxSymbolValue ≤ Fse.symbolvalueMax → 3 ≤ src.length →
      (∀ s ∈ src, shareOf normalizedCounter maxSymbolValue s ≠ 0) →
      (∀ s ∈ src, shareOf normalizedCounter maxSymbolValue s < 2 ^ tableLog) →
      RoundTrips normalizedCounter maxSymbolValue tableLog dst src) ∧
    ∀ (dst out : Bytes) (weightTable : List Nat) (size : Nat), weightTable.length ≤ symbolvalueMax →
      compressWeights dst weightTable = .ok (size, out) → 1 < size →
      Fse.decompress symbolvalueMax (out.take size) tablelogMax maxFseTablelogForHuffHeader = .ok weightTable :=
  ⟨fun _ _ _ dst _ hn hlog hmax hlen hsupport hwhole => roundTrips dst hn hlog hmax hlen hsupport hwhole,
    fun _ _ _ _ => decompress_compressWeights⟩

/-- Three symbols over 30 slots and two symbols of low probability, and a table of twelve weights. -/
theorem coding_roundTrips_small : RoundTrips [30, -1, -1] 2 5 (List.replicate 16 0) [0, 2, 0] ∧
    ∃ size out, compressWeights (List.replicate 40 0) [1, 1, 1, 2, 1, 1, 0, 1, 1, 1, 2, 1] = .ok (size, out) ∧
      1 < size ∧ Fse.decompress symbolvalueMax (out.take size) tablelogMax maxFseTablelogForHuffHeader =
        .ok [1, 1, 1, 2, 1, 1, 0, 1, 1, 1, 2, 1] := by
  refine ⟨coding_roundTrips.1 _ _ _ _ _ ⟨by decide, by decide, by decide⟩ (by decide) (by decide)
    (by decide) (by decide) (by decide), ?_⟩
  have hsize : ((compressWeights (List.replicate 40 0) [1, 1, 1, 2, 1, 1, 0, 1, 1, 1, 2, 1]).toOption.map fun r =>
    decide (1 < r.1)) = some true := by decide +kernel
  cases hcompress : compressWeights (List.replicate 40 0) [1, 1, 1, 2, 1, 1, 0, 1, 1, 1, 2, 1] with
  | error e =>
    rw [hcompress] at hsize
    cases hsize
  | ok r =>
    rw [hcompress] at hsize
    have hbig : 1 < r.1 := by simpa [Except.toOption] using hsize
    exact ⟨r.1, r.2, rfl, hbig, coding_roundTrips.2 _ _ _ _ (by decide) hcompress hbig⟩

end Huff0

end Zstandard
