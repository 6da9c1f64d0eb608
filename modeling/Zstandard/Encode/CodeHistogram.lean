/-
The histograms of the sequence codes, counted serially or over four lanes, and what all the histogram kernels have in
common: the counts are the numbers of occurrences, and the maximum symbol is the largest that occurs.
-/
import Zstandard.Entropy.Histogram
import Zstandard.Encode.LayDown

namespace Zstandard

open Hist

/-! ## The kernels -/

/-- `SequenceCodeStats`. -/
structure SequenceCodeStats where
  counts : List Nat
  maxSymbol : Nat
  mostFrequent : Nat
  total : Nat
deriving DecidableEq, Repr

/-- The part of `count_codes_serial` that is about one alphabet: the counters of the others are other arrays. -/
def countCodesSerial (codes : Bytes) (counts : List Nat) : List Nat :=
  codes.foldl (fun counts code => bump counts code.toNat) counts

/-- `while index < whole`: four codes, each into the table of its lane. The lanes are one array, table after table. -/
def laneLoop (codes : Bytes) (whole index : Nat) (lanes : List Nat) : List Nat :=
  if index < whole then
    let code (lane : Nat) := (codes.getD (index + lane) 0).toNat
    laneLoop codes whole (index + 4)
      (bump (bump (bump (bump lanes (code 0)) (256 + code 1)) (512 + code 2)) (768 + code 3))
  else lanes
termination_by whole - index

/-- The part of `count_codes_interleaved` that is about one alphabet. -/
def countCodesInterleaved (codes : Bytes) (counts : List Nat) : List Nat :=
  let whole := codes.length - codes.length % 4
  let lanes := laneLoop codes whole 0 (List.replicate 1024 0)
  let lanes := (codes.drop whole).foldl (fun lanes code => bump lanes code.toNat) lanes
  (List.range 4).foldl (fun counts lane => (List.range 256).map fun symbol =>
    wrapAdd (tally counts symbol) (tally lanes (256 * lane + symbol))) counts

/-- `finalize_stats`: from the largest symbol down. -/
def finalizeStats (counts : List Nat) (maxAllowed total : Nat) : SequenceCodeStats :=
  let (maxSymbol, mostFrequent) := (List.range (maxAllowed + 1)).reverse.foldl (fun (maxSymbol, mostFrequent) symbol =>
    let count := tally counts symbol
    (if count > 0 ∧ maxSymbol = 0 then symbol else maxSymbol, if count > mostFrequent then count else mostFrequent))
    (0, 0)
  ⟨counts, maxSymbol, mostFrequent, total⟩

/-- The codes of one part, counted by the kernel that suits the number of sequences. -/
def analyzePart (part : SequencePart) (codes : Bytes) : SequenceCodeStats :=
  let counts := List.replicate 256 0
  let counts := if codes.length ≥ 2048 then countCodesInterleaved codes counts else countCodesSerial codes counts
  finalizeStats counts part.maxSymbolValue codes.length

/-- `analyze_all_codes`. The three code vectors have one length. -/
def analyzeAllCodes (literalCodes offsetCodes matchCodes : Bytes) :
    SequenceCodeStats × SequenceCodeStats × SequenceCodeStats :=
  (analyzePart .literalLength literalCodes, analyzePart .offset offsetCodes, analyzePart .matchLength matchCodes)

/-- The code that a sequence generates for a part. -/
def SequencePart.code (part : SequencePart) (sequence : SequenceCommand) : UInt8 :=
  match part with
  | .literalLength => UInt8.ofNat (literalLengthCodeUnchecked sequence.literalLength)
  | .offset => UInt8.ofNat (offsetCodeUnchecked sequence.offsetValue)
  | .matchLength => UInt8.ofNat (matchLengthCodeUnchecked sequence.matchLength)

/-- A sequence whose values have codes. -/
structure SequenceCommand.InRange (sequence : SequenceCommand) : Prop where
  literalLength_le : sequence.literalLength ≤ 0x1FFFF
  offsetValue_pos : 0 < sequence.offsetValue
  offsetValue_lt : sequence.offsetValue < 2 ^ 32
  le_matchLength : 3 ≤ sequence.matchLength
  matchLength_le : sequence.matchLength ≤ 0x1FFFF + 3

/-- `ensure_codes_populated`. -/
def populateCodes (sequences : List SequenceCommand) : Bytes × Bytes × Bytes :=
  (sequences.map SequencePart.literalLength.code, sequences.map SequencePart.offset.code,
    sequences.map SequencePart.matchLength.code)

/-! ## Codes are within their alphabets -/

theorem getD_le_of_forall {l : List Nat} {bound : Nat} (h : ∀ x ∈ l, x ≤ bound) (i : Nat) : l.getD i 0 ≤ bound := by
  rw [List.getD_eq_getElem?_getD]
  cases hi : l[i]? with
  | none => exact Nat.zero_le _
  | some x => exact h x (List.mem_of_getElem? hi)

theorem literalLengthCode_le {literalLength : Nat} (h : literalLength ≤ 0x1FFFF) :
    literalLengthCodeUnchecked literalLength ≤ 35 := by
  unfold literalLengthCodeUnchecked
  split
  · have htable : ∀ x ∈ literalLengthCodeTable, x ≤ 35 := by decide +kernel
    exact getD_le_of_forall htable _
  · have hlog : Nat.log2 literalLength < 17 := (Nat.log2_lt (by omega)).2 (by omega)
    unfold highbit32
    omega

theorem matchLengthCode_le {matchLength : Nat} (h : matchLength ≤ 0x1FFFF + 3) :
    matchLengthCodeUnchecked matchLength ≤ 52 := by
  unfold matchLengthCodeUnchecked
  dsimp only
  split
  · have htable : ∀ x ∈ matchLengthCodeTable, x ≤ 52 := by decide +kernel
    exact getD_le_of_forall htable _
  · have hlog : Nat.log2 (matchLength - 3) < 17 := (Nat.log2_lt (by omega)).2 (by omega)
    unfold highbit32
    omega

theorem SequencePart.code_le (part : SequencePart) {sequence : SequenceCommand} (h : sequence.InRange) :
    (part.code sequence).toNat ≤ part.maxSymbolValue := by
  have hll := literalLengthCode_le h.literalLength_le
  have hml := matchLengthCode_le h.matchLength_le
  have hof : offsetCodeUnchecked sequence.offsetValue < 32 :=
    (Nat.log2_lt h.offsetValue_pos.ne').2 h.offsetValue_lt
  cases part with
  | literalLength => exact (Nat.mod_le _ _).trans hll
  | offset => exact (Nat.mod_le _ _).trans (Nat.le_of_lt_succ hof)
  | matchLength => exact (Nat.mod_le _ _).trans hml

/-! ## Serial and interleaved -/

theorem countCodesSerial_spec (codes : Bytes) :
    ∀ symbol < 256, tally (countCodesSerial codes (List.replicate 256 0)) symbol =
      occurrences codes symbol % 2 ^ 32 := by
  intro symbol _
  obtain ⟨-, htally⟩ := foldl_bump codes (List.replicate 256 0) fun code _ => by
    rw [List.length_replicate]; exact code.toNat_lt
  unfold countCodesSerial
  rw [htally symbol (by rw [tally_replicate]; decide), tally_replicate]
  unfold wrapAdd
  rw [Nat.zero_add]

theorem laneLoop_counted (codes : Bytes) (whole index : Nat) (lanes : List Nat) (hwhole : whole ≤ codes.length)
    (hfour : (whole - index) % 4 = 0) (hindex : index ≤ whole) (h : CountedLanes lanes (codes.take index)) :
    CountedLanes (laneLoop codes whole index lanes) (codes.take whole) := by
  fun_induction laneLoop codes whole index lanes with
  | case1 index lanes hlt code ih =>
    apply ih
    · omega
    · omega
    · have hfetch : ∀ lane < 4, codes[index + lane]? = some (codes.getD (index + lane) 0) := by
        intro lane hlane
        rw [List.getD_eq_getElem?_getD, List.getElem?_eq_getElem (by omega)]
        rfl
      have htake : codes.take (index + 4) = codes.take index ++ [codes.getD index 0, codes.getD (index + 1) 0,
          codes.getD (index + 2) 0, codes.getD (index + 3) 0] := by
        have h0 := hfetch 0 (by omega)
        rw [Nat.add_zero] at h0
        rw [show index + 4 = index + 1 + 1 + 1 + 1 by omega, List.take_add_one, List.take_add_one, List.take_add_one,
          List.take_add_one, h0, hfetch 1 (by omega), show index + 1 + 1 = index + 2 by omega, hfetch 2 (by omega),
          show index + 2 + 1 = index + 3 by omega, hfetch 3 (by omega)]
        simp only [Option.toList_some, List.append_assoc, List.cons_append, List.nil_append]
      rw [htake]
      exact h.four _ _ _ _
  | case2 index lanes hge =>
    rw [show whole = index by omega]
    exact h

theorem countCodesInterleaved_spec (codes : Bytes) : ∀ symbol < 256,
    tally (countCodesInterleaved codes (List.replicate 256 0)) symbol = occurrences codes symbol % 2 ^ 32 := by
  intro symbol hsymbol
  have hloop := laneLoop_counted codes (codes.length - codes.length % 4) 0 (List.replicate 1024 0) (Nat.sub_le _ _)
    (by omega) (Nat.zero_le _) countedLanes_zero
  have hall := hloop.tail (codes.drop (codes.length - codes.length % 4))
  rw [List.take_append_drop] at hall
  unfold countCodesInterleaved
  dsimp only
  generalize (codes.drop (codes.length - codes.length % 4)).foldl (fun lanes code => bump lanes code.toNat)
    (laneLoop codes (codes.length - codes.length % 4) 0 (List.replicate 1024 0)) = lanes at hall
  -- one lane after the other into the counters
  have hadd : ∀ (counts : List Nat) (lane : Nat), tally ((List.range 256).map fun symbol =>
      wrapAdd (tally counts symbol) (tally lanes (256 * lane + symbol))) symbol =
      wrapAdd (tally counts symbol) (tally lanes (256 * lane + symbol)) := by
    intro counts lane
    unfold tally
    rw [List.getD_eq_getElem?_getD, List.getElem?_map, List.getElem?_range hsymbol]
    rfl
  rw [show List.range 4 = [0, 1, 2, 3] from rfl, List.foldl_cons, List.foldl_cons, List.foldl_cons, List.foldl_cons,
    List.foldl_nil, hadd, hadd, hadd, hadd, tally_replicate, ← hall.sum symbol hsymbol]
  unfold laneSum wrapAdd
  rw [Nat.mul_zero, Nat.mul_one, Nat.zero_add, Nat.zero_add, show 256 * 2 = 512 from rfl, show 256 * 3 = 768 from rfl]
  omega

/-! ## Statistics -/

/-- What the loop over the symbols below `n` makes of a maximum and a frequency so far. -/
structure Finalized (counts : List Nat) (n : Nat) (start final : Nat × Nat) : Prop where
  kept : start.1 ≠ 0 → final.1 = start.1
  lt : start.1 = 0 → final.1 = 0 ∨ final.1 < n ∧ 0 < tally counts final.1
  above : start.1 = 0 → ∀ s, final.1 < s → s < n → tally counts s = 0
  le_start : start.2 ≤ final.2
  le : ∀ s < n, tally counts s ≤ final.2
  attained : final.2 = start.2 ∨ ∃ s < n, tally counts s = final.2

theorem finalize_loop (counts : List Nat) : ∀ (n : Nat) (start : Nat × Nat), Finalized counts n start
    ((List.range n).reverse.foldl (fun (maxSymbol, mostFrequent) symbol =>
      let count := tally counts symbol
      (if count > 0 ∧ maxSymbol = 0 then symbol else maxSymbol, if count > mostFrequent then count else mostFrequent))
      start)
  | 0, start => by
    refine ⟨fun _ => rfl, fun h => .inl h, ?_, le_rfl, ?_, .inl rfl⟩
    · intro _ s _ hs
      cases hs
    · intro s hs
      cases hs
  | n + 1, (maxSymbol, mostFrequent) => by
    rw [List.range_succ, List.reverse_append, List.reverse_singleton, List.singleton_append, List.foldl_cons]
    dsimp only
    generalize hstart : ((if tally counts n > 0 ∧ maxSymbol = 0 then n else maxSymbol,
      if tally counts n > mostFrequent then tally counts n else mostFrequent) : Nat × Nat) = start
    have h := finalize_loop counts n start
    generalize (List.range n).reverse.foldl _ start = final at h
    subst hstart
    obtain ⟨hkept, hlt, habove, hle_start, hle, hattained⟩ := h
    dsimp only at hkept hlt habove hle_start hle hattained
    refine ⟨?_, ?_, ?_, ?_, ?_, ?_⟩
    · intro hne
      dsimp only at hne ⊢
      rw [if_neg (by rintro ⟨-, h⟩; exact hne h)] at hkept
      exact hkept hne
    · rintro rfl
      by_cases hn : tally counts n > 0 ∧ n ≠ 0
      · -- the first symbol from above that occurs is kept
        rw [if_pos ⟨hn.1, rfl⟩] at hkept
        rw [hkept hn.2]
        exact .inr ⟨by omega, hn.1⟩
      · have hzero : (if tally counts n > 0 ∧ True then n else 0) = 0 := by
          split_ifs with h
          · by_contra hne
            exact hn ⟨h.1, hne⟩
          · rfl
        rcases hlt (by simpa using hzero) with h | ⟨h, hpos⟩
        · exact .inl h
        · exact .inr ⟨by omega, hpos⟩
    · rintro rfl s hs hs'
      by_cases hn : tally counts n > 0 ∧ n ≠ 0
      · rw [if_pos ⟨hn.1, rfl⟩] at hkept
        rw [hkept hn.2] at hs
        omega
      · rcases Nat.lt_or_ge s n with h | h
        · apply habove _ s hs h
          split_ifs with h'
          · by_contra hne
            exact hn ⟨h'.1, hne⟩
          · rfl
        · obtain rfl : s = n := by omega
          by_contra hne
          exact hn ⟨Nat.pos_of_ne_zero hne, by omega⟩
    · dsimp only
      split_ifs at hle_start with h
      · omega
      · exact hle_start
    · intro s hs
      rcases Nat.lt_or_ge s n with h | h
      · exact hle s h
      · obtain rfl : s = n := by omega
        split_ifs at hle_start with h'
        · exact hle_start
        · omega
    · rcases hattained with h | ⟨s, hs, h⟩
      · split_ifs at h with h'
        · exact .inr ⟨n, by omega, h.symm⟩
        · exact .inl h
      · exact .inr ⟨s, by omega, h⟩

/-- The statistics of a code vector. -/
structure SequenceCodeStats.Counts (stats : SequenceCodeStats) (codes : Bytes) : Prop where
  count : ∀ symbol < 256, tally stats.counts symbol = occurrences codes symbol
  occurs : codes ≠ [] → 0 < occurrences codes stats.maxSymbol
  above : ∀ symbol, stats.maxSymbol < symbol → occurrences codes symbol = 0
  le_mostFrequent : ∀ symbol, occurrences codes symbol ≤ stats.mostFrequent
  mostFrequent : codes ≠ [] → ∃ symbol, occurrences codes symbol = stats.mostFrequent
  total : stats.total = codes.length

/-- Codes of one alphabet are counted as they occur, whichever kernel counts them. -/
theorem analyzePart_counts (part : SequencePart) {codes : Bytes} (hlen : codes.length < 2 ^ 32)
    (hcodes : ∀ code ∈ codes, code.toNat ≤ part.maxSymbolValue) : (analyzePart part codes).Counts codes := by
  have hpart : part.maxSymbolValue < 256 := by cases part <;> decide
  unfold analyzePart
  dsimp only
  have htable : ∀ symbol < 256, tally (if codes.length ≥ 2048 then countCodesInterleaved codes (List.replicate 256 0)
      else countCodesSerial codes (List.replicate 256 0)) symbol = occurrences codes symbol := by
    intro symbol hsymbol
    have hle := occurrences_le codes symbol
    rw [← Nat.mod_eq_of_lt (show occurrences codes symbol < 2 ^ 32 by omega)]
    split
    · exact countCodesInterleaved_spec codes symbol hsymbol
    · exact countCodesSerial_spec codes symbol hsymbol
  generalize (if codes.length ≥ 2048 then countCodesInterleaved codes (List.replicate 256 0)
    else countCodesSerial codes (List.replicate 256 0)) = counts at htable
  have hbeyond : ∀ symbol, part.maxSymbolValue < symbol → occurrences codes symbol = 0 := by
    intro symbol hsymbol
    apply Nat.eq_zero_of_not_pos
    rw [occurrences_pos_iff]
    rintro ⟨code, hcode, rfl⟩
    have := hcodes code hcode
    omega
  have hloop := finalize_loop counts (part.maxSymbolValue + 1) (0, 0)
  unfold finalizeStats
  generalize (List.range (part.maxSymbolValue + 1)).reverse.foldl _ ((0, 0) : Nat × Nat) = final at hloop
  obtain ⟨maxSymbol, mostFrequent⟩ := final
  obtain ⟨-, hlt, habove, -, hle, hattained⟩ := hloop
  dsimp only at hlt habove hle hattained ⊢
  have habove' : ∀ symbol, maxSymbol < symbol → occurrences codes symbol = 0 := by
    intro symbol hsymbol
    rcases Nat.lt_or_ge part.maxSymbolValue symbol with h | h
    · exact hbeyond symbol h
    · rw [← htable symbol (by omega)]
      exact habove rfl symbol hsymbol (by omega)
  have hle' : ∀ symbol, occurrences codes symbol ≤ mostFrequent := by
    intro symbol
    rcases Nat.lt_or_ge part.maxSymbolValue symbol with h | h
    · rw [hbeyond symbol h]; exact Nat.zero_le _
    · rw [← htable symbol (by omega)]; exact hle symbol (by omega)
  refine ⟨htable, ?_, habove', hle', ?_, rfl⟩
  · intro hne
    obtain ⟨code, hcode⟩ := List.exists_mem_of_ne_nil codes hne
    have hpos : 0 < occurrences codes code.toNat := occurrences_pos_iff.2 ⟨code, hcode, rfl⟩
    rcases hlt rfl with h | ⟨h, hcount⟩
    · have : ¬ maxSymbol < code.toNat := fun hlt => by rw [habove' _ hlt] at hpos; omega
      rw [show maxSymbol = code.toNat by omega]; exact hpos
    · rwa [← htable maxSymbol (by omega)]
  · intro hne
    obtain ⟨code, hcode⟩ := List.exists_mem_of_ne_nil codes hne
    have hpos : 0 < occurrences codes code.toNat := occurrences_pos_iff.2 ⟨code, hcode, rfl⟩
    rcases hattained with h | ⟨s, hs, h⟩
    · have := hle' code.toNat
      exact ⟨code.toNat, by omega⟩
    · exact ⟨s, by rw [← htable s (by omega), h]⟩

/-! ## The kernels agree -/

/-- Four tables and one give the same histogram of a string shorter than 2^32, whatever was in the counters before; and
the codes that sequences generate are counted as they occur, with the largest one that occurs as the maximum. -/
theorem histograms_agree {src : Bytes} (hsrc : src.length < 2 ^ 32) {count : List Nat} (hcount : count.length = 256)
    {maxSymbolValue : Nat} (hmax : maxSymbolValue ≤ 255) (hadmits : ∀ byte ∈ src, byte.toNat ≤ maxSymbolValue)
    (count' : List Nat) (maxSymbolValue' : Nat) (check : CheckInput) {sequences : List SequenceCommand}
    (hsequences : ∀ sequence ∈ sequences, sequence.InRange) (hlen : sequences.length < 2 ^ 32) :
    (∃ h : Histogram, countParallelWksp count' maxSymbolValue' src check = some
        (if check = .checkMaxSymbolValue ∧ h.maxSymbolValue > maxSymbolValue' then .error .maxSymbolValueTooSmall
          else .ok h) ∧
      h.Counts src ∧ (countSimple count maxSymbolValue src).Counts src ∧
      (countSimple count maxSymbolValue src).maxSymbolValue = h.maxSymbolValue ∧
      (countSimple count maxSymbolValue src).largest = h.largest ∧
      ∀ symbol ≤ h.maxSymbolValue,
        tally (countSimple count maxSymbolValue src).count symbol = tally h.count symbol) ∧
    (∃ ll of ml, populateCodes sequences = (ll, of, ml) ∧ (analyzeAllCodes ll of ml).1.Counts ll ∧
      (analyzeAllCodes ll of ml).2.1.Counts of ∧ (analyzeAllCodes ll of ml).2.2.Counts ml) := by
  constructor
  · obtain ⟨h, hcounts, hparallel⟩ := countParallelWksp_counts count' maxSymbolValue' check hsrc
    have hsimple := countSimple_counts hcount hmax hadmits hsrc
    obtain ⟨hsame, hlargest, htally⟩ := hcounts.unique hsimple
    exact ⟨h, hparallel, hcounts, hsimple, hsame, hlargest, htally⟩
  · refine ⟨_, _, _, rfl, ?_⟩
    have hpart : ∀ part : SequencePart,
        (analyzePart part (sequences.map part.code)).Counts (sequences.map part.code) := by
      intro part
      apply analyzePart_counts
      · rw [List.length_map]; exact hlen
      · intro code hcode
        obtain ⟨sequence, hsequence, rfl⟩ := List.mem_map.1 hcode
        exact part.code_le (hsequences sequence hsequence)
    exact ⟨hpart .literalLength, hpart .offset, hpart .matchLength⟩

theorem histograms_agree_three : (∃ h : Histogram,
    countParallelWksp [] 9 [3, 1, 3, 3, 2] .trustInput = some (.ok h) ∧ h.Counts [3, 1, 3, 3, 2] ∧
      (countSimple (List.replicate 256 7) 5 [3, 1, 3, 3, 2]).maxSymbolValue = h.maxSymbolValue) ∧
    (analyzeAllCodes [2] [4] [1]).1.Counts [2] := by
  have hsrc : ([3, 1, 3, 3, 2] : Bytes).length < 2 ^ 32 := by norm_num
  have hcount : (List.replicate 256 7).length = 256 := List.length_replicate
  have hmax : 5 ≤ 255 := by decide
  have hadmits : ∀ byte ∈ ([3, 1, 3, 3, 2] : Bytes), byte.toNat ≤ 5 := by simp
  have hsequences : ∀ sequence ∈ ([⟨2, 4, 16⟩] : List SequenceCommand), sequence.InRange := by
    intro sequence hsequence
    obtain rfl := List.mem_singleton.1 hsequence
    exact ⟨by decide, by decide, by decide, by decide, by decide⟩
  obtain ⟨⟨h, hparallel, hcounts, -, hsame, -, -⟩, ll, of, ml, hcodes, hll, -, -⟩ :=
    histograms_agree hsrc hcount hmax hadmits [] 9 .trustInput hsequences (by decide)
  rw [if_neg (by rintro ⟨h, -⟩; cases h)] at hparallel
  have hpopulated : populateCodes [⟨2, 4, 16⟩] = ([2], [4], [1]) := by decide +kernel
  rw [hpopulated] at hcodes
  cases hcodes
  exact ⟨⟨h, hparallel, hcounts, hsame⟩, hll⟩

/-- Where every count is a multiple of 2^32, one table says that nothing occurs and four run off the front. -/
theorem counts_wrapped {src : Bytes} (hne : src ≠ []) (h : ∀ symbol, occurrences src symbol % 2 ^ 32 = 0)
    (check : CheckInput) : (countSimple (List.replicate 256 0) 255 src).largest = 0 ∧
      countParallelWksp (List.replicate 256 0) 255 src check = none := by
  constructor
  · unfold countSimple
    dsimp only
    rw [if_neg (by rwa [List.isEmpty_iff]), List.drop_replicate, show 256 - (255 + 1) = 0 from rfl, List.replicate_zero,
      List.append_nil]
    obtain ⟨-, htally⟩ := foldl_bump src (List.replicate (255 + 1) 0) fun byte _ => by
      rw [List.length_replicate]; exact byte.toNat_lt
    generalize src.foldl (fun count byte => bump count byte.toNat) (List.replicate (255 + 1) 0) = counted at htally
    have hzero : ∀ s, tally counted s = 0 := by
      intro s
      rw [htally s (by rw [tally_replicate]; decide), tally_replicate]
      unfold wrapAdd
      rw [Nat.zero_add, h s]
    obtain ⟨-, -, hor⟩ := foldl_max_spec (counted.take (trimSymbol counted 255 + 1)) 0
    unfold largestUpTo
    rcases hor with h | hmem
    · exact h
    · obtain ⟨s, hs, heq⟩ := List.getElem_of_mem (List.mem_of_mem_take hmem)
      rw [← heq, ← hzero s]
      exact (List.getD_eq_getElem counted 0 hs).symm
  · obtain ⟨-, htally⟩ := countLanes_spec src
    unfold countParallelWksp
    rw [if_neg (by rwa [List.isEmpty_iff])]
    dsimp only
    rw [lastSymbol_eq_none 255 fun s hs => by rw [htally s (by omega), h s]]
    rfl

/-- 2^32 zeros are counted as none. -/
theorem histograms_wrap : occurrences (List.replicate (2 ^ 32) 0) 0 = 2 ^ 32 ∧
    (countSimple (List.replicate 256 0) 255 (List.replicate (2 ^ 32) 0)).largest = 0 ∧
    countParallelWksp (List.replicate 256 0) 255 (List.replicate (2 ^ 32) 0) .trustInput = none := by
  have hzeros : ∀ n, occurrences (List.replicate n 0) 0 = n := by
    intro n
    unfold occurrences
    rw [List.countP_replicate]
    rfl
  have hothers : ∀ n symbol, occurrences (List.replicate n 0) symbol = if symbol = 0 then n else 0 := by
    intro n symbol
    unfold occurrences
    rw [List.countP_replicate]
    cases symbol <;> rfl
  refine ⟨hzeros _, counts_wrapped ?_ ?_ .trustInput⟩
  · intro h
    have hlen := congrArg List.length h
    rw [List.length_replicate, List.length_nil] at hlen
    exact absurd hlen (by decide)
  · intro symbol
    rw [hothers]
    split
    · exact Nat.mod_self _
    · rfl

end Zstandard
