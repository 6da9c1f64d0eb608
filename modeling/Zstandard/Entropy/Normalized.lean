/-
What the normalized-count header gives every table builder: counts of at least -1 whose slots fill
the table exactly.

One count of `read_ncount` keeps the threshold the power of two at or below what remains, which is
what bounds the count it reads from both sides.
-/
import Zstandard.Entropy.Fse
import Mathlib.Data.List.GetD

namespace Zstandard

namespace Fse

/-- The slots of a table that a distribution takes: a count of -1 takes one. -/
def slotTotal (counts : List Int) : Nat := (counts.map Int.natAbs).sum

/-- A distribution that a table of `2 ^ tableLog` slots can be built from. -/
structure Normalized (counts : List Int) (maxSymbolValue tableLog : Nat) : Prop where
  alphabet : maxSymbolValue < counts.length
  atLeast : ∀ c ∈ counts, -1 ≤ c
  total : slotTotal (counts.take (maxSymbolValue + 1)) = 2 ^ tableLog

theorem slotTotal_append (a b : List Int) : slotTotal (a ++ b) = slotTotal a + slotTotal b := by
  simp [slotTotal]

theorem slotTotal_zero {counts : List Int} (h : ∀ c ∈ counts, c = 0) : slotTotal counts = 0 := by
  unfold slotTotal
  rw [List.sum_eq_zero_iff]
  intro x hx
  obtain ⟨c, hc, rfl⟩ := List.mem_map.mp hx
  rw [h c hc]
  rfl

theorem slotTotal_set {counts : List Int} {i : Nat} {c : Int} (hi : i < counts.length)
    (h0 : counts.getD i 0 = 0) : slotTotal (counts.set i c) = slotTotal counts + c.natAbs := by
  have hsplit := List.take_append_drop i counts
  rw [List.drop_eq_getElem_cons hi] at hsplit
  have hz : counts[i] = 0 := by simpa [List.getD, List.getElem?_eq_getElem hi] using h0
  rw [List.set_eq_take_append_cons_drop, if_pos hi]
  conv_rhs => rw [← hsplit]
  simp only [slotTotal, List.map_append, List.map_cons, List.sum_append, List.sum_cons, hz]
  simp only [Int.natAbs_zero]
  omega

/-! ## One count -/

/-- The invariant of the loop of `read_ncount`, for a table of `2 ^ tableLog` slots. -/
structure NcountReader.Ok (tableLog : Nat) (r : NcountReader) : Prop where
  bounds : ∃ k ≤ 31, r.threshold = 2 ^ k ∧ (2 : Int) ^ k ≤ r.remaining ∧ r.remaining < 2 ^ (k + 1)
  atLeast : ∀ c ∈ r.normalizedCounter, -1 ≤ c
  total : (slotTotal r.normalizedCounter : Int) + r.remaining = 2 ^ tableLog + 1
  absent : ∀ i, r.charnum ≤ i → r.normalizedCounter.getD i 0 = 0

theorem lowerThreshold_remaining : ∀ (fuel : Nat) (r : NcountReader),
    (lowerThreshold fuel r).remaining = r.remaining
  | 0, _ => rfl
  | fuel + 1, r => by
    unfold lowerThreshold
    split
    · rw [lowerThreshold_remaining fuel]
    · rfl

theorem lowerThreshold_normalizedCounter : ∀ (fuel : Nat) (r : NcountReader),
    (lowerThreshold fuel r).normalizedCounter = r.normalizedCounter
  | 0, _ => rfl
  | fuel + 1, r => by
    unfold lowerThreshold
    split
    · rw [lowerThreshold_normalizedCounter fuel]
    · rfl

/-- Halving reaches the power of two at or below what remains. -/
theorem lowerThreshold_bounds : ∀ (fuel k : Nat) {r : NcountReader}, k < fuel → r.threshold = 2 ^ k →
    1 ≤ r.remaining → r.remaining < 2 ^ (k + 1) →
    ∃ j ≤ k, (lowerThreshold fuel r).threshold = 2 ^ j ∧ (2 : Int) ^ j ≤ r.remaining ∧ r.remaining < 2 ^ (j + 1)
  | 0, _, _, hk, _, _, _ => absurd hk (Nat.not_lt_zero _)
  | fuel + 1, k, r, hk, ht, h1, h2 => by
    unfold lowerThreshold
    split
    · rename_i hlow
      rw [ht] at hlow
      push_cast at hlow
      cases k with
      | zero => simp only [pow_zero] at hlow; omega
      | succ k =>
        have hdiv : r.threshold / 2 = 2 ^ k := by rw [ht, pow_succ]; exact Nat.mul_div_cancel _ (by norm_num)
        obtain ⟨j, hj, hrest⟩ := lowerThreshold_bounds fuel k
          (r := { r with nbBits := r.nbBits - 1, threshold := r.threshold / 2 }) (by omega) hdiv h1 hlow
        exact ⟨j, by omega, hrest⟩
    · rename_i hlow
      rw [ht] at hlow
      push_cast at hlow
      exact ⟨k, le_refl _, ht, by omega, h2⟩

/-- A count takes at least -1 and leaves at least one. -/
theorem readCount_bounds {r : NcountReader} {k : Nat} (ht : r.threshold = 2 ^ k) (hlow : (2 : Int) ^ k ≤ r.remaining)
    (h1 : 1 < r.remaining) :
    -1 ≤ (readCount r).1 - 1 ∧ 1 ≤ r.remaining - |(readCount r).1 - 1| := by
  have hpos : (0 : Int) < 2 ^ k := by positivity
  have hmod : r.bitStream % (2 * r.threshold) < 2 * r.threshold := Nat.mod_lt _ (by rw [ht]; positivity)
  have hsame : r.bitStream % r.threshold = r.bitStream % (2 * r.threshold) % r.threshold :=
    (Nat.mod_mod_of_dvd _ (Dvd.intro_left 2 rfl)).symm
  have hlt : r.bitStream % r.threshold < r.threshold := Nat.mod_lt _ (by rw [ht]; positivity)
  have hval : 0 ≤ (readCount r).1 ∧ (readCount r).1 ≤ r.remaining := by
    unfold readCount
    rw [ht] at hmod hlt ⊢
    simp only
    split
    · rename_i hc
      have h0 := Int.emod_nonneg (r.bitStream : Int) (ne_of_gt hpos)
      have hlt := Int.emod_lt_of_pos (r.bitStream : Int) hpos
      push_cast at hc ⊢
      omega
    · rename_i hc
      have hmod' : ((r.bitStream % (2 * 2 ^ k) : Nat) : Int) < 2 * 2 ^ k := by exact_mod_cast hmod
      split
      · rename_i hbig
        push_cast at hbig hmod' ⊢
        omega
      · rename_i hbig
        have h0 := Int.natCast_nonneg (r.bitStream % (2 * 2 ^ k))
        push_cast at hbig hmod' h0 ⊢
        omega
  obtain ⟨h0, hle⟩ := hval
  constructor
  · omega
  · rw [le_sub_iff_add_le, add_comm, ← le_sub_iff_add_le, abs_le]
    omega

/-- The reader between the count and the lowering of the threshold. The reload that follows touches
neither the counters nor what remains. -/
theorem readSymbolCount_fields (src : Bytes) (r : NcountReader) :
    ∃ r' : NcountReader, r'.threshold = r.threshold ∧ r'.remaining = r.remaining - |(readCount r).1 - 1| ∧
      r'.normalizedCounter = r.normalizedCounter.set r.charnum ((readCount r).1 - 1) ∧
      r'.charnum = r.charnum + 1 ∧
      (readSymbolCount src r).threshold = (lowerThreshold 32 r').threshold ∧
      (readSymbolCount src r).remaining = (lowerThreshold 32 r').remaining ∧
      (readSymbolCount src r).normalizedCounter = (lowerThreshold 32 r').normalizedCounter ∧
      (readSymbolCount src r).charnum = (lowerThreshold 32 r').charnum := by
  refine ⟨{ r with
    bitCount := r.bitCount + (readCount r).2
    remaining := r.remaining - |(readCount r).1 - 1|
    normalizedCounter := r.normalizedCounter.set r.charnum ((readCount r).1 - 1)
    charnum := r.charnum + 1
    previous0 := (readCount r).1 - 1 = 0 }, rfl, rfl, rfl, rfl, ?_⟩
  unfold readSymbolCount
  simp only
  split <;> exact ⟨rfl, rfl, rfl, rfl⟩

theorem readSymbolCount_ok (src : Bytes) {tableLog : Nat} {r : NcountReader} (hr : r.Ok tableLog)
    (h1 : 1 < r.remaining) (hc : r.charnum < r.normalizedCounter.length) :
    (readSymbolCount src r).Ok tableLog := by
  obtain ⟨k, hk, ht, hlow, hhigh⟩ := hr.bounds
  obtain ⟨hcount, hleft⟩ := readCount_bounds ht hlow h1
  obtain ⟨r', ht', hrem', hcounter', hchar', e1, e2, e3, e4⟩ := readSymbolCount_fields src r
  rw [lowerThreshold_remaining] at e2
  rw [lowerThreshold_normalizedCounter] at e3
  rw [lowerThreshold_charnum] at e4
  have habs : (0 : Int) ≤ |(readCount r).1 - 1| := abs_nonneg _
  refine ⟨?_, ?_, ?_, ?_⟩
  · obtain ⟨j, hj, h⟩ := lowerThreshold_bounds 32 k (r := r') (by omega) (ht'.trans ht) (by omega) (by omega)
    rw [e1, e2]
    exact ⟨j, by omega, h⟩
  · rw [e3, hcounter']
    intro c hm
    rcases List.mem_or_eq_of_mem_set hm with hm | rfl
    · exact hr.atLeast c hm
    · exact hcount
  · rw [e2, e3, hcounter', slotTotal_set hc (hr.absent _ (le_refl _)), hrem']
    have := hr.total
    push_cast
    omega
  · rw [e3, e4, hcounter', hchar']
    intro i hi
    have h0 := hr.absent i (by omega)
    rw [List.getD_eq_getElem?_getD, List.getElem?_set_ne (by omega), ← List.getD_eq_getElem?_getD]
    exact h0

/-! ## The header -/

theorem skipLongZeroRuns_fields (src : Bytes) : ∀ (fuel n0 : Nat) (r : NcountReader),
    ∃ ip bitStream bitCount, (skipLongZeroRuns src fuel n0 r).2 = { r with ip, bitStream, bitCount }
  | 0, _, r => ⟨r.ip, r.bitStream, r.bitCount, rfl⟩
  | fuel + 1, n0, r => by
    unfold skipLongZeroRuns
    split
    · split
      · obtain ⟨ip, bitStream, bitCount, h⟩ := skipLongZeroRuns_fields src fuel (n0 + 24)
          { r with ip := r.ip + 2, bitStream := readU32At src (r.ip + 2) >>> (r.bitCount % 32) }
        exact ⟨ip, bitStream, bitCount, h⟩
      · obtain ⟨ip, bitStream, bitCount, h⟩ := skipLongZeroRuns_fields src fuel (n0 + 24)
          { r with bitStream := r.bitStream >>> 16, bitCount := r.bitCount + 16 }
        exact ⟨ip, bitStream, bitCount, h⟩
    · exact ⟨r.ip, r.bitStream, r.bitCount, rfl⟩

theorem skipShortZeroRuns_fields : ∀ (fuel n0 : Nat) (r : NcountReader),
    ∃ bitStream bitCount, (skipShortZeroRuns fuel n0 r).2 = { r with bitStream, bitCount }
  | 0, _, r => ⟨r.bitStream, r.bitCount, rfl⟩
  | fuel + 1, n0, r => by
    unfold skipShortZeroRuns
    split
    · obtain ⟨bitStream, bitCount, h⟩ := skipShortZeroRuns_fields fuel (n0 + 3)
        { r with bitStream := r.bitStream >>> 2, bitCount := r.bitCount + 2 }
      exact ⟨bitStream, bitCount, h⟩
    · exact ⟨r.bitStream, r.bitCount, rfl⟩

/-- A run of absent symbols moves the reader and the symbol, and nothing else. -/
theorem readZeroRun_fields {src : Bytes} {maxSymbolIndex : Nat} {r r' : NcountReader}
    (h : readZeroRun src maxSymbolIndex r = .ok r') :
    r'.threshold = r.threshold ∧ r'.remaining = r.remaining ∧ r'.normalizedCounter = r.normalizedCounter ∧
      r.charnum ≤ r'.charnum := by
  unfold readZeroRun at h
  obtain ⟨ip, bitStream, bitCount, hl⟩ := skipLongZeroRuns_fields src (src.length + 4) r.charnum r
  simp only [hl] at h
  obtain ⟨bitStream', bitCount', hs⟩ := skipShortZeroRuns_fields 32
    (skipLongZeroRuns src (src.length + 4) r.charnum r).1 { r with ip, bitStream, bitCount }
  simp only [hs] at h
  split at h
  · cases h
  · split at h <;> cases h <;> exact ⟨rfl, rfl, rfl, le_max_left _ _⟩

theorem readZeroRun_ok {src : Bytes} {maxSymbolIndex tableLog : Nat} {r r' : NcountReader}
    (hr : r.Ok tableLog) (h : readZeroRun src maxSymbolIndex r = .ok r') : r'.Ok tableLog := by
  obtain ⟨e1, e2, e3, e4⟩ := readZeroRun_fields h
  refine ⟨?_, ?_, ?_, ?_⟩
  · rw [e1, e2]; exact hr.bounds
  · rw [e3]; exact hr.atLeast
  · rw [e2, e3]; exact hr.total
  · rw [e3]; exact fun i hi => hr.absent i (by omega)

theorem readSymbolCount_length (src : Bytes) (r : NcountReader) :
    (readSymbolCount src r).normalizedCounter.length = r.normalizedCounter.length := by
  unfold readSymbolCount
  simp only
  split <;> simp only [lowerThreshold_normalizedCounter, List.length_set]

theorem readCounts_ok {src : Bytes} {maxSymbolIndex tableLog : Nat} :
    ∀ (fuel : Nat) {r r' : NcountReader}, r.Ok tableLog → maxSymbolIndex < r.normalizedCounter.length →
      readCounts src maxSymbolIndex fuel r = .ok r' →
      r'.Ok tableLog ∧ r'.normalizedCounter.length = r.normalizedCounter.length
  | 0, r, r', hr, _, h => by cases h; exact ⟨hr, rfl⟩
  | fuel + 1, r, r', hr, hlen, h => by
    unfold readCounts at h
    split at h
    · rename_i hc
      obtain ⟨r1, h1, h2⟩ := bind_ok h
      have hone : r1.Ok tableLog ∧ r1.normalizedCounter = r.normalizedCounter ∧ r1.remaining = r.remaining ∧
          r1.charnum ≤ maxSymbolIndex := by
        split at h1
        · obtain ⟨-, e2, e3, -⟩ := readZeroRun_fields h1
          exact ⟨readZeroRun_ok hr h1, e3, e2, readZeroRun_charnum hc.2 h1⟩
        · cases h1
          exact ⟨hr, rfl, rfl, hc.2⟩
      obtain ⟨hok, hcounter, hrem, hchar⟩ := hone
      have hstep := readSymbolCount_ok src hok (by omega) (by rw [hcounter]; omega)
      have hl : (readSymbolCount src r1).normalizedCounter.length = r.normalizedCounter.length := by
        rw [readSymbolCount_length, hcounter]
      obtain ⟨hok', hlen'⟩ := readCounts_ok fuel hstep (by omega) h2
      exact ⟨hok', hlen'.trans hl⟩
    · cases h; exact ⟨hr, rfl⟩

/-- The reader that `read_ncount` starts with. -/
theorem NcountReader.ok_start {tableLog counterLen : Nat} {r : NcountReader} (hlog : 1 ≤ tableLog ∧ tableLog ≤ 31)
    (ht : r.threshold = 2 ^ tableLog) (hrem : r.remaining = 2 ^ tableLog + 1)
    (hcounter : r.normalizedCounter = List.replicate counterLen 0) : r.Ok tableLog := by
  have hpow : (2 : Int) ^ 1 ≤ 2 ^ tableLog := pow_le_pow_right₀ (by norm_num) hlog.1
  refine ⟨⟨tableLog, hlog.2, ht, ?_, ?_⟩, ?_, ?_, ?_⟩
  · omega
  · rw [hrem, pow_succ]
    omega
  · intro c hc
    rw [hcounter] at hc
    rw [List.eq_of_mem_replicate hc]
    norm_num
  · rw [hcounter, hrem, slotTotal_zero fun c hc => List.eq_of_mem_replicate hc]
    simp
  · intro i _
    rw [hcounter, List.getD_eq_getElem?_getD, List.getElem?_replicate]
    split <;> rfl

theorem readNcountPadded_normalized {src : Bytes} {counterLen maxSymbolIndex maxTableLog : Nat} {n : Ncount}
    (hlen : maxSymbolIndex < counterLen) (hlog : maxTableLog ≤ 31)
    (h : readNcountPadded src counterLen maxSymbolIndex maxTableLog = .ok n) :
    Normalized n.normalizedCounter n.maxSymbolValue n.tableLog ∧ minTablelog ≤ n.tableLog ∧
      n.tableLog ≤ maxTableLog ∧ n.normalizedCounter.length = counterLen ∧
      ∀ i, n.maxSymbolValue < i → n.normalizedCounter.getD i 0 = 0 := by
  unfold readNcountPadded at h
  simp only at h
  split at h
  · cases h
  rename_i htl
  generalize hlogEq : readU32At src 0 % 16 + minTablelog = tableLog at h htl
  obtain ⟨r, hr, h⟩ := bind_ok h
  split at h
  · cases h
  rename_i hend
  rw [not_or, not_not] at hend
  cases h
  simp only
  obtain ⟨hok, hrlen⟩ := readCounts_ok _ (NcountReader.ok_start ⟨by unfold minTablelog at hlogEq; omega,
      le_trans (not_lt.mp htl) hlog⟩ rfl (by push_cast; rfl) rfl)
    (by simpa using hlen) hr
  rw [List.length_replicate] at hrlen
  have hchar := readCounts_charnum _ (Nat.zero_le _) hr
  have htotal : slotTotal r.normalizedCounter = 2 ^ tableLog := by
    have := hok.total
    rw [hend.1] at this
    exact_mod_cast add_right_cancel this
  have htail : ∀ c ∈ r.normalizedCounter.drop r.charnum, c = 0 := by
    intro c hc
    obtain ⟨i, hi, rfl⟩ := List.getElem_of_mem hc
    rw [List.getElem_drop, ← List.getD_eq_getElem _ 0]
    exact hok.absent _ (by omega)
  have htake : slotTotal (r.normalizedCounter.take r.charnum) = 2 ^ tableLog := by
    rw [← htotal]
    conv_rhs => rw [← List.take_append_drop r.charnum r.normalizedCounter, slotTotal_append, slotTotal_zero htail]
    omega
  have hpos : 1 ≤ r.charnum := by
    by_contra h0
    have h0 : r.charnum = 0 := by omega
    rw [h0, List.take_zero] at htake
    have : 0 < 2 ^ tableLog := by positivity
    simp [slotTotal] at htake
    omega
  refine ⟨⟨by omega, hok.atLeast, ?_⟩, by omega, by omega, hrlen, fun i hi => hok.absent i (by omega)⟩
  rw [Nat.sub_add_cancel hpos]
  exact htake

/-- A header that is read describes a distribution that fills its table. -/
theorem readNcount_normalized {src : Bytes} {counterLen maxSymbolValue maxTableLog : Nat} {n : Ncount}
    (h : readNcount src counterLen maxSymbolValue maxTableLog = .ok n) :
    Normalized n.normalizedCounter n.maxSymbolValue n.tableLog ∧ minTablelog ≤ n.tableLog ∧
      n.tableLog ≤ maxTableLog ∧ n.normalizedCounter.length = counterLen ∧
      ∀ i, n.maxSymbolValue < i → n.normalizedCounter.getD i 0 = 0 := by
  unfold readNcount at h
  split at h
  · cases h
  rename_i hsym
  split at h
  · cases h
  rename_i hlog
  unfold tablelogMax at hlog
  split at h
  · obtain ⟨n', h1, h2⟩ := bind_ok h
    split at h2
    · cases h2
    · cases h2
      exact readNcountPadded_normalized (by omega) (by omega) h1
  · exact readNcountPadded_normalized (by omega) (by omega) h

end Fse

end Zstandard
