/-
Reading a normalized-count header, with every place where the source could fault spelled out.

The checked reader stops at an index out of range, a shift by the width or more, a difference below zero, a
count too wide for its counter and a loop that runs out of its bound. On no input does it stop: the window
of 32 bits is always inside the source, and near its end the reader moves the window to the last four bytes
and lets only the bit position run on. So the reader of the decoder, which has no such stops, computes what
the source computes, and what it accepts is a distribution that every table builder takes.
-/
import Zstandard.Entropy.Tables

namespace Zstandard

namespace Fse

/-! ## The checked reader -/

/-- `u32::from_le_bytes(src[ip..ip + 4]) >> n`; no value is a fault. -/
def loadChecked (src : Bytes) (ip n : Nat) : Option Nat :=
  if ip + 4 ≤ src.length ∧ n < 32 then some (readU32At src ip >>> n) else none

def skipLongZeroRunsChecked (src : Bytes) : Nat → Nat → NcountReader → Option (Nat × NcountReader)
  | 0, _, _ => none
  | fuel + 1, n0, r =>
    if r.bitStream % 2 ^ 16 = 0xFFFF then
      if r.ip + 6 ≤ src.length then do
        let bitStream ← loadChecked src (r.ip + 2) r.bitCount
        skipLongZeroRunsChecked src fuel (n0 + 24) { r with ip := r.ip + 2, bitStream }
      else
        skipLongZeroRunsChecked src fuel (n0 + 24)
          { r with bitStream := r.bitStream >>> 16, bitCount := r.bitCount + 16 }
    else some (n0, r)

def skipShortZeroRunsChecked : Nat → Nat → NcountReader → Option (Nat × NcountReader)
  | 0, _, _ => none
  | fuel + 1, n0, r =>
    if r.bitStream % 4 = 3 then
      skipShortZeroRunsChecked fuel (n0 + 3) { r with bitStream := r.bitStream >>> 2, bitCount := r.bitCount + 2 }
    else some (n0, r)

def readZeroRunChecked (src : Bytes) (maxSymbolIndex : Nat) (r : NcountReader) : Option (Result NcountReader) := do
  let (n0, r) ← skipLongZeroRunsChecked src (src.length + 4) r.charnum r
  let (n0, r) ← skipShortZeroRunsChecked 32 n0 r
  let n0 := n0 + r.bitStream % 4
  let r := { r with bitCount := r.bitCount + 2 }
  if n0 > maxSymbolIndex then some (.error .maxSymbolValueTooSmall) else
  -- the counters up to `n0` are cleared one by one
  if n0 > r.normalizedCounter.length then none else
  let r := { r with charnum := max r.charnum n0 }
  if canReloadU32 src.length r.ip r.bitCount then do
    let ip := r.ip + r.bitCount / 8
    let bitStream ← loadChecked src ip (r.bitCount % 8)
    some (.ok { r with ip, bitCount := r.bitCount % 8, bitStream })
  else some (.ok { r with bitStream := r.bitStream >>> 2 })

/-- The masks and the widths of a count are taken of positive numbers. -/
def readCountChecked (r : NcountReader) : Option (Int × Nat) :=
  if 1 ≤ r.threshold ∧ r.remaining ≤ 2 * r.threshold - 1 ∧ 1 ≤ r.nbBits then some (readCount r) else none

def lowerThresholdChecked : Nat → NcountReader → Option NcountReader
  | 0, r => if r.remaining < r.threshold then none else some r
  | fuel + 1, r =>
    if r.remaining < r.threshold then
      if r.nbBits = 0 then none
      else lowerThresholdChecked fuel { r with nbBits := r.nbBits - 1, threshold := r.threshold / 2 }
    else some r

/-- The reload at the end of the loop, or the move to the last four bytes. -/
def reloadChecked (src : Bytes) (r : NcountReader) : Option NcountReader :=
  if canReloadU32 src.length r.ip r.bitCount then
    some { r with ip := r.ip + r.bitCount / 8, bitCount := r.bitCount % 8 }
  else if 4 ≤ src.length ∧ 8 * (src.length - 4 - r.ip) ≤ r.bitCount then
    some { r with bitCount := r.bitCount - 8 * (src.length - 4 - r.ip), ip := src.length - 4 }
  else none

def readSymbolCountChecked (src : Bytes) (r : NcountReader) : Option NcountReader := do
  let (count, width) ← readCountChecked r
  let count := count - 1
  if r.charnum ≥ r.normalizedCounter.length ∨ count.natAbs ≥ 2 ^ 15 then none else
  let r ← lowerThresholdChecked 32 { r with
    bitCount := r.bitCount + width
    remaining := r.remaining - |count|
    normalizedCounter := r.normalizedCounter.set r.charnum count
    charnum := r.charnum + 1
    previous0 := count = 0 }
  let r ← reloadChecked src r
  let bitStream ← loadChecked src r.ip (r.bitCount % 32)
  some { r with bitStream }

def readCountsChecked (src : Bytes) (maxSymbolIndex : Nat) : Nat → NcountReader → Option (Result NcountReader)
  | 0, r => if r.remaining > 1 ∧ r.charnum ≤ maxSymbolIndex then none else some (.ok r)
  | fuel + 1, r =>
    if r.remaining > 1 ∧ r.charnum ≤ maxSymbolIndex then do
      let skipped ← (if r.previous0 then readZeroRunChecked src maxSymbolIndex r else some (.ok r))
      match skipped with
      | .error e => some (.error e)
      | .ok r => do
        let r ← readSymbolCountChecked src r
        readCountsChecked src maxSymbolIndex fuel r
    else some (.ok r)

def readNcountPaddedChecked (src : Bytes) (counterLen maxSymbolIndex maxTableLog : Nat) :
    Option (Result Ncount) := do
  let bitStream ← loadChecked src 0 0
  let tableLog := bitStream % 16 + minTablelog
  if tableLog > maxTableLog then some (.error .tableLogTooLarge) else
  let counts ← readCountsChecked src maxSymbolIndex (maxSymbolIndex + 1) {
    ip := 0, bitStream := bitStream >>> 4, bitCount := 4, remaining := 2 ^ tableLog + 1
    threshold := 2 ^ tableLog, nbBits := tableLog + 1, charnum := 0, previous0 := false
    normalizedCounter := List.replicate counterLen 0 }
  match counts with
  | .error e => some (.error e)
  | .ok r =>
    if r.remaining ≠ 1 ∨ r.bitCount > 32 then some (.error (.corruption "invalid FSE ncount")) else
    if r.charnum = 0 then none else
    some (.ok { normalizedCounter := r.normalizedCounter, maxSymbolValue := r.charnum - 1, tableLog
                size := r.ip + (r.bitCount + 7) / 8 })

/-- `read_ncount` with its faults: no value means that an index, a shift, a difference or a loop went out of
its range. -/
def readNcountChecked (src : Bytes) (counterLen maxSymbolValue maxTableLog : Nat) : Option (Result Ncount) :=
  if maxSymbolValue > symbolvalueMax ∨ maxSymbolValue ≥ counterLen then some (.error .maxSymbolValueTooLarge)
  else if maxTableLog > tablelogMax then some (.error .tableLogTooLarge)
  else if src.length < 4 then do
    let padded ← readNcountPaddedChecked (src ++ List.replicate (4 - src.length) 0) counterLen maxSymbolValue
      maxTableLog
    match padded with
    | .error e => some (.error e)
    | .ok n => if n.size > src.length then some (.error (.corruption "truncated FSE ncount")) else some (.ok n)
  else readNcountPaddedChecked src counterLen maxSymbolValue maxTableLog

/-! ## Inside the source -/

theorem readU32At_lt (src : Bytes) (ip : Nat) : readU32At src ip < 2 ^ 32 := by
  unfold readU32At readU32Le
  refine lt_of_lt_of_le (readLe_lt _) ?_
  rw [show (2 : Nat) ^ 32 = 256 ^ 4 by norm_num]
  exact Nat.pow_le_pow_right (by norm_num) (List.length_take_le _ _)

theorem load_lt (src : Bytes) (ip n : Nat) : readU32At src ip >>> n < 2 ^ 32 :=
  lt_of_le_of_lt (Nat.shiftRight_le _ _) (readU32At_lt src ip)

theorem loadChecked_eq {src : Bytes} {ip n : Nat} (h : ip + 4 ≤ src.length) (hn : n < 32) :
    loadChecked src ip n = some (readU32At src ip >>> n) := by
  unfold loadChecked
  rw [if_pos ⟨h, hn⟩]

/-- The window of the reader is 32 bits inside the source. -/
structure NcountReader.Inside (src : Bytes) (r : NcountReader) : Prop where
  room : r.ip + 4 ≤ src.length
  window : r.bitStream < 2 ^ 32

/-- How often the long runs can go on: the bytes left, and twice more by shifting the window out. -/
def NcountReader.longRuns (src : Bytes) (r : NcountReader) : Nat :=
  (src.length - r.ip) + if 2 ^ 16 ≤ r.bitStream then 2 else if r.bitStream = 0 then 0 else 1

theorem skipLongZeroRunsChecked_eq {src : Bytes} : ∀ (fuel n0 : Nat) {r : NcountReader}, r.Inside src →
    (r.bitCount ≤ 7 ∨ src.length < r.ip + 6) → r.longRuns src < fuel →
      skipLongZeroRunsChecked src fuel n0 r = some (skipLongZeroRuns src fuel n0 r) ∧
        (skipLongZeroRuns src fuel n0 r).2.Inside src
  | 0, _, _, _, _, hfuel => absurd hfuel (Nat.not_lt_zero _)
  | fuel + 1, n0, r, hr, hfresh, hfuel => by
    obtain ⟨hroom, hwindow⟩ := hr
    unfold skipLongZeroRunsChecked skipLongZeroRuns
    by_cases hones : r.bitStream % 2 ^ 16 = 0xFFFF
    · rw [if_pos hones, if_pos hones]
      unfold NcountReader.longRuns at hfuel
      by_cases hmore : r.ip + 6 ≤ src.length
      · rw [if_pos hmore, if_pos hmore, loadChecked_eq (by omega) (by omega), Nat.mod_eq_of_lt (by omega)]
        refine skipLongZeroRunsChecked_eq fuel (n0 + 24) ⟨?_, load_lt _ _ _⟩ ?_ ?_
        · simp only
          omega
        · simp only
          omega
        · unfold NcountReader.longRuns
          simp only
          split_ifs at hfuel ⊢ <;> omega
      · rw [if_neg hmore, if_neg hmore]
        have hshift : r.bitStream >>> 16 = r.bitStream / 2 ^ 16 := Nat.shiftRight_eq_div_pow _ _
        refine skipLongZeroRunsChecked_eq fuel (n0 + 24) ⟨hroom, ?_⟩ (.inr (by simpa using hmore)) ?_
        · simp only
          omega
        · unfold NcountReader.longRuns
          simp only
          split_ifs at hfuel ⊢ <;> omega
    · rw [if_neg hones, if_neg hones]
      exact ⟨rfl, hroom, hwindow⟩

theorem skipShortZeroRunsChecked_eq {src : Bytes} : ∀ (fuel n0 : Nat) {r : NcountReader}, r.Inside src →
    r.bitStream < 4 ^ fuel →
      skipShortZeroRunsChecked (fuel + 1) n0 r = some (skipShortZeroRuns (fuel + 1) n0 r) ∧
        (skipShortZeroRuns (fuel + 1) n0 r).2.Inside src
  | 0, n0, r, hr, hlt => by
    unfold skipShortZeroRunsChecked skipShortZeroRuns
    rw [if_neg (by omega), if_neg (by omega)]
    exact ⟨rfl, hr⟩
  | fuel + 1, n0, r, hr, hlt => by
    unfold skipShortZeroRunsChecked skipShortZeroRuns
    by_cases hthree : r.bitStream % 4 = 3
    · rw [if_pos hthree, if_pos hthree]
      have hshift : r.bitStream >>> 2 = r.bitStream / 4 := Nat.shiftRight_eq_div_pow _ _
      have hw := hr.window
      refine skipShortZeroRunsChecked_eq fuel (n0 + 3) ⟨hr.room, ?_⟩ ?_
      · simp only
        omega
      · rw [pow_succ] at hlt
        simp only
        omega
    · rw [if_neg hthree, if_neg hthree]
      exact ⟨rfl, hr⟩

theorem canReloadU32_iff {srcLen ip bitCount : Nat} :
    canReloadU32 srcLen ip bitCount = true ↔ ip + bitCount / 8 + 4 ≤ srcLen := by
  unfold canReloadU32
  exact decide_eq_true_iff

theorem readZeroRunChecked_eq {src : Bytes} {maxSymbolIndex : Nat} {r : NcountReader} (hr : r.Inside src)
    (hfresh : r.bitCount ≤ 7 ∨ r.ip + 4 = src.length) (hlen : maxSymbolIndex < r.normalizedCounter.length) :
    readZeroRunChecked src maxSymbolIndex r = some (readZeroRun src maxSymbolIndex r) ∧
      ∀ r', readZeroRun src maxSymbolIndex r = .ok r' → r'.Inside src ∧ r'.nbBits = r.nbBits := by
  have hruns : r.longRuns src < src.length + 4 := by
    unfold NcountReader.longRuns
    split_ifs <;> omega
  obtain ⟨hlong, hinside⟩ := skipLongZeroRunsChecked_eq _ r.charnum hr (by omega) hruns
  obtain ⟨ip, bitStream, bitCount, hfields⟩ := skipLongZeroRuns_fields src (src.length + 4) r.charnum r
  unfold readZeroRunChecked readZeroRun
  rw [hlong]
  generalize skipLongZeroRuns src (src.length + 4) r.charnum r = long at *
  obtain ⟨n0, r1⟩ := long
  simp only at hfields hinside
  obtain ⟨hshort, hinside⟩ := skipShortZeroRunsChecked_eq 31 n0 hinside
    (lt_of_lt_of_le hinside.window (by norm_num))
  obtain ⟨bitStream', bitCount', hfields'⟩ := skipShortZeroRuns_fields 32 n0 r1
  simp only [Option.bind_eq_bind, Option.bind_some, hshort]
  generalize skipShortZeroRuns (31 + 1) n0 r1 = short at *
  obtain ⟨n0, r2⟩ := short
  simp only at hfields' hinside ⊢
  have hcounter : r2.normalizedCounter = r.normalizedCounter ∧ r2.nbBits = r.nbBits := by
    rw [hfields', hfields]
    exact ⟨rfl, rfl⟩
  by_cases hbig : n0 + r2.bitStream % 4 > maxSymbolIndex
  · rw [if_pos hbig, if_pos hbig]
    exact ⟨rfl, fun r' h => by cases h⟩
  · rw [if_neg hbig, if_neg hbig, hcounter.1, if_neg (by omega)]
    obtain ⟨hroom, hwindow⟩ := hinside
    by_cases hreload : canReloadU32 src.length r2.ip (r2.bitCount + 2) = true
    · have hin := canReloadU32_iff.1 hreload
      rw [if_pos hreload, if_pos hreload, loadChecked_eq (by omega) (by omega)]
      refine ⟨rfl, fun r' h => ?_⟩
      cases h
      exact ⟨⟨by simpa using hin, load_lt _ _ _⟩, hcounter.2⟩
    · rw [if_neg hreload, if_neg hreload]
      refine ⟨rfl, fun r' h => ?_⟩
      cases h
      exact ⟨⟨hroom, lt_of_le_of_lt (Nat.shiftRight_le _ _) hwindow⟩, hcounter.2⟩

/-! ## One count -/

/-- The reader where a count starts: the threshold and the width of the counts go together. -/
structure NcountReader.Ready (src : Bytes) (tableLog maxSymbolIndex : Nat) (r : NcountReader) : Prop where
  inside : r.Inside src
  ok : r.Ok tableLog
  width : ∃ k, r.threshold = 2 ^ k ∧ r.nbBits = k + 1
  alphabet : maxSymbolIndex < r.normalizedCounter.length

theorem lowerThresholdChecked_eq : ∀ (fuel k : Nat) {r : NcountReader}, k < fuel → r.threshold = 2 ^ k →
    r.nbBits = k + 1 → 1 ≤ r.remaining →
      lowerThresholdChecked fuel r = some (lowerThreshold fuel r) ∧
        (∃ j, (lowerThreshold fuel r).threshold = 2 ^ j ∧ (lowerThreshold fuel r).nbBits = j + 1) ∧
        (lowerThreshold fuel r).ip = r.ip ∧ (lowerThreshold fuel r).bitCount = r.bitCount
  | 0, _, _, hk, _, _, _ => absurd hk (Nat.not_lt_zero _)
  | fuel + 1, k, r, hk, ht, hw, h1 => by
    unfold lowerThresholdChecked lowerThreshold
    by_cases hlow : r.remaining < r.threshold
    · rw [if_pos hlow, if_pos hlow, if_neg (by omega)]
      cases k with
      | zero =>
        rw [ht] at hlow
        simp only [pow_zero, Nat.cast_one] at hlow
        omega
      | succ k =>
        have hdiv : r.threshold / 2 = 2 ^ k := by
          rw [ht, pow_succ]
          exact Nat.mul_div_cancel _ (by norm_num)
        exact lowerThresholdChecked_eq fuel k (by omega) hdiv (by simp only; omega) h1
    · rw [if_neg hlow, if_neg hlow]
      exact ⟨rfl, ⟨k, ht, hw⟩, rfl, rfl⟩

/-- The reload keeps the window inside: it is fresh after it, or at the last four bytes. -/
theorem reloadChecked_eq {src : Bytes} {r : NcountReader} (hroom : r.ip + 4 ≤ src.length) :
    ∃ ip bitCount, reloadChecked src r = some { r with ip, bitCount } ∧
      (if canReloadU32 src.length r.ip r.bitCount then
        ({ r with ip := r.ip + r.bitCount / 8, bitCount := r.bitCount % 8 } : NcountReader)
      else { r with bitCount := r.bitCount - 8 * (src.length - 4 - r.ip), ip := src.length - 4 }) =
        { r with ip, bitCount } ∧
      ip + 4 ≤ src.length ∧ (bitCount ≤ 7 ∨ ip + 4 = src.length) := by
  unfold reloadChecked
  by_cases hreload : canReloadU32 src.length r.ip r.bitCount = true
  · have hin := canReloadU32_iff.1 hreload
    rw [if_pos hreload, if_pos hreload]
    exact ⟨_, _, rfl, rfl, hin, .inl (by omega)⟩
  · have hout : ¬ r.ip + r.bitCount / 8 + 4 ≤ src.length := fun h => hreload (canReloadU32_iff.2 h)
    rw [if_neg hreload, if_neg hreload, if_pos (by omega)]
    exact ⟨_, _, rfl, rfl, by omega, .inr (by omega)⟩

theorem readSymbolCountChecked_eq {src : Bytes} {tableLog maxSymbolIndex : Nat} {r : NcountReader}
    (hr : r.Ready src tableLog maxSymbolIndex) (hlog : tableLog ≤ tablelogMax) (h1 : 1 < r.remaining)
    (hc : r.charnum ≤ maxSymbolIndex) :
    readSymbolCountChecked src r = some (readSymbolCount src r) ∧
      (readSymbolCount src r).Ready src tableLog maxSymbolIndex ∧
      ((readSymbolCount src r).bitCount ≤ 7 ∨ (readSymbolCount src r).ip + 4 = src.length) := by
  have halphabet := hr.alphabet
  have hnext := readSymbolCount_ok src hr.ok h1 (by omega)
  have hcounter := readSymbolCount_length src r
  obtain ⟨k, hk, ht, hlow, hhigh⟩ := hr.ok.bounds
  obtain ⟨k', ht', hw⟩ := hr.width
  obtain rfl : k' = k := Nat.pow_right_injective (le_refl 2) (ht'.symm.trans ht)
  obtain ⟨hcount, hleft⟩ := readCount_bounds ht hlow h1
  have hread : readCountChecked r = some (readCount r) := by
    unfold readCountChecked
    have : 0 < 2 ^ k' := by positivity
    rw [if_pos ⟨by omega, by rw [ht, Nat.cast_pow, Nat.cast_ofNat]; rw [pow_succ] at hhigh; omega, by omega⟩]
  have hsmall : ((readCount r).1 - 1).natAbs < 2 ^ 15 := by
    have htotal := hr.ok.total
    have hpow : (2 : Int) ^ tableLog ≤ 2 ^ 9 := pow_le_pow_right₀ (by norm_num) hlog
    have habs : |(readCount r).1 - 1| = (((readCount r).1 - 1).natAbs : Int) := Int.abs_eq_natAbs _
    omega
  obtain ⟨hlower, hwidth, hip, hbitCount⟩ := lowerThresholdChecked_eq 32 k' (r := { r with
    bitCount := r.bitCount + (readCount r).2
    remaining := r.remaining - |(readCount r).1 - 1|
    normalizedCounter := r.normalizedCounter.set r.charnum ((readCount r).1 - 1)
    charnum := r.charnum + 1
    previous0 := (readCount r).1 - 1 = 0 }) (by omega) ht' hw hleft
  unfold readSymbolCountChecked
  rw [hread]
  simp only [Option.bind_eq_bind, Option.bind_some]
  rw [if_neg (by omega), hlower]
  simp only [Option.bind_some]
  unfold readSymbolCount at hnext hcounter ⊢
  simp only at hnext hcounter ⊢
  generalize lowerThreshold 32 _ = r2 at *
  simp only at hip
  obtain ⟨ip, bitCount, hreload, hsame, hroom, hfresh⟩ := reloadChecked_eq
    (show r2.ip + 4 ≤ src.length by rw [hip]; exact hr.inside.room)
  rw [hsame] at hnext hcounter ⊢
  rw [hreload, Option.bind_some, loadChecked_eq hroom (Nat.mod_lt _ (by norm_num))]
  refine ⟨rfl, ⟨⟨hroom, load_lt _ _ _⟩, hnext, hwidth, ?_⟩, hfresh⟩
  rw [hcounter]
  exact halphabet

/-! ## The loop -/

theorem readCountsChecked_eq {src : Bytes} {tableLog maxSymbolIndex : Nat} (hlog : tableLog ≤ tablelogMax) :
    ∀ (fuel : Nat) {r : NcountReader}, r.Ready src tableLog maxSymbolIndex →
      (r.bitCount ≤ 7 ∨ r.ip + 4 = src.length) → maxSymbolIndex + 1 ≤ r.charnum + fuel →
        readCountsChecked src maxSymbolIndex fuel r = some (readCounts src maxSymbolIndex fuel r) ∧
          ∀ r', readCounts src maxSymbolIndex fuel r = .ok r' → r'.Inside src
  | 0, r, hr, _, hfuel => by
    unfold readCountsChecked readCounts
    rw [if_neg (by omega)]
    refine ⟨rfl, fun r' h => ?_⟩
    cases h
    exact hr.inside
  | fuel + 1, r, hr, hfresh, hfuel => by
    unfold readCountsChecked readCounts
    by_cases hgo : r.remaining > 1 ∧ r.charnum ≤ maxSymbolIndex
    · rw [if_pos hgo, if_pos hgo]
      obtain ⟨h1, hc⟩ := hgo
      -- one count, from a reader that is past the absent symbols
      have hcount : ∀ {r1 : NcountReader}, r1.Ready src tableLog maxSymbolIndex → r1.remaining = r.remaining →
          r.charnum ≤ r1.charnum → r1.charnum ≤ maxSymbolIndex →
          ((do
            let r ← readSymbolCountChecked src r1
            readCountsChecked src maxSymbolIndex fuel r) =
              some (readCounts src maxSymbolIndex fuel (readSymbolCount src r1))) ∧
            ∀ r', readCounts src maxSymbolIndex fuel (readSymbolCount src r1) = .ok r' → r'.Inside src := by
        intro r1 hr1 hrem hge hle
        obtain ⟨hchecked, hready, hsteady⟩ := readSymbolCountChecked_eq hr1 hlog (by omega) hle
        have hchar := readSymbolCount_charnum src r1
        obtain ⟨h2, h3⟩ := readCountsChecked_eq hlog fuel hready hsteady (by omega)
        rw [hchecked]
        exact ⟨h2, h3⟩
      by_cases hprev : r.previous0 = true
      · rw [if_pos hprev, if_pos hprev]
        obtain ⟨hzero, hnext⟩ := readZeroRunChecked_eq hr.inside hfresh hr.alphabet
        rw [hzero]
        cases hrun : readZeroRun src maxSymbolIndex r with
        | error e => exact ⟨rfl, fun r' h => by cases h⟩
        | ok r1 =>
          obtain ⟨hinside, hbits⟩ := hnext r1 hrun
          obtain ⟨e1, e2, e3, e4⟩ := readZeroRun_fields hrun
          refine hcount ⟨hinside, readZeroRun_ok hr.ok hrun, ?_, ?_⟩ e2 e4 (readZeroRun_charnum hc hrun)
          · rw [e1, hbits]
            exact hr.width
          · rw [e3]
            exact hr.alphabet
      · rw [if_neg hprev, if_neg hprev]
        exact hcount hr rfl (le_refl _) hc
    · rw [if_neg hgo, if_neg hgo]
      refine ⟨rfl, fun r' h => ?_⟩
      cases h
      exact hr.inside

/-- A distribution that fills its table has a symbol. -/
theorem NcountReader.Ok.charnum_ne_zero {tableLog : Nat} {r : NcountReader} (h : r.Ok tableLog)
    (hend : r.remaining = 1) : r.charnum ≠ 0 := by
  intro h0
  have hnone : ∀ c ∈ r.normalizedCounter, c = 0 := by
    intro c hc
    obtain ⟨i, hi, rfl⟩ := List.getElem_of_mem hc
    rw [← List.getD_eq_getElem _ 0]
    exact h.absent i (by omega)
  have htotal := h.total
  rw [slotTotal_zero hnone, hend] at htotal
  have : (0 : Int) < 2 ^ tableLog := by positivity
  omega

theorem readNcountPaddedChecked_eq {src : Bytes} {counterLen maxSymbolIndex maxTableLog : Nat}
    (hsrc : 4 ≤ src.length) (hlen : maxSymbolIndex < counterLen) (hlog : maxTableLog ≤ tablelogMax) :
    readNcountPaddedChecked src counterLen maxSymbolIndex maxTableLog =
        some (readNcountPadded src counterLen maxSymbolIndex maxTableLog) ∧
      ∀ n, readNcountPadded src counterLen maxSymbolIndex maxTableLog = .ok n → n.size ≤ src.length := by
  unfold readNcountPaddedChecked readNcountPadded
  rw [loadChecked_eq (by omega) (by omega), Nat.shiftRight_zero]
  simp only [Option.bind_eq_bind, Option.bind_some]
  by_cases htl : readU32At src 0 % 16 + minTablelog > maxTableLog
  · rw [if_pos htl, if_pos htl]
    exact ⟨rfl, fun n h => by cases h⟩
  rw [if_neg htl, if_neg htl]
  generalize hlogEq : readU32At src 0 % 16 + minTablelog = tableLog at htl ⊢
  have hwindow : readU32At src 0 >>> 4 < 2 ^ 32 := load_lt src 0 4
  generalize hstart : ({
    ip := 0, bitStream := readU32At src 0 >>> 4, bitCount := 4, remaining := 2 ^ tableLog + 1
    threshold := 2 ^ tableLog, nbBits := tableLog + 1, charnum := 0, previous0 := false
    normalizedCounter := List.replicate counterLen 0 } : NcountReader) = start
  have hready : start.Ready src tableLog maxSymbolIndex := by
    unfold tablelogMax at hlog
    unfold minTablelog at hlogEq
    subst hstart
    exact ⟨⟨by simpa using hsrc, hwindow⟩, NcountReader.ok_start ⟨by omega, by omega⟩ rfl rfl rfl, ⟨tableLog, rfl, rfl⟩,
      by simpa using hlen⟩
  have hfresh : start.bitCount ≤ 7 := by
    subst hstart
    norm_num
  obtain ⟨hcounts, hinside⟩ := readCountsChecked_eq (by omega) (maxSymbolIndex + 1) hready (.inl hfresh) (by omega)
  rw [hcounts]
  cases hr : readCounts src maxSymbolIndex (maxSymbolIndex + 1) start with
  | error e => exact ⟨rfl, fun n h => by cases h⟩
  | ok r =>
    obtain ⟨hok, -⟩ := readCounts_ok _ hready.ok hready.alphabet hr
    simp only [Option.bind_some, ok_bind]
    by_cases hbad : r.remaining ≠ 1 ∨ r.bitCount > 32
    · rw [if_pos hbad, if_pos hbad]
      exact ⟨rfl, fun n h => by cases h⟩
    · rw [if_neg hbad, if_neg hbad]
      rw [not_or, not_not] at hbad
      rw [if_neg (hok.charnum_ne_zero hbad.1)]
      refine ⟨rfl, fun n h => ?_⟩
      have hroom := (hinside r hr).room
      cases h
      simp only
      omega

theorem readNcountChecked_eq (src : Bytes) (counterLen maxSymbolValue maxTableLog : Nat) :
    readNcountChecked src counterLen maxSymbolValue maxTableLog =
        some (readNcount src counterLen maxSymbolValue maxTableLog) ∧
      ∀ n, readNcount src counterLen maxSymbolValue maxTableLog = .ok n → n.size ≤ src.length := by
  unfold readNcountChecked readNcount
  by_cases hsym : maxSymbolValue > symbolvalueMax ∨ maxSymbolValue ≥ counterLen
  · rw [if_pos hsym, if_pos hsym]
    exact ⟨rfl, fun n h => by cases h⟩
  rw [if_neg hsym, if_neg hsym]
  by_cases hlog : maxTableLog > tablelogMax
  · rw [if_pos hlog, if_pos hlog]
    exact ⟨rfl, fun n h => by cases h⟩
  rw [if_neg hlog, if_neg hlog]
  by_cases hshort : src.length < 4
  · -- a short source is read from four bytes, and refused if the zeros behind it were needed
    rw [if_pos hshort, if_pos hshort]
    have hlen : 4 ≤ (src ++ List.replicate (4 - src.length) 0).length := by
      rw [List.length_append, List.length_replicate]
      omega
    obtain ⟨hpadded, -⟩ := readNcountPaddedChecked_eq hlen (show maxSymbolValue < counterLen by omega)
      (show maxTableLog ≤ tablelogMax by omega)
    rw [hpadded]
    cases readNcountPadded (src ++ List.replicate (4 - src.length) 0) counterLen maxSymbolValue maxTableLog with
    | error e => exact ⟨rfl, fun n h => by cases h⟩
    | ok n =>
      simp only [Option.bind_eq_bind, Option.bind_some, ok_bind]
      by_cases hsize : n.size > src.length
      · rw [if_pos hsize, if_pos hsize]
        exact ⟨rfl, fun n h => by cases h⟩
      · rw [if_neg hsize, if_neg hsize]
        refine ⟨rfl, fun n h => ?_⟩
        cases h
        omega
  · rw [if_neg hshort, if_neg hshort]
    exact readNcountPaddedChecked_eq (by omega) (by omega) (by omega)

/-! ## What an accepted header gives the table builders -/

/-- Every builder of a table takes the distribution. -/
structure Ncount.Builds (n : Ncount) : Prop where
  decode : ∀ (dt : DTable), dt.entries.length = tablesizeMax →
    ∃ table, buildDtableInto dt n.normalizedCounter n.maxSymbolValue n.tableLog = .ok table
  direct : ∀ (out : SequenceDTable) (baselines extraBits : List Nat), out.entries.length = tablesizeMax →
    ∃ table, buildSequenceDtableDirectInto out n.normalizedCounter n.maxSymbolValue n.tableLog baselines extraBits =
      .ok table
  offsets : ∀ (out : SequenceDTable), out.entries.length = tablesizeMax →
    ∃ table, buildOffsetSequenceDtableDirectInto out n.normalizedCounter n.maxSymbolValue n.tableLog = .ok table
  encode : ∃ table, buildCtable n.normalizedCounter n.maxSymbolValue n.tableLog = .ok table

/-- A distribution that fills its table is taken by every builder. -/
theorem Normalized.builds {n : Ncount} (hn : Normalized n.normalizedCounter n.maxSymbolValue n.tableLog)
    (hlog : minTablelog ≤ n.tableLog) (hle : n.tableLog ≤ tablelogMax) (hmax : n.maxSymbolValue ≤ symbolvalueMax) :
    n.Builds := by
  have hfour : 4 ≤ n.tableLog := by
    unfold minTablelog at hlog
    omega
  have hroom : 2 ^ n.tableLog ≤ tablesizeMax := Nat.pow_le_pow_right (by norm_num) hle
  obtain ⟨slots, ct, entries, hct, hentries, -⟩ := buildTables_laidOut hn hfour hle hmax
  have hdirect : ∀ (embed : DecodeEntry → SequenceDecodeEntry) (out : SequenceDTable),
      out.entries.length = tablesizeMax →
        ∃ table, buildDirectInto embed out n.normalizedCounter n.maxSymbolValue n.tableLog = .ok table := by
    intro embed out hout
    rw [buildDirectInto_eq hn hfour hmax hle embed (by omega), hentries]
    exact ⟨_, rfl⟩
  refine ⟨fun dt hdt => ?_, fun out baselines extraBits hout => hdirect _ out hout, fun out hout => hdirect _ out hout,
    ct, hct⟩
  obtain ⟨table, htable, -⟩ := buildDtableInto_sound hn hlog hle hmax hdt
  exact ⟨table, htable⟩

/-- `read_ncount` is safe and sound on arbitrary bytes. -/
theorem readNcount_safe (src : Bytes) (counterLen maxSymbolValue maxTableLog : Nat) :
    readNcountChecked src counterLen maxSymbolValue maxTableLog =
        some (readNcount src counterLen maxSymbolValue maxTableLog) ∧
      ∀ n, readNcount src counterLen maxSymbolValue maxTableLog = .ok n →
        slotTotal (n.normalizedCounter.take (n.maxSymbolValue + 1)) = 2 ^ n.tableLog ∧
          (∀ i, n.maxSymbolValue < i → n.normalizedCounter.getD i 0 = 0) ∧
          (∀ c ∈ n.normalizedCounter, -1 ≤ c) ∧ n.maxSymbolValue ≤ maxSymbolValue ∧
          n.tableLog ≤ maxTableLog ∧ n.size ≤ src.length ∧ n.Builds := by
  obtain ⟨hchecked, hsize⟩ := readNcountChecked_eq src counterLen maxSymbolValue maxTableLog
  refine ⟨hchecked, fun n h => ?_⟩
  obtain ⟨hn, hlog, hle, -, htail⟩ := readNcount_normalized h
  have hmax := readNcount_maxSymbolValue h
  have hbounds : maxSymbolValue ≤ symbolvalueMax ∧ maxTableLog ≤ tablelogMax := by
    unfold readNcount at h
    split at h
    · cases h
    split at h
    · cases h
    omega
  exact ⟨hn.total, htail, hn.atLeast, hmax, hle, hsize n h, hn.builds hlog (by omega) (by omega)⟩

end Fse

end Zstandard
