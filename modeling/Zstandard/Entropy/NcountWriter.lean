/-
The writer of the normalized-count header, and what it writes.

A header is the table log, then a field for every count, with a run of absent symbols described after
each count of zero. The width of a count depends on what remains of the table, in the same way for the
writer and the reader; `Header` lists the fields. The writer adds them to a 32-bit stream that it flushes
two bytes at a time.
-/
import Zstandard.Entropy.BitWriter
import Zstandard.Entropy.Duality

namespace Zstandard

namespace Fse

open BitStack

/-! ## The writer -/

/-- The locals of `write_ncount`. -/
structure NcountWriter where
  dst : Bytes
  out : Nat
  bitStream : Nat
  bitCount : Nat
  symbol : Nat
  remaining : Int
  threshold : Nat
  nbBits : Nat
  previousIsZero : Bool

/-- `bit_stream.wrapping_add(value << bit_count)`. -/
def addShifted (bitStream value bitCount : Nat) : Nat := (bitStream + value <<< bitCount) % 2 ^ 32

def flushTwoBytes (w : NcountWriter) : Result NcountWriter :=
  if w.out + 2 > w.dst.length then .error .dstSizeTooSmall else
  .ok { w with
    dst := w.dst.take w.out ++ writeLe w.bitStream 2 ++ w.dst.drop (w.out + 2)
    out := w.out + 2, bitStream := w.bitStream >>> 16 }

/-- `flush_two_bytes` when more than 16 bits are pending. -/
def flushFull (w : NcountWriter) : Result NcountWriter :=
  if w.bitCount > 16 then do
    let w ← flushTwoBytes w
    .ok { w with bitCount := w.bitCount - 16 }
  else .ok w

/-- The next symbol with a count, or the end of the alphabet. -/
def nextCounted (normalizedCounter : List Int) (alphabetSize : Nat) : Nat → Nat → Nat
  | 0, symbol => symbol
  | fuel + 1, symbol =>
    if symbol < alphabetSize ∧ normalizedCounter.getD symbol 0 = 0 then
      nextCounted normalizedCounter alphabetSize fuel (symbol + 1)
    else symbol

/-- The runs of 24 absent symbols. -/
def writeLongRuns : Nat → Nat → NcountWriter → Result (Nat × NcountWriter)
  | 0, skipped, w => .ok (skipped, w)
  | fuel + 1, skipped, w =>
    if skipped ≥ 24 then do
      let w ← flushTwoBytes { w with bitStream := addShifted w.bitStream 0xFFFF w.bitCount }
      writeLongRuns fuel (skipped - 24) w
    else .ok (skipped, w)

/-- The runs of three absent symbols. -/
def writeShortRuns : Nat → Nat → NcountWriter → Nat × NcountWriter
  | 0, skipped, w => (skipped, w)
  | fuel + 1, skipped, w =>
    if skipped ≥ 3 then
      writeShortRuns fuel (skipped - 3)
        { w with bitStream := addShifted w.bitStream 3 w.bitCount, bitCount := w.bitCount + 2 }
    else (skipped, w)

/-- The run of absent symbols after a count of zero. At the end of the alphabet nothing is written. -/
def writeZeroRun (normalizedCounter : List Int) (alphabetSize : Nat) (w : NcountWriter) : Result NcountWriter :=
  let symbol := nextCounted normalizedCounter alphabetSize alphabetSize w.symbol
  if symbol = alphabetSize then .ok { w with symbol } else do
  let (skipped, w) ← writeLongRuns alphabetSize (symbol - w.symbol) { w with symbol }
  let (skipped, w) := writeShortRuns 24 skipped w
  flushFull { w with bitStream := addShifted w.bitStream skipped w.bitCount, bitCount := w.bitCount + 2 }

/-- Halve the threshold until it is at most what remains. -/
def lowerWriter : Nat → NcountWriter → NcountWriter
  | 0, w => w
  | fuel + 1, w =>
    if w.remaining < w.threshold then lowerWriter fuel { w with nbBits := w.nbBits - 1, threshold := w.threshold / 2 }
    else w

def writeCount (normalizedCounter : List Int) (w : NcountWriter) : Result NcountWriter :=
  let count := normalizedCounter.getD w.symbol 0
  let max : Int := (2 * w.threshold - 1 : Int) - w.remaining
  let remaining := w.remaining - |count|
  let count := count + 1
  let count := if count ≥ w.threshold then count + max else count
  let bitStream := addShifted w.bitStream (count % 2 ^ 32).toNat w.bitCount
  let bitCount := w.bitCount + w.nbBits - (if count < max then 1 else 0)
  if remaining < 1 then .error .generic else
  flushFull (lowerWriter 32 { w with
    symbol := w.symbol + 1, remaining, bitStream, bitCount, previousIsZero := count = 1 })

/-- One round of the loop; at the end of the alphabet it breaks. -/
def writeSymbol (normalizedCounter : List Int) (alphabetSize : Nat) (w : NcountWriter) : Result NcountWriter := do
  let w ← (if w.previousIsZero then writeZeroRun normalizedCounter alphabetSize w else .ok w)
  if w.symbol = alphabetSize then .ok w else writeCount normalizedCounter w

def writeCounts (normalizedCounter : List Int) (alphabetSize : Nat) : Nat → NcountWriter → Result NcountWriter
  | 0, w => .ok w
  | fuel + 1, w =>
    if w.symbol < alphabetSize ∧ w.remaining > 1 then do
      let w ← writeSymbol normalizedCounter alphabetSize w
      writeCounts normalizedCounter alphabetSize fuel w
    else .ok w

/-- `write_ncount`: the size of the header, with what the destination then holds. -/
def writeNcount (dst : Bytes) (normalizedCounter : List Int) (maxSymbolValue tableLog : Nat) : Result (Nat × Bytes) :=
  if maxSymbolValue > symbolvalueMax ∨ maxSymbolValue ≥ normalizedCounter.length then .error .maxSymbolValueTooLarge
  else if ¬ (minTablelog ≤ tableLog ∧ tableLog ≤ tablelogMax) then .error .tableLogTooLarge
  else do
    let w ← writeCounts normalizedCounter (maxSymbolValue + 1) (maxSymbolValue + 1) {
      dst, out := 0, bitStream := tableLog - minTablelog, bitCount := 4, symbol := 0
      remaining := 2 ^ tableLog + 1, threshold := 2 ^ tableLog, nbBits := tableLog + 1, previousIsZero := false }
    if w.remaining ≠ 1 then .error .generic
    else if w.out + 2 > w.dst.length then .error .dstSizeTooSmall
    else .ok (w.out + (w.bitCount + 7) / 8, w.dst.take w.out ++ writeLe w.bitStream 2 ++ w.dst.drop (w.out + 2))

/-! ## The fields of a header -/

/-- The field of a count while `remaining` slots, plus one, are left. -/
def countField (remaining : Nat) (count : Int) : Field :=
  let threshold := 2 ^ Nat.log2 remaining
  let max := 2 * threshold - 1 - remaining
  let value := if (count + 1).toNat ≥ threshold then (count + 1).toNat + max else (count + 1).toNat
  (value, if value < max then Nat.log2 remaining else Nat.log2 remaining + 1)

/-- The fields of a run of absent symbols. -/
def zeroRunFields (skipped : Nat) : List Field :=
  List.replicate (skipped / 24) (0xFFFF, 16) ++ (List.replicate (skipped % 24 / 3) (3, 2) ++ [(skipped % 3, 2)])

theorem width_replicate (j v n : Nat) : width (List.replicate j (v, n)) = n * j := by
  induction j with
  | zero => simp
  | succ j ih =>
    rw [List.replicate_succ, width_cons, ih, Nat.mul_succ]
    omega

theorem width_zeroRunFields (s : Nat) : width (zeroRunFields s) = 16 * (s / 24) + 2 * (s % 24 / 3) + 2 := by
  unfold zeroRunFields
  rw [width_append, width_append, width_replicate, width_replicate, width_cons, width_nil]
  omega

/-- The fields of the counts of a header, while `remaining` slots, plus one, are left. -/
inductive Header : Nat → Bool → List Int → List Field → Prop
  | done {previousIsZero : Bool} : Header 1 previousIsZero [] []
  | count {remaining skipped : Nat} {previousIsZero : Bool} {count : Int} {counts : List Int} {fs : List Field} :
    1 < remaining → -1 ≤ count → count.natAbs < remaining → (previousIsZero = false → skipped = 0) →
    (previousIsZero = true → count ≠ 0) → Header (remaining - count.natAbs) (decide (count = 0)) counts fs →
    Header remaining previousIsZero (List.replicate skipped 0 ++ count :: counts)
      ((if previousIsZero then zeroRunFields skipped else []) ++ countField remaining count :: fs)

/-! ## What the writer has written -/

namespace NcountWriter

/-- The stream holds `fs`, with `bitCount` bits of it pending. -/
structure Holds (w : NcountWriter) (bitCount : Nat) (fs : List Field) : Prop where
  room : w.out ≤ w.dst.length
  even : w.out % 2 = 0
  pending : w.bitStream < 2 ^ bitCount
  width : width fs = 8 * w.out + bitCount
  bits : readLe (w.dst.take w.out) + 2 ^ (8 * w.out) * w.bitStream = pack fs

variable {w w' : NcountWriter} {bitCount : Nat} {fs : List Field}

theorem Holds.add {value n : Nat} (h : w.Holds bitCount fs) (hv : value < 2 ^ n) (hn : bitCount + n ≤ 32) :
    addShifted w.bitStream value bitCount = w.bitStream + 2 ^ bitCount * value ∧
      ({ w with bitStream := addShifted w.bitStream value bitCount } : NcountWriter).Holds (bitCount + n)
        (fs ++ [(value, n)]) := by
  have hlt : w.bitStream + 2 ^ bitCount * value < 2 ^ (bitCount + n) := by
    have := h.pending
    rw [pow_add]
    calc w.bitStream + 2 ^ bitCount * value < 2 ^ bitCount * (value + 1) := by rw [Nat.mul_add]; omega
      _ ≤ 2 ^ bitCount * 2 ^ n := Nat.mul_le_mul_left _ hv
  have hadd : addShifted w.bitStream value bitCount = w.bitStream + 2 ^ bitCount * value := by
    unfold addShifted
    rw [Nat.shiftLeft_eq, Nat.mul_comm, Nat.mod_eq_of_lt]
    exact lt_of_lt_of_le hlt (Nat.pow_le_pow_right (by norm_num) hn)
  have hw := h.width
  refine ⟨hadd, h.room, h.even, ?_, ?_, ?_⟩
  · simp only
    rw [hadd]
    exact hlt
  · simp only [width_append, width_cons, width_nil]
    omega
  · simp only
    rw [hadd, pack_append, hw, ← h.bits, pack, pack_nil, Nat.mod_eq_of_lt hv, pow_add]
    ring

theorem Holds.flush (h : w.Holds (bitCount + 16) fs) (hflush : flushTwoBytes w = .ok w') : w'.Holds bitCount fs := by
  have hw := h.width
  unfold flushTwoBytes at hflush
  split at hflush
  · cases hflush
  · rename_i hroom
    cases hflush
    have heven := h.even
    refine ⟨?_, by simp only; omega, ?_, by simp only; omega, ?_⟩
    · simp only
      rw [put_length (by omega)]
      omega
    · simp only
      have := h.pending
      rw [Nat.shiftRight_eq_div_pow, Nat.div_lt_iff_lt_mul (by positivity), ← pow_add]
      exact this
    · simp only
      rw [put_take (by omega) (le_refl 2), ← h.bits, Nat.mul_add, pow_add, Nat.shiftRight_eq_div_pow]
      have hsplit := Nat.mod_add_div w.bitStream (2 ^ 16)
      calc readLe (w.dst.take w.out) + 2 ^ (8 * w.out) * (w.bitStream % 2 ^ (8 * 2)) +
            2 ^ (8 * w.out) * 2 ^ (8 * 2) * (w.bitStream / 2 ^ 16)
          = readLe (w.dst.take w.out) + 2 ^ (8 * w.out) * (w.bitStream % 2 ^ 16 + 2 ^ 16 * (w.bitStream / 2 ^ 16)) := by
            ring
        _ = readLe (w.dst.take w.out) + 2 ^ (8 * w.out) * w.bitStream := by rw [hsplit]

/-- The parts of the writer that say where it is in the counts, and the room it has. -/
structure Same (w w' : NcountWriter) : Prop where
  room : w'.dst.length = w.dst.length
  symbol : w'.symbol = w.symbol
  remaining : w'.remaining = w.remaining
  threshold : w'.threshold = w.threshold
  nbBits : w'.nbBits = w.nbBits
  previousIsZero : w'.previousIsZero = w.previousIsZero

theorem Same.refl (w : NcountWriter) : Same w w := ⟨rfl, rfl, rfl, rfl, rfl, rfl⟩

theorem Same.trans {w'' : NcountWriter} (h : Same w w') (h' : Same w' w'') : Same w w'' :=
  ⟨h'.room.trans h.room, h'.symbol.trans h.symbol, h'.remaining.trans h.remaining, h'.threshold.trans h.threshold,
    h'.nbBits.trans h.nbBits, h'.previousIsZero.trans h.previousIsZero⟩

theorem flushTwoBytes_same (h : flushTwoBytes w = .ok w') : Same w w' ∧ w'.bitCount = w.bitCount := by
  unfold flushTwoBytes at h
  split at h
  · cases h
  · cases h
    exact ⟨⟨put_length (by omega), rfl, rfl, rfl, rfl, rfl⟩, rfl⟩

theorem flushFull_holds (h : w.Holds w.bitCount fs) (hpos : 1 ≤ w.bitCount) (hle : w.bitCount ≤ 32)
    (hflush : flushFull w = .ok w') : w'.Holds w'.bitCount fs ∧ (1 ≤ w'.bitCount ∧ w'.bitCount ≤ 16) ∧ Same w w' := by
  unfold flushFull at hflush
  split at hflush
  · rename_i hfull
    obtain ⟨w1, h1, hflush⟩ := bind_ok hflush
    cases hflush
    obtain ⟨hsame, hcount⟩ := flushTwoBytes_same h1
    have hholds : w1.Holds (w.bitCount - 16) fs :=
      Holds.flush (by rwa [Nat.sub_add_cancel (by omega)]) h1
    refine ⟨⟨hholds.room, hholds.even, ?_, ?_, hholds.bits⟩, by simp only; omega,
      ⟨hsame.room, hsame.symbol, hsame.remaining, hsame.threshold, hsame.nbBits, hsame.previousIsZero⟩⟩
    · simp only
      rw [hcount]
      exact hholds.pending
    · simp only
      rw [hcount]
      exact hholds.width
  · cases hflush
    exact ⟨h, by omega, .refl _⟩

/-! ## Runs -/

theorem writeLongRuns_holds : ∀ (fuel : Nat) {skipped skipped' : Nat} {w w' : NcountWriter} {fs : List Field},
    w.Holds w.bitCount fs → w.bitCount ≤ 16 → skipped < 24 * (fuel + 1) →
      writeLongRuns fuel skipped w = .ok (skipped', w') →
        skipped' = skipped % 24 ∧ w'.Holds w'.bitCount (fs ++ List.replicate (skipped / 24) (0xFFFF, 16)) ∧
          w'.bitCount = w.bitCount ∧ Same w w'
  | 0, skipped, _, w, _, fs, h, _, hfuel, hrun => by
    cases hrun
    rw [Nat.div_eq_of_lt (by omega), Nat.mod_eq_of_lt (by omega), List.replicate_zero, List.append_nil]
    exact ⟨rfl, h, rfl, .refl _⟩
  | fuel + 1, skipped, skipped', w, w', fs, h, hle, hfuel, hrun => by
    unfold writeLongRuns at hrun
    by_cases hlong : skipped ≥ 24
    · rw [if_pos hlong] at hrun
      obtain ⟨w1, h1, hrun⟩ := bind_ok hrun
      have hadd := (h.add (show 0xFFFF < 2 ^ 16 by norm_num) (by omega)).2
      obtain ⟨hsame, hcount⟩ := flushTwoBytes_same h1
      have hholds := hadd.flush h1
      simp only at hcount
      rw [← hcount] at hholds
      obtain ⟨h2, h3, h4, h5⟩ := writeLongRuns_holds fuel hholds (by omega) (by omega) hrun
      refine ⟨by omega, ?_, by omega, ?_⟩
      · rw [show skipped / 24 = (skipped - 24) / 24 + 1 by omega, List.replicate_succ, ← List.singleton_append,
          ← List.append_assoc]
        exact h3
      · exact Same.trans ⟨hsame.room, hsame.symbol, hsame.remaining, hsame.threshold, hsame.nbBits,
          hsame.previousIsZero⟩ h5
    · rw [if_neg hlong] at hrun
      cases hrun
      rw [Nat.div_eq_of_lt (by omega), Nat.mod_eq_of_lt (by omega), List.replicate_zero, List.append_nil]
      exact ⟨rfl, h, rfl, .refl _⟩

theorem writeShortRuns_holds : ∀ (fuel : Nat) {skipped : Nat} {w : NcountWriter} {fs : List Field},
    w.Holds w.bitCount fs → w.bitCount + 2 * (skipped / 3) ≤ 30 → skipped < 3 * (fuel + 1) →
      (writeShortRuns fuel skipped w).1 = skipped % 3 ∧
        (writeShortRuns fuel skipped w).2.Holds (writeShortRuns fuel skipped w).2.bitCount
          (fs ++ List.replicate (skipped / 3) (3, 2)) ∧
        (writeShortRuns fuel skipped w).2.bitCount = w.bitCount + 2 * (skipped / 3) ∧
        Same w (writeShortRuns fuel skipped w).2
  | 0, skipped, w, fs, h, _, hfuel => by
    unfold writeShortRuns
    rw [Nat.div_eq_of_lt (by omega), Nat.mod_eq_of_lt (by omega), List.replicate_zero, List.append_nil]
    exact ⟨rfl, h, rfl, .refl _⟩
  | fuel + 1, skipped, w, fs, h, hle, hfuel => by
    unfold writeShortRuns
    by_cases hshort : skipped ≥ 3
    · rw [if_pos hshort]
      have hadd := (h.add (show 3 < 2 ^ 2 by norm_num) (by omega)).2
      have hholds : ({ w with bitStream := addShifted w.bitStream 3 w.bitCount, bitCount := w.bitCount + 2 } :
          NcountWriter).Holds (w.bitCount + 2) (fs ++ [(3, 2)]) := ⟨hadd.room, hadd.even, hadd.pending,
            hadd.width, hadd.bits⟩
      obtain ⟨h2, h3, h4, h5⟩ := @writeShortRuns_holds fuel (skipped - 3) _ _ hholds (by simp only; omega) (by omega)
      simp only at h4
      refine ⟨by rw [h2]; omega, ?_, by rw [h4]; omega, ?_⟩
      · rw [show skipped / 3 = (skipped - 3) / 3 + 1 by omega, List.replicate_succ, ← List.singleton_append,
          ← List.append_assoc]
        exact h3
      · exact ⟨h5.room, h5.symbol, h5.remaining, h5.threshold, h5.nbBits, h5.previousIsZero⟩
    · rw [if_neg hshort, Nat.div_eq_of_lt (by omega), Nat.mod_eq_of_lt (by omega), List.replicate_zero, List.append_nil]
      exact ⟨rfl, h, rfl, .refl _⟩

theorem nextCounted_spec {normalizedCounter : List Int} {alphabetSize : Nat} : ∀ (fuel symbol : Nat),
    symbol ≤ alphabetSize → alphabetSize ≤ symbol + fuel →
      symbol ≤ nextCounted normalizedCounter alphabetSize fuel symbol ∧
      nextCounted normalizedCounter alphabetSize fuel symbol ≤ alphabetSize ∧
      (∀ i, symbol ≤ i → i < nextCounted normalizedCounter alphabetSize fuel symbol → normalizedCounter.getD i 0 = 0) ∧
      (nextCounted normalizedCounter alphabetSize fuel symbol ≠ alphabetSize →
        normalizedCounter.getD (nextCounted normalizedCounter alphabetSize fuel symbol) 0 ≠ 0)
  | 0, symbol, h1, h2 => by
    unfold nextCounted
    exact ⟨le_refl _, h1, fun i hi hi' => by omega, fun hne => by omega⟩
  | fuel + 1, symbol, h1, h2 => by
    unfold nextCounted
    by_cases hgo : symbol < alphabetSize ∧ normalizedCounter.getD symbol 0 = 0
    · rw [if_pos hgo]
      obtain ⟨h3, h4, h5, h6⟩ := nextCounted_spec fuel (symbol + 1) hgo.1 (by omega)
      refine ⟨by omega, h4, fun i hi hi' => ?_, h6⟩
      rcases Nat.eq_or_lt_of_le hi with rfl | hi
      · exact hgo.2
      · exact h5 i hi hi'
    · rw [if_neg hgo]
      refine ⟨le_refl _, h1, fun i hi hi' => by omega, fun hne h0 => hgo ⟨by omega, h0⟩⟩

/-- A run of absent symbols that ends before the alphabet does. -/
theorem Holds.writeZeroRun_holds {normalizedCounter : List Int} {alphabetSize : Nat} (h : w.Holds w.bitCount fs)
    (hle : w.bitCount ≤ 16) (hrun : writeZeroRun normalizedCounter alphabetSize w = .ok w')
    (hsymbol : w.symbol ≤ alphabetSize)
    (hnext : nextCounted normalizedCounter alphabetSize alphabetSize w.symbol ≠ alphabetSize) :
    w'.Holds w'.bitCount
        (fs ++ zeroRunFields (nextCounted normalizedCounter alphabetSize alphabetSize w.symbol - w.symbol)) ∧
      (1 ≤ w'.bitCount ∧ w'.bitCount ≤ 16) ∧
      Same { w with symbol := nextCounted normalizedCounter alphabetSize alphabetSize w.symbol } w' := by
  have hspec := @nextCounted_spec normalizedCounter alphabetSize alphabetSize w.symbol hsymbol (by omega)
  unfold writeZeroRun at hrun
  generalize nextCounted normalizedCounter alphabetSize alphabetSize w.symbol = next at *
  simp only at hrun
  rw [if_neg hnext] at hrun
  obtain ⟨⟨skipped, w1⟩, h1, hrun⟩ := bind_ok hrun
  have hstart : ({ w with symbol := next } : NcountWriter).Holds w.bitCount fs :=
    ⟨h.room, h.even, h.pending, h.width, h.bits⟩
  obtain ⟨hskipped, hholds1, hcount1, hsame1⟩ := writeLongRuns_holds alphabetSize hstart hle (by omega) h1
  simp only at hcount1 hrun
  obtain ⟨hlast, hholds2, hcount2, hsame2⟩ := @writeShortRuns_holds 24 skipped _ _ hholds1 (by omega) (by omega)
  generalize writeShortRuns 24 skipped w1 = r at *
  obtain ⟨skipped2, w2⟩ := r
  simp only at hlast hholds2 hcount2 hsame2 hrun
  have hadd := (@NcountWriter.Holds.add _ _ _ skipped2 2 hholds2 (by omega) (by omega)).2
  have hholds3 : ({ w2 with bitStream := addShifted w2.bitStream skipped2 w2.bitCount, bitCount := w2.bitCount + 2 } :
      NcountWriter).Holds (w2.bitCount + 2) _ := ⟨hadd.room, hadd.even, hadd.pending, hadd.width, hadd.bits⟩
  obtain ⟨hholds, hcount, hsame⟩ := flushFull_holds hholds3 (by simp only; omega) (by simp only; omega) hrun
  refine ⟨?_, hcount, ?_⟩
  · unfold zeroRunFields
    rw [hlast, hskipped, show (next - w.symbol) % 24 % 3 = (next - w.symbol) % 3 by omega, List.append_assoc,
      List.append_assoc] at hholds
    exact hholds
  · exact hsame1.trans (hsame2.trans ⟨hsame.room, hsame.symbol, hsame.remaining, hsame.threshold, hsame.nbBits,
      hsame.previousIsZero⟩)

/-! ## Counts -/

theorem log2_bounds {remaining : Nat} (h : 1 ≤ remaining) :
    2 ^ Nat.log2 remaining ≤ remaining ∧ remaining < 2 ^ (Nat.log2 remaining + 1) :=
  ⟨Nat.log2_self_le (by omega), Nat.lt_log2_self⟩

/-- A count that leaves a slot fits its field. -/
theorem countField_lt {remaining : Nat} {count : Int} (hc : -1 ≤ count) (hlt : count.natAbs < remaining) :
    (countField remaining count).1 < 2 ^ (countField remaining count).2 := by
  obtain ⟨h1, h2⟩ := log2_bounds (show 1 ≤ remaining by omega)
  unfold countField
  rw [pow_succ] at h2
  simp only
  split
  · rw [if_neg (by omega), pow_succ]
    omega
  · split
    · omega
    · rw [pow_succ]
      omega

theorem lowerWriter_eq : ∀ (fuel k : Nat) {w : NcountWriter} {remaining : Nat}, k < fuel → w.threshold = 2 ^ k →
    w.nbBits = k + 1 → w.remaining = remaining → 1 ≤ remaining → remaining < 2 ^ (k + 1) →
      lowerWriter fuel w = { w with nbBits := Nat.log2 remaining + 1, threshold := 2 ^ Nat.log2 remaining }
  | 0, _, _, _, hk, _, _, _, _, _ => absurd hk (Nat.not_lt_zero _)
  | fuel + 1, k, w, remaining, hk, ht, hnb, hrem, hpos, hlt => by
    unfold lowerWriter
    by_cases hlow : w.remaining < w.threshold
    · rw [if_pos hlow]
      rw [hrem, ht] at hlow
      have hlow : remaining < 2 ^ k := by exact_mod_cast hlow
      cases k with
      | zero =>
        simp only [pow_zero] at hlow
        omega
      | succ k =>
        have hdiv : w.threshold / 2 = 2 ^ k := by
          rw [ht, pow_succ]
          exact Nat.mul_div_cancel _ (by norm_num)
        exact lowerWriter_eq fuel k (w := { w with nbBits := w.nbBits - 1, threshold := w.threshold / 2 })
          (by omega) hdiv (by simp only; omega) hrem hpos hlow
    · rw [if_neg hlow]
      rw [hrem, ht] at hlow
      have hlow : 2 ^ k ≤ remaining := by exact_mod_cast not_lt.1 hlow
      have hlog : Nat.log2 remaining = k := (Nat.log2_eq_iff (by omega)).2 ⟨hlow, hlt⟩
      rw [hlog, ← ht, ← hnb]

/-- The writer between two counts, with `remaining` slots, plus one, left and `fs` written. -/
structure Ready (w : NcountWriter) (remaining : Nat) (fs : List Field) : Prop where
  remaining_eq : w.remaining = remaining
  remaining_pos : 1 ≤ remaining
  remaining_lt : remaining < 2 ^ 11
  threshold_eq : w.threshold = 2 ^ Nat.log2 remaining
  nbBits_eq : w.nbBits = Nat.log2 remaining + 1
  bitCount_le : 1 ≤ w.bitCount ∧ w.bitCount ≤ 16
  holds : w.Holds w.bitCount fs

theorem Ready.same {remaining : Nat} (h : w.Ready remaining fs) (hs : Same w w') {fs' : List Field}
    (hle : 1 ≤ w'.bitCount ∧ w'.bitCount ≤ 16) (hholds : w'.Holds w'.bitCount fs') : w'.Ready remaining fs' :=
  ⟨hs.remaining.trans h.remaining_eq, h.remaining_pos, h.remaining_lt, hs.threshold.trans h.threshold_eq,
    hs.nbBits.trans h.nbBits_eq, hle, hholds⟩

theorem countField_snd (remaining : Nat) (count : Int) : (countField remaining count).2 =
    if (countField remaining count).1 < 2 * 2 ^ Nat.log2 remaining - 1 - remaining then Nat.log2 remaining
    else Nat.log2 remaining + 1 := rfl

theorem log2_le_ten {remaining : Nat} (hpos : 1 ≤ remaining) (hlt : remaining < 2 ^ 11) : Nat.log2 remaining ≤ 10 := by
  by_contra hcon
  have h1 := Nat.log2_self_le (show remaining ≠ 0 by omega)
  have : 2 ^ 11 ≤ 2 ^ Nat.log2 remaining := Nat.pow_le_pow_right (by norm_num) (by omega)
  omega

theorem log2_pos {remaining : Nat} (h : 1 < remaining) : 1 ≤ Nat.log2 remaining := by
  by_contra hcon
  have h1 := (log2_bounds (show 1 ≤ remaining by omega)).2
  rw [show Nat.log2 remaining = 0 by omega] at h1
  omega

theorem countField_width {remaining : Nat} (hpos : 1 < remaining) (hlt : remaining < 2 ^ 11) (count : Int) :
    1 ≤ (countField remaining count).2 ∧ (countField remaining count).2 ≤ 11 := by
  have := log2_le_ten (by omega) hlt
  have := log2_pos hpos
  rw [countField_snd]
  split <;> omega

/-- The writer after a count: its field is in the stream, and full bytes are still to be flushed. -/
def withCount (w : NcountWriter) (remaining : Nat) (count : Int) : NcountWriter :=
  { w with
    symbol := w.symbol + 1, remaining := (remaining - count.natAbs : Nat)
    bitStream := addShifted w.bitStream (countField remaining count).1 w.bitCount
    bitCount := w.bitCount + (countField remaining count).2
    nbBits := Nat.log2 (remaining - count.natAbs) + 1, threshold := 2 ^ Nat.log2 (remaining - count.natAbs)
    previousIsZero := decide (count = 0) }

/-- What the writer does with a count: an error if it takes more slots than are left. -/
theorem writeCount_eq {normalizedCounter : List Int} {remaining : Nat} (h : w.Ready remaining fs)
    (hmore : 1 < remaining) (hc : -1 ≤ normalizedCounter.getD w.symbol 0) :
    writeCount normalizedCounter w =
      if (normalizedCounter.getD w.symbol 0).natAbs < remaining then
        flushFull (w.withCount remaining (normalizedCounter.getD w.symbol 0))
      else .error .generic := by
  unfold writeCount
  generalize normalizedCounter.getD w.symbol 0 = count at *
  obtain ⟨hlow, hup⟩ := log2_bounds h.remaining_pos
  have hlog := log2_le_ten h.remaining_pos h.remaining_lt
  have htwo : 2 ^ 1 ≤ 2 ^ Nat.log2 remaining := Nat.pow_le_pow_right (by norm_num) (log2_pos hmore)
  simp only [h.remaining_eq, h.threshold_eq, h.nbBits_eq]
  push_cast
  have habs : |count| = (count.natAbs : Int) := Int.abs_eq_natAbs count
  by_cases hleft : (remaining : Int) - |count| < 1
  · rw [if_pos hleft, if_neg (show ¬ count.natAbs < remaining by rw [habs] at hleft; omega)]
  have hlt : count.natAbs < remaining := by
    rw [habs] at hleft
    omega
  rw [if_neg hleft, if_pos hlt]
  have hfield := countField_lt hc hlt
  -- the value and its width, in the writer's integers
  have hcast : ((2 ^ Nat.log2 remaining : Nat) : Int) = 2 ^ Nat.log2 remaining := by push_cast; rfl
  rw [pow_succ] at hup
  have hvalue : (if count + 1 ≥ 2 ^ Nat.log2 remaining then count + 1 + (2 * 2 ^ Nat.log2 remaining - 1 - remaining)
      else count + 1) = ((countField remaining count).1 : Int) := by
    unfold countField
    simp only
    by_cases hbig : count + 1 ≥ 2 ^ Nat.log2 remaining
    · rw [if_pos hbig, if_pos (by omega)]
      omega
    · rw [if_neg hbig, if_neg (by omega)]
      omega
  have hwidth : Nat.log2 remaining + 1 -
      (if ((countField remaining count).1 : Int) < 2 * 2 ^ Nat.log2 remaining - 1 - remaining then 1 else 0) =
        (countField remaining count).2 := by
    rw [countField_snd]
    by_cases hshort : (countField remaining count).1 < 2 * 2 ^ Nat.log2 remaining - 1 - remaining
    · rw [if_pos hshort, if_pos (by omega)]
      omega
    · rw [if_neg hshort, if_neg (by omega)]
      rfl
  have hzero : ((countField remaining count).1 : Int) = 1 ↔ count = 0 := by
    rw [← hvalue]
    by_cases hbig : count + 1 ≥ 2 ^ Nat.log2 remaining
    · rw [if_pos hbig]
      omega
    · rw [if_neg hbig]
      omega
  have hmod : (((countField remaining count).1 : Int) % 4294967296).toNat = (countField remaining count).1 := by
    have : 2 ^ (countField remaining count).2 ≤ 2 ^ 11 :=
      Nat.pow_le_pow_right (by norm_num) (countField_width hmore h.remaining_lt count).2
    omega
  have hrest : ((remaining - count.natAbs : Nat) : Int) = (remaining : Int) - count.natAbs := by omega
  have hlower : ∀ {w1 : NcountWriter}, w1.threshold = 2 ^ Nat.log2 remaining → w1.nbBits = Nat.log2 remaining + 1 →
      w1.remaining = (remaining : Int) - |count| → lowerWriter 32 w1 = { w1 with
        nbBits := Nat.log2 (remaining - count.natAbs) + 1, threshold := 2 ^ Nat.log2 (remaining - count.natAbs) } :=
    fun ht hnb hrem => lowerWriter_eq 32 (Nat.log2 remaining) (by omega) ht hnb (by rw [hrem, habs, hrest]) (by omega)
      (by rw [pow_succ]; omega)
  rw [hvalue, hlower (by rfl) (by rfl) (by rfl), Nat.add_sub_assoc (by split <;> omega), hwidth]
  simp only [hmod, hzero]
  unfold withCount
  rw [hrest, habs]

/-- What the writer adds for a count. -/
theorem writeCount_ready {normalizedCounter : List Int} {remaining : Nat} (h : w.Ready remaining fs)
    (hmore : 1 < remaining) (hc : -1 ≤ normalizedCounter.getD w.symbol 0)
    (hwrite : writeCount normalizedCounter w = .ok w') :
    (normalizedCounter.getD w.symbol 0).natAbs < remaining ∧
      w'.Ready (remaining - (normalizedCounter.getD w.symbol 0).natAbs)
        (fs ++ [countField remaining (normalizedCounter.getD w.symbol 0)]) ∧
      w'.symbol = w.symbol + 1 ∧ w'.previousIsZero = decide (normalizedCounter.getD w.symbol 0 = 0) ∧
      w'.dst.length = w.dst.length := by
  rw [writeCount_eq h hmore hc] at hwrite
  generalize normalizedCounter.getD w.symbol 0 = count at *
  split at hwrite
  · rename_i hlt
    have hcount := h.bitCount_le
    have hwidth := countField_width hmore h.remaining_lt count
    have hadd := (h.holds.add (countField_lt hc hlt) (by omega)).2
    have hkeep := fun hholds hpos hle => @flushFull_holds _ _
      (fs ++ [countField remaining count]) hholds hpos hle hwrite
    unfold withCount at hkeep
    obtain ⟨hholds, hle, hsame⟩ := hkeep ⟨hadd.room, hadd.even, hadd.pending, hadd.width, hadd.bits⟩
      (by simp only; omega) (by simp only; omega)
    exact ⟨hlt, ⟨hsame.remaining, by omega, by have := h.remaining_lt; omega, hsame.threshold,
      hsame.nbBits, hle, hholds⟩, hsame.symbol, hsame.previousIsZero, hsame.room⟩
  · cases hwrite

end NcountWriter

/-! ## The whole header -/

theorem drop_zeros {counts : List Int} {alphabetSize s : Nat} (halphabet : alphabetSize ≤ counts.length) :
    ∀ {skipped : Nat}, s + skipped ≤ alphabetSize → (∀ i, s ≤ i → i < s + skipped → counts.getD i 0 = 0) →
      (counts.take alphabetSize).drop s = List.replicate skipped 0 ++ (counts.take alphabetSize).drop (s + skipped)
  | 0, _, _ => by simp
  | skipped + 1, hle, hzero => by
    rw [@drop_zeros _ _ _ halphabet skipped (by omega) (fun i h1 h2 => hzero i h1 (by omega)),
      List.replicate_succ', List.append_assoc, List.drop_eq_getElem_cons (by rw [List.length_take]; omega),
      List.getElem_take]
    have := hzero (s + skipped) (by omega) (by omega)
    rw [List.getD_eq_getElem _ _ (by omega)] at this
    rw [this]
    rfl

section
variable {normalizedCounter : List Int} {alphabetSize : Nat} {w w' : NcountWriter} {remaining : Nat} {fs : List Field}

/-- One round of the writer: a run of absent symbols, if one is due, and a count. -/
theorem writeSymbol_ready (h : w.Ready remaining fs) (hmore : 1 < remaining) (hsymbol : w.symbol < alphabetSize)
    (hge : ∀ i, -1 ≤ normalizedCounter.getD i 0) (hwrite : writeSymbol normalizedCounter alphabetSize w = .ok w') :
    (w'.symbol = alphabetSize ∧ w'.remaining = remaining) ∨
    w'.dst.length = w.dst.length ∧ ∃ skipped, w.symbol + skipped < alphabetSize ∧
      (∀ i, w.symbol ≤ i → i < w.symbol + skipped → normalizedCounter.getD i 0 = 0) ∧
      (w.previousIsZero = false → skipped = 0) ∧
      (w.previousIsZero = true → normalizedCounter.getD (w.symbol + skipped) 0 ≠ 0) ∧
      (normalizedCounter.getD (w.symbol + skipped) 0).natAbs < remaining ∧
      w'.Ready (remaining - (normalizedCounter.getD (w.symbol + skipped) 0).natAbs)
        (fs ++ ((if w.previousIsZero then zeroRunFields skipped else []) ++
          [countField remaining (normalizedCounter.getD (w.symbol + skipped) 0)])) ∧
      w'.symbol = w.symbol + skipped + 1 ∧
      w'.previousIsZero = decide (normalizedCounter.getD (w.symbol + skipped) 0 = 0) := by
  unfold writeSymbol at hwrite
  obtain ⟨w1, h1, hwrite⟩ := bind_ok hwrite
  by_cases hprev : w.previousIsZero = true
  · rw [if_pos hprev] at h1
    obtain ⟨hlow, hup, hzero, hcounted⟩ :=
      @NcountWriter.nextCounted_spec normalizedCounter alphabetSize alphabetSize w.symbol hsymbol.le (by omega)
    by_cases hend : nextCounted normalizedCounter alphabetSize alphabetSize w.symbol = alphabetSize
    · left
      unfold writeZeroRun at h1
      simp only [hend, if_true] at h1
      cases h1
      rw [if_pos rfl] at hwrite
      cases hwrite
      exact ⟨rfl, h.remaining_eq⟩
    · right
      obtain ⟨hholds, hle, hsame⟩ := h.holds.writeZeroRun_holds h.bitCount_le.2 h1 hsymbol.le hend
      have hready : w1.Ready remaining _ := NcountWriter.Ready.same (w := { w with
        symbol := nextCounted normalizedCounter alphabetSize alphabetSize w.symbol })
        ⟨h.remaining_eq, h.remaining_pos, h.remaining_lt, h.threshold_eq, h.nbBits_eq, h.bitCount_le,
          ⟨h.holds.room, h.holds.even, h.holds.pending, h.holds.width, h.holds.bits⟩⟩ hsame hle hholds
      have hat : w1.symbol = nextCounted normalizedCounter alphabetSize alphabetSize w.symbol := hsame.symbol
      rw [hat, if_neg hend] at hwrite
      have hcount := NcountWriter.writeCount_ready hready hmore (hge _) hwrite
      rw [hat] at hcount
      rw [hsame.room] at hcount
      generalize nextCounted normalizedCounter alphabetSize alphabetSize w.symbol = next at *
      have hnext : w.symbol + (next - w.symbol) = next := by omega
      obtain ⟨hlt, hready', hsymbol', hprev', hroom⟩ := hcount
      refine ⟨hroom, next - w.symbol, ?_⟩
      rw [hnext, if_pos hprev, ← List.append_assoc]
      exact ⟨by omega, hzero, fun h0 => absurd hprev (by rw [h0]; decide), fun _ => hcounted hend, hlt,
        hready', hsymbol', hprev'⟩
  · rw [if_neg hprev] at h1
    cases h1
    right
    rw [if_neg (by omega)] at hwrite
    obtain ⟨hlt, hready', hsymbol', hprev', hroom⟩ := NcountWriter.writeCount_ready h hmore (hge _) hwrite
    refine ⟨hroom, 0, by omega, fun i h1 h2 => by omega, fun _ => rfl, fun h0 => absurd h0 hprev, hlt, ?_,
      hsymbol', hprev'⟩
    rw [if_neg hprev]
    exact hready'

theorem writeCounts_end : ∀ (fuel : Nat), w.symbol = alphabetSize →
    writeCounts normalizedCounter alphabetSize fuel w = .ok w
  | 0, _ => rfl
  | fuel + 1, h => by
    unfold writeCounts
    rw [if_neg (by omega)]

end

/-- The loop writes the fields of a header, up to the last symbol with a count. -/
theorem writeCounts_header {normalizedCounter : List Int} {alphabetSize : Nat}
    (halphabet : alphabetSize ≤ normalizedCounter.length) (hge : ∀ i, -1 ≤ normalizedCounter.getD i 0) :
    ∀ (fuel : Nat) {w w' : NcountWriter} {remaining : Nat} {fs : List Field}, w.Ready remaining fs →
      slotTotal ((normalizedCounter.take alphabetSize).drop w.symbol) + 1 = remaining → w.symbol ≤ alphabetSize →
      alphabetSize ≤ w.symbol + fuel → writeCounts normalizedCounter alphabetSize fuel w = .ok w' → w'.remaining = 1 →
        ∃ used zeros fs', (normalizedCounter.take alphabetSize).drop w.symbol = used ++ zeros ∧
          (∀ c ∈ zeros, c = 0) ∧ Header remaining w.previousIsZero used fs' ∧ w'.Ready 1 (fs ++ fs') ∧
          w'.dst.length = w.dst.length := by
  -- a loop that stops has nothing left to write
  have hstop : ∀ {w : NcountWriter} {remaining : Nat} {fs : List Field}, w.Ready remaining fs →
      slotTotal ((normalizedCounter.take alphabetSize).drop w.symbol) + 1 = remaining → w.remaining = 1 →
        ∃ used zeros fs', (normalizedCounter.take alphabetSize).drop w.symbol = used ++ zeros ∧
          (∀ c ∈ zeros, c = 0) ∧ Header remaining w.previousIsZero used fs' ∧ w.Ready 1 (fs ++ fs') ∧
          w.dst.length = w.dst.length := by
    intro w remaining fs h htotal hone
    have hrem : remaining = 1 := by
      have := h.remaining_eq
      omega
    subst hrem
    refine ⟨[], _, [], rfl, fun c hc => ?_, .done, by rw [List.append_nil]; exact h, rfl⟩
    have hsum : slotTotal ((normalizedCounter.take alphabetSize).drop w.symbol) = 0 := by omega
    unfold slotTotal at hsum
    rw [List.sum_eq_zero_iff] at hsum
    exact Int.natAbs_eq_zero.1 (hsum _ (List.mem_map_of_mem hc))
  intro fuel
  induction fuel with
  | zero =>
    intro w w' remaining fs h htotal _ _ hwrite hone
    cases hwrite
    exact hstop h htotal hone
  | succ fuel ih =>
    intro w w' remaining fs h htotal hsymbol hfuel hwrite hone
    unfold writeCounts at hwrite
    by_cases hgo : w.symbol < alphabetSize ∧ w.remaining > 1
    · rw [if_pos hgo] at hwrite
      obtain ⟨w1, h1, hwrite⟩ := bind_ok hwrite
      have hrem := h.remaining_eq
      have hmore : 1 < remaining := by omega
      rcases writeSymbol_ready h hmore hgo.1 hge h1 with ⟨hend, hsame⟩ | ⟨hroom, skipped, hin, hzero, hnone,
        hcounted, hlt, hready, hat, hprev⟩
      · rw [writeCounts_end fuel hend] at hwrite
        cases hwrite
        omega
      · have hdrop := @drop_zeros _ _ w.symbol halphabet skipped hin.le hzero
        have hcons : (normalizedCounter.take alphabetSize).drop (w.symbol + skipped) =
            normalizedCounter.getD (w.symbol + skipped) 0 ::
              (normalizedCounter.take alphabetSize).drop (w.symbol + skipped + 1) := by
          rw [List.drop_eq_getElem_cons (by rw [List.length_take]; omega), List.getElem_take,
            List.getD_eq_getElem _ _ (by omega)]
        rw [hcons] at hdrop
        have hsum : slotTotal ((normalizedCounter.take alphabetSize).drop w.symbol) =
            (normalizedCounter.getD (w.symbol + skipped) 0).natAbs +
              slotTotal ((normalizedCounter.take alphabetSize).drop (w.symbol + skipped + 1)) := by
          rw [hdrop, slotTotal_append, slotTotal_zero fun c hc => List.eq_of_mem_replicate hc, Nat.zero_add]
          simp [slotTotal]
        obtain ⟨used, zeros, fs', hsplit, hzeros, hheader, hready', hroom'⟩ :=
          ih hready (by rw [hat]; omega) (by omega) (by omega) hwrite hone
        rw [hat] at hsplit
        rw [hprev] at hheader
        refine ⟨List.replicate skipped 0 ++ normalizedCounter.getD (w.symbol + skipped) 0 :: used, zeros, _, ?_, hzeros,
          .count hmore (hge _) hlt hnone hcounted hheader, ?_, hroom'.trans hroom⟩
        · rw [hdrop, hsplit]
          simp
        · rw [List.append_assoc, List.append_assoc] at hready'
          exact hready'
    · rw [if_neg hgo] at hwrite
      cases hwrite
      exact hstop h htotal hone

/-- The writer in front of the first count. -/
theorem start_ready {dst : Bytes} {tableLog : Nat} (hlog : minTablelog ≤ tableLog ∧ tableLog ≤ tablelogMax) :
    ({ dst, out := 0, bitStream := tableLog - minTablelog, bitCount := 4, symbol := 0
       remaining := 2 ^ tableLog + 1, threshold := 2 ^ tableLog, nbBits := tableLog + 1, previousIsZero := false } :
      NcountWriter).Ready (2 ^ tableLog + 1) [(tableLog - minTablelog, 4)] := by
  have hlow : tableLog - minTablelog < 2 ^ 4 := by
    unfold minTablelog tablelogMax at *
    omega
  have hpow : 2 ^ tableLog ≤ 2 ^ 9 := Nat.pow_le_pow_right (by norm_num) hlog.2
  have hpos : 0 < 2 ^ tableLog := by positivity
  have hlog2 : Nat.log2 (2 ^ tableLog + 1) = tableLog :=
    (Nat.log2_eq_iff (by omega)).2 ⟨by omega, by
      have : 2 ^ 1 ≤ 2 ^ tableLog := Nat.pow_le_pow_right (by norm_num) (by unfold minTablelog at hlog; omega)
      rw [pow_succ]
      omega⟩
  refine ⟨by push_cast; rfl, by omega, by omega, by simp only; rw [hlog2], by simp only; rw [hlog2],
    ⟨by norm_num, by norm_num⟩, ⟨Nat.zero_le _, rfl, hlow, by simp, ?_⟩⟩
  simp only [Nat.mul_zero, List.take_zero, readLe, pow_zero, Nat.one_mul, Nat.zero_add, pack, Nat.add_zero]
  rw [Nat.mod_eq_of_lt hlow]

/-- Where the last symbol has a count, nothing is left out. -/
theorem used_all {normalizedCounter used zeros : List Int} {maxSymbolValue tableLog : Nat}
    (hn : Normalized normalizedCounter maxSymbolValue tableLog) (hlast : normalizedCounter.getD maxSymbolValue 0 ≠ 0)
    (hsplit : normalizedCounter.take (maxSymbolValue + 1) = used ++ zeros) (hzeros : ∀ c ∈ zeros, c = 0) :
      zeros = [] := by
  have hal := hn.alphabet
  by_contra hne
  have hlen := congrArg List.length hsplit
  have hpos := List.length_pos_iff.2 hne
  rw [List.length_append, List.length_take] at hlen
  have hget : normalizedCounter.getD maxSymbolValue 0 = zeros.getD (zeros.length - 1) 0 := by
    have h1 : (normalizedCounter.take (maxSymbolValue + 1)).getD maxSymbolValue 0 =
        normalizedCounter.getD maxSymbolValue 0 := by
      rw [List.getD_eq_getElem _ _ (by rw [List.length_take]; omega), List.getElem_take, List.getD_eq_getElem _ _ hal]
    rw [← h1, hsplit, List.getD_append_right _ _ _ _ (by omega)]
    congr 1
    omega
  rw [hget, List.getD_eq_getElem _ _ (by omega)] at hlast
  exact hlast (hzeros _ (List.getElem_mem _))

/-- What `write_ncount` leaves in front of `size`: the table log and the fields of a header for all counts
up to the last symbol that has one. -/
theorem writeNcount_header {dst out : Bytes} {normalizedCounter : List Int} {maxSymbolValue tableLog size : Nat}
    (hn : Normalized normalizedCounter maxSymbolValue tableLog)
    (h : writeNcount dst normalizedCounter maxSymbolValue tableLog = .ok (size, out)) :
    minTablelog ≤ tableLog ∧ tableLog ≤ tablelogMax ∧
    ∃ used zeros fs, normalizedCounter.take (maxSymbolValue + 1) = used ++ zeros ∧ (∀ c ∈ zeros, c = 0) ∧
      Header (2 ^ tableLog + 1) false used fs ∧ size ≤ out.length ∧
      size = (width ((tableLog - minTablelog, 4) :: fs) + 7) / 8 ∧
      2 * ((width ((tableLog - minTablelog, 4) :: fs) - 1) / 16) + 2 ≤ dst.length ∧
      readLe (out.take size) = pack ((tableLog - minTablelog, 4) :: fs) := by
  unfold writeNcount at h
  split at h
  · cases h
  split at h
  · cases h
  rename_i hmax hlog
  rw [not_not] at hlog
  obtain ⟨w', hwrite, h⟩ := bind_ok h
  split at h
  · cases h
  rename_i hone
  split at h
  · cases h
  rename_i hroom
  cases h
  have hge : ∀ i, -1 ≤ normalizedCounter.getD i 0 := by
    intro i
    rcases Nat.lt_or_ge i normalizedCounter.length with hi | hi
    · rw [List.getD_eq_getElem _ _ hi]
      exact hn.atLeast _ (List.getElem_mem _)
    · rw [List.getD_eq_default _ _ hi]
      norm_num
  obtain ⟨used, zeros, fs, hsplit, hzeros, hheader, hready, hlength⟩ :=
    writeCounts_header (by omega) hge (maxSymbolValue + 1) (start_ready hlog)
    (by rw [List.drop_zero, hn.total]) (Nat.zero_le _) (by omega) hwrite (by simpa using hone)
  rw [List.drop_zero] at hsplit
  obtain ⟨-, -, -, -, -, hcount, hholds⟩ := hready
  have hw := hholds.width
  have heven := hholds.even
  have hpend : w'.bitStream < 2 ^ (8 * ((w'.bitCount + 7) / 8)) :=
    lt_of_lt_of_le hholds.pending (Nat.pow_le_pow_right (by norm_num) (by omega))
  refine ⟨hlog.1, hlog.2, used, zeros, fs, hsplit, hzeros, hheader, ?_, ?_, ?_, ?_⟩
  · rw [put_length (by omega)]
    omega
  · rw [List.singleton_append] at hw
    omega
  · rw [List.singleton_append] at hw
    simp only at hlength
    omega
  · rw [put_take (by omega) (by omega), Nat.mod_eq_of_lt hpend, hholds.bits]
    rfl

end Fse

end Zstandard
