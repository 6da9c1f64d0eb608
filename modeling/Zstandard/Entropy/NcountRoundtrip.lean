/-
A header that was written is read back.

The reader keeps a window of 32 bits of the payload, at most 7 bits in after a reload, and moves it to the
last four bytes once it is near them. Only inside a run of absent symbols does it not: there the window can
stay at the byte before, and the bits of the last byte read as zero until the count behind the run is read.
A header is read back unless this cuts bits that are set.
-/
import Zstandard.Entropy.NcountRoom

namespace Zstandard

namespace Fse

open BitStack

/-! ## The window of the reader -/

/-- The reader stands at bit `pos` of `src`: its window is freshly loaded, or reaches the last byte. -/
structure NcountReader.Stands (src : Bytes) (r : NcountReader) (pos : Nat) : Prop where
  position : 8 * r.ip + r.bitCount = pos
  room : r.ip + 4 ≤ src.length
  fresh : r.bitCount ≤ 7 ∨ r.ip + 4 = src.length
  bits : pos < 8 * src.length → r.bitStream = readLe src >>> pos % 2 ^ (32 - r.bitCount)

section
variable {src : Bytes} {r : NcountReader} {pos n : Nat} {fs : List Field} {f : Field}

theorem readU32At_shift (src : Bytes) {ip bitCount : Nat} (h : bitCount ≤ 32) :
    readU32At src ip >>> bitCount = readLe src >>> (8 * ip + bitCount) % 2 ^ (32 - bitCount) := by
  unfold readU32At readU32Le
  rw [readLe_slice, Nat.shiftRight_add]
  generalize readLe src >>> (8 * ip) = N
  rw [Nat.shiftRight_eq_div_pow, Nat.shiftRight_eq_div_pow, show 8 * 4 = bitCount + (32 - bitCount) by omega, pow_add,
    Nat.mod_mul_right_div_self]

/-- A load at `ip`, `bitCount` bits in. -/
theorem NcountReader.Stands.load {r' : NcountReader} (hroom : r'.ip + 4 ≤ src.length)
    (hfresh : r'.bitCount ≤ 7 ∨ r'.ip + 4 = src.length)
    (hbits : pos < 8 * src.length → r'.bitStream = readU32At src r'.ip >>> r'.bitCount)
    (hpos : 8 * r'.ip + r'.bitCount = pos) : r'.Stands src pos := by
  refine ⟨hpos, hroom, hfresh, fun hlt => ?_⟩
  rw [hbits hlt, readU32At_shift src (by omega), hpos]

/-- The window shows the fields as far as they are not cut. -/
theorem NcountReader.Stands.shows (h : r.Stands src pos) (hpos : pos < 8 * src.length)
    (hbegins : Begins (readLe src >>> pos) fs) (hlt : pack fs < 2 ^ (32 - r.bitCount)) : Begins r.bitStream fs := by
  rw [h.bits hpos]
  exact hbegins.cut hlt

theorem pack_lt_of_le {k : Nat} (h : width fs ≤ k) : pack fs < 2 ^ k :=
  lt_of_lt_of_le (pack_lt fs) (Nat.pow_le_pow_right (by norm_num) h)

/-- One field is in the window. -/
theorem NcountReader.Stands.shows_field (h : r.Stands src pos) (hbegins : Begins (readLe src >>> pos) [f])
    (hn : 1 ≤ f.2 ∧ f.2 ≤ 25) (hend : pos + f.2 ≤ 8 * src.length) : Begins r.bitStream [f] := by
  have hp := h.position
  refine h.shows (by omega) hbegins (pack_lt_of_le ?_)
  rw [width_cons, width_nil]
  rcases h.fresh with hf | hf <;> omega

/-! ## Runs -/

theorem pack_replicate_three : ∀ m : Nat, pack (List.replicate m (3, 2)) + 1 = 2 ^ (2 * m) ∧
    width (List.replicate m (3, 2)) = 2 * m
  | 0 => by simp
  | m + 1 => by
    obtain ⟨h1, h2⟩ := pack_replicate_three m
    rw [List.replicate_succ, pack, width_cons, h2, Nat.mul_add, pow_add]
    constructor
    · simp only
      omega
    · simp only
      omega

/-- Pairs that end in one which is not full hold a bit that is not set. -/
theorem pairs_lt {stream m t : Nat} (ht : t < 3) {more : List Field}
    (h : Begins stream (List.replicate m (3, 2) ++ (t, 2) :: more)) :
      stream % 2 ^ (2 * m + 2) + 1 < 2 ^ (2 * m + 2) := by
  obtain ⟨h1, h2⟩ := pack_replicate_three m
  have hwidth : width (List.replicate m ((3, 2) : Field) ++ [(t, 2)]) = 2 * m + 2 := by
    rw [width_append, h2]
    rfl
  have hleft : Begins stream (List.replicate m (3, 2) ++ [(t, 2)]) := Begins.left (b := more) (by simpa using h)
  unfold Begins at hleft
  rw [hwidth, pack_append, h2] at hleft
  rw [hleft, pow_add]
  simp only [pack, Nat.mul_zero, Nat.add_zero]
  have : 2 ^ (2 * m) * (t % 2 ^ 2) ≤ 2 ^ (2 * m) * 2 := Nat.mul_le_mul_left _ (by omega)
  omega

/-- Pairs that end in one which is not full do not look like a long run. -/
theorem pairs_ne {stream m t : Nat} {more : List Field} (hm : m ≤ 7) (ht : t < 3)
    (h : Begins stream (List.replicate m (3, 2) ++ (t, 2) :: more)) : stream % 2 ^ 16 ≠ 0xFFFF := by
  intro hfull
  have hlt := pairs_lt ht h
  rw [← Nat.mod_mod_of_dvd stream (pow_dvd_pow 2 (show 2 * m + 2 ≤ 16 by omega)), hfull] at hlt
  have hones : 0xFFFF % 2 ^ (2 * m + 2) + 1 = 2 ^ (2 * m + 2) := by interval_cases m <;> rfl
  omega

/-- The loop of the long runs where the window is not moved any more: it takes what it sees. -/
theorem skipLongZeroRuns_hand {m t : Nat} {more : List Field} (hm : m ≤ 7) (ht : t < 3) :
    ∀ (j fuel : Nat) {n0 : Nat} {r : NcountReader}, src.length < r.ip + 6 →
      Begins r.bitStream (List.replicate j (0xFFFF, 16) ++ (List.replicate m (3, 2) ++ (t, 2) :: more)) → j < fuel →
        skipLongZeroRuns src fuel n0 r =
          (n0 + 24 * j, { r with bitStream := r.bitStream >>> (16 * j), bitCount := r.bitCount + 16 * j })
  | _, 0, _, _, _, _, hfuel => absurd hfuel (Nat.not_lt_zero _)
  | 0, fuel + 1, n0, r, _, hbegins, _ => by
    unfold skipLongZeroRuns
    rw [if_neg (pairs_ne hm ht hbegins)]
    rfl
  | j + 1, fuel + 1, n0, r, hend, hbegins, hfuel => by
    rw [List.replicate_succ, List.cons_append] at hbegins
    have hfull : r.bitStream % 2 ^ 16 = 0xFFFF := hbegins.head
    unfold skipLongZeroRuns
    rw [if_pos hfull, if_neg (by omega), skipLongZeroRuns_hand hm ht j fuel (r := { r with
      bitStream := r.bitStream >>> 16, bitCount := r.bitCount + 16 }) hend hbegins.tail (by omega)]
    simp only
    rw [← Nat.shiftRight_add, show 16 + 16 * j = 16 * (j + 1) by omega,
      show r.bitCount + 16 + 16 * j = r.bitCount + 16 * (j + 1) by omega,
        show n0 + 24 + 24 * j = n0 + 24 * (j + 1) by omega]

/-- The loop of the pairs takes the full ones. -/
theorem skipShortZeroRuns_hand {t : Nat} {more : List Field} (ht : t < 3) :
    ∀ (m fuel : Nat) {n0 : Nat} {r : NcountReader},
    Begins r.bitStream (List.replicate m (3, 2) ++ (t, 2) :: more) → m < fuel →
      skipShortZeroRuns fuel n0 r =
        (n0 + 3 * m, { r with bitStream := r.bitStream >>> (2 * m), bitCount := r.bitCount + 2 * m })
  | _, 0, _, _, _, hfuel => absurd hfuel (Nat.not_lt_zero _)
  | 0, fuel + 1, n0, r, hbegins, _ => by
    have hlast : r.bitStream % 4 = t := by
      have := @Begins.head _ more _ _ hbegins
      omega
    unfold skipShortZeroRuns
    rw [if_neg (by omega)]
    rfl
  | m + 1, fuel + 1, n0, r, hbegins, hfuel => by
    rw [List.replicate_succ, List.cons_append] at hbegins
    have hfull : r.bitStream % 4 = 3 := hbegins.head
    unfold skipShortZeroRuns
    rw [if_pos hfull, skipShortZeroRuns_hand ht m fuel (r := { r with
      bitStream := r.bitStream >>> 2, bitCount := r.bitCount + 2 }) hbegins.tail (by omega)]
    simp only
    rw [← Nat.shiftRight_add, show 2 + 2 * m = 2 * (m + 1) by omega,
      show r.bitCount + 2 + 2 * m = r.bitCount + 2 * (m + 1) by omega, show n0 + 3 + 3 * m = n0 + 3 * (m + 1) by omega]

/-- At bit `pos` of `len` bytes the group of a count behind `skipped` absent symbols is cut: the window comes
to stay at the byte before the last four, and what lies beyond it is not zero. -/
def Cut (len pos skipped : Nat) (fs : List Field) : Prop :=
  pos / 8 + 5 ≤ len ∧ (len - 5 - pos / 8) % 2 = 0 ∧ (len - 5 - pos / 8) / 2 ≤ skipped / 24 ∧
    2 ^ (8 * (len - 1) - pos) ≤ pack fs

instance (len pos skipped : Nat) (fs : List Field) : Decidable (Cut len pos skipped fs) :=
  inferInstanceAs (Decidable (_ ∧ _ ∧ _ ∧ _))

/-- The loop of the long runs as far as it moves the window: to the end of the runs, or near that of `src`. -/
theorem skipLongZeroRuns_reload : ∀ (j fuel : Nat) {n0 pos : Nat} {r : NcountReader}, r.Stands src pos →
    Begins (readLe src >>> pos) (List.replicate j (0xFFFF, 16) ++ fs) → pos + 16 * j ≤ 8 * src.length → j < fuel →
      ∃ i r1, i ≤ j ∧ skipLongZeroRuns src fuel n0 r = skipLongZeroRuns src (fuel - i) (n0 + 24 * i) r1 ∧
        r1.Stands src (pos + 16 * i) ∧ r1.ip = r.ip + 2 * i ∧ r1.bitCount = r.bitCount ∧
        (i = j ∧ r1.bitCount ≤ 7 ∧ r1.ip + 6 ≤ src.length ∨ src.length < r1.ip + 6) ∧
        r1 = { r with ip := r1.ip, bitStream := r1.bitStream }
  | _, 0, _, _, _, _, _, _, hfuel => absurd hfuel (Nat.not_lt_zero _)
  | 0, fuel + 1, n0, pos, r, h, _, _, _ => by
    refine ⟨0, r, le_refl 0, rfl, h, rfl, rfl, ?_, rfl⟩
    rcases h.fresh with hf | hf
    · by_cases hin : r.ip + 6 ≤ src.length
      · exact .inl ⟨rfl, hf, hin⟩
      · exact .inr (by omega)
    · exact .inr (by omega)
  | j + 1, fuel + 1, n0, pos, r, h, hbegins, hend, hfuel => by
    by_cases hin : r.ip + 6 ≤ src.length
    · have hfresh : r.bitCount ≤ 7 := by
        rcases h.fresh with hf | hf <;> omega
      have hp := h.position
      rw [List.replicate_succ, List.cons_append] at hbegins
      have hfull : r.bitStream % 2 ^ 16 = 0xFFFF := by
        rw [h.bits (by omega), Nat.mod_mod_of_dvd _ (pow_dvd_pow 2 (by omega))]
        exact hbegins.head
      have hnext : ({ r with ip := r.ip + 2, bitStream := readU32At src (r.ip + 2) >>> (r.bitCount % 32) } :
          NcountReader).Stands src (pos + 16) :=
        .load (by simp only; omega) (.inl hfresh) (fun _ => by simp only; rw [Nat.mod_eq_of_lt (by omega)])
          (by simp only; omega)
      have htail := hbegins.tail
      rw [← Nat.shiftRight_add] at htail
      obtain ⟨i, r1, hi, hloop, hr1, hip, hcount, hwhere, hsame⟩ := @skipLongZeroRuns_reload j fuel (n0 + 24) _ _ hnext
        htail (by omega) (by omega)
      refine ⟨i + 1, r1, by omega, ?_, ?_, by rw [hip]; simp only; omega, hcount, ?_, hsame⟩
      · conv_lhs => unfold skipLongZeroRuns
        rw [if_pos hfull, if_pos hin, hloop, show n0 + 24 + 24 * i = n0 + 24 * (i + 1) by omega,
          show fuel - i = fuel + 1 - (i + 1) by omega]
      · rwa [show pos + 16 * (i + 1) = pos + 16 + 16 * i by omega]
      · rcases hwhere with ⟨hi, hw⟩ | hw
        · exact .inl ⟨by omega, hw⟩
        · exact .inr hw
    · exact ⟨0, r, Nat.zero_le _, rfl, h, rfl, rfl, .inr (by omega), rfl⟩

/-- The fields of a run of absent symbols: the long runs, then the pairs. -/
theorem zeroRunFields_append (skipped : Nat) (more : List Field) : zeroRunFields skipped ++ more =
    List.replicate (skipped / 24) (0xFFFF, 16) ++
      (List.replicate (skipped % 24 / 3) (3, 2) ++ (skipped % 3, 2) :: more) := by
  unfold zeroRunFields
  simp

/-- Behind the long runs: the pairs, and a reload where one is possible. -/
theorem readZeroRun_pairs {m t n0 maxSymbolIndex : Nat} {r1 : NcountReader} {more : List Field}
    (hm : m < 32) (ht : t < 3) (hlong : skipLongZeroRuns src (src.length + 4) r.charnum r = (n0, r1))
    (hsame : r1 = { r with ip := r1.ip, bitStream := r1.bitStream, bitCount := r1.bitCount })
    (hbegins : Begins r1.bitStream (List.replicate m (3, 2) ++ (t, 2) :: more)) (hge : r.charnum ≤ n0) :
    readZeroRun src maxSymbolIndex r =
      if n0 + 3 * m + t > maxSymbolIndex then .error .maxSymbolValueTooSmall
      else if canReloadU32 src.length r1.ip (r1.bitCount + 2 * m + 2) then
        .ok { r with
          charnum := n0 + 3 * m + t, ip := r1.ip + (r1.bitCount + 2 * m + 2) / 8
          bitCount := (r1.bitCount + 2 * m + 2) % 8
          bitStream := readU32At src (r1.ip + (r1.bitCount + 2 * m + 2) / 8) >>> ((r1.bitCount + 2 * m + 2) % 8) }
      else
        .ok { r with
          charnum := n0 + 3 * m + t, ip := r1.ip, bitCount := r1.bitCount + 2 * m + 2
          bitStream := r1.bitStream >>> (2 * m) >>> 2 } := by
  have hlast : r1.bitStream >>> (2 * m) % 4 = t := by
    have hright := hbegins.right
    rw [width_replicate] at hright
    have := @Begins.head _ more _ _ hright
    omega
  have hchar : r1.charnum = r.charnum := by rw [hsame]
  unfold readZeroRun
  rw [hlong]
  simp only
  rw [skipShortZeroRuns_hand ht m 32 hbegins hm]
  simp only
  rw [hlast]
  by_cases hmax : n0 + 3 * m + t > maxSymbolIndex
  · rw [if_pos hmax, if_pos hmax]
  · rw [if_neg hmax, if_neg hmax, hchar, Nat.max_eq_right (by omega)]
    by_cases hload : canReloadU32 src.length r1.ip (r1.bitCount + 2 * m + 2) = true
    · rw [if_pos hload, if_pos hload, hsame]
    · rw [if_neg hload, if_neg hload, hsame]

/-- A run of absent symbols that is not cut is read as it was written, and the count behind it can be. -/
theorem readZeroRun_reads {skipped maxSymbolIndex : Nat} (h : r.Stands src pos) (hf : 1 ≤ f.2 ∧ f.2 ≤ 25)
    (hbegins : Begins (readLe src >>> pos) (zeroRunFields skipped ++ [f]))
    (hend : pos + width (zeroRunFields skipped) + f.2 ≤ 8 * src.length)
    (hcut : ¬ Cut src.length pos skipped (zeroRunFields skipped ++ [f]))
    (hchar : r.charnum + skipped ≤ maxSymbolIndex) :
    ∃ r', readZeroRun src maxSymbolIndex r = .ok r' ∧ 8 * r'.ip + r'.bitCount = pos + width (zeroRunFields skipped) ∧
      r'.ip + 4 ≤ src.length ∧ Begins r'.bitStream [f] ∧
      r' = { r with ip := r'.ip, bitStream := r'.bitStream, bitCount := r'.bitCount
                    charnum := r.charnum + skipped } := by
  have hfield := hbegins.right
  rw [← Nat.shiftRight_add] at hfield
  rw [width_zeroRunFields] at hend hfield ⊢
  rw [zeroRunFields_append] at hbegins hcut
  obtain ⟨i, r1, hi, hloop, hr1, hip, hcount, hwhere, hsame⟩ := @skipLongZeroRuns_reload _ _ (skipped / 24)
    (src.length + 4) r.charnum _ _ h hbegins (by omega) (by have := h.room; omega)
  -- what the window shows from there on
  have hrest : Begins (readLe src >>> (pos + 16 * i)) (List.replicate (skipped / 24 - i) (0xFFFF, 16) ++
      (List.replicate (skipped % 24 / 3) (3, 2) ++ [(skipped % 3, 2), f])) := by
    rw [show skipped / 24 = i + (skipped / 24 - i) by omega, ← List.replicate_append_replicate,
      List.append_assoc] at hbegins
    have := hbegins.right
    rwa [width_replicate, ← Nat.shiftRight_add] at this
  have hp := h.position
  have hp1 := hr1.position
  have hroom1 := hr1.room
  obtain ⟨r2, more, hlong2, hsame2, hp2, hip2, hbegins2, hmore⟩ : ∃ r2 more,
      skipLongZeroRuns src (src.length + 4) r.charnum r = (r.charnum + 24 * (skipped / 24), r2) ∧
      r2 = { r with ip := r2.ip, bitStream := r2.bitStream, bitCount := r2.bitCount } ∧
      8 * r2.ip + r2.bitCount = pos + 16 * (skipped / 24) ∧ r2.ip + 4 ≤ src.length ∧
      Begins r2.bitStream (List.replicate (skipped % 24 / 3) (3, 2) ++ (skipped % 3, 2) :: more) ∧
      (r2.bitCount ≤ 7 ∧ r2.ip + 6 ≤ src.length ∨ more = [f]) := by
    rcases hwhere with ⟨rfl, hfresh, hin⟩ | hnear
    · -- freshly loaded: the pairs are in the window
      rw [Nat.sub_self, List.replicate_zero, List.nil_append] at hrest
      have hpairs : Begins (readLe src >>> (pos + 16 * (skipped / 24)))
          (List.replicate (skipped % 24 / 3) (3, 2) ++ (skipped % 3, 2) :: []) :=
        Begins.left (b := [f]) (by simpa using hrest)
      have hshows := hr1.shows (by omega) hpairs (pack_lt_of_le (by
        simp only [width_append, width_replicate, width_cons, width_nil]
        omega))
      refine ⟨r1, [], ?_, by rw [hsame], hp1, hroom1, hshows, .inl ⟨hfresh, hin⟩⟩
      rw [hloop, show src.length + 4 - skipped / 24 = src.length + 3 - skipped / 24 + 1 by omega]
      unfold skipLongZeroRuns
      rw [if_neg (pairs_ne (by omega) (by omega) hshows)]
    · -- near the end: all of the group is in the window, or zero
      have hlt : pack (List.replicate (skipped / 24 - i) (0xFFFF, 16) ++
          (List.replicate (skipped % 24 / 3) (3, 2) ++ [(skipped % 3, 2), f])) < 2 ^ (32 - r1.bitCount) := by
        by_cases hlast : r1.ip + 4 = src.length
        · refine pack_lt_of_le ?_
          simp only [width_append, width_replicate, width_cons, width_nil]
          omega
        · have hfresh : r1.bitCount ≤ 7 := by
            rcases hr1.fresh with hw | hw <;> omega
          unfold Cut at hcut
          rw [show skipped / 24 = i + (skipped / 24 - i) by omega, ← List.replicate_append_replicate,
            List.append_assoc] at hcut
          have hnot := not_le.1 fun hbig => hcut ⟨by omega, by omega, by omega, hbig⟩
          rw [show 8 * (src.length - 1) - pos = width (List.replicate i ((0xFFFF, 16) : Field)) + (32 - r1.bitCount) by
            rw [width_replicate]; omega, pack_append_lt] at hnot
          exact hnot
      have hshows := hr1.shows (by omega) hrest hlt
      refine ⟨{ r1 with bitStream := r1.bitStream >>> (16 * (skipped / 24 - i))
                        bitCount := r1.bitCount + 16 * (skipped / 24 - i) }, [f],
                          ?_, by rw [hsame], by simp only; omega, hroom1, ?_, .inr rfl⟩
      · rw [hloop, skipLongZeroRuns_hand (by omega) (by omega) (skipped / 24 - i) _ hnear hshows (by omega),
          show r.charnum + 24 * i + 24 * (skipped / 24 - i) = r.charnum + 24 * (skipped / 24) by omega]
      have hright := hshows.right
      rwa [width_replicate] at hright
  have hn0 : r.charnum + 24 * (skipped / 24) + 3 * (skipped % 24 / 3) + skipped % 3 = r.charnum + skipped := by omega
  have heq := @readZeroRun_pairs _ _ _ _ _ maxSymbolIndex _ _ (by omega) (by omega) hlong2 hsame2 hbegins2 (by omega)
  rw [hn0, if_neg (by omega)] at heq
  by_cases hload : canReloadU32 src.length r2.ip (r2.bitCount + 2 * (skipped % 24 / 3) + 2) = true
  · rw [if_pos hload] at heq
    unfold canReloadU32 at hload
    rw [decide_eq_true_eq] at hload
    refine ⟨_, heq, by simp only; omega, by simp only; omega, ?_, rfl⟩
    have hs : ({ r with
        ip := r2.ip + (r2.bitCount + 2 * (skipped % 24 / 3) + 2) / 8
        bitCount := (r2.bitCount + 2 * (skipped % 24 / 3) + 2) % 8
        bitStream := readU32At src (r2.ip + (r2.bitCount + 2 * (skipped % 24 / 3) + 2) / 8) >>>
          ((r2.bitCount + 2 * (skipped % 24 / 3) + 2) % 8) } : NcountReader).Stands src
        (pos + (16 * (skipped / 24) + 2 * (skipped % 24 / 3) + 2)) :=
      .load (by simp only; omega) (.inl (by simp only; omega)) (fun _ => rfl) (by simp only; omega)
    exact hs.shows_field hfield hf (by omega)
  · rw [if_neg hload] at heq
    unfold canReloadU32 at hload
    rw [decide_eq_true_eq] at hload
    rcases hmore with ⟨hfresh, hin⟩ | rfl
    · omega
    · refine ⟨_, heq, by simp only; omega, hip2, ?_, rfl⟩
      have hright := hbegins2.right
      rw [width_replicate] at hright
      exact hright.tail

/-! ## Counts -/

/-- Where the reader is in the counts, `remaining` slots, plus one, being left. -/
structure NcountReader.Expects (r : NcountReader) (remaining : Nat) : Prop where
  remaining_eq : r.remaining = remaining
  remaining_pos : 1 ≤ remaining
  remaining_lt : remaining < 2 ^ 11
  threshold_eq : r.threshold = 2 ^ Nat.log2 remaining
  nbBits_eq : r.nbBits = Nat.log2 remaining + 1

/-- A count is read from its field. -/
theorem readCount_field {remaining : Nat} {count : Int} (h : r.Expects remaining) (hc : -1 ≤ count)
    (hlt : count.natAbs < remaining)
    (hbits : ∀ n ≤ (countField remaining count).2, r.bitStream % 2 ^ n = (countField remaining count).1 % 2 ^ n) :
    readCount r = (count + 1, (countField remaining count).2) := by
  obtain ⟨hlow, hup⟩ := NcountWriter.log2_bounds h.remaining_pos
  obtain ⟨c, hcount⟩ : ∃ c : Nat, count + 1 = c := ⟨(count + 1).toNat, by omega⟩
  have hfst : (countField remaining count).1 =
      if c ≥ 2 ^ Nat.log2 remaining then c + (2 * 2 ^ Nat.log2 remaining - 1 - remaining) else c := by
    unfold countField
    rw [hcount, Int.toNat_natCast]
  have hsnd : (countField remaining count).2 =
      if (countField remaining count).1 < 2 * 2 ^ Nat.log2 remaining - 1 - remaining then Nat.log2 remaining
      else Nat.log2 remaining + 1 := rfl
  unfold readCount
  rw [h.remaining_eq, h.threshold_eq, h.nbBits_eq, hcount]
  generalize countField remaining count = field at *
  obtain ⟨value, width⟩ := field
  simp only at hfst hsnd hbits ⊢
  rw [pow_succ] at hup
  have hsmall := hbits (Nat.log2 remaining) (by rw [hsnd]; split <;> omega)
  have hmax : (2 * ((2 ^ Nat.log2 remaining : Nat) : Int) - 1 - (remaining : Int)) =
      ((2 * 2 ^ Nat.log2 remaining - 1 - remaining : Nat) : Int) := by omega
  rw [hmax, hsmall]
  have htwo : 2 * 2 ^ Nat.log2 remaining = 2 ^ (Nat.log2 remaining + 1) := by rw [pow_succ, Nat.mul_comm]
  by_cases hshort : value < 2 * 2 ^ Nat.log2 remaining - 1 - remaining
  · -- a short field holds the count itself
    rw [if_pos hshort] at hsnd
    have hvalue : value = c := by
      rw [hfst] at hshort ⊢
      split at hshort <;> rename_i hbig
      · omega
      · rw [if_neg hbig]
    rw [Nat.mod_eq_of_lt (by omega), if_pos (by exact_mod_cast hshort), hvalue, hsnd]
    rfl
  · rw [if_neg hshort] at hsnd
    have hlong := hbits (Nat.log2 remaining + 1) hsnd.ge
    rw [← htwo] at hlong
    rw [hlong, hsnd]
    by_cases hbig : c ≥ 2 ^ Nat.log2 remaining
    · rw [if_pos hbig] at hfst
      have hmod : value % 2 ^ Nat.log2 remaining = value - 2 ^ Nat.log2 remaining := by
        rw [Nat.mod_eq_sub_mod (by omega), Nat.mod_eq_of_lt (by omega)]
      rw [hmod, Nat.mod_eq_of_lt (by omega), if_neg (by omega), if_pos (by omega)]
      congr 1
      omega
    · rw [if_neg hbig] at hfst
      rw [Nat.mod_eq_of_lt (show value < 2 ^ Nat.log2 remaining by omega), Nat.mod_eq_of_lt (by omega),
        if_neg (by omega), if_neg (by omega), hfst]

theorem lowerThreshold_eq : ∀ (fuel k : Nat) {r : NcountReader} {remaining : Nat}, k < fuel → r.threshold = 2 ^ k →
    r.nbBits = k + 1 → r.remaining = remaining → 1 ≤ remaining → remaining < 2 ^ (k + 1) →
      lowerThreshold fuel r = { r with nbBits := Nat.log2 remaining + 1, threshold := 2 ^ Nat.log2 remaining }
  | 0, _, _, _, hk, _, _, _, _, _ => absurd hk (Nat.not_lt_zero _)
  | fuel + 1, k, r, remaining, hk, ht, hnb, hrem, hpos, hlt => by
    unfold lowerThreshold
    by_cases hlow : r.remaining < r.threshold
    · rw [if_pos hlow]
      rw [hrem, ht] at hlow
      have hlow : remaining < 2 ^ k := by exact_mod_cast hlow
      cases k with
      | zero =>
        simp only [pow_zero] at hlow
        omega
      | succ k =>
        have hdiv : r.threshold / 2 = 2 ^ k := by
          rw [ht, pow_succ]
          exact Nat.mul_div_cancel _ (by norm_num)
        exact lowerThreshold_eq fuel k (r := { r with nbBits := r.nbBits - 1, threshold := r.threshold / 2 }) (by omega)
          hdiv (by simp only; omega) hrem hpos hlow
    · rw [if_neg hlow]
      rw [hrem, ht] at hlow
      have hlow : 2 ^ k ≤ remaining := by exact_mod_cast not_lt.1 hlow
      have hlog : Nat.log2 remaining = k := (Nat.log2_eq_iff (by omega)).2 ⟨hlow, hlt⟩
      rw [hlog, ← ht, ← hnb]

/-- One count of the reader, from a window that shows its field. -/
theorem readSymbolCount_reads {remaining : Nat} {count : Int} (hpos : 8 * r.ip + r.bitCount = pos)
    (hroom : r.ip + 4 ≤ src.length) (hshows : Begins r.bitStream [countField remaining count])
    (hend : pos + (countField remaining count).2 ≤ 8 * src.length) (h : r.Expects remaining) (hc : -1 ≤ count)
    (hlt : count.natAbs < remaining) :
    (readSymbolCount src r).Stands src (pos + (countField remaining count).2) ∧
      (readSymbolCount src r).Expects (remaining - count.natAbs) ∧
      (readSymbolCount src r).normalizedCounter = r.normalizedCounter.set r.charnum count ∧
      (readSymbolCount src r).charnum = r.charnum + 1 ∧ (readSymbolCount src r).previous0 = decide (count = 0) := by
  have hlog := NcountWriter.log2_le_ten h.remaining_pos h.remaining_lt
  have hhead : r.bitStream % 2 ^ (countField remaining count).2 =
      (countField remaining count).1 % 2 ^ (countField remaining count).2 := Begins.head hshows
  have hread := readCount_field h hc hlt fun n hn => by
    rw [← Nat.mod_mod_of_dvd r.bitStream (pow_dvd_pow 2 hn), hhead, Nat.mod_mod_of_dvd _ (pow_dvd_pow 2 hn)]
  have hlower := @lowerThreshold_eq 32 (Nat.log2 remaining) { r with
    bitCount := r.bitCount + (countField remaining count).2, remaining := r.remaining - |count|
    normalizedCounter := r.normalizedCounter.set r.charnum count, charnum := r.charnum + 1
    previous0 := decide (count = 0) } (remaining - count.natAbs) (by omega) h.threshold_eq h.nbBits_eq
    (by simp only; rw [h.remaining_eq, Int.abs_eq_natAbs]; omega) (by omega)
    (by have := (NcountWriter.log2_bounds h.remaining_pos).2; omega)
  have hexpects : ((remaining - count.natAbs : Nat) : Int) = r.remaining - |count| := by
    rw [h.remaining_eq, Int.abs_eq_natAbs]
    omega
  have hlt11 := h.remaining_lt
  unfold readSymbolCount
  rw [hread]
  dsimp only
  rw [add_sub_cancel_right, hlower]
  dsimp only
  by_cases hload : canReloadU32 src.length r.ip (r.bitCount + (countField remaining count).2) = true
  · rw [if_pos hload]
    unfold canReloadU32 at hload
    rw [decide_eq_true_eq] at hload
    refine ⟨.load (by simp only; omega) (.inl (by simp only; omega)) (fun _ => ?_) (by simp only; omega),
      ⟨hexpects.symm, by omega, by omega, rfl, rfl⟩, rfl, rfl, rfl⟩
    simp only
    rw [Nat.mod_eq_of_lt (by omega : (r.bitCount + (countField remaining count).2) % 8 < 32)]
  · rw [if_neg hload]
    unfold canReloadU32 at hload
    rw [decide_eq_true_eq] at hload
    refine ⟨.load (by simp only; omega) (.inr (by simp only; omega)) (fun hmore => ?_) (by simp only; omega),
      ⟨hexpects.symm, by omega, by omega, rfl, rfl⟩, rfl, rfl, rfl⟩
    simp only
    rw [Nat.mod_eq_of_lt (by omega : r.bitCount + (countField remaining count).2 - 8 * (src.length - 4 - r.ip) < 32)]

end

/-! ## The whole header -/

theorem set_next {done : List Int} {z : Nat} (skipped : Nat) (count : Int) (h : skipped < z) :
    (done ++ List.replicate z 0).set (done.length + skipped) count =
      (done ++ (List.replicate skipped 0 ++ [count])) ++ List.replicate (z - skipped - 1) 0 := by
  have hz : List.replicate z (0 : Int) = List.replicate skipped 0 ++ 0 :: List.replicate (z - skipped - 1) 0 := by
    rw [← List.replicate_succ, List.replicate_append_replicate]
    congr 1
    omega
  rw [List.set_append, if_neg (by omega), Nat.add_sub_cancel_left, hz, List.set_append,
    if_neg (by rw [List.length_replicate]; omega), List.length_replicate, Nat.sub_self, List.set_cons_zero]
  simp

/-- Some group of a header is cut, the first being at bit `pos` of `len` bytes. -/
def CutAt (len : Nat) : Nat → List (Nat × List Field) → Prop
  | _, [] => False
  | pos, (skipped, fs) :: groups => Cut len pos skipped fs ∨ CutAt len (pos + width fs) groups

instance CutAt.decidable (len : Nat) : ∀ (pos : Nat) (groups : List (Nat × List Field)),
    Decidable (CutAt len pos groups)
  | _, [] => inferInstanceAs (Decidable False)
  | pos, (skipped, fs) :: groups =>
    have := CutAt.decidable len (pos + width fs) groups
    inferInstanceAs (Decidable (Cut len pos skipped fs ∨ CutAt len (pos + width fs) groups))

/-- A group that is not cut is read: the run of absent symbols, if one is due, and the count. -/
theorem readGroup_reads {src : Bytes} {maxSymbolIndex remaining skipped pos z : Nat} {count : Int} {r : NcountReader}
    {done : List Int} (hstands : r.Stands src pos) (hexpects : r.Expects remaining) (hmore : 1 < remaining)
    (hc : -1 ≤ count) (hlt : count.natAbs < remaining) (hnone : r.previous0 = false → skipped = 0)
    (hbegins : Begins (readLe src >>> pos)
      ((if r.previous0 then zeroRunFields skipped else []) ++ [countField remaining count]))
    (hend : pos + width ((if r.previous0 then zeroRunFields skipped else []) ++ [countField remaining count]) ≤
      8 * src.length)
    (hcut : ¬ Cut src.length pos skipped
      ((if r.previous0 then zeroRunFields skipped else []) ++ [countField remaining count]))
    (hcounter : r.normalizedCounter = done ++ List.replicate z 0) (hchar : r.charnum = done.length) (hz : skipped < z)
    (hmax : r.charnum + skipped ≤ maxSymbolIndex) :
    ∃ r1, (if r.previous0 then readZeroRun src maxSymbolIndex r else .ok r) = .ok r1 ∧
      (readSymbolCount src r1).Stands src
        (pos + width ((if r.previous0 then zeroRunFields skipped else []) ++ [countField remaining count])) ∧
      (readSymbolCount src r1).Expects (remaining - count.natAbs) ∧
      (readSymbolCount src r1).normalizedCounter =
        (done ++ (List.replicate skipped 0 ++ [count])) ++ List.replicate (z - skipped - 1) 0 ∧
      (readSymbolCount src r1).charnum = done.length + skipped + 1 ∧
      (readSymbolCount src r1).previous0 = decide (count = 0) := by
  have hfield := NcountWriter.countField_width hmore hexpects.remaining_lt count
  rw [width_append, width_cons, width_nil, Nat.add_zero] at hend ⊢
  -- the reader in front of the count
  obtain ⟨r1, h1, hpos1, hroom1, hshows1, hsame1⟩ : ∃ r1,
      (if r.previous0 then readZeroRun src maxSymbolIndex r else .ok r) = .ok r1 ∧
        8 * r1.ip + r1.bitCount = pos + width (if r.previous0 then zeroRunFields skipped else []) ∧
        r1.ip + 4 ≤ src.length ∧ Begins r1.bitStream [countField remaining count] ∧
        r1 = { r with ip := r1.ip, bitStream := r1.bitStream, bitCount := r1.bitCount
                      charnum := r.charnum + skipped } := by
    by_cases hrun : r.previous0 = true
    · rw [if_pos hrun] at hbegins hend hcut ⊢
      rw [if_pos hrun]
      exact readZeroRun_reads hstands (by omega) hbegins (by omega) hcut hmax
    · have hzero := hnone (Bool.eq_false_iff.2 hrun)
      rw [if_neg hrun] at hbegins hend
      rw [width_nil] at hend
      rw [if_neg hrun, if_neg hrun, hzero]
      exact ⟨r, rfl, hstands.position, hstands.room, hstands.shows_field hbegins (by omega) (by omega), rfl⟩
  have hexpects1 : r1.Expects remaining := by
    rw [hsame1]
    exact ⟨hexpects.remaining_eq, hexpects.remaining_pos, hexpects.remaining_lt, hexpects.threshold_eq,
      hexpects.nbBits_eq⟩
  have hchar1 : r1.charnum = done.length + skipped := by
    rw [hsame1]
    simp only
    rw [hchar]
  have hcounter1 : r1.normalizedCounter = done ++ List.replicate z 0 := by
    rw [hsame1]
    exact hcounter
  obtain ⟨hstands2, hexpects2, hcounter2, hchar2, hprev2⟩ :=
    readSymbolCount_reads hpos1 hroom1 hshows1 (by omega) hexpects1 hc hlt
  rw [hcounter1, hchar1, set_next skipped count (by omega)] at hcounter2
  exact ⟨r1, h1, by rwa [← Nat.add_assoc], hexpects2, hcounter2, by rw [hchar2, hchar1], hprev2⟩

/-- The loop of the reader takes a header down that is not cut. -/
theorem readCounts_header {src : Bytes} {maxSymbolIndex : Nat} {remaining : Nat} {previousIsZero : Bool}
    {used : List Int} {fs : List Field} (h : Header remaining previousIsZero used fs) :
    ∀ {fuel z pos : Nat} {r : NcountReader} {done : List Int}, r.Stands src pos → r.Expects remaining →
      r.previous0 = previousIsZero → Begins (readLe src >>> pos) fs → pos + width fs ≤ 8 * src.length →
      ¬ CutAt src.length pos (headerGroups remaining (if previousIsZero then some 0 else none) used) →
      r.normalizedCounter = done ++ List.replicate z 0 → r.charnum = done.length → used.length ≤ z →
      r.charnum + used.length ≤ maxSymbolIndex + 1 → used.length ≤ fuel →
        ∃ r', readCounts src maxSymbolIndex fuel r = .ok r' ∧ 8 * r'.ip + r'.bitCount = pos + width fs ∧
          (r'.bitCount ≤ 7 ∨ r'.ip + 4 = src.length) ∧ r'.remaining = 1 ∧
          r'.normalizedCounter = done ++ used ++ List.replicate (z - used.length) 0 ∧
          r'.charnum = done.length + used.length := by
  induction h with
  | done =>
    intro fuel z pos r done hstands hexpects _ _ _ _ hcounter hchar _ _ _
    refine ⟨r, ?_, by simpa using hstands.position, hstands.fresh, hexpects.remaining_eq, by simpa using hcounter,
      by simpa using hchar⟩
    cases fuel with
    | zero => rfl
    | succ fuel =>
      unfold readCounts
      rw [if_neg (by rw [hexpects.remaining_eq]; norm_num)]
  | @count remaining skipped previousIsZero count counts fs hmore hc hlt hnone hcounted _ ih =>
    intro fuel z pos r done hstands hexpects hprev hbegins hend hcut hcounter hchar hz hmax hfuel
    simp only [List.length_append, List.length_replicate, List.length_cons] at hz hmax hfuel
    obtain ⟨fuel, rfl⟩ : ∃ n, fuel = n + 1 := ⟨fuel - 1, by omega⟩
    subst hprev
    have hgo : r.remaining > 1 ∧ r.charnum ≤ maxSymbolIndex := by
      rw [hexpects.remaining_eq]
      exact ⟨by exact_mod_cast hmore, by omega⟩
    rw [headerGroups_count hnone hcounted] at hcut
    unfold CutAt at hcut
    rw [not_or] at hcut
    have hsplit : (if r.previous0 then zeroRunFields skipped else []) ++ countField remaining count :: fs =
        ((if r.previous0 then zeroRunFields skipped else []) ++ [countField remaining count]) ++ fs := by simp
    rw [hsplit] at hbegins hend ⊢
    rw [width_append] at hend ⊢
    obtain ⟨r1, h1, hstands2, hexpects2, hcounter2, hchar2, hprev2⟩ :=
      readGroup_reads hstands hexpects hmore hc hlt hnone
      hbegins.left (by omega) hcut.1 hcounter hchar (by omega) (show r.charnum + skipped ≤ maxSymbolIndex by omega)
    have hbegins2 := hbegins.right
    rw [← Nat.shiftRight_add] at hbegins2
    obtain ⟨r', hread, hpos', hfresh', hone, hcounter', hchar'⟩ := ih hstands2 hexpects2 hprev2 hbegins2 (by omega)
      hcut.2 hcounter2 (by rw [hchar2]; simp; omega) (by omega) (by rw [hchar2]; omega)
        (show counts.length ≤ fuel by omega)
    refine ⟨r', ?_, by rw [hpos']; omega, hfresh', hone, ?_, ?_⟩
    · unfold readCounts
      rw [if_pos hgo, h1, ok_bind, hread]
    · rw [hcounter', show z - skipped - 1 - counts.length = z - (skipped + (counts.length + 1)) by omega]
      simp only [List.append_assoc, List.cons_append, List.nil_append, List.length_append, List.length_replicate,
        List.length_cons]
    · rw [hchar']
      simp only [List.length_append, List.length_replicate, List.length_cons, List.length_nil]
      omega

/-- A header with room behind it is not cut. -/
theorem not_cutAt {len : Nat} : ∀ {groups : List (Nat × List Field)} {pos : Nat},
    pos + width (groups.flatMap Prod.snd) ≤ 8 * (len - 1) → ¬ CutAt len pos groups
  | [], _, _ => id
  | (skipped, fs) :: groups, pos, hroom => by
    rw [List.flatMap_cons, width_append] at hroom
    simp only at hroom
    unfold CutAt
    rw [not_or]
    constructor
    · rintro ⟨-, -, -, hbig⟩
      have hlt := pack_lt_of_le (show width fs ≤ 8 * (len - 1) - pos by omega)
      omega
    · exact not_cutAt (by omega)

/-- The reader in front of the first count. -/
theorem start_stands {src : Bytes} {tableLog counterLen : Nat} (hlen : 4 ≤ src.length)
    (hlog : minTablelog ≤ tableLog ∧ tableLog ≤ tablelogMax) {r : NcountReader} (hr : r = {
      ip := 0, bitStream := readU32At src 0 >>> 4, bitCount := 4, remaining := 2 ^ tableLog + 1
      threshold := 2 ^ tableLog, nbBits := tableLog + 1, charnum := 0, previous0 := false
      normalizedCounter := List.replicate counterLen 0 }) : r.Stands src 4 ∧ r.Expects (2 ^ tableLog + 1) := by
  have hpow : 2 ^ tableLog ≤ 2 ^ 9 := Nat.pow_le_pow_right (by norm_num) hlog.2
  have hpos : 0 < 2 ^ tableLog := by positivity
  have hlog2 : Nat.log2 (2 ^ tableLog + 1) = tableLog :=
    (Nat.log2_eq_iff (by omega)).2 ⟨by omega, by
      have : 2 ^ 1 ≤ 2 ^ tableLog := Nat.pow_le_pow_right (by norm_num) (by unfold minTablelog at hlog; omega)
      rw [pow_succ]
      omega⟩
  subst hr
  exact ⟨.load hlen (.inl (by norm_num)) (fun _ => rfl) rfl, by push_cast; rfl, by omega, by omega,
    by simp only; rw [hlog2], by simp only; rw [hlog2]⟩

/-- The table log is in front of the counts. -/
theorem readTableLog {src : Bytes} {tableLog : Nat} {fs : List Field}
    (hlog : minTablelog ≤ tableLog ∧ tableLog ≤ tablelogMax)
    (hbegins : Begins (readLe src) ((tableLog - minTablelog, 4) :: fs)) :
      readU32At src 0 % 16 + minTablelog = tableLog := by
  have hlow : tableLog - minTablelog < 2 ^ 4 := by
    unfold minTablelog tablelogMax at *
    omega
  have hword : readU32At src 0 = readLe src % 2 ^ 32 := by
    have := @readU32At_shift src 0 0 (by omega)
    simpa using this
  have := hbegins.head
  rw [hword, show (16 : Nat) = 2 ^ 4 by rfl, Nat.mod_mod_of_dvd _ (pow_dvd_pow 2 (by norm_num)), this,
    Nat.mod_eq_of_lt hlow, Nat.sub_add_cancel hlog.1]

/-- A payload that begins with a header that is not cut is read. -/
theorem readNcountPadded_header {src : Bytes} {counterLen maxSymbolIndex maxTableLog tableLog : Nat} {used : List Int}
    {fs : List Field} (hlog : minTablelog ≤ tableLog ∧ tableLog ≤ tablelogMax) (hmaxLog : tableLog ≤ maxTableLog)
    (h : Header (2 ^ tableLog + 1) false used fs)
    (hbegins : Begins (readLe src) ((tableLog - minTablelog, 4) :: fs)) (hlen : 4 ≤ src.length)
    (hend : width ((tableLog - minTablelog, 4) :: fs) ≤ 8 * src.length)
    (hcut : ¬ CutAt src.length 4 (headerGroups (2 ^ tableLog + 1) none used)) (hused : used.length ≤ counterLen)
    (hmax : used.length ≤ maxSymbolIndex + 1) :
    readNcountPadded src counterLen maxSymbolIndex maxTableLog = .ok {
      normalizedCounter := used ++ List.replicate (counterLen - used.length) 0, maxSymbolValue := used.length - 1
      tableLog, size := (width ((tableLog - minTablelog, 4) :: fs) + 7) / 8 } := by
  rw [width_cons] at hend ⊢
  obtain ⟨hstands, hexpects⟩ := @start_stands src tableLog counterLen hlen hlog _ rfl
  obtain ⟨r', hread, hposition, hfresh, hone, hcounter, hchar⟩ := @readCounts_header _ maxSymbolIndex _ _ _ _ h
    (maxSymbolIndex + 1) _ _ _ [] hstands hexpects rfl hbegins.tail (by omega) hcut rfl rfl hused
    (by simp only; omega) (by omega)
  unfold readNcountPadded
  simp only
  rw [readTableLog hlog hbegins, if_neg (by omega), hread, ok_bind,
    if_neg (by rw [not_or, not_not]; exact ⟨hone, by rcases hfresh with hf | hf <;> omega⟩), hcounter, hchar]
  simp only [List.length_nil, Nat.zero_add, List.nil_append]
  congr 2
  omega

/-- What is read is a payload of at least four bytes: the header's, what follows it and zeros. -/
def paddedLength (size more : Nat) : Nat := max 4 (size + more)

/-- The header that `write_ncount` writes, and anything behind it. -/
theorem written_begins {dst out : Bytes} {normalizedCounter : List Int} {maxSymbolValue tableLog size : Nat}
    (hn : Normalized normalizedCounter maxSymbolValue tableLog) (hlast : normalizedCounter.getD maxSymbolValue 0 ≠ 0)
    (hwrite : writeNcount dst normalizedCounter maxSymbolValue tableLog = .ok (size, out)) :
    (out.take size).length = size ∧ size = (width (headerFields normalizedCounter maxSymbolValue tableLog) + 7) / 8 ∧
    ∀ more, Begins (readLe (out.take size ++ more)) (headerFields normalizedCounter maxSymbolValue tableLog) := by
  obtain ⟨_, _, used, zeros, fs, hsplit, hzeros, hheader, hle, hsize, -, hread⟩ := writeNcount_header hn hwrite
  have hnil := used_all hn hlast hsplit hzeros
  rw [hnil, List.append_nil] at hsplit
  have hfields : (tableLog - minTablelog, 4) :: fs = headerFields normalizedCounter maxSymbolValue tableLog := by
    rw [hheader.fields, ← hsplit]
    rfl
  rw [hfields] at hsize hread
  have htake : (out.take size).length = size := by
    rw [List.length_take]
    omega
  refine ⟨htake, hsize, fun more => ?_⟩
  rw [readLe_append, htake, hread, pow_256]
  have hhigh : 2 ^ (8 * size) * readLe more = 2 ^ width (headerFields normalizedCounter maxSymbolValue tableLog) *
      (2 ^ (8 * size - width (headerFields normalizedCounter maxSymbolValue tableLog)) * readLe more) := by
    rw [← Nat.mul_assoc, ← pow_add]
    congr 2
    omega
  rw [hhigh]
  exact Begins.pack _ _

/-- `read_ncount` on what was written and anything behind it, in terms of the padded payload. -/
theorem readNcount_padded {written payload : Bytes} {counterLen maxSymbol maxTableLog : Nat}
    (hcounter : maxSymbol < counterLen) (hmax : maxSymbol ≤ symbolvalueMax) (hmaxLog : maxTableLog ≤ tablelogMax) :
    ∃ more, (written ++ payload ++ more).length = paddedLength written.length payload.length ∧
      readNcount (written ++ payload) counterLen maxSymbol maxTableLog =
        match readNcountPadded (written ++ (payload ++ more)) counterLen maxSymbol maxTableLog with
        | .ok n => if n.size > written.length + payload.length ∧ written.length + payload.length < 4 then
            .error (.corruption "truncated FSE ncount") else .ok n
        | .error e => .error e := by
  unfold readNcount paddedLength
  rw [if_neg (by omega), if_neg (by omega)]
  by_cases hshort : (written ++ payload).length < 4
  · refine ⟨List.replicate (4 - (written ++ payload).length) 0, ?_, ?_⟩
    · rw [List.length_append, List.length_replicate]
      rw [List.length_append] at hshort ⊢
      omega
    · rw [if_pos hshort, List.append_assoc, List.length_append]
      rw [List.length_append] at hshort
      cases readNcountPadded (written ++ (payload ++ List.replicate (4 - (written.length + payload.length)) 0))
        counterLen maxSymbol maxTableLog with
      | error e => rfl
      | ok n =>
        simp only [ok_bind, and_iff_left hshort]
  · refine ⟨[], ?_, ?_⟩
    · rw [List.append_nil]
      rw [List.length_append] at hshort ⊢
      omega
    · rw [if_neg hshort, List.append_nil]
      rw [List.length_append] at hshort
      cases readNcountPadded (written ++ payload) counterLen maxSymbol maxTableLog with
      | error e => rfl
      | ok n =>
        simp only
        rw [if_neg (by omega)]

/-- The header that `write_ncount` writes is read back, unless it is cut. -/
theorem readNcount_writeNcount_of_not_cut {dst out payload : Bytes} {normalizedCounter : List Int}
    {maxSymbolValue tableLog size counterLen maxSymbol maxTableLog : Nat}
    (hn : Normalized normalizedCounter maxSymbolValue tableLog) (hlast : normalizedCounter.getD maxSymbolValue 0 ≠ 0)
    (hwrite : writeNcount dst normalizedCounter maxSymbolValue tableLog = .ok (size, out))
    (hcut : ¬ CutAt (paddedLength size payload.length) 4 (countGroups normalizedCounter maxSymbolValue tableLog))
    (hsymbol : maxSymbolValue ≤ maxSymbol) (hcounter : maxSymbol < counterLen) (hmax : maxSymbol ≤ symbolvalueMax)
    (hlog : tableLog ≤ maxTableLog) (hmaxLog : maxTableLog ≤ tablelogMax) :
    readNcount (out.take size ++ payload) counterLen maxSymbol maxTableLog = .ok {
      normalizedCounter := normalizedCounter.take (maxSymbolValue + 1) ++
        List.replicate (counterLen - (maxSymbolValue + 1)) 0
      maxSymbolValue, tableLog, size } := by
  obtain ⟨hlow, hup, -⟩ := writeNcount_header hn hwrite
  obtain ⟨htake, hsize, hbegins⟩ := written_begins hn hlast hwrite
  obtain ⟨more, hlen, heq⟩ := @readNcount_padded (out.take size) payload counterLen maxSymbol maxTableLog
    hcounter hmax hmaxLog
  rw [htake, List.append_assoc] at hlen
  have hal := hn.alphabet
  have hused : (normalizedCounter.take (maxSymbolValue + 1)).length = maxSymbolValue + 1 := by
    rw [List.length_take]
    omega
  have hge : size ≤ paddedLength size payload.length ∧ 4 ≤ paddedLength size payload.length := by
    unfold paddedLength
    omega
  have hread := @readNcountPadded_header _ counterLen maxSymbol _ _ _ _ ⟨hlow, hup⟩ hlog
    (hn.header hlast) (hbegins (payload ++ more)) (by omega) (by
      rw [hlen]
      unfold headerFields at hsize
      omega) (by rw [hlen]; exact hcut) (by omega) (by omega)
  rw [heq, hread]
  simp only
  rw [if_neg (by unfold headerFields at hsize; omega), hused]
  congr 2
  exact hsize.symm

/-- The header that `write_ncount` writes is read back, when a payload follows it. -/
theorem readNcount_writeNcount {dst out payload : Bytes} {normalizedCounter : List Int}
    {maxSymbolValue tableLog size counterLen maxSymbol maxTableLog : Nat}
    (hn : Normalized normalizedCounter maxSymbolValue tableLog) (hlast : normalizedCounter.getD maxSymbolValue 0 ≠ 0)
    (hwrite : writeNcount dst normalizedCounter maxSymbolValue tableLog = .ok (size, out)) (hpayload : payload ≠ [])
    (hsymbol : maxSymbolValue ≤ maxSymbol) (hcounter : maxSymbol < counterLen) (hmax : maxSymbol ≤ symbolvalueMax)
    (hlog : tableLog ≤ maxTableLog) (hmaxLog : maxTableLog ≤ tablelogMax) :
    readNcount (out.take size ++ payload) counterLen maxSymbol maxTableLog = .ok {
      normalizedCounter := normalizedCounter.take (maxSymbolValue + 1) ++
        List.replicate (counterLen - (maxSymbolValue + 1)) 0
      maxSymbolValue, tableLog, size } := by
  refine readNcount_writeNcount_of_not_cut hn hlast hwrite (not_cutAt ?_) hsymbol hcounter hmax hlog hmaxLog
  obtain ⟨-, hsize, -⟩ := written_begins hn hlast hwrite
  have hpos := List.length_pos_iff.2 hpayload
  unfold headerFields at hsize
  rw [width_cons] at hsize
  unfold paddedLength
  omega

end Fse

end Zstandard
