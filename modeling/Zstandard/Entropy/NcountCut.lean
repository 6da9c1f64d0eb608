/-
A header that is cut is not read back.

Where the window stays behind, the reader takes the run and the count from what it shows, with zeros behind.
Runs and counts can be told from their fields, so if it came to the same counts the fields would be in the
window. This gives the exact condition for a header to be read back, and with the room of the writer that for
a distribution to survive.
-/
import Zstandard.Entropy.NcountRoundtrip

namespace Zstandard

namespace Fse

open BitStack

/-! ## What any stream begins with -/

theorem longRuns_exists : ∀ (n : Nat) {stream : Nat}, stream < 2 ^ (16 * n) →
    ∃ j ≤ n, Begins stream (List.replicate j (0xFFFF, 16)) ∧ stream >>> (16 * j) % 2 ^ 16 ≠ 0xFFFF
  | 0, stream, h => by
    have h0 : stream = 0 := by simpa using h
    subst h0
    exact ⟨0, le_refl 0, by simp [Begins], by norm_num⟩
  | n + 1, stream, h => by
    by_cases hfull : stream % 2 ^ 16 = 0xFFFF
    · obtain ⟨j, hj, hbegins, hnot⟩ := @longRuns_exists n (stream >>> 16) (by
        rw [Nat.shiftRight_eq_div_pow, Nat.div_lt_iff_lt_mul (by positivity), ← pow_add]
        rwa [show 16 * n + 16 = 16 * (n + 1) by omega])
      refine ⟨j + 1, by omega, ?_, ?_⟩
      · rw [List.replicate_succ, ← List.singleton_append]
        exact Begins.append (by simpa [Begins, pack] using hfull) hbegins
      · rwa [← Nat.shiftRight_add, show 16 + 16 * j = 16 * (j + 1) by omega] at hnot
    · exact ⟨0, Nat.zero_le _, by simp [Begins, Nat.mod_one], by simpa using hfull⟩

theorem pairs_exists : ∀ (n : Nat) {stream : Nat}, stream % 2 ^ (2 * n) + 1 ≠ 2 ^ (2 * n) →
    ∃ m < n, Begins stream (List.replicate m (3, 2)) ∧ stream >>> (2 * m) % 4 < 3
  | 0, stream, h => by
    exact absurd h (by simp [Nat.mod_one])
  | n + 1, stream, h => by
    by_cases hfull : stream % 4 = 3
    · obtain ⟨m, hm, hbegins, hlast⟩ := @pairs_exists n (stream >>> 2) (by
        intro hones
        apply h
        rw [show 2 * (n + 1) = 2 + 2 * n by omega, pow_add, Nat.mod_mul, show (2 : Nat) ^ 2 = 4 by rfl, hfull]
        rw [Nat.shiftRight_eq_div_pow, show (2 : Nat) ^ 2 = 4 by rfl] at hones
        omega)
      refine ⟨m + 1, by omega, ?_, ?_⟩
      · rw [List.replicate_succ, ← List.singleton_append]
        exact Begins.append (by simpa [Begins, pack] using hfull) hbegins
      · rwa [← Nat.shiftRight_add, show 2 + 2 * m = 2 * (m + 1) by omega] at hlast
    · exact ⟨0, by omega, by simp [Begins, Nat.mod_one], by simp only [Nat.mul_zero, Nat.shiftRight_zero]; omega⟩

/-- Some run of absent symbols is at the head of any window. -/
theorem zeroRun_exists {stream : Nat} (h : stream < 2 ^ 32) : ∃ skipped, Begins stream (zeroRunFields skipped) := by
  obtain ⟨j, _, hlong, hnot⟩ := longRuns_exists 2 h
  obtain ⟨m, hm, hpairs, hlast⟩ := @pairs_exists 8 (stream >>> (16 * j)) (by omega)
  refine ⟨24 * j + 3 * m + stream >>> (16 * j) >>> (2 * m) % 4, ?_⟩
  unfold zeroRunFields
  rw [show (24 * j + 3 * m + stream >>> (16 * j) >>> (2 * m) % 4) / 24 = j by omega,
    show (24 * j + 3 * m + stream >>> (16 * j) >>> (2 * m) % 4) % 24 / 3 = m by omega,
    show (24 * j + 3 * m + stream >>> (16 * j) >>> (2 * m) % 4) % 3 = stream >>> (16 * j) >>> (2 * m) % 4 by omega]
  refine hlong.append ?_
  rw [width_replicate]
  refine hpairs.append ?_
  rw [width_replicate]
  simp [Begins, pack]

/-- No stream begins with two runs of different length. -/
theorem zeroRun_unique {stream skipped skipped' : Nat} (h : Begins stream (zeroRunFields skipped))
    (h' : Begins stream (zeroRunFields skipped')) : skipped = skipped' := by
  -- the loops of the reader take both
  have hread : ∀ {s : Nat}, Begins stream (zeroRunFields s) → ∀ fuel, s / 24 < fuel → ∀ r : NcountReader,
      r.bitStream = stream → r.ip = 0 →
      skipLongZeroRuns [] fuel 0 r = (24 * (s / 24), { r with
        bitStream := stream >>> (16 * (s / 24)), bitCount := r.bitCount + 16 * (s / 24) }) ∧
      Begins (stream >>> (16 * (s / 24))) (List.replicate (s % 24 / 3) (3, 2) ++ [(s % 3, 2)]) := by
    intro s hs fuel hfuel r hr hip
    have hfields := zeroRunFields_append s []
    rw [List.append_nil] at hfields
    rw [hfields] at hs
    have hhand := @skipLongZeroRuns_hand [] (s % 24 / 3) (s % 3) [] (by omega) (by omega) (s / 24) fuel 0 r
      (by simp [hip]) (by rw [hr]; exact hs) hfuel
    rw [Nat.zero_add, hr] at hhand
    have hright := hs.right
    rw [width_replicate] at hright
    exact ⟨hhand, hright⟩
  let r : NcountReader := {
    ip := 0, bitStream := stream, bitCount := 0, remaining := 0, threshold := 0, nbBits := 0, charnum := 0
    previous0 := false, normalizedCounter := [] }
  obtain ⟨h1, h2⟩ := hread h (skipped / 24 + skipped' / 24 + 1) (by omega) r rfl rfl
  obtain ⟨h1', h2'⟩ := hread h' (skipped / 24 + skipped' / 24 + 1) (by omega) r rfl rfl
  have hlong : skipped / 24 = skipped' / 24 := by
    have := congrArg Prod.fst (h1.symm.trans h1')
    simp only at this
    omega
  rw [← hlong] at h2'
  have hshort := (@skipShortZeroRuns_hand _ _ (by omega) (skipped % 24 / 3) 8 0
    { r with bitStream := stream >>> (16 * (skipped / 24)) } h2 (by omega)).symm.trans
      (skipShortZeroRuns_hand (by omega) (skipped' % 24 / 3) 8 h2' (by omega))
  have hpairs : skipped % 24 / 3 = skipped' % 24 / 3 := by
    have := congrArg Prod.fst hshort
    simp only at this
    omega
  have hright := h2.right
  have hright' := h2'.right
  rw [width_replicate] at hright hright'
  rw [← hpairs] at hright'
  have hlast := @Begins.head _ [] _ _ hright
  have hlast' := @Begins.head _ [] _ _ hright'
  omega

/-! ## What the reader takes from a window -/

section
variable {src : Bytes} {r : NcountReader} {pos : Nat} {f : Field}

/-- Whatever count the reader takes, its field is what the window shows. -/
theorem readCount_begins {remaining : Nat} (h : r.Expects remaining) : ∃ count : Int, -1 ≤ count ∧
    readCount r = (count + 1, (countField remaining count).2) ∧ Begins r.bitStream [countField remaining count] := by
  obtain ⟨hlow, hup⟩ := NcountWriter.log2_bounds h.remaining_pos
  rw [pow_succ] at hup
  have htwo : 2 * 2 ^ Nat.log2 remaining = 2 ^ (Nat.log2 remaining + 1) := by rw [pow_succ, Nat.mul_comm]
  have hbegins : ∀ {field : Field}, r.bitStream % 2 ^ field.2 = field.1 → Begins r.bitStream [field] := by
    intro field hmod
    unfold Begins
    rw [width_cons, width_nil, Nat.add_zero, pack, pack_nil, Nat.mul_zero, Nat.add_zero, ← hmod, Nat.mod_mod]
  unfold readCount
  rw [h.remaining_eq, h.threshold_eq, h.nbBits_eq]
  generalize hmax : 2 * 2 ^ Nat.log2 remaining - 1 - remaining = most at *
  have hmaxInt : (2 * ((2 ^ Nat.log2 remaining : Nat) : Int) - 1 - (remaining : Int)) = (most : Int) := by omega
  rw [hmaxInt]
  simp only
  have hshortMod := Nat.mod_lt r.bitStream (show 0 < 2 ^ Nat.log2 remaining by positivity)
  have hlongMod := Nat.mod_lt r.bitStream (show 0 < 2 * 2 ^ Nat.log2 remaining by positivity)
  have hmodmod : r.bitStream % (2 * 2 ^ Nat.log2 remaining) % 2 ^ Nat.log2 remaining =
    r.bitStream % 2 ^ Nat.log2 remaining :=
    Nat.mod_mod_of_dvd _ ⟨2, by ring⟩
  generalize hshort : r.bitStream % 2 ^ Nat.log2 remaining = short at *
  generalize hlong : r.bitStream % (2 * 2 ^ Nat.log2 remaining) = long at *
  have hfield : ∀ c : Nat, countField remaining ((c : Int) - 1) =
      (if c ≥ 2 ^ Nat.log2 remaining then c + most else c,
        if (if c ≥ 2 ^ Nat.log2 remaining then c + most else c) < most then Nat.log2 remaining
        else Nat.log2 remaining + 1) := by
    intro c
    unfold countField
    simp only
    rw [sub_add_cancel, Int.toNat_natCast, hmax]
  by_cases hsmall : short < most
  · refine ⟨short - 1, by omega, ?_, hbegins ?_⟩
    · rw [if_pos (by exact_mod_cast hsmall), hfield, if_neg (by omega), if_pos hsmall]
      simp
    · rw [hfield, if_neg (by omega), if_pos hsmall]
      exact hshort
  · rw [if_neg (by exact_mod_cast hsmall)]
    by_cases hbig : long ≥ 2 ^ Nat.log2 remaining
    · have hlow' : long - 2 ^ Nat.log2 remaining = short := by
        rw [← hmodmod, Nat.mod_eq_sub_mod hbig, Nat.mod_eq_of_lt (by omega)]
      refine ⟨((long - most : Nat) : Int) - 1, by omega, ?_, hbegins ?_⟩
      · rw [if_pos (by exact_mod_cast hbig), hfield, if_pos (by omega), if_neg (by omega)]
        simp only [Prod.mk.injEq, and_true]
        omega
      · rw [hfield, if_pos (by omega), if_neg (by omega)]
        simp only
        rw [← htwo, hlong]
        omega
    · have hlow' : long = short := by
        rw [← hmodmod, Nat.mod_eq_of_lt (by omega)]
      refine ⟨(long : Int) - 1, by omega, ?_, hbegins ?_⟩
      · rw [if_neg (by exact_mod_cast hbig), hfield, if_neg (by omega), if_neg (by omega)]
        simp
      · rw [hfield, if_neg (by omega), if_neg (by omega)]
        simp only
        rw [← htwo, hlong]

end

/-! ## A group that is cut -/

section
variable {src : Bytes} {r r1 : NcountReader} {pos skipped maxSymbolIndex : Nat} {f : Field}

/-- Only behind a run can the window be late. -/
theorem Cut.behind_run (hcut : Cut src.length pos skipped [f]) (hf : f.2 ≤ 25) : skipped ≠ 0 := by
  rintro rfl
  obtain ⟨h1, h2, h3, h4⟩ := hcut
  have hlt := @pack_lt_of_le [f] (8 * (src.length - 1) - pos) (by
    rw [width_cons, width_nil]
    omega)
  omega

/-- What the reader takes from a group that is cut is not the group: neither the run with the count, nor a
shorter run with a field that is not zero. -/
theorem readZeroRun_cut (h : r.Stands src pos) (hf : f.2 ≤ 11)
    (hbegins : Begins (readLe src >>> pos) (zeroRunFields skipped ++ [f]))
    (hend : pos + width (zeroRunFields skipped) + f.2 ≤ 8 * src.length)
    (hcut : Cut src.length pos skipped (zeroRunFields skipped ++ [f]))
    (hread : readZeroRun src maxSymbolIndex r = .ok r1) :
    ∃ taken, r1 = { r with ip := r1.ip, bitStream := r1.bitStream, bitCount := r1.bitCount
                           charnum := r.charnum + taken } ∧
      r1.charnum ≤ maxSymbolIndex ∧ (taken = skipped → ¬ Begins r1.bitStream [f]) ∧
      (taken < skipped → ∀ {f' : Field}, 0 < pack [f'] → ¬ Begins r1.bitStream [f']) := by
  obtain ⟨hc1, hc2, hc3, hc4⟩ := hcut
  have hp := h.position
  rw [width_zeroRunFields] at hend
  rw [zeroRunFields_append] at hbegins hc4
  obtain ⟨i, r0, hi, hloop, hr0, hip, hcount, hwhere, hsame⟩ := @skipLongZeroRuns_reload _ _ (skipped / 24)
    (src.length + 4) r.charnum _ _ h hbegins (by omega) (by omega)
  have hp0 := hr0.position
  have hroom0 := hr0.room
  have hfresh : r0.bitCount ≤ 7 := by
    rcases h.fresh with hw | hw <;> omega
  have hat : r0.ip + 5 = src.length := by
    rcases hwhere with ⟨hi, _, hin⟩ | hnear <;> omega
  -- the rest of the group reaches beyond the window
  have hrest : Begins (readLe src >>> (pos + 16 * i)) (zeroRunFields (skipped - 24 * i) ++ [f]) := by
    rw [zeroRunFields_append, show (skipped - 24 * i) / 24 = skipped / 24 - i by omega,
      show (skipped - 24 * i) % 24 = skipped % 24 by omega, show (skipped - 24 * i) % 3 = skipped % 3 by omega]
    rw [show skipped / 24 = i + (skipped / 24 - i) by omega, ← List.replicate_append_replicate,
      List.append_assoc] at hbegins
    have := hbegins.right
    rwa [width_replicate, ← Nat.shiftRight_add] at this
  have hbeyond : ¬ pack (zeroRunFields (skipped - 24 * i) ++ [f]) < 2 ^ (32 - r0.bitCount) := by
    rw [zeroRunFields_append, show (skipped - 24 * i) / 24 = skipped / 24 - i by omega,
      show (skipped - 24 * i) % 24 = skipped % 24 by omega, show (skipped - 24 * i) % 3 = skipped % 3 by omega]
    rw [show skipped / 24 = i + (skipped / 24 - i) by omega, ← List.replicate_append_replicate, List.append_assoc,
      show 8 * (src.length - 1) - pos = width (List.replicate i ((0xFFFF, 16) : Field)) + (32 - r0.bitCount) by
        rw [width_replicate]; omega, ← not_lt, pack_append_lt] at hc4
    exact hc4
  have hbits := hr0.bits (by omega)
  have hlt : r0.bitStream < 2 ^ 32 := by
    rw [hbits]
    exact lt_of_lt_of_le (Nat.mod_lt _ (by positivity)) (Nat.pow_le_pow_right (by norm_num) (by omega))
  obtain ⟨s, hs⟩ := zeroRun_exists hlt
  -- a run in front of the cut is the run
  have hrun : width (zeroRunFields s) ≤ 32 - r0.bitCount → s = skipped - 24 * i := by
    intro hle
    have hin := hs
    rw [hbits] at hin
    exact zeroRun_unique (hin.of_cut hle) hrest.left
  have hs' := hs
  have hfields := zeroRunFields_append s []
  rw [List.append_nil] at hfields
  rw [hfields] at hs'
  have hhand := @skipLongZeroRuns_hand src (s % 24 / 3) (s % 3) [] (by omega) (by omega) (s / 24) (src.length + 4 - i)
    (r.charnum + 24 * i) r0 (by omega) hs' (by
      -- two long runs fill the window
      have hle : width (List.replicate (s / 24) ((0xFFFF, 16) : Field)) < 33 := by
        by_contra hge
        rw [width_replicate] at hge
        have hleft := hs'.left
        have hone : 2 ^ 32 ≤ pack (List.replicate (s / 24) ((0xFFFF, 16) : Field)) := by
          rw [show s / 24 = (s / 24 - 3) + 1 + 1 + 1 by omega, List.replicate_succ, List.replicate_succ,
            List.replicate_succ]
          simp only [pack]
          omega
        unfold Begins at hleft
        have := Nat.mod_le r0.bitStream (2 ^ width (List.replicate (s / 24) ((0xFFFF, 16) : Field)))
        omega
      rw [width_replicate] at hle
      omega)
  have hright := hs'.right
  rw [width_replicate] at hright
  have hlong := hloop.trans hhand
  have heq := @readZeroRun_pairs src r (s % 24 / 3) (s % 3) _ maxSymbolIndex _ [] (by omega) (by omega) hlong
    (by rw [hsame]) hright (by omega)
  rw [heq] at hread
  split at hread
  · cases hread
  rename_i hmax
  have hn0 : r.charnum + 24 * i + 24 * (s / 24) + 3 * (s % 24 / 3) + s % 3 = r.charnum + (24 * i + s) := by omega
  rw [hn0] at hread hmax
  split at hread
  · -- a reload: the run ends in front of the cut, and so does the count
    rename_i hload
    unfold canReloadU32 at hload
    rw [decide_eq_true_eq] at hload
    simp only at hload
    exfalso
    have hw := width_zeroRunFields s
    have := hrun (by omega)
    refine hbeyond (pack_lt_of_le ?_)
    rw [← this, width_append, width_cons, width_nil]
    omega
  · cases hread
    have hshift : r0.bitStream >>> (16 * (s / 24)) >>> (2 * (s % 24 / 3)) >>> 2 =
        r0.bitStream >>> width (zeroRunFields s) := by
      rw [← Nat.shiftRight_add, ← Nat.shiftRight_add, width_zeroRunFields]
      congr 1
    refine ⟨24 * i + s, rfl, by simp only; omega, ?_, ?_⟩
    · intro heq hfield
      simp only at hfield
      rw [hshift] at hfield
      have hall := hs.append hfield
      rw [show s = skipped - 24 * i by omega, hbits] at hall
      exact hbeyond hall.lt_of_cut
    · intro hless f' hpos hfield
      simp only at hfield
      rw [hshift] at hfield
      have hall := hs.append hfield
      rw [hbits] at hall
      have hltall := hall.lt_of_cut
      rw [pack_append] at hltall
      have hw : width (zeroRunFields s) < 32 - r0.bitCount := by
        refine (Nat.pow_lt_pow_iff_right (show 1 < 2 by norm_num)).1 (lt_of_le_of_lt ?_ hltall)
        exact le_trans (Nat.le_mul_of_pos_right _ hpos) (Nat.le_add_left _ _)
      have := hrun (by omega)
      omega

/-- A count goes to the reader's symbol. -/
theorem readSymbolCount_counter (src : Bytes) (r : NcountReader) :
    (readSymbolCount src r).normalizedCounter = r.normalizedCounter.set r.charnum ((readCount r).1 - 1) := by
  obtain ⟨r', -, -, hcounter, -, -, -, heq, -⟩ := readSymbolCount_fields src r
  rw [heq, lowerThreshold_normalizedCounter, hcounter]

/-- The loop keeps what it has read. -/
theorem readCounts_keeps : ∀ (fuel : Nat) {r r' : NcountReader}, readCounts src maxSymbolIndex fuel r = .ok r' →
    ∀ i < r.charnum, r'.normalizedCounter.getD i 0 = r.normalizedCounter.getD i 0
  | 0, r, r', h => by
    cases h
    exact fun _ _ => rfl
  | fuel + 1, r, r', h => by
    unfold readCounts at h
    by_cases hgo : r.remaining > 1 ∧ r.charnum ≤ maxSymbolIndex
    · rw [if_pos hgo] at h
      obtain ⟨r1, h1, h⟩ := bind_ok h
      have hkeep := readCounts_keeps fuel h
      have hrun : r.charnum ≤ r1.charnum ∧ r1.normalizedCounter = r.normalizedCounter := by
        split at h1
        · obtain ⟨_, _, hcounter, hle⟩ := readZeroRun_fields h1
          exact ⟨hle, hcounter⟩
        · cases h1
          exact ⟨le_refl _, rfl⟩
      intro i hi
      rw [hkeep i (by rw [readSymbolCount_charnum]; omega), readSymbolCount_counter, List.getD_eq_getElem?_getD,
        List.getElem?_set_ne (by omega), ← List.getD_eq_getElem?_getD, hrun.2]
    · rw [if_neg hgo] at h
      cases h
      exact fun _ _ => rfl

end

/-! ## A header that is cut -/

theorem getD_after (done rest : List Int) (i : Nat) : (done ++ rest).getD (done.length + i) 0 = rest.getD i 0 := by
  rw [List.getD_append_right _ _ _ _ (by omega), Nat.add_sub_cancel_left]

/-- Where a group is cut the reader does not arrive at the counts. -/
theorem readGroup_cut {src : Bytes} {maxSymbolIndex remaining skipped pos z fuel : Nat} {count : Int}
    {counts : List Int}
    {r r' : NcountReader} {done : List Int} (hstands : r.Stands src pos) (hexpects : r.Expects remaining)
    (hmore : 1 < remaining) (hcounted : r.previous0 = true → count ≠ 0)
    (hbegins : Begins (readLe src >>> pos)
      ((if r.previous0 then zeroRunFields skipped else []) ++ [countField remaining count]))
    (hend : pos + width ((if r.previous0 then zeroRunFields skipped else []) ++ [countField remaining count]) ≤
      8 * src.length) (hnone : r.previous0 = false → skipped = 0)
    (hcut : Cut src.length pos skipped
      ((if r.previous0 then zeroRunFields skipped else []) ++ [countField remaining count]))
    (hcounter : r.normalizedCounter = done ++ List.replicate z 0) (hchar : r.charnum = done.length)
    (hz : maxSymbolIndex < done.length + z) (hmax : r.charnum ≤ maxSymbolIndex)
    (hread : readCounts src maxSymbolIndex (fuel + 1) r = .ok r') :
    ∀ zeros, r'.normalizedCounter ≠ done ++ (List.replicate skipped 0 ++ count :: counts) ++ zeros := by
  intro zeros heq
  have hwidth := NcountWriter.countField_width hmore hexpects.remaining_lt count
  cases hp : r.previous0 with
  | false =>
    rw [hp, hnone hp] at hcut
    simp only [Bool.false_eq_true, if_false, List.nil_append] at hcut
    exact hcut.behind_run (by omega) rfl
  | true =>
    rw [hp] at hbegins hend hcut
    simp only [if_true] at hbegins hend hcut
    rw [width_append, width_cons, width_nil] at hend
    have h0 := hcounted hp
    unfold readCounts at hread
    rw [if_pos ⟨by rw [hexpects.remaining_eq]; exact_mod_cast hmore, hmax⟩, if_pos hp] at hread
    obtain ⟨r1, h1, hread⟩ := bind_ok hread
    obtain ⟨taken, hsame, hin, hother, hshorter⟩ := readZeroRun_cut hstands hwidth.2 hbegins (by omega) hcut h1
    have hexpects1 : r1.Expects remaining := by
      rw [hsame]
      exact ⟨hexpects.remaining_eq, hexpects.remaining_pos, hexpects.remaining_lt, hexpects.threshold_eq,
        hexpects.nbBits_eq⟩
    have hchar1 : r1.charnum = done.length + taken := by
      rw [hsame]
      simp only
      rw [hchar]
    have hcounter1 : r1.normalizedCounter = done ++ List.replicate z 0 := by
      rw [hsame]
      exact hcounter
    obtain ⟨count', _, hcount', hshows⟩ := readCount_begins hexpects1
    -- the count that is read, wherever it goes, stays there
    have hkeep := readCounts_keeps fuel hread
    simp only [readSymbolCount_charnum, readSymbolCount_counter, hcount', hcounter1, hchar1,
      add_sub_cancel_right] at hkeep
    rw [set_next taken count' (by omega)] at hkeep
    have hentry : ∀ i ≤ taken, (List.replicate skipped 0 ++ (count :: counts ++ zeros)).getD i 0 =
        (List.replicate taken 0 ++ [count']).getD i 0 := by
      intro i hi
      have := hkeep (done.length + i) (by omega)
      rw [heq] at this
      simp only [List.append_assoc, getD_after] at this
      rw [this, ← List.append_assoc,
        List.getD_append _ _ _ _ (by rw [List.length_append, List.length_replicate, List.length_singleton]; omega)]
    have hlast : (List.replicate taken 0 ++ [count']).getD taken 0 = count' := by
      rw [List.getD_append_right _ _ _ _ (by rw [List.length_replicate]), List.length_replicate, Nat.sub_self]
      rfl
    rcases Nat.lt_trichotomy taken skipped with hlt | heq' | hgt
    · -- a shorter run: the count behind it would be zero
      have hzero := hentry taken (le_refl _)
      rw [hlast, List.getD_append _ _ _ _ (by rw [List.length_replicate]; omega),
        List.getD_eq_getElem _ _ (by rw [List.length_replicate]; omega), List.getElem_replicate] at hzero
      subst hzero
      refine hshorter hlt ?_ hshows
      have htwo : 2 ^ 1 ≤ 2 ^ Nat.log2 remaining := Nat.pow_le_pow_right (by norm_num) (NcountWriter.log2_pos hmore)
      have hpos := (NcountWriter.countField_width hmore hexpects.remaining_lt 0).1
      have hone : (countField remaining 0).1 = 1 := by
        unfold countField
        simp only
        rw [if_neg (by rw [show ((0 : Int) + 1).toNat = 1 by rfl]; omega)]
        rfl
      have : 2 ^ 1 ≤ 2 ^ (countField remaining 0).2 := Nat.pow_le_pow_right (by norm_num) hpos
      rw [pack, hone, Nat.mod_eq_of_lt (by omega)]
      omega
    · have hsame' := hentry taken (le_refl _)
      rw [hlast, List.getD_append_right _ _ _ _ (by rw [List.length_replicate]; omega), List.length_replicate, heq',
        Nat.sub_self] at hsame'
      have hcount : count = count' := hsame'
      rw [← hcount] at hshows
      exact hother heq' hshows
    · -- a longer run: the count is missing
      have hzero := hentry skipped (by omega)
      have hcount : (List.replicate skipped 0 ++ (count :: counts ++ zeros)).getD skipped 0 = count := by
        rw [List.getD_append_right _ _ _ _ (by rw [List.length_replicate]), List.length_replicate, Nat.sub_self]
        rfl
      rw [hcount, List.getD_append _ _ _ _ (by rw [List.length_replicate]; omega),
        List.getD_eq_getElem _ _ (by rw [List.length_replicate]; omega), List.getElem_replicate] at hzero
      exact h0 hzero

theorem readCounts_cut {src : Bytes} {maxSymbolIndex : Nat} {remaining : Nat} {previousIsZero : Bool} {used : List Int}
    {fs : List Field} (h : Header remaining previousIsZero used fs) :
    ∀ {fuel z pos : Nat} {r r' : NcountReader} {done : List Int}, r.Stands src pos → r.Expects remaining →
      r.previous0 = previousIsZero → Begins (readLe src >>> pos) fs → pos + width fs ≤ 8 * src.length →
      CutAt src.length pos (headerGroups remaining (if previousIsZero then some 0 else none) used) →
      r.normalizedCounter = done ++ List.replicate z 0 → r.charnum = done.length → used.length ≤ z →
      r.charnum + used.length ≤ maxSymbolIndex + 1 → used.length ≤ fuel → maxSymbolIndex < done.length + z →
      readCounts src maxSymbolIndex fuel r = .ok r' →
        ∀ zeros, r'.normalizedCounter ≠ done ++ used ++ zeros := by
  induction h with
  | @done previousIsZero =>
    intro fuel z pos r r' done _ _ _ _ _ hcut
    cases previousIsZero <;> exact hcut.elim
  | @count remaining skipped previousIsZero count counts fs hmore hc hlt hnone hcounted _ ih =>
    intro fuel z pos r r' done hstands hexpects hprev hbegins hend hcut hcounter hchar hz hmax hfuel hlen hread
    simp only [List.length_append, List.length_replicate, List.length_cons] at hz hmax hfuel
    obtain ⟨fuel, rfl⟩ : ∃ n, fuel = n + 1 := ⟨fuel - 1, by omega⟩
    subst hprev
    rw [headerGroups_count hnone hcounted] at hcut
    have hsplit : (if r.previous0 then zeroRunFields skipped else []) ++ countField remaining count :: fs =
        ((if r.previous0 then zeroRunFields skipped else []) ++ [countField remaining count]) ++ fs := by simp
    rw [hsplit] at hbegins hend
    rw [width_append] at hend
    by_cases hfirst : Cut src.length pos skipped
        ((if r.previous0 then zeroRunFields skipped else []) ++ [countField remaining count])
    · exact readGroup_cut hstands hexpects hmore hcounted hbegins.left
        (by omega) hnone hfirst hcounter hchar hlen (by omega)
        hread
    · -- the first group is read, so another one is cut
      obtain ⟨r1, h1, hstands2, hexpects2, hcounter2, hchar2, hprev2⟩ :=
        readGroup_reads hstands hexpects hmore hc hlt hnone
        hbegins.left (by omega) hfirst hcounter hchar (by omega) (show r.charnum + skipped ≤ maxSymbolIndex by omega)
      have hbegins2 := hbegins.right
      rw [← Nat.shiftRight_add] at hbegins2
      have hgo : r.remaining > 1 ∧ r.charnum ≤ maxSymbolIndex := by
        rw [hexpects.remaining_eq]
        exact ⟨by exact_mod_cast hmore, by omega⟩
      unfold readCounts at hread
      rw [if_pos hgo, h1, ok_bind] at hread
      have hne := ih hstands2 hexpects2 hprev2 hbegins2 (by omega) (hcut.resolve_left hfirst) hcounter2
        (by rw [hchar2]; simp; omega) (by omega) (by rw [hchar2]; omega) (show counts.length ≤ fuel by omega)
        (by simp; omega) hread
      intro zeros
      have := hne zeros
      simpa using this

/-! ## Exactly when a distribution survives -/

/-- The bytes that a caller sets aside: `ncount_write_bound`. -/
def ncountWriteBound (maxSymbolValue tableLog : Nat) : Result Nat :=
  if maxSymbolValue > symbolvalueMax then .error .maxSymbolValueTooLarge
  else if ¬ (minTablelog ≤ tableLog ∧ tableLog ≤ tablelogMax) then .error .tableLogTooLarge
  else .ok (((maxSymbolValue + 1) * tableLog + 4 + 2) / 8 + 1 + 2)

/-- A distribution survives: it is written into a buffer of that size, and what was written is read back with
`payload` behind it. -/
def Survives (dst payload : Bytes) (normalizedCounter : List Int) (maxSymbolValue tableLog counterLen maxSymbol
    maxTableLog : Nat) : Prop :=
  ∃ size out, writeNcount dst normalizedCounter maxSymbolValue tableLog = .ok (size, out) ∧
    readNcount (out.take size ++ payload) counterLen maxSymbol maxTableLog = .ok {
      normalizedCounter := normalizedCounter.take (maxSymbolValue + 1) ++
        List.replicate (counterLen - (maxSymbolValue + 1)) 0
      maxSymbolValue, tableLog, size }

/-- The bytes of the header. -/
def headerSize (normalizedCounter : List Int) (maxSymbolValue tableLog : Nat) : Nat :=
  (width (headerFields normalizedCounter maxSymbolValue tableLog) + 7) / 8

/-- A distribution survives if and only if the last flush of the writer has room and no group of the header
is cut. -/
theorem survives_iff {dst payload : Bytes} {normalizedCounter : List Int}
    {maxSymbolValue tableLog bound counterLen maxSymbol maxTableLog : Nat}
    (hn : Normalized normalizedCounter maxSymbolValue tableLog) (hlast : normalizedCounter.getD maxSymbolValue 0 ≠ 0)
    (hbound : ncountWriteBound maxSymbolValue tableLog = .ok bound) (hdst : dst.length = bound)
    (hsymbol : maxSymbolValue ≤ maxSymbol) (hcounter : maxSymbol < counterLen) (hmax : maxSymbol ≤ symbolvalueMax)
    (hlog : tableLog ≤ maxTableLog) (hmaxLog : maxTableLog ≤ tablelogMax) :
    Survives dst payload normalizedCounter maxSymbolValue tableLog counterLen maxSymbol maxTableLog ↔
      2 * ((width (headerFields normalizedCounter maxSymbolValue tableLog) - 1) / 16) + 2 ≤ bound ∧
      ¬ CutAt (paddedLength (headerSize normalizedCounter maxSymbolValue tableLog) payload.length) 4
        (countGroups normalizedCounter maxSymbolValue tableLog) := by
  have hrange : minTablelog ≤ tableLog ∧ tableLog ≤ tablelogMax := by
    unfold ncountWriteBound at hbound
    split at hbound
    · cases hbound
    split at hbound
    · cases hbound
    · rename_i h
      exact not_not.1 h
  have hroom := @writeNcount_iff _ _ _ dst hn hlast (by omega) hrange
  rw [hdst] at hroom
  have hal := hn.alphabet
  constructor
  · rintro ⟨size, out, hwrite, hread⟩
    refine ⟨hroom.1 ⟨size, out, hwrite⟩, fun hcut => ?_⟩
    obtain ⟨htake, hsize, hbegins⟩ := written_begins hn hlast hwrite
    obtain ⟨more, hlen, heq⟩ := @readNcount_padded (out.take size) payload counterLen maxSymbol
      maxTableLog hcounter hmax
      hmaxLog
    rw [htake, List.append_assoc] at hlen
    rw [show headerSize normalizedCounter maxSymbolValue tableLog = size from hsize.symm, ← hlen] at hcut
    have hge : size ≤ paddedLength size payload.length ∧ 4 ≤ paddedLength size payload.length := by
      unfold paddedLength
      omega
    rw [heq] at hread
    cases hpad : readNcountPadded (out.take size ++ (payload ++ more)) counterLen maxSymbol maxTableLog with
    | error e =>
      rw [hpad] at hread
      cases hread
    | ok n =>
      rw [hpad] at hread
      simp only at hread
      split at hread
      · cases hread
      cases hread
      have hb := hbegins (payload ++ more)
      generalize hsrc : out.take size ++ (payload ++ more) = src at *
      unfold readNcountPadded at hpad
      simp only at hpad
      rw [readTableLog hrange hb, if_neg (by omega)] at hpad
      obtain ⟨r', hr', hpad⟩ := bind_ok hpad
      obtain ⟨hstands, hexpects⟩ := @start_stands src tableLog counterLen (by omega) hrange _ rfl
      have hused : (normalizedCounter.take (maxSymbolValue + 1)).length = maxSymbolValue + 1 := by
        rw [List.length_take]
        omega
      have hne := @readCounts_cut _ _ _ _ _ _ (hn.header hlast) _ _ _ _ _ [] hstands hexpects rfl hb.tail (by
          rw [hlen]
          unfold headerFields at hsize
          rw [width_cons] at hsize
          omega) hcut rfl rfl (by omega) (by simp only; omega) (by omega) (by simp; omega) hr'
      split at hpad
      · cases hpad
      · injection hpad with hpad
        exact hne (List.replicate (counterLen - (maxSymbolValue + 1)) 0) (congrArg Ncount.normalizedCounter hpad)
  · rintro ⟨hfits, hcut⟩
    obtain ⟨size, out, hwrite⟩ := hroom.2 hfits
    obtain ⟨-, hsize, -⟩ := written_begins hn hlast hwrite
    exact ⟨size, out, hwrite, readNcount_writeNcount_of_not_cut hn hlast hwrite
      (by rw [hsize]; exact hcut) hsymbol hcounter
      hmax hlog hmaxLog⟩

/-- A distribution with a header of 31 bytes, which is all that is set aside; the last flush takes a 32nd. -/
def tightCounts : List Int :=
  [0, 1, 0, 1, 0, 1, 0, 1, 0, 1, 0, 2, 0, 4, 0, 8, 0, 16, 0, 32, 0, 64, 0, 128, 253]

/-- A distribution whose header ends behind a long run, near the end of the last byte. -/
def lateCounts : List Int := 1 :: 0 :: (List.replicate 24 0 ++ [511])

/-- A valid distribution that is not written into the bytes set aside for it, and one that is written and not
read back when nothing follows it. -/
theorem survives_not :
    (Normalized tightCounts 24 9 ∧ tightCounts.getD 24 0 ≠ 0 ∧ ncountWriteBound 24 9 = .ok 31 ∧
      writeNcount (List.replicate 31 0) tightCounts 24 9 = .error .dstSizeTooSmall ∧
      ¬ Survives (List.replicate 31 0) [] tightCounts 24 9 256 255 9) ∧
    (Normalized lateCounts 26 9 ∧ lateCounts.getD 26 0 ≠ 0 ∧ ncountWriteBound 26 9 = .ok 34 ∧
      writeNcount (List.replicate 34 0) lateCounts 26 9 =
        .ok (7, [36, 32, 192, 255, 63, 255, 3] ++ List.replicate 27 0) ∧
      (readNcount [36, 32, 192, 255, 63, 255, 3] 256 255 9).isOk = false ∧
      ¬ Survives (List.replicate 34 0) [] lateCounts 26 9 256 255 9) := by
  have htight : writeNcount (List.replicate 31 0) tightCounts 24 9 = .error .dstSizeTooSmall := by decide +kernel
  have hlate : writeNcount (List.replicate 34 0) lateCounts 26 9 =
      .ok (7, [36, 32, 192, 255, 63, 255, 3] ++ List.replicate 27 0) := by decide +kernel
  have hread : (readNcount [36, 32, 192, 255, 63, 255, 3] 256 255 9).isOk = false := by decide +kernel
  refine ⟨⟨⟨by decide, by decide, by decide⟩, by decide, by decide, htight, ?_⟩,
    ⟨⟨by decide, by decide, by decide⟩, by decide, by decide, hlate, hread, ?_⟩⟩
  · rintro ⟨size, out, hwrite, -⟩
    rw [htight] at hwrite
    cases hwrite
  · rintro ⟨size, out, hwrite, hback⟩
    rw [hlate] at hwrite
    cases hwrite
    rw [show List.take 7 ([36, 32, 192, 255, 63, 255, 3] ++ List.replicate 27 0) ++ ([] : Bytes) =
      [36, 32, 192, 255, 63, 255, 3] by decide] at hback
    rw [hback] at hread
    cases hread

/-- A distribution of three symbols. -/
theorem survives_iff_small : Survives (List.replicate 5 0) [] [16, 8, 8] 2 5 3 2 5 :=
  (@survives_iff (List.replicate 5 0) [] _ _ _ _ _ _ _ ⟨by decide, by decide, by decide⟩ (by decide)
    (show ncountWriteBound 2 5 = .ok 5 by decide) rfl (by decide) (by decide) (by decide) (by decide) (by decide)).2
    (by decide +kernel)

end Fse

end Zstandard
