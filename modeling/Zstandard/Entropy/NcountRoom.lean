/-
The room that a normalized-count header takes.

The fields of a header are a function of the counts: a group for each count that is written, the run of
absent symbols before it included. The writer flushes two bytes whenever more than sixteen bits are pending,
and two more at the end, so it succeeds if and only if those fit, whatever they are worth.
-/
import Zstandard.Entropy.NcountWriter

namespace Zstandard

namespace Fse

open BitStack

/-! ## The groups of a header -/

/-- The groups of the counts, while `remaining` slots, plus one, are left: how many absent symbols a count
is behind, and the fields of both. With `some s` the count of zero is `s` absent symbols back. -/
def headerGroups : Nat → Option Nat → List Int → List (Nat × List Field)
  | _, _, [] => []
  | remaining, some skipped, count :: counts =>
    if count = 0 then headerGroups remaining (some (skipped + 1)) counts
    else (skipped, zeroRunFields skipped ++ [countField remaining count]) ::
      headerGroups (remaining - count.natAbs) none counts
  | remaining, none, count :: counts =>
    (0, [countField remaining count]) ::
      headerGroups (remaining - count.natAbs) (if count = 0 then some 0 else none) counts

/-- The counts that a header describes. -/
def countGroups (normalizedCounter : List Int) (maxSymbolValue tableLog : Nat) : List (Nat × List Field) :=
  headerGroups (2 ^ tableLog + 1) none (normalizedCounter.take (maxSymbolValue + 1))

/-- All fields of the header: the table log and the groups. -/
def headerFields (normalizedCounter : List Int) (maxSymbolValue tableLog : Nat) : List Field :=
  (tableLog - minTablelog, 4) :: (countGroups normalizedCounter maxSymbolValue tableLog).flatMap Prod.snd

theorem headerGroups_zeros {remaining : Nat} {counts : List Int} : ∀ (k skipped : Nat),
    headerGroups remaining (some skipped) (List.replicate k 0 ++ counts) =
      headerGroups remaining (some (skipped + k)) counts
  | 0, _ => rfl
  | k + 1, skipped => by
    rw [List.replicate_succ, List.cons_append]
    unfold headerGroups
    rw [if_pos rfl, headerGroups_zeros k, Nat.add_right_comm, Nat.add_assoc]
    cases counts <;> rfl

/-- The first group, and the rest. -/
theorem headerGroups_count {remaining skipped : Nat} {previousIsZero : Bool} {count : Int} {counts : List Int}
    (hnone : previousIsZero = false → skipped = 0) (hcounted : previousIsZero = true → count ≠ 0) :
    headerGroups remaining (if previousIsZero then some 0 else none) (List.replicate skipped 0 ++ count :: counts) =
      (skipped, (if previousIsZero then zeroRunFields skipped else []) ++ [countField remaining count]) ::
        headerGroups (remaining - count.natAbs) (if decide (count = 0) then some 0 else none) counts := by
  cases previousIsZero with
  | true =>
    rw [if_pos rfl, headerGroups_zeros, Nat.zero_add]
    have h0 := hcounted rfl
    conv_lhs => unfold headerGroups
    rw [if_neg h0, if_pos rfl, if_neg (by simpa using h0)]
  | false =>
    rw [hnone rfl]
    conv_lhs => unfold headerGroups
    simp

/-- The fields of a header are those of its groups. -/
theorem Header.fields {remaining : Nat} {previousIsZero : Bool} {used : List Int} {fs : List Field}
    (h : Header remaining previousIsZero used fs) :
    fs = (headerGroups remaining (if previousIsZero then some 0 else none) used).flatMap Prod.snd := by
  induction h with
  | @done previousIsZero => cases previousIsZero <;> rfl
  | count _ _ _ hnone hcounted _ ih =>
    rw [headerGroups_count hnone hcounted, List.flatMap_cons, ← ih, List.append_assoc]
    rfl

/-- Counts that fill what remains, the last of them not zero, have a header. -/
theorem header_exists : ∀ {counts : List Int}, (∀ c ∈ counts, -1 ≤ c) → (∀ h : counts ≠ [], counts.getLast h ≠ 0) →
    (∀ skipped, (counts = [] → skipped = 0) → Header (slotTotal counts + 1) true (List.replicate skipped 0 ++ counts)
      ((headerGroups (slotTotal counts + 1) (some skipped) counts).flatMap Prod.snd)) ∧
    Header (slotTotal counts + 1) false counts ((headerGroups (slotTotal counts + 1) none counts).flatMap Prod.snd)
  | [], _, _ => ⟨fun skipped h => by rw [h rfl]; exact .done, .done⟩
  | count :: counts, hge, hlast => by
    have hge' : ∀ c ∈ counts, -1 ≤ c := fun c hc => hge c (List.mem_cons_of_mem _ hc)
    have hlast' : ∀ h : counts ≠ [], counts.getLast h ≠ 0 := by
      intro h
      have := hlast (by simp)
      rwa [List.getLast_cons h] at this
    obtain ⟨hrun, hcount⟩ := header_exists hge' hlast'
    have htotal : slotTotal (count :: counts) = count.natAbs + slotTotal counts := by simp [slotTotal]
    have hrest : slotTotal (count :: counts) + 1 - count.natAbs = slotTotal counts + 1 := by omega
    have hmore : 1 < slotTotal (count :: counts) + 1 := by
      by_contra hnot
      have hsum : slotTotal (count :: counts) = 0 := by omega
      unfold slotTotal at hsum
      rw [List.sum_eq_zero_iff] at hsum
      exact hlast (by simp) (Int.natAbs_eq_zero.1 (hsum _ (List.mem_map_of_mem (List.getLast_mem _))))
    have hfirst := hge count List.mem_cons_self
    constructor
    · intro skipped _
      by_cases h0 : count = 0
      · -- one absent symbol more
        subst h0
        have hne : counts ≠ [] := by
          rintro rfl
          exact hlast (by simp) rfl
        have := hrun (skipped + 1) fun h => absurd h hne
        rw [htotal]
        simp only [Int.natAbs_zero, Nat.zero_add]
        rw [show List.replicate skipped (0 : Int) ++ 0 :: counts = List.replicate (skipped + 1) 0 ++ counts by
          rw [List.replicate_succ', List.append_assoc]; rfl]
        conv in headerGroups _ _ _ => unfold headerGroups
        rw [if_pos rfl]
        exact this
      · conv in headerGroups _ _ _ => unfold headerGroups
        rw [if_neg h0, List.flatMap_cons, hrest, List.append_assoc]
        refine .count hmore hfirst (by omega) (by simp) (fun _ => h0) ?_
        rw [hrest, decide_eq_false h0]
        exact hcount
    · conv in headerGroups _ _ _ => unfold headerGroups
      rw [List.flatMap_cons, hrest]
      refine @Header.count _ 0 _ _ _ _ hmore hfirst (by omega) (by simp) (by simp) ?_
      rw [hrest]
      by_cases h0 : count = 0
      · have hne : counts ≠ [] := by
          rintro rfl
          exact hlast (by simp) h0
        rw [if_pos h0, decide_eq_true h0]
        exact hrun 0 fun _ => rfl
      · rw [if_neg h0, decide_eq_false h0]
        exact hcount

/-! ## Room for what is written -/

section
variable {w : NcountWriter} {fs : List Field}

theorem flushTwoBytes_total (h : w.out + 2 ≤ w.dst.length) : ∃ w', flushTwoBytes w = .ok w' := by
  unfold flushTwoBytes
  rw [if_neg (by omega)]
  exact ⟨_, rfl⟩

/-- Only what is in the stream is flushed. -/
theorem flushFull_total (h : w.Holds w.bitCount fs) (hroom : width fs ≤ 8 * w.dst.length) :
    ∃ w', flushFull w = .ok w' := by
  have hw := h.width
  unfold flushFull
  by_cases hfull : w.bitCount > 16
  · rw [if_pos hfull]
    obtain ⟨w', hflush⟩ := flushTwoBytes_total (show w.out + 2 ≤ w.dst.length by omega)
    exact ⟨_, by rw [hflush]; rfl⟩
  · rw [if_neg hfull]
    exact ⟨_, rfl⟩

theorem writeLongRuns_total : ∀ (fuel : Nat) {skipped : Nat} {w : NcountWriter} {fs : List Field},
    w.Holds w.bitCount fs → w.bitCount ≤ 16 → width fs + 16 * (skipped / 24) ≤ 8 * w.dst.length →
      ∃ r, writeLongRuns fuel skipped w = .ok r
  | 0, _, _, _, _, _, _ => ⟨_, rfl⟩
  | fuel + 1, skipped, w, fs, h, hle, hroom => by
    have hw := h.width
    unfold writeLongRuns
    by_cases hlong : skipped ≥ 24
    · rw [if_pos hlong]
      have hadd := (h.add (show 0xFFFF < 2 ^ 16 by norm_num) (by omega)).2
      obtain ⟨w1, hflush⟩ := @flushTwoBytes_total { w with bitStream := addShifted w.bitStream 0xFFFF w.bitCount }
        (by simp only; omega)
      obtain ⟨hsame, hcount⟩ := NcountWriter.flushTwoBytes_same hflush
      have hholds := hadd.flush hflush
      simp only at hcount
      rw [← hcount] at hholds
      have hlen := hsame.room
      simp only at hlen
      obtain ⟨r, hr⟩ := @writeLongRuns_total fuel (skipped - 24) _ _ hholds (by omega)
        (by rw [width_append, width_cons, width_nil, hlen]; omega)
      exact ⟨r, by rw [hflush, ok_bind, hr]⟩
    · rw [if_neg hlong]
      exact ⟨_, rfl⟩

/-- Where the run of absent symbols ends. -/
theorem nextCounted_eq {normalizedCounter : List Int} {alphabetSize symbol skipped : Nat}
    (hin : symbol + skipped < alphabetSize)
    (hzero : ∀ i, symbol ≤ i → i < symbol + skipped → normalizedCounter.getD i 0 = 0)
    (hcounted : normalizedCounter.getD (symbol + skipped) 0 ≠ 0) :
    nextCounted normalizedCounter alphabetSize alphabetSize symbol = symbol + skipped := by
  obtain ⟨h1, h2, h3, h4⟩ := @NcountWriter.nextCounted_spec normalizedCounter alphabetSize alphabetSize symbol
    (by omega) (by omega)
  generalize nextCounted normalizedCounter alphabetSize alphabetSize symbol = next at *
  rcases Nat.lt_trichotomy next (symbol + skipped) with hlt | heq | hgt
  · exact absurd (hzero next h1 hlt) (h4 (by omega))
  · exact heq
  · exact absurd (h3 (symbol + skipped) (by omega) hgt) hcounted

theorem writeZeroRun_total {normalizedCounter : List Int} {alphabetSize skipped : Nat} (h : w.Holds w.bitCount fs)
    (hle : w.bitCount ≤ 16) (hnext : nextCounted normalizedCounter alphabetSize alphabetSize w.symbol =
      w.symbol + skipped) (hin : w.symbol + skipped < alphabetSize)
    (hroom : width fs + width (zeroRunFields skipped) ≤ 8 * w.dst.length) :
    ∃ w', writeZeroRun normalizedCounter alphabetSize w = .ok w' := by
  rw [width_zeroRunFields] at hroom
  unfold writeZeroRun
  simp only [hnext]
  rw [if_neg (by omega), Nat.add_sub_cancel_left]
  have hstart : ({ w with symbol := w.symbol + skipped } : NcountWriter).Holds w.bitCount fs :=
    ⟨h.room, h.even, h.pending, h.width, h.bits⟩
  obtain ⟨⟨skipped1, w1⟩, h1⟩ := @writeLongRuns_total alphabetSize skipped _ _ hstart hle (by simp only; omega)
  obtain ⟨hskipped, hholds1, hcount1, hsame1⟩ := NcountWriter.writeLongRuns_holds alphabetSize hstart hle (by omega) h1
  rw [h1, ok_bind]
  simp only at hcount1 ⊢
  obtain ⟨hlast, hholds2, hcount2, hsame2⟩ := @NcountWriter.writeShortRuns_holds 24 skipped1 _ _ hholds1
    (by omega) (by omega)
  have hlen2 := hsame2.room.trans hsame1.room
  generalize writeShortRuns 24 skipped1 w1 = r at *
  obtain ⟨skipped2, w2⟩ := r
  simp only at hlast hholds2 hcount2 hlen2 ⊢
  have hadd := (@NcountWriter.Holds.add _ _ _ skipped2 2 hholds2 (by omega) (by omega)).2
  have hholds3 : ({ w2 with bitStream := addShifted w2.bitStream skipped2 w2.bitCount, bitCount := w2.bitCount + 2 } :
      NcountWriter).Holds (w2.bitCount + 2) _ := ⟨hadd.room, hadd.even, hadd.pending, hadd.width, hadd.bits⟩
  refine flushFull_total hholds3 ?_
  simp only [width_append, width_replicate, width_cons, width_nil]
  rw [hlen2]
  omega

/-- One round with room for its group. -/
theorem writeSymbol_total {normalizedCounter : List Int} {alphabetSize remaining skipped : Nat}
    (h : w.Ready remaining fs) (hmore : 1 < remaining) (hin : w.symbol + skipped < alphabetSize)
    (hge : ∀ i, -1 ≤ normalizedCounter.getD i 0)
    (hzero : ∀ i, w.symbol ≤ i → i < w.symbol + skipped → normalizedCounter.getD i 0 = 0)
    (hnone : w.previousIsZero = false → skipped = 0)
    (hcounted : w.previousIsZero = true → normalizedCounter.getD (w.symbol + skipped) 0 ≠ 0)
    (hlt : (normalizedCounter.getD (w.symbol + skipped) 0).natAbs < remaining)
    (hroom : width fs + width ((if w.previousIsZero then zeroRunFields skipped else []) ++
      [countField remaining (normalizedCounter.getD (w.symbol + skipped) 0)]) ≤ 8 * w.dst.length) :
    ∃ w', writeSymbol normalizedCounter alphabetSize w = .ok w' ∧
      w'.Ready (remaining - (normalizedCounter.getD (w.symbol + skipped) 0).natAbs)
        (fs ++ ((if w.previousIsZero then zeroRunFields skipped else []) ++
          [countField remaining (normalizedCounter.getD (w.symbol + skipped) 0)])) ∧
      w'.symbol = w.symbol + skipped + 1 ∧
      w'.previousIsZero = decide (normalizedCounter.getD (w.symbol + skipped) 0 = 0) ∧
      w'.dst.length = w.dst.length := by
  rw [width_append, width_cons, width_nil] at hroom
  -- the count, wherever the run has left the writer
  have hcount : ∀ {w1 : NcountWriter} {run : List Field}, w1.Ready remaining (fs ++ run) →
    w1.symbol = w.symbol + skipped →
      w1.dst.length = w.dst.length → width run = width (if w.previousIsZero then zeroRunFields skipped else []) →
      ∃ w', (if w1.symbol = alphabetSize then .ok w1 else writeCount normalizedCounter w1) = .ok w' ∧
        w'.Ready (remaining - (normalizedCounter.getD (w.symbol + skipped) 0).natAbs)
          (fs ++ run ++ [countField remaining (normalizedCounter.getD (w.symbol + skipped) 0)]) ∧
        w'.symbol = w.symbol + skipped + 1 ∧
        w'.previousIsZero = decide (normalizedCounter.getD (w.symbol + skipped) 0 = 0) ∧
        w'.dst.length = w.dst.length := by
    intro w1 run h1 hat hlen hwidth
    have hbits := h1.bitCount_le
    have hfield := NcountWriter.countField_width hmore h1.remaining_lt (normalizedCounter.getD (w.symbol + skipped) 0)
    have hadd := (h1.holds.add (NcountWriter.countField_lt (hge (w.symbol + skipped)) hlt) (by omega)).2
    obtain ⟨w', hflush⟩ := @flushFull_total (w1.withCount remaining (normalizedCounter.getD (w.symbol + skipped) 0)) _
      ⟨hadd.room, hadd.even, hadd.pending, hadd.width, hadd.bits⟩ (by
        simp only [NcountWriter.withCount, width_append, width_cons, width_nil]
        omega)
    have hwrite : writeCount normalizedCounter w1 = .ok w' := by
      rw [NcountWriter.writeCount_eq h1 hmore (hge _), hat, if_pos hlt, hflush]
    obtain ⟨_, hready, hsymbol, hprev, hroom'⟩ := NcountWriter.writeCount_ready h1 hmore (hge _) hwrite
    rw [hat] at hready hsymbol hprev
    exact ⟨w', by rw [if_neg (by omega), hwrite], hready, hsymbol, hprev, hroom'.trans hlen⟩
  unfold writeSymbol
  by_cases hprev : w.previousIsZero = true
  · rw [if_pos hprev] at hroom ⊢
    have hnext := nextCounted_eq hin hzero (hcounted hprev)
    obtain ⟨w1, h1⟩ := writeZeroRun_total h.holds h.bitCount_le.2 hnext hin (by omega)
    obtain ⟨hholds, hle, hsame⟩ := h.holds.writeZeroRun_holds h.bitCount_le.2 h1 (by omega) (by omega)
    rw [hnext, Nat.add_sub_cancel_left] at hholds
    rw [hnext] at hsame
    have hready : w1.Ready remaining _ := NcountWriter.Ready.same (w := { w with symbol := w.symbol + skipped })
      ⟨h.remaining_eq, h.remaining_pos, h.remaining_lt, h.threshold_eq, h.nbBits_eq, h.bitCount_le,
        ⟨h.holds.room, h.holds.even, h.holds.pending, h.holds.width, h.holds.bits⟩⟩ hsame hle hholds
    rw [if_pos hprev, h1, ok_bind, ← List.append_assoc]
    exact hcount hready hsame.symbol hsame.room (by rw [if_pos hprev])
  · rw [if_neg hprev] at hroom ⊢
    rw [if_neg hprev, ok_bind]
    have h0 := hnone (Bool.eq_false_iff.2 hprev)
    subst h0
    have hready : w.Ready remaining (fs ++ []) := by rwa [List.append_nil]
    have := hcount hready rfl rfl (by rw [if_neg hprev])
    rwa [List.append_nil] at this

end

/-- The loop has room where the header does. -/
theorem writeCounts_total {normalizedCounter : List Int} {alphabetSize : Nat}
    (halphabet : alphabetSize ≤ normalizedCounter.length)
    (hge : ∀ i, -1 ≤ normalizedCounter.getD i 0) {remaining : Nat} {previousIsZero : Bool} {used : List Int}
    {fs' : List Field} (hheader : Header remaining previousIsZero used fs') :
    ∀ {fuel : Nat} {w : NcountWriter} {fs : List Field}, w.Ready remaining fs → w.previousIsZero = previousIsZero →
      (normalizedCounter.take alphabetSize).drop w.symbol = used → w.symbol + used.length ≤ alphabetSize →
      used.length ≤ fuel → width fs + width fs' ≤ 8 * w.dst.length →
        ∃ w', writeCounts normalizedCounter alphabetSize fuel w = .ok w' ∧ w'.Ready 1 (fs ++ fs') ∧
          w'.dst.length = w.dst.length := by
  induction hheader with
  | done =>
    intro fuel w fs h _ _ _ _ _
    refine ⟨w, ?_, by rw [List.append_nil]; exact h, rfl⟩
    cases fuel with
    | zero => rfl
    | succ fuel =>
      unfold writeCounts
      rw [if_neg (by rw [h.remaining_eq]; norm_num)]
  | @count remaining skipped previousIsZero count counts fs' hmore hc hlt hnone hcounted _ ih =>
    intro fuel w fs h hprev hused hsymbol hfuel hroom
    subst hprev
    simp only [List.length_append, List.length_replicate, List.length_cons] at hsymbol hfuel
    obtain ⟨fuel, rfl⟩ : ∃ n, fuel = n + 1 := ⟨fuel - 1, by omega⟩
    -- the counts from the writer's symbol on
    have hget : ∀ k, k < alphabetSize - w.symbol → normalizedCounter.getD (w.symbol + k) 0 =
        (List.replicate skipped 0 ++ count :: counts).getD k 0 := by
      intro k hk
      rw [← hused, List.getD_eq_getElem _ _ (by omega),
        List.getD_eq_getElem _ _ (by rw [List.length_drop, List.length_take]; omega), List.getElem_drop,
          List.getElem_take]
    have hzero : ∀ i, w.symbol ≤ i → i < w.symbol + skipped → normalizedCounter.getD i 0 = 0 := by
      intro i h1 h2
      obtain ⟨k, rfl⟩ := Nat.exists_eq_add_of_le h1
      rw [hget k (by omega), List.getD_append _ _ _ _ (by rw [List.length_replicate]; omega),
        List.getD_eq_getElem _ _ (by rw [List.length_replicate]; omega), List.getElem_replicate]
    have hat : normalizedCounter.getD (w.symbol + skipped) 0 = count := by
      rw [hget skipped (by omega), List.getD_append_right _ _ _ _ (by rw [List.length_replicate]),
        List.length_replicate, Nat.sub_self]
      rfl
    have hgroup :
        width ((if w.previousIsZero then zeroRunFields skipped else []) ++ countField remaining count :: fs') =
        width ((if w.previousIsZero then zeroRunFields skipped else []) ++ [countField remaining count]) +
          width fs' := by
      simp only [width_append, width_cons, width_nil]
      omega
    rw [hgroup] at hroom
    obtain ⟨w1, h1, hready, hsymbol', hprev', hlen⟩ := @writeSymbol_total w fs normalizedCounter alphabetSize remaining
      skipped h hmore (by omega) hge hzero hnone (by rw [hat]; exact hcounted) (by rw [hat]; exact hlt)
        (by rw [hat]; omega)
    have hgo : w.symbol < alphabetSize ∧ w.remaining > 1 := by
      have := h.remaining_eq
      exact ⟨by omega, by omega⟩
    rw [hat] at hready hprev'
    obtain ⟨w', hloop, hdone, hlen'⟩ := ih hready hprev' (by
        rw [hsymbol', show w.symbol + skipped + 1 = w.symbol + (skipped + 1) by omega, ← List.drop_drop, hused,
          List.drop_append, List.length_replicate, List.drop_eq_nil_of_le (by rw [List.length_replicate]; omega)]
        simp) (by rw [hsymbol']; omega) (show counts.length ≤ fuel by omega)
      (by rw [width_append, hlen]; omega)
    refine ⟨w', ?_, by simpa using hdone, hlen'.trans hlen⟩
    unfold writeCounts
    rw [if_pos hgo, h1, ok_bind, hloop]

/-! ## Exactly the room it takes -/

section
variable {normalizedCounter : List Int} {maxSymbolValue tableLog : Nat} {dst : Bytes}

theorem Normalized.getD_atLeast (hn : Normalized normalizedCounter maxSymbolValue tableLog) (i : Nat) :
    -1 ≤ normalizedCounter.getD i 0 := by
  rcases Nat.lt_or_ge i normalizedCounter.length with hi | hi
  · rw [List.getD_eq_getElem _ _ hi]
    exact hn.atLeast _ (List.getElem_mem _)
  · rw [List.getD_eq_default _ _ hi]
    norm_num

/-- A distribution whose last symbol has a count has a header. -/
theorem Normalized.header (hn : Normalized normalizedCounter maxSymbolValue tableLog)
    (hlast : normalizedCounter.getD maxSymbolValue 0 ≠ 0) :
    Header (2 ^ tableLog + 1) false (normalizedCounter.take (maxSymbolValue + 1))
      ((countGroups normalizedCounter maxSymbolValue tableLog).flatMap Prod.snd) := by
  have hal := hn.alphabet
  have hget : ∀ h : normalizedCounter.take (maxSymbolValue + 1) ≠ [],
      (normalizedCounter.take (maxSymbolValue + 1)).getLast h ≠ 0 := by
    intro h
    rw [List.getLast_eq_getElem, List.getElem_take]
    rw [List.getD_eq_getElem _ _ hal] at hlast
    simpa [List.length_take, Nat.min_eq_left (show maxSymbolValue + 1 ≤ normalizedCounter.length by omega)] using hlast
  have h := (header_exists (fun c hc => hn.atLeast c (List.mem_of_mem_take hc)) hget).2
  rwa [hn.total] at h

/-- `write_ncount` succeeds if and only if the last flush has room. -/
theorem writeNcount_iff (hn : Normalized normalizedCounter maxSymbolValue tableLog)
    (hlast : normalizedCounter.getD maxSymbolValue 0 ≠ 0) (hmax : maxSymbolValue ≤ symbolvalueMax)
    (hlog : minTablelog ≤ tableLog ∧ tableLog ≤ tablelogMax) :
    (∃ size out, writeNcount dst normalizedCounter maxSymbolValue tableLog = .ok (size, out)) ↔
      2 * ((width (headerFields normalizedCounter maxSymbolValue tableLog) - 1) / 16) + 2 ≤ dst.length := by
  have hal := hn.alphabet
  have hheader := hn.header hlast
  constructor
  · rintro ⟨size, out, hwrite⟩
    obtain ⟨_, _, used, zeros, fs, hsplit, hzeros, hheader', _, _, hroom, _⟩ := writeNcount_header hn hwrite
    have hnil := used_all hn hlast hsplit hzeros
    rw [hnil, List.append_nil] at hsplit
    rw [hheader'.fields, ← hsplit] at hroom
    exact hroom
  · intro hroom
    obtain ⟨w', hloop, hready, hlen⟩ := writeCounts_total (show maxSymbolValue + 1 ≤ normalizedCounter.length by omega)
      hn.getD_atLeast hheader (@start_ready dst tableLog hlog) rfl (by rw [List.drop_zero])
        (by rw [List.length_take]; simp only; omega) (show _ ≤ maxSymbolValue + 1 by rw [List.length_take]; omega) (by
        rw [← width_append]
        simp only [headerFields] at hroom
        simp only [List.singleton_append]
        omega)
    obtain ⟨hone, -, -, -, -, hcount, hholds⟩ := hready
    have hw := hholds.width
    have heven := hholds.even
    rw [List.singleton_append] at hw
    unfold writeNcount
    rw [if_neg (by omega), if_neg (not_not_intro hlog)]
    simp only at hlen hloop
    rw [hloop, ok_bind, if_neg (by rw [hone]; norm_num)]
    rw [if_neg (by unfold headerFields at hroom; omega)]
    exact ⟨_, _, rfl⟩

end

end Fse

end Zstandard
