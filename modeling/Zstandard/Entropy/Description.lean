/-
Both decode tables of a Huffman weight description, built in the arrays of the source.

The tables live in arrays as long as the largest table, which hold an older table; every index is checked, and no
check fails on any bytes. The single-symbol fill writes every slot of its table once. The double-symbol fill reads
the symbols sorted by weight and the ranks rescaled for every number of bits spent; a slot of it answers what the
single-symbol table answers, once or twice in a row.
-/
import Zstandard.Entropy.WeightsSafe

namespace Zstandard

open BitStack PrefixCode

/-- A loop that leaves a running total in every slot it passes: the total so far, then the slot's share. -/
def runningTotals (share : List Nat → Nat → Option Nat) : Nat → Nat → Nat → List Nat → Option (List Nat × Nat)
  | 0, _, next, a => some (a, next)
  | n + 1, index, next, a => do
    let part ← share a index
    let a ← setChecked a index next
    runningTotals share n (index + 1) (next + part) a

/-- The slots that were passed hold the totals, the others what they held. -/
theorem runningTotals_eq (share : List Nat → Nat → Option Nat) (total : Nat → Nat) : ∀ (n index : Nat) {a : List Nat},
    (∀ i (b : List Nat), index ≤ i → i < index + n → b[i]? = a[i]? →
      ∃ part, share b i = some part ∧ total (i + 1) = total i + part) →
    index + n ≤ a.length →
      ∃ a', runningTotals share n index (total index) a = some (a', total (index + n)) ∧ a'.length = a.length ∧
        ∀ j, a'.getD j 0 = if index ≤ j ∧ j < index + n then total j else a.getD j 0
  | 0, index, a, _, _ => by
    refine ⟨a, rfl, rfl, fun j => ?_⟩
    rw [if_neg (by omega)]
  | n + 1, index, a, hshare, hlen => by
    obtain ⟨part, hpart, htotal⟩ := hshare index a (le_refl _) (by omega) rfl
    obtain ⟨a', hloop, hlen', hget⟩ := runningTotals_eq share total n (index + 1)
      (a := a.set index (total index)) (fun i b hi hlt hb => hshare i b (by omega) (by omega)
        (by rw [hb, List.getElem?_set_ne (by omega)])) (by rw [List.length_set]; omega)
    unfold runningTotals
    rw [hpart, setChecked_eq (by omega)]
    simp only [Option.bind_eq_bind, Option.bind_some]
    rw [← htotal, hloop, show index + 1 + n = index + (n + 1) by omega]
    refine ⟨a', rfl, hlen'.trans List.length_set, fun j => ?_⟩
    rw [hget]
    by_cases hj : j = index
    · subst hj
      rw [if_neg (by omega), if_pos (by omega), List.getD_eq_getElem?_getD, List.getElem?_set_self (by omega),
        Option.getD_some]
    · rw [List.getD_eq_getElem?_getD, List.getElem?_set_ne (by omega), ← List.getD_eq_getElem?_getD]
      by_cases hin : index + 1 ≤ j ∧ j < index + 1 + n
      · rw [if_pos hin, if_pos (by omega)]
      · rw [if_neg hin, if_neg (by omega)]

namespace Huff0

/-- The length of either table array. -/
def dtableSize : Nat := 2 ^ tablelogMax

/-! ## The codes -/

/-- The canonical codes of a description. -/
def Stats.codes (stats : Stats) : CTable := fun symbol =>
  let w := stats.huffWeight.getD symbol.toNat 0
  if w = 0 then default
  else { val := firstCode stats.huffWeight w + (stats.huffWeight.take symbol.toNat).count w
         nbBits := stats.tableLog + 1 - w }

theorem readStats_codes {src : Bytes} {stats : Stats} (h : readStats src = .ok stats) :
    CodesOf stats.huffWeight stats.tableLog stats.codes := by
  have hlen := readStats_length h
  unfold symbolvalueMax at hlen
  refine ⟨(readStats_ok h).fullTree, hlen, ?_, ?_⟩
  · intro i w hi
    have hin := (List.getElem?_eq_some_iff.1 hi).1
    unfold Stats.codes
    rw [UInt8.toNat_ofNat_of_lt' (by change i < 256; omega), List.getD_eq_getElem?_getD, hi, Option.getD_some]
  · intro symbol hsymbol
    unfold Stats.codes
    rw [List.getD_eq_default _ _ hsymbol]
    rfl

/-! ## The single-symbol table -/

/-- The fill loop of `read_dtable_x1`. -/
def fillDtableX1Checked (tableLog : Nat) : List (Nat × Nat) → List Nat → List DEltX1 → Option (List DEltX1)
  | [], _, entries => some entries
  | (weight, symbol) :: rest, rankVal, entries => do
    let start ← rankVal[weight]?
    let stop := start + 2 ^ weight / 2
    if tableLog + 1 < weight ∨ entries.length < stop then none else
    fillDtableX1Checked tableLog rest (rankVal.set weight stop)
      (fillRange entries start stop { byte := UInt8.ofNat symbol, nbBits := tableLog + 1 - weight })

/-- The first slot of every rank; the loop overwrites the counts it reads. -/
def Stats.startsX1 (stats : Stats) : Option (List Nat × Nat) :=
  runningTotals (fun a index => (a[index]?).map (· * 2 ^ (index - 1))) stats.tableLog 1 0 stats.rankStats

/-- `read_dtable_x1` into a table in use. -/
def readDtableX1Checked (dtable : DTableX1) (src : Bytes) : Option (Result (DTableX1 × Nat)) := do
  match ← readStatsChecked src with
  | .error e => some (.error e)
  | .ok stats => do
    if 2 ^ stats.tableLog > dtable.entries.length then
      some (.error (.corruption "Huff0 table log exceeds decode table capacity")) else
    let (rankVal, _) ← stats.startsX1
    let entries ← fillDtableX1Checked stats.tableLog (stats.huffWeight.take stats.nbSymbols).zipIdx
      rankVal dtable.entries
    some (.ok ({ tableLog := stats.tableLog, entries }, stats.size))

/-- The slots that the fill writes, in order. -/
def slotsX1 : List Nat → List Nat → List Nat
  | [], _ => []
  | weight :: rest, rankVal =>
    let start := rankVal.getD weight 0
    List.range' start (2 ^ weight / 2) ++ slotsX1 rest (rankVal.set weight (start + 2 ^ weight / 2))

theorem slotsX1_length : ∀ (weights rankVal : List Nat), (slotsX1 weights rankVal).length = weightTotal weights
  | [], _ => rfl
  | weight :: rest, rankVal => by
    unfold slotsX1
    rw [List.length_append, List.length_range', slotsX1_length rest]
    unfold weightTotal
    rw [List.map_cons, List.sum_cons]

/-- A symbol's run lies behind the runs of its rank before it. -/
theorem mem_slotsX1 {v w : Nat} : ∀ {weights rankVal : List Nat} {i : Nat}, (∀ x ∈ weights, x < rankVal.length) →
    weights[i]? = some w → rankVal.getD w 0 + (weights.take i).count w * (2 ^ w / 2) ≤ v →
      v < rankVal.getD w 0 + ((weights.take i).count w + 1) * (2 ^ w / 2) → v ∈ slotsX1 weights rankVal
  | [], _, _, _, hi, _, _ => by simp at hi
  | weight :: rest, rankVal, 0, _, hi, hlow, hhigh => by
    cases hi
    unfold slotsX1
    rw [List.take_zero, List.count_nil, Nat.zero_mul] at hlow
    rw [List.take_zero, List.count_nil, Nat.zero_add, Nat.one_mul] at hhigh
    rw [List.mem_append, List.mem_range'_1]
    omega
  | weight :: rest, rankVal, i + 1, hall, hi, hlow, hhigh => by
    have hweight := hall weight (by simp)
    rw [List.getElem?_cons_succ] at hi
    rw [List.take_succ_cons, List.count_cons] at hlow hhigh
    unfold slotsX1
    rw [List.mem_append]
    refine .inr (mem_slotsX1 (w := w) (fun x hx => by rw [List.length_set]; exact hall x (by simp [hx])) hi ?_ ?_)
    all_goals
      rw [List.getD_eq_getElem?_getD, List.getElem?_set]
      by_cases hw : weight = w
      · subst hw
        rw [if_pos (by simp)] at hlow hhigh
        rw [if_pos rfl, if_pos hweight, Option.getD_some]
        simp only [Nat.add_mul, Nat.one_mul] at hlow hhigh ⊢
        omega
      · rw [if_neg (by simpa using hw)] at hlow hhigh
        rw [if_neg hw, ← List.getD_eq_getElem?_getD]
        omega

section
variable {weights : List Nat} {tableLog : Nat} {ctable : CTable}

/-- The ranks of a full tree, filled one after the other, write every slot once. -/
theorem CodesOf.slotsX1_perm (h : CodesOf weights tableLog ctable) {rankVal : List Nat}
    (hlen : tableLog < rankVal.length) (hnext : ∀ w, 1 ≤ w → w ≤ tableLog → rankVal.getD w 0 = firstSlot weights w) :
    (slotsX1 weights rankVal).Perm (List.range (2 ^ tableLog)) := by
  symm
  refine (List.Nodup.subperm List.nodup_range ?_).perm_of_length_le ?_
  · intro v hv
    obtain ⟨w, hw, hle, hlow, hhigh⟩ := h.exists_rank (List.mem_range.1 hv)
    rw [firstSlot_succ _ hw] at hhigh
    have hpos : 0 < 2 ^ (w - 1) := by positivity
    have hk : (v - firstSlot weights w) / 2 ^ (w - 1) < weights.count w := by
      rw [Nat.div_lt_iff_lt_mul hpos]
      omega
    have hsplit := Nat.div_add_mod (v - firstSlot weights w) (2 ^ (w - 1))
    have hmod := Nat.mod_lt (v - firstSlot weights w) hpos
    obtain ⟨hselect, hrank⟩ := Tans.select_spec hk
    generalize (v - firstSlot weights w) / 2 ^ (w - 1) = k at *
    rw [Nat.mul_comm] at hsplit
    refine mem_slotsX1 (fun x hx => ?_) hselect ?_ ?_
    · have := h.weight_le x hx
      omega
    · rw [hrank, hnext w hw hle, half_pow hw]
      omega
    · rw [hrank, hnext w hw hle, half_pow hw, Nat.add_mul, Nat.one_mul]
      omega
  · rw [slotsX1_length, h.total, List.length_range]

/-- The checked fill is the fill, in front of what the array holds behind the table. -/
theorem CodesOf.fillDtableX1Checked_eq (h : CodesOf weights tableLog ctable) (unused : List DEltX1) :
    ∀ (rest pre : List Nat) {rankVal ranks : List Nat} {entries : List DEltX1}, weights = pre ++ rest →
      Filled ctable tableLog pre weights rankVal entries → tableLog < ranks.length →
      (∀ w, 1 ≤ w → w ≤ tableLog → ranks.getD w 0 = rankVal.getD w 0) →
      ranks.getD 0 0 ≤ entries.length + unused.length →
        fillDtableX1Checked tableLog (rest.zipIdx pre.length) ranks (entries ++ unused) =
          some (Huff0.fillDtableX1 tableLog (rest.zipIdx pre.length) rankVal entries ++ unused)
  | [], _, _, _, _, _, _, _, _, _ => rfl
  | w :: rest, pre, rankVal, ranks, entries, hsplit, hfilled, hlen, hranks, habsent => by
    have hw : w ≤ tableLog := h.weight_le w (by rw [hsplit]; simp)
    have hnext : pre.length + 1 = (pre ++ [w]).length := by rw [List.length_append, List.length_singleton]
    obtain ⟨hstop, hfilled'⟩ := h.fillRun hsplit hfilled
    have hget : ranks[w]? = some (ranks.getD w 0) := by
      rw [List.getD_eq_getElem _ _ (by omega), List.getElem?_eq_getElem]
    rw [List.zipIdx_cons, hnext]
    unfold fillDtableX1Checked Huff0.fillDtableX1
    rw [hget, Option.bind_eq_bind, Option.bind_some]
    rcases Nat.eq_zero_or_pos w with rfl | hpos
    · -- an absent symbol fills nothing, wherever its rank says
      have hnone : ∀ (slots : List DEltX1) (start : Nat) (e : DEltX1), fillRange slots start start e = slots := by
        intro slots start e
        simp [fillRange]
      rw [if_neg (by rw [List.length_append]; simp only [pow_zero, Nat.reduceDiv, Nat.add_zero]; omega)]
      simp only [hnone, show (2 : Nat) ^ 0 / 2 = 0 from rfl, Nat.add_zero] at hfilled' ⊢
      apply h.fillDtableX1Checked_eq unused rest (pre ++ [0]) (by rw [hsplit]; simp) hfilled'
      · rw [List.length_set]
        exact hlen
      · intro x hx hxle
        rw [List.getD_eq_getElem?_getD, List.getElem?_set_ne (by omega), ← List.getD_eq_getElem?_getD,
          List.getD_eq_getElem?_getD (l := rankVal.set 0 _), List.getElem?_set_ne (by omega),
            ← List.getD_eq_getElem?_getD]
        exact hranks x hx hxle
      · rw [List.getD_eq_getElem?_getD, List.getElem?_set_self (by omega), Option.getD_some]
        exact habsent
    · have hstop := hstop hpos
      have hfill : ∀ e : DEltX1, fillRange (entries ++ unused) (rankVal.getD w 0) (rankVal.getD w 0 + 2 ^ w / 2) e =
          fillRange entries (rankVal.getD w 0) (rankVal.getD w 0 + 2 ^ w / 2) e ++ unused := by
        intro e
        unfold fillRange
        rw [List.take_append_of_le_length (le_trans (Nat.le_add_right _ _) hstop),
          List.drop_append_of_le_length hstop]
        simp only [List.append_assoc]
      rw [hranks w hpos hw, if_neg (by rw [List.length_append]; omega), hfill]
      apply h.fillDtableX1Checked_eq unused rest (pre ++ [w]) (by rw [hsplit]; simp) hfilled'
      · rw [List.length_set]
        exact hlen
      · intro x hx hxle
        rw [List.getD_eq_getElem?_getD, @List.getD_eq_getElem?_getD _ (rankVal.set _ _)]
        by_cases hxw : w = x
        · subst hxw
          rw [List.getElem?_set_self (by omega), List.getElem?_set_self (by rw [hfilled.ranks]; omega)]
        · rw [List.getElem?_set_ne hxw, List.getElem?_set_ne hxw, ← List.getD_eq_getElem?_getD,
            ← List.getD_eq_getElem?_getD]
          exact hranks x hx hxle
      · rw [List.getD_eq_getElem?_getD, List.getElem?_set_ne (by omega), ← List.getD_eq_getElem?_getD, hfilled'.length,
          ← hfilled.length]
        exact habsent

end

/-- The ranks start where the ranks below them end. The first one, of the absent symbols, keeps its count. -/
theorem startsX1_eq {src : Bytes} {stats : Stats} (h : readStats src = .ok stats) :
    ∃ rankVal next, stats.startsX1 = some (rankVal, next) ∧ rankVal.length = tablelogMax + 1 ∧
      rankVal.getD 0 0 = stats.huffWeight.count 0 ∧
      ∀ w, 1 ≤ w → w ≤ stats.tableLog → rankVal.getD w 0 = firstSlot stats.huffWeight w := by
  have hok := readStats_ok h
  have hlog := hok.tableLog_le
  have hlen : stats.rankStats.length = tablelogMax + 1 := by
    rw [readStats_rankStats h, List.length_map, List.length_range]
  obtain ⟨rankVal, hloop, hlen', hget⟩ := runningTotals_eq (fun a index => (a[index]?).map (· * 2 ^ (index - 1)))
    (firstSlot stats.huffWeight) stats.tableLog 1 (a := stats.rankStats) (fun i b hi hlt hb => by
      refine ⟨stats.huffWeight.count i * 2 ^ (i - 1), ?_, firstSlot_succ _ hi⟩
      rw [hb, readStats_rankStats h, List.getElem?_map, List.getElem?_range (by omega)]
      rfl) (by omega)
  rw [firstSlot_one] at hloop
  refine ⟨rankVal, _, hloop, hlen'.trans hlen, ?_, fun w hw hle => ?_⟩
  · rw [hget, if_neg (by omega), hok.ranks 0 (by omega)]
  · rw [hget, if_pos (by omega)]

/-- A description that is read gives its single-symbol table, whatever the array held. -/
theorem readDtableX1Checked_ok {dtable : DTableX1} (hsize : dtable.entries.length = dtableSize) {src : Bytes}
    {stats : Stats} (h : readStats src = .ok stats) :
    ∃ t rankVal next, readDtableX1Checked dtable src = some (.ok (t, stats.size)) ∧ t.tableLog = stats.tableLog ∧
      t.entries.length = dtableSize ∧ stats.startsX1 = some (rankVal, next) ∧
      (slotsX1 stats.huffWeight rankVal).Perm (List.range (2 ^ t.tableLog)) ∧ t.Decodes stats.codes := by
  have hok := readStats_ok h
  have hlog := hok.tableLog_le
  have hcodes := readStats_codes h
  have hroom : 2 ^ stats.tableLog ≤ dtable.entries.length := by
    rw [hsize]
    exact Nat.pow_le_pow_right (by norm_num) hlog
  obtain ⟨rankVal, next, hstarts, hlen, habsent, hnext⟩ := startsX1_eq h
  have hactive : (dtable.entries.take (2 ^ stats.tableLog)).length = 2 ^ stats.tableLog := by
    rw [List.length_take]
    omega
  have hfilled := @filled_nil _ _ stats.codes h hcodes.toFullTree _ hactive
  have hfill : fillDtableX1Checked stats.tableLog stats.huffWeight.zipIdx rankVal dtable.entries =
      some (Huff0.fillDtableX1 stats.tableLog stats.huffWeight.zipIdx
        (0 :: rankStarts ((stats.rankStats.drop 1).take stats.tableLog) 1 0)
        (dtable.entries.take (2 ^ stats.tableLog)) ++ dtable.entries.drop (2 ^ stats.tableLog)) := by
    have hrun := hcodes.fillDtableX1Checked_eq (dtable.entries.drop (2 ^ stats.tableLog))
      stats.huffWeight [] rfl hfilled (show stats.tableLog < rankVal.length by omega) (fun w hw hle => by
        rw [hnext w hw hle, hfilled.next w hw hle, List.count_nil, Nat.add_zero,
          hcodes.firstCode_mul hw (by omega)]) (by
        have h1 : stats.huffWeight.count 0 ≤ stats.huffWeight.length := List.count_le_length
        have h2 := hcodes.length_le
        rw [habsent, hactive, List.length_drop, Nat.add_sub_cancel' hroom, hsize]
        exact le_trans (h1.trans h2) (by decide))
    rwa [List.take_append_drop] at hrun
  obtain ⟨rankVal', hdone⟩ := hcodes.fillDtableX1 stats.huffWeight [] rfl hfilled
  rw [List.length_nil] at hdone
  unfold readDtableX1Checked
  rw [readStatsChecked_eq, h]
  simp only [Option.bind_eq_bind, Option.bind_some]
  rw [if_neg (by omega), hstarts]
  simp only [Option.bind_some]
  rw [hok.symbols, List.take_length]
  rw [hfill, Option.bind_some]
  refine ⟨_, rankVal, next, rfl, rfl, ?_, rfl, hcodes.slotsX1_perm (by omega) hnext, hok.tableLog_pos, hlog,
    hcodes.complete, fun v hv => ?_⟩
  · simp only
    rw [List.length_append, hdone.length, List.length_drop, Nat.add_sub_cancel' hroom, hsize]
  · simp only at hv ⊢
    have hin := hdone.length
    rw [List.getD_append _ _ _ _ (by omega)]
    exact hcodes.answers hdone hv

end Huff0

end Zstandard
