/-
The codes of a Huffman weight description, and what either decode table answers about them.

The encoder's table gives the symbols of every rank consecutive codes, and the ranks of a full tree tile the words
of the table's depth, so its codes are a complete prefix code. A slot of a decode table is such a word: the
single-symbol table answers with the symbol whose code it begins with, the double-symbol table with one or two
symbols that it spells.
-/
import Mathlib.Data.List.GetD
import Zstandard.Library.PrefixCode
import Zstandard.Library.Tans
import Zstandard.Entropy.Packed

namespace Zstandard

open BitStack PrefixCode

namespace Huff0

/-- The codes an encoder writes after the same description. -/
def CTableX1.ctable (t : CTableX1) : CTable := fun symbol => t.entries.getD symbol.toNat default

/-- The code of a symbol as a field of the stream. -/
def CTable.code (ctable : CTable) (symbol : UInt8) : Field := (ctable symbol).field

@[simp] theorem CTable.code_fst (ctable : CTable) (symbol : UInt8) : (ctable.code symbol).1 = (ctable symbol).val := rfl
@[simp] theorem CTable.code_snd (ctable : CTable) (symbol : UInt8) :
    (ctable.code symbol).2 = (ctable symbol).nbBits := rfl

/-! ## Ranks -/

/-- The first slot of a rank in a table of the description's own depth. -/
def firstSlot (weights : List Nat) (w : Nat) : Nat := ∑ i ∈ Finset.range w, weights.count i * (2 ^ i / 2)

/-- The first code of a rank. -/
def firstCode (weights : List Nat) (w : Nat) : Nat := firstSlot weights w / 2 ^ (w - 1)

/-- The weights of a full tree of some depth. -/
structure FullTree (weights : List Nat) (tableLog : Nat) : Prop where
  weight_le : ∀ w ∈ weights, w ≤ tableLog
  total : weightTotal weights = 2 ^ tableLog

theorem Stats.Ok.fullTree {stats : Stats} (h : stats.Ok) : FullTree stats.huffWeight stats.tableLog :=
  ⟨h.weight_le, h.total⟩

section
variable {weights : List Nat} {tableLog w k : Nat}

theorem half_pow (hw : 1 ≤ w) : 2 ^ w / 2 = 2 ^ (w - 1) := by
  obtain ⟨w, rfl⟩ : ∃ n, w = n + 1 := ⟨w - 1, by omega⟩
  rw [pow_succ, Nat.mul_div_cancel _ (by norm_num), Nat.add_sub_cancel]

theorem firstSlot_one (weights : List Nat) : firstSlot weights 1 = 0 := by simp [firstSlot]

theorem firstSlot_succ (weights : List Nat) (hw : 1 ≤ w) :
    firstSlot weights (w + 1) = firstSlot weights w + weights.count w * 2 ^ (w - 1) := by
  rw [firstSlot, Finset.sum_range_succ, half_pow hw]
  rfl

theorem firstSlot_mono (weights : List Nat) {w w' : Nat} (h : w ≤ w') : firstSlot weights w ≤ firstSlot weights w' :=
  Finset.sum_le_sum_of_subset (Finset.range_mono h)

namespace FullTree

variable (h : FullTree weights tableLog)
include h

theorem firstSlot_top : firstSlot weights (tableLog + 1) = 2 ^ tableLog := by
  rw [← h.total, weightTotal_eq_sum h.weight_le]
  rfl

/-- A rank starts at a multiple of the slots one of its symbols takes. -/
theorem firstSlot_dvd (n : Nat) (hn : n ≤ tableLog) : 2 ^ (tableLog - n) ∣ firstSlot weights (tableLog - n + 1) := by
  induction n with
  | zero => rw [Nat.sub_zero, h.firstSlot_top]
  | succ n ih =>
    have ih := ih (by omega)
    have hw : tableLog - (n + 1) + 1 = tableLog - n := by omega
    rw [hw]
    rw [firstSlot_succ _ (by omega), show tableLog - n - 1 = tableLog - (n + 1) by omega] at ih
    have hdvd : 2 ^ (tableLog - (n + 1)) ∣ 2 ^ (tableLog - n) := pow_dvd_pow 2 (by omega)
    exact (Nat.dvd_add_iff_left (Dvd.intro_left _ rfl)).2 (hdvd.trans ih)

theorem firstCode_mul (hw : 1 ≤ w) (hle : w ≤ tableLog + 1) :
    firstCode weights w * 2 ^ (w - 1) = firstSlot weights w := by
  have hdvd := h.firstSlot_dvd (tableLog + 1 - w) (by omega)
  rw [show tableLog - (tableLog + 1 - w) = w - 1 by omega, Nat.sub_add_cancel hw] at hdvd
  exact Nat.div_mul_cancel hdvd

/-- The slots of one symbol lie in its rank. -/
theorem slots_le (hw : 1 ≤ w) (hle : w ≤ tableLog) (hk : k < weights.count w) :
    (firstCode weights w + k + 1) * 2 ^ (w - 1) ≤ firstSlot weights (w + 1) := by
  rw [firstSlot_succ _ hw, ← h.firstCode_mul hw (by omega), Nat.add_assoc, Nat.add_mul]
  exact Nat.add_le_add_left (Nat.mul_le_mul_right _ hk) _

/-- A word lies in one rank. -/
theorem exists_rank {v : Nat} (hv : v < 2 ^ tableLog) :
    ∃ w, 1 ≤ w ∧ w ≤ tableLog ∧ firstSlot weights w ≤ v ∧ v < firstSlot weights (w + 1) := by
  have hex : ∃ w, v < firstSlot weights (w + 1) := ⟨tableLog, by rw [h.firstSlot_top]; exact hv⟩
  have hlt := Nat.find_spec hex
  have hle : Nat.find hex ≤ tableLog := Nat.find_min' hex (by rw [h.firstSlot_top]; exact hv)
  have hpos : 1 ≤ Nat.find hex := by
    by_contra h0
    rw [show Nat.find hex = 0 by omega, firstSlot_one] at hlt
    omega
  refine ⟨Nat.find hex, hpos, hle, ?_, hlt⟩
  have hmin := Nat.find_min hex (m := Nat.find hex - 1) (by omega)
  rw [Nat.sub_add_cancel hpos] at hmin
  omega

end FullTree

/-! ## The encoder's codes -/

theorem count_bitsOfWeight (hle : ∀ x ∈ weights, x ≤ tableLog) (hw : 1 ≤ w) (hwle : w ≤ tableLog) :
    (weights.map (bitsOfWeight tableLog)).count (tableLog + 1 - w) = weights.count w := by
  rw [List.count_eq_countP, List.countP_map, List.count_eq_countP]
  refine List.countP_congr fun x hx => ?_
  have := hle x hx
  unfold bitsOfWeight
  simp only [Function.comp_apply, beq_iff_eq]
  split <;> omega

/-- Halving after every rank leaves the first slot in units of the next one. -/
theorem rankMin_eq (hle : ∀ x ∈ weights, x ≤ tableLog) : ∀ steps, steps ≤ tableLog →
    rankMin (fun n => (weights.map (bitsOfWeight tableLog)).count n) tableLog steps = firstCode weights (steps + 1)
  | 0, _ => by simp [rankMin, firstCode, firstSlot_one]
  | steps + 1, hsteps => by
    have hcount := count_bitsOfWeight hle (show 1 ≤ steps + 1 by omega) hsteps
    rw [show tableLog + 1 - (steps + 1) = tableLog - steps by omega] at hcount
    unfold rankMin
    rw [rankMin_eq hle steps (by omega), hcount, firstCode, firstCode,
      firstSlot_succ weights (show 1 ≤ steps + 1 by omega), Nat.add_sub_cancel, Nat.add_sub_cancel,
      Nat.shiftRight_eq_div_pow, pow_one, pow_succ, ← Nat.div_div_eq_div_mul, Nat.add_mul_div_right _ _ (by positivity)]

theorem assignCodes_length : ∀ (lengths vals : List Nat), (assignCodes lengths vals).length = lengths.length
  | [], _ => rfl
  | n :: lengths, vals => by
    unfold assignCodes
    split <;> rw [List.length_cons, List.length_cons, assignCodes_length]

/-- A symbol's code is the first one of its length and the symbols of that length before it. -/
theorem assignCodes_getElem? {n : Nat} : ∀ {lengths vals : List Nat} {i : Nat}, (∀ m ∈ lengths, m < vals.length) →
    lengths[i]? = some n → (assignCodes lengths vals)[i]? =
      some (if n = 0 then default else { val := vals.getD n 0 + (lengths.take i).count n, nbBits := n })
  | [], _, _, _, hi => by simp at hi
  | m :: lengths, vals, 0, _, hi => by
    cases hi
    unfold assignCodes
    split <;> simp
  | m :: lengths, vals, i + 1, hall, hi => by
    rw [List.getElem?_cons_succ] at hi
    obtain ⟨hm, hall⟩ := List.forall_mem_cons.1 hall
    unfold assignCodes
    by_cases h0 : m = 0
    · rw [if_pos h0, List.getElem?_cons_succ, assignCodes_getElem? hall hi]
      by_cases hn : n = 0
      · rw [if_pos hn, if_pos hn]
      · rw [if_neg hn, if_neg hn, List.take_succ_cons, List.count_cons_of_ne (by omega)]
    · rw [if_neg h0, List.getElem?_cons_succ,
        assignCodes_getElem? (by rw [List.length_set]; exact hall) hi]
      by_cases hn : n = 0
      · rw [if_pos hn, if_pos hn]
      rw [if_neg hn, if_neg hn, List.take_succ_cons]
      by_cases hmn : m = n
      · subst hmn
        rw [List.count_cons_self, List.getD_eq_getElem?_getD, List.getElem?_set_self hm, Option.getD_some]
        congr 2
        omega
      · rw [List.count_cons_of_ne hmn, List.getD_eq_getElem?_getD, List.getElem?_set_ne hmn,
          ← List.getD_eq_getElem?_getD]

/-- The entry of the encoder's table for a symbol of some weight. -/
theorem buildCtableFromWeights_entry {entries : List CElt} (hlog : tableLog ≤ tablelogMax)
    (hle : ∀ x ∈ weights, x ≤ tableLog) (hb : buildCtableFromWeights weights tableLog = .ok entries) {i : Nat}
    (hi : weights[i]? = some w) :
    entries[i]? = some (if w = 0 then default else
      { val := firstCode weights w + (weights.take i).count w, nbBits := tableLog + 1 - w }) := by
  have hmem := List.mem_of_getElem? hi
  have hw := hle w hmem
  unfold buildCtableFromWeights at hb
  split at hb
  · cases hb
  split at hb
  · cases hb
  cases hb
  have hlen : i < weights.length := (List.getElem?_eq_some_iff.1 hi).1
  rw [List.getElem?_append_left (by rw [assignCodes_length, List.length_map]; exact hlen)]
  have hlengths : (weights.map (bitsOfWeight tableLog))[i]? = some (bitsOfWeight tableLog w) := by
    rw [List.getElem?_map, hi]
    rfl
  rw [assignCodes_getElem? ?_ hlengths]
  · by_cases h0 : w = 0
    · rw [if_pos (by simp [bitsOfWeight, h0]), if_pos h0]
    have hbits : bitsOfWeight tableLog w = tableLog + 1 - w := by simp [bitsOfWeight, h0]
    have hfirst := rankMin_eq hle (w - 1) (by omega)
    rw [Nat.sub_add_cancel (by omega)] at hfirst
    rw [hbits, if_neg (by omega), if_neg h0, ← List.map_take,
      count_bitsOfWeight (fun x hx => hle x (List.mem_of_mem_take hx)) (by omega) hw, valPerRank,
      List.getD_eq_getElem?_getD, List.getElem?_map, List.getElem?_range (by omega)]
    simp only [Option.map_some, Option.getD_some]
    rw [if_pos (by omega), show tableLog - (tableLog + 1 - w) = w - 1 by omega, hfirst]
  · intro m hm
    obtain ⟨x, -, rfl⟩ := List.mem_map.1 hm
    simp only [valPerRank, List.length_map, List.length_range, bitsOfWeight]
    split <;> omega

end

end Huff0

/-! ## Descriptions name bytes -/

theorem Fse.decodeTail_length {dt : Fse.DTable} {fast : Bool} {dstLen : Nat} : ∀ (fuel : Nat) {out : List Nat}
    {state other : Nat} {bitD : BitDStream} {result : List Nat},
    Fse.decodeTail dt fast dstLen fuel out state other bitD = .ok result → 2 ≤ dstLen → result.length ≤ dstLen
  | 0, _, _, _, _, _, h, _ => by cases h
  | fuel + 1, out, state, other, bitD, result, h, hdst => by
    unfold Fse.decodeTail at h
    split at h
    · cases h
    simp only at h
    split at h
    · cases h
      simp only [List.length_cons]
      omega
    · exact Fse.decodeTail_length fuel h hdst

theorem Fse.decompress_length {dstLen : Nat} {src : Bytes} {maxSymbolValue maxTableLog : Nat} {result : List Nat}
    (h : Fse.decompress dstLen src maxSymbolValue maxTableLog = .ok result) (hdst : 2 ≤ dstLen) :
    result.length ≤ dstLen := by
  unfold Fse.decompress at h
  obtain ⟨n, -, h⟩ := bind_ok h
  obtain ⟨dtable, -, h⟩ := bind_ok h
  unfold Fse.decompressInterleaved2 at h
  split at h
  · cases h
  obtain ⟨bitD, -, h⟩ := bind_ok h
  simp only at h
  split at h
  · cases h
  obtain ⟨out, hout, h⟩ := bind_ok h
  cases h
  rw [List.length_reverse]
  exact Fse.decodeTail_length _ hout hdst

namespace Huff0

theorem unpackWeights_length : ∀ src : Bytes, (unpackWeights src).length = 2 * src.length
  | [] => rfl
  | _ :: src => by
    rw [unpackWeights, List.length_cons, List.length_cons, unpackWeights_length src, List.length_cons]
    omega

theorem readWeights_length {src : Bytes} {weights : List Nat} {size : Nat} (h : readWeights src = .ok (weights, size)) :
    weights.length ≤ symbolvalueMax := by
  unfold readWeights at h
  split at h
  · cases h
  rename_i header rest
  simp only at h
  split at h
  · split at h
    · cases h
    rename_i hsize
    simp only [Except.ok.injEq, Prod.mk.injEq] at h
    rw [← h.1]
    exact (List.length_take_le _ _).trans (by omega)
  split at h
  · cases h
  · obtain ⟨result, hresult, h⟩ := bind_ok h
    cases h
    exact Fse.decompress_length hresult (by decide)

/-- A description has a weight for every byte at most. -/
theorem readStats_length {src : Bytes} {stats : Stats} (h : readStats src = .ok stats) :
    stats.huffWeight.length ≤ symbolvalueMax + 1 := by
  unfold readStats at h
  obtain ⟨⟨weights, size⟩, hweights, h⟩ := bind_ok h
  have hlen := readWeights_length hweights
  simp only at h
  iterate 5 (split at h; · cases h)
  cases h
  simp only [List.length_append, List.length_singleton]
  omega

/-! ## A complete code -/

/-- The table of an encoder that has read the weights. -/
structure CodesOf (weights : List Nat) (tableLog : Nat) (ctable : CTable) : Prop extends FullTree weights tableLog where
  length_le : weights.length ≤ symbolvalueMax + 1
  entry : ∀ {i w}, weights[i]? = some w → ctable (UInt8.ofNat i) = if w = 0 then default else
    { val := firstCode weights w + (weights.take i).count w, nbBits := tableLog + 1 - w }
  absent : ∀ symbol : UInt8, weights.length ≤ symbol.toNat → ctable symbol = default

theorem readCtableX1_codes {src : Bytes} {stats : Stats} {entries : List CElt} (h : readStats src = .ok stats)
    (hb : buildCtableFromWeights stats.huffWeight stats.tableLog = .ok entries) :
    CodesOf stats.huffWeight stats.tableLog (CTableX1.ctable { tableLog := stats.tableLog, entries }) := by
  have hok := readStats_ok h
  have hlen := readStats_length h
  have hentry := fun {i w} => @buildCtableFromWeights_entry _ _ w _ hok.tableLog_le hok.weight_le hb i
  refine ⟨hok.fullTree, hlen, ?_, ?_⟩
  · intro i w hi
    have hi256 : i < 256 := lt_of_lt_of_le (List.getElem?_eq_some_iff.1 hi).1 hlen
    unfold CTableX1.ctable
    simp only
    rw [UInt8.toNat_ofNat_of_lt' hi256, List.getD_eq_getElem?_getD, hentry hi]
    rfl
  · intro symbol hsymbol
    unfold CTableX1.ctable buildCtableFromWeights at *
    split at hb
    · cases hb
    split at hb
    · cases hb
    cases hb
    simp only
    rw [List.getD_eq_getElem?_getD, List.getElem?_append_right (by rwa [assignCodes_length, List.length_map])]
    rcases hr : (List.replicate (symbolvalueMax + 1 - (assignCodes (stats.huffWeight.map (bitsOfWeight stats.tableLog))
      (valPerRank (fun n => (stats.huffWeight.map (bitsOfWeight stats.tableLog)).count n) stats.tableLog)).length)
      (default : CElt))[symbol.toNat - (assignCodes (stats.huffWeight.map (bitsOfWeight stats.tableLog))
      (valPerRank (fun n => (stats.huffWeight.map (bitsOfWeight stats.tableLog)).count n) stats.tableLog)).length]?
      with _ | e
    · rfl
    · exact List.eq_of_mem_replicate (List.mem_of_getElem? hr)

section
variable {weights : List Nat} {tableLog w k : Nat} {ctable : CTable}

namespace CodesOf

variable (h : CodesOf weights tableLog ctable)
include h

/-- The codes of a rank, in the order of its symbols. -/
theorem code_select (hw : 1 ≤ w) (hk : k < weights.count w) : ctable (UInt8.ofNat (Tans.select w weights k)) =
    { val := firstCode weights w + k, nbBits := tableLog + 1 - w } := by
  obtain ⟨hi, hcount⟩ := Tans.select_spec hk
  rw [h.entry hi, if_neg (by omega), hcount]

/-- Every symbol that has a code is one of a rank. -/
theorem exists_select {symbol : UInt8} (hn : 0 < (ctable symbol).nbBits) : ∃ w k, 1 ≤ w ∧ w ≤ tableLog ∧
    k < weights.count w ∧ symbol = UInt8.ofNat (Tans.select w weights k) := by
  rcases Nat.lt_or_ge symbol.toNat weights.length with hlt | hge
  · have hi : weights[symbol.toNat]? = some weights[symbol.toNat] := List.getElem?_eq_getElem hlt
    generalize weights[symbol.toNat] = w at hi
    have hentry := h.entry hi
    rw [UInt8.ofNat_toNat] at hentry
    have h0 : w ≠ 0 := by
      rintro rfl
      rw [hentry, if_pos rfl] at hn
      exact absurd hn (Nat.lt_irrefl 0)
    refine ⟨w, (weights.take symbol.toNat).count w, by omega, h.weight_le w (List.mem_of_getElem? hi), ?_, ?_⟩
    · have hsplit : weights.count w = (weights.take symbol.toNat).count w + (weights.drop symbol.toNat).count w := by
        rw [← List.count_append, List.take_append_drop]
      have hpos : 0 < (weights.drop symbol.toNat).count w := by
        rw [List.count_pos_iff, List.mem_iff_getElem?]
        exact ⟨0, by rw [List.getElem?_drop]; exact hi⟩
      omega
    · rw [Tans.select_count hi, UInt8.ofNat_toNat]
  · rw [h.absent symbol hge] at hn
    exact absurd hn (Nat.lt_irrefl 0)

/-- The words of any depth that begin with a symbol's code are those of its run. -/
theorem heads_select_iff (hw : 1 ≤ w) (hle : w ≤ tableLog) (hk : k < weights.count w) {depth v : Nat}
    (hdepth : tableLog + 1 - w ≤ depth) (hv : v < 2 ^ depth) :
    Heads ctable.code v depth (UInt8.ofNat (Tans.select w weights k)) ↔
      v / 2 ^ (depth - (tableLog + 1 - w)) = firstCode weights w + k := by
  have hcode := h.code_select hw hk
  have hdiv : v / 2 ^ (depth - (tableLog + 1 - w)) < 2 ^ (tableLog + 1 - w) := by
    rw [Nat.div_lt_iff_lt_mul (by positivity), ← pow_add]
    rwa [show tableLog + 1 - w + (depth - (tableLog + 1 - w)) = depth by omega]
  constructor
  · rintro ⟨-, -, hbits⟩
    rw [CTable.code_snd, CTable.code_fst, hcode, field_eq_div] at hbits
    simp only at hbits
    rwa [Nat.mod_eq_of_lt hdiv] at hbits
  · intro hval
    refine ⟨?_, ?_, ?_⟩ <;> simp only [CTable.code_snd, CTable.code_fst, hcode]
    · omega
    · exact hdepth
    · rw [field_eq_div, Nat.mod_eq_of_lt hdiv]
      exact hval

theorem nbBits_le (symbol : UInt8) : (ctable symbol).nbBits ≤ tableLog := by
  rcases Nat.eq_zero_or_pos (ctable symbol).nbBits with h0 | hpos
  · omega
  · obtain ⟨w, k, hw, hle, hk, rfl⟩ := h.exists_select hpos
    rw [h.code_select hw hk]
    simp only
    omega

/-- Slots of different runs are different. -/
theorem run_unique {w' k' v : Nat} (hw : 1 ≤ w) (hle : w ≤ tableLog) (hk : k < weights.count w) (hw' : 1 ≤ w')
    (hle' : w' ≤ tableLog) (hk' : k' < weights.count w') (hv : v / 2 ^ (w - 1) = firstCode weights w + k)
    (hv' : v / 2 ^ (w' - 1) = firstCode weights w' + k') : w = w' ∧ k = k' := by
  have hbounds : ∀ {w k}, 1 ≤ w → w ≤ tableLog → k < weights.count w → v / 2 ^ (w - 1) = firstCode weights w + k →
      firstSlot weights w ≤ v ∧ v < firstSlot weights (w + 1) := by
    intro w k hw hle hk hv
    constructor
    · rw [← h.firstCode_mul hw (by omega)]
      calc firstCode weights w * 2 ^ (w - 1) ≤ v / 2 ^ (w - 1) * 2 ^ (w - 1) := Nat.mul_le_mul_right _ (by omega)
        _ ≤ v := Nat.div_mul_le_self _ _
    · refine lt_of_lt_of_le ?_ (h.slots_le hw hle hk)
      rw [← hv, ← Nat.div_lt_iff_lt_mul (by positivity)]
      omega
  obtain ⟨h1, h2⟩ := hbounds hw hle hk hv
  obtain ⟨h1', h2'⟩ := hbounds hw' hle' hk' hv'
  have heq : w = w' := by
    rcases Nat.lt_trichotomy w w' with hlt | heq | hlt
    · have := firstSlot_mono weights (show w + 1 ≤ w' by omega)
      omega
    · exact heq
    · have := firstSlot_mono weights (show w' + 1 ≤ w by omega)
      omega
  subst heq
  exact ⟨rfl, by omega⟩

/-- The codes of a full tree are a complete code. -/
theorem complete : Complete ctable.code tableLog := by
  refine ⟨h.nbBits_le, ?_, ?_⟩
  · intro v hv
    obtain ⟨w, hw, hle, hlow, hhigh⟩ := h.exists_rank hv
    rw [firstSlot_succ _ hw] at hhigh
    rw [← h.firstCode_mul hw (by omega)] at hlow hhigh
    rw [← Nat.add_mul, ← Nat.div_lt_iff_lt_mul (by positivity)] at hhigh
    rw [← Nat.le_div_iff_mul_le (by positivity)] at hlow
    refine ⟨_, (h.heads_select_iff (k := v / 2 ^ (w - 1) - firstCode weights w) hw hle (by omega) (by omega) hv).2 ?_⟩
    rw [show tableLog - (tableLog + 1 - w) = w - 1 by omega]
    omega
  · intro v s s' hs hs'
    have hrun : ∀ {s}, Heads ctable.code v tableLog s → ∃ w k, 1 ≤ w ∧ w ≤ tableLog ∧ k < weights.count w ∧
        s = UInt8.ofNat (Tans.select w weights k) ∧ v % 2 ^ tableLog / 2 ^ (w - 1) = firstCode weights w + k := by
      intro s hs
      obtain ⟨w, k, hw, hle, hk, rfl⟩ := h.exists_select hs.pos
      refine ⟨w, k, hw, hle, hk, rfl, ?_⟩
      have hmod : Heads ctable.code (v % 2 ^ tableLog) tableLog (UInt8.ofNat (Tans.select w weights k)) :=
        ⟨hs.pos, hs.le, by rw [field_mod hs.le (le_refl _)]; exact hs.bits⟩
      have := (h.heads_select_iff hw hle hk (by omega) (Nat.mod_lt _ (by positivity))).1 hmod
      rwa [show tableLog - (tableLog + 1 - w) = w - 1 by omega] at this
    obtain ⟨w, k, hw, hle, hk, rfl, hv⟩ := hrun hs
    obtain ⟨w', k', hw', hle', hk', rfl, hv'⟩ := hrun hs'
    obtain ⟨rfl, rfl⟩ := h.run_unique hw hle hk hw' hle' hk' hv hv'
    rfl

end CodesOf

end

end Huff0

end Zstandard
