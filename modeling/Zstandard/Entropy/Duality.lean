/-
The FSE compression table inverts the decode table.

Both are laid out over the same spread. The encoder goes from a state to the slot where its symbol
occurs for the matching time, after shedding the bits that the decoder reads back there: the slot's entry
has the width that was shed and the baseline that gives the state back.
-/
import Zstandard.Entropy.Ctables
import Zstandard.Entropy.Spread
import Zstandard.Library.Tans

namespace Zstandard

namespace Fse

/-! ## Encoder states -/

/-- `ct.state_table.get(index as usize)`: a negative index is beyond every table. -/
def CTable.stateAt (ct : CTable) (index : Int) : Result Nat :=
  match if 0 ≤ index then ct.stateTable[index.toNat]? else none with
  | some state => .ok state
  | none => .error (.corruption "FSE compression state exceeds table size")

/-- `init_cstate2`: the first state of a symbol. -/
def initCstate2 (ct : CTable) (symbol : Nat) : Result Nat :=
  if symbol > ct.maxSymbolValue then .error (.corruption "FSE symbol exceeds compression table") else
  let transform := ct.symbolTt.getD symbol default
  let nbBitsOut := (transform.deltaNbBits + 2 ^ 15) >>> 16
  let value := (nbBitsOut <<< 16) - transform.deltaNbBits
  ct.stateAt ((value >>> nbBitsOut : Nat) + transform.deltaFindState)

/-- `encode_symbol` up to the bits it adds: how many low bits of the state they are, and the next state. -/
def encodeState (ct : CTable) (value symbol : Nat) : Result (Nat × Nat) :=
  if symbol > ct.maxSymbolValue then .error (.corruption "FSE symbol exceeds compression table") else
  let transform := ct.symbolTt.getD symbol default
  let nbBitsOut := (value + transform.deltaNbBits) >>> 16
  do
    let next ← ct.stateAt ((value >>> nbBitsOut : Nat) + transform.deltaFindState)
    .ok (nbBitsOut, next)

/-- An encoder table over `states` and decode entries are dual: `share` says how many slots each symbol
has, and every transition of the encoder is undone by the entry it leads to. -/
structure Dual (tableLog : Nat) (states : Nat → Prop) (share : Nat → Nat) (ct : CTable)
    (entries : List DecodeEntry) : Prop where
  tableLog_eq : ct.tableLog = tableLog
  step : ∀ {symbol value}, share symbol ≠ 0 → states value → ∃ nbBits next newState,
    encodeState ct value symbol = .ok (nbBits, next) ∧ nbBits ≤ tableLog ∧ states next ∧
      entries[next % 2 ^ tableLog]? = some { newState, symbol, nbBits } ∧
      newState + value % 2 ^ nbBits = value % 2 ^ tableLog
  init : ∀ {symbol}, share symbol ≠ 0 → ∃ first newState nbBits,
    initCstate2 ct symbol = .ok first ∧ states first ∧
      entries[first % 2 ^ tableLog]? = some { newState, symbol, nbBits } ∧ nbBits ≤ tableLog ∧
      (share symbol < 2 ^ tableLog → 1 ≤ nbBits)
  wide : ∀ e ∈ entries, 2 * share e.symbol ≤ 2 ^ tableLog → 1 ≤ e.nbBits

/-! ## The decode entries -/

theorem stateEntries_getElem? (tableLog : Nat) : ∀ {slots next : List Nat} {u s : Nat}, slots[u]? = some s →
    (∀ s ∈ slots, s < next.length) →
      (stateEntries tableLog slots next)[u]? =
        some (let x := next.getD s 0 + (slots.take u).count s
          { newState := (x <<< (tableLog - highbit32 x)) - 2 ^ tableLog, symbol := s
            nbBits := tableLog - highbit32 x })
  | [], _, u, s, h, _ => by simp at h
  | symbol :: rest, next, 0, s, h, _ => by
    cases h
    simp [stateEntries]
  | symbol :: rest, next, u + 1, s, h, hlt => by
    rw [List.getElem?_cons_succ] at h
    have hsym := hlt symbol List.mem_cons_self
    have ih := @stateEntries_getElem? tableLog _ (next.set symbol (next.getD symbol 0 + 1)) _ _ h
      fun s hs => by rw [List.length_set]; exact hlt s (List.mem_cons_of_mem _ hs)
    have hnext : (next.set symbol (next.getD symbol 0 + 1)).getD s 0 + (rest.take u).count s =
        next.getD s 0 + ((symbol :: rest).take (u + 1)).count s := by
      rw [List.take_succ_cons, List.count_cons, List.getD_eq_getElem?_getD, List.getElem?_set,
        List.getD_eq_getElem?_getD, List.getD_eq_getElem?_getD]
      by_cases hs : symbol = s
      · subst hs
        rw [if_pos rfl, if_pos hsym, if_pos (by simp)]
        simp only [Option.getD_some]
        omega
      · rw [if_neg hs, if_neg (by simpa using hs), Nat.add_zero]
    unfold stateEntries
    rw [List.getElem?_cons_succ, ih]
    simp only
    rw [hnext]

/-! ## The encoder's states -/

theorem count_cons_eq (symbol s : Nat) (slots : List Nat) :
    (symbol :: slots).count s = slots.count s + if s = symbol then 1 else 0 := by
  rw [List.count_cons]
  by_cases hs : s = symbol
  · simp [hs]
  · rw [if_neg hs, if_neg (by simpa using Ne.symm hs)]

/-- The states that the encoder files for each symbol start at `base` and do not overlap. -/
structure Filing (slots cumul stateTable : List Nat) : Prop where
  symbols : ∀ s ∈ slots, s < cumul.length
  within : ∀ s ∈ slots, cumul.getD s 0 + slots.count s ≤ stateTable.length
  apart : ∀ s t, s ≠ t → ∀ i, cumul.getD s 0 ≤ i → i < cumul.getD s 0 + slots.count s →
    ¬ (cumul.getD t 0 ≤ i ∧ i < cumul.getD t 0 + slots.count t)

theorem Filing.tail {symbol state : Nat} {slots cumul stateTable : List Nat}
    (h : Filing (symbol :: slots) cumul stateTable) :
    (∀ s, (cumul.set symbol (cumul.getD symbol 0 + 1)).getD s 0 =
        if s = symbol then cumul.getD symbol 0 + 1 else cumul.getD s 0) ∧
      Filing slots (cumul.set symbol (cumul.getD symbol 0 + 1)) (stateTable.set (cumul.getD symbol 0) state) := by
  have hsym := h.symbols symbol List.mem_cons_self
  have hget : ∀ s, (cumul.set symbol (cumul.getD symbol 0 + 1)).getD s 0 =
      if s = symbol then cumul.getD symbol 0 + 1 else cumul.getD s 0 := by
    intro s
    rw [List.getD_eq_getElem?_getD, List.getElem?_set]
    by_cases hs : symbol = s
    · subst hs
      rw [if_pos rfl, if_pos hsym, if_pos rfl]
      rfl
    · rw [if_neg hs, if_neg (by omega), ← List.getD_eq_getElem?_getD]
  have hcount := fun s => count_cons_eq symbol s slots
  refine ⟨hget, ?_, ?_, ?_⟩
  · intro s hs
    rw [List.length_set]
    exact h.symbols s (List.mem_cons_of_mem _ hs)
  · intro s hs
    have := h.within s (List.mem_cons_of_mem _ hs)
    rw [hcount] at this
    rw [List.length_set, hget]
    by_cases hs : s = symbol
    · rw [if_pos hs] at this ⊢
      rw [hs] at this ⊢
      omega
    · rw [if_neg hs] at this ⊢
      omega
  · intro s t hst i h1 h2
    have hapart := h.apart s t hst i
    rw [hcount, hcount] at hapart
    rw [hget] at h1 h2 ⊢
    by_cases hs : s = symbol
    · subst hs
      rw [if_pos rfl] at h1 h2 hapart
      rw [if_neg (Ne.symm hst)] at hapart ⊢
      exact hapart (by omega) (by omega)
    · rw [if_neg hs] at h1 h2 hapart
      by_cases ht : t = symbol
      · subst ht
        rw [if_pos rfl] at hapart ⊢
        have := hapart h1 (by omega)
        omega
      · rw [if_neg ht] at hapart ⊢
        exact hapart h1 (by omega)

/-- The states of every symbol are filed in slot order, and nothing else is touched. -/
theorem fillStateTable_spec (tableSize : Nat) : ∀ (slots : List Nat) (u : Nat) {cumul stateTable : List Nat},
    Filing slots cumul stateTable →
      (fillStateTable tableSize slots u cumul stateTable).length = stateTable.length ∧
      (∀ s r, r < slots.count s → (fillStateTable tableSize slots u cumul stateTable)[cumul.getD s 0 + r]? =
        some (tableSize + (u + Tans.select s slots r))) ∧
      ∀ i, (∀ s, ¬ (cumul.getD s 0 ≤ i ∧ i < cumul.getD s 0 + slots.count s)) →
        (fillStateTable tableSize slots u cumul stateTable)[i]? = stateTable[i]?
  | [], u, _, _, _ => ⟨rfl, fun s r h => by simp at h, fun _ _ => rfl⟩
  | symbol :: slots, u, cumul, stateTable, h => by
    obtain ⟨hget, htail⟩ := @Filing.tail _ (tableSize + u) _ _ _ h
    obtain ⟨hlen, hfiled, hframe⟩ := fillStateTable_spec tableSize slots (u + 1) htail
    rw [List.length_set] at hlen
    have hcount := fun s => count_cons_eq symbol s slots
    unfold fillStateTable
    simp only
    refine ⟨hlen, fun s r hr => ?_, fun i hi => ?_⟩
    · by_cases hs : s = symbol
      · subst hs
        rcases Nat.eq_zero_or_pos r with rfl | hr0
        · -- the slot just filed, which the rest leaves alone
          have hfree : ∀ t, ¬ ((cumul.set s (cumul.getD s 0 + 1)).getD t 0 ≤ cumul.getD s 0 ∧
              cumul.getD s 0 < (cumul.set s (cumul.getD s 0 + 1)).getD t 0 + slots.count t) := by
            intro t
            rw [hget]
            by_cases ht : t = s
            · rw [if_pos ht]
              omega
            · rw [if_neg ht]
              have := h.apart s t (Ne.symm ht) (cumul.getD s 0) (le_refl _) (by omega)
              rwa [hcount t, if_neg ht] at this
          have hin := h.within s List.mem_cons_self
          rw [Nat.add_zero (cumul.getD s 0), hframe _ hfree, List.getElem?_set, if_pos rfl, if_pos (by omega)]
          simp [Tans.select]
        · rw [hcount, if_pos rfl] at hr
          have := hfiled s (r - 1) (by omega)
          rw [hget, if_pos rfl, show cumul.getD s 0 + 1 + (r - 1) = cumul.getD s 0 + r by omega] at this
          rw [this]
          simp only [Tans.select, if_true, if_neg (show ¬ r = 0 by omega)]
          congr 1
          omega
      · rw [hcount, if_neg hs] at hr
        have := hfiled s r (by omega)
        rw [hget, if_neg hs] at this
        rw [this]
        simp only [Tans.select, if_neg (Ne.symm hs)]
        congr 1
        omega
    · have hfree : ∀ t, ¬ ((cumul.set symbol (cumul.getD symbol 0 + 1)).getD t 0 ≤ i ∧
          i < (cumul.set symbol (cumul.getD symbol 0 + 1)).getD t 0 + slots.count t) := by
        intro t
        have := hi t
        rw [hcount] at this
        rw [hget]
        by_cases ht : t = symbol
        · rw [if_pos ht] at this ⊢
          rw [ht] at this ⊢
          omega
        · rw [if_neg ht] at this ⊢
          exact this
      have hself := hi symbol
      rw [hcount, if_pos rfl] at hself
      rw [hframe i hfree, List.getElem?_set, if_neg (by omega)]

/-! ## Totals -/

theorem slotTotal_take_succ (counts : List Int) (s : Nat) :
    slotTotal (counts.take (s + 1)) = slotTotal (counts.take s) + (counts.getD s 0).natAbs := by
  rw [List.take_add_one, slotTotal_append, List.getD_eq_getElem?_getD]
  cases counts[s]? with
  | none => rfl
  | some c => simp [slotTotal]

theorem slotTotal_take_mono (counts : List Int) {s t : Nat} (h : s ≤ t) :
    slotTotal (counts.take s) ≤ slotTotal (counts.take t) := by
  induction h with
  | refl => exact le_refl _
  | step _ ih =>
    rw [slotTotal_take_succ]
    omega

theorem slotTotal_take_le (counts : List Int) (s : Nat) : slotTotal (counts.take s) ≤ slotTotal counts := by
  have h := slotTotal_take_mono counts (show s ≤ s + counts.length by omega)
  rwa [List.take_of_length_le (show counts.length ≤ s + counts.length by omega)] at h

theorem length_cumulative : ∀ (counts : List Int) (total : Nat), (cumulative counts total).length = counts.length
  | [], _ => rfl
  | _ :: counts, _ => by rw [cumulative, List.length_cons, length_cumulative counts, List.length_cons]

theorem cumulative_getD : ∀ (counts : List Int) (total s : Nat), s < counts.length →
    (cumulative counts total).getD s 0 = total + slotTotal (counts.take s)
  | [], _, _, h => absurd h (Nat.not_lt_zero _)
  | _ :: _, total, 0, _ => by simp [cumulative, slotTotal]
  | c :: counts, total, s + 1, h => by
    rw [List.length_cons] at h
    rw [cumulative, List.getD_cons_succ, cumulative_getD counts _ s (by omega), List.take_succ_cons]
    simp only [slotTotal, List.map_cons, List.sum_cons]
    omega

theorem length_symbolTransforms (tableLog : Nat) : ∀ (counts : List Int) (total : Nat),
    (symbolTransforms tableLog counts total).length = counts.length
  | [], _ => rfl
  | _ :: counts, _ => by
    rw [symbolTransforms, List.length_cons, length_symbolTransforms tableLog counts, List.length_cons]

theorem symbolTransforms_getD (tableLog : Nat) : ∀ (counts : List Int) (total s : Nat), s < counts.length →
    (symbolTransforms tableLog counts total).getD s default =
      symbolTransform tableLog (counts.getD s 0) (total + slotTotal (counts.take s))
  | [], _, _, h => absurd h (Nat.not_lt_zero _)
  | _ :: _, total, 0, _ => by simp [symbolTransforms, slotTotal]
  | c :: counts, total, s + 1, h => by
    rw [List.length_cons] at h
    rw [symbolTransforms, List.getD_cons_succ, symbolTransforms_getD tableLog counts _ s (by omega),
      List.take_succ_cons, List.getD_cons_succ]
    simp only [slotTotal, List.map_cons, List.sum_cons]
    congr 1
    omega

/-- The running totals keep the states of the symbols apart. -/
theorem cumulative_filing {counts : List Int} {slots stateTable : List Nat}
    (hcount : ∀ s, slots.count s = (counts.getD s 0).natAbs) (hroom : slotTotal counts ≤ stateTable.length) :
    Filing slots (cumulative counts 0) stateTable := by
  have hin : ∀ s, slots.count s ≠ 0 → s < counts.length := by
    intro s hs
    by_contra hc
    rw [hcount, List.getD_eq_default _ _ (by omega)] at hs
    exact hs rfl
  have hend : ∀ s, slots.count s ≠ 0 →
      (cumulative counts 0).getD s 0 + slots.count s = slotTotal (counts.take (s + 1)) := by
    intro s hs
    rw [cumulative_getD counts 0 s (hin s hs), hcount, slotTotal_take_succ, Nat.zero_add]
  refine ⟨fun s hs => ?_, fun s hs => ?_, fun s t hst i h1 h2 h3 => ?_⟩
  · rw [length_cumulative]
    exact hin s (List.count_pos_iff.2 hs).ne'
  · rw [hend s (List.count_pos_iff.2 hs).ne']
    exact le_trans (slotTotal_take_le counts _) hroom
  · have hs := hend s (by omega)
    have ht := hend t (by omega)
    have hs0 := cumulative_getD counts 0 s (hin s (by omega))
    have ht0 := cumulative_getD counts 0 t (hin t (by omega))
    rcases Nat.lt_or_gt_of_ne hst with hlt | hlt
    · have := slotTotal_take_mono counts (show s + 1 ≤ t by omega)
      omega
    · have := slotTotal_take_mono counts (show t + 1 ≤ s by omega)
      omega

/-! ## How many bits a transition sheds -/

section
variable {tableLog n : Nat}

/-- The shape of the transform of a symbol with more than one slot. -/
theorem maxBitsOut_bounds (hn : 2 ≤ n) (hle : n ≤ 2 ^ tableLog) :
    1 ≤ tableLog - highbit32 (n - 1) ∧ n <<< (tableLog - highbit32 (n - 1)) ≤ 2 ^ (tableLog + 1) ∧
      2 ^ tableLog ≤ n <<< (tableLog - highbit32 (n - 1)) ∧
      2 ^ (highbit32 (n - 1)) + 1 ≤ n ∧ n ≤ 2 ^ (highbit32 (n - 1) + 1) ∧ highbit32 (n - 1) < tableLog := by
  unfold highbit32
  have h1 := Nat.log2_self_le (show n - 1 ≠ 0 by omega)
  have h2 : n - 1 < 2 ^ (Nat.log2 (n - 1) + 1) := Nat.lt_log2_self
  have h3 : Nat.log2 (n - 1) < tableLog := (Nat.log2_lt (by omega)).2 (by omega)
  generalize Nat.log2 (n - 1) = k at *
  refine ⟨by omega, ?_, ?_, by omega, by omega, h3⟩
  · rw [Nat.shiftLeft_eq]
    calc n * 2 ^ (tableLog - k) ≤ 2 ^ (k + 1) * 2 ^ (tableLog - k) := Nat.mul_le_mul_right _ (by omega)
      _ = 2 ^ (tableLog + 1) := by rw [← pow_add]; congr 1; omega
  · rw [Nat.shiftLeft_eq]
    calc 2 ^ tableLog = 2 ^ k * 2 ^ (tableLog - k) := by rw [← pow_add]; congr 1; omega
      _ ≤ n * 2 ^ (tableLog - k) := Nat.mul_le_mul_right _ (by omega)

/-- The encoder sheds just enough of a state to leave `n` to twice that. -/
theorem shed_bounds (hlog : tableLog ≤ tablelogMax) (hn : 2 ≤ n) (hle : n ≤ 2 ^ tableLog) {value : Nat}
    (h1 : 2 ^ tableLog ≤ value) (h2 : value < 2 ^ (tableLog + 1)) :
    n ≤ value >>> ((value + (((tableLog - highbit32 (n - 1)) <<< 16) - n <<< (tableLog - highbit32 (n - 1)))) >>> 16) ∧
      value >>> ((value + (((tableLog - highbit32 (n - 1)) <<< 16) - n <<< (tableLog - highbit32 (n - 1)))) >>> 16) <
        2 * n := by
  obtain ⟨hm, hup, hlow, hk1, hk2, hk⟩ := maxBitsOut_bounds hn hle
  have hsmall : 2 ^ (tableLog + 1) ≤ 2 ^ 10 := Nat.pow_le_pow_right (by norm_num) (by unfold tablelogMax at hlog; omega)
  generalize highbit32 (n - 1) = k at *
  generalize hmk : tableLog - k = m at *
  have hshift : m <<< 16 = m * 2 ^ 16 := Nat.shiftLeft_eq _ _
  have hone : 2 ^ 16 ≤ m * 2 ^ 16 := Nat.le_mul_of_pos_left _ (by omega)
  rw [hshift, Nat.shiftRight_eq_div_pow _ 16]
  have hpow : 2 ^ (tableLog + 1) = 2 ^ (k + 1) * 2 ^ m := by rw [← pow_add]; congr 1; omega
  rcases Nat.lt_or_ge value (n <<< m) with hlt | hge
  · -- one bit less than the most
    have hnb : (value + (m * 2 ^ 16 - n <<< m)) / 2 ^ 16 = m - 1 := by
      refine Nat.div_eq_of_lt_le ?_ ?_
      · rw [Nat.sub_mul]
        omega
      · rw [show m - 1 + 1 = m by omega]
        omega
    rw [hnb, Nat.shiftRight_eq_div_pow]
    have hpm : 2 ^ m = 2 ^ (m - 1) * 2 := by rw [← pow_succ]; congr 1; omega
    have hbase : 2 ^ tableLog = 2 ^ (k + 1) * 2 ^ (m - 1) := by rw [← pow_add]; congr 1; omega
    constructor
    · rw [Nat.le_div_iff_mul_le (by positivity)]
      calc n * 2 ^ (m - 1) ≤ 2 ^ (k + 1) * 2 ^ (m - 1) := Nat.mul_le_mul_right _ hk2
        _ ≤ value := by omega
    · rw [Nat.div_lt_iff_lt_mul (by positivity)]
      rw [Nat.shiftLeft_eq, hpm] at hlt
      calc value < n * (2 ^ (m - 1) * 2) := hlt
        _ = 2 * n * 2 ^ (m - 1) := by ring
  · have hnb : (value + (m * 2 ^ 16 - n <<< m)) / 2 ^ 16 = m := by
      refine Nat.div_eq_of_lt_le ?_ ?_
      · omega
      · rw [Nat.add_mul]
        omega
    rw [hnb, Nat.shiftRight_eq_div_pow]
    constructor
    · rw [Nat.le_div_iff_mul_le (by positivity), ← Nat.shiftLeft_eq]
      exact hge
    · rw [Nat.div_lt_iff_lt_mul (by positivity)]
      have : 2 ^ (k + 1) ≤ 2 * n := by
        rw [pow_succ]
        omega
      calc value < 2 ^ (k + 1) * 2 ^ m := by omega
        _ ≤ 2 * n * 2 ^ m := Nat.mul_le_mul_right _ this

end

/-- What the transform of a present symbol does to a state. -/
theorem symbolTransform_step {tableLog total value : Nat} {count : Int} (hlog : tableLog ≤ tablelogMax)
    (hc : -1 ≤ count) (h0 : count ≠ 0) (hle : count.natAbs ≤ 2 ^ tableLog) (h1 : 2 ^ tableLog ≤ value)
    (h2 : value < 2 ^ (tableLog + 1)) :
    ∃ nbBits, (value + (symbolTransform tableLog count total).deltaNbBits) >>> 16 = nbBits ∧
      count.natAbs ≤ value >>> nbBits ∧ value >>> nbBits < 2 * count.natAbs ∧
      ((value >>> nbBits : Nat) : Int) + (symbolTransform tableLog count total).deltaFindState =
        ((total + (value >>> nbBits - count.natAbs) : Nat) : Int) := by
  refine ⟨_, rfl, ?_⟩
  unfold symbolTransform
  rw [if_neg h0]
  by_cases hone : count = -1 ∨ count = 1
  · rw [if_pos hone]
    have habs : count.natAbs = 1 := by omega
    have hsmall : 2 ^ (tableLog + 1) ≤ 2 ^ 10 :=
      Nat.pow_le_pow_right (by norm_num) (by unfold tablelogMax at hlog; omega)
    have hnb : (value + ((tableLog <<< 16) - 2 ^ tableLog)) >>> 16 = tableLog := by
      rw [Nat.shiftLeft_eq, Nat.shiftRight_eq_div_pow]
      rw [pow_succ] at h2 hsmall
      refine Nat.div_eq_of_lt_le ?_ ?_
      · omega
      · rw [Nat.add_mul]
        omega
    simp only [hnb, habs]
    have hv : value >>> tableLog = 1 := by
      rw [Nat.shiftRight_eq_div_pow]
      rw [pow_succ] at h2
      exact Nat.div_eq_of_lt_le (by omega) (by omega)
    rw [hv]
    omega
  · rw [if_neg hone]
    obtain ⟨n, rfl⟩ : ∃ n : Nat, count = n := ⟨count.toNat, by omega⟩
    simp only [Int.toNat_natCast, Int.natAbs_natCast] at *
    obtain ⟨h3, h4⟩ := shed_bounds hlog (show 2 ≤ n by omega) hle h1 h2
    refine ⟨h3, h4, ?_⟩
    omega

/-- The first state of a present symbol is that of its first slot. -/
theorem symbolTransform_init {tableLog total : Nat} {count : Int} (hlog : 1 ≤ tableLog ∧ tableLog ≤ tablelogMax)
    (hc : -1 ≤ count) (h0 : count ≠ 0) (hle : count.natAbs ≤ 2 ^ tableLog) :
    ∃ nbBits, ((symbolTransform tableLog count total).deltaNbBits + 2 ^ 15) >>> 16 = nbBits ∧
      (((((nbBits <<< 16) - (symbolTransform tableLog count total).deltaNbBits) >>> nbBits : Nat)) : Int) +
        (symbolTransform tableLog count total).deltaFindState = (total : Int) := by
  refine ⟨_, rfl, ?_⟩
  unfold symbolTransform
  rw [if_neg h0]
  have hsmall : 2 ^ (tableLog + 1) ≤ 2 ^ 10 :=
    Nat.pow_le_pow_right (by norm_num) (by unfold tablelogMax at hlog; omega)
  by_cases hone : count = -1 ∨ count = 1
  · rw [if_pos hone]
    rw [pow_succ] at hsmall
    have hroom : 2 ^ 16 ≤ tableLog * 2 ^ 16 := Nat.le_mul_of_pos_left _ hlog.1
    have hnb : ((tableLog <<< 16) - 2 ^ tableLog + 2 ^ 15) >>> 16 = tableLog := by
      rw [Nat.shiftLeft_eq, Nat.shiftRight_eq_div_pow]
      refine Nat.div_eq_of_lt_le ?_ ?_
      · omega
      · rw [Nat.add_mul]
        omega
    have hv : ((tableLog <<< 16) - ((tableLog <<< 16) - 2 ^ tableLog)) >>> tableLog = 1 := by
      rw [Nat.shiftLeft_eq, Nat.sub_sub_self (by omega), Nat.shiftRight_eq_div_pow, Nat.div_self (by positivity)]
    simp only [hnb, hv]
    omega
  · rw [if_neg hone]
    obtain ⟨n, rfl⟩ : ∃ n : Nat, count = n := ⟨count.toNat, by omega⟩
    simp only [Int.toNat_natCast, Int.natAbs_natCast] at *
    obtain ⟨hm, hup, hlow, -, -, -⟩ := maxBitsOut_bounds (show 2 ≤ n by omega) hle
    generalize tableLog - highbit32 (n - 1) = m at *
    have hroom : 2 ^ 16 ≤ m * 2 ^ 16 := Nat.le_mul_of_pos_left _ hm
    have hnb : ((m <<< 16) - n <<< m + 2 ^ 15) >>> 16 = m := by
      rw [Nat.shiftLeft_eq m, Nat.shiftRight_eq_div_pow]
      refine Nat.div_eq_of_lt_le ?_ ?_
      · omega
      · rw [Nat.add_mul]
        omega
    have hv : ((m <<< 16) - ((m <<< 16) - n <<< m)) >>> m = n := by
      rw [Nat.shiftLeft_eq m, Nat.sub_sub_self (by omega), Nat.shiftLeft_shiftRight]
    simp only [hnb, hv]
    omega

/-! ## Both tables -/

/-- How many slots a symbol has in the table of a distribution. -/
def shareOf (normalizedCounter : List Int) (maxSymbolValue symbol : Nat) : Nat :=
  ((normalizedCounter.take (maxSymbolValue + 1)).getD symbol 0).natAbs

/-- The encoder's states over a table of `2 ^ tableLog` slots. -/
def Live (tableLog value : Nat) : Prop := 2 ^ tableLog ≤ value ∧ value < 2 ^ (tableLog + 1)

theorem Live.mod {tableLog u : Nat} (hu : u < 2 ^ tableLog) :
    Live tableLog (2 ^ tableLog + u) ∧ (2 ^ tableLog + u) % 2 ^ tableLog = u := by
  refine ⟨⟨Nat.le_add_right _ _, by rw [pow_succ]; omega⟩, ?_⟩
  rw [Nat.add_mod_left, Nat.mod_eq_of_lt hu]

theorem Live.sub {tableLog value : Nat} (h : Live tableLog value) : value - 2 ^ tableLog = value % 2 ^ tableLog := by
  obtain ⟨h1, h2⟩ := h
  rw [pow_succ] at h2
  rw [Nat.mod_eq_sub_mod h1, Nat.mod_eq_of_lt (by omega)]

section
variable {normalizedCounter : List Int} {maxSymbolValue tableLog : Nat}

theorem le_of_shareOf {symbol : Nat} (h : shareOf normalizedCounter maxSymbolValue symbol ≠ 0) :
    symbol ≤ maxSymbolValue := by
  by_contra hc
  apply h
  unfold shareOf
  rw [List.getD_eq_default _ _ (by rw [List.length_take]; omega)]
  rfl

theorem shareOf_le (hn : Normalized normalizedCounter maxSymbolValue tableLog) (symbol : Nat) :
    shareOf normalizedCounter maxSymbolValue symbol ≤ 2 ^ tableLog := by
  have h1 := slotTotal_take_succ (normalizedCounter.take (maxSymbolValue + 1)) symbol
  have h2 := slotTotal_take_le (normalizedCounter.take (maxSymbolValue + 1)) (symbol + 1)
  rw [hn.total] at h2
  unfold shareOf
  omega

end

/-- The entry of a slot that stands for `x` once its bits were shed. -/
def entryOf (tableLog x symbol : Nat) : DecodeEntry :=
  { newState := (x <<< (tableLog - highbit32 x)) - 2 ^ tableLog, symbol, nbBits := tableLog - highbit32 x }

/-- Both tables of a distribution, laid out over one spread. -/
structure LaidOut (tableLog : Nat) (counts : List Int) (slots : List Nat) (ct : CTable)
    (entries : List DecodeEntry) : Prop where
  log : 1 ≤ tableLog ∧ tableLog ≤ tablelogMax
  tableLog_eq : ct.tableLog = tableLog
  atLeast : ∀ s, -1 ≤ counts.getD s 0
  atMost : ∀ s, (counts.getD s 0).natAbs ≤ 2 ^ tableLog
  length : slots.length = 2 ^ tableLog ∧ entries.length = 2 ^ tableLog
  full : ∀ s, slots.count s = (counts.getD s 0).natAbs
  alphabet : ∀ s, counts.getD s 0 ≠ 0 → s ≤ ct.maxSymbolValue
  transform : ∀ s, counts.getD s 0 ≠ 0 → ct.symbolTt.getD s default =
    symbolTransform tableLog (counts.getD s 0) (slotTotal (counts.take s))
  state : ∀ s r, r < (counts.getD s 0).natAbs →
    ct.stateTable[slotTotal (counts.take s) + r]? = some (2 ^ tableLog + Tans.select s slots r)
  entry : ∀ {s u}, slots[u]? = some s →
    entries[u]? = some (entryOf tableLog ((counts.getD s 0).natAbs + (slots.take u).count s) s)

namespace LaidOut

variable {tableLog : Nat} {counts : List Int} {slots : List Nat} {ct : CTable} {entries : List DecodeEntry}

/-- Where the state that leaves `x` of a symbol leads. -/
theorem reach (h : LaidOut tableLog counts slots ct entries) {s x : Nat} (h1 : (counts.getD s 0).natAbs ≤ x)
    (h2 : x < 2 * (counts.getD s 0).natAbs) :
    ∃ next, ct.stateAt ((slotTotal (counts.take s) + (x - (counts.getD s 0).natAbs) : Nat)) = .ok next ∧
      Live tableLog next ∧ entries[next % 2 ^ tableLog]? = some (entryOf tableLog x s) := by
  have hr : x - (counts.getD s 0).natAbs < slots.count s := by rw [h.full]; omega
  obtain ⟨hslot, hrank⟩ := Tans.select_spec hr
  have hu := Tans.select_lt hr
  rw [h.length.1] at hu
  obtain ⟨hlive, hmod⟩ := Live.mod hu
  refine ⟨_, ?_, hlive, ?_⟩
  · unfold CTable.stateAt
    rw [if_pos (Int.natCast_nonneg _), Int.toNat_natCast, h.state s _ (by omega)]
  · rw [hmod, h.entry hslot, hrank, Nat.add_sub_cancel' h1]

theorem encodeState_ok (h : LaidOut tableLog counts slots ct entries) {s value : Nat} (hs : counts.getD s 0 ≠ 0)
    (hv : Live tableLog value) :
    ∃ nbBits next newState, encodeState ct value s = .ok (nbBits, next) ∧ nbBits ≤ tableLog ∧ Live tableLog next ∧
      entries[next % 2 ^ tableLog]? = some { newState, symbol := s, nbBits } ∧
      newState + value % 2 ^ nbBits = value % 2 ^ tableLog := by
  obtain ⟨nbBits, hnb, hlow, hup, hindex⟩ :=
    @symbolTransform_step _ (slotTotal (counts.take s)) _ _ h.log.2 (h.atLeast s) hs (h.atMost s) hv.1 hv.2
  obtain ⟨next, hnext, hlive, hentry⟩ := h.reach hlow hup
  obtain ⟨hle, hshed⟩ := Tans.shed_unique (n := nbBits) hv.1 hv.2 (by omega)
  refine ⟨nbBits, next, ((value >>> nbBits) <<< nbBits) - 2 ^ tableLog, ?_, hle, hlive, ?_, ?_⟩
  · have := h.alphabet s hs
    unfold encodeState
    rw [if_neg (by omega)]
    simp only
    rw [h.transform s hs, hnb, hindex, hnext]
    rfl
  · rw [hentry]
    unfold entryOf highbit32
    rw [hshed]
  · rw [Tans.shed_restore hv.1 hv.2 (by omega), hv.sub]

theorem initCstate2_ok (h : LaidOut tableLog counts slots ct entries) {s : Nat} (hs : counts.getD s 0 ≠ 0) :
    ∃ first newState nbBits, initCstate2 ct s = .ok first ∧ Live tableLog first ∧
      entries[first % 2 ^ tableLog]? = some { newState, symbol := s, nbBits } ∧ nbBits ≤ tableLog ∧
      ((counts.getD s 0).natAbs < 2 ^ tableLog → 1 ≤ nbBits) := by
  obtain ⟨nbBits, hnb, hindex⟩ :=
    @symbolTransform_init _ (slotTotal (counts.take s)) _ h.log (h.atLeast s) hs (h.atMost s)
  obtain ⟨first, hfirst, hlive, hentry⟩ := h.reach (le_refl (counts.getD s 0).natAbs) (by omega)
  rw [Nat.sub_self, Nat.add_zero] at hfirst
  refine ⟨first, _, _, ?_, hlive, hentry, Nat.sub_le _ _, fun hlt => ?_⟩
  · have := h.alphabet s hs
    unfold initCstate2
    rw [if_neg (by omega)]
    simp only
    rw [h.transform s hs, hnb, hindex, hfirst]
  · have : Nat.log2 (counts.getD s 0).natAbs < tableLog := (Nat.log2_lt (by omega)).2 hlt
    unfold highbit32
    omega

theorem dual (h : LaidOut tableLog counts slots ct entries) :
    Dual tableLog (Live tableLog) (fun s => (counts.getD s 0).natAbs) ct entries := by
  refine ⟨h.tableLog_eq, fun hs hv => h.encodeState_ok (by omega) hv, fun hs => h.initCstate2_ok (by omega), ?_⟩
  intro e he hwide
  obtain ⟨u, hu, rfl⟩ := List.getElem_of_mem he
  have hslots : u < slots.length := by rw [h.length.1, ← h.length.2]; exact hu
  have hslot : slots[u]? = some slots[u] := List.getElem?_eq_getElem hslots
  have hrank := Tans.count_take_lt hslot
  have hentry := h.entry hslot
  rw [List.getElem?_eq_getElem hu, Option.some.injEq] at hentry
  rw [hentry] at hwide ⊢
  unfold entryOf at hwide ⊢
  simp only at hwide ⊢
  rw [h.full] at hrank
  have := (Nat.log2_lt (show (counts.getD slots[u] 0).natAbs + (slots.take u).count slots[u] ≠ 0 by omega)).2
    (show _ < 2 ^ tableLog by omega)
  unfold highbit32
  omega

end LaidOut

section
variable {normalizedCounter : List Int} {maxSymbolValue tableLog : Nat}

theorem count_atLeast (hn : Normalized normalizedCounter maxSymbolValue tableLog) (symbol : Nat) :
    -1 ≤ (normalizedCounter.take (maxSymbolValue + 1)).getD symbol 0 := by
  rcases Nat.lt_or_ge symbol (normalizedCounter.take (maxSymbolValue + 1)).length with hlt | hge
  · rw [List.getD_eq_getElem _ _ hlt]
    exact hn.atLeast _ (List.mem_of_mem_take (List.getElem_mem _))
  · rw [List.getD_eq_default _ _ hge]
    norm_num

/-- What both builders make of a distribution that fills its table. -/
theorem buildTables_laidOut (hn : Normalized normalizedCounter maxSymbolValue tableLog) (hlog : 4 ≤ tableLog)
    (hle : tableLog ≤ tablelogMax) (hmax : maxSymbolValue ≤ symbolvalueMax) :
    ∃ slots ct entries, buildCtable normalizedCounter maxSymbolValue tableLog = .ok ct ∧
      buildEntries normalizedCounter maxSymbolValue tableLog = .ok entries ∧
      LaidOut tableLog (normalizedCounter.take (maxSymbolValue + 1)) slots ct entries := by
  obtain ⟨slots, symbolNext, hspread, hlen, hcount, hnextLen, hnext⟩ := spreadSymbols_spec hn hlog hmax
  have hal := hn.alphabet
  have hchecks : checkTableArguments normalizedCounter maxSymbolValue tableLog = .ok () := by
    unfold checkTableArguments
    rw [if_neg (by omega), if_neg (by omega), if_neg (by omega)]
  have hnone : (normalizedCounter.take (maxSymbolValue + 1)).any (· < -1) = false := by
    rw [List.any_eq_false]
    intro c hc
    have := hn.atLeast c (List.mem_of_mem_take hc)
    simpa using this
  have hge := count_atLeast hn
  have hshare := shareOf_le hn
  have hin : ∀ s, (normalizedCounter.take (maxSymbolValue + 1)).getD s 0 ≠ 0 → s ≤ maxSymbolValue := fun s hs =>
    le_of_shareOf (Int.natAbs_ne_zero.2 hs)
  have hslots : ∀ s ∈ slots, s ≤ maxSymbolValue := fun s hs => hin s (by
    have := List.count_pos_iff.2 hs
    rw [hcount] at this
    omega)
  have htaken : (normalizedCounter.take (maxSymbolValue + 1)).length = maxSymbolValue + 1 := by
    rw [List.length_take]
    omega
  obtain ⟨ct, hbuild, hctLog, hctMax, hctStates, hctTransforms⟩ : ∃ ct,
      buildCtable normalizedCounter maxSymbolValue tableLog = .ok ct ∧ ct.tableLog = tableLog ∧
        ct.maxSymbolValue = maxSymbolValue ∧
        ct.stateTable = fillStateTable (2 ^ tableLog) slots 0
          (cumulative (normalizedCounter.take (maxSymbolValue + 1)) 0) (List.replicate tablesizeMax 0) ∧
        ct.symbolTt = padTransforms tableLog
          (symbolTransforms tableLog (normalizedCounter.take (maxSymbolValue + 1)) 0) := by
    unfold buildCtable
    rw [hchecks]
    simp only [ok_bind, hnone, hspread]
    exact ⟨_, rfl, rfl, rfl, rfl, rfl⟩
  have hentries : buildEntries normalizedCounter maxSymbolValue tableLog =
    .ok (stateEntries tableLog slots symbolNext) := by
    unfold buildEntries
    rw [hchecks]
    simp only [ok_bind, hspread]
  unfold shareOf at hshare
  have htotal := hn.total
  generalize normalizedCounter.take (maxSymbolValue + 1) = counts at *
  have hfiling : Filing slots (cumulative counts 0) (List.replicate tablesizeMax 0) := by
    refine cumulative_filing hcount ?_
    rw [htotal, List.length_replicate]
    exact Nat.pow_le_pow_right (by norm_num) hle
  obtain ⟨-, hfiled, -⟩ := fillStateTable_spec (2 ^ tableLog) slots 0 hfiling
  refine ⟨slots, ct, _, hbuild, hentries, ?_⟩
  constructor
  · exact ⟨by omega, hle⟩
  · exact hctLog
  · exact hge
  · exact hshare
  · refine ⟨hlen, ?_⟩
    rw [← hlen, ← List.length_map (f := (·.symbol)), stateEntries_symbol]
  · exact hcount
  · rw [hctMax]
    exact hin
  · intro s hs
    have hsym := hin s hs
    have := length_symbolTransforms tableLog counts 0
    rw [hctTransforms]
    unfold padTransforms
    rw [List.getD_append _ _ _ _ (by omega), symbolTransforms_getD tableLog _ 0 s (by omega), Nat.zero_add]
  · intro s r hr
    have hsym := hin s (by omega)
    have := hfiled s r (by rw [hcount]; exact hr)
    rw [cumulative_getD _ _ _ (by omega), Nat.zero_add, Nat.zero_add] at this
    rw [hctStates, this]
  · intro s u hs
    have hsym := hslots s (List.mem_of_getElem? hs)
    rw [stateEntries_getElem? tableLog hs fun s hs => by rw [hnextLen]; have := hslots s hs; omega, hnext s hsym]
    rfl

/-- The tables that both builders make of a distribution that fills its table are dual. -/
theorem buildTables_dual (hn : Normalized normalizedCounter maxSymbolValue tableLog) (hlog : 4 ≤ tableLog)
    (hle : tableLog ≤ tablelogMax) (hmax : maxSymbolValue ≤ symbolvalueMax) :
    ∃ ct entries, buildCtable normalizedCounter maxSymbolValue tableLog = .ok ct ∧
      buildEntries normalizedCounter maxSymbolValue tableLog = .ok entries ∧
      Dual tableLog (Live tableLog) (shareOf normalizedCounter maxSymbolValue) ct entries := by
  obtain ⟨slots, ct, entries, hct, hentries, h⟩ := buildTables_laidOut hn hlog hle hmax
  exact ⟨ct, entries, hct, hentries, h.dual⟩

/-- A table in fast mode has no symbol with more than half of the slots. -/
theorem shareOf_fast (hn : Normalized normalizedCounter maxSymbolValue tableLog) (hlog : 4 ≤ tableLog)
    (hfast : (normalizedCounter.take (maxSymbolValue + 1)).all (· < 2 ^ (tableLog - 1)) = true) (symbol : Nat) :
    2 * shareOf normalizedCounter maxSymbolValue symbol ≤ 2 ^ tableLog := by
  have hfast : ∀ c ∈ normalizedCounter.take (maxSymbolValue + 1), c < 2 ^ (tableLog - 1) := by
    simpa using hfast
  have hhalf : 2 ^ tableLog = 2 * 2 ^ (tableLog - 1) := by rw [← pow_succ']; congr 1; omega
  have hfour : 2 ^ 3 ≤ 2 ^ (tableLog - 1) := Nat.pow_le_pow_right (by norm_num) (by omega)
  have hc := count_atLeast hn symbol
  unfold shareOf
  rcases Nat.lt_or_ge symbol (normalizedCounter.take (maxSymbolValue + 1)).length with hlt | hge
  · have := hfast _ (List.getElem_mem hlt)
    rw [List.getD_eq_getElem _ _ hlt] at hc ⊢
    have hcast : ((2 ^ (tableLog - 1) : Nat) : Int) = 2 ^ (tableLog - 1) := by push_cast; rfl
    omega
  · rw [List.getD_eq_default _ _ hge]
    simp

end

end Fse

end Zstandard
