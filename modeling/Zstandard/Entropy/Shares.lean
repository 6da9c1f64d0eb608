/-
Normalizing serves every symbol.

Where the symbols are few enough for the table, both ways of normalizing end, whatever the histogram: the
rarest symbol that is left to the division in proportion is due a slot. The guard on the table log is what
sees to the symbols being few enough, but it looks at the low 32 bits of the total.
-/
import Zstandard.Entropy.Normalize
import Mathlib.Data.List.GetD
import Mathlib.Tactic.Linarith

namespace Zstandard

namespace Fse

/-! ## Raising one count -/

theorem slotTotal_set_add {ns : List Int} {i : Nat} {n : Int} (hi : i < ns.length) :
    slotTotal (ns.set i n) + (ns.getD i 0).natAbs = slotTotal ns + n.natAbs := by
  induction ns generalizing i with
  | nil => simp at hi
  | cons m ns ih =>
    cases i with
    | zero =>
      simp only [List.set_cons_zero, List.getD_cons_zero, slotTotal, List.map_cons, List.sum_cons]
      omega
    | succ i =>
      have := ih (by simpa using hi)
      simp only [List.set_cons_succ, List.getD_cons_succ, slotTotal, List.map_cons, List.sum_cons] at this ⊢
      omega

/-- A symbol with a positive count may take more slots, or give some back and keep one. -/
theorem Served.raise {counts : List Nat} {ns : List Int} {slots slots' i : Nat} {more : Int}
    (h : Served counts ns slots)
    (hpos : 0 < ns.getD i 0) (hkeep : 0 < ns.getD i 0 + more) (hslots : (slots' : Int) = slots + more) :
    Served counts (ns.set i (ns.getD i 0 + more)) slots' := by
  have hi : i < ns.length := by
    by_contra hi
    rw [List.getD_eq_default _ _ (by omega)] at hpos
    omega
  have hset : ∀ j, (ns.set i (ns.getD i 0 + more)).getD j 0 = if i = j then ns.getD i 0 + more else ns.getD j 0 := by
    intro j
    rw [List.getD_eq_getElem?_getD, List.getElem?_set]
    by_cases hj : i = j
    · subst hj
      simp [hi]
    · rw [if_neg hj, if_neg hj, ← List.getD_eq_getElem?_getD]
  refine ⟨by rw [List.length_set, h.length], ?_, ?_, ?_⟩
  · intro n hn
    rcases List.mem_or_eq_of_mem_set hn with hn | rfl
    · exact h.atLeast n hn
    · omega
  · have htotal := @slotTotal_set_add ns i (ns.getD i 0 + more) hi
    rw [h.total] at htotal
    omega
  · intro j
    rw [hset, ← h.absent j]
    by_cases hj : i = j
    · subst hj
      rw [if_pos rfl]
      omega
    · rw [if_neg hj]

/-! ## Dealing out -/

/-- The turns until symbol `j` is next. -/
def turnsTo (j symbol length : Nat) : Nat := if symbol ≤ j then j - symbol else j + length - symbol

/-- As long as one symbol has a positive count, its turn comes. -/
theorem dealOut_served {counts : List Nat} {j : Nat} : ∀ {fuel toDistribute symbol slots : Nat} {ns : List Int},
    Served counts ns slots → 0 < ns.getD j 0 → symbol < ns.length →
    toDistribute = 0 ∨ (toDistribute - 1) * ns.length + turnsTo j symbol ns.length < fuel →
    ∃ ns', dealOut fuel toDistribute symbol ns = .ok ns' ∧ Served counts ns' (slots + toDistribute)
  | fuel, 0, symbol, slots, ns, h, _, _, _ => ⟨ns, by cases fuel <;> rfl, h⟩
  | 0, toDistribute + 1, symbol, slots, ns, _, _, _, hfuel => by
    rcases hfuel with hfuel | hfuel <;> omega
  | fuel + 1, toDistribute + 1, symbol, slots, ns, h, hj, hsymbol, hfuel => by
    have hjlen : j < ns.length := by
      by_contra hge
      rw [List.getD_eq_default _ _ (by omega)] at hj
      omega
    have hnext : (symbol + 1) % ns.length = if symbol + 1 = ns.length then 0 else symbol + 1 := by
      split
      · rename_i heq
        rw [heq, Nat.mod_self]
      · exact Nat.mod_eq_of_lt (by omega)
    have hlt : (symbol + 1) % ns.length < ns.length := Nat.mod_lt _ (by omega)
    rw [Nat.add_sub_cancel] at hfuel
    unfold dealOut
    by_cases hpos : ns.getD symbol 0 > 0
    · rw [if_pos hpos]
      have hs := @Served.raise _ _ _ (slots + 1) symbol 1 h hpos (by omega) (by omega)
      have hj' : 0 < (ns.set symbol (ns.getD symbol 0 + 1)).getD j 0 := by
        by_cases heq : symbol = j
        · subst heq
          simp only [List.getD_eq_getElem?_getD, List.getElem?_set, hjlen, if_true, Option.getD_some]
          rw [← List.getD_eq_getElem?_getD]
          omega
        · rw [List.getD_eq_getElem?_getD, List.getElem?_set_ne heq, ← List.getD_eq_getElem?_getD]
          exact hj
      obtain ⟨ns', hdeal, hserved⟩ := @dealOut_served _ _ fuel toDistribute ((symbol + 1) % ns.length) _ _ hs hj'
        (by rwa [List.length_set]) (by
          by_cases h0 : toDistribute = 0
          · exact .inl h0
          · refine .inr ?_
            rw [List.length_set]
            have hturns : turnsTo j ((symbol + 1) % ns.length) ns.length < ns.length := by
              unfold turnsTo
              split <;> omega
            obtain ⟨k, rfl⟩ := Nat.exists_eq_succ_of_ne_zero h0
            rw [Nat.succ_eq_add_one, Nat.add_mul] at hfuel
            rw [Nat.succ_eq_add_one, Nat.add_sub_cancel]
            omega)
      exact ⟨ns', hdeal, by rwa [Nat.add_right_comm] at hserved⟩
    · rw [if_neg hpos]
      have hne : symbol ≠ j := fun heq => hpos (by rw [heq]; exact hj)
      refine dealOut_served h hj hlt (.inr ?_)
      rw [Nat.add_sub_cancel]
      have hturns : turnsTo j ((symbol + 1) % ns.length) ns.length + 1 = turnsTo j symbol ns.length := by
        rw [hnext]
        unfold turnsTo
        split <;> split <;> split <;> omega
      omega

theorem maxSymbolOf_le : ∀ (counts : List Nat) (symbol maxSymbol maxCount : Nat), maxSymbol ≤ symbol →
    (maxSymbolOf counts symbol maxSymbol maxCount = maxSymbol ∧ ∀ c ∈ counts, c ≤ maxCount) ∨
      ∃ i, maxSymbolOf counts symbol maxSymbol maxCount = symbol + i ∧ maxCount < counts.getD i 0 ∧
        ∀ c ∈ counts, c ≤ counts.getD i 0
  | [], _, _, _, _ => .inl ⟨rfl, by simp⟩
  | count :: counts, symbol, maxSymbol, maxCount, hle => by
    unfold maxSymbolOf
    by_cases hmore : count > maxCount
    · rw [if_pos hmore]
      refine .inr ?_
      rcases maxSymbolOf_le counts (symbol + 1) symbol count (by omega) with ⟨heq, hall⟩ | ⟨i, heq, hlt, hall⟩
      · refine ⟨0, heq, hmore, fun c hc => ?_⟩
        rcases List.mem_cons.1 hc with rfl | hc
        · exact le_refl _
        · exact hall c hc
      · refine ⟨i + 1, by rw [heq]; omega, by rw [List.getD_cons_succ]; omega, fun c hc => ?_⟩
        rw [List.getD_cons_succ]
        rcases List.mem_cons.1 hc with rfl | hc
        · exact le_of_lt hlt
        · exact hall c hc
    · rw [if_neg hmore]
      rcases maxSymbolOf_le counts (symbol + 1) maxSymbol maxCount (by omega) with ⟨heq, hall⟩ | ⟨i, heq, hlt, hall⟩
      · refine .inl ⟨heq, fun c hc => ?_⟩
        rcases List.mem_cons.1 hc with rfl | hc
        · omega
        · exact hall c hc
      · refine .inr ⟨i + 1, by rw [heq]; omega, by rw [List.getD_cons_succ]; omega, fun c hc => ?_⟩
        rw [List.getD_cons_succ]
        rcases List.mem_cons.1 hc with rfl | hc
        · omega
        · exact hall c hc

/-- Some symbol occurs most often, and it is the one that is found. -/
theorem le_maxSymbolOf (counts : List Nat) : ∀ c ∈ counts, c ≤ counts.getD (maxSymbolOf counts 0 0 0) 0 := by
  intro c hc
  rcases maxSymbolOf_le counts 0 0 0 (le_refl 0) with ⟨_, hall⟩ | ⟨i, heq, _, hall⟩
  · have := hall c hc
    omega
  · rw [heq, Nat.zero_add]
    exact hall c hc

/-! ## Few enough symbols -/

/-- The counts of a histogram that a table of `2 ^ tableLog` slots has room for: fewer than a symbol a slot
anyway, and less than one for two unless there is little to count. -/
structure Fits (tableLog : Nat) (counts : List Nat) : Prop where
  u32 : ∀ c ∈ counts, c < 2 ^ 32
  pos : 0 < counts.sum
  fewer : occurring counts < 2 ^ tableLog
  few : counts.sum < 2 ^ tableLog ∨ 2 * occurring counts ≤ 2 ^ tableLog

section
variable {tableLog : Nat} {counts : List Nat}

/-- Some symbol is due more than a slot. -/
theorem Fits.not_all_low (h : Fits tableLog counts) : ¬ ∀ c ∈ counts, c ≤ counts.sum / 2 ^ tableLog := by
  intro hall
  rw [← Nat.shiftRight_eq_div_pow] at hall
  have := occurring_of_low h.pos hall
  have := h.fewer
  omega

theorem Fits.sum_le (h : Fits tableLog counts) : counts.sum ≤ occurring counts * (2 ^ 32 - 1) :=
  sum_le_occurring fun c hc => by
    have := h.u32 c hc
    omega

theorem Fits.sum_lt (h : Fits tableLog counts) : counts.sum < 2 ^ tableLog * 2 ^ 31 := by
  have := h.sum_le
  rcases h.few with hfew | hfew
  · omega
  · have := h.pos
    have : 2 * (occurring counts * (2 ^ 32 - 1)) ≤ 2 ^ tableLog * (2 ^ 32 - 1) := by
      rw [← Nat.mul_assoc]
      exact Nat.mul_le_mul_right _ hfew
    omega

/-- The threshold does not lose its high bits. -/
theorem Fits.lowThreshold (h : Fits tableLog counts) :
    (counts.sum >>> tableLog) % 2 ^ 32 = counts.sum / 2 ^ tableLog := by
  rw [Nat.shiftRight_eq_div_pow]
  exact Nat.mod_eq_of_lt (Nat.div_lt_of_lt_mul (lt_of_lt_of_le h.sum_lt (Nat.mul_le_mul_left _ (by norm_num))))

theorem Fits.lowOne (h : Fits tableLog counts) :
    ((counts.sum * 3) >>> (tableLog + 1)) % 2 ^ 32 = counts.sum * 3 / (2 ^ tableLog * 2) := by
  rw [Nat.shiftRight_eq_div_pow, Nat.pow_succ]
  refine Nat.mod_eq_of_lt (Nat.div_lt_of_lt_mul ?_)
  calc counts.sum * 3 < 2 ^ tableLog * 2 ^ 31 * 3 := Nat.mul_lt_mul_of_pos_right h.sum_lt (by norm_num)
    _ ≤ 2 ^ tableLog * 2 * 2 ^ 32 := by
      rw [Nat.mul_assoc, Nat.mul_assoc]
      exact Nat.mul_le_mul_left _ (by norm_num)

end

/-! ## The second way -/

section
variable {tableLog low floor : Nat} {counts : List Nat} {ns : List Int} {distributed total pending : Nat}

/-- The running total arrives at the slots that are left. -/
theorem rStep_total {vStepLog toDistribute total : Nat} (hv : 0 < vStepLog) (hpos : 0 < total)
    (hle : total ≤ 2 ^ (vStepLog - 1)) :
    (2 ^ (vStepLog - 1) - 1 + total * ((2 ^ vStepLog * toDistribute + (2 ^ (vStepLog - 1) - 1)) / total)) >>> vStepLog -
      (2 ^ (vStepLog - 1) - 1) >>> vStepLog = toDistribute := by
  obtain ⟨k, rfl⟩ := Nat.exists_eq_succ_of_ne_zero (by omega : vStepLog ≠ 0)
  rw [Nat.succ_eq_add_one, Nat.add_sub_cancel] at *
  have hhalf : 2 ^ (k + 1) = 2 * 2 ^ k := by rw [Nat.pow_succ, Nat.mul_comm]
  have hk : 0 < 2 ^ k := by positivity
  rw [Nat.shiftRight_eq_div_pow, Nat.shiftRight_eq_div_pow, Nat.div_eq_of_lt
    (by omega : 2 ^ k - 1 < 2 ^ (k + 1)), Nat.sub_zero]
  have hdiv := Nat.div_add_mod (2 ^ (k + 1) * toDistribute + (2 ^ k - 1)) total
  have hmod := Nat.mod_lt (2 ^ (k + 1) * toDistribute + (2 ^ k - 1)) hpos
  generalize total * ((2 ^ (k + 1) * toDistribute + (2 ^ k - 1)) / total) = reached at *
  generalize (2 ^ (k + 1) * toDistribute + (2 ^ k - 1)) % total = rest at *
  refine Nat.div_eq_of_lt_le ?_ ?_
  · rw [Nat.mul_comm toDistribute]
    omega
  · rw [Nat.succ_mul, Nat.mul_comm toDistribute]
    omega

/-- The rarest of those that wait is due a slot, and the step is fine enough to give it one. -/
theorem rStep_one {vStepLog toDistribute total : Nat} (hpos : 0 < total) (hle : total ≤ 2 ^ (vStepLog - 1))
    (hshare : total ≤ (floor + 1) * toDistribute) :
    2 ^ vStepLog ≤ (floor + 1) * ((2 ^ vStepLog * toDistribute + (2 ^ (vStepLog - 1) - 1)) / total) := by
  have hdiv := Nat.div_add_mod (2 ^ vStepLog * toDistribute + (2 ^ (vStepLog - 1) - 1)) total
  have hmod := Nat.mod_lt (2 ^ vStepLog * toDistribute + (2 ^ (vStepLog - 1) - 1)) hpos
  generalize (2 ^ vStepLog * toDistribute + (2 ^ (vStepLog - 1) - 1)) / total = rStep at *
  have hstep : 2 ^ vStepLog * toDistribute ≤ total * rStep := by omega
  refine Nat.le_of_mul_le_mul_left ?_ hpos
  calc total * 2 ^ vStepLog ≤ (floor + 1) * toDistribute * 2 ^ vStepLog := Nat.mul_le_mul_right _ hshare
    _ = (floor + 1) * (2 ^ vStepLog * toDistribute) := by ring
    _ ≤ (floor + 1) * (total * rStep) := Nat.mul_le_mul_left _ hstep
    _ = total * ((floor + 1) * rStep) := by ring

theorem normalizeRest_served (hfits : Fits tableLog counts) (hlog : tableLog ≤ tablelogMax)
    (h : Partly (counts.sum / 2 ^ tableLog) floor counts ns distributed total pending)
    (hshare : total ≤ (floor + 1) * (2 ^ tableLog - distributed)) :
    ∃ ns', normalizeRest tableLog distributed total counts ns = .ok ns' ∧ Served counts ns' (2 ^ tableLog) := by
  have hd : distributed + pending < 2 ^ tableLog := by
    rw [← h.occurring_eq]
    exact hfits.fewer
  have hoccurring := h.occurring_eq
  unfold normalizeRest checkedSub
  rw [if_pos (by omega : distributed ≤ 2 ^ tableLog)]
  simp only [ok_bind]
  by_cases hall : distributed = counts.length
  · -- every symbol has its slot: the rest is the most frequent one's
    rw [if_pos hall]
    have hle := occurring_le_length counts
    have hnone : pending = 0 := by omega
    have hmost : counts.sum / 2 ^ tableLog < counts.getD (maxSymbolOf counts 0 0 0) 0 := by
      by_contra hge
      exact hfits.not_all_low fun c hc => le_trans (le_maxSymbolOf counts c hc) (by omega)
    have hone := h.getD_one hnone hmost
    refine ⟨_, rfl, (h.served hnone).raise (by omega) (by omega) ?_⟩
    omega
  · rw [if_neg hall]
    by_cases h0 : total = 0
    · -- nobody is left to divide among: one slot more for each in turn
      rw [if_pos h0]
      have hnone : pending = 0 := by
        have := h.pending_le
        omega
      obtain ⟨j, hj⟩ : ∃ j, 0 < ns.getD j 0 := by
        by_contra hno
        refine hfits.not_all_low (h.le_low hnone fun n hn => ?_)
        obtain ⟨i, hi, rfl⟩ := List.mem_iff_getElem.1 hn
        have : ¬ 0 < ns.getD i 0 := fun hlt => hno ⟨i, hlt⟩
        rw [List.getD_eq_getElem _ _ hi] at this
        omega
      have hjlen : j < ns.length := by
        by_contra hge
        rw [List.getD_eq_default _ _ (by omega)] at hj
        omega
      obtain ⟨ns', hdeal, hserved⟩ := @dealOut_served counts j ((2 ^ tableLog - distributed) * counts.length)
        (2 ^ tableLog - distributed) 0 distributed ns (h.served hnone) hj (by omega) (by
          refine .inr ?_
          rw [h.length] at hjlen ⊢
          obtain ⟨k, hk⟩ := Nat.exists_eq_add_of_lt (by omega : 0 < 2 ^ tableLog - distributed)
          rw [hk, Nat.zero_add, Nat.add_sub_cancel, Nat.add_mul]
          unfold turnsTo
          rw [if_pos (Nat.zero_le _)]
          omega)
      exact ⟨ns', hdeal, by rwa [Nat.add_sub_of_le (by omega)] at hserved⟩
    · rw [if_neg h0]
      have hmid : total ≤ 2 ^ (62 - tableLog - 1) := by
        have hsum := hfits.sum_lt
        have htotal := h.add_le_sum
        have h52 : 2 ^ 52 ≤ 2 ^ (62 - tableLog - 1) := Nat.pow_le_pow_right (by norm_num) (by
          unfold tablelogMax at hlog
          omega)
        have h9 : 2 ^ tableLog ≤ 2 ^ 9 := Nat.pow_le_pow_right (by norm_num) hlog
        omega
      obtain ⟨ns', hassign, hserved⟩ := assignRest_served h (rStep_one (by omega) hmid hshare)
        (2 ^ (62 - tableLog - 1) - 1)
      refine ⟨ns', hassign, ?_⟩
      rwa [rStep_total (by unfold tablelogMax at hlog; omega) (by omega) hmid, Nat.add_sub_of_le (by omega)] at hserved

/-- After the second pass the rarest symbol is due a slot still: what it serves gives up more than its share. -/
theorem second_share {slots d k t total taken f g : Nat} (hfew : 2 * (d + k) ≤ slots) (hpos : 0 < slots)
    (ht : t ≤ total) (hf : total * 3 < (f + 1) * (slots * 2)) (htaken : k * (f + 1) ≤ taken)
    (hg : t * 3 < (g + 1) * ((slots - d) * 2)) : t - taken ≤ (g + 1) * (slots - (d + k)) := by
  obtain ⟨y, hy⟩ : ∃ y, slots = y + (d + k) := ⟨slots - (d + k), by omega⟩
  rw [show slots - d = y + k by omega] at hg
  rw [show slots - (d + k) = y by omega]
  have hroom : 3 * (k * d) ≤ (y + k) * slots := by
    subst hy
    nlinarith
  have hgiven : 3 * (k * t) ≤ 2 * slots * taken :=
    calc 3 * (k * t) ≤ k * (total * 3) := by nlinarith
      _ ≤ k * ((f + 1) * (slots * 2)) := Nat.mul_le_mul_left _ (le_of_lt hf)
      _ = 2 * slots * (k * (f + 1)) := by ring
      _ ≤ 2 * slots * taken := Nat.mul_le_mul_left _ htaken
  have hkept : 3 * (t * y) ≤ 2 * (y + k) * ((g + 1) * y) := by nlinarith
  -- everything times `2 * (y + k) * slots`
  suffices h : t ≤ (g + 1) * y + taken by omega
  refine Nat.le_of_mul_le_mul_left (c := 2 * (y + k) * slots) ?_ (by
    have : 0 < y + k := by omega
    positivity)
  calc 2 * (y + k) * slots * t ≤ slots * (3 * (t * y)) + (y + k) * (3 * (k * t)) := by
        have := Nat.mul_le_mul_right t hroom
        subst hy
        nlinarith
    _ ≤ slots * (2 * (y + k) * ((g + 1) * y)) + (y + k) * (2 * slots * taken) :=
      Nat.add_le_add (Nat.mul_le_mul_left _ hkept) (Nat.mul_le_mul_left _ hgiven)
    _ = 2 * (y + k) * slots * ((g + 1) * y + taken) := by ring

theorem normalizeCountM2_served {lowProbCount : Int} (hfits : Fits tableLog counts) (hlog : tableLog ≤ tablelogMax)
    (hlow : lowProbCount = 1 ∨ lowProbCount = -1) :
    ∃ ns, normalizeCountM2 tableLog counts.sum counts lowProbCount = .ok ns ∧ Served counts ns (2 ^ tableLog) := by
  have hslots : 0 < 2 ^ tableLog := by positivity
  obtain ⟨pending, h, hle⟩ := @assignLow_partly (counts.sum / 2 ^ tableLog) (counts.sum * 3 / (2 ^ tableLog * 2))
    lowProbCount hlow counts
  unfold normalizeCountM2 checkedSub
  rw [hfits.lowThreshold, hfits.lowOne]
  have hf : counts.sum * 3 < (counts.sum * 3 / (2 ^ tableLog * 2) + 1) * (2 ^ tableLog * 2) :=
    Nat.lt_mul_of_div_lt (Nat.lt_succ_self _) (by omega)
  generalize counts.sum * 3 / (2 ^ tableLog * 2) = f at *
  rcases hr : assignLow (counts.sum / 2 ^ tableLog) f lowProbCount counts with ⟨ns, distributed, taken⟩
  rw [hr] at h hle
  simp only [hr] at h hle ⊢
  have hsum := h.add_le_sum
  have hoccurring := h.occurring_eq
  have hfewer := hfits.fewer
  have hmost := h.total_le_pending fun c hc => Nat.le_sub_one_of_lt (hfits.u32 c hc)
  rw [if_pos hle, ok_bind, if_pos (by omega), ok_bind, if_neg (by omega)]
  generalize htotal : counts.sum - taken = total at *
  have hquot : total / (2 ^ tableLog - distributed) % 2 ^ 32 = total / (2 ^ tableLog - distributed) := by
    refine Nat.mod_eq_of_lt (Nat.div_lt_of_lt_mul ?_)
    calc total ≤ pending * (2 ^ 32 - 1) := hmost
      _ ≤ (2 ^ tableLog - distributed) * (2 ^ 32 - 1) := Nat.mul_le_mul_right _ (by omega)
      _ < (2 ^ tableLog - distributed) * 2 ^ 32 := Nat.mul_lt_mul_of_pos_left (by norm_num) (by omega)
  rw [hquot]
  by_cases hmore : total / (2 ^ tableLog - distributed) > f
  · rw [if_pos hmore]
    rcases hfits.few with hfew | hfew
    · -- with less to count than there are slots the quotient is zero
      rw [Nat.div_eq_of_lt (by omega)] at hmore
      omega
    have hcut : total * 3 / ((2 ^ tableLog - distributed) * 2) % 2 ^ 32 =
      total * 3 / ((2 ^ tableLog - distributed) * 2) := by
      refine Nat.mod_eq_of_lt (Nat.div_lt_of_lt_mul ?_)
      calc total * 3 ≤ pending * (2 ^ 32 - 1) * 3 := Nat.mul_le_mul_right _ hmost
        _ = pending * 2 * ((2 ^ 32 - 1) * 3 / 2) + pending * 1 := by omega
        _ < (2 ^ tableLog - distributed) * 2 * 2 ^ 32 := by omega
    rw [hcut]
    have hg : total * 3 < (total * 3 / ((2 ^ tableLog - distributed) * 2) + 1) * ((2 ^ tableLog - distributed) * 2) :=
      Nat.lt_mul_of_div_lt (Nat.lt_succ_self _) (by omega)
    generalize total * 3 / ((2 ^ tableLog - distributed) * 2) = g at *
    obtain ⟨pending', h', hle', htaken⟩ := @assignOne_partly _ _ _ _ _ _ _ g h
    rcases hr' : assignOne g counts ns with ⟨ns', more, taken'⟩
    rw [hr'] at h' hle' htaken
    simp only at h' hle' htaken ⊢
    rw [if_pos hle', ok_bind]
    have hoccurring' := h'.occurring_eq
    exact normalizeRest_served hfits hlog h' (second_share (by omega) hslots (by omega) hf htaken hg)
  · rw [if_neg hmore]
    refine normalizeRest_served hfits hlog h (le_of_lt ?_)
    exact Nat.lt_mul_of_div_lt (by omega) (by omega)

end

/-! ## The first way -/

theorem Served.snoc {counts : List Nat} {ns : List Int} {slots count : Nat} {n : Int} (h : Served counts ns slots)
    (hn : -1 ≤ n) (h0 : n = 0 ↔ count = 0) : Served (counts ++ [count]) (ns ++ [n]) (slots + n.natAbs) := by
  refine ⟨by rw [List.length_append, List.length_append, h.length]; rfl, ?_, ?_, ?_⟩
  · intro m hm
    rcases List.mem_append.1 hm with hm | hm
    · exact h.atLeast m hm
    · rw [List.mem_singleton.1 hm]
      exact hn
  · rw [← h.total]
    simp [slotTotal]
  · intro i
    have hlen := h.length
    by_cases hi : i < ns.length
    · rw [List.getD_append _ _ _ _ hi, List.getD_append _ _ _ _ (by omega)]
      exact h.absent i
    · rw [List.getD_append_right _ _ _ _ (by omega), List.getD_append_right _ _ _ _ (by omega), hlen]
      cases i - counts.length with
      | zero => simpa using h0
      | succ k => simp

/-- A symbol that is due more than a slot gets one at least: what is left beats nothing at all. -/
theorem probaOf_pos {tableLog step value : Nat} (hpos : 0 < value * step) : 0 < probaOf tableLog step value := by
  unfold probaOf
  simp only
  by_cases h0 : (value * step) >>> (62 - tableLog) = 0
  · simp only [h0]
    rw [if_pos (by norm_num), if_pos (by simpa [rtbTable] using hpos)]
    omega
  · generalize (value * step) >>> (62 - tableLog) = proba at *
    split
    · split <;> omega
    · omega

/-- The loop so far: the symbols of `seen` are served out of `slots`, and the largest is the first with the
largest share, if any is due more than a slot. -/
structure Rounding.SoFar (s : Rounding) (slots low : Nat) (seen : List Nat) : Prop where
  served : ∃ given, Served seen s.normalizedCounter given ∧ s.stillToDistribute = (slots : Int) - given
  largest : s.normalizedCounter.getD s.largest 0 = s.largestP ∧ 0 < s.largestP ∨ s.largestP = 0 ∧ ∀ c ∈ seen, c ≤ low

section
variable {total low slots : Nat} {lowProbCount : Int} {s : Rounding} {seen : List Nat} {value : Nat} {n : Int}

/-- One symbol more with the same largest. -/
theorem Rounding.SoFar.snoc (h : s.SoFar slots low seen) (hn : -1 ≤ n) (h0 : n = 0 ↔ value = 0)
    (hlow : value ≤ low ∨ 0 < s.largestP) :
    Rounding.SoFar { s with normalizedCounter := s.normalizedCounter ++ [n]
                            stillToDistribute := s.stillToDistribute - n.natAbs } slots low (seen ++ [value]) := by
  obtain ⟨given, hserved, hstill⟩ := h.served
  refine ⟨⟨given + n.natAbs, hserved.snoc hn h0, by rw [hstill]; push_cast; omega⟩, ?_⟩
  rcases h.largest with ⟨heq, hpos⟩ | ⟨hzero, hall⟩
  · refine .inl ⟨?_, hpos⟩
    have hlt : s.largest < s.normalizedCounter.length := by
      by_contra hge
      rw [List.getD_eq_default _ _ (by omega)] at heq
      omega
    rw [← heq]
    exact List.getD_append _ _ _ _ hlt
  · refine .inr ⟨hzero, fun c hc => ?_⟩
    rcases List.mem_append.1 hc with hc | hc
    · exact hall c hc
    · rw [List.mem_singleton.1 hc]
      omega

/-- One symbol more, and it is the largest. -/
theorem Rounding.SoFar.larger {proba : Nat} (h : s.SoFar slots low seen) (hproba : 0 < proba) (h0 : value ≠ 0) :
    Rounding.SoFar { normalizedCounter := s.normalizedCounter ++ [(proba : Int)]
                     stillToDistribute := s.stillToDistribute - proba
                     largest := s.normalizedCounter.length, largestP := proba } slots low (seen ++ [value]) := by
  obtain ⟨given, hserved, hstill⟩ := h.served
  refine ⟨⟨given + proba, ?_, by rw [hstill]; push_cast; omega⟩, .inl ⟨?_, hproba⟩⟩
  · have := hserved.snoc (show (-1 : Int) ≤ proba by omega) (show (proba : Int) = 0 ↔ value = 0 by omega)
    rwa [Int.natAbs_natCast] at this
  · simp only [List.getD_eq_getElem?_getD, List.getElem?_append_right (le_refl _), Nat.sub_self]
    rfl

/-- The loop comes to nothing when one symbol is all there is, and serves every symbol otherwise. -/
theorem roundCounts_soFar {tableLog : Nat} (hlow : lowProbCount = 1 ∨ lowProbCount = -1) (hstep : 0 < 2 ^ 62 / total) :
    ∀ {rest seen : List Nat} {s : Rounding}, s.SoFar slots low seen →
      (roundCounts tableLog total low lowProbCount rest s = none ∧ ∃ c ∈ rest, c = total ∧ c ≠ 0) ∨
      ∃ s', roundCounts tableLog total low lowProbCount rest s = some s' ∧ s'.SoFar slots low (seen ++ rest) ∧
        ∀ c ∈ rest, c = total → c = 0
  | [], seen, s, h => .inr ⟨s, rfl, by simpa using h, by simp⟩
  | value :: rest, seen, s, h => by
    -- whatever the symbol's own count, the rest follows from the state after it
    have hnext : ∀ {s' : Rounding}, s'.SoFar slots low (seen ++ [value]) → (value = total → value = 0) →
        roundCounts tableLog total low lowProbCount (value :: rest) s =
          roundCounts tableLog total low lowProbCount rest s' →
        (roundCounts tableLog total low lowProbCount (value :: rest) s = none ∧ ∃ c ∈ value :: rest,
          c = total ∧ c ≠ 0) ∨
        ∃ t, roundCounts tableLog total low lowProbCount (value :: rest) s = some t ∧
          t.SoFar slots low (seen ++ value :: rest) ∧ ∀ c ∈ value :: rest, c = total → c = 0 := by
      intro s' hs' hvalue heq
      rw [heq]
      rcases roundCounts_soFar hlow hstep hs' with ⟨hnone, c, hc, hall⟩ | ⟨t, hsome, ht, hall⟩
      · exact .inl ⟨hnone, c, List.mem_cons_of_mem _ hc, hall⟩
      · refine .inr ⟨t, hsome, by simpa using ht, fun c hc => ?_⟩
        rcases List.mem_cons.1 hc with rfl | hc
        · exact hvalue
        · exact hall c hc
    by_cases h0 : value = 0
    · refine hnext (h.snoc (show (-1 : Int) ≤ 0 by norm_num) (by simp [h0]) (.inl (by omega))) (fun _ => h0) ?_
      conv_lhs => unfold roundCounts
      rw [if_pos h0]
      simp
    · by_cases hall : value = total
      · refine .inl ⟨?_, value, List.mem_cons_self, hall, h0⟩
        unfold roundCounts
        rw [if_neg h0, if_pos hall]
      · by_cases hsmall : value ≤ low
        · have hone : lowProbCount.natAbs = 1 := by rcases hlow with rfl | rfl <;> rfl
          refine hnext (@Rounding.SoFar.snoc _ _ _ _ value lowProbCount h (by omega) (by omega) (.inl hsmall))
            (fun hv => absurd hv hall) ?_
          conv_lhs => unfold roundCounts
          rw [if_neg h0, if_neg hall, if_pos hsmall, hone]
          rfl
        · have hproba : 0 < probaOf tableLog (2 ^ 62 / total) value := probaOf_pos (Nat.mul_pos (by omega) hstep)
          by_cases hlarger : probaOf tableLog (2 ^ 62 / total) value > s.largestP
          · refine hnext (h.larger hproba h0) (fun hv => absurd hv hall) ?_
            conv_lhs => unfold roundCounts
            rw [if_neg h0, if_neg hall, if_neg hsmall]
            simp only
            rw [if_pos hlarger]
          · refine hnext (@Rounding.SoFar.snoc _ _ _ _ value (probaOf tableLog (2 ^ 62 / total) value) h
              (by omega) (by omega) (.inr (by omega))) (fun hv => absurd hv hall) ?_
            conv_lhs => unfold roundCounts
            rw [if_neg h0, if_neg hall, if_neg hsmall]
            simp only
            rw [if_neg hlarger, Int.natAbs_natCast]

end

/-! ## Both ways -/

/-- The floor of the table log, with the size in full. -/
def floorLog (srcSize maxSymbolValue : Nat) : Nat :=
  min (highbit32 (max srcSize 2) + 1) (minBitsSymbols maxSymbolValue)

/-- Below 2^32 the guard is the floor. -/
theorem minTableLog_eq {total maxSymbolValue : Nat} (h : total < 2 ^ 32) :
    minTableLog total maxSymbolValue = floorLog total maxSymbolValue := by
  unfold minTableLog floorLog
  rw [Nat.mod_eq_of_lt (by omega : max total 2 < 2 ^ 32)]
  simp only
  rw [if_neg (by omega)]

/-- A histogram that `normalize_count` is asked about: the counts of the alphabet sum to the total, and the
table log passes the guard. -/
structure Histogram (counterLen tableLog : Nat) (count : List Nat) (total maxSymbolValue : Nat) : Prop where
  alphabet : maxSymbolValue ≤ symbolvalueMax ∧ maxSymbolValue < counterLen ∧ maxSymbolValue < count.length
  u32 : ∀ c ∈ count, c < 2 ^ 32
  total_eq : (count.take (maxSymbolValue + 1)).sum = total
  two : 2 ≤ total
  range : minTablelog ≤ tableLog ∧ tableLog ≤ tablelogMax
  guard : minTableLog total maxSymbolValue ≤ tableLog

/-- What is promised: zero exactly when one symbol is all there is, and otherwise a table filled to the last
slot, with a slot for the symbols that occur and for no other. -/
def Normalizes (counterLen tableLog : Nat) (count : List Nat) (total maxSymbolValue : Nat) (useLowProbCount : Bool) :
    Prop :=
  (total ∈ count.take (maxSymbolValue + 1) ∧
    normalizeCount counterLen tableLog count total maxSymbolValue useLowProbCount = .ok (0, [])) ∨
  (total ∉ count.take (maxSymbolValue + 1) ∧ ∃ ns,
    normalizeCount counterLen tableLog count total maxSymbolValue useLowProbCount = .ok (tableLog, ns) ∧
    Served (count.take (maxSymbolValue + 1)) ns (2 ^ tableLog))

theorem lt_two_pow_highbit {n : Nat} : n < 2 ^ (highbit32 n + 1) := Nat.lt_log2_self

/-- At least one slot for each symbol that occurs. -/
theorem Served.occurring_le {counts : List Nat} {ns : List Int} {slots : Nat} (h : Served counts ns slots) :
    occurring counts ≤ slots := by
  rw [← h.total]
  have hlen := h.length
  have habsent := h.absent
  clear h
  induction counts generalizing ns with
  | nil => exact Nat.zero_le _
  | cons count counts ih =>
    obtain _ | ⟨n, ns⟩ := ns
    · simp at hlen
    have hrest := @ih ns (by simpa using hlen) fun i => by simpa using habsent (i + 1)
    have h0 : n = 0 ↔ count = 0 := by simpa using habsent 0
    rw [occurring_cons]
    simp only [slotTotal, List.map_cons, List.sum_cons] at hrest ⊢
    split <;> omega

/-- Where one symbol is all there is, no other occurs. -/
theorem occurring_of_mem {most : Nat} : ∀ {counts : List Nat}, most ∈ counts → counts.sum ≤ most → occurring counts ≤ 1
  | count :: counts, hmem, hsum => by
    rw [List.sum_cons] at hsum
    rw [occurring_cons]
    rcases List.mem_cons.1 hmem with rfl | hmem
    · have := occurring_le_sum counts
      split <;> omega
    · have hle := List.single_le_sum (fun _ _ => Nat.zero_le _) _ hmem
      have := occurring_of_mem hmem (by omega)
      rw [if_neg (by omega)]
      omega

section
variable {counterLen tableLog total maxSymbolValue : Nat} {count : List Nat}

/-- The floor leaves room in the table. -/
theorem few_of_floor (hfloor : floorLog total maxSymbolValue ≤ tableLog) :
    total < 2 ^ tableLog ∨ 2 * occurring (count.take (maxSymbolValue + 1)) ≤ 2 ^ tableLog := by
  have hlength : occurring (count.take (maxSymbolValue + 1)) ≤ maxSymbolValue + 1 :=
    le_trans (occurring_le_length _) (by rw [List.length_take]; omega)
  rcases min_le_iff.1 hfloor with hsrc | hsymbols
  · refine .inl ?_
    calc total ≤ max total 2 := le_max_left _ _
      _ < 2 ^ (highbit32 (max total 2) + 1) := lt_two_pow_highbit
      _ ≤ 2 ^ tableLog := Nat.pow_le_pow_right (by norm_num) hsrc
  · refine .inr ?_
    unfold minBitsSymbols at hsymbols
    split at hsymbols
    · have : 2 ^ 1 ≤ 2 ^ tableLog := Nat.pow_le_pow_right (by norm_num) hsymbols
      omega
    · have hmax := @lt_two_pow_highbit maxSymbolValue
      have hpow : 2 ^ (highbit32 maxSymbolValue + 2) ≤ 2 ^ tableLog := Nat.pow_le_pow_right (by norm_num) hsymbols
      rw [show highbit32 maxSymbolValue + 2 = highbit32 maxSymbolValue + 1 + 1 by rfl, Nat.pow_succ] at hpow
      omega

/-- Where the guard sees the whole total it is the floor; otherwise the symbols themselves have to be few. -/
theorem Histogram.fits (h : Histogram counterLen tableLog count total maxSymbolValue)
    (hroom : total < 2 ^ 32 ∨ 2 * occurring (count.take (maxSymbolValue + 1)) ≤ 2 ^ tableLog) :
    Fits tableLog (count.take (maxSymbolValue + 1)) := by
  have htwo := h.two
  have hsum := occurring_le_sum (count.take (maxSymbolValue + 1))
  rw [h.total_eq] at hsum
  have hfew : total < 2 ^ tableLog ∨ 2 * occurring (count.take (maxSymbolValue + 1)) ≤ 2 ^ tableLog := by
    rcases hroom with hlt | hfew
    · exact few_of_floor (by rw [← minTableLog_eq hlt]; exact h.guard)
    · exact .inr hfew
  refine ⟨fun c hc => h.u32 c (List.mem_of_mem_take hc), by rw [h.total_eq]; omega, ?_, by rwa [h.total_eq]⟩
  have : 0 < 2 ^ tableLog := by positivity
  omega

/-- What is done once the checks have passed. -/
theorem Histogram.normalizeCount_eq (h : Histogram counterLen tableLog count total maxSymbolValue)
    (useLowProbCount : Bool) :
    normalizeCount counterLen tableLog count total maxSymbolValue useLowProbCount =
      match roundCounts tableLog total ((total >>> tableLog) % 2 ^ 32) (if useLowProbCount then -1 else 1)
          (count.take (maxSymbolValue + 1))
          { normalizedCounter := [], stillToDistribute := 2 ^ tableLog, largest := 0, largestP := 0 } with
      | none => .ok (0, [])
      | some s =>
        if -s.stillToDistribute ≥ s.normalizedCounter.getD s.largest 0 / 2 then do
          let counter ← normalizeCountM2 tableLog total (count.take (maxSymbolValue + 1))
            (if useLowProbCount then -1 else 1)
          .ok (tableLog, counter)
        else
          .ok (tableLog, s.normalizedCounter.set s.largest (s.normalizedCounter.getD s.largest 0 +
            s.stillToDistribute)) := by
  have halphabet := h.alphabet
  have htwo := h.two
  have hguard := h.guard
  unfold normalizeCount
  rewrite [if_neg (by omega), if_neg (by omega), if_neg (not_not_intro h.range), if_neg (by omega)]
  rfl

theorem Histogram.normalizes (h : Histogram counterLen tableLog count total maxSymbolValue)
    (hroom : total < 2 ^ 32 ∨ 2 * occurring (count.take (maxSymbolValue + 1)) ≤ 2 ^ tableLog) (useLowProbCount : Bool) :
    Normalizes counterLen tableLog count total maxSymbolValue useLowProbCount := by
  have hfits := h.fits hroom
  have htwo := h.two
  unfold Normalizes
  rw [h.normalizeCount_eq useLowProbCount]
  have hsum := h.total_eq
  generalize count.take (maxSymbolValue + 1) = counts at *
  subst hsum
  have hlow : (if useLowProbCount then -1 else 1 : Int) = 1 ∨ (if useLowProbCount then -1 else 1 : Int) = -1 := by
    cases useLowProbCount
    · exact .inl rfl
    · exact .inr rfl
  generalize (if useLowProbCount then -1 else 1 : Int) = lowProbCount at *
  have hstep : 0 < 2 ^ 62 / counts.sum := by
    refine Nat.div_pos ?_ hfits.pos
    have := hfits.sum_lt
    have h9 : 2 ^ tableLog ≤ 2 ^ 9 := Nat.pow_le_pow_right (by norm_num) h.range.2
    omega
  rw [hfits.lowThreshold]
  have hstart : Rounding.SoFar
      { normalizedCounter := [], stillToDistribute := 2 ^ tableLog, largest := 0, largestP := 0 }
      (2 ^ tableLog) (counts.sum / 2 ^ tableLog) [] :=
    ⟨⟨0, .nil, by push_cast; omega⟩, .inr ⟨rfl, by simp⟩⟩
  rcases @roundCounts_soFar counts.sum _ _ _ tableLog hlow hstep counts [] _ hstart with
    ⟨hnone, c, hc, rfl, _⟩ | ⟨s, hsome, hs, hall⟩
  · exact .inl ⟨hc, by rw [hnone]⟩
  refine .inr ⟨fun hmem => absurd (hall _ hmem rfl) (by omega), ?_⟩
  rw [hsome]
  obtain ⟨given, hserved, hstill⟩ := hs.served
  rw [List.nil_append] at hserved
  simp only
  by_cases hmuch : -s.stillToDistribute ≥ s.normalizedCounter.getD s.largest 0 / 2
  · obtain ⟨ns, hm2, hns⟩ := normalizeCountM2_served hfits h.range.2 hlow
    exact ⟨ns, by rw [if_pos hmuch, hm2]; rfl, hns⟩
  · rcases hs.largest with ⟨heq, hpos⟩ | ⟨_, hallLow⟩
    · exact ⟨_, by rw [if_neg hmuch], hserved.raise (by omega) (by omega) (by rw [hstill]; push_cast; omega)⟩
    · exact absurd hallLow hfits.not_all_low

/-- Normalizing does what it promises wherever the guard sees the whole total, or no more than half as many
symbols occur as there are slots; and it cannot where more symbols occur than there are slots. -/
theorem normalizeCount_normalizes (h : Histogram counterLen tableLog count total maxSymbolValue)
    (useLowProbCount : Bool) : (total < 2 ^ 32 ∨ 2 * occurring (count.take (maxSymbolValue + 1)) ≤ 2 ^ tableLog →
      Normalizes counterLen tableLog count total maxSymbolValue useLowProbCount) ∧
    (Normalizes counterLen tableLog count total maxSymbolValue useLowProbCount →
      occurring (count.take (maxSymbolValue + 1)) ≤ 2 ^ tableLog) := by
  refine ⟨fun hroom => h.normalizes hroom useLowProbCount, ?_⟩
  rintro (⟨hmem, _⟩ | ⟨_, ns, _, hserved⟩)
  · have hone := occurring_of_mem hmem (le_of_eq h.total_eq)
    have : 0 < 2 ^ tableLog := by positivity
    omega
  · exact hserved.occurring_le

end

/-- 256 symbols, each about 2^24 times: the total is 2^32 + 2. -/
def widestHistogram : List Nat := (2 ^ 24 + 2) :: List.replicate 255 (2 ^ 24)

theorem widestHistogram_ok : Histogram 256 5 widestHistogram (2 ^ 32 + 2) 255 where
  alphabet := by decide +kernel
  u32 := by
    intro c hc
    rcases List.mem_cons.1 hc with rfl | hc
    · norm_num
    · rw [List.eq_of_mem_replicate hc]
      norm_num
  total_eq := by decide +kernel
  two := by norm_num
  range := by decide
  guard := by decide +kernel

/-- The guard sees a total of 2 and lets 256 symbols into a table of 32 slots. -/
theorem normalizeCount_cut : ¬ ∀ (counterLen tableLog : Nat) (count : List Nat) (total maxSymbolValue : Nat)
    (useLowProbCount : Bool), Histogram counterLen tableLog count total maxSymbolValue →
    Normalizes counterLen tableLog count total maxSymbolValue useLowProbCount := by
  intro h
  have herror : normalizeCount 256 5 widestHistogram (2 ^ 32 + 2) 255 false = .error .generic := by decide +kernel
  rcases h 256 5 widestHistogram (2 ^ 32 + 2) 255 false widestHistogram_ok with ⟨_, hok⟩ | ⟨_, ns, hok, _⟩
  · exact absurd (herror.symm.trans hok) (by simp)
  · exact absurd (herror.symm.trans hok) (by simp)

/-- A histogram that goes the second way. -/
theorem normalizeCount_normalizes_small : ∃ ns,
    normalizeCount 16 5 [100, 3, 3, 3, 3, 1, 1, 1, 1, 1, 1, 1, 1, 1, 1, 1] 123 15 true = .ok (5, ns) ∧
    Served [100, 3, 3, 3, 3, 1, 1, 1, 1, 1, 1, 1, 1, 1, 1, 1] ns 32 := by
  have hhist : Histogram 16 5 [100, 3, 3, 3, 3, 1, 1, 1, 1, 1, 1, 1, 1, 1, 1, 1] 123 15 :=
    ⟨by decide, by decide, by decide, by decide, by decide, by decide⟩
  rcases (normalizeCount_normalizes hhist true).1 (.inl (by norm_num)) with ⟨hmem, _⟩ | ⟨_, h⟩
  · exact absurd hmem (by decide)
  · exact h

end Fse

end Zstandard
