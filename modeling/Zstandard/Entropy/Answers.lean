/-
What the two decode tables of a weight description answer.

A slot is a word of the table's depth. The single-symbol table is filled symbol by symbol, each over the words that
begin with its code. The double-symbol table is filled from its first slot to its last: behind a first symbol the
words split once more by the code that follows, as far as that still fits.
-/
import Zstandard.Entropy.Codes

namespace Zstandard

open BitStack PrefixCode

namespace Huff0

/-! ## The single-symbol table -/

theorem fillRange_getElem? {α : Type} {slots : List α} {start stop : Nat} (entry : α) (h : start ≤ stop)
    (hs : stop ≤ slots.length) (v : Nat) :
    (fillRange slots start stop entry)[v]? = if start ≤ v ∧ v < stop then some entry else slots[v]? := by
  have hlen : (slots.take start).length = start := by rw [List.length_take]; omega
  unfold fillRange
  rcases Nat.lt_or_ge v start with hlow | hlow
  · rw [if_neg (by omega), List.append_assoc, List.getElem?_append_left (by omega), List.getElem?_take_of_lt hlow]
  rcases Nat.lt_or_ge v stop with hin | hhigh
  · rw [if_pos ⟨hlow, hin⟩, List.append_assoc, List.getElem?_append_right (by omega),
      List.getElem?_append_left (by rw [List.length_replicate, hlen]; omega), List.getElem?_replicate, hlen,
      if_pos (by omega)]
  · rw [if_neg (by omega), List.getElem?_append_right (by rw [List.length_append, List.length_replicate, hlen]; omega),
      List.length_append, List.length_replicate, hlen, List.getElem?_drop]
    congr 1
    omega

theorem fillRange_getD {α : Type} {slots : List α} {start stop : Nat} (entry default : α) (h : start ≤ stop)
    (hs : stop ≤ slots.length) (v : Nat) :
    (fillRange slots start stop entry).getD v default =
      if start ≤ v ∧ v < stop then entry else slots.getD v default := by
  rw [List.getD_eq_getElem?_getD, fillRange_getElem? entry h hs, List.getD_eq_getElem?_getD]
  split <;> rfl

theorem rankStarts_getElem? : ∀ {counts : List Nat} {weight next j : Nat}, j < counts.length →
    (rankStarts counts weight next)[j]? =
      some (next + ∑ i ∈ Finset.range j, counts.getD i 0 * 2 ^ (weight + i - 1))
  | [], _, _, j, h => by simp at h
  | count :: counts, weight, next, 0, _ => by simp [rankStarts]
  | count :: counts, weight, next, j + 1, h => by
    rw [rankStarts, List.getElem?_cons_succ, rankStarts_getElem? (Nat.lt_of_succ_lt_succ h), Finset.sum_range_succ']
    have hsum : ∑ i ∈ Finset.range j, counts.getD i 0 * 2 ^ (weight + 1 + i - 1) =
        ∑ i ∈ Finset.range j, (count :: counts).getD (i + 1) 0 * 2 ^ (weight + (i + 1) - 1) := by
      refine Finset.sum_congr rfl fun i _ => ?_
      rw [show weight + 1 + i - 1 = weight + (i + 1) - 1 by omega]
      rfl
    rw [hsum]
    simp only [List.getD_cons_zero, Nat.add_zero]
    congr 1
    ring

theorem rankStarts_length : ∀ (counts : List Nat) (weight next : Nat),
    (rankStarts counts weight next).length = counts.length
  | [], _, _ => rfl
  | count :: counts, weight, next => by
    rw [rankStarts, List.length_cons, List.length_cons, rankStarts_length counts]

/-- What a slot of a single-symbol table answers: the symbol whose code the slot begins with. -/
def Answers (ctable : CTable) (tableLog v : Nat) (entry : DEltX1) : Prop :=
  Heads ctable.code v tableLog entry.byte ∧ entry.nbBits = (ctable entry.byte).nbBits

section
variable {weights : List Nat} {tableLog : Nat} {ctable : CTable}

/-- The fill of the single-symbol table behind the symbols of `pre`: the slots of all their runs answer. -/
structure Filled (ctable : CTable) (tableLog : Nat) (pre weights : List Nat) (rankVal : List Nat)
    (entries : List DEltX1) : Prop where
  length : entries.length = 2 ^ tableLog
  ranks : rankVal.length = tableLog + 1
  next : ∀ w, 1 ≤ w → w ≤ tableLog → rankVal.getD w 0 = (firstCode weights w + pre.count w) * 2 ^ (w - 1)
  answers : ∀ w k v, 1 ≤ w → w ≤ tableLog → k < pre.count w → v < 2 ^ tableLog →
    v / 2 ^ (w - 1) = firstCode weights w + k → Answers ctable tableLog v (entries.getD v default)

/-- One symbol's run: it stays in the table, and the slots of the runs so far answer. -/
theorem CodesOf.fillRun (h : CodesOf weights tableLog ctable) {w : Nat} {pre rest rankVal : List Nat}
    {entries : List DEltX1} (hsplit : weights = pre ++ w :: rest)
    (hfilled : Filled ctable tableLog pre weights rankVal entries) :
    (1 ≤ w → rankVal.getD w 0 + 2 ^ w / 2 ≤ entries.length) ∧
      Filled ctable tableLog (pre ++ [w]) weights (rankVal.set w (rankVal.getD w 0 + 2 ^ w / 2))
        (fillRange entries (rankVal.getD w 0) (rankVal.getD w 0 + 2 ^ w / 2)
          { byte := UInt8.ofNat pre.length, nbBits := tableLog + 1 - w }) := by
  have hw : w ≤ tableLog := h.weight_le w (by rw [hsplit]; simp)
  rcases Nat.eq_zero_or_pos w with rfl | hpos
  · -- an absent symbol fills nothing
    have hnone : fillRange entries (rankVal.getD 0 0) (rankVal.getD 0 0 + 2 ^ 0 / 2)
        { byte := UInt8.ofNat pre.length, nbBits := tableLog + 1 - 0 } = entries := by
      simp [fillRange]
    rw [hnone]
    refine ⟨fun hpos => absurd hpos (by omega), ?_⟩
    have hcount : ∀ x, 1 ≤ x → (pre ++ [0]).count x = pre.count x := by
      intro x hx
      rw [List.count_append, List.count_cons_of_ne (by omega), List.count_nil, Nat.add_zero]
    refine ⟨hfilled.length, by rw [List.length_set]; exact hfilled.ranks, ?_, ?_⟩
    · intro x hx hle
      rw [List.getD_eq_getElem?_getD, List.getElem?_set_ne (by omega), ← List.getD_eq_getElem?_getD, hcount x hx]
      exact hfilled.next x hx hle
    · intro x k v hx hle hk
      rw [hcount x hx] at hk
      exact hfilled.answers x k v hx hle hk
  · have hk : pre.count w < weights.count w := by
      rw [hsplit, List.count_append, List.count_cons_self]
      omega
    have hselect : Tans.select w weights (pre.count w) = pre.length := by
      have hi : weights[pre.length]? = some w := by rw [hsplit]; simp
      have htake : weights.take pre.length = pre := by rw [hsplit]; simp
      have := Tans.select_count hi
      rwa [htake] at this
    have hroom := h.slots_le hpos hw hk
    have htop := firstSlot_mono weights (show w + 1 ≤ tableLog + 1 by omega)
    rw [h.firstSlot_top] at htop
    have hstart := hfilled.next w hpos hw
    have hstop : rankVal.getD w 0 + 2 ^ w / 2 = (firstCode weights w + pre.count w + 1) * 2 ^ (w - 1) := by
      rw [hstart, half_pow hpos]
      ring
    have hcode := h.code_select hpos hk
    rw [hselect] at hcode
    rw [hstop]
    have hle : rankVal.getD w 0 ≤ (firstCode weights w + pre.count w + 1) * 2 ^ (w - 1) := by
      rw [hstart]
      exact Nat.mul_le_mul_right _ (by omega)
    have hlen : (firstCode weights w + pre.count w + 1) * 2 ^ (w - 1) ≤ entries.length := by
      rw [hfilled.length]
      exact hroom.trans htop
    refine ⟨fun _ => hlen, by rw [fillRange_length _ hle hlen]; exact hfilled.length,
      by rw [List.length_set]; exact hfilled.ranks, ?_, ?_⟩
    · intro x hx hxle
      rw [List.count_append, List.getD_eq_getElem?_getD]
      by_cases hxw : w = x
      · subst hxw
        rw [List.getElem?_set_self (by rw [hfilled.ranks]; omega), Option.getD_some, List.count_singleton_self]
        rfl
      · rw [List.getElem?_set_ne hxw, ← List.getD_eq_getElem?_getD, List.count_cons_of_ne (by omega), List.count_nil,
          Nat.add_zero]
        exact hfilled.next x hx hxle
    · intro x k v hx hxle hxk hv hrun
      rw [fillRange_getD _ _ hle hlen]
      split
      · rename_i hin
        rw [hstart, ← Nat.le_div_iff_mul_le (by positivity), ← Nat.div_lt_iff_lt_mul (by positivity)] at hin
        have hheads := (h.heads_select_iff hpos hw hk (show tableLog + 1 - w ≤ tableLog by omega) hv).2
          (by rw [show tableLog - (tableLog + 1 - w) = w - 1 by omega]; omega)
        rw [hselect] at hheads
        exact ⟨hheads, by simp only [hcode]⟩
      · rename_i hout
        refine hfilled.answers x k v hx hxle ?_ hv hrun
        rw [List.count_append] at hxk
        by_cases hxw : w = x
        · -- the run just filled is the only new one
          subst hxw
          rw [List.count_singleton_self] at hxk
          by_contra hge
          apply hout
          rw [hstart, ← Nat.le_div_iff_mul_le (by positivity), ← Nat.div_lt_iff_lt_mul (by positivity), hrun]
          omega
        · rw [List.count_cons_of_ne (by omega), List.count_nil] at hxk
          omega

theorem CodesOf.fillDtableX1 (h : CodesOf weights tableLog ctable) : ∀ (rest pre : List Nat) {rankVal : List Nat}
    {entries : List DEltX1}, weights = pre ++ rest → Filled ctable tableLog pre weights rankVal entries →
    ∃ rankVal', Filled ctable tableLog weights weights rankVal'
      (Huff0.fillDtableX1 tableLog (rest.zipIdx pre.length) rankVal entries)
  | [], pre, rankVal, entries, hsplit, hfilled => by
    rw [List.append_nil] at hsplit
    subst hsplit
    exact ⟨rankVal, hfilled⟩
  | w :: rest, pre, rankVal, entries, hsplit, hfilled => by
    have hlen : pre.length + 1 = (pre ++ [w]).length := by rw [List.length_append, List.length_singleton]
    rw [List.zipIdx_cons, hlen]
    unfold Huff0.fillDtableX1
    exact h.fillDtableX1 rest (pre ++ [w]) (by rw [hsplit]; simp) (h.fillRun hsplit hfilled).2

/-- Once all symbols are filled, every slot answers. -/
theorem CodesOf.answers (h : CodesOf weights tableLog ctable) {rankVal : List Nat} {entries : List DEltX1}
    (hfilled : Filled ctable tableLog weights weights rankVal entries) {v : Nat} (hv : v < 2 ^ tableLog) :
    Answers ctable tableLog v (entries.getD v default) := by
  obtain ⟨w, hw, hle, hlow, hhigh⟩ := h.exists_rank hv
  rw [firstSlot_succ _ hw] at hhigh
  rw [← h.firstCode_mul hw (by omega)] at hlow hhigh
  rw [← Nat.add_mul, ← Nat.div_lt_iff_lt_mul (by positivity)] at hhigh
  rw [← Nat.le_div_iff_mul_le (by positivity)] at hlow
  exact hfilled.answers w (v / 2 ^ (w - 1) - firstCode weights w) v hw hle (by omega) hv (by omega)

/-- A single-symbol table answers every word with the symbol whose code it begins with. -/
structure DTableX1.Decodes (t : DTableX1) (ctable : CTable) : Prop where
  pos : 1 ≤ t.tableLog
  le : t.tableLog ≤ tablelogMax
  complete : Complete ctable.code t.tableLog
  answers : ∀ v < 2 ^ t.tableLog, Answers ctable t.tableLog v (t.entries.getD v default)

end

theorem readStats_rankStats {src : Bytes} {stats : Stats} (h : readStats src = .ok stats) :
    stats.rankStats = (List.range (tablelogMax + 1)).map fun w => stats.huffWeight.count w := by
  unfold readStats at h
  obtain ⟨⟨weights, size⟩, -, h⟩ := bind_ok h
  simp only at h
  iterate 5 (split at h; · cases h)
  cases h
  rfl

/-- Before the fill every rank starts where the ranks below it end. -/
theorem filled_nil {src : Bytes} {stats : Stats} {ctable : CTable} (h : readStats src = .ok stats)
    (htree : FullTree stats.huffWeight stats.tableLog) {entries : List DEltX1}
    (hentries : entries.length = 2 ^ stats.tableLog) :
    Filled ctable stats.tableLog [] stats.huffWeight
      (0 :: rankStarts ((stats.rankStats.drop 1).take stats.tableLog) 1 0) entries := by
  have hlog := (readStats_ok h).tableLog_le
  have hlen : ((stats.rankStats.drop 1).take stats.tableLog).length = stats.tableLog := by
    rw [readStats_rankStats h, List.length_take, List.length_drop, List.length_map, List.length_range]
    omega
  have hstarts : (rankStarts ((stats.rankStats.drop 1).take stats.tableLog) 1 0).length = stats.tableLog := by
    rw [rankStarts_length, hlen]
  refine ⟨hentries, by rw [List.length_cons, hstarts], ?_, ?_⟩
  · intro w hw hle
    obtain ⟨w, rfl⟩ : ∃ n, w = n + 1 := ⟨w - 1, by omega⟩
    rw [List.getD_cons_succ, List.getD_eq_getElem?_getD, rankStarts_getElem? (by omega), Option.getD_some,
      List.count_nil,
      Nat.add_zero, Nat.zero_add, htree.firstCode_mul hw (by omega), firstSlot, Finset.sum_range_succ']
    simp only [pow_zero, Nat.reduceDiv, Nat.mul_zero, Nat.add_zero]
    refine Finset.sum_congr rfl fun i hi => ?_
    have hi := Finset.mem_range.1 hi
    rw [List.getD_eq_getElem?_getD, List.getElem?_take_of_lt (by omega), List.getElem?_drop, readStats_rankStats h,
      List.getElem?_map, List.getElem?_range (by omega), half_pow (by omega), Nat.add_comm 1 i]
    rfl
  · intro w k v _ _ hk
    simp at hk

theorem readDtableX1_decodes {src : Bytes} {stats : Stats} {ctable : CTable} (h : readStats src = .ok stats)
    (hcodes : CodesOf stats.huffWeight stats.tableLog ctable) :
    ∃ t, readDtableX1 src = .ok (t, stats.size) ∧ t.tableLog = stats.tableLog ∧ t.Decodes ctable := by
  have hok := readStats_ok h
  unfold readDtableX1
  rw [h, ok_bind, if_neg (by have := hok.tableLog_le; omega)]
  refine ⟨_, rfl, rfl, hok.tableLog_pos, hok.tableLog_le, hcodes.complete, ?_⟩
  obtain ⟨rankVal, hfilled⟩ := hcodes.fillDtableX1 stats.huffWeight [] rfl
    (filled_nil h hcodes.toFullTree List.length_replicate)
  exact fun v hv => hcodes.answers hfilled hv

/-! ## The double-symbol table -/

/-- What a slot of a double-symbol table answers: one or two symbols that it spells, and their bits. -/
structure AnswersX2 (ctable : CTable) (tableLog v : Nat) (entry : DEltX2) : Prop where
  some : 1 ≤ entry.sequence.length
  two : entry.sequence.length ≤ 2
  le : entry.nbBits ≤ tableLog
  spells : Spells ctable.code v tableLog entry.sequence (tableLog - entry.nbBits)

/-- All slots below `stop` answer as they should. -/
def FilledBelow (answers : Nat → DEltX2 → Prop) (slots : List DEltX2) (stop : Nat) : Prop :=
  ∀ v < stop, answers v (slots.getD v default)

theorem FilledBelow.fillRange {answers : Nat → DEltX2 → Prop} {slots : List DEltX2} {start stop : Nat} {entry : DEltX2}
    (h : FilledBelow answers slots start) (hle : start ≤ stop) (hlen : stop ≤ slots.length)
    (hentry : ∀ v, start ≤ v → v < stop → answers v entry) :
    FilledBelow answers (Huff0.fillRange slots start stop entry) stop := by
  intro v hv
  rw [fillRange_getD _ _ hle hlen]
  split
  · rename_i hin
    exact hentry v hin.1 hin.2
  · rename_i hout
    exact h v (by omega)

/-- A run for every symbol, each behind the one before. -/
theorem FilledBelow.forWeight {answers : Nat → DEltX2 → Prop} {tableLog nbBits limit : Nat} {base : Bytes} :
    ∀ {symbols : List Nat} {start : Nat} {slots slots' : List DEltX2},
      fillDtableX2ForWeight tableLog nbBits limit base symbols start slots = .ok slots' → limit ≤ slots.length →
      FilledBelow answers slots start →
      (∀ k symbol, symbols[k]? = some symbol → ∀ v, start + k * 2 ^ (tableLog - nbBits) ≤ v →
        v < start + (k + 1) * 2 ^ (tableLog - nbBits) →
          answers v { sequence := base ++ [UInt8.ofNat symbol], nbBits }) →
      FilledBelow answers slots' (start + symbols.length * 2 ^ (tableLog - nbBits))
  | [], start, slots, slots', h, _, hbelow, _ => by
    cases h
    rwa [List.length_nil, Nat.zero_mul, Nat.add_zero]
  | symbol :: rest, start, slots, slots', h, hlim, hbelow, hruns => by
    unfold fillDtableX2ForWeight at h
    split at h
    · cases h
    simp only at h
    split at h
    · cases h
    rename_i hfit
    have hpow : 0 < 2 ^ (tableLog - nbBits) := by positivity
    have hstep := hbelow.fillRange (Nat.le_add_right start (2 ^ (tableLog - nbBits))) (by omega) fun v hlow hhigh =>
      hruns 0 symbol rfl v (by omega) (by omega)
    rw [List.length_cons, Nat.add_mul, Nat.one_mul, Nat.add_comm (rest.length * _), ← Nat.add_assoc]
    refine FilledBelow.forWeight h (by rw [fillRange_length _ (by omega) (by omega)]; exact hlim) hstep ?_
    intro k other hk v hlow hhigh
    refine hruns (k + 1) other hk v ?_ ?_
    · rw [Nat.add_mul, Nat.one_mul]; omega
    · rw [Nat.add_mul, Nat.one_mul]; omega

section
variable {p : X2Plan} {ctable : CTable}

/-- The plan's ranks and symbols are those of a table of codes. -/
structure X2Plan.Codes (p : X2Plan) (ctable : CTable) : Prop extends p.Tiles where
  first : p.rankVal 0 1 = 0
  length : ∀ w k symbol : Nat, 1 ≤ w → w ≤ p.maxWeight → (p.symbolsOf w)[k]? = some symbol →
    (ctable (UInt8.ofNat symbol)).nbBits = p.nbBitsBaseline - w
  run : ∀ w k symbol : Nat, 1 ≤ w → w ≤ p.maxWeight → (p.symbolsOf w)[k]? = some symbol →
    (ctable (UInt8.ofNat symbol)).val * 2 ^ (p.tableLog + w - p.nbBitsBaseline) =
      p.rankVal 0 w + k * 2 ^ (p.tableLog + w - p.nbBitsBaseline)

/-- A word of a run begins with the code of its symbol. -/
theorem heads_of_run {ctable : CTable} {symbol : UInt8} {depth v : Nat} (hpos : 0 < (ctable symbol).nbBits)
    (hle : (ctable symbol).nbBits ≤ depth) (hv : v < 2 ^ depth)
    (hlow : (ctable symbol).val * 2 ^ (depth - (ctable symbol).nbBits) ≤ v)
    (hhigh : v < ((ctable symbol).val + 1) * 2 ^ (depth - (ctable symbol).nbBits)) :
    Heads ctable.code v depth symbol := by
  refine ⟨hpos, hle, ?_⟩
  rw [← Nat.le_div_iff_mul_le (by positivity)] at hlow
  rw [← Nat.div_lt_iff_lt_mul (by positivity)] at hhigh
  rw [field_eq_div, Nat.mod_eq_of_lt]
  · simp only [CTable.code_snd, CTable.code_fst]
    omega
  · simp only [CTable.code_snd]
    rw [Nat.div_lt_iff_lt_mul (by positivity), ← pow_add]
    rwa [show (ctable symbol).nbBits + (depth - (ctable symbol).nbBits) = depth by omega]

/-- The runs of a rank in a table entered after `c` bits. -/
theorem X2Plan.Codes.deep_run (hp : p.Codes ctable) {w k symbol c : Nat} (hw : 1 ≤ w) (hle : w ≤ p.maxWeight)
    (hsymbol : (p.symbolsOf w)[k]? = some symbol) (hfit : p.nbBitsBaseline - w + c ≤ p.tableLog)
    (hc : c = 0 ∨ p.nbBitsBaseline - p.maxWeight ≤ c ∧ c ≤ p.tableLog - (p.nbBitsBaseline - p.maxWeight)) :
    (ctable (UInt8.ofNat symbol)).val * 2 ^ (p.tableLog - (p.nbBitsBaseline - w + c)) =
      p.rankVal c w + k * 2 ^ (p.tableLog - (p.nbBitsBaseline - w + c)) := by
  have hlt := hp.weight_lt
  have hrun := hp.run w k symbol hw hle hsymbol
  rw [show p.tableLog + w - p.nbBitsBaseline = p.tableLog - (p.nbBitsBaseline - w + c) + c by omega] at hrun
  have hrank : p.rankVal c w = p.rankVal 0 w / 2 ^ c := by
    rcases hc with rfl | ⟨h1, h2⟩
    · simp
    · rw [hp.deep c w h1 h2, Nat.shiftRight_eq_div_pow]
  have hdiv := congrArg (· / 2 ^ c) hrun
  simp only [pow_add] at hdiv
  rw [← Nat.mul_assoc, ← Nat.mul_assoc, Nat.mul_div_cancel _ (by positivity), Nat.add_mul_div_right _ _ (by positivity),
    ← hrank] at hdiv
  exact hdiv

/-- The second symbols behind `base`, rank by rank. -/
theorem X2Plan.Codes.fillLevel2Weights (hp : p.Codes ctable) {base : UInt8} {c start stop : Nat}
    (hbits : (ctable base).nbBits = c) (hbase : ∀ v, start ≤ v → v < stop → Heads ctable.code v p.tableLog base)
    (hstart : ∀ v, start ≤ v → v < stop → v % 2 ^ (p.tableLog - c) = v - start)
    (hc : p.nbBitsBaseline - p.maxWeight ≤ c) (hc' : c ≤ p.tableLog - (p.nbBitsBaseline - p.maxWeight))
    (hstop : start + 2 ^ (p.tableLog - c) = stop) :
    ∀ (n w : Nat) {slots slots' : List DEltX2}, 1 ≤ w → w + n = p.maxWeight + 1 →
      p.nbBitsBaseline + c ≤ p.tableLog + w → stop ≤ slots.length →
      Huff0.fillLevel2Weights p c start stop base n w slots = .ok slots' →
      FilledBelow (AnswersX2 ctable p.tableLog) slots (start + p.rankVal c w) →
      FilledBelow (AnswersX2 ctable p.tableLog) slots' (start + p.rankVal c (p.maxWeight + 1))
  | 0, w, slots, slots', _, hn, _, _, h, hbelow => by
    cases h
    rw [Nat.add_zero] at hn
    rwa [← hn]
  | n + 1, w, slots, slots', hw, hn, hfit, hlen, h, hbelow => by
    have hlt := hp.weight_lt
    have hend := hp.deep_le (w := w + 1) (by omega) (by omega) hc hc'
    have hbits' : p.nbBitsBaseline - w + c ≤ p.tableLog := by omega
    have hstep := hp.deep_step hw (by omega) hc hc' hbits'
    unfold Huff0.fillLevel2Weights at h
    simp only at h
    rw [if_neg (by omega)] at h
    obtain ⟨slots1, h1, h⟩ := bind_ok h
    have hlen1 : slots1.length = slots.length := by
      obtain ⟨slots2, h2, hl2⟩ := fillDtableX2ForWeight_ok stop [base] hbits' (p.symbolsOf w)
        (start + p.rankVal c w) slots (by omega) hlen
      rw [h1] at h2
      cases h2
      exact hl2
    refine hp.fillLevel2Weights hbits hbase hstart hc hc' hstop n (w + 1) (by omega) (by omega) (by omega)
      (by omega) h ?_
    rw [← hstep, ← Nat.add_assoc]
    refine FilledBelow.forWeight h1 hlen hbelow ?_
    intro k symbol hsymbol v hlow hhigh
    have hrun := hp.deep_run hw (by omega) hsymbol hbits' (.inr ⟨hc, hc'⟩)
    have hbits2 := hp.length w k symbol hw (by omega) hsymbol
    have hkl : k < (p.symbolsOf w).length := (List.getElem?_eq_some_iff.1 hsymbol).1
    have hkend : (k + 1) * 2 ^ (p.tableLog - (p.nbBitsBaseline - w + c)) ≤
        (p.symbolsOf w).length * 2 ^ (p.tableLog - (p.nbBitsBaseline - w + c)) := Nat.mul_le_mul_right _ hkl
    have hvstop : v < stop := by omega
    have hvstart : start ≤ v := by omega
    have hmod := hstart v hvstart hvstop
    rw [show p.tableLog - (p.nbBitsBaseline - w + c) = p.tableLog - c - (ctable (UInt8.ofNat symbol)).nbBits by omega]
      at hrun hlow hhigh
    have hsecond : Heads ctable.code (v % 2 ^ (p.tableLog - c)) (p.tableLog - c) (UInt8.ofNat symbol) := by
      refine heads_of_run (by omega) (by omega) (Nat.mod_lt _ (by positivity)) ?_ ?_
      · rw [hrun, hmod]; omega
      · rw [Nat.add_mul, Nat.one_mul, hrun, hmod]
        rw [Nat.add_mul, Nat.one_mul] at hhigh
        omega
    have hfirst := hbase v hvstart hvstop
    refine ⟨by simp, by simp, hbits', hfirst, ?_, ?_⟩
    · refine ⟨hsecond.pos, ?_, ?_⟩
      · simp only [CTable.code_snd, hbits]
        have := hsecond.le
        simp only [CTable.code_snd] at this
        exact this
      · rw [CTable.code_snd, hbits, ← field_mod hsecond.le (le_refl _)]
        exact hsecond.bits
    · simp only [CTable.code_snd, hbits, hbits2, Spells]
      omega

theorem fillDtableX2Level2_length (hp : p.Tiles) {base : UInt8} {start c stop : Nat} {slots slots' : List DEltX2}
    (hc : p.nbBitsBaseline - p.maxWeight ≤ c) (hc' : c ≤ p.tableLog - (p.nbBitsBaseline - p.maxWeight))
    (hstop : start + 2 ^ (p.tableLog - c) = stop) (hlen : stop ≤ slots.length)
    (h : fillDtableX2Level2 p c (max (c + p.nbBitsBaseline - p.tableLog) 1) start stop base slots = .ok slots') :
    slots'.length = slots.length := by
  obtain ⟨slots1, h1, hl1⟩ := fillDtableX2Level2_ok hp base start slots hc hc' hstop hlen
  rw [h1] at h
  cases h
  exact hl1

/-- The sub-table of one first symbol. -/
theorem X2Plan.Codes.fillDtableX2Level2 (hp : p.Codes ctable) {base : UInt8} {c start stop : Nat}
    (hbits : (ctable base).nbBits = c) (hval : (ctable base).val * 2 ^ (p.tableLog - c) = start)
    (hc : p.nbBitsBaseline - p.maxWeight ≤ c) (hc' : c ≤ p.tableLog - (p.nbBitsBaseline - p.maxWeight))
    (hstop : start + 2 ^ (p.tableLog - c) = stop) {slots slots' : List DEltX2} (hlen : stop ≤ slots.length)
    (hsize : slots.length = 2 ^ p.tableLog)
    (h : Huff0.fillDtableX2Level2 p c (max (c + p.nbBitsBaseline - p.tableLog) 1) start stop base slots = .ok slots')
    (hbelow : FilledBelow (AnswersX2 ctable p.tableLog) slots start) :
    FilledBelow (AnswersX2 ctable p.tableLog) slots' stop := by
  have hlt := hp.weight_lt
  have hpos := hp.weight_pos
  have hbaseline := hp.baseline
  have hbase : ∀ v, start ≤ v → v < stop → Heads ctable.code v p.tableLog base := by
    intro v hlow hhigh
    refine heads_of_run (by omega) (by omega) (by omega) (by rw [hbits]; omega) ?_
    rw [hbits, Nat.add_mul, Nat.one_mul]
    omega
  have hstart : ∀ v, start ≤ v → v < stop → v % 2 ^ (p.tableLog - c) = v - start := by
    intro v hlow hhigh
    conv_lhs => rw [show v = v - start + 2 ^ (p.tableLog - c) * (ctable base).val by rw [Nat.mul_comm, hval]; omega]
    rw [Nat.add_mul_mod_self_left, Nat.mod_eq_of_lt (by omega)]
  have hwhole : p.rankVal c (p.maxWeight + 1) = 2 ^ (p.tableLog - c) := by
    rw [hp.deep c _ hc hc', hp.whole, Nat.shiftRight_eq_div_pow, Nat.pow_div (by omega) (by norm_num)]
  have hone : p.rankVal c 1 = 0 := by
    rw [hp.deep c _ hc hc', hp.first, Nat.zero_shiftRight]
  generalize hmin : max (c + p.nbBitsBaseline - p.tableLog) 1 = minWeight at h
  rw [← hstop, ← hwhole]
  have hrest : ∀ slots1 : List DEltX2, slots1.length = slots.length →
      FilledBelow (AnswersX2 ctable p.tableLog) slots1 (start + p.rankVal c minWeight) →
      Huff0.fillLevel2Weights p c start stop base (p.maxWeight + 1 - minWeight) minWeight slots1 = .ok slots' →
      FilledBelow (AnswersX2 ctable p.tableLog) slots' (start + p.rankVal c (p.maxWeight + 1)) := by
    intro slots1 hl1 hbelow1 h1
    exact hp.fillLevel2Weights hbits hbase hstart hc hc' hstop _ minWeight (by omega) (by omega) (by omega) (by omega)
      h1 hbelow1
  unfold Huff0.fillDtableX2Level2 at h
  simp only at h
  split at h
  · -- the shortest second codes do not fit: their words answer with `base` alone
    split at h
    · cases h
    split at h
    · cases h
    rename_i hfit
    refine hrest _ (fillRange_length _ (by omega) (by omega))
      (hbelow.fillRange (by omega) (by omega) fun v hlow hhigh => ?_) h
    have hheads := hbase v hlow (by omega)
    exact ⟨by simp, by simp, by simp only; omega, hheads, by simp only [CTable.code_snd, hbits, Spells]⟩
  · obtain rfl : minWeight = 1 := by omega
    refine hrest slots rfl ?_ h
    rw [hone, Nat.add_zero]
    exact hbelow

theorem X2Plan.Codes.fillSubTables (hp : p.Codes ctable) {c : Nat}
    (hc : p.nbBitsBaseline - p.maxWeight ≤ c) (hc' : c ≤ p.tableLog - (p.nbBitsBaseline - p.maxWeight)) :
    ∀ (symbols : List Nat) (start : Nat) {slots slots' : List DEltX2},
      start + symbols.length * 2 ^ (p.tableLog - c) ≤ slots.length → slots.length = 2 ^ p.tableLog →
      (∀ k symbol, symbols[k]? = some symbol → (ctable (UInt8.ofNat symbol)).nbBits = c ∧
        (ctable (UInt8.ofNat symbol)).val * 2 ^ (p.tableLog - c) = start + k * 2 ^ (p.tableLog - c)) →
      Huff0.fillSubTables p c (max (c + p.nbBitsBaseline - p.tableLog) 1) symbols start slots = .ok slots' →
      FilledBelow (AnswersX2 ctable p.tableLog) slots start →
      FilledBelow (AnswersX2 ctable p.tableLog) slots' (start + symbols.length * 2 ^ (p.tableLog - c))
  | [], start, slots, slots', _, _, _, h, hbelow => by
    cases h
    rwa [List.length_nil, Nat.zero_mul, Nat.add_zero]
  | symbol :: rest, start, slots, slots', hfit, hsize, hruns, h, hbelow => by
    rw [List.length_cons, Nat.add_mul, Nat.one_mul] at hfit
    unfold Huff0.fillSubTables at h
    simp only at h
    rw [if_neg (by omega)] at h
    obtain ⟨slots1, h1, h⟩ := bind_ok h
    have hl1 := fillDtableX2Level2_length hp.toTiles hc hc' rfl (by omega) h1
    obtain ⟨hbits, hval⟩ := hruns 0 symbol rfl
    have hbelow1 := hp.fillDtableX2Level2 hbits (by rw [hval]; omega) hc hc' rfl (by omega) hsize h1 hbelow
    rw [List.length_cons, Nat.add_mul, Nat.one_mul, Nat.add_comm (rest.length * _), ← Nat.add_assoc]
    refine hp.fillSubTables hc hc' rest _ (by omega) (by omega) ?_ h hbelow1
    intro k other hother
    obtain ⟨hbits, hval⟩ := hruns (k + 1) other hother
    refine ⟨hbits, ?_⟩
    rw [hval, Nat.add_mul, Nat.one_mul]
    omega

/-- The ranks one after the other. -/
theorem X2Plan.Codes.fillDtableX2 (hp : p.Codes ctable) : ∀ (n w : Nat) {slots slots' : List DEltX2}, 1 ≤ w →
    w + n = p.maxWeight + 1 → slots.length = 2 ^ p.tableLog → Huff0.fillDtableX2 p n w slots = .ok slots' →
    FilledBelow (AnswersX2 ctable p.tableLog) slots (p.rankVal 0 w) →
    FilledBelow (AnswersX2 ctable p.tableLog) slots' (2 ^ p.tableLog)
  | 0, w, slots, slots', _, hn, _, h, hbelow => by
    cases h
    rw [Nat.add_zero] at hn
    rwa [hn, hp.whole] at hbelow
  | n + 1, w, slots, slots', hw, hn, hlen, h, hbelow => by
    have hlt := hp.weight_lt
    have hbaseline := hp.baseline
    have hend := hp.rank_le n (w + 1) (by omega) (by omega)
    have hstep := hp.step w hw (by omega)
    have hexp : p.tableLog + w - p.nbBitsBaseline = p.tableLog - (p.nbBitsBaseline - w) := by omega
    rw [hexp] at hstep
    have hruns : ∀ k symbol, (p.symbolsOf w)[k]? = some symbol →
        (ctable (UInt8.ofNat symbol)).nbBits = p.nbBitsBaseline - w ∧
        (ctable (UInt8.ofNat symbol)).val * 2 ^ (p.tableLog - (p.nbBitsBaseline - w)) =
          p.rankVal 0 w + k * 2 ^ (p.tableLog - (p.nbBitsBaseline - w)) := by
      intro k symbol hsymbol
      have hrun := hp.run w k symbol hw (by omega) hsymbol
      rw [hexp] at hrun
      exact ⟨hp.length w k symbol hw (by omega) hsymbol, hrun⟩
    have hrest : ∀ slots1 : List DEltX2, slots1.length = slots.length →
        FilledBelow (AnswersX2 ctable p.tableLog) slots1 (p.rankVal 0 (w + 1)) →
        Huff0.fillDtableX2 p n (w + 1) slots1 = .ok slots' →
        FilledBelow (AnswersX2 ctable p.tableLog) slots' (2 ^ p.tableLog) :=
      fun slots1 hl1 hbelow1 h1 => hp.fillDtableX2 n (w + 1) (by omega) (by omega) (hl1.trans hlen) h1 hbelow1
    unfold Huff0.fillDtableX2 at h
    simp only at h
    split at h
    · obtain ⟨slots1, h1, h⟩ := bind_ok h
      obtain ⟨slots2, h2, hl2⟩ := fillSubTables_ok (c := p.nbBitsBaseline - w) hp.toTiles (by omega) (by omega)
        (p.symbolsOf w) (p.rankVal 0 w) slots (by omega)
      rw [h1] at h2
      cases h2
      refine hrest _ hl2 ?_ h
      rw [← hstep]
      exact hp.fillSubTables (by omega) (by omega) _ _ (by omega) hlen hruns h1 hbelow
    · rw [if_neg (by omega)] at h
      obtain ⟨slots1, h1, h⟩ := bind_ok h
      obtain ⟨slots2, h2, hl2⟩ := fillDtableX2ForWeight_ok slots.length []
        (by omega : p.nbBitsBaseline - w ≤ p.tableLog) (p.symbolsOf w) (p.rankVal 0 w) slots (by omega) (le_refl _)
      rw [h1] at h2
      cases h2
      refine hrest _ hl2 ?_ h
      rw [← hstep]
      refine FilledBelow.forWeight h1 (le_refl _) hbelow ?_
      intro k symbol hsymbol v hlow hhigh
      obtain ⟨hbits, hval⟩ := hruns k symbol hsymbol
      have hkl : k < (p.symbolsOf w).length := (List.getElem?_eq_some_iff.1 hsymbol).1
      have hkend : (k + 1) * 2 ^ (p.tableLog - (p.nbBitsBaseline - w)) ≤
          (p.symbolsOf w).length * 2 ^ (p.tableLog - (p.nbBitsBaseline - w)) := Nat.mul_le_mul_right _ hkl
      have hheads : Heads ctable.code v p.tableLog (UInt8.ofNat symbol) := by
        refine heads_of_run (by omega) (by omega) (by omega) ?_ ?_
        · rw [hbits, hval]; exact hlow
        · rw [hbits, Nat.add_mul, Nat.one_mul, hval]
          rw [Nat.add_mul, Nat.one_mul] at hhigh
          omega
      exact ⟨by simp, by simp, by simp only; omega, hheads, by simp only [CTable.code_snd, hbits, Spells]⟩

end

/-! ## The plan of a description -/

/-- The symbols of a rank are its occurrences among the weights. -/
theorem symbolsOf_eq (weights : List Nat) (w : Nat) : ∀ (start : Nat),
    ((weights.zipIdx start).filter (·.1 = w)).map (·.2) =
      (List.range (weights.count w)).map fun k => start + Tans.select w weights k := by
  induction weights with
  | nil => intro start; rfl
  | cons x weights ih =>
    intro start
    rw [List.zipIdx_cons, List.filter_cons]
    by_cases hx : x = w
    · subst hx
      rw [if_pos (by simp), List.map_cons, ih, List.count_cons_self, List.range_succ_eq_map,
        List.map_cons, List.map_map]
      congr 1
      · simp [Tans.select]
      · apply List.map_congr_left
        intro k _
        simp only [Function.comp_apply, Tans.select, if_true, Nat.succ_eq_add_one]
        rw [if_neg (by omega), Nat.add_sub_cancel]
        omega
    · rw [if_neg (by simpa using hx), ih, List.count_cons_of_ne (by omega)]
      apply List.map_congr_left
      intro k _
      simp only [Tans.select, if_neg hx]
      omega

theorem symbolsOf_getElem? {weights : List Nat} {w k symbol : Nat}
    (h : (((weights.zipIdx).filter (·.1 = w)).map (·.2))[k]? = some symbol) :
    k < weights.count w ∧ symbol = Tans.select w weights k := by
  rw [symbolsOf_eq, List.getElem?_map, Option.map_eq_some_iff] at h
  obtain ⟨j, hj, rfl⟩ := h
  rw [List.getElem?_eq_some_iff] at hj
  obtain ⟨hlt, rfl⟩ := hj
  rw [List.length_range] at hlt
  rw [List.getElem_range, Nat.zero_add]
  exact ⟨hlt, rfl⟩

theorem CodesOf.x2Plan {stats : Stats} {ctable : CTable} (hok : stats.Ok)
    (h : CodesOf stats.huffWeight stats.tableLog ctable) {targetLog : Nat} (hlog : stats.tableLog ≤ targetLog) :
    (stats.x2Plan targetLog).Codes ctable := by
  have hmw := maxWeightBelow_le stats.rankStats stats.tableLog
  refine ⟨hok.x2Plan_tiles hlog, by simp [Stats.x2Plan, rankValRow], ?_, ?_⟩
  · intro w k symbol hw hle hsymbol
    unfold Stats.x2Plan at *
    simp only at hle hsymbol ⊢
    obtain ⟨hk, rfl⟩ := symbolsOf_getElem? hsymbol
    rw [h.code_select hw hk]
  · intro w k symbol hw hle hsymbol
    unfold Stats.x2Plan at *
    simp only [true_or, if_true, Nat.shiftRight_zero] at hle hsymbol ⊢
    obtain ⟨hk, rfl⟩ := symbolsOf_getElem? hsymbol
    have hfirst : ∑ i ∈ Finset.range w, stats.rankStats.getD i 0 * (2 ^ i / 2) = firstSlot stats.huffWeight w := by
      refine Finset.sum_congr rfl fun i hi => ?_
      have hi := Finset.mem_range.1 hi
      rw [hok.ranks i (by have := hok.tableLog_le; omega)]
    rw [h.code_select hw hk, rankValRow_eq_sum _ hlog, hfirst, ← h.firstCode_mul hw (by omega),
      show targetLog + w - (stats.tableLog + 1) = targetLog - stats.tableLog + (w - 1) by omega, pow_add]
    ring

/-- A double-symbol table answers every word with symbols it spells. -/
structure DTableX2.Decodes (t : DTableX2) (ctable : CTable) : Prop where
  log : t.tableLog = decoderFastTablelog ∨ t.tableLog = tablelogMax
  answers : ∀ v < 2 ^ t.tableLog, AnswersX2 ctable t.tableLog v (t.entries.getD v default)

theorem readDtableX2_decodes {src : Bytes} {stats : Stats} {ctable : CTable} (h : readStats src = .ok stats)
    (hcodes : CodesOf stats.huffWeight stats.tableLog ctable) :
    ∃ t, readDtableX2 src = .ok (t, stats.size) ∧ t.Decodes ctable := by
  have hok := readStats_ok h
  have hplan := hcodes.x2Plan hok hok.le_targetLog
  obtain ⟨t, ht⟩ := buildDtableX2_ok hok
  rw [readDtableX2_eq, h, ok_bind, ht]
  refine ⟨t, rfl, ?_⟩
  unfold buildDtableX2 at ht
  split at ht
  · cases ht
  split at ht
  · cases ht
  obtain ⟨entries, hentries, ht⟩ := bind_ok ht
  cases ht
  refine ⟨by unfold Stats.targetLog; split <;> simp, ?_⟩
  refine hplan.fillDtableX2 _ 1 (le_refl _) (Nat.add_comm _ _) (by rw [List.length_replicate]; rfl) hentries ?_
  rw [hplan.first]
  intro v hv
  omega

end Huff0

end Zstandard
