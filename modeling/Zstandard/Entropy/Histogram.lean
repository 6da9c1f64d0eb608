/-
The histogram kernels: one table of counters, and four that a word at a time is spread over and that are merged at the
end.

A counter is a `u32`, so what a table has counted it has counted modulo 2^32. Counters are followed through `tally`, the
value at an index; what four lanes have counted together is `CountedLanes`.
-/
import Zstandard.Wire.Bytes
import Mathlib.Data.List.GetD
import Mathlib.Algebra.Order.BigOperators.Group.List

namespace Zstandard

namespace Hist

/-! ## Counters -/

/-- `a + b` on `u32` counters. -/
def wrapAdd (a b : Nat) : Nat := (a + b) % 2 ^ 32

/-- `table[index] += 1`. -/
def bump (table : List Nat) (index : Nat) : List Nat := table.modify index (wrapAdd · 1)

def tally (table : List Nat) (index : Nat) : Nat := table.getD index 0

/-- How often a symbol occurs. -/
def occurrences (src : Bytes) (symbol : Nat) : Nat := src.countP (·.toNat = symbol)

/-! ## The kernels -/

/-- `while *max_symbol_value > 0 && count[*max_symbol_value] == 0`. -/
def trimSymbol (count : List Nat) : Nat → Nat
  | 0 => 0
  | symbol + 1 => if tally count (symbol + 1) = 0 then trimSymbol count symbol else symbol + 1

/-- The largest of the counters up to a symbol. -/
def largestUpTo (count : List Nat) (symbol : Nat) : Nat := (count.take (symbol + 1)).foldl max 0

/-- The largest count, the maximum symbol and the counters. -/
structure Histogram where
  largest : Nat
  maxSymbolValue : Nat
  count : List Nat
deriving DecidableEq, Repr

/-- `count_simple`. -/
def countSimple (count : List Nat) (maxSymbolValue : Nat) (src : Bytes) : Histogram :=
  let count := List.replicate (maxSymbolValue + 1) 0 ++ count.drop (maxSymbolValue + 1)
  if src.isEmpty then ⟨0, 0, count⟩
  else
    let count := src.foldl (fun count byte => bump count byte.toNat) count
    let maxSymbolValue := trimSymbol count maxSymbolValue
    ⟨largestUpTo count maxSymbolValue, maxSymbolValue, count⟩

/-- `inc4!`: the four bytes of a word, each into the counters of its lane. -/
def inc4 (workspace : List Nat) (value : Nat) : List Nat :=
  bump (bump (bump (bump workspace (value % 256)) (256 + value / 2 ^ 8 % 256)) (512 + value / 2 ^ 16 % 256))
    (768 + value / 2 ^ 24)

/-- The state of the main loop. -/
structure Lanes where
  offset : Nat
  cached : Nat
  workspace : List Nat

/-- A quarter of a turn: the cached word is counted and the next one read. -/
def Lanes.quarter (source : Bytes) (l : Lanes) : Lanes where
  offset := l.offset + 4
  cached := readU32Le (source.drop l.offset)
  workspace := inc4 l.workspace l.cached

def Lanes.mainLoop (source : Bytes) (l : Lanes) : Lanes :=
  if l.offset + 15 < source.length then
    Lanes.mainLoop source ((((l.quarter source).quarter source).quarter source).quarter source)
  else l
termination_by source.length - l.offset
decreasing_by simp only [Lanes.quarter]; omega

/-- `while counting1[max_symbol] == 0`; nothing where the index runs off the front of the array. -/
def lastSymbol (count : List Nat) : Nat → Option Nat
  | 0 => if tally count 0 = 0 then none else some 0
  | symbol + 1 => if tally count (symbol + 1) = 0 then lastSymbol count symbol else some (symbol + 1)

/-- `counting1[index] += counting2[index] + counting3[index] + counting4[index]`. -/
def merge (workspace : List Nat) : List Nat :=
  (List.range 256).map fun index =>
    wrapAdd (tally workspace index)
      (wrapAdd (wrapAdd (tally workspace (256 + index)) (tally workspace (512 + index)))
      (tally workspace (768 + index)))

/-- The counters after the words and the tail have been counted. -/
def countLanes (source : Bytes) : List Nat :=
  let workspace := List.replicate 1024 0
  let (offset, workspace) :=
    if source.length ≥ 4 then
      let l := Lanes.mainLoop source ⟨4, readU32Le source, workspace⟩
      (l.offset - 4, l.workspace)
    else (0, workspace)
  merge ((source.drop offset).foldl (fun workspace byte => bump workspace byte.toNat) workspace)

inductive CheckInput where
  | trustInput | checkMaxSymbolValue
deriving DecidableEq, Repr

/-- `count_parallel_wksp`; nothing where it panics. The workspace it is given is overwritten. -/
def countParallelWksp (count : List Nat) (maxSymbolValue : Nat) (source : Bytes) (check : CheckInput) :
    Option (Result Histogram) :=
  if source.isEmpty then some (.ok ⟨0, 0, List.replicate count.length 0⟩)
  else
    let counting1 := countLanes source
    let maxCount := counting1.foldl max 0
    (lastSymbol counting1 255).map fun maxSymbol =>
      if check = .checkMaxSymbolValue ∧ maxSymbol > maxSymbolValue then .error .maxSymbolValueTooSmall
      else .ok ⟨maxCount, maxSymbol, counting1.take (maxSymbol + 1) ++ count.drop (maxSymbol + 1)⟩

/-! ## Tallies -/

theorem bump_length (table : List Nat) (index : Nat) : (bump table index).length = table.length :=
  List.length_modify ..

theorem tally_bump {table : List Nat} {index : Nat} (h : index < table.length) (j : Nat) :
    tally (bump table index) j = if index = j then wrapAdd (tally table j) 1 else tally table j := by
  unfold tally bump
  rw [List.getD_eq_getElem?_getD, List.getD_eq_getElem?_getD, List.getElem?_modify]
  split
  · rename_i heq
    subst heq
    rw [List.getElem?_eq_getElem h]
    rfl
  · cases table[j]? <;> rfl

theorem tally_replicate (n j : Nat) : tally (List.replicate n 0) j = 0 := by
  unfold tally
  rw [List.getD_eq_getElem?_getD, List.getElem?_replicate]
  split <;> rfl

theorem occurrences_nil (symbol : Nat) : occurrences [] symbol = 0 := rfl

theorem occurrences_cons (byte : UInt8) (src : Bytes) (symbol : Nat) :
    occurrences (byte :: src) symbol = occurrences src symbol + if byte.toNat = symbol then 1 else 0 := by
  unfold occurrences
  rw [List.countP_cons]
  simp

theorem occurrences_append (a b : Bytes) (symbol : Nat) :
    occurrences (a ++ b) symbol = occurrences a symbol + occurrences b symbol := List.countP_append

theorem occurrences_le (src : Bytes) (symbol : Nat) : occurrences src symbol ≤ src.length := List.countP_le_length

theorem occurrences_pos_iff {src : Bytes} {symbol : Nat} :
    0 < occurrences src symbol ↔ ∃ byte ∈ src, byte.toNat = symbol := by
  unfold occurrences
  rw [List.countP_pos_iff]
  simp

/-- A loop that counts bytes into one table adds their occurrences. -/
theorem foldl_bump : ∀ (src : Bytes) (table : List Nat), (∀ byte ∈ src, byte.toNat < table.length) →
    (src.foldl (fun count byte => bump count byte.toNat) table).length = table.length ∧
    ∀ symbol, tally table symbol < 2 ^ 32 →
      tally (src.foldl (fun count byte => bump count byte.toNat) table) symbol =
        wrapAdd (tally table symbol) (occurrences src symbol)
  | [], table, _ => ⟨rfl, fun symbol h => (Nat.mod_eq_of_lt h).symm⟩
  | byte :: src, table, hlen => by
    have hbyte := hlen byte List.mem_cons_self
    obtain ⟨hlength, htally⟩ := foldl_bump src (bump table byte.toNat) fun b hb => by
      rw [bump_length]; exact hlen b (List.mem_cons_of_mem _ hb)
    rw [List.foldl_cons]
    refine ⟨hlength.trans (bump_length ..), fun symbol hsmall => ?_⟩
    have hstep := tally_bump hbyte symbol
    unfold wrapAdd at hstep htally ⊢
    rw [htally symbol (by rw [hstep]; split <;> omega), hstep, occurrences_cons]
    split <;> omega

/-! ## Lanes -/

/-- What the four lanes have counted of a symbol. -/
def laneSum (workspace : List Nat) (symbol : Nat) : Nat :=
  (tally workspace symbol + tally workspace (256 + symbol) + tally workspace (512 + symbol) +
    tally workspace (768 + symbol)) % 2 ^ 32

/-- A workspace that has counted `src` into its lanes. -/
structure CountedLanes (workspace : List Nat) (src : Bytes) : Prop where
  length : workspace.length = 1024
  small : ∀ j, tally workspace j < 2 ^ 32
  sum : ∀ symbol < 256, laneSum workspace symbol = occurrences src symbol % 2 ^ 32

theorem tally_bump_lt {table : List Nat} {index : Nat} (h : index < table.length) (hsmall : ∀ j, tally table j < 2 ^ 32)
    (j : Nat) : tally (bump table index) j < 2 ^ 32 := by
  have hj := hsmall j
  rw [tally_bump h]
  unfold wrapAdd
  split <;> omega

/-- Where the lane of an index is, a bump of another lane is not seen. -/
theorem tally_bump_of_ne {table : List Nat} {index j : Nat} (h : index < table.length) (hne : index ≠ j) :
    tally (bump table index) j = tally table j := by
  rw [tally_bump h, if_neg hne]

/-- Four bytes, one for each lane. -/
theorem CountedLanes.four {workspace : List Nat} {src : Bytes} (h : CountedLanes workspace src) (a b c d : UInt8) :
    CountedLanes (bump (bump (bump (bump workspace a.toNat) (256 + b.toNat)) (512 + c.toNat)) (768 + d.toNat))
      (src ++ [a, b, c, d]) := by
  have ha := a.toNat_lt
  have hb := b.toNat_lt
  have hc := c.toNat_lt
  have hd := d.toNat_lt
  have hlen := h.length
  have hlen₁ := bump_length workspace a.toNat
  have hlen₂ := bump_length (bump workspace a.toNat) (256 + b.toNat)
  have hlen₃ := bump_length (bump (bump workspace a.toNat) (256 + b.toNat)) (512 + c.toNat)
  have h₁ : a.toNat < workspace.length := by omega
  have h₂ : 256 + b.toNat < (bump workspace a.toNat).length := by omega
  have h₃ : 512 + c.toNat < (bump (bump workspace a.toNat) (256 + b.toNat)).length := by omega
  have h₄ : 768 + d.toNat < (bump (bump (bump workspace a.toNat) (256 + b.toNat)) (512 + c.toNat)).length := by omega
  constructor
  · rw [bump_length, hlen₃, hlen₂, hlen₁, hlen]
  · exact tally_bump_lt h₄ (tally_bump_lt h₃ (tally_bump_lt h₂ (tally_bump_lt h₁ h.small)))
  · intro symbol hsymbol
    have hsum := h.sum symbol hsymbol
    unfold laneSum at hsum ⊢
    -- each lane is seen by one of the four bumps
    rw [tally_bump_of_ne h₄ (by omega), tally_bump_of_ne h₃ (by omega), tally_bump_of_ne h₂ (by omega), tally_bump h₁,
      tally_bump_of_ne h₄ (by omega), tally_bump_of_ne h₃ (by omega), tally_bump h₂, tally_bump_of_ne h₁ (by omega),
      tally_bump_of_ne h₄ (by omega), tally_bump h₃, tally_bump_of_ne h₂ (by omega), tally_bump_of_ne h₁ (by omega),
      tally_bump h₄, tally_bump_of_ne h₃ (by omega), tally_bump_of_ne h₂ (by omega), tally_bump_of_ne h₁ (by omega)]
    rw [occurrences_append, occurrences_cons, occurrences_cons, occurrences_cons, occurrences_cons, occurrences_nil]
    simp only [Nat.add_left_cancel_iff]
    unfold wrapAdd
    split_ifs <;> omega

/-- A word is its four bytes. -/
theorem inc4_readLe (workspace : List Nat) (a b c d : UInt8) : inc4 workspace (readLe [a, b, c, d]) =
    bump (bump (bump (bump workspace a.toNat) (256 + b.toNat)) (512 + c.toNat)) (768 + d.toNat) := by
  have ha := a.toNat_lt
  have hb := b.toNat_lt
  have hc := c.toNat_lt
  have hd := d.toNat_lt
  have hvalue : readLe [a, b, c, d] = a.toNat + 256 * (b.toNat + 256 * (c.toNat + 256 * d.toNat)) := rfl
  unfold inc4
  rw [hvalue, show (a.toNat + 256 * (b.toNat + 256 * (c.toNat + 256 * d.toNat))) % 256 = a.toNat by omega,
    show (a.toNat + 256 * (b.toNat + 256 * (c.toNat + 256 * d.toNat))) / 2 ^ 8 % 256 = b.toNat by omega,
    show (a.toNat + 256 * (b.toNat + 256 * (c.toNat + 256 * d.toNat))) / 2 ^ 16 % 256 = c.toNat by omega,
    show (a.toNat + 256 * (b.toNat + 256 * (c.toNat + 256 * d.toNat))) / 2 ^ 24 = d.toNat by omega]

/-- A turn's words are inside the source. -/
theorem readU32Le_drop {source : Bytes} {offset : Nat} (h : offset + 4 ≤ source.length) :
    ∃ a b c d, source.drop offset = a :: b :: c :: d :: source.drop (offset + 4) ∧
      readU32Le (source.drop offset) = readLe [a, b, c, d] := by
  obtain ⟨a, b, c, d, hfour⟩ : ∃ a b c d, (source.drop offset).take 4 = [a, b, c, d] := by
    have hlen : ((source.drop offset).take 4).length = 4 := by
      rw [List.length_take, List.length_drop]; omega
    match h4 : (source.drop offset).take 4, hlen with
    | [a, b, c, d], _ => exact ⟨a, b, c, d, rfl⟩
  refine ⟨a, b, c, d, ?_, ?_⟩
  · rw [← List.take_append_drop 4 (source.drop offset), hfour, List.drop_drop]
    rfl
  · unfold readU32Le
    rw [hfour]

/-- Between turns: all before the cached word is counted, and the word is the one in front of the offset. -/
structure Lanes.Cached (source : Bytes) (l : Lanes) : Prop where
  four_le : 4 ≤ l.offset
  offset_le : l.offset ≤ source.length
  cached : l.cached = readU32Le (source.drop (l.offset - 4))
  counted : CountedLanes l.workspace (source.take (l.offset - 4))

/-- The cached word is counted, and another takes its place. -/
theorem Lanes.Cached.quarter {source : Bytes} {l : Lanes} (h : l.Cached source) (hnext : l.offset + 4 ≤ source.length) :
    (l.quarter source).Cached source := by
  have hfour := h.four_le
  have hinside : l.offset - 4 + 4 ≤ source.length := by omega
  obtain ⟨a, b, c, d, hdrop, hread⟩ := readU32Le_drop hinside
  have htake : source.take (l.offset + 4 - 4) = source.take (l.offset - 4) ++ [a, b, c, d] := by
    rw [show l.offset + 4 - 4 = (l.offset - 4) + 4 by omega, List.take_add, hdrop]
    rfl
  constructor
  · exact Nat.le_add_left 4 _
  · exact hnext
  · exact congrArg (fun offset => readU32Le (source.drop offset)) (Nat.add_sub_cancel l.offset 4).symm
  · unfold Lanes.quarter
    dsimp only
    rw [htake, h.cached, hread, inc4_readLe]
    exact h.counted.four a b c d

theorem Lanes.Cached.mainLoop (source : Bytes) (l : Lanes) (h : l.Cached source) :
    (l.mainLoop source).Cached source := by
  fun_induction Lanes.mainLoop source l with
  | case1 l hroom ih =>
    apply ih
    have h₁ := h.quarter (by omega)
    have h₂ := h₁.quarter (by simp only [Lanes.quarter]; omega)
    have h₃ := h₂.quarter (by simp only [Lanes.quarter]; omega)
    exact h₃.quarter (by simp only [Lanes.quarter]; omega)
  | case2 l hroom => exact h

theorem countedLanes_zero : CountedLanes (List.replicate 1024 0) [] where
  length := List.length_replicate
  small j := by rw [tally_replicate]; decide
  sum symbol _ := by
    unfold laneSum
    rw [tally_replicate, tally_replicate, tally_replicate, tally_replicate, occurrences_nil]

/-- The tail goes into the first lane. -/
theorem CountedLanes.tail {workspace : List Nat} {src : Bytes} (h : CountedLanes workspace src) (rest : Bytes) :
    CountedLanes (rest.foldl (fun workspace byte => bump workspace byte.toNat) workspace) (src ++ rest) := by
  have hlen := h.length
  obtain ⟨hlength, htally⟩ := foldl_bump rest workspace fun byte _ => by
    have := byte.toNat_lt
    omega
  constructor
  · rw [hlength, hlen]
  · intro j
    rw [htally j (h.small j)]
    exact Nat.mod_lt _ (by decide)
  · intro symbol hsymbol
    have hnone : ∀ j, 256 ≤ j → occurrences rest j = 0 := by
      intro j hj
      apply Nat.eq_zero_of_not_pos
      rw [occurrences_pos_iff]
      rintro ⟨byte, -, rfl⟩
      have := byte.toNat_lt
      omega
    have hsum := h.sum symbol hsymbol
    have h₁ := h.small symbol
    have h₂ := h.small (256 + symbol)
    have h₃ := h.small (512 + symbol)
    have h₄ := h.small (768 + symbol)
    unfold laneSum at hsum ⊢
    rw [htally _ h₁, htally _ h₂, htally _ h₃, htally _ h₄, hnone (256 + symbol) (by omega),
      hnone (512 + symbol) (by omega), hnone (768 + symbol) (by omega), occurrences_append]
    unfold wrapAdd
    omega

/-- Four lanes and a tail count what one table counts. -/
theorem countLanes_spec (source : Bytes) : (countLanes source).length = 256 ∧
    ∀ symbol < 256, tally (countLanes source) symbol = occurrences source symbol % 2 ^ 32 := by
  have hmerge : ∀ {workspace : List Nat}, CountedLanes workspace source → (merge workspace).length = 256 ∧
      ∀ symbol < 256, tally (merge workspace) symbol = occurrences source symbol % 2 ^ 32 := by
    intro workspace h
    refine ⟨?_, ?_⟩
    · unfold merge
      rw [List.length_map, List.length_range]
    · intro symbol hsymbol
      rw [← h.sum symbol hsymbol]
      unfold tally merge
      rw [List.getD_eq_getElem?_getD, List.getElem?_map, List.getElem?_range hsymbol]
      unfold laneSum
      show wrapAdd _ _ = _
      unfold wrapAdd
      omega
  unfold countLanes
  dsimp only
  by_cases hfour : source.length ≥ 4
  · rw [if_pos hfour]
    dsimp only
    have hstart : Lanes.Cached source ⟨4, readU32Le source, List.replicate 1024 0⟩ := by
      refine ⟨le_rfl, hfour, rfl, ?_⟩
      exact countedLanes_zero
    have hend := hstart.mainLoop
    apply hmerge
    generalize Lanes.mainLoop source ⟨4, readU32Le source, List.replicate 1024 0⟩ = l at hend ⊢
    have hcounted := hend.counted.tail (source.drop (l.offset - 4))
    rw [List.take_append_drop] at hcounted
    exact hcounted
  · rw [if_neg hfour]
    dsimp only
    apply hmerge
    exact countedLanes_zero.tail source

/-! ## What a histogram says -/

/-- The histogram of `src`: the largest symbol that occurs, its counters up to there, and the largest of them. -/
structure Histogram.Counts (h : Histogram) (src : Bytes) : Prop where
  occurs : src ≠ [] → 0 < occurrences src h.maxSymbolValue
  above : ∀ symbol, h.maxSymbolValue < symbol → occurrences src symbol = 0
  empty : src = [] → h.maxSymbolValue = 0
  count : ∀ symbol ≤ h.maxSymbolValue, tally h.count symbol = occurrences src symbol
  le_largest : ∀ symbol, occurrences src symbol ≤ h.largest
  largest : ∃ symbol ≤ h.maxSymbolValue, occurrences src symbol = h.largest

/-- There is one histogram of a string. -/
theorem Histogram.Counts.unique {h h' : Histogram} {src : Bytes} (hc : h.Counts src) (hc' : h'.Counts src) :
    h'.maxSymbolValue = h.maxSymbolValue ∧ h'.largest = h.largest ∧
      ∀ symbol ≤ h.maxSymbolValue, tally h'.count symbol = tally h.count symbol := by
  have hmax : h'.maxSymbolValue = h.maxSymbolValue := by
    by_cases hempty : src = []
    · rw [hc.empty hempty, hc'.empty hempty]
    · have hle : ∀ {a b : Histogram}, a.Counts src → b.Counts src → b.maxSymbolValue ≤ a.maxSymbolValue := by
        intro a b ha hb
        by_contra hlt
        have hzero := ha.above _ (not_le.1 hlt)
        have hpos := hb.occurs hempty
        omega
      exact le_antisymm (hle hc hc') (hle hc' hc)
  refine ⟨hmax, ?_, ?_⟩
  · obtain ⟨symbol, -, hs⟩ := hc.largest
    obtain ⟨symbol', -, hs'⟩ := hc'.largest
    exact le_antisymm (hs' ▸ hc.le_largest symbol') (hs ▸ hc'.le_largest symbol)
  · intro symbol hsymbol
    rw [hc.count symbol hsymbol, hc'.count symbol (hmax.symm ▸ hsymbol)]

theorem foldl_max_spec : ∀ (l : List Nat) (a : Nat), a ≤ l.foldl max a ∧ (∀ x ∈ l, x ≤ l.foldl max a) ∧
    (l.foldl max a = a ∨ l.foldl max a ∈ l)
  | [], a => by
    refine ⟨le_rfl, ?_, .inl rfl⟩
    intro x hx
    cases hx
  | b :: l, a => by
    obtain ⟨hle, hmem, hor⟩ := foldl_max_spec l (max a b)
    rw [List.foldl_cons]
    refine ⟨(le_max_left a b).trans hle, ?_, ?_⟩
    · intro x hx
      rcases List.mem_cons.1 hx with rfl | hx
      · exact (le_max_right a x).trans hle
      · exact hmem x hx
    · rcases hor with heq | hmem
      · rw [heq]
        rcases max_choice a b with h | h
        · exact .inl h
        · rw [h]; exact .inr List.mem_cons_self
      · exact .inr (List.mem_cons_of_mem _ hmem)

/-- A table that holds the occurrences up to a symbol that none is above gives the histogram. -/
theorem counts_of_table {src : Bytes} {count table : List Nat} {symbol : Nat} (hlen : symbol < table.length)
    (htable : ∀ s < table.length, tally table s = occurrences src s)
    (hcount : ∀ s ≤ symbol, tally count s = occurrences src s)
    (habove : ∀ s, symbol < s → occurrences src s = 0) (hoccurs : src ≠ [] → 0 < occurrences src symbol)
    (hempty : src = [] → symbol = 0) : Histogram.Counts ⟨table.foldl max 0, symbol, count⟩ src := by
  obtain ⟨-, hle, hor⟩ := foldl_max_spec table 0
  have hat : ∀ s, (h : s < table.length) → table[s] = occurrences src s := by
    intro s h
    rw [← htable s h]
    exact (List.getD_eq_getElem table 0 h).symm
  have hlargest : ∀ s, occurrences src s ≤ table.foldl max 0 := by
    intro s
    rcases Nat.lt_or_ge s table.length with h | h
    · rw [← hat s h]
      exact hle _ (List.getElem_mem h)
    · rw [habove s (by omega)]
      exact Nat.zero_le _
  refine ⟨hoccurs, habove, hempty, hcount, hlargest, ?_⟩
  dsimp only
  rcases hor with hzero | hmem
  · refine ⟨symbol, le_rfl, ?_⟩
    have := hlargest symbol
    rw [hzero] at this ⊢
    exact Nat.le_zero.1 this
  · obtain ⟨s, hs, heq⟩ := List.getElem_of_mem hmem
    rcases Nat.lt_or_ge symbol s with h | h
    · refine ⟨symbol, le_rfl, ?_⟩
      have hzero := hat s hs
      rw [habove s h, heq] at hzero
      have := hlargest symbol
      omega
    · exact ⟨s, h, by rw [← hat s hs, heq]⟩

/-! ## One table -/

theorem trimSymbol_spec (count : List Nat) : ∀ symbol, trimSymbol count symbol ≤ symbol ∧
    (∀ s, trimSymbol count symbol < s → s ≤ symbol → tally count s = 0) ∧
    (0 < trimSymbol count symbol → tally count (trimSymbol count symbol) ≠ 0)
  | 0 => ⟨le_rfl, fun s hlt hle => absurd hlt (by unfold trimSymbol; omega), fun h => absurd h (lt_irrefl 0)⟩
  | symbol + 1 => by
    obtain ⟨hle, hzero, hne⟩ := trimSymbol_spec count symbol
    unfold trimSymbol
    split
    · rename_i hlast
      refine ⟨by omega, fun s hlt hs => ?_, hne⟩
      rcases Nat.lt_or_ge symbol s with h | h
      · rw [show s = symbol + 1 by omega]; exact hlast
      · exact hzero s hlt h
    · rename_i hlast
      exact ⟨le_rfl, fun s hlt hs => absurd hs (by omega), fun _ => hlast⟩

theorem tally_append_left {a b : List Nat} {j : Nat} (h : j < a.length) : tally (a ++ b) j = tally a j := by
  unfold tally
  exact List.getD_append a b 0 j h

theorem tally_take {table : List Nat} {n j : Nat} (h : j < n) : tally (table.take n) j = tally table j := by
  unfold tally
  rw [List.getD_eq_getElem?_getD, List.getD_eq_getElem?_getD, List.getElem?_take_of_lt h]

/-- One table counts what is in the string, whatever it held before. -/
theorem countSimple_counts {count : List Nat} {maxSymbolValue : Nat} {src : Bytes} (hlen : count.length = 256)
    (hmax : maxSymbolValue ≤ 255) (hadmits : ∀ byte ∈ src, byte.toNat ≤ maxSymbolValue) (hsrc : src.length < 2 ^ 32) :
    (countSimple count maxSymbolValue src).Counts src := by
  have habove : ∀ s, maxSymbolValue < s → occurrences src s = 0 := by
    intro s hs
    apply Nat.eq_zero_of_not_pos
    rw [occurrences_pos_iff]
    rintro ⟨byte, hbyte, rfl⟩
    have := hadmits byte hbyte
    omega
  unfold countSimple
  dsimp only
  by_cases hempty : src = []
  · subst hempty
    rw [if_pos List.isEmpty_nil]
    refine ⟨fun h => absurd rfl h, fun s _ => rfl, fun _ => rfl, ?_, fun s => Nat.zero_le _, 0, le_rfl, rfl⟩
    intro s hs
    obtain rfl := Nat.le_zero.1 hs
    rw [tally_append_left (by rw [List.length_replicate]; omega), tally_replicate]
    rfl
  · rw [if_neg (by rwa [List.isEmpty_iff])]
    generalize htable : List.replicate (maxSymbolValue + 1) 0 ++ count.drop (maxSymbolValue + 1) = table
    have htable_len : table.length = 256 := by
      rw [← htable, List.length_append, List.length_replicate, List.length_drop]; omega
    have hzero : ∀ s ≤ maxSymbolValue, tally table s = 0 := by
      intro s hs
      rw [← htable, tally_append_left (by rw [List.length_replicate]; omega), tally_replicate]
    obtain ⟨hlength, htally⟩ := foldl_bump src table fun byte hbyte => by
      have := hadmits byte hbyte
      omega
    generalize src.foldl (fun count byte => bump count byte.toNat) table = counted at hlength htally
    have hcounted : ∀ s ≤ maxSymbolValue, tally counted s = occurrences src s := by
      intro s hs
      have hle := occurrences_le src s
      rw [htally s (by rw [hzero s hs]; decide), hzero s hs]
      unfold wrapAdd
      omega
    obtain ⟨hle, hgone, hkept⟩ := trimSymbol_spec counted maxSymbolValue
    generalize trimSymbol counted maxSymbolValue = symbol at hle hgone hkept
    have habove' : ∀ s, symbol < s → occurrences src s = 0 := by
      intro s hs
      rcases Nat.lt_or_ge maxSymbolValue s with h | h
      · exact habove s h
      · rw [← hcounted s h]; exact hgone s hs h
    unfold largestUpTo
    apply counts_of_table
    · rw [List.length_take, hlength]; omega
    · intro s hs
      rw [List.length_take, hlength] at hs
      rw [tally_take (by omega), hcounted s (by omega)]
    · exact fun s hs => hcounted s (by omega)
    · exact habove'
    · intro _
      -- something occurs, and nothing above the symbol does
      obtain ⟨byte, hbyte⟩ := List.exists_mem_of_ne_nil src hempty
      have hpos : 0 < occurrences src byte.toNat := occurrences_pos_iff.2 ⟨byte, hbyte, rfl⟩
      rcases Nat.eq_zero_or_pos symbol with h | h
      · have hbyte_le : ¬ symbol < byte.toNat := fun hlt => by rw [habove' _ hlt] at hpos; omega
        rw [show symbol = byte.toNat by omega]; exact hpos
      · have := hkept h
        rw [hcounted symbol hle] at this
        omega
    · exact fun h => absurd h hempty

/-! ## Four tables -/

theorem lastSymbol_spec (count : List Nat) : ∀ symbol, (∃ s ≤ symbol, tally count s ≠ 0) →
    ∃ last ≤ symbol, lastSymbol count symbol = some last ∧ tally count last ≠ 0 ∧
      ∀ s, last < s → s ≤ symbol → tally count s = 0
  | 0, ⟨s, hs, hne⟩ => by
    obtain rfl := Nat.le_zero.1 hs
    refine ⟨0, le_rfl, ?_, hne, fun s hlt hle => absurd hlt (by omega)⟩
    unfold lastSymbol
    rw [if_neg hne]
  | symbol + 1, ⟨s, hs, hne⟩ => by
    unfold lastSymbol
    by_cases hlast : tally count (symbol + 1) = 0
    · rw [if_pos hlast]
      have hs' : s ≤ symbol := by
        by_contra h
        rw [show s = symbol + 1 by omega] at hne
        exact hne hlast
      obtain ⟨last, hle, heq, hne', hzero⟩ := lastSymbol_spec count symbol ⟨s, hs', hne⟩
      refine ⟨last, by omega, heq, hne', fun t hlt hle => ?_⟩
      rcases Nat.lt_or_ge symbol t with h | h
      · rw [show t = symbol + 1 by omega]; exact hlast
      · exact hzero t hlt h
    · rw [if_neg hlast]
      exact ⟨symbol + 1, le_rfl, rfl, hlast, fun t hlt hle => absurd hle (by omega)⟩

/-- A run off the front of the array: nothing is counted. -/
theorem lastSymbol_eq_none {count : List Nat} : ∀ symbol, (∀ s ≤ symbol, tally count s = 0) →
    lastSymbol count symbol = none
  | 0, h => by
    unfold lastSymbol
    rw [if_pos (h 0 le_rfl)]
  | symbol + 1, h => by
    unfold lastSymbol
    rw [if_pos (h _ le_rfl)]
    exact lastSymbol_eq_none symbol fun s hs => h s (by omega)

theorem lastSymbol_le {count : List Nat} : ∀ {symbol last : Nat}, lastSymbol count symbol = some last → last ≤ symbol
  | 0, last, h => by
    unfold lastSymbol at h
    split at h
    · cases h
    · cases h
      exact le_rfl
  | symbol + 1, last, h => by
    unfold lastSymbol at h
    split at h
    · exact (lastSymbol_le h).trans (Nat.le_succ _)
    · cases h
      exact le_rfl

/-- Four tables count what is in the string, whatever counters and workspace held before; only a maximum symbol that is
to be checked and does not admit the string stops them. -/
theorem countParallelWksp_counts (count : List Nat) (maxSymbolValue : Nat) {src : Bytes}
    (check : CheckInput) (hsrc : src.length < 2 ^ 32) :
    ∃ h : Histogram, h.Counts src ∧ countParallelWksp count maxSymbolValue src check = some
      (if check = .checkMaxSymbolValue ∧ h.maxSymbolValue > maxSymbolValue then .error .maxSymbolValueTooSmall
        else .ok h) := by
  unfold countParallelWksp
  by_cases hempty : src = []
  · subst hempty
    refine ⟨⟨0, 0, List.replicate count.length 0⟩, ?_, ?_⟩
    · exact ⟨fun h => absurd rfl h, fun s _ => rfl, fun _ => rfl, fun s _ => by rw [tally_replicate]; rfl,
        fun s => Nat.zero_le _, 0, le_rfl, rfl⟩
    · rw [if_pos List.isEmpty_nil, if_neg (by rintro ⟨-, h⟩; exact absurd h (Nat.not_lt_zero _))]
  · rw [if_neg (by rwa [List.isEmpty_iff])]
    dsimp only
    obtain ⟨hlength, htally⟩ := countLanes_spec src
    have hcounted : ∀ s < 256, tally (countLanes src) s = occurrences src s := by
      intro s hs
      have hle := occurrences_le src s
      rw [htally s hs, Nat.mod_eq_of_lt (by omega)]
    generalize countLanes src = counting1 at hlength hcounted
    obtain ⟨byte, hbyte⟩ := List.exists_mem_of_ne_nil src hempty
    have hbyte_lt := byte.toNat_lt
    have hpos : 0 < occurrences src byte.toNat := occurrences_pos_iff.2 ⟨byte, hbyte, rfl⟩
    obtain ⟨last, hle, heq, hne, hzero⟩ := lastSymbol_spec counting1 255 ⟨byte.toNat, by omega, by
      rw [hcounted _ (by omega)]; omega⟩
    have habove : ∀ s, last < s → occurrences src s = 0 := by
      intro s hs
      rcases Nat.lt_or_ge 255 s with h | h
      · apply Nat.eq_zero_of_not_pos
        rw [occurrences_pos_iff]
        rintro ⟨b, -, rfl⟩
        have := b.toNat_lt
        omega
      · rw [← hcounted s (by omega)]; exact hzero s hs h
    refine ⟨⟨counting1.foldl max 0, last, counting1.take (last + 1) ++ count.drop (last + 1)⟩, ?_, by rw [heq]; rfl⟩
    apply counts_of_table
    · rw [hlength]; omega
    · exact fun s hs => hcounted s (by omega)
    · intro s hs
      rw [tally_append_left (by rw [List.length_take, hlength]; omega), tally_take (by omega), hcounted s (by omega)]
    · exact habove
    · intro _
      rw [hcounted last (by omega)] at hne
      omega
    · exact fun h => absurd h hempty

/-! ## The histogram of a block -/

/-- `count_fast_wksp`. -/
def countFastWksp (count : List Nat) (maxSymbolValue : Nat) (source : Bytes) : Option (Result Histogram) :=
  if source.length < 1500 then some (.ok (countSimple count maxSymbolValue source))
  else countParallelWksp count maxSymbolValue source .trustInput

/-- `count_wksp`. -/
def countWksp (count : List Nat) (maxSymbolValue : Nat) (source : Bytes) : Option (Result Histogram) :=
  if maxSymbolValue < 255 then countParallelWksp count maxSymbolValue source .checkMaxSymbolValue
  else countFastWksp count 255 source

theorem foldl_bump_length : ∀ (src : Bytes) (table : List Nat),
    (src.foldl (fun count byte => bump count byte.toNat) table).length = table.length
  | [], _ => rfl
  | byte :: src, table => by rw [List.foldl_cons, foldl_bump_length src, bump_length]

theorem countSimple_length {count : List Nat} {maxSymbolValue : Nat} (src : Bytes)
    (hmax : maxSymbolValue < count.length) : (countSimple count maxSymbolValue src).count.length = count.length := by
  have hfresh : (List.replicate (maxSymbolValue + 1) 0 ++ count.drop (maxSymbolValue + 1)).length = count.length := by
    rw [List.length_append, List.length_replicate, List.length_drop]
    omega
  unfold countSimple
  dsimp only
  split
  · exact hfresh
  · exact (foldl_bump_length src _).trans hfresh

theorem countParallelWksp_length {count : List Nat} {maxSymbolValue : Nat} {src : Bytes} {check : CheckInput}
    {h : Histogram}
    (hcount : countParallelWksp count maxSymbolValue src check = some (.ok h)) (hlen : count.length = 256) :
    h.count.length = 256 := by
  unfold countParallelWksp at hcount
  split at hcount
  · cases hcount
    rwa [List.length_replicate]
  dsimp only at hcount
  have hlength := (countLanes_spec src).1
  generalize countLanes src = counting1 at hcount hlength
  obtain ⟨last, hlast, hcount⟩ := Option.map_eq_some_iff.1 hcount
  split at hcount
  · cases hcount
  · cases hcount
    have hle := lastSymbol_le hlast
    rw [List.length_append, List.length_take, List.length_drop]
    omega

/-- The counter of all bytes counts what is in the string. -/
theorem countWksp_counts {count : List Nat} {src : Bytes} (hlen : count.length = 256) (hsrc : src.length < 2 ^ 32) :
    ∃ h : Histogram, countWksp count 255 src = some (.ok h) ∧ h.Counts src ∧ h.count.length = 256 := by
  unfold countWksp countFastWksp
  rw [if_neg (by omega)]
  split
  · exact ⟨_, rfl, countSimple_counts hlen le_rfl (fun byte _ => by have := byte.toNat_lt; omega) hsrc,
      (countSimple_length src (by omega)).trans hlen⟩
  · obtain ⟨h, hcounts, heq⟩ := countParallelWksp_counts count 255 .trustInput hsrc
    rw [if_neg (by rintro ⟨hcheck, -⟩; cases hcheck)] at heq
    exact ⟨h, heq, hcounts, countParallelWksp_length heq hlen⟩

end Hist

end Zstandard
