/-
The FSE decode tables as the source builds them, in arrays that hold an older table.

A table array is always as long as the largest table; a builder writes the slots of its own size and
leaves the rest. What it leaves behind from before it never reads: the spread writes every slot once, so
the entries depend on the counts alone, whichever builder computes them.
-/
import Zstandard.Entropy.Duality

namespace Zstandard

namespace Fse

/-! ## The builders over an array in use -/

/-- Both passes over the counts, into an array that holds older symbols. -/
def spreadSymbolsInto (initial : List Nat) (normalizedCounter : List Int) (maxSymbolIndex tableLog : Nat) :
    Result (List Nat × List Nat) :=
  let tableSize := 2 ^ tableLog
  let counts := (normalizedCounter.take (maxSymbolIndex + 1)).zipIdx
  let spread := counts.foldl (fun s c => placeLowProbability s c.2 c.1)
    { tableSymbol := initial, symbolNext := List.replicate (symbolvalueMax + 1) 0, highThreshold := tableSize - 1 }
  let (tableSymbol, position) :=
    counts.foldl (fun acc c => placeSymbol tableSize spread.highThreshold c.2 c.1.toNat acc)
      (spread.tableSymbol, 0)
  if position ≠ 0 then .error .generic else .ok (tableSymbol, spread.symbolNext)

/-- The last loop of `build_dtable`: every slot in turn takes the next state of its symbol. -/
def fillDecodeEntries (tableLog : Nat) : Nat → Nat → List Nat → List DecodeEntry → List DecodeEntry
  | 0, _, _, entries => entries
  | n + 1, index, symbolNext, entries =>
    let symbol := (entries.getD index default).symbol
    let nextState := symbolNext.getD symbol 0
    let nbBits := tableLog - highbit32 nextState
    fillDecodeEntries tableLog n (index + 1) (symbolNext.set symbol (nextState + 1))
      (entries.set index { newState := (nextState <<< nbBits) - 2 ^ tableLog, symbol, nbBits })

/-- `build_dtable`. The symbols go into the entries of the table in use. -/
def buildDtableInto (dt : DTable) (normalizedCounter : List Int) (maxSymbolValue tableLog : Nat) :
    Result DTable := do
  checkTableArguments normalizedCounter maxSymbolValue tableLog
  let (tableSymbol, symbolNext) ←
    spreadSymbolsInto (dt.entries.map (·.symbol)) normalizedCounter maxSymbolValue tableLog
  let entries := dt.entries.zipWith (fun e symbol => { e with symbol }) tableSymbol
  let fastMode := (normalizedCounter.take (maxSymbolValue + 1)).all (· < 2 ^ (tableLog - 1))
  .ok { tableLog, fastMode, entries := fillDecodeEntries tableLog (2 ^ tableLog) 0 symbolNext entries }

/-- The active entries of a table, each embedded into an array of sequence entries in use. -/
def copyEntries (embed : DecodeEntry → SequenceDecodeEntry) (dt : DTable) (out : SequenceDTable) : SequenceDTable :=
  let tableSize := if dt.tableLog = 0 then 1 else 2 ^ dt.tableLog
  { tableLog := dt.tableLog, entries := (dt.entries.take tableSize).map embed ++ out.entries.drop tableSize }

def buildSequenceDtableFromInto (dt : DTable) (baselines extraBits : List Nat) (out : SequenceDTable) :
    SequenceDTable :=
  copyEntries (·.withBaseline baselines extraBits) dt out

def buildOffsetSequenceDtableFromInto (dt : DTable) (out : SequenceDTable) : SequenceDTable :=
  copyEntries DecodeEntry.asOffset dt out

/-- The last loop of the direct builders: the state transition of every slot, embedded as it is made. -/
def fillSequenceEntries (embed : DecodeEntry → SequenceDecodeEntry) (tableLog : Nat) (tableSymbol : List Nat) :
    Nat → Nat → List Nat → List SequenceDecodeEntry → List SequenceDecodeEntry
  | 0, _, _, entries => entries
  | n + 1, index, symbolNext, entries =>
    let symbol := tableSymbol.getD index 0
    let nextState := symbolNext.getD symbol 0
    let nbBits := tableLog - highbit32 nextState
    fillSequenceEntries embed tableLog tableSymbol n (index + 1) (symbolNext.set symbol (nextState + 1))
      (entries.set index (embed { newState := (nextState <<< nbBits) - 2 ^ tableLog, symbol, nbBits }))

/-- A direct builder: the spread over a fresh array of symbols, the entries into the table in use. -/
def buildDirectInto (embed : DecodeEntry → SequenceDecodeEntry) (out : SequenceDTable)
    (normalizedCounter : List Int) (maxSymbolValue tableLog : Nat) : Result SequenceDTable := do
  checkTableArguments normalizedCounter maxSymbolValue tableLog
  let (tableSymbol, symbolNext) ←
    spreadSymbolsInto (List.replicate tablesizeMax 0) normalizedCounter maxSymbolValue tableLog
  .ok { tableLog, entries := fillSequenceEntries embed tableLog tableSymbol (2 ^ tableLog) 0 symbolNext out.entries }

def buildSequenceDtableDirectInto (out : SequenceDTable) (normalizedCounter : List Int)
    (maxSymbolValue tableLog : Nat) (baselines extraBits : List Nat) : Result SequenceDTable :=
  buildDirectInto (·.withBaseline baselines extraBits) out normalizedCounter maxSymbolValue tableLog

def buildOffsetSequenceDtableDirectInto (out : SequenceDTable) (normalizedCounter : List Int)
    (maxSymbolValue tableLog : Nat) : Result SequenceDTable :=
  buildDirectInto DecodeEntry.asOffset out normalizedCounter maxSymbolValue tableLog

/-! ## What the spread writes -/

/-- A symbol written to a slot. -/
def writeSlot (tableSymbol : List Nat) (w : Nat × Nat) : List Nat := tableSymbol.set w.1 w.2

/-- The writes of the first pass: one slot further down for every symbol. -/
def lowWrites : Nat → List Nat → List (Nat × Nat)
  | _, [] => []
  | highThreshold, symbol :: symbols => (highThreshold, symbol) :: lowWrites (highThreshold - 1) symbols

/-- The slots that the second pass writes, in order. -/
def spreadPositions (tableSize highThreshold n : Nat) : List Nat :=
  List.iterate (advancePosition tableSize highThreshold tableSize) 0 n

/-- The last slot of the second pass, below those that the first pass reserves. -/
def highThresholdOf (tableSize : Nat) (counts : List (Int × Nat)) : Nat :=
  tableSize - 1 - (lowSymbols counts).length

/-- Every write of the spread, in order. -/
def spreadWrites (tableSize : Nat) (counts : List (Int × Nat)) : List (Nat × Nat) :=
  lowWrites (tableSize - 1) (lowSymbols counts).reverse ++
    (spreadPositions tableSize (highThresholdOf tableSize counts) (highSymbols counts).length).zip (highSymbols counts)

theorem length_writeSlots (writes : List (Nat × Nat)) : ∀ (a : List Nat),
    (writes.foldl writeSlot a).length = a.length := by
  induction writes with
  | nil => exact fun _ => rfl
  | cons w writes ih =>
    intro a
    rw [List.foldl_cons, ih]
    exact List.length_set

/-- A slot that is never written keeps its symbol. -/
theorem writeSlots_frame {u : Nat} : ∀ (writes : List (Nat × Nat)) (a : List Nat), u ∉ writes.map (·.1) →
    (writes.foldl writeSlot a)[u]? = a[u]?
  | [], _, _ => rfl
  | w :: writes, a, h => by
    rw [List.map_cons, List.mem_cons, not_or] at h
    rw [List.foldl_cons, writeSlots_frame writes _ h.2]
    unfold writeSlot
    rw [List.getElem?_set, if_neg (Ne.symm h.1)]

/-- What is in a slot that is written does not depend on what was there. -/
theorem writeSlots_agree {u : Nat} : ∀ (writes : List (Nat × Nat)) (a b : List Nat), u ∈ writes.map (·.1) →
    u < a.length → u < b.length → (writes.foldl writeSlot a)[u]? = (writes.foldl writeSlot b)[u]?
  | [], _, _, h, _, _ => by simp at h
  | w :: writes, a, b, h, ha, hb => by
    rw [List.foldl_cons, List.foldl_cons]
    by_cases hlater : u ∈ writes.map (·.1)
    · exact writeSlots_agree writes _ _ hlater (by unfold writeSlot; rwa [List.length_set])
        (by unfold writeSlot; rwa [List.length_set])
    · have hu : w.1 = u := by
        rw [List.map_cons, List.mem_cons] at h
        exact (h.resolve_right hlater).symm
      rw [writeSlots_frame writes _ hlater, writeSlots_frame writes _ hlater]
      unfold writeSlot
      rw [List.getElem?_set, List.getElem?_set, if_pos hu, if_pos hu, if_pos (by omega), if_pos (by omega)]

/-- Writing all of the first slots of an array: what follows them stays. -/
theorem writeSlots_append {n : Nat} {writes : List (Nat × Nat)} {a b : List Nat}
    (hslots : ∀ u, u ∈ writes.map (·.1) ↔ u < n) (hb : b.length = n) (ha : n ≤ a.length) :
    writes.foldl writeSlot a = writes.foldl writeSlot b ++ a.drop n := by
  have hlen := length_writeSlots writes
  refine List.ext_getElem? fun u => ?_
  rcases Nat.lt_or_ge u n with hu | hu
  · rw [List.getElem?_append_left (by rw [hlen, hb]; exact hu)]
    exact writeSlots_agree writes a b ((hslots u).2 hu) (by omega) (by omega)
  · rw [writeSlots_frame writes a fun hc => absurd ((hslots u).1 hc) (by omega),
      List.getElem?_append_right (by rw [hlen, hb]; exact hu), hlen, hb, List.getElem?_drop,
      Nat.add_sub_cancel' hu]

theorem lowWrites_slots : ∀ (symbols : List Nat) (high : Nat),
    (lowWrites high symbols).map (·.1) = (List.range symbols.length).map (high - ·)
  | [], _ => rfl
  | symbol :: symbols, high => by
    rw [lowWrites, List.map_cons, lowWrites_slots symbols, List.length_cons, List.range_succ_eq_map, List.map_cons,
      List.map_map, Nat.sub_zero]
    congr 1
    refine List.map_congr_left fun i _ => ?_
    simp only [Function.comp_apply]
    omega

/-- The first pass is its writes; how it goes on does not depend on the array. -/
theorem firstPass_writes : ∀ (counts : List (Int × Nat)) (init : Spread),
    counts.foldl (fun s c => placeLowProbability s c.2 c.1) init =
      { tableSymbol := (lowWrites init.highThreshold (lowSymbols counts).reverse).foldl writeSlot init.tableSymbol
        symbolNext := counts.foldl (fun next c => next.set c.2 (if c.1 = -1 then 1 else c.1.toNat)) init.symbolNext
        highThreshold := init.highThreshold - (lowSymbols counts).length }
  | [], _ => rfl
  | c :: counts, init => by
    rw [List.foldl_cons, firstPass_writes counts, lowSymbols_cons]
    unfold placeLowProbability
    by_cases hc : c.1 = -1
    · simp only [if_pos hc, List.reverse_append, List.reverse_singleton, List.singleton_append, lowWrites,
        List.foldl_cons, List.length_append, List.length_singleton]
      congr 1
      omega
    · simp only [if_neg hc, List.append_nil, List.foldl_cons]

/-- The second pass is its writes. -/
theorem secondPass_writes (tableSize high : Nat) : ∀ (symbols : List Nat) (tableSymbol : List Nat) (position : Nat),
    symbols.foldl (placeOne tableSize high) (tableSymbol, position) =
      (((List.iterate (advancePosition tableSize high tableSize) position symbols.length).zip symbols).foldl
        writeSlot tableSymbol, (advancePosition tableSize high tableSize)^[symbols.length] position)
  | [], _, _ => rfl
  | symbol :: symbols, tableSymbol, position => by
    have ih := secondPass_writes tableSize high symbols (tableSymbol.set position symbol)
      (advancePosition tableSize high tableSize position)
    rw [List.foldl_cons, List.length_cons, List.iterate, List.zip_cons_cons, List.foldl_cons,
      Function.iterate_succ_apply]
    exact ih

/-- The first state of every symbol. -/
def spreadNext (counts : List (Int × Nat)) : List Nat :=
  counts.foldl (fun next c => next.set c.2 (if c.1 = -1 then 1 else c.1.toNat)) (List.replicate (symbolvalueMax + 1) 0)

/-- The position after the spread. -/
def spreadEnd (tableSize : Nat) (counts : List (Int × Nat)) : Nat :=
  (advancePosition tableSize (highThresholdOf tableSize counts) tableSize)^[(highSymbols counts).length] 0

/-- The spread is its writes: where they go and how they end does not depend on the array. -/
theorem spreadSymbolsInto_writes (initial : List Nat) (normalizedCounter : List Int) (maxSymbolIndex tableLog : Nat) :
    spreadSymbolsInto initial normalizedCounter maxSymbolIndex tableLog =
      let counts := (normalizedCounter.take (maxSymbolIndex + 1)).zipIdx
      if spreadEnd (2 ^ tableLog) counts ≠ 0 then .error .generic
      else .ok ((spreadWrites (2 ^ tableLog) counts).foldl writeSlot initial, spreadNext counts) := by
  unfold spreadSymbolsInto
  simp only [firstPass_writes, foldl_placeSymbol, secondPass_writes]
  rw [spreadWrites, List.foldl_append]
  rfl

/-! ## Every slot once -/

section
variable {tableLog high : Nat}

/-- A position of the second pass after `done` placements. -/
def OnWalk (tableLog high done position : Nat) : Prop :=
  ∃ k, position = walk (2 ^ tableLog) k ∧ walk (2 ^ tableLog) k ≤ high ∧
    Nat.count (fun k => walk (2 ^ tableLog) k ≤ high) k = done

theorem OnWalk.start : OnWalk tableLog high 0 0 := by
  have hzero : walk (2 ^ tableLog) 0 = 0 := by
    unfold walk
    rw [Nat.zero_mul, Nat.zero_mod]
  exact ⟨0, hzero.symm, by omega, Nat.count_zero _⟩

theorem OnWalk.advance {done position : Nat} (h : OnWalk tableLog high done position) :
    OnWalk tableLog high (done + 1) (advancePosition (2 ^ tableLog) high (2 ^ tableLog) position) := by
  obtain ⟨k, rfl, hgood, hcount⟩ := h
  obtain ⟨k', h1, -, h2, h3⟩ := walk_advance hgood
  exact ⟨k', h1, h2, by omega⟩

theorem OnWalk.iterate : ∀ (n : Nat),
    OnWalk tableLog high n ((advancePosition (2 ^ tableLog) high (2 ^ tableLog))^[n] 0)
  | 0 => OnWalk.start
  | n + 1 => by
    rw [Function.iterate_succ_apply']
    exact (OnWalk.iterate n).advance

variable (hlog : 4 ≤ tableLog) (hh : high < 2 ^ tableLog)

include hlog hh in
theorem OnWalk.injective {i j position : Nat} (hi : OnWalk tableLog high i position)
    (hj : OnWalk tableLog high j position) (h1 : i ≤ high) (h2 : j ≤ high) : i = j := by
  obtain ⟨k, hk, -, hcount⟩ := hi
  obtain ⟨k', hk', -, hcount'⟩ := hj
  have := walk_injective hlog (walk_within hlog hh (show Nat.count _ k < high + 1 by omega))
    (walk_within hlog hh (show Nat.count _ k' < high + 1 by omega)) (hk.symm.trans hk')
  rw [← hcount, ← hcount', this]

include hlog hh in
/-- The second pass visits every slot up to `high` once, and comes back to the first. -/
theorem spreadPositions_perm :
    (spreadPositions (2 ^ tableLog) high (high + 1)).Perm (List.range (high + 1)) ∧
      (advancePosition (2 ^ tableLog) high (2 ^ tableLog))^[high + 1] 0 = 0 := by
  have hmap : spreadPositions (2 ^ tableLog) high (high + 1) = (List.range (high + 1)).map fun i =>
      (advancePosition (2 ^ tableLog) high (2 ^ tableLog))^[i] 0 := by
    rw [List.range_map_iterate]
    rfl
  constructor
  · rw [hmap]
    refine (List.Nodup.subperm (List.Nodup.map_on ?_ List.nodup_range) ?_).perm_of_length_le (by simp)
    · intro i hi j hj heq
      rw [List.mem_range] at hi hj
      have hposi : OnWalk tableLog high i _ := OnWalk.iterate i
      rw [heq] at hposi
      exact hposi.injective hlog hh (OnWalk.iterate j) (by omega) (by omega)
    · intro u hu
      obtain ⟨i, -, rfl⟩ := List.mem_map.1 hu
      obtain ⟨k, hk, hgood, -⟩ := (OnWalk.iterate i : OnWalk tableLog high i _)
      rw [List.mem_range, hk]
      omega
  · obtain ⟨k, hk, hgood, hcount⟩ := (OnWalk.iterate (high + 1) : OnWalk tableLog high (high + 1) _)
    rw [hk, walk_back hlog hh hgood hcount]

include hlog in
/-- The spread of as many symbols as there are slots writes every slot once. -/
theorem spreadWrites_slots {counts : List (Int × Nat)}
    (htotal : (highSymbols counts).length + (lowSymbols counts).length = 2 ^ tableLog) :
    ((spreadWrites (2 ^ tableLog) counts).map (·.1)).Perm (List.range (2 ^ tableLog)) ∧
      spreadEnd (2 ^ tableLog) counts = 0 := by
  have hlow : (lowWrites (2 ^ tableLog - 1) (lowSymbols counts).reverse).map (·.1) =
      (List.range (lowSymbols counts).length).map (2 ^ tableLog - 1 - ·) := by
    rw [lowWrites_slots, List.length_reverse]
  have hhigh : ((spreadPositions (2 ^ tableLog) (highThresholdOf (2 ^ tableLog) counts)
      (highSymbols counts).length).zip (highSymbols counts)).map (·.1) =
        spreadPositions (2 ^ tableLog) (highThresholdOf (2 ^ tableLog) counts) (highSymbols counts).length := by
    rw [List.map_fst_zip (by unfold spreadPositions; rw [List.length_iterate])]
  have hwalk : (spreadPositions (2 ^ tableLog) (highThresholdOf (2 ^ tableLog) counts)
      (highSymbols counts).length).Perm (List.range (highSymbols counts).length) ∧
        spreadEnd (2 ^ tableLog) counts = 0 := by
    rcases Nat.eq_zero_or_pos (highSymbols counts).length with hnone | hsome
    · unfold spreadEnd
      rw [hnone]
      exact ⟨List.Perm.refl _, rfl⟩
    · have hthreshold : highThresholdOf (2 ^ tableLog) counts + 1 = (highSymbols counts).length := by
        unfold highThresholdOf
        omega
      have := spreadPositions_perm hlog (show highThresholdOf (2 ^ tableLog) counts < 2 ^ tableLog by omega)
      unfold spreadEnd
      rwa [hthreshold] at this
  refine ⟨?_, hwalk.2⟩
  unfold spreadWrites
  rw [List.map_append, hlow, hhigh]
  refine ((List.perm_ext_iff_of_nodup ?_ List.nodup_range).2 fun u => ?_)
  · refine List.Nodup.append (List.Nodup.map_on ?_ List.nodup_range) (hwalk.1.nodup_iff.2 List.nodup_range) ?_
    · intro i hi j hj heq
      rw [List.mem_range] at hi hj
      omega
    · intro u h1 h2
      obtain ⟨i, hi, rfl⟩ := List.mem_map.1 h1
      rw [List.mem_range] at hi
      rw [hwalk.1.mem_iff, List.mem_range] at h2
      omega
  · rw [List.mem_append, hwalk.1.mem_iff, List.mem_map, List.mem_range, List.mem_range]
    constructor
    · rintro (⟨i, hi, rfl⟩ | hu)
      · rw [List.mem_range] at hi
        omega
      · omega
    · intro hu
      rcases Nat.lt_or_ge u (highSymbols counts).length with hlt | hge
      · exact .inr hlt
      · refine .inl ⟨2 ^ tableLog - 1 - u, List.mem_range.2 (by omega), by omega⟩

end

section
variable {normalizedCounter : List Int} {maxSymbolValue tableLog : Nat}
  (hn : Normalized normalizedCounter maxSymbolValue tableLog) (hlog : 4 ≤ tableLog)

include hn in
theorem length_highSymbols :
    (highSymbols (normalizedCounter.take (maxSymbolValue + 1)).zipIdx).length +
      (lowSymbols (normalizedCounter.take (maxSymbolValue + 1)).zipIdx).length = 2 ^ tableLog := by
  have hge : ∀ c ∈ normalizedCounter.take (maxSymbolValue + 1), -1 ≤ c := fun c hc =>
    hn.atLeast c (List.mem_of_mem_take hc)
  rw [length_symbols _ 0 hge, hn.total]

include hn hlog in
/-- The spread into an array in use is the spread into a fresh one, whatever the array holds. -/
theorem spreadSymbolsInto_eq (initial : List Nat) (hinit : 2 ^ tableLog ≤ initial.length) :
    spreadSymbolsInto initial normalizedCounter maxSymbolValue tableLog =
      (spreadSymbols normalizedCounter maxSymbolValue tableLog).map fun s =>
        (s.1 ++ initial.drop (2 ^ tableLog), s.2) := by
  obtain ⟨hperm, hend⟩ := spreadWrites_slots hlog (length_highSymbols hn)
  have hslots : ∀ u, u ∈ (spreadWrites (2 ^ tableLog) (normalizedCounter.take (maxSymbolValue + 1)).zipIdx).map (·.1) ↔
      u < 2 ^ tableLog := fun u => by rw [hperm.mem_iff, List.mem_range]
  have hfresh : spreadSymbols normalizedCounter maxSymbolValue tableLog =
      spreadSymbolsInto (List.replicate (2 ^ tableLog) 0) normalizedCounter maxSymbolValue tableLog := rfl
  rw [hfresh, spreadSymbolsInto_writes, spreadSymbolsInto_writes]
  simp only
  rw [if_neg (not_not.2 hend), if_neg (not_not.2 hend),
    writeSlots_append hslots (b := List.replicate (2 ^ tableLog) 0) List.length_replicate hinit]
  rfl

end

/-! ## The last loops -/

theorem length_stateEntries (tableLog : Nat) (slots next : List Nat) :
    (stateEntries tableLog slots next).length = slots.length := by
  rw [← List.length_map (f := (·.symbol)), stateEntries_symbol]

theorem fillDecodeEntries_eq (tableLog : Nat) (rest : List DecodeEntry) :
    ∀ (active done : List DecodeEntry) (symbolNext : List Nat),
      fillDecodeEntries tableLog active.length done.length symbolNext (done ++ (active ++ rest)) =
        done ++ (stateEntries tableLog (active.map (·.symbol)) symbolNext ++ rest)
  | [], _, _ => rfl
  | e :: active, done, symbolNext => by
    have hget : (done ++ (e :: active ++ rest)).getD done.length default = e := by
      rw [List.getD_append_right _ _ _ _ (le_refl _), Nat.sub_self]
      rfl
    rw [List.length_cons, fillDecodeEntries]
    simp only [hget]
    rw [List.set_append_right _ _ (le_refl _), Nat.sub_self, List.cons_append, List.set_cons_zero]
    have ih := fun made => fillDecodeEntries_eq tableLog rest active (done ++ [made])
      (symbolNext.set e.symbol (symbolNext.getD e.symbol 0 + 1))
    simp only [List.length_append, List.length_singleton, List.append_assoc, List.singleton_append] at ih
    rw [ih, List.map_cons, stateEntries]
    rfl

theorem fillSequenceEntries_eq (embed : DecodeEntry → SequenceDecodeEntry) (tableLog : Nat) (unused : List Nat)
    (rest : List SequenceDecodeEntry) :
    ∀ (slots before : List Nat) (active done : List SequenceDecodeEntry) (symbolNext : List Nat),
      before.length = done.length → slots.length = active.length →
        fillSequenceEntries embed tableLog (before ++ (slots ++ unused)) slots.length done.length symbolNext
            (done ++ (active ++ rest)) =
          done ++ ((stateEntries tableLog slots symbolNext).map embed ++ rest)
  | [], _, active, _, _, _, hactive => by
    rw [List.eq_nil_of_length_eq_zero hactive.symm]
    rfl
  | s :: slots, before, [], _, _, _, hactive => by simp at hactive
  | s :: slots, before, e :: active, done, symbolNext, hdone, hactive => by
    have hget : (before ++ (s :: slots ++ unused)).getD done.length 0 = s := by
      rw [← hdone, List.getD_append_right _ _ _ _ (le_refl _), Nat.sub_self]
      rfl
    rw [List.length_cons, fillSequenceEntries]
    simp only [hget]
    rw [List.set_append_right _ _ (le_refl _), Nat.sub_self,
      show e :: active ++ rest = e :: (active ++ rest) from rfl, List.set_cons_zero]
    have ih := fun made => fillSequenceEntries_eq embed tableLog unused rest slots (before ++ [s]) active
      (done ++ [made]) (symbolNext.set s (symbolNext.getD s 0 + 1))
      (by rw [List.length_append, List.length_append, hdone]; rfl) (by simpa using hactive)
    simp only [List.length_append, List.length_singleton, List.append_assoc, List.singleton_append] at ih
    rw [List.cons_append, ih, stateEntries, List.map_cons]
    rfl

/-! ## Tables in use -/

section
variable {normalizedCounter : List Int} {maxSymbolValue tableLog : Nat}
  (hn : Normalized normalizedCounter maxSymbolValue tableLog) (hlog : 4 ≤ tableLog)
  (hmax : maxSymbolValue ≤ symbolvalueMax)

include hn hlog hmax in
/-- `build_dtable` over a table in use makes the entries of a fresh table, and leaves the rest. -/
theorem buildDtableInto_eq {dt : DTable} (hdt : 2 ^ tableLog ≤ dt.entries.length) :
    buildDtableInto dt normalizedCounter maxSymbolValue tableLog =
      (buildDtable normalizedCounter maxSymbolValue tableLog).map fun fresh =>
        { fresh with entries := fresh.entries ++ dt.entries.drop (2 ^ tableLog) } := by
  have hspread := spreadSymbolsInto_eq hn hlog (dt.entries.map (·.symbol)) (by rwa [List.length_map])
  obtain ⟨slots, symbolNext, hfresh, hlen, -⟩ := spreadSymbols_spec hn hlog hmax
  rw [hfresh] at hspread
  unfold buildDtableInto buildDtable buildEntries
  cases checkTableArguments normalizedCounter maxSymbolValue tableLog with
  | error e => rfl
  | ok _ =>
    simp only [ok_bind, hspread, hfresh, Except.map]
    congr 2
    -- the symbols of the active slots are the new ones, the others are written back
    have hsplit : dt.entries.zipWith (fun e symbol => { e with symbol })
        (slots ++ (dt.entries.map (·.symbol)).drop (2 ^ tableLog)) =
          (dt.entries.take (2 ^ tableLog)).zipWith (fun e symbol => { e with symbol }) slots ++
            dt.entries.drop (2 ^ tableLog) := by
      nth_rewrite 1 [← List.take_append_drop (2 ^ tableLog) dt.entries]
      rw [← List.map_drop, List.zipWith_append (by rw [List.length_take, hlen]; omega),
        List.zipWith_map_right, List.zipWith_self, List.map_id']
    have hactive : ((dt.entries.take (2 ^ tableLog)).zipWith (fun e symbol => ({ e with symbol } : DecodeEntry))
        slots).map (·.symbol) = slots := by
      rw [List.map_zipWith]
      refine List.ext_getElem (by rw [List.length_zipWith, List.length_take]; omega) fun u _ _ => ?_
      rw [List.getElem_zipWith]
    have hcount : ((dt.entries.take (2 ^ tableLog)).zipWith (fun e symbol => ({ e with symbol } : DecodeEntry))
        slots).length = 2 ^ tableLog := by
      rw [List.length_zipWith, List.length_take, hlen]
      omega
    have hfill := fillDecodeEntries_eq tableLog (dt.entries.drop (2 ^ tableLog))
      ((dt.entries.take (2 ^ tableLog)).zipWith (fun e symbol => { e with symbol }) slots) [] symbolNext
    rw [hactive, hcount] at hfill
    rw [hsplit]
    exact hfill

include hn hlog hmax in
theorem buildDirectInto_eq (hle : tableLog ≤ tablelogMax) (embed : DecodeEntry → SequenceDecodeEntry)
    {out : SequenceDTable} (hout : 2 ^ tableLog ≤ out.entries.length) :
    buildDirectInto embed out normalizedCounter maxSymbolValue tableLog =
      (buildEntries normalizedCounter maxSymbolValue tableLog).map fun entries =>
        { tableLog, entries := entries.map embed ++ out.entries.drop (2 ^ tableLog) } := by
  have hroom : 2 ^ tableLog ≤ tablesizeMax := Nat.pow_le_pow_right (by norm_num) hle
  have hspread := spreadSymbolsInto_eq hn hlog (List.replicate tablesizeMax 0)
    (by rwa [List.length_replicate])
  obtain ⟨slots, symbolNext, hfresh, hlen, -⟩ := spreadSymbols_spec hn hlog hmax
  rw [hfresh] at hspread
  unfold buildDirectInto buildEntries
  cases checkTableArguments normalizedCounter maxSymbolValue tableLog with
  | error e => rfl
  | ok _ =>
    simp only [ok_bind, hspread, hfresh, Except.map]
    congr 2
    have hfill := fillSequenceEntries_eq embed tableLog ((List.replicate tablesizeMax 0).drop (2 ^ tableLog))
      (out.entries.drop (2 ^ tableLog)) slots [] (out.entries.take (2 ^ tableLog)) [] symbolNext rfl
      (by rw [hlen, List.length_take]; omega)
    rw [hlen, List.take_append_drop] at hfill
    exact hfill

end

/-! ## Transitions -/

/-- The states that an entry leads to, one for every value of the bits read there. -/
def DecodeEntry.Covers (e : DecodeEntry) (state : Nat) : Prop :=
  e.newState ≤ state ∧ state < e.newState + 2 ^ e.nbBits

/-- The states that the entries of one symbol lead to are all of the table's, each by one entry. -/
structure Transitions (tableLog : Nat) (entries : List DecodeEntry) : Prop where
  within : ∀ e ∈ entries, e.newState + 2 ^ e.nbBits ≤ 2 ^ tableLog
  once : ∀ e ∈ entries, ∀ state < 2 ^ tableLog,
    ∃! u : Nat, ∃ e' : DecodeEntry, entries[u]? = some e' ∧ e'.symbol = e.symbol ∧ e'.Covers state

/-- The state after some reads, each of as many low bits as the entry at hand asks for. -/
def stateAfter (entries : List DecodeEntry) : Nat → List Nat → Nat
  | state, [] => state
  | state, bits :: reads =>
    let e := entries.getD state default
    stateAfter entries (e.newState + bits % 2 ^ e.nbBits) reads

/-- No bit sequence leads outside the active entries. -/
theorem Transitions.stateAfter_lt {tableLog : Nat} {entries : List DecodeEntry}
    (h : Transitions tableLog (entries.take (2 ^ tableLog))) (hlen : 2 ^ tableLog ≤ entries.length) :
    ∀ (reads : List Nat) {state : Nat}, state < 2 ^ tableLog → stateAfter entries state reads < 2 ^ tableLog
  | [], _, hs => hs
  | bits :: reads, state, hs => by
    unfold stateAfter
    refine h.stateAfter_lt hlen reads ?_
    have hmem : entries.getD state default ∈ entries.take (2 ^ tableLog) := by
      rw [List.getD_eq_getElem _ _ (by omega)]
      exact List.mem_take_iff_getElem.2 ⟨state, by omega, rfl⟩
    have := h.within _ hmem
    have := Nat.mod_lt bits (show 0 < 2 ^ (entries.getD state default).nbBits by positivity)
    omega

section
variable {tableLog x s : Nat} (hx : 0 < x) (hle : x < 2 ^ (tableLog + 1))

include hx hle in
theorem log2_le_tableLog : Nat.log2 x ≤ tableLog := by
  have := (Nat.log2_lt (by omega)).2 hle
  omega

include hx hle in
theorem entryOf_room : 2 ^ tableLog ≤ x * 2 ^ (tableLog - Nat.log2 x) ∧
    (x + 1) * 2 ^ (tableLog - Nat.log2 x) ≤ 2 * 2 ^ tableLog := by
  have hlog := log2_le_tableLog hx hle
  have h1 := Nat.log2_self_le (show x ≠ 0 by omega)
  have h2 : x < 2 ^ (Nat.log2 x + 1) := Nat.lt_log2_self
  constructor
  · calc 2 ^ tableLog = 2 ^ Nat.log2 x * 2 ^ (tableLog - Nat.log2 x) := by rw [← pow_add]; congr 1; omega
      _ ≤ x * 2 ^ (tableLog - Nat.log2 x) := Nat.mul_le_mul_right _ h1
  · calc (x + 1) * 2 ^ (tableLog - Nat.log2 x) ≤ 2 ^ (Nat.log2 x + 1) * 2 ^ (tableLog - Nat.log2 x) :=
          Nat.mul_le_mul_right _ h2
      _ = 2 * 2 ^ tableLog := by rw [← pow_add, ← pow_succ']; congr 1; omega

include hx hle in
theorem entryOf_within : (entryOf tableLog x s).newState + 2 ^ (entryOf tableLog x s).nbBits ≤ 2 ^ tableLog := by
  obtain ⟨h1, h2⟩ := entryOf_room hx hle
  unfold entryOf highbit32
  simp only [Nat.shiftLeft_eq]
  rw [Nat.add_mul] at h2
  omega

include hx hle in
/-- An entry leads to the states that leave its `x` once the bits read there are shed. -/
theorem entryOf_covers {state : Nat} :
    (entryOf tableLog x s).Covers state ↔ (2 ^ tableLog + state) >>> (tableLog - Nat.log2 x) = x := by
  obtain ⟨h1, h2⟩ := entryOf_room hx hle
  unfold DecodeEntry.Covers entryOf highbit32
  simp only [Nat.shiftLeft_eq, Nat.shiftRight_eq_div_pow]
  rw [Nat.div_eq_iff (by positivity)]
  have : 0 < 2 ^ (tableLog - Nat.log2 x) := by positivity
  rw [Nat.add_mul] at h2
  omega

end

namespace LaidOut

variable {tableLog : Nat} {counts : List Int} {slots : List Nat} {ct : CTable} {entries : List DecodeEntry}

/-- What an entry stands for: how often its symbol occurs in the slots before it, above its count. -/
theorem entry_eq (h : LaidOut tableLog counts slots ct entries) {u : Nat} {e : DecodeEntry}
    (hu : entries[u]? = some e) :
    slots[u]? = some e.symbol ∧ (slots.take u).count e.symbol < (counts.getD e.symbol 0).natAbs ∧
      e = entryOf tableLog ((counts.getD e.symbol 0).natAbs + (slots.take u).count e.symbol) e.symbol := by
  have hlt := (List.getElem?_eq_some_iff.1 hu).1
  have hin : u < slots.length := by rw [h.length.1, ← h.length.2]; exact hlt
  have hslot : slots[u]? = some slots[u] := List.getElem?_eq_getElem hin
  have hat := h.entry hslot
  rw [hu, Option.some.injEq] at hat
  have hsymbol : e.symbol = slots[u] := by rw [hat]; rfl
  have hrank := Tans.count_take_lt hslot
  rw [h.full] at hrank
  rw [hsymbol]
  exact ⟨hslot, hrank, hat⟩

theorem symbols (h : LaidOut tableLog counts slots ct entries) : entries.map (·.symbol) = slots := by
  refine List.ext_getElem (by rw [List.length_map, h.length.1, h.length.2]) fun u hu _ => ?_
  rw [List.length_map] at hu
  have := (h.entry_eq (List.getElem?_eq_getElem hu)).1
  rw [List.getElem?_eq_some_iff] at this
  rw [List.getElem_map, this.2]

/-- Two slots of one symbol never lead to the same state. -/
theorem covers_once (h : LaidOut tableLog counts slots ct entries) {u u' : Nat} {e e' : DecodeEntry} {state : Nat}
    (hu : entries[u]? = some e) (hu' : entries[u']? = some e') (hsymbol : e'.symbol = e.symbol)
    (hc : e.Covers state) (hc' : e'.Covers state) : u = u' := by
  obtain ⟨hslot, hrank, heq⟩ := h.entry_eq hu
  obtain ⟨hslot', hrank', heq'⟩ := h.entry_eq hu'
  rw [hsymbol] at hslot' hrank' heq'
  have hmost := h.atMost e.symbol
  rw [heq, entryOf_covers (by omega) (by rw [pow_succ]; omega)] at hc
  rw [heq', entryOf_covers (by omega) (by rw [pow_succ]; omega)] at hc'
  have hbits := Tans.shed_once (c := (counts.getD e.symbol 0).natAbs) ⟨by rw [hc]; omega, by rw [hc]; omega⟩
    ⟨by rw [hc']; omega, by rw [hc']; omega⟩
  rw [hbits, hc'] at hc
  have hsame : (slots.take u).count e.symbol = (slots.take u').count e.symbol := by omega
  rw [← Tans.select_count hslot, hsame, Tans.select_count hslot']

/-- The entries laid out over a spread partition the states, symbol by symbol. -/
theorem transitions (h : LaidOut tableLog counts slots ct entries) : Transitions tableLog entries := by
  refine ⟨fun e he => ?_, fun e he state hstate => ?_⟩
  · obtain ⟨u, hu⟩ := List.getElem?_of_mem he
    obtain ⟨-, hrank, heq⟩ := h.entry_eq hu
    have hmost := h.atMost e.symbol
    rw [heq]
    exact entryOf_within (by omega) (by rw [pow_succ]; omega)
  · obtain ⟨v, hv⟩ := List.getElem?_of_mem he
    obtain ⟨-, hrank, -⟩ := h.entry_eq hv
    obtain ⟨hlive, hmod⟩ := Live.mod hstate
    -- the encoder's way to the state shows the slot
    obtain ⟨nbBits, next, newState, -, -, -, hnext, hback⟩ :=
      h.encodeState_ok (show counts.getD e.symbol 0 ≠ 0 by omega) hlive
    have hcovers : ({ newState, symbol := e.symbol, nbBits } : DecodeEntry).Covers state := by
      have := Nat.mod_lt (2 ^ tableLog + state) (show 0 < 2 ^ nbBits by positivity)
      rw [hmod] at hback
      unfold DecodeEntry.Covers
      simp only
      omega
    refine ⟨next % 2 ^ tableLog, ⟨_, hnext, rfl, hcovers⟩, ?_⟩
    rintro u ⟨e', hu, hsymbol, hc⟩
    exact (h.covers_once hnext hu hsymbol hcovers hc).symm

end LaidOut

/-! ## The tables of a valid distribution -/

section
variable {normalizedCounter : List Int} {maxSymbolValue tableLog : Nat}
  (hn : Normalized normalizedCounter maxSymbolValue tableLog) (hlog : minTablelog ≤ tableLog)
  (hle : tableLog ≤ tablelogMax) (hmax : maxSymbolValue ≤ symbolvalueMax)

/-- The spread of a distribution, into any array: the second pass visits the slots that the first does
not reserve, once each, and is back at the first slot; the two passes together write every slot once. -/
structure SpreadsOnce (normalizedCounter : List Int) (maxSymbolValue tableLog free : Nat)
    (counts : List (Int × Nat)) : Prop where
  visits : (spreadPositions (2 ^ tableLog) (highThresholdOf (2 ^ tableLog) counts) free).Perm (List.range free)
  back : (advancePosition (2 ^ tableLog) (highThresholdOf (2 ^ tableLog) counts) (2 ^ tableLog))^[free] 0 = 0
  slots : ((spreadWrites (2 ^ tableLog) counts).map (·.1)).Perm (List.range (2 ^ tableLog))
  writes : ∀ (initial : List Nat), spreadSymbolsInto initial normalizedCounter maxSymbolValue tableLog =
    .ok ((spreadWrites (2 ^ tableLog) counts).foldl writeSlot initial, spreadNext counts)

include hn hlog in
theorem spreadsOnce : SpreadsOnce normalizedCounter maxSymbolValue tableLog
    (2 ^ tableLog - (lowSymbols (normalizedCounter.take (maxSymbolValue + 1)).zipIdx).length)
    (normalizedCounter.take (maxSymbolValue + 1)).zipIdx := by
  unfold minTablelog at hlog
  have htotal := length_highSymbols hn
  obtain ⟨hslots, hend⟩ := spreadWrites_slots (show 4 ≤ tableLog by omega) htotal
  have hfree : 2 ^ tableLog - (lowSymbols (normalizedCounter.take (maxSymbolValue + 1)).zipIdx).length =
      (highSymbols (normalizedCounter.take (maxSymbolValue + 1)).zipIdx).length := by omega
  rw [hfree]
  refine ⟨?_, hend, hslots, fun initial => ?_⟩
  · rcases Nat.eq_zero_or_pos (highSymbols (normalizedCounter.take (maxSymbolValue + 1)).zipIdx).length with h0 | h0
    · rw [h0]
      exact List.Perm.refl _
    · have hthreshold : highThresholdOf (2 ^ tableLog) (normalizedCounter.take (maxSymbolValue + 1)).zipIdx + 1 =
          (highSymbols (normalizedCounter.take (maxSymbolValue + 1)).zipIdx).length := by
        unfold highThresholdOf
        omega
      rw [← hthreshold]
      exact (spreadPositions_perm (by omega) (by omega)).1
  · rw [spreadSymbolsInto_writes]
    simp only
    rw [if_neg (not_not.2 hend)]

/-- A decode table in use: its active entries partition the states of every symbol, each symbol has the
entries that its count says, and no reads lead outside. -/
structure DTable.Sound (normalizedCounter : List Int) (maxSymbolValue tableLog : Nat) (dt : DTable) : Prop where
  tableLog_eq : dt.tableLog = tableLog
  length : dt.entries.length = tablesizeMax
  share : ∀ symbol, ((dt.entries.take (2 ^ tableLog)).map (·.symbol)).count symbol =
    shareOf normalizedCounter maxSymbolValue symbol
  transitions : Transitions tableLog (dt.entries.take (2 ^ tableLog))
  closed : ∀ (reads : List Nat) {state : Nat}, state < 2 ^ tableLog → stateAfter dt.entries state reads < 2 ^ tableLog

include hn hlog hle hmax in
theorem buildDtableInto_sound {dt : DTable} (hdt : dt.entries.length = tablesizeMax) :
    ∃ table, buildDtableInto dt normalizedCounter maxSymbolValue tableLog = .ok table ∧
      table.Sound normalizedCounter maxSymbolValue tableLog := by
  unfold minTablelog at hlog
  have hroom : 2 ^ tableLog ≤ tablesizeMax := Nat.pow_le_pow_right (by norm_num) hle
  obtain ⟨slots, ct, entries, -, hentries, h⟩ := buildTables_laidOut hn (by omega) hle hmax
  have hlen := h.length.2
  have hbuild := buildDtableInto_eq hn (by omega) hmax (show 2 ^ tableLog ≤ dt.entries.length by omega)
  unfold buildDtable at hbuild
  rw [hentries] at hbuild
  refine ⟨_, hbuild, rfl, ?_, fun symbol => ?_, ?_, fun reads state hstate => ?_⟩
  · simp only [List.length_append, List.length_drop]
    omega
  · simp only
    rw [← hlen, List.take_left, h.symbols, h.full]
    rfl
  · simp only
    rw [← hlen, List.take_left]
    exact h.transitions
  · refine Transitions.stateAfter_lt ?_ ?_ reads hstate
    · simp only
      rw [← hlen, List.take_left]
      exact h.transitions
    · simp only [List.length_append]
      omega

include hn hlog hle hmax in
/-- The direct builders make, entry for entry, what `build_dtable` and the embedding make of it. -/
theorem buildDirectInto_fused (embed : DecodeEntry → SequenceDecodeEntry) {dt : DTable} {out : SequenceDTable}
    (hdt : dt.entries.length = tablesizeMax) (hout : out.entries.length = tablesizeMax) :
    (buildDtableInto dt normalizedCounter maxSymbolValue tableLog).map (copyEntries embed · out) =
      buildDirectInto embed out normalizedCounter maxSymbolValue tableLog := by
  unfold minTablelog at hlog
  have hroom : 2 ^ tableLog ≤ tablesizeMax := Nat.pow_le_pow_right (by norm_num) hle
  obtain ⟨slots, ct, entries, -, hentries, h⟩ := buildTables_laidOut hn (by omega) hle hmax
  have hbuild := buildDtableInto_eq hn (by omega) hmax (show 2 ^ tableLog ≤ dt.entries.length by omega)
  unfold buildDtable at hbuild
  rw [hentries] at hbuild
  rw [hbuild, buildDirectInto_eq hn (by omega) hmax hle embed (by omega), hentries]
  simp only [ok_bind, Except.map, copyEntries]
  rw [if_neg (by omega), ← h.length.2, List.take_left]

include hn hlog hle hmax in
/-- The decode tables of a valid distribution: the spread visits every slot that is not reserved once and
comes back, the entries of each symbol partition the states, and the direct builders of the sequence tables
agree with the two builders that they fuse. The tables in use before do not matter. -/
theorem decodeTables_sound :
    SpreadsOnce normalizedCounter maxSymbolValue tableLog
        (2 ^ tableLog - (lowSymbols (normalizedCounter.take (maxSymbolValue + 1)).zipIdx).length)
        (normalizedCounter.take (maxSymbolValue + 1)).zipIdx ∧
      ∀ (dt : DTable), dt.entries.length = tablesizeMax →
        (∃ table, buildDtableInto dt normalizedCounter maxSymbolValue tableLog = .ok table ∧
          table.Sound normalizedCounter maxSymbolValue tableLog) ∧
        ∀ (out : SequenceDTable), out.entries.length = tablesizeMax →
          (∀ baselines extraBits, (buildDtableInto dt normalizedCounter maxSymbolValue tableLog).map
              (buildSequenceDtableFromInto · baselines extraBits out) =
            buildSequenceDtableDirectInto out normalizedCounter maxSymbolValue tableLog baselines extraBits) ∧
          (buildDtableInto dt normalizedCounter maxSymbolValue tableLog).map
              (buildOffsetSequenceDtableFromInto · out) =
            buildOffsetSequenceDtableDirectInto out normalizedCounter maxSymbolValue tableLog := by
  refine ⟨spreadsOnce hn hlog, fun dt hdt => ⟨buildDtableInto_sound hn hlog hle hmax hdt, fun out hout => ⟨?_, ?_⟩⟩⟩
  · intro baselines extraBits
    exact buildDirectInto_fused hn hlog hle hmax _ hdt hout
  · exact buildDirectInto_fused hn hlog hle hmax _ hdt hout

end

/-- A distribution with two symbols of probability "less than one". -/
theorem decodeTables_sound_small :
    SpreadsOnce [20, 10, -1, -1] 3 5 30 ([20, 10, -1, -1] : List Int).zipIdx ∧
      ∃ table, buildDtableInto { tableLog := 0, fastMode := false, entries := List.replicate tablesizeMax default }
        [20, 10, -1, -1] 3 5 = .ok table ∧ table.Sound [20, 10, -1, -1] 3 5 := by
  have hn : Normalized [20, 10, -1, -1] 3 5 := ⟨by decide, by decide, by decide⟩
  have hall := decodeTables_sound hn (by decide) (by decide) (by decide)
  exact ⟨hall.1, (hall.2 _ List.length_replicate).1⟩

end Fse

end Zstandard
