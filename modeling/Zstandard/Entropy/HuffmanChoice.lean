/-
Which table the streams of a block are written with: a new one, described in front of them, or the one before it.

What comes out is spelled by the table that is handed back. A new table is described in front of its streams, unless the
streams of the previous one were tried first: a refused try has written over the description, and only a block of four
streams that saves next to nothing can come out so.
-/
import Zstandard.Entropy.Histogram
import Zstandard.Entropy.HuffmanStreams
import Zstandard.Entropy.HuffmanTable

namespace Zstandard

open Hist

namespace Huff0

/-- `TableDepth`: whether the depth of a table is estimated or searched. -/
inductive TableDepth where
  | estimated | searched
deriving DecidableEq, Repr

/-- `Compressibility`: whether a sample is looked at first. -/
inductive Compressibility where
  | unknown | suspect
deriving DecidableEq, Repr

def blocksizeMax : Nat := 128 * 1024

def suspectIncompressibleSampleSize : Nat := 4096

def suspectIncompressibleSampleRatio : Nat := 10

/-- Room for the streams of any table. -/
def compressBound (size : Nat) : Nat := 129 + size + size >>> 8 + 8

/-! ## Estimates -/

/-- `looks_incompressible_from_sample`, and the counters it leaves. -/
def looksIncompressibleFromSample (src : Bytes) (count : List Nat) : Bool × List Nat :=
  if src.length < suspectIncompressibleSampleSize * suspectIncompressibleSampleRatio then (false, count)
  else
    let first := countSimple count symbolvalueMax (src.take suspectIncompressibleSampleSize)
    let last := countSimple first.count symbolvalueMax (src.drop (src.length - suspectIncompressibleSampleSize))
    (decide (first.largest + last.largest ≤ (2 * suspectIncompressibleSampleSize) >>> 7 + 4), last.count)

/-- `estimate_compressed_size`: the bytes of the codes alone. -/
def estimateCompressedSize (ctable : List CElt) (count : List Nat) (maxSymbolValue : Nat) : Nat :=
  ((List.range (maxSymbolValue + 1)).map fun symbol =>
    (ctable.getD symbol default).nbBits * count.getD symbol 0).sum >>> 3

/-- `optimal_table_log`. -/
def optimalTableLog (maxTableLog srcSize maxSymbolValue : Nat) : Result Nat :=
  if srcSize ≤ 1 ∨ maxSymbolValue = 0 then .error .generic
  else
    let maxBitsSrc := highbit32 ((srcSize - 1) % 2 ^ 32) - 1
    let minBits := min (highbit32 (srcSize % 2 ^ 32) + 1) (highbit32 maxSymbolValue + 2)
    let tableLog := if maxBitsSrc < maxTableLog then maxBitsSrc else maxTableLog
    let tableLog := if minBits > tableLog then minBits else tableLog
    .ok (max 5 (min tableLog tablelogMax))

/-- The loop of `optimal_table_log_search`: the guesses that are left, with the best size so far and its log. Every
guess builds its table over the one before. -/
def searchTableLog (count : List Nat) (maxSymbolValue minTableLog : Nat) : List Nat → Nat → Nat → Nat
  | [], _, optLog => optLog
  | logGuess :: guesses, optSize, optLog =>
    match buildCtableFromCounts (List.replicate (symbolvalueMax + 1) default) count maxSymbolValue logGuess with
    | .error _ => searchTableLog count maxSymbolValue minTableLog guesses optSize optLog
    | .ok (maxBits, ctable) =>
      if maxBits < logGuess ∧ logGuess > minTableLog then optLog
      else
        match writeCtable (List.replicate 256 0) ctable maxSymbolValue maxBits with
        | .error _ => searchTableLog count maxSymbolValue minTableLog guesses optSize optLog
        | .ok (headerSize, _) =>
          let newSize := estimateCompressedSize ctable count maxSymbolValue + headerSize
          if newSize > optSize + 1 then optLog
          else if newSize < optSize then searchTableLog count maxSymbolValue minTableLog guesses newSize logGuess
          else searchTableLog count maxSymbolValue minTableLog guesses optSize optLog

/-- `optimal_table_log_search`: every depth from the shortest that has a code for each symbol. -/
def optimalTableLogSearch (maxTableLog : Nat) (count : List Nat) (maxSymbolValue : Nat) : Nat :=
  let cardinality := (count.take (maxSymbolValue + 1)).countP (0 < ·)
  let minTableLog := if cardinality = 0 then 1 else highbit32 cardinality + 1
  searchTableLog count maxSymbolValue minTableLog (List.range' minTableLog (maxTableLog + 1 - minTableLog)) (2 ^ 64 - 2)
    maxTableLog

/-- Whether the table has a code for every symbol that occurs. -/
def tableCoversCountedSymbols (table : CTableX1) (count : List Nat) (maxSymbolValue : Nat) : Bool :=
  (List.range (maxSymbolValue + 1)).all fun symbol =>
    count.getD symbol 0 = 0 || (table.entries.getD symbol default).nbBits ≠ 0

/-! ## The choice -/

/-- What a block leaves for the next one to write over. -/
structure CompressWorkspace where
  count : List Nat := List.replicate (symbolvalueMax + 1) 0
  ctable : List CElt := List.replicate (symbolvalueMax + 1) default

/-- What is handed back: the bytes written, and the table they are for. -/
structure PreferredTableCompression where
  written : Nat
  reusedTable : Bool
  table : CTableX1

/-- The sample is taken only of what is suspect. -/
def sampled (src : Bytes) (compressibility : Compressibility) (count : List Nat) : Bool × List Nat :=
  match compressibility with
  | .unknown => (false, count)
  | .suspect => looksIncompressibleFromSample src count

/-- The histogram of a block. -/
def literalHistogram (count : List Nat) (src : Bytes) : Result Histogram :=
  match countWksp count symbolvalueMax src with
  | none => .error .generic
  | some r => r

/-- The depth of the new table. -/
def chooseTableLog (tableDepth : TableDepth) (srcSize : Nat) (count : List Nat) (maxSymbolValue : Nat) : Result Nat :=
  match tableDepth with
  | .estimated => optimalTableLog tablelogDefault srcSize maxSymbolValue
  | .searched => .ok (optimalTableLogSearch tablelogDefault count maxSymbolValue)

/-- The table of the counts, with nothing behind the largest symbol. -/
def tableOfCounts (ctable : List CElt) (count : List Nat) (maxSymbolValue huffLog : Nat) : Result CTableX1 := do
  let (tableLog, ctable) ← buildCtableFromCounts ctable count maxSymbolValue huffLog
  .ok { tableLog, entries := ctable.take (maxSymbolValue + 1) ++
    List.replicate (ctable.length - (maxSymbolValue + 1)) default }

/-- The description, where there is one. What a description that failed has written is overwritten or left behind the
result. -/
def writeHeader (dst : Bytes) (table : CTableX1) (maxSymbolValue : Nat) : Result (Option Nat × Bytes) :=
  match writeCtable dst table.entries maxSymbolValue table.tableLog with
  | .ok (size, dst) => .ok (some size, dst)
  | .error .generic => .ok (none, dst)
  | .error e => .error e

/-- Whether the previous table is estimated to give no more bytes than the new one with its description. -/
def previousLooksBetter (previous table : CTableX1) (count : List Nat) (maxSymbolValue : Nat) (headerSize : Option Nat)
    (srcSize : Nat) : Bool :=
  match headerSize with
  | none => true
  | some headerSize =>
    decide (estimateCompressedSize previous.entries count maxSymbolValue ≤
      headerSize + estimateCompressedSize table.entries count maxSymbolValue ∨ headerSize + 12 ≥ srcSize)

/-- The streams of the previous table, if they are worth it, in front of the destination. -/
def compressWithPrevious (dst src : Bytes) (previous : CTableX1) (streamMode : StreamMode) :
    Result (Option PreferredTableCompression × Bytes) := do
  let (written, dst) ← compressUsingCtableMode dst src previous.ctable previous.tableLog streamMode
  if written ≠ 0 ∧ written < src.length - 1 then .ok (some { written, reusedTable := true, table := previous }, dst)
  else .ok (none, dst)

/-- The streams of the new table, if they are worth it, behind its description. -/
def compressWithNew (dst src : Bytes) (table : CTableX1) (headerSize : Option Nat) (streamMode : StreamMode) :
    Result (Option PreferredTableCompression × Bytes) :=
  match headerSize with
  | none => .ok (none, dst)
  | some headerSize =>
    if headerSize + 12 ≥ src.length then .ok (none, dst)
    else if headerSize > dst.length then .error .generic else do
    let (compressedSize, rest) ← compressUsingCtableMode (dst.drop headerSize) src table.ctable
      table.tableLog streamMode
    let dst := dst.take headerSize ++ rest
    if compressedSize = 0 ∨ headerSize + compressedSize ≥ src.length - 1 then .ok (none, dst)
    else .ok (some { written := headerSize + compressedSize, reusedTable := false, table }, dst)

/-- The previous table first, where it has a code for every symbol and looks better. -/
def considerPrevious (dst src : Bytes) (previous : Option CTableX1) (table : CTableX1) (count : List Nat)
    (maxSymbolValue : Nat) (headerSize : Option Nat) (streamMode : StreamMode) :
    Result (Option PreferredTableCompression × Bytes) :=
  match previous.filter fun previous => tableCoversCountedSymbols previous count maxSymbolValue with
  | none => .ok (none, dst)
  | some previous =>
    if previousLooksBetter previous table count maxSymbolValue headerSize src.length then
      compressWithPrevious dst src previous streamMode
    else .ok (none, dst)

/-- `compress_prefer_existing_table_into_mode`: the choice, with what the destination and the workspace then hold. -/
def compressPreferExistingTableIntoMode (dst src : Bytes) (previous : Option CTableX1) (streamMode : StreamMode)
    (tableDepth : TableDepth) (compressibility : Compressibility) (workspace : CompressWorkspace) :
    Result (Option PreferredTableCompression × Bytes × CompressWorkspace) :=
  if src.isEmpty ∨ dst.isEmpty then .ok (none, dst, workspace)
  else if src.length > blocksizeMax then .error .srcSizeWrong
  else
    let sample := sampled src compressibility workspace.count
    if sample.1 then .ok (none, dst, { workspace with count := sample.2 }) else do
    let h ← literalHistogram sample.2 src
    if h.largest = src.length ∨ h.largest ≤ src.length >>> 7 + 4 then
      .ok (none, dst, { workspace with count := h.count })
    else do
    let huffLog ← chooseTableLog tableDepth src.length h.count h.maxSymbolValue
    let table ← tableOfCounts workspace.ctable h.count h.maxSymbolValue huffLog
    let (headerSize, dst) ← writeHeader dst table h.maxSymbolValue
    let (reused, dst) ← considerPrevious dst src previous table h.count h.maxSymbolValue headerSize streamMode
    if reused.isSome then .ok (reused, dst, ⟨h.count, table.entries⟩) else do
    let (choice, dst) ← compressWithNew dst src table headerSize streamMode
    .ok (choice, dst, ⟨h.count, table.entries⟩)

/-! ## The log of a new table -/

theorem optimalTableLog_le {maxTableLog srcSize m log : Nat} (hmax : 9 ≤ maxTableLog) (hm : m ≤ symbolvalueMax)
    (h : optimalTableLog maxTableLog srcSize m = .ok log) : 1 ≤ log ∧ log ≤ maxTableLog := by
  unfold optimalTableLog at h
  split at h
  · cases h
  rename_i hsrc
  have hsymbols : highbit32 m ≤ 7 := Nat.lt_succ_iff.1 ((Nat.log2_lt (by omega)).2 (by
    unfold symbolvalueMax at hm
    omega))
  have hmin : min (highbit32 (srcSize % 2 ^ 32) + 1) (highbit32 m + 2) ≤ maxTableLog :=
    (Nat.min_le_right _ _).trans (by omega)
  generalize min (highbit32 (srcSize % 2 ^ 32) + 1) (highbit32 m + 2) = minBits at h hmin
  generalize highbit32 ((srcSize - 1) % 2 ^ 32) - 1 = maxBitsSrc at h
  dsimp only at h
  have hlog := Except.ok.inj h
  split at hlog
  · split at hlog <;> omega
  · split at hlog <;> omega

/-- A guess is kept only if it is one of those tried. -/
theorem searchTableLog_mem (count : List Nat) (m minTableLog : Nat) : ∀ (guesses : List Nat) (optSize optLog : Nat),
    searchTableLog count m minTableLog guesses optSize optLog = optLog ∨
      searchTableLog count m minTableLog guesses optSize optLog ∈ guesses
  | [], _, _ => .inl rfl
  | logGuess :: guesses, optSize, optLog => by
    have hrest := fun size => (searchTableLog_mem count m minTableLog guesses size optLog).imp_right
      (List.mem_cons_of_mem logGuess)
    unfold searchTableLog
    split
    · exact hrest optSize
    split
    · exact .inl rfl
    split
    · exact hrest optSize
    dsimp only
    split
    · exact .inl rfl
    split
    · rcases searchTableLog_mem count m minTableLog guesses _ logGuess with h | h
      · rw [h]
        exact .inr List.mem_cons_self
      · exact .inr (List.mem_cons_of_mem _ h)
    · exact hrest optSize

theorem optimalTableLogSearch_le {maxTableLog : Nat} (hmax : 1 ≤ maxTableLog) (count : List Nat) (m : Nat) :
    1 ≤ optimalTableLogSearch maxTableLog count m ∧ optimalTableLogSearch maxTableLog count m ≤ maxTableLog := by
  unfold optimalTableLogSearch
  dsimp only
  have hmin : 1 ≤ if (count.take (m + 1)).countP (0 < ·) = 0 then 1 else
      highbit32 ((count.take (m + 1)).countP (0 < ·)) + 1 := by
    split <;> omega
  generalize (if (count.take (m + 1)).countP (0 < ·) = 0 then 1 else
      highbit32 ((count.take (m + 1)).countP (0 < ·)) + 1) = minTableLog at hmin
  rcases searchTableLog_mem count m minTableLog (List.range' minTableLog (maxTableLog + 1 - minTableLog)) (2 ^ 64 - 2)
    maxTableLog with h | h
  · rw [h]
    exact ⟨hmax, le_rfl⟩
  · obtain ⟨hlow, hhigh⟩ := List.mem_range'_1.1 h
    omega

/-- A new table is never deeper than the default. -/
theorem chooseTableLog_le {tableDepth : TableDepth} {srcSize m log : Nat} {count : List Nat} (hm : m ≤ symbolvalueMax)
    (h : chooseTableLog tableDepth srcSize count m = .ok log) : 1 ≤ log ∧ log ≤ tablelogDefault := by
  cases tableDepth with
  | estimated => exact optimalTableLog_le (by decide) hm h
  | searched =>
    cases h
    exact optimalTableLogSearch_le (by decide) count m

/-! ## Tables -/

/-- A table of the codes of some weights. -/
def CTableX1.Valid (t : CTableX1) : Prop := ∃ weights, CodesOf weights t.tableLog t.coding ∧ t.tableLog ≤ tablelogMax

theorem CTableX1.coding_nbBits (t : CTableX1) (symbol : UInt8) :
    (t.coding symbol).nbBits = (t.ctable symbol).nbBits := by
  unfold CTableX1.coding
  split
  · rename_i h
    rw [h]
    rfl
  · rfl

theorem CTableX1.coding_packed (t : CTableX1) (symbol : UInt8) :
    (t.coding symbol).packed = (t.ctable symbol).packed := by
  unfold CTableX1.coding CElt.packed
  split
  · rename_i h
    rw [h, if_neg (lt_irrefl 0)]
    exact if_neg (lt_irrefl 0)
  · rfl

/-- The streams of a table are those of its codes. -/
theorem compressUsingCtableMode_coding (dst src : Bytes) (t : CTableX1) (mode : StreamMode) :
    compressUsingCtableMode dst src t.ctable t.tableLog mode =
      compressUsingCtableMode dst src t.coding t.tableLog mode := by
  have hpacked : (fun symbol => (t.ctable symbol).packed) = fun symbol => (t.coding symbol).packed :=
    funext fun symbol => (t.coding_packed symbol).symm
  cases mode with
  | single =>
    show compress1xPacked dst src (fun symbol => (t.ctable symbol).packed) t.tableLog = _
    rw [hpacked]
    rfl
  | four =>
    show compress4xUsingCtable dst src t.ctable t.tableLog = compress4xUsingCtable dst src t.coding t.tableLog
    unfold compress4xUsingCtable
    rw [hpacked]

theorem CodesOf.ok {weights : List Nat} {tableLog : Nat} {ctable : CTable} (h : CodesOf weights tableLog ctable) :
    ctable.Ok tableLog := by
  refine ⟨fun symbol => ?_, h.fits⟩
  rcases Nat.eq_zero_or_pos (ctable symbol).nbBits with hzero | hpos
  · omega
  · obtain ⟨w, k, hw, hle, hk, rfl⟩ := h.exists_select hpos
    rw [h.code_select hw hk]
    show tableLog + 1 - w ≤ tableLog
    omega

/-- What a histogram calls for: a code for each symbol that occurs. -/
theorem coded_of_counts {h : Histogram} {src : Bytes} (hcounts : h.Counts src) {table : CTableX1}
    (hcovers : ∀ s ≤ h.maxSymbolValue, h.count.getD s 0 ≠ 0 → 1 ≤ (table.entries.getD s default).nbBits) :
    ∀ symbol ∈ src, 0 < (table.coding symbol).nbBits := by
  intro symbol hsymbol
  have hpos : 0 < occurrences src symbol.toNat := occurrences_pos_iff.2 ⟨symbol, hsymbol, rfl⟩
  have hle : symbol.toNat ≤ h.maxSymbolValue := by
    by_contra hlt
    rw [hcounts.above _ (not_le.1 hlt)] at hpos
    exact lt_irrefl _ hpos
  rw [table.coding_nbBits]
  refine hcovers _ hle ?_
  have htally : h.count.getD symbol.toNat 0 = occurrences src symbol.toNat := hcounts.count _ hle
  rw [htally]
  omega

/-- The estimate is the size of the codes, rounded down. -/
theorem estimateCompressedSize_eq {h : Histogram} {src : Bytes} (hcounts : h.Counts src) (table : CTableX1) :
    estimateCompressedSize table.entries h.count h.maxSymbolValue = bitsOfSource table.coding src / 8 := by
  have hsum : ∀ (src : Bytes) (n : Nat), (∀ symbol ∈ src, symbol.toNat < n) →
      ((List.range n).map fun s => (table.entries.getD s default).nbBits * occurrences src s).sum =
        bitsOfSource table.coding src := by
    intro src n hsrc
    induction src with
    | nil =>
      simp only [occurrences_nil, mul_zero, List.map_const', List.sum_replicate, smul_eq_mul]
      rfl
    | cons symbol src ih =>
      have hlt := hsrc symbol List.mem_cons_self
      have hone : ((List.range n).map fun s => (table.entries.getD s default).nbBits *
          (if symbol.toNat = s then 1 else 0)).sum = (table.coding symbol).nbBits := by
        rw [table.coding_nbBits, sum_map_range]
        simp only [mul_ite, mul_one, mul_zero]
        rw [Finset.sum_ite_eq, if_pos (Finset.mem_range.2 hlt)]
        rfl
      have hih := ih fun s hs => hsrc s (List.mem_cons_of_mem _ hs)
      unfold bitsOfSource at hih ⊢
      rw [List.map_cons, List.sum_cons, ← hih, ← hone, ← List.sum_map_add]
      refine congrArg List.sum (List.map_congr_left fun s _ => ?_)
      rw [occurrences_cons]
      ring
  have hbelow : ∀ symbol ∈ src, symbol.toNat < h.maxSymbolValue + 1 := by
    intro symbol hsymbol
    have hpos : 0 < occurrences src symbol.toNat := occurrences_pos_iff.2 ⟨symbol, hsymbol, rfl⟩
    by_contra hlt
    rw [hcounts.above _ (by omega)] at hpos
    exact lt_irrefl _ hpos
  unfold estimateCompressedSize
  rw [Nat.shiftRight_eq_div_pow, ← hsum src _ hbelow]
  refine congrArg (· / 8) (congrArg List.sum (List.map_congr_left fun s hs => ?_))
  have htally : h.count.getD s 0 = occurrences src s := hcounts.count _ (Nat.le_of_lt_succ (List.mem_range.1 hs))
  rw [htally]

/-- A description from which a reader has the codes of a table, whatever is behind it. -/
def DescribedBy (table : CTableX1) (description : Bytes) : Prop :=
  ∀ payload, ∃ stats, readStats (description ++ payload) = .ok stats ∧ stats.tableLog = table.tableLog ∧
    stats.size = description.length ∧ CodesOf stats.huffWeight stats.tableLog table.coding

/-- The table of a histogram. -/
structure TableOf (table : CTableX1) (h : Histogram) : Prop where
  length : table.entries.length = symbolvalueMax + 1
  log_lt : table.tableLog < tablelogMax
  built : BuiltFrom table.entries h.count h.maxSymbolValue table.tableLog
  rest : ∀ i, h.maxSymbolValue < i → table.entries.getD i default = default

theorem tableOfCounts_ok {ctable : List CElt} {h : Histogram} {src : Bytes} {huffLog : Nat} {table : CTableX1}
    (hcounts : h.Counts src) (hlen : h.count.length = 256) (hctable : ctable.length = 256)
    (hm : h.maxSymbolValue ≤ symbolvalueMax)
    (hsrc : src.length ≤ blocksizeMax) (hlog : 1 ≤ huffLog ∧ huffLog ≤ tablelogDefault)
    (hok : tableOfCounts ctable h.count h.maxSymbolValue huffLog = .ok table) : TableOf table h := by
  unfold tableOfCounts at hok
  obtain ⟨⟨b, tree⟩, hbuild, hok⟩ := bind_ok hok
  dsimp only at hok
  cases hok
  have hsmall : ∀ c ∈ h.count.take (h.maxSymbolValue + 1), c < 2 ^ 30 := by
    intro c hc
    obtain ⟨i, hi⟩ := List.getElem?_of_mem hc
    rw [List.getElem?_take] at hi
    split at hi
    · rename_i hlt
      have htally : tally h.count i = c := getD_of_some hi
      have hocc := occurrences_le src i
      rw [← hcounts.count i (by omega), htally] at hocc
      have hbound : c ≤ 128 * 1024 := hocc.trans hsrc
      exact lt_of_le_of_lt hbound (by norm_num)
    · cases hi
  unfold symbolvalueMax at hm
  obtain ⟨htree, hbuilt, hle, -⟩ := buildCtableFromCounts_built hbuild (by omega) hsmall
  have hfront : (tree.take (h.maxSymbolValue + 1)).length = h.maxSymbolValue + 1 := by
    rw [List.length_take]
    omega
  have hlogle := (hle (by omega)).trans hlog.2
  refine ⟨?_, ?_, hbuilt.congr fun i hi => ?_, fun i hi => ?_⟩
  · show (tree.take _ ++ _).length = symbolvalueMax + 1
    rw [List.length_append, hfront, List.length_replicate]
    unfold symbolvalueMax
    omega
  · exact Nat.lt_succ_of_le hlogle
  · show (tree.take _ ++ _)[i]? = tree[i]?
    rw [List.getElem?_append_left (by omega), List.getElem?_take_of_lt (by omega)]
  · show (tree.take _ ++ _).getD i default = default
    rw [List.getD_eq_getElem?_getD, List.getElem?_append_right (by omega), List.getElem?_replicate]
    split <;> rfl

namespace TableOf

variable {table : CTableX1} {h : Histogram}

theorem codes (ht : TableOf table h) (hm : h.maxSymbolValue ≤ symbolvalueMax) :
    CodesOf (weightsOf table.entries h.maxSymbolValue table.tableLog) table.tableLog table.coding :=
  ht.built.codes hm ht.rest

theorem valid (ht : TableOf table h) (hm : h.maxSymbolValue ≤ symbolvalueMax) : table.Valid :=
  ⟨_, ht.codes hm, ht.built.log_le⟩

theorem covers (ht : TableOf table h) :
    ∀ s ≤ h.maxSymbolValue, h.count.getD s 0 ≠ 0 → 1 ≤ (table.entries.getD s default).nbBits :=
  fun s hs hcount => ht.built.present s hs hcount

/-- The description of the table. -/
theorem writeHeader_ok (ht : TableOf table h) {src dst out : Bytes} {size : Nat} (hcounts : h.Counts src)
    (hsrc : src ≠ [])
    (hm : h.maxSymbolValue ≤ symbolvalueMax) (hok : writeHeader dst table h.maxSymbolValue = .ok (some size, out))
    (hsize : size ≤ out.length) : DescribedBy table (out.take size) := by
  unfold writeHeader at hok
  split at hok
  · rename_i hwrite
    cases hok
    have hoccurs := hcounts.occurs hsrc
    rw [← hcounts.count _ le_rfl] at hoccurs
    intro payload
    obtain ⟨stats, hread, hweights, hlog, hsz⟩ := writeCtable_reads ht.built hm ht.log_lt
      (ht.covers _ le_rfl hoccurs.ne') hwrite hsize payload
    refine ⟨stats, hread, hlog, ?_, ?_⟩
    · rw [hsz, List.length_take]
      omega
    · rw [hweights, hlog]
      exact ht.codes hm
  · cases hok
  · cases hok

end TableOf

/-! ## What comes out -/

/-- The bytes that stand for some literals: streams of the previous table, or a description and streams of a new one. -/
def PreferredTableCompression.Sound (choice : PreferredTableCompression) (mode : StreamMode)
    (previous : Option CTableX1) (src bytes : Bytes) : Prop :=
  (choice.reusedTable = true → previous = some choice.table ∧ mode.Spelled choice.table.coding bytes src) ∧
    (choice.reusedTable = false → ∃ description payload, bytes = description ++ payload ∧
      DescribedBy choice.table description ∧ mode.Spelled choice.table.coding payload src)

section
variable {dst src out : Bytes} {mode : StreamMode}

/-- A try of the previous table succeeds, or its streams save nothing. -/
theorem compressWithPrevious_ok {previous : CTableX1} {reused : Option PreferredTableCompression}
    (hvalid : previous.Valid)
    (hsrc : src ≠ []) (hcoded : ∀ symbol ∈ src, 0 < (previous.coding symbol).nbBits) (hhigh : src.length ≤ blocksizeMax)
    (hroom : compressBound src.length ≤ dst.length)
    (h : compressWithPrevious dst src previous mode = .ok (reused, out)) :
    (∃ choice, reused = some choice ∧ choice.reusedTable = true ∧ choice.table = previous ∧
      choice.written ≤ out.length ∧
      choice.written < src.length - 1 ∧ 0 < choice.written ∧
      mode.Spelled previous.coding (out.take choice.written) src) ∨
    (reused = none ∧ ((mode = .four → 12 ≤ src.length) → src.length - 1 ≤ mode.bytes previous.coding src)) := by
  obtain ⟨weights, hcodes, hlog⟩ := hvalid
  unfold compressWithPrevious at h
  obtain ⟨⟨written, dst'⟩, hwritten, h⟩ := bind_ok h
  rw [compressUsingCtableMode_coding] at hwritten
  dsimp only at h
  split at h
  · rename_i hworth
    cases h
    obtain ⟨hlen, hle, -, hspelled⟩ := compressUsingCtableMode_spelled hcodes.ok hlog hsrc hcoded hwritten hworth.1
    exact .inl ⟨_, rfl, rfl, rfl, hle.trans hlen.ge, hworth.2, Nat.pos_of_ne_zero hworth.1, hspelled⟩
  · rename_i hrefused
    cases h
    refine .inr ⟨rfl, fun hlow => ?_⟩
    unfold compressBound at hroom
    rcases compressUsingCtableMode_size hcodes.ok hlog hsrc hlow hhigh hcoded hwritten with hsize | ⟨-, htight⟩
    · have hpos : 0 < mode.bytes previous.coding src := by
        cases mode with
        | single => exact Nat.succ_pos _
        | four =>
          show 0 < fourBytes _ _
          unfold fourBytes
          omega
      omega
    · omega

/-- The streams of a new table come behind what is there. -/
theorem compressWithNew_ok {table : CTableX1} {headerSize : Option Nat} {choice : PreferredTableCompression}
    (hvalid : table.Valid) (hsrc : src ≠ []) (hcoded : ∀ symbol ∈ src, 0 < (table.coding symbol).nbBits)
    (h : compressWithNew dst src table headerSize mode = .ok (some choice, out)) :
    ∃ size payload, headerSize = some size ∧ size ≤ dst.length ∧ size + 12 < src.length ∧
      choice = ⟨size + mode.bytes table.coding src, false, table⟩ ∧ out.take choice.written = dst.take size ++ payload ∧
      mode.Spelled table.coding payload src ∧ choice.written ≤ out.length ∧ choice.written < src.length - 1 := by
  obtain ⟨weights, hcodes, hlog⟩ := hvalid
  unfold compressWithNew at h
  split at h
  · cases h
  rename_i size
  split at h
  · cases h
  rename_i hworth
  split at h
  · cases h
  rename_i hfits
  obtain ⟨⟨compressedSize, rest⟩, hwritten, h⟩ := bind_ok h
  rw [compressUsingCtableMode_coding] at hwritten
  dsimp only at h
  split at h
  · cases h
  rename_i hgain
  rw [not_or] at hgain
  cases h
  obtain ⟨hlen, hle, hsize, hspelled⟩ := compressUsingCtableMode_spelled hcodes.ok hlog hsrc hcoded hwritten hgain.1
  rw [List.length_drop] at hle hlen
  have hfront : (dst.take size).length = size := by
    rw [List.length_take]
    omega
  refine ⟨size, rest.take compressedSize, rfl, by omega, by omega, by rw [← hsize], ?_, hspelled, ?_, by
    show size + compressedSize < _
    omega⟩
  · show (dst.take size ++ rest).take (size + compressedSize) = _
    rw [List.take_append, hfront, List.take_of_length_le (by omega), Nat.add_sub_cancel_left]
  · show size + compressedSize ≤ (dst.take size ++ rest).length
    rw [List.length_append, hfront]
    omega

end

/-! ## The workspace -/

/-- Arrays of all symbols. -/
structure CompressWorkspace.Sized (workspace : CompressWorkspace) : Prop where
  count : workspace.count.length = 256
  ctable : workspace.ctable.length = 256

theorem countSimple_sized {count : List Nat} (src : Bytes) (hlen : count.length = 256) :
    (countSimple count symbolvalueMax src).count.length = 256 := by
  have hmax : symbolvalueMax < count.length := by
    unfold symbolvalueMax
    omega
  exact (countSimple_length src hmax).trans hlen

theorem sampled_ok {count : List Nat} (src : Bytes) (compressibility : Compressibility) (hlen : count.length = 256) :
    ∃ suspect count', sampled src compressibility count = (suspect, count') ∧ count'.length = 256 := by
  cases compressibility with
  | unknown => exact ⟨false, count, rfl, hlen⟩
  | suspect =>
    have hfirst := countSimple_sized (src.take suspectIncompressibleSampleSize) hlen
    have hlast := countSimple_sized (src.drop (src.length - suspectIncompressibleSampleSize)) hfirst
    show ∃ suspect count', looksIncompressibleFromSample src count = (suspect, count') ∧ count'.length = 256
    unfold looksIncompressibleFromSample
    split
    · exact ⟨false, count, rfl, hlen⟩
    · exact ⟨_, _, rfl, hlast⟩

theorem literalHistogram_ok {count : List Nat} {src : Bytes} {h : Histogram} (hlen : count.length = 256)
    (hsrc : src ≠ []) (hsize : src.length ≤ blocksizeMax) (hok : literalHistogram count src = .ok h) :
    h.Counts src ∧ h.count.length = 256 ∧ h.maxSymbolValue ≤ symbolvalueMax := by
  obtain ⟨h', heq, hcounts, hlength⟩ := countWksp_counts hlen (lt_of_le_of_lt hsize (by
    unfold blocksizeMax
    norm_num))
  unfold literalHistogram at hok
  rw [show symbolvalueMax = 255 from rfl, heq] at hok
  cases hok
  refine ⟨hcounts, hlength, ?_⟩
  obtain ⟨byte, -, hbyte⟩ := occurrences_pos_iff.1 (hcounts.occurs hsrc)
  have := byte.toNat_lt
  unfold symbolvalueMax
  omega

/-- The previous table was left alone, or it was tried because it looked better. -/
theorem considerPrevious_ok {dst src out : Bytes} {previous : Option CTableX1} {table : CTableX1}
    {count : List Nat} {m : Nat}
    {headerSize : Option Nat} {mode : StreamMode} {reused : Option PreferredTableCompression}
    (h : considerPrevious dst src previous table count m headerSize mode = .ok (reused, out)) :
    (reused = none ∧ out = dst) ∨
      ∃ t, previous = some t ∧ tableCoversCountedSymbols t count m = true ∧
        previousLooksBetter t table count m headerSize src.length = true ∧
        compressWithPrevious dst src t mode = .ok (reused, out) := by
  unfold considerPrevious at h
  split at h
  · cases h
    exact .inl ⟨rfl, rfl⟩
  · rename_i t hfilter
    obtain ⟨hprevious, hcovers⟩ := Option.filter_eq_some_iff.1 hfilter
    split at h
    · rename_i hbetter
      exact .inr ⟨t, hprevious, hcovers, hbetter, h⟩
    · cases h
      exact .inl ⟨rfl, rfl⟩

theorem tableCovers_spec {table : CTableX1} {count : List Nat} {m : Nat}
    (h : tableCoversCountedSymbols table count m = true) :
    ∀ s ≤ m, count.getD s 0 ≠ 0 → 1 ≤ (table.entries.getD s default).nbBits := by
  intro s hs hcount
  have hat := List.all_eq_true.1 h s (List.mem_range.2 (Nat.lt_succ_of_le hs))
  rw [Bool.or_eq_true, decide_eq_true_eq, decide_eq_true_eq] at hat
  exact Nat.one_le_iff_ne_zero.2 (hat.resolve_left hcount)

theorem writeHeader_length {dst out : Bytes} {table : CTableX1} {m : Nat} {headerSize : Option Nat}
    (h : writeHeader dst table m = .ok (headerSize, out)) : out.length = dst.length := by
  unfold writeHeader at h
  split at h
  · rename_i hwrite
    cases h
    exact writeCtable_length hwrite
  · cases h
    rfl
  · cases h

/-- What is handed back stands for the literals, save where a refused try of the previous table has spoilt the
description: then the four streams save four bytes at most. -/
theorem compressPreferExistingTableIntoMode_ok {dst src out : Bytes} {previous : Option CTableX1} {mode : StreamMode}
    {tableDepth : TableDepth} {compressibility : Compressibility} {workspace workspace' : CompressWorkspace}
    {choice : Option PreferredTableCompression} (hprevious : ∀ t, previous = some t → t.Valid)
    (hroom : compressBound src.length ≤ dst.length) (hsized : workspace.Sized)
    (h : compressPreferExistingTableIntoMode dst src previous mode tableDepth compressibility workspace =
      .ok (choice, out, workspace')) :
    workspace'.Sized ∧ ∀ c, choice = some c → c.table.Valid ∧ c.written ≤ out.length ∧ c.written < src.length - 1 ∧
      (c.Sound mode previous src (out.take c.written) ∨
        c.reusedTable = false ∧ previous ≠ none ∧ mode = .four ∧ src.length ≤ c.written + 4) := by
  unfold compressPreferExistingTableIntoMode at h
  split at h
  · cases h
    exact ⟨hsized, nofun⟩
  rename_i hempty
  rw [not_or, List.isEmpty_iff] at hempty
  have hsrc := hempty.1
  split at h
  · cases h
  rename_i hsize
  rw [not_lt] at hsize
  obtain ⟨suspect, count, hsampled, hsample⟩ := sampled_ok src compressibility hsized.count
  rw [hsampled] at h
  dsimp only at h
  split at h
  · cases h
    exact ⟨⟨hsample, hsized.ctable⟩, nofun⟩
  obtain ⟨hist, hhist, h⟩ := bind_ok h
  obtain ⟨hcounts, hlen, hm⟩ := literalHistogram_ok hsample hsrc hsize hhist
  split at h
  · cases h
    exact ⟨⟨hlen, hsized.ctable⟩, nofun⟩
  obtain ⟨huffLog, hlog, h⟩ := bind_ok h
  obtain ⟨table, htable, h⟩ := bind_ok h
  have ht := tableOfCounts_ok hcounts hlen hsized.ctable hm hsize (chooseTableLog_le hm hlog) htable
  obtain ⟨⟨headerSize, dst1⟩, hheader, h⟩ := bind_ok h
  dsimp only at h
  have hdst1 := writeHeader_length hheader
  obtain ⟨⟨reused, dst2⟩, hreused, h⟩ := bind_ok h
  dsimp only at h
  have hsized' : CompressWorkspace.Sized ⟨hist.count, table.entries⟩ := ⟨hlen, ht.length⟩
  have hcoded := coded_of_counts hcounts ht.covers
  split at h
  · -- The streams of the previous table.
    rename_i hsome
    cases h
    refine ⟨hsized', fun c hc => ?_⟩
    subst hc
    rcases considerPrevious_ok hreused with ⟨hnone, -⟩ | ⟨t, hprev, hcovers, -, htry⟩
    · exact absurd hnone (by simp)
    have hvalid := hprevious t hprev
    have hcodedPrevious := coded_of_counts hcounts (tableCovers_spec hcovers)
    rcases compressWithPrevious_ok hvalid hsrc hcodedPrevious hsize (hroom.trans hdst1.ge) htry with
      ⟨c', hc', hreusedTable, htableEq, hle, hlt, -, hspelled⟩ | ⟨hnone, -⟩
    · cases hc'
      refine ⟨htableEq ▸ hvalid, hle, hlt, .inl ⟨fun _ => ?_, fun hfresh => ?_⟩⟩
      · rw [htableEq]
        exact ⟨hprev, hspelled⟩
      · rw [hreusedTable] at hfresh
        cases hfresh
    · cases hnone
  rename_i hnone
  obtain ⟨⟨choice', dst3⟩, hnew, h⟩ := bind_ok h
  cases h
  refine ⟨hsized', fun c hc => ?_⟩
  subst hc
  have hvalid := ht.valid hm
  obtain ⟨size, payload, rfl, hfits, hheaderSmall, rfl, htake, hspelled, hle, hlt⟩ :=
    compressWithNew_ok hvalid hsrc hcoded hnew
  refine ⟨hvalid, hle, hlt, ?_⟩
  have hsound : dst2 = dst1 → PreferredTableCompression.Sound
    ⟨size + mode.bytes table.coding src, false, table⟩ mode previous src
      (dst3.take (size + mode.bytes table.coding src)) := by
    rintro rfl
    refine ⟨nofun, fun _ => ⟨_, payload, htake, ?_, hspelled⟩⟩
    exact ht.writeHeader_ok hcounts hsrc hm hheader hfits
  rcases considerPrevious_ok hreused with ⟨-, hsame⟩ | ⟨t, hprev, hcovers, hbetter, htry⟩
  · exact .inl (hsound hsame)
  -- A try was refused, so the streams of the previous table save nothing, and they are estimated to be the smaller
  -- ones.
  rcases compressWithPrevious_ok (hprevious t hprev) hsrc (coded_of_counts hcounts (tableCovers_spec hcovers)) hsize
    (hroom.trans hdst1.ge) htry with ⟨c', hc', -⟩ | ⟨-, hworse⟩
  · rw [hc'] at hnone
    exact absurd rfl hnone
  have hworse := hworse fun _ => by omega
  unfold previousLooksBetter at hbetter
  dsimp only at hbetter
  rw [decide_eq_true_eq, estimateCompressedSize_eq hcounts, estimateCompressedSize_eq hcounts] at hbetter
  have hestimate := hbetter.resolve_right (by omega)
  dsimp only at hlt ⊢
  cases mode with
  | single =>
    simp only [StreamMode.bytes] at hworse hlt
    omega
  | four =>
    have hnew4 := fourBytes_bounds table.coding src
    have hold4 := fourBytes_bounds t.coding src
    simp only [StreamMode.bytes] at hworse ⊢
    refine .inr ⟨trivial, ?_, trivial, by omega⟩
    rw [hprev]
    exact Option.some_ne_none t

end Huff0

end Zstandard
