/-
What the decoder makes of the encoder's table choices.

The tables of the two sides agree when they are of one code (`SequencePart.Agree`), and what the sides keep of a part is
in step when the decoder has, of every table that the encoder may repeat, one that agrees with it. Each way to choose a
table is judged by what the decoder sets up behind its header (`SequenceTableChoice.Reads`).
-/
import Zstandard.Encode.SequenceSection
import Zstandard.Decode.SharedTables

namespace Zstandard

open Fse Hist

/-! ## Tables of one code -/

/-- The tables of the two sides are of one code that has all of `symbols`, and the encoder's can encode it. -/
structure SequencePart.Agree (part : SequencePart) (ct : CTable) (t : SequenceDTable) (symbols : Nat → Prop) :
    Prop where
  pairs : part.Pairs ct t symbols
  encodes : ∀ {codes : Bytes}, (∀ code ∈ codes, symbols code.toNat) → ct.Encodes codes

theorem SequencePart.Agree.mono {part : SequencePart} {ct : CTable} {t : SequenceDTable} {symbols symbols' : Nat → Prop}
    (h : part.Agree ct t symbols) (hsymbols : ∀ s, symbols' s → symbols s) : part.Agree ct t symbols' :=
  ⟨h.pairs.mono hsymbols, fun hcodes => h.encodes fun code hcode => hsymbols _ (hcodes code hcode)⟩

theorem Fse.Dual.agree (part : SequencePart) {tableLog : Nat} {states : Nat → Prop} {share : Nat → Nat} {ct : CTable}
    {entries : List DecodeEntry} (h : Dual tableLog states share ct entries) (hlog : tableLog ≤ tablelogMax) :
    part.Agree ct { tableLog, entries := entries.map part.entry } (share · ≠ 0) :=
  ⟨h.pairs, h.encodes hlog⟩

/-- What the encoder may repeat of a part, the decoder has. -/
def SequencePart.InStep (part : SequencePart) (entry : Option SequenceEncodingPartState) (slot : SequenceTableSlot) :
    Prop :=
  ∀ e, entry = some e → e.repeatMode ≠ .none → slot.has = true ∧ ∃ slot', setupSlot part slot = .ok slot' ∧
    part.Agree e.table.table slot'.seq fun symbol => e.table.supportedSymbols.getD symbol false = true

theorem SequencePart.inStep_none (part : SequencePart) (slot : SequenceTableSlot) : part.InStep none slot :=
  fun _ h => nomatch h

/-- A slot that has been set up stays as it is. -/
theorem setupSlot_done {part : SequencePart} {slot slot' : SequenceTableSlot} (h : setupSlot part slot = .ok slot') :
    slot'.has = true ∧ setupSlot part slot' = .ok slot' := by
  unfold setupSlot at h
  split at h
  · split at h
    · cases h
      exact ⟨rfl, rfl⟩
    · cases h
  · split at h
    · rename_i hclean hhas
      cases h
      refine ⟨hhas, ?_⟩
      unfold setupSlot
      rw [if_neg hclean, if_pos hhas]
    · cases h

/-- Behind the header of a choice the decoder sets up a table that agrees with the encoder's over the block's codes, and
the two are in step for the next block. -/
def SequenceTableChoice.Reads (choice : SequenceTableChoice) (part : SequencePart) (codes : Bytes)
    (slot : SequenceTableSlot) : Prop :=
  ∀ (payload : Bytes) (target : TableTarget), payload ≠ [] → ∃ parsed slot',
    decodeSeqTableBoth part choice.mode target (choice.header ++ payload) slot = .ok (parsed, choice.header.length) ∧
      setupSlot part parsed = .ok slot' ∧
      part.Agree choice.encoding.table slot'.seq (fun symbol => ∃ code ∈ codes, code.toNat = symbol) ∧
      part.InStep choice.intoPartState slot'

theorem SequenceTableChoice.Reads.encodes {choice : SequenceTableChoice} {part : SequencePart} {codes : Bytes}
    {slot : SequenceTableSlot} (h : choice.Reads part codes slot) : choice.encoding.table.Encodes codes := by
  obtain ⟨_, _, -, -, hagree, -⟩ := h [0] .sequenceOnly (List.cons_ne_nil _ _)
  exact hagree.encodes fun code hcode => ⟨code, hcode, rfl⟩

/-! ## Predefined, of one symbol, repeated -/

theorem TableTarget.slot_of_entries (target : TableTarget) {counts : List Int} {maxSymbolValue tableLog : Nat}
    {entries : List DecodeEntry} (h : buildEntries counts maxSymbolValue tableLog = .ok entries) :
    ∃ dtable, target.slot (buildDtable counts maxSymbolValue tableLog) = .ok dtable := by
  unfold buildDtable
  rw [h]
  cases target with
  | sequenceOnly => exact ⟨_, rfl⟩
  | both => exact ⟨_, rfl⟩

theorem SequencePart.buildSequenceDtable_of_entries (part : SequencePart) {counts : List Int}
    {maxSymbolValue tableLog : Nat} {entries : List DecodeEntry}
    (h : buildEntries counts maxSymbolValue tableLog = .ok entries) :
    part.buildSequenceDtable counts maxSymbolValue tableLog = .ok { tableLog, entries := entries.map part.entry } := by
  cases part with
  | literalLength => unfold buildSequenceDtable buildSequenceDtableDirect; rw [h]; rfl
  | offset => unfold buildSequenceDtable buildOffsetSequenceDtableDirect; rw [h]; rfl
  | matchLength => unfold buildSequenceDtable buildSequenceDtableDirect; rw [h]; rfl

/-- Every symbol that the format's distribution has is below its length, and has a share. -/
theorem SequencePart.default_share (part : SequencePart) :
    ∀ symbol ≤ part.defaultMaxSymbol,
      shareOf part.defaultDistribution.1 (part.defaultDistribution.1.length - 1) symbol ≠ 0 := by
  cases part <;> decide

theorem buildPredefinedTableChoice_reads {part : SequencePart} {codes : Bytes} {slot : SequenceTableSlot}
    {choice : SequenceTableChoice} (hcodes : ∀ code ∈ codes, code.toNat ≤ part.defaultMaxSymbol)
    (h : buildPredefinedTableChoice part = .ok choice) : choice.Reads part codes slot := by
  obtain ⟨hn, hlog, hle, hmax⟩ := part.defaultDistribution_normalized
  obtain ⟨ct, entries, hct, hentries, hdual⟩ := buildTables_dual hn (le_trans (by decide) hlog) hle hmax
  unfold buildPredefinedTableChoice at h
  dsimp only at h
  rw [hct, ok_bind] at h
  cases h
  intro payload target _
  obtain ⟨dtable, hdtable⟩ := target.slot_of_entries hentries
  let slot' : SequenceTableSlot :=
    { dtable, seq := { tableLog := part.defaultDistribution.2, entries := entries.map part.entry },
      dirty := false, has := true }
  refine ⟨slot', slot', ?_, rfl, (hdual.agree part hle).mono ?_, part.inStep_none _⟩
  · unfold decodeSeqTableBoth
    dsimp only
    rw [hdtable, ok_bind, part.buildSequenceDtable_of_entries hentries, ok_bind]
    rfl
  · rintro _ ⟨code, hcode, rfl⟩
    exact part.default_share _ (hcodes code hcode)

theorem buildRleCtable_state (symbol : UInt8) : initCstate2 (buildRleCtable symbol) symbol.toNat = .ok 0 ∧
    encodeState (buildRleCtable symbol) 0 symbol.toNat = .ok (0, 0) := by
  have htransform : (buildRleCtable symbol).symbolTt.getD symbol.toNat default = ⟨0, 0⟩ := by
    have hlt : symbol.toNat < symbolvalueMax + 1 := symbol.toNat_lt
    unfold buildRleCtable
    rw [List.getD_eq_getElem _ _ (by rwa [List.length_replicate]), List.getElem_replicate]
    rfl
  have hstate : (buildRleCtable symbol).stateAt 0 = .ok 0 := rfl
  constructor
  · unfold initCstate2
    rw [if_neg (show ¬ symbol.toNat > (buildRleCtable symbol).maxSymbolValue from lt_irrefl _), htransform]
    exact hstate
  · unfold encodeState
    rw [if_neg (show ¬ symbol.toNat > (buildRleCtable symbol).maxSymbolValue from lt_irrefl _), htransform]
    dsimp only
    rw [show (((0 : Nat) >>> ((0 + 0) >>> 16) : Nat) : Int) + 0 = 0 from rfl, hstate, ok_bind]
    rfl

/-- The tables of one symbol are dual. -/
theorem buildRleTables_dual (symbol : UInt8) :
    Dual 0 (· = 0) (fun s => if s = symbol.toNat then 1 else 0) (buildRleCtable symbol)
      (buildRleDtable symbol.toNat).entries := by
  obtain ⟨hinit, hstep⟩ := buildRleCtable_state symbol
  refine ⟨rfl, ?_, ?_, ?_⟩
  · rintro s value hs rfl
    obtain rfl : s = symbol.toNat := of_not_not fun hne => hs (if_neg hne)
    exact ⟨0, 0, 0, hstep, le_rfl, rfl, rfl, rfl⟩
  · intro s hs
    obtain rfl : s = symbol.toNat := of_not_not fun hne => hs (if_neg hne)
    refine ⟨0, 0, 0, hinit, rfl, rfl, le_rfl, fun hlt => ?_⟩
    rw [if_pos rfl] at hlt
    exact absurd hlt (lt_irrefl 1)
  · rintro e he hshare
    rw [List.mem_singleton.1 he] at hshare
    dsimp only at hshare
    rw [if_pos rfl] at hshare
    omega

theorem buildRleTableChoice_reads {part : SequencePart} {codes : Bytes} {slot : SequenceTableSlot} {symbol : Nat}
    (hsymbol : symbol ≤ part.maxSymbolValue) (hcodes : ∀ code ∈ codes, code.toNat = symbol) :
    (buildRleTableChoice symbol).Reads part codes slot := by
  have hsmall : part.maxSymbolValue < 256 := by cases part <;> decide
  have hbyte : (UInt8.ofNat symbol).toNat = symbol := toNat_ofNat_small (by omega)
  have hagree := (buildRleTables_dual (UInt8.ofNat symbol)).agree part (Nat.zero_le _)
  rw [hbyte] at hagree
  intro payload target _
  obtain ⟨dtable, hdtable⟩ : ∃ dtable, target.slot (.ok (buildRleDtable symbol)) = .ok dtable := by
    cases target with
    | sequenceOnly => exact ⟨_, rfl⟩
    | both => exact ⟨_, rfl⟩
  have hseq : part.sequenceDtableFrom (buildRleDtable symbol) =
      { tableLog := 0, entries := (buildRleDtable symbol).entries.map part.entry } := by cases part <;> rfl
  let slot' : SequenceTableSlot :=
    { dtable, seq := { tableLog := 0, entries := (buildRleDtable symbol).entries.map part.entry },
      dirty := false, has := true }
  refine ⟨slot', slot', ?_, rfl, hagree.mono ?_, part.inStep_none _⟩
  · have hget : getByte ((buildRleTableChoice symbol).header ++ payload) 0 = .ok (UInt8.ofNat symbol) := rfl
    unfold decodeSeqTableBoth
    rw [show (buildRleTableChoice symbol).mode = .rle from rfl]
    dsimp only
    rw [hget, ok_bind, hbyte, if_neg (not_lt.2 hsymbol), hdtable, ok_bind, hseq]
    rfl
  · rintro _ ⟨code, hcode, rfl⟩
    rw [if_pos (hcodes code hcode)]
    exact one_ne_zero

/-- Behind a choice to repeat the decoder reads its own table. -/
theorem buildRepeatTableChoice_reads {part : SequencePart} {codes : Bytes} {slot : SequenceTableSlot}
    {previous : SequenceEncodingPartState} (hstep : part.InStep (some previous) slot)
    (hmode : previous.repeatMode ≠ .none)
    (hcodes : previous.table.supportsAll codes = true) : (buildRepeatTableChoice previous).Reads part codes slot := by
  obtain ⟨hhas, slot', hsetup, hagree⟩ := hstep previous rfl hmode
  obtain ⟨hhas', hdone⟩ := setupSlot_done hsetup
  intro payload target _
  refine ⟨slot, slot', ?_, hsetup, hagree.mono ?_, ?_⟩
  · show (if slot.has then (.ok (slot, 0) : Result (SequenceTableSlot × Nat)) else _) = .ok (slot, 0)
    rw [if_pos hhas]
  · rintro _ ⟨code, hcode, rfl⟩
    exact List.all_eq_true.1 hcodes code hcode
  · rintro e ⟨⟩ _
    exact ⟨hhas', slot', hdone, hagree⟩

/-! ## Described in the section -/

theorem optimalTableLog_range (maxTableLog srcSize maxSymbolValue : Nat) :
    minTablelog ≤ optimalTableLog maxTableLog srcSize maxSymbolValue ∧
      optimalTableLog maxTableLog srcSize maxSymbolValue ≤ max minTablelog (min maxTableLog tablelogMax) := by
  unfold optimalTableLog
  dsimp only
  exact ⟨le_max_left _ _, max_le (le_max_left _ _) (min_le_right _ _)⟩

theorem countCodesInterleaved_length (codes : Bytes) (counts : List Nat) :
    (countCodesInterleaved codes counts).length = 256 := by
  unfold countCodesInterleaved
  dsimp only
  rw [show List.range 4 = [0, 1, 2, 3] by decide, List.foldl_cons, List.foldl_cons, List.foldl_cons, List.foldl_cons,
    List.foldl_nil, List.length_map, List.length_range]

theorem finalizeStats_counts (counts : List Nat) (maxAllowed total : Nat) :
    (finalizeStats counts maxAllowed total).counts = counts := by
  unfold finalizeStats
  generalize (List.range (maxAllowed + 1)).reverse.foldl _ ((0, 0) : Nat × Nat) = final
  rfl

theorem analyzePart_length (part : SequencePart) (codes : Bytes) : (analyzePart part codes).counts.length = 256 := by
  unfold analyzePart
  dsimp only
  rw [finalizeStats_counts]
  split
  · exact countCodesInterleaved_length _ _
  · refine (foldl_bump codes (List.replicate 256 0) fun code _ => ?_).1.trans List.length_replicate
    rw [List.length_replicate]
    exact code.toNat_lt

theorem sum_take_tally {counts : List Nat} {n : Nat} (hn : n ≤ counts.length) :
    (counts.take n).sum = ((List.range n).map (tally counts)).sum := by
  congr 1
  apply List.ext_getElem
  · simpa using hn
  · intro i h1 h2
    rw [List.getElem_take, List.getElem_map, List.getElem_range]
    exact (List.getD_eq_getElem _ _ _).symm

/-- The counts up to the largest symbol are all of them. -/
theorem SequenceCodeStats.Counts.sum_eq {stats : SequenceCodeStats} {codes : Bytes} (h : stats.Counts codes)
    (hlength : stats.counts.length = 256) (hmax : stats.maxSymbol < 256) :
    (stats.counts.take (stats.maxSymbol + 1)).sum = codes.length := by
  have hsum := sum_occurrences (fun _ => 1) (stats.maxSymbol + 1) codes fun code hcode =>
    Nat.lt_succ_of_le (h.le_maxSymbol code hcode)
  simp only [Nat.mul_one, List.map_const', List.sum_replicate, smul_eq_mul] at hsum
  rw [sum_take_tally (by omega), ← hsum]
  congr 1
  apply List.map_congr_left
  intro symbol hsymbol
  have := List.mem_range.1 hsymbol
  exact h.count symbol (by omega)

/-- Counts that a table is made for: the symbols that occur, and no other. -/
structure MadeFor (codes : Bytes) (maxSymbol : Nat) (counts : List Nat) (total : Nat) : Prop where
  length : counts.length = 256
  u32 : ∀ c ∈ counts, c < 2 ^ 32
  sum : (counts.take (maxSymbol + 1)).sum = total
  total_le : total ≤ codes.length
  occurs : ∀ symbol < 256, counts.getD symbol 0 = 0 ↔ occurrences codes symbol = 0

/-- The counts of a block themselves. -/
theorem SequenceCodeStats.Counts.madeFor {stats : SequenceCodeStats} {codes : Bytes} (h : stats.Counts codes)
    (hlength : stats.counts.length = 256) (hmax : stats.maxSymbol < 256) (hlen : codes.length < 2 ^ 32) :
    MadeFor codes stats.maxSymbol stats.counts codes.length := by
  refine ⟨hlength, ?_, h.sum_eq hlength hmax, le_rfl, fun symbol hsymbol => by rw [← h.count symbol hsymbol]; rfl⟩
  intro c hc
  obtain ⟨i, hi, rfl⟩ := List.getElem_of_mem hc
  have hcount := h.count i (by omega)
  unfold tally at hcount
  rw [List.getD_eq_getElem _ _ hi] at hcount
  rw [hcount]
  exact lt_of_le_of_lt (occurrences_le codes i) hlen

theorem effectiveCounts_madeFor {stats : SequenceCodeStats} {codes : Bytes} {counts : List Nat} {total : Nat}
    (h : stats.Counts codes) (hlength : stats.counts.length = 256) (hmax : stats.maxSymbol < 256)
    (hlen : codes.length < 2 ^ 32) (heff : effectiveCounts stats codes = .ok (counts, total)) :
    MadeFor codes stats.maxSymbol counts total := by
  have hmade := h.madeFor hlength hmax hlen
  have hu32 := hmade.u32
  have hsum := hmade.sum
  unfold effectiveCounts at heff
  cases hlast : codes.getLast? with
  | none => rw [hlast] at heff; cases heff
  | some last =>
    rw [hlast] at heff
    dsimp only at heff
    have hmem := List.mem_of_getLast? hlast
    have hle := h.le_maxSymbol last hmem
    split at heff
    · rename_i hmany
      cases heff
      have hset : ∀ i, (stats.counts.set last.toNat (tally stats.counts last.toNat - 1)).getD i 0 =
          if last.toNat = i then tally stats.counts last.toNat - 1 else tally stats.counts i := by
        intro i
        rw [List.getD_eq_getElem?_getD, List.getElem?_set]
        by_cases hi : last.toNat = i
        · rw [if_pos hi, if_pos hi, if_pos (by have := last.toNat_lt; omega)]
          rfl
        · rw [if_neg hi, if_neg hi, ← List.getD_eq_getElem?_getD]
          rfl
      have hlt : last.toNat < stats.counts.length := by have := last.toNat_lt; omega
      have hmost : tally stats.counts last.toNat < 2 ^ 32 := by
        unfold tally
        rw [List.getD_eq_getElem _ _ hlt]
        exact hu32 _ (List.getElem_mem _)
      refine ⟨by rw [List.length_set]; exact hlength, ?_, ?_, Nat.sub_le _ _, ?_⟩
      · intro c hc
        rcases List.mem_or_eq_of_mem_set hc with hc | rfl
        · exact hu32 c hc
        · omega
      · have hpos : last.toNat < (stats.counts.take (stats.maxSymbol + 1)).length := by
          rw [List.length_take]
          omega
        rw [List.take_set, List.sum_set, if_pos hpos, ← hsum]
        have hsplit := List.sum_take_add_sum_drop (stats.counts.take (stats.maxSymbol + 1)) last.toNat
        rw [List.drop_eq_getElem_cons hpos, List.sum_cons, List.getElem_take] at hsplit
        have hcount : tally stats.counts last.toNat = stats.counts[last.toNat] := List.getD_eq_getElem _ _ hlt
        omega
      · intro symbol hsymbol
        rw [hset, ← h.count symbol hsymbol]
        by_cases hi : last.toNat = symbol
        · subst hi
          rw [if_pos rfl]
          omega
        · rw [if_neg hi]
    · cases heff
      exact hmade

/-- Counts that serve an alphabet fill the table, and the array has nothing behind them. -/
theorem Fse.Served.whole {counts : List Nat} {normalized : List Int} {maxSymbol tableLog : Nat}
    (h : Served (counts.take (maxSymbol + 1)) normalized (2 ^ tableLog)) (hcounts : counts.length = 256)
    (hmax : maxSymbol < 256) :
    normalized.length = maxSymbol + 1 ∧ Normalized (wholeCounter normalized) maxSymbol tableLog ∧
      (wholeCounter normalized).take (maxSymbol + 1) = normalized ∧
      wholeCounter normalized = normalized ++ List.replicate (symbolvalueMax + 1 - (maxSymbol + 1)) 0 ∧
      ∀ symbol ≤ maxSymbol, normalized.getD symbol 0 = 0 ↔ counts.getD symbol 0 = 0 := by
  have hlength : normalized.length = maxSymbol + 1 := by
    rw [h.length, List.length_take]
    omega
  have htake : (wholeCounter normalized).take (maxSymbol + 1) = normalized := by
    unfold wholeCounter
    rw [← hlength, List.take_left]
  refine ⟨hlength, ⟨?_, ?_, ?_⟩, htake, ?_, ?_⟩
  · unfold wholeCounter
    rw [List.length_append]
    omega
  · intro c hc
    rcases List.mem_append.1 hc with hc | hc
    · exact h.atLeast c hc
    · rw [List.eq_of_mem_replicate hc]
      norm_num
  · rw [htake, h.total]
  · unfold wholeCounter
    rw [hlength]
  · intro symbol hsymbol
    rw [h.absent symbol, List.getD_eq_getElem?_getD, List.getElem?_take, if_pos (Nat.lt_succ_of_le hsymbol),
      ← List.getD_eq_getElem?_getD]

/-- What a successful normalization says. -/
theorem normalizeCount_serves {codes : Bytes} {normalized : List Int} {total maxSymbol tableLog log : Nat}
    {effective : List Nat} {low : Bool} (hmade : MadeFor codes maxSymbol effective total) (hlen : codes.length < 2 ^ 32)
    (hmax : maxSymbol < 256) (htotal : 2 ≤ total) (hrange : minTablelog ≤ tableLog ∧ tableLog ≤ tablelogMax)
    (h : normalizeCount (symbolvalueMax + 1) tableLog effective total maxSymbol low = .ok (log, normalized))
    (hlog : log ≠ 0) : Served (effective.take (maxSymbol + 1)) normalized (2 ^ tableLog) := by
  have hguard : minTableLog total maxSymbol ≤ tableLog := by
    by_contra hlow
    unfold normalizeCount at h
    rw [if_neg (by have := hmade.length; unfold symbolvalueMax; omega), if_neg (by omega), if_neg (not_not.2 hrange),
      if_pos (by omega)] at h
    cases h
  have hhist : Histogram (symbolvalueMax + 1) tableLog effective total maxSymbol :=
    ⟨⟨Nat.lt_succ_iff.1 hmax, hmax, by rw [hmade.length]; exact hmax⟩, hmade.u32, hmade.sum, htotal, hrange, hguard⟩
  rcases hhist.normalizes (.inl (lt_of_le_of_lt hmade.total_le hlen)) low with ⟨-, hnone⟩ | ⟨-, ns, hok, hserved⟩
  · rw [h] at hnone
    cases hnone
    exact absurd rfl hlog
  · rw [h] at hok
    cases hok
    exact hserved

/-- The symbols that a table made from counts supports. -/
theorem fromNormalizedCounts_supports {counts : List Int} {maxSymbolValue tableLog : Nat} {t : SequenceEncodingTable}
    (h : SequenceEncodingTable.fromNormalizedCounts counts maxSymbolValue tableLog = .ok t) {symbol : Nat}
    (hsupported : t.supportedSymbols.getD symbol false = true) : shareOf counts maxSymbolValue symbol ≠ 0 := by
  unfold SequenceEncodingTable.fromNormalizedCounts at h
  obtain ⟨ct, -, h⟩ := bind_ok h
  cases h
  dsimp only at hsupported
  unfold shareOf
  generalize counts.take (maxSymbolValue + 1) = alphabet at hsupported
  rw [List.getD_eq_getElem?_getD] at hsupported ⊢
  rcases Nat.lt_or_ge symbol alphabet.length with hlt | hge
  · rw [List.getElem?_append_left (by rwa [List.length_map]), List.getElem?_map, List.getElem?_eq_getElem hlt]
      at hsupported
    rw [List.getElem?_eq_getElem hlt]
    simpa using hsupported
  · rw [List.getElem?_append_right (by rwa [List.length_map])] at hsupported
    rw [List.getElem?_replicate] at hsupported
    split at hsupported <;> cases hsupported

theorem buildCompressedTableChoice_reads {part : SequencePart} {codes : Bytes} {slot : SequenceTableSlot}
    {choice : SequenceTableChoice} (hcodes : ∀ code ∈ codes, code.toNat ≤ part.maxSymbolValue)
    (hlen : codes.length < 2 ^ 32) (h : buildCompressedTableChoice part codes (analyzePart part codes) =
    .ok (some choice)) :
    choice.Reads part codes slot := by
  have hcounts := analyzePart_counts part hlen hcodes
  have hlength := analyzePart_length part codes
  generalize analyzePart part codes = stats at h hcounts hlength
  have halphabet : part.maxSymbolValue < 256 := by cases part <;> decide
  unfold buildCompressedTableChoice at h
  split at h
  · cases h
  rename_i hmany
  have hne : codes ≠ [] := by rintro rfl; exact hmany (Nat.zero_le _)
  have hmaxLe := hcounts.maxSymbol_le hne hcodes
  have hmax : stats.maxSymbol < 256 := by omega
  have hrange := optimalTableLog_range part.maxAccuracyLog codes.length stats.maxSymbol
  generalize optimalTableLog part.maxAccuracyLog codes.length stats.maxSymbol = tableLog at h hrange
  have haccuracy : max minTablelog (min part.maxAccuracyLog tablelogMax) = part.maxAccuracyLog ∧
      part.maxAccuracyLog ≤ tablelogMax := by cases part <;> decide
  rw [haccuracy.1] at hrange
  have hlogMax : tableLog ≤ tablelogMax := hrange.2.trans haccuracy.2
  dsimp only at h
  obtain ⟨⟨effective, total⟩, heff, h⟩ := bind_ok h
  have hmade := effectiveCounts_madeFor hcounts hlength hmax hlen heff
  dsimp only at h
  split at h
  · cases h
  obtain ⟨⟨log, normalized⟩, hnormalize, h⟩ := bind_ok h
  dsimp only at h
  split at h
  · cases h
  rename_i htotal hlog
  have hserved := normalizeCount_serves hmade hlen hmax (by omega) ⟨hrange.1, hlogMax⟩ hnormalize hlog
  obtain ⟨hnormalized, hwhole, htake, hpad, habsent⟩ := hserved.whole hmade.length hmax
  obtain ⟨bound, -, h⟩ := bind_ok h
  obtain ⟨⟨headerSize, header⟩, hwrite, h⟩ := bind_ok h
  obtain ⟨encoding, hencoding, h⟩ := bind_ok h
  cases h
  -- the symbols that occur have a share
  have hshare : ∀ symbol, occurrences codes symbol ≠ 0 → shareOf
    (wholeCounter normalized) stats.maxSymbol symbol ≠ 0 := by
    intro symbol hoccurs
    have hle : symbol ≤ stats.maxSymbol := by
      by_contra hgt
      exact hoccurs (hcounts.above symbol (not_le.1 hgt))
    unfold shareOf
    rw [htake, Int.natAbs_ne_zero, Ne, habsent symbol hle, hmade.occurs symbol (by omega)]
    exact hoccurs
  have hlast : (wholeCounter normalized).getD stats.maxSymbol 0 ≠ 0 := by
    have hlastShare := hshare stats.maxSymbol (hcounts.occurs hne).ne'
    unfold shareOf at hlastShare
    rw [List.getD_eq_getElem?_getD, List.getElem?_take, if_pos (Nat.lt_succ_self _), ← List.getD_eq_getElem?_getD]
      at hlastShare
    exact Int.natAbs_ne_zero.1 hlastShare
  obtain ⟨ct, entries, hct, hentries, hdual⟩ := buildTables_dual hwhole (le_trans (by decide) hrange.1) hlogMax
    (Nat.lt_succ_iff.1 hmax)
  have htable : encoding.table = ct := by
    have := fromNormalizedCounts_table hencoding
    rw [hct] at this
    exact (Except.ok.inj this).symm
  have hagree := hdual.agree part hlogMax
  rw [← htable] at hagree
  intro payload target hpayload
  have hread := readNcount_writeNcount hwhole hlast hwrite hpayload hmaxLe
    (show part.maxSymbolValue < symbolvalueMax + 1 from halphabet) (Nat.lt_succ_iff.1 halphabet) hrange.2 haccuracy.2
  rw [htake, ← hpad] at hread
  obtain ⟨dtable, hdtable⟩ := target.slot_of_entries hentries
  let slot' : SequenceTableSlot :=
    { dtable, seq := { tableLog, entries := entries.map part.entry }, dirty := false, has := true }
  refine ⟨slot', slot', ?_, rfl, hagree.mono ?_, ?_⟩
  · unfold decodeSeqTableBoth
    dsimp only
    rw [hread, ok_bind]
    dsimp only
    rw [hdtable, ok_bind, part.buildSequenceDtable_of_entries hentries, ok_bind, (written_begins hwhole hlast hwrite).1]
  · rintro _ ⟨code, hcode, rfl⟩
    exact hshare _ (occurrences_pos_iff.2 ⟨code, hcode, rfl⟩).ne'
  · rintro e ⟨⟩ _
    exact ⟨rfl, slot', rfl, hagree.mono fun symbol hsupported => fromNormalizedCounts_supports hencoding hsupported⟩

/-! ## The choice -/

theorem indexed_le {table : List Nat} {i value bound : Nat} (htable : ∀ x ∈ table, x ≤ bound)
    (h : indexed table i = .ok value) : value ≤ bound := by
  unfold indexed at h
  cases hx : table[i]? with
  | none => rw [hx] at h; cases h
  | some x =>
    rw [hx] at h
    cases h
    exact htable value (List.mem_of_getElem? hx)

theorem inverseProbability_le : ∀ x ∈ inverseProbabilityLog256, x ≤ 2048 := by decide +kernel

/-- The bits that the entropy of a histogram asks for. -/
theorem entropyCostBits_le {counts : List Nat} {maxSymbol total cost : Nat}
    (hcounts : ∀ symbol ≤ maxSymbol, tally counts symbol ≤ 2 ^ 32)
    (h : entropyCostBits counts maxSymbol total = .ok cost) : cost ≤ (maxSymbol + 1) * 2 ^ 43 := by
  have hloop : ∀ (symbols : List Nat) (start sum : Nat), (∀ symbol ∈ symbols, symbol ≤ maxSymbol) →
      symbols.foldlM (fun cost symbol => do
        let count := tally counts symbol
        if count = 0 then .ok cost else
        let norm := 256 * count / total
        let price ← indexed inverseProbabilityLog256 (if norm = 0 then 1 else norm)
        .ok (cost + count * price)) start = (.ok sum : Result Nat) → sum ≤ start + symbols.length * 2 ^ 43 := by
    intro symbols
    induction symbols with
    | nil =>
      rintro start sum - h
      cases h
      simp
    | cons symbol symbols ih =>
      rintro start sum hsymbols h
      rw [List.foldlM_cons] at h
      obtain ⟨next, hstep, hrest⟩ := bind_ok h
      have hle := ih next sum (fun s hs => hsymbols s (List.mem_cons_of_mem _ hs)) hrest
      have hnext : next ≤ start + 2 ^ 43 := by
        dsimp only at hstep
        split at hstep
        · cases hstep
          exact Nat.le_add_right _ _
        · obtain ⟨price, hprice, hstep⟩ := bind_ok hstep
          cases hstep
          have hmul := Nat.mul_le_mul (hcounts symbol (hsymbols symbol List.mem_cons_self))
            (indexed_le inverseProbability_le hprice)
          omega
      rw [List.length_cons, Nat.add_mul, Nat.one_mul]
      omega
  unfold entropyCostBits at h
  obtain ⟨sum, hsum, h⟩ := bind_ok h
  cases h
  have hle := hloop _ 0 sum (fun symbol hsymbol => Nat.lt_succ_iff.1 (List.mem_range.1 hsymbol)) hsum
  rw [List.length_range, Nat.zero_add] at hle
  exact (Nat.shiftRight_le _ _).trans hle

/-- The bytes of the header that a block's own counts would have. -/
theorem ncountCostBytes_le {part : SequencePart} {stats : SequenceCodeStats} {codes : Bytes} {size : Nat}
    (h : stats.Counts codes) (hlength : stats.counts.length = 256) (hmax : stats.maxSymbol < 256)
    (hlen : codes.length < 2 ^ 32) (hsize : ncountCostBytes part stats = .ok size) : size ≤ 2 ^ 10 := by
  unfold ncountCostBytes at hsize
  have hrange := optimalTableLog_range part.maxAccuracyLog stats.total stats.maxSymbol
  generalize optimalTableLog part.maxAccuracyLog stats.total stats.maxSymbol = tableLog at hsize hrange
  have hlogMax : tableLog ≤ tablelogMax := hrange.2.trans (by cases part <;> decide)
  dsimp only at hsize
  obtain ⟨⟨log, normalized⟩, hnormalize, hsize⟩ := bind_ok hsize
  dsimp only at hsize
  split at hsize
  · cases hsize
  rename_i hlog
  have htotal : 2 ≤ stats.total := by
    by_contra hfew
    unfold normalizeCount at hnormalize
    rw [if_neg (by unfold symbolvalueMax; omega), if_pos (by omega)] at hnormalize
    cases hnormalize
  have hmade := h.madeFor hlength hmax hlen
  rw [← h.total] at hmade
  have hserved := normalizeCount_serves hmade hlen hmax htotal ⟨hrange.1, hlogMax⟩ hnormalize hlog
  obtain ⟨-, hwhole, -, -, -⟩ := hserved.whole hlength hmax
  obtain ⟨bound, hbound, hsize⟩ := bind_ok hsize
  obtain ⟨⟨written, out⟩, hwrite, hsize⟩ := bind_ok hsize
  cases hsize
  obtain ⟨-, -, _, _, fs, -, -, -, -, hsizeEq, hroom, -⟩ := writeNcount_header hwhole hwrite
  rw [List.length_replicate] at hroom
  unfold ncountWriteBound at hbound
  rw [if_neg (by unfold symbolvalueMax; omega), if_neg (not_not.2 ⟨hrange.1, hlogMax⟩)] at hbound
  cases hbound
  have hmul : (stats.maxSymbol + 1) * tableLog ≤ 256 * 9 := Nat.mul_le_mul hmax hlogMax
  omega

/-- One symbol alone is repeated, and the format's own table is taken only for symbols that it has. -/
theorem selectTableChoice_spec {part : SequencePart} {previous : Option SequenceEncodingPartState} {codes : Bytes}
    {parserStrategy : ParserStrategy} {stats : SequenceCodeStats} {mode : CompressionMode}
    (hcounts : stats.Counts codes)
    (hlength : stats.counts.length = 256) (hmax : stats.maxSymbol < 256) (hlen : codes.length < 2 ^ 32)
    (h : selectTableChoice part previous parserStrategy stats = .ok mode) :
    (mode = .rle → stats.mostFrequent = stats.total) ∧
      (mode = .predefined → part.defaultAllowed stats.maxSymbol = true) := by
  unfold selectTableChoice at h
  split at h
  · rename_i hall
    split at h
    · rename_i hallowed
      cases h
      exact ⟨fun _ => hall, fun _ => hallowed.1⟩
    · cases h
      exact ⟨fun _ => hall, fun h => (nomatch h)⟩
  split at h
  · rename_i choice hfast
    cases h
    unfold selectTableChoiceFastPath at hfast
    split at hfast
    · cases hfast
    split at hfast
    · cases hfast
      exact ⟨fun h => (nomatch h), fun h => (nomatch h)⟩
    rename_i hallowed
    rw [not_not] at hallowed
    refine ⟨?_, fun _ => hallowed⟩
    rintro rfl
    dsimp only at hfast
    split at hfast
    · cases hfast
    · split at hfast <;> cases hfast
  · obtain ⟨basicCost, hbasic, h⟩ := bind_ok h
    obtain ⟨repeatCost, -, h⟩ := bind_ok h
    obtain ⟨headerBytes, hheader, h⟩ := bind_ok h
    obtain ⟨entropyBits, hentropy, h⟩ := bind_ok h
    dsimp only at h
    split at h
    · rename_i hcheap
      cases h
      refine ⟨fun h => (nomatch h), fun _ => ?_⟩
      by_contra hnot
      rw [if_neg hnot] at hbasic
      cases hbasic
      -- the price of a described table is below what stands for none
      have hbytes := ncountCostBytes_le hcounts hlength hmax hlen hheader
      have hbits := entropyCostBits_le (fun symbol hsymbol => by
        rw [hcounts.count symbol (by omega)]
        exact ((occurrences_le codes symbol).trans_lt hlen).le) hentropy
      have hcost := hcheap.2
      unfold noCost at hcost
      have : (stats.maxSymbol + 1) * 2 ^ 43 ≤ 256 * 2 ^ 43 := Nat.mul_le_mul_right _ hmax
      omega
    split at h
    · cases h
      exact ⟨fun h => (nomatch h), fun h => (nomatch h)⟩
    · cases h
      exact ⟨fun h => (nomatch h), fun h => (nomatch h)⟩

/-- Every choice is one that the decoder follows. -/
theorem buildSequencePartChoice_reads {part : SequencePart} {codes : Bytes} {slot : SequenceTableSlot}
    {previous : Option SequenceEncodingPartState} {parserStrategy : ParserStrategy} {choice : SequenceTableChoice}
    (hne : codes ≠ []) (hcodes : ∀ code ∈ codes, code.toNat ≤ part.maxSymbolValue) (hlen : codes.length < 2 ^ 32)
    (hstep : part.InStep previous slot)
    (h : buildSequencePartChoiceWithStats part codes previous parserStrategy (analyzePart part codes) = .ok choice) :
    choice.Reads part codes slot := by
  have hcounts := analyzePart_counts part hlen hcodes
  have halphabet : part.maxSymbolValue < 256 := by cases part <;> decide
  have hmaxLe := hcounts.maxSymbol_le hne hcodes
  unfold buildSequencePartChoiceWithStats at h
  obtain ⟨mode, hmode, h⟩ := bind_ok h
  obtain ⟨hrle, hpredefined⟩ := selectTableChoice_spec hcounts (analyzePart_length part codes) (by omega) hlen hmode
  unfold buildSelectedTableChoice at h
  cases mode with
  | predefined =>
    refine buildPredefinedTableChoice_reads (fun code hcode => ?_) h
    exact (hcounts.le_maxSymbol code hcode).trans (of_decide_eq_true (hpredefined rfl))
  | rle =>
    cases h
    refine buildRleTableChoice_reads hmaxLe fun code hcode => ?_
    -- the most frequent code is all there is
    obtain ⟨symbol, hsymbol⟩ := hcounts.mostFrequent hne
    rw [hrle rfl, hcounts.total] at hsymbol
    have hall : ∀ c ∈ codes, c.toNat = symbol := by
      intro c hc
      simpa using List.countP_eq_length.1 hsymbol c hc
    obtain ⟨largest, hlargest, heq⟩ := occurrences_pos_iff.1 (hcounts.occurs hne)
    rw [hall code hcode, ← hall largest hlargest, heq]
  | «repeat» =>
    dsimp only at h
    split at h
    · rename_i entry hentry
      cases h
      rw [Option.filter_eq_some_iff, Option.filter_eq_some_iff] at hentry
      obtain ⟨⟨rfl, hkept⟩, hsupports⟩ := hentry
      exact buildRepeatTableChoice_reads hstep (of_decide_eq_true hkept) hsupports
    · cases h
  | fseCompressed =>
    obtain ⟨built, hbuilt, h⟩ := bind_ok h
    cases built with
    | none => cases h
    | some built =>
      cases h
      exact buildCompressedTableChoice_reads hcodes hlen hbuilt

end Zstandard
