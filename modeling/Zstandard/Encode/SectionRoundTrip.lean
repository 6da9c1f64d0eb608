/-
The sequence sections of a frame, encoded and read back.

A section keeps the two sides in step and gives back its sequences, and the run over a frame,
from nothing or from the two halves of a dictionary, is the induction on its blocks.
-/
import Zstandard.Encode.SequenceChoice
import Zstandard.Encode.Dictionary
import Zstandard.Decode.Profiled

namespace Zstandard

open Fse Hist

/-! ## One section -/

theorem parseSequenceCount_encode {n : Nat} {count : Bytes} (h : encodeSequenceCount n = .ok count) (rest : Bytes) :
    n < 2 ^ 16 + 0x7F00 ∧ parseSequenceCount (count ++ rest) = .ok (n, count.length) := by
  unfold encodeSequenceCount at h
  split at h
  · cases h
  rename_i hmany
  refine ⟨not_le.1 hmany, ?_⟩
  split at h
  · rename_i hsmall
    cases h
    unfold parseSequenceCount
    rw [show getByte ([UInt8.ofNat n] ++ rest) 0 = .ok (UInt8.ofNat n) from rfl, ok_bind, toNat_ofNat_small (by omega),
      if_pos hsmall]
    rfl
  rename_i hsmall
  split at h
  · rename_i hmiddle
    cases h
    have hhigh : n >>> 8 = n / 256 := Nat.shiftRight_eq_div_pow n 8
    unfold parseSequenceCount
    rw [show getByte ([UInt8.ofNat (128 + n >>> 8), UInt8.ofNat (n % 256)] ++ rest) 0 =
      .ok (UInt8.ofNat (128 + n >>> 8))
      from rfl, ok_bind, toNat_ofNat_small (by omega), if_neg (by omega), if_pos (by omega),
      show getByte ([UInt8.ofNat (128 + n >>> 8), UInt8.ofNat (n % 256)] ++ rest) 1 =
        .ok (UInt8.ofNat (n % 256)) from rfl,
      ok_bind, toNat_ofNat_small (by omega)]
    dsimp only
    congr 2
    omega
  · cases h
    have hhigh : (n - 0x7F00) >>> 8 = (n - 0x7F00) / 256 := Nat.shiftRight_eq_div_pow _ 8
    generalize hbytes : [255, UInt8.ofNat ((n - 0x7F00) % 256), UInt8.ofNat ((n - 0x7F00) >>> 8 % 256)] ++ rest = src
    have h0 : getByte src 0 = .ok 255 := by rw [← hbytes]; rfl
    have h1 : getByte src 1 = .ok (UInt8.ofNat ((n - 0x7F00) % 256)) := by rw [← hbytes]; rfl
    have h2 : getByte src 2 = .ok (UInt8.ofNat ((n - 0x7F00) >>> 8 % 256)) := by rw [← hbytes]; rfl
    unfold parseSequenceCount
    rw [h0, ok_bind, if_neg (by decide), if_neg (by decide), h1, ok_bind, h2, ok_bind, toNat_ofNat_small (by omega),
      toNat_ofNat_small (by omega)]
    dsimp only
    congr 2
    omega

theorem CompressionMode.fromBits_bits (mode : CompressionMode) : CompressionMode.fromBits mode.bits = mode := by
  cases mode <;> rfl

/-- The byte of the three modes. -/
theorem modes_parse (ll of ml : CompressionMode) :
    ∃ modes, (UInt8.ofNat (ll.bits <<< 6 ||| of.bits <<< 4 ||| ml.bits <<< 2)).toNat = modes ∧ modes % 4 = 0 ∧
      CompressionMode.fromBits (modes / 64) = ll ∧ CompressionMode.fromBits (modes / 16 % 4) = of ∧
      CompressionMode.fromBits (modes / 4 % 4) = ml := by
  refine ⟨_, rfl, ?_⟩
  cases ll <;> cases of <;> cases ml <;> decide

/-- The tables that decoding a section leaves. -/
def ParsedSequenceSection.tablesBehind (section_ : ParsedSequenceSection) (tables : SequenceTablesState) :
    Result SequenceTablesState :=
  if section_.numberOfSequences = 0 then .ok tables else setupTables tables

structure SequenceEncodingState.InStep (state : SequenceEncodingState) (tables : SequenceTablesState) : Prop where
  literalLengths : SequencePart.literalLength.InStep state.literalLengths tables.literalLengths
  offsets : SequencePart.offset.InStep state.offsets tables.offsets
  matchLengths : SequencePart.matchLength.InStep state.matchLengths tables.matchLengths

/-- A section that the decoder parses to the sequences, and that leaves the two sides in step. -/
structure SectionReads (target : TableTarget) (payload : Bytes) (sequences : List SequenceCommand)
    (tables : SequenceTablesState) (state' : SequenceEncodingState) (section_ : ParsedSequenceSection)
    (parsed tables' : SequenceTablesState) : Prop where
  parse : parseSequenceSection payload tables target = .ok (section_, parsed)
  count : section_.numberOfSequences = sequences.length
  all : section_.numberOfSequences = 0 → section_.headerSize = payload.length
  denotes : ∃ places, section_.denotes parsed = .ok places ∧ section_.sequences places = sequences
  behind : section_.tablesBehind parsed = .ok tables'
  inStep : state'.InStep tables'

/-- The header of three choices is parsed to their tables. -/
theorem parseSequenceSection_choices {n : Nat} {count bitstream : Bytes} {ll of ml : SequenceTableChoice}
    {llCodes ofCodes mlCodes : Bytes} {tables : SequenceTablesState} (target : TableTarget) (hn : n ≠ 0)
    (hcount : encodeSequenceCount n = .ok count) (hbits : bitstream ≠ [])
    (hll : ll.Reads .literalLength llCodes tables.literalLengths) (hof : of.Reads .offset ofCodes tables.offsets)
    (hml : ml.Reads .matchLength mlCodes tables.matchLengths) :
    ∃ section_ parsed tables', parseSequenceSection (count ++
    [UInt8.ofNat (ll.mode.bits <<< 6 ||| of.mode.bits <<< 4 |||
        ml.mode.bits <<< 2)] ++ ll.header ++ of.header ++ ml.header ++ bitstream) tables target =
          .ok (section_, parsed) ∧
      section_.numberOfSequences = n ∧ section_.bitstream = bitstream ∧ setupTables parsed = .ok tables' ∧
      SequencePart.literalLength.Agree ll.encoding.table tables'.literalLengths.seq
        (fun symbol => ∃ code ∈ llCodes, code.toNat = symbol) ∧
      SequencePart.offset.Agree of.encoding.table tables'.offsets.seq
        (fun symbol => ∃ code ∈ ofCodes, code.toNat = symbol) ∧
      SequencePart.matchLength.Agree ml.encoding.table tables'.matchLengths.seq
        (fun symbol => ∃ code ∈ mlCodes, code.toNat = symbol) ∧
      SequenceEncodingState.InStep ⟨ll.intoPartState, of.intoPartState, ml.intoPartState⟩ tables' := by
  obtain ⟨modes, hmodes, hreserved, hmodeLl, hmodeOf, hmodeMl⟩ := modes_parse ll.mode of.mode ml.mode
  obtain ⟨parsedLl, slotLl, hparseLl, hsetupLl, hagreeLl, hstepLl⟩ :=
    hll (of.header ++ (ml.header ++ bitstream)) target (by simp [hbits])
  obtain ⟨parsedOf, slotOf, hparseOf, hsetupOf, hagreeOf, hstepOf⟩ :=
    hof (ml.header ++ bitstream) target (by simp [hbits])
  obtain ⟨parsedMl, slotMl, hparseMl, hsetupMl, hagreeMl, hstepMl⟩ := hml bitstream target hbits
  generalize hbyte : UInt8.ofNat (ll.mode.bits <<< 6 ||| of.mode.bits <<< 4 ||| ml.mode.bits <<< 2) = byte at hmodes
  have hsrc : count ++ [byte] ++ ll.header ++ of.header ++ ml.header ++ bitstream =
      count ++ (byte :: (ll.header ++ (of.header ++ (ml.header ++ bitstream)))) := by simp
  generalize hwhole : count ++ (byte :: (ll.header ++ (of.header ++ (ml.header ++ bitstream)))) = src at hsrc
  have hget : getByte src count.length = .ok byte := by
    rw [← hwhole]
    unfold getByte
    rw [List.getElem?_append_right le_rfl, Nat.sub_self]
    rfl
  have hdropLl : src.drop (count.length + 1) = ll.header ++ (of.header ++ (ml.header ++ bitstream)) := by
    rw [← hwhole, List.drop_append, List.drop_eq_nil_of_le (by omega), Nat.add_sub_cancel_left]
    rfl
  have hdropOf : src.drop (count.length + 1 + ll.header.length) = of.header ++ (ml.header ++ bitstream) := by
    rw [← List.drop_drop, hdropLl, List.drop_left]
  have hdropMl : src.drop (count.length + 1 + ll.header.length + of.header.length) = ml.header ++ bitstream := by
    rw [← List.drop_drop, hdropOf, List.drop_left]
  have hdropBits : src.drop (count.length + 1 + ll.header.length + of.header.length + ml.header.length) =
    bitstream := by
    rw [← List.drop_drop, hdropMl, List.drop_left]
  have hfits : count.length + 1 + ll.header.length + of.header.length + ml.header.length ≤ src.length := by
    rw [← hwhole]
    simp only [List.length_append, List.length_cons]
    omega
  refine ⟨⟨n, count.length + 1 + ll.header.length + of.header.length + ml.header.length, bitstream⟩,
    ⟨parsedLl, parsedOf, parsedMl⟩, ⟨slotLl, slotOf, slotMl⟩, ?_, rfl, rfl, ?_, hagreeLl, hagreeOf, hagreeMl,
      hstepLl, hstepOf, hstepMl⟩
  · rw [hsrc]
    unfold parseSequenceSection
    rw [← hwhole, (parseSequenceCount_encode hcount _).2, hwhole, ok_bind]
    dsimp only
    rw [if_neg hn, hget, ok_bind, hmodes, if_neg (not_not.2 hreserved), hmodeLl, hmodeOf, hmodeMl, hdropLl, hparseLl,
      ok_bind]
    dsimp only
    rw [hdropOf, hparseOf, ok_bind]
    dsimp only
    rw [hdropMl, hparseMl, ok_bind]
    dsimp only
    unfold getFrom
    rw [if_pos hfits, hdropBits, ok_bind, if_neg (by simpa using hbits)]
  · unfold setupTables
    dsimp only
    rw [hsetupLl, ok_bind, hsetupOf, ok_bind, hsetupMl, ok_bind]

section

variable {state state' : SequenceEncodingState} {parserStrategy : ParserStrategy} {sequences : List SequenceCommand}
  {bytes : Bytes} {stats : SequenceSectionStats}

/-- Whether the codes were at hand or not, the section is the same. -/
theorem encodeSequences_path (hsequences : ∀ s ∈ sequences, s.InRange) (scratch : Bytes) :
    encodeSequences state parserStrategy scratch false sequences =
      encodeSequences state parserStrategy scratch true sequences := by
  rcases eq_or_ne sequences [] with rfl | hne
  · have hnone (codesPrecomputed : Bool) :
        encodeSequences state parserStrategy scratch codesPrecomputed [] = .ok ([0], state, {}) := by
      cases codesPrecomputed <;> rfl
    rw [hnone, hnone]
  unfold encodeSequences prepareSeqStoreEncodeScratch
  dsimp only
  rw [encodeSequenceCommands_ok hsequences, if_neg Bool.false_ne_true, if_pos rfl, ok_bind, ok_bind, ok_bind]
  have hcodes : populateCodes sequences = ((sequences.map SequenceCommand.prepared).map (·.llCode),
      (sequences.map SequenceCommand.prepared).map (·.ofCode),
      (sequences.map SequenceCommand.prepared).map (·.mlCode)) := by
    unfold populateCodes
    simp only [List.map_map]
    rfl
  unfold encodeSequenceSectionDirect
  dsimp only
  rw [hcodes]
  dsimp only
  simp only [Bool.false_eq_true, if_false, if_true, List.length_map,
    encodeSequenceBitstreamDirectInto_eq hne hsequences hcodes]

/-- Where the encoder returns a section, the decoder reads the sequences back from it, and what both keep stays in
step. -/
theorem encodeSequences_reads {scratch : Bytes} {codesPrecomputed : Bool} {tables : SequenceTablesState}
    (hsequences : ∀ s ∈ sequences, s.InRange) (hstep : state.InStep tables)
    (h : encodeSequences state parserStrategy scratch codesPrecomputed sequences = .ok (bytes, state', stats))
    (target : TableTarget) :
    ∃ section_ parsed tables', SectionReads target bytes sequences tables state' section_ parsed tables' := by
  have h : encodeSequences state parserStrategy scratch true sequences = .ok (bytes, state', stats) := by
    cases codesPrecomputed with
    | true => exact h
    | false => rwa [encodeSequences_path hsequences] at h
  rcases eq_or_ne sequences [] with rfl | hne
  · cases h
    refine ⟨⟨0, 1, []⟩, tables, tables, rfl, rfl, fun _ => rfl, ⟨([], none), rfl, rfl⟩, rfl, hstep⟩
  generalize hcodes : populateCodes sequences = codes
  obtain ⟨llCodes, ofCodes, mlCodes⟩ := codes
  have hll : llCodes = sequences.map SequencePart.literalLength.code := by cases hcodes; rfl
  have hof : ofCodes = sequences.map SequencePart.offset.code := by cases hcodes; rfl
  have hml : mlCodes = sequences.map SequencePart.matchLength.code := by cases hcodes; rfl
  unfold encodeSequences prepareSeqStoreEncodeScratch at h
  rw [if_pos rfl, hcodes, ok_bind] at h
  unfold encodeSequenceSectionDirect at h
  dsimp only at h
  have hlength : sequences.length ≠ 0 := fun h0 => hne (List.length_eq_zero_iff.1 h0)
  rw [if_pos rfl, if_neg hlength] at h
  obtain ⟨build, hbuild, h⟩ := bind_ok h
  obtain ⟨⟨bitstream, flushed⟩, hbitstream, h⟩ := bind_ok h
  obtain ⟨count, hcount, h⟩ := bind_ok h
  cases h
  rw [if_pos rfl] at hbitstream
  have hlen : sequences.length < 2 ^ 32 := (parseSequenceCount_encode hcount []).1.trans (by norm_num)
  unfold buildSequencesStatistics analyzeAllCodes at hbuild
  dsimp only at hbuild
  obtain ⟨literalChoice, hliteral, hbuild⟩ := bind_ok hbuild
  obtain ⟨offsetChoice, hoffset, hbuild⟩ := bind_ok hbuild
  obtain ⟨matchChoice, hmatch, hbuild⟩ := bind_ok hbuild
  obtain ⟨extraBits, hextra, hbuild⟩ := bind_ok hbuild
  cases hbuild
  have hpart : ∀ part : SequencePart, sequences.map part.code ≠ [] ∧ (sequences.map part.code).length < 2 ^ 32 ∧
      ∀ code ∈ sequences.map part.code, code.toNat ≤ part.maxSymbolValue := by
    refine fun part => ⟨by simpa using hne, by rwa [List.length_map], fun code hcode => ?_⟩
    obtain ⟨s, hs, rfl⟩ := List.mem_map.1 hcode
    exact part.code_le (hsequences s hs)
  rw [hll] at hliteral
  rw [hof] at hoffset
  rw [hml] at hmatch
  obtain ⟨hneLl, hlenLl, hrangeLl⟩ := hpart .literalLength
  obtain ⟨hneOf, hlenOf, hrangeOf⟩ := hpart .offset
  obtain ⟨hneMl, hlenMl, hrangeMl⟩ := hpart .matchLength
  have hreadLl := buildSequencePartChoice_reads hneLl hrangeLl hlenLl hstep.literalLengths hliteral
  have hreadOf := buildSequencePartChoice_reads hneOf hrangeOf hlenOf hstep.offsets hoffset
  have hreadMl := buildSequencePartChoice_reads hneMl hrangeMl hlenMl hstep.matchLengths hmatch
  -- the bitstream holds the prescribed fields of the prepared sequences, over the tables chosen
  have hextraEq := extraBitsFromCodeCounts_ok hne hsequences hlen hcodes
  unfold analyzeAllCodes at hextraEq
  dsimp only at hextraEq
  obtain rfl : payloadBits (sequences.map SequenceCommand.prepared) = extraBits :=
    Except.ok.inj (hextraEq.symm.trans hextra)
  rw [encodeSequenceBitstreamDirectInto_eq hne hsequences hcodes] at hbitstream
  have hprepared : sequences.map SequenceCommand.prepared ≠ [] := by simpa using hne
  have hfits : ∀ s ∈ sequences.map SequenceCommand.prepared, s.Fits := by
    intro s hs
    obtain ⟨sequence, hsequence, rfl⟩ := List.mem_map.1 hs
    exact SequenceCommand.prepared_fits (hsequences sequence hsequence)
  have hmem : ∀ s ∈ sequences.map SequenceCommand.prepared, s.llCode ∈ llCodes ∧ s.ofCode ∈ ofCodes ∧
    s.mlCode ∈ mlCodes := by
    intro s hs
    obtain ⟨sequence, hsequence, rfl⟩ := List.mem_map.1 hs
    rw [hll, hof, hml]
    exact ⟨List.mem_map_of_mem hsequence, List.mem_map_of_mem hsequence, List.mem_map_of_mem hsequence⟩
  rw [← hll] at hreadLl
  rw [← hof] at hreadOf
  rw [← hml] at hreadMl
  generalize htables : SequenceStatisticsBuild.tables _ = cts at hbitstream
  have hctLl : cts.literalLengths = literalChoice.encoding.table := by rw [← htables]; rfl
  have hctOf : cts.offsets = offsetChoice.encoding.table := by rw [← htables]; rfl
  have hctMl : cts.matchLengths = matchChoice.encoding.table := by rw [← htables]; rfl
  obtain ⟨llStates, hcodesLl⟩ := hreadLl.encodes
  obtain ⟨ofStates, hcodesOf⟩ := hreadOf.encodes
  obtain ⟨mlStates, hcodesMl⟩ := hreadMl.encodes
  rw [← hctLl] at hcodesLl
  rw [← hctOf] at hcodesOf
  rw [← hctMl] at hcodesMl
  obtain ⟨fields, hfields, hencode⟩ := encodeSequenceBitstreamInto_ok
    ⟨hcodesLl, hcodesOf, hcodesMl⟩ hprepared hfits hmem
    scratch
  obtain ⟨_, hencode, -⟩ := hencode (detectLongOffsets ofCodes)
  rw [hencode] at hbitstream
  obtain ⟨rfl, -⟩ := Prod.mk.inj (Except.ok.inj hbitstream)
  have hbits : payloadOf fields ≠ [] := by
    obtain ⟨last, hlast, -⟩ := payloadOf_getLast? fields
    intro hempty
    rw [hempty] at hlast
    cases hlast
  obtain ⟨section_, parsed, tables', hparse, hn, hstream, hsetup, hagreeLl, hagreeOf, hagreeMl, hstep'⟩ :=
    parseSequenceSection_choices target hlength hcount hbits hreadLl hreadOf hreadMl
  rw [← hctLl] at hagreeLl
  rw [← hctOf] at hagreeOf
  rw [← hctMl] at hagreeMl
  obtain ⟨_, hpairsLl⟩ := hagreeLl.pairs
  obtain ⟨_, hpairsOf⟩ := hagreeOf.pairs
  obtain ⟨_, hpairsMl⟩ := hagreeMl.pairs
  obtain ⟨places, last, hplaces, hraw⟩ := payload_places hpairsLl hpairsOf hpairsMl hprepared (fun s hs =>
    ⟨hfits s hs, ⟨_, (hmem s hs).1, rfl⟩, ⟨_, (hmem s hs).2.1, rfl⟩, ⟨_, (hmem s hs).2.2, rfl⟩⟩) hfields
    (by rw [hn, List.length_map]) hstream
  refine ⟨section_, parsed, tables', hparse, hn, fun h0 => absurd (hn.symm.trans h0) hlength,
    ⟨(places, some last), ?_, ?_⟩,
    ?_, hstep'⟩
  · unfold ParsedSequenceSection.denotes
    rw [if_neg (by rw [hn]; exact hlength), hsetup, ok_bind, hplaces, ok_bind]
  · unfold ParsedSequenceSection.sequences
    dsimp only [Option.toList_some]
    rw [hraw, List.map_map]
    exact (List.map_congr_left fun s hs => SequenceCommand.prepared_raw (hsequences s hs)).trans
      (List.map_id' sequences)
  · unfold ParsedSequenceSection.tablesBehind
    rw [if_neg (by rw [hn]; exact hlength), hsetup]

end

/-! ## Where a frame starts -/

theorem SequenceEncodingState.inStep_default : SequenceEncodingState.InStep {} {} :=
  ⟨SequencePart.inStep_none _ _, SequencePart.inStep_none _ _, SequencePart.inStep_none _ _⟩

/-- `sequence_encoding_state`: the tables that a dictionary lets the first block repeat. -/
def Dictionary.sequenceEncodingState (d : Dictionary) : SequenceEncodingState :=
  match d.encoderTables with
  | some tables =>
    { literalLengths := some tables.literalLengthEncodingState, offsets := some tables.offsetEncodingState
      matchLengths := some tables.matchLengthEncodingState }
  | none => {}

/-- The two tables that a dictionary's counts make agree. -/
theorem encodingState_inStep {part : SequencePart} {src : Bytes} {counts : ParsedCounts part} {requiredMaxSymbol : Nat}
    {entry : SequenceEncodingPartState} {t : PartDTable part} (hread : readSequenceCounts part src = .ok counts)
    (he : counts.encodingState requiredMaxSymbol = .ok entry) (ht : counts.dtable = .ok t) :
    part.InStep (some entry) (.ofDtable (some t.1)) := by
  obtain ⟨hn, hlog, hle, -⟩ := readNcount_normalized (readSequenceCounts_ok hread)
  have halphabet : part.maxSymbolValue ≤ symbolvalueMax := by cases part <;> decide
  have haccuracy : part.maxAccuracyLog ≤ tablelogMax := by cases part <;> decide
  obtain ⟨ct, entries, hct, hentries, hdual⟩ := buildTables_dual hn (le_trans (by decide) hlog) (hle.trans haccuracy)
    (counts.2.trans halphabet)
  have hdt := ParsedCounts.dtable_ok ht
  unfold buildDtable at hdt
  rw [hentries, ok_bind] at hdt
  have hdtable := (Except.ok.inj hdt).symm
  unfold ParsedCounts.encodingState at he
  obtain ⟨table, htable, he⟩ := bind_ok he
  cases he
  have hsame : table.table = ct := by
    have := fromNormalizedCounts_table htable
    rw [hct] at this
    exact (Except.ok.inj this).symm
  have hagree := hdual.agree part (hle.trans haccuracy)
  rw [← hsame] at hagree
  rintro _ ⟨⟩ -
  refine ⟨rfl, _, rfl, ?_⟩
  have hseq : part.sequenceDtableFrom t.1 = { tableLog := counts.1.tableLog, entries := entries.map part.entry } := by
    rw [hdtable]
    cases part <;> rfl
  dsimp only
  rw [hseq]
  exact hagree.mono fun symbol hsupported => fromNormalizedCounts_supports htable hsupported

/-- A frame that starts from a dictionary starts in step. -/
theorem Dictionary.start_inStep {src : Bytes} {e : Dictionary} {d : DecoderDictionary}
    (he : parse src .encoding = .ok e)
    (hd : DecoderDictionary.parse src = .ok d) : e.sequenceEncodingState.InStep d.sequenceTables := by
  unfold parse at he
  unfold DecoderDictionary.parse at hd
  split at he
  · rename_i hraw
    rw [if_pos hraw] at hd
    cases he
    cases hd
    exact SequenceEncodingState.inStep_default
  rename_i hformatted
  rw [if_neg hformatted] at hd
  unfold parseFormatted at he
  unfold DecoderDictionary.parseFormatted at hd
  obtain ⟨⟨half, size⟩, hhalf, he⟩ := bind_ok he
  obtain ⟨⟨table, size'⟩, htable, hd⟩ := bind_ok hd
  have hdecoding : readHuffmanHalf .decoding (src.drop 8) = .ok (.decoding table, size') := by
    unfold readHuffmanHalf
    dsimp only at htable ⊢
    rw [htable, ok_bind]
  obtain ⟨hsize, stats, entries, repeatValid, _, hhalfEq, -⟩ :=
    (readHuffmanHalf_matches (src.drop 8)).related hhalf hdecoding
  dsimp only at hsize hhalfEq
  subst hsize hhalfEq
  dsimp only at he hd
  obtain ⟨offsets, hoffsets, he⟩ := bind_ok he
  rw [hoffsets, ok_bind] at hd
  obtain ⟨matchLengths, hmatchLengths, he⟩ := bind_ok he
  rw [hmatchLengths, ok_bind] at hd
  obtain ⟨literalLengths, hliteralLengths, he⟩ := bind_ok he
  rw [hliteralLengths, ok_bind] at hd
  split at he
  · cases he
  rename_i hroom
  rw [if_neg hroom] at hd
  obtain ⟨reps, hreps, he⟩ := bind_ok he
  rw [hreps, ok_bind] at hd
  obtain ⟨offsetTable, hoffsetTable, hd⟩ := bind_ok hd
  obtain ⟨matchLengthTable, hmatchLengthTable, hd⟩ := bind_ok hd
  obtain ⟨literalLengthTable, hliteralLengthTable, hd⟩ := bind_ok hd
  cases hd
  obtain ⟨⟨_, _⟩, hbuild, he⟩ := bind_ok he
  cases he
  unfold buildTables at hbuild
  obtain ⟨offsetState, hoffsetState, hbuild⟩ := bind_ok hbuild
  obtain ⟨matchLengthState, hmatchLengthState, hbuild⟩ := bind_ok hbuild
  obtain ⟨literalLengthState, hliteralLengthState, hbuild⟩ := bind_ok hbuild
  cases hbuild
  exact ⟨encodingState_inStep hliteralLengths hliteralLengthState hliteralLengthTable,
    encodingState_inStep hoffsets hoffsetState hoffsetTable,
    encodingState_inStep hmatchLengths hmatchLengthState hmatchLengthTable⟩

/-! ## The sections of a frame -/

/-- What a block encodes its sequences with, and the sequences. -/
structure SectionInput where
  parserStrategy : ParserStrategy
  codesPrecomputed : Bool
  bitstreamScratch : Bytes
  sequences : List SequenceCommand

/-- The sections of consecutive blocks. -/
def encodeSections : List SectionInput → SequenceEncodingState → Result (List Bytes × SequenceEncodingState)
  | [], state => .ok ([], state)
  | block :: blocks, state => do
    let (payload, state, _) ← encodeSequences state block.parserStrategy block.bitstreamScratch block.codesPrecomputed
      block.sequences
    let (payloads, state) ← encodeSections blocks state
    .ok (payload :: payloads, state)

/-- The sequences that the bits of a section denote, and the tables behind it. -/
def decodeSection (target : TableTarget) (payload : Bytes) (tables : SequenceTablesState) :
    Result (List SequenceCommand × SequenceTablesState) := do
  let (section_, parsed) ← parseSequenceSection payload tables target
  if section_.numberOfSequences = 0 ∧ section_.headerSize ≠ payload.length then
    .error (.corruption "zero-sequence blocks must not contain additional sequence payload") else
  let places ← section_.denotes parsed
  let tables ← section_.tablesBehind parsed
  .ok (section_.sequences places, tables)

def decodeSections (target : TableTarget) : List Bytes → SequenceTablesState →
    Result (List (List SequenceCommand) × SequenceTablesState)
  | [], tables => .ok ([], tables)
  | payload :: payloads, tables => do
    let (sequences, tables) ← decodeSection target payload tables
    let (rest, tables) ← decodeSections target payloads tables
    .ok (sequences :: rest, tables)

theorem SectionReads.decodeSection {target : TableTarget} {payload : Bytes} {sequences : List SequenceCommand}
    {tables parsed tables' : SequenceTablesState} {state' : SequenceEncodingState} {section_ : ParsedSequenceSection}
    (h : SectionReads target payload sequences tables state' section_ parsed tables') :
    decodeSection target payload tables = .ok (sequences, tables') := by
  obtain ⟨places, hplaces, hsequences⟩ := h.denotes
  unfold Zstandard.decodeSection
  rw [h.parse, ok_bind]
  dsimp only
  rw [if_neg (fun hall => hall.2 (h.all hall.1)), hplaces, ok_bind, h.behind, ok_bind, hsequences]

/-- What the two sides of a frame start with: nothing, or the halves of one dictionary. -/
inductive FrameTables : SequenceEncodingState → SequenceTablesState → Prop
  | fresh : FrameTables {} {}
  | dictionary {src : Bytes} {e : Dictionary} {d : DecoderDictionary} (he : Dictionary.parse src .encoding = .ok e)
    (hd : DecoderDictionary.parse src = .ok d) : FrameTables e.sequenceEncodingState d.sequenceTables

theorem FrameTables.inStep {state : SequenceEncodingState} {tables : SequenceTablesState}
    (h : FrameTables state tables) :
    state.InStep tables := by
  cases h with
  | fresh => exact SequenceEncodingState.inStep_default
  | dictionary he hd => exact Dictionary.start_inStep he hd

/-- From two sides in step the sections of the blocks decode to their sequences, and the sides stay in step. -/
theorem encodeSections_inStep (target : TableTarget) : ∀ {blocks : List SectionInput}
    {state state' : SequenceEncodingState}
    {tables : SequenceTablesState} {payloads : List Bytes}, (∀ block ∈ blocks, ∀ s ∈ block.sequences, s.InRange) →
    state.InStep tables → encodeSections blocks state = .ok (payloads, state') →
    ∃ tables', decodeSections target payloads tables = .ok (blocks.map (·.sequences), tables') ∧ state'.InStep tables'
  | [], _, _, tables, _, _, hstep, h => by
    cases h
    exact ⟨tables, rfl, hstep⟩
  | block :: blocks, _, _, _, _, hblocks, hstep, h => by
    obtain ⟨⟨payload, next, stats⟩, hblock, h⟩ := bind_ok h
    obtain ⟨⟨payloads, last⟩, hrest, h⟩ := bind_ok h
    cases h
    obtain ⟨section_, parsed, tables', hreads⟩ :=
      encodeSequences_reads (hblocks block List.mem_cons_self) hstep hblock target
    obtain ⟨tables'', hdecode, hstep''⟩ :=
      encodeSections_inStep target (fun b hb => hblocks b (List.mem_cons_of_mem _ hb)) hreads.inStep hrest
    refine ⟨tables'', ?_, hstep''⟩
    unfold decodeSections
    rw [hreads.decodeSection, ok_bind]
    dsimp only
    rw [hdecode, ok_bind]
    rfl

/-- The sections of a frame's blocks decode to the blocks' sequences, whatever tables each block chooses, from a fresh
frame and from a dictionary; and after them the decoder has of every table that the encoder may repeat one of the same
code. -/
theorem encodeSections_decode {blocks : List SectionInput} {state state' : SequenceEncodingState}
    {tables : SequenceTablesState} {payloads : List Bytes} (hstart : FrameTables state tables)
    (hblocks : ∀ block ∈ blocks, ∀ s ∈ block.sequences, s.InRange)
    (h : encodeSections blocks state = .ok (payloads, state')) (target : TableTarget) :
    ∃ tables', decodeSections target payloads tables = .ok (blocks.map (·.sequences), tables') ∧
    state'.InStep tables' :=
  encodeSections_inStep target hblocks hstart.inStep h

/-- A block with described tables, and one that repeats them. -/
def twoSections : List SectionInput :=
  let sequences := List.replicate 36 ⟨2, 4, 16⟩ ++ List.replicate 36 ⟨70, 5, 9⟩
  [⟨.fast, true, [], sequences⟩, ⟨.lazy, false, [7], sequences⟩]

theorem encodeSections_decode_two : ∃ payloads tables',
    decodeSections .sequenceOnly payloads {} = .ok (twoSections.map (·.sequences), tables') := by
  have hok : (encodeSections twoSections {}).isOk = true := by decide +kernel
  have hsequences : ∀ s ∈ List.replicate 36 (⟨2, 4, 16⟩ : SequenceCommand) ++ List.replicate 36 ⟨70, 5, 9⟩,
      SequenceCommand.InRange s := by
    intro s hs
    rcases List.mem_append.1 hs with hs | hs <;> rw [List.eq_of_mem_replicate hs] <;> constructor <;> norm_num
  have hblocks : ∀ block ∈ twoSections, ∀ s ∈ block.sequences, SequenceCommand.InRange s := by
    rintro block (_ | ⟨_, _ | ⟨_, hblock⟩⟩)
    · exact hsequences
    · exact hsequences
    · cases hblock
  cases h : encodeSections twoSections {} with
  | error e => rw [h] at hok; cases hok
  | ok r =>
    obtain ⟨tables', hdecode, -⟩ := encodeSections_decode .fresh hblocks h .sequenceOnly
    exact ⟨r.1, tables', hdecode⟩

end Zstandard
