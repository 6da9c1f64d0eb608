/-
The decoder reads back the sequence bitstream.

A compression table and a decode table pair up when the entry at every state that the encoder comes to names the symbol
it encoded there and undoes the transition (`SequencePart.Pairs`). Over paired tables the fields that the format
prescribes for a list of sequences, read from the top, are the places of those sequences: the induction is on the list,
last sequence first, as the encoder goes, and the place in front of a sequence leads to the place in front of the rest.
-/
import Zstandard.Decode.Places
import Zstandard.Encode.SequenceBitstream

namespace Zstandard

open Fse BitStack

/-! ## Paired tables -/

/-- The tables of the two sides of one alphabet: of the encoder's states each names in the decoder's table the symbol
encoded there, and how the state before it is found again. -/
structure SequencePart.PairsOver (part : SequencePart) (ct : CTable) (t : SequenceDTable)
    (states symbols : Nat → Prop) :
    Prop where
  log : t.tableLog = ct.tableLog
  init : ∀ {symbol}, symbols symbol → ∃ first newState nbBits, initCstate2 ct symbol = .ok first ∧ states first ∧
    entryAt t (first % 2 ^ ct.tableLog) = .ok (part.entry { newState, symbol, nbBits })
  step : ∀ {symbol value}, symbols symbol → states value → ∃ nbBits next newState,
    encodeState ct value symbol = .ok (nbBits, next) ∧ states next ∧
      entryAt t (next % 2 ^ ct.tableLog) = .ok (part.entry { newState, symbol, nbBits }) ∧
      newState + value % 2 ^ nbBits = value % 2 ^ ct.tableLog

/-- The two tables are of one code, which has all of `symbols`. -/
def SequencePart.Pairs (part : SequencePart) (ct : CTable) (t : SequenceDTable) (symbols : Nat → Prop) : Prop :=
  ∃ states, part.PairsOver ct t states symbols

theorem SequencePart.Pairs.mono {part : SequencePart} {ct : CTable} {t : SequenceDTable} {symbols symbols' : Nat → Prop}
    (h : part.Pairs ct t symbols) (hsymbols : ∀ s, symbols' s → symbols s) : part.Pairs ct t symbols' := by
  obtain ⟨states, hpairs⟩ := h
  exact ⟨states, hpairs.log, fun hs => hpairs.init (hsymbols _ hs), fun hs => hpairs.step (hsymbols _ hs)⟩

/-- Dual tables pair up over the symbols that have a share. -/
theorem Fse.Dual.pairs {part : SequencePart} {tableLog : Nat} {states : Nat → Prop} {share : Nat → Nat} {ct : CTable}
    {entries : List DecodeEntry} (h : Dual tableLog states share ct entries) :
    part.Pairs ct { tableLog, entries := entries.map part.entry } (share · ≠ 0) := by
  obtain rfl := h.tableLog_eq
  have hentry : ∀ {state : Nat} {d : DecodeEntry}, entries[state]? = some d →
      entryAt { tableLog := ct.tableLog, entries := entries.map part.entry } state = .ok (part.entry d) := by
    intro state d hd
    unfold entryAt
    rw [List.getElem?_map, hd]
    rfl
  refine ⟨states, rfl, ?_, ?_⟩
  · intro symbol hs
    obtain ⟨first, newState, nbBits, hinit, hfirst, hd, -⟩ := h.init hs
    exact ⟨first, newState, nbBits, hinit, hfirst, hentry hd⟩
  · intro symbol value hs hv
    obtain ⟨nbBits, next, newState, hstep, -, hnext, hd, hsum⟩ := h.step hs hv
    exact ⟨nbBits, next, newState, hstep, hnext, hentry hd, hsum⟩

/-! ## One sequence -/

/-- A sequence as a decoder gives it. -/
def EncodedSequence.raw (s : EncodedSequence) : RawSequence where
  literalLength := literalLengthBaselines.getD s.llCode.toNat 0 + s.llExtra
  matchLength := matchLengthBaselines.getD s.mlCode.toNat 0 + s.mlExtra
  offsetValue := 2 ^ s.ofCode.toNat + s.ofExtra

/-- A command in range is what its codes and extra bits say. -/
theorem SequenceCommand.prepared_raw {s : SequenceCommand} (h : s.InRange) :
    s.prepared.raw = { literalLength := s.literalLength, matchLength := s.matchLength, offsetValue :=
      s.offsetValue } := by
  obtain ⟨-, hllBase, -⟩ := literalLengthCode_spec h.literalLength_le
  obtain ⟨-, hmlBase, -⟩ := matchLengthCode_spec h.le_matchLength h.matchLength_le
  have hllLe := literalLengthCode_le h.literalLength_le
  have hmlLe := matchLengthCode_le h.matchLength_le
  have hofLt : offsetCodeUnchecked s.offsetValue < 32 := (Nat.log2_lt h.offsetValue_pos.ne').2 h.offsetValue_lt
  have hself : 2 ^ offsetCodeUnchecked s.offsetValue ≤ s.offsetValue := Nat.log2_self_le h.offsetValue_pos.ne'
  unfold EncodedSequence.raw SequenceCommand.prepared SequencePart.code
  dsimp only
  rw [toNat_ofNat_small (by omega), toNat_ofNat_small (by omega), toNat_ofNat_small (by omega),
    Nat.add_sub_cancel' hllBase, Nat.add_sub_cancel' hmlBase, Nat.add_sub_cancel' hself]

/-- A place whose entries are those of the codes of `s`. -/
structure SequencePlace.Names (place : SequencePlace) (s : EncodedSequence) : Prop where
  lit : ∃ newState nbBits, place.lit = SequencePart.literalLength.entry { newState, symbol := s.llCode.toNat, nbBits }
  off : ∃ newState nbBits, place.off = SequencePart.offset.entry { newState, symbol := s.ofCode.toNat, nbBits }
  ml : ∃ newState nbBits, place.ml = SequencePart.matchLength.entry { newState, symbol := s.mlCode.toNat, nbBits }

/-- The extra bits of a sequence are on top of the stack below its place. -/
theorem SequencePlace.Names.reads {place : SequencePlace} {s : EncodedSequence} {stream : Nat} {fs : List Field}
    (h : place.Names s) (hfits : s.Fits) (hreads : Reads stream place.left (fs ++ s.extraFields)) :
    place.extraBits = width s.extraFields ∧ place.extraBits ≤ place.left ∧ place.sequence stream = s.raw ∧
      Reads stream (place.left - place.extraBits) fs := by
  obtain ⟨_, _, hlit⟩ := h.lit
  obtain ⟨_, _, hoff⟩ := h.off
  obtain ⟨_, _, hml⟩ := h.ml
  have hlitBits : place.lit.nbAdditionalBits = literalLengthExtraBits.getD s.llCode.toNat 0 := by rw [hlit]; rfl
  have hoffBits : place.off.nbAdditionalBits = s.ofCode.toNat := by rw [hoff]; rfl
  have hmlBits : place.ml.nbAdditionalBits = matchLengthExtraBits.getD s.mlCode.toNat 0 := by rw [hml]; rfl
  have hlitBase : place.lit.baseline = literalLengthBaselines.getD s.llCode.toNat 0 := by rw [hlit]; rfl
  have hmlBase : place.ml.baseline = matchLengthBaselines.getD s.mlCode.toNat 0 := by rw [hml]; rfl
  have hfields : fs ++ s.extraFields =
      ((fs ++ [(s.llExtra, place.lit.nbAdditionalBits)]) ++ [(s.mlExtra, place.ml.nbAdditionalBits)]) ++
        [(s.ofExtra, place.off.nbAdditionalBits)] := by
    rw [hlitBits, hoffBits, hmlBits]
    simp [EncodedSequence.extraFields]
  have hwidth : place.extraBits = width s.extraFields := by
    unfold SequencePlace.extraBits EncodedSequence.extraFields
    rw [hlitBits, hoffBits, hmlBits]
    simp only [width_cons, width_nil]
    omega
  rw [hfields] at hreads
  have hoffLe := hreads.width_le
  have hmlReads := hreads.pop
  have hmlLe := hmlReads.width_le
  have hlitReads := hmlReads.pop
  have hlitLe := hlitReads.width_le
  refine ⟨hwidth, by unfold SequencePlace.extraBits; omega, ?_, ?_⟩
  · unfold SequencePlace.sequence EncodedSequence.raw
    rw [hreads.field, hmlReads.field, hlitReads.field, hlitBase, hmlBase, hoffBits, hmlBits, hlitBits,
      Nat.mod_eq_of_lt hfits.llExtra_lt, Nat.mod_eq_of_lt hfits.mlExtra_lt, Nat.mod_eq_of_lt hfits.ofExtra_lt]
  · have hbelow := hlitReads.pop
    unfold SequencePlace.extraBits
    rwa [Nat.sub_sub, Nat.sub_sub, ← Nat.add_assoc] at hbelow

/-! ## All sequences -/

section

variable {cts : SequenceCTables} {tables : SequenceTablesState} {ll of ml llSymbols ofSymbols mlSymbols : Nat → Prop}

/-- The codes of a sequence are among the symbols of the tables. -/
structure EncodedSequence.Within (s : EncodedSequence) (llSymbols ofSymbols mlSymbols : Nat → Prop) : Prop where
  fits : s.Fits
  ll : llSymbols s.llCode.toNat
  of : ofSymbols s.ofCode.toNat
  ml : mlSymbols s.mlCode.toNat

/-- A place in front of the fields of some sequences, with the entries of the states there. -/
structure SequencePlace.InFront (cts : SequenceCTables) (tables : SequenceTablesState) (states : SequenceStates)
    (s : SequencePlace) : Prop where
  lit : entryAt tables.literalLengths.seq (states.literalLength % 2 ^ cts.literalLengths.tableLog) = .ok s.lit
  off : entryAt tables.offsets.seq (states.offset % 2 ^ cts.offsets.tableLog) = .ok s.off
  ml : entryAt tables.matchLengths.seq (states.matchLength % 2 ^ cts.matchLengths.tableLog) = .ok s.ml

/-- The walk from a place covers these sequences, and ends where the payload does. -/
def SequencePlace.Covers (stream : Nat) (tables : SequenceTablesState) (s : SequencePlace)
    (sequences : List EncodedSequence) : Prop :=
  ∃ places last, walk stream tables (sequences.length - 1) s = .ok (places, last) ∧ last.left = last.extraBits ∧
    (places ++ [last]).map (·.sequence stream) = sequences.map EncodedSequence.raw

/-- From in front of the prescribed fields of a list of sequences the decoder walks through these sequences. -/
theorem sequenceFields_covers (hll : SequencePart.literalLength.PairsOver cts.literalLengths
    tables.literalLengths.seq ll
      llSymbols) (hof : SequencePart.offset.PairsOver cts.offsets tables.offsets.seq of ofSymbols)
    (hml : SequencePart.matchLength.PairsOver cts.matchLengths tables.matchLengths.seq ml mlSymbols) :
    ∀ {sequences : List EncodedSequence}, sequences ≠ [] →
      (∀ s ∈ sequences, s.Within llSymbols ofSymbols mlSymbols) →
      ∃ states fields, sequenceFields cts sequences = .ok (states, fields) ∧ ll states.literalLength ∧
      of states.offset ∧
        ml states.matchLength ∧ ∃ lit off m, ∀ {stream p : Nat}, Reads stream p fields →
          SequencePlace.InFront cts tables states ⟨p, lit, off, m⟩ ∧
            SequencePlace.Covers stream tables ⟨p, lit, off, m⟩ sequences
  | [], hne, _ => absurd rfl hne
  | [last], _, hwithin => by
    have hlast := hwithin last List.mem_cons_self
    obtain ⟨stateLl, newLl, bitsLl, hinitLl, hstateLl, hentryLl⟩ := hll.init hlast.ll
    obtain ⟨stateOf, newOf, bitsOf, hinitOf, hstateOf, hentryOf⟩ := hof.init hlast.of
    obtain ⟨stateMl, newMl, bitsMl, hinitMl, hstateMl, hentryMl⟩ := hml.init hlast.ml
    refine ⟨⟨stateMl, stateOf, stateLl⟩, last.extraFields, ?_, hstateLl, hstateOf, hstateMl, _, _, _,
      fun {stream p} hreads => ⟨⟨hentryLl, hentryOf, hentryMl⟩, [], _, rfl, ?_, ?_⟩⟩
    · unfold sequenceFields
      rw [hinitMl, ok_bind, hinitOf, ok_bind, hinitLl, ok_bind]
    all_goals
      have hnames : SequencePlace.Names ⟨p, SequencePart.literalLength.entry ⟨newLl, last.llCode.toNat, bitsLl⟩,
          SequencePart.offset.entry ⟨newOf, last.ofCode.toNat, bitsOf⟩,
          SequencePart.matchLength.entry ⟨newMl, last.mlCode.toNat, bitsMl⟩⟩ last :=
        ⟨⟨_, _, rfl⟩, ⟨_, _, rfl⟩, ⟨_, _, rfl⟩⟩
      have hempty : Reads stream p ([] ++ last.extraFields) := hreads
      obtain ⟨hextra, -, hraw, -⟩ := hnames.reads hlast.fits hempty
    · exact hreads.depth.trans hextra.symm
    · exact congrArg (fun r => [r]) hraw
  | s :: next :: rest, _, hwithin => by
    have hs := hwithin s List.mem_cons_self
    obtain ⟨states, fields, hrest, hstateLl, hstateOf, hstateMl, lit, off, m, hcovers⟩ :=
      sequenceFields_covers hll hof hml (List.cons_ne_nil next rest) fun s' hs' =>
        hwithin s' (List.mem_cons_of_mem _ hs')
    obtain ⟨nLl, stateLl, newLl, hencLl, hstateLl', hentryLl, hsumLl⟩ := hll.step hs.ll hstateLl
    obtain ⟨nOf, stateOf, newOf, hencOf, hstateOf', hentryOf, hsumOf⟩ := hof.step hs.of hstateOf
    obtain ⟨nMl, stateMl, newMl, hencMl, hstateMl', hentryMl, hsumMl⟩ := hml.step hs.ml hstateMl
    refine ⟨⟨stateMl, stateOf, stateLl⟩, fields ++ [(states.offset, nOf), (states.matchLength, nMl),
      (states.literalLength, nLl)] ++ s.extraFields, ?_, hstateLl', hstateOf', hstateMl', _, _, _,
      fun {stream p} hreads => ⟨⟨hentryLl, hentryOf, hentryMl⟩, ?_⟩⟩
    · rw [sequenceFields, hrest, ok_bind]
      dsimp only
      rw [hencOf, ok_bind, hencMl, ok_bind, hencLl, ok_bind]
      simp
    let place : SequencePlace :=
      ⟨p, SequencePart.literalLength.entry ⟨newLl, s.llCode.toNat, nLl⟩,
        SequencePart.offset.entry ⟨newOf, s.ofCode.toNat, nOf⟩,
          SequencePart.matchLength.entry ⟨newMl, s.mlCode.toNat, nMl⟩⟩
    have hnames : place.Names s := ⟨⟨_, _, rfl⟩, ⟨_, _, rfl⟩, ⟨_, _, rfl⟩⟩
    obtain ⟨-, hextraLe, hraw, hbelow⟩ := hnames.reads hs.fits hreads
    -- below the extra bits are the bits of the three updates
    have hsplit : fields ++ [(states.offset, nOf), (states.matchLength, nMl), (states.literalLength, nLl)] =
        ((fields ++ [(states.offset, nOf)]) ++ [(states.matchLength, nMl)]) ++ [(states.literalLength, nLl)] := by simp
    rw [hsplit] at hbelow
    have hmlReads := hbelow.pop
    have hofReads := hmlReads.pop
    have hllLe := hbelow.width_le
    have hmlLe := hmlReads.width_le
    have hofLe := hofReads.width_le
    obtain ⟨hfront, places, last, hwalk, hleft, hsame⟩ := hcovers hofReads.pop
    have hbits : place.stateBits = nLl + nMl + nOf := rfl
    have hnext : place.next stream tables = .ok ⟨place.left - place.extraBits - nLl - nMl - nOf, lit, off, m⟩ := by
      unfold SequencePlace.next
      rw [if_neg (by rw [hbits]; omega)]
      dsimp only
      have hl : place.lit.newState + field stream (place.left - place.extraBits) place.lit.nbBits =
          states.literalLength % 2 ^ cts.literalLengths.tableLog := (congrArg (newLl + ·) hbelow.field).trans hsumLl
      have hm : place.ml.newState + field stream (place.left - place.extraBits - place.lit.nbBits) place.ml.nbBits =
          states.matchLength % 2 ^ cts.matchLengths.tableLog := (congrArg (newMl + ·) hmlReads.field).trans hsumMl
      have ho : place.off.newState + field stream (place.left - place.extraBits - place.lit.nbBits - place.ml.nbBits)
          place.off.nbBits = states.offset % 2 ^ cts.offsets.tableLog :=
            (congrArg (newOf + ·) hofReads.field).trans hsumOf
      rw [hl, hm, ho, hfront.lit, ok_bind, hfront.ml, ok_bind, hfront.off, ok_bind, hbits, ← Nat.sub_sub, ← Nat.sub_sub]
    refine ⟨place :: places, last, ?_, hleft, ?_⟩
    · show SequencePlace.walk stream tables (rest.length + 1) place = _
      rw [SequencePlace.walk, hnext, ok_bind]
      rw [show (next :: rest).length - 1 = rest.length from rfl] at hwalk
      rw [hwalk, ok_bind]
    · rw [List.cons_append, List.map_cons, List.map_cons, hraw, hsame]

/-- The payload of some fields: their bits and the mark above them. -/
def payloadOf (fields : List Field) : Bytes := writeLe (pack fields + 2 ^ width fields) (width fields / 8 + 1)

theorem readLe_payloadOf (fields : List Field) : readLe (payloadOf fields) = pack fields + 2 ^ width fields := by
  refine readLe_writeLe _ _ ?_
  have hlt := pack_lt fields
  have hpow : 2 ^ (width fields + 1) ≤ 2 ^ (8 * (width fields / 8 + 1)) := Nat.pow_le_pow_right (by norm_num) (by omega)
  rw [pow_256]
  rw [pow_succ] at hpow
  omega

/-- The mark is in the last byte. -/
theorem payloadOf_getLast? (fields : List Field) : ∃ last, (payloadOf fields).getLast? = some last ∧ last ≠ 0 := by
  have hread := readLe_payloadOf fields
  have hlength : (payloadOf fields).length = width fields / 8 + 1 := writeLe_length _ _
  obtain ⟨d, hd⟩ : ∃ d, BitDStream.new (payloadOf fields) = .ok d := by
    refine BitDStream.new_ok (fun h0 => by rw [h0] at hlength; cases hlength) ?_
    have hpow : 2 ^ (8 * (width fields / 8 + 1 - 1)) ≤ 2 ^ width fields := Nat.pow_le_pow_right (by norm_num) (by omega)
    rw [hread, hlength, pow_256]
    omega
  unfold BitDStream.new at hd
  split at hd
  · cases hd
  · rename_i last hlast
    split at hd
    · cases hd
    · exact ⟨last, hlast, ‹_›⟩

/-- The states on top of the stream. -/
def SequenceStates.fields (states : SequenceStates) (cts : SequenceCTables) : List Field :=
  [(states.matchLength, cts.matchLengths.tableLog), (states.offset, cts.offsets.tableLog),
    (states.literalLength, cts.literalLengths.tableLog)]

/-- The sequences of an encoded payload are those that were encoded, and they take up all of it. -/
theorem payload_places (hll : SequencePart.literalLength.PairsOver cts.literalLengths tables.literalLengths.seq ll
      llSymbols) (hof : SequencePart.offset.PairsOver cts.offsets tables.offsets.seq of ofSymbols)
    (hml : SequencePart.matchLength.PairsOver cts.matchLengths tables.matchLengths.seq ml mlSymbols)
    {sequences : List EncodedSequence} (hne : sequences ≠ [])
    (hwithin : ∀ s ∈ sequences, s.Within llSymbols ofSymbols mlSymbols) {fields : List Field}
    (hfields : prescribedFields cts sequences = .ok fields) {section_ : ParsedSequenceSection}
    (hcount : section_.numberOfSequences = sequences.length) (hbits : section_.bitstream = payloadOf fields) :
    ∃ places last, section_.places tables = .ok (places, last) ∧
      (places ++ [last]).map (·.sequence (readLe section_.bitstream)) = sequences.map EncodedSequence.raw := by
  obtain ⟨states, below, hbelow, -, -, -, lit, off, m, hcovers⟩ := sequenceFields_covers hll hof hml hne hwithin
  unfold prescribedFields at hfields
  rw [hbelow, ok_bind] at hfields
  obtain rfl : below ++ states.fields cts = fields := Except.ok.inj hfields
  have hread := readLe_payloadOf (below ++ states.fields cts)
  obtain ⟨lastByte, hlastByte, hmark⟩ := payloadOf_getLast? (below ++ states.fields cts)
  rw [← hbits] at hread hlastByte
  have hreads := Reads.marked (below ++ states.fields cts)
  have htop : Nat.log2 (readLe section_.bitstream) = width (below ++ states.fields cts) := by
    have hlog := log2_add_mul (pack_lt (below ++ states.fields cts))
      (show 1 ≠ 0 by norm_num)
    rw [Nat.mul_one, show Nat.log2 1 = 0 by rfl, Nat.add_zero] at hlog
    rw [hread, hlog]
  rw [← hread, ← htop] at hreads
  -- the initial states, that of the literal length on top
  rw [show below ++ states.fields cts =
    ((below ++ [(states.matchLength, cts.matchLengths.tableLog)]) ++ [(states.offset, cts.offsets.tableLog)]) ++
      [(states.literalLength, cts.literalLengths.tableLog)] by simp [SequenceStates.fields]] at hreads
  have hofReads := hreads.pop
  have hmlReads := hofReads.pop
  have hllLe := hreads.width_le
  have hofLe := hofReads.width_le
  have hmlLe := hmlReads.width_le
  obtain ⟨hfront, places, last, hwalk, hleft, hsame⟩ := hcovers hmlReads.pop
  refine ⟨places, last, ?_, hsame⟩
  have hfirst : firstPlace section_.bitstream tables =
      .ok ⟨Nat.log2 (readLe section_.bitstream) - cts.literalLengths.tableLog - cts.offsets.tableLog -
        cts.matchLengths.tableLog, lit, off, m⟩ := by
    unfold firstPlace
    rw [hlastByte]
    dsimp only
    rw [if_neg hmark, hll.log, hof.log, hml.log, if_neg (by omega), hreads.field, hofReads.field, hmlReads.field,
      hfront.lit, ok_bind, hfront.off, ok_bind, hfront.ml, ok_bind]
  unfold ParsedSequenceSection.places
  dsimp only
  rw [hfirst, ok_bind, hcount, hwalk, ok_bind]
  exact if_neg (not_not.2 hleft)

end

end Zstandard
