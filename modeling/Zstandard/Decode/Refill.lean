/-
The command-list decoder reads what the fused one reads, as long as its container lasts.

The fused decoder refills before the literal bits whenever a sequence is wide, the command-list decoder
only when the literal bits themselves do not fit. Between refills the first never needs more than the
57 bits a refill leaves; the second may (`SequencePlace.spills`), and then reports an overflow in the
middle of the payload.
-/
import Zstandard.Decode.Commands
import Zstandard.Decode.Places

namespace Zstandard

open Fse BitStack Simulation

/-! ## The tables of the two decoders -/

/-- The tables of the fused decoder are made from the plain ones. -/
structure TablesFrom (tables : SequenceTablesState) (t : CommandTables) : Prop where
  literalLengths : tables.literalLengths.seq = SequencePart.literalLength.sequenceDtableFrom t.literalLengths
  offsets : tables.offsets.seq = SequencePart.offset.sequenceDtableFrom t.offsets
  matchLengths : tables.matchLengths.seq = SequencePart.matchLength.sequenceDtableFrom t.matchLengths

theorem entryAt_sequenceDtableFrom (part : SequencePart) (dt : DTable) (state : Nat) :
    entryAt (part.sequenceDtableFrom dt) state = part.entry <$> plainEntryAt dt state := by
  unfold entryAt plainEntryAt
  rw [part.sequenceDtableFrom_entries, List.getElem?_map]
  cases dt.entries[state]? <;> rfl

@[simp] theorem sequenceDtableFrom_tableLog (part : SequencePart) (dt : DTable) :
    (part.sequenceDtableFrom dt).tableLog = dt.tableLog := by cases part <;> rfl

/-- Looking up one state in both tables. -/
theorem entryAt_matches {part : SequencePart} {t : SequenceDTable} {dt : DTable} (ht : t = part.sequenceDtableFrom dt)
    (state : Nat) : Matches (fun d e => e = part.entry d ∧ e ∈ t.entries) (plainEntryAt dt state)
    (entryAt t state) := by
  cases h : plainEntryAt dt state with
  | error e =>
    rw [ht, entryAt_sequenceDtableFrom, h]
    exact .of_error e e
  | ok d =>
    have he : entryAt t state = .ok (part.entry d) := by
      rw [ht, entryAt_sequenceDtableFrom, h]
      rfl
    rw [he]
    exact .of_ok ⟨rfl, entryAt_mem he⟩

/-- The reader of the command-list decoder stands, refilled, at a place of the payload. -/
structure CommandAt (src : Bytes) (r : CommandReader) (s : SequencePlace) : Prop where
  src : r.bitD.src = src
  «at» : r.bitD.At s.left
  settled : r.bitD.Settled
  lit : s.lit = SequencePart.literalLength.entry r.lit
  off : s.off = SequencePart.offset.entry r.off
  ml : s.ml = SequencePart.matchLength.entry r.ml
  narrow : s.Narrow

/-! ## Spills -/

/-- The command-list decoder runs out of its container here. At most 64 bits lie below the byte the
place is in; the sequence's own bits are within them, so that nothing is refilled before the literal
bits, but the bits of the state updates are not. -/
def SequencePlace.spills (s : SequencePlace) : Bool :=
  let above := (8 - s.left % 8) % 8
  (s.lit.nbAdditionalBits = 0 || above + s.extraBits ≤ 64) && 64 < above + s.extraBits + s.stateBits

section
variable {src : Bytes} {tables : SequenceTablesState} {t : CommandTables} {r : CommandReader} {s : SequencePlace}

/-- The command-list decoder reads one sequence: the bits the fused decoder reads. The state updates
find theirs exactly where the sequence does not spill. -/
theorem decodeCommand_reads (h : CommandAt src r s) :
    (decodeCommand r).2.src = src ∧ (decodeCommand r).2.StandsAt (s.left - s.extraBits) ∧
      (s.extraBits + s.stateBits ≤ s.left → ((decodeCommand r).2.Holds s.stateBits ↔ s.spills = false)) ∧
      (s.extraBits ≤ s.left → (decodeCommand r).1 = s.sequence (readLe src)) := by
  have hof := h.narrow.offExtra
  have hml := h.narrow.mlExtra
  have hlit := h.narrow.litExtra
  have hst := h.narrow.stateBits
  have hs := h.settled
  have h0 := h.at.standsAt
  have hpos := h.at.position
  have hcon := h.at.consumed
  have eof : r.off.symbol = s.off.nbAdditionalBits := by rw [h.off]; rfl
  have eml : matchLengthExtraBits.getD r.ml.symbol 0 = s.ml.nbAdditionalBits := by rw [h.ml]; rfl
  have elit : literalLengthExtraBits.getD r.lit.symbol 0 = s.lit.nbAdditionalBits := by rw [h.lit]; rfl
  have ebl : literalLengthBaselines.getD r.lit.symbol 0 = s.lit.baseline := by rw [h.lit]; rfl
  have ebm : matchLengthBaselines.getD r.ml.symbol 0 = s.ml.baseline := by rw [h.ml]; rfl
  unfold SequencePlace.spills SequencePlace.extraBits SequencePlace.sequence decodeCommand
  simp only [BitDStream.readBitsFastZeroSafe_snd, eof, eml, elit, ebl, ebm]
  rw [← h.src]
  generalize s.off.nbAdditionalBits = of at *
  generalize s.ml.nbAdditionalBits = ml at *
  generalize s.lit.nbAdditionalBits = lit at *
  generalize s.stateBits = st at *
  have room1 : r.bitD.Holds of ∨ r.bitD.ptr = 0 := hs.room (by omega)
  have h1 := h0.skip room1
  have room2 : (r.bitD.skipBits of).Holds ml ∨ (r.bitD.skipBits of).ptr = 0 := by
    have := hs.room (n := of + ml) (by omega)
    unfold BitDStream.Holds at *
    simp only [BitDStream.skipBits_bitsConsumed, BitDStream.skipBits_ptr]
    omega
  have h2 := h1.skip room2
  have hcan : ((r.bitD.skipBits of).skipBits ml).canReadFast lit =
      (decide (lit ≠ 0) && decide (r.bitD.bitsConsumed + (of + ml + lit) ≤ 64)) := by
    unfold BitDStream.canReadFast containerBits
    simp only [BitDStream.skipBits_bitsConsumed]
    congr 2
    rw [show r.bitD.bitsConsumed + of + ml + lit = r.bitD.bitsConsumed + (of + ml + lit) by omega]
  rw [hcan]
  -- the refill only where the literal bits do not fit
  generalize hd2 : (if lit ≠ 0 ∧ ¬ (decide (lit ≠ 0) && decide (r.bitD.bitsConsumed + (of + ml + lit) ≤ 64)) = true then
    ((r.bitD.skipBits of).skipBits ml).reload.2 else (r.bitD.skipBits of).skipBits ml) = d2
  have hcases : (lit ≠ 0 ∧ 64 < r.bitD.bitsConsumed + (of + ml + lit) ∧
    d2 = ((r.bitD.skipBits of).skipBits ml).reload.2) ∨
      ((lit = 0 ∨ r.bitD.bitsConsumed + (of + ml + lit) ≤ 64) ∧ d2 = (r.bitD.skipBits of).skipBits ml) := by
    rw [← hd2]
    by_cases h0 : lit = 0
    · simp [h0]
    · by_cases hfit : r.bitD.bitsConsumed + (of + ml + lit) ≤ 64
      · simp [h0, hfit]
      · simp [h0, hfit]
        omega
  have hd2' : d2.src = r.bitD.src ∧ d2.StandsAt (s.left - of - ml) ∧ (d2.Holds lit ∨ d2.ptr = 0) := by
    rcases hcases with ⟨-, -, rfl⟩ | ⟨hfit, rfl⟩
    · obtain ⟨-, h3, h4⟩ := h2.reload
      exact ⟨by simp, h3, h4.room (by omega)⟩
    · refine ⟨rfl, h2, ?_⟩
      have hw := h2.within
      unfold BitDStream.Holds
      simp only [BitDStream.skipBits_bitsConsumed, BitDStream.skipBits_ptr] at hw ⊢
      omega
  obtain ⟨hsrc, h3, room3⟩ := hd2'
  refine ⟨hsrc, ?_, ?_, ?_⟩
  · have := h3.skip room3
    convert this using 1
    push_cast
    ring
  · intro hle
    -- refilled, what the container has lost is what lies above the place in its byte
    have habove : r.bitD.ptr = 0 ∨ r.bitD.bitsConsumed = (8 - s.left % 8) % 8 := hs.imp id fun h7 => by omega
    have hiff : ((lit = 0 ∨ (8 - s.left % 8) % 8 + (of + ml + lit) ≤ 64) ∧
        64 < (8 - s.left % 8) % 8 + (of + ml + lit) + st) ↔
        ((lit = 0 ∨ r.bitD.bitsConsumed + (of + ml + lit) ≤ 64) ∧ 64 < r.bitD.bitsConsumed + (of + ml + lit) + st) := by
      rcases habove with hptr | heq
      · constructor <;> rintro ⟨-, hc⟩ <;> omega
      · rw [heq]
    rw [← Bool.not_eq_true, Bool.and_eq_true, Bool.or_eq_true]
    simp only [decide_eq_true_eq]
    rw [hiff]
    rcases hcases with ⟨h5, h6, rfl⟩ | ⟨hfit, rfl⟩
    · have hset := h2.reload.2.2.room (n := lit + st) (by omega)
      have hpos2 := h3.position
      unfold BitDStream.Holds at *
      simp only [BitDStream.skipBits_bitsConsumed, BitDStream.skipBits_ptr] at *
      constructor
      · rintro - ⟨hc, -⟩
        omega
      · intro
        omega
    · unfold BitDStream.Holds
      simp only [BitDStream.skipBits_bitsConsumed]
      constructor
      · rintro hc ⟨-, hc'⟩
        omega
      · intro hc
        by_contra hc'
        exact hc ⟨hfit, by omega⟩
  · intro hq
    rw [readBitsFastZeroSafe_fst h0 room1 (by omega), readBitsFastZeroSafe_fst h1 room2 (by omega),
      readBitsFastZeroSafe_fst h3 room3 (by omega), hsrc]
    have e1 : (s.left - of : Int).toNat = s.left - of := by omega
    have e2 : (s.left - of - ml : Int).toNat = s.left - of - ml := by omega
    rw [e1, e2]
    rfl

/-! ## The command-list step -/

/-- One round of the command-list loop: the state updates and the reload that ends it. -/
def stepCommand (t : CommandTables) (r : CommandReader) : Result CommandReader := do
  let r ← updateCommandStates t { r with bitD := (decodeCommand r).2 }
  if r.bitD.reload.1 = .overflow then .error (.corruption "sequence bitstream overflow") else
  .ok { r with bitD := r.bitD.reload.2 }

/-- A round whose state updates go past the container fails, whatever the states are. -/
theorem stepCommand_past
    (h : 64 < (decodeCommand r).2.bitsConsumed + (r.lit.nbBits + r.ml.nbBits + r.off.nbBits)) :
    ∃ e, stepCommand t r = .error e := by
  unfold stepCommand updateCommandStates
  simp only [BitDStream.readBitsFastZeroSafe_snd]
  generalize (decodeCommand r).2 = d at *
  have hover : (((d.skipBits r.lit.nbBits).skipBits r.ml.nbBits).skipBits r.off.nbBits).reload.1 = .overflow := by
    rw [BitDStream.reload_overflow (by simp only [BitDStream.skipBits_bitsConsumed]; omega)]
  cases plainEntryAt t.literalLengths _ with
  | error e => exact ⟨_, rfl⟩
  | ok lit =>
    cases plainEntryAt t.matchLengths _ with
    | error e => exact ⟨_, rfl⟩
    | ok ml =>
      cases plainEntryAt t.offsets _ with
      | error e => exact ⟨_, rfl⟩
      | ok off =>
        simp only [bind, Except.bind, hover, reduceIte]
        exact ⟨_, rfl⟩

/-- The step lemma: a round of the command-list decoder is the step to the next place, unless it
spills. -/
theorem stepCommand_matches (hn : tables.Narrow) (ht : TablesFrom tables t) (h : CommandAt src r s) :
    Matches (CommandAt src) (stepCommand t r)
      (if s.spills then .error (.corruption "sequence bitstream overflow") else s.next (readLe src) tables) := by
  obtain ⟨hsrc, hat, hroom, -⟩ := decodeCommand_reads h
  have hpos := hat.position
  have hst : s.stateBits = r.lit.nbBits + r.ml.nbBits + r.off.nbBits := by
    unfold SequencePlace.stateBits
    rw [h.lit, h.off, h.ml]
    simp
  by_cases hq : s.left < s.extraBits + s.stateBits
  · -- past the end
    have hpast : 64 < (decodeCommand r).2.bitsConsumed + (r.lit.nbBits + r.ml.nbBits + r.off.nbBits) := by
      rw [← hst]
      omega
    obtain ⟨e, he⟩ := stepCommand_past (t := t) hpast
    rw [he]
    unfold SequencePlace.next
    rw [if_pos hq, ite_self]
    exact .of_error _ _
  have hroom := hroom (by omega)
  by_cases hsp : s.spills = true
  · have hpast : 64 < (decodeCommand r).2.bitsConsumed + (r.lit.nbBits + r.ml.nbBits + r.off.nbBits) := by
      rw [← hst]
      have : ¬ (decodeCommand r).2.Holds s.stateBits := fun hc => by simp [hroom.1 hc] at hsp
      unfold BitDStream.Holds at this
      omega
    obtain ⟨e, he⟩ := stepCommand_past (t := t) hpast
    rw [he, if_pos hsp]
    exact .of_error _ _
  rw [if_neg hsp]
  have hfits := hroom.2 (by simpa using hsp)
  unfold SequencePlace.next
  rw [if_neg hq]
  unfold stepCommand updateCommandStates
  simp only [BitDStream.readBitsFastZeroSafe_snd]
  generalize (decodeCommand r).2 = d at *
  rw [hst] at hfits hq
  -- the three reads, one behind the other
  have room1 : d.Holds r.lit.nbBits ∨ d.ptr = 0 := .inl (by unfold BitDStream.Holds at *; omega)
  have h1 := hat.skip room1
  have room2 : (d.skipBits r.lit.nbBits).Holds r.ml.nbBits ∨ (d.skipBits r.lit.nbBits).ptr = 0 :=
    .inl (by unfold BitDStream.Holds at *; simp only [BitDStream.skipBits_bitsConsumed]; omega)
  have h2 := h1.skip room2
  have room3 : ((d.skipBits r.lit.nbBits).skipBits r.ml.nbBits).Holds r.off.nbBits ∨
      ((d.skipBits r.lit.nbBits).skipBits r.ml.nbBits).ptr = 0 :=
    .inl (by unfold BitDStream.Holds at *; simp only [BitDStream.skipBits_bitsConsumed]; omega)
  have h3 := h2.skip room3
  rw [readBitsFastZeroSafe_fst hat room1 (by omega), readBitsFastZeroSafe_fst h1 room2 (by omega),
    readBitsFastZeroSafe_fst h2 room3 (by omega)]
  simp only [BitDStream.skipBits_src, hsrc]
  have e1 : (s.left - s.extraBits : Int).toNat = s.left - s.extraBits := by omega
  have e2 : (s.left - s.extraBits - r.lit.nbBits : Int).toNat = s.left - s.extraBits - r.lit.nbBits := by omega
  have e3 : (s.left - s.extraBits - r.lit.nbBits - r.ml.nbBits : Int).toNat =
      s.left - s.extraBits - r.lit.nbBits - r.ml.nbBits := by omega
  rw [e1, e2, e3, h.lit, h.off, h.ml]
  simp only [SequencePart.entry_nbBits, SequencePart.entry_newState, bind_assoc]
  refine (entryAt_matches ht.literalLengths _).bind fun lit lit' _ _ hl => ?_
  refine (entryAt_matches ht.matchLengths _).bind fun ml ml' _ _ hm => ?_
  refine (entryAt_matches ht.offsets _).bind fun off off' _ _ ho => ?_
  obtain ⟨h4, h5, h6⟩ := h3.reload
  simp only [bind, Except.bind]
  rw [if_neg fun hc => absurd (h4.1 hc) (by omega)]
  refine .of_ok ⟨by simp [hsrc], ?_, h6, hl.1, ho.1, hm.1, ?_⟩
  · have := h5.at (by omega)
    convert this using 1
    simp only
    omega
  · exact ⟨hn.offsets.extra _ ho.2, hn.matchLengths.extra _ hm.2, hn.literalLengths.extra _ hl.2,
      hn.literalLengths.nbBits _ hl.2, hn.offsets.nbBits _ ho.2, hn.matchLengths.nbBits _ hm.2⟩

theorem decodeCommand_past (h : 64 < r.bitD.bitsConsumed) : 64 < (decodeCommand r).2.bitsConsumed := by
  have hkeep : ∀ (c : Prop) [Decidable c] (d : BitDStream) (n : Nat), 64 < d.bitsConsumed →
      64 < ((if c then d.reload.2 else d).skipBits n).bitsConsumed := by
    intro c _ d n hd
    rw [BitDStream.reload_overflow hd, BitDStream.skipBits_bitsConsumed]
    simp only [ite_self]
    omega
  refine hkeep _ _ _ ?_
  simp only [BitDStream.skipBits_bitsConsumed]
  omega

/-! ## The command-list run -/

theorem decodeCommandsLoop_succ (n : Nat) (r : CommandReader) :
    decodeCommandsLoop t (n + 1) r = (do
      let r' ← stepCommand t r
      let x ← decodeCommandsLoop t n r'
      .ok ((decodeCommand r).1 :: x.1, x.2)) := by
  rw [decodeCommandsLoop]
  unfold stepCommand
  simp only
  cases updateCommandStates t { r with bitD := (decodeCommand r).2 } with
  | error e => rfl
  | ok r1 =>
    by_cases hover : r1.bitD.reload.1 = .overflow
    · simp only [bind, Except.bind, hover, reduceIte]
    · simp only [bind, Except.bind, hover, reduceIte]

/-- The run lemma: the loop reads the places of its sequences, unless one of them spills. -/
theorem decodeCommandsLoop_matches (hn : tables.Narrow) (ht : TablesFrom tables t) :
    ∀ (n : Nat) {r : CommandReader} {s : SequencePlace}, CommandAt src r s →
      Matches (fun x y => x.1 = y.1.map (·.sequence (readLe src)) ∧ CommandAt src x.2 y.2)
        (decodeCommandsLoop t n r) (do
        let (places, last) ← SequencePlace.walk (readLe src) tables n s
        if places.any SequencePlace.spills then .error (.corruption "sequence bitstream overflow") else
        .ok (places, last))
  | 0, r, s, h => .of_ok ⟨rfl, h⟩
  | n + 1, r, s, h => by
    rw [decodeCommandsLoop_succ, SequencePlace.walk]
    have hstep := stepCommand_matches hn ht h
    by_cases hsp : s.spills = true
    · rw [if_pos hsp] at hstep
      obtain ⟨e, he⟩ : ∃ e, stepCommand t r = .error e := by
        cases hx : stepCommand t r with
        | error e => exact ⟨e, rfl⟩
        | ok r' =>
          obtain ⟨s', hs', -⟩ := hstep.1 r' hx
          cases hs'
      rw [he, bind_assoc]
      cases s.next (readLe src) tables with
      | error e' => exact .of_error _ _
      | ok s' =>
        show Matches _ _ ((SequencePlace.walk _ tables n s' >>= _) >>= _)
        cases SequencePlace.walk (readLe src) tables n s' with
        | error e' => exact .of_error _ _
        | ok x =>
          show Matches _ _ (if (s :: x.1).any SequencePlace.spills then _ else _)
          rw [if_pos (by simp [hsp])]
          exact .of_error _ _
    · rw [if_neg hsp] at hstep
      simp only [bind_assoc]
      refine hstep.bind fun r' s' _ hs' h' => ?_
      have hseq := (decodeCommand_reads h).2.2.2 (SequencePlace.extraBits_le hs')
      rw [hseq]
      -- the places after this one, each in front of the same head
      have hrest := decodeCommandsLoop_matches hn ht n h'
      cases hw : SequencePlace.walk (readLe src) tables n s' with
      | error e =>
        rw [hw] at hrest
        cases hx : decodeCommandsLoop t n r' with
        | error e' => exact .of_error _ _
        | ok x =>
          obtain ⟨y, hy, -⟩ := hrest.1 x hx
          cases hy
      | ok y =>
        rw [hw] at hrest
        show Matches _ _ (if (s :: y.1).any SequencePlace.spills then _ else _)
        have hany : (s :: y.1).any SequencePlace.spills = y.1.any SequencePlace.spills := by simp [hsp]
        rw [hany]
        have hrest : Matches _ (decodeCommandsLoop t n r')
          (if y.1.any SequencePlace.spills then _ else _) := hrest
        split at hrest
        · rename_i hbad
          rw [if_pos hbad]
          cases hx : decodeCommandsLoop t n r' with
          | error e' => exact .of_error _ _
          | ok x =>
            obtain ⟨y, hy, -⟩ := hrest.1 x hx
            cases hy
        · rename_i hgood
          rw [if_neg hgood]
          obtain ⟨x, hx, h1, h2⟩ := hrest.2 _ rfl
          rw [hx]
          exact .of_ok ⟨by rw [h1]; rfl, h2⟩

/-- The first readers of the two decoders differ in their entries only. -/
theorem initCommandReader_matches (ht : TablesFrom tables t) (bitstream : Bytes) :
    Matches (fun (cr : CommandReader) (r : SequenceReader) => cr.bitD = r.bitD ∧
        r.lit = SequencePart.literalLength.entry cr.lit ∧ r.off = SequencePart.offset.entry cr.off ∧
        r.ml = SequencePart.matchLength.entry cr.ml)
      (initCommandReader bitstream t) (initSequenceReader bitstream tables) := by
  unfold initCommandReader initSequenceReader
  refine .bind_same fun d _ => ?_
  have hl : tables.literalLengths.seq.tableLog = t.literalLengths.tableLog := by rw [ht.literalLengths]; simp
  have ho : tables.offsets.seq.tableLog = t.offsets.tableLog := by rw [ht.offsets]; simp
  have hm : tables.matchLengths.seq.tableLog = t.matchLengths.tableLog := by rw [ht.matchLengths]; simp
  rw [hl, ho, hm]
  simp only
  refine (entryAt_matches ht.literalLengths _).bind fun lit lit' _ _ hlit => ?_
  refine (entryAt_matches ht.offsets _).bind fun off off' _ _ hoff => ?_
  refine (entryAt_matches ht.matchLengths _).bind fun ml ml' _ _ hml => ?_
  exact .of_ok ⟨rfl, hlit.1, hoff.1, hml.1⟩

/-- The end of the list: the last sequence, and the check that the payload is used up. -/
def finishCommands (seqs : List SequenceCommand) (r : CommandReader) : Result (List SequenceCommand × Nat) :=
  let (seq, bitD) := decodeCommand r
  let (status, bitD) := bitD.reload
  if status = .overflow ∨ ¬ bitD.endOfStream then
    .error (.corruption "sequence bitstream was not fully consumed")
  else .ok (seqs ++ [seq], matchBytes (seqs ++ [seq]))

theorem finishCommands_matches (h : CommandAt src r s) (seqs : List SequenceCommand) :
    Matches (fun x y => x = (seqs ++ [y.sequence (readLe src)], matchBytes (seqs ++ [y.sequence (readLe src)])))
      (finishCommands seqs r)
      (if s.left ≠ s.extraBits then .error (.corruption "sequence bitstream was not fully consumed") else .ok s) := by
  obtain ⟨hsrc, hat, -, hseq⟩ := decodeCommand_reads h
  obtain ⟨h1, h2, -⟩ := hat.reload
  unfold finishCommands
  simp only
  by_cases hleft : s.left = s.extraBits
  · have hno : (decodeCommand r).2.reload.1 ≠ .overflow := fun hc => absurd (h1.1 hc) (by omega)
    have heos : (decodeCommand r).2.reload.2.endOfStream = true := (h2.endOfStream_iff (by omega)).2 (by omega)
    rw [if_neg (by simp [hno, heos]), if_neg (not_not.2 hleft), hseq (by omega)]
    exact .of_ok rfl
  · rw [if_pos hleft]
    have hbad : (decodeCommand r).2.reload.1 = .overflow ∨ ¬ (decodeCommand r).2.reload.2.endOfStream = true := by
      rcases Int.lt_or_le (s.left - s.extraBits : Int) 0 with hq | hq
      · exact .inl (h1.2 hq)
      · right
        rw [h2.endOfStream_iff hq]
        omega
    rw [if_pos hbad]
    exact .of_error _ _

theorem commandsRun_past (h : 64 < r.bitD.bitsConsumed) (n : Nat) :
    ∃ e, (decodeCommandsLoop t n r >>= fun x => finishCommands x.1 x.2) = .error e := by
  have h1 := decodeCommand_past h
  cases n with
  | zero =>
    show ∃ e, finishCommands [] r = .error e
    unfold finishCommands
    simp only [BitDStream.reload_overflow h1, true_or, reduceIte]
    exact ⟨_, rfl⟩
  | succ n =>
    obtain ⟨e, he⟩ := stepCommand_past (t := t) (r := r) (by omega)
    rw [decodeCommandsLoop_succ, he]
    exact ⟨_, rfl⟩

end

/-! ## A whole section -/

/-- A slot whose table is made from its plain one, or will be before it is used. -/
structure SequenceTableSlot.Paired (part : SequencePart) (slot : SequenceTableSlot) : Prop where
  absent : slot.dtable = none → slot.dirty = true
  made : ∀ dt ∈ slot.dtable, slot.dirty = true ∨ (slot.has = true ∧ slot.seq = part.sequenceDtableFrom dt)
  narrow : ∀ dt ∈ slot.dtable, (part.sequenceDtableFrom dt).Narrow part

structure SequenceTablesState.Paired (tables : SequenceTablesState) : Prop where
  literalLengths : tables.literalLengths.Paired .literalLength
  offsets : tables.offsets.Paired .offset
  matchLengths : tables.matchLengths.Paired .matchLength

theorem SequenceTableSlot.Paired.setup {part : SequencePart} {slot : SequenceTableSlot} (h : slot.Paired part) :
    (slot.dtable = none ∧ ∃ e, setupSlot part slot = .error e) ∨
      ∃ dt slot', slot.dtable = some dt ∧ setupSlot part slot = .ok slot' ∧ slot'.seq = part.sequenceDtableFrom dt ∧
        slot'.seq.Narrow part := by
  unfold setupSlot
  cases hdt : slot.dtable with
  | none =>
    rw [if_pos (h.absent hdt)]
    exact .inl ⟨rfl, _, rfl⟩
  | some dt =>
    refine .inr ⟨dt, ?_⟩
    have hn := h.narrow dt hdt
    by_cases hd : slot.dirty = true
    · rw [if_pos hd]
      exact ⟨_, rfl, rfl, rfl, hn⟩
    · obtain ⟨h1, h2⟩ := (h.made dt hdt).resolve_left hd
      rw [if_neg hd, if_pos h1]
      exact ⟨_, rfl, rfl, h2, h2 ▸ hn⟩

/-- The two decoders find the same tables. -/
theorem SequenceTablesState.Paired.tables_match {tables : SequenceTablesState} (h : tables.Paired) :
    Matches (fun t tables' => TablesFrom tables' t ∧ tables'.Narrow) tables.plain (setupTables tables) := by
  unfold SequenceTablesState.plain setupTables
  rcases h.literalLengths.setup with ⟨h1, e1, h2⟩ | ⟨ll, ll', h1, h2, h3, h4⟩
  · rw [h1, h2]
    exact .of_error _ _
  rcases h.offsets.setup with ⟨h5, e5, h6⟩ | ⟨of, of', h5, h6, h7, h8⟩
  · rw [h1, h2, h5, h6]
    exact .of_error _ _
  rcases h.matchLengths.setup with ⟨h9, e9, h10⟩ | ⟨ml, ml', h9, h10, h11, h12⟩
  · rw [h1, h2, h5, h6, h9, h10]
    exact .of_error _ _
  rw [h1, h2, h5, h6, h9, h10]
  exact .of_ok ⟨⟨h3, h7, h11⟩, ⟨h4, h8, h12⟩⟩

/-- The command list of a section: the sequences that its bits denote, unless one before the last spills. -/
theorem decodeSequenceCommands_matches {section_ : ParsedSequenceSection} (hnum : section_.numberOfSequences ≠ 0)
    {tables : SequenceTablesState} (h : tables.Paired) :
    Matches (fun x y => x = (y, matchBytes y)) (decodeSequenceCommandsIntoStats section_ tables) (do
      let tables ← setupTables tables
      let (places, last) ← section_.places tables
      if places.any SequencePlace.spills then .error (.corruption "sequence bitstream overflow") else
      .ok ((places ++ [last]).map (·.sequence (readLe section_.bitstream)))) := by
  unfold decodeSequenceCommandsIntoStats
  rw [if_neg hnum]
  refine h.tables_match.bind fun t tables' _ _ ht => ?_
  change Matches _ (do
    let r ← initCommandReader section_.bitstream t
    let x ← decodeCommandsLoop t (section_.numberOfSequences - 1) r
    finishCommands x.1 x.2) _
  unfold ParsedSequenceSection.places
  have hinit := initCommandReader_matches ht.1 section_.bitstream
  rcases initSequenceReader_matches ht.2 section_.bitstream with ⟨s, hs, r, hr, hat⟩ | ⟨⟨e, he⟩, hpast⟩
  swap
  · rw [he]
    cases hi : initCommandReader section_.bitstream t with
    | error e' => exact .of_error _ _
    | ok cr =>
      obtain ⟨r, hr, hd, -⟩ := hinit.1 cr hi
      obtain ⟨e', he'⟩ := commandsRun_past (t := t) (r := cr) (by rw [hd]; exact hpast r hr)
        (section_.numberOfSequences - 1)
      show Matches _ (decodeCommandsLoop t _ cr >>= _) _
      rw [he']
      exact .of_error _ _
  obtain ⟨cr, hcr, hd, hl, ho, hm⟩ := hinit.2 r hr
  have hcat : CommandAt section_.bitstream cr s :=
    ⟨hd ▸ hat.src, hd ▸ hat.at, hd ▸ hat.settled, hat.lit ▸ hl, hat.off ▸ ho, hat.ml ▸ hm, hat.narrow⟩
  rw [hs, hcr]
  simp only [bind_assoc]
  show Matches _ (decodeCommandsLoop t _ cr >>= _) (SequencePlace.walk _ tables' _ s >>= _)
  refine ((decodeCommandsLoop_matches ht.2 ht.1 _ hcat).bind
    (g := fun y => if y.2.left ≠ y.2.extraBits then
        .error (.corruption "sequence bitstream was not fully consumed")
      else
      .ok ((y.1 ++ [y.2]).map (·.sequence (readLe section_.bitstream))))
    fun x y _ _ hxy => ?_).eq_right ?_
  · have hfin := finishCommands_matches hxy.2 x.1
    by_cases hleft : y.2.left = y.2.extraBits
    · rw [if_neg (by simpa using hleft)] at hfin ⊢
      obtain ⟨x', hx', h1⟩ := hfin.2 _ rfl
      rw [hx']
      refine .of_ok ?_
      rw [h1, hxy.1, List.map_append, List.map_singleton]
    · rw [if_pos hleft] at hfin ⊢
      cases hx : finishCommands x.1 x.2 with
      | error e => exact .of_error _ _
      | ok x' =>
        obtain ⟨y', hy', -⟩ := hfin.1 x' hx
        cases hy'
  · rw [bind_assoc]
    refine .bind_same fun x _ => ?_
    by_cases hsp : x.1.any SequencePlace.spills = true
    · show Matches _ ((if x.1.any SequencePlace.spills then _ else _) >>= _) _
      rw [if_pos hsp]
      by_cases hleft : x.2.left = x.2.extraBits
      · rw [if_neg (by simpa using hleft)]
        show Matches _ _ (if x.1.any SequencePlace.spills then _ else _)
        rw [if_pos hsp]
        exact .of_error _ _
      · rw [if_pos hleft]
        exact .of_error _ _
    · show Matches _ ((if x.1.any SequencePlace.spills then _ else _) >>= _) _
      rw [if_neg hsp]
      show Matches _ (if x.2.left ≠ x.2.extraBits then _ else _) _
      by_cases hleft : x.2.left = x.2.extraBits
      · rw [if_neg (by simpa using hleft), if_neg (by simpa using hleft)]
        show Matches _ _ (if x.1.any SequencePlace.spills then _ else _)
        rw [if_neg hsp]
        exact .refl _
      · rw [if_pos hleft, if_pos hleft]
        exact .of_error _ _

end Zstandard
