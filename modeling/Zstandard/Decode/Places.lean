/-
What a sequence bitstream means, apart from how it is read: a place is a depth in the payload and the
table entries of the three states there; its extra bits and then the bits of its states lie below it.

The fused decoder reads exactly that. Its container is refilled often enough that every read finds its
bits, and reads past the end of the payload are caught by the reload that ends the step.
-/
import Zstandard.Decode.Refine
import Zstandard.Entropy.BitReader
import Zstandard.Library.Follows
import Mathlib.Data.List.GetD

namespace Zstandard

open Fse BitStack Simulation

/-! ## Places -/

/-- A place in the bitstream of a section: the bits below it, and what the three states name. -/
structure SequencePlace where
  left : Nat
  lit : SequenceDecodeEntry
  off : SequenceDecodeEntry
  ml : SequenceDecodeEntry
deriving DecidableEq, Repr

namespace SequencePlace

/-- The extra bits of the sequence here. -/
def extraBits (s : SequencePlace) : Nat := s.off.nbAdditionalBits + s.ml.nbAdditionalBits + s.lit.nbAdditionalBits

/-- The bits of the three state updates behind it. -/
def stateBits (s : SequencePlace) : Nat := s.lit.nbBits + s.ml.nbBits + s.off.nbBits

/-- The sequence here: the extra bits of offset, match and literals, from the top down. -/
def sequence (stream : Nat) (s : SequencePlace) : RawSequence :=
  { literalLength := s.lit.baseline +
      field stream (s.left - s.off.nbAdditionalBits - s.ml.nbAdditionalBits) s.lit.nbAdditionalBits
    matchLength := s.ml.baseline + field stream (s.left - s.off.nbAdditionalBits) s.ml.nbAdditionalBits
    offsetValue := 2 ^ s.off.nbAdditionalBits + field stream s.left s.off.nbAdditionalBits }

/-- The place of the next sequence: behind the states' bits, from the top down those of the literal
length, the match length and the offset. -/
def next (stream : Nat) (tables : SequenceTablesState) (s : SequencePlace) : Result SequencePlace :=
  if s.left < s.extraBits + s.stateBits then .error (.corruption "sequence bitstream overflow") else do
    let p := s.left - s.extraBits
    let lit ← entryAt tables.literalLengths.seq (s.lit.newState + field stream p s.lit.nbBits)
    let ml ← entryAt tables.matchLengths.seq (s.ml.newState + field stream (p - s.lit.nbBits) s.ml.nbBits)
    let off ← entryAt tables.offsets.seq
      (s.off.newState + field stream (p - s.lit.nbBits - s.ml.nbBits) s.off.nbBits)
    .ok { left := p - s.stateBits, lit, off, ml }

/-- The places of `n` sequences and of the one behind them. -/
def walk (stream : Nat) (tables : SequenceTablesState) :
    Nat → SequencePlace → Result (List SequencePlace × SequencePlace)
  | 0, s => .ok ([], s)
  | n + 1, s => do
    let s' ← s.next stream tables
    let (places, last) ← walk stream tables n s'
    .ok (s :: places, last)

/-- Widths that the alphabets allow. -/
structure Narrow (s : SequencePlace) : Prop where
  offExtra : s.off.nbAdditionalBits ≤ 31
  mlExtra : s.ml.nbAdditionalBits ≤ 16
  litExtra : s.lit.nbAdditionalBits ≤ 16
  lit : s.lit.nbBits ≤ 9
  off : s.off.nbBits ≤ 8
  ml : s.ml.nbBits ≤ 9

theorem Narrow.stateBits {s : SequencePlace} (h : s.Narrow) : s.stateBits ≤ 26 := by
  have h1 := h.lit
  have h2 := h.off
  have h3 := h.ml
  unfold SequencePlace.stateBits
  omega

end SequencePlace

/-- The first place of a bitstream: below its end mark, the three initial states. -/
def firstPlace (bitstream : Bytes) (tables : SequenceTablesState) : Result SequencePlace :=
  match bitstream.getLast? with
  | none => .error .srcSizeWrong
  | some lastByte =>
    if lastByte = 0 then .error (.corruption "bitstream end marker is zero") else
    let stream := readLe bitstream
    let top := Nat.log2 stream
    let ll := tables.literalLengths.seq.tableLog
    let of := tables.offsets.seq.tableLog
    let ml := tables.matchLengths.seq.tableLog
    if top < ll + of + ml then .error (.corruption "sequence bitstream overflow") else do
      let lit ← entryAt tables.literalLengths.seq (field stream top ll)
      let off ← entryAt tables.offsets.seq (field stream (top - ll) of)
      let m ← entryAt tables.matchLengths.seq (field stream (top - ll - of) ml)
      .ok { left := top - ll - of - ml, lit, off, ml := m }

/-- The sequences of a section with at least one: all places but the last, and the last, whose extra
bits end the payload. -/
def ParsedSequenceSection.places (section_ : ParsedSequenceSection) (tables : SequenceTablesState) :
    Result (List SequencePlace × SequencePlace) := do
  let stream := readLe section_.bitstream
  let first ← firstPlace section_.bitstream tables
  let (places, last) ← SequencePlace.walk stream tables (section_.numberOfSequences - 1) first
  if last.left ≠ last.extraBits then .error (.corruption "sequence bitstream was not fully consumed") else
  .ok (places, last)

/-! ## Narrow tables -/

/-- The most extra bits a symbol of the alphabet takes. -/
def SequencePart.maxExtraBits : SequencePart → Nat
  | .offset => 31
  | .literalLength | .matchLength => 16

/-- Widths that one alphabet allows. -/
structure Fse.SequenceDTable.Narrow (part : SequencePart) (t : SequenceDTable) : Prop where
  log : t.tableLog ≤ part.maxAccuracyLog
  extra : ∀ e ∈ t.entries, e.nbAdditionalBits ≤ part.maxExtraBits
  nbBits : ∀ e ∈ t.entries, e.nbBits ≤ part.maxAccuracyLog

structure SequenceTablesState.Narrow (tables : SequenceTablesState) : Prop where
  literalLengths : tables.literalLengths.seq.Narrow .literalLength
  offsets : tables.offsets.seq.Narrow .offset
  matchLengths : tables.matchLengths.seq.Narrow .matchLength

theorem literalExtraBits_le (s : Nat) : literalLengthExtraBits.getD s 0 ≤ 16 := by
  rcases Nat.lt_or_ge s 36 with h | h
  · have : ∀ s < 36, literalLengthExtraBits.getD s 0 ≤ 16 := by decide
    exact this s h
  · rw [List.getD_eq_default _ _ (by simpa [literalLengthExtraBits] using h)]
    norm_num

theorem matchExtraBits_le (s : Nat) : matchLengthExtraBits.getD s 0 ≤ 16 := by
  rcases Nat.lt_or_ge s 53 with h | h
  · have : ∀ s < 53, matchLengthExtraBits.getD s 0 ≤ 16 := by decide
    exact this s h
  · rw [List.getD_eq_default _ _ (by simpa [matchLengthExtraBits] using h)]
    norm_num

/-- Entries of symbols of an alphabet are as wide as the alphabet allows. -/
theorem SequencePart.entry_extra (part : SequencePart) {d : DecodeEntry} (h : d.symbol ≤ part.maxSymbolValue) :
    (part.entry d).nbAdditionalBits ≤ part.maxExtraBits := by
  cases part with
  | literalLength => exact literalExtraBits_le _
  | offset => exact h
  | matchLength => exact matchExtraBits_le _

@[simp] theorem SequencePart.entry_nbBits (part : SequencePart) (d : DecodeEntry) :
    (part.entry d).nbBits = d.nbBits := by cases part <;> rfl

@[simp] theorem SequencePart.entry_newState (part : SequencePart) (d : DecodeEntry) :
    (part.entry d).newState = d.newState := by cases part <;> rfl

/-- The reader of the fused decoder stands, refilled, at a place of the payload. -/
structure ReaderAt (src : Bytes) (r : SequenceReader) (s : SequencePlace) : Prop where
  src : r.bitD.src = src
  «at» : r.bitD.At s.left
  settled : r.bitD.Settled
  lit : r.lit = s.lit
  off : r.off = s.off
  ml : r.ml = s.ml
  narrow : s.Narrow

/-! ## Reads -/

theorem readExtra_snd (d : BitDStream) (n : Nat) : (readExtra d n).2 = d.skipBits n := by
  unfold readExtra
  split
  · rfl
  · rename_i h0
    rw [show n = 0 by omega]
    rfl

section
variable {d : BitDStream} {q : Int} {n : Nat}

theorem readExtra_fst (h : d.StandsAt q) (hn : d.Holds n ∨ d.ptr = 0) (hq : (n : Int) ≤ q) :
    (readExtra d n).1 = field (readLe d.src) q.toNat n := by
  unfold readExtra
  split
  · rename_i h0
    exact (BitDStream.readBitsFast_at (h.at (by omega)) (h.holds hn hq) h0).1
  · rename_i h0
    rw [show n = 0 by omega]
    exact (field_zero _ _).symm

theorem readBitsFastZeroSafe_fst (h : d.StandsAt q) (hn : d.Holds n ∨ d.ptr = 0) (hq : (n : Int) ≤ q) :
    (d.readBitsFastZeroSafe n).1 = field (readLe d.src) q.toNat n :=
  (BitDStream.readBitsFastZeroSafe_at (h.at (by omega)) (h.holds hn hq)).1

end

/-- Reading an initial state. -/
theorem initDstate_reads {d : BitDStream} {q : Int} {n : Nat} (h : d.StandsAt q) (hn : d.Holds n ∨ d.ptr = 0) :
    (initDstate d n).2.src = d.src ∧ (initDstate d n).2.StandsAt (q - n) ∧ (initDstate d n).2.Settled ∧
      ((n : Int) ≤ q → (initDstate d n).1 = field (readLe d.src) q.toNat n) := by
  obtain ⟨-, h2, h3⟩ := (h.skip hn).reload
  unfold initDstate
  simp only [BitDStream.readBits_snd]
  exact ⟨by simp, h2, h3, fun hq => (BitDStream.readBits_at (h.at (by omega)) (h.holds hn hq)).1⟩

/-- Reading all three initial states of a new stream. -/
theorem initStates_read {src : Bytes} {d : BitDStream} (hd : BitDStream.new src = .ok d) {a b c : Nat} (ha : a ≤ 9)
    (hb : b ≤ 9) (hc : c ≤ 9) :
    let d1 := (initDstate d a).2
    let d2 := (initDstate d1 b).2
    let d3 := (initDstate d2 c).2
    let top := Nat.log2 (readLe src)
    d3.src = src ∧ d3.StandsAt (top - a - b - c) ∧ d3.Settled ∧
      (a + b + c ≤ top → (initDstate d a).1 = field (readLe src) top a ∧
        (initDstate d1 b).1 = field (readLe src) (top - a) b ∧
        (initDstate d2 c).1 = field (readLe src) (top - a - b) c) := by
  intro d1 d2 d3 top
  obtain ⟨hsrc, h0⟩ := BitDStream.new_at hd
  have hroom : d.Holds a ∨ d.ptr = 0 := (BitDStream.new_room hd).imp_left fun h => by
    unfold BitDStream.Holds
    omega
  obtain ⟨s1, h1, r1, v1⟩ := initDstate_reads h0.standsAt hroom
  obtain ⟨s2, h2, r2, v2⟩ := initDstate_reads h1 (r1.room (n := b) (by omega))
  obtain ⟨s3, h3, r3, v3⟩ := initDstate_reads h2 (r2.room (n := c) (by omega))
  refine ⟨s3.trans (s2.trans (s1.trans hsrc)), h3, r3, fun hle => ?_⟩
  have e1 : (Nat.log2 (readLe src) : Int).toNat = top := by simp [top]
  have e2 : (Nat.log2 (readLe src) - a : Int).toNat = top - a := by omega
  have e3 : (Nat.log2 (readLe src) - a - b : Int).toNat = top - a - b := by omega
  refine ⟨?_, ?_, ?_⟩
  · rw [v1 (by omega), hsrc, e1]
  · rw [v2 (by omega), s1, hsrc, e2]
  · rw [v3 (by omega), s2, s1, hsrc, e3]

/-! ## The fused step -/

section
variable {src : Bytes} {tables : SequenceTablesState} {r : SequenceReader} {s : SequencePlace}

/-- The fused decoder reads one sequence: the bits below its place, wherever it refills, with room for
the state updates left. -/
theorem decodeSequence_reads (h : ReaderAt src r s) :
    ∃ d, (decodeSequence r).2 = { r with bitD := d } ∧ d.src = src ∧ d.StandsAt (s.left - s.extraBits) ∧
      (d.Holds s.stateBits ∨ d.ptr = 0) ∧
      (s.extraBits ≤ s.left → (decodeSequence r).1 = s.sequence (readLe src)) := by
  have hof := h.narrow.offExtra
  have hml := h.narrow.mlExtra
  have hlit := h.narrow.litExtra
  have hst := h.narrow.stateBits
  have hs := h.settled
  have h0 := h.at.standsAt
  unfold SequencePlace.extraBits SequencePlace.sequence decodeSequence
  simp only [readExtra_snd, h.lit, h.off, h.ml]
  rw [← h.src]
  generalize s.off.nbAdditionalBits = of at *
  generalize s.ml.nbAdditionalBits = ml at *
  generalize s.lit.nbAdditionalBits = lit at *
  generalize s.stateBits = st at *
  have room1 : r.bitD.Holds of ∨ r.bitD.ptr = 0 := hs.room (by omega)
  have h1 := h0.skip room1
  have room2 : (r.bitD.skipBits of).Holds ml ∨ (r.bitD.skipBits of).ptr = 0 := by
    have := hs.room (n := of + ml) (by omega)
    unfold BitDStream.Holds at *
    simp only [BitDStream.skipBits_bitsConsumed, BitDStream.skipBits_ptr]
    omega
  have h2 := h1.skip room2
  -- the refill before the literal bits
  generalize hd : (if of + ml + lit ≥ 31 then ((r.bitD.skipBits of).skipBits ml).reload.2
    else (r.bitD.skipBits of).skipBits ml) = d2
  have hd2 : d2.src = r.bitD.src ∧ d2.StandsAt (s.left - of - ml) ∧ (d2.Holds (lit + st) ∨ d2.ptr = 0) := by
    rw [← hd]
    split
    · obtain ⟨-, h3, h4⟩ := h2.reload
      exact ⟨by simp, h3, h4.room (by omega)⟩
    · refine ⟨rfl, h2, ?_⟩
      have := hs.room (n := of + ml + (lit + st)) (by omega)
      unfold BitDStream.Holds at *
      simp only [BitDStream.skipBits_bitsConsumed, BitDStream.skipBits_ptr]
      omega
  obtain ⟨hsrc, h3, room3⟩ := hd2
  have room4 : d2.Holds lit ∨ d2.ptr = 0 := by
    unfold BitDStream.Holds at *
    omega
  refine ⟨d2.skipBits lit, by rw [← h.lit, ← h.off, ← h.ml], hsrc, ?_, ?_, ?_⟩
  · have := h3.skip room4
    convert this using 1
    push_cast
    ring
  · unfold BitDStream.Holds at *
    simp only [BitDStream.skipBits_bitsConsumed, BitDStream.skipBits_ptr]
    omega
  · intro hq
    rw [readExtra_fst h0 room1 (by omega), readExtra_fst h1 room2 (by omega), readExtra_fst h3 room4 (by omega), hsrc]
    have e1 : (s.left - of : Int).toNat = s.left - of := by omega
    have e2 : (s.left - of - ml : Int).toNat = s.left - of - ml := by omega
    rw [e1, e2]
    rfl

/-- What one read of all state bits gives each state. -/
theorem field_states (stream p : Nat) {ll ml of : Nat} (h : ll + ml + of ≤ p) :
    (field stream p (ll + ml + of) >>> (ml + of)) % 2 ^ ll = field stream p ll ∧
      (field stream p (ll + ml + of) >>> of) % 2 ^ ml = field stream (p - ll) ml ∧
      field stream p (ll + ml + of) % 2 ^ of = field stream (p - ll - ml) of := by
  refine ⟨?_, ?_, ?_⟩
  · rw [Nat.shiftRight_eq_div_pow, Nat.add_assoc, field_add_div (by omega), Nat.mod_eq_of_lt (field_lt _ _ _)]
  · rw [Nat.shiftRight_eq_div_pow, field_add_div h, field_add_mod (by omega)]
  · rw [field_add_mod h, Nat.sub_sub]

/-- One round of the fused loop without the execution: the state updates and the reload that ends it. -/
def stepReader (tables : SequenceTablesState) (r : SequenceReader) : Result SequenceReader := do
  let r ← updateStates tables (decodeSequence r).2
  if r.bitD.reload.1 = .overflow then .error (.corruption "sequence bitstream overflow") else
  .ok { r with bitD := r.bitD.reload.2 }

/-- The step lemma: a round of the fused decoder is the step to the next place. -/
theorem stepReader_matches (ht : tables.Narrow) (h : ReaderAt src r s) :
    Matches (ReaderAt src) (stepReader tables r) (s.next (readLe src) tables) := by
  obtain ⟨d, hd, hsrc, hat, room, -⟩ := decodeSequence_reads h
  have hskip := hat.skip room
  unfold stepReader updateStates SequencePlace.next
  rw [hd]
  simp only [readExtra_snd, h.lit, h.off, h.ml]
  have hst : s.lit.nbBits + s.ml.nbBits + s.off.nbBits = s.stateBits := rfl
  rw [hst]
  by_cases hq : s.left < s.extraBits + s.stateBits
  · -- past the end: whatever the states read, the reload reports it
    rw [if_pos hq]
    have hover : (d.skipBits s.stateBits).reload.1 = .overflow := hskip.reload.1.2 (by omega)
    cases entryAt tables.literalLengths.seq _ with
    | error e => exact .of_error _ _
    | ok lit =>
      cases entryAt tables.matchLengths.seq _ with
      | error e => exact .of_error _ _
      | ok ml =>
        cases entryAt tables.offsets.seq _ with
        | error e => exact .of_error _ _
        | ok off =>
          simp only [bind, Except.bind, hover, reduceIte]
          exact .of_error _ _
  · rw [if_neg hq]
    have hval := readExtra_fst hat room (by omega)
    have hnat : (s.left - s.extraBits : Int).toNat = s.left - s.extraBits := by omega
    obtain ⟨f1, f2, f3⟩ := field_states (readLe src) (s.left - s.extraBits)
      (show s.lit.nbBits + s.ml.nbBits + s.off.nbBits ≤ _ by rw [hst]; omega)
    rw [hst] at f1 f2 f3
    rw [hval, hsrc, hnat, f1, f2, f3]
    simp only [bind_assoc]
    refine .bind_same fun lit hl => .bind_same fun ml hm => .bind_same fun off ho => ?_
    obtain ⟨h1, h2, h3⟩ := hskip.reload
    simp only [bind, Except.bind]
    rw [if_neg fun hc => absurd (h1.1 hc) (by omega)]
    refine .of_ok ⟨by simp [hsrc], ?_, h3, rfl, rfl, rfl, ?_⟩
    · have := h2.at (by omega)
      convert this using 1
      simp only
      omega
    · exact ⟨ht.offsets.extra _ (entryAt_mem ho), ht.matchLengths.extra _ (entryAt_mem hm),
        ht.literalLengths.extra _ (entryAt_mem hl), ht.literalLengths.nbBits _ (entryAt_mem hl),
        ht.offsets.nbBits _ (entryAt_mem ho), ht.matchLengths.nbBits _ (entryAt_mem hm)⟩

theorem SequencePlace.extraBits_le (h : s.next (readLe src) tables = .ok s') : s.extraBits ≤ s.left := by
  unfold SequencePlace.next at h
  split at h
  · cases h
  · omega

end

/-! ## Past the end -/

theorem decodeSequence_past {r : SequenceReader} (h : 64 < r.bitD.bitsConsumed) :
    64 < (decodeSequence r).2.bitD.bitsConsumed := by
  unfold decodeSequence
  simp only [readExtra_snd, BitDStream.skipBits_bitsConsumed]
  split
  · rw [BitDStream.reload_overflow (by simp only [BitDStream.skipBits_bitsConsumed]; omega)]
    simp only [BitDStream.skipBits_bitsConsumed]
    omega
  · simp only [BitDStream.skipBits_bitsConsumed]
    omega

/-- A reader past its payload never gets to another round. -/
theorem stepReader_past {tables : SequenceTablesState} {r : SequenceReader} (h : 64 < r.bitD.bitsConsumed) :
    ∃ e, stepReader tables r = .error e := by
  have h1 := decodeSequence_past h
  unfold stepReader updateStates
  simp only [readExtra_snd]
  generalize (decodeSequence r).2 = r1 at *
  generalize r1.lit.nbBits + r1.ml.nbBits + r1.off.nbBits = n
  have hover : (r1.bitD.skipBits n).reload.1 = .overflow := by
    rw [BitDStream.reload_overflow (by simp only [BitDStream.skipBits_bitsConsumed]; omega)]
  cases entryAt tables.literalLengths.seq _ with
  | error e => exact ⟨_, rfl⟩
  | ok lit =>
    cases entryAt tables.matchLengths.seq _ with
    | error e => exact ⟨_, rfl⟩
    | ok ml =>
      cases entryAt tables.offsets.seq _ with
      | error e => exact ⟨_, rfl⟩
      | ok off =>
        simp only [bind, Except.bind, hover, reduceIte]
        exact ⟨_, rfl⟩

/-! ## The fused run -/

section
variable {σ : Type} {sink : Sink σ} {b : ExecBounds} {src : Bytes} {tables : SequenceTablesState}

/-- A round of the loop: the reader's step and the execution may be taken in either order. -/
theorem sequenceLoop_succ (n : Nat) (r : SequenceReader) (t : ExecState σ) :
    Matches Eq (sequenceLoop sink b tables (n + 1) r t) (do
      let r' ← stepReader tables r
      let t' ← executeSequence sink.len sink.place b t (decodeSequence r).1
      sequenceLoop sink b tables n r' t') := by
  rw [sequenceLoop]
  unfold stepReader
  simp only
  generalize decodeSequence r = x
  cases updateStates tables x.2 with
  | error e => exact .of_error e e
  | ok r1 =>
    by_cases hover : r1.bitD.reload.1 = .overflow
    · cases executeSequence sink.len sink.place b t x.1 with
      | error e =>
        simp only [bind, Except.bind, hover, reduceIte]
        exact .of_error _ _
      | ok t1 =>
        simp only [bind, Except.bind, hover, reduceIte]
        exact .of_error _ _
    · cases executeSequence sink.len sink.place b t x.1 with
      | error e =>
        simp only [bind, Except.bind, hover, reduceIte]
        exact .of_error _ _
      | ok t1 =>
        simp only [bind, Except.bind, hover, reduceIte]
        exact .refl _

/-- The run lemma: the loop reads the places of its sequences and executes them in turn. -/
theorem sequenceLoop_matches (ht : tables.Narrow) :
    ∀ (n : Nat) {r : SequenceReader} {s : SequencePlace} (t : ExecState σ), ReaderAt src r s →
      Matches (fun x y => ReaderAt src x.1 y.1 ∧ x.2 = y.2) (sequenceLoop sink b tables n r t) (do
        let (places, last) ← SequencePlace.walk (readLe src) tables n s
        let t' ← (places.map (·.sequence (readLe src))).foldlM (executeSequence sink.len sink.place b) t
        .ok (last, t'))
  | 0, r, s, t, h => .of_ok ⟨h, rfl⟩
  | n + 1, r, s, t, h => by
    refine (sequenceLoop_succ n r t).eq_left ?_
    rw [SequencePlace.walk]
    simp only [bind_assoc]
    refine (stepReader_matches ht h).bind fun r' s' _ hs' h' => ?_
    have hseq := (decodeSequence_reads h).choose_spec.2.2.2.2 (SequencePlace.extraBits_le hs')
    rw [hseq]
    -- the rest is read after this sequence is executed, or before
    refine Matches.eq_right (.bind_same fun t1 _ => sequenceLoop_matches ht n t1 h')
      (.eq_left (.swap _ _ _) (.bind_same fun x _ => ?_))
    show Matches Eq _ (((s :: x.1).map _).foldlM _ t >>= _)
    rw [List.map_cons, List.foldlM_cons, bind_assoc]
    exact .refl _

/-- The first reader: at the first place, or past the end already. -/
theorem initSequenceReader_matches (ht : tables.Narrow) (bitstream : Bytes) :
    (∃ s, firstPlace bitstream tables = .ok s ∧
        ∃ r, initSequenceReader bitstream tables = .ok r ∧ ReaderAt bitstream r s) ∨
      (∃ e, firstPlace bitstream tables = .error e) ∧
        ∀ r, initSequenceReader bitstream tables = .ok r → 64 < r.bitD.bitsConsumed := by
  have hll := ht.literalLengths.log
  have hof := ht.offsets.log
  have hml := ht.matchLengths.log
  simp only [SequencePart.maxAccuracyLog] at hll hof hml
  unfold initSequenceReader
  cases hnew : BitDStream.new bitstream with
  | error e =>
    refine .inr ⟨?_, fun _ h => (nomatch h)⟩
    unfold BitDStream.new at hnew
    unfold firstPlace
    cases hlast : bitstream.getLast? with
    | none => exact ⟨_, rfl⟩
    | some last =>
      rw [hlast] at hnew
      dsimp only at hnew
      by_cases hz : last = 0
      · exact ⟨_, if_pos hz⟩
      · rw [if_neg hz] at hnew
        split at hnew <;> cases hnew
  | ok d =>
    obtain ⟨hsrc, hat, hset, hval⟩ := initStates_read hnew hll (by omega : tables.offsets.seq.tableLog ≤ 9) hml
    have hfirst : ∃ last, bitstream.getLast? = some last ∧ last ≠ 0 := by
      unfold BitDStream.new at hnew
      split at hnew
      · cases hnew
      · rename_i last hlast
        split at hnew
        · cases hnew
        · rename_i hz
          exact ⟨last, hlast, hz⟩
    obtain ⟨last, hlast, hz⟩ := hfirst
    unfold firstPlace
    simp only [hlast, hz, reduceIte]
    generalize hd3 : (initDstate (initDstate (initDstate d _).2 _).2 _).2 = d3 at hsrc hat hset
    by_cases hq : Nat.log2 (readLe bitstream) < tables.literalLengths.seq.tableLog + tables.offsets.seq.tableLog +
        tables.matchLengths.seq.tableLog
    · -- the initial states already read past the end
      refine .inr ⟨⟨_, if_pos hq⟩, fun r hr => ?_⟩
      obtain ⟨_, hd, hr⟩ := bind_ok hr
      cases hd
      obtain ⟨_, _, hr⟩ := bind_ok hr
      obtain ⟨_, _, hr⟩ := bind_ok hr
      obtain ⟨_, _, hr⟩ := bind_ok hr
      cases hr
      have := hat.position
      simp only [hd3]
      omega
    · obtain ⟨v1, v2, v3⟩ := hval (by omega)
      rw [if_neg hq]
      simp only [bind, Except.bind]
      rw [v1, v2, v3]
      cases hl : entryAt tables.literalLengths.seq (field (readLe bitstream) (Nat.log2 (readLe bitstream))
          tables.literalLengths.seq.tableLog) with
      | error e => exact .inr ⟨⟨_, rfl⟩, fun _ h => (nomatch h)⟩
      | ok lit =>
        simp only
        cases ho : entryAt tables.offsets.seq (field (readLe bitstream) (Nat.log2 (readLe bitstream) -
            tables.literalLengths.seq.tableLog) tables.offsets.seq.tableLog) with
        | error e => exact .inr ⟨⟨_, rfl⟩, fun _ h => (nomatch h)⟩
        | ok off =>
          simp only
          cases hm : entryAt tables.matchLengths.seq (field (readLe bitstream) (Nat.log2 (readLe bitstream) -
              tables.literalLengths.seq.tableLog - tables.offsets.seq.tableLog) tables.matchLengths.seq.tableLog) with
          | error e => exact .inr ⟨⟨_, rfl⟩, fun _ h => (nomatch h)⟩
          | ok ml =>
            refine .inl ⟨_, rfl, _, rfl, ?_⟩
            refine ⟨by rw [← hd3] at hsrc; exact hsrc, ?_, by rw [← hd3] at hset; exact hset, rfl, rfl, rfl, ?_⟩
            · rw [← hd3] at hat
              have := hat.at (by omega)
              convert this using 1
              simp only
              omega
            · exact ⟨ht.offsets.extra _ (entryAt_mem ho), ht.matchLengths.extra _ (entryAt_mem hm),
                ht.literalLengths.extra _ (entryAt_mem hl), ht.literalLengths.nbBits _ (entryAt_mem hl),
                ht.offsets.nbBits _ (entryAt_mem ho), ht.matchLengths.nbBits _ (entryAt_mem hm)⟩

/-- The end of a run: the last sequence, executed, and the check that the payload is used up. -/
def finishRun (sink : Sink σ) (b : ExecBounds) (r : SequenceReader) (t : ExecState σ) : Result (ExecState σ) := do
  let (seq, r) := decodeSequence r
  let t ← executeSequence sink.len sink.placeLast b t seq
  let (status, bitD) := r.bitD.reload
  if status = .overflow ∨ ¬ bitD.endOfStream then
    .error (.corruption "sequence bitstream was not fully consumed")
  else .ok t

/-- A reader has used up its payload exactly when its extra bits are what is left. -/
theorem finishRun_matches {r : SequenceReader} {s : SequencePlace} (h : ReaderAt src r s) (t : ExecState σ) :
    Matches Eq (finishRun sink b r t)
      (if s.left ≠ s.extraBits then .error (.corruption "sequence bitstream was not fully consumed") else
        executeSequence sink.len sink.placeLast b t (s.sequence (readLe src))) := by
  obtain ⟨d, hd, hsrc, hat, -, hseq⟩ := decodeSequence_reads h
  obtain ⟨h1, h2, -⟩ := hat.reload
  unfold finishRun
  simp only [hd]
  by_cases hleft : s.left = s.extraBits
  · rw [if_neg (by simpa using hleft), hseq (by omega)]
    have hno : d.reload.1 ≠ .overflow := fun hc => absurd (h1.1 hc) (by omega)
    have heos : d.reload.2.endOfStream = true := (h2.endOfStream_iff (by omega)).2 (by omega)
    simp only [hno, heos, not_true_eq_false, or_self, reduceIte]
    rw [show (fun t => Except.ok t : ExecState σ → Result (ExecState σ)) = pure from rfl, bind_pure]
    exact .refl _
  · rw [if_pos hleft]
    have hbad : d.reload.1 = .overflow ∨ ¬ d.reload.2.endOfStream = true := by
      rcases Int.lt_or_le (s.left - s.extraBits : Int) 0 with hq | hq
      · exact .inl (h1.2 hq)
      · right
        rw [h2.endOfStream_iff hq]
        omega
    simp only [hbad, reduceIte]
    cases executeSequence sink.len sink.placeLast b t (decodeSequence r).1 <;> exact .of_error _ _

theorem finishRun_past {r : SequenceReader} (h : 64 < r.bitD.bitsConsumed) (t : ExecState σ) :
    ∃ e, finishRun sink b r t = .error e := by
  have h1 := decodeSequence_past h
  unfold finishRun
  simp only [BitDStream.reload_overflow h1, true_or, reduceIte]
  cases executeSequence sink.len sink.placeLast b t (decodeSequence r).1 <;> exact ⟨_, rfl⟩

theorem sequenceLoop_past {r : SequenceReader} (h : 64 < r.bitD.bitsConsumed) (n : Nat) (t : ExecState σ) :
    ∃ e, (sequenceLoop sink b tables n r t >>= fun x => finishRun sink b x.1 x.2) = .error e := by
  cases n with
  | zero => exact finishRun_past h t
  | succ n =>
    obtain ⟨e, he⟩ := @stepReader_past tables r h
    cases hl : sequenceLoop sink b tables (n + 1) r t with
    | error e => exact ⟨e, rfl⟩
    | ok x =>
      obtain ⟨y, hy, -⟩ := (sequenceLoop_succ n r t).1 x hl
      rw [he] at hy
      cases hy

/-- Where a block places its last sequence like the others, the fused run executes the sequences that
its section's bits denote. -/
theorem runSequences_matches (ht : tables.Narrow) (hlast : sink.placeLast = sink.place)
    (section_ : ParsedSequenceSection) (out : σ) (reps : DecoderRepeatOffsets) :
    Matches Eq (runSequences sink b tables section_ out reps) (do
      let (places, last) ← section_.places tables
      ((places ++ [last]).map (·.sequence (readLe section_.bitstream))).foldlM
        (executeSequence sink.len sink.place b) { out, reps, ip := 0, budget := b.budget }) := by
  have hrun : runSequences sink b tables section_ out reps = (do
      let r ← initSequenceReader section_.bitstream tables
      let x ← sequenceLoop sink b tables (section_.numberOfSequences - 1) r { out, reps, ip := 0, budget := b.budget }
      finishRun sink b x.1 x.2) := rfl
  rw [hrun]
  unfold ParsedSequenceSection.places
  rcases initSequenceReader_matches ht section_.bitstream with ⟨s, hs, r, hr, hat⟩ | ⟨⟨e, he⟩, hpast⟩
  swap
  · rw [he]
    cases hi : initSequenceReader section_.bitstream tables with
    | error e' => exact .of_error _ _
    | ok r =>
      obtain ⟨e', he'⟩ := @sequenceLoop_past _ sink b tables r (hpast r hi)
        (section_.numberOfSequences - 1) { out, reps, ip := 0, budget := b.budget }
      show Matches Eq (sequenceLoop sink b tables _ r _ >>= _) _
      rw [he']
      exact .of_error _ _
  rw [hs, hr]
  simp only [bind_assoc]
  show Matches Eq (sequenceLoop sink b tables _ r _ >>= _) (SequencePlace.walk _ tables _ s >>= _)
  refine ((sequenceLoop_matches ht _ _ hat).bind
    (g := fun y => if y.1.left ≠ y.1.extraBits then
        .error (.corruption "sequence bitstream was not fully consumed")
      else
      executeSequence sink.len sink.placeLast b y.2 (y.1.sequence (readLe section_.bitstream)))
    fun x y _ _ hxy => hxy.2 ▸ finishRun_matches hxy.1 x.2).eq_right ?_
  rw [bind_assoc]
  refine .bind_same fun x _ => ?_
  rw [bind_assoc]
  by_cases hleft : x.2.left = x.2.extraBits
  · rw [if_neg (by simpa using hleft)]
    show Matches Eq _ (((x.1 ++ [x.2]).map _).foldlM _ _)
    rw [List.map_append, List.foldlM_append]
    refine .bind_same fun t _ => ?_
    show Matches Eq (if _ then _ else _) _
    rw [if_neg (by simpa using hleft), hlast, List.map_singleton]
    simp only [List.foldlM_cons, List.foldlM_nil, bind_pure]
    exact .refl _
  · rw [if_pos hleft]
    generalize (x.1.map _).foldlM (executeSequence sink.len sink.place b) _ = y
    cases y with
    | error e => exact .of_error _ _
    | ok t =>
      show Matches Eq (if _ then _ else _) _
      rw [if_pos hleft]
      exact .of_error _ _

end

end Zstandard
