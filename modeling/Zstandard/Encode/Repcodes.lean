/-
The copies of the repeat offset rules against each other.

The encoder turns raw offsets into offset values, the decoder turns them back, and the splitter walks
both histories at once. Encoding and the three resolutions stay in step over any run
(`offsetValues_lockstep`), up to the one place where the encoder's u32 runs out. Reconciling a
sub-block does not: `reconcileSubblockRepcodes` advances the compressor's history by the values it
has just replaced, which leaves repeat offsets wrong that an original code would have kept, and is
right exactly where they are pushed out before they matter.
-/
import Zstandard.Encode.Split

namespace Zstandard

namespace RepeatOffsets

/-! ## Encoding offsets -/

/-- None of the three is zero. -/
def Nonzero (r : RepeatOffsets) : Prop := 0 < r.rep1 ∧ 0 < r.rep2 ∧ 0 < r.rep3

instance (r : RepeatOffsets) : Decidable r.Nonzero := inferInstanceAs (Decidable (_ ∧ _))

/-- `encode_offset_value_and_update`. The explicit offset value wraps, as a u32 does. -/
def encodeOffsetValueAndUpdate (r : RepeatOffsets) (rawOffset literalLength : Nat) : Nat × RepeatOffsets :=
  let llZero := literalLength = 0
  if ¬ llZero ∧ rawOffset = r.rep1 then (1, r)
  else if rawOffset = r.rep2 then (if llZero then 1 else 2, ⟨r.rep2, r.rep1, r.rep3⟩)
  else if rawOffset = r.rep3 then (if llZero then 2 else 3, ⟨r.rep3, r.rep1, r.rep2⟩)
  else if llZero ∧ r.rep1 > 1 ∧ rawOffset = r.rep1 - 1 then (3, ⟨r.rep1 - 1, r.rep1, r.rep2⟩)
  else ((rawOffset + 3) % 2 ^ 32, ⟨rawOffset, r.rep1, r.rep2⟩)

/-- `resolve_encode`, the resolution that cannot report an error. -/
def resolveEncode (r : RepeatOffsets) (literalLength offsetValue : Nat) : Nat × RepeatOffsets :=
  if offsetValue > 3 then (offsetValue - 3, ⟨offsetValue - 3, r.rep1, r.rep2⟩)
  else
    match DecoderRepeatOffsets.repIndex offsetValue literalLength with
    | 1 => (r.rep1, r)
    | 2 => (r.rep2, ⟨r.rep2, r.rep1, r.rep3⟩)
    | 3 => (r.rep3, ⟨r.rep3, r.rep1, r.rep2⟩)
    | _ => (r.rep1 - 1, ⟨r.rep1 - 1, r.rep1, r.rep2⟩)

/-- Encode a run of raw offsets, each with its literal length: the sequences as a decoder reads them,
up to their match lengths, and the repeat offsets after the last. -/
def encodeAll (r : RepeatOffsets) : List (Nat × Nat) → List SequenceCommand × RepeatOffsets
  | [] => ([], r)
  | (rawOffset, literalLength) :: rest =>
    let (offsetValue, r) := r.encodeOffsetValueAndUpdate rawOffset literalLength
    let (seqs, r) := r.encodeAll rest
    ({ literalLength, offsetValue, matchLength := 0 } :: seqs, r)

/-- Resolve a run with `resolve_encode`. -/
def resolveEncodeAll (r : RepeatOffsets) : List SequenceCommand → List Nat × RepeatOffsets
  | [] => ([], r)
  | seq :: seqs =>
    let (offset, r) := r.resolveEncode seq.literalLength seq.offsetValue
    let (offsets, r) := r.resolveEncodeAll seqs
    (offset :: offsets, r)

/-- The five outcomes of an encoding. -/
theorem encodeOffsetValueAndUpdate_cases (r : RepeatOffsets) (rawOffset ll : Nat) :
    (ll ≠ 0 ∧ rawOffset = r.rep1 ∧ r.encodeOffsetValueAndUpdate rawOffset ll = (1, r)) ∨
    (rawOffset = r.rep2 ∧
      r.encodeOffsetValueAndUpdate rawOffset ll = (if ll = 0 then 1 else 2, ⟨r.rep2, r.rep1, r.rep3⟩)) ∨
    (rawOffset = r.rep3 ∧
      r.encodeOffsetValueAndUpdate rawOffset ll = (if ll = 0 then 2 else 3, ⟨r.rep3, r.rep1, r.rep2⟩)) ∨
    (ll = 0 ∧ r.rep1 > 1 ∧ rawOffset = r.rep1 - 1 ∧
      r.encodeOffsetValueAndUpdate rawOffset ll = (3, ⟨r.rep1 - 1, r.rep1, r.rep2⟩)) ∨
    r.encodeOffsetValueAndUpdate rawOffset ll = ((rawOffset + 3) % 2 ^ 32, ⟨rawOffset, r.rep1, r.rep2⟩) := by
  unfold encodeOffsetValueAndUpdate
  simp only
  by_cases h1 : ll ≠ 0 ∧ rawOffset = r.rep1
  · rw [if_pos h1]
    exact .inl ⟨h1.1, h1.2, rfl⟩
  rw [if_neg h1]
  by_cases h2 : rawOffset = r.rep2
  · rw [if_pos h2]
    exact .inr (.inl ⟨h2, rfl⟩)
  rw [if_neg h2]
  by_cases h3 : rawOffset = r.rep3
  · rw [if_pos h3]
    exact .inr (.inr (.inl ⟨h3, rfl⟩))
  rw [if_neg h3]
  by_cases h4 : ll = 0 ∧ r.rep1 > 1 ∧ rawOffset = r.rep1 - 1
  · rw [if_pos h4]
    exact .inr (.inr (.inr (.inl ⟨h4.1, h4.2.1, h4.2.2, rfl⟩)))
  · rw [if_neg h4]
    exact .inr (.inr (.inr (.inr rfl)))

/-- One offset there and back, and the same history on both sides. -/
theorem resolveValues_encode {r : RepeatOffsets} {rawOffset ll : Nat} (hpos : 0 < rawOffset)
    (hmax : rawOffset + 3 < 2 ^ 32) :
    r.resolveValues ll (r.encodeOffsetValueAndUpdate rawOffset ll).1 =
      .ok (rawOffset, (r.encodeOffsetValueAndUpdate rawOffset ll).2) := by
  unfold resolveValues DecoderRepeatOffsets.repIndex
  rcases encodeOffsetValueAndUpdate_cases r rawOffset ll with
    ⟨hll, h, he⟩ | ⟨h, he⟩ | ⟨h, he⟩ | ⟨hll, hrep, h, he⟩ | he
  · rw [he, h]; simp [hll]
  · rw [he, h]; by_cases hll : ll = 0 <;> simp [hll]
  · rw [he, h]; by_cases hll : ll = 0 <;> simp [hll]
  · rw [he, h]; simp [hll, hrep]
  · rw [he, Nat.mod_eq_of_lt hmax]
    simp only
    rw [if_pos (by omega), Nat.add_sub_cancel]

theorem resolveAll_encodeAll : ∀ {pairs : List (Nat × Nat)} {r : RepeatOffsets},
    (∀ p ∈ pairs, 0 < p.1 ∧ p.1 + 3 < 2 ^ 32) →
      r.resolveAll (r.encodeAll pairs).1 = .ok (pairs.map Prod.fst, (r.encodeAll pairs).2)
  | [], _, _ => rfl
  | (rawOffset, literalLength) :: rest, r, h => by
    obtain ⟨hpos, hmax⟩ := h (rawOffset, literalLength) (by simp)
    have hrest : ∀ p ∈ rest, 0 < p.1 ∧ p.1 + 3 < 2 ^ 32 := fun p hp => h p (List.mem_cons_of_mem _ hp)
    have ih := resolveAll_encodeAll hrest (r := (r.encodeOffsetValueAndUpdate rawOffset literalLength).2)
    simp only [encodeAll, resolveAll, resolveValues_encode hpos hmax, ok_bind, ih, List.map_cons]

/-- Where `resolve_values` does not fail, `resolve_encode` finds the same. -/
theorem resolveEncode_eq {r r' : RepeatOffsets} {ll ov offset : Nat}
    (h : r.resolveValues ll ov = .ok (offset, r')) : r.resolveEncode ll ov = (offset, r') := by
  unfold resolveValues at h
  unfold resolveEncode
  by_cases hbig : ov > 3
  · rw [if_pos hbig] at h ⊢
    cases h; rfl
  rw [if_neg hbig] at h ⊢
  by_cases h0 : ov = 0
  · rw [if_pos h0] at h; cases h
  rw [if_neg h0] at h
  generalize DecoderRepeatOffsets.repIndex ov ll = i at h ⊢
  have hlast : (if r.rep1 ≤ 1 then Except.error (Error.corruption "repeat offset 1 minus 1 is zero")
      else .ok (r.rep1 - 1, ⟨r.rep1 - 1, r.rep1, r.rep2⟩)) = Except.ok (offset, r') →
      (r.rep1 - 1, ⟨r.rep1 - 1, r.rep1, r.rep2⟩) = (offset, r') := by
    intro h
    split at h
    · cases h
    · exact Except.ok.inj h
  rcases i with _ | _ | _ | _ | i
  · exact hlast h
  · cases h; rfl
  · cases h; rfl
  · cases h; rfl
  · exact hlast h

theorem resolveEncodeAll_eq : ∀ {seqs : List SequenceCommand} {r r' : RepeatOffsets} {offsets : List Nat},
    r.resolveAll seqs = .ok (offsets, r') → r.resolveEncodeAll seqs = (offsets, r')
  | [], _, _, _, h => by cases h; rfl
  | seq :: seqs, r, r', offsets, h => by
    obtain ⟨⟨offset, r₁⟩, h₁, h⟩ := bind_ok h
    obtain ⟨⟨offsets', r₂⟩, h₂, h⟩ := bind_ok h
    cases h
    simp only [resolveEncodeAll, resolveEncode_eq h₁, resolveEncodeAll_eq h₂]

/-- A resolution that succeeds keeps the history free of zeros. -/
theorem resolveValues_nonzero {r r' : RepeatOffsets} {ll ov offset : Nat} (hr : r.Nonzero)
    (h : r.resolveValues ll ov = .ok (offset, r')) : 0 < offset ∧ r'.Nonzero := by
  obtain ⟨h1, h2, h3⟩ := hr
  unfold resolveValues at h
  by_cases hbig : ov > 3
  · rw [if_pos hbig] at h
    cases h
    have hpos : 0 < ov - 3 := by omega
    exact ⟨hpos, hpos, h1, h2⟩
  rw [if_neg hbig] at h
  by_cases h0 : ov = 0
  · rw [if_pos h0] at h; cases h
  rw [if_neg h0] at h
  split at h
  · cases h; exact ⟨h1, h1, h2, h3⟩
  · cases h; exact ⟨h2, h2, h1, h3⟩
  · cases h; exact ⟨h3, h3, h1, h2⟩
  · split at h
    · cases h
    · rename_i hrep
      cases h
      have hpos : 0 < r.rep1 - 1 := by omega
      exact ⟨hpos, hpos, h1, h2⟩

theorem resolveAll_nonzero : ∀ {seqs : List SequenceCommand} {r r' : RepeatOffsets} {offsets : List Nat},
    r.Nonzero → r.resolveAll seqs = .ok (offsets, r') → (∀ o ∈ offsets, 0 < o) ∧ r'.Nonzero
  | [], _, _, _, hr, h => by cases h; exact ⟨by simp, hr⟩
  | seq :: seqs, r, r', offsets, hr, h => by
    obtain ⟨⟨offset, r₁⟩, h₁, h⟩ := bind_ok h
    obtain ⟨⟨offsets', r₂⟩, h₂, h⟩ := bind_ok h
    cases h
    obtain ⟨hpos, hr₁⟩ := resolveValues_nonzero hr h₁
    obtain ⟨hall, hr₂⟩ := resolveAll_nonzero hr₁ h₂
    exact ⟨by simpa using ⟨hpos, hall⟩, hr₂⟩

end RepeatOffsets

/-- An offset value that `resolve_values` rejects is the sentinel to the fused decoder, which then
keeps its repeat offsets. -/
theorem DecoderRepeatOffsets.resolveDecode_error {r : DecoderRepeatOffsets} {ll ov : Nat} {e : Error}
    (h : r.toRepeatOffsets.resolveValues ll ov = .error e) :
    r.resolveDecode ov ll = (offsetSentinel, r) := by
  unfold RepeatOffsets.resolveValues at h
  unfold resolveDecode resolveRepOffsetDecode
  by_cases hbig : ov > 3
  · rw [if_pos hbig] at h; cases h
  rw [if_neg hbig] at h
  rw [dif_neg hbig]
  by_cases h0 : ov = 0
  · subst h0; simp
  rw [if_neg h0] at h
  have hi : 1 ≤ repIndex ov ll ∧ (repIndex ov ll = 1 → ov = 1 ∧ ll ≠ 0) := by
    unfold repIndex; split <;> omega
  split at h
  · cases h
  · cases h
  · cases h
  · rename_i h1 h2 h3
    split at h
    · rename_i hrep
      have hne : ¬ (ov = 1 ∧ ll ≠ 0) := by
        rintro ⟨rfl, hll⟩
        exact h1 (by simp [repIndex, hll])
      rw [if_neg hne, if_neg h0, if_neg h2, if_neg h3, dif_pos hrep]
    · cases h

open RepeatOffsets in
/-- Encoding a run of raw offsets and resolving the offset values gives the raw offsets back in the
fused decoder, in `resolve_values` and in `resolve_encode`, with the same repeat offsets on every
side; and whatever a decoder reads, its repeat offsets stay nonzero, an offset value it cannot resolve
being an error or the sentinel. -/
theorem offsetValues_lockstep (r : DecoderRepeatOffsets) :
    (∀ pairs : List (Nat × Nat), (∀ p ∈ pairs, 0 < p.1 ∧ p.1 ≤ 2 ^ 32 - 4) →
      let (seqs, r') := r.toRepeatOffsets.encodeAll pairs
      (r.decodeOffsets seqs).1 = pairs.map Prod.fst ∧ (r.decodeOffsets seqs).2.toRepeatOffsets = r' ∧
      r.toRepeatOffsets.resolveAll seqs = .ok (pairs.map Prod.fst, r') ∧
      r.toRepeatOffsets.resolveEncodeAll seqs = (pairs.map Prod.fst, r')) ∧
    (∀ seqs : List SequenceCommand, (r.decodeOffsets seqs).2.toRepeatOffsets.Nonzero ∧
      ∀ offsets r', r.toRepeatOffsets.resolveAll seqs = .ok (offsets, r') → r'.Nonzero) ∧
    (∀ ov ll : Nat, (∃ e, r.toRepeatOffsets.resolveValues ll ov = .error e) →
      r.resolveDecode ov ll = (DecoderRepeatOffsets.offsetSentinel, r)) := by
  refine ⟨fun pairs hp => ?_, fun seqs => ⟨(r.decodeOffsets seqs).2.pos, fun offsets r' h => ?_⟩, ?_⟩
  · have hall : r.toRepeatOffsets.resolveAll (r.toRepeatOffsets.encodeAll pairs).1 =
        .ok (pairs.map Prod.fst, (r.toRepeatOffsets.encodeAll pairs).2) :=
      resolveAll_encodeAll fun p hmem => by have := hp p hmem; omega
    obtain ⟨hoffsets, hreps⟩ := DecoderRepeatOffsets.decodeOffsets_eq hall
    exact ⟨hoffsets, hreps, hall, resolveEncodeAll_eq hall⟩
  · exact (resolveAll_nonzero r.pos h).2
  · rintro ov ll ⟨e, h⟩
    exact DecoderRepeatOffsets.resolveDecode_error h

/-- The largest u32 is encoded as repeat code 2. -/
theorem offsetValues_wrapped :
    let r := DecoderRepeatOffsets.initial
    ¬ ((r.decodeOffsets (r.toRepeatOffsets.encodeAll [(2 ^ 32 - 1, 1)]).1).1 = [2 ^ 32 - 1]) := by
  decide

theorem offsetValues_lockstep_small :
    let r := DecoderRepeatOffsets.initial
    (r.decodeOffsets (r.toRepeatOffsets.encodeAll [(4, 0), (3, 0), (9, 2)]).1).1 = [4, 3, 9] :=
  ((offsetValues_lockstep DecoderRepeatOffsets.initial).1 [(4, 0), (3, 0), (9, 2)] (by decide)).1

/-! ## Reconciling a sub-block -/

namespace RepeatOffsets

/-- Whether an offset value is a repeat code. -/
def IsRepcode (offsetValue : Nat) : Prop := 1 ≤ offsetValue ∧ offsetValue ≤ 3

instance (ov : Nat) : Decidable (IsRepcode ov) := inferInstanceAs (Decidable (_ ∧ _))

/-- The two histories read a repeat code differently. -/
def Misread (compressor decoder : RepeatOffsets) (seq : SequenceCommand) : Prop :=
  IsRepcode seq.offsetValue ∧ compressor.resolveRepcodeToRaw seq.offsetValue (seq.literalLength == 0) ≠
    decoder.resolveRepcodeToRaw seq.offsetValue (seq.literalLength == 0)

instance (compressor decoder : RepeatOffsets) (seq : SequenceCommand) : Decidable (Misread compressor decoder seq) :=
  inferInstanceAs (Decidable (_ ∧ _))

/-- Which repeat offset a sequence names: none, or one of the three, or (4) one less than the first. -/
def namedSlot (seq : SequenceCommand) : Nat :=
  if IsRepcode seq.offsetValue then DecoderRepeatOffsets.repIndex seq.offsetValue seq.literalLength else 0

/-- The decoder's repeat offsets behind a sequence of the compressor: the code advances them if it is
read alike, otherwise the offset is pushed as an explicit one. -/
def told (decoder compressor : RepeatOffsets) (seq : SequenceCommand) : RepeatOffsets :=
  if Misread compressor decoder seq then
    ⟨compressor.resolveRepcodeToRaw seq.offsetValue (seq.literalLength == 0), decoder.rep1, decoder.rep2⟩
  else decoder.advanceRepState seq.offsetValue (seq.literalLength == 0)

/-- Which of the compressor's repeat offsets a push in the place of a rotation has made wrong. -/
structure Stale where
  second : Bool := false
  third : Bool := false
deriving DecidableEq, Repr

/-- A push moves what is wrong out; only the codes of the first and of the second repeat offset rotate
otherwise, and pushing in their place drops the third. -/
def Stale.after (stale : Stale) (compressor : RepeatOffsets) (misread : Prop) [Decidable misread] : Nat → Stale
  | 1 => if misread then ⟨compressor.rep1 ≠ compressor.rep2, compressor.rep2 ≠ compressor.rep3⟩ else stale
  | 2 => ⟨false, if misread then compressor.rep2 ≠ compressor.rep3 else stale.third⟩
  | _ => ⟨false, stale.second⟩

/-- An offset that has to be made explicit is within a u32. -/
def ExplicitFits (compressor decoder : RepeatOffsets) (seq : SequenceCommand) : Prop :=
  Misread compressor decoder seq →
    compressor.resolveRepcodeToRaw seq.offsetValue (seq.literalLength == 0) + 3 < 2 ^ 32

instance (compressor decoder : RepeatOffsets) (seq : SequenceCommand) :
    Decidable (ExplicitFits compressor decoder seq) :=
  inferInstanceAs (Decidable (_ → _))

/-- In the original list nothing names a repeat offset that has become wrong, none is wrong at the end, and
every offset that has to be made explicit fits. -/
def Undisturbed (compressor decoder : RepeatOffsets) (stale : Stale) : List SequenceCommand → Prop
  | [] => stale.second = false ∧ stale.third = false
  | seq :: seqs =>
    (namedSlot seq = 2 → stale.second = false) ∧ (namedSlot seq = 3 → stale.third = false) ∧
    ExplicitFits compressor decoder seq ∧
    Undisturbed (compressor.advanceRepState seq.offsetValue (seq.literalLength == 0)) (told decoder compressor seq)
      (stale.after compressor (Misread compressor decoder seq) (namedSlot seq)) seqs

instance Undisturbed.decidable : ∀ (seqs : List SequenceCommand) (compressor decoder : RepeatOffsets) (stale : Stale),
    Decidable (Undisturbed compressor decoder stale seqs)
  | [], _, _, stale => inferInstanceAs (Decidable (stale.second = false ∧ stale.third = false))
  | seq :: seqs, compressor, decoder, stale =>
    have := Undisturbed.decidable seqs (compressor.advanceRepState seq.offsetValue (seq.literalLength == 0))
      (told decoder compressor seq) (stale.after compressor (Misread compressor decoder seq) (namedSlot seq))
    inferInstanceAs (Decidable (_ ∧ _ ∧ _ ∧ _))

/-- The offset value a decoder needs for what the compressor means: the code itself where both
histories read it alike, the explicit offset otherwise. -/
def replacement (compressor decoder : RepeatOffsets) (seq : SequenceCommand) : Nat :=
  if Misread compressor decoder seq then
    compressor.resolveRepcodeToRaw seq.offsetValue (seq.literalLength == 0) + 3
  else seq.offsetValue

/-- A repeat code that resolves, as the splitter reads it. -/
theorem resolveValues_repcode {r : RepeatOffsets} {ll ov : Nat} (hov : IsRepcode ov)
    (hpos : 0 < r.resolveRepcodeToRaw ov (ll == 0)) :
    r.resolveValues ll ov = .ok (r.resolveRepcodeToRaw ov (ll == 0), r.advanceRepState ov (ll == 0)) := by
  obtain ⟨h1, h3⟩ := hov
  have hov : ov = 1 ∨ ov = 2 ∨ ov = 3 := by omega
  unfold resolveRepcodeToRaw at hpos ⊢
  unfold resolveValues DecoderRepeatOffsets.repIndex advanceRepState
  by_cases hll : ll = 0
  · subst hll
    rcases hov with rfl | rfl | rfl
    · simp
    · simp
    · have hne : ¬ r.rep1 ≤ 1 := by simp at hpos; omega
      simp [hne]
  · have hb : (ll == 0) = false := by simpa using hll
    rcases hov with rfl | rfl | rfl <;> simp [hll]

theorem resolveValues_explicit {r : RepeatOffsets} {ll ov : Nat} (hov : 3 < ov) :
    r.resolveValues ll ov = .ok (ov - 3, r.advanceRepState ov (ll == 0)) := by
  unfold resolveValues advanceRepState
  rw [if_pos hov, if_pos (by omega)]

/-- What a repeat code that resolves resolves to. -/
theorem resolveValues_repcode_eq {r r' : RepeatOffsets} {ll ov offset : Nat} (hov : IsRepcode ov)
    (h : r.resolveValues ll ov = .ok (offset, r')) :
    offset = r.resolveRepcodeToRaw ov (ll == 0) ∧ r' = r.advanceRepState ov (ll == 0) := by
  refine ⟨?_, (resolveValues_advance h).symm⟩
  obtain ⟨h1, h3⟩ := hov
  have hov : ov = 1 ∨ ov = 2 ∨ ov = 3 := by omega
  unfold resolveValues DecoderRepeatOffsets.repIndex at h
  unfold resolveRepcodeToRaw
  by_cases hll : ll = 0
  · subst hll
    rcases hov with rfl | rfl | rfl
    · cases h; rfl
    · cases h; rfl
    · by_cases h1 : r.rep1 ≤ 1
      · simp [h1] at h
      · simp only [Nat.reduceAdd, reduceIte, h1, OfNat.ofNat_ne_zero] at h
        cases h; rfl
  · have hb : (ll == 0) = false := by simpa using hll
    simp only [hll, reduceIte, Nat.add_zero] at h
    rw [hb]
    rcases hov with rfl | rfl | rfl <;> cases h <;> rfl

theorem resolveValues_cases {r r' : RepeatOffsets} {ll ov offset : Nat}
    (h : r.resolveValues ll ov = .ok (offset, r')) : IsRepcode ov ∨ 3 < ov ∧ offset = ov - 3 := by
  by_cases hbig : 3 < ov
  · rw [resolveValues_explicit hbig] at h
    cases h
    exact .inr ⟨hbig, rfl⟩
  · by_cases h0 : ov = 0
    · subst h0; cases h
    · exact .inl ⟨by omega, by omega⟩

theorem advanceRepState_nonzero {r : RepeatOffsets} {ov : Nat} {ll0 : Bool} (hr : r.Nonzero)
    (h : 3 < ov ∨ IsRepcode ov ∧ 0 < r.resolveRepcodeToRaw ov ll0) : (r.advanceRepState ov ll0).Nonzero := by
  obtain ⟨h1, h2, h3⟩ := hr
  unfold advanceRepState
  rcases h with hbig | ⟨⟨hlo, hhi⟩, hpos⟩
  · rw [if_pos (by omega)]
    have : 0 < ov - 3 := by omega
    exact ⟨this, h1, h2⟩
  · rw [if_neg (by omega)]
    unfold resolveRepcodeToRaw at hpos
    split at hpos <;> rename_i hadj
    · rw [hadj]; exact ⟨hpos, h1, h2⟩
    · rw [hadj]; exact ⟨h1, h2, h3⟩
    · rw [hadj]; exact ⟨h2, h1, h3⟩
    · split
      · exact ⟨h2, h1, h3⟩
      · exact ⟨h3, h1, h2⟩
      · contradiction
      · exact ⟨h1, h2, h3⟩

/-- The offset just read is in front. -/
theorem advanceRepState_rep1 {r : RepeatOffsets} {ov : Nat} {ll0 : Bool} (hov : IsRepcode ov) :
    (r.advanceRepState ov ll0).rep1 = r.resolveRepcodeToRaw ov ll0 := by
  obtain ⟨hlo, hhi⟩ := hov
  have hov : ov = 1 ∨ ov = 2 ∨ ov = 3 := by omega
  cases ll0 <;> rcases hov with rfl | rfl | rfl <;> rfl

theorem not_misread_explicit {compressor decoder : RepeatOffsets} {seq : SequenceCommand} (h : 3 < seq.offsetValue) :
    ¬ Misread compressor decoder seq := by
  rintro ⟨⟨-, hhi⟩, -⟩
  omega

theorem replacement_explicit {compressor decoder : RepeatOffsets} {seq : SequenceCommand}
    (h : 3 < seq.offsetValue) : replacement compressor decoder seq = seq.offsetValue :=
  if_neg (not_misread_explicit h)

/-- What the replacement resolves to, for a repeat code that means `offset` to the compressor. -/
theorem resolveValues_replacement {compressor decoder : RepeatOffsets} {seq : SequenceCommand} {offset : Nat}
    (hov : IsRepcode seq.offsetValue) (hpos : 0 < offset)
    (h : offset = compressor.resolveRepcodeToRaw seq.offsetValue (seq.literalLength == 0)) :
    decoder.resolveValues seq.literalLength (replacement compressor decoder seq) =
      .ok (offset, decoder.advanceRepState (replacement compressor decoder seq) (seq.literalLength == 0)) := by
  subst h
  unfold replacement
  by_cases hmis : Misread compressor decoder seq
  · rw [if_pos hmis, resolveValues_explicit (by omega), Nat.add_sub_cancel]
  · have hread := not_not.1 fun hne => hmis ⟨hov, hne⟩
    rw [if_neg hmis, hread]
    rw [hread] at hpos
    exact resolveValues_repcode hov hpos

/-- What a repeat code names, and how it moves the repeat offsets. -/
theorem repcode_cases {seq : SequenceCommand} (hov : IsRepcode seq.offsetValue) :
    (namedSlot seq = 1 ∧ ∀ r : RepeatOffsets, r.resolveRepcodeToRaw seq.offsetValue (seq.literalLength == 0) = r.rep1 ∧
      r.advanceRepState seq.offsetValue (seq.literalLength == 0) = r) ∨
    (namedSlot seq = 2 ∧ ∀ r : RepeatOffsets, r.resolveRepcodeToRaw seq.offsetValue (seq.literalLength == 0) = r.rep2 ∧
      r.advanceRepState seq.offsetValue (seq.literalLength == 0) = ⟨r.rep2, r.rep1, r.rep3⟩) ∨
    (namedSlot seq = 3 ∧ ∀ r : RepeatOffsets, r.resolveRepcodeToRaw seq.offsetValue (seq.literalLength == 0) = r.rep3 ∧
      r.advanceRepState seq.offsetValue (seq.literalLength == 0) = ⟨r.rep3, r.rep1, r.rep2⟩) ∨
    (namedSlot seq = 4 ∧ ∀ r : RepeatOffsets, r.resolveRepcodeToRaw seq.offsetValue
    (seq.literalLength == 0) = r.rep1 - 1 ∧
      r.advanceRepState seq.offsetValue (seq.literalLength == 0) = ⟨r.rep1 - 1, r.rep1, r.rep2⟩) := by
  obtain ⟨literalLength, matchLength, offsetValue⟩ := seq
  have hthree : offsetValue = 1 ∨ offsetValue = 2 ∨ offsetValue = 3 := by
    obtain ⟨hlo, hhi⟩ := hov
    simp only at hlo hhi
    omega
  unfold namedSlot
  rw [if_pos hov]
  unfold DecoderRepeatOffsets.repIndex
  by_cases hll : literalLength = 0
  · subst hll
    rcases hthree with rfl | rfl | rfl
    · exact .inr (.inl ⟨rfl, fun r => ⟨rfl, rfl⟩⟩)
    · exact .inr (.inr (.inl ⟨rfl, fun r => ⟨rfl, rfl⟩⟩))
    · exact .inr (.inr (.inr ⟨rfl, fun r => ⟨rfl, rfl⟩⟩))
  · have hb : (literalLength == 0) = false := by simpa using hll
    simp only [hb, if_neg hll]
    rcases hthree with rfl | rfl | rfl
    · exact .inl ⟨rfl, fun r => ⟨rfl, rfl⟩⟩
    · exact .inr (.inl ⟨rfl, fun r => ⟨rfl, rfl⟩⟩)
    · exact .inr (.inr (.inl ⟨rfl, fun r => ⟨rfl, rfl⟩⟩))

theorem namedSlot_explicit {seq : SequenceCommand} (h : 3 < seq.offsetValue) : namedSlot seq = 0 :=
  if_neg fun hov => absurd hov.2 (by omega)

theorem advanceRepState_explicit {r : RepeatOffsets} {ov : Nat} {ll0 : Bool} (h : 3 < ov) :
    r.advanceRepState ov ll0 = ⟨ov - 3, r.rep1, r.rep2⟩ := by
  unfold advanceRepState
  rw [if_pos (by omega)]

/-- An offset made explicit is pushed. -/
theorem advanceRepState_push {r : RepeatOffsets} {offset : Nat} {ll0 : Bool} (h : 0 < offset) :
    r.advanceRepState (offset + 3) ll0 = ⟨offset, r.rep1, r.rep2⟩ := by
  rw [advanceRepState_explicit (by omega), Nat.add_sub_cancel]

/-- Being told an offset is being advanced by its replacement. -/
theorem told_eq {compressor decoder : RepeatOffsets} {seq : SequenceCommand}
    (hpos : Misread compressor decoder seq →
      0 < compressor.resolveRepcodeToRaw seq.offsetValue (seq.literalLength == 0)) :
    decoder.advanceRepState (replacement compressor decoder seq) (seq.literalLength == 0) =
      told decoder compressor seq := by
  unfold told replacement
  by_cases hmis : Misread compressor decoder seq
  · rw [if_pos hmis, if_pos hmis, advanceRepState_push (hpos hmis)]
  · rw [if_neg hmis, if_neg hmis]

/-! ### The history kept by the replaced values -/

/-- The history `kept` by the replaced values differs from the compressor's in what is stale. -/
structure Spoilt (stale : Stale) (compressor kept decoder : RepeatOffsets) : Prop where
  first : kept.rep1 = compressor.rep1
  second : stale.second = true ↔ kept.rep2 ≠ compressor.rep2
  third : stale.third = true ↔ kept.rep3 ≠ compressor.rep3
  front : stale.second = true → decoder.rep1 = compressor.rep1

theorem Spoilt.refl (compressor decoder : RepeatOffsets) : Spoilt {} compressor compressor decoder :=
  ⟨rfl, by simp, by simp, by simp⟩

section
variable {stale : Stale} {compressor kept decoder : RepeatOffsets} {seq : SequenceCommand}

/-- The kept history reads a repeat code right exactly where the code names nothing stale. -/
theorem Spoilt.reads_iff (h : Spoilt stale compressor kept decoder) (hov : IsRepcode seq.offsetValue) :
    kept.resolveRepcodeToRaw seq.offsetValue (seq.literalLength == 0) =
        compressor.resolveRepcodeToRaw seq.offsetValue (seq.literalLength == 0) ↔
      (namedSlot seq = 2 → stale.second = false) ∧ (namedSlot seq = 3 → stale.third = false) := by
  have hsecond : stale.second = false ↔ kept.rep2 = compressor.rep2 := by
    rw [← Bool.not_eq_true, h.second, not_not]
  have hthird : stale.third = false ↔ kept.rep3 = compressor.rep3 := by
    rw [← Bool.not_eq_true, h.third, not_not]
  rcases repcode_cases hov with ⟨hslot, hread⟩ | ⟨hslot, hread⟩ | ⟨hslot, hread⟩ | ⟨hslot, hread⟩ <;>
    rw [(hread kept).1, (hread compressor).1, hslot]
  · simp [h.first]
  · simp [hsecond]
  · simp [hthird]
  · simp [h.first]

/-- A history without zeros keeps none, whether its code is replaced or not. -/
theorem Nonzero.replaced (hnz : kept.Nonzero) (decoder : RepeatOffsets)
    (hov : IsRepcode seq.offsetValue ∨ 3 < seq.offsetValue)
    (hpos : IsRepcode seq.offsetValue → 0 < kept.resolveRepcodeToRaw seq.offsetValue (seq.literalLength == 0)) :
    (kept.advanceRepState (replacement kept decoder seq) (seq.literalLength == 0)).Nonzero := by
  unfold replacement
  split
  · rename_i hmis
    have := hpos hmis.1
    exact advanceRepState_nonzero hnz (.inl (by omega))
  · exact advanceRepState_nonzero hnz (hov.symm.imp_right fun hov => ⟨hov, hpos hov⟩)

/-- The kept history has read a code right if the decoder resolves the value that replaces it to the offset meant. -/
theorem Spoilt.reads_of_resolves (h : Spoilt stale compressor kept decoder) (hnz : kept.Nonzero)
    (hov : IsRepcode seq.offsetValue) {offset : Nat} {next : RepeatOffsets}
    (hoffset : offset = compressor.resolveRepcodeToRaw seq.offsetValue (seq.literalLength == 0)) (hpos : 0 < offset)
    (hd : decoder.resolveValues seq.literalLength (replacement kept decoder seq) = .ok (offset, next)) :
    kept.resolveRepcodeToRaw seq.offsetValue (seq.literalLength == 0) =
      compressor.resolveRepcodeToRaw seq.offsetValue (seq.literalLength == 0) := by
  unfold replacement at hd
  by_cases hmis : Misread kept decoder seq
  · -- the first offset less one is the only one that could be zero, and the first is the compressor's
    have hkept : 0 < kept.resolveRepcodeToRaw seq.offsetValue (seq.literalLength == 0) := by
      rcases repcode_cases hov with ⟨-, hread⟩ | ⟨-, hread⟩ | ⟨-, hread⟩ | ⟨-, hread⟩ <;> rw [(hread _).1]
      · exact hnz.1
      · exact hnz.2.1
      · exact hnz.2.2
      · rw [h.first, ← (hread compressor).1, ← hoffset]
        exact hpos
    rw [if_pos hmis, resolveValues_explicit (by omega), Nat.add_sub_cancel] at hd
    simp only [Except.ok.injEq, Prod.mk.injEq] at hd
    rw [hd.1, hoffset]
  · rw [if_neg hmis] at hd
    rw [not_not.1 fun hne => hmis ⟨hov, hne⟩, ← (resolveValues_repcode_eq hov hd).1, hoffset]

/-- Behind a sequence that both histories read alike, what is stale is what `Stale.after` says. -/
theorem Spoilt.step (h : Spoilt stale compressor kept decoder) (hov : IsRepcode seq.offsetValue ∨ 3 < seq.offsetValue)
    (hreads : (namedSlot seq = 2 → stale.second = false) ∧ (namedSlot seq = 3 → stale.third = false))
    (hpos : IsRepcode seq.offsetValue →
      0 < compressor.resolveRepcodeToRaw seq.offsetValue (seq.literalLength == 0)) :
    Spoilt (stale.after compressor (Misread compressor decoder seq) (namedSlot seq))
      (compressor.advanceRepState seq.offsetValue (seq.literalLength == 0))
      (kept.advanceRepState (replacement compressor decoder seq) (seq.literalLength == 0))
      (told decoder compressor seq) := by
  obtain ⟨c1, c2, c3⟩ := compressor
  obtain ⟨k1, k2, k3⟩ := kept
  obtain ⟨hfirst, hsecond, hthird, hfront⟩ := h
  simp only at hfirst hsecond hthird hfront
  subst hfirst
  rcases hov with hov | hbig
  · have hpos := hpos hov
    have hslots := repcode_cases hov
    by_cases hmis : Misread ⟨k1, c2, c3⟩ decoder seq
    · -- pushed, where the compressor's history rotates: what it leaves wrong depends on the slot that was named
      unfold replacement told
      rw [if_pos hmis, if_pos hmis, advanceRepState_push hpos]
      rcases hslots with ⟨hslot, hread⟩ | ⟨hslot, hread⟩ | ⟨hslot, hread⟩ | ⟨hslot, hread⟩ <;>
        rw [hslot, (hread _).1, (hread _).2]
      · have hnot : ¬ stale.second = true := fun hs => hmis.2 (by rw [(hread _).1, (hread _).1]; exact (hfront hs).symm)
        have hk2 : k2 = c2 := not_not.1 fun hne => hnot (hsecond.2 hne)
        subst hk2
        exact ⟨rfl, by simp [Stale.after, hmis], by simp [Stale.after, hmis], fun _ => rfl⟩
      · have hk2 : k2 = c2 := not_not.1 fun hne => by simpa [hreads.1 hslot] using hsecond.2 hne
        subst hk2
        exact ⟨rfl, by simp [Stale.after], by simp [Stale.after, hmis], fun _ => rfl⟩
      · exact ⟨rfl, by simp [Stale.after], by simpa [Stale.after] using hsecond, fun _ => rfl⟩
      · exact ⟨rfl, by simp [Stale.after], by simpa [Stale.after] using hsecond, fun _ => rfl⟩
    · -- left as it is: both histories rotate by the slot that is named, which is not a wrong one
      unfold replacement told
      rw [if_neg hmis, if_neg hmis]
      have hread_eq : (⟨k1, c2, c3⟩ : RepeatOffsets).resolveRepcodeToRaw seq.offsetValue (seq.literalLength == 0) =
          decoder.resolveRepcodeToRaw seq.offsetValue (seq.literalLength == 0) := not_not.1 fun hne => hmis ⟨hov, hne⟩
      have hdecoder : (decoder.advanceRepState seq.offsetValue (seq.literalLength == 0)).rep1 =
          ((⟨k1, c2, c3⟩ : RepeatOffsets).advanceRepState seq.offsetValue (seq.literalLength == 0)).rep1 := by
        rw [advanceRepState_rep1 hov, advanceRepState_rep1 hov, hread_eq]
      rcases hslots with ⟨hslot, hread⟩ | ⟨hslot, hread⟩ | ⟨hslot, hread⟩ | ⟨hslot, hread⟩
      · rw [hslot, (hread ⟨k1, c2, c3⟩).2, (hread ⟨k1, k2, k3⟩).2] at *
        exact ⟨rfl, by simpa [Stale.after, hmis] using hsecond, by simpa [Stale.after, hmis] using hthird,
          fun _ => hdecoder⟩
      · have hk2 : k2 = c2 := not_not.1 fun hne => by simpa [hreads.1 hslot] using hsecond.2 hne
        rw [hslot, (hread ⟨k1, c2, c3⟩).2, (hread ⟨k1, k2, k3⟩).2] at *
        exact ⟨hk2, by simp [Stale.after], by simpa [Stale.after, hmis] using hthird, fun _ => hdecoder⟩
      · have hk3 : k3 = c3 := not_not.1 fun hne => by simpa [hreads.2 hslot] using hthird.2 hne
        rw [hslot, (hread ⟨k1, c2, c3⟩).2, (hread ⟨k1, k2, k3⟩).2] at *
        exact ⟨hk3, by simp [Stale.after], by simpa [Stale.after] using hsecond, fun _ => hdecoder⟩
      · rw [hslot, (hread ⟨k1, c2, c3⟩).2, (hread ⟨k1, k2, k3⟩).2] at *
        exact ⟨rfl, by simp [Stale.after], by simpa [Stale.after] using hsecond, fun _ => hdecoder⟩
  · -- an explicit offset is pushed on every side
    have hmis : ¬ Misread ⟨k1, c2, c3⟩ decoder seq := not_misread_explicit hbig
    unfold replacement told
    rw [if_neg hmis, if_neg hmis, advanceRepState_explicit hbig, advanceRepState_explicit hbig,
      advanceRepState_explicit hbig, namedSlot_explicit hbig]
    exact ⟨rfl, by simp [Stale.after], by simpa [Stale.after] using hsecond, fun _ => rfl⟩

end

end RepeatOffsets

open RepeatOffsets

/-- One sequence of `reconcileSubblockRepcodes`. -/
theorem reconcileSubblockRepcodes_cons_iff {seq : SequenceCommand} {seqs : List SequenceCommand} {code : Nat}
    {codes : List Nat} {decoder compressor : RepeatOffsets} {r' : Reconciled} :
    reconcileSubblockRepcodes (seq :: seqs) (code :: codes) decoder compressor = .ok r' ↔
      ExplicitFits compressor decoder seq ∧ ∃ r,
        reconcileSubblockRepcodes seqs codes
          (decoder.advanceRepState (replacement compressor decoder seq) (seq.literalLength == 0))
          (compressor.advanceRepState (replacement compressor decoder seq) (seq.literalLength == 0)) = .ok r ∧
        r' = { r with
          sequences := { seq with offsetValue := replacement compressor decoder seq } :: r.sequences
          offsetCodes := (if Misread compressor decoder seq then offsetCodeUnchecked
            (replacement compressor decoder seq)
            else code) :: r.offsetCodes } := by
  have hpatch : (1 ≤ seq.offsetValue ∧ seq.offsetValue ≤ 3 ∧
      compressor.resolveRepcodeToRaw seq.offsetValue (seq.literalLength == 0) ≠
        decoder.resolveRepcodeToRaw seq.offsetValue (seq.literalLength == 0)) ↔ Misread compressor decoder seq := by
    unfold Misread IsRepcode
    rw [and_assoc]
  simp only [reconcileSubblockRepcodes, hpatch]
  unfold replacement ExplicitFits explicitOffsetValue
  by_cases hmis : Misread compressor decoder seq
  · by_cases hfits : compressor.resolveRepcodeToRaw seq.offsetValue (seq.literalLength == 0) + 3 < 2 ^ 32
    · simp only [hmis, hfits, if_true, ok_bind, true_and, implies_true]
      constructor
      · intro h
        obtain ⟨r, hr, h⟩ := bind_ok h
        cases h
        exact ⟨r, hr, rfl⟩
      · rintro ⟨r, hr, rfl⟩
        rw [hr, ok_bind]
    · simp only [hmis, hfits, if_true, if_false]
      constructor
      · intro h
        cases h
      · rintro ⟨hfalse, -⟩
        exact absurd trivial hfalse
  · simp only [hmis, if_false, ok_bind, false_implies, true_and]
    constructor
    · intro h
      obtain ⟨r, hr, h⟩ := bind_ok h
      cases h
      exact ⟨r, hr, rfl⟩
    · rintro ⟨r, hr, rfl⟩
      rw [hr, ok_bind]

/-- What reconciling a list of sequences is for: the decoder's history gives the replaced list the
offsets that the compressor's gives the original one, both histories come back advanced through
their own list, and the replaced values have their codes. -/
structure Reconciles (compressor decoder : RepeatOffsets) (seqs : List SequenceCommand) (offsets : List Nat)
    (r : Reconciled) : Prop where
  decoder : decoder.resolveAll r.sequences = .ok (offsets, r.decoderReps)
  compressor : compressor.resolveAll seqs = .ok (offsets, r.compressorReps)
  codes : ∀ (i : Nat) (old new : SequenceCommand), seqs[i]? = some old → r.sequences[i]? = some new →
    new.offsetValue ≠ old.offsetValue → r.offsetCodes[i]? = some (offsetCodeUnchecked new.offsetValue)

section
variable {seqs : List SequenceCommand} {codes offsets : List Nat} {compressor kept decoder compressor' : RepeatOffsets}

/-- The step both directions share: with the code read alike, the replacement means the same offset. -/
theorem replacement_alike (decoder : RepeatOffsets) {seq : SequenceCommand} {offset : Nat} {next : RepeatOffsets}
    (h : compressor.resolveValues seq.literalLength seq.offsetValue = .ok (offset, next)) (hpos : 0 < offset)
    (hread : IsRepcode seq.offsetValue → kept.resolveRepcodeToRaw seq.offsetValue (seq.literalLength == 0) =
      compressor.resolveRepcodeToRaw seq.offsetValue (seq.literalLength == 0)) :
    (Misread kept decoder seq ↔ Misread compressor decoder seq) ∧
      replacement kept decoder seq = replacement compressor decoder seq ∧
      decoder.resolveValues seq.literalLength (replacement compressor decoder seq) =
        .ok (offset, decoder.advanceRepState (replacement compressor decoder seq) (seq.literalLength == 0)) := by
  rcases resolveValues_cases h with hov | ⟨hbig, rfl⟩
  · have hmis : Misread kept decoder seq ↔ Misread compressor decoder seq := by
      unfold Misread
      rw [hread hov]
    refine ⟨hmis, ?_, resolveValues_replacement hov hpos (resolveValues_repcode_eq hov h).1⟩
    unfold replacement
    simp only [hmis, hread hov]
  · rw [replacement_explicit hbig, replacement_explicit hbig]
    exact ⟨iff_of_false (not_misread_explicit hbig) (not_misread_explicit hbig), rfl, resolveValues_explicit hbig⟩

end

/-- Where nothing is disturbed, everything is as it should be. The induction is on the sequences, with the
history kept by the replaced values beside the compressor's. -/
theorem reconciles_of_undisturbed : ∀ {seqs : List SequenceCommand} {codes offsets : List Nat} {stale : Stale}
    {compressor kept decoder compressor' : RepeatOffsets},
    compressor.resolveAll seqs = .ok (offsets, compressor') → (∀ o ∈ offsets, 0 < o) → codes.length = seqs.length →
    Spoilt stale compressor kept decoder → Undisturbed compressor decoder stale seqs →
    ∃ r, reconcileSubblockRepcodes seqs codes decoder kept = .ok r ∧
      decoder.resolveAll r.sequences = .ok (offsets, r.decoderReps) ∧ r.compressorReps = compressor' ∧
      ∀ (i : Nat) (old new : SequenceCommand), seqs[i]? = some old → r.sequences[i]? = some new →
        new.offsetValue ≠ old.offsetValue → r.offsetCodes[i]? = some (offsetCodeUnchecked new.offsetValue)
  | [], codes, offsets, stale, compressor, kept, decoder, compressor', h, _, _, hspoilt, ⟨hsecond, hthird⟩ => by
    cases h
    -- behind the last sequence no slot may be wrong, or the history handed back is
    have hkept : kept = compressor := by
      obtain ⟨k1, k2, k3⟩ := kept
      obtain ⟨c1, c2, c3⟩ := compressor
      obtain ⟨h1, h2, h3, -⟩ := hspoilt
      simp only [hsecond, hthird, Bool.false_eq_true, false_iff, not_not] at h1 h2 h3
      rw [h1, h2, h3]
    exact ⟨_, rfl, rfl, hkept, by simp⟩
  | seq :: seqs, [], _, _, _, _, _, _, _, _, hl, _, _ => by simp at hl
  | seq :: seqs, code :: codes, offsets, stale, compressor, kept, decoder, compressor', h, hpos, hl, hspoilt,
      ⟨hsecond, hthird, hfits, hrest⟩ => by
    obtain ⟨⟨offset, r₁⟩, h₁, h⟩ := bind_ok h
    obtain ⟨⟨offsets', r₂⟩, h₂, h⟩ := bind_ok h
    cases h
    have hoffset : 0 < offset := hpos offset (by simp)
    have hr₁ : compressor.advanceRepState seq.offsetValue (seq.literalLength == 0) = r₁ := resolveValues_advance h₁
    have hov : IsRepcode seq.offsetValue ∨ 3 < seq.offsetValue := (resolveValues_cases h₁).imp_right And.left
    have hcode : IsRepcode seq.offsetValue →
        0 < compressor.resolveRepcodeToRaw seq.offsetValue (seq.literalLength == 0) := fun hov => by
      rw [← (resolveValues_repcode_eq hov h₁).1]
      exact hoffset
    obtain ⟨hmis, hsame, hdecoder⟩ := replacement_alike decoder h₁ hoffset
      fun hov => (hspoilt.reads_iff hov).2 ⟨hsecond, hthird⟩
    have hstep := hspoilt.step hov ⟨hsecond, hthird⟩ hcode
    rw [← told_eq fun hmis => hcode hmis.1] at hstep hrest
    rw [← hr₁] at h₂
    obtain ⟨r, hr, hd, hc, hcodes⟩ := reconciles_of_undisturbed h₂ (fun o ho => hpos o (List.mem_cons_of_mem _ ho))
      (by simpa using hl) hstep hrest
    refine ⟨_, reconcileSubblockRepcodes_cons_iff.2 ⟨fun hm => ?_, r, by rw [hsame]; exact hr, rfl⟩, ?_, hc,
      fun i old new hold hnew hne => ?_⟩
    · rw [(hspoilt.reads_iff hm.1).2 ⟨hsecond, hthird⟩]
      exact hfits (hmis.1 hm)
    · simp only [resolveAll, hsame, hdecoder, ok_bind, hd]
    · cases i with
      | zero =>
        simp only [List.getElem?_cons_zero, Option.some.injEq] at hold hnew ⊢
        subst hold hnew
        rw [if_pos]
        by_contra hno
        unfold replacement at hne
        rw [if_neg hno] at hne
        exact hne rfl
      | succ i =>
        simp only [List.getElem?_cons_succ] at hold hnew ⊢
        exact hcodes i old new hold hnew hne

/-- The other direction, for a history without zeros: the first offset of the kept history is the
real one, so a code it reads as zero is one the real history cannot resolve. -/
theorem undisturbed_of_reconciles : ∀ {seqs : List SequenceCommand} {codes offsets : List Nat} {stale : Stale}
    {compressor kept decoder compressor' : RepeatOffsets} {r : Reconciled},
    compressor.resolveAll seqs = .ok (offsets, compressor') → (∀ o ∈ offsets, 0 < o) → codes.length = seqs.length →
    kept.Nonzero → Spoilt stale compressor kept decoder → reconcileSubblockRepcodes seqs codes decoder kept = .ok r →
    decoder.resolveAll r.sequences = .ok (offsets, r.decoderReps) → r.compressorReps = compressor' →
    Undisturbed compressor decoder stale seqs
  | [], codes, offsets, stale, compressor, kept, decoder, compressor', r, h, _, _, _, hspoilt, hr, _, hc => by
    cases h
    cases hr
    obtain rfl : kept = compressor := hc
    refine ⟨?_, ?_⟩
    · rw [← Bool.not_eq_true, hspoilt.second, not_not]
    · rw [← Bool.not_eq_true, hspoilt.third, not_not]
  | seq :: seqs, [], _, _, _, _, _, _, _, _, _, hl, _, _, _, _, _ => by simp at hl
  | seq :: seqs, code :: codes, offsets, stale, compressor, kept, decoder, compressor', r', h, hpos, hl,
      hnz, hspoilt, hr', hd, hc => by
    obtain ⟨⟨offset, r₁⟩, h₁, h⟩ := bind_ok h
    obtain ⟨⟨offsets', r₂⟩, h₂, h⟩ := bind_ok h
    cases h
    have hoffset : 0 < offset := hpos offset (by simp)
    have hr₁ : compressor.advanceRepState seq.offsetValue (seq.literalLength == 0) = r₁ := resolveValues_advance h₁
    have hov : IsRepcode seq.offsetValue ∨ 3 < seq.offsetValue := (resolveValues_cases h₁).imp_right And.left
    have hcode : IsRepcode seq.offsetValue →
        offset = compressor.resolveRepcodeToRaw seq.offsetValue (seq.literalLength == 0) :=
      fun hov => (resolveValues_repcode_eq hov h₁).1
    obtain ⟨hfits, r, hr, rfl⟩ := reconcileSubblockRepcodes_cons_iff.1 hr'
    obtain ⟨⟨o, d₁⟩, hd₁, hd⟩ := bind_ok hd
    obtain ⟨⟨os, d₂⟩, hd₂, hd⟩ := bind_ok hd
    simp only [Except.ok.injEq, Prod.mk.injEq, List.cons.injEq] at hd
    obtain ⟨⟨rfl, rfl⟩, rfl⟩ := hd
    change decoder.resolveValues seq.literalLength (replacement kept decoder seq) = _ at hd₁
    have hd₁' : decoder.advanceRepState (replacement kept decoder seq) (seq.literalLength == 0) = d₁ :=
      resolveValues_advance hd₁
    have hread := fun hov : IsRepcode seq.offsetValue => hspoilt.reads_of_resolves hnz hov (hcode hov) hoffset hd₁
    -- the decoder gets the real offset, so the kept history reads it: the slot that is named is right
    have hslots : (namedSlot seq = 2 → stale.second = false) ∧ (namedSlot seq = 3 → stale.third = false) := by
      rcases hov with hov | hbig
      · exact (hspoilt.reads_iff hov).1 (hread hov)
      · rw [namedSlot_explicit hbig]
        constructor <;> (intro h; cases h)
    obtain ⟨hmis, hsame, -⟩ := replacement_alike decoder h₁ hoffset hread
    have hpos' : IsRepcode seq.offsetValue →
        0 < compressor.resolveRepcodeToRaw seq.offsetValue (seq.literalLength == 0) := fun hov => by
      rw [← hcode hov]
      exact hoffset
    have hstep := hspoilt.step hov hslots hpos'
    have hnz' := hnz.replaced decoder hov fun hov => (hread hov).symm ▸ hpos' hov
    refine ⟨hslots.1, hslots.2, fun hm => ?_, ?_⟩
    · rw [← hread hm.1]
      exact hfits (hmis.2 hm)
    · rw [← told_eq fun hm => hpos' hm.1] at hstep ⊢
      rw [hsame] at hr hnz' hd₁'
      rw [← hr₁] at h₂
      rw [← hd₁'] at hd₂
      exact undisturbed_of_reconciles h₂ (fun o ho => hpos o (List.mem_cons_of_mem _ ho)) (by simpa using hl) hnz' hstep
        hr hd₂ hc

/-- Reconciling a sub-block does what it is for exactly where the rotations it replaces by pushes disturb
nothing: no repeat offset they leave wrong is named or handed back, and the offsets made explicit fit. -/
theorem reconcileSubblockRepcodes_iff {compressor decoder compressor' : RepeatOffsets}
    {seqs : List SequenceCommand} {codes offsets : List Nat}
    (hraw : compressor.resolveAll seqs = .ok (offsets, compressor')) (hpos : ∀ o ∈ offsets, 0 < o)
    (hcodes : codes.length = seqs.length) :
    (Undisturbed compressor decoder {} seqs → ∃ r, reconcileSubblockRepcodes seqs codes decoder compressor = .ok r ∧
      Reconciles compressor decoder seqs offsets r) ∧
    (compressor.Nonzero →
      ((∃ r, reconcileSubblockRepcodes seqs codes decoder compressor = .ok r ∧
          Reconciles compressor decoder seqs offsets r) ↔ Undisturbed compressor decoder {} seqs)) := by
  have hif : Undisturbed compressor decoder {} seqs →
      ∃ r, reconcileSubblockRepcodes seqs codes decoder compressor = .ok r ∧
        Reconciles compressor decoder seqs offsets r := by
    intro hu
    obtain ⟨r, hr, hd, hc, hcs⟩ := reconciles_of_undisturbed hraw hpos hcodes (.refl compressor decoder) hu
    exact ⟨r, hr, hd, by rw [hraw, hc], hcs⟩
  refine ⟨hif, fun hnz => ⟨?_, hif⟩⟩
  rintro ⟨r, hr, h⟩
  have hend : r.compressorReps = compressor' := by
    have := h.compressor
    rw [hraw] at this
    simp only [Except.ok.injEq, Prod.mk.injEq] at this
    exact this.2.symm
  exact undisturbed_of_reconciles hraw hpos hcodes hnz (.refl compressor decoder) hr h.decoder hend

/-- Two repeat codes in a row, both of which the decoder reads differently: the first is replaced, the
compressor's history rotates as if it had been an explicit offset, and the second is replaced by an
offset nobody meant. -/
theorem reconcileSubblockRepcodes_wrong :
    let compressor : RepeatOffsets := ⟨10, 20, 30⟩
    let decoder : RepeatOffsets := ⟨11, 21, 31⟩
    let seqs : List SequenceCommand := [⟨1, 3, 2⟩, ⟨1, 3, 3⟩]
    compressor.resolveAll seqs = .ok ([20, 30], ⟨30, 20, 10⟩) ∧
      ¬ ∃ r, reconcileSubblockRepcodes seqs [1, 1] decoder compressor = .ok r ∧
        Reconciles compressor decoder seqs [20, 30] r := by
  refine ⟨by decide, ?_⟩
  rintro ⟨r, hr, h⟩
  cases hr
  exact absurd h.decoder (by decide)

/-- The second repeat offset is made explicit, which loses the third; two pushes later that no longer shows. -/
theorem reconcileSubblockRepcodes_iff_small : ∃ r,
    reconcileSubblockRepcodes [⟨1, 3, 2⟩, ⟨0, 3, 9⟩, ⟨1, 3, 2⟩] [1, 3, 1] ⟨11, 21, 31⟩ ⟨10, 20, 30⟩ = .ok r ∧
      Reconciles ⟨10, 20, 30⟩ ⟨11, 21, 31⟩ [⟨1, 3, 2⟩, ⟨0, 3, 9⟩, ⟨1, 3, 2⟩] [20, 6, 20] r :=
  have hraw : (⟨10, 20, 30⟩ : RepeatOffsets).resolveAll [⟨1, 3, 2⟩, ⟨0, 3, 9⟩, ⟨1, 3, 2⟩] =
      .ok ([20, 6, 20], ⟨20, 6, 10⟩) := by decide
  (reconcileSubblockRepcodes_iff hraw (by decide) rfl).1 (by decide)

end Zstandard
