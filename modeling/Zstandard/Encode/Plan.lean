/-
Sequence plans: what a match finder hands to the block encoder, and what it stands for.

A plan's sequences name their offsets by offset values, which mean something only against the repeat
offsets in force. Reading a plan is therefore two steps: resolving the offset values, which is all
that repeat offsets take part in, and executing literals and matches with the offsets found. The
decoder's own resolution agrees with the encoder's wherever the encoder's does not fail.
-/
import Zstandard.Decode.Exec

namespace Zstandard

/-! ## Plans -/

/-- `SequenceCommand`, the record the decoder's sequence reader fills as well. -/
abbrev SequenceCommand := RawSequence

/-- `offset_code_unchecked`. -/
def offsetCodeUnchecked (offsetValue : Nat) : Nat := Nat.log2 offsetValue

/-- `SequencePlan`: the sequences of a block with their codes, its literals, and the repeat offsets
after the last sequence. -/
structure SequencePlan where
  literals : Bytes
  sequences : List SequenceCommand
  literalCodes : List Nat
  offsetCodes : List Nat
  matchCodes : List Nat
  repeatOffsets : RepeatOffsets
deriving DecidableEq, Repr

/-! ## Repeat offsets of the encoder -/

namespace RepeatOffsets

/-- `resolve_values`: the offset an offset value names, and the repeat offsets after it. -/
def resolveValues (r : RepeatOffsets) (literalLength offsetValue : Nat) : Result (Nat × RepeatOffsets) :=
  if offsetValue > 3 then .ok (offsetValue - 3, ⟨offsetValue - 3, r.rep1, r.rep2⟩)
  else if offsetValue = 0 then .error (.corruption "sequence offset value is zero")
  else
    match DecoderRepeatOffsets.repIndex offsetValue literalLength with
    | 1 => .ok (r.rep1, r)
    | 2 => .ok (r.rep2, ⟨r.rep2, r.rep1, r.rep3⟩)
    | 3 => .ok (r.rep3, ⟨r.rep3, r.rep1, r.rep2⟩)
    | _ =>
      if r.rep1 ≤ 1 then .error (.corruption "repeat offset 1 minus 1 is zero")
      else .ok (r.rep1 - 1, ⟨r.rep1 - 1, r.rep1, r.rep2⟩)

/-- Resolve a list of sequences: their offsets, and the repeat offsets after the last. -/
def resolveAll (r : RepeatOffsets) : List SequenceCommand → Result (List Nat × RepeatOffsets)
  | [] => .ok ([], r)
  | seq :: seqs => do
    let (offset, r) ← r.resolveValues seq.literalLength seq.offsetValue
    let (offsets, r) ← r.resolveAll seqs
    .ok (offset :: offsets, r)

/-- `advance_rep_state`: the repeat offsets after a sequence, whatever its offset. -/
def advanceRepState (r : RepeatOffsets) (offsetValue : Nat) (ll0 : Bool) : RepeatOffsets :=
  if offsetValue ≥ 4 then ⟨offsetValue - 3, r.rep1, r.rep2⟩
  else
    match if ll0 then offsetValue else offsetValue - 1 with
    | 1 => ⟨r.rep2, r.rep1, r.rep3⟩
    | 2 => ⟨r.rep3, r.rep1, r.rep2⟩
    | 3 => ⟨r.rep1 - 1, r.rep1, r.rep2⟩
    | _ => r

/-- `advance_rep_state_encode`, the block encoder's copy of it. -/
def advanceRepStateEncode (r : RepeatOffsets) (offsetValue : Nat) (ll0 : Bool) : RepeatOffsets :=
  r.advanceRepState offsetValue ll0

/-- `resolve_repcode_to_raw`, of an offset value from 1 to 3. -/
def resolveRepcodeToRaw (r : RepeatOffsets) (offsetValue : Nat) (ll0 : Bool) : Nat :=
  match if ll0 then offsetValue else offsetValue - 1 with
  | 3 => r.rep1 - 1
  | 0 => r.rep1
  | 1 => r.rep2
  | _ => r.rep3

theorem resolveAll_append (a b : List SequenceCommand) : ∀ (r : RepeatOffsets),
    r.resolveAll (a ++ b) = (do
      let (offsets, r) ← r.resolveAll a
      let (offsets', r) ← r.resolveAll b
      .ok (offsets ++ offsets', r)) := by
  induction a with
  | nil =>
    intro r
    simp only [List.nil_append, resolveAll, ok_bind]
    cases r.resolveAll b <;> rfl
  | cons seq a ih =>
    intro r
    simp only [List.cons_append, resolveAll]
    rcases r.resolveValues seq.literalLength seq.offsetValue with e | ⟨offset, r⟩
    · rfl
    · simp only [ok_bind, ih]
      rcases r.resolveAll a with e | ⟨offsets, r⟩
      · rfl
      · simp only [ok_bind]
        rcases r.resolveAll b with e | ⟨offsets', r⟩ <;> rfl

theorem resolveAll_length : ∀ {seqs : List SequenceCommand} {r r' : RepeatOffsets} {offsets : List Nat},
    r.resolveAll seqs = .ok (offsets, r') → offsets.length = seqs.length
  | [], _, _, _, h => by cases h; rfl
  | seq :: seqs, r, r', offsets, h => by
    obtain ⟨⟨offset, r₁⟩, _, h⟩ := bind_ok h
    obtain ⟨⟨offsets', r₂⟩, h₂, h⟩ := bind_ok h
    cases h
    simp [resolveAll_length h₂]

/-- A resolution that succeeds is an advance. -/
theorem resolveValues_advance {r r' : RepeatOffsets} {ll ov offset : Nat}
    (h : r.resolveValues ll ov = .ok (offset, r')) : r.advanceRepStateEncode ov (ll == 0) = r' := by
  unfold resolveValues DecoderRepeatOffsets.repIndex at h
  unfold advanceRepStateEncode advanceRepState
  by_cases hbig : ov > 3
  · rw [if_pos hbig] at h
    cases h
    rw [if_pos (by omega)]
  · rw [if_neg hbig] at h
    rw [if_neg (by omega)]
    have hov : ov = 0 ∨ ov = 1 ∨ ov = 2 ∨ ov = 3 := by omega
    rcases Nat.eq_zero_or_pos ll with rfl | hll
    · rcases hov with rfl | rfl | rfl | rfl
      · cases h
      · cases h; rfl
      · cases h; rfl
      · by_cases h1 : r.rep1 ≤ 1
        · simp [h1] at h
        · simp only [Nat.reduceAdd, reduceIte, h1, OfNat.ofNat_ne_zero] at h
          cases h; rfl
    · have hne : (ll == 0) = false := by simp; omega
      have hll0 : ¬ ll = 0 := by omega
      rw [hne]
      simp only [hll0, reduceIte, Nat.add_zero] at h
      rcases hov with rfl | rfl | rfl | rfl <;> cases h <;> rfl

theorem resolveAll_advance : ∀ {seqs : List SequenceCommand} {r r' : RepeatOffsets} {offsets : List Nat},
    r.resolveAll seqs = .ok (offsets, r') →
      seqs.foldl (fun r seq => r.advanceRepStateEncode seq.offsetValue (seq.literalLength == 0)) r = r'
  | [], _, _, _, h => by cases h; rfl
  | seq :: seqs, r, r', offsets, h => by
    obtain ⟨⟨offset, r₁⟩, h₁, h⟩ := bind_ok h
    obtain ⟨⟨offsets', r₂⟩, h₂, h⟩ := bind_ok h
    cases h
    rw [List.foldl_cons, resolveValues_advance h₁]
    exact resolveAll_advance h₂

end RepeatOffsets

/-! ## Repeat offsets of the decoder -/

namespace DecoderRepeatOffsets

/-- The offsets a decoder finds for a list of sequences, and its repeat offsets afterwards. -/
def decodeOffsets (r : DecoderRepeatOffsets) : List SequenceCommand → List Nat × DecoderRepeatOffsets
  | [] => ([], r)
  | seq :: seqs =>
    let (offset, r) := r.resolveDecode seq.offsetValue seq.literalLength
    let (offsets, r) := r.decodeOffsets seqs
    (offset :: offsets, r)

/-- Where the encoder's resolution does not fail, the decoder's finds the same. -/
theorem resolveDecode_eq {r : DecoderRepeatOffsets} {r' : RepeatOffsets} {ll ov offset : Nat}
    (h : r.toRepeatOffsets.resolveValues ll ov = .ok (offset, r')) :
    (r.resolveDecode ov ll).1 = offset ∧ (r.resolveDecode ov ll).2.toRepeatOffsets = r' := by
  unfold RepeatOffsets.resolveValues at h
  unfold resolveDecode
  by_cases hbig : ov > 3
  · rw [if_pos hbig] at h
    cases h
    rw [dif_pos hbig]
    exact ⟨rfl, rfl⟩
  rw [if_neg hbig] at h
  rw [dif_neg hbig]
  have hov : ov = 0 ∨ ov = 1 ∨ ov = 2 ∨ ov = 3 := by omega
  unfold repIndex at h
  unfold resolveRepOffsetDecode repIndex
  rcases Nat.eq_zero_or_pos ll with rfl | hll
  · rcases hov with rfl | rfl | rfl | rfl
    · cases h
    · cases h; exact ⟨rfl, rfl⟩
    · cases h; exact ⟨rfl, rfl⟩
    · by_cases h1 : r.rep1 ≤ 1
      · simp [h1] at h
      · simp only [Nat.reduceAdd, reduceIte, h1, OfNat.ofNat_ne_zero] at h
        cases h
        simp [h1, push]
  · have hne : ¬ ll = 0 := by omega
    simp only [hne, reduceIte, Nat.add_zero] at h
    rcases hov with rfl | rfl | rfl | rfl
    · cases h
    · cases h; simp [hne]
    · cases h; simp [hne]
    · cases h; simp [hne]

theorem decodeOffsets_eq : ∀ {seqs : List SequenceCommand} {r : DecoderRepeatOffsets} {r' : RepeatOffsets}
    {offsets : List Nat}, r.toRepeatOffsets.resolveAll seqs = .ok (offsets, r') →
      (r.decodeOffsets seqs).1 = offsets ∧ (r.decodeOffsets seqs).2.toRepeatOffsets = r'
  | [], _, _, _, h => by cases h; exact ⟨rfl, rfl⟩
  | seq :: seqs, r, r', offsets, h => by
    obtain ⟨⟨offset, r₁⟩, h₁, h⟩ := bind_ok h
    obtain ⟨⟨offsets', r₂⟩, h₂, h⟩ := bind_ok h
    cases h
    obtain ⟨ho, rfl⟩ := resolveDecode_eq h₁
    obtain ⟨hos, hr⟩ := decodeOffsets_eq h₂
    exact ⟨by simp [decodeOffsets, ho, hos], by simpa [decodeOffsets] using hr⟩

end DecoderRepeatOffsets

/-! ## Executing a plan -/

/-- Literals and matches with the offsets known: `history` is everything a match may reach back
into, the output included. -/
def executePlan (history literals : Bytes) : List (SequenceCommand × Nat) → Result Bytes
  | [] => .ok (history ++ literals)
  | (seq, offset) :: seqs =>
    let out := history ++ literals.take seq.literalLength
    if seq.literalLength > literals.length then
      .error (.corruption "sequence literal length exceeds literals buffer")
    else if offset = 0 ∨ offset > out.length then .error offsetTooFar
    else executePlan (Lz.copy out offset seq.matchLength) (literals.drop seq.literalLength) seqs

/-- The bytes a list of sequences takes from the literals. -/
def literalBytes (seqs : List SequenceCommand) : Nat := (seqs.map RawSequence.literalLength).sum

/-- The bytes its matches produce. -/
def matchBytes (seqs : List SequenceCommand) : Nat := (seqs.map RawSequence.matchLength).sum

/-- A step of `executePlan` is the decoder's, when the window and the frame reach that far. -/
theorem placeSpec_eq_copy {c : ExecContext} {out : Bytes} {ip ll offset ml : Nat} (hf : c.frameStart = 0)
    (hlen : offset ≤ (out ++ (c.literals.asSlice.drop ip).take ll).length) (hw : offset ≤ c.windowSize) :
    placeSpec c out ip ll offset ml = .ok (Lz.copy (out ++ (c.literals.asSlice.drop ip).take ll) offset ml) := by
  unfold placeSpec
  simp only [hf, Nat.sub_zero]
  rw [if_pos ⟨hlen, hw⟩]

/-- What an execution appends: its literals and its matches, nothing else. -/
theorem executePlan_ok : ∀ {seqs : List (SequenceCommand × Nat)} {history literals r : Bytes},
    executePlan history literals seqs = .ok r →
      ∃ t, r = history ++ t ∧ t.length = literals.length + matchBytes (seqs.map Prod.fst) ∧
        literalBytes (seqs.map Prod.fst) ≤ literals.length
  | [], history, literals, r, h => by
    cases h
    exact ⟨literals, rfl, by simp [matchBytes], by simp [literalBytes]⟩
  | (seq, offset) :: seqs, history, literals, r, h => by
    simp only [executePlan] at h
    split at h
    · cases h
    split at h
    · cases h
    rename_i hll hoff
    push Not at hoff
    obtain ⟨t, rfl, ht, hl⟩ := executePlan_ok h
    obtain ⟨u, hu⟩ := Lz.copy_prefix (Nat.pos_of_ne_zero hoff.1) hoff.2 seq.matchLength
    have hlen := Lz.length_copy (Nat.pos_of_ne_zero hoff.1) hoff.2 seq.matchLength
    rw [← hu] at hlen ⊢
    refine ⟨literals.take seq.literalLength ++ u ++ t, by simp, ?_, ?_⟩
    · simp only [List.length_append, List.length_take] at hlen
      simp only [List.length_drop] at ht
      simp only [List.length_append, List.length_take, ht, List.map_cons, matchBytes, List.sum_cons]
      omega
    · simp only [List.length_drop] at hl
      simp only [literalBytes, List.map_cons, List.sum_cons] at hl ⊢
      omega

/-- An execution in two parts, cut where the literals of the first end. -/
theorem executePlan_append : ∀ {a b : List (SequenceCommand × Nat)} {history la lb : Bytes},
    literalBytes (a.map Prod.fst) = la.length →
    executePlan history (la ++ lb) (a ++ b) = (executePlan history la a).bind (executePlan · lb b)
  | [], b, history, la, lb, h => by
    have : la = [] := List.eq_nil_of_length_eq_zero (by simpa [literalBytes] using h.symm)
    subst this
    simp [executePlan, Except.bind]
  | (seq, offset) :: a, b, history, la, lb, h => by
    simp only [literalBytes, List.map_cons, List.sum_cons] at h
    have hle : seq.literalLength ≤ la.length := by omega
    have htake : (la ++ lb).take seq.literalLength = la.take seq.literalLength := List.take_append_of_le_length hle
    have hdrop : (la ++ lb).drop seq.literalLength = la.drop seq.literalLength ++ lb :=
      List.drop_append_of_le_length hle
    have hroom : ¬ seq.literalLength > (la ++ lb).length := by simp only [List.length_append]; omega
    simp only [List.cons_append, executePlan, htake, hdrop]
    rw [if_neg hroom, if_neg (Nat.not_lt.2 hle)]
    by_cases hoff : offset = 0 ∨ offset > (history ++ la.take seq.literalLength).length
    · rw [if_pos hoff, if_pos hoff]; rfl
    · rw [if_neg hoff, if_neg hoff]
      have hrest : literalBytes (a.map Prod.fst) = (la.drop seq.literalLength).length := by
        simp only [literalBytes, List.length_drop]; omega
      exact executePlan_append hrest

/-- Executions with room for every offset and literals enough do not fail. -/
theorem executePlan_isOk : ∀ {seqs : List (SequenceCommand × Nat)} {history literals : Bytes},
    literalBytes (seqs.map Prod.fst) ≤ literals.length →
    (∀ s ∈ seqs, 0 < s.2 ∧ s.2 ≤ history.length) →
    ∃ r, executePlan history literals seqs = .ok r
  | [], history, literals, _, _ => ⟨_, rfl⟩
  | (seq, offset) :: seqs, history, literals, hl, ho => by
    obtain ⟨hpos, hle⟩ := ho (seq, offset) (by simp)
    simp only [literalBytes, List.map_cons, List.sum_cons] at hl
    simp only at hpos hle
    have hle' : offset ≤ (history ++ literals.take seq.literalLength).length := by
      simp only [List.length_append]; omega
    simp only [executePlan]
    rw [if_neg (by omega), if_neg (by omega)]
    refine executePlan_isOk (by simp only [List.length_drop, literalBytes]; omega) fun s hs => ?_
    obtain ⟨h1, h2⟩ := ho s (List.mem_cons_of_mem _ hs)
    refine ⟨h1, ?_⟩
    rw [Lz.length_copy hpos hle']
    simp only [List.length_append]
    omega

end Zstandard
