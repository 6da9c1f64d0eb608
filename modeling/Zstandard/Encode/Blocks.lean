/-
Every block the encoder appends for a chunk: which bytes it stands for, which flag it carries, and
which repeat offsets the decoder is left with.

Two defects meet here. When every sub-block of a split was stored raw, the fallback stores the chunk a
second time. And behind a raw sub-block that is not the last, the simulated histories are no longer
the decoder's: for every such pattern of answers there is a plan on which the splitter panics. What is
left is right: blocks that are not split, and splits in which every sub-block but the last is compressed.
-/
import Zstandard.Encode.Subblocks

namespace Zstandard

open RepeatOffsets

variable {E : Type}

/-! ## Repeat offsets survive splitting -/

/-- Every compressed sub-block decodes to the offsets of the plan, the repeat offsets handed back are
the decoder's, and nothing on the way fails. -/
def SurvivesSplitting (plan : SequencePlan) (splits : SplitPoints plan.sequences.length) (chunk : Bytes)
    (reps : DecoderRepeatOffsets) (offsets : List Nat) (entropy : E) (lastFrameBlock : Bool)
    (attempts : List (Attempt E)) : Prop :=
  ∃ out next, encodeSplitSubblocks chunk plan splits.points (buildLiteralOffsetTable plan.sequences)
      reps.toRepeatOffsets entropy lastFrameBlock attempts = .ok (out, next) ∧
    OffsetsSurvive offsets reps out ∧
    ∀ nextReps nextEntropy, next = some (nextReps, nextEntropy) →
      nextReps = (out.foldl OutBlock.repsAfter reps).toRepeatOffsets

/-- A list of boundaries starts with 0 and goes on, unless there is nothing to split. -/
theorem SplitPoints.cases {n : Nat} (splits : SplitPoints n) :
    splits.points = [0] ∨ ∃ b rest, splits.points = 0 :: b :: rest := by
  have hf := splits.first
  cases hp : splits.points with
  | nil => rw [hp] at hf; cases hf
  | cons a l =>
    rw [hp] at hf
    obtain rfl : a = 0 := by simpa using hf
    cases l with
    | nil => exact .inl rfl
    | cons b rest => exact .inr ⟨b, rest, rfl⟩

/-- Sub-blocks of which at most the last is stored raw. -/
theorem encodeSplitSubblocks_survives {plan : SequencePlan} {splits : SplitPoints plan.sequences.length}
    {history chunk : Bytes} {reps : DecoderRepeatOffsets} {offsets : List Nat}
    (h : ValidPlan plan history chunk reps offsets) (entropy : E) (lastFrameBlock : Bool)
    {attempts : List (Attempt E)} (hn : attempts.length + 1 = splits.points.length)
    (hacc : ∀ x ∈ attempts.dropLast, x.isSome) :
    SurvivesSplitting plan splits chunk reps offsets entropy lastFrameBlock attempts := by
  obtain ⟨final, hres⟩ := h.resolves
  have hp := splits.increasing
  have hl := splits.last
  unfold SurvivesSplitting encodeSplitSubblocks
  rcases splits.cases with hs | ⟨b, rest, hs⟩
  · rw [hs] at hn ⊢
    obtain rfl : attempts = [] := List.eq_nil_of_length_eq_zero (by simpa using hn)
    exact ⟨[], none, rfl, trivial, by simp⟩
  · rw [hs] at hn hp hl ⊢
    obtain ⟨s', blocks, hrun, ho, hsurvive, hreps⟩ := splitLoop_synced (E := E) lastFrameBlock h.length_eq hp hl
      (s := { out := [], srcPos := 0, compressorReps := reps.toRepeatOffsets, decoderReps := reps.toRepeatOffsets
              prevWasUncompressed := false, anyCompressed := false, entropy })
      (by simpa using hn) h.placed hacc rfl rfl (by simpa using hres)
    simp only [List.nil_append] at ho
    rw [hrun]
    refine ⟨s'.out, _, rfl, by rw [ho]; exact hsurvive, fun nextReps nextEntropy hnext => ?_⟩
    simp only [ho]
    split at hnext
    · cases hnext; exact hreps
    · cases hnext

/-! ### A plan that breaks behind a raw sub-block -/

/-- A match of offset 2. -/
def two : SequenceCommand := ⟨0, 3, 5⟩
/-- A match one nearer than the last, without literals. -/
def oneNearer : SequenceCommand := ⟨0, 3, 3⟩

/-- Sub-blocks of one sequence each: matches of offset 2, but for number `i + 1`. -/
def nearerPlan (i m : Nat) : SequencePlan :=
  let sequences := List.replicate (i + 1) two ++ oneNearer :: List.replicate m two
  { literals := [], sequences, literalCodes := sequences.map fun _ => 0
    offsetCodes := sequences.map fun seq => offsetCodeUnchecked seq.offsetValue
    matchCodes := sequences.map fun _ => 0, repeatOffsets := ⟨2, 2, 2⟩ }

def nearerReps : DecoderRepeatOffsets := ⟨⟨2, 4, 8⟩, by decide⟩

theorem resolveAll_twos : ∀ (n : Nat) (r : RepeatOffsets),
    ∃ r', r.resolveAll (List.replicate (n + 1) two) = .ok (List.replicate (n + 1) 2, r') ∧ r'.rep1 = 2
  | 0, r => ⟨⟨2, r.rep1, r.rep2⟩, rfl, rfl⟩
  | n + 1, r => by
    obtain ⟨r', h, hr'⟩ := resolveAll_twos n ⟨2, r.rep1, r.rep2⟩
    refine ⟨r', ?_, hr'⟩
    rw [List.replicate_succ, resolveAll, show r.resolveValues two.literalLength two.offsetValue =
      .ok (2, ⟨2, r.rep1, r.rep2⟩) from rfl, ok_bind]
    simp only [h, ok_bind]
    rfl

/-- The plan stands for some bytes behind any two, which it starts by repeating. -/
theorem nearerPlan_valid (i m : Nat) (x y : UInt8) :
    ∃ rest offsets, ValidPlan (nearerPlan i m) [x, y] (x :: y :: x :: rest) nearerReps offsets := by
  obtain ⟨r₁, h₁, hr₁⟩ := resolveAll_twos i nearerReps.toRepeatOffsets
  have hone : r₁.resolveValues oneNearer.literalLength oneNearer.offsetValue = .ok (1, ⟨1, r₁.rep1, r₁.rep2⟩) := by
    obtain ⟨rep1, rep2, rep3⟩ := r₁
    obtain rfl : rep1 = 2 := hr₁
    rfl
  obtain ⟨r₂, h₂⟩ : ∃ r₂, (⟨1, r₁.rep1, r₁.rep2⟩ : RepeatOffsets).resolveAll (List.replicate m two) =
      .ok (List.replicate m 2, r₂) := by
    cases m with
    | zero => exact ⟨_, rfl⟩
    | succ m => exact (resolveAll_twos m _).imp fun r₂ h => h.1
  have hres : nearerReps.toRepeatOffsets.resolveAll (nearerPlan i m).sequences =
      .ok (List.replicate (i + 1) 2 ++ 1 :: List.replicate m 2, r₂) := by
    simp only [nearerPlan, resolveAll_append, h₁, ok_bind, resolveAll, hone, h₂]
  have hlen := resolveAll_length hres
  have hfst : ((nearerPlan i m).sequences.zip (List.replicate (i + 1) 2 ++ 1 :: List.replicate m 2)).map Prod.fst =
      (nearerPlan i m).sequences := List.map_fst_zip (by rw [hlen])
  have hok : ∃ out, executePlan [x, y] (nearerPlan i m).literals
      ((nearerPlan i m).sequences.zip (List.replicate (i + 1) 2 ++ 1 :: List.replicate m 2)) = .ok out := by
    refine executePlan_isOk ?_ fun s hs => ?_
    · rw [hfst]
      simp [nearerPlan, literalBytes, two, oneNearer]
    · have := (List.of_mem_zip hs).2
      simp only [List.mem_append, List.mem_cons, List.mem_replicate] at this
      simp only [List.length_cons, List.length_nil]
      omega
  obtain ⟨out, hout⟩ := hok
  obtain ⟨rest, hrest⟩ : ∃ rest, out = [x, y, x, y, x] ++ rest := by
    have hfirst := hout
    simp only [nearerPlan, List.replicate_succ, List.cons_append, List.zip_cons_cons] at hfirst
    have htwo : executePlan [x, y, x, y, x] [] _ = .ok out := hfirst
    obtain ⟨rest, rfl, -, -⟩ := executePlan_ok htwo
    exact ⟨rest, rfl⟩
  rw [hrest] at hout
  exact ⟨rest, _, ⟨⟨r₂, hres⟩, hout, rfl⟩⟩

theorem part_one {α : Type} {l : List α} {a : Nat} {x : α} (h : l[a]? = some x) : part l a (a + 1) = [x] := by
  obtain ⟨hlt, rfl⟩ := List.getElem?_eq_some_iff.1 h
  unfold part
  rw [Nat.add_sub_cancel_left, List.drop_eq_getElem_cons hlt]
  rfl

section

variable {chunk : Bytes} {plan : SequencePlan} {litOffsets : List Nat} {a b : Nat} {lastBlock : Bool}
  {attempt : Attempt E} {s s' : SplitState E}

/-- Matches of offset 2, after no raw sub-block. -/
theorem splitSubblock_twos {n : Nat} (hprev : s.prevWasUncompressed = false) (hrep : s.decoderReps.rep1 = 2)
    (hseqs : part plan.sequences a b = List.replicate (n + 1) two)
    (h : splitSubblock chunk plan litOffsets lastBlock a b attempt s = .ok s') :
    s'.prevWasUncompressed = attempt.isNone ∧ s'.decoderReps.rep1 = 2 ∧ s'.compressorReps.rep1 = 2 := by
  unfold splitSubblock SplitState.reconciled at h
  simp only [hprev, Bool.false_eq_true, reduceIte, hseqs, ok_bind] at h
  obtain ⟨_, -, h⟩ := bind_ok h
  obtain ⟨⟨os, r⟩, hr, h⟩ := bind_ok h
  cases attempt with
  | none =>
    cases h
    refine ⟨rfl, hrep, ?_⟩
    obtain ⟨r', hr', h2⟩ := resolveAll_twos n s.compressorReps
    rw [← resolveAll_advance hr'] at h2
    exact h2
  | some answer =>
    obtain ⟨r', hr', h2⟩ := resolveAll_twos n s.decoderReps
    rw [hr'] at hr
    cases hr
    cases h
    exact ⟨rfl, h2, h2⟩

/-- A match one nearer, behind a raw sub-block: reconciling moves the decoder's history to offset 1,
from which there is no nearer one. -/
theorem splitSubblock_nearer (hprev : s.prevWasUncompressed = true) (hdec : s.decoderReps.rep1 = 2)
    (hcomp : s.compressorReps.rep1 = 2) (hseq : plan.sequences[a]? = some oneNearer)
    (hcode : ∃ code, plan.offsetCodes[a]? = some code) :
    splitSubblock chunk plan litOffsets lastBlock a (a + 1) attempt s ≠ .ok s' := by
  intro h
  obtain ⟨code, hcode⟩ := hcode
  unfold splitSubblock SplitState.reconciled at h
  simp only [hprev, reduceIte, part_one hseq, part_one hcode] at h
  obtain ⟨out, srcPos, ⟨c1, c2, c3⟩, ⟨d1, d2, d3⟩, _, _, _⟩ := s
  simp only at hdec hcomp
  subst hdec hcomp
  obtain ⟨r, hr, h⟩ := bind_ok h
  obtain rfl : r = ⟨[oneNearer], [code], ⟨1, 2, d2⟩, ⟨1, 2, c2⟩⟩ := by
    cases hr
    rfl
  obtain ⟨_, -, h⟩ := bind_ok h
  obtain ⟨⟨os, r⟩, hr, -⟩ := bind_ok h
  cases hr

end

/-- The loop, from a part that is not raw yet, reaches the nearer match behind a raw sub-block and fails there. -/
theorem splitLoop_nearer {chunk : Bytes} {plan : SequencePlan} {litOffsets : List Nat} {lastFrameBlock : Bool} :
    ∀ (i k a b n : Nat) (attempts : List (Attempt E)) (s s' : SplitState E) (y : Bool) (rest : List Bool),
    attempts.map Option.isSome = List.replicate i true ++ false :: y :: rest →
    part plan.sequences a b = List.replicate (n + 1) two → (∀ j < i, plan.sequences[b + j]? = some two) →
    plan.sequences[b + i]? = some oneNearer → (∃ code, plan.offsetCodes[b + i]? = some code) → i + 1 ≤ k →
    s.prevWasUncompressed = false → s.decoderReps.rep1 = 2 →
    splitLoop chunk plan litOffsets lastFrameBlock (a :: List.range' b (k + 1)) attempts s ≠ .ok s'
  | 0, k + 1, a, b, n, attempts, s, s', y, rest, hpat, htwos, _, hone, hcode, _, hprev, hdec, h => by
    obtain ⟨x, attempts, rfl⟩ : ∃ x xs, attempts = x :: xs := by cases attempts <;> simp at hpat ⊢
    obtain ⟨x', attempts, rfl⟩ : ∃ x xs, attempts = x :: xs := by cases attempts <;> simp at hpat ⊢
    obtain rfl : x = none := by simpa using (List.cons.inj hpat).1
    simp only [List.range'_succ, splitLoop] at h
    obtain ⟨t, ht, h⟩ := bind_ok h
    obtain ⟨hprev', hdec', hcomp'⟩ := splitSubblock_twos hprev hdec htwos ht
    obtain ⟨u, hu, -⟩ := bind_ok h
    exact splitSubblock_nearer hprev' hdec' hcomp' hone hcode hu
  | i + 1, k + 1, a, b, n, attempts, s, s', y, rest, hpat, htwos, htwo, hone, hcode, hk, hprev, hdec, h => by
    obtain ⟨x, attempts, rfl⟩ : ∃ x xs, attempts = x :: xs := by cases attempts <;> simp [List.replicate_succ] at hpat ⊢
    simp only [List.replicate_succ, List.cons_append, List.map_cons, List.cons.injEq] at hpat
    rw [List.range'_succ] at h
    simp only [splitLoop] at h
    obtain ⟨t, ht, h⟩ := bind_ok h
    obtain ⟨hprev', hdec', -⟩ := splitSubblock_twos hprev hdec htwos ht
    rw [Option.isNone_eq_false_iff.2 hpat.1] at hprev'
    refine splitLoop_nearer i k b (b + 1) 0 attempts t s' y rest hpat.2 (part_one (htwo 0 (by omega))) (fun j hj => ?_)
      ?_ ?_ (by omega) hprev' hdec' h
    · rw [Nat.add_assoc, Nat.add_comm 1]; exact htwo (j + 1) (by omega)
    · rw [Nat.add_assoc, Nat.add_comm 1]; exact hone
    · rw [Nat.add_assoc, Nat.add_comm 1]; exact hcode

/-- The first rejected answer that is not the last. -/
theorem exists_rejected : ∀ {accepted : List Bool}, ¬ (∀ x ∈ accepted.dropLast, x = true) →
    ∃ i y rest, accepted = List.replicate i true ++ false :: y :: rest
  | [], h => by simp at h
  | [_], h => by simp at h
  | false :: y :: rest, _ => ⟨0, y, rest, rfl⟩
  | true :: y :: rest, h => by
    have h' : ¬ ∀ x ∈ (y :: rest).dropLast, x = true := by
      intro hall
      refine h fun x hx => ?_
      rw [List.dropLast_cons_of_ne_nil (by simp)] at hx
      rcases List.mem_cons.1 hx with rfl | hx
      · rfl
      · exact hall x hx
    obtain ⟨i, z, rest', he⟩ := exists_rejected h'
    exact ⟨i + 1, z, rest', by rw [he]; rfl⟩

/-- A split behind the first four sequences and behind every further one. -/
def fourFirst (n : Nat) (h : 4 ≤ n) : SplitPoints n where
  points := 0 :: List.range' 4 (n - 3)
  first := rfl
  last := by
    rw [show n - 3 = (n - 4) + 1 by omega, List.range'_succ, List.getLast?_cons_cons, ← List.range'_succ,
      List.getLast?_range']
    simp only [Nat.add_eq_zero_iff, one_ne_zero, and_false, reduceIte, Option.some.injEq]
    omega
  increasing := List.pairwise_cons.2 ⟨fun p hp => by
    have := (List.mem_range'_1.1 hp).1
    omega, List.pairwise_lt_range' ..⟩

/-- Answers of a pattern. -/
def answersOf (accepted : List Bool) : List (Attempt Unit) := accepted.map fun b => if b then some ([], ()) else none

theorem answersOf_isSome (accepted : List Bool) : (answersOf accepted).map Option.isSome = accepted := by
  unfold answersOf
  rw [List.map_map]
  refine (List.map_congr_left fun b _ => ?_).trans (List.map_id _)
  cases b <;> rfl

section

variable (i : Nat) (y : Bool) (rest : List Bool)

theorem nearerPlan_length : (nearerPlan (i + 3) rest.length).sequences.length = i + 5 + rest.length := by
  simp only [nearerPlan, List.length_append, List.length_replicate, List.length_cons]
  omega

/-- The split of the nearer plan in which the nearer match is behind the first rejected part. -/
def nearerSplits : SplitPoints (nearerPlan (i + 3) rest.length).sequences.length :=
  fourFirst _ (by rw [nearerPlan_length]; omega)

theorem nearerSplits_attempted :
    (answersOf (List.replicate i true ++ false :: y :: rest)).length + 1 = (nearerSplits i rest).points.length := by
  simp only [nearerSplits, fourFirst, answersOf, nearerPlan_length, List.length_map, List.length_append,
    List.length_replicate, List.length_cons, List.length_range']
  omega

/-- The splitter does not return on the nearer plan. -/
theorem nearerPlan_fails {chunk : Bytes} {litOffsets : List Nat} {lastFrameBlock : Bool}
    {x : List OutBlock × Option (RepeatOffsets × Unit)} :
    encodeSplitSubblocks chunk (nearerPlan (i + 3) rest.length) (nearerSplits i rest).points litOffsets
      nearerReps.toRepeatOffsets () lastFrameBlock (answersOf
        (List.replicate i true ++ false :: y :: rest)) ≠ .ok x := by
  intro h
  obtain ⟨s', hloop, -⟩ := bind_ok h
  have hlen := nearerPlan_length i rest
  have hpoints : (nearerSplits i rest).points = 0 :: List.range' 4 (i + 1 + rest.length + 1) := by
    unfold nearerSplits fourFirst
    simp only [hlen]
    congr 2
    omega
  rw [hpoints] at hloop
  refine splitLoop_nearer i _ 0 4 3 _ _ s' y rest (answersOf_isSome _) ?_ (fun j hj => ?_) ?_ ?_
    (by omega) rfl rfl hloop
  · simp [nearerPlan, part, List.take_append, List.take_replicate]
  · simp only [nearerPlan]
    rw [List.getElem?_append_left (by simp; omega), List.getElem?_replicate, if_pos (by omega)]
  · simp only [nearerPlan]
    rw [List.getElem?_append_right (by simp; omega), List.length_replicate, show 4 + i - (i + 3 + 1) = 0 by omega]
    rfl
  · refine ⟨_, List.getElem?_eq_getElem ?_⟩
    simp [nearerPlan]
    omega

end

/-- Repeat offsets survive splitting for every plan, every split and every starting history exactly
for the patterns of answers in which no rejected sub-block has another one behind it. -/
theorem repeatOffsets_survive_iff (accepted : List Bool) :
    (∀ (E : Type) (plan : SequencePlan) (splits : SplitPoints plan.sequences.length) (history chunk : Bytes)
        (reps : DecoderRepeatOffsets) (offsets : List Nat) (entropy : E) (lastFrameBlock : Bool)
        (attempts : List (Attempt E)), ValidPlan plan history chunk reps offsets →
        attempts.length + 1 = splits.points.length → attempts.map Option.isSome = accepted →
        SurvivesSplitting plan splits chunk reps offsets entropy lastFrameBlock attempts) ↔
      ∀ x ∈ accepted.dropLast, x = true := by
  constructor
  · intro h
    by_contra hno
    obtain ⟨i, y, rest, rfl⟩ := exists_rejected hno
    obtain ⟨chunk, offsets, hvalid⟩ := nearerPlan_valid (i + 3) rest.length 0 1
    obtain ⟨out, next, hrun, -⟩ := h Unit _ (nearerSplits i rest) _ _ nearerReps offsets () false _ hvalid
      (nearerSplits_attempted i y rest) (answersOf_isSome _)
    exact nearerPlan_fails i y rest hrun
  · rintro hacc E plan splits history chunk reps offsets entropy lastFrameBlock attempts hvalid hn rfl
    refine encodeSplitSubblocks_survives hvalid entropy lastFrameBlock hn fun x hx => ?_
    exact hacc x.isSome (by rw [← List.map_dropLast]; exact List.mem_map_of_mem hx)

/-- Six sequences, of which the last three use repeat codes. -/
def sixSequences : SequencePlan :=
  let sequences : List SequenceCommand := [⟨8, 3, 8⟩, ⟨1, 3, 9⟩, ⟨1, 3, 10⟩, ⟨1, 3, 1⟩, ⟨1, 3, 2⟩, ⟨1, 3, 2⟩]
  { literals := [1, 2, 3, 4, 5, 6, 7, 8, 9, 10, 11, 12, 13], sequences, literalCodes := [8, 1, 1, 1, 1, 1]
    offsetCodes := sequences.map fun seq => offsetCodeUnchecked seq.offsetValue
    matchCodes := [0, 0, 0, 0, 0, 0], repeatOffsets := ⟨7, 6, 5⟩ }

def sixSequencesChunk : Bytes :=
  [1, 2, 3, 4, 5, 6, 7, 8, 4, 5, 6, 9, 7, 8, 4, 10, 5, 6, 9, 11, 8, 4, 10, 12, 9, 11, 8, 13, 4, 10, 12]

def halves : SplitPoints sixSequences.sequences.length := ⟨[0, 3, 6], rfl, rfl, by decide⟩

theorem sixSequences_valid :
    ValidPlan sixSequences [] sixSequencesChunk DecoderRepeatOffsets.initial [5, 6, 7, 7, 6, 7] :=
  ⟨⟨⟨7, 6, 5⟩, by decide⟩, by decide, rfl⟩

/-- The first half raw, the second compressed: its second match is emitted with offset 7 instead of 6. -/
theorem repeatOffsets_lost :
    ValidPlan sixSequences [] sixSequencesChunk DecoderRepeatOffsets.initial [5, 6, 7, 7, 6, 7] ∧
      ¬ SurvivesSplitting sixSequences halves sixSequencesChunk DecoderRepeatOffsets.initial [5, 6, 7, 7, 6, 7] ()
        true [none, some ([], ())] := by
  refine ⟨sixSequences_valid, ?_⟩
  rintro ⟨out, next, hrun, hsurvive, -⟩
  obtain rfl : out = _ := (congrArg Prod.fst (Except.ok.inj (hrun.symm.trans rfl)))
  have hright := hsurvive.2.1
  change (DecoderRepeatOffsets.initial.decodeOffsets [⟨1, 3, 10⟩, ⟨1, 3, 10⟩, ⟨1, 3, 2⟩]).1 = [7, 6, 7] at hright
  exact absurd hright (by decide)

/-! ## A block stands for its chunk, once -/

/-- The chunk reaches the planner: it is neither stored raw for its size nor as a run. -/
def Planned (chunk : Bytes) : Prop :=
  shouldEmitRawBlockWithoutCompression chunk.length = false ∧ ¬ (chunk.length ≥ 2 ∧ allBytesEqual chunk)

instance (chunk : Bytes) : Decidable (Planned chunk) := inferInstanceAs (Decidable (_ ∧ _))

/-- The pattern of answers to the sub-blocks, for a block that is split. -/
def subblockPattern (params : BlockParameters) (chunk : Bytes) (choices : BlockChoices E) : Option (List Bool) :=
  if Planned chunk ∧ choices.split params then some (choices.attempts.map Option.isSome) else none

/-- The block is encoded, a decoder with its own repeat offsets reads the chunk from the blocks, once, and
the end of the frame is flagged on the last of them alone. -/
def EncodesOnce (params : BlockParameters) (history chunk : Bytes) (choices : BlockChoices E) (st : BlockState E)
    (lastBlock : Bool) (reps : DecoderRepeatOffsets) : Prop :=
  ∃ blocks st' reps', encodeBlock params chunk choices st lastBlock = .ok (blocks, st') ∧
    readBlocks (history, reps) blocks = .ok (history ++ chunk, reps') ∧ LastFlags lastBlock blocks

/-- The blocks stand for the chunk when their sequences have the offsets of the plan. -/
def StandsFor (offsets : List Nat) (history chunk : Bytes) (lastBlock : Bool) (blocks : List OutBlock) : Prop :=
  regenerateBlocks offsets history blocks = .ok (history ++ chunk) ∧ LastFlags lastBlock blocks

theorem LastFlags.single {lastBlock : Bool} {b : OutBlock} (h : b.header.lastBlock = lastBlock) :
    LastFlags lastBlock [b] := ⟨[], b, rfl, by simp, h⟩

/-- One block for the whole chunk. -/
theorem standsFor_single {offsets : List Nat} {history chunk : Bytes} {lastBlock : Bool} {b : OutBlock}
    (hflag : b.header.lastBlock = lastBlock) (h : b.regenerate offsets history = .ok (history ++ chunk)) :
    StandsFor offsets history chunk lastBlock [b] := by
  refine ⟨?_, .single hflag⟩
  simp only [regenerateBlocks, List.foldlM_cons, List.foldlM_nil, h]
  rfl

theorem regenerateBlocks_append {offsets : List Nat} {history mid : Bytes} {xs ys : List OutBlock}
    (h : regenerateBlocks offsets history xs = .ok mid) :
    regenerateBlocks offsets history (xs ++ ys) = regenerateBlocks offsets mid ys := by
  unfold regenerateBlocks at h ⊢
  rw [List.foldlM_append, h]
  rfl

theorem allBytesEqual_replicate {byte : UInt8} {rest : Bytes} (h : allBytesEqual (byte :: rest) = true) :
    byte :: rest = List.replicate (byte :: rest).length byte := by
  refine List.eq_replicate_of_mem fun x hx => ?_
  rcases List.mem_cons.1 hx with rfl | hx
  · rfl
  · simpa using List.all_eq_true.1 h x hx

section

variable {params : BlockParameters} {history chunk : Bytes} {choices : BlockChoices E} {st : BlockState E}
  {lastBlock : Bool} {reps : DecoderRepeatOffsets} {offsets : List Nat}

/-- The sub-blocks of a split stand for the chunk, whatever the answers were. -/
theorem encodeSplitSubblocks_standsFor (hvalid : ValidPlan choices.plan history chunk reps offsets)
    (hsplit : choices.split params) {out : List OutBlock} {next : Option (RepeatOffsets × E)}
    (h : encodeSplitSubblocks chunk choices.plan choices.splits.points (buildLiteralOffsetTable choices.plan.sequences)
      st.repeatOffsets st.entropy lastBlock choices.attempts = .ok (out, next)) :
    StandsFor offsets history chunk lastBlock out ∧ (next = none ↔ ∀ x ∈ choices.attempts, x = none) := by
  obtain ⟨s', hrun, h⟩ := bind_ok h
  cases h
  have hn := choices.attempted
  have hp := choices.splits.increasing
  have hl := choices.splits.last
  rcases choices.splits.cases with hs | ⟨b, rest, hs⟩
  · simp [BlockChoices.split, hs] at hsplit
  rw [hs] at hn hp hl hrun
  obtain ⟨blocks, ho, hflags, hreg, hany⟩ := splitLoop_ok hvalid.length_eq hp hl (by simpa using hn) hvalid.placed hrun
  simp only [List.nil_append, Bool.false_or, List.take_zero, List.append_nil] at ho hreg hany
  rw [ho, hany]
  refine ⟨⟨hreg, hflags⟩, ?_⟩
  by_cases hx : choices.attempts.any Option.isSome
  · simp only [hx, reduceIte, reduceCtorEq, false_iff]
    intro hall
    obtain ⟨x, hmem, hsome⟩ := List.any_eq_true.1 hx
    rw [hall x hmem] at hsome
    cases hsome
  · simp only [hx, Bool.false_eq_true, reduceIte, true_iff]
    intro x hmem
    by_contra hne
    exact hx (List.any_eq_true.2 ⟨x, hmem, Option.isSome_iff_ne_none.2 hne⟩)

/-- A planned block with every answer but the last a payload. -/
theorem encodePlannedBlock_decodes (hvalid : ValidPlan choices.plan history chunk reps offsets)
    (hst : st.repeatOffsets = reps.toRepeatOffsets)
    (hacc : choices.split params → ∀ x ∈ choices.attempts.dropLast, x.isSome) :
    ∃ blocks st' reps', encodePlannedBlock params chunk choices st lastBlock = .ok (blocks, st') ∧
      readBlocks (history, reps) blocks = .ok (history ++ chunk, reps') ∧ LastFlags lastBlock blocks := by
  obtain ⟨final, hres⟩ := hvalid.resolves
  unfold encodePlannedBlock
  by_cases hsplit : choices.split params
  · obtain ⟨out, next, hout, hsurvive, -⟩ := encodeSplitSubblocks_survives hvalid st.entropy lastBlock
      choices.attempted (hacc hsplit)
    rw [← hst] at hout
    -- the first of at least two answers is a payload
    obtain ⟨x, hx⟩ : ∃ x, x ∈ choices.attempts.dropLast := by
      refine List.exists_mem_of_ne_nil _ fun h => ?_
      have hn := choices.attempted
      have hdrop := congrArg List.length h
      simp only [BlockChoices.split, Bool.and_eq_true, decide_eq_true_eq] at hsplit
      simp only [List.length_dropLast, List.length_nil] at hdrop
      omega
    obtain ⟨hstands, hnone⟩ := encodeSplitSubblocks_standsFor hvalid hsplit hout
    cases next with
    | none =>
      have := hacc hsplit x hx
      rw [hnone.1 rfl x (List.dropLast_subset _ hx)] at this
      cases this
    | some answer =>
      refine ⟨out, { repeatOffsets := answer.1, entropy := answer.2 }, _, ?_, readBlocks_of_survive hsurvive hstands.1,
        hstands.2⟩
      simp only
      rw [if_pos hsplit, hout]
      rfl
  · simp only
    rw [if_neg hsplit]
    cases hw : choices.whole with
    | none => exact ⟨_, _, reps, rfl, rfl, .single rfl⟩
    | some answer =>
      refine ⟨_, _, (reps.decodeOffsets choices.plan.sequences).2, rfl, ?_, .single rfl⟩
      simp only [readBlocks, List.foldlM_cons, List.foldlM_nil, OutBlock.read, OutBlock.compressed]
      rw [(DecoderRepeatOffsets.decodeOffsets_eq hres).1, hvalid.reproduces]
      rfl

/-- What reaches the planner, and what does not. -/
theorem encodeBlock_cases (params : BlockParameters) (history chunk : Bytes) (reps : DecoderRepeatOffsets)
    (choices : BlockChoices E) (st : BlockState E) (lastBlock : Bool) :
    (Planned chunk ∧ encodeBlock params chunk choices st lastBlock = encodePlannedBlock params chunk choices
      st lastBlock) ∨
      (¬ Planned chunk ∧ ∃ b, encodeBlock params chunk choices st lastBlock = .ok ([b], st) ∧
        b.header.lastBlock = lastBlock ∧ OutBlock.read (history, reps) b = .ok (history ++ chunk, reps)) := by
  unfold encodeBlock
  cases chunk with
  | nil => exact .inr ⟨fun h => absurd h.1 (by decide), _, rfl, rfl, rfl⟩
  | cons byte rest =>
    simp only
    by_cases hraw : shouldEmitRawBlockWithoutCompression (byte :: rest).length
    · rw [if_pos hraw]
      exact .inr ⟨fun h => absurd (h.1.symm.trans hraw) Bool.false_ne_true, _, rfl, rfl, rfl⟩
    rw [if_neg hraw]
    by_cases hrle : (byte :: rest).length ≥ 2 ∧ allBytesEqual (byte :: rest)
    · rw [if_pos hrle]
      refine .inr ⟨fun h => h.2 hrle, _, rfl, rfl, ?_⟩
      have hrun := allBytesEqual_replicate hrle.2
      simp only [OutBlock.read, OutBlock.rle]
      rw [← hrun]
    · rw [if_neg hrle]
      exact .inl ⟨⟨by simpa using hraw, hrle⟩, rfl⟩

/-- A block that is not split, or whose sub-blocks but the last are all compressed. -/
theorem encodeBlock_once (hvalid : ValidPlan choices.plan history chunk reps offsets)
    (hst : st.repeatOffsets = reps.toRepeatOffsets)
    (hacc : ∀ accepted, subblockPattern params chunk choices = some accepted → ∀ x ∈ accepted.dropLast, x = true) :
    EncodesOnce params history chunk choices st lastBlock reps := by
  unfold EncodesOnce
  rcases encodeBlock_cases params history chunk reps choices st lastBlock with
    ⟨hplanned, henc⟩ | ⟨-, b, henc, hflag, hread⟩
  · rw [henc]
    refine encodePlannedBlock_decodes hvalid hst fun hsplit x hx => ?_
    refine hacc _ (if_pos ⟨hplanned, hsplit⟩) x.isSome ?_
    rw [← List.map_dropLast]
    exact List.mem_map_of_mem hx
  · refine ⟨_, _, reps, henc, ?_, .single hflag⟩
    simp only [readBlocks, List.foldlM_cons, List.foldlM_nil, hread]
    rfl

/-! ### Sub-blocks that are all raw -/

theorem splitSubblock_raw {plan : SequencePlan} {litOffsets : List Nat} {a b : Nat} {s s' : SplitState E}
    (h : splitSubblock chunk plan litOffsets lastBlock a b none s = .ok s') :
    ∃ bytes, s'.out = s.out ++ [.raw lastBlock bytes] := by
  unfold splitSubblock at h
  obtain ⟨_, -, h⟩ := bind_ok h
  obtain ⟨bytes, -, h⟩ := bind_ok h
  obtain ⟨_, -, h⟩ := bind_ok h
  cases h
  exact ⟨bytes, rfl⟩

theorem splitLoop_raw {plan : SequencePlan} {litOffsets : List Nat} :
    ∀ {points : List Nat} {attempts : List (Attempt E)} {s s' : SplitState E}, (∀ x ∈ attempts, x = none) →
    splitLoop chunk plan litOffsets lastBlock points attempts s = .ok s' →
    ∃ blocks, s'.out = s.out ++ blocks ∧ ∀ b ∈ blocks, ∃ flag bytes, b = .raw flag bytes
  | a :: b :: points, attempt :: attempts, s, s', hall, h => by
    obtain rfl := hall attempt List.mem_cons_self
    obtain ⟨t, ht, h⟩ := bind_ok h
    obtain ⟨bytes, hout⟩ := splitSubblock_raw ht
    obtain ⟨blocks, hblocks, hraw⟩ := splitLoop_raw (fun x hx => hall x (List.mem_cons_of_mem _ hx)) h
    refine ⟨_ :: blocks, by rw [hblocks, hout, List.append_assoc]; rfl, fun c hc => ?_⟩
    rcases List.mem_cons.1 hc with rfl | hc
    · exact ⟨_, bytes, rfl⟩
    · exact hraw c hc
  | [], _, s, _, _, h => by cases h; exact ⟨[], by simp, by simp⟩
  | [_], _, s, _, _, h => by cases h; exact ⟨[], by simp, by simp⟩
  | _ :: _ :: _, [], s, _, _, h => by cases h; exact ⟨[], by simp, by simp⟩

/-- Raw blocks have no offsets to lose. -/
theorem offsetsSurvive_raw : ∀ {blocks : List OutBlock} {reps : DecoderRepeatOffsets},
    (∀ b ∈ blocks, ∃ flag bytes, b = .raw flag bytes) → OffsetsSurvive offsets reps blocks
  | [], _, _ => trivial
  | b :: blocks, reps, h => by
    obtain ⟨flag, bytes, rfl⟩ := h b List.mem_cons_self
    exact ⟨trivial, offsetsSurvive_raw fun c hc => h c (List.mem_cons_of_mem _ hc)⟩

/-- A pattern of refusals is one of a split whose attempts all failed. -/
theorem subblockPattern_refused {accepted : List Bool} (h : subblockPattern params chunk choices = some accepted)
    (hrefused : ∀ x ∈ accepted, x = false) :
    Planned chunk ∧ choices.split params ∧ ∀ x ∈ choices.attempts, x = none := by
  unfold subblockPattern at h
  split at h
  · rename_i hsplit
    cases h
    refine ⟨hsplit.1, hsplit.2, fun x hx => ?_⟩
    have hx' := hrefused _ (List.mem_map_of_mem hx)
    rwa [Option.isSome_eq_false_iff, Option.isNone_iff_eq_none] at hx'
  · cases h

/-- The fallback stores the chunk behind the raw sub-blocks that hold it already. -/
theorem encodeBlock_twice (hvalid : ValidPlan choices.plan history chunk reps offsets) (hplanned : Planned chunk)
    (hsplit : choices.split params) (hall : ∀ x ∈ choices.attempts, x = none) :
    ¬ EncodesOnce params history chunk choices st lastBlock reps := by
  rintro ⟨blocks, st', reps', h, hread, -⟩
  have hne : chunk ≠ [] := by
    rintro rfl
    exact absurd hplanned.1 (by decide)
  rcases encodeBlock_cases params history chunk reps choices st lastBlock with
    ⟨-, henc⟩ | ⟨hno, -⟩
  · rw [henc] at h
    unfold encodePlannedBlock at h
    simp only at h
    rw [if_pos hsplit] at h
    obtain ⟨⟨out, next⟩, hout, h⟩ := bind_ok h
    obtain ⟨hstands, hnone⟩ := encodeSplitSubblocks_standsFor hvalid hsplit hout
    obtain rfl := hnone.2 hall
    cases h
    obtain ⟨s', hloop, hs'⟩ := bind_ok hout
    obtain ⟨sub, hsub, hraw⟩ := splitLoop_raw hall hloop
    obtain ⟨rfl, -⟩ := Prod.mk.inj (Except.ok.inj hs')
    rw [List.nil_append] at hsub
    rw [← hsub] at hraw
    have hsurvive : OffsetsSurvive offsets reps s'.out := offsetsSurvive_raw hraw
    have hfirst := readBlocks_of_survive hsurvive hstands.1
    unfold readBlocks at hfirst hread
    rw [List.foldlM_append, hfirst] at hread
    simp only [ok_bind, List.foldlM_cons, List.foldlM_nil, OutBlock.read, OutBlock.raw, pure, Except.pure,
      Except.ok.injEq, Prod.mk.injEq] at hread
    have hlen := congrArg List.length hread.1
    simp only [List.length_append] at hlen
    exact hne (List.eq_nil_of_length_eq_zero (by omega))
  · exact hno hplanned

end

/-! ### The patterns that are right -/

section

variable (i : Nat) (y : Bool) (rest : List Bool)

def nearerChoices : BlockChoices Unit :=
  { plan := nearerPlan (i + 3) rest.length, splits := nearerSplits i rest
    attempts := answersOf (List.replicate i true ++ false :: y :: rest), attempted := nearerSplits_attempted i y rest
    whole := none }

theorem nearerChoices_split : (nearerChoices i y rest).split ⟨.binaryTreeOpt, 17⟩ = true := by
  have hpoints := nearerSplits_attempted i y rest
  simp only [answersOf, List.length_map, List.length_append, List.length_replicate, List.length_cons] at hpoints
  simp only [BlockChoices.split, shouldTryPostSequenceSplit, nearerChoices, nearerPlan_length, Bool.and_eq_true,
    decide_eq_true_eq, reduceCtorEq, or_false, true_and, ge_iff_le, le_refl, gt_iff_lt]
  omega

theorem planned_nearer {chunk : Bytes} {offsets : List Nat}
    (hvalid : ValidPlan (nearerPlan (i + 3) rest.length) [0, 1] (0 :: 1 :: 0 :: chunk) nearerReps offsets) :
    Planned (0 :: 1 :: 0 :: chunk) := by
  obtain ⟨t, ht, hlen, -⟩ := executePlan_ok hvalid.reproduces
  obtain rfl := List.append_cancel_left ht
  rw [List.map_fst_zip (by rw [hvalid.length_eq])] at hlen
  have hmatches : matchBytes (nearerPlan (i + 3) rest.length).sequences = 3 * (i + 5 + rest.length) := by
    simp [matchBytes, nearerPlan, two, oneNearer]
    ring
  have hliterals : (nearerPlan (i + 3) rest.length).literals.length = 0 := rfl
  rw [hmatches, hliterals] at hlen
  refine ⟨decide_eq_false ?_, fun h => absurd h.2 (by simp [allBytesEqual])⟩
  unfold minCompressibleBlockSize
  omega

end

/-- The blocks appended for a chunk are there and give it once, read with the decoder's own repeat offsets,
with the end of the frame flagged on the last of them alone, for every plan, every split, every state and
every chunk with a given pattern of answers, exactly where there is no split or every answer but the last is a
payload. Where every answer of a split is a refusal they do so for none. -/
theorem encodeBlock_once_iff (pattern : Option (List Bool)) :
    ((∀ (E : Type) (params : BlockParameters) (history chunk : Bytes) (choices : BlockChoices E) (st : BlockState E)
        (lastBlock : Bool) (reps : DecoderRepeatOffsets) (offsets : List Nat),
        ValidPlan choices.plan history chunk reps offsets → st.repeatOffsets = reps.toRepeatOffsets →
        subblockPattern params chunk choices = pattern → EncodesOnce params history chunk choices st lastBlock reps) ↔
      ∀ accepted, pattern = some accepted → ∀ x ∈ accepted.dropLast, x = true) ∧
    ((∃ accepted, pattern = some accepted ∧ ∀ x ∈ accepted, x = false) →
      ∀ (E : Type) (params : BlockParameters) (history chunk : Bytes) (choices : BlockChoices E) (st : BlockState E)
        (lastBlock : Bool) (reps : DecoderRepeatOffsets) (offsets : List Nat),
        ValidPlan choices.plan history chunk reps offsets → subblockPattern params chunk choices = pattern →
        ¬ EncodesOnce params history chunk choices st lastBlock reps) := by
  refine ⟨⟨?_, ?_⟩, ?_⟩
  · rintro h accepted rfl
    by_contra hno
    obtain ⟨i, y, rest, rfl⟩ := exists_rejected hno
    obtain ⟨chunk, offsets, hvalid⟩ := nearerPlan_valid (i + 3) rest.length 0 1
    have hplanned := planned_nearer i rest hvalid
    obtain ⟨blocks, st', reps', henc, -⟩ := h Unit ⟨.binaryTreeOpt, 17⟩ [0, 1] _ (nearerChoices i y rest)
      ⟨nearerReps.toRepeatOffsets, ()⟩ false nearerReps offsets hvalid rfl (by
        unfold subblockPattern
        rw [if_pos ⟨hplanned, nearerChoices_split i y rest⟩]
        exact congrArg some (answersOf_isSome _))
    rcases encodeBlock_cases ⟨.binaryTreeOpt, 17⟩ [] (0 :: 1 :: 0 :: chunk) nearerReps
        (nearerChoices i y rest) ⟨nearerReps.toRepeatOffsets, ()⟩ false with ⟨-, heq⟩ | ⟨hno, -⟩
    · rw [heq] at henc
      unfold encodePlannedBlock at henc
      simp only at henc
      rw [if_pos (nearerChoices_split i y rest)] at henc
      obtain ⟨x, hx, -⟩ := bind_ok henc
      exact nearerPlan_fails i y rest hx
    · exact hno hplanned
  · rintro hacc E params history chunk choices st lastBlock reps offsets hvalid hst rfl
    exact encodeBlock_once hvalid hst hacc
  · rintro ⟨accepted, rfl, hrefused⟩ E params history chunk choices st lastBlock reps offsets hvalid hpattern
    obtain ⟨hplanned, hsplit, hall⟩ := subblockPattern_refused hpattern hrefused
    exact encodeBlock_twice hvalid hplanned hsplit hall

def sixSequencesChoices (attempts : List (Attempt Unit)) (h : attempts.length = 2) : BlockChoices Unit :=
  { plan := sixSequences, splits := halves, attempts, attempted := by rw [h]; rfl, whole := none }

/-- Both halves raw: the chunk is stored twice, and the end of the frame flagged twice. -/
theorem encodeBlock_doubled :
    let choices := sixSequencesChoices [none, none] rfl
    let st : BlockState Unit := { repeatOffsets := RepeatOffsets.initial, entropy := () }
    ValidPlan choices.plan [] sixSequencesChunk DecoderRepeatOffsets.initial [5, 6, 7, 7, 6, 7] ∧
    ∃ blocks st', encodeBlock ⟨.binaryTreeOpt, 17⟩ sixSequencesChunk choices st true = .ok (blocks, st') ∧
      readBlocks ([], DecoderRepeatOffsets.initial) blocks =
        .ok (sixSequencesChunk ++ sixSequencesChunk, DecoderRepeatOffsets.initial) ∧
      blocks.map (fun b => b.header.lastBlock) = [false, true, true] ∧
      ¬ EncodesOnce ⟨.binaryTreeOpt, 17⟩ [] sixSequencesChunk choices st true DecoderRepeatOffsets.initial := by
  refine ⟨sixSequences_valid, _, _, rfl, by decide, by decide, ?_⟩
  exact encodeBlock_twice sixSequences_valid ⟨by decide, by decide⟩ (by decide) (by decide)

end Zstandard
