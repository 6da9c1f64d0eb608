/-
Splitting a block: the repeat offsets across the sub-blocks, and the bytes they regenerate.

A plan is valid for a chunk when its offset values resolve from the repeat offsets in force and
executing it gives the chunk. `Placed` is the invariant over the boundaries: up to here the sub-blocks
stand for the chunk up to `srcPos`, and what is left of the plan gives the rest. As long as no
sub-block was stored raw, the simulated histories are the decoder's (`Synced`). Behind a raw sub-block
they are not: the next one is resolved from a history that reconciling has already advanced, which
for every pattern of answers with a raw sub-block that is not the last fails on some plan.
-/
import Zstandard.Encode.Repcodes

namespace Zstandard

open RepeatOffsets

/-! ## Valid plans -/

/-- A plan that stands for `chunk` behind `history`, its offset values meaning `offsets`. -/
structure ValidPlan (plan : SequencePlan) (history chunk : Bytes) (reps : DecoderRepeatOffsets)
    (offsets : List Nat) : Prop where
  resolves : ∃ final, reps.toRepeatOffsets.resolveAll plan.sequences = .ok (offsets, final)
  reproduces : executePlan history plan.literals (plan.sequences.zip offsets) = .ok (history ++ chunk)
  codes : plan.offsetCodes = plan.sequences.map fun seq => offsetCodeUnchecked seq.offsetValue

theorem ValidPlan.length_eq {plan : SequencePlan} {history chunk : Bytes} {reps : DecoderRepeatOffsets}
    {offsets : List Nat} (h : ValidPlan plan history chunk reps offsets) : offsets.length = plan.sequences.length := by
  obtain ⟨final, hr⟩ := h.resolves
  exact resolveAll_length hr

/-! ## Parts of a plan -/

theorem part_append_drop {α : Type} (l : List α) {a b : Nat} (h : a ≤ b) : part l a b ++ l.drop b = l.drop a := by
  unfold part
  have : l.drop b = (l.drop a).drop (b - a) := by rw [List.drop_drop]; congr 1; omega
  rw [this, List.take_append_drop]

theorem part_length {α : Type} {l : List α} {a b : Nat} (hb : b ≤ l.length) : (part l a b).length = b - a := by
  unfold part
  simp only [List.length_take, List.length_drop]
  omega

theorem part_map {α β : Type} (f : α → β) (l : List α) (a b : Nat) : (part l a b).map f = part (l.map f) a b := by
  unfold part
  rw [List.map_take, List.map_drop]

theorem part_zip {α β : Type} (l : List α) (m : List β) (a b : Nat) :
    part (l.zip m) a b = (part l a b).zip (part m a b) := by
  unfold part
  rw [List.zip_eq_zipWith, List.drop_zipWith, List.take_zipWith, List.zip_eq_zipWith]

theorem literalBytes_append (xs ys : List SequenceCommand) :
    literalBytes (xs ++ ys) = literalBytes xs + literalBytes ys := by simp [literalBytes]

theorem take_append_part {α : Type} (l : List α) {a b : Nat} (h : a ≤ b) : l.take a ++ part l a b = l.take b := by
  unfold part
  rw [← List.take_add, Nat.add_sub_cancel' h]

/-- The table holds the literals in front of each sequence. -/
theorem buildLiteralOffsetTable_getD (seqs : List SequenceCommand) {a : Nat} (h : a ≤ seqs.length) :
    (buildLiteralOffsetTable seqs).getD a 0 = literalBytes (seqs.take a) := by
  have hfold : ∀ (xs : List SequenceCommand) (n : Nat),
      xs.foldl (fun cum seq => cum + seq.literalLength) n = n + literalBytes xs := by
    intro xs
    induction xs with
    | nil => intro n; simp [literalBytes]
    | cons x xs ih => intro n; rw [List.foldl_cons, ih]; simp [literalBytes]; omega
  unfold buildLiteralOffsetTable
  rw [List.getD_eq_getElem?_getD, List.getElem?_scanl, if_pos h, hfold]
  simp

/-! ## Placement of a part -/

/-- Up to sequence `a` the plan stands for the chunk up to `srcPos`. -/
structure Placed (plan : SequencePlan) (history chunk : Bytes) (offsets : List Nat) (a srcPos : Nat) : Prop where
  le : srcPos ≤ chunk.length
  literals : literalBytes (plan.sequences.take a) ≤ plan.literals.length
  rest : executePlan (history ++ chunk.take srcPos) (plan.literals.drop (literalBytes (plan.sequences.take a)))
    ((plan.sequences.zip offsets).drop a) = .ok (history ++ chunk)

/-- What a part of a plan is made of. -/
structure PartOf (plan : SequencePlan) (history chunk : Bytes) (offsets : List Nat) (a b srcPos n : Nat) : Prop where
  size : n = (plan.subLiterals (buildLiteralOffsetTable plan.sequences) a b).length +
    matchBytes (part plan.sequences a b)
  fits : srcPos + n ≤ chunk.length
  executes : executePlan (history ++ chunk.take srcPos)
    (plan.subLiterals (buildLiteralOffsetTable plan.sequences) a b)
    ((part plan.sequences a b).zip (part offsets a b)) = .ok (history ++ chunk.take (srcPos + n))

section

variable {plan : SequencePlan} {history chunk : Bytes} {reps : DecoderRepeatOffsets} {offsets : List Nat}

theorem ValidPlan.placed (h : ValidPlan plan history chunk reps offsets) : Placed plan history chunk offsets 0 0 :=
  ⟨by omega, by simp [literalBytes], by simpa [literalBytes] using h.reproduces⟩

/-- What an execution appended, when the end of it is known. -/
theorem executePlan_take {seqs : List (SequenceCommand × Nat)} {literals mid t : Bytes} {srcPos : Nat}
    (hle : srcPos ≤ chunk.length) (h : executePlan (history ++ chunk.take srcPos) literals seqs = .ok mid)
    (hmid : history ++ chunk = mid ++ t) :
    srcPos + (literals.length + matchBytes (seqs.map Prod.fst)) ≤ chunk.length ∧
      mid = history ++ chunk.take (srcPos + (literals.length + matchBytes (seqs.map Prod.fst))) := by
  obtain ⟨u, rfl, hu, -⟩ := executePlan_ok h
  rw [List.append_assoc, List.append_assoc, List.append_cancel_left_eq] at hmid
  have hlen := congrArg List.length hmid
  simp only [List.length_append, List.length_take] at hlen
  refine ⟨by omega, ?_⟩
  have hpre : chunk.take srcPos ++ u <+: chunk := ⟨t, by rw [List.append_assoc, ← hmid]⟩
  have hl : (chunk.take srcPos ++ u).length = srcPos + u.length := by
    simp only [List.length_append, List.length_take]; omega
  rw [List.append_assoc, List.append_cancel_left_eq, ← hu, ← hl]
  exact List.prefix_iff_eq_take.1 hpre

/-- A part of a placed plan stands for its own stretch of the chunk, and places the next part; the
last part ends the chunk. -/
theorem Placed.step {a b srcPos : Nat} (h : Placed plan history chunk offsets a srcPos)
    (hoff : offsets.length = plan.sequences.length) (hab : a ≤ b) (hb : b ≤ plan.sequences.length) :
    ∃ n, PartOf plan history chunk offsets a b srcPos n ∧
      (b < plan.sequences.length → Placed plan history chunk offsets b (srcPos + n)) ∧
      (b = plan.sequences.length → srcPos + n = chunk.length) := by
  have hA := buildLiteralOffsetTable_getD plan.sequences (hab.trans hb)
  have hB := buildLiteralOffsetTable_getD plan.sequences hb
  have hfst : ∀ a b, ((part plan.sequences a b).zip (part offsets a b)).map Prod.fst = part plan.sequences a b := by
    intro a b
    rw [List.map_fst_zip]
    simp only [part, List.length_take, List.length_drop, hoff, le_refl]
  have hsum : literalBytes (plan.sequences.take b) =
      literalBytes (plan.sequences.take a) + literalBytes (part plan.sequences a b) := by
    rw [← literalBytes_append, take_append_part _ hab]
  by_cases hend : b = plan.sequences.length
  · -- the last part takes what is left
    have hlit : plan.subLiterals (buildLiteralOffsetTable plan.sequences) a b =
        plan.literals.drop (literalBytes (plan.sequences.take a)) := by
      simp only [SequencePlan.subLiterals, if_pos hend, hA, part]
      exact List.take_of_length_le (by simp)
    have hzip : (plan.sequences.zip offsets).drop a = (part plan.sequences a b).zip (part offsets a b) := by
      rw [← part_zip, part, List.take_of_length_le]
      simp only [List.length_drop, List.length_zip, hoff]
      omega
    have hrest := h.rest
    rw [hzip, ← hlit] at hrest
    obtain ⟨hfits, hmid⟩ := executePlan_take (t := []) h.le hrest (by simp)
    rw [hfst] at hfits hmid
    refine ⟨_, ⟨rfl, hfits, by rw [hrest, hmid]⟩, fun hlt => by omega, fun _ => ?_⟩
    have := congrArg List.length hmid
    simp only [List.length_append, List.length_take] at this
    omega
  · have hlt : b < plan.sequences.length := by omega
    obtain ⟨t, ht, -, hl⟩ := executePlan_ok h.rest
    have hfstd : ((plan.sequences.zip offsets).drop a).map Prod.fst = plan.sequences.drop a := by
      rw [List.map_drop, List.map_fst_zip (by omega)]
    rw [hfstd, ← part_append_drop _ hab, literalBytes_append, List.length_drop] at hl
    have hlits := h.literals
    have hlen : literalBytes (plan.sequences.take b) ≤ plan.literals.length := by omega
    have hlit : plan.subLiterals (buildLiteralOffsetTable plan.sequences) a b =
        part plan.literals (literalBytes (plan.sequences.take a)) (literalBytes (plan.sequences.take b)) := by
      simp only [SequencePlan.subLiterals, if_neg hend, hA, hB]
    have hrest := h.rest
    rw [← part_append_drop _ (show literalBytes (plan.sequences.take a) ≤ literalBytes
      (plan.sequences.take b) by omega), ← hlit, ← part_append_drop _ hab, part_zip, executePlan_append] at hrest
    · obtain ⟨mid, h₁, h₂⟩ := bind_ok hrest
      obtain ⟨u, hu, -, -⟩ := executePlan_ok h₂
      obtain ⟨hfits, hmid⟩ := executePlan_take h.le h₁ hu
      rw [hfst] at hfits hmid
      subst hmid
      exact ⟨_, ⟨rfl, hfits, h₁⟩, fun _ => ⟨hfits, hlen, h₂⟩, fun he => absurd he hend⟩
    · rw [hfst, hlit, part_length hlen]
      omega

end

/-! ## What emitted blocks stand for -/

/-- The bytes behind `history` that a block stands for when its sequences have the offsets the plan
of the whole block gives them. -/
def OutBlock.regenerate (offsets : List Nat) (history : Bytes) (b : OutBlock) : Result Bytes :=
  match b.body with
  | .raw bytes => .ok (history ++ bytes)
  | .rle byte => .ok (history ++ List.replicate b.header.blockSize byte)
  | .compressed _ plan seqStart =>
    executePlan history plan.literals
      (plan.sequences.zip (part offsets seqStart (seqStart + plan.sequences.length)))

def regenerateBlocks (offsets : List Nat) (history : Bytes) (blocks : List OutBlock) : Result Bytes :=
  blocks.foldlM (OutBlock.regenerate offsets) history

/-- A block as a decoder reads it, its offset values resolved against the decoder's own repeat
offsets. -/
def OutBlock.read (s : Bytes × DecoderRepeatOffsets) (b : OutBlock) : Result (Bytes × DecoderRepeatOffsets) :=
  match b.body with
  | .raw bytes => .ok (s.1 ++ bytes, s.2)
  | .rle byte => .ok (s.1 ++ List.replicate b.header.blockSize byte, s.2)
  | .compressed _ plan _ => do
    let (offsets, reps) := s.2.decodeOffsets plan.sequences
    let out ← executePlan s.1 plan.literals (plan.sequences.zip offsets)
    .ok (out, reps)

def readBlocks (s : Bytes × DecoderRepeatOffsets) (blocks : List OutBlock) :
    Result (Bytes × DecoderRepeatOffsets) :=
  blocks.foldlM OutBlock.read s

/-- The decoder's repeat offsets after a block. -/
def OutBlock.repsAfter (reps : DecoderRepeatOffsets) (b : OutBlock) : DecoderRepeatOffsets :=
  match b.body with
  | .compressed _ plan _ => (reps.decodeOffsets plan.sequences).2
  | _ => reps

/-- The offsets the decoder finds in a compressed block are the plan's. -/
def OutBlock.OffsetsRight (offsets : List Nat) (reps : DecoderRepeatOffsets) (b : OutBlock) : Prop :=
  match b.body with
  | .compressed _ plan seqStart =>
    (reps.decodeOffsets plan.sequences).1 = part offsets seqStart (seqStart + plan.sequences.length)
  | _ => True

/-- The offsets of every compressed block survive, from the decoder's repeat offsets on. -/
def OffsetsSurvive (offsets : List Nat) : DecoderRepeatOffsets → List OutBlock → Prop
  | _, [] => True
  | reps, b :: blocks => b.OffsetsRight offsets reps ∧ OffsetsSurvive offsets (b.repsAfter reps) blocks

theorem OffsetsSurvive.append {offsets : List Nat} : ∀ {blocks blocks' : List OutBlock} {reps : DecoderRepeatOffsets},
    OffsetsSurvive offsets reps blocks → OffsetsSurvive offsets (blocks.foldl OutBlock.repsAfter reps) blocks' →
      OffsetsSurvive offsets reps (blocks ++ blocks')
  | [], _, _, _, h' => h'
  | _ :: _, _, _, h, h' => ⟨h.1, OffsetsSurvive.append h.2 h'⟩

/-- A decoder that finds the plan's offsets regenerates what the plan stands for. -/
theorem readBlocks_of_survive {offsets : List Nat} : ∀ {blocks : List OutBlock} {history out : Bytes}
    {reps : DecoderRepeatOffsets}, OffsetsSurvive offsets reps blocks →
    regenerateBlocks offsets history blocks = .ok out →
      readBlocks (history, reps) blocks = .ok (out, blocks.foldl OutBlock.repsAfter reps)
  | [], _, _, _, _, h => by cases h; rfl
  | b :: blocks, history, out, reps, ⟨hb, hs⟩, h => by
    simp only [regenerateBlocks, List.foldlM_cons] at h
    obtain ⟨mid, h₁, h₂⟩ := bind_ok h
    have ih := readBlocks_of_survive hs h₂
    simp only [readBlocks, List.foldlM_cons, List.foldl_cons] at ih ⊢
    have hdec : OutBlock.read (history, reps) b = .ok (mid, b.repsAfter reps) := by
      unfold OutBlock.regenerate at h₁
      unfold OutBlock.read OutBlock.repsAfter
      unfold OutBlock.OffsetsRight at hb
      cases hbody : b.body with
      | raw bytes => rw [hbody] at h₁; cases h₁; rfl
      | rle byte => rw [hbody] at h₁; cases h₁; rfl
      | compressed payload plan seqStart =>
        rw [hbody] at h₁ hb
        simp only at h₁ hb ⊢
        rw [hb, h₁]
        rfl
    rw [hdec]
    exact ih

/-! ## One sub-block -/

/-- The lengths of a sequence, all that executing it takes from it. -/
def shape (seq : SequenceCommand) : Nat × Nat := (seq.literalLength, seq.matchLength)

theorem reconcileSubblockRepcodes_shape : ∀ {seqs : List SequenceCommand} {codes : List Nat}
    {decoder compressor : RepeatOffsets} {r : Reconciled},
    reconcileSubblockRepcodes seqs codes decoder compressor = .ok r → r.sequences.map shape = seqs.map shape
  | [], _, _, _, _, h => by cases h; rfl
  | _ :: _, [], _, _, _, h => by cases h; rfl
  | seq :: seqs, code :: codes, decoder, compressor, r', h => by
    obtain ⟨-, r, hr, rfl⟩ := reconcileSubblockRepcodes_cons_iff.1 h
    rw [List.map_cons, List.map_cons, reconcileSubblockRepcodes_shape hr]
    rfl

theorem SplitState.reconciled_shape {E : Type} {s : SplitState E} {plan : SequencePlan} {a b : Nat} {r : Reconciled}
    (h : s.reconciled plan a b = .ok r) : r.sequences.map shape = (part plan.sequences a b).map shape := by
  unfold SplitState.reconciled at h
  split at h
  · exact reconcileSubblockRepcodes_shape h
  · cases h
    rfl

theorem matchBytes_shape {xs ys : List SequenceCommand} (h : xs.map shape = ys.map shape) :
    matchBytes xs = matchBytes ys := by
  have hm : ∀ zs : List SequenceCommand, matchBytes zs = ((zs.map shape).map Prod.snd).sum := by
    intro zs; simp only [matchBytes, List.map_map]; rfl
  rw [hm, hm, h]

theorem executePlan_shape : ∀ {xs ys : List SequenceCommand} {offsets : List Nat} {history literals : Bytes},
    xs.map shape = ys.map shape →
      executePlan history literals (xs.zip offsets) = executePlan history literals (ys.zip offsets)
  | [], [], _, _, _, _ => rfl
  | [], _ :: _, _, _, _, h => by simp at h
  | _ :: _, [], _, _, _, h => by simp at h
  | x :: xs, y :: ys, [], _, _, _ => rfl
  | x :: xs, y :: ys, o :: os, history, literals, h => by
    simp only [List.map_cons, List.cons.injEq, shape, Prod.mk.injEq] at h
    obtain ⟨⟨hll, hml⟩, hrest⟩ := h
    simp only [List.zip_cons_cons, executePlan, hll, hml]
    split
    · rfl
    split
    · rfl
    · exact executePlan_shape hrest

section

variable {E : Type} {plan : SequencePlan} {history chunk : Bytes} {offsets : List Nat}

/-- What the loop body appends: one block, for its own stretch of the chunk, whatever the answer. -/
theorem splitSubblock_ok {a b n : Nat} {lastBlock : Bool} {attempt : Attempt E} {s s' : SplitState E}
    (hp : PartOf plan history chunk offsets a b s.srcPos n) (hb : b ≤ plan.sequences.length) (hab : a ≤ b)
    (h : splitSubblock chunk plan (buildLiteralOffsetTable plan.sequences) lastBlock a b attempt s = .ok s') :
    ∃ block, s'.out = s.out ++ [block] ∧ block.header.lastBlock = lastBlock ∧ s'.srcPos = s.srcPos + n ∧
      s'.anyCompressed = (s.anyCompressed || attempt.isSome) ∧
      block.regenerate offsets (history ++ chunk.take s.srcPos) = .ok (history ++ chunk.take (s.srcPos + n)) := by
  unfold splitSubblock at h
  simp only at h
  obtain ⟨r, hr, h⟩ := bind_ok h
  have hshape := SplitState.reconciled_shape hr
  have hlen : r.sequences.length = b - a := by
    have := congrArg List.length hshape
    rwa [List.length_map, List.length_map, part_length hb] at this
  obtain ⟨subChunk, hsub, h⟩ := bind_ok h
  obtain ⟨⟨_, reps⟩, -, h⟩ := bind_ok h
  rw [matchBytes_shape hshape, ← hp.size] at hsub h
  have hchunk : chunk.take s.srcPos ++ subChunk = chunk.take (s.srcPos + n) := by
    unfold getRange at hsub
    rw [if_pos ⟨by omega, hp.fits⟩, Nat.add_sub_cancel_left] at hsub
    cases hsub
    rw [← List.take_add]
  cases attempt with
  | none =>
    cases h
    exact ⟨_, rfl, rfl, rfl, by simp, by simp [OutBlock.regenerate, OutBlock.raw, ← hchunk]⟩
  | some answer =>
    cases h
    refine ⟨_, rfl, rfl, rfl, by simp, ?_⟩
    simp only [OutBlock.regenerate, OutBlock.compressed]
    rw [executePlan_shape hshape, hlen, Nat.add_sub_cancel' hab]
    exact hp.executes

/-! ## All sub-blocks -/

/-- The last-block flag is on the last of the blocks, and there only if it should be. -/
def LastFlags (lastBlock : Bool) (blocks : List OutBlock) : Prop :=
  ∃ init b, blocks = init ++ [b] ∧ (∀ c ∈ init, c.header.lastBlock = false) ∧ b.header.lastBlock = lastBlock

theorem LastFlags.cons {lastBlock : Bool} {block : OutBlock} {blocks : List OutBlock} (h : LastFlags lastBlock blocks)
    (hb : block.header.lastBlock = false) : LastFlags lastBlock (block :: blocks) := by
  obtain ⟨init, b, rfl, hi, hl⟩ := h
  refine ⟨block :: init, b, rfl, fun c hc => ?_, hl⟩
  rcases List.mem_cons.1 hc with rfl | hc
  · exact hb
  · exact hi c hc

/-- Where the boundaries end, the plan does. -/
theorem boundary_lt {a b c n : Nat} {rest : List Nat} (hp : (a :: b :: c :: rest).Pairwise (· < ·))
    (hl : (a :: b :: c :: rest).getLast? = some n) : b < n := by
  rw [List.getLast?_cons_cons, List.getLast?_cons_cons] at hl
  have hmem : n ∈ c :: rest := List.mem_of_getLast? hl
  exact (List.pairwise_cons.1 (List.pairwise_cons.1 hp).2).1 n hmem

/-- The loop, by induction on the boundaries left: whatever the answers, the blocks appended stand for
the rest of the chunk, and the last of them alone is flagged. -/
theorem splitLoop_ok {lastFrameBlock : Bool} (hoff : offsets.length = plan.sequences.length) :
    ∀ {rest : List Nat} {a b : Nat} {attempts : List (Attempt E)} {s s' : SplitState E},
    (a :: b :: rest).Pairwise (· < ·) → (a :: b :: rest).getLast? = some plan.sequences.length →
    attempts.length = rest.length + 1 → Placed plan history chunk offsets a s.srcPos →
    splitLoop chunk plan (buildLiteralOffsetTable plan.sequences) lastFrameBlock (a :: b :: rest) attempts s = .ok s' →
    ∃ blocks, s'.out = s.out ++ blocks ∧ LastFlags lastFrameBlock blocks ∧
      regenerateBlocks offsets (history ++ chunk.take s.srcPos) blocks = .ok (history ++ chunk) ∧
      s'.anyCompressed = (s.anyCompressed || attempts.any Option.isSome)
  | [], a, b, attempts, s, s', hp, hl, hn, hplaced, h => by
    obtain ⟨attempt, rfl⟩ : ∃ attempt, attempts = [attempt] := List.length_eq_one_iff.1 (by simpa using hn)
    have hb : b = plan.sequences.length := by simpa using hl
    have hab : a < b := (List.pairwise_cons.1 hp).1 b (by simp)
    obtain ⟨n, hpart, -, hend⟩ := hplaced.step hoff hab.le hb.le
    obtain ⟨t, ht, h⟩ := bind_ok h
    cases h
    obtain ⟨block, ho, hflag, -, hany, hreg⟩ := splitSubblock_ok hpart hb.le hab.le ht
    refine ⟨[block], ho, ⟨[], block, rfl, by simp, by simpa using hflag⟩, ?_, by simpa using hany⟩
    rw [hend hb, List.take_of_length_le le_rfl] at hreg
    simp only [regenerateBlocks, List.foldlM_cons, List.foldlM_nil, hreg]
    rfl
  | c :: rest, a, b, attempts, s, s', hp, hl, hn, hplaced, h => by
    obtain ⟨attempt, attempts, rfl⟩ : ∃ x xs, attempts = x :: xs := List.exists_cons_of_length_eq_add_one hn
    have hb : b < plan.sequences.length := boundary_lt hp hl
    have hab : a < b := (List.pairwise_cons.1 hp).1 b (by simp)
    obtain ⟨n, hpart, hnext, -⟩ := hplaced.step hoff hab.le hb.le
    obtain ⟨t, ht, h⟩ := bind_ok h
    obtain ⟨block, ho, hflag, hpos, hany, hreg⟩ := splitSubblock_ok hpart hb.le hab.le ht
    have hplaced' := hnext hb
    rw [← hpos] at hplaced'
    rw [List.getLast?_cons_cons] at hl
    obtain ⟨blocks, ho', hflags, hreg', hany'⟩ := splitLoop_ok hoff (List.pairwise_cons.1 hp).2 hl (by simpa using hn)
      hplaced' h
    refine ⟨block :: blocks, by rw [ho', ho]; simp, hflags.cons (by simpa using hflag), ?_, ?_⟩
    · simp only [regenerateBlocks, List.foldlM_cons, hreg, ok_bind]
      rw [hpos] at hreg'
      exact hreg'
    · rw [hany', hany]
      simp [Bool.or_assoc]

/-! ## The decoder's repeat offsets -/

/-- The loop body while no sub-block has been stored raw: it does not fail, the decoder finds the
plan's offsets, and the simulated history is the decoder's. -/
theorem splitSubblock_synced (lastBlock : Bool) (attempt : Attempt E) {a b n : Nat} {s : SplitState E}
    {reps : DecoderRepeatOffsets} {next : RepeatOffsets} (hp : PartOf plan history chunk offsets a b s.srcPos n)
    (hb : b ≤ plan.sequences.length) (hab : a ≤ b) (hprev : s.prevWasUncompressed = false)
    (hd : s.decoderReps = reps.toRepeatOffsets)
    (hres : s.decoderReps.resolveAll (part plan.sequences a b) = .ok (part offsets a b, next)) :
    ∃ s' block, splitSubblock chunk plan (buildLiteralOffsetTable plan.sequences) lastBlock a b attempt s = .ok s' ∧
      s'.out = s.out ++ [block] ∧ s'.srcPos = s.srcPos + n ∧ block.OffsetsRight offsets reps ∧
      s'.decoderReps = (block.repsAfter reps).toRepeatOffsets ∧
      (attempt.isSome → s'.prevWasUncompressed = false ∧ s'.decoderReps = next) := by
  have hsub : getRange chunk s.srcPos (s.srcPos + n) = .ok (((chunk.drop s.srcPos)).take n) := by
    unfold getRange
    rw [if_pos ⟨by omega, hp.fits⟩, Nat.add_sub_cancel_left]
  unfold splitSubblock SplitState.reconciled
  simp only [hprev, Bool.false_eq_true, reduceIte, ← hp.size, hsub, hres, ok_bind]
  cases attempt with
  | none => exact ⟨_, _, rfl, rfl, rfl, trivial, hd, by simp⟩
  | some answer =>
    rw [hd] at hres
    obtain ⟨ho, hr⟩ := DecoderRepeatOffsets.decodeOffsets_eq hres
    refine ⟨_, _, rfl, rfl, rfl, ?_, ?_, fun _ => ⟨rfl, rfl⟩⟩
    · simp only [OutBlock.OffsetsRight, OutBlock.compressed, part_length hb, Nat.add_sub_cancel' hab]
      exact ho
    · simpa [OutBlock.repsAfter, OutBlock.compressed] using hr.symm

/-- The loop when every answer but the last is a payload, by induction on the boundaries left. -/
theorem splitLoop_synced (lastFrameBlock : Bool) (hoff : offsets.length = plan.sequences.length) :
    ∀ {rest : List Nat} {a b : Nat} {attempts : List (Attempt E)} {s : SplitState E} {reps : DecoderRepeatOffsets}
      {final : RepeatOffsets},
    (a :: b :: rest).Pairwise (· < ·) → (a :: b :: rest).getLast? = some plan.sequences.length →
    attempts.length = rest.length + 1 → Placed plan history chunk offsets a s.srcPos →
    (∀ x ∈ attempts.dropLast, x.isSome) → s.prevWasUncompressed = false → s.decoderReps = reps.toRepeatOffsets →
    s.decoderReps.resolveAll (plan.sequences.drop a) = .ok (offsets.drop a, final) →
    ∃ s' blocks, splitLoop chunk plan (buildLiteralOffsetTable plan.sequences) lastFrameBlock (a :: b :: rest)
        attempts s = .ok s' ∧ s'.out = s.out ++ blocks ∧ OffsetsSurvive offsets reps blocks ∧
      s'.decoderReps = (blocks.foldl OutBlock.repsAfter reps).toRepeatOffsets
  | [], a, b, attempts, s, reps, final, hp, hl, hn, hplaced, hacc, hprev, hd, hres => by
    obtain ⟨attempt, rfl⟩ : ∃ attempt, attempts = [attempt] := List.length_eq_one_iff.1 (by simpa using hn)
    have hb : b = plan.sequences.length := by simpa using hl
    have hab : a < b := (List.pairwise_cons.1 hp).1 b (by simp)
    obtain ⟨n, hpart, -, -⟩ := hplaced.step hoff hab.le hb.le
    have hwhole : part plan.sequences a b = plan.sequences.drop a ∧ part offsets a b = offsets.drop a :=
      ⟨List.take_of_length_le (by simp; omega), List.take_of_length_le (by simp; omega)⟩
    rw [← hwhole.1, ← hwhole.2] at hres
    obtain ⟨s', block, hrun, ho, -, hright, hreps, -⟩ := splitSubblock_synced
      (lastFrameBlock && true) attempt hpart hb.le hab.le hprev hd hres
    refine ⟨s', [block], ?_, ho, ⟨hright, trivial⟩, hreps⟩
    simp only [splitLoop, List.isEmpty_nil, hrun, ok_bind]
  | c :: rest, a, b, attempts, s, reps, final, hp, hl, hn, hplaced, hacc, hprev, hd, hres => by
    obtain ⟨attempt, attempts, rfl⟩ : ∃ x xs, attempts = x :: xs := List.exists_cons_of_length_eq_add_one hn
    have hne : attempts ≠ [] := by rintro rfl; simp at hn
    rw [List.dropLast_cons_of_ne_nil hne] at hacc
    have hb : b < plan.sequences.length := boundary_lt hp hl
    have hab : a < b := (List.pairwise_cons.1 hp).1 b (by simp)
    obtain ⟨n, hpart, hnext, -⟩ := hplaced.step hoff hab.le hb.le
    rw [← part_append_drop _ hab.le, resolveAll_append] at hres
    obtain ⟨⟨os₁, mid⟩, hres₁, hres⟩ := bind_ok hres
    obtain ⟨⟨os₂, last⟩, hres₂, hres⟩ := bind_ok hres
    have hos : os₁ = part offsets a b ∧ os₂ = offsets.drop b := by
      simp only [Except.ok.injEq, Prod.mk.injEq] at hres
      have h₁ := resolveAll_length hres₁
      rw [part_length hb.le] at h₁
      have := hres.1
      rw [← part_append_drop offsets hab.le] at this
      exact List.append_inj this (by rw [h₁, part_length (by omega)])
    obtain ⟨rfl, rfl⟩ := hos
    obtain ⟨t, block, hrun, ho, hpos, hright, hreps, hsome⟩ := splitSubblock_synced
      (lastFrameBlock && false) attempt hpart hb.le hab.le hprev hd hres₁
    obtain ⟨hprev', hmid⟩ := hsome (hacc attempt (by simp))
    have hplaced' := hnext hb
    rw [← hpos] at hplaced'
    rw [List.getLast?_cons_cons] at hl
    rw [← hmid] at hres₂
    obtain ⟨s', blocks, hrun', ho', hsurvive, hreps'⟩ := splitLoop_synced lastFrameBlock hoff
      (List.pairwise_cons.1 hp).2 hl (by simpa using hn) hplaced'
      (fun x hx => hacc x (List.mem_cons_of_mem _ hx)) hprev' hreps hres₂
    refine ⟨s', block :: blocks, ?_, by rw [ho', ho]; simp, ⟨hright, hsurvive⟩, hreps'⟩
    simp only [splitLoop, List.isEmpty_cons, hrun, ok_bind]
    exact hrun'

end

end Zstandard
