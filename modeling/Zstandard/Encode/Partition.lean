/-
The partition that post-sequence splitting makes of a block: its boundaries, and what of the literals and of the
chunk the sub-blocks between them take.

Nothing here asks whether the offsets of the plan mean anything. It is enough that the plan covers its chunk: the
literal lengths do not exceed the literals, and with the match lengths they account for every byte.
-/
import Zstandard.Encode.Subblocks
import Zstandard.Library.Tiling

namespace Zstandard

open Tiling

/-- A plan for a block of `size` bytes; what of its literals no sequence takes follows the last one. -/
structure PlanCovers (plan : SequencePlan) (size : Nat) : Prop where
  literals : literalBytes plan.sequences ≤ plan.literals.length
  bytes : plan.literals.length + matchBytes plan.sequences = size

/-- The literals of a part, from `lit_start` to `lit_end`. -/
def litRange (plan : SequencePlan) (litOffsets : List Nat) (seqStart seqEnd : Nat) : Nat × Nat :=
  (litOffsets.getD seqStart 0,
    if seqEnd = plan.sequences.length then plan.literals.length else litOffsets.getD seqEnd 0)

/-- `src_bytes` of a part. -/
def srcBytes (plan : SequencePlan) (litOffsets : List Nat) (seqStart seqEnd : Nat) : Nat :=
  (plan.subLiterals litOffsets seqStart seqEnd).length + matchBytes (part plan.sequences seqStart seqEnd)

def literalRanges (plan : SequencePlan) (litOffsets : List Nat) : List Nat → List (Nat × Nat)
  | seqStart :: seqEnd :: points =>
    litRange plan litOffsets seqStart seqEnd :: literalRanges plan litOffsets (seqEnd :: points)
  | _ => []

/-- The parts of the chunk, `src_pos` running over them. -/
def byteRanges (plan : SequencePlan) (litOffsets : List Nat) : List Nat → Nat → List (Nat × Nat)
  | seqStart :: seqEnd :: points, srcPos =>
    let next := srcPos + srcBytes plan litOffsets seqStart seqEnd
    (srcPos, next) :: byteRanges plan litOffsets (seqEnd :: points) next
  | _, _ => []

/-- A block takes its ranges: a raw one the bytes of the chunk, a compressed one the literals of the plan, for as many
bytes of the chunk as its literals and matches stand for. -/
def OutBlock.Takes (plan : SequencePlan) (chunk : Bytes) (b : OutBlock) (r : (Nat × Nat) × (Nat × Nat)) : Prop :=
  match b.body with
  | .raw bytes => bytes = part chunk r.2.1 r.2.2
  | .rle _ => False
  | .compressed _ sub _ => sub.literals = part plan.literals r.1.1 r.1.2 ∧
      sub.literals.length + matchBytes sub.sequences = r.2.2 - r.2.1

section

variable {plan : SequencePlan} {size : Nat}

theorem matchBytes_append (xs ys : List SequenceCommand) : matchBytes (xs ++ ys) = matchBytes xs + matchBytes ys := by
  simp [matchBytes]

/-- A plan that reproduces a chunk covers it. -/
theorem ValidPlan.covers {history chunk : Bytes} {reps : DecoderRepeatOffsets} {offsets : List Nat}
    (h : ValidPlan plan history chunk reps offsets) : PlanCovers plan chunk.length := by
  obtain ⟨t, ht, hlen, hlits⟩ := executePlan_ok h.reproduces
  have hfst : (plan.sequences.zip offsets).map Prod.fst = plan.sequences := List.map_fst_zip (by rw [h.length_eq])
  rw [hfst] at hlen hlits
  have := congrArg List.length ht
  simp only [List.length_append] at this
  exact ⟨by omega, by omega⟩

/-- Where the literals of a part are, and how many bytes it stands for. -/
theorem PlanCovers.part_sizes (h : PlanCovers plan size) {a b : Nat} (hab : a ≤ b) (hb : b ≤ plan.sequences.length) :
    let r := litRange plan (buildLiteralOffsetTable plan.sequences) a b
    r.1 = literalBytes (plan.sequences.take a) ∧ r.1 ≤ r.2 ∧ r.2 ≤ plan.literals.length ∧
      (b < plan.sequences.length → r.2 = literalBytes (plan.sequences.take b)) ∧
      (b = plan.sequences.length → r.2 = plan.literals.length) ∧
      srcBytes plan (buildLiteralOffsetTable plan.sequences) a b =
        (r.2 - r.1) + (matchBytes (plan.sequences.take b) - matchBytes (plan.sequences.take a)) ∧
      matchBytes (plan.sequences.take a) ≤ matchBytes (plan.sequences.take b) := by
  have hlits := h.literals
  have hA := buildLiteralOffsetTable_getD plan.sequences (hab.trans hb)
  have hB := buildLiteralOffsetTable_getD plan.sequences hb
  have hsum : literalBytes (plan.sequences.take b) =
      literalBytes (plan.sequences.take a) + literalBytes (part plan.sequences a b) := by
    rw [← literalBytes_append, take_append_part _ hab]
  have hmatches : matchBytes (plan.sequences.take b) =
      matchBytes (plan.sequences.take a) + matchBytes (part plan.sequences a b) := by
    rw [← matchBytes_append, take_append_part _ hab]
  have hall : literalBytes plan.sequences =
      literalBytes (plan.sequences.take b) + literalBytes (plan.sequences.drop b) := by
    rw [← literalBytes_append, List.take_append_drop]
  have hsub : plan.subLiterals (buildLiteralOffsetTable plan.sequences) a b =
      part plan.literals (litRange plan (buildLiteralOffsetTable plan.sequences) a b).1
        (litRange plan (buildLiteralOffsetTable plan.sequences) a b).2 := rfl
  unfold srcBytes
  rw [hsub]
  unfold litRange
  dsimp only
  rw [hA, hB]
  by_cases hend : b = plan.sequences.length
  · rw [if_pos hend, part_length le_rfl]
    refine ⟨rfl, by omega, le_rfl, fun hlt => absurd hend (by omega), fun _ => rfl, by omega, by omega⟩
  · rw [if_neg hend, part_length (by omega)]
    refine ⟨rfl, by omega, by omega, fun _ => rfl, fun heq => absurd heq hend, by omega, by omega⟩

/-- From each boundary on, the literal ranges lead to the end of the literals, trailing ones included. -/
theorem PlanCovers.literals_tile (h : PlanCovers plan size) : ∀ {rest : List Nat} {a b : Nat},
    (a :: b :: rest).Pairwise (· < ·) → (a :: b :: rest).getLast? = some plan.sequences.length →
    Tiles (literalRanges plan (buildLiteralOffsetTable plan.sequences) (a :: b :: rest))
      (literalBytes (plan.sequences.take a)) plan.literals.length
  | [], a, b, hp, hl => by
    have hb : b = plan.sequences.length := by simpa using hl
    have hab : a < b := (List.pairwise_cons.1 hp).1 b List.mem_cons_self
    obtain ⟨hstart, hle, -, -, hend, -⟩ := h.part_sizes hab.le hb.le
    exact ⟨hstart, hle, hend hb⟩
  | c :: rest, a, b, hp, hl => by
    have hb : b < plan.sequences.length := boundary_lt hp hl
    have hab : a < b := (List.pairwise_cons.1 hp).1 b List.mem_cons_self
    obtain ⟨hstart, hle, -, hnext, -⟩ := h.part_sizes hab.le hb.le
    rw [List.getLast?_cons_cons] at hl
    have hrest := h.literals_tile (List.pairwise_cons.1 hp).2 hl
    rw [← hnext hb] at hrest
    exact ⟨hstart, hle, hrest⟩

/-- The byte ranges lead to the end of the chunk. -/
theorem PlanCovers.bytes_tile (h : PlanCovers plan size) : ∀ {rest : List Nat} {a b srcPos : Nat},
    (a :: b :: rest).Pairwise (· < ·) → (a :: b :: rest).getLast? = some plan.sequences.length →
    srcPos = literalBytes (plan.sequences.take a) + matchBytes (plan.sequences.take a) →
    Tiles (byteRanges plan (buildLiteralOffsetTable plan.sequences) (a :: b :: rest) srcPos) srcPos size
  | [], a, b, srcPos, hp, hl, hpos => by
    have hb : b = plan.sequences.length := by simpa using hl
    have hab : a < b := (List.pairwise_cons.1 hp).1 b List.mem_cons_self
    obtain ⟨hstart, hle, -, -, hend, hbytes, hmatches⟩ := h.part_sizes hab.le hb.le
    have hend := hend hb
    have hall : plan.sequences.take b = plan.sequences := by rw [hb, List.take_length]
    rw [hall] at hbytes hmatches
    have hsize := h.bytes
    refine ⟨rfl, by dsimp only; omega, ?_⟩
    show srcPos + srcBytes plan (buildLiteralOffsetTable plan.sequences) a b = size
    omega
  | c :: rest, a, b, srcPos, hp, hl, hpos => by
    have hb : b < plan.sequences.length := boundary_lt hp hl
    have hab : a < b := (List.pairwise_cons.1 hp).1 b List.mem_cons_self
    obtain ⟨hstart, hle, -, hnext, -, hbytes, hmatches⟩ := h.part_sizes hab.le hb.le
    have hnext := hnext hb
    rw [List.getLast?_cons_cons] at hl
    refine ⟨rfl, by dsimp only; omega, ?_⟩
    exact h.bytes_tile (List.pairwise_cons.1 hp).2 hl (by omega)

end

/-! ## What the loop takes -/

section

variable {E : Type} {plan : SequencePlan} {chunk : Bytes} {litOffsets : List Nat}

theorem splitSubblock_takes {a b : Nat} {lastBlock : Bool} {attempt : Attempt E} {s s' : SplitState E}
    (h : splitSubblock chunk plan litOffsets lastBlock a b attempt s = .ok s') :
    ∃ block, s'.out = s.out ++ [block] ∧ s'.srcPos = s.srcPos + srcBytes plan litOffsets a b ∧
      block.Takes plan chunk (litRange plan litOffsets a b, (s.srcPos, s.srcPos + srcBytes plan litOffsets a b)) := by
  unfold splitSubblock at h
  simp only at h
  obtain ⟨r, hr, h⟩ := bind_ok h
  -- reconciling changes offset values, not lengths
  have hmatches : matchBytes r.sequences = matchBytes (part plan.sequences a b) :=
    matchBytes_shape (SplitState.reconciled_shape hr)
  rw [hmatches] at h
  obtain ⟨subChunk, hsub, h⟩ := bind_ok h
  obtain ⟨⟨_, reps⟩, -, h⟩ := bind_ok h
  obtain ⟨-, -, hchunk⟩ := getRange_ok hsub
  cases attempt with
  | none =>
    cases h
    exact ⟨_, rfl, rfl, hchunk⟩
  | some answer =>
    cases h
    refine ⟨_, rfl, rfl, rfl, ?_⟩
    show _ + matchBytes r.sequences = s.srcPos + srcBytes plan litOffsets a b - s.srcPos
    rw [hmatches, Nat.add_sub_cancel_left]
    rfl

/-- The blocks of a whole run take the ranges one by one. -/
theorem splitLoop_takes {lastFrameBlock : Bool} : ∀ {points : List Nat} {attempts : List (Attempt E)}
    {s s' : SplitState E}, attempts.length = points.length - 1 →
    splitLoop chunk plan litOffsets lastFrameBlock points attempts s = .ok s' →
    ∃ blocks, s'.out = s.out ++ blocks ∧ List.Forall₂ (OutBlock.Takes plan chunk) blocks
      ((literalRanges plan litOffsets points).zip (byteRanges plan litOffsets points s.srcPos))
  | [], _, s, s', _, h => by
    cases h
    exact ⟨[], (List.append_nil _).symm, .nil⟩
  | [_], _, s, s', _, h => by
    cases h
    exact ⟨[], (List.append_nil _).symm, .nil⟩
  | a :: b :: points, attempts, s, s', hlen, h => by
    obtain ⟨attempt, attempts, rfl⟩ : ∃ x xs, attempts = x :: xs :=
      List.exists_cons_of_length_eq_add_one (by simpa using hlen)
    obtain ⟨t, ht, h⟩ := bind_ok h
    obtain ⟨block, hout, hpos, htakes⟩ := splitSubblock_takes ht
    obtain ⟨blocks, hout', htake'⟩ := splitLoop_takes (by simpa using hlen) h
    refine ⟨block :: blocks, by rw [hout', hout, List.append_assoc]; rfl, .cons htakes ?_⟩
    rw [hpos] at htake'
    exact htake'

end

/-- There are at least two boundaries. -/
theorem SplitPoints.cons_cons {seqCount : Nat} (sp : SplitPoints seqCount) (h : 0 < seqCount) :
    ∃ b rest, sp.points = 0 :: b :: rest := by
  obtain ⟨points, hfirst, hlast, -⟩ := sp
  match points, hfirst, hlast with
  | [a], hfirst, hlast =>
    cases hfirst
    cases hlast
    exact absurd h (Nat.lt_irrefl 0)
  | a :: b :: rest, hfirst, _ =>
    cases hfirst
    exact ⟨b, rest, rfl⟩

/-- Boundaries of any kind tile the literals and the chunk. -/
theorem PlanCovers.tile {plan : SequencePlan} {size : Nat} (h : PlanCovers plan size)
    (sp : SplitPoints plan.sequences.length) (hpos : 0 < plan.sequences.length) :
    Tiles (literalRanges plan (buildLiteralOffsetTable plan.sequences) sp.points) 0 plan.literals.length ∧
      Tiles (byteRanges plan (buildLiteralOffsetTable plan.sequences) sp.points 0) 0 size := by
  have hincreasing := sp.increasing
  have hlast := sp.last
  obtain ⟨b, rest, hpoints⟩ := sp.cons_cons hpos
  rw [hpoints] at hincreasing hlast ⊢
  exact ⟨h.literals_tile hincreasing hlast, h.bytes_tile hincreasing hlast rfl⟩

/-- Whatever the size estimates say, the boundaries lead from 0 to the number of sequences, each past the one before;
the literals and the bytes of the parts tile those of the block, and these are what the sub-blocks take, whatever
becomes of the attempts to compress them. -/
theorem post_splits_partition {plan : SequencePlan} {chunk : Bytes} (cost : Nat → Nat → Nat)
    (hpos : 0 < plan.sequences.length) (hcovers : PlanCovers plan chunk.length) :
    let points := (findPostSequenceSplits cost plan.sequences.length hpos).points
    let litOffsets := buildLiteralOffsetTable plan.sequences
    let literals := literalRanges plan litOffsets points
    let bytes := byteRanges plan litOffsets points 0
    points.head? = some 0 ∧ points.getLast? = some plan.sequences.length ∧ points.Pairwise (· < ·) ∧
      Tiles literals 0 plan.literals.length ∧ Tiles bytes 0 chunk.length ∧
      (literals.map fun r => part plan.literals r.1 r.2).flatten = plan.literals ∧
      (bytes.map fun r => part chunk r.1 r.2).flatten = chunk ∧
      ∀ (E : Type) (entropy : E) (reps : RepeatOffsets) (lastFrameBlock : Bool) (attempts : List (Attempt E))
        (blocks : List OutBlock) (answer : Option (RepeatOffsets × E)), attempts.length = points.length - 1 →
        encodeSplitSubblocks chunk plan points litOffsets reps entropy lastFrameBlock attempts = .ok (blocks, answer) →
        List.Forall₂ (OutBlock.Takes plan chunk) blocks (literals.zip bytes) := by
  intro points litOffsets literals bytes
  have hfirst : points.head? = some 0 := (findPostSequenceSplits cost _ _).first
  have hlast : points.getLast? = some plan.sequences.length := (findPostSequenceSplits cost _ _).last
  have hincreasing : points.Pairwise (· < ·) := (findPostSequenceSplits cost _ _).increasing
  obtain ⟨hliterals, hbytes⟩ := hcovers.tile (findPostSequenceSplits cost _ hpos) hpos
  refine ⟨hfirst, hlast, hincreasing, hliterals, hbytes, hliterals.flatten _, hbytes.flatten _, ?_⟩
  intro E entropy reps lastFrameBlock attempts blocks answer hlen h
  obtain ⟨s, hs, h⟩ := bind_ok h
  cases h
  obtain ⟨blocks, hout, htakes⟩ := splitLoop_takes hlen hs
  rw [List.nil_append] at hout
  rw [hout]
  exact htakes

/-- Three hundred sequences, which cost less in halves. -/
def halvesPlan : SequencePlan :=
  { literals := List.replicate 301 0, sequences := List.replicate 300 ⟨1, 3, 4⟩, literalCodes := List.replicate 300 1
    offsetCodes := List.replicate 300 2, matchCodes := List.replicate 300 0, repeatOffsets := ⟨1, 1, 1⟩ }

def halvesCost (start stop : Nat) : Nat := (stop - start) ^ 2

theorem halvesCost_splits : deriveSplitsRecursive halvesCost [] 0 300 = [150] := by
  have hshort : ∀ splits a b, b - a < postSplitMinSequences → deriveSplitsRecursive halvesCost splits a b = splits := by
    intro splits a b h
    rw [deriveSplitsRecursive, if_pos (.inl h)]
  rw [deriveSplitsRecursive, if_neg (by decide)]
  simp only
  rw [if_pos (by decide), hshort [] 0 _ (by decide), hshort _ _ _ (by decide)]
  rfl

set_option maxRecDepth 4000 in
/-- The halves of a block, the first compressed and the second raw. -/
theorem post_splits_partition_halves :
    (findPostSequenceSplits halvesCost halvesPlan.sequences.length (by decide +kernel)).points = [0, 150, 300] ∧
      ∃ blocks answer, encodeSplitSubblocks (List.replicate 1201 0) halvesPlan [0, 150, 300]
          (buildLiteralOffsetTable halvesPlan.sequences) ⟨1, 4, 8⟩ () true [some ([], ()), none] =
            .ok (blocks, answer) ∧
        List.Forall₂ (OutBlock.Takes halvesPlan (List.replicate 1201 0)) blocks
          [((0, 150), (0, 600)), ((150, 301), (600, 1201))] := by
  have hcovers : PlanCovers halvesPlan (List.replicate 1201 (0 : UInt8)).length :=
    ⟨by decide +kernel, by decide +kernel⟩
  have hpos : 0 < halvesPlan.sequences.length := by decide +kernel
  have hpoints : (findPostSequenceSplits halvesCost halvesPlan.sequences.length hpos).points = [0, 150, 300] := by
    show 0 :: ((deriveSplitsRecursive halvesCost [] 0 300).mergeSort ++ [300]) = [0, 150, 300]
    rw [halvesCost_splits, List.mergeSort_singleton]
    rfl
  refine ⟨hpoints, ?_⟩
  obtain ⟨-, -, -, -, -, -, -, htakes⟩ := post_splits_partition halvesCost hpos hcovers
  rw [hpoints] at htakes
  have hok : (encodeSplitSubblocks (List.replicate 1201 0) halvesPlan [0, 150, 300]
      (buildLiteralOffsetTable halvesPlan.sequences) ⟨1, 4, 8⟩ () true [some ([], ()), none]).isOk = true := by
    decide +kernel
  cases hrun : encodeSplitSubblocks (List.replicate 1201 0) halvesPlan [0, 150, 300]
      (buildLiteralOffsetTable halvesPlan.sequences) ⟨1, 4, 8⟩ () true [some ([], ()), none] with
  | error e =>
    rw [hrun] at hok
    cases hok
  | ok result =>
    obtain ⟨blocks, answer⟩ := result
    have hranges : (literalRanges halvesPlan (buildLiteralOffsetTable halvesPlan.sequences) [0, 150, 300]).zip
        (byteRanges halvesPlan (buildLiteralOffsetTable halvesPlan.sequences) [0, 150, 300] 0) =
        [((0, 150), (0, 600)), ((150, 301), (600, 1201))] := by decide +kernel
    rw [← hranges]
    exact ⟨blocks, answer, rfl, htakes Unit () ⟨1, 4, 8⟩ true [some ([], ()), none] blocks answer rfl hrun⟩

end Zstandard
