/-
Laying long-distance matches down: each becomes a sequence of the block's plan, and the inner parser plans
the gaps between them.

A gap is planned on its own, so its literals behind its last sequence are what the next long-distance match
has in front of it, and its repeat offsets are where the next gap starts from. What the parser promises of a
gap, a plan that stands for its bytes and repeat offsets that the decoder has too, holds of the block.
-/
import Zstandard.Encode.Candidates
import Zstandard.Encode.Floors
import Zstandard.Encode.Subblocks

namespace Zstandard

open RepeatOffsets

/-! ## Codes of lengths -/

def literalLengthCodeTable : List Nat :=
  [0, 1, 2, 3, 4, 5, 6, 7, 8, 9, 10, 11, 12, 13, 14, 15, 16, 16, 17, 17, 18, 18, 19, 19, 20, 20, 20, 20, 21, 21, 21,
    21] ++ List.replicate 8 22 ++ List.replicate 8 23 ++ List.replicate 16 24

def matchLengthCodeTable : List Nat :=
  List.range 32 ++ [32, 32, 33, 33, 34, 34, 35, 35] ++ List.replicate 4 36 ++ List.replicate 4 37 ++
    List.replicate 8 38 ++ List.replicate 8 39 ++ List.replicate 16 40 ++ List.replicate 16 41 ++ List.replicate 32 42

def literalLengthCodeUnchecked (literalLength : Nat) : Nat :=
  if literalLength ≤ 63 then literalLengthCodeTable.getD literalLength 0 else highbit32 literalLength + 19

def matchLengthCodeUnchecked (matchLength : Nat) : Nat :=
  let mlBase := matchLength - 3
  if mlBase ≤ 127 then matchLengthCodeTable.getD mlBase 0 else highbit32 mlBase + 36

/-! ## Growing a plan -/

/-- `push_stored_sequence`: the sequence and its codes. -/
def SequencePlan.pushStoredSequence (plan : SequencePlan) (sequence : SequenceCommand) : SequencePlan :=
  { plan with
    literalCodes := plan.literalCodes ++ [literalLengthCodeUnchecked sequence.literalLength]
    offsetCodes := plan.offsetCodes ++ [offsetCodeUnchecked sequence.offsetValue]
    matchCodes := plan.matchCodes ++ [matchLengthCodeUnchecked sequence.matchLength]
    sequences := plan.sequences ++ [sequence] }

/-- `update_explicit_offset`: the offset value, of 32 bits, and the repeat offsets after it. -/
def RepeatOffsets.updateExplicitOffset (r : RepeatOffsets) (rawOffset : Nat) : Nat × RepeatOffsets :=
  ((rawOffset + 3) % 2 ^ 32, ⟨rawOffset, r.rep1, r.rep2⟩)

/-- `append_segment_plan`: the plan, and how many of the literals the sequences of the segment claim. -/
def appendSegmentPlan (plan segment : SequencePlan) : SequencePlan × Nat :=
  ({ literals := plan.literals ++ segment.literals
     sequences := plan.sequences ++ segment.sequences
     literalCodes := plan.literalCodes ++ segment.literalCodes
     offsetCodes := plan.offsetCodes ++ segment.offsetCodes
     matchCodes := plan.matchCodes ++ segment.matchCodes
     repeatOffsets := segment.repeatOffsets },
    literalBytes segment.sequences)

/-! ## Laying down -/

/-- The inner parser with its match state: where a search may start again, the fast tables, and the plan of a
segment of the source from a position to the end of the slice it is given. -/
structure SegmentParser (F S : Type) where
  limitUpdateAfterLongMatch : S → Nat → S
  limitUpdateAfterLdmMatch : S → Nat → S
  fillFastTables : S → Bytes → Nat → S
  planSegment : F → S → Bytes → Nat → RepeatOffsets → Result (SequencePlan × S)
  insertBlockTail : S → Bytes → Nat → Nat → S

/-- The locals of the loop. -/
structure Laying (S : Type) where
  plan : SequencePlan
  literalsClaimed : Nat
  position : Nat
  state : S

section
variable {F S : Type}

/-- The gap up to `stop`: a slice that the source is too short for ends the program. -/
def planGap (parser : SegmentParser F S) (floors : F) (src : Bytes) (stop : Nat) (s : Laying S) :
    Result (Laying S) := do
  let state := parser.limitUpdateAfterLdmMatch s.state s.position
  let state := parser.fillFastTables state src s.position
  if stop > src.length then .error .generic else
  let (segment, state) ← parser.planSegment floors state (src.take stop) s.position s.plan.repeatOffsets
  let (plan, claimed) := appendSegmentPlan s.plan segment
  .ok { plan, literalsClaimed := s.literalsClaimed + claimed, position := stop, state }

/-- A long-distance match behind its gap: every literal that is not claimed is in front of it. -/
def layMatch (raw : Ldm.RawSequence) (s : Laying S) : Laying S :=
  let (offBase, repeatOffsets) := s.plan.repeatOffsets.updateExplicitOffset raw.offset
  let trailingLiterals := s.plan.literals.length - s.literalsClaimed
  let plan := ({ s.plan with repeatOffsets } : SequencePlan).pushStoredSequence
    { literalLength := trailingLiterals, offsetValue := offBase, matchLength := raw.matchLength }
  { s with plan, literalsClaimed := plan.literals.length, position := s.position + raw.matchLength }

def layDownLoop (parser : SegmentParser F S) (floors : F) (src : Bytes) :
    List Ldm.RawSequence → Laying S → Result (SequencePlan × S)
  | [], s => do
    let s ← planGap parser floors src src.length s
    .ok (s.plan, s.state)
  | raw :: rest, s => do
    let s ← planGap parser floors src (s.position + raw.literalLength) s
    layDownLoop parser floors src rest (layMatch raw s)

/-- The plan that `reset_for_block` leaves. -/
def SequencePlan.reset (repeatOffsets : RepeatOffsets) : SequencePlan :=
  { literals := [], sequences := [], literalCodes := [], offsetCodes := [], matchCodes := [], repeatOffsets }

/-- `lay_down_long_distance_matches_into`: the floor of the repeat offsets is that of the whole block. -/
def layDownLongDistanceMatchesInto (parser : SegmentParser Nat S) (src : Bytes) (blockStart : Nat)
    (repeatOffsets : RepeatOffsets) (maxHistoryBytes : Nat) (state : S) (sequences : List Ldm.RawSequence) :
    Result (SequencePlan × S) :=
  layDownLoop parser (blockStart - maxHistoryBytes) src sequences {
    plan := .reset repeatOffsets, literalsClaimed := 0, position := blockStart
    state := parser.limitUpdateAfterLongMatch state blockStart }

/-- `lay_down_long_distance_matches_prefixed_into`: the floors are those of the whole block, and its tail is
inserted at the end. -/
def layDownLongDistanceMatchesPrefixedInto (parser : SegmentParser PrefixedBlockFloors S)
    (prefixLen : Nat) (src : Bytes)
    (blockStart : Nat) (repeatOffsets : RepeatOffsets) (maxHistoryBytes prefixLowLimit : Nat) (state : S)
    (sequences : List Ldm.RawSequence) : Result (SequencePlan × S) := do
  let state := parser.limitUpdateAfterLongMatch state blockStart
  let floors := prefixedBlockFloors prefixLen blockStart src.length maxHistoryBytes prefixLowLimit
  let (plan, state) ← layDownLoop parser floors src sequences {
    plan := .reset repeatOffsets, literalsClaimed := 0, position := blockStart, state }
  .ok (plan, parser.insertBlockTail state src blockStart src.length)

end

/-! ## What a plan stands for -/

/-- The repeat offsets a parser may use again are the decoder's: the first two for the fast pair, all three
for the others. Zero is no offset. -/
def Carries (fastPair : Bool) (r : RepeatOffsets) (d : DecoderRepeatOffsets) : Prop :=
  (r.rep1 = 0 ∨ r.rep1 = d.rep1) ∧ (r.rep2 = 0 ∨ r.rep2 = d.rep2) ∧ (fastPair = false → r.rep3 = 0 ∨ r.rep3 = d.rep3)

/-- A plan that stands for `chunk` behind `history`: its offset values mean `offsets` to a decoder, whose
repeat offsets are `final` then. -/
structure PlanFor (fastPair : Bool) (plan : SequencePlan) (history chunk : Bytes) (reps : DecoderRepeatOffsets)
    (offsets : List Nat) (final : DecoderRepeatOffsets) : Prop where
  resolves : reps.toRepeatOffsets.resolveAll plan.sequences = .ok (offsets, final.toRepeatOffsets)
  reproduces : executePlan history plan.literals (plan.sequences.zip offsets) = .ok (history ++ chunk)
  literalCodes : plan.literalCodes = plan.sequences.map fun seq => literalLengthCodeUnchecked seq.literalLength
  offsetCodes : plan.offsetCodes = plan.sequences.map fun seq => offsetCodeUnchecked seq.offsetValue
  matchCodes : plan.matchCodes = plan.sequences.map fun seq => matchLengthCodeUnchecked seq.matchLength
  kept : Carries fastPair plan.repeatOffsets final

section
variable {fastPair : Bool} {plan segment : SequencePlan} {history chunk more : Bytes}
  {reps final final' : DecoderRepeatOffsets} {offsets offsets' : List Nat}

theorem PlanFor.valid (h : PlanFor fastPair plan history chunk reps offsets final) :
    ValidPlan plan history chunk reps offsets :=
  ⟨⟨_, h.resolves⟩, h.reproduces, h.offsetCodes⟩

theorem PlanFor.zip_fst (h : PlanFor fastPair plan history chunk reps offsets final) :
    (plan.sequences.zip offsets).map Prod.fst = plan.sequences :=
  List.map_fst_zip (le_of_eq (resolveAll_length h.resolves).symm)

/-- Every byte of the chunk is a literal or in one match. -/
theorem PlanFor.length_eq (h : PlanFor fastPair plan history chunk reps offsets final) :
    plan.literals.length + matchBytes plan.sequences = chunk.length := by
  obtain ⟨t, ht, hlen, -⟩ := executePlan_ok h.reproduces
  rw [h.zip_fst] at hlen
  rw [← hlen, ← List.append_cancel_left ht]

/-- A decoder finds the offsets and has the final repeat offsets. -/
theorem PlanFor.decodes (h : PlanFor fastPair plan history chunk reps offsets final) :
    reps.decodeOffsets plan.sequences = (offsets, final) := by
  obtain ⟨hoffsets, hfinal⟩ := DecoderRepeatOffsets.decodeOffsets_eq h.resolves
  refine Prod.ext hoffsets ?_
  generalize (reps.decodeOffsets plan.sequences).2 = d at hfinal
  cases d
  cases final
  simpa using hfinal

/-- A plan whose literals are all claimed, and the plan of the segment behind it. -/
theorem PlanFor.append (h : PlanFor fastPair plan history chunk reps offsets final)
    (hclaimed : literalBytes plan.sequences = plan.literals.length)
    (hs : PlanFor fastPair segment (history ++ chunk) more final offsets' final') :
    PlanFor fastPair (appendSegmentPlan plan segment).1 history (chunk ++ more) reps (offsets ++ offsets') final' := by
  unfold appendSegmentPlan
  constructor
  · simp only
    rw [resolveAll_append, h.resolves, ok_bind]
    simp only
    rw [hs.resolves]
    rfl
  · simp only
    rw [List.zip_append (resolveAll_length h.resolves).symm, executePlan_append (by rw [h.zip_fst, hclaimed]),
      h.reproduces, ← List.append_assoc]
    exact hs.reproduces
  · simp only
    rw [h.literalCodes, hs.literalCodes, List.map_append]
  · simp only
    rw [h.offsetCodes, hs.offsetCodes, List.map_append]
  · simp only
    rw [h.matchCodes, hs.matchCodes, List.map_append]
  · exact hs.kept

/-- The literals that no sequence claims may become those in front of one more match. -/
theorem executePlan_snoc {seqs : List (SequenceCommand × Nat)} {literals out : Bytes} {seq : SequenceCommand}
    {offset : Nat} (h : executePlan history literals seqs = .ok out)
    (hall : literalBytes (seqs.map Prod.fst) + seq.literalLength = literals.length)
    (hpos : 0 < offset) (hle : offset ≤ out.length) :
    executePlan history literals (seqs ++ [(seq, offset)]) = .ok (Lz.copy out offset seq.matchLength) := by
  have hsplit := List.take_append_drop (literalBytes (seqs.map Prod.fst)) literals
  generalize hla : literals.take (literalBytes (seqs.map Prod.fst)) = la at hsplit
  generalize hlb : literals.drop (literalBytes (seqs.map Prod.fst)) = lb at hsplit
  have hlen : literalBytes (seqs.map Prod.fst) = la.length := by
    rw [← hla, List.length_take]
    omega
  have hrest : lb.length = seq.literalLength := by
    rw [← hlb, List.length_drop]
    omega
  have hcut : executePlan history literals seqs = (executePlan history la seqs).bind (executePlan · lb []) := by
    rw [← executePlan_append hlen, hsplit, List.append_nil]
  rw [hcut] at h
  obtain ⟨mid, hmid, hout⟩ := bind_ok h
  cases hout
  rw [← hsplit, executePlan_append hlen, hmid]
  have htake : lb.take seq.literalLength = lb := List.take_of_length_le hrest.le
  show executePlan mid lb [(seq, offset)] = _
  simp only [executePlan, htake]
  rw [if_neg (by omega), if_neg (by omega), List.drop_of_length_le hrest.le, List.append_nil]

/-- A long-distance match behind a plan, with the literals that are left in front of it. -/
theorem PlanFor.push {offset matchLength : Nat} (h : PlanFor fastPair plan history chunk reps offsets final)
    (hclaimed : literalBytes plan.sequences ≤ plan.literals.length) (hpos : 0 < offset)
    (hle : offset ≤ (history ++ chunk).length)
    (hcopy : Lz.copy (history ++ chunk) offset matchLength = history ++ (chunk ++ more)) :
    PlanFor fastPair (({ plan with repeatOffsets := (plan.repeatOffsets.updateExplicitOffset offset).2 } :
      SequencePlan).pushStoredSequence { literalLength := plan.literals.length - literalBytes plan.sequences
                                         offsetValue := offset + 3, matchLength })
      history (chunk ++ more) reps (offsets ++ [offset]) (final.push offset hpos) := by
  unfold SequencePlan.pushStoredSequence
  have hresolve : final.toRepeatOffsets.resolveValues (plan.literals.length - literalBytes plan.sequences)
    (offset + 3) =
      .ok (offset, (final.push offset hpos).toRepeatOffsets) := by
    unfold resolveValues
    rw [if_pos (by omega)]
    rfl
  constructor
  · simp only
    rw [resolveAll_append, h.resolves, ok_bind]
    simp only [resolveAll]
    rw [hresolve]
    rfl
  · simp only
    rw [List.zip_append (resolveAll_length h.resolves).symm, ← hcopy]
    exact executePlan_snoc h.reproduces (by rw [h.zip_fst]; simp only; omega) hpos hle
  · simp only
    rw [h.literalCodes, List.map_append, List.map_singleton]
  · simp only
    rw [h.offsetCodes, List.map_append, List.map_singleton]
  · simp only
    rw [h.matchCodes, List.map_append, List.map_singleton]
  · obtain ⟨h1, h2, -⟩ := h.kept
    exact ⟨.inr rfl, h1, fun _ => h2⟩

end

/-! ## Real matches -/

/-- The matches from a position of `data` on are real: each copies what lies its offset before it, and its offset value
fits 32 bits. -/
def Ldm.RealFrom (data : Bytes) : Nat → List Ldm.RawSequence → Prop
  | _, [] => True
  | position, raw :: rest =>
    let start := position + raw.literalLength
    let stop := start + raw.matchLength
    0 < raw.offset ∧ raw.offset ≤ start ∧ raw.offset + 3 < 2 ^ 32 ∧ stop ≤ data.length ∧
      Lz.copy (data.take start) raw.offset raw.matchLength = data.take stop ∧ RealFrom data stop rest

/-- What the parser promises of the gaps of a block: from repeat offsets that the decoder has, a plan for the
gap. `Inv` is what its match state has to keep for that. -/
structure SegmentParser.PlansGaps {F S : Type} (parser : SegmentParser F S) (floors : F) (fastPair : Bool)
    (before src : Bytes) (blockStart : Nat) (Inv : S → Prop) : Prop where
  afterLongMatch : ∀ {state}, Inv state → Inv (parser.limitUpdateAfterLongMatch state blockStart)
  ready : ∀ {state position}, Inv state →
    Inv (parser.fillFastTables (parser.limitUpdateAfterLdmMatch state position) src position)
  gap : ∀ {state position stop r d}, Inv state → blockStart ≤ position → position ≤ stop → stop ≤ src.length →
    Carries fastPair r d → ∃ plan state' offsets final, Inv state' ∧
      parser.planSegment floors state (src.take stop) position r = .ok (plan, state') ∧
      PlanFor fastPair plan (before ++ src.take position) ((src.take stop).drop position) d offsets final

/-- The offsets of a block: those found in the gaps, and between them those of the matches laid down. -/
inductive Composed (fastPair : Bool) (before src : Bytes) :
    Nat → DecoderRepeatOffsets → List Ldm.RawSequence → List Nat → DecoderRepeatOffsets → Prop
  | last {position : Nat} {plan : SequencePlan} {d final : DecoderRepeatOffsets} {offsets : List Nat} :
    PlanFor fastPair plan (before ++ src.take position) (src.drop position) d offsets final →
    Composed fastPair before src position d [] offsets final
  | next {position : Nat} {raw : Ldm.RawSequence} {rest : List Ldm.RawSequence} {plan : SequencePlan}
    {d mid final : DecoderRepeatOffsets} {offsets offsets' : List Nat} (hpos : 0 < raw.offset) :
    PlanFor fastPair plan (before ++ src.take position) ((src.take (position + raw.literalLength)).drop position) d
      offsets mid →
    Composed fastPair before src (position + raw.span) (mid.push raw.offset hpos) rest offsets' final →
    Composed fastPair before src position d (raw :: rest) (offsets ++ raw.offset :: offsets') final

/-! ## The loop -/

theorem take_drop_append {α : Type} (l : List α) {a b c : Nat} (hab : a ≤ b) (hbc : b ≤ c) :
    (l.take b).drop a ++ (l.take c).drop b = (l.take c).drop a := by
  have h := List.take_append_drop (b - a) ((l.take c).drop a)
  rwa [List.drop_drop, Nat.add_sub_cancel' hab, List.take_drop, Nat.add_sub_cancel' hab, List.take_take,
    Nat.min_eq_left hbc] at h

section
variable {F S : Type} {parser : SegmentParser F S} {floors : F} {fastPair : Bool} {before src : Bytes}
  {blockStart : Nat}
  {Inv : S → Prop} {reps d : DecoderRepeatOffsets} {offsets : List Nat} {s : Laying S}

/-- Between two gaps: the plan stands for the block up to the position, and every literal is claimed. -/
structure Laying.Laid (fastPair : Bool) (before src : Bytes) (blockStart : Nat) (Inv : S → Prop)
    (reps : DecoderRepeatOffsets) (s : Laying S) (offsets : List Nat) (d : DecoderRepeatOffsets) : Prop where
  range : blockStart ≤ s.position ∧ s.position ≤ src.length
  state : Inv s.state
  claimed : s.literalsClaimed = literalBytes s.plan.sequences
  literals : literalBytes s.plan.sequences = s.plan.literals.length
  plan : PlanFor fastPair s.plan (before ++ src.take blockStart) ((src.take s.position).drop blockStart) reps offsets d

theorem take_append_drop_take (src : Bytes) {a b : Nat} (h : a ≤ b) :
    src.take a ++ (src.take b).drop a = src.take b := by
  have := take_drop_append src (Nat.zero_le a) h
  simpa only [List.drop_zero] using this

/-- A gap: its plan goes behind what there is, and its last literals are left over. -/
theorem Laying.Laid.gap (h : s.Laid fastPair before src blockStart Inv reps offsets d)
    (hparser : parser.PlansGaps floors fastPair before src blockStart Inv) {stop : Nat} (hle : s.position ≤ stop)
    (hstop : stop ≤ src.length) : ∃ segment offsets' mid s', planGap parser floors src stop s = .ok s' ∧
      PlanFor fastPair segment (before ++ src.take s.position) ((src.take stop).drop s.position) d offsets' mid ∧
      s'.position = stop ∧ Inv s'.state ∧ s'.literalsClaimed = literalBytes s'.plan.sequences ∧
      PlanFor fastPair s'.plan (before ++ src.take blockStart) ((src.take stop).drop blockStart) reps
        (offsets ++ offsets') mid := by
  obtain ⟨hstart, -⟩ := h.range
  obtain ⟨segment, state, offsets', mid, hinv, hsegment, hplan⟩ :=
    hparser.gap (hparser.ready h.state) hstart hle hstop h.plan.kept
  refine ⟨segment, offsets', mid, { plan := (appendSegmentPlan s.plan segment).1, position := stop, state
                                    literalsClaimed := s.literalsClaimed + literalBytes segment.sequences },
    ?_, hplan, rfl, hinv, ?_, ?_⟩
  · unfold planGap
    rw [if_neg (not_lt.2 hstop), hsegment]
    rfl
  · rw [h.claimed]
    exact (literalBytes_append _ _).symm
  · have hwhere : before ++ src.take s.position =
        before ++ src.take blockStart ++ (src.take s.position).drop blockStart := by
      rw [List.append_assoc, take_append_drop_take src hstart]
    rw [hwhere] at hplan
    have happend := h.plan.append h.literals hplan
    rwa [take_drop_append src hstart hle] at happend

/-- A match behind its gap: all literals are claimed again. -/
theorem layMatch_laid {raw : Ldm.RawSequence} (hrange : blockStart ≤ s.position) (hinv : Inv s.state)
    (hclaimed : s.literalsClaimed = literalBytes s.plan.sequences)
    (hplan : PlanFor fastPair s.plan (before ++ src.take blockStart)
    ((src.take s.position).drop blockStart) reps offsets d)
    (hpos : 0 < raw.offset) (hle : raw.offset ≤ before.length + s.position) (hsmall : raw.offset + 3 < 2 ^ 32)
    (hend : s.position + raw.matchLength ≤ src.length)
    (hcopy : Lz.copy (before ++ src.take s.position) raw.offset raw.matchLength =
      before ++ src.take (s.position + raw.matchLength)) :
    (layMatch raw s).Laid fastPair before src blockStart Inv reps (offsets ++ [raw.offset])
    (d.push raw.offset hpos) := by
  have hbytes := (executePlan_ok hplan.reproduces).choose_spec.2.2
  rw [hplan.zip_fst] at hbytes
  have hwhere : before ++ src.take blockStart ++ (src.take s.position).drop blockStart =
      before ++ src.take s.position := by
    rw [List.append_assoc, take_append_drop_take src hrange]
  have hpush := @PlanFor.push fastPair s.plan _ _ ((src.take (s.position + raw.matchLength)).drop s.position) _ _ _
    raw.offset raw.matchLength hplan hbytes hpos
    (by rw [hwhere, List.length_append, List.length_take]; omega)
    (by rw [hwhere, hcopy, take_drop_append src hrange (Nat.le_add_right _ _), List.append_assoc,
      take_append_drop_take src (le_trans hrange (Nat.le_add_right _ _))])
  rw [take_drop_append src hrange (Nat.le_add_right _ _)] at hpush
  unfold layMatch RepeatOffsets.updateExplicitOffset
  rw [Nat.mod_eq_of_lt hsmall]
  constructor
  · exact ⟨le_trans hrange (Nat.le_add_right _ _), hend⟩
  · exact hinv
  · simp only [SequencePlan.pushStoredSequence, literalBytes_append]
    simp only [literalBytes, List.map_cons, List.map_nil, List.sum_cons, List.sum_nil] at hbytes hclaimed ⊢
    omega
  · simp only [SequencePlan.pushStoredSequence, literalBytes_append]
    simp only [literalBytes, List.map_cons, List.map_nil, List.sum_cons, List.sum_nil] at hbytes hclaimed ⊢
    omega
  · rw [hclaimed]
    exact hpush

/-- The run over the matches: the plan stands for the whole block. -/
theorem layDownLoop_composed (hparser : parser.PlansGaps floors fastPair before src blockStart Inv) :
    ∀ {sequences : List Ldm.RawSequence} {s : Laying S} {offsets : List Nat} {d : DecoderRepeatOffsets},
      s.Laid fastPair before src blockStart Inv reps offsets d →
      Ldm.RealFrom (before ++ src) (before.length + s.position) sequences →
      ∃ plan state offsets' final, layDownLoop parser floors src sequences s = .ok (plan, state) ∧ Inv state ∧
        PlanFor fastPair plan (before ++ src.take blockStart) (src.drop blockStart) reps (offsets ++ offsets') final ∧
        Composed fastPair before src s.position d sequences offsets' final
  | [], s, offsets, d, h, _ => by
    obtain ⟨segment, offsets', final, s', hgap, hsegment, -, hinv, -, hplan⟩ :=
      h.gap hparser h.range.2 (le_refl _)
    rw [List.take_length] at hsegment hplan
    refine ⟨s'.plan, s'.state, offsets', final, ?_, hinv, hplan, .last hsegment⟩
    unfold layDownLoop
    rw [hgap]
    rfl
  | raw :: rest, s, offsets, d, h, hreal => by
    obtain ⟨hpos, hle, hsmall, hend, hcopy, hrest⟩ := hreal
    rw [List.length_append] at hend
    rw [Nat.add_assoc before.length, List.take_length_add_append, Nat.add_assoc before.length,
      List.take_length_add_append] at hcopy
    obtain ⟨segment, offsets', mid, s', hgap, hsegment, hposition, hinv, hclaimed, hplan⟩ :=
      h.gap hparser (Nat.le_add_right s.position raw.literalLength) (by omega)
    have hrange : blockStart ≤ s'.position := by
      have := h.range.1
      omega
    rw [← hposition] at hcopy hplan
    have hlaid := layMatch_laid hrange hinv hclaimed hplan hpos (by omega) hsmall (by omega) hcopy
    have hnext : (layMatch raw s').position = s.position + raw.span := by
      show s'.position + raw.matchLength = _
      rw [hposition, Nat.add_assoc]
      rfl
    have hbehind : before.length + s.position + raw.literalLength + raw.matchLength =
        before.length + (s.position + raw.span) := by
      unfold Ldm.RawSequence.span
      omega
    rw [hbehind] at hrest
    obtain ⟨plan, state, offsets'', final, hloop, hstate, hfinal, hcomposed⟩ :=
      layDownLoop_composed hparser hlaid (by rw [hnext]; exact hrest)
    rw [hnext] at hcomposed
    refine ⟨plan, state, offsets' ++ raw.offset :: offsets'', final, ?_, hstate, ?_, .next hpos hsegment hcomposed⟩
    · unfold layDownLoop
      rw [hgap, ok_bind, hloop]
    · rw [List.append_assoc, List.append_assoc] at hfinal
      exact hfinal

theorem layDown_start (hstart : blockStart ≤ src.length) {r : RepeatOffsets}
    (hkept : Carries fastPair r reps) {state : S}
    (hinv : Inv state) : Laying.Laid fastPair before src blockStart Inv reps
      { plan := .reset r, literalsClaimed := 0, position := blockStart, state } [] reps := by
  constructor
  · exact ⟨le_refl _, hstart⟩
  · exact hinv
  · rfl
  · rfl
  · refine ⟨rfl, ?_, rfl, rfl, rfl, hkept⟩
    simp only
    rw [List.drop_take_self]
    rfl

end

/-- The result is a plan for the block. Its offset values mean to a decoder the offsets of the gaps and of the
matches laid down, every byte of the block is a literal or in one match, and the repeat offsets returned are
ones the decoder has. -/
def LaysDown {S : Type} (fastPair : Bool) (before src : Bytes) (blockStart : Nat) (reps : DecoderRepeatOffsets)
    (sequences : List Ldm.RawSequence) (result : Result (SequencePlan × S)) : Prop :=
  ∃ plan state offsets final, result = .ok (plan, state) ∧
    PlanFor fastPair plan (before ++ src.take blockStart) (src.drop blockStart) reps offsets final ∧
    reps.decodeOffsets plan.sequences = (offsets, final) ∧
    plan.literals.length + matchBytes plan.sequences = (src.drop blockStart).length ∧
    Composed fastPair before src blockStart reps sequences offsets final

/-- Over parsers that plan the gaps of a block, and matches of the block that are real, both ways of laying down
return a plan for the block. -/
theorem layDown_composed {S : Type} {fastPair : Bool} {src : Bytes} {blockStart : Nat} {Inv : S → Prop}
    {reps : DecoderRepeatOffsets} {r : RepeatOffsets} {state : S} {sequences : List Ldm.RawSequence}
    (maxHistoryBytes : Nat) (hstart : blockStart ≤ src.length) (hkept : Carries fastPair r reps) (hinv : Inv state) :
    (∀ parser : SegmentParser Nat S,
      parser.PlansGaps (blockStart - maxHistoryBytes) fastPair [] src blockStart Inv →
      Ldm.RealFrom src blockStart sequences →
      LaysDown fastPair [] src blockStart reps sequences
        (layDownLongDistanceMatchesInto parser src blockStart r maxHistoryBytes state sequences)) ∧
    ∀ (parser : SegmentParser PrefixedBlockFloors S) (pre : Bytes) (prefixLowLimit : Nat),
      parser.PlansGaps (prefixedBlockFloors pre.length blockStart src.length maxHistoryBytes
        prefixLowLimit) fastPair pre
        src blockStart Inv →
      Ldm.RealFrom (pre ++ src) (pre.length + blockStart) sequences →
      LaysDown fastPair pre src blockStart reps sequences
        (layDownLongDistanceMatchesPrefixedInto parser pre.length src blockStart r maxHistoryBytes prefixLowLimit state
          sequences) := by
  constructor
  · intro parser hparser hreal
    obtain ⟨plan, state', offsets, final, hloop, -, hplan, hcomposed⟩ :=
      layDownLoop_composed hparser (layDown_start hstart hkept (hparser.afterLongMatch hinv)) (by simpa using hreal)
    exact ⟨plan, state', offsets, final, hloop, hplan, hplan.decodes, hplan.length_eq, hcomposed⟩
  · intro parser pre prefixLowLimit hparser hreal
    obtain ⟨plan, state', offsets, final, hloop, -, hplan, hcomposed⟩ :=
      layDownLoop_composed hparser (layDown_start hstart hkept (hparser.afterLongMatch hinv)) hreal
    refine ⟨plan, parser.insertBlockTail state' src blockStart src.length, offsets, final, ?_, hplan, hplan.decodes,
      hplan.length_eq, hcomposed⟩
    unfold layDownLongDistanceMatchesPrefixedInto
    simp only
    rw [hloop]
    rfl

/-- The plan of a segment: where it is one byte again and again, that byte and one match behind it, and otherwise its
literals. The repeat offsets go through `update_explicit_offset`. -/
def runPlan (r : RepeatOffsets) (segment : Bytes) : SequencePlan :=
  match segment with
  | [] => .reset r
  | b :: rest =>
    if 3 ≤ rest.length ∧ rest = List.replicate rest.length b then
      ({ SequencePlan.reset r with literals := [b], repeatOffsets := (r.updateExplicitOffset 1).2 } :
        SequencePlan).pushStoredSequence
        { literalLength := 1, offsetValue := (r.updateExplicitOffset 1).1, matchLength := rest.length }
    else { SequencePlan.reset r with literals := segment }

theorem runPlan_planFor {fastPair : Bool} {history : Bytes} {r : RepeatOffsets} {d : DecoderRepeatOffsets}
    (hkept : Carries fastPair r d) (segment : Bytes) :
    ∃ offsets final, PlanFor fastPair (runPlan r segment) history segment d offsets final := by
  have hliterals : ∀ literals, PlanFor fastPair { SequencePlan.reset r with literals } history literals d [] d :=
    fun literals => ⟨rfl, rfl, rfl, rfl, rfl, hkept⟩
  unfold runPlan
  cases segment with
  | nil => exact ⟨[], d, hliterals []⟩
  | cons b rest =>
    dsimp only
    split_ifs with hrun
    · have hcopy : Lz.copy (history ++ [b]) 1 rest.length = history ++ ([b] ++ rest) := by
        rw [Lz.copy_run, List.replicate_succ, ← hrun.2]
        rfl
      have hplan := (hliterals [b]).push (Nat.zero_le _) Nat.one_pos
        (by rw [List.length_append, List.length_singleton]; omega) hcopy
      exact ⟨_, _, hplan⟩
    · exact ⟨[], d, hliterals (b :: rest)⟩

/-- A parser that finds runs of one byte. -/
def runsParser (F : Type) : SegmentParser F Unit where
  limitUpdateAfterLongMatch _ _ := ()
  limitUpdateAfterLdmMatch _ _ := ()
  fillFastTables _ _ _ := ()
  planSegment _ _ src position r := .ok (runPlan r (src.drop position), ())
  insertBlockTail _ _ _ _ := ()

theorem runsParser_plansGaps {F : Type} (floors : F) (fastPair : Bool) (before src : Bytes) (blockStart : Nat) :
    (runsParser F).PlansGaps floors fastPair before src blockStart fun _ => True where
  afterLongMatch := id
  ready := id
  gap := by
    intro _ position stop r d _ _ _ _ hkept
    obtain ⟨offsets, final, hplan⟩ := runPlan_planFor hkept ((src.take stop).drop position)
    exact ⟨_, (), offsets, final, trivial, rfl, hplan⟩

/-- Two matches with a run of one byte between them, and the same with a first match that reaches a prefix. -/
theorem layDown_composed_small :
    LaysDown true [] [1, 2, 3, 1, 2, 3, 5, 5, 5, 5, 5, 1, 2, 3, 9] 0 .initial [⟨3, 3, 3⟩, ⟨5, 3, 8⟩]
      (layDownLongDistanceMatchesInto (runsParser Nat) [1, 2, 3, 1, 2, 3, 5, 5, 5, 5, 5, 1, 2, 3, 9] 0 .initial 64 ()
        [⟨3, 3, 3⟩, ⟨5, 3, 8⟩]) ∧
    LaysDown false [7, 8, 9] [7, 8, 9, 6, 6, 6, 6, 8, 9, 6, 5] 0 .initial [⟨0, 3, 3⟩, ⟨4, 3, 6⟩]
      (layDownLongDistanceMatchesPrefixedInto (runsParser PrefixedBlockFloors) 3 [7, 8, 9, 6, 6, 6, 6, 8, 9, 6, 5] 0
        .initial 64 0 () [⟨0, 3, 3⟩, ⟨4, 3, 6⟩]) := by
  constructor
  · refine (layDown_composed 64 (by decide) ?_ trivial).1 _ (runsParser_plansGaps _ _ _ _ _) ?_
    · exact ⟨.inr rfl, .inr rfl, fun h => by cases h⟩
    · exact ⟨by decide, by decide, by decide, by decide, by decide, by decide, by decide, by decide,
        by decide, by decide, trivial⟩
  · refine (layDown_composed 64 (by decide) ?_ trivial).2 _ [7, 8, 9] 0 (runsParser_plansGaps _ _ _ _ _) ?_
    · exact ⟨.inr rfl, .inr rfl, fun _ => .inr rfl⟩
    · exact ⟨by decide, by decide, by decide, by decide, by decide, by decide, by decide, by decide,
        by decide, by decide, trivial⟩

/-- The gap between the two matches has a sequence of its own. -/
example : (layDownLongDistanceMatchesInto (runsParser Nat) [1, 2, 3, 1, 2, 3, 5, 5, 5, 5, 5, 1, 2, 3,
  9] 0 .initial 64 () [⟨3, 3, 3⟩, ⟨5, 3, 8⟩]).map (·.1.sequences) = .ok [⟨3, 3, 6⟩, ⟨1, 4, 4⟩, ⟨0, 3, 11⟩] := by
  decide

end Zstandard
