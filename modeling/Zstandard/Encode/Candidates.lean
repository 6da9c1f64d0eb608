/-
Long-distance matches offered to the optimal parser.

The matches of a block are a list of literal and match lengths, so where one of them lies follows from the
lengths before it. The parser asks for positions in an order of its own; the cursor counts bytes, and it
stays with the block because the match on offer always ends where the cursor stands.
-/
import Mathlib.Order.Lattice
import Mathlib.Tactic

namespace Zstandard

namespace Ldm

/-! ## The matches of a block -/

/-- A match the matcher found, after the literals since the match before it. -/
structure RawSequence where
  literalLength : Nat
  matchLength : Nat
  offset : Nat
deriving DecidableEq, Repr

/-- The bytes a long-distance sequence covers. -/
def RawSequence.span (s : RawSequence) : Nat := s.literalLength + s.matchLength

/-- The bytes of the block that the first `k` matches cover with their literals. -/
def covered (sequences : List RawSequence) (k : Nat) : Nat := ((sequences.take k).map RawSequence.span).sum

theorem covered_succ {sequences : List RawSequence} {k : Nat} {s : RawSequence} (h : sequences[k]? = some s) :
    covered sequences (k + 1) = covered sequences k + s.span := by
  unfold covered
  rw [List.take_add_one, h, List.map_append, List.sum_append]
  rfl

/-- The match of `s` lies at the bytes of the block from `start` on, before `stop`. -/
def LiesAt (sequences : List RawSequence) (s : RawSequence) (start stop : Nat) : Prop :=
  ∃ k, sequences[k]? = some s ∧ start = covered sequences k + s.literalLength ∧ stop = covered sequences (k + 1)

/-! ## The cursor -/

/-- `RawSequenceCursor`: which match, and how far into it, its literals first. -/
structure RawSequenceCursor where
  sequences : List RawSequence
  index : Nat
  offsetInSequence : Nat
deriving DecidableEq, Repr

namespace RawSequenceCursor

def new (sequences : List RawSequence) : RawSequenceCursor := { sequences, index := 0, offsetInSequence := 0 }

/-- The sequence that the cursor is in. -/
def current (c : RawSequenceCursor) : Option RawSequence := c.sequences[c.index]?

/-- The loop of `skip_bytes` over the matches from `index` on: where the cursor lands. -/
def skipLoop : List RawSequence → Nat → Nat → Nat × Nat
  | [], index, _ => (index, 0)
  | sequence :: rest, index, remaining =>
    if remaining = 0 then (index, 0)
    else if remaining < sequence.span then (index, remaining)
    else skipLoop rest (index + 1) (remaining - sequence.span)

/-- `skip_bytes`. -/
def skipBytes (c : RawSequenceCursor) (bytes : Nat) : RawSequenceCursor :=
  let (index, offsetInSequence) := skipLoop (c.sequences.drop c.index) c.index (c.offsetInSequence + bytes)
  { c with index, offsetInSequence }

/-- The byte of the block that the cursor stands at. -/
def position (c : RawSequenceCursor) : Nat := covered c.sequences c.index + c.offsetInSequence

/-- The cursor is past the last match, or inside the one it is in. -/
structure Within (c : RawSequenceCursor) : Prop where
  index_le : c.index ≤ c.sequences.length
  offset_lt : ∀ s, c.current = some s → c.offsetInSequence = 0 ∨ c.offsetInSequence < s.span

theorem new_within (sequences : List RawSequence) : (new sequences).Within :=
  ⟨Nat.zero_le _, fun _ _ => .inl rfl⟩

theorem skipLoop_spec (sequences : List RawSequence) : ∀ {rest : List RawSequence} {index remaining : Nat},
    rest = sequences.drop index → index ≤ sequences.length →
    (RawSequenceCursor.mk sequences (skipLoop rest index remaining).1 (skipLoop rest index remaining).2).Within ∧
      ((skipLoop rest index remaining).1 < sequences.length →
        covered sequences (skipLoop rest index remaining).1 + (skipLoop rest index remaining).2 =
          covered sequences index + remaining)
  | [], index, remaining, hrest, hle => by
    have hend : sequences.length ≤ index := List.drop_eq_nil_iff.1 hrest.symm
    refine ⟨⟨hle, fun _ _ => .inl rfl⟩, fun hlt => ?_⟩
    rw [skipLoop] at hlt
    omega
  | s :: rest, index, remaining, hrest, hle => by
    have hget : sequences[index]? = some s := by
      rw [← List.head?_drop, ← hrest]
      rfl
    have hdrop : rest = sequences.drop (index + 1) := by
      rw [← List.tail_drop, ← hrest]
      rfl
    have hlt : index < sequences.length := (List.getElem?_eq_some_iff.1 hget).1
    unfold skipLoop
    by_cases h0 : remaining = 0
    · rw [if_pos h0, h0]
      exact ⟨⟨hle, fun _ _ => .inl rfl⟩, fun _ => rfl⟩
    · rw [if_neg h0]
      by_cases hin : remaining < s.span
      · rw [if_pos hin]
        refine ⟨⟨hle, fun t ht => .inr ?_⟩, fun _ => rfl⟩
        cases hget.symm.trans ht
        exact hin
      · rw [if_neg hin]
        obtain ⟨hwithin, hposition⟩ := @skipLoop_spec sequences rest (index + 1) (remaining - s.span) hdrop hlt
        refine ⟨hwithin, fun h => ?_⟩
        rw [hposition h, covered_succ hget]
        omega

variable {c : RawSequenceCursor}

@[simp] theorem skipBytes_sequences (c : RawSequenceCursor) (bytes : Nat) :
    (c.skipBytes bytes).sequences = c.sequences := rfl

/-- Skipping moves the cursor by that many bytes, unless that takes it past the last match. -/
theorem Within.skipBytes (h : c.Within) (bytes : Nat) :
    (c.skipBytes bytes).Within ∧
      ((c.skipBytes bytes).current ≠ none → (c.skipBytes bytes).position = c.position + bytes) := by
  obtain ⟨hwithin, hposition⟩ := @skipLoop_spec c.sequences _ c.index (c.offsetInSequence + bytes) rfl h.index_le
  refine ⟨hwithin, fun hcurrent => ?_⟩
  have hlt : (c.skipBytes bytes).index < c.sequences.length := by
    by_contra hge
    exact hcurrent (List.getElem?_eq_none_iff.2 (not_lt.1 hge))
  unfold position
  rw [skipBytes_sequences, Nat.add_assoc]
  exact hposition hlt

end RawSequenceCursor

/-! ## The candidates -/

/-- The positions of the dynamic programme. -/
def optNum : Nat := 4096

/-- `OptimalMatchCandidate`: an offset value and the longest length it is good for. -/
structure OptimalMatchCandidate where
  offsetValue : Nat
  length : Nat
deriving DecidableEq, Repr

/-- The positions at which a long-distance match is offered. -/
structure LdmCandidateSpan where
  start : Nat
  stop : Nat
  offset : Nat
deriving DecidableEq, Repr

/-- `LdmCandidates`: the cursor past the match on offer, and where that match lies. -/
structure LdmCandidates where
  cursor : RawSequenceCursor
  span : Option LdmCandidateSpan
deriving DecidableEq, Repr

namespace LdmCandidates

/-- `arm_next_match`: the rest of the match the cursor is in goes on offer, and the cursor steps over it. -/
def armNextMatch (c : LdmCandidates) (positionInBlock blockBytesRemaining : Nat) : LdmCandidates :=
  match c.cursor.current with
  | none => { c with span := none }
  | some current =>
    let blockEnd := positionInBlock + blockBytesRemaining
    let consumed := c.cursor.offsetInSequence
    let literalsRemaining := current.literalLength - consumed
    let matchRemaining :=
      if literalsRemaining = 0 then current.matchLength - (consumed - current.literalLength) else current.matchLength
    if literalsRemaining ≥ blockBytesRemaining then
      { span := none, cursor := c.cursor.skipBytes blockBytesRemaining }
    else
      let start := positionInBlock + literalsRemaining
      let stop := start + matchRemaining
      if stop > blockEnd then
        { span := some { start, stop := blockEnd, offset := current.offset }
          cursor := c.cursor.skipBytes (blockEnd - positionInBlock) }
      else
        { span := some { start, stop, offset := current.offset }
          cursor := c.cursor.skipBytes (literalsRemaining + matchRemaining) }

def new (sequences : List RawSequence) (blockLen : Nat) : LdmCandidates :=
  armNextMatch { cursor := .new sequences, span := none } 0 blockLen

/-- `add_match`: the rest of the match on offer, when it beats the candidates there are. -/
def addMatch (c : LdmCandidates) (candidates : List OptimalMatchCandidate) (positionInBlock minMatch : Nat) :
    List OptimalMatchCandidate :=
  match c.span with
  | none => candidates
  | some span =>
    if positionInBlock < span.start ∨ positionInBlock ≥ span.stop then candidates
    else
      let length := span.stop - positionInBlock
      if length < minMatch then candidates
      else if candidates.length ≥ optNum then candidates
      else if (candidates.getLast?.map fun last => decide (length ≤ last.length)) = some true then candidates
      else candidates ++ [{ offsetValue := span.offset + 3, length }]

/-- The match to offer at a position: the next one, once the parser has passed the one before. -/
def advanceTo (c : LdmCandidates) (positionInBlock blockBytesRemaining : Nat) : LdmCandidates :=
  match c.span with
  | none => c
  | some span =>
    if positionInBlock ≥ span.stop then
      let overshoot := positionInBlock - span.stop
      let c := if overshoot > 0 then { c with cursor := c.cursor.skipBytes overshoot } else c
      c.armNextMatch positionInBlock blockBytesRemaining
    else c

/-- `offer`: what is on offer afterwards, and the candidates with the long-distance match among them. -/
def offer (c : LdmCandidates) (candidates : List OptimalMatchCandidate)
    (positionInBlock blockBytesRemaining minMatch : Nat) : LdmCandidates × List OptimalMatchCandidate :=
  if c.cursor.current = none then (c, candidates)
  else
    let c := c.advanceTo positionInBlock blockBytesRemaining
    (c, c.addMatch candidates positionInBlock minMatch)

/-! ## What is on offer -/

/-- The span on offer is the part of a match inside the block from some position on, and the cursor stands at
its end. -/
structure Aligned (sequences : List RawSequence) (blockLen : Nat) (c : LdmCandidates) : Prop where
  sequences_eq : c.cursor.sequences = sequences
  within : c.cursor.Within
  span : ∀ span, c.span = some span → (c.cursor.current ≠ none → c.cursor.position = span.stop) ∧
    ∃ s start stop, LiesAt sequences s start stop ∧ start ≤ span.start ∧ span.stop = min stop blockLen ∧
      span.offset = s.offset

section
variable {sequences : List RawSequence} {blockLen : Nat} {c : LdmCandidates}

/-- Arming a cursor that stands at the position. -/
theorem Aligned.armNextMatch {position : Nat} (hsequences : c.cursor.sequences = sequences) (hwithin : c.cursor.Within)
    (hposition : c.cursor.current ≠ none → c.cursor.position = position) (hle : position ≤ blockLen) :
    Aligned sequences blockLen (c.armNextMatch position (blockLen - position)) := by
  unfold LdmCandidates.armNextMatch
  split
  · exact ⟨hsequences, hwithin, by rintro _ ⟨⟩⟩
  · rename_i s hcurrent
    have hat : covered sequences c.cursor.index + c.cursor.offsetInSequence = position := by
      rw [← hsequences]
      exact hposition (by rw [hcurrent]; rintro ⟨⟩)
    have hget : sequences[c.cursor.index]? = some s := by rw [← hsequences]; exact hcurrent
    have hnext := covered_succ hget
    have hoffset := hwithin.offset_lt s hcurrent
    have hlies : LiesAt sequences s (covered sequences c.cursor.index + s.literalLength)
        (covered sequences (c.cursor.index + 1)) := ⟨_, hget, rfl, rfl⟩
    unfold RawSequence.span at hnext hoffset
    have hpos : c.cursor.position = position := hposition (by rw [hcurrent]; rintro ⟨⟩)
    -- the match is over where its span is, whether the cursor is before it or inside
    have hstop : position + (s.literalLength - c.cursor.offsetInSequence) +
        (if s.literalLength - c.cursor.offsetInSequence = 0 then
          s.matchLength - (c.cursor.offsetInSequence - s.literalLength) else s.matchLength) =
          covered sequences (c.cursor.index + 1) := by
      split <;> omega
    simp only
    generalize (if s.literalLength - c.cursor.offsetInSequence = 0 then
      s.matchLength - (c.cursor.offsetInSequence - s.literalLength) else s.matchLength) = matchRemaining at *
    by_cases hliterals : s.literalLength - c.cursor.offsetInSequence ≥ blockLen - position
    · rw [if_pos hliterals]
      exact ⟨hsequences, (hwithin.skipBytes _).1, by rintro _ ⟨⟩⟩
    · rw [if_neg hliterals]
      by_cases hend : position + (s.literalLength - c.cursor.offsetInSequence) + matchRemaining >
          position + (blockLen - position)
      · rw [if_pos hend]
        obtain ⟨hskip, hskipped⟩ := hwithin.skipBytes (position + (blockLen - position) - position)
        refine ⟨hsequences, hskip, ?_⟩
        rintro _ ⟨⟩
        refine ⟨fun h => ?_, s, _, _, hlies, ?_, ?_, rfl⟩
        · rw [hskipped h, hpos]
          simp only
          omega
        · simp only
          omega
        · simp only
          omega
      · rw [if_neg hend]
        obtain ⟨hskip, hskipped⟩ :=
          hwithin.skipBytes (s.literalLength - c.cursor.offsetInSequence + matchRemaining)
        refine ⟨hsequences, hskip, ?_⟩
        rintro _ ⟨⟩
        refine ⟨fun h => ?_, s, _, _, hlies, ?_, ?_, rfl⟩
        · rw [hskipped h, hpos]
          simp only
          omega
        · simp only
          omega
        · simp only
          omega

theorem Aligned.new (sequences : List RawSequence) (blockLen : Nat) :
    Aligned sequences blockLen (LdmCandidates.new sequences blockLen) :=
  @armNextMatch sequences blockLen { cursor := .new sequences, span := none } 0 rfl
    (RawSequenceCursor.new_within sequences) (fun _ => rfl) (Nat.zero_le _)

theorem Aligned.advanceTo {position : Nat} (h : Aligned sequences blockLen c) (hcurrent : c.cursor.current ≠ none)
    (hle : position ≤ blockLen) : Aligned sequences blockLen (c.advanceTo position (blockLen - position)) := by
  unfold LdmCandidates.advanceTo
  split
  · exact h
  · rename_i span hspan
    have hend := (h.span span hspan).1 hcurrent
    by_cases hpast : position ≥ span.stop
    · rw [if_pos hpast]
      simp only
      by_cases hover : position - span.stop > 0
      · rw [if_pos hover]
        obtain ⟨hskip, hskipped⟩ := h.within.skipBytes (position - span.stop)
        refine armNextMatch h.sequences_eq hskip (fun hcurrent => ?_) hle
        rw [hskipped hcurrent, hend]
        omega
      · rw [if_neg hover]
        exact armNextMatch h.sequences_eq h.within (fun _ => by rw [hend]; omega) hle
    · rw [if_neg hpast]
      exact h

theorem Aligned.offer {position : Nat} (h : Aligned sequences blockLen c) (hle : position ≤ blockLen)
    (candidates : List OptimalMatchCandidate) (minMatch : Nat) :
    Aligned sequences blockLen (c.offer candidates position (blockLen - position) minMatch).1 := by
  unfold LdmCandidates.offer
  by_cases hcurrent : c.cursor.current = none
  · rw [if_pos hcurrent]
    exact h
  · rw [if_neg hcurrent]
    exact h.advanceTo hcurrent hle

/-- The candidate is what is left, at the position, of a long-distance match of the block. -/
def Covers (sequences : List RawSequence) (blockLen position : Nat) (m : OptimalMatchCandidate) : Prop :=
  ∃ s start stop, LiesAt sequences s start stop ∧ start ≤ position ∧ position < stop ∧
    m.offsetValue = s.offset + 3 ∧ position + m.length = min stop blockLen

theorem addMatch_cases (c : LdmCandidates) (candidates : List OptimalMatchCandidate) (position minMatch : Nat) :
    c.addMatch candidates position minMatch = candidates ∨
    ∃ span, c.span = some span ∧ span.start ≤ position ∧ position < span.stop ∧ minMatch ≤ span.stop - position ∧
      candidates.length < optNum ∧ (∀ last, candidates.getLast? = some last → last.length < span.stop - position) ∧
      c.addMatch candidates position minMatch =
        candidates ++ [{ offsetValue := span.offset + 3, length := span.stop - position }] := by
  unfold addMatch
  cases hspan : c.span with
  | none => exact .inl rfl
  | some span =>
    simp only
    split
    · exact .inl rfl
    rename_i hin
    split
    · exact .inl rfl
    rename_i hmin
    split
    · exact .inl rfl
    rename_i hroom
    split
    · exact .inl rfl
    rename_i hlonger
    refine .inr ⟨span, rfl, by omega, by omega, by omega, by omega, fun last hlast => not_le.1 fun hle => ?_, rfl⟩
    exact hlonger (by rw [hlast, Option.map_some, decide_eq_true hle])

theorem lt_of_last {candidates : List OptimalMatchCandidate} {length : Nat}
    (hsorted : candidates.Pairwise (·.length < ·.length))
    (hlast : ∀ last, candidates.getLast? = some last → last.length < length) : ∀ m ∈ candidates, m.length < length := by
  intro m hm
  rcases List.eq_nil_or_concat candidates with rfl | ⟨init, last, rfl⟩
  · cases hm
  · rw [List.concat_eq_append] at *
    have hlt := hlast last List.getLast?_concat
    rcases List.mem_append.1 hm with hm | hm
    · exact lt_trans ((List.pairwise_append.1 hsorted).2.2 m hm last (List.mem_singleton.2 rfl)) hlt
    · rwa [List.mem_singleton.1 hm]

/-- Every state of the candidates of a block, whatever positions the parser has asked for and in what order. -/
inductive Reached (sequences : List RawSequence) (blockLen : Nat) : LdmCandidates → Prop
  | new : Reached sequences blockLen (.new sequences blockLen)
  | offer {c : LdmCandidates} {position : Nat} (candidates : List OptimalMatchCandidate) (minMatch : Nat) :
    Reached sequences blockLen c → position ≤ blockLen →
    Reached sequences blockLen (c.offer candidates position (blockLen - position) minMatch).1

theorem Reached.aligned (h : Reached sequences blockLen c) : Aligned sequences blockLen c := by
  induction h with
  | new => exact .new sequences blockLen
  | offer candidates minMatch _ hle ih => exact ih.offer hle candidates minMatch

/-- Whatever was asked before, a candidate that is added at a position is the rest of the long-distance match
there, inside the block and no shorter than the minimum, and longer than every candidate before it. -/
theorem Reached.offer_covers (h : Reached sequences blockLen c) {position : Nat} (hle : position ≤ blockLen)
    (candidates : List OptimalMatchCandidate) (minMatch : Nat) :
    (∀ m ∈ (c.offer candidates position (blockLen - position) minMatch).2, m ∈ candidates ∨
      Covers sequences blockLen position m ∧ position + m.length ≤ blockLen ∧ m.length ≤ blockLen - position ∧
        minMatch ≤ m.length) ∧
    (candidates.Pairwise (·.length < ·.length) →
      (c.offer candidates position (blockLen - position) minMatch).2.Pairwise (·.length < ·.length)) := by
  have hnext := h.aligned.offer hle candidates minMatch
  unfold LdmCandidates.offer at hnext ⊢
  by_cases hcurrent : c.cursor.current = none
  · rw [if_pos hcurrent]
    exact ⟨fun m hm => .inl hm, id⟩
  · rw [if_neg hcurrent] at hnext ⊢
    simp only at hnext ⊢
    generalize c.advanceTo position (blockLen - position) = c at hnext
    rcases addMatch_cases c candidates position minMatch with heq | ⟨span, hspan, hstart, hstop, hmin, -, hlast, heq⟩
    · rw [heq]
      exact ⟨fun m hm => .inl hm, id⟩
    · rw [heq]
      obtain ⟨-, s, start, stop, hlies, hlow, hup, hoffset⟩ := hnext.span span hspan
      constructor
      · intro m hm
        rcases List.mem_append.1 hm with hm | hm
        · exact .inl hm
        · cases List.mem_singleton.1 hm
          refine .inr ⟨⟨s, start, stop, hlies, by omega, by omega, by rw [hoffset], ?_⟩, ?_, ?_, hmin⟩
          · simp only
            omega
          · simp only
            omega
          · simp only
            omega
      · intro hsorted
        refine List.pairwise_append.2 ⟨hsorted, List.pairwise_singleton _ _, fun m hm new hnew => ?_⟩
        cases List.mem_singleton.1 hnew
        exact lt_of_last hsorted hlast m hm

end

/-- Two matches in a block of 30 bytes: the parser is two bytes into the first, then past it, then back. -/
theorem Reached.offer_covers_small :
    let sequences := [⟨5, 10, 7⟩, ⟨3, 6, 2⟩, ⟨1, 4, 9⟩]
    let first := (LdmCandidates.new sequences 30).offer [⟨9, 4⟩] 7 (30 - 7) 4
    let second := first.1.offer [] 20 (30 - 20) 4
    first.2 = [⟨9, 4⟩, ⟨10, 8⟩] ∧ second.2 = [⟨5, 4⟩] ∧
    (∀ m ∈ (second.1.offer [] 18 (30 - 18) 4).2, m ∈ [] ∨
      Covers sequences 30 18 m ∧ 18 + m.length ≤ 30 ∧ m.length ≤ 30 - 18 ∧ 4 ≤ m.length) ∧
    Covers sequences 30 20 ⟨5, 4⟩ := by
  refine ⟨by decide, by decide, ?_, ?_⟩
  · exact (Reached.offer_covers (.offer _ _ (.offer _ _ .new (by decide)) (by decide)) (by decide) [] 4).1
  · have hcovers := (Reached.offer_covers (.offer [⟨9, 4⟩] 4 (@Reached.new [⟨5, 10, 7⟩, ⟨3, 6, 2⟩, ⟨1, 4, 9⟩] 30)
      (show 7 ≤ 30 by decide)) (show 20 ≤ 30 by decide) [] 4).1 ⟨5, 4⟩ (by decide)
    rcases hcovers with hm | hm
    · cases hm
    · exact hm.1

end LdmCandidates

end Ldm

end Zstandard
