/-
What the encoder may emit against what the decoder accepts.

A frame is planned segment by segment: the parser looks at positions of the buffer, takes candidates
at or above the floors in force there and repeat offsets that pass its own test. The relations below
follow one segment (`SourceStep` without a prefix, `PrefixedStep` behind one) and a whole frame
(`Frame.Run`): blocks, segments between long-distance matches, blocks stored raw, and the compaction
after which a streamed frame goes on without its dictionary.

A parse without a prefix stays within the window once the repeat offsets it is handed do
(`SourceParse.within`).
-/
import Zstandard.Encode.Floors

namespace Zstandard

/-! ## Segments without a prefix -/

/-- The parsers, by how they look for repeat offsets. `fast` comes with its step; `lazy` stands for
the greedy and lazy parsers over chains and over the binary tree. -/
inductive Parser where
  | fast (step : Nat)
  | doubleFast
  | row
  | lazy
  | optimal
deriving DecidableEq, Repr

/-- The parsers with one floor for the whole segment. -/
def Parser.fastPair : Parser → Bool
  | .fast _ | .doubleFast => true
  | _ => false

/-- The first position a parser without a prefix looks at. -/
def Parser.first (parser : Parser) (f : SourceFloors) (start : Nat) : Nat :=
  match parser with
  | .fast _ | .doubleFast => start + if start = f.windowLow then 1 else 0
  | .row => start + if start = f.matchFloor.at start then 1 else 0
  | .lazy | .optimal => start

/-- Whether the fast pair looks at anything before it meets the end of the segment. -/
def Parser.searches (parser : Parser) (first stop : Nat) : Bool :=
  match parser with
  | .fast step => first + step + 1 < stop - 8
  | .doubleFast => first + 1 ≤ stop - 8
  | _ => true

/-- The repeat offsets a parser without a prefix begins with: all but the lazy and optimal ones drop
those that reach below the window. -/
def Parser.carried (parser : Parser) (f : SourceFloors) (first : Nat) (reps : RepeatOffsets) : RepeatOffsets :=
  match parser with
  | .fast _ | .doubleFast => invalidateNoDictRepeatOffsets reps first f.repWindowLow
  | .row => invalidateNoDictRepeatOffsets reps first (f.matchFloor.at first)
  | .lazy | .optimal => reps

/-- How a parser without a prefix extends a candidate backwards. -/
def Parser.extendBack (parser : Parser) (src : Bytes) (anchor windowLow : Nat) (m : FoundMatch) : FoundMatch :=
  match parser with
  | .fast _ | .doubleFast | .row => extendBackSourceMatch src anchor m
  | .lazy => extendBackSourceCandidate src anchor windowLow m
  | .optimal => m

/-- A parser between two matches. `matched` says that one has been stored. -/
structure ParseState where
  anchor : Nat
  reps : RepeatOffsets
  matched : Bool
deriving DecidableEq, Repr

/-- The state behind a match stored with `encode_offset_value_and_update`. -/
def ParseState.store (s : ParseState) (m : FoundMatch) : ParseState :=
  { anchor := m.start + m.length, matched := true
    reps := (s.reps.encodeOffsetValueAndUpdate m.offset (m.start - s.anchor)).2 }

/-- One match of a parser without a prefix. What a finder answers is arbitrary within the floor. -/
inductive SourceStep (parser : Parser) (f : SourceFloors) (src : Bytes) (first : Nat) :
    ParseState → FoundMatch → ParseState → Prop
  /-- A table entry of the fast pair. -/
  | fastCandidate {s : ParseState} {pos m : Nat} {found : FoundMatch}
      (pair : parser.fastPair = true) (searches : parser.searches first src.length = true)
      (look : max first s.anchor ≤ pos) (low : f.windowLow ≤ m) (before : m < pos)
      (bytes : pos + minMatch ≤ src.length ∧ matchHasLength src m pos minMatch = true)
      (stored : found = parser.extendBack src s.anchor f.windowLow
        ⟨pos, pos - m, minMatch + countMatchLength src (m + minMatch) (pos + minMatch)⟩) :
      SourceStep parser f src first s found
        ⟨found.start + found.length, ⟨found.offset, s.reps.rep1, s.reps.rep3⟩, true⟩
  /-- The first repeat offset at `ip2`, and one byte back where that byte agrees. -/
  | fastRepeat {s : ParseState} {step ip2 back : Nat} {found : FoundMatch}
      (isFast : parser = .fast step ∧ 2 ≤ step) (searches : parser.searches first src.length = true)
      (look : max first s.anchor + step ≤ ip2) (inside : ip2 + 1 < src.length - 8)
      (nonzero : s.reps.rep1 ≠ 0) (bytes : matchHasLength src (ip2 - s.reps.rep1) ip2 minMatch = true)
      (back_eq : back = if s.anchor < ip2 ∧ src[ip2 - 1]? = src[ip2 - s.reps.rep1 - 1]? then 1 else 0)
      (stored : found = ⟨ip2 - back, s.reps.rep1,
        minMatch + countMatchLength src (ip2 - s.reps.rep1 + minMatch) (ip2 + minMatch) + back⟩) :
      SourceStep parser f src first s found ⟨found.start + found.length, s.reps, true⟩
  /-- The first repeat offset one position ahead. -/
  | doubleFastRepeat {s : ParseState} {ip : Nat} {found : FoundMatch}
      (isDouble : parser = .doubleFast) (searches : parser.searches first src.length = true)
      (look : max first s.anchor ≤ ip) (inside : ip + 1 ≤ src.length - 8)
      (nonzero : s.reps.rep1 ≠ 0) (bytes : matchHasLength src (ip + 1 - s.reps.rep1) (ip + 1) minMatch = true)
      (stored : found = ⟨ip + 1, s.reps.rep1,
        minMatch + countMatchLength src (ip + 1 - s.reps.rep1 + minMatch) (ip + 1 + minMatch)⟩) :
      SourceStep parser f src first s found ⟨found.start + found.length, s.reps, true⟩
  /-- The second repeat offset right behind a match of the fast pair. -/
  | chainedRepeat {s : ParseState} {found : FoundMatch}
      (pair : parser.fastPair = true) (matched : s.matched = true) (inside : s.anchor ≤ src.length - 8)
      (bytes : minMatch ≤ countRepMatchLength src s.anchor s.reps.rep2 f.repWindowLow)
      (stored : found = ⟨s.anchor, s.reps.rep2, countRepMatchLength src s.anchor s.reps.rep2 f.repWindowLow⟩) :
      SourceStep parser f src first s found
        ⟨found.start + found.length, ⟨s.reps.rep2, s.reps.rep1, s.reps.rep3⟩, true⟩
  /-- A finder's answer at a position with its own floor; `look` is where the iteration began. -/
  | candidate {s : ParseState} {look pos m length : Nat} {found : FoundMatch}
      (own : parser.fastPair = false) (look_le : look ≤ pos) (behind : max first s.anchor ≤ pos)
      (inside : pos ≤ src.length) (low : f.matchFloor.at pos ≤ m) (before : m < pos)
      (stored : found = parser.extendBack src s.anchor (f.matchFloor.at look) ⟨pos, pos - m, length⟩) :
      SourceStep parser f src first s found (s.store found)
  /-- The first repeat offset one position ahead, under the floor of the position itself. -/
  | aheadRepeat {s : ParseState} {pos n : Nat} (own : parser = .row ∨ parser = .lazy)
      (look : max first s.anchor ≤ pos)
      (bytes : repeatAheadMatchWithoutPrefix src pos s.reps.rep1 (f.matchFloor.at pos) = some n) :
      SourceStep parser f src first s ⟨pos + 1, s.reps.rep1, n⟩ (s.store ⟨pos + 1, s.reps.rep1, n⟩)
  /-- A repeat offset at the position itself: the first in a depth probe, the second behind a match,
  and any for the optimal parser, which tests those of the node it stands at. -/
  | repeatAt {s : ParseState} {pos raw n : Nat} (own : parser.fastPair = false) (look : s.anchor ≤ pos)
      (which : parser = .optimal ∨ raw = s.reps.rep1 ∨ raw = s.reps.rep2 ∧ s.matched = true)
      (bytes : repeatMatchWithoutPrefixAt src pos raw (f.matchFloor.at pos) = some n) :
      SourceStep parser f src first s ⟨pos, raw, n⟩ (s.store ⟨pos, raw, n⟩)

/-- The matches of one segment. -/
inductive SourceParse (parser : Parser) (f : SourceFloors) (src : Bytes) (first : Nat) :
    ParseState → List FoundMatch → Prop
  | done (s : ParseState) : SourceParse parser f src first s []
  | step {s s' : ParseState} {m : FoundMatch} {ms : List FoundMatch}
      (h : SourceStep parser f src first s m s') (rest : SourceParse parser f src first s' ms) :
      SourceParse parser f src first s (m :: ms)

/-! ## Segments behind a prefix -/

/-- The floors in force at a position. -/
def PrefixedBlockFloors.lows (floors : PrefixedBlockFloors) (parser : Parser) (pos : Nat) : Nat × Nat :=
  if parser.fastPair then (floors.prefixLow, floors.sourceLow) else floors.matchFloor.at pos

/-- One match of a parser behind a prefix. -/
inductive PrefixedStep (parser : Parser) (floors : PrefixedBlockFloors) (pre src : Bytes) :
    ParseState → FoundMatch → ParseState → Prop
  /-- A finder's answer, in either buffer, under either of the two backward extensions. -/
  | candidate {s : ParseState} {look pos m length : Nat} {found : FoundMatch}
      (look_le : look ≤ pos) (behind : s.anchor ≤ pos) (inside : pos ≤ src.length) (before : m < pre.length + pos)
      (low : logicalMatchStartIsValid pre.length m (floors.lows parser pos).1 (floors.lows parser pos).2 = true)
      (stored :
        found = extendBackPrefixChainMatch pre src s.anchor (floors.lows parser look).1 (floors.lows parser look).2
          ⟨pos, pre.length + pos - m, length⟩ ∨
        found = extendBackLogicalMatchWithLimits pre src s.anchor (floors.lows parser look).1
          (floors.lows parser look).2 ⟨pos, pre.length + pos - m, length⟩) :
      PrefixedStep parser floors pre src s found (s.store found)
  /-- A repeat offset one position ahead, under the floors of the position itself. -/
  | aheadRepeat {s : ParseState} {pos n : Nat} (look : s.anchor ≤ pos)
      (bytes : prefixedRepeatAheadMatch pre src pos s.reps.rep1 (floors.lows parser pos).1
        (floors.lows parser pos).2 = some n) :
      PrefixedStep parser floors pre src s ⟨pos + 1, s.reps.rep1, n⟩ (s.store ⟨pos + 1, s.reps.rep1, n⟩)
  /-- A repeat offset at the position itself. -/
  | repeatAt {s : ParseState} {pos raw n : Nat} (look : s.anchor ≤ pos)
      (which : parser = .optimal ∨ raw = s.reps.rep1 ∨ raw = s.reps.rep2)
      (bytes : prefixedRepeatMatchAt pre src pos raw (floors.lows parser pos).1 (floors.lows parser pos).2 = some n) :
      PrefixedStep parser floors pre src s ⟨pos, raw, n⟩ (s.store ⟨pos, raw, n⟩)
  /-- The same of the fast parser, one byte further back. -/
  | repeatBack {s : ParseState} {step pos n : Nat} (isFast : parser = .fast step) (look : s.anchor ≤ pos)
      (bytes : prefixedRepeatMatchAt pre src (pos + 1) s.reps.rep1 floors.prefixLow floors.sourceLow = some n)
      (back : s.reps.rep1 ≤ pre.length + pos ∧ logicalMatchStartIsValid pre.length
        (pre.length + pos - s.reps.rep1) floors.prefixLow floors.sourceLow = true) :
      PrefixedStep parser floors pre src s ⟨pos, s.reps.rep1, n + 1⟩ (s.store ⟨pos, s.reps.rep1, n + 1⟩)

inductive PrefixedParse (parser : Parser) (floors : PrefixedBlockFloors) (pre src : Bytes) :
    ParseState → List FoundMatch → Prop
  | done (s : ParseState) : PrefixedParse parser floors pre src s []
  | step {s s' : ParseState} {m : FoundMatch} {ms : List FoundMatch}
      (h : PrefixedStep parser floors pre src s m s') (rest : PrefixedParse parser floors pre src s' ms) :
      PrefixedParse parser floors pre src s (m :: ms)

/-! ## Frames -/

/-- What is fixed for the length of a frame. The prefix is the dictionary content, possibly with
bytes ahead of it, in which case no match may begin below `prefixLowLimit`. -/
structure Frame where
  content : Bytes
  historyLimit : Nat
  contentSize : Option Nat
  window : Nat
  blockSizeMax : Nat
  pre : Bytes
  prefixLowLimit : Nat
  dictionary : Option Bytes
  declared : declaredWindow historyLimit contentSize = .ok window
  sized : ∀ n ∈ contentSize, content.length = n
  block_le : blockSizeMax ≤ historyLimit
  lead : ∀ d ∈ dictionary, pre.length ≤ d.length + prefixLowLimit
  pre_nil : dictionary = none → pre = []

/-- The decoder's rule for an offset, with `produced` bytes of the frame produced. -/
def Frame.Accepts (F : Frame) (produced offset : Nat) : Prop :=
  (offset ≤ produced ∧ offset ≤ F.window) ∨
    ∃ d ∈ F.dictionary, produced ≤ F.window ∧ offset ≤ d.length + produced

/-- The encoder between two segments: the bytes its buffer has dropped, whether the finder still has
the dictionary, the block in progress, how far it has been planned, and the repeat offsets, now and
at the block's start. -/
structure FrameState where
  dropped : Nat
  prefixed : Bool
  blockStart : Nat
  blockEnd : Nat
  pos : Nat
  reps : RepeatOffsets
  atStart : RepeatOffsets
deriving DecidableEq, Repr

def Frame.start (F : Frame) (reps : RepeatOffsets) : FrameState :=
  { dropped := 0, prefixed := F.pre ≠ [], blockStart := 0, blockEnd := 0, pos := 0, reps, atStart := reps }

/-- The bytes a segment that ends at `stop` is parsed over. -/
def Frame.source (F : Frame) (s : FrameState) (stop : Nat) : Bytes := (F.content.drop s.dropped).take stop

def Frame.sourceFloors (F : Frame) (s : FrameState) (stop : Nat) : SourceFloors :=
  contiguousFloors s.blockStart s.pos stop F.historyLimit

def Frame.blockFloors (F : Frame) (s : FrameState) : PrefixedBlockFloors :=
  prefixedBlockFloors F.pre.length s.blockStart s.blockEnd F.historyLimit F.prefixLowLimit

/-- The repeat offsets a prefixed parser begins with. -/
def Frame.prefixedReps (F : Frame) (s : FrameState) : RepeatOffsets :=
  if (F.blockFloors s).prefixRetired then
    invalidateNoDictRepeatOffsets s.reps s.pos ((F.blockFloors s).matchFloor.at s.pos).2
  else s.reps

/-- One segment of a block, from the state's position to `stop`, with the matches found. -/
inductive Frame.Segment (F : Frame) (s : FrameState) (parser : Parser) (stop : Nat) : List FoundMatch → Prop
  | source {f : SourceFloors} {first : Nat} {ms : List FoundMatch} (contiguous : s.prefixed = false)
      (floors : f = F.sourceFloors s stop) (look : first = parser.first f s.pos)
      (parse : SourceParse parser f (F.source s stop) first ⟨s.pos, parser.carried f first s.reps, false⟩ ms) :
      Frame.Segment F s parser stop ms
  /-- The fast parser behind a retired prefix is the one without a prefix. -/
  | retired {step first : Nat} {f : SourceFloors} {ms : List FoundMatch} (isPrefixed : s.prefixed = true)
      (isFast : parser = .fast step) (retired : (F.blockFloors s).prefixRetired = true)
      (floors : f = { F.sourceFloors s stop with windowLow := (F.blockFloors s).sourceLow })
      (look : first = parser.first f s.pos)
      (parse : SourceParse parser f (F.source s stop) first
        ⟨s.pos, parser.carried f first (F.prefixedReps s), false⟩ ms) :
      Frame.Segment F s parser stop ms
  | behindPrefix {ms : List FoundMatch} (isPrefixed : s.prefixed = true)
      (live : parser.fastPair = true → (F.blockFloors s).prefixRetired = false ∨ parser = .doubleFast)
      (parse : PrefixedParse parser (F.blockFloors s) F.pre (F.source s stop) ⟨s.pos, F.prefixedReps s, false⟩ ms) :
      Frame.Segment F s parser stop ms

/-- Each repeat offset behind a segment is one it began with, or the offset of a match in it. -/
def Kept (reps : RepeatOffsets) (ms : List FoundMatch) (reps' : RepeatOffsets) : Prop :=
  ∀ r ∈ [reps'.rep1, reps'.rep2, reps'.rep3],
    r ∈ [reps.rep1, reps.rep2, reps.rep3] ∨ ∃ m ∈ ms, r = m.offset

instance (reps : RepeatOffsets) (ms : List FoundMatch) (reps' : RepeatOffsets) : Decidable (Kept reps ms reps') :=
  inferInstanceAs (Decidable (∀ r ∈ [_, _, _], _))

/-- A segment that has been planned: the state before it, the parser, its end and its matches. -/
structure PlannedChunk where
  before : FrameState
  parser : Parser
  stop : Nat
  found : List FoundMatch

/-- One move of the encoder; planning a segment is recorded. -/
inductive Frame.Step (F : Frame) : FrameState → Option PlannedChunk → FrameState → Prop
  /-- The next block of the input. -/
  | openBlock {s : FrameState} {n : Nat} (closed : s.pos = s.blockEnd) (size : n ≤ F.blockSizeMax)
      (inside : s.dropped + s.pos + n ≤ F.content.length) :
      F.Step s none { s with blockStart := s.pos, blockEnd := s.pos + n, atStart := s.reps }
  | segment {s : FrameState} {parser : Parser} {stop : Nat} {ms : List FoundMatch} {reps : RepeatOffsets}
      (ahead : s.pos ≤ stop) (inside : stop ≤ s.blockEnd) (parsed : F.Segment s parser stop ms)
      (kept : Kept s.reps ms reps) :
      F.Step s (some ⟨s, parser, stop, ms⟩) { s with pos := stop, reps }
  /-- A match of the long-distance matcher, which has a reach of its own. -/
  | longDistance {s : FrameState} {offset length : Nat} (inside : s.pos + length ≤ s.blockEnd)
      (own : s.prefixed = false → offset ≤ F.historyLimit) :
      F.Step s none { s with pos := s.pos + length, reps := ⟨offset, s.reps.rep1, s.reps.rep2⟩ }
  /-- A block stored raw or as a run, planned or not: the repeat offsets are those it began with. -/
  | stored {s : FrameState} : F.Step s none { s with pos := s.blockEnd, reps := s.atStart }
  /-- `compact_frame`: the history beyond the window is dropped, and with it the dictionary. -/
  | compact {s : FrameState} {d : Nat} (closed : s.pos = s.blockEnd) (long : 2 * F.historyLimit < s.pos)
      (keeps : d + F.historyLimit ≤ s.pos) :
      F.Step s none { s with dropped := s.dropped + d, prefixed := false, pos := s.pos - d
                             blockStart := s.pos - d, blockEnd := s.pos - d, atStart := s.reps }

/-- The moves of a frame so far, from given repeat offsets, with the segments planned. -/
inductive Frame.Run (F : Frame) (reps : RepeatOffsets) : List PlannedChunk → FrameState → Prop
  | start : F.Run reps [] (F.start reps)
  | step {planned : List PlannedChunk} {p : Option PlannedChunk} {s s' : FrameState} (run : F.Run reps planned s)
      (h : F.Step s p s') : F.Run reps (planned ++ p.toList) s'

/-- No repeat offset wider than the window gets past the test of a parser without a prefix: the fast
pair keeps none of them, or looks at nothing; a lazy parser is not handed the one offset its look
ahead lets through. -/
def Frame.Narrow (F : Frame) (p : PlannedChunk) : Prop :=
  p.before.prefixed = true ∨
    match p.parser with
    | .fast _ | .doubleFast =>
      let f := F.sourceFloors p.before p.stop
      let first := p.parser.first f p.before.pos
      let c := p.parser.carried f first p.before.reps
      p.parser.searches first p.stop = false ∨ c.rep1 ≤ F.historyLimit ∧ (c.rep1 = 0 ∨ c.rep2 ≤ F.historyLimit)
    | .lazy =>
      p.stop < max p.before.pos F.historyLimit + 5 ∨ p.before.reps.rep1 ≠ F.historyLimit + 1
    | .row | .optimal => True

/-! ## The parsers stay within the window -/

theorem ParseState.store_reps (s : ParseState) (m : FoundMatch) :
    (s.store m).reps.rep1 = m.offset ∧
      ((s.store m).reps.rep2 = s.reps.rep1 ∨ (s.store m).reps.rep2 = s.reps.rep2) := by
  simp only [ParseState.store, RepeatOffsets.encodeOffsetValueAndUpdate]
  split
  · rename_i h
    exact ⟨h.2.symm, .inr rfl⟩
  split
  · rename_i h
    exact ⟨h.symm, .inl rfl⟩
  split
  · rename_i h
    exact ⟨h.symm, .inl rfl⟩
  split
  · rename_i h
    exact ⟨h.2.2.symm, .inl rfl⟩
  · exact ⟨rfl, .inl rfl⟩

theorem Parser.extendBack_spec (parser : Parser) (src : Bytes) (anchor low : Nat) (m : FoundMatch)
    (hm : m.offset ≤ m.start) :
    let found := parser.extendBack src anchor low m
    found.offset = m.offset ∧ found.start ≤ m.start ∧ found.start + found.length = m.start + m.length ∧
      m.offset ≤ found.start := by
  cases parser with
  | fast step => exact extendBackSourceMatch_spec src anchor m hm
  | doubleFast => exact extendBackSourceMatch_spec src anchor m hm
  | row => exact extendBackSourceMatch_spec src anchor m hm
  | lazy => exact extendBackSourceCandidate_spec src anchor low m hm
  | optimal => exact ⟨rfl, le_refl _, rfl, hm⟩

/-- What keeps the repeat offsets of a parse without a prefix within `limit`. -/
def Parser.Safe (parser : Parser) (first stop limit : Nat) (s : ParseState) : Prop :=
  match parser with
  | .fast _ | .doubleFast =>
    parser.searches first stop = false ∧ s.matched = false ∨
      s.reps.rep1 ≤ limit ∧ s.reps.rep1 ≤ max first s.anchor ∧
        (s.reps.rep2 ≤ limit ∨ s.reps.rep1 = 0 ∧ s.matched = false)
  | .row => s.reps.rep1 ≤ limit ∧ s.reps.rep2 ≤ limit
  | .lazy => stop < max first limit + 5 ∨ s.reps.rep1 ≠ limit + 1
  | .optimal => True

/-- Within the limit, and behind the bytes it refers to. -/
structure FoundMatch.Within (m : FoundMatch) (limit stop : Nat) : Prop where
  offset_le : m.offset ≤ limit
  offset_le_start : m.offset ≤ m.start
  inside : m.start ≤ stop

section Source

variable {parser : Parser} {f : SourceFloors} {src : Bytes} {first limit : Nat} {s s' : ParseState} {m : FoundMatch}

theorem Parser.Safe.fastPair (pair : parser.fastPair = true) (h : parser.Safe first src.length limit s)
    (used : parser.searches first src.length = true ∨ s.matched = true) :
    s.reps.rep1 ≤ limit ∧ s.reps.rep1 ≤ max first s.anchor ∧
      (s.reps.rep2 ≤ limit ∨ s.reps.rep1 = 0 ∧ s.matched = false) := by
  cases parser with
  | row | lazy | optimal => cases pair
  | fast _ | doubleFast =>
    rcases h with ⟨h1, h2⟩ | h
    · rw [h1, h2] at used
      rcases used with used | used <;> cases used
    · exact h

theorem Parser.safe_of_fastPair (pair : parser.fastPair = true) (h1 : s.reps.rep1 ≤ limit)
    (h2 : s.reps.rep1 ≤ s.anchor) (h3 : s.reps.rep2 ≤ limit) : parser.Safe first src.length limit s := by
  cases parser with
  | row | lazy | optimal => cases pair
  | fast _ | doubleFast => exact .inr ⟨h1, by omega, .inl h3⟩

/-- A stored match within the limit keeps the repeat offsets there. -/
theorem Parser.Safe.store (own : parser.fastPair = false) (h : parser.Safe first src.length limit s)
    (hm : m.offset ≤ limit) : parser.Safe first src.length limit (s.store m) := by
  obtain ⟨h1, h2⟩ := s.store_reps m
  cases parser with
  | fast _ | doubleFast => cases own
  | row =>
    obtain ⟨h3, h4⟩ := h
    refine ⟨by omega, ?_⟩
    rcases h2 with h2 | h2 <;> omega
  | lazy => exact .inr (by omega)
  | optimal => trivial

theorem SourceStep.within (h : SourceStep parser f src first s m s') (hs : parser.Safe first src.length limit s)
    (hlow : ∀ pos ≤ src.length, pos ≤ f.windowLow + limit)
    (hfloor : ∀ pos, pos ≤ f.matchFloor.at pos + limit) :
    m.Within limit src.length ∧ parser.Safe first src.length limit s' := by
  cases h with
  | @fastCandidate pos c _ pair searches look low before bytes stored =>
    obtain ⟨h1, h2, h3⟩ := hs.fastPair pair (.inl searches)
    obtain ⟨e1, e2, e3, e4⟩ := parser.extendBack_spec src s.anchor f.windowLow
      ⟨pos, pos - c, minMatch + countMatchLength src (c + minMatch) (pos + minMatch)⟩ (Nat.sub_le _ _)
    rw [← stored] at e1 e2 e3 e4
    have hpos := hlow pos (by have := bytes.1; omega)
    simp only at e1 e2 e3 e4
    have := bytes.1
    refine ⟨⟨by omega, by omega, by omega⟩, parser.safe_of_fastPair pair ?_ ?_ ?_⟩
    · show m.offset ≤ limit
      omega
    · show m.offset ≤ m.start + m.length
      omega
    · exact h1
  | @fastRepeat step ip2 back _ isFast searches look inside nonzero bytes back_eq stored =>
    obtain ⟨rfl, hstep⟩ := isFast
    obtain ⟨h1, h2, h3⟩ := hs.fastPair rfl (.inl searches)
    have hback : back ≤ 1 := by rw [back_eq]; split <;> omega
    have h3 : s.reps.rep2 ≤ limit := by
      rcases h3 with h3 | h3
      · exact h3
      · exact absurd h3.1 nonzero
    subst stored
    refine ⟨⟨h1, ?_, ?_⟩, Parser.safe_of_fastPair rfl h1 ?_ h3⟩
    · show s.reps.rep1 ≤ ip2 - back
      omega
    · show ip2 - back ≤ src.length
      omega
    · simp only [minMatch]
      omega
  | @doubleFastRepeat ip _ isDouble searches look inside nonzero bytes stored =>
    subst isDouble
    obtain ⟨h1, h2, h3⟩ := hs.fastPair rfl (.inl searches)
    have h3 : s.reps.rep2 ≤ limit := by
      rcases h3 with h3 | h3
      · exact h3
      · exact absurd h3.1 nonzero
    subst stored
    refine ⟨⟨h1, ?_, ?_⟩, Parser.safe_of_fastPair rfl h1 ?_ h3⟩
    · show s.reps.rep1 ≤ ip + 1
      omega
    · show ip + 1 ≤ src.length
      omega
    · simp only [minMatch]
      omega
  | chainedRepeat pair matched inside bytes stored =>
    obtain ⟨h1, h2, h3⟩ := hs.fastPair pair (.inr matched)
    have h3 : s.reps.rep2 ≤ limit := by
      rcases h3 with h3 | h3
      · exact h3
      · rw [matched] at h3
        cases h3.2
    obtain ⟨b1, b2, b3⟩ := countRepMatchLength_pos bytes
    subst stored
    refine ⟨⟨h3, b2, ?_⟩, parser.safe_of_fastPair pair h3 ?_ h1⟩
    · show s.anchor ≤ src.length
      omega
    · simp only
      omega
  | @candidate look pos c length _ own look_le behind inside low before stored =>
    obtain ⟨e1, e2, e3, e4⟩ := parser.extendBack_spec src s.anchor (f.matchFloor.at look)
      ⟨pos, pos - c, length⟩ (Nat.sub_le _ _)
    rw [← stored] at e1 e2 e3 e4
    have hpos := hfloor pos
    simp only at e1 e2 e3 e4
    have hoff : m.offset ≤ limit := by omega
    exact ⟨⟨hoff, by omega, by omega⟩, hs.store own hoff⟩
  | @aheadRepeat pos n own look bytes =>
    obtain ⟨b1, b2, b3, -⟩ := repeatMatchWithoutPrefixAt_some bytes
    have hend := repeatMatchWithoutPrefixAt_inside bytes
    simp only [minMatch] at hend
    have hpos := hfloor pos
    have hoff : s.reps.rep1 ≤ limit := by
      rcases own with rfl | rfl
      · exact hs.1
      · -- a lazy parser's look ahead reaches one byte too far
        rcases hs with hs | hs <;> omega
    refine ⟨⟨hoff, b2, by simp only; omega⟩, Parser.Safe.store ?_ hs hoff⟩
    rcases own with rfl | rfl <;> rfl
  | @repeatAt pos raw n own look which bytes =>
    obtain ⟨b1, b2, b3, -⟩ := repeatMatchWithoutPrefixAt_some bytes
    have hend := repeatMatchWithoutPrefixAt_inside bytes
    have hpos := hfloor pos
    have hoff : raw ≤ limit := by omega
    exact ⟨⟨hoff, b2, by simp only; omega⟩, hs.store own hoff⟩

theorem SourceParse.within {ms : List FoundMatch} (h : SourceParse parser f src first s ms)
    (hs : parser.Safe first src.length limit s) (hlow : ∀ pos ≤ src.length, pos ≤ f.windowLow + limit)
    (hfloor : ∀ pos, pos ≤ f.matchFloor.at pos + limit) : ∀ m ∈ ms, m.Within limit src.length := by
  induction h with
  | done s => intro m hm; cases hm
  | step h _ ih =>
    obtain ⟨h1, h2⟩ := h.within hs hlow hfloor
    intro m hm
    rcases List.mem_cons.mp hm with rfl | hm
    · exact h1
    · exact ih h2 m hm

end Source

end Zstandard
