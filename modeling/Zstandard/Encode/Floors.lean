/-
How far back a match may reach: the floors a block is searched under, the tests a repeat offset has
to pass, and the extension of a match backwards.

Everything is measured in positions of the encoder's buffer. A block without a prefix has one floor
per position, or for the fast pair one for the whole segment; a block behind a prefix has a pair of
floors, one into each buffer, and addresses both through the virtual index that puts the prefix
first. The window a frame declares is in `declaredWindow`.
-/
import Zstandard.Encode.Repcodes
import Zstandard.Wire.HeaderWriter

namespace Zstandard

/-! ## The window a frame declares -/

/-- `MAX_DECLARABLE_WINDOW_SIZE`. -/
def maxDeclarableWindowSize : Nat := 2 ^ 27

/-- The window of the header both encoders write: the content itself where it fits the history, in a
single segment, and else a window descriptor. -/
def declaredWindow (historyLimit : Nat) (contentSize : Option Nat) : Result Nat := do
  match contentSize with
  | some n =>
    if n ≤ historyLimit then .ok n else .ok (decodeWindowDescriptor (← encodeWindowDescriptor historyLimit))
  | none => .ok (decodeWindowDescriptor (← encodeWindowDescriptor historyLimit))

/-- `block_size_max_for`: the largest block of the one-shot encoder. -/
def blockSizeMaxFor (maxHistoryBytes blockSize srcLen : Nat) : Nat :=
  min blockSize (max (min (min maxHistoryBytes maxDeclarableWindowSize) srcLen) 1)

/-- `block_size_for`: the largest block of the streaming encoder. -/
def blockSizeFor (maxHistoryBytes blockSize : Nat) (pledgedSrcSize : Option Nat) : Nat :=
  let historyLimit := min maxHistoryBytes maxDeclarableWindowSize
  min (max blockSize (2 ^ 10)) (max (min historyLimit (pledgedSrcSize.getD historyLimit)) 1)

theorem le_of_encodeWindowDescriptor {w d : Nat} (h : encodeWindowDescriptor w = .ok d) :
    w ≤ decodeWindowDescriptor d := by
  rcases encodeWindowDescriptor_spec w with ⟨d', -, hd, hleast⟩ | ⟨herr, -⟩
  · rw [h] at hd
    cases hd
    exact le_trans (le_max_left _ _) hleast.1.2
  · rw [h] at herr
    cases herr

theorem le_declaredWindow {historyLimit w n : Nat} {contentSize : Option Nat}
    (h : declaredWindow historyLimit contentSize = .ok w) (hn : n ≤ historyLimit)
    (hc : ∀ size ∈ contentSize, n ≤ size) : n ≤ w := by
  unfold declaredWindow at h
  rcases contentSize with _ | size
  · obtain ⟨d, hd, h⟩ := bind_ok h
    cases h
    have := le_of_encodeWindowDescriptor hd
    omega
  · simp only at h
    split at h
    · cases h
      exact hc _ rfl
    · obtain ⟨d, hd, h⟩ := bind_ok h
      cases h
      have := le_of_encodeWindowDescriptor hd
      omega

theorem blockSizeMaxFor_le {maxHistoryBytes blockSize srcLen : Nat} (h : 0 < maxHistoryBytes) :
    blockSizeMaxFor maxHistoryBytes blockSize srcLen ≤ min maxHistoryBytes maxDeclarableWindowSize := by
  simp only [blockSizeMaxFor, maxDeclarableWindowSize]
  omega

theorem blockSizeFor_le {maxHistoryBytes blockSize : Nat} {pledged : Option Nat} (h : 0 < maxHistoryBytes) :
    blockSizeFor maxHistoryBytes blockSize pledged ≤ min maxHistoryBytes maxDeclarableWindowSize := by
  simp only [blockSizeFor, maxDeclarableWindowSize]
  omega

/-! ## Floors -/

/-- `MatchFloor`: never below `base`, and never further than `reach` behind the position looking. -/
structure MatchFloor where
  base : Nat
  reach : Nat
deriving DecidableEq, Repr

def MatchFloor.reaching (base reach : Nat) : MatchFloor := { base, reach }

/-- The floor as seen from `pos`. -/
def MatchFloor.at (f : MatchFloor) (pos : Nat) : Nat :=
  if pos - f.reach > f.base then pos - f.reach else f.base

/-- `PrefixedMatchFloor`. -/
inductive PrefixedMatchFloor where
  | fixed (prefixLow sourceLow : Nat)
  | reaching (prefixLen : Nat) (floor : MatchFloor)
deriving DecidableEq, Repr

/-- The `(prefix_low, source_low)` pair as seen from source position `pos`. -/
def PrefixedMatchFloor.at : PrefixedMatchFloor → Nat → Nat × Nat
  | .fixed prefixLow sourceLow, _ => (prefixLow, sourceLow)
  | .reaching prefixLen floor, pos =>
    let virtualFloor := floor.at (prefixLen + pos)
    if virtualFloor ≥ prefixLen then (prefixLen, virtualFloor - prefixLen) else (virtualFloor, 0)

/-- The floors of one segment without a prefix. -/
structure SourceFloors where
  windowLow : Nat
  repWindowLow : Nat
  matchFloor : MatchFloor
deriving DecidableEq, Repr

/-- The floors of `plan_sequences_for_contiguous_segment_into`, for the segment `[start, stop)` of a
block that begins at `blockStart`. -/
def contiguousFloors (blockStart start stop maxHistoryBytes : Nat) : SourceFloors :=
  let repWindowLow := blockStart - maxHistoryBytes
  { windowLow := min (stop - maxHistoryBytes) start, repWindowLow
    matchFloor := .reaching repWindowLow maxHistoryBytes }

/-- `prefixed_window_lows`. -/
def prefixedWindowLows (prefixLen blockStart blockEnd historyLimit prefixLowLimit : Nat) : Nat × Nat :=
  let trim := prefixLen + blockEnd - historyLimit
  if trim > prefixLen then (prefixLen, min (trim - prefixLen) blockStart)
  else (min prefixLowLimit prefixLen, 0)

/-- `PrefixedBlockFloors`. -/
structure PrefixedBlockFloors where
  matchFloor : PrefixedMatchFloor
  prefixLow : Nat
  sourceLow : Nat
  repWindowLow : Nat
  prefixRetired : Bool
deriving DecidableEq, Repr

/-- `prefixed_block_floors`. -/
def prefixedBlockFloors (prefixLen blockStart blockEnd maxHistoryBytes prefixLowLimit : Nat) : PrefixedBlockFloors :=
  let (prefixLow, sourceLow) := prefixedWindowLows prefixLen blockStart blockEnd maxHistoryBytes prefixLowLimit
  let prefixRetired : Bool := prefixLow ≥ prefixLen
  let matchFloor :=
    if prefixRetired then
      .reaching prefixLen (.reaching (prefixLen + (blockStart - maxHistoryBytes)) maxHistoryBytes)
    else .fixed prefixLow sourceLow
  { matchFloor, prefixLow, sourceLow, repWindowLow := blockStart - maxHistoryBytes, prefixRetired }

/-- `logical_match_start_is_valid`. -/
def logicalMatchStartIsValid (prefixLen matchStart prefixLow sourceLow : Nat) : Bool :=
  if matchStart < prefixLen then prefixLow ≤ matchStart else sourceLow ≤ matchStart - prefixLen

theorem MatchFloor.at_reaching (base reach pos : Nat) :
    (MatchFloor.reaching base reach).at pos = max base (pos - reach) := by
  show (if pos - reach > base then pos - reach else base) = _
  split <;> omega

/-- The floor behind a retired prefix, in source positions. -/
theorem PrefixedMatchFloor.at_retired (prefixLen blockStart limit pos : Nat) :
    (PrefixedMatchFloor.reaching prefixLen (.reaching (prefixLen + (blockStart - limit)) limit)).at pos =
      (prefixLen, max (blockStart - limit) (pos - limit)) := by
  unfold PrefixedMatchFloor.at
  simp only [MatchFloor.at_reaching]
  rw [if_pos (by omega)]
  exact Prod.ext rfl (by simp only; omega)

/-! ## Carried repeat offsets -/

/-- `invalidate_no_dict_repeat_offsets`: the first two repeat offsets, dropped where they reach below
the window as seen from `current`. -/
def invalidateNoDictRepeatOffsets (r : RepeatOffsets) (current windowLow : Nat) : RepeatOffsets :=
  let maxRep := current - windowLow
  ⟨if r.rep1 > maxRep then 0 else r.rep1, if r.rep2 > maxRep then 0 else r.rep2, r.rep3⟩

/-! ## Comparing bytes -/

/-- `MIN_MATCH`. -/
def minMatch : Nat := 4

/-- The length of the common beginning of two lists. -/
def commonLength : Bytes → Bytes → Nat
  | a :: as, b :: bs => if a = b then commonLength as bs + 1 else 0
  | _, _ => 0

/-- `count_match_length`. -/
def countMatchLength (src : Bytes) (left right : Nat) : Nat := commonLength (src.drop left) (src.drop right)

/-- `match_prefix_4bytes` and `src_match_has_length`, of positions with that many bytes behind them. -/
def matchHasLength (src : Bytes) (left right len : Nat) : Bool :=
  (src.drop left).take len = (src.drop right).take len

/-- What a parser found: where it begins, how far back, and how long. -/
structure FoundMatch where
  start : Nat
  offset : Nat
  length : Nat
deriving DecidableEq, Repr

/-! ## Repeat tests -/

/-- `repeat_match_without_prefix_at`: the length of the match `rawOffset` back from `pos`. -/
def repeatMatchWithoutPrefixAt (src : Bytes) (pos rawOffset windowLow : Nat) : Option Nat :=
  if rawOffset = 0 ∨ rawOffset > pos ∨ pos + minMatch > src.length then none
  else if pos - rawOffset < windowLow then none
  else if matchHasLength src (pos - rawOffset) pos minMatch then
    some (minMatch + countMatchLength src (pos - rawOffset + minMatch) (pos + minMatch))
  else none

/-- `repeat_ahead_match_without_prefix`: the same one position further on, under the floor of `pos`. -/
def repeatAheadMatchWithoutPrefix (src : Bytes) (pos rawOffset windowLow : Nat) : Option Nat :=
  repeatMatchWithoutPrefixAt src (pos + 1) rawOffset windowLow

/-- `count_rep_match_length`, which reports no match as length 0. -/
def countRepMatchLength (src : Bytes) (pos repOffset windowLow : Nat) : Nat :=
  (repeatMatchWithoutPrefixAt src pos repOffset windowLow).getD 0

/-- `prefixed_offset_match_start`. -/
def prefixedOffsetMatchStart (prefixLen currentPos rawOffset prefixLow sourceLow : Nat) : Option Nat :=
  if rawOffset = 0 ∨ rawOffset > prefixLen + currentPos then none
  else if logicalMatchStartIsValid prefixLen (prefixLen + currentPos - rawOffset) prefixLow sourceLow then
    some (prefixLen + currentPos - rawOffset)
  else none

/-- `row_dict_match_state_repeat_match_at`, and `repeat_match_with_prefix_chain_at`. -/
def prefixedRepeatMatchAt (pre src : Bytes) (pos rawOffset prefixLow sourceLow : Nat) : Option Nat :=
  match prefixedOffsetMatchStart pre.length pos rawOffset prefixLow sourceLow with
  | some matchStart =>
    if pos + minMatch ≤ src.length ∧ matchHasLength (pre ++ src) matchStart (pre.length + pos) minMatch then
      some (minMatch + countMatchLength (pre ++ src) (matchStart + minMatch) (pre.length + pos + minMatch))
    else none
  | none => none

/-- `row_dict_match_state_repeat_ahead_match`, and `repeat_ahead_match_with_prefix_chain`. -/
def prefixedRepeatAheadMatch (pre src : Bytes) (pos rawOffset prefixLow sourceLow : Nat) : Option Nat :=
  prefixedRepeatMatchAt pre src (pos + 1) rawOffset prefixLow sourceLow

/-! ## Extending backwards -/

/-- Move a match back towards `anchor` while `continues` allows the step from its start. -/
def extendBackWhile (continues : Nat → Bool) (anchor offset : Nat) : Nat → Nat → FoundMatch
  | 0, length => { start := 0, offset, length }
  | start + 1, length =>
    if start + 1 > anchor ∧ continues (start + 1) then extendBackWhile continues anchor offset start (length + 1)
    else { start := start + 1, offset, length }

/-- `extend_back_source_match`. -/
def extendBackSourceMatch (src : Bytes) (anchor : Nat) (m : FoundMatch) : FoundMatch :=
  extendBackWhile (fun s => m.offset < s ∧ src[s - 1]? = src[s - 1 - m.offset]?) anchor m.offset m.start m.length

/-- `extend_back_source_candidate`. -/
def extendBackSourceCandidate (src : Bytes) (anchor windowLow : Nat) (m : FoundMatch) : FoundMatch :=
  extendBackWhile (fun s => m.offset < s ∧ windowLow < s - m.offset ∧ src[s - 1]? = src[s - 1 - m.offset]?)
    anchor m.offset m.start m.length

/-- `extend_back_logical_match_with_min_start`. -/
def extendBackLogicalMatchWithMinStart (pre src : Bytes) (anchor minMatchStart : Nat) (m : FoundMatch) : FoundMatch :=
  extendBackWhile (fun s => m.offset < pre.length + s ∧ minMatchStart ≤ pre.length + s - 1 - m.offset ∧
    src[s - 1]? = (pre ++ src)[pre.length + s - 1 - m.offset]?) anchor m.offset m.start m.length

/-- `extend_back_prefix_chain_match`: the lowest start is that of the buffer the match was found in. -/
def extendBackPrefixChainMatch (pre src : Bytes) (anchor prefixLow sourceLow : Nat) (m : FoundMatch) : FoundMatch :=
  extendBackLogicalMatchWithMinStart pre src anchor
    (if pre.length + m.start - m.offset < pre.length then prefixLow else pre.length + sourceLow) m

/-- `extend_back_logical_match_with_limits`: the buffer is looked up again at every step. -/
def extendBackLogicalMatchWithLimits (pre src : Bytes) (anchor prefixLow sourceLow : Nat) (m : FoundMatch) :
    FoundMatch :=
  extendBackWhile (fun s => m.offset < pre.length + s ∧
    logicalMatchStartIsValid pre.length (pre.length + s - 1 - m.offset) prefixLow sourceLow ∧
    src[s - 1]? = (pre ++ src)[pre.length + s - 1 - m.offset]?) anchor m.offset m.start m.length

/-! ## What the tests guarantee -/

section Tests

variable {src pre : Bytes} {pos raw low n prefixLow sourceLow : Nat}

theorem repeatMatchWithoutPrefixAt_some (h : repeatMatchWithoutPrefixAt src pos raw low = some n) :
    0 < raw ∧ raw ≤ pos ∧ low ≤ pos - raw ∧ minMatch ≤ n := by
  unfold repeatMatchWithoutPrefixAt at h
  split at h
  · cases h
  split at h
  · cases h
  split at h
  · cases h
    omega
  · cases h

theorem countRepMatchLength_pos (h : minMatch ≤ countRepMatchLength src pos raw low) :
    0 < raw ∧ raw ≤ pos ∧ low ≤ pos - raw := by
  unfold countRepMatchLength at h
  rcases hr : repeatMatchWithoutPrefixAt src pos raw low with _ | n
  · simp [hr, minMatch] at h
  · obtain ⟨h1, h2, h3, -⟩ := repeatMatchWithoutPrefixAt_some hr
    exact ⟨h1, h2, h3⟩

theorem prefixedOffsetMatchStart_some {prefixLen m : Nat}
    (h : prefixedOffsetMatchStart prefixLen pos raw prefixLow sourceLow = some m) :
    0 < raw ∧ raw + m = prefixLen + pos ∧ logicalMatchStartIsValid prefixLen m prefixLow sourceLow := by
  unfold prefixedOffsetMatchStart at h
  split at h
  · cases h
  split at h
  · rename_i h1 h2
    cases h
    exact ⟨by omega, by omega, h2⟩
  · cases h

theorem prefixedRepeatMatchAt_some (h : prefixedRepeatMatchAt pre src pos raw prefixLow sourceLow = some n) :
    0 < raw ∧ raw ≤ pre.length + pos ∧
      logicalMatchStartIsValid pre.length (pre.length + pos - raw) prefixLow sourceLow := by
  unfold prefixedRepeatMatchAt at h
  split at h
  · rename_i m hm
    obtain ⟨h1, h2, h3⟩ := prefixedOffsetMatchStart_some hm
    have : m = pre.length + pos - raw := by omega
    subst this
    exact ⟨h1, by omega, h3⟩
  · cases h

theorem repeatMatchWithoutPrefixAt_inside (h : repeatMatchWithoutPrefixAt src pos raw low = some n) :
    pos + minMatch ≤ src.length := by
  unfold repeatMatchWithoutPrefixAt at h
  split at h
  · cases h
  · omega

theorem prefixedRepeatMatchAt_inside (h : prefixedRepeatMatchAt pre src pos raw prefixLow sourceLow = some n) :
    pos + minMatch ≤ src.length := by
  unfold prefixedRepeatMatchAt at h
  split at h
  · split at h
    · rename_i hc
      exact hc.1
    · cases h
  · cases h

/-- A step back is taken from every start above the one arrived at. -/
theorem extendBackWhile_spec (continues : Nat → Bool) (anchor offset : Nat) : ∀ (start length : Nat),
    let m := extendBackWhile continues anchor offset start length
    m.offset = offset ∧ m.start ≤ start ∧ m.start + m.length = start + length ∧
      (m.start = start ∨ anchor ≤ m.start ∧ continues (m.start + 1) = true) := by
  intro start
  induction start with
  | zero =>
    intro length
    simp [extendBackWhile]
  | succ start ih =>
    intro length
    simp only [extendBackWhile]
    split
    · rename_i hc
      obtain ⟨h1, h2, h3, h4⟩ := ih (length + 1)
      refine ⟨h1, by omega, by omega, .inr ?_⟩
      rcases h4 with h4 | h4
      · rw [h4]
        exact ⟨by omega, hc.2⟩
      · exact h4
    · exact ⟨rfl, le_refl _, rfl, .inl rfl⟩

theorem extendBackSourceMatch_spec (src : Bytes) (anchor : Nat) (m : FoundMatch) (hm : m.offset ≤ m.start) :
    let found := extendBackSourceMatch src anchor m
    found.offset = m.offset ∧ found.start ≤ m.start ∧ found.start + found.length = m.start + m.length ∧
      m.offset ≤ found.start := by
  obtain ⟨h1, h2, h3, h4⟩ := extendBackWhile_spec
    (fun s => m.offset < s ∧ src[s - 1]? = src[s - 1 - m.offset]?) anchor m.offset m.start m.length
  refine ⟨h1, h2, h3, ?_⟩
  rcases h4 with h4 | ⟨-, h4⟩
  · unfold extendBackSourceMatch
    omega
  · have := (of_decide_eq_true h4).1
    unfold extendBackSourceMatch
    omega

theorem extendBackSourceCandidate_spec (src : Bytes) (anchor windowLow : Nat) (m : FoundMatch)
    (hm : m.offset ≤ m.start) :
    let found := extendBackSourceCandidate src anchor windowLow m
    found.offset = m.offset ∧ found.start ≤ m.start ∧ found.start + found.length = m.start + m.length ∧
      m.offset ≤ found.start := by
  obtain ⟨h1, h2, h3, h4⟩ := extendBackWhile_spec
    (fun s => m.offset < s ∧ windowLow < s - m.offset ∧ src[s - 1]? = src[s - 1 - m.offset]?)
    anchor m.offset m.start m.length
  refine ⟨h1, h2, h3, ?_⟩
  rcases h4 with h4 | ⟨-, h4⟩
  · unfold extendBackSourceCandidate
    omega
  · have := (of_decide_eq_true h4).1
    unfold extendBackSourceCandidate
    omega

/-- A match extended towards `low` still begins at or above it. -/
theorem extendBackLogicalMatchWithMinStart_spec (pre src : Bytes) (anchor low : Nat) (m : FoundMatch)
    (hm : m.offset ≤ pre.length + m.start) (hlow : low ≤ pre.length + m.start - m.offset) :
    let found := extendBackLogicalMatchWithMinStart pre src anchor low m
    found.offset = m.offset ∧ found.start ≤ m.start ∧ found.start + found.length = m.start + m.length ∧
      m.offset ≤ pre.length + found.start ∧ low ≤ pre.length + found.start - m.offset := by
  obtain ⟨h1, h2, h3, h4⟩ := extendBackWhile_spec
    (fun s => m.offset < pre.length + s ∧ low ≤ pre.length + s - 1 - m.offset ∧
      src[s - 1]? = (pre ++ src)[pre.length + s - 1 - m.offset]?) anchor m.offset m.start m.length
  refine ⟨h1, h2, h3, ?_⟩
  unfold extendBackLogicalMatchWithMinStart
  rcases h4 with h4 | ⟨-, h4⟩
  · rw [h4]
    exact ⟨hm, hlow⟩
  · obtain ⟨h5, h6, -⟩ := of_decide_eq_true h4
    exact ⟨by omega, by omega⟩

theorem extendBackLogicalMatchWithLimits_spec (pre src : Bytes) (anchor prefixLow sourceLow : Nat) (m : FoundMatch)
    (hm : m.offset ≤ pre.length + m.start)
    (hlow : logicalMatchStartIsValid pre.length (pre.length + m.start - m.offset) prefixLow sourceLow) :
    let found := extendBackLogicalMatchWithLimits pre src anchor prefixLow sourceLow m
    found.offset = m.offset ∧ found.start ≤ m.start ∧ found.start + found.length = m.start + m.length ∧
      m.offset ≤ pre.length + found.start ∧
      logicalMatchStartIsValid pre.length (pre.length + found.start - m.offset) prefixLow sourceLow := by
  obtain ⟨h1, h2, h3, h4⟩ := extendBackWhile_spec
    (fun s => m.offset < pre.length + s ∧
      logicalMatchStartIsValid pre.length (pre.length + s - 1 - m.offset) prefixLow sourceLow ∧
      src[s - 1]? = (pre ++ src)[pre.length + s - 1 - m.offset]?) anchor m.offset m.start m.length
  refine ⟨h1, h2, h3, ?_⟩
  unfold extendBackLogicalMatchWithLimits
  rcases h4 with h4 | ⟨-, h4⟩
  · rw [h4]
    exact ⟨hm, hlow⟩
  · obtain ⟨h5, h6, -⟩ := of_decide_eq_true h4
    rw [show ∀ s, pre.length + (s + 1) - 1 - m.offset = pre.length + s - m.offset from fun s => by omega] at h6
    exact ⟨by omega, h6⟩

end Tests

end Zstandard
