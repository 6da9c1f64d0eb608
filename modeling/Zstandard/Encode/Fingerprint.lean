/-
The split heuristic of the block sizes: fingerprints of the pieces of a full block are compared, and the block ends
where they begin to differ. Counters saturate at 32 bits.
-/
import Zstandard.Encode.Split

namespace Zstandard

/-- Only a full block is looked at. -/
def upstreamSplitFullBlockSize : Nat := 128 * 1024

/-- The pieces that are compared. -/
def upstreamSplitChunkSize : Nat := 8 * 1024

/-- The threshold is a fraction over this. -/
def upstreamSplitThresholdPenaltyRate : Nat := 16

/-- The threshold without a penalty, fourteen sixteenths. -/
def upstreamSplitThresholdBase : Nat := upstreamSplitThresholdPenaltyRate - 2

/-- What the first comparison adds to the threshold; each further one adds one less. -/
def upstreamSplitThresholdPenalty : Nat := 3

/-- The buckets of a fingerprint. -/
def upstreamSplitHashtableSize : Nat := 2 ^ 10

/-- The pieces that the borders of a block are judged by. -/
def upstreamSplitSegmentSize : Nat := 512

/-- Borders whose distances to the middle are this near to each other cut in the middle. -/
def upstreamSplitMinFingerprintDistance : Nat := upstreamSplitSegmentSize * upstreamSplitSegmentSize / 3

/-- The multiplier of the hash of two bytes. -/
def upstreamSplitKnuth : Nat := 0x9e3779b9

/-- The strategies that price their matches. -/
def UpstreamStrategy.isOptimal : UpstreamStrategy → Bool
  | .binaryTreeOpt | .binaryTreeUltra | .binaryTreeUltra2 => true
  | _ => false

/-- How closely a strategy looks: `0` at the borders only. -/
def UpstreamStrategy.defaultBlockSplitLevel : UpstreamStrategy → Nat
  | .fast => 0
  | .doubleFast => 1
  | .greedy | .lazy => 2
  | .lazy2 | .binaryTreeLazy2 => 3
  | .binaryTreeOpt | .binaryTreeUltra | .binaryTreeUltra2 => 4

/-- `abs_diff`. -/
def absDiff (a b : Nat) : Nat := max a b - min a b

/-- `BlockSplitFingerprint`: the events of each bucket, and how many there were. -/
structure BlockSplitFingerprint where
  events : List Nat
  count : Nat

namespace BlockSplitFingerprint

/-- No event. -/
def default : BlockSplitFingerprint := ⟨List.replicate upstreamSplitHashtableSize 0, 0⟩

/-- One more event in a bucket. -/
def bump (events : List Nat) (bucket : Nat) : List Nat :=
  events.set bucket (min (events.getD bucket 0 + 1) (2 ^ 32 - 1))

/-- `split_block_hash2`. -/
def hash2 (hashLog : Nat) (src : Bytes) : Nat :=
  if hashLog = 8 then readLe (src.take 1)
  else (((readLe (src.take 2) * upstreamSplitKnuth) % 2 ^ 32) >>> (32 - hashLog)) % upstreamSplitHashtableSize

/-- The buckets of a hash, cleared. -/
def clearPrefix (f : BlockSplitFingerprint) (hashLog : Nat) : BlockSplitFingerprint :=
  ⟨List.replicate (2 ^ hashLog) 0 ++ f.events.drop (2 ^ hashLog), 0⟩

/-- Every `samplingRate`th position. -/
def addSampledBytes (f : BlockSplitFingerprint) (samplingRate hashLog : Nat) (src : Bytes) : BlockSplitFingerprint :=
  if src.length < 2 then f
  else
    let limit := src.length - 1
    let positions := (List.range limit).filter (· % samplingRate = 0)
    ⟨positions.foldl (fun events pos => bump events (hash2 hashLog (src.drop pos))) f.events,
      f.count + limit / samplingRate⟩

/-- The fingerprint of one piece, over whatever was there before. -/
def recordSampledBytes (f : BlockSplitFingerprint) (samplingRate hashLog : Nat) (src : Bytes) :
    BlockSplitFingerprint :=
  (f.clearPrefix hashLog).addSampledBytes samplingRate hashLog src

/-- Another fingerprint's events added, in the buckets of a hash. -/
def mergeFrom (f other : BlockSplitFingerprint) (hashLog : Nat) : BlockSplitFingerprint :=
  let live := 2 ^ hashLog
  ⟨List.zipWith (fun left right => min (left + right) (2 ^ 32 - 1)) (f.events.take live) (other.events.take live) ++
      f.events.drop live,
    f.count + other.count⟩

/-- Every byte, in the bucket of its value. -/
def addHistogramBytes (f : BlockSplitFingerprint) (src : Bytes) : BlockSplitFingerprint :=
  ⟨src.foldl (fun events byte => bump events byte.toNat) f.events, f.count + src.length⟩

/-- `block_split_fp_distance`. -/
def distance (hashLog : Nat) (left right : BlockSplitFingerprint) : Nat :=
  ((List.zip (left.events.take (2 ^ hashLog)) (right.events.take (2 ^ hashLog))).map fun (l, r) =>
    absDiff (l * right.count) (r * left.count)).sum

/-- `block_split_fingerprints_differ`. -/
def differ (hashLog : Nat) (reference candidate : BlockSplitFingerprint) (penalty : Nat) : Bool :=
  if reference.count = 0 ∨ candidate.count = 0 then false
  else
    let p50 := reference.count * candidate.count
    let threshold := p50 * (upstreamSplitThresholdBase + penalty) / upstreamSplitThresholdPenaltyRate
    distance hashLog reference candidate ≥ threshold

end BlockSplitFingerprint

open BlockSplitFingerprint in
/-- The cut by the first and the last segment: none where they agree, else on the side that the middle is unlike. -/
def upstreamSplitBlockFromBorders (block : Bytes) : Nat :=
  let begin_ := default.addHistogramBytes (block.take upstreamSplitSegmentSize)
  let end_ := default.addHistogramBytes (block.drop (block.length - upstreamSplitSegmentSize))
  if differ 8 begin_ end_ 0 = false then block.length
  else
    let middleStart := block.length / 2 - upstreamSplitSegmentSize / 2
    let middle := default.addHistogramBytes ((block.drop middleStart).take upstreamSplitSegmentSize)
    let distFromBegin := distance 8 begin_ middle
    let distFromEnd := distance 8 end_ middle
    if absDiff distFromBegin distFromEnd < upstreamSplitMinFingerprintDistance then 64 * 1024
    else if distFromBegin > distFromEnd then 32 * 1024
    else 96 * 1024

open BlockSplitFingerprint in
/-- The walk over the chunks from `pos` on, `n` of them. -/
def splitByChunksLoop (samplingRate hashLog : Nat) (block : Bytes) :
    Nat → Nat → BlockSplitFingerprint → BlockSplitFingerprint → Nat → Nat
  | 0, _, _, _, _ => block.length
  | n + 1, pos, past, current, penalty =>
    let current := current.recordSampledBytes samplingRate hashLog ((block.drop pos).take upstreamSplitChunkSize)
    if differ hashLog past current penalty then pos
    else splitByChunksLoop samplingRate hashLog block n (pos + upstreamSplitChunkSize)
      (past.mergeFrom current hashLog) current (penalty - 1)

open BlockSplitFingerprint in
/-- The first piece is the past that the others are compared with, one after another. -/
def upstreamSplitBlockByChunksAt (samplingRate hashLog : Nat) (block : Bytes) : Nat :=
  let past := default.recordSampledBytes samplingRate hashLog (block.take upstreamSplitChunkSize)
  splitByChunksLoop samplingRate hashLog block (block.length / upstreamSplitChunkSize - 1) upstreamSplitChunkSize
    past default upstreamSplitThresholdPenalty

/-- The sampling and the hash of each level. -/
def upstreamSplitBlockByChunks (block : Bytes) : Nat → Nat
  | 0 => upstreamSplitBlockByChunksAt 43 8 block
  | 1 => upstreamSplitBlockByChunksAt 11 9 block
  | 2 => upstreamSplitBlockByChunksAt 5 10 block
  | _ => upstreamSplitBlockByChunksAt 1 10 block

/-- `upstream_split_block`. -/
def upstreamSplitBlock (block : Bytes) (splitLevel : Nat) : Nat :=
  if splitLevel = 0 then upstreamSplitBlockFromBorders block
  else upstreamSplitBlockByChunks block (splitLevel - 1)

/-- `upstream_optimal_block_size`: a block is cut only if compression has saved something so far. -/
def upstreamOptimalBlockSize (src : Bytes) (blockStart blockSizeMax : Nat) (strategy : UpstreamStrategy)
    (savings : Int) : Nat :=
  let remaining := src.length - blockStart
  if remaining < upstreamSplitFullBlockSize ∨ blockSizeMax < upstreamSplitFullBlockSize then
    min remaining blockSizeMax
  else if savings < 3 then upstreamSplitFullBlockSize
  else upstreamSplitBlock ((src.drop blockStart).take upstreamSplitFullBlockSize) strategy.defaultBlockSplitLevel

/-! ## A split is inside the block -/

theorem splitByChunksLoop_le {samplingRate hashLog : Nat} {block : Bytes} :
    ∀ (n pos : Nat) (past current : BlockSplitFingerprint) (penalty : Nat),
      pos + n * upstreamSplitChunkSize ≤ block.length →
      splitByChunksLoop samplingRate hashLog block n pos past current penalty ≤ block.length
  | 0, _, _, _, _, _ => le_refl _
  | n + 1, pos, past, current, penalty, h => by
    rw [Nat.succ_mul] at h
    simp only [splitByChunksLoop]
    split
    · omega
    · exact splitByChunksLoop_le n _ _ _ _ (by omega)

theorem upstreamSplitBlockByChunksAt_le (samplingRate hashLog : Nat) {block : Bytes}
    (h : block.length = upstreamSplitFullBlockSize) :
    upstreamSplitBlockByChunksAt samplingRate hashLog block ≤ block.length := by
  apply splitByChunksLoop_le
  rw [h]; decide

theorem upstreamSplitBlock_le {block : Bytes} (h : block.length = upstreamSplitFullBlockSize) (splitLevel : Nat) :
    upstreamSplitBlock block splitLevel ≤ upstreamSplitFullBlockSize := by
  unfold upstreamSplitBlock
  split
  · unfold upstreamSplitBlockFromBorders
    dsimp only
    split_ifs
    · exact le_of_eq h
    all_goals decide
  · rw [← h]
    unfold upstreamSplitBlockByChunks
    split <;> exact upstreamSplitBlockByChunksAt_le _ _ h

/-- The heuristic never asks for more than the largest block. -/
theorem upstreamOptimalBlockSize_le (src : Bytes) (blockStart blockSizeMax : Nat) (strategy : UpstreamStrategy)
    (savings : Int) : upstreamOptimalBlockSize src blockStart blockSizeMax strategy savings ≤ blockSizeMax := by
  unfold upstreamOptimalBlockSize
  dsimp only
  split_ifs with h hs
  · exact min_le_right _ _
  · omega
  · have hlen : ((src.drop blockStart).take upstreamSplitFullBlockSize).length = upstreamSplitFullBlockSize := by
      rw [List.length_take, List.length_drop]; omega
    exact (upstreamSplitBlock_le hlen _).trans (by omega)

end Zstandard
