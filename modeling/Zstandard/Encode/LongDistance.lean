/-
Long-distance matching: the hash table, the rolling hash that picks the positions to file, and the generation of a
block's raw sequences.

Positions live in one index space, the dictionary first and then the frame. An index that a slice does not have and a
subtraction of indices below zero stop the generator, and so does a loop that would run on for ever: all three are
`.error .generic`. What the source casts to `u32` is taken modulo `2 ^ 32`.
-/
import Zstandard.Encode.Candidates
import Zstandard.Encode.Split
import Zstandard.Wire.Xxhash

namespace Zstandard

namespace Ldm

/-! ## Parameters -/

/-- The shortest long match, where no override asks for another. -/
def ldmMinMatchLength : Nat := 64
def ldmBucketSizeLog : Nat := 4
def ldmBucketSizeLogMax : Nat := 8
def hashLogMin : Nat := 6
def hashLogMax : Nat := 30

/-- `as_upstream_code`. -/
def upstreamCode : UpstreamStrategy → Nat
  | .fast => 1
  | .doubleFast => 2
  | .greedy => 3
  | .lazy => 4
  | .lazy2 => 5
  | .binaryTreeLazy2 => 6
  | .binaryTreeOpt => 7
  | .binaryTreeUltra => 8
  | .binaryTreeUltra2 => 9

/-- `ParameterOverrides`, the long-distance part. -/
structure LdmParameterOverrides where
  hashLog : Option Nat
  minMatchLength : Option Nat
  bucketSizeLog : Option Nat
  hashRateLog : Option Nat
deriving DecidableEq, Repr

/-- Resolved parameters. A match is never empty: an override of zero counts as none. -/
structure LdmParameters where
  windowLog : Nat
  hashLog : Nat
  minMatchLength : Nat
  bucketSizeLog : Nat
  hashRateLog : Nat
  minMatchLength_pos : 0 < minMatchLength
deriving DecidableEq, Repr

/-- `clamp`. -/
def clamp (value low high : Nat) : Nat := if value < low then low else if value > high then high else value

/-- An override that is set to something. -/
def given (value : Option Nat) : Option Nat := value.filter (· ≠ 0)

/-- The shortest match: an override, or by strategy. -/
def resolveMinMatch (override : Option Nat) (strategy : UpstreamStrategy) : Nat :=
  (given override).getD
    (if upstreamCode strategy ≥ upstreamCode .binaryTreeUltra then ldmMinMatchLength / 2 else ldmMinMatchLength)

theorem resolveMinMatch_pos (override : Option Nat) (strategy : UpstreamStrategy) :
    0 < resolveMinMatch override strategy := by
  unfold resolveMinMatch given ldmMinMatchLength
  rcases override with _ | value
  · simp only [Option.filter_none, Option.getD_none]
    split <;> norm_num
  · by_cases h0 : value = 0
    · simp only [h0, ne_eq, not_true_eq_false, decide_false, Option.filter_some_neg, Option.getD_none]
      split <;> norm_num
    · simp only [ne_eq, h0, not_false_eq_true, decide_true, Option.filter_some_pos, Option.getD_some]
      omega

/-- `LdmParameters::resolve`. -/
def LdmParameters.resolve (overrides : LdmParameterOverrides) (strategy : UpstreamStrategy) (windowLog : Nat) :
    LdmParameters :=
  let hashRateLog :=
    match given overrides.hashRateLog with
    | some rate => rate
    | none =>
      match given overrides.hashLog with
      | some hashLog => if windowLog > hashLog then windowLog - hashLog else 0
      | none => 7 - upstreamCode strategy / 3
  let hashLog := (given overrides.hashLog).getD (clamp (windowLog - hashRateLog) hashLogMin hashLogMax)
  let bucketSizeLog :=
    (given overrides.bucketSizeLog).getD (clamp (upstreamCode strategy) ldmBucketSizeLog ldmBucketSizeLogMax)
  { windowLog, hashLog
    minMatchLength := resolveMinMatch overrides.minMatchLength strategy
    bucketSizeLog := min bucketSizeLog hashLog
    hashRateLog
    minMatchLength_pos := resolveMinMatch_pos _ _ }

/-! ## The rolling hash -/

/-- `GEAR_TAB`. -/
def gearTab : List UInt64 :=
  [0xf5b8f72c5f77775c, 0x84935f266b7ac412, 0xb647ada9ca730ccc, 0xb065bb4b114fb1de,
    0x34584e7e8c3a9fd0, 0x4e97e17c6ae26b05, 0x3a03d743bc99a604, 0xcecd042422c4044f,
    0x76de76c58524259e, 0x9c8528f65badeaca, 0x86563706e2097529, 0x2902475fa375d889,
    0xafb32a9739a5ebe6, 0xce2714da3883e639, 0x21eaf821722e69e, 0x37b628620b628,
    0x49a8d455d88caf5, 0x8556d711e6958140, 0x4f7ae74fc605c1f, 0x829f0c3468bd3a20,
    0x4ffdc885c625179e, 0x8473de048a3daf1b, 0x51008822b05646b2, 0x69d75d12b2d1cc5f,
    0x8c9d4a19159154bc, 0xc3cc10f4abbd4003, 0xd06ddc1cecb97391, 0xbe48e6e7ed80302e,
    0x3481db31cee03547, 0xacc3f67cdaa1d210, 0x65cb771d8c7f96cc, 0x8eb27177055723dd,
    0xc789950d44cd94be, 0x934feadc3700b12b, 0x5e485f11edbdf182, 0x1e2e2a46fd64767a,
    0x2969ca71d82efa7c, 0x9d46e9935ebbba2e, 0xe056b67e05e6822b, 0x94d73f55739d03a0,
    0xcd7010bdb69b5a03, 0x455ef9fcd79b82f4, 0x869cb54a8749c161, 0x38d1a4fa6185d225,
    0xb475166f94bbe9bb, 0xa4143548720959f1, 0x7aed4780ba6b26ba, 0xd0ce264439e02312,
    0x84366d746078d508, 0xa8ce973c72ed17be, 0x21c323a29a430b01, 0x9962d617e3af80ee,
    0xab0ce91d9c8cf75b, 0x530e8ee6d19a4dbc, 0x2ef68c0cf53f5d72, 0xc03a681640a85506,
    0x496e4e9f9c310967, 0x78580472b59b14a0, 0x273824c23b388577, 0x66bf923ad45cb553,
    0x47ae1a5a2492ba86, 0x35e304569e229659, 0x4765182a46870b6f, 0x6cbab625e9099412,
    0xddac9a2e598522c1, 0x7172086e666624f2, 0xdf5003ca503b7837, 0x88c0c1db78563d09,
    0x58d51865acfc289d, 0x177671aec65224f1, 0xfb79d8a241e967d7, 0x2be1e101cad9a49a,
    0x6625682f6e29186b, 0x399553457ac06e50, 0x35dffb4c23abb74, 0x429db2591f54aade,
    0xc52802a8037d1009, 0x6acb27381f0b25f3, 0xf45e2551ee4f823b, 0x8b0ea2d99580c2f7,
    0x3bed519cbcb4e1e1, 0xff452823dbb010a, 0x9d42ed614f3dd267, 0x5b9313c06257c57b,
    0xa114b8008b5e1442, 0xc1fe311c11c13d4b, 0x66e8763ea34c5568, 0x8b982af1c262f05d,
    0xee8876faaa75fbb7, 0x8a62a4d0d172bb2a, 0xc13d94a3b7449a97, 0x6dbbba9dc15d037c,
    0xc786101f1d92e0f1, 0xd78681a907a0b79b, 0xf61aaf2962c9abb9, 0x2cfd16fcd3cb7ad9,
    0x868c5b6744624d21, 0x25e650899c74ddd7, 0xba042af4a7c37463, 0x4eb1a539465a3eca,
    0xbe09dbf03b05d5ca, 0x774e5a362b5472ba, 0x47a1221229d183cd, 0x504b0ca18ef5a2df,
    0xdffbdfbde2456eb9, 0x46cd2b2fbee34634, 0xf2aef8fe819d98c3, 0x357f5276d4599d61,
    0x24a5483879c453e3, 0x88026889192b4b9, 0x28da96671782dbec, 0x4ef37c40588e9aaa,
    0x8837b90651bc9fb3, 0xc164f741d3f0e5d6, 0xbc135a0a704b70ba, 0x69cd868f7622ada,
    0xbc37ba89e0b9c0ab, 0x47c14a01323552f6, 0x4f00794bacee98bb, 0x7107de7d637a69d5,
    0x88af793bb6f2255e, 0xf3c6466b8799b598, 0xc288c616aa7f3b59, 0x81ca63cf42fca3fd,
    0x88d85ace36a2674b, 0xd056bd3792389e7, 0xe55c396c4e9dd32d, 0xbefb504571e6c0a6,
    0x96ab32115e91e8cc, 0xbf8acb18de8f38d1, 0x66dae58801672606, 0x833b6017872317fb,
    0xb87c16f2d1c92864, 0xdb766a74e58b669c, 0x89659f85c61417be, 0xc8daad856011ea0c,
    0x76a4b565b6fe7eae, 0xa469d085f6237312, 0xaaf0365683a3e96c, 0x4dbb746f8424f7b8,
    0x638755af4e4acc1, 0x3d7807f5bde64486, 0x17be6d8f5bbb7639, 0x903f0cd44dc35dc,
    0x67b672eafdf1196c, 0xa676ff93ed4c82f1, 0x521d1004c5053d9d, 0x37ba9ad09ccc9202,
    0x84e54d297aacfb51, 0xa0b4b776a143445, 0x820d471e20b348e, 0x1874383cb83d46dc,
    0x97edeec7a1efe11c, 0xb330e50b1bdc42aa, 0x1dd91955ce70e032, 0xa514cdb88f2939d5,
    0x2791233fd90db9d3, 0x7b670a4cc50f7a9b, 0x77c07d2a05c6dfa5, 0xe3778b6646d0a6fa,
    0xb39c8eda47b56749, 0x933ed448addbef28, 0xaf846af6ab7d0bf4, 0xe5af208eb666e49,
    0x5e6622f73534cd6a, 0x297daeca42ef5b6e, 0x862daef3d35539a6, 0xe68722498f8e1ea9,
    0x981c53093dc0d572, 0xfa09b0bfbf86fbf5, 0x30b1e96166219f15, 0x70e7d466bdc4fb83,
    0x5a66736e35f2a8e9, 0xcddb59d2b7c1baef, 0xd6c7d247d26d8996, 0xea4e39eac8de1ba3,
    0x539c8bb19fa3aff2, 0x9f90e4c5fd508d8, 0xa34e5956fbaf3385, 0x2e2f8e151d3ef375,
    0x173691e9b83faec1, 0xb85a8d56bf016379, 0x8382381267408ae3, 0xb90f901bbdc0096d,
    0x7c6ad32933bcec65, 0x76bb5e2f2c8ad595, 0x390f851a6cf46d28, 0xc3e6064da1c2da72,
    0xc52a0c101cfa5389, 0xd78eaf84a3fbc530, 0x3781b9e2288b997e, 0x73c2f6dea83d05c4,
    0x4228e364c5b5ed7, 0x9d7a3edf0da43911, 0x8edcfeda24686756, 0x5e7667a7b7a9b3a1,
    0x4c4f389fa143791d, 0xb08bc1023da7cddc, 0x7ab4be3ae529b1cc, 0x754e6132dbe74ff9,
    0x71635442a839df45, 0x2f6fb1643fbe52de, 0x961e0a42cf7a8177, 0xf3b45d83d89ef2ea,
    0xee3de4cf4a6e3e9b, 0xcd6848542c3295e7, 0xe4cee1664c78662f, 0x9947548b474c68c4,
    0x25d73777a5ed8b0b, 0xc915b1d636b7fc, 0x21c2ba75d9b0d2da, 0x5f6b5dcf608a64a1,
    0xdcf333255ff9570c, 0x633b922418ced4ee, 0xc136dde0b004b34a, 0x58cc83b05d4b2f5a,
    0x5eb424dda28e42d2, 0x62df47369739cd98, 0xb4e0b42485e4ce17, 0x16e1f0c1f9a8d1e7,
    0x8ec3916707560ebf, 0x62ba6e2df2cc9db3, 0xcbf9f4ff77d83a16, 0x78d9d7d07d2bbcc4,
    0xef554ce1e02c41f4, 0x8d7581127eccf94d, 0xa9b53336cb3c8a05, 0x38c42c0bf45c4f91,
    0x640893cdf4488863, 0x80ec34bc575ea568, 0x39f324f5b48eaa40, 0xe9d9ed1f8eff527f,
    0x9224fc058cc5a214, 0xbaba00b04cfe7741, 0x309a9f120fcf52af, 0xa558f3ec65626212,
    0x424bec8b7adabe2f, 0x41622513a6aea433, 0xb88da2d5324ca798, 0xd287733b245528a4,
    0x9a44697e6d68aec3, 0x7b1093be2f49bb28, 0x50bbec632e3d8aad, 0x6cd90723e1ea8283,
    0x897b9e7431b02bf3, 0x219efdcb338a7047, 0x3b0311f0a27c0656, 0xdb17bf91c0db96e7,
    0x8cd4fd6b4e85a5b2, 0xfab071054ba6409d, 0x40d6fe831fa9dfd9, 0xaf358debad7d791e,
    0xeb8d0e25a65e3e58, 0xbbcbd3df14e08580, 0xcf751f27ecdab2b, 0x2b4da14f2613d8f4]

def ldmBatchSize : Nat := 64
def ldmMaxChunkSize : Nat := 2 ^ 20
def hashReadSize : Nat := 8

/-- `GearHash`: a rolling hash, and the bits that are all set at a split. -/
structure GearHash where
  rolling : UInt64
  stopMask : UInt64
deriving DecidableEq, Repr

namespace GearHash

def new (params : LdmParameters) : GearHash :=
  let maxBitsInMask := min params.minMatchLength 64
  let rate := params.hashRateLog
  let stopMask : UInt64 :=
    if rate > 0 ∧ rate ≤ maxBitsInMask then
      ((1 <<< UInt64.ofNat rate) - 1) <<< UInt64.ofNat (maxBitsInMask - rate)
    else (1 <<< UInt64.ofNat rate) - 1
  { rolling := 0xffffffff, stopMask }

/-- The loop of `feed` after `n` bytes: the hash, the bytes read and the splits found, `room` of which fit. -/
def feedLoop (stopMask : UInt64) : Bytes → UInt64 → Nat → Nat → UInt64 × Nat × List Nat
  | [], hash, n, _ => (hash, n, [])
  | b :: data, hash, n, room =>
    let hash := (hash <<< 1) + gearTab.getD b.toNat 0
    if hash &&& stopMask = 0 then
      if room = 1 then (hash, n + 1, [n + 1])
      else
        let (final, read, splits) := feedLoop stopMask data hash (n + 1) (room - 1)
        (final, read, (n + 1) :: splits)
    else feedLoop stopMask data hash (n + 1) room

/-- `feed`: how many bytes it consumed, and the splits in them. -/
def feed (g : GearHash) (data : Bytes) : GearHash × Nat × List Nat :=
  let (rolling, n, splits) := feedLoop g.stopMask data g.rolling 0 ldmBatchSize
  ({ g with rolling }, n, splits)

end GearHash

/-! ## The table -/

/-- `LdmEntry`: a position, and the upper half of the hash it was filed under. -/
structure LdmEntry where
  offset : Nat
  checksum : Nat
deriving DecidableEq, Repr

instance : Inhabited LdmEntry := ⟨⟨0, 0⟩⟩

/-- Buckets of candidates, and in each the slot that is written next. Every slot a hash selects exists. -/
structure LdmTable where
  entries : List LdmEntry
  bucketCursors : List Nat
  bucketSizeLog : Nat
  hashBits : Nat
  entries_length : entries.length = 2 ^ hashBits * 2 ^ bucketSizeLog
  bucketCursors_length : bucketCursors.length = 2 ^ hashBits
  bucketCursors_lt : ∀ cursor ∈ bucketCursors, cursor < 2 ^ bucketSizeLog
deriving DecidableEq, Repr

/-- `max_table_log` of an entry, where `usize` has 64 bits. -/
def maxHashLog : Nat := 59

namespace LdmTable

/-- `geometry`: the logs a table is built with. -/
def geometry (params : LdmParameters) : Nat × Nat :=
  let hashLog := min params.hashLog maxHashLog
  (hashLog, min params.bucketSizeLog hashLog)

def new (params : LdmParameters) : LdmTable where
  entries := List.replicate (2 ^ (geometry params).1) default
  bucketCursors := List.replicate (2 ^ ((geometry params).1 - (geometry params).2)) 0
  bucketSizeLog := (geometry params).2
  hashBits := (geometry params).1 - (geometry params).2
  entries_length := by
    rw [List.length_replicate, ← pow_add]
    congr 1
    unfold geometry
    simp only
    omega
  bucketCursors_length := List.length_replicate
  bucketCursors_lt := fun cursor h => by
    rw [List.eq_of_mem_replicate h]
    positivity

/-- The bucket of a hash that the table has. -/
def bucket (t : LdmTable) (hash : Nat) : List LdmEntry :=
  (t.entries.drop (hash * 2 ^ t.bucketSizeLog)).take (2 ^ t.bucketSizeLog)

/-- `reduce`: positions below the reducer are forgotten. -/
def reduce (t : LdmTable) (reducer : Nat) : LdmTable :=
  { t with
    entries := t.entries.map fun entry => { entry with offset := entry.offset - reducer }
    entries_length := by rw [List.length_map]; exact t.entries_length }

/-- `insert`. -/
def insert (t : LdmTable) (hash : Nat) (entry : LdmEntry) : LdmTable :=
  let cursor := t.bucketCursors.getD hash 0
  { t with
    entries := t.entries.set (hash * 2 ^ t.bucketSizeLog + cursor) entry
    bucketCursors := t.bucketCursors.set hash ((cursor + 1) % 2 ^ t.bucketSizeLog % 2 ^ 8)
    entries_length := by rw [List.length_set]; exact t.entries_length
    bucketCursors_length := by rw [List.length_set]; exact t.bucketCursors_length
    bucketCursors_lt := fun c hc => by
      rcases List.mem_or_eq_of_mem_set hc with hc | rfl
      · exact t.bucketCursors_lt c hc
      · exact lt_of_le_of_lt (Nat.mod_le _ _) (Nat.mod_lt _ (by positivity)) }

end LdmTable

/-! ## The bytes searched -/

/-- A subtraction of indices. -/
def subIndex (a b : Nat) : Result Nat := if b ≤ a then .ok (a - b) else .error .generic

/-- A byte of a slice. -/
def byteAt (slice : Bytes) (i : Nat) : Result UInt8 :=
  match slice[i]? with
  | some b => .ok b
  | none => .error .generic

/-- `LdmSource`: the dictionary in front of the frame, one space of positions. -/
structure LdmSource where
  dictionary : Bytes
  frame : Bytes
deriving DecidableEq, Repr

namespace LdmSource

variable (s : LdmSource)

def frameStart : Nat := s.dictionary.length

def len : Nat := s.dictionary.length + s.frame.length

def byte (pos : Nat) : Result UInt8 :=
  if s.dictionary.length ≤ pos then byteAt s.frame (pos - s.dictionary.length) else byteAt s.dictionary pos

def frameRange (start stop : Nat) : Result Bytes := do
  let start ← subIndex start s.dictionary.length
  let stop ← subIndex stop s.dictionary.length
  if start ≤ stop ∧ stop ≤ s.frame.length then .ok ((s.frame.drop start).take (stop - start)) else .error .generic

end LdmSource

section
variable (byte : Nat → Result UInt8)

/-- The loop of `count_forwards` after `count` bytes. -/
def countForwardsLoop (pos matchPos stop : Nat) : Nat → Nat → Result Nat
  | 0, _ => .error .generic
  | fuel + 1, count =>
    if pos + count < stop then do
      let a ← byte (pos + count)
      let b ← byte (matchPos + count)
      if a = b then countForwardsLoop pos matchPos stop fuel (count + 1) else .ok count
    else .ok count

/-- The loop of `count_backwards` after `count` bytes. -/
def countBackwardsLoop (pos anchor matchPos windowLow : Nat) : Nat → Nat → Result Nat
  | 0, _ => .error .generic
  | fuel + 1, count => do
    let here ← subIndex pos count
    if here > anchor then
      let there ← subIndex matchPos count
      if there > windowLow then
        let a ← byte (here - 1)
        let b ← byte (there - 1)
        if a = b then countBackwardsLoop pos anchor matchPos windowLow fuel (count + 1) else .ok count
      else .ok count
    else .ok count

end

namespace LdmSource

variable (s : LdmSource)

/-- `count_forwards`: the shared bytes from two positions on. -/
def countForwards (pos matchPos stop : Nat) : Result Nat :=
  if matchPos ≥ s.frameStart then do
    let pos ← subIndex pos s.frameStart
    let matchPos ← subIndex matchPos s.frameStart
    let stop ← subIndex stop s.frameStart
    countForwardsLoop (byteAt s.frame) pos matchPos stop (stop - pos + 1) 0
  else countForwardsLoop s.byte pos matchPos stop (stop - pos + 1) 0

/-- `count_backwards`: the shared bytes in front of two positions. -/
def countBackwards (pos anchor matchPos windowLow : Nat) : Result Nat :=
  if windowLow ≥ s.frameStart then do
    let pos ← subIndex pos s.frameStart
    let anchor ← subIndex anchor s.frameStart
    let matchPos ← subIndex matchPos s.frameStart
    let windowLow ← subIndex windowLow s.frameStart
    countBackwardsLoop (byteAt s.frame) pos anchor matchPos windowLow (pos - anchor + 1) 0
  else countBackwardsLoop s.byte pos anchor matchPos windowLow (pos - anchor + 1) 0

end LdmSource

/-! ## Generation -/

/-- The best candidate of a bucket. -/
structure BucketMatch where
  matchPos : Nat
  forward : Nat
  backward : Nat
deriving DecidableEq, Repr

/-- The length that candidates are compared by. -/
def BucketMatch.total (m : BucketMatch) : Nat := m.forward + m.backward

/-- The scan of a bucket: among equal totals the earliest entry wins. An entry that is not in front of the split fails
the debug assertion of the source. -/
def scanBucket (src : LdmSource) (minMatch split stop anchor windowLow checksum : Nat) :
    List LdmEntry → Option BucketMatch → Result (Option BucketMatch)
  | [], best => .ok best
  | candidate :: rest, best =>
    if candidate.checksum ≠ checksum ∨ candidate.offset ≤ windowLow then
      scanBucket src minMatch split stop anchor windowLow checksum rest best
    else if split ≤ candidate.offset then .error .generic
    else do
      let matchPos := candidate.offset
      let forward ← src.countForwards split matchPos stop
      if forward < minMatch then scanBucket src minMatch split stop anchor windowLow checksum rest best
      else do
        let backward ← src.countBackwards split anchor matchPos windowLow
        let best :=
          match best with
          | none => some { matchPos, forward, backward }
          | some b => if forward + backward > b.total then some { matchPos, forward, backward } else some b
        scanBucket src minMatch split stop anchor windowLow checksum rest best

/-- What the generator carries along: the table, the end of the last match and the sequences so far. -/
structure Generation where
  table : LdmTable
  anchor : Nat
  out : List RawSequence
deriving DecidableEq, Repr

/-- Where a split is filed, and its entry. -/
def bucketOf (t : LdmTable) (xxhash : UInt64) : Nat := xxhash.toNat % 2 ^ 32 % 2 ^ t.hashBits

/-- What a split files: its position and the check of its hash. -/
def entryOf (split : Nat) (xxhash : UInt64) : LdmEntry :=
  { offset := split % 2 ^ 32, checksum := xxhash.toNat / 2 ^ 32 }

section
variable (src : LdmSource) (minMatch ip hashed stop windowLow : Nat)

/-- One split point. -/
def processSplit (splitOffset : Nat) (g : Generation) : Result Generation := do
  let split ← subIndex (ip + splitOffset) minMatch
  let window ← src.frameRange split (split + minMatch)
  let xxhash := xxh64 window 0
  let hash := bucketOf g.table xxhash
  let entry := entryOf split xxhash
  if split < g.anchor then .ok { g with table := g.table.insert hash entry }
  else do
    let best ← scanBucket src minMatch split stop g.anchor windowLow entry.checksum (g.table.bucket hash) none
    match best with
    | none => .ok { g with table := g.table.insert hash entry }
    | some m => do
      let matchStart ← subIndex split m.backward
      let literalLength ← subIndex matchStart g.anchor
      let offset ← subIndex split m.matchPos
      let sequence : RawSequence := {
        literalLength := literalLength % 2 ^ 32, matchLength := (m.forward + m.backward) % 2 ^ 32
        offset := offset % 2 ^ 32 }
      .ok { table := g.table.insert hash entry, anchor := split + m.forward, out := g.out ++ [sequence] }

/-- The split points of one batch. A match that runs past what was hashed ends the batch: hashing
restarts at its end. -/
def processSplits : List Nat → Generation → Result (Generation × Option Nat)
  | [], g => .ok (g, none)
  | splitOffset :: rest, g => do
    let g' ← processSplit src minMatch ip stop windowLow splitOffset g
    if g.anchor ≠ g'.anchor ∧ g'.anchor > ip + hashed then do
      let restart ← subIndex g'.anchor hashed
      .ok (g', some restart)
    else processSplits rest g'

end

/-- The main loop of `generate_into`. -/
def generateLoop (src : LdmSource) (minMatch stop limit windowLow : Nat) :
    Nat → Nat → GearHash → Generation → Result Generation
  | 0, _, _, _ => .error .generic
  | fuel + 1, ip, gear, g =>
    if ip < limit then do
      let data ← src.frameRange ip limit
      let (gear, hashed, splits) := gear.feed data
      let (g, restart) ← processSplits src minMatch ip hashed stop windowLow splits g
      generateLoop src minMatch stop limit windowLow fuel (restart.getD ip + hashed) gear g
    else .ok g

/-- `LdmState`: the table, and the end of the dictionary while it may be matched. -/
structure LdmState where
  table : LdmTable
  params : LdmParameters
  loadedDictEnd : Nat
deriving DecidableEq, Repr

namespace LdmState

def new (params : LdmParameters) : LdmState := { table := .new params, params, loadedDictEnd := 0 }

/-- The splits of one batch of the dictionary. -/
def fillSplits (dictionary : Bytes) (minMatch ip : Nat) : List Nat → LdmTable → Result LdmTable
  | [], t => .ok t
  | splitOffset :: rest, t =>
    if ip + splitOffset < minMatch then fillSplits dictionary minMatch ip rest t
    else
      let split := ip + splitOffset - minMatch
      if split + minMatch ≤ dictionary.length then
        let xxhash := xxh64 ((dictionary.drop split).take minMatch) 0
        fillSplits dictionary minMatch ip rest (t.insert (bucketOf t xxhash) (entryOf split xxhash))
      else .error .generic

/-- The loop of `fill`: one batch of splits after another is filed. -/
def fillLoop (dictionary : Bytes) (minMatch : Nat) : Nat → Nat → GearHash → LdmTable → Result LdmTable
  | 0, _, _, _ => .error .generic
  | fuel + 1, ip, gear, t =>
    if ip < dictionary.length then do
      let (gear, hashed, splits) := gear.feed (dictionary.drop ip)
      let t ← fillSplits dictionary minMatch ip splits t
      fillLoop dictionary minMatch fuel (ip + hashed) gear t
    else .ok t

/-- `fill_from_dictionary`. -/
def fillFromDictionary (s : LdmState) (dictionary : Bytes) : Result LdmState := do
  let table ← fillLoop dictionary s.params.minMatchLength (dictionary.length + 1) 0 (.new s.params) s.table
  .ok { s with table, loadedDictEnd := dictionary.length }

/-- `shift_positions`. -/
def shiftPositions (s : LdmState) (dropped : Nat) : Result LdmState :=
  if dropped < 2 ^ 32 then .ok { s with table := s.table.reduce dropped, loadedDictEnd := 0 } else .error .generic

/-- `generate_into`: the state, the sequences appended and the bytes no match covers at the end. -/
def generateInto (s : LdmState) (src : LdmSource) (start stop windowLow : Nat) (out : List RawSequence) :
    Result (LdmState × List RawSequence × Nat) :=
  let minMatch := s.params.minMatchLength
  if stop - start < minMatch then .ok (s, out, stop - start)
  else do
    let limit := stop - hashReadSize
    let g ← generateLoop src minMatch stop limit windowLow (limit + 1) (start + minMatch) (.new s.params)
      { table := s.table, anchor := start, out }
    let leftover ← subIndex stop g.anchor
    .ok ({ s with table := g.table }, g.out, leftover)

/-- The literals since the last match belong to the first sequence behind `before`. -/
def addLiterals (out : List RawSequence) (before literals : Nat) : List RawSequence :=
  out.modify before fun sequence => { sequence with literalLength := (sequence.literalLength + literals) % 2 ^ 32 }

/-- How far down a chunk may reach: the dictionary is credited until the frame outgrows the window and it. -/
def windowFloor (s : LdmState) (chunkEnd maxDistance : Nat) : LdmState × Nat :=
  if chunkEnd > maxDistance + s.loadedDictEnd then ({ s with loadedDictEnd := 0 }, chunkEnd - maxDistance) else (s, 0)

/-- One chunk of `generate_sequences`. -/
def generateChunk (src : LdmSource) (maxDistance chunkStart chunkEnd leftoverLiterals : Nat) (s : LdmState)
    (out : List RawSequence) : Result (LdmState × List RawSequence × Nat) := do
  let (s, windowLow) := windowFloor s chunkEnd maxDistance
  let before := out.length
  let (s, out, leftover) ← s.generateInto src chunkStart chunkEnd windowLow out
  if out.length > before then .ok (s, addLiterals out before leftoverLiterals, leftover % 2 ^ 32)
  else .ok (s, out, (leftoverLiterals + (chunkEnd - chunkStart) % 2 ^ 32) % 2 ^ 32)

/-- The chunks of `generate_sequences`. -/
def generateChunks (src : LdmSource) (stop maxDistance : Nat) :
    Nat → Nat → Nat → LdmState → List RawSequence → Result (LdmState × List RawSequence)
  | 0, _, _, _, _ => .error .generic
  | fuel + 1, chunkStart, leftoverLiterals, s, out =>
    if chunkStart < stop then do
      let chunkEnd := min (chunkStart + ldmMaxChunkSize) stop
      let (s, out, leftoverLiterals) ← generateChunk src maxDistance chunkStart chunkEnd leftoverLiterals s out
      generateChunks src stop maxDistance fuel chunkEnd leftoverLiterals s out
    else .ok (s, out)

/-- `generate_sequences`. -/
def generateSequences (s : LdmState) (src : LdmSource) (start stop maxDistance : Nat) (out : List RawSequence) :
    Result (LdmState × List RawSequence) :=
  generateChunks src stop maxDistance (stop - start + 1) start 0 s out

end LdmState

/-! ## A frame's matches -/

/-- `LdmFrameState`: the matcher, and the matches of the block it last ran over, by its `[start, end)`. -/
structure LdmFrameState where
  matcher : LdmState
  maxDistance : Nat
  sequences : List RawSequence
  generatedFor : Option (Nat × Nat)
deriving DecidableEq, Repr

namespace LdmFrameState

def new (params : LdmParameters) (maxDistance : Nat) : LdmFrameState :=
  { matcher := .new params, maxDistance, sequences := [], generatedFor := none }

/-- `shift_positions`: what was generated for a block moves with it. -/
def shiftPositions (s : LdmFrameState) (dropped : Nat) : Result LdmFrameState := do
  let matcher ← s.matcher.shiftPositions dropped
  .ok { s with matcher, generatedFor := s.generatedFor.map fun (start, stop) => (start - dropped, stop - dropped) }

/-- `sequences_for_block`: the block from `blockStart` to the end of the frame's bytes. Its callers speak in frame
positions, the matcher in the joint space. -/
def sequencesForBlock (s : LdmFrameState) (dictionary src : Bytes) (blockStart : Nat) : Result LdmFrameState :=
  let block := (blockStart, src.length)
  if s.generatedFor = some block then .ok s
  else do
    let dictionaryLen := dictionary.length
    let (matcher, sequences) ← s.matcher.generateSequences { dictionary, frame := src } (blockStart + dictionaryLen)
      (src.length + dictionaryLen) s.maxDistance []
    .ok { s with matcher, sequences, generatedFor := some block }

/-- `load_dictionary`. -/
def loadDictionary (s : LdmFrameState) (dictionary : Bytes) : Result LdmFrameState := do
  let matcher ← s.matcher.fillFromDictionary dictionary
  .ok { s with matcher }

end LdmFrameState

end Ldm

end Zstandard
