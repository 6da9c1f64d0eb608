/-
The match finders of a contiguous block match state: the tables each of them files positions in, the hashes that pick
a slot, construction and reset, and the rebase that runs when the front of the buffer is dropped.

A table is a list, a `usize` a natural number. The sizes that every constructor sets up and no operation changes are
fields of the finder: a cycle is a power of two long, and a tree has two children in each of its slots.
-/
import Zstandard.Wire.Xxhash

namespace Zstandard

/-! ## Parameters -/

/-- `NO_POS`: the entry of a slot that names no position. -/
def noPos : UInt32 := 0xffffffff

/-- No table of heads is larger than two to this. -/
def maxMatchHashBits : Nat := 25

/-- The bits of the tag below the position of an entry. -/
def shortCacheTagBits : Nat := 8

/-- A hash and its tag share 32 bits. -/
def maxTaggedMatchHashBits : Nat := 32 - shortCacheTagBits

/-- The first position that does not fit a 32-bit entry with a tag. -/
def packedTaggedPositionLimit : Nat := 2 ^ (32 - shortCacheTagBits)

/-- The bits of a row hash that go to the tag table. -/
def rowHashTagBits : Nat := 8

/-- The hashes of the positions ahead that a row finder keeps. -/
def rowHashCacheSize : Nat := 8

/-- The bytes a hash reads, whatever it covers. -/
def hashReadSize : Nat := 8

/-- The salt of a new row finder. -/
def defaultRowHashSalt : UInt64 := 0x835892b4bb2cae74

/-- `max_table_log`, on a target with a 64-bit `usize`. -/
def maxTableLog (entryBytes : Nat) : Nat := 64 - 2 - Nat.log2 entryBytes

/-- The slots of a tree are pairs of 32-bit entries. -/
def maxBinaryTreeCycleLog : Nat := maxTableLog 8

/-- `match_hash_bits`. -/
def matchHashBits (requested : Nat) : Nat :=
  if requested < 10 then 10 else if requested > maxMatchHashBits then maxMatchHashBits else requested

/-- `tagged_match_hash_bits`: the bits left for a slot where the hash carries a tag. -/
def taggedMatchHashBits (requested : Nat) : Nat :=
  if matchHashBits requested > maxTaggedMatchHashBits then maxTaggedMatchHashBits else matchHashBits requested

/-- `clamp` of an unsigned value. -/
def clampTo (low high value : Nat) : Nat := min (max value low) high

/-- `ParserStrategy`, from the fastest to the one that saves most. -/
inductive ParserStrategy where
  | fast | doubleFast
  | greedy | lazy | lazy2
  | greedyRow | lazyRow | lazy2Row
  | binaryTreeLazy2 | binaryTreeOpt | binaryTreeUltra | binaryTreeUltra2
deriving DecidableEq, Repr

namespace ParserStrategy

/-- The strategies that search hash chains. -/
def isHashChain : ParserStrategy → Bool
  | greedy | lazy | lazy2 => true
  | _ => false

/-- The strategies that search rows. -/
def isRowHash : ParserStrategy → Bool
  | greedyRow | lazyRow | lazy2Row => true
  | _ => false

/-- The strategies that search binary trees. -/
def isBinaryTree : ParserStrategy → Bool
  | binaryTreeLazy2 | binaryTreeOpt | binaryTreeUltra | binaryTreeUltra2 => true
  | _ => false

end ParserStrategy

/-- `MatchFinderParameters`: what a level sets for its finder and its parser. -/
structure MatchFinderParameters where
  parserStrategy : ParserStrategy
  hashBits : Nat
  chainLog : Nat
  secondaryHashBits : Nat
  searchLog : Nat
  minMatch : Nat
  fastSearchStep : Nat
  searchDepth : Nat
  dictionarySearchDepth : Nat
  sourceScorePenaltyWithPrefix : Int
  lazySearchDepth : Nat
  skipSearchStrength : Nat
  minMatchLengthZeroLiterals : Nat
  minMatchLengthAfterLiterals : Nat
  goodEnoughMatchLength : Nat
  targetLength : Nat
  extDictIndexBias : Nat
  longOffsetPenalty : Bool
  compressedLiterals : Bool
  windowLog : Nat
  dictionaryAttaches : Bool
  dictionaryHashBits : Option Nat
  dictionaryChainLog : Option Nat
  dictionaryWindowLog : Option Nat
  prefixLowLimit : Nat
deriving DecidableEq, Repr

/-- The log of the slots of a chain table. -/
def chainCycleLog (chainLog : Nat) : Nat := clampTo 10 20 chainLog

/-- The log of the slots of a tree, half of what the chain log asks for. -/
def binaryTreeCycleLog (chainLog : Nat) : Nat := clampTo 1 maxBinaryTreeCycleLog (chainLog - 1)

/-- The length of the cycle a position-indexed table wraps at, and one where the strategy has no such table. -/
def MatchFinderParameters.rebasePeriod (params : MatchFinderParameters) : Nat :=
  if params.parserStrategy.isBinaryTree then 2 ^ binaryTreeCycleLog params.chainLog
  else if params.parserStrategy.isHashChain then 2 ^ chainCycleLog params.chainLog
  else 1

theorem MatchFinderParameters.rebasePeriod_pos (params : MatchFinderParameters) : 0 < params.rebasePeriod := by
  unfold rebasePeriod
  split
  · exact Nat.two_pow_pos _
  · split
    · exact Nat.two_pow_pos _
    · exact Nat.one_pos

/-! ## Hashes -/

/-- The word at a position. -/
def readU32At (src : Bytes) (pos : Nat) : UInt32 := UInt32.ofNat (readU32Le (src.drop pos))

/-- The double word at a position. -/
def readU64At (src : Bytes) (pos : Nat) : UInt64 := readU64Le (src.drop pos)

/-- `hash_at`: a hash of four bytes. -/
def hashAt (src : Bytes) (pos hashBits : Nat) : Nat :=
  (readU32At src pos * 0x9e3779b1).toNat >>> (32 - hashBits)

/-- `hash_src_at_mls_bits`: the bytes a hash covers are the shortest match. -/
def hashSrcAtMlsBits (src : Bytes) (pos hashBits minMatch : Nat) : Nat :=
  match minMatch with
  | 3 => ((readU32At src pos <<< 8) * 506832829).toNat >>> (32 - hashBits)
  | 4 => (readU32At src pos * 0x9e3779b1).toNat >>> (32 - hashBits)
  | 5 => (((readU64At src pos <<< 24) * 889523592379).toNat >>> (64 - hashBits)) % 2 ^ 32
  | 6 => (((readU64At src pos <<< 16) * 227718039650203).toNat >>> (64 - hashBits)) % 2 ^ 32
  | _ => (((readU64At src pos <<< 8) * 58295818150454627).toNat >>> (64 - hashBits)) % 2 ^ 32

/-- `hash_at_mls`. -/
def hashAtMls (src : Bytes) (pos hashBits minMatch : Nat) : Nat := hashSrcAtMlsBits src pos hashBits minMatch

/-- The hash of the fast tables, with the bits of a tag below the slot. -/
def hashShortCacheSrcAtMls (src : Bytes) (pos hashBits minMatch : Nat) : Nat :=
  hashSrcAtMlsBits src pos (hashBits + shortCacheTagBits) minMatch

/-- The hash of eight bytes, with the bits of a tag below the slot. -/
def hashLongAt (src : Bytes) (pos hashBits : Nat) : Nat :=
  (readU64At src pos * 0xcf1bbcdcb7a56463).toNat >>> (64 - (hashBits + shortCacheTagBits))

/-- `row_hash_src_at`: the hash of a row and a tag, under a salt. -/
def rowHashSrcAt (src : Bytes) (pos hashBits mls : Nat) (salt : UInt64) : Nat :=
  match mls with
  | 4 => ((readU32At src pos * 0x9e3779b1) ^^^ salt.toUInt32).toNat >>> (32 - hashBits)
  | 5 => (((readU64At src pos <<< 24) * 889523592379) ^^^ salt).toNat >>> (64 - hashBits)
  | _ => (((readU64At src pos <<< 16) * 227718039650203) ^^^ salt).toNat >>> (64 - hashBits)

/-- `tagged_index`: the slot of a hash that carries a tag below it. -/
def taggedIndex (hashAndTag : Nat) : Nat := hashAndTag >>> shortCacheTagBits

/-! ## Entries -/

/-- An entry of a short-cache table, a position above its hash tag. Moving an entry to a position that is not above the
one it names gives an entry that names it, under the same tag. -/
class TaggedEntry (E : Type) where
  empty : E
  pack : Nat → Nat → E
  position : E → Nat
  tagMatches : E → Nat → Bool
  withPosition : E → Nat → E
  position_withPosition : ∀ e pos, pos ≤ position e → position (withPosition e pos) = pos
  tagMatches_withPosition : ∀ e pos, tagMatches (withPosition e pos) = tagMatches e
  withPosition_ne_empty : ∀ e pos, e ≠ empty → pos ≤ position e → withPosition e pos ≠ empty

/-- The tag of an entry, in both widths. -/
theorem tag_eq_mod (x h : Nat) : (x ^^^ h) &&& 255 = (x % 2 ^ 8) ^^^ (h % 2 ^ 8) := by
  rw [show 255 = 2 ^ 8 - 1 from rfl, Nat.and_two_pow_sub_one_eq_mod, Nat.xor_mod_two_pow]

/-- A position shifted above a byte, with the byte below it. -/
theorem shifted_or_byte (pos byte : Nat) : pos <<< 8 ||| byte % 2 ^ 8 = pos * 2 ^ 8 + byte % 2 ^ 8 := by
  rw [← Nat.shiftLeft_add_eq_or_of_lt (Nat.mod_lt _ (by norm_num)), Nat.shiftLeft_eq]

/-- A 32-bit entry: 24 bits of position above the tag. -/
def packU32 (pos hashAndTag : Nat) : UInt32 := (UInt32.ofNat pos <<< 8) ||| (UInt32.ofNat hashAndTag &&& 255)

theorem packU32_toNat (pos hashAndTag : Nat) :
    (packU32 pos hashAndTag).toNat = pos % 2 ^ 24 * 2 ^ 8 + hashAndTag % 2 ^ 8 := by
  have hand : (UInt32.ofNat hashAndTag &&& 255).toNat = hashAndTag % 2 ^ 8 := by
    rw [UInt32.toNat_and, UInt32.toNat_ofNat']
    rw [show (255 : UInt32).toNat = 2 ^ 8 - 1 from rfl, Nat.and_two_pow_sub_one_eq_mod]
    omega
  have hshift : (UInt32.ofNat pos <<< 8).toNat = (pos % 2 ^ 24) <<< 8 := by
    rw [UInt32.toNat_shiftLeft, UInt32.toNat_ofNat', Nat.shiftLeft_eq, Nat.shiftLeft_eq]
    rw [show (8 : UInt32).toNat % 32 = 8 from rfl]
    omega
  unfold packU32
  rw [UInt32.toNat_or, hand, hshift, shifted_or_byte]

/-- A 64-bit entry, for positions that 24 bits do not hold. -/
def packU64 (pos hashAndTag : Nat) : UInt64 := (UInt64.ofNat pos <<< 8) ||| (UInt64.ofNat hashAndTag &&& 255)

theorem packU64_toNat (pos hashAndTag : Nat) :
    (packU64 pos hashAndTag).toNat = pos % 2 ^ 56 * 2 ^ 8 + hashAndTag % 2 ^ 8 := by
  have hand : (UInt64.ofNat hashAndTag &&& 255).toNat = hashAndTag % 2 ^ 8 := by
    rw [UInt64.toNat_and, UInt64.toNat_ofNat']
    rw [show (255 : UInt64).toNat = 2 ^ 8 - 1 from rfl, Nat.and_two_pow_sub_one_eq_mod]
    omega
  have hshift : (UInt64.ofNat pos <<< 8).toNat = (pos % 2 ^ 56) <<< 8 := by
    rw [UInt64.toNat_shiftLeft, UInt64.toNat_ofNat', Nat.shiftLeft_eq, Nat.shiftLeft_eq]
    rw [show (8 : UInt64).toNat % 64 = 8 from rfl]
    omega
  unfold packU64
  rw [UInt64.toNat_or, hand, hshift, shifted_or_byte]

instance : TaggedEntry UInt32 where
  empty := noPos
  pack := packU32
  position e := e.toNat >>> shortCacheTagBits
  tagMatches e hashAndTag := (e.toNat ^^^ hashAndTag) &&& 255 == 0
  withPosition e pos := packU32 pos e.toNat
  position_withPosition e pos h := by
    have := e.toNat_lt
    rw [Nat.shiftRight_eq_div_pow] at h ⊢
    rw [packU32_toNat]; unfold shortCacheTagBits at *
    omega
  tagMatches_withPosition e pos := by
    funext hashAndTag
    have hlow : (packU32 pos e.toNat).toNat % 2 ^ 8 = e.toNat % 2 ^ 8 := by rw [packU32_toNat]; omega
    rw [tag_eq_mod, tag_eq_mod, hlow]
  withPosition_ne_empty e pos he h := by
    intro heq
    apply he
    have := e.toNat_lt
    rw [Nat.shiftRight_eq_div_pow] at h; unfold shortCacheTagBits at h
    -- only the last position under the last tag packs to the empty entry, and then it was empty before
    have hnat := congrArg UInt32.toNat heq
    rw [packU32_toNat, show noPos.toNat = 2 ^ 32 - 1 from rfl] at hnat
    apply UInt32.toNat_inj.1
    rw [show noPos.toNat = 2 ^ 32 - 1 from rfl]
    omega

instance : TaggedEntry UInt64 where
  empty := 0xffffffffffffffff
  pack := packU64
  position e := e.toNat >>> shortCacheTagBits
  tagMatches e hashAndTag := (e.toNat ^^^ hashAndTag) &&& 255 == 0
  withPosition e pos := packU64 pos e.toNat
  position_withPosition e pos h := by
    have := e.toNat_lt
    rw [Nat.shiftRight_eq_div_pow] at h ⊢
    rw [packU64_toNat]; unfold shortCacheTagBits at *
    omega
  tagMatches_withPosition e pos := by
    funext hashAndTag
    have hlow : (packU64 pos e.toNat).toNat % 2 ^ 8 = e.toNat % 2 ^ 8 := by rw [packU64_toNat]; omega
    rw [tag_eq_mod, tag_eq_mod, hlow]
  withPosition_ne_empty e pos he h := by
    intro heq
    apply he
    have := e.toNat_lt
    rw [Nat.shiftRight_eq_div_pow] at h; unfold shortCacheTagBits at h
    have hnat := congrArg UInt64.toNat heq
    rw [packU64_toNat, show (0xffffffffffffffff : UInt64).toNat = 2 ^ 64 - 1 from rfl] at hnat
    apply UInt64.toNat_inj.1
    rw [show (0xffffffffffffffff : UInt64).toNat = 2 ^ 64 - 1 from rfl]
    omega

/-! ## Entries of the long table -/

/-- The long entry of a slot that names no position. -/
def longEntryEmpty : UInt64 := noPos.toUInt64 <<< 8

/-- `long_entry`: a 32-bit position above the tag. -/
def longEntry (pos : UInt32) (hashAndTag : Nat) : UInt64 :=
  (pos.toUInt64 <<< 8) ||| (UInt64.ofNat hashAndTag &&& 255)

/-- The position of a long entry. -/
def longEntryPos (entry : UInt64) : UInt32 := (entry >>> 8).toUInt32

/-- Another position over the same tag. -/
def longEntryWithPos (entry : UInt64) (pos : UInt32) : UInt64 := (pos.toUInt64 <<< 8) ||| (entry &&& 255)

/-- Whether the tag of an entry is that of a hash. -/
def longEntryTagMatches (entry : UInt64) (hashAndTag : Nat) : Bool :=
  (entry ^^^ UInt64.ofNat hashAndTag) &&& 255 == 0

theorem longEntryWithPos_eq (entry : UInt64) (pos : UInt32) :
    longEntryWithPos entry pos = packU64 pos.toNat entry.toNat := by
  have hpos : pos.toUInt64 = UInt64.ofNat pos.toNat := by
    apply UInt64.toNat_inj.1
    have := pos.toNat_lt
    rw [UInt32.toNat_toUInt64, UInt64.toNat_ofNat']
    omega
  unfold longEntryWithPos packU64
  rw [UInt64.ofNat_toNat, hpos]

theorem longEntryPos_withPos (entry : UInt64) (pos : UInt32) : longEntryPos (longEntryWithPos entry pos) = pos := by
  apply UInt32.toNat_inj.1
  have := pos.toNat_lt
  rw [longEntryWithPos_eq, longEntryPos, UInt64.toNat_toUInt32, UInt64.toNat_shiftRight, packU64_toNat]
  rw [show (8 : UInt64).toNat % 64 = 8 from rfl, Nat.shiftRight_eq_div_pow]
  omega

theorem longEntryTagMatches_withPos (entry : UInt64) (pos : UInt32) :
    longEntryTagMatches (longEntryWithPos entry pos) = longEntryTagMatches entry := by
  funext hashAndTag
  have hlow : ∀ x : UInt64, (x &&& 255).toNat = x.toNat % 2 ^ 8 := fun x => by
    rw [UInt64.toNat_and, show (255 : UInt64).toNat = 2 ^ 8 - 1 from rfl, Nat.and_two_pow_sub_one_eq_mod]
  unfold longEntryTagMatches
  congr 1
  apply UInt64.toNat_inj.1
  rw [hlow, hlow, UInt64.toNat_xor, UInt64.toNat_xor, Nat.xor_mod_two_pow, Nat.xor_mod_two_pow]
  congr 1
  rw [longEntryWithPos_eq, packU64_toNat]
  omega

/-! ## Rebasing a table -/

/-- `shift_raw_positions`. -/
def shiftRawPositions (table : List UInt32) (delta : Nat) (empty : UInt32) : List UInt32 :=
  if delta < 2 ^ 32 then
    table.map fun entry =>
      if entry = empty then entry
      else if delta ≤ entry.toNat then UInt32.ofNat (entry.toNat - delta) else empty
  else List.replicate table.length empty

/-- `shift_raw_positions_preserving`. -/
def shiftRawPositionsPreserving (table : List UInt32) (delta : Nat) (empty mark : UInt32) : List UInt32 :=
  if delta < 2 ^ 32 then
    table.map fun entry =>
      if entry = empty ∨ entry = mark then entry
      else if delta ≤ entry.toNat then UInt32.ofNat (entry.toNat - delta) else empty
  else table.map fun entry => if entry = mark then entry else empty

/-- `shift_long_entries`. -/
def shiftLongEntries (table : List UInt64) (delta : Nat) : List UInt64 :=
  if delta < 2 ^ 32 then
    table.map fun entry =>
      if longEntryPos entry = noPos then entry
      else if delta ≤ (longEntryPos entry).toNat then
        longEntryWithPos entry (UInt32.ofNat ((longEntryPos entry).toNat - delta))
      else longEntryEmpty
  else List.replicate table.length longEntryEmpty

/-- `shift_tagged_positions`. -/
def shiftTaggedPositions {E : Type} [TaggedEntry E] [DecidableEq E] (table : List E) (delta : Nat) : List E :=
  table.map fun entry =>
    if entry = TaggedEntry.empty then entry
    else if delta ≤ TaggedEntry.position entry then
      TaggedEntry.withPosition entry (TaggedEntry.position entry - delta)
    else TaggedEntry.empty

/-- `copy_within` of the last `kept` entries to the front, and `fill` of what is behind them. -/
def movedToFront (table : List UInt32) (kept : Nat) (empty : UInt32) : List UInt32 :=
  table.drop (table.length - kept) ++ List.replicate (table.length - kept) empty

@[simp] theorem shiftRawPositions_length (table : List UInt32) (delta : Nat) (empty : UInt32) :
    (shiftRawPositions table delta empty).length = table.length := by
  unfold shiftRawPositions; split <;> simp

@[simp] theorem shiftRawPositionsPreserving_length (table : List UInt32) (delta : Nat) (empty mark : UInt32) :
    (shiftRawPositionsPreserving table delta empty mark).length = table.length := by
  unfold shiftRawPositionsPreserving; split <;> simp

@[simp] theorem movedToFront_length (table : List UInt32) (kept : Nat) (empty : UInt32) :
    (movedToFront table kept empty).length = table.length := by
  simp [movedToFront]

/-! ## Finders -/

/-- `FastFinderImpl`. -/
structure FastFinder (E : Type) where
  heads : List E
  hashBits : Nat
  minMatch : Nat
deriving DecidableEq

/-- `DoubleFastFinderImpl`. -/
structure DoubleFastFinder (E : Type) where
  longEntries : List UInt64
  shortHeads : List E
  longHashBits : Nat
  shortHashBits : Nat
  minMatch : Nat
deriving DecidableEq

/-- The rows: `2 ^ rowLog` slots for each hash, and beside each position the tag of its hash. -/
structure RowHashFinder where
  hashTable : List UInt32
  tagTable : List UInt8
  hashCache : List UInt32
  rowLog : Nat
  rowHashLog : Nat
  minMatch : Nat
  nextToUpdate : Nat
  hashSalt : UInt64
deriving DecidableEq

/-- The hash chains: `previous` holds, in the slot of a position, the position filed before it under the same hash. -/
structure MatchFinder where
  heads : List UInt32
  previous : List UInt32
  hashBits : Nat
  minMatch : Nat
  nextToUpdate : Nat
  cycle : ∃ log, previous.length = 2 ^ log
deriving DecidableEq

/-- The binary trees: `children` holds, in the two slots of a position, its smaller and its larger child. -/
structure BinaryTreeFinder where
  heads : List UInt32
  children : List UInt32
  hashBits : Nat
  minMatch : Nat
  btMask : Nat
  defaultSearchDepth : Nat
  nextToUpdate : Nat
  prefixLen : Nat
  windowLog : Nat
  cycle : ∃ log, btMask + 1 = 2 ^ log
  twoChildren : children.length = 2 * (btMask + 1)
deriving DecidableEq

/-- `DUBT_UNSORTED_MARK`: a child slot of a position that is filed but not yet sorted into its tree. -/
def dubtUnsortedMark : UInt32 := noPos - 1

namespace FastFinder

variable {E : Type} [TaggedEntry E] [DecidableEq E]

/-- `new`: no head names a position. -/
def new (hashBits minMatch : Nat) : FastFinder E where
  heads := List.replicate (2 ^ taggedMatchHashBits hashBits) TaggedEntry.empty
  hashBits := taggedMatchHashBits hashBits
  minMatch := clampTo 4 7 minMatch

/-- `reset`: the same tables, empty. -/
def reset (f : FastFinder E) : FastFinder E :=
  { f with heads := List.replicate f.heads.length TaggedEntry.empty }

/-- `shift_positions`: every head `delta` lower. -/
def shiftPositions (f : FastFinder E) (delta : Nat) : FastFinder E :=
  { f with heads := shiftTaggedPositions f.heads delta }

/-- The hash `insert_src_position` files a position under, slot and tag. -/
def hashAndTag (f : FastFinder E) (src : Bytes) (pos : Nat) : Nat :=
  hashShortCacheSrcAtMls src pos f.hashBits f.minMatch

end FastFinder

namespace DoubleFastFinder

variable {E : Type} [TaggedEntry E] [DecidableEq E]

/-- `new`: two empty tables. -/
def new (longHashBits shortHashBits minMatch : Nat) : DoubleFastFinder E where
  longEntries := List.replicate (2 ^ clampTo 10 maxMatchHashBits longHashBits) longEntryEmpty
  shortHeads := List.replicate (2 ^ taggedMatchHashBits shortHashBits) TaggedEntry.empty
  longHashBits := clampTo 10 maxMatchHashBits longHashBits
  shortHashBits := taggedMatchHashBits shortHashBits
  minMatch := clampTo 4 7 minMatch

/-- `reset`: the same tables, empty. -/
def reset (f : DoubleFastFinder E) : DoubleFastFinder E :=
  { f with
    longEntries := List.replicate f.longEntries.length longEntryEmpty
    shortHeads := List.replicate f.shortHeads.length TaggedEntry.empty }

/-- `shift_positions`: both tables `delta` lower. -/
def shiftPositions (f : DoubleFastFinder E) (delta : Nat) : DoubleFastFinder E :=
  { f with
    longEntries := shiftLongEntries f.longEntries delta
    shortHeads := shiftTaggedPositions f.shortHeads delta }

/-- The short hash of a position, slot and tag. -/
def shortHashAndTag (f : DoubleFastFinder E) (src : Bytes) (pos : Nat) : Nat :=
  hashShortCacheSrcAtMls src pos f.shortHashBits f.minMatch

/-- The long hash of a position, slot and tag. -/
def longHashAndTag (f : DoubleFastFinder E) (src : Bytes) (pos : Nat) : Nat := hashLongAt src pos f.longHashBits

end DoubleFastFinder

namespace RowHashFinder

/-- `new`: empty rows, of sixteen to 64 slots. -/
def new (hashBits searchLog minMatch : Nat) : RowHashFinder where
  hashTable := List.replicate (2 ^ clampTo 10 maxMatchHashBits hashBits) 0
  tagTable := List.replicate (2 ^ clampTo 10 maxMatchHashBits hashBits) 0
  hashCache := List.replicate rowHashCacheSize 0
  rowLog := clampTo 4 6 searchLog
  rowHashLog := clampTo 10 maxMatchHashBits hashBits - clampTo 4 6 searchLog
  minMatch := clampTo 4 6 minMatch
  nextToUpdate := 0
  hashSalt := defaultRowHashSalt

/-- `reset`: the rows empty, the cache and the salt as in a new finder. -/
def reset (f : RowHashFinder) : RowHashFinder :=
  { f with
    hashSalt := defaultRowHashSalt
    hashTable := List.replicate f.hashTable.length 0
    tagTable := List.replicate f.tagTable.length 0
    hashCache := List.replicate rowHashCacheSize 0
    nextToUpdate := 0 }

/-- `shift_positions`: the tags stay beside their positions. -/
def shiftPositions (f : RowHashFinder) (delta : Nat) : RowHashFinder :=
  { f with
    hashTable := shiftRawPositions f.hashTable delta 0
    nextToUpdate := f.nextToUpdate - delta }

/-- The bits of a row's number and of the tag. -/
def totalHashBits (f : RowHashFinder) : Nat := f.rowHashLog + rowHashTagBits

/-- The hash `insert_range` files a position under. -/
def hash (f : RowHashFinder) (src : Bytes) (pos : Nat) : Nat :=
  rowHashSrcAt src pos f.totalHashBits f.minMatch f.hashSalt

/-- The first slot of a hash's row, and its tag. -/
def rowRelRowAndTag (f : RowHashFinder) (hash : Nat) : Nat × Nat :=
  ((hash >>> rowHashTagBits) <<< f.rowLog, hash % 2 ^ rowHashTagBits)

end RowHashFinder

namespace MatchFinder

/-- `with_chain_log`: empty chains, with a cycle of a power of two. -/
def withChainLog (hashBits chainLog minMatch : Nat) : MatchFinder where
  heads := List.replicate (2 ^ clampTo 10 maxMatchHashBits hashBits) noPos
  previous := List.replicate (2 ^ chainCycleLog chainLog) noPos
  hashBits := clampTo 10 maxMatchHashBits hashBits
  minMatch := clampTo 4 6 minMatch
  nextToUpdate := 0
  cycle := ⟨chainCycleLog chainLog, List.length_replicate⟩

/-- `reset`: the same tables, empty. -/
def reset (f : MatchFinder) : MatchFinder :=
  { f with
    heads := List.replicate f.heads.length noPos
    previous := List.replicate f.previous.length noPos
    nextToUpdate := 0
    cycle := by simpa using f.cycle }

/-- The mask of a slot in the cycle. -/
def chainMask (f : MatchFinder) : Nat := f.previous.length - 1

/-- The slots of the cycle. -/
def rebasePeriod (f : MatchFinder) : Nat := f.previous.length

/-- `shift_positions`: the slots stay, so `delta` is a multiple of the cycle. -/
def shiftPositions (f : MatchFinder) (delta : Nat) : MatchFinder :=
  { f with
    heads := shiftRawPositions f.heads delta noPos
    previous := shiftRawPositions f.previous delta noPos
    nextToUpdate := f.nextToUpdate - delta
    cycle := by simpa using f.cycle }

/-- Every slot moves down by `delta`, and the entries with it. -/
def shiftPositionsBySlot (f : MatchFinder) (delta : Nat) : MatchFinder :=
  let kept := f.previous.length - min delta f.previous.length
  let moved := movedToFront f.previous kept noPos
  { f with
    heads := shiftRawPositions f.heads delta noPos
    previous := shiftRawPositions (moved.take kept) delta noPos ++ moved.drop kept
    nextToUpdate := f.nextToUpdate - delta
    cycle := by
      rw [List.length_append, shiftRawPositions_length, ← List.length_append, List.take_append_drop]
      rw [movedToFront_length]
      exact f.cycle }

/-- The slot of a position. -/
def previousIndex (f : MatchFinder) (pos : Nat) : Nat := pos &&& f.chainMask

/-- `hash_src_at`: near the end of the source the hash of four bytes. -/
def hashSrcAt (f : MatchFinder) (src : Bytes) (pos : Nat) : Nat :=
  if pos + hashReadSize ≤ src.length then hashAtMls src pos f.hashBits f.minMatch else hashAt src pos f.hashBits

end MatchFinder

namespace BinaryTreeFinder

/-- `new`: empty trees. Position zero is the empty entry, so the first two positions are never filed. -/
def new (hashBits chainLog minMatch : Nat) : BinaryTreeFinder where
  heads := List.replicate (2 ^ clampTo 10 maxMatchHashBits hashBits) 0
  children := List.replicate (2 ^ binaryTreeCycleLog chainLog * 2) 0
  hashBits := clampTo 10 maxMatchHashBits hashBits
  minMatch := clampTo 3 6 minMatch
  btMask := 2 ^ binaryTreeCycleLog chainLog - 1
  defaultSearchDepth := 32
  nextToUpdate := 2
  prefixLen := 0
  windowLog := 31
  cycle := ⟨binaryTreeCycleLog chainLog, Nat.sub_add_cancel (Nat.two_pow_pos _)⟩
  twoChildren := by rw [List.length_replicate, Nat.sub_add_cancel (Nat.two_pow_pos _), Nat.mul_comm]

/-- `with_window_log`. -/
def withWindowLog (f : BinaryTreeFinder) (windowLog : Nat) : BinaryTreeFinder := { f with windowLog }

/-- `with_search_depth`. -/
def withSearchDepth (f : BinaryTreeFinder) (depth : Nat) : BinaryTreeFinder := { f with defaultSearchDepth := depth }

/-- `reset`: the same trees, empty. -/
def reset (f : BinaryTreeFinder) : BinaryTreeFinder :=
  { f with
    heads := List.replicate f.heads.length 0
    children := List.replicate f.children.length 0
    nextToUpdate := 2
    prefixLen := 0
    twoChildren := by simpa using f.twoChildren }

/-- The slots of the cycle, each of two entries. -/
def rebasePeriod (f : BinaryTreeFinder) : Nat := f.btMask + 1

/-- The cursor stays above the two positions of padding, which are never inserted. -/
def shiftPositions (f : BinaryTreeFinder) (delta : Nat) : BinaryTreeFinder :=
  { f with
    heads := shiftRawPositions f.heads delta 0
    children := shiftRawPositionsPreserving f.children delta 0 dubtUnsortedMark
    nextToUpdate := max (f.nextToUpdate - delta) 2
    twoChildren := by simpa using f.twoChildren }

/-- Every slot moves down by `delta`, which is two entries for each position. -/
def shiftPositionsBySlot (f : BinaryTreeFinder) (delta : Nat) : BinaryTreeFinder :=
  let kept := f.children.length - min (2 * delta) f.children.length
  let moved := movedToFront f.children kept 0
  { f with
    heads := shiftRawPositions f.heads delta 0
    children := shiftRawPositionsPreserving (moved.take kept) delta 0 dubtUnsortedMark ++ moved.drop kept
    nextToUpdate := max (f.nextToUpdate - delta) 2
    twoChildren := by
      rw [List.length_append, shiftRawPositionsPreserving_length, ← List.length_append, List.take_append_drop]
      rw [movedToFront_length]
      exact f.twoChildren }

/-- `hash_src_at`: a tree hashes four bytes at least. -/
def hashSrcAt (f : BinaryTreeFinder) (src : Bytes) (pos : Nat) : Nat :=
  if pos + hashReadSize ≤ src.length then hashAtMls src pos f.hashBits (max f.minMatch 4)
  else hashAt src pos f.hashBits

end BinaryTreeFinder

/-! ## The match state -/

/-- `ContiguousBlockMatchStateInner`: the finder of a strategy. -/
inductive ContiguousBlockMatchStateInner where
  | chain (finder : MatchFinder)
  | fast (finder : FastFinder UInt32)
  | wideFast (finder : FastFinder UInt64)
  | doubleFast (finder : DoubleFastFinder UInt32)
  | wideDoubleFast (finder : DoubleFastFinder UInt64)
  | row (finder : RowHashFinder)
  | binaryTree (finder : BinaryTreeFinder)
deriving DecidableEq

namespace ContiguousBlockMatchStateInner

/-- `rebase_period`: only chains and trees file positions in slots of their own. -/
def rebasePeriod : ContiguousBlockMatchStateInner → Nat
  | chain finder => finder.rebasePeriod
  | binaryTree finder => finder.rebasePeriod
  | _ => 1

/-- `reset` of the finder. -/
def reset : ContiguousBlockMatchStateInner → ContiguousBlockMatchStateInner
  | chain finder => chain finder.reset
  | fast finder => fast finder.reset
  | wideFast finder => wideFast finder.reset
  | doubleFast finder => doubleFast finder.reset
  | wideDoubleFast finder => wideDoubleFast finder.reset
  | row finder => row finder.reset
  | binaryTree finder => binaryTree finder.reset

/-- One finder's part of `shift_positions`, by either route. -/
def shiftPositions (delta : Nat) (bySlot : Bool) : ContiguousBlockMatchStateInner → ContiguousBlockMatchStateInner
  | chain finder => chain (if bySlot then finder.shiftPositionsBySlot delta else finder.shiftPositions delta)
  | fast finder => fast (finder.shiftPositions delta)
  | wideFast finder => wideFast (finder.shiftPositions delta)
  | doubleFast finder => doubleFast (finder.shiftPositions delta)
  | wideDoubleFast finder => wideDoubleFast (finder.shiftPositions delta)
  | row finder => row (finder.shiftPositions delta)
  | binaryTree finder => binaryTree (if bySlot then finder.shiftPositionsBySlot delta else finder.shiftPositions delta)

/-- The finder a strategy builds. -/
def build (params : MatchFinderParameters) (wideEntries : Bool) : ContiguousBlockMatchStateInner :=
  match params.parserStrategy with
  | .fast =>
    if wideEntries then wideFast (FastFinder.new params.hashBits params.minMatch)
    else fast (FastFinder.new params.hashBits params.minMatch)
  | .doubleFast =>
    if wideEntries then
      wideDoubleFast (DoubleFastFinder.new params.hashBits params.secondaryHashBits params.minMatch)
    else doubleFast (DoubleFastFinder.new params.hashBits params.secondaryHashBits params.minMatch)
  | .greedyRow | .lazyRow | .lazy2Row => row (RowHashFinder.new params.hashBits params.searchLog params.minMatch)
  | .greedy | .lazy | .lazy2 => chain (MatchFinder.withChainLog params.hashBits params.chainLog params.minMatch)
  | .binaryTreeLazy2 | .binaryTreeOpt | .binaryTreeUltra | .binaryTreeUltra2 =>
    binaryTree (((BinaryTreeFinder.new params.hashBits params.chainLog params.minMatch).withWindowLog
      params.windowLog).withSearchDepth params.searchDepth)

end ContiguousBlockMatchStateInner

/-- `ContiguousBlockMatchState`: a finder, with what it was built from. -/
structure ContiguousBlockMatchState where
  inner : ContiguousBlockMatchStateInner
  fastTableNextToUpdate : Nat
  builtWith : MatchFinderParameters
  wideEntries : Bool
deriving DecidableEq

/-- `needs_wide_entries`: a fast table over more positions than its packed entries name. -/
def needsWideEntries (params : MatchFinderParameters) (positionLimit : Nat) : Bool :=
  match params.parserStrategy with
  | .fast | .doubleFast => positionLimit > packedTaggedPositionLimit
  | _ => false

namespace ContiguousBlockMatchState

/-- `new_with_position_limit`. -/
def newWithPositionLimit (positionLimit : Nat) (params : MatchFinderParameters) : ContiguousBlockMatchState where
  inner := .build params (needsWideEntries params positionLimit)
  fastTableNextToUpdate := 0
  builtWith := params
  wideEntries := needsWideEntries params positionLimit

/-- `reset`: as new, in the same memory. -/
def reset (m : ContiguousBlockMatchState) : ContiguousBlockMatchState :=
  { m with inner := m.inner.reset, fastTableNextToUpdate := 0 }

/-- `reset_if_compatible`: nothing where the caller has to build a new state. -/
def resetIfCompatible (m : ContiguousBlockMatchState) (params : MatchFinderParameters) (positionLimit : Nat) :
    Option ContiguousBlockMatchState :=
  if m.builtWith ≠ params ∨ m.wideEntries ≠ needsWideEntries params positionLimit then none else some m.reset

/-- `rebase_period`: what a shift is a multiple of, once the cycle has been gone through. -/
def rebasePeriod (m : ContiguousBlockMatchState) : Nat := m.inner.rebasePeriod

/-- `shift_positions`: nothing where it returns false. -/
def shiftPositions (m : ContiguousBlockMatchState) (delta liveEnd : Nat) : Option ContiguousBlockMatchState :=
  if ¬ liveEnd ≤ m.rebasePeriod ∧ ¬ delta % m.rebasePeriod = 0 then none
  else some
    { m with
      fastTableNextToUpdate := m.fastTableNextToUpdate - delta
      inner := m.inner.shiftPositions delta (liveEnd ≤ m.rebasePeriod) }

/-- The period of a state is the period of the parameters it was built from. -/
theorem rebasePeriod_new (positionLimit : Nat) (params : MatchFinderParameters) :
    (newWithPositionLimit positionLimit params).rebasePeriod = params.rebasePeriod := by
  have hchain : (List.replicate (2 ^ chainCycleLog params.chainLog) noPos).length = 2 ^ chainCycleLog params.chainLog :=
    List.length_replicate
  have htree : 2 ^ binaryTreeCycleLog params.chainLog - 1 + 1 = 2 ^ binaryTreeCycleLog params.chainLog :=
    Nat.sub_add_cancel (Nat.two_pow_pos _)
  unfold rebasePeriod newWithPositionLimit ContiguousBlockMatchStateInner.build MatchFinderParameters.rebasePeriod
  cases params.parserStrategy
  case fast | doubleFast => dsimp only; split <;> rfl
  case greedy | lazy | lazy2 => exact hchain
  case greedyRow | lazyRow | lazy2Row => rfl
  case binaryTreeLazy2 | binaryTreeOpt | binaryTreeUltra | binaryTreeUltra2 => exact htree

end ContiguousBlockMatchState

end Zstandard
