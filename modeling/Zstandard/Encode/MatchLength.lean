/-
How long a match is. The finders compare a word at a time, over one buffer or over a prefix and the source as if they
were one; every one of these kernels returns the length of the longest common prefix of what stands at the two
positions, and reads nothing outside the slices it is given.

A read outside a slice, a slice index that panics, or a loop that does not end is `none`.
-/
import Zstandard.Library.CommonPrefix
import Zstandard.Encode.Floors
import Mathlib.Data.Nat.Log

namespace Zstandard

open CommonPrefix

/-! ## Words -/

/-- The byte order that words are read in. -/
inductive Endian where
  | little
  | big
deriving DecidableEq, Repr

/-- The width of a word. -/
inductive PointerWidth where
  | w32
  | w64
deriving DecidableEq, Repr

/-- What the kernels are compiled for: `target_endian` and `target_pointer_width`. -/
structure Target where
  endian : Endian
  pointerWidth : PointerWidth
deriving DecidableEq, Repr

/-- `from_be_bytes`, for any width. -/
def readBe : Bytes → Nat
  | [] => 0
  | b :: bs => b.toNat * 256 ^ bs.length + readBe bs

/-- `from_ne_bytes`. -/
def Target.fromNeBytes (t : Target) (bytes : Bytes) : Nat :=
  match t.endian with
  | .little => readLe bytes
  | .big => readBe bytes

/-- `trailing_zeros` of a word of `bits` bits. -/
def trailingZeros : Nat → Nat → Nat
  | 0, _ => 0
  | bits + 1, x => if x % 2 = 1 then 0 else trailingZeros bits (x / 2) + 1

/-- `leading_zeros` of a word of `bits` bits. -/
def leadingZeros (bits x : Nat) : Nat := if x = 0 then bits else bits - 1 - Nat.log2 x

/-- The byte offset of the first differing byte, from the bits in which two words differ. -/
def Target.mismatchByteOffset (t : Target) (bits diff : Nat) : Nat :=
  match t.endian with
  | .little => trailingZeros bits diff / 8
  | .big => leadingZeros bits diff / 8

theorem trailingZeros_lt : ∀ {k bits x : Nat}, k ≤ bits → x % 2 ^ k ≠ 0 → trailingZeros bits x < k
  | 0, bits, x, _, hx => absurd (Nat.mod_one x) (by rwa [pow_zero] at hx)
  | k + 1, 0, x, hk, _ => by omega
  | k + 1, bits + 1, x, hk, hx => by
    unfold trailingZeros
    split
    · omega
    · rename_i heven
      have : x / 2 % 2 ^ k ≠ 0 := by
        intro h0
        apply hx
        rw [pow_succ', Nat.mod_mul, h0]
        omega
      exact Nat.succ_lt_succ (trailingZeros_lt (Nat.le_of_succ_le_succ hk) this)

theorem trailingZeros_add : ∀ {k bits x : Nat}, x % 2 ^ k = 0 →
    trailingZeros (bits + k) x = trailingZeros bits (x / 2 ^ k) + k
  | 0, bits, x, _ => by rw [pow_zero, Nat.div_one, Nat.add_zero, Nat.add_zero]
  | k + 1, bits, x, hx => by
    have hparts : x % 2 ^ (k + 1) = x % 2 + 2 * (x / 2 % 2 ^ k) := by rw [pow_succ', Nat.mod_mul]
    rw [← Nat.add_assoc]
    unfold trailingZeros
    rw [if_neg (by omega), trailingZeros_add (by omega), Nat.div_div_eq_div_mul, ← pow_succ']
    cases bits <;> simp only [trailingZeros, Nat.add_assoc]

theorem leadingZeros_lt {k bits x : Nat} (hbits : 0 < bits) (hx : 2 ^ k ≤ x) : leadingZeros (bits + k) x < bits := by
  have h0 : x ≠ 0 := by
    have := Nat.two_pow_pos k
    omega
  have := (Nat.le_log2 h0).2 hx
  unfold leadingZeros
  rw [if_neg h0]
  omega

theorem leadingZeros_add {k bits x : Nat} (hx : x < 2 ^ bits) :
    leadingZeros (bits + k) x = leadingZeros bits x + k := by
  unfold leadingZeros
  split
  · rfl
  · rename_i h0
    have := (Nat.log2_lt h0).2 hx
    omega

theorem readBe_lt : ∀ bs : Bytes, readBe bs < 2 ^ (8 * bs.length)
  | [] => Nat.one_pos
  | b :: bs => by
    have h := readBe_lt bs
    have hb : b.toNat < 256 := b.toNat_lt
    unfold readBe
    rw [List.length_cons, Nat.mul_succ, pow_add, show (256 : Nat) = 2 ^ 8 from rfl, ← pow_mul]
    have : (b.toNat + 1) * 2 ^ (8 * bs.length) ≤ 2 ^ 8 * 2 ^ (8 * bs.length) := Nat.mul_le_mul_right _ hb
    rw [Nat.add_mul] at this
    omega

theorem eq_of_xor_eq_zero {x y : UInt8} (h : x.toNat ^^^ y.toNat = 0) : x = y := by
  rw [← UInt8.toNat_xor] at h
  exact UInt8.xor_eq_zero_iff.1 (UInt8.toNat_inj.1 h)

/-- In little-endian order the lowest bit that differs is in the first byte that does. -/
theorem readLe_mismatch : ∀ {a b : Bytes}, a.length = b.length → a ≠ b →
    trailingZeros (8 * a.length) (readLe a ^^^ readLe b) / 8 = commonPrefix a b
  | [], [], _, hne => absurd rfl hne
  | x :: a, y :: b, hlength, hne => by
    have hx : x.toNat < 256 := x.toNat_lt
    have hy : y.toNat < 256 := y.toNat_lt
    have hlow : (readLe (x :: a) ^^^ readLe (y :: b)) % 2 ^ 8 = x.toNat ^^^ y.toNat := by
      rw [Nat.xor_mod_two_pow]
      show (x.toNat + 256 * readLe a) % 2 ^ 8 ^^^ (y.toNat + 256 * readLe b) % 2 ^ 8 = _
      rw [show (x.toNat + 256 * readLe a) % 2 ^ 8 = x.toNat by omega,
        show (y.toNat + 256 * readLe b) % 2 ^ 8 = y.toNat by omega]
    have hhigh : (readLe (x :: a) ^^^ readLe (y :: b)) / 2 ^ 8 = readLe a ^^^ readLe b := by
      rw [Nat.xor_div_two_pow]
      show (x.toNat + 256 * readLe a) / 2 ^ 8 ^^^ (y.toNat + 256 * readLe b) / 2 ^ 8 = _
      rw [show (x.toNat + 256 * readLe a) / 2 ^ 8 = readLe a by omega,
        show (y.toNat + 256 * readLe b) / 2 ^ 8 = readLe b by omega]
    unfold commonPrefix
    rw [List.length_cons, Nat.mul_succ]
    split
    · rename_i heq
      subst heq
      rw [Nat.xor_self] at hlow
      rw [trailingZeros_add hlow, hhigh, Nat.add_div_right _ (by omega),
        readLe_mismatch (by simpa using hlength) (by rintro rfl; exact hne rfl)]
    · rename_i hdiff
      refine Nat.div_eq_of_lt (trailingZeros_lt (Nat.le_add_left _ _) ?_)
      rw [hlow]
      intro h0
      exact hdiff (eq_of_xor_eq_zero h0)

/-- In big-endian order it is the highest. -/
theorem readBe_mismatch : ∀ {a b : Bytes}, a.length = b.length → a ≠ b →
    leadingZeros (8 * a.length) (readBe a ^^^ readBe b) / 8 = commonPrefix a b
  | [], [], _, hne => absurd rfl hne
  | x :: a, y :: b, hlength, hne => by
    have htails : a.length = b.length := by simpa using hlength
    have ha := readBe_lt a
    have hb := readBe_lt b
    have hbytes : readBe (x :: a) = x.toNat * 2 ^ (8 * a.length) + readBe a ∧
        readBe (y :: b) = y.toNat * 2 ^ (8 * a.length) + readBe b := by
      rw [pow_mul]
      refine ⟨rfl, ?_⟩
      rw [htails]
      rfl
    rw [← htails] at hb
    have hhigh : (readBe (x :: a) ^^^ readBe (y :: b)) / 2 ^ (8 * a.length) = x.toNat ^^^ y.toNat := by
      rw [Nat.xor_div_two_pow, hbytes.1, hbytes.2, Nat.mul_comm, Nat.mul_add_div (Nat.two_pow_pos _),
        Nat.div_eq_of_lt ha, Nat.mul_comm, Nat.mul_add_div (Nat.two_pow_pos _), Nat.div_eq_of_lt hb, Nat.add_zero,
        Nat.add_zero]
    have hlow : (readBe (x :: a) ^^^ readBe (y :: b)) % 2 ^ (8 * a.length) = readBe a ^^^ readBe b := by
      rw [Nat.xor_mod_two_pow, hbytes.1, hbytes.2, Nat.mul_comm, Nat.mul_add_mod, Nat.mod_eq_of_lt ha, Nat.mul_comm,
        Nat.mul_add_mod, Nat.mod_eq_of_lt hb]
    unfold commonPrefix
    rw [List.length_cons, Nat.mul_succ]
    split
    · rename_i heq
      subst heq
      rw [Nat.xor_self, Nat.div_eq_zero_iff_lt (Nat.two_pow_pos _)] at hhigh
      rw [Nat.mod_eq_of_lt hhigh] at hlow
      rw [leadingZeros_add hhigh, hlow, Nat.add_div_right _ (by omega),
        readBe_mismatch htails (by rintro rfl; exact hne rfl)]
    · rename_i hdiff
      refine Nat.div_eq_of_lt ?_
      rw [Nat.add_comm]
      refine leadingZeros_lt (by omega) (not_lt.1 fun hlt => hdiff ?_)
      rw [Nat.div_eq_of_lt hlt] at hhigh
      exact eq_of_xor_eq_zero hhigh.symm

theorem trailingZeros_zero : ∀ bits, trailingZeros bits 0 = bits
  | 0 => rfl
  | bits + 1 => by
    unfold trailingZeros
    rw [if_neg (by decide), Nat.zero_div, trailingZeros_zero bits]

namespace Target

variable (t : Target) {a b : Bytes}

theorem mismatch (hlength : a.length = b.length) (hne : a ≠ b) :
    t.mismatchByteOffset (8 * a.length) (t.fromNeBytes a ^^^ t.fromNeBytes b) = commonPrefix a b := by
  unfold mismatchByteOffset fromNeBytes
  cases t.endian with
  | little => exact readLe_mismatch hlength hne
  | big => exact readBe_mismatch hlength hne

theorem mismatch_zero (n : Nat) : t.mismatchByteOffset (8 * n) 0 = n := by
  unfold mismatchByteOffset
  cases t.endian with
  | little =>
    dsimp only
    rw [trailingZeros_zero, Nat.mul_div_cancel_left _ (by decide)]
  | big =>
    dsimp only [leadingZeros]
    rw [if_pos rfl, Nat.mul_div_cancel_left _ (by decide)]

theorem fromNeBytes_inj (hlength : a.length = b.length) (h : t.fromNeBytes a = t.fromNeBytes b) : a = b := by
  by_contra hne
  have hoffset := t.mismatch hlength hne
  rw [h, Nat.xor_self, mismatch_zero] at hoffset
  have := (commonPrefix_lt_iff hlength).2 hne
  omega

/-- Two words at `pos`, after `pos` bytes that agree: the comparison goes on past them, or ends inside them at the
byte that their difference names. -/
theorem compare (width : Nat) {l r : Bytes} {pos : Nat} (hl : pos + width ≤ l.length) (hr : pos + width ≤ r.length)
    (hpos : pos ≤ commonPrefix l r) :
    let x := t.fromNeBytes ((l.drop pos).take width)
    let y := t.fromNeBytes ((r.drop pos).take width)
    (x = y → pos + width ≤ commonPrefix l r) ∧
      (x ≠ y → commonPrefix l r < pos + width ∧
        pos + t.mismatchByteOffset (8 * width) (x ^^^ y) = commonPrefix l r) := by
  have hwidth : ((l.drop pos).take width).length = width := by rw [List.length_take, List.length_drop]; omega
  have hlength : ((l.drop pos).take width).length = ((r.drop pos).take width).length := by
    rw [hwidth, List.length_take, List.length_drop]
    omega
  have hpiece := commonPrefix_piece width hpos
  have hlt := commonPrefix_lt_iff hlength
  rw [hpiece, hwidth] at hlt
  refine ⟨fun heq => ?_, fun hne => ?_⟩
  · have := t.fromNeBytes_inj hlength heq
    have := mt hlt.1 (not_not.2 this)
    omega
  · have hdiff : (l.drop pos).take width ≠ (r.drop pos).take width := fun heq => hne (congrArg _ heq)
    have hoffset := t.mismatch hlength hdiff
    rw [hpiece, hwidth] at hoffset
    have := hlt.2 hdiff
    omega

end Target

/-! ## The kernels on one slice -/

/-- Where a comparison stands: at the length it returns, or after `pos` bytes that agree. -/
inductive Progress where
  | done (length : Nat)
  | upTo (pos : Nat)
deriving DecidableEq, Repr

section Kernels

variable (t : Target)

/-- `read_unaligned` from a slice. -/
def readUnaligned (width : Nat) (src : Bytes) (pos : Nat) : Option Nat :=
  if pos + width ≤ src.length then some (t.fromNeBytes ((src.drop pos).take width)) else none

/-- Two words of 64 bits at `pos`. -/
def compareWords (base : Bytes) (left right pos : Nat) : Option Progress := do
  let l ← readUnaligned t 8 base (left + pos)
  let r ← readUnaligned t 8 base (right + pos)
  if l ≠ r then
    let diff := l ^^^ r
    some (.done (pos + t.mismatchByteOffset 64 diff))
  else some (.upTo (pos + 8))

/-- `while pos + 16 <= max_len`. -/
def compareWordPairs (base : Bytes) (left right maxLen : Nat) : Nat → Nat → Option Progress
  | 0, _ => none
  | fuel + 1, pos =>
    if pos + 16 ≤ maxLen then do
      match ← compareWords t base left right pos with
      | .done length => some (.done length)
      | .upTo _ =>
        match ← compareWords t base left right (pos + 8) with
        | .done length => some (.done length)
        | .upTo _ => compareWordPairs base left right maxLen fuel (pos + 16)
    else some (.upTo pos)

/-- One step of the binary tail: on past `width` bytes if they fit and agree. -/
def tailStep (width : Nat) (base : Bytes) (left right maxLen pos : Nat) : Option Nat :=
  if pos + width ≤ maxLen then do
    let l ← readUnaligned t width base (left + pos)
    let r ← readUnaligned t width base (right + pos)
    some (if l = r then pos + width else pos)
  else some pos

/-- The 8-byte remainder, if present. -/
def compareRemainder (base : Bytes) (left right maxLen pos : Nat) : Option Progress :=
  if pos + 8 ≤ maxLen then compareWords t base left right pos else some (.upTo pos)

/-- `count_match_length_unsafe`: two words at a time, then the rest. -/
def countMatchLengthUnsafe (base : Bytes) (left right maxLen : Nat) : Option Nat := do
  match ← compareWordPairs t base left right maxLen (maxLen + 1) 0 with
  | .done length => some length
  | .upTo pos =>
    match ← compareRemainder t base left right maxLen pos with
    | .done length => some length
    | .upTo pos =>
      let pos ← tailStep t 4 base left right maxLen pos
      let pos ← tailStep t 2 base left right maxLen pos
      tailStep t 1 base left right maxLen pos

/-- The width of the words that `as_chunks` cuts. -/
def Target.wordBytes : Nat :=
  match t.pointerWidth with
  | .w32 => 4
  | .w64 => 8

/-- The loop over the words of both slices. -/
def compareChunks (left right : Bytes) : Nat → Nat → Progress
  | 0, index => .upTo (index * t.wordBytes)
  | words + 1, index =>
    let leftWord := t.fromNeBytes ((left.drop (index * t.wordBytes)).take t.wordBytes)
    let rightWord := t.fromNeBytes ((right.drop (index * t.wordBytes)).take t.wordBytes)
    if leftWord ≠ rightWord then
      let diff := leftWord ^^^ rightWord
      .done (index * t.wordBytes + t.mismatchByteOffset (8 * t.wordBytes) diff)
    else compareChunks left right words (index + 1)

/-- `while matched < max_len && left_tail[..] == right_tail[..]`, over what is left of the tails. -/
def compareTails : Bytes → Bytes → Nat → Nat
  | a :: left, b :: right, matched => if a = b then compareTails left right (matched + 1) else matched
  | _, _, matched => matched

/-- `count_match_length_slices`: over the shorter of two slices. -/
def countMatchLengthSlices (left right : Bytes) : Nat :=
  let maxLen := min left.length right.length
  let left := left.take maxLen
  let right := right.take maxLen
  match compareChunks t left right (maxLen / t.wordBytes) 0 with
  | .done length => length
  | .upTo matched => compareTails (left.drop matched) (right.drop matched) matched

/-- `&src[start..end]`. -/
def subslice (src : Bytes) (start stop : Nat) : Option Bytes :=
  if start ≤ stop ∧ stop ≤ src.length then some ((src.drop start).take (stop - start)) else none

/-- `count_match_length`: in one source, the left position first. -/
def Target.countMatchLength (src : Bytes) (left right : Nat) : Option Nat :=
  if left < right ∧ right < src.length then countMatchLengthUnsafe t src left right (src.length - right)
  else
    let maxLen := min (src.length - right) (src.length - left)
    do
      let l ← subslice src left (left + maxLen)
      let r ← subslice src right (right + maxLen)
      some (countMatchLengthSlices t l r)

/-- The same behind a start that is known to match. -/
def countMatchLengthFrom (src : Bytes) (left right start : Nat) : Option Nat :=
  if left < right ∧ right < src.length then
    let maxLen := src.length - right
    if start ≥ maxLen then some maxLen
    else do
      let rest ← countMatchLengthUnsafe t src (left + start) (right + start) (maxLen - start)
      some (start + rest)
  else
    let maxLen := min (src.length - right) (src.length - left)
    if start ≥ maxLen then some maxLen
    else do
      let l ← subslice src (left + start) (left + maxLen)
      let r ← subslice src (right + start) (right + maxLen)
      some (start + countMatchLengthSlices t l r)

end Kernels

/-! ## What they return -/

/-- What a comparison may read at one of its positions. -/
def window (buffer : Bytes) (pos limit : Nat) : Bytes := (buffer.drop pos).take limit

/-- How many leading bytes at the two positions are equal, up to the limit. -/
def matchLength (buffer : Bytes) (left right limit : Nat) : Nat :=
  commonPrefix (window buffer left limit) (window buffer right limit)

/-- It is the largest number of bytes within the limit and the buffer that are equal one by one. -/
theorem le_matchLength_iff {buffer : Bytes} {left right limit n : Nat} : n ≤ matchLength buffer left right limit ↔
    n ≤ limit ∧ n ≤ buffer.length - left ∧ n ≤ buffer.length - right ∧
      ∀ i < n, buffer[left + i]? = buffer[right + i]? := by
  unfold matchLength window
  rw [le_commonPrefix_iff, List.length_take, List.length_take, List.length_drop, List.length_drop, List.take_take,
    List.take_take]
  constructor
  · rintro ⟨hl, hr, htake⟩
    rw [min_eq_left (by omega)] at htake
    refine ⟨by omega, by omega, by omega, fun i hi => ?_⟩
    have : (List.take n (List.drop left buffer))[i]? = (List.take n (List.drop right buffer))[i]? := by rw [htake]
    rwa [List.getElem?_take_of_lt hi, List.getElem?_take_of_lt hi, List.getElem?_drop, List.getElem?_drop] at this
  · rintro ⟨hlimit, hl, hr, hall⟩
    refine ⟨by omega, by omega, ?_⟩
    rw [min_eq_left hlimit]
    apply List.ext_getElem?
    intro i
    rcases Nat.lt_or_ge i n with hi | hi
    · rw [List.getElem?_take_of_lt hi, List.getElem?_take_of_lt hi, List.getElem?_drop, List.getElem?_drop, hall i hi]
    · rw [List.getElem?_eq_none (by rw [List.length_take]; omega),
        List.getElem?_eq_none (by rw [List.length_take]; omega)]

section Unsafe

variable (t : Target) {base : Bytes} {left right maxLen pos : Nat}

/-- A loop has found the answer, or is less than `gap` bytes short of it. -/
def Finds (answer gap : Nat) (result : Option Progress) : Prop :=
  result = some (.done answer) ∨ ∃ pos, result = some (.upTo pos) ∧ pos ≤ answer ∧ answer < pos + gap

theorem window_length {buffer : Bytes} {limit : Nat} (h : pos + limit ≤ buffer.length) :
    (window buffer pos limit).length = limit := by
  unfold window
  rw [List.length_take, List.length_drop]
  omega

theorem matchLength_le (buffer : Bytes) (left right limit : Nat) : matchLength buffer left right limit ≤ limit :=
  (le_matchLength_iff.1 le_rfl).1

/-- A read inside the window is a read. -/
theorem readUnaligned_eq {width : Nat} (hl : left + maxLen ≤ base.length) (hpos : pos + width ≤ maxLen) :
    readUnaligned t width base (left + pos) =
      some (t.fromNeBytes (((window base left maxLen).drop pos).take width)) := by
  unfold readUnaligned window
  rw [if_pos (by omega), List.drop_take, List.drop_drop, List.take_take, min_eq_left (by omega)]

variable (hl : left + maxLen ≤ base.length) (hr : right + maxLen ≤ base.length)
include hl hr

theorem compareWords_spec (hpos : pos ≤ matchLength base left right maxLen) (hroom : pos + 8 ≤ maxLen) :
    compareWords t base left right pos = some (.done (matchLength base left right maxLen)) ∨
      (compareWords t base left right pos = some (.upTo (pos + 8)) ∧
        pos + 8 ≤ matchLength base left right maxLen) := by
  obtain ⟨hsame, hdiff⟩ := t.compare 8 (by rw [window_length hl]; exact hroom)
    (by rw [window_length hr]; exact hroom) hpos
  unfold compareWords
  rw [readUnaligned_eq t hl hroom, readUnaligned_eq t hr hroom]
  show (if _ then _ else _) = _ ∨ (if _ then _ else _) = _ ∧ _
  split
  · rename_i hne
    left
    rw [(hdiff hne).2]
    rfl
  · rename_i heq
    exact .inr ⟨rfl, hsame (not_not.1 heq)⟩

theorem compareWordPairs_spec : ∀ (fuel : Nat) {pos : Nat}, maxLen < pos + fuel →
    pos ≤ matchLength base left right maxLen →
    Finds (matchLength base left right maxLen) 16 (compareWordPairs t base left right maxLen fuel pos)
  | 0, pos, hfuel, hpos => by
    have := matchLength_le base left right maxLen
    omega
  | fuel + 1, pos, hfuel, hpos => by
    unfold compareWordPairs
    split
    · rename_i hroom
      rcases compareWords_spec t hl hr hpos (by omega) with hdone | ⟨hgo, hpos'⟩
      · rw [hdone]
        exact .inl rfl
      · rw [hgo]
        rcases compareWords_spec t hl hr hpos' (by omega) with hdone | ⟨hgo, hpos''⟩
        · show Finds _ _ ((compareWords t base left right (pos + 8)).bind _)
          rw [hdone]
          exact .inl rfl
        · show Finds _ _ ((compareWords t base left right (pos + 8)).bind _)
          rw [hgo]
          exact compareWordPairs_spec fuel (by omega) hpos''
    · have := matchLength_le base left right maxLen
      exact .inr ⟨pos, rfl, hpos, by omega⟩

/-- A tail step halves what is left to find. -/
theorem tailStep_spec (width : Nat) (hpos : pos ≤ matchLength base left right maxLen)
    (hgap : matchLength base left right maxLen < pos + 2 * width) :
    ∃ pos', tailStep t width base left right maxLen pos = some pos' ∧
      pos' ≤ matchLength base left right maxLen ∧ matchLength base left right maxLen < pos' + width := by
  unfold tailStep
  split
  · rename_i hroom
    obtain ⟨hsame, hdiff⟩ := t.compare width (by rw [window_length hl]; exact hroom)
      (by rw [window_length hr]; exact hroom) hpos
    rw [readUnaligned_eq t hl hroom, readUnaligned_eq t hr hroom]
    refine ⟨_, rfl, ?_⟩
    split
    · rename_i heq
      have : pos + width ≤ matchLength base left right maxLen := hsame heq
      omega
    · rename_i hne
      exact ⟨hpos, (hdiff hne).1⟩
  · have := matchLength_le base left right maxLen
    exact ⟨pos, rfl, hpos, by omega⟩

theorem countMatchLengthUnsafe_eq :
    countMatchLengthUnsafe t base left right maxLen = some (matchLength base left right maxLen) := by
  have hle := matchLength_le base left right maxLen
  unfold countMatchLengthUnsafe
  rcases compareWordPairs_spec t hl hr (maxLen + 1) (by omega) (Nat.zero_le _) with
    hdone | ⟨pos, hpairs, hpos, hgap⟩
  · rw [hdone]
    rfl
  rw [hpairs]
  dsimp only [Option.bind_eq_bind, Option.bind_some]
  -- eight bytes more, if they are there
  have hremainder : Finds (matchLength base left right maxLen) 8
      (compareRemainder t base left right maxLen pos) := by
    unfold compareRemainder
    split
    · rcases compareWords_spec t hl hr hpos ‹_› with hdone | ⟨hgo, hpos'⟩
      · exact .inl hdone
      · exact .inr ⟨_, hgo, hpos', by omega⟩
    · exact .inr ⟨pos, rfl, hpos, by omega⟩
  rcases hremainder with hdone | ⟨pos, hremainder, hpos, hgap⟩
  · rw [hdone]
    rfl
  rw [hremainder]
  dsimp only [Option.bind_some]
  obtain ⟨pos, h4, hpos, hgap⟩ := tailStep_spec t hl hr 4 hpos hgap
  rw [h4, Option.bind_some]
  obtain ⟨pos, h2, hpos, hgap⟩ := tailStep_spec t hl hr 2 hpos hgap
  rw [h2, Option.bind_some]
  obtain ⟨pos, h1, hpos, hgap⟩ := tailStep_spec t hl hr 1 hpos hgap
  rw [h1, show pos = matchLength base left right maxLen by omega]

end Unsafe

section Slices

variable (t : Target)

theorem Target.wordBytes_pos : 0 < t.wordBytes := by
  unfold wordBytes
  cases t.pointerWidth <;> decide

theorem compareChunks_spec {left right : Bytes} : ∀ (words : Nat) {index : Nat},
    (index + words) * t.wordBytes ≤ left.length → (index + words) * t.wordBytes ≤ right.length →
    index * t.wordBytes ≤ commonPrefix left right →
    compareChunks t left right words index = .done (commonPrefix left right) ∨
      (compareChunks t left right words index = .upTo ((index + words) * t.wordBytes) ∧
        (index + words) * t.wordBytes ≤ commonPrefix left right)
  | 0, index, hl, hr, hindex => .inr ⟨rfl, hindex⟩
  | words + 1, index, hl, hr, hindex => by
    have hnext : index * t.wordBytes + t.wordBytes = (index + 1) * t.wordBytes := by rw [Nat.succ_mul]
    have hle : (index + 1) * t.wordBytes ≤ (index + (words + 1)) * t.wordBytes :=
      Nat.mul_le_mul_right _ (by omega)
    obtain ⟨hsame, hdiff⟩ := t.compare t.wordBytes (by omega) (by omega) hindex
    unfold compareChunks
    dsimp only
    split
    · rename_i hne
      left
      rw [(hdiff hne).2]
    · rename_i heq
      have hgo := hsame (not_not.1 heq)
      rw [hnext] at hgo
      rw [← Nat.add_assoc, Nat.add_right_comm] at hl hr ⊢
      exact compareChunks_spec words hl hr hgo

theorem compareChunks_zero {left right : Bytes} {words : Nat} (hl : words * t.wordBytes ≤ left.length)
    (hr : words * t.wordBytes ≤ right.length) :
    compareChunks t left right words 0 = .done (commonPrefix left right) ∨
      (compareChunks t left right words 0 = .upTo (words * t.wordBytes) ∧
        words * t.wordBytes ≤ commonPrefix left right) := by
  have hspec := @compareChunks_spec t left right words 0
  rw [Nat.zero_add, Nat.zero_mul] at hspec
  exact hspec hl hr (Nat.zero_le _)

theorem compareTails_eq : ∀ (left right : Bytes) (matched : Nat),
    compareTails left right matched = matched + commonPrefix left right
  | [], _, _ => rfl
  | _ :: _, [], _ => rfl
  | a :: left, b :: right, matched => by
    unfold compareTails commonPrefix
    split
    · rw [compareTails_eq left right]
      omega
    · rfl

theorem countMatchLengthSlices_eq (left right : Bytes) :
    countMatchLengthSlices t left right = commonPrefix left right := by
  have hl := commonPrefix_le_left left right
  have hr := commonPrefix_le_right left right
  have htake : commonPrefix (left.take (min left.length right.length)) (right.take (min left.length right.length)) =
      commonPrefix left right := by
    rw [commonPrefix_take]
    omega
  have hwords : min left.length right.length / t.wordBytes * t.wordBytes ≤ min left.length right.length :=
    Nat.div_mul_le_self _ _
  unfold countMatchLengthSlices
  dsimp only
  have hchunks := compareChunks_zero t (hwords.trans (show _ ≤ (left.take (min left.length right.length)).length by
    rw [List.length_take]; omega)) (hwords.trans (show _ ≤ (right.take (min left.length right.length)).length by
    rw [List.length_take]; omega))
  rcases hchunks with hdone | ⟨hgo, hagree⟩
  · rw [hdone]
    exact htake
  · rw [hgo]
    dsimp only
    rw [compareTails_eq, commonPrefix_drop hagree, htake]
    omega

/-- How many leading bytes at the two positions are equal, up to the end of the buffer. -/
def matchLengthToEnd (buffer : Bytes) (left right : Nat) : Nat := matchLength buffer left right buffer.length

theorem matchLengthToEnd_eq (buffer : Bytes) (left right : Nat) :
    matchLengthToEnd buffer left right = commonPrefix (buffer.drop left) (buffer.drop right) := by
  have := commonPrefix_le_left (buffer.drop left) (buffer.drop right)
  rw [List.length_drop] at this
  unfold matchLengthToEnd matchLength window
  rw [commonPrefix_take]
  omega

theorem matchLength_eq_min (buffer : Bytes) (left right limit : Nat) :
    matchLength buffer left right limit = min limit (matchLengthToEnd buffer left right) := by
  rw [matchLengthToEnd_eq]
  exact commonPrefix_take limit

/-- The bytes that a count is told to skip are equal, as far as the buffer goes. -/
def SkippedEqual (buffer : Bytes) (left right start : Nat) : Prop :=
  ∀ i < start, left + i < buffer.length → right + i < buffer.length → buffer[left + i]? = buffer[right + i]?

theorem SkippedEqual.le {buffer : Bytes} {left right start n : Nat} (h : SkippedEqual buffer left right start)
    (hn : n ≤ start) (hl : n ≤ buffer.length - left) (hr : n ≤ buffer.length - right) :
    n ≤ matchLengthToEnd buffer left right :=
  le_matchLength_iff.2 ⟨by omega, hl, hr, fun i hi => h i (by omega) (by omega) (by omega)⟩

variable {src : Bytes} {left right start : Nat}

theorem matchLengthToEnd_le (src : Bytes) (left right : Nat) :
    matchLengthToEnd src left right ≤ min (src.length - right) (src.length - left) := by
  obtain ⟨-, hl, hr, -⟩ := le_matchLength_iff.1 (le_refl (matchLengthToEnd src left right))
  omega

theorem matchLengthToEnd_skip (hstart : start ≤ matchLengthToEnd src left right) :
    matchLengthToEnd src (left + start) (right + start) = matchLengthToEnd src left right - start := by
  rw [matchLengthToEnd_eq] at hstart
  rw [matchLengthToEnd_eq, matchLengthToEnd_eq, ← List.drop_drop, ← List.drop_drop, commonPrefix_drop hstart]

theorem subslice_eq {pos limit : Nat} (h : pos + limit ≤ src.length) :
    subslice src pos (pos + limit) = some (window src pos limit) := by
  unfold subslice window
  rw [if_pos (by omega), Nat.add_sub_cancel_left]

theorem countMatchLength_eq (hl : left ≤ src.length) (hr : right ≤ src.length) :
    t.countMatchLength src left right = some (matchLengthToEnd src left right) := by
  have hle := matchLengthToEnd_le src left right
  unfold Target.countMatchLength
  split
  · rw [countMatchLengthUnsafe_eq t (by omega) (by omega), matchLength_eq_min, min_eq_right (by omega)]
  · dsimp only
    rw [subslice_eq (by omega), subslice_eq (by omega)]
    show some (countMatchLengthSlices t _ _) = _
    rw [countMatchLengthSlices_eq]
    show some (matchLength src left right _) = _
    rw [matchLength_eq_min, min_eq_right hle]

/-- The one-line count the finders are modelled with is the one the kernels make. -/
theorem countMatchLength_target (hl : left ≤ src.length) (hr : right ≤ src.length) :
    t.countMatchLength src left right = some (countMatchLength src left right) := by
  have hsame : ∀ l r : Bytes, commonLength l r = commonPrefix l r := by
    intro l
    induction l with
    | nil => intro r; rfl
    | cons a l ih =>
      intro r
      cases r with
      | nil => rfl
      | cons b r => unfold commonLength commonPrefix; rw [ih]
  rw [countMatchLength_eq t hl hr, matchLengthToEnd_eq]
  unfold countMatchLength
  rw [hsame]

theorem countMatchLengthFrom_eq (hskip : SkippedEqual src left right start) :
    countMatchLengthFrom t src left right start = some (matchLengthToEnd src left right) := by
  have hle := matchLengthToEnd_le src left right
  unfold countMatchLengthFrom
  split
  · dsimp only
    split
    · have := hskip.le (n := src.length - right) (by omega) (by omega) (by omega)
      congr 1
      omega
    · have hstart := hskip.le le_rfl (by omega) (by omega)
      rw [countMatchLengthUnsafe_eq t (by omega) (by omega), matchLength_eq_min, matchLengthToEnd_skip hstart]
      show some _ = some _
      congr 1
      omega
  · dsimp only
    split
    · have := hskip.le (n := min (src.length - right) (src.length - left)) (by omega) (by omega) (by omega)
      congr 1
      omega
    · have hstart := hskip.le le_rfl (by omega) (by omega)
      rw [show left + min (src.length - right) (src.length - left) =
          left + start + (min (src.length - right) (src.length - left) - start) by omega,
        show right + min (src.length - right) (src.length - left) =
          right + start + (min (src.length - right) (src.length - left) - start) by omega,
        subslice_eq (by omega), subslice_eq (by omega)]
      show some (start + countMatchLengthSlices t _ _) = _
      rw [countMatchLengthSlices_eq]
      show some (start + matchLength src (left + start) (right + start) _) = _
      rw [matchLength_eq_min, matchLengthToEnd_skip hstart]
      congr 1
      omega

end Slices

/-! ## The kernels on a prefix and a source -/

/-- A prefix in segments; `new` makes none of an empty one. -/
structure PrefixChain where
  segments : List Bytes
  len : Nat
  len_eq : len = segments.flatten.length
  nonempty : 0 < len

/-- The segment that holds `pos`, from there on; nothing where the source is `unreachable!`. -/
def sliceSegments : List Bytes → Nat → Nat → Option Bytes
  | [], _, _ => none
  | segment :: segments, base, pos =>
    let stop := base + segment.length
    if pos < stop then some (segment.drop (pos - base)) else sliceSegments segments stop pos

/-- What is left of the segment that holds a position. -/
def PrefixChain.slice (chain : PrefixChain) (src : Bytes) (pos : Nat) : Option Bytes :=
  if pos ≥ chain.len then subslice src (pos - chain.len) src.length
  else
    match chain.segments with
    | [segment] => subslice segment pos segment.length
    | segments => sliceSegments segments 0 pos

/-- The same with one segment in front of the source. -/
def logicalSlice (before src : Bytes) (pos : Nat) : Option Bytes :=
  if pos < before.length then some (before.drop pos) else subslice src (pos - before.length) src.length

section Chained

variable (t : Target)

/-- `while matched < max_len`, over what stands in one piece at both positions. -/
def countPieces (sliceAt : Nat → Option Bytes) (left right maxLen : Nat) : Nat → Nat → Option Nat
  | 0, _ => none
  | fuel + 1, matched =>
    if matched < maxLen then do
      let leftBytes ← sliceAt (left + matched)
      let rightBytes ← sliceAt (right + matched)
      let chunkLen := min (min leftBytes.length rightBytes.length) (maxLen - matched)
      let chunkMatch := countMatchLengthSlices t (leftBytes.take chunkLen) (rightBytes.take chunkLen)
      if chunkMatch ≠ chunkLen then some (matched + chunkMatch)
      else countPieces sliceAt left right maxLen fuel (matched + chunkMatch)
    else some matched

/-- `count_match_length_virtual`: over the segments in front of the source and the source. -/
def countMatchLengthVirtual (chain : PrefixChain) (src : Bytes) (left right : Nat) : Option Nat :=
  let virtualLen := chain.len + src.length
  let maxLen := min (virtualLen - right) (virtualLen - left)
  if left ≥ chain.len ∧ right ≥ chain.len then do
    let leftSrc := left - chain.len
    let rightSrc := right - chain.len
    let leftRemaining ← subslice src leftSrc (min src.length (leftSrc + maxLen))
    let rightRemaining ← subslice src rightSrc (min src.length (rightSrc + maxLen))
    some (countMatchLengthSlices t leftRemaining rightRemaining)
  else countPieces t (chain.slice src) left right maxLen (maxLen + 1) 0

/-- The same behind a start that is known to match. -/
def countMatchLengthVirtualFrom (chain : PrefixChain) (src : Bytes) (left right start : Nat) : Option Nat :=
  let virtualLen := chain.len + src.length
  let maxLen := min (virtualLen - right) (virtualLen - left)
  if start ≥ maxLen then some maxLen
  else if left + start ≥ chain.len ∧ right + start ≥ chain.len then do
    let leftSrc := left + start - chain.len
    let rightSrc := right + start - chain.len
    let remaining := maxLen - start
    let leftRemaining ← subslice src leftSrc (min src.length (leftSrc + remaining))
    let rightRemaining ← subslice src rightSrc (min src.length (rightSrc + remaining))
    some (start + countMatchLengthSlices t leftRemaining rightRemaining)
  else countPieces t (chain.slice src) left right maxLen (maxLen + 1) start

/-- `count_match_length_with_prefix`. -/
def countMatchLengthWithPrefix (before src : Bytes) (left right : Nat) : Option Nat :=
  if left ≥ before.length ∧ right ≥ before.length then
    t.countMatchLength src (left - before.length) (right - before.length)
  else
    let virtualLen := before.length + src.length
    let maxLen := min (virtualLen - right) (virtualLen - left)
    countPieces t (logicalSlice before src) left right maxLen (maxLen + 1) 0

/-- `while matched < len`. -/
def equalPieces (sliceAt : Nat → Option Bytes) (left right len : Nat) : Nat → Nat → Option Bool
  | 0, _ => none
  | fuel + 1, matched =>
    if matched < len then do
      let leftBytes ← sliceAt (left + matched)
      let rightBytes ← sliceAt (right + matched)
      let chunkLen := min (min leftBytes.length rightBytes.length) (len - matched)
      if leftBytes.take chunkLen ≠ rightBytes.take chunkLen then some false
      else equalPieces sliceAt left right len fuel (matched + chunkLen)
    else some true

/-- `virtual_match_has_length`: a word for the lengths 4 and 8 inside the source, else piece by piece. -/
def virtualMatchHasLength (chain : PrefixChain) (src : Bytes) (left right len : Nat) : Option Bool :=
  let virtualLen := chain.len + src.length
  if left + len > virtualLen ∨ right + len > virtualLen then some false
  else if left ≥ chain.len ∧ right ≥ chain.len ∧ (len = 4 ∨ len = 8) then do
    let l ← readUnaligned t len src (left - chain.len)
    let r ← readUnaligned t len src (right - chain.len)
    some (l = r)
  else equalPieces (chain.slice src) left right len (len + 1) 0

end Chained

/-! ## The seam -/

/-- Every position of the buffer has a piece of it, from there to somewhere on. -/
def Piecewise (sliceAt : Nat → Option Bytes) (buffer : Bytes) : Prop :=
  ∀ pos < buffer.length, ∃ piece rest, sliceAt pos = some piece ∧ piece ≠ [] ∧ buffer.drop pos = piece ++ rest

theorem subslice_to_end {src : Bytes} {pos : Nat} (h : pos ≤ src.length) :
    subslice src pos src.length = some (src.drop pos) := by
  unfold subslice
  rw [if_pos ⟨h, le_rfl⟩, List.take_of_length_le (by rw [List.length_drop])]

theorem drop_ne_nil {l : Bytes} {pos : Nat} (h : pos < l.length) : l.drop pos ≠ [] := by
  intro hnil
  have := List.drop_eq_nil_iff.1 hnil
  omega

/-- In the source, behind whatever comes before it. -/
theorem source_piece {before src : Bytes} {pos : Nat} (hge : before.length ≤ pos)
    (hlt : pos < (before ++ src).length) : ∃ piece rest,
      subslice src (pos - before.length) src.length = some piece ∧ piece ≠ [] ∧
        (before ++ src).drop pos = piece ++ rest := by
  rw [List.length_append] at hlt
  refine ⟨_, [], subslice_to_end (by omega), drop_ne_nil (by omega), ?_⟩
  rw [List.drop_append, List.drop_of_length_le hge, List.nil_append, List.append_nil]

theorem logicalSlice_pieces (before src : Bytes) : Piecewise (logicalSlice before src) (before ++ src) := by
  intro pos hlt
  unfold logicalSlice
  split
  · rename_i hbefore
    exact ⟨_, src, rfl, drop_ne_nil hbefore, List.drop_append_of_le_length (by omega)⟩
  · exact source_piece (by omega) hlt

theorem sliceSegments_pieces : ∀ (segments : List Bytes) (base pos : Nat), base ≤ pos →
    pos - base < segments.flatten.length → ∃ piece rest,
      sliceSegments segments base pos = some piece ∧ piece ≠ [] ∧ segments.flatten.drop (pos - base) = piece ++ rest
  | [], base, pos, _, hlt => absurd hlt (Nat.not_lt_zero _)
  | segment :: segments, base, pos, hbase, hlt => by
    rw [List.flatten_cons, List.length_append] at hlt
    unfold sliceSegments
    dsimp only
    split
    · refine ⟨_, segments.flatten, rfl, drop_ne_nil (by omega), ?_⟩
      rw [List.flatten_cons, List.drop_append_of_le_length (by omega)]
    · obtain ⟨piece, rest, hpiece, hne, hdrop⟩ :=
        sliceSegments_pieces segments (base + segment.length) pos (by omega) (by omega)
      refine ⟨piece, rest, hpiece, hne, ?_⟩
      rw [← hdrop, List.flatten_cons, List.drop_append, List.drop_of_length_le (by omega), List.nil_append,
        Nat.sub_sub]

/-- The bytes of a chain and the source after it. -/
def PrefixChain.buffer (chain : PrefixChain) (src : Bytes) : Bytes := chain.segments.flatten ++ src

theorem PrefixChain.slice_pieces (chain : PrefixChain) (src : Bytes) :
    Piecewise (chain.slice src) (chain.buffer src) := by
  intro pos hlt
  have hlen := chain.len_eq
  unfold buffer at hlt ⊢
  unfold slice
  split
  · rw [hlen]
    exact source_piece (by omega) hlt
  · have hsegments := sliceSegments_pieces chain.segments 0 pos (Nat.zero_le pos) (by omega)
    rw [Nat.sub_zero] at hsegments
    obtain ⟨piece, rest, hpiece, hne, hdrop⟩ := hsegments
    refine ⟨piece, rest ++ src, ?_, hne, ?_⟩
    · split
      · rename_i segment hsegment
        rw [hsegment, List.flatten_singleton] at hlen
        rw [hsegment] at hpiece
        unfold sliceSegments at hpiece
        dsimp only at hpiece
        rw [if_pos (by omega), Nat.sub_zero] at hpiece
        rw [subslice_to_end (by omega), hpiece]
      · exact hpiece
    · rw [List.drop_append_of_le_length (by omega), hdrop, List.append_assoc]

section Runs

variable (t : Target) {sliceAt : Nat → Option Bytes} {buffer : Bytes} {left right : Nat}

/-- What a round compares: the next `n` bytes at both positions. -/
theorem piece_take {pos n : Nat} {piece rest : Bytes} (hdrop : buffer.drop pos = piece ++ rest)
    (hn : n ≤ piece.length) : piece.take n = (buffer.drop pos).take n := by
  rw [hdrop, List.take_append_of_le_length hn]

theorem commonPrefix_pieces {matched n : Nat} (hmatched : matched ≤ matchLengthToEnd buffer left right) :
    commonPrefix ((buffer.drop (left + matched)).take n) ((buffer.drop (right + matched)).take n) =
      min n (matchLengthToEnd buffer left right - matched) := by
  rw [commonPrefix_take, ← matchLengthToEnd_eq, matchLengthToEnd_skip hmatched]

/-- The count goes on from piece to piece and ends at the first difference, wherever the seams are. -/
theorem countPieces_eq (hpieces : Piecewise sliceAt buffer) {maxLen : Nat}
    (hmax : maxLen = min (buffer.length - right) (buffer.length - left)) :
    ∀ (fuel : Nat) {matched : Nat}, maxLen < matched + fuel → matched ≤ matchLengthToEnd buffer left right →
      countPieces t sliceAt left right maxLen fuel matched = some (matchLengthToEnd buffer left right)
  | 0, matched, hfuel, hmatched => by
    have := matchLengthToEnd_le buffer left right
    omega
  | fuel + 1, matched, hfuel, hmatched => by
    have hle := matchLengthToEnd_le buffer left right
    unfold countPieces
    split
    · obtain ⟨pl, restl, hl, hnel, hdropl⟩ := hpieces (left + matched) (by omega)
      obtain ⟨pr, restr, hr, hner, hdropr⟩ := hpieces (right + matched) (by omega)
      have hposl := List.length_pos_iff.2 hnel
      have hposr := List.length_pos_iff.2 hner
      rw [hl, hr]
      dsimp only [Option.bind_eq_bind, Option.bind_some]
      generalize hc : min (min pl.length pr.length) (maxLen - matched) = chunkLen
      have hfound : countMatchLengthSlices t (pl.take chunkLen) (pr.take chunkLen) =
          min chunkLen (matchLengthToEnd buffer left right - matched) := by
        rw [countMatchLengthSlices_eq, piece_take hdropl (by omega), piece_take hdropr (by omega),
          commonPrefix_pieces hmatched]
      rw [hfound]
      split
      · congr 1
        omega
      · exact countPieces_eq hpieces hmax fuel (by omega) (by omega)
    · congr 1
      omega

theorem equalPieces_eq (hpieces : Piecewise sliceAt buffer) {len : Nat} (hl : left + len ≤ buffer.length)
    (hr : right + len ≤ buffer.length) :
    ∀ (fuel : Nat) {matched : Nat}, len < matched + fuel → matched ≤ matchLengthToEnd buffer left right →
      matched ≤ len →
      equalPieces sliceAt left right len fuel matched = some (decide (len ≤ matchLengthToEnd buffer left right))
  | 0, matched, hfuel, _, hlen => by omega
  | fuel + 1, matched, hfuel, hmatched, hlen => by
    unfold equalPieces
    split
    · obtain ⟨pl, restl, hsl, hnel, hdropl⟩ := hpieces (left + matched) (by omega)
      obtain ⟨pr, restr, hsr, hner, hdropr⟩ := hpieces (right + matched) (by omega)
      have hposl := List.length_pos_iff.2 hnel
      have hposr := List.length_pos_iff.2 hner
      rw [hsl, hsr]
      dsimp only [Option.bind_eq_bind, Option.bind_some]
      generalize hc : min (min pl.length pr.length) (len - matched) = chunkLen
      have hfound : commonPrefix (pl.take chunkLen) (pr.take chunkLen) =
          min chunkLen (matchLengthToEnd buffer left right - matched) := by
        rw [piece_take hdropl (by omega), piece_take hdropr (by omega), commonPrefix_pieces hmatched]
      have hlengths : (pl.take chunkLen).length = chunkLen ∧ (pr.take chunkLen).length = chunkLen := by
        rw [List.length_take, List.length_take]
        omega
      have hlt := commonPrefix_lt_iff (hlengths.1.trans hlengths.2.symm)
      rw [hfound, hlengths.1] at hlt
      split
      · rename_i hne
        have := hlt.2 hne
        rw [decide_eq_false (by omega)]
      · rename_i heq
        have := mt hlt.1 heq
        exact equalPieces_eq hpieces hl hr fuel (by omega) (by omega) (by omega)
    · rw [decide_eq_true (by omega)]

variable {chain : PrefixChain} {before src : Bytes} {start len : Nat}

theorem PrefixChain.buffer_length (chain : PrefixChain) (src : Bytes) :
    (chain.buffer src).length = chain.len + src.length := by
  unfold buffer
  rw [List.length_append, chain.len_eq]

/-- Past the seam the buffer is the source. -/
theorem matchLengthToEnd_source (hl : before.length ≤ left) (hr : before.length ≤ right) :
    matchLengthToEnd (before ++ src) left right =
      matchLengthToEnd src (left - before.length) (right - before.length) := by
  rw [matchLengthToEnd_eq, matchLengthToEnd_eq, List.drop_append, List.drop_append, List.drop_of_length_le hl,
    List.drop_of_length_le hr, List.nil_append, List.nil_append]

theorem PrefixChain.matchLengthToEnd_source (chain : PrefixChain) (hl : chain.len ≤ left) (hr : chain.len ≤ right) :
    matchLengthToEnd (chain.buffer src) left right =
      matchLengthToEnd src (left - chain.len) (right - chain.len) := by
  have hlen := chain.len_eq
  unfold buffer
  rw [hlen]
  exact Zstandard.matchLengthToEnd_source (by omega) (by omega)

/-- Both of what is left of the source, in one count. -/
theorem source_slices (src : Bytes) {l r : Nat} (n : Nat) (hl : l ≤ src.length) (hr : r ≤ src.length)
    (hn : matchLengthToEnd src l r ≤ n) :
    ∃ x y, subslice src l (min src.length (l + n)) = some x ∧ subslice src r (min src.length (r + n)) = some y ∧
      countMatchLengthSlices t x y = matchLengthToEnd src l r := by
  have hcut : ∀ {pos : Nat}, pos ≤ src.length →
      subslice src pos (min src.length (pos + n)) = some (window src pos n) := by
    intro pos hpos
    unfold subslice window
    rw [if_pos (by omega)]
    congr 1
    rcases Nat.le_total src.length (pos + n) with hshort | hlong
    · rw [min_eq_left hshort, List.take_of_length_le (by rw [List.length_drop]),
        List.take_of_length_le (by rw [List.length_drop]; omega)]
    · rw [min_eq_right hlong, Nat.add_sub_cancel_left]
  refine ⟨_, _, hcut hl, hcut hr, ?_⟩
  rw [countMatchLengthSlices_eq]
  show matchLength src l r n = _
  rw [matchLength_eq_min, min_eq_right hn]

theorem countMatchLengthVirtual_eq (hl : left ≤ (chain.buffer src).length) (hr : right ≤ (chain.buffer src).length) :
    countMatchLengthVirtual t chain src left right = some (matchLengthToEnd (chain.buffer src) left right) := by
  have hlength := chain.buffer_length src
  have hle := matchLengthToEnd_le (chain.buffer src) left right
  unfold countMatchLengthVirtual
  dsimp only
  split
  · rename_i hsource
    rw [chain.matchLengthToEnd_source hsource.1 hsource.2] at hle ⊢
    obtain ⟨x, y, hx, hy, hfound⟩ := source_slices t src
      (min (chain.len + src.length - right) (chain.len + src.length - left))
      (show left - chain.len ≤ src.length by omega) (show right - chain.len ≤ src.length by omega) (by omega)
    rw [hx, hy, ← hfound]
    rfl
  · exact countPieces_eq t (chain.slice_pieces src) (by rw [hlength]) _ (by omega) (Nat.zero_le _)

theorem countMatchLengthVirtualFrom_eq (hskip : SkippedEqual (chain.buffer src) left right start) :
    countMatchLengthVirtualFrom t chain src left right start =
      some (matchLengthToEnd (chain.buffer src) left right) := by
  have hlength := chain.buffer_length src
  have hle := matchLengthToEnd_le (chain.buffer src) left right
  rw [hlength] at hle
  unfold countMatchLengthVirtualFrom
  dsimp only
  split
  · have := hskip.le (n := min (chain.len + src.length - right) (chain.len + src.length - left)) (by omega) (by omega)
      (by omega)
    congr 1
    omega
  have hstart := hskip.le le_rfl (by omega) (by omega)
  split
  · rename_i hsource
    have hrest := matchLengthToEnd_skip hstart
    rw [chain.matchLengthToEnd_source hsource.1 hsource.2] at hrest
    obtain ⟨x, y, hx, hy, hfound⟩ := source_slices t src
      (min (chain.len + src.length - right) (chain.len + src.length - left) - start)
      (show left + start - chain.len ≤ src.length by omega) (show right + start - chain.len ≤ src.length by omega)
      (by omega)
    rw [hx, hy]
    show some (start + countMatchLengthSlices t x y) = _
    rw [hfound, hrest]
    congr 1
    omega
  · exact countPieces_eq t (chain.slice_pieces src) (by rw [hlength]) _ (by omega) hstart

theorem countMatchLengthWithPrefix_eq (hl : left ≤ (before ++ src).length) (hr : right ≤ (before ++ src).length) :
    countMatchLengthWithPrefix t before src left right = some (matchLengthToEnd (before ++ src) left right) := by
  have hlength : (before ++ src).length = before.length + src.length := List.length_append
  unfold countMatchLengthWithPrefix
  split
  · rename_i hsource
    rw [matchLengthToEnd_source hsource.1 hsource.2, countMatchLength_eq t (by omega) (by omega)]
  · dsimp only
    exact countPieces_eq t (logicalSlice_pieces before src) (by rw [hlength]) _ (by omega) (Nat.zero_le _)

theorem virtualMatchHasLength_eq (hl : left ≤ (chain.buffer src).length) (hr : right ≤ (chain.buffer src).length) :
    virtualMatchHasLength t chain src left right len =
      some (decide (len ≤ matchLengthToEnd (chain.buffer src) left right)) := by
  have hlength := chain.buffer_length src
  have hle := matchLengthToEnd_le (chain.buffer src) left right
  unfold virtualMatchHasLength
  dsimp only
  split
  · rw [decide_eq_false (by omega)]
  split
  · rename_i hfits hsource
    obtain ⟨hsl, hsr, -⟩ := hsource
    have hroom : ∀ {pos : Nat}, chain.len ≤ pos → pos + len ≤ chain.len + src.length →
        0 + len ≤ (src.drop (pos - chain.len)).length := by
      intro pos hpos hend
      rw [List.length_drop]
      omega
    have hreads := t.compare len (hroom hsl (by omega)) (hroom hsr (by omega)) (Nat.zero_le _)
    rw [List.drop_zero, List.drop_zero, ← matchLengthToEnd_eq, ← chain.matchLengthToEnd_source hsl hsr,
      Nat.zero_add] at hreads
    unfold readUnaligned
    rw [if_pos (by omega), if_pos (by omega)]
    show some (decide _) = _
    congr 1
    rw [decide_eq_decide]
    constructor
    · exact hreads.1
    · intro hlen
      by_contra hne
      have := (hreads.2 hne).1
      omega
  · exact equalPieces_eq (chain.slice_pieces src) (by omega) (by omega) _ (by omega) (Nat.zero_le _)
      (Nat.zero_le _)

end Runs

/-- Every kernel returns the number of equal leading bytes up to its limit, on any target and wherever the seams
between the segments of the prefix and the source are; none reads outside its slices or runs on for ever. -/
theorem match_length_kernels (t : Target) (src before : Bytes) (chain : PrefixChain)
    (left right limit start len : Nat) : (left + limit ≤ src.length → right + limit ≤ src.length →
      countMatchLengthUnsafe t src left right limit = some (matchLength src left right limit)) ∧
    (∀ other : Bytes, countMatchLengthSlices t src other = commonPrefix src other) ∧
    (left ≤ src.length → right ≤ src.length →
      t.countMatchLength src left right = some (matchLengthToEnd src left right)) ∧
    (SkippedEqual src left right start →
      countMatchLengthFrom t src left right start = some (matchLengthToEnd src left right)) ∧
    (left ≤ (before ++ src).length → right ≤ (before ++ src).length →
      countMatchLengthWithPrefix t before src left right = some (matchLengthToEnd (before ++ src) left right)) ∧
    (left ≤ (chain.buffer src).length → right ≤ (chain.buffer src).length →
      countMatchLengthVirtual t chain src left right = some (matchLengthToEnd (chain.buffer src) left right) ∧
      virtualMatchHasLength t chain src left right len =
        some (decide (len ≤ matchLengthToEnd (chain.buffer src) left right))) ∧
    (SkippedEqual (chain.buffer src) left right start →
      countMatchLengthVirtualFrom t chain src left right start =
        some (matchLengthToEnd (chain.buffer src) left right)) := by
  refine ⟨countMatchLengthUnsafe_eq t, countMatchLengthSlices_eq t src, countMatchLength_eq t,
    countMatchLengthFrom_eq t, countMatchLengthWithPrefix_eq t, ?_, countMatchLengthVirtualFrom_eq t⟩
  intro hl hr
  exact ⟨countMatchLengthVirtual_eq t hl hr, virtualMatchHasLength_eq t hl hr⟩

/-- A match that starts in the first segment of a prefix and runs over both seams into the source. -/
theorem match_length_kernels_seams :
    countMatchLengthUnsafe ⟨.little, .w64⟩ [3, 1, 2, 3, 1, 2, 4] 0 3 4 = some 3 ∧
    countMatchLengthFrom ⟨.big, .w32⟩ [3, 1, 2, 3, 1, 2, 4] 0 3 2 = some 3 ∧
    countMatchLengthWithPrefix ⟨.little, .w64⟩ [1, 2] [3, 1, 2, 3, 4] 0 3 = some 3 ∧
    countMatchLengthVirtual ⟨.little, .w64⟩ ⟨[[1], [2]], 2, rfl, by decide⟩ [3, 1, 2, 3, 4] 0 3 = some 3 ∧
    virtualMatchHasLength ⟨.little, .w64⟩ ⟨[[1], [2]], 2, rfl, by decide⟩ [3, 1, 2, 3, 4] 0 3 4 = some false ∧
    countMatchLengthVirtualFrom ⟨.little, .w64⟩ ⟨[[1], [2]], 2, rfl, by decide⟩ [3, 1, 2, 3, 4] 0 3 1 = some 3 := by
  obtain ⟨hraw, -⟩ :=
    match_length_kernels ⟨.little, .w64⟩ [3, 1, 2, 3, 1, 2, 4] [] ⟨[[1]], 1, rfl, by decide⟩ 0 3 4 2 0
  obtain ⟨-, -, -, hfromBig, -⟩ :=
    match_length_kernels ⟨.big, .w32⟩ [3, 1, 2, 3, 1, 2, 4] [] ⟨[[1]], 1, rfl, by decide⟩ 0 3 4 2 0
  obtain ⟨-, -, -, -, hprefix, hvirtual, hvirtualFrom⟩ :=
    match_length_kernels ⟨.little, .w64⟩ [3, 1, 2, 3, 4] [1, 2] ⟨[[1], [2]], 2, rfl, by decide⟩ 0 3 0 1 4
  obtain ⟨hcount, hhas⟩ := hvirtual (by decide) (by decide)
  exact ⟨hraw (by decide) (by decide), hfromBig (by unfold SkippedEqual; decide), hprefix (by decide) (by decide),
    hcount, hhas, hvirtualFrom (by unfold SkippedEqual; decide)⟩

end Zstandard
