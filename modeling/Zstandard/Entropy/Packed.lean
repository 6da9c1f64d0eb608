/-
The packed Huffman encoder: bits enter a 64-bit container from the top, the low bits of an entry count its code
length as they are added, and nobody clears them.

Seen from the top the container is the one of `BitCStream`, with another flush schedule. The stray low bits never
matter, because a group of symbols between two flushes leaves them below the bits that count.
-/
import Mathlib.Data.List.GetD
import Zstandard.Entropy.BitWriter
import Zstandard.Entropy.Ctables

namespace Zstandard

open BitStack

namespace Huff0

/-! ## Tables -/

/-- An encoder's table: an entry for every symbol. -/
abbrev CTable := UInt8 → CElt

/-- The entry of `packed` for one of `ctable`: the code at the top, its length at the bottom. -/
def CElt.packed (e : CElt) : Nat :=
  if e.nbBits > 0 then (e.val <<< (64 - e.nbBits)) % 2 ^ 64 ||| e.nbBits else 0

/-! ## One symbol at a time -/

/-- `encode_symbol`. -/
def encodeSymbol (c : BitCStream) (symbol : UInt8) (ctable : CTable) : BitCStream :=
  c.addBitsFast (ctable symbol).val (ctable symbol).nbBits

/-- Every symbol through `BitCStream`, the last one first. -/
def encodeSymbols (ctable : CTable) : List UInt8 → BitCStream → Result BitCStream
  | [], c => .ok c
  | symbol :: symbols, c => do
    let c ← encodeSymbols ctable symbols c
    (encodeSymbol c symbol ctable).flushBits

/-- One stream by the plain writer. -/
def compress1xPlain (dst src : Bytes) (ctable : CTable) : Result (Nat × Bytes) :=
  match BitCStream.new dst with
  | .error _ => .ok (0, dst)
  | .ok c => do
    let c ← encodeSymbols ctable src c
    c.close

/-! ## The packed container -/

/-- `PackedContainer`: fields enter from the top, and `bp` counts their bits in its low byte. -/
structure PackedContainer where
  c : Nat
  bp : Nat
deriving DecidableEq, Repr

namespace PackedContainer

def empty : PackedContainer := { c := 0, bp := 0 }

/-- `add_fast`: the length below the code is not masked off. -/
def addFast (s : PackedContainer) (elt : Nat) : PackedContainer :=
  { c := s.c >>> (elt % 64) ||| elt, bp := (s.bp + elt) % 2 ^ 64 }

/-- `add_slow`: the length is masked off. -/
def addSlow (s : PackedContainer) (elt : Nat) : PackedContainer :=
  let nb := elt % 256
  { c := s.c >>> (nb % 64) ||| (elt - elt % 256), bp := (s.bp + nb) % 2 ^ 64 }

/-- `add_last`. -/
def addLast (fast : Bool) (s : PackedContainer) (elt : Nat) : PackedContainer :=
  if fast then s.addFast elt else s.addSlow elt

/-- `merge_index1`. -/
def mergeIndex1 (s0 s1 : PackedContainer) : PackedContainer :=
  { c := s0.c >>> (s1.bp % 256 % 64) ||| s1.c, bp := (s0.bp + s1.bp) % 2 ^ 64 }

/-- `count` symbols in turn, downward from the one before `n`. -/
def addSymbols (add : PackedContainer → Nat → PackedContainer) (packed : UInt8 → Nat) (src : Bytes) :
    Nat → Nat → PackedContainer → PackedContainer
  | 0, _, s => s
  | count + 1, n, s => addSymbols add packed src count (n - 1) (add s (packed (src.getD (n - 1) 0)))

/-- A group of `kUnroll` symbols below `n`, all but the last of them fast. -/
def addGroup (kUnroll : Nat) (kLastFast : Bool) (packed : UInt8 → Nat) (src : Bytes) (n : Nat) (s : PackedContainer) :
    PackedContainer :=
  (s.addSymbols addFast packed src (kUnroll - 1) n).addLast kLastFast (packed (src.getD (n - kUnroll) 0))

end PackedContainer

/-- The container and where it is flushed to. -/
structure PackedCStream extends PackedContainer where
  dst : Bytes
  bytePos : Nat
  endPos : Nat
deriving DecidableEq, Repr

namespace PackedCStream

/-- `flush`: a whole word is written, whatever it holds. -/
def flush (fast : Bool) (s : PackedCStream) : Result PackedCStream := do
  let nbBits := s.bp % 256
  let nbBytes := nbBits >>> 3
  let out := s.c >>> (wrappingSub32 64 nbBits % 64)
  let dst ← writeU64 s.dst s.bytePos out
  .ok { s with dst, bp := s.bp % 8
               bytePos := if fast then s.bytePos + nbBytes else min (s.bytePos + nbBytes) s.endPos }

/-- The end mark and the last flush. -/
def close (s : PackedCStream) : Result (Nat × Bytes) := do
  let s ← ({ s with c := s.c >>> 1 ||| 1 <<< 63, bp := (s.bp + 1) % 2 ^ 64 } : PackedCStream).flush false
  if s.bytePos ≥ s.endPos then .ok (0, s.dst)
  else .ok (s.bytePos + (if s.bp % 8 > 0 then 1 else 0), s.dst)

end PackedCStream

section Loop

variable (kUnroll : Nat) (kLastFast kFastFlush : Bool) (src : Bytes) (packed : UInt8 → Nat)

/-- One group below `n`, flushed. -/
def compressGroup (n : Nat) (s : PackedCStream) : Result PackedCStream :=
  ({ s with toPackedContainer := s.addGroup kUnroll kLastFast packed src n } : PackedCStream).flush kFastFlush

/-- A round of the main loop: a group into the container, and one into a container of its own that is merged. -/
def compressTwoGroups (n : Nat) (s : PackedCStream) : Result PackedCStream := do
  let s ← compressGroup kUnroll kLastFast kFastFlush src packed n s
  let s1 := PackedContainer.empty.addGroup kUnroll kLastFast packed src (n - kUnroll)
  ({ s with toPackedContainer := s.mergeIndex1 s1 } : PackedCStream).flush kFastFlush

/-- The loop of two groups of symbols. -/
def compressMainLoop : Nat → Nat → PackedCStream → Result PackedCStream
  | 0, _, s => .ok s
  | fuel + 1, n, s =>
    if n > 0 then do
      let s ← compressTwoGroups kUnroll kLastFast kFastFlush src packed n s
      compressMainLoop fuel (n - 2 * kUnroll) s
    else .ok s

/-- The symbols that do not make a group, one by one. -/
def compressRemainder (s : PackedCStream) : Result PackedCStream :=
  if src.length % kUnroll > 0 then
    ({ s with toPackedContainer := s.addSymbols .addSlow packed src (src.length % kUnroll) src.length } :
      PackedCStream).flush kFastFlush
  else .ok s

/-- One more group, so that the main loop can always take two. -/
def compressOddGroup (n : Nat) (s : PackedCStream) : Result (Nat × PackedCStream) :=
  if n % (2 * kUnroll) ≠ 0 then do
    let s ← compressGroup kUnroll kLastFast kFastFlush src packed n s
    .ok (n - kUnroll, s)
  else .ok (n, s)

/-- `compress_1x_loop`. -/
def compress1xLoop (dst : Bytes) : Result (Nat × Bytes) := do
  let s : PackedCStream := { c := 0, bp := 0, dst, bytePos := 0, endPos := dst.length - 8 }
  let s ← compressRemainder kUnroll kFastFlush src packed s
  let (n, s) ← compressOddGroup kUnroll kLastFast kFastFlush src packed (src.length - src.length % kUnroll) s
  let s ← compressMainLoop kUnroll kLastFast kFastFlush src packed n n s
  s.close

end Loop

/-- `compress_1x_packed`: the unroll and the flushes that the table log and the room allow. -/
def compress1xPacked (dst src : Bytes) (packed : UInt8 → Nat) (tableLog : Nat) : Result (Nat × Bytes) :=
  if dst.length ≤ 8 ∨ src.isEmpty then .ok (0, dst)
  else
    let tightBound := (src.length * tableLog) >>> 3 + 8
    if dst.length < tightBound ∨ tableLog > 11 then compress1xLoop 4 false false src packed dst
    else
      match tableLog with
      | 11 => compress1xLoop 5 false true src packed dst
      | 10 => compress1xLoop 5 true true src packed dst
      | 9 => compress1xLoop 6 false true src packed dst
      | 8 => compress1xLoop 7 false true src packed dst
      | 7 => compress1xLoop 8 false true src packed dst
      | _ => compress1xLoop 9 true true src packed dst

def compress1xUsingCtable (dst src : Bytes) (ctable : CTable) (tableLog : Nat) : Result (Nat × Bytes) :=
  compress1xPacked dst src (fun symbol => (ctable symbol).packed) tableLog

/-! ## The container from the top -/

/-- A table of codes that fit their lengths, none of them longer than the table log. -/
structure CTable.Ok (ctable : CTable) (tableLog : Nat) : Prop where
  le : ∀ symbol, (ctable symbol).nbBits ≤ tableLog
  fits : ∀ symbol, (ctable symbol).val < 2 ^ (ctable symbol).nbBits

def CElt.field (e : CElt) : Field := (e.val, e.nbBits)

/-- The fields of symbols in the order they are added. -/
def codes (ctable : CTable) (symbols : List UInt8) : List Field := symbols.map fun symbol => (ctable symbol).field

/-- A packed entry is the code at the top and its length at the bottom. -/
theorem CElt.packed_eq {e : CElt} (hv : e.val < 2 ^ e.nbBits) (hn : e.nbBits ≤ 12) :
    e.packed = e.val * 2 ^ (64 - e.nbBits) + e.nbBits := by
  unfold packed
  split
  · have hlt : e.val * 2 ^ (64 - e.nbBits) < 2 ^ 64 := by
      calc e.val * 2 ^ (64 - e.nbBits) < 2 ^ e.nbBits * 2 ^ (64 - e.nbBits) :=
        Nat.mul_lt_mul_of_pos_right hv (by positivity)
        _ = 2 ^ 64 := by rw [← pow_add]; congr 1; omega
    have hlow : e.nbBits < 2 ^ (64 - e.nbBits) :=
      lt_of_lt_of_le (by omega : e.nbBits < 2 ^ 52) (Nat.pow_le_pow_right (by norm_num) (by omega))
    rw [Nat.shiftLeft_eq, Nat.mod_eq_of_lt hlt, ← Nat.shiftLeft_eq, ← Nat.shiftLeft_add_eq_or_of_lt hlow]
  · rename_i h0
    obtain hz : e.nbBits = 0 := by omega
    rw [hz] at hv ⊢
    simp at hv
    simp [hv]

namespace PackedContainer

variable {s : PackedContainer} {t p v n L : Nat}

/-- The top `t` bits of the container are `p`. -/
structure Top (s : PackedContainer) (t p : Nat) : Prop where
  lt : s.c < 2 ^ 64
  le : t ≤ 64
  top : s.c / 2 ^ (64 - t) = p

theorem Top.p_lt (h : s.Top t p) : p < 2 ^ t := by
  rw [← h.top, Nat.div_lt_iff_lt_mul (by positivity), ← pow_add]
  have := h.le
  rw [show t + (64 - t) = 64 by omega]
  exact h.lt

/-- Shifting the container down and putting a word over its top puts the word's top bits above its own. -/
theorem Top.or_shift (h : s.Top t p) (hn : t + n ≤ 64) {word : Nat} (hw : word < 2 ^ 64)
    (htop : word / 2 ^ (64 - (t + n)) = v * 2 ^ t) (bp : Nat) :
    Top { c := s.c >>> n ||| word, bp := bp } (t + n) (p + 2 ^ t * v) := by
  have hshift : s.c >>> n < 2 ^ 64 := lt_of_le_of_lt (Nat.shiftRight_le _ _) h.lt
  refine ⟨Nat.or_lt_two_pow hshift hw, hn, ?_⟩
  simp only
  have hdown : s.c >>> n >>> (64 - (t + n)) = p := by
    rw [← Nat.shiftRight_add, Nat.shiftRight_eq_div_pow, ← h.top]
    congr 2; omega
  rw [← Nat.shiftRight_eq_div_pow, Nat.shiftRight_or_distrib, hdown, Nat.shiftRight_eq_div_pow, htop,
    ← Nat.shiftLeft_eq, Nat.or_comm, ← Nat.shiftLeft_add_eq_or_of_lt h.p_lt, Nat.shiftLeft_eq]
  ring

/-- What an entry leaves above a position below which its length counts. -/
theorem entry_top (hn : t + n ≤ 64) {low : Nat} (hlow : low < 2 ^ (64 - (t + n))) :
    (v * 2 ^ (64 - n) + low) / 2 ^ (64 - (t + n)) = v * 2 ^ t := by
  have hsplit : v * 2 ^ (64 - n) = v * 2 ^ t * 2 ^ (64 - (t + n)) := by
    rw [mul_assoc, ← pow_add]
    congr 2; omega
  rw [hsplit, Nat.add_comm, Nat.add_mul_div_right _ _ (by positivity), Nat.div_eq_of_lt hlow, Nat.zero_add]

theorem entry_lt (hv : v < 2 ^ n) (hn : n ≤ 12) {low : Nat} (hlow : low ≤ n) : v * 2 ^ (64 - n) + low < 2 ^ 64 := by
  have hbound : low < 2 ^ (64 - n) :=
    lt_of_lt_of_le (by omega : low < 2 ^ 52) (Nat.pow_le_pow_right (by norm_num) (by omega))
  calc v * 2 ^ (64 - n) + low < (v + 1) * 2 ^ (64 - n) := by rw [Nat.add_mul]; omega
    _ ≤ 2 ^ n * 2 ^ (64 - n) := Nat.mul_le_mul_right _ hv
    _ = 2 ^ 64 := by rw [← pow_add]; congr 1; omega

/-- The low byte of an entry is its code length. -/
theorem entry_mod (hn : n ≤ 12) {m : Nat} (hm : m ≤ 8) (hlow : n < 2 ^ m) : (v * 2 ^ (64 - n) + n) % 2 ^ m = n := by
  have hsplit : v * 2 ^ (64 - n) = v * 2 ^ (64 - n - m) * 2 ^ m := by
    rw [mul_assoc, ← pow_add]
    congr 2; omega
  rw [hsplit, Nat.add_comm, Nat.add_mul_mod_self_right, Nat.mod_eq_of_lt hlow]

/-- An addition puts each code of the table above what is there, up to `limit` bits. -/
def Adds (ctable : CTable) (limit : Nat) (add : PackedContainer → Nat → PackedContainer) : Prop :=
  ∀ {s : PackedContainer} {t p : Nat} (symbol : UInt8), s.Top t p → t + (ctable symbol).nbBits ≤ limit →
    (add s (ctable symbol).packed).Top (t + (ctable symbol).nbBits) (p + 2 ^ t * (ctable symbol).val) ∧
      (add s (ctable symbol).packed).bp % 256 = (s.bp + (ctable symbol).nbBits) % 256

section Adds

variable {ctable : CTable} {limit : Nat} (hok : ctable.Ok L) (hL : L ≤ 12)

include hok hL

/-- The length an entry carries stays below the bits that count, as long as these leave room for it. -/
theorem adds_fast (hlimit : limit ≤ 64) (hroom : L < 2 ^ (64 - limit)) : Adds ctable limit addFast := by
  intro s t p symbol h hle
  have hn := hok.le symbol
  have hv := hok.fits symbol
  have hlow : (ctable symbol).nbBits < 2 ^ (64 - (t + (ctable symbol).nbBits)) :=
    lt_of_le_of_lt hn (lt_of_lt_of_le hroom (Nat.pow_le_pow_right (by norm_num) (by omega)))
  rw [CElt.packed_eq hv (by omega)]
  have h64 := @entry_mod (ctable symbol).val _ (hn.trans hL) 6 (by norm_num) (by omega)
  have h256 := @entry_mod (ctable symbol).val _ (hn.trans hL) 8 (by norm_num) (by omega)
  norm_num at h64 h256
  unfold addFast
  constructor
  · rw [h64]
    exact h.or_shift (by omega) (entry_lt hv (by omega) (le_refl _)) (entry_top (by omega) hlow) _
  · simp only
    rw [Nat.mod_mod_of_dvd _ (by norm_num), Nat.add_mod, h256, ← Nat.add_mod_mod, Nat.mod_add_mod, Nat.add_mod_mod]

theorem adds_slow : Adds ctable 64 addSlow := by
  intro s t p symbol h hle
  have hn := hok.le symbol
  have hv := hok.fits symbol
  rw [CElt.packed_eq hv (by omega)]
  have h256 := @entry_mod (ctable symbol).val _ (hn.trans hL) 8 (by norm_num) (by omega)
  norm_num at h256
  unfold addSlow
  simp only
  rw [h256, Nat.add_sub_cancel, Nat.mod_eq_of_lt (by omega : (ctable symbol).nbBits < 64)]
  constructor
  · exact h.or_shift hle (entry_lt hv (by omega) (Nat.zero_le _)) (entry_top hle (show 0 < _ by positivity)) _
  · exact Nat.mod_mod_of_dvd _ (by norm_num)

theorem adds_last {fast : Bool} (hlimit : limit ≤ 64) (hroom : fast → L < 2 ^ (64 - limit)) :
    Adds ctable limit (addLast fast) := by
  cases fast with
  | true => exact adds_fast hok hL hlimit (hroom rfl)
  | false => exact fun symbol h hle => adds_slow hok hL symbol h (hle.trans hlimit)

end Adds

/-- The symbols below `n`, downward. -/
def below (src : Bytes) : Nat → Nat → List UInt8
  | 0, _ => []
  | count + 1, n => src.getD (n - 1) 0 :: below src count (n - 1)

@[simp] theorem length_below (src : Bytes) : ∀ count n, (below src count n).length = count
  | 0, _ => rfl
  | count + 1, n => by rw [below, List.length_cons, length_below src count]

theorem below_succ (src : Bytes) :
    ∀ count n, below src (count + 1) n = below src count n ++ [src.getD (n - (count + 1)) 0]
  | 0, _ => rfl
  | count + 1, n => by
    rw [below, below_succ src count (n - 1), below, List.cons_append]
    congr 4; omega

/-- What is behind `n`, from the end, and the symbols below it. -/
theorem behind_below (src : Bytes) : ∀ {count n : Nat}, count ≤ n → n ≤ src.length →
    (src.drop n).reverse ++ below src count n = (src.drop (n - count)).reverse
  | 0, _, _, _ => by simp [below]
  | count + 1, n, hle, hn => by
    have hstep : (src.drop (n - 1)).reverse = (src.drop n).reverse ++ [src.getD (n - 1) 0] := by
      rw [List.drop_eq_getElem_cons (by omega : n - 1 < src.length), List.reverse_cons, Nat.sub_add_cancel (by omega),
        List.getD_eq_getElem _ _ (by omega)]
    rw [below, List.append_cons, ← hstep, behind_below src (by omega) (by omega)]
    congr 2; omega

theorem width_codes_le {ctable : CTable} (hok : ctable.Ok L) : ∀ symbols : List UInt8,
    width (codes ctable symbols) ≤ symbols.length * L
  | [] => Nat.zero_le _
  | symbol :: symbols => by
    have := width_codes_le hok symbols
    have := hok.le symbol
    rw [codes, List.map_cons, CElt.field, width_cons, List.length_cons, Nat.succ_mul]
    unfold codes at *
    omega

/-- A run of additions puts the symbols' codes above what is there. -/
theorem addSymbols_top {ctable : CTable} {limit : Nat} (hok : ctable.Ok L)
    {add : PackedContainer → Nat → PackedContainer} (hadd : Adds ctable limit add) (src : Bytes) :
    ∀ (count n : Nat) {s : PackedContainer} {t p : Nat}, s.Top t p → t + count * L ≤ limit →
      (s.addSymbols add (fun symbol => (ctable symbol).packed) src count n).Top
        (t + width (codes ctable (below src count n))) (p + 2 ^ t * pack (codes ctable (below src count n))) ∧
      (s.addSymbols add (fun symbol => (ctable symbol).packed) src count n).bp % 256 =
        (s.bp + width (codes ctable (below src count n))) % 256
  | 0, n, s, t, p, h, _ => by simpa [addSymbols, below, codes] using h
  | count + 1, n, s, t, p, h, hle => by
    have hn := hok.le (src.getD (n - 1) 0)
    rw [Nat.succ_mul] at hle
    obtain ⟨h1, hbp1⟩ := hadd (src.getD (n - 1) 0) h (by omega)
    obtain ⟨h2, hbp2⟩ := addSymbols_top hok hadd src count (n - 1) h1 (by omega)
    have hcodes : codes ctable (below src (count + 1) n) =
        (ctable (src.getD (n - 1) 0)).field :: codes ctable (below src count (n - 1)) := rfl
    rw [hcodes, CElt.field, width_cons, pack, Nat.mod_eq_of_lt (hok.fits _)]
    unfold addSymbols
    constructor
    · convert h2 using 1
      · omega
      · rw [pow_add]; ring
    · rw [hbp2, Nat.add_mod, hbp1, ← Nat.add_mod, Nat.add_assoc]

/-- The unroll and the last addition that a table log allows: seven bits may be pending, a group fits above them,
and the lengths of fast additions stay below. -/
structure Admissible (kUnroll : Nat) (kLastFast : Bool) (tableLog : Nat) : Prop where
  pos : 0 < kUnroll
  fits : 7 + kUnroll * tableLog ≤ 63
  fast : tableLog < 2 ^ (64 - (7 + (kUnroll - 1) * tableLog))
  last : kLastFast → tableLog < 2 ^ (64 - (7 + kUnroll * tableLog))

theorem addGroup_top {ctable : CTable} (hok : ctable.Ok L) (hL : L ≤ 12) {kUnroll : Nat} {kLastFast : Bool}
    (hadm : Admissible kUnroll kLastFast L) (src : Bytes) (n : Nat) (h : s.Top t p) (ht : t ≤ 7) :
    (s.addGroup kUnroll kLastFast (fun symbol => (ctable symbol).packed) src n).Top
      (t + width (codes ctable (below src kUnroll n))) (p + 2 ^ t * pack (codes ctable (below src kUnroll n))) ∧
    (s.addGroup kUnroll kLastFast (fun symbol => (ctable symbol).packed) src n).bp % 256 =
      (s.bp + width (codes ctable (below src kUnroll n))) % 256 := by
  obtain ⟨count, rfl⟩ : ∃ count, kUnroll = count + 1 := ⟨kUnroll - 1, by have := hadm.pos; omega⟩
  have hfits := hadm.fits
  rw [Nat.succ_mul] at hfits
  have hfast := hadm.fast
  rw [Nat.add_sub_cancel] at hfast
  obtain ⟨h1, hbp1⟩ := addSymbols_top hok (adds_fast hok hL (by omega) hfast) src count n h (by omega)
  have hn := hok.le (src.getD (n - (count + 1)) 0)
  have hw := width_codes_le hok (below src count n)
  rw [length_below] at hw
  obtain ⟨h2, hbp2⟩ := adds_last hok hL (by rw [Nat.succ_mul]; omega) hadm.last (src.getD (n - (count + 1)) 0) h1
    (by rw [Nat.succ_mul]; omega)
  have hcodes : codes ctable (below src (count + 1) n) =
      codes ctable (below src count n) ++ [(ctable (src.getD (n - (count + 1)) 0)).field] := by
    rw [below_succ, codes, List.map_append]
    rfl
  rw [hcodes, CElt.field, width_append, width_cons, width_nil, pack_append, pack, pack_nil,
    Nat.mod_eq_of_lt (hok.fits _)]
  unfold addGroup
  rw [Nat.add_sub_cancel]
  constructor
  · convert h2 using 1
    · simp only; omega
    · rw [pow_add]; ring
  · rw [hbp2, Nat.add_mod, hbp1, ← Nat.add_mod]
    congr 1
    simp only; omega

/-- Two containers merged hold the second above the first. -/
theorem mergeIndex1_top {s1 : PackedContainer} {t1 p1 : Nat} (h : s.Top t p) (h1 : s1.Top (t + t1) (2 ^ t * p1))
    (hbp : s1.bp % 256 = t1) (ht1 : t1 < 64) :
    (s.mergeIndex1 s1).Top (t + t1) (p + 2 ^ t * p1) ∧ (s.mergeIndex1 s1).bp % 256 = (s.bp + t1) % 256 := by
  unfold mergeIndex1
  constructor
  · rw [hbp, Nat.mod_eq_of_lt ht1]
    exact h.or_shift h1.le h1.lt (by rw [h1.top, Nat.mul_comm]) _
  · simp only
    rw [Nat.mod_mod_of_dvd _ (by norm_num), Nat.add_mod, hbp, Nat.mod_add_mod]

end PackedContainer

/-! ## The stream -/

namespace PackedCStream

variable {s : PackedCStream} {fs gs : List Field} {k : Nat}

/-- The packed stream as a `BitCStream`: the top bits of its container, as many as it counts. -/
def view (s : PackedCStream) : BitCStream :=
  { bitContainer := s.c / 2 ^ (64 - s.bp % 256), bitPos := s.bp % 256, dst := s.dst, bytePos := s.bytePos,
    endPos := s.endPos }

/-- The stream holds `fs`, with at most `k` bits of it in the container, and stands no further than they reach. -/
structure Encodes (s : PackedCStream) (fs : List Field) (k : Nat) : Prop where
  lt : s.c < 2 ^ 64
  holds : s.view.Holds fs k
  used : s.view.used ≤ width fs

theorem Encodes.top (h : s.Encodes fs k) (hk : k ≤ 64) : s.Top (s.bp % 256) s.view.bitContainer :=
  ⟨h.lt, h.holds.bitPos_le.trans hk, rfl⟩

/-- A container that has grown by the codes of a group. -/
theorem Encodes.grown (h : s.Encodes fs k) {s' : PackedContainer}
    (htop : s'.Top (s.bp % 256 + width gs) (s.view.bitContainer + 2 ^ (s.bp % 256) * pack gs))
    (hbp : s'.bp % 256 = (s.bp + width gs) % 256) (hle : s.bp % 256 + width gs ≤ 63) :
    Encodes { s with toPackedContainer := s' } (fs ++ gs) 63 := by
  have hcount : s'.bp % 256 = s.bp % 256 + width gs := by omega
  have hview : view { s with toPackedContainer := s' } =
      { s.view with bitContainer := s.view.bitContainer + 2 ^ (s.bp % 256) * pack gs
                    bitPos := s.bp % 256 + width gs } := by
    unfold view
    simp only [hcount]
    congr 1
    exact htop.top
  have hused := h.used
  refine ⟨htop.lt, ?_, ?_⟩
  · rw [hview]
    refine ⟨h.holds.room, h.holds.within, htop.p_lt, hle, fun hlt => ?_⟩
    obtain ⟨hw, hb⟩ := h.holds.bits hlt
    refine ⟨?_, ?_⟩
    · rw [width_append, hw]
      simp only [view]; omega
    · rw [pack_append, hw, ← hb, pow_add]
      simp only [view]; ring
  · rw [hview, width_append]
    unfold BitCStream.used at hused ⊢
    simp only [view] at hused ⊢
    omega

/-- A flush leaves less than a byte in the container; the fast one needs room for everything held so far. -/
theorem Encodes.flush (h : s.Encodes fs 63) {fast : Bool} (hfast : fast → width fs / 8 ≤ s.endPos) :
    ∃ s', s.flush fast = .ok s' ∧ s'.Encodes fs 7 ∧ s'.endPos = s.endPos := by
  have hroom := h.holds.room
  have hin := h.holds.within
  have hle : s.bp % 256 ≤ 63 := h.holds.bitPos_le
  have hused := h.used
  unfold BitCStream.used at hused
  simp only [view] at hroom hin hused
  have hshift : wrappingSub32 64 (s.bp % 256) % 64 = (64 - s.bp % 256) % 64 := by
    unfold wrappingSub32; omega
  have h3 : (s.bp % 256) >>> 3 = s.bp % 256 / 8 := Nat.shiftRight_eq_div_pow _ _
  unfold PackedCStream.flush writeU64
  simp only
  rw [if_pos (by omega), ok_bind, hshift, h3]
  -- the word may differ from the container when nothing is in it
  have hword : (s.c >>> ((64 - s.bp % 256) % 64)) % 2 ^ (8 * (s.bp % 256 / 8)) =
      s.view.bitContainer % 2 ^ (8 * (s.bp % 256 / 8)) := by
    rcases Nat.eq_zero_or_pos (s.bp % 256) with h0 | hpos
    · rw [h0]; simp [Nat.mod_one]
    · rw [Nat.mod_eq_of_lt (by omega : 64 - s.bp % 256 < 64), Nat.shiftRight_eq_div_pow]
      rfl
  have hwritten := h.holds.written (by omega) hword
  have hpos : (if fast = true then s.bytePos + s.bp % 256 / 8 else min (s.bytePos + s.bp % 256 / 8) s.endPos) =
      min (s.bytePos + s.bp % 256 / 8) s.endPos := by
    split
    · rename_i hf
      have := hfast hf
      omega
    · rfl
  rw [hpos]
  refine ⟨_, rfl, ⟨h.lt, ?_, ?_⟩, rfl⟩
  · convert hwritten using 1
    unfold view
    simp only
    congr 1
    · rw [Nat.shiftRight_eq_div_pow, Nat.div_div_eq_div_mul, ← pow_add]
      congr 2; omega
    · omega
  · unfold BitCStream.used
    simp only [view]
    omega

/-- Closing adds the mark on top. -/
theorem Encodes.close (h : s.Encodes fs 7) : s.close = s.view.close := by
  have hle : s.bp % 256 ≤ 7 := h.holds.bitPos_le
  have hone : (1 : Nat) <<< 63 / 2 ^ (64 - (s.bp % 256 + 1)) = 1 * 2 ^ (s.bp % 256) := by
    rw [Nat.shiftLeft_eq, Nat.one_mul, Nat.one_mul, Nat.pow_div (by omega) (by norm_num)]
    congr 1; omega
  have hmark := (h.top (by omega)).or_shift (n := 1) (v := 1) (by omega) (by decide) hone ((s.bp + 1) % 2 ^ 64)
  have hor := BitCStream.orBits_eq h.holds.pending (show 1 < 2 ^ 1 by norm_num) (by simp only [view]; omega)
  have hbp : (s.bp + 1) % 2 ^ 64 % 256 = s.bp % 256 + 1 := by omega
  have hshift : wrappingSub32 64 (s.bp % 256 + 1) % 64 = 64 - (s.bp % 256 + 1) := by
    unfold wrappingSub32; omega
  have hword : (s.c >>> 1 ||| 1 <<< 63) >>> (64 - (s.bp % 256 + 1)) = s.view.orBits 1 := by
    rw [hor, Nat.shiftRight_eq_div_pow]
    exact hmark.top
  have h8 : (s.bp + 1) % 2 ^ 64 % 8 = (s.bp % 256 + 1) % 8 := by omega
  unfold PackedCStream.close PackedCStream.flush BitCStream.close BitCStream.flushBits BitCStream.addBitsFast
  simp only [hbp, hshift, hword, h8]
  show _ = (do
    let c ← (do let dst ← writeU64 s.dst s.bytePos (s.view.orBits 1); _)
    _ : Result (Nat × Bytes))
  cases writeU64 s.dst s.bytePos (s.view.orBits 1) with
  | error e => rfl
  | ok dst =>
    simp only [ok_bind, Bool.false_eq_true, if_false, Nat.mod_mod]
    rfl

end PackedCStream

/-! ## The loop -/

open PackedContainer

/-- The codes of what the encoder has gone through, from the end of the source down to `n`. -/
def encoded (ctable : CTable) (src : Bytes) (n : Nat) : List Field := codes ctable (src.drop n).reverse

theorem encoded_below (ctable : CTable) (src : Bytes) {count n : Nat} (hle : count ≤ n) (hn : n ≤ src.length) :
    encoded ctable src n ++ codes ctable (below src count n) = encoded ctable src (n - count) := by
  unfold encoded codes
  rw [← List.map_append, behind_below src hle hn]

section Loop

variable {ctable : CTable} {L kUnroll : Nat} {kLastFast kFastFlush : Bool} {src : Bytes} {s : PackedCStream} {n : Nat}
  (hok : ctable.Ok L) (hL : L ≤ 12) (hadm : Admissible kUnroll kLastFast L)

include hok

theorem width_encoded_le (src : Bytes) (n : Nat) : width (encoded ctable src n) ≤ src.length * L := by
  have := width_codes_le hok (src.drop n).reverse
  rw [List.length_reverse, List.length_drop] at this
  exact this.trans (Nat.mul_le_mul_right L (Nat.sub_le _ _))

include hL hadm

/-- A group below `n`. -/
theorem compressGroup_encodes (h : s.Encodes (encoded ctable src n) 7) (hle : kUnroll ≤ n) (hn : n ≤ src.length)
    (hfast : kFastFlush → src.length * L / 8 ≤ s.endPos) :
    ∃ s', compressGroup kUnroll kLastFast kFastFlush src (fun symbol => (ctable symbol).packed) n s = .ok s' ∧
      s'.Encodes (encoded ctable src (n - kUnroll)) 7 ∧ s'.endPos = s.endPos := by
  have hpending : s.bp % 256 ≤ 7 := h.holds.bitPos_le
  have hw := width_codes_le hok (below src kUnroll n)
  rw [length_below] at hw
  obtain ⟨htop, hbp⟩ := PackedContainer.addGroup_top hok hL hadm src n (h.top (by omega)) hpending
  have hgrown := h.grown htop hbp (by have := hadm.fits; omega)
  rw [encoded_below ctable src hle hn] at hgrown
  have hwidth := width_encoded_le hok src (n - kUnroll)
  exact hgrown.flush fun hf => (Nat.div_le_div_right hwidth).trans (hfast hf)

/-- Two groups below `n`, the second in a container of its own: under it lie as many zeros as the first container
has bits pending. -/
theorem compressTwoGroups_encodes (h : s.Encodes (encoded ctable src n) 7) (hle : 2 * kUnroll ≤ n) (hn : n ≤ src.length)
    (hfast : kFastFlush → src.length * L / 8 ≤ s.endPos) :
    ∃ s', compressTwoGroups kUnroll kLastFast kFastFlush src (fun symbol => (ctable symbol).packed) n s = .ok s' ∧
      s'.Encodes (encoded ctable src (n - 2 * kUnroll)) 7 ∧ s'.endPos = s.endPos := by
  obtain ⟨s0, hs0, h0, hend0⟩ := compressGroup_encodes hok hL hadm h (by omega) hn hfast
  have hpending : s0.bp % 256 ≤ 7 := h0.holds.bitPos_le
  have hw := width_codes_le hok (below src kUnroll (n - kUnroll))
  rw [length_below] at hw
  have hfits := hadm.fits
  have hempty : PackedContainer.empty.Top (s0.bp % 256) 0 := ⟨by decide, by omega, by simp [PackedContainer.empty]⟩
  obtain ⟨htop1, hbp1⟩ := PackedContainer.addGroup_top hok hL hadm src (n - kUnroll) hempty hpending
  rw [Nat.zero_add] at htop1
  have hcount : (PackedContainer.empty.addGroup kUnroll kLastFast (fun symbol => (ctable symbol).packed) src
      (n - kUnroll)).bp % 256 = width (codes ctable (below src kUnroll (n - kUnroll))) :=
    hbp1.trans (by simp only [PackedContainer.empty]; omega)
  obtain ⟨htop, hbp⟩ := PackedContainer.mergeIndex1_top (h0.top (by omega)) htop1 hcount (by omega)
  have hgrown := h0.grown htop hbp (by omega)
  rw [encoded_below ctable src (by omega) (by omega), show n - kUnroll - kUnroll = n - 2 * kUnroll by omega] at hgrown
  have hwidth := width_encoded_le hok src (n - 2 * kUnroll)
  obtain ⟨s', hs', h', hend'⟩ := hgrown.flush fun hf => by
    rw [hend0]
    exact (Nat.div_le_div_right hwidth).trans (hfast hf)
  refine ⟨s', ?_, h', hend'.trans hend0⟩
  unfold compressTwoGroups
  rw [hs0]
  exact hs'

/-- The main loop takes two groups a round, down to the start. -/
theorem compressMainLoop_encodes : ∀ (fuel : Nat) {n : Nat} {s : PackedCStream}, n ≤ fuel →
    s.Encodes (encoded ctable src n) 7 → 2 * kUnroll ∣ n → n ≤ src.length →
    (kFastFlush → src.length * L / 8 ≤ s.endPos) →
    ∃ s', compressMainLoop kUnroll kLastFast kFastFlush src (fun symbol => (ctable symbol).packed) fuel n s = .ok s' ∧
      s'.Encodes (encoded ctable src 0) 7 ∧ s'.endPos = s.endPos
  | 0, n, s, hfuel, h, _, _, _ => by
    obtain rfl : n = 0 := by omega
    exact ⟨s, rfl, h, rfl⟩
  | fuel + 1, n, s, hfuel, h, hdvd, hn, hfast => by
    unfold compressMainLoop
    split
    · rename_i hpos
      have hpos' := hadm.pos
      have hle := Nat.le_of_dvd hpos hdvd
      obtain ⟨s1, hs1, h1, hend1⟩ := compressTwoGroups_encodes hok hL hadm h hle hn hfast
      obtain ⟨s', hs', h', hend'⟩ := compressMainLoop_encodes fuel (by omega) h1
        (Nat.dvd_sub hdvd (dvd_refl _)) (by omega) (by rw [hend1]; exact hfast)
      refine ⟨s', ?_, h', hend'.trans hend1⟩
      rw [hs1]
      exact hs'
    · obtain rfl : n = 0 := by omega
      exact ⟨s, rfl, h, rfl⟩

/-- The symbols that do not make a group. -/
theorem compressRemainder_encodes (h : s.Encodes (encoded ctable src src.length) 7)
    (hfast : kFastFlush → src.length * L / 8 ≤ s.endPos) :
    ∃ s', compressRemainder kUnroll kFastFlush src (fun symbol => (ctable symbol).packed) s = .ok s' ∧
      s'.Encodes (encoded ctable src (src.length - src.length % kUnroll)) 7 ∧ s'.endPos = s.endPos := by
  unfold compressRemainder
  split
  · have hpending : s.bp % 256 ≤ 7 := h.holds.bitPos_le
    have hcount := (Nat.mod_lt src.length hadm.pos).le
    have hle := Nat.mod_le src.length kUnroll
    have hw := width_codes_le hok (below src (src.length % kUnroll) src.length)
    rw [length_below] at hw
    have hfits := hadm.fits
    have hmul := Nat.mul_le_mul_right L hcount
    obtain ⟨htop, hbp⟩ := addSymbols_top hok (adds_slow hok hL) src (src.length % kUnroll) src.length (h.top (by omega))
      (by omega)
    have hgrown := h.grown htop hbp (by omega)
    rw [encoded_below ctable src hle (le_refl _)] at hgrown
    have hwidth := width_encoded_le hok src (src.length - src.length % kUnroll)
    exact hgrown.flush fun hf => (Nat.div_le_div_right hwidth).trans (hfast hf)
  · rename_i hnone
    rw [show src.length - src.length % kUnroll = src.length by omega]
    exact ⟨s, rfl, h, rfl⟩

/-- Behind the odd group there are pairs of groups. -/
theorem compressOddGroup_encodes (h : s.Encodes (encoded ctable src n) 7) (hdvd : kUnroll ∣ n) (hn : n ≤ src.length)
    (hfast : kFastFlush → src.length * L / 8 ≤ s.endPos) :
    ∃ n' s', compressOddGroup kUnroll kLastFast kFastFlush src
      (fun symbol => (ctable symbol).packed) n s = .ok (n', s') ∧
      s'.Encodes (encoded ctable src n') 7 ∧ s'.endPos = s.endPos ∧ 2 * kUnroll ∣ n' ∧ n' ≤ n := by
  have hpos := hadm.pos
  unfold compressOddGroup
  split
  · rename_i hodd
    obtain ⟨m, rfl⟩ := hdvd
    -- an odd number of groups
    have hm : m % 2 = 1 := by
      by_contra heven
      refine hodd ?_
      obtain ⟨j, rfl⟩ : ∃ j, m = 2 * j := ⟨m / 2, by omega⟩
      rw [Nat.mul_left_comm, ← Nat.mul_assoc, Nat.mul_mod_right]
    obtain ⟨j, rfl⟩ : ∃ j, m = 2 * j + 1 := ⟨m / 2, by omega⟩
    have hsub : kUnroll * (2 * j + 1) - kUnroll = 2 * kUnroll * j := by
      rw [Nat.mul_succ, Nat.add_sub_cancel]; ring
    obtain ⟨s', hs', h', hend'⟩ := compressGroup_encodes hok hL hadm h (Nat.le_mul_of_pos_right _ (by omega)) hn hfast
    rw [hs', hsub]
    rw [hsub] at h'
    exact ⟨_, s', rfl, h', hend', Dvd.intro _ rfl, by rw [← hsub]; exact Nat.sub_le _ _⟩
  · rename_i heven
    exact ⟨n, s, rfl, h, rfl, Nat.dvd_of_mod_eq_zero (by omega), le_refl _⟩

omit hok hL hadm in
theorem start_encodes (ctable : CTable) (src : Bytes) {dst : Bytes} (hdst : 8 < dst.length) :
    PackedCStream.Encodes { c := 0, bp := 0, dst, bytePos := 0, endPos := dst.length - 8 }
      (encoded ctable src src.length) 7 := by
  unfold encoded
  rw [List.drop_length]
  refine ⟨by norm_num, ⟨?_, Nat.zero_le _, ?_, Nat.zero_le _, fun _ => ⟨rfl, ?_⟩⟩, le_refl _⟩
  · simp only [PackedCStream.view]; omega
  · simp [PackedCStream.view]
  · simp [PackedCStream.view, codes, readLe]

/-- Every variant the dispatch may choose writes the codes from the last symbol to the first and the mark, or says
that they do not fit. -/
theorem compress1xLoop_exact {dst : Bytes} (hdst : 8 < dst.length)
    (hfast : kFastFlush → src.length * L / 8 ≤ dst.length - 8) :
    ∃ out, compress1xLoop kUnroll kLastFast kFastFlush src (fun symbol => (ctable symbol).packed) dst =
        .ok (BitCStream.streamSize (width (encoded ctable src 0)) (dst.length - 8), out) ∧ out.length = dst.length ∧
      (BitCStream.streamSize (width (encoded ctable src 0)) (dst.length - 8) ≠ 0 →
        readLe (out.take (BitCStream.streamSize (width (encoded ctable src 0)) (dst.length - 8))) =
          pack (encoded ctable src 0) + 2 ^ width (encoded ctable src 0)) := by
  obtain ⟨s1, hs1, h1, hend1⟩ := compressRemainder_encodes hok hL hadm (start_encodes ctable src hdst) hfast
  obtain ⟨n, s2, hs2, h2, hend2, hdvd, hle⟩ := compressOddGroup_encodes hok hL hadm h1 (Nat.dvd_sub_mod _)
    (Nat.sub_le _ _) (by rw [hend1]; exact hfast)
  have hend : s2.endPos = dst.length - 8 := hend2.trans hend1
  obtain ⟨s3, hs3, h3, hend3⟩ := compressMainLoop_encodes hok hL hadm n (le_refl _) h2 hdvd (by omega)
    (by rw [hend]; exact hfast)
  rw [hend] at hend3
  obtain ⟨out, hclose, hlen, hread⟩ := h3.holds.close_exact (by norm_num) h3.used
  have hroom := h3.holds.room
  simp only [PackedCStream.view, hend3] at hclose hlen hread hroom
  refine ⟨out, ?_, by omega, hread⟩
  unfold compress1xLoop
  simp only
  rw [hs1, ok_bind, hs2, ok_bind]
  simp only
  rw [hs3, ok_bind, h3.close]
  simp only [PackedCStream.view, hend3]
  exact hclose

end Loop

/-! ## Both encoders -/

/-- One symbol at a time, the stream holds the codes so far. -/
theorem encodeSymbols_holds {ctable : CTable} {L : Nat} (hok : ctable.Ok L) (hL : L ≤ 12) :
    ∀ (src : List UInt8) {c : BitCStream}, c.Holds [] 7 → c.used ≤ 0 →
      ∃ c', encodeSymbols ctable src c = .ok c' ∧ c'.Holds (codes ctable src.reverse) 7 ∧
        c'.used ≤ width (codes ctable src.reverse) ∧ c'.endPos = c.endPos
  | [], c, h, hused => ⟨c, rfl, h, hused, rfl⟩
  | symbol :: src, c, h, hused => by
    obtain ⟨c1, hc1, h1, hused1, hend1⟩ := encodeSymbols_holds hok hL src h hused
    have hn := hok.le symbol
    have hadd := h1.addBitsFast (hok.fits symbol) (by omega)
    obtain ⟨c', hc', h'⟩ := hadd.flushBits (by omega)
    obtain ⟨hused', hend'⟩ := BitCStream.flushBits_used hc'
    have hcodes : codes ctable (symbol :: src).reverse = codes ctable src.reverse ++ [(ctable symbol).field] := by
      rw [List.reverse_cons, codes, List.map_append]
      rfl
    have hadded : (c1.addBitsFast (ctable symbol).val (ctable symbol).nbBits).used = c1.used + (ctable symbol).nbBits :=
      (Nat.add_assoc _ _ _).symm
    refine ⟨c', ?_, ?_, ?_, hend'.trans hend1⟩
    · unfold encodeSymbols
      rw [hc1]
      exact hc'
    · rw [hcodes]; exact h'
    · rw [hcodes, CElt.field, width_append, width_cons, width_nil]
      simp only
      omega

/-- What encoding one symbol at a time writes. -/
theorem compress1xPlain_exact {ctable : CTable} {L : Nat} (hok : ctable.Ok L) (hL : L ≤ 12) {dst : Bytes}
    (hdst : 8 < dst.length) (src : Bytes) :
    ∃ out, compress1xPlain dst src ctable =
        .ok (BitCStream.streamSize (width (encoded ctable src 0)) (dst.length - 8), out) ∧ out.length = dst.length ∧
      (BitCStream.streamSize (width (encoded ctable src 0)) (dst.length - 8) ≠ 0 →
        readLe (out.take (BitCStream.streamSize (width (encoded ctable src 0)) (dst.length - 8))) =
          pack (encoded ctable src 0) + 2 ^ width (encoded ctable src 0)) := by
  have hnew : BitCStream.new dst =
      .ok { bitContainer := 0, bitPos := 0, dst, bytePos := 0, endPos := dst.length - 8 } := by
    unfold BitCStream.new containerBytes
    rw [if_neg (by omega)]
  have h0 := (BitCStream.new_holds hnew).mono (show 0 ≤ 7 by norm_num)
  obtain ⟨c, hc, h, hused, hend⟩ := encodeSymbols_holds hok hL src h0 (le_refl _)
  obtain ⟨out, hclose, hlen, hread⟩ := h.close_exact (by norm_num) hused
  have hroom := h.room
  simp only at hend
  rw [hend] at hclose hread hroom
  refine ⟨out, ?_, by omega, hread⟩
  unfold compress1xPlain
  rw [hnew]
  simp only
  rw [hc]
  exact hclose

/-- The unrolls the dispatch chooses from a table log. -/
theorem admissible_dispatch {tableLog : Nat} (hL : tableLog ≤ 12) : Admissible 4 false tableLog ∧
    (tableLog = 11 → Admissible 5 false tableLog) ∧ (tableLog = 10 → Admissible 5 true tableLog) ∧
    (tableLog = 9 → Admissible 6 false tableLog) ∧ (tableLog = 8 → Admissible 7 false tableLog) ∧
    (tableLog = 7 → Admissible 8 false tableLog) ∧ (tableLog ≤ 6 → Admissible 9 true tableLog) := by
  interval_cases tableLog <;>
    refine ⟨⟨by decide, by decide, by decide, by decide⟩, ?_, ?_, ?_, ?_, ?_, ?_⟩ <;> intro h <;>
    first | exact absurd h (by decide) | exact ⟨by decide, by decide, by decide, by decide⟩

/-- Two encoders that report the same size and leave the same bytes of it; the size is zero exactly when the bits and
the mark do not fit. -/
def Alike (bits dstLen : Nat) (a b : Result (Nat × Bytes)) : Prop :=
  ∃ size out out', a = .ok (size, out) ∧ b = .ok (size, out') ∧ out.length = dstLen ∧ out.take size = out'.take size ∧
    (size = 0 ↔ dstLen ≤ (bits + 1) / 8 + 8)

theorem streamSize_eq_zero_iff {w dstLen : Nat} :
    BitCStream.streamSize w (dstLen - 8) = 0 ↔ dstLen ≤ (w + 1) / 8 + 8 := by
  unfold BitCStream.streamSize
  split <;> omega

theorem streamSize_le {w dstLen : Nat} : BitCStream.streamSize w (dstLen - 8) ≤ dstLen := by
  unfold BitCStream.streamSize
  split <;> omega

section Both

variable {ctable : CTable} {tableLog : Nat} (hok : ctable.Ok tableLog) (hlog : tableLog ≤ 12) (src dst : Bytes)

include hok hlog

/-- Every variant is alike to the plain encoder. -/
theorem compress1xLoop_alike (hdst : 8 < dst.length) {kUnroll : Nat} {kLastFast kFastFlush : Bool}
    (hadm : Admissible kUnroll kLastFast tableLog) (hfast : kFastFlush → src.length * tableLog / 8 ≤ dst.length - 8) :
    Alike (width (encoded ctable src 0)) dst.length
      (compress1xLoop kUnroll kLastFast kFastFlush src (fun symbol => (ctable symbol).packed) dst)
      (compress1xPlain dst src ctable) := by
  obtain ⟨out, hout, hlen, hread⟩ := @compress1xLoop_exact _ _ _ _ _ src hok hlog hadm _ hdst hfast
  obtain ⟨out', hout', hlen', hread'⟩ := compress1xPlain_exact hok hlog hdst src
  have hle := @streamSize_le (width (encoded ctable src 0)) dst.length
  have hzero := @streamSize_eq_zero_iff (width (encoded ctable src 0)) dst.length
  generalize BitCStream.streamSize (width (encoded ctable src 0)) (dst.length - 8) = size at *
  refine ⟨size, out, out', hout, hout', hlen, ?_, hzero⟩
  rcases Nat.eq_zero_or_pos size with rfl | hpos
  · rw [List.take_zero, List.take_zero]
  · refine readLe_inj ?_ ((hread (by omega)).trans (hread' (by omega)).symm)
    rw [List.length_take, List.length_take, hlen, hlen']

/-- The packed encoder refuses an empty source. On any other it writes what encoding symbol by symbol writes, or
nothing when that does not fit, and it never writes outside its destination. -/
theorem packed_eq_plain :
    (src = [] → compress1xUsingCtable dst src ctable tableLog = .ok (0, dst)) ∧
    (src ≠ [] → Alike (width (encoded ctable src 0)) dst.length (compress1xUsingCtable dst src ctable tableLog)
      (compress1xPlain dst src ctable)) ∧
    ∀ (kUnroll : Nat) (kLastFast kFastFlush : Bool), 8 < dst.length → Admissible kUnroll kLastFast tableLog →
      (kFastFlush → src.length * tableLog / 8 ≤ dst.length - 8) →
      Alike (width (encoded ctable src 0)) dst.length
        (compress1xLoop kUnroll kLastFast kFastFlush src (fun symbol => (ctable symbol).packed) dst)
        (compress1xPlain dst src ctable) := by
  refine ⟨?_, fun hsrc => ?_, fun kUnroll kLastFast kFastFlush hdst hadm hfast => ?_⟩
  · rintro rfl
    unfold compress1xUsingCtable compress1xPacked
    rw [if_pos (.inr rfl)]
  · unfold compress1xUsingCtable compress1xPacked
    by_cases hdst : dst.length ≤ 8
    · rw [if_pos (.inl hdst)]
      have hnew : BitCStream.new dst = .error .dstSizeTooSmall := if_pos hdst
      refine ⟨0, dst, dst, rfl, ?_, rfl, rfl, iff_of_true rfl (by omega)⟩
      unfold compress1xPlain
      rw [hnew]
    · have hdst' : 8 < dst.length := by omega
      rw [if_neg (by simp [hdst, hsrc])]
      obtain ⟨h4, h11, h10, h9, h8, h7, h6⟩ := admissible_dispatch hlog
      have h3 : (src.length * tableLog) >>> 3 = src.length * tableLog / 8 := Nat.shiftRight_eq_div_pow _ _
      simp only
      rw [h3]
      split
      · exact compress1xLoop_alike hok hlog src dst hdst' h4 (by simp)
      rename_i htight
      push Not at htight
      have hroom : src.length * tableLog / 8 ≤ dst.length - 8 := by omega
      split
      · exact compress1xLoop_alike hok hlog src dst hdst' (h11 rfl) fun _ => hroom
      · exact compress1xLoop_alike hok hlog src dst hdst' (h10 rfl) fun _ => hroom
      · exact compress1xLoop_alike hok hlog src dst hdst' (h9 rfl) fun _ => hroom
      · exact compress1xLoop_alike hok hlog src dst hdst' (h8 rfl) fun _ => hroom
      · exact compress1xLoop_alike hok hlog src dst hdst' (h7 rfl) fun _ => hroom
      · rename_i n11 n10 n9 n8 n7
        have hsmall : tableLog ≤ 6 := by
          by_contra hbig
          have hle := htight.2
          interval_cases tableLog <;> simp_all
        exact compress1xLoop_alike hok hlog src dst hdst' (h6 hsmall) fun _ => hroom
  · exact compress1xLoop_alike hok hlog src dst hdst hadm hfast

end Both

/-- One bit for the zero byte, two for every other one. -/
def twoLengths : CTable := fun symbol => if symbol = 0 then { val := 0, nbBits := 1 } else { val := 2, nbBits := 2 }

theorem twoLengths_ok : twoLengths.Ok 2 := by
  refine ⟨fun symbol => ?_, fun symbol => ?_⟩ <;> unfold twoLengths <;> split <;> decide

/-- Eleven symbols, one more than a group. -/
theorem packed_eq_plain_small : Alike 14 16
    (compress1xUsingCtable (List.replicate 16 0) [0, 1, 0, 0, 1, 0, 0, 0, 1, 0, 0] twoLengths 2)
    (compress1xPlain (List.replicate 16 0) [0, 1, 0, 0, 1, 0, 0, 0, 1, 0, 0] twoLengths) :=
  (packed_eq_plain twoLengths_ok (by norm_num) [0, 1, 0, 0, 1, 0, 0, 0, 1, 0, 0] (List.replicate 16 0)).2.1 (by decide)

/-- The end mark alone would fit, but an empty source is refused. -/
theorem packed_empty : compress1xUsingCtable (List.replicate 16 0) [] twoLengths 2 = .ok (0, List.replicate 16 0) ∧
    compress1xPlain (List.replicate 16 0) [] twoLengths = .ok (1, [1] ++ List.replicate 15 0) := by
  decide

end Huff0

end Zstandard
