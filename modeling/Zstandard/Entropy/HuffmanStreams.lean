/-
The streams of a Huffman section: one of them, or four behind a jump table.

The packed encoder has a size for every source, from the lengths of its codes alone, and the payload spells the source;
of four streams each spells its segment.
-/
import Zstandard.Entropy.HuffmanCodes
import Zstandard.Entropy.Agreement

namespace Zstandard

open BitStack

namespace Huff0

def blockboundMin : Nat := 6 + 1 + 1 + 1 + 8

inductive StreamMode where
  | single | four
deriving DecidableEq, Repr

/-! ## Writing -/

/-- `write_segment_length`. -/
def writeSegmentLength (dst : Bytes) (offset value : Nat) : Result Bytes :=
  if value > 0xFFFF ∨ offset + 2 > dst.length then .error .generic
  else .ok (dst.take offset ++ writeLe value 2 ++ dst.drop (offset + 2))

/-- `compress_1x_packed` into `&mut dst[op..]`. -/
def compressSegment (dst : Bytes) (op : Nat) (src : Bytes) (packed : UInt8 → Nat) (tableLog : Nat) :
    Result (Nat × Bytes) :=
  if op > dst.length then .error .generic else do
    let (size, rest) ← compress1xPacked (dst.drop op) src packed tableLog
    .ok (size, dst.take op ++ rest)

/-- `compress_4x_using_ctable`: the size, or zero, with what the destination then holds. -/
def compress4xUsingCtable (dst src : Bytes) (ctable : CTable) (tableLog : Nat) : Result (Nat × Bytes) :=
  if dst.length < blockboundMin ∨ src.length < 12 then .ok (0, dst) else do
  let packed := fun symbol => (ctable symbol).packed
  let segmentSize := (src.length + 3) / 4
  let (cSize1, dst) ← compressSegment dst 6 (src.take segmentSize) packed tableLog
  if cSize1 = 0 ∨ cSize1 > 0xFFFF then .ok (0, dst) else
  let dst ← writeSegmentLength dst 0 cSize1
  let (cSize2, dst) ← compressSegment dst (6 + cSize1) ((src.drop segmentSize).take segmentSize) packed tableLog
  if cSize2 = 0 ∨ cSize2 > 0xFFFF then .ok (0, dst) else
  let dst ← writeSegmentLength dst 2 cSize2
  let (cSize3, dst) ← compressSegment dst (6 + cSize1 + cSize2) ((src.drop (segmentSize * 2)).take segmentSize) packed
    tableLog
  if cSize3 = 0 ∨ cSize3 > 0xFFFF then .ok (0, dst) else
  let dst ← writeSegmentLength dst 4 cSize3
  let op := 6 + cSize1 + cSize2 + cSize3
  let (cSize4, dst) ← compressSegment dst op (src.drop (segmentSize * 3)) packed tableLog
  if cSize4 = 0 then .ok (0, dst) else .ok (op + cSize4, dst)

def compressUsingCtableMode (dst src : Bytes) (ctable : CTable) (tableLog : Nat) : StreamMode → Result (Nat × Bytes)
  | .single => compress1xUsingCtable dst src ctable tableLog
  | .four => compress4xUsingCtable dst src ctable tableLog

/-! ## One stream -/

/-- The bits of a source in a code. -/
def bitsOfSource (ctable : CTable) (src : Bytes) : Nat := (src.map fun symbol => (ctable symbol).nbBits).sum

theorem width_encoded (ctable : CTable) (src : Bytes) : width (encoded ctable src 0) = bitsOfSource ctable src := by
  unfold encoded codes bitsOfSource
  rw [List.drop_zero]
  induction src with
  | nil => rfl
  | cons symbol src ih =>
    rw [List.reverse_cons, List.map_append, width_append, ih]
    simp only [List.map_cons, List.sum_cons, List.map_nil, width_cons, width_nil, CElt.field]
    omega

section
variable {ctable : CTable} {tableLog : Nat} {src dst : Bytes}

/-- The packed encoder on a source that is not empty. -/
theorem compress1xPacked_exact (hok : ctable.Ok tableLog) (hlog : tableLog ≤ 12) (hsrc : src ≠ [])
    (hdst : 8 < dst.length) :
    ∃ out, compress1xPacked dst src (fun symbol => (ctable symbol).packed) tableLog =
        .ok (BitCStream.streamSize (bitsOfSource ctable src) (dst.length - 8), out) ∧ out.length = dst.length ∧
      (BitCStream.streamSize (bitsOfSource ctable src) (dst.length - 8) ≠ 0 →
        readLe (out.take (BitCStream.streamSize (bitsOfSource ctable src) (dst.length - 8))) =
          pack (codes ctable src.reverse) + 2 ^ width (codes ctable src.reverse)) := by
  obtain ⟨h4, h11, h10, h9, h8, h7, h6⟩ := admissible_dispatch hlog
  have hcodes : codes ctable src.reverse = encoded ctable src 0 := by rw [encoded, List.drop_zero]
  rw [← width_encoded, hcodes]
  have hexact := fun {kUnroll kLastFast kFastFlush} (hadm : PackedContainer.Admissible kUnroll kLastFast
    tableLog) hfast =>
    @compress1xLoop_exact ctable tableLog kUnroll kLastFast kFastFlush src hok hlog hadm dst hdst hfast
  have h3 : (src.length * tableLog) >>> 3 = src.length * tableLog / 8 := Nat.shiftRight_eq_div_pow _ _
  unfold compress1xPacked
  rw [if_neg (by simp [hsrc]; omega)]
  dsimp only
  rw [h3]
  split
  · exact hexact h4 (by simp)
  rename_i htight
  rw [not_or, not_lt, not_lt] at htight
  have hroom : src.length * tableLog / 8 ≤ dst.length - 8 := by omega
  split
  · exact hexact (h11 rfl) fun _ => hroom
  · exact hexact (h10 rfl) fun _ => hroom
  · exact hexact (h9 rfl) fun _ => hroom
  · exact hexact (h8 rfl) fun _ => hroom
  · exact hexact (h7 rfl) fun _ => hroom
  · rename_i n11 n10 n9 n8 n7
    refine hexact (h6 ?_) fun _ => hroom
    have h11 : tableLog ≠ 11 := n11
    have h10 : tableLog ≠ 10 := n10
    have h9 : tableLog ≠ 9 := n9
    have h8 : tableLog ≠ 8 := n8
    have h7 : tableLog ≠ 7 := n7
    omega

/-- The bytes that so many bits and their mark take, or zero where they do not fit. -/
def streamBytes (bits room : Nat) : Nat := if (bits + 1) / 8 + 8 < room then bits / 8 + 1 else 0

theorem streamSize_eq (bits room : Nat) : BitCStream.streamSize bits (room - 8) = streamBytes bits room := by
  unfold BitCStream.streamSize streamBytes
  split
  · rw [if_pos (by omega)]
    omega
  · rw [if_neg (by omega)]

/-- A payload of just so many bytes that its top bit is in the last one. -/
theorem marked_of_readLe {payload : Bytes} {low w : Nat} (hread : readLe payload = low + 2 ^ w)
    (hlen : payload.length = w / 8 + 1) : ∃ last, payload.getLast? = some last ∧ last ≠ 0 := by
  have hne : payload ≠ [] := by
    rintro rfl
    exact absurd hlen (by simp)
  refine ⟨payload.getLast hne, List.getLast?_eq_some_getLast hne, fun hzero => ?_⟩
  have hsplit := List.dropLast_concat_getLast hne
  rw [hzero] at hsplit
  have hshort : payload.dropLast.length = w / 8 := by
    rw [List.length_dropLast, hlen]
    rfl
  have hlow := readLe_lt payload.dropLast
  rw [← hsplit, readLe_append, hshort] at hread
  have hpow : 256 ^ (w / 8) ≤ 2 ^ w := by
    rw [show (256 : Nat) = 2 ^ 8 by norm_num, ← pow_mul]
    exact Nat.pow_le_pow_right (by norm_num) (by omega)
  rw [hshort] at hlow
  have hlast : readLe [(0 : UInt8)] = 0 := rfl
  rw [hlast, Nat.mul_zero] at hread
  omega

/-- One stream: its size from the lengths of the codes, and a payload that spells the source. -/
theorem compress1xPacked_spelled (dst : Bytes) (hok : ctable.Ok tableLog) (hlog : tableLog ≤ 12) (hsrc : src ≠ []) :
    ∃ out, compress1xPacked dst src (fun symbol => (ctable symbol).packed) tableLog =
        .ok (streamBytes (bitsOfSource ctable src) dst.length, out) ∧ out.length = dst.length ∧
      (streamBytes (bitsOfSource ctable src) dst.length ≠ 0 → (∀ symbol ∈ src, 0 < (ctable symbol).nbBits) →
        SpelledBy ctable (out.take (streamBytes (bitsOfSource ctable src) dst.length)) src) := by
  by_cases hdst : dst.length ≤ 8
  · have hzero : streamBytes (bitsOfSource ctable src) dst.length = 0 := if_neg (by omega)
    rw [hzero]
    unfold compress1xPacked
    rw [if_pos (.inl hdst)]
    exact ⟨dst, rfl, rfl, fun h => absurd rfl h⟩
  · obtain ⟨out, hout, hlen, hread⟩ := compress1xPacked_exact hok hlog hsrc (not_le.1 hdst)
    rw [streamSize_eq] at hout hread
    refine ⟨out, hout, hlen, fun hne hcoded => ?_⟩
    have hread := hread hne
    refine ⟨hcoded, marked_of_readLe hread ?_, hread⟩
    have hcodes : codes ctable src.reverse = encoded ctable src 0 := by rw [encoded, List.drop_zero]
    rw [List.length_take, hlen, hcodes, width_encoded]
    unfold streamBytes at hne ⊢
    split at hne
    · rw [if_pos (by assumption)]
      omega
    · exact absurd rfl hne

end

/-! ## Four streams -/

/-- `b` bytes from `a` on. -/
def slice (bytes : Bytes) (a b : Nat) : Bytes := (bytes.drop a).take b

theorem slice_take {bytes : Bytes} {a b n : Nat} (h : a + b ≤ n) : slice (bytes.take n) a b = slice bytes a b := by
  unfold slice
  rw [List.drop_take, List.take_take, Nat.min_eq_left (by omega)]

theorem slice_congr {bytes bytes' : Bytes} {a b n : Nat} (h : bytes'.take n = bytes.take n) (hab : a + b ≤ n) :
    slice bytes' a b = slice bytes a b := by
  rw [← slice_take hab, h, slice_take hab]

/-- Two bytes written over. -/
theorem slice_written (bytes : Bytes) {word : Bytes} {offset : Nat} (hword : word.length = 2)
    (hlen : offset + 2 ≤ bytes.length) :
    slice (bytes.take offset ++ word ++ bytes.drop (offset + 2)) offset 2 = word ∧
      ∀ a b, a + b ≤ offset ∨ offset + 2 ≤ a →
        slice (bytes.take offset ++ word ++ bytes.drop (offset + 2)) a b = slice bytes a b := by
  have hfront : (bytes.take offset).length = offset := by
    rw [List.length_take]
    omega
  constructor
  · unfold slice
    rw [List.append_assoc, List.drop_append_of_le_length hfront.ge, List.drop_of_length_le hfront.le, List.nil_append,
      List.take_append_of_le_length hword.ge, List.take_of_length_le hword.le]
  · rintro a b (hab | ha)
    · refine slice_congr (n := offset) ?_ hab
      rw [List.append_assoc, List.take_append_of_le_length hfront.ge, List.take_take, Nat.min_self]
    · unfold slice
      have hboth : (bytes.take offset ++ word).length = offset + 2 := by rw [List.length_append, hfront, hword]
      rw [List.drop_append, List.drop_of_length_le (by omega), List.nil_append, hboth, List.drop_drop,
        show offset + 2 + (a - (offset + 2)) = a by omega]

section
variable {ctable : CTable} {tableLog : Nat} {src dst : Bytes}

/-- One of the streams: what lies before it stays. -/
theorem compressSegment_ok {op size : Nat} {out : Bytes} (hok : ctable.Ok tableLog) (hlog : tableLog ≤ 12)
    (hsrc : src ≠ []) (hcoded : ∀ symbol ∈ src, 0 < (ctable symbol).nbBits)
    (h : compressSegment dst op src (fun symbol => (ctable symbol).packed) tableLog = .ok (size, out)) :
    out.length = dst.length ∧ size = streamBytes (bitsOfSource ctable src) (dst.length - op) ∧
      out.take op = dst.take op ∧ (size ≠ 0 → SpelledBy ctable (slice out op size) src) := by
  unfold compressSegment at h
  split at h
  · cases h
  rename_i hop
  obtain ⟨⟨size', rest⟩, hrest, h⟩ := bind_ok h
  cases h
  obtain ⟨rest', heq, hlen, hspelled⟩ := compress1xPacked_spelled (dst.drop op) hok hlog hsrc
  rw [heq] at hrest
  cases hrest
  rw [List.length_drop] at hlen hspelled
  have hfront : (dst.take op).length = op := by
    rw [List.length_take]
    omega
  refine ⟨?_, by rw [List.length_drop], ?_, fun hne => ?_⟩
  · rw [List.length_append, hfront, hlen]
    omega
  · rw [List.take_append_of_le_length hfront.ge, List.take_take, Nat.min_self]
  · unfold slice
    rw [List.drop_append_of_le_length hfront.ge, List.drop_of_length_le hfront.le, List.nil_append, List.length_drop]
    rw [List.length_drop] at hne
    exact hspelled hne hcoded

/-- One of the streams with an entry in the jump table. -/
theorem compressSegment_counted {op offset size : Nat} {out out' : Bytes} (hok : ctable.Ok tableLog)
    (hlog : tableLog ≤ 12) (hsrc : src ≠ []) (hcoded : ∀ symbol ∈ src, 0 < (ctable symbol).nbBits)
    (h : compressSegment dst op src (fun symbol => (ctable symbol).packed) tableLog = .ok (size, out)) (hne : size ≠ 0)
    (h' : writeSegmentLength out offset size = .ok out') (hoffset : offset + 2 ≤ op) :
    out'.length = dst.length ∧ op + size ≤ dst.length ∧ size = bitsOfSource ctable src / 8 + 1 ∧
      readLe (slice out' offset 2) = size ∧ SpelledBy ctable (slice out' op size) src ∧
      ∀ a b, a + b ≤ op → (a + b ≤ offset ∨ offset + 2 ≤ a) → slice out' a b = slice dst a b := by
  obtain ⟨hlen, hsize, htake, hspelled⟩ := compressSegment_ok hok hlog hsrc hcoded h
  unfold writeSegmentLength at h'
  split at h'
  · cases h'
  rename_i hroom
  rw [not_or, not_lt, not_lt] at hroom
  cases h'
  have hword : (writeLe size 2).length = 2 := writeLe_length _ _
  obtain ⟨hat, hother⟩ := slice_written out hword hroom.2
  have hbytes : size = bitsOfSource ctable src / 8 + 1 ∧ op + size ≤ dst.length := by
    unfold streamBytes at hsize
    split at hsize
    · omega
    · exact absurd hsize hne
  refine ⟨?_, hbytes.2, hbytes.1, ?_, ?_, ?_⟩
  · rw [List.length_append, List.length_append, List.length_take, List.length_drop, hword, ← hlen]
    omega
  · rw [hat]
    exact readLe_writeLe 2 size (by omega)
  · rw [hother _ _ (.inr hoffset)]
    exact hspelled hne
  · intro a b hab hapart
    rw [hother a b hapart, slice_congr htake hab]

/-- The segments of a source. -/
def segmentOf (src : Bytes) (j : Nat) : Bytes := (src.drop ((src.length + 3) / 4 * j)).take ((src.length + 3) / 4)

theorem segmentOf_append (src : Bytes) :
    src = segmentOf src 0 ++ segmentOf src 1 ++ segmentOf src 2 ++ src.drop ((src.length + 3) / 4 * 3) := by
  unfold segmentOf
  rw [Nat.mul_zero, List.drop_zero, Nat.mul_one]
  generalize (src.length + 3) / 4 = n
  have h2 : src.drop (n * 2) = (src.drop n).drop n := by rw [List.drop_drop, Nat.mul_two]
  have h3 : src.drop (n * 3) = ((src.drop n).drop n).drop n := by
    rw [List.drop_drop, List.drop_drop]
    congr 1
    omega
  rw [h2, h3, List.append_assoc, List.append_assoc, List.take_append_drop, List.take_append_drop, List.take_append_drop]

theorem segmentOf_zero (src : Bytes) : segmentOf src 0 = src.take ((src.length + 3) / 4) := rfl

theorem segmentOf_one (src : Bytes) :
    segmentOf src 1 = (src.drop ((src.length + 3) / 4)).take ((src.length + 3) / 4) := by
  unfold segmentOf
  rw [Nat.mul_one]

/-- The size of a section of four streams. -/
def fourBytes (ctable : CTable) (src : Bytes) : Nat :=
  6 + (bitsOfSource ctable (segmentOf src 0) / 8 + 1) + (bitsOfSource ctable (segmentOf src 1) / 8 + 1) +
    (bitsOfSource ctable (segmentOf src 2) / 8 + 1) + (bitsOfSource ctable
    (src.drop ((src.length + 3) / 4 * 3)) / 8 + 1)

/-- Four streams, each of which spells its segment. -/
theorem compress4xUsingCtable_spelled {size : Nat} {out : Bytes} (hok : ctable.Ok tableLog) (hlog : tableLog ≤ 12)
    (hcoded : ∀ symbol ∈ src, 0 < (ctable symbol).nbBits)
    (h : compress4xUsingCtable dst src ctable tableLog = .ok (size, out)) (hne : size ≠ 0) :
    out.length = dst.length ∧ size ≤ dst.length ∧ size = fourBytes ctable src ∧
      SpelledBy4 ctable src.length (out.take size) src := by
  unfold compress4xUsingCtable at h
  split at h
  · cases h
    exact absurd rfl hne
  rename_i hroom
  rw [not_or, not_lt, not_lt] at hroom
  dsimp only at h
  obtain ⟨⟨c1, d1⟩, h1, h⟩ := bind_ok h
  dsimp only at h
  split at h
  · cases h
    exact absurd rfl hne
  rename_i hc1
  obtain ⟨e1, w1, h⟩ := bind_ok h
  obtain ⟨⟨c2, d2⟩, h2, h⟩ := bind_ok h
  dsimp only at h
  split at h
  · cases h
    exact absurd rfl hne
  rename_i hc2
  obtain ⟨e2, w2, h⟩ := bind_ok h
  obtain ⟨⟨c3, d3⟩, h3, h⟩ := bind_ok h
  dsimp only at h
  split at h
  · cases h
    exact absurd rfl hne
  rename_i hc3
  obtain ⟨e3, w3, h⟩ := bind_ok h
  obtain ⟨⟨c4, d4⟩, h4, h⟩ := bind_ok h
  dsimp only at h
  split at h
  · cases h
    exact absurd rfl hne
  rename_i hc4
  cases h
  rw [not_or] at hc1 hc2 hc3
  rw [← segmentOf_zero] at h1
  rw [← segmentOf_one] at h2
  change compressSegment _ _ (segmentOf src 2) _ _ = _ at h3
  -- none of the segments is empty
  have hlen0 : (segmentOf src 0).length = (src.length + 3) / 4 := by
    rw [segmentOf_zero, List.length_take]
    omega
  have hlen1 : (segmentOf src 1).length = (src.length + 3) / 4 := by
    rw [segmentOf_one, List.length_take, List.length_drop]
    omega
  have hlen2 : (segmentOf src 2).length = (src.length + 3) / 4 := by
    unfold segmentOf
    rw [List.length_take, List.length_drop]
    omega
  have hlen3 : (src.drop ((src.length + 3) / 4 * 3)).length = src.length - 3 * ((src.length + 3) / 4) := by
    rw [List.length_drop]
    omega
  have hne0 := List.ne_nil_of_length_pos (show 0 < (segmentOf src 0).length by omega)
  have hne1 := List.ne_nil_of_length_pos (show 0 < (segmentOf src 1).length by omega)
  have hne2 := List.ne_nil_of_length_pos (show 0 < (segmentOf src 2).length by omega)
  have hne3 := List.ne_nil_of_length_pos (show 0 < (src.drop ((src.length + 3) / 4 * 3)).length by omega)
  have hin : ∀ j, ∀ symbol ∈ segmentOf src j, 0 < (ctable symbol).nbBits := fun j symbol hs =>
    hcoded symbol (List.mem_of_mem_drop (List.mem_of_mem_take hs))
  obtain ⟨l1, r1, z1, j1, s1, k1⟩ := compressSegment_counted hok hlog hne0 (hin 0) h1 hc1.1 w1 (by omega)
  obtain ⟨l2, r2, z2, j2, s2, k2⟩ := compressSegment_counted hok hlog hne1 (hin 1) h2 hc2.1 w2 (by omega)
  obtain ⟨l3, r3, z3, j3, s3, k3⟩ := compressSegment_counted hok hlog hne2 (hin 2) h3 hc3.1 w3 (by omega)
  obtain ⟨l4, z4, t4, s4⟩ := compressSegment_ok hok hlog hne3
    (fun symbol hs => hcoded symbol (List.mem_of_mem_drop hs)) h4
  have s4 := s4 hc4
  have r4 : c4 = bitsOfSource ctable (src.drop ((src.length + 3) / 4 * 3)) / 8 + 1 ∧
    6 + c1 + c2 + c3 + c4 ≤ dst.length := by
    unfold streamBytes at z4
    split at z4
    · omega
    · exact absurd z4 hc4
  refine ⟨by omega, r4.2, ?_, ?_⟩
  · unfold fourBytes
    omega
  -- what the jump table and the first three streams are is not written over
  have q1 : slice out 0 2 = slice e1 0 2 := by
    rw [slice_congr t4 (by omega), k3 0 2 (by omega) (by omega), k2 0 2 (by omega) (by omega)]
  have q2 : slice out 2 2 = slice e2 2 2 := by rw [slice_congr t4 (by omega), k3 2 2 (by omega) (by omega)]
  have q3 : slice out 4 2 = slice e3 4 2 := slice_congr t4 (by omega)
  have p1 : slice out 6 c1 = slice e1 6 c1 := by
    rw [slice_congr t4 (by omega), k3 6 c1 (by omega) (by omega), k2 6 c1 (by omega) (by omega)]
  have p2 : slice out (6 + c1) c2 = slice e2 (6 + c1) c2 := by
    rw [slice_congr t4 (by omega), k3 (6 + c1) c2 (by omega) (by omega)]
  have p3 : slice out (6 + c1 + c2) c3 = slice e3 (6 + c1 + c2) c3 := slice_congr t4 (by omega)
  rw [← q1] at j1
  rw [← q2] at j2
  rw [← q3] at j3
  rw [← p1] at s1
  rw [← p2] at s2
  rw [← p3] at s3
  have htotal : (out.take (6 + c1 + c2 + c3 + c4)).length = 6 + c1 + c2 + c3 + c4 := by
    rw [List.length_take]
    omega
  refine ⟨by omega, by omega, by omega, _, _, _, _, segmentOf src 0, segmentOf src 1, segmentOf src 2, _, ?_,
    segmentOf_append src, ⟨hlen0, hlen1, hlen2, hlen3⟩, s1, s2, s3, s4⟩
  have hslice : ∀ a b, a + b ≤ 6 + c1 + c2 + c3 + c4 →
      ((out.take (6 + c1 + c2 + c3 + c4)).drop a).take b = slice out a b := fun a b hab => slice_take hab
  have hhead : (out.take (6 + c1 + c2 + c3 + c4)).take 2 = slice out 0 2 := hslice 0 2 (by omega)
  have hlast : (out.take (6 + c1 + c2 + c3 + c4)).drop (6 + (c1 + c2 + c3)) = slice out (6 + c1 + c2 + c3) c4 := by
    rw [List.drop_take, show 6 + (c1 + c2 + c3) = 6 + c1 + c2 + c3 by omega, Nat.add_sub_cancel_left]
    rfl
  unfold splitStreams
  dsimp only
  rw [hhead, hslice 2 2 (by omega), hslice 4 2 (by omega), j1, j2, j3, if_neg (by omega), List.drop_drop,
    List.drop_drop, List.drop_drop, ← Nat.add_assoc 6 c1 c2, hslice 6 c1 (by omega), hslice (6 + c1) c2 (by omega),
    hslice (6 + c1 + c2) c3 (by omega), hlast]

/-! ## Room for both -/

theorem bitsOfSource_le (hok : ctable.Ok tableLog) : ∀ src : Bytes, bitsOfSource ctable src ≤ tableLog * src.length
  | [] => Nat.zero_le _
  | symbol :: src => by
    have hle := hok.le symbol
    have ih := bitsOfSource_le hok src
    unfold bitsOfSource at ih ⊢
    rw [List.map_cons, List.sum_cons, List.length_cons, Nat.mul_succ]
    omega

theorem bitsOfSource_append (ctable : CTable) (a b : Bytes) :
    bitsOfSource ctable (a ++ b) = bitsOfSource ctable a + bitsOfSource ctable b := by
  unfold bitsOfSource
  rw [List.map_append, List.sum_append]

theorem compressSegment_fits (dst : Bytes) (op : Nat) (hok : ctable.Ok tableLog) (hlog : tableLog ≤ 12)
    (hsrc : src ≠ []) (hroom : op + (bitsOfSource ctable src / 8 + 1) + 8 < dst.length) :
    ∃ out, compressSegment dst op src (fun symbol => (ctable symbol).packed) tableLog =
      .ok (bitsOfSource ctable src / 8 + 1, out) ∧ out.length = dst.length := by
  obtain ⟨rest, heq, hlen, -⟩ := compress1xPacked_spelled (dst.drop op) hok hlog hsrc
  have hfits : streamBytes (bitsOfSource ctable src) (dst.drop op).length = bitsOfSource ctable src / 8 + 1 := by
    rw [List.length_drop]
    exact if_pos (by omega)
  rw [hfits] at heq
  rw [List.length_drop] at hlen
  unfold compressSegment
  rw [if_neg (by omega), heq]
  refine ⟨dst.take op ++ rest, rfl, ?_⟩
  rw [List.length_append, List.length_take, hlen]
  omega

theorem writeSegmentLength_fits (dst : Bytes) (offset : Nat) {value : Nat} (hvalue : value ≤ 0xFFFF)
    (hroom : offset + 2 ≤ dst.length) :
    ∃ out, writeSegmentLength dst offset value = .ok out ∧ out.length = dst.length := by
  unfold writeSegmentLength
  rw [if_neg (by omega)]
  refine ⟨_, rfl, ?_⟩
  rw [List.length_append, List.length_append, List.length_take, List.length_drop, writeLe_length]
  omega

/-- Where there is room for four streams they are written. -/
theorem compress4xUsingCtable_fits (hok : ctable.Ok tableLog) (hlog : tableLog ≤ 12) (hlow : 12 ≤ src.length)
    (hhigh : src.length ≤ 128 * 1024) (hroom : fourBytes ctable src + 8 < dst.length) :
    ∃ out, compress4xUsingCtable dst src ctable tableLog = .ok (fourBytes ctable src, out) := by
  have hlen3 : (src.drop ((src.length + 3) / 4 * 3)).length = src.length - 3 * ((src.length + 3) / 4) := by
    rw [List.length_drop]
    omega
  have hlen : ∀ j < 3, (segmentOf src j).length = (src.length + 3) / 4 := by
    intro j hj
    unfold segmentOf
    rw [List.length_take, List.length_drop]
    have hmul : (src.length + 3) / 4 * j ≤ (src.length + 3) / 4 * 2 := Nat.mul_le_mul_left _ (by omega)
    omega
  have hsmall : ∀ j < 3, bitsOfSource ctable (segmentOf src j) / 8 + 1 ≤ 0xFFFF ∧ segmentOf src j ≠ [] := by
    intro j hj
    have hle := bitsOfSource_le hok (segmentOf src j)
    have hmul : tableLog * (segmentOf src j).length ≤ 12 * (segmentOf src j).length := Nat.mul_le_mul_right _ hlog
    have hj' := hlen j hj
    exact ⟨by omega, List.ne_nil_of_length_pos (by omega)⟩
  have hne3 := List.ne_nil_of_length_pos (show 0 < (src.drop ((src.length + 3) / 4 * 3)).length by omega)
  obtain ⟨z0, n0⟩ := hsmall 0 (by omega)
  obtain ⟨z1, n1⟩ := hsmall 1 (by omega)
  obtain ⟨z2, n2⟩ := hsmall 2 (by omega)
  unfold fourBytes at hroom ⊢
  obtain ⟨d1, h1, l1⟩ := compressSegment_fits dst 6 hok hlog n0 (by omega)
  obtain ⟨e1, w1, m1⟩ := writeSegmentLength_fits d1 0 z0 (by omega)
  obtain ⟨d2, h2, l2⟩ := compressSegment_fits e1 (6 + (bitsOfSource ctable (segmentOf src 0) / 8 + 1)) hok hlog
    n1 (by omega)
  obtain ⟨e2, w2, m2⟩ := writeSegmentLength_fits d2 2 z1 (by omega)
  obtain ⟨d3, h3, l3⟩ := compressSegment_fits e2 (6 + (bitsOfSource ctable (segmentOf src 0) / 8 + 1) +
    (bitsOfSource ctable (segmentOf src 1) / 8 + 1)) hok hlog n2 (by omega)
  obtain ⟨e3, w3, m3⟩ := writeSegmentLength_fits d3 4 z2 (by omega)
  obtain ⟨d4, h4, -⟩ := compressSegment_fits e3 (6 + (bitsOfSource ctable (segmentOf src 0) / 8 + 1) +
    (bitsOfSource ctable (segmentOf src 1) / 8 + 1) + (bitsOfSource ctable (segmentOf src 2) / 8 + 1)) hok hlog hne3
    (by omega)
  refine ⟨d4, ?_⟩
  unfold compress4xUsingCtable
  rw [if_neg (by unfold blockboundMin; omega)]
  dsimp only
  rw [← segmentOf_zero, ← segmentOf_one]
  rw [h1, ok_bind]
  dsimp only
  rw [if_neg (by omega), w1, ok_bind, h2, ok_bind]
  dsimp only
  rw [if_neg (by omega), w2, ok_bind]
  change (compressSegment e2 _ (segmentOf src 2) _ tableLog >>= _) = _
  rw [h3, ok_bind]
  dsimp only
  rw [if_neg (by omega), w3, ok_bind, h4, ok_bind]
  dsimp only
  rw [if_neg (by omega)]

/-! ## Either mode -/

/-- The size of the streams of a source, one or four. -/
def StreamMode.bytes (ctable : CTable) (src : Bytes) : StreamMode → Nat
  | .single => bitsOfSource ctable src / 8 + 1
  | .four => fourBytes ctable src

/-- A payload of one stream or four that spells some symbols. -/
def StreamMode.Spelled (ctable : CTable) (payload symbols : Bytes) : StreamMode → Prop
  | .single => SpelledBy ctable payload symbols
  | .four => SpelledBy4 ctable symbols.length payload symbols

theorem compressUsingCtableMode_spelled {mode : StreamMode} {size : Nat} {out : Bytes} (hok : ctable.Ok tableLog)
    (hlog : tableLog ≤ 12) (hsrc : src ≠ []) (hcoded : ∀ symbol ∈ src, 0 < (ctable symbol).nbBits)
    (h : compressUsingCtableMode dst src ctable tableLog mode = .ok (size, out)) (hne : size ≠ 0) :
    out.length = dst.length ∧ size ≤ dst.length ∧ size = mode.bytes ctable src ∧
      mode.Spelled ctable (out.take size) src := by
  cases mode with
  | four => exact compress4xUsingCtable_spelled hok hlog hcoded h hne
  | single =>
    obtain ⟨out', heq, hlen, hspelled⟩ := compress1xPacked_spelled dst hok hlog hsrc
    have h : compress1xPacked dst src (fun symbol => (ctable symbol).packed) tableLog = .ok (size, out) := h
    rw [heq] at h
    cases h
    refine ⟨hlen, ?_, ?_, hspelled hne hcoded⟩
    · unfold streamBytes at hne ⊢
      split at hne
      · rw [if_pos (by assumption)]
        omega
      · exact absurd rfl hne
    · unfold streamBytes at hne ⊢
      split at hne
      · rw [if_pos (by assumption)]
        rfl
      · exact absurd rfl hne

/-- Streams have their size, unless there is no room for it. -/
theorem compressUsingCtableMode_size {mode : StreamMode} {size : Nat} {out : Bytes} (hok : ctable.Ok tableLog)
    (hlog : tableLog ≤ 12) (hsrc : src ≠ []) (hlow : mode = .four → 12 ≤ src.length) (hhigh : src.length ≤ 128 * 1024)
    (hcoded : ∀ symbol ∈ src, 0 < (ctable symbol).nbBits)
    (h : compressUsingCtableMode dst src ctable tableLog mode = .ok (size, out)) :
    size = mode.bytes ctable src ∨ size = 0 ∧ dst.length ≤ mode.bytes ctable src + 8 := by
  rcases Nat.eq_zero_or_pos size with rfl | hpos
  · refine .inr ⟨rfl, ?_⟩
    cases mode with
    | single =>
      obtain ⟨out', heq, -, -⟩ := compress1xPacked_spelled dst hok hlog hsrc
      have h : compress1xPacked dst src (fun symbol => (ctable symbol).packed) tableLog = .ok (0, out) := h
      rw [heq] at h
      have hzero := congrArg Prod.fst (Except.ok.inj h)
      unfold streamBytes at hzero
      dsimp only at hzero
      split at hzero
      · omega
      · show _ ≤ bitsOfSource ctable src / 8 + 1 + 8
        omega
    | four =>
      by_contra hroom
      obtain ⟨out', heq⟩ := compress4xUsingCtable_fits hok hlog (hlow rfl) hhigh (not_le.1 hroom)
      have h : compress4xUsingCtable dst src ctable tableLog = .ok (0, out) := h
      rw [heq] at h
      have hzero := congrArg Prod.fst (Except.ok.inj h)
      unfold fourBytes at hzero
      dsimp only at hzero
      omega
  · exact .inl (compressUsingCtableMode_spelled hok hlog hsrc hcoded h hpos.ne').2.2.1

/-- Four streams take a few bytes more than their bits. -/
theorem fourBytes_bounds (ctable : CTable) (src : Bytes) :
    bitsOfSource ctable src / 8 + 7 ≤ fourBytes ctable src ∧ fourBytes ctable src ≤
      bitsOfSource ctable src / 8 + 10 := by
  have hbits := congrArg (bitsOfSource ctable) (segmentOf_append src)
  simp only [bitsOfSource_append] at hbits
  unfold fourBytes
  omega

end

end Huff0

end Zstandard
