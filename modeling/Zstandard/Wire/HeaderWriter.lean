/-
Frame header writers, and that the parser reads back what they write.

A header is a magic number, a descriptor and up to three fields whose widths the descriptor says. The parser takes
the fields apart by the same widths (`parse_fields`), so a round trip is one per field: the content size
(`decode_encodeFrameContentSize`), the dictionary id and the window, which is rounded up to the next one that a
descriptor can say (`encodeWindowDescriptor_spec`).
-/
import Zstandard.Wire.Frame
import Mathlib.Order.Bounds.Basic

namespace Zstandard

open Reader

/-! ## The writers -/

def writeFrameMagic (dst : Bytes) (format : Format) : Bytes :=
  if format.magicSize ≠ 0 then dst ++ writeLe zstdMagicNumber 4 else dst

/-- `encode_frame_content_size`: the flag and the field. -/
def encodeFrameContentSize (contentSize : UInt64) : Nat × Bytes :=
  let contentSize := contentSize.toNat
  if contentSize ≤ 255 then (0, writeLe contentSize 1)
  else if contentSize ≤ 65791 then (1, writeLe (contentSize - 256) 2)
  else if contentSize ≤ 2 ^ 32 - 1 then (2, writeLe contentSize 4)
  else (3, writeLe contentSize 8)

/-- `encode_dictionary_id`: the flag and the field. No id and the id zero are written alike. -/
def encodeDictionaryId (dictionaryId : Option UInt32) : Nat × Bytes :=
  match dictionaryId.filter (· ≠ 0) with
  | none => (0, [])
  | some dictionaryId =>
    let dictionaryId := dictionaryId.toNat
    if dictionaryId ≤ 255 then (1, writeLe dictionaryId 1)
    else if dictionaryId ≤ 65535 then (2, writeLe dictionaryId 2)
    else (3, writeLe dictionaryId 4)

/-- `encode_window_descriptor`: the first descriptor, by exponent and then by mantissa, that is large enough. -/
def encodeWindowDescriptor (windowSize : Nat) : Result Nat :=
  let requested := max windowSize (1 <<< 10)
  let found := (List.range 32).findSome? fun exponent =>
    (List.range 8).findSome? fun mantissa =>
      let windowBase := 1 <<< (10 + exponent)
      let windowStep := windowBase / 8
      let candidate := windowBase + windowStep * mantissa
      if candidate ≥ requested then some (exponent <<< 3 ||| mantissa) else none
  match found with
  | some descriptor => .ok descriptor
  | none => .error (.invalidParameter "window_size is too large")

/-- The frame header descriptor. -/
def frameDescriptor (fcsFlag dictIdFlag : Nat) (singleSegment checksum : Bool) : Nat :=
  fcsFlag <<< 6 ||| (if singleSegment then 1 <<< 5 else 0) ||| (if checksum then 1 <<< 2 else 0) ||| dictIdFlag

def writeSingleSegmentHeaderWithDict (dst : Bytes) (contentSize : UInt64) (checksum : Bool)
    (dictionaryId : Option UInt32) (format : Format) : Bytes :=
  let dst := writeFrameMagic dst format
  let (fcsFlag, encodedFcs) := encodeFrameContentSize contentSize
  let (dictIdFlag, encodedDictId) := encodeDictionaryId dictionaryId
  dst ++ UInt8.ofNat (frameDescriptor fcsFlag dictIdFlag true checksum) :: (encodedDictId ++ encodedFcs)

def writeWindowedHeaderWithDict (dst : Bytes) (windowSize : UInt64) (checksum : Bool) (dictionaryId : Option UInt32)
    (format : Format) : Result Bytes := do
  let dst := writeFrameMagic dst format
  let (dictIdFlag, encodedDictId) := encodeDictionaryId dictionaryId
  let descriptor := UInt8.ofNat (frameDescriptor 0 dictIdFlag false checksum)
  let window ← encodeWindowDescriptor (max windowSize.toNat (1 <<< 10))
  .ok (dst ++ descriptor :: UInt8.ofNat window :: encodedDictId)

def writeWindowedHeaderWithContentSize (dst : Bytes) (windowSize contentSize : UInt64) (checksum : Bool)
    (dictionaryId : Option UInt32) (format : Format) : Result Bytes := do
  let dst := writeFrameMagic dst format
  let (fcsFlag, encodedFcs) := encodeFrameContentSize contentSize
  -- flag 0 says that the field is absent here, so the two-byte form takes its place
  let (fcsFlag, encodedFcs) := if fcsFlag = 0 then (1, writeLe (contentSize.toNat - 256) 2) else (fcsFlag, encodedFcs)
  let (dictIdFlag, encodedDictId) := encodeDictionaryId dictionaryId
  let descriptor := UInt8.ofNat (frameDescriptor fcsFlag dictIdFlag false checksum)
  let window ← encodeWindowDescriptor (max windowSize.toNat (1 <<< 10))
  .ok (dst ++ descriptor :: UInt8.ofNat window :: (encodedDictId ++ encodedFcs))

/-! ## A header goes behind what is there -/

theorem writeFrameMagic_append (dst : Bytes) (format : Format) :
    writeFrameMagic dst format = dst ++ writeFrameMagic [] format := by
  unfold writeFrameMagic
  split
  · rfl
  · rw [List.append_nil]

theorem writeSingleSegmentHeaderWithDict_append (dst : Bytes) (contentSize : UInt64) (checksum : Bool)
    (dictionaryId : Option UInt32) (format : Format) :
    writeSingleSegmentHeaderWithDict dst contentSize checksum dictionaryId format =
      dst ++ writeSingleSegmentHeaderWithDict [] contentSize checksum dictionaryId format := by
  unfold writeSingleSegmentHeaderWithDict
  dsimp only
  rw [writeFrameMagic_append, List.append_assoc]

theorem writeWindowedHeaderWithDict_append (dst : Bytes) (windowSize : UInt64) (checksum : Bool)
    (dictionaryId : Option UInt32) (format : Format) :
    writeWindowedHeaderWithDict dst windowSize checksum dictionaryId format =
      (writeWindowedHeaderWithDict [] windowSize checksum dictionaryId format).map (dst ++ ·) := by
  unfold writeWindowedHeaderWithDict
  dsimp only
  rw [writeFrameMagic_append]
  cases encodeWindowDescriptor (max windowSize.toNat (1 <<< 10)) with
  | error error => rfl
  | ok window => exact congrArg Except.ok (List.append_assoc ..)

theorem writeWindowedHeaderWithContentSize_append (dst : Bytes) (windowSize contentSize : UInt64) (checksum : Bool)
    (dictionaryId : Option UInt32) (format : Format) :
    writeWindowedHeaderWithContentSize dst windowSize contentSize checksum dictionaryId format =
      (writeWindowedHeaderWithContentSize [] windowSize contentSize checksum dictionaryId format).map (dst ++ ·) := by
  unfold writeWindowedHeaderWithContentSize
  dsimp only
  rw [writeFrameMagic_append]
  cases encodeWindowDescriptor (max windowSize.toNat (1 <<< 10)) with
  | error error => rfl
  | ok window => exact congrArg Except.ok (List.append_assoc ..)

/-! ## The window -/

/-- The windows that a descriptor can say. -/
def Representable (window : Nat) : Prop := ∃ descriptor < 256, window = decodeWindowDescriptor descriptor

theorem findSome?_range {α : Type} {f : Nat → Option α} {a : α} : ∀ {n : Nat},
    (List.range n).findSome? f = some a → ∃ i < n, f i = some a ∧ ∀ j < i, f j = none
  | 0, h => by simp at h
  | n + 1, h => by
    rw [List.range_succ, List.findSome?_append, Option.or_eq_some_iff] at h
    rcases h with h | ⟨hnone, h⟩
    · obtain ⟨i, hi, hf, hbefore⟩ := findSome?_range h
      exact ⟨i, by omega, hf, hbefore⟩
    · refine ⟨n, by omega, by simpa using h, fun j hj => ?_⟩
      exact List.findSome?_eq_none_iff.mp hnone j (List.mem_range.mpr hj)

theorem decodeWindowDescriptor_le_succ (d : Nat) : decodeWindowDescriptor d ≤ decodeWindowDescriptor (d + 1) := by
  unfold decodeWindowDescriptor
  simp only
  rcases Nat.lt_or_ge (d % 8) 7 with hlt | hge
  · -- the next mantissa
    rw [show (d + 1) / 8 = d / 8 by omega, show (d + 1) % 8 = d % 8 + 1 by omega]
    exact Nat.add_le_add_left (Nat.mul_le_mul_left _ (Nat.le_succ _)) _
  · -- the next exponent doubles the base
    rw [show (d + 1) / 8 = d / 8 + 1 by omega, show (d + 1) % 8 = 0 by omega, ← Nat.add_assoc, pow_succ, Nat.mul_zero]
    have hle : 2 ^ (10 + d / 8) / 8 * (d % 8) ≤ 2 ^ (10 + d / 8) / 8 * 8 := Nat.mul_le_mul_left _ (by omega)
    have hdiv := Nat.div_mul_le_self (2 ^ (10 + d / 8)) 8
    omega

theorem decodeWindowDescriptor_mono : Monotone decodeWindowDescriptor :=
  monotone_nat_of_le_succ decodeWindowDescriptor_le_succ

theorem descriptor_eq {exponent mantissa : Nat} (hm : mantissa < 8) :
    exponent <<< 3 ||| mantissa = 8 * exponent + mantissa := by
  rw [← Nat.shiftLeft_add_eq_or_of_lt (by simpa using hm), Nat.shiftLeft_eq]
  omega

theorem candidate_eq {exponent mantissa : Nat} (hm : mantissa < 8) :
    1 <<< (10 + exponent) + 1 <<< (10 + exponent) / 8 * mantissa =
      decodeWindowDescriptor (8 * exponent + mantissa) := by
  unfold decodeWindowDescriptor
  rw [show (8 * exponent + mantissa) / 8 = exponent by omega, show (8 * exponent + mantissa) % 8 = mantissa by omega,
    Nat.one_shiftLeft]

/-- The window written is the smallest at least as large that can be; without one, the writer fails. -/
theorem encodeWindowDescriptor_spec (windowSize : Nat) :
    (∃ d < 256, encodeWindowDescriptor windowSize = .ok d ∧
      IsLeast {w | Representable w ∧ max windowSize 1024 ≤ w} (decodeWindowDescriptor d)) ∨
    (encodeWindowDescriptor windowSize = .error (.invalidParameter "window_size is too large") ∧
      ∀ w, Representable w → w < max windowSize 1024) := by
  unfold encodeWindowDescriptor
  simp only
  rw [show 1 <<< 10 = 1024 by rfl]
  generalize max windowSize 1024 = requested
  generalize hfound : (List.range 32).findSome? (fun exponent => (List.range 8).findSome? fun mantissa =>
    if 1 <<< (10 + exponent) + 1 <<< (10 + exponent) / 8 * mantissa ≥ requested then some (exponent <<< 3 ||| mantissa)
    else none) = found
  rcases found with _ | d
  · refine .inr ⟨rfl, ?_⟩
    rintro w ⟨d, hd, rfl⟩
    have hnone := List.findSome?_eq_none_iff.mp
      (List.findSome?_eq_none_iff.mp hfound (d / 8) (List.mem_range.mpr (by omega))) (d % 8)
      (List.mem_range.mpr (by omega))
    rw [candidate_eq (by omega), Nat.div_add_mod] at hnone
    split at hnone
    · cases hnone
    · omega
  · obtain ⟨exponent, he, hinner, hbefore⟩ := findSome?_range hfound
    obtain ⟨mantissa, hm, hhere, hbefore'⟩ := findSome?_range hinner
    rw [candidate_eq hm, descriptor_eq hm] at hhere
    split at hhere
    · rename_i hlarge
      cases hhere
      refine .inl ⟨_, by omega, rfl, ⟨⟨_, by omega, rfl⟩, hlarge⟩, ?_⟩
      rintro w ⟨⟨d', hd', rfl⟩, hw⟩
      apply decodeWindowDescriptor_mono
      by_contra hlt
      -- a descriptor before the one found is too small
      have hsmall : (if decodeWindowDescriptor (8 * (d' / 8) + d' % 8) ≥ requested then
          some ((d' / 8) <<< 3 ||| d' % 8) else none) = none := by
        rw [← candidate_eq (by omega)]
        rcases Nat.lt_or_ge (d' / 8) exponent with hless | hge
        · exact List.findSome?_eq_none_iff.mp (hbefore (d' / 8) hless) (d' % 8) (List.mem_range.mpr (by omega))
        · have hexp : d' / 8 = exponent := by omega
          rw [hexp]
          exact hbefore' (d' % 8) (by omega)
      rw [Nat.div_add_mod] at hsmall
      split at hsmall
      · cases hsmall
      · omega
    · cases hhere

/-! ## The fields -/

theorem frameDescriptor_fields {fcsFlag dictIdFlag : Nat} (hfcs : fcsFlag < 4) (hid : dictIdFlag < 4)
    (singleSegment checksum : Bool) :
    frameDescriptor fcsFlag dictIdFlag singleSegment checksum < 256 ∧
      frameDescriptor fcsFlag dictIdFlag singleSegment checksum / 64 = fcsFlag ∧
      frameDescriptor fcsFlag dictIdFlag singleSegment checksum / 32 % 2 = singleSegment.toNat ∧
      frameDescriptor fcsFlag dictIdFlag singleSegment checksum / 8 % 2 = 0 ∧
      frameDescriptor fcsFlag dictIdFlag singleSegment checksum / 4 % 2 = checksum.toNat ∧
      frameDescriptor fcsFlag dictIdFlag singleSegment checksum % 4 = dictIdFlag := by
  have hall : ∀ (fcs id : Fin 4) (single check : Bool), frameDescriptor fcs id single check < 256 ∧
      frameDescriptor fcs id single check / 64 = fcs ∧ frameDescriptor fcs id single check / 32 % 2 = single.toNat ∧
      frameDescriptor fcs id single check / 8 % 2 = 0 ∧ frameDescriptor fcs id single check / 4 % 2 = check.toNat ∧
      frameDescriptor fcs id single check % 4 = id := by decide
  exact hall ⟨fcsFlag, hfcs⟩ ⟨dictIdFlag, hid⟩ singleSegment checksum

theorem getByte_append (front rest : Bytes) (b : UInt8) : getByte (front ++ b :: rest) front.length = .ok b := by
  unfold getByte
  rw [List.getElem?_append_right (le_refl _), Nat.sub_self]
  rfl

theorem getRange_append (front field rest : Bytes) {size : Nat} (hsize : field.length = size) :
    getRange (front ++ (field ++ rest)) front.length (front.length + size) = .ok field := by
  subst hsize
  unfold getRange
  rw [if_pos (by simp only [List.length_append]; omega), Nat.add_sub_cancel_left, List.drop_left, List.take_left]

section
variable {src field : Bytes} (front rest : Bytes) {pos size : Nat}

theorem readDictionaryIdField_append (hsrc : src = front ++ (field ++ rest)) (hpos : front.length = pos)
    (hsize : field.length = size) :
    readDictionaryIdField size pos src =
      .ok (if size = 0 then none else if readLe field ≠ 0 then some (readLe field) else none) := by
  subst hsrc hpos
  unfold readDictionaryIdField
  by_cases h0 : size = 0
  · rw [if_pos h0, if_pos h0]
  · rw [if_neg h0, if_neg h0, getRange_append front field rest hsize]
    rfl

theorem readContentSizeField_append (hsrc : src = front ++ (field ++ rest)) (hpos : front.length = pos)
    (hsize : field.length = size) :
    readContentSizeField size pos src = .ok (if size = 0 then none else some (decodeFrameContentSize field)) := by
  subst hsrc hpos
  unfold readContentSizeField
  by_cases h0 : size = 0
  · rw [if_pos h0, if_pos h0]
  · rw [if_neg h0, if_neg h0, getRange_append front field rest hsize]
    rfl

end

/-- The header that a descriptor and its fields make. -/
def headerOf (window contentSize dictionaryId : Option Nat) (checksum : Bool) (headerSize : Nat) :
    ZstandardFrameHeader :=
  let windowSize := window.getD (contentSize.getD 0)
  { headerSize, windowSize, blockSizeMax := min windowSize blockSizeMax, contentSize, dictionaryId, checksum
    singleSegment := window.isNone }

/-- The field of a window descriptor; single-segment frames have none. -/
def windowField (window : Option Nat) : Bytes := window.elim [] fun descriptor => [UInt8.ofNat descriptor]

theorem readWindowField_append {src : Bytes} (front rest : Bytes) {pos : Nat} {window : Option Nat}
    (hsrc : src = front ++ (windowField window ++ rest)) (hpos : front.length = pos) (hw : ∀ w ∈ window, w < 256) :
    readWindowField window.isNone pos src =
      .ok ((window.map decodeWindowDescriptor).getD 0, pos + (windowField window).length) := by
  subst hsrc hpos
  unfold readWindowField windowField
  rcases window with _ | w
  · rfl
  · simp only [Option.isNone_some, Option.elim_some, List.singleton_append, Bool.false_eq_true, if_false]
    rw [getByte_append, ok_bind]
    simp only [Option.map_some, Option.getD_some, List.length_singleton]
    rw [UInt8.toNat_ofNat', Nat.mod_eq_of_lt (hw w rfl)]

/-- The parser takes the fields apart as they were put together, whatever follows them. -/
theorem parse_fields {format : Format} {magic id fcs : Bytes} {fcsFlag dictIdFlag : Nat} (window : Option Nat)
    (checksum : Bool) (rest : Bytes) (hmagic : magic.length = format.magicSize) (hfcs : fcsFlag < 4)
    (hid : dictIdFlag < 4) (hw : ∀ w ∈ window, w < 256) (hidSize : id.length = dictionaryIdSize dictIdFlag)
    (hfcsSize : fcs.length = frameContentSizeFieldSize fcsFlag window.isNone) (hsome : window.isSome ∨ fcs.length ≠ 0) :
    parseZstandardFrameHeader format
        (magic ++ UInt8.ofNat (frameDescriptor fcsFlag dictIdFlag window.isNone checksum) ::
          (windowField window ++ (id ++ (fcs ++ rest)))) =
      .ok (.zstandard (headerOf (window.map decodeWindowDescriptor)
        (if fcs.length = 0 then none else some (decodeFrameContentSize fcs))
        (if id.length = 0 then none else if readLe id ≠ 0 then some (readLe id) else none) checksum
        (magic.length + 1 + (windowField window).length + id.length + fcs.length))) := by
  obtain ⟨hsmall, h64, h32, h8, h4, hmod⟩ := frameDescriptor_fields hfcs hid window.isNone checksum
  have hids : dictionaryIdSize (frameDescriptor fcsFlag dictIdFlag window.isNone checksum) = id.length := by
    rw [hidSize]
    unfold dictionaryIdSize
    rw [hmod, Nat.mod_eq_of_lt hid]
  unfold parseZstandardFrameHeader
  rw [← hmagic, getByte_append, ok_bind]
  simp only [UInt8.toNat_ofNat', Nat.mod_eq_of_lt hsmall, h8, h64, h32, h4, hids]
  have hsingle : (decide (window.isNone.toNat = 1)) = window.isNone := by cases window.isNone <;> rfl
  have hcheck : (decide (checksum.toNat = 1)) = checksum := by cases checksum <;> rfl
  rw [if_neg (by norm_num), hsingle, hcheck, ← hfcsSize]
  generalize UInt8.ofNat (frameDescriptor fcsFlag dictIdFlag window.isNone checksum) = b
  -- one field after the other, each behind all that came before it
  generalize hsrc : magic ++ b :: (windowField window ++ (id ++ (fcs ++ rest))) = src
  rw [readWindowField_append (magic ++ [b]) (id ++ (fcs ++ rest)) (by rw [← hsrc]; simp) (by simp) hw, ok_bind]
  simp only
  rw [readDictionaryIdField_append (magic ++ [b] ++ windowField window) (fcs ++ rest) (by rw [← hsrc]; simp)
      (by simp; omega) rfl, ok_bind,
    readContentSizeField_append (magic ++ [b] ++ windowField window ++ id) rest (by rw [← hsrc]; simp)
      (by simp; omega) rfl, ok_bind]
  unfold effectiveWindowSize headerOf
  rcases window with _ | w
  · have hne : fcs.length ≠ 0 := by simpa using hsome
    simp only [Option.isNone_none, if_true, if_neg hne]
    rfl
  · rfl

theorem decode_encodeFrameContentSize (contentSize : UInt64) {flag : Nat} {field : Bytes}
    (h : encodeFrameContentSize contentSize = (flag, field)) :
    flag < 4 ∧ field.length = frameContentSizeFieldSize flag true ∧ (flag ≠ 0 → 256 ≤ contentSize.toNat) ∧
      (256 ≤ contentSize.toNat → flag ≠ 0) ∧ decodeFrameContentSize field = contentSize.toNat := by
  have hsize := contentSize.toNat_lt
  unfold encodeFrameContentSize at h
  unfold decodeFrameContentSize
  generalize contentSize.toNat = n at h hsize
  simp only at h
  split at h
  · cases h
    refine ⟨by decide, rfl, by simp, by omega, ?_⟩
    rw [writeLe_length, if_neg (by decide), readLe_writeLe _ _ (by omega)]
  split at h
  · cases h
    refine ⟨by decide, writeLe_length _ _, by omega, by simp, ?_⟩
    rw [writeLe_length, if_pos rfl, readLe_writeLe _ _ (by omega)]
    omega
  split at h
  · cases h
    refine ⟨by decide, writeLe_length _ _, by omega, by simp, ?_⟩
    rw [writeLe_length, if_neg (by decide), readLe_writeLe _ _ (by omega)]
  · cases h
    refine ⟨by decide, writeLe_length _ _, by omega, by simp, ?_⟩
    rw [writeLe_length, if_neg (by decide), readLe_writeLe _ _ (by omega)]

/-- The id that a header declares: zero is none. -/
def declaredId (dictionaryId : Option UInt32) : Option Nat := (dictionaryId.filter (· ≠ 0)).map UInt32.toNat

theorem read_encodeDictionaryId (dictionaryId : Option UInt32) {flag : Nat} {field : Bytes}
    (h : encodeDictionaryId dictionaryId = (flag, field)) :
    flag < 4 ∧ field.length = dictionaryIdSize flag ∧
      (if field.length = 0 then none else if readLe field ≠ 0 then some (readLe field) else none) =
        declaredId dictionaryId := by
  unfold encodeDictionaryId at h
  unfold declaredId
  rcases hfilter : dictionaryId.filter (· ≠ 0) with _ | id
  · rw [hfilter] at h ⊢
    cases h
    exact ⟨by decide, rfl, rfl⟩
  · have hne : id ≠ 0 := by simpa using (Option.filter_eq_some_iff.mp hfilter).2
    have hpos : id.toNat ≠ 0 := fun h0 => hne (UInt32.toNat_inj.mp h0)
    have hsize := id.toNat_lt
    rw [hfilter] at h ⊢
    simp only [Option.map_some] at h ⊢
    generalize id.toNat = n at h hsize hpos
    split at h
    · cases h
      rw [writeLe_length, readLe_writeLe _ _ (by omega), if_neg (by decide), if_pos hpos]
      exact ⟨by decide, rfl, rfl⟩
    split at h
    · cases h
      rw [writeLe_length, readLe_writeLe _ _ (by omega), if_neg (by decide), if_pos hpos]
      exact ⟨by decide, rfl, rfl⟩
    · cases h
      rw [writeLe_length, readLe_writeLe _ _ (by omega), if_neg (by decide), if_pos hpos]
      exact ⟨by decide, rfl, rfl⟩

/-! ## Round trips -/

/-- The magic number of a format, as written. -/
def magicOf (format : Format) : Bytes := writeFrameMagic [] format

theorem writeFrameMagic_eq (dst : Bytes) (format : Format) : writeFrameMagic dst format = dst ++ magicOf format := by
  cases format
  · rfl
  · exact (List.append_nil dst).symm

theorem length_magicOf (format : Format) : (magicOf format).length = format.magicSize := by
  cases format <;> rfl

/-- Behind the magic number of its format, a header is parsed as a standard one. -/
theorem parse_magicOf (format : Format) (fields : Bytes) :
    parseFrameHeaderWithFormat format (magicOf format ++ fields) =
      parseZstandardFrameHeader format (magicOf format ++ fields) := by
  unfold parseFrameHeaderWithFormat
  cases format with
  | zstd1Magicless => rw [if_pos rfl]
  | zstd1 =>
    have hlen : (magicOf .zstd1).length = 4 := rfl
    have hmagic : readU32Le (magicOf .zstd1 ++ fields) = zstdMagicNumber := by
      unfold readU32Le
      rw [List.take_left' hlen]
      decide
    rw [if_neg (by decide), if_neg (by rw [List.length_append]; omega)]
    simp only [hmagic, if_true]

/-- What a windowed header is read back as, or why there is none. -/
def WindowedRoundTrip (written : Result Bytes) (dst rest : Bytes) (windowSize : UInt64) (contentSize : Option Nat)
    (checksum : Bool) (dictionaryId : Option UInt32) (format : Format) : Prop :=
  (∃ header window, written = .ok (dst ++ header) ∧
    IsLeast {w | Representable w ∧ max windowSize.toNat 1024 ≤ w} window ∧
    parseFrameHeaderWithFormat format (header ++ rest) =
      .ok (.zstandard (headerOf (some window) contentSize (declaredId dictionaryId) checksum header.length))) ∨
  (written = .error (.invalidParameter "window_size is too large") ∧
    ∀ w, Representable w → w < max windowSize.toNat 1024)

/-- A windowed header with any content size field, or none. -/
theorem windowed_roundTrip (dst rest : Bytes) (windowSize : UInt64) (checksum : Bool) (dictionaryId : Option UInt32)
    (format : Format) {fcsFlag dictIdFlag : Nat} {fcs id : Bytes} (hfcs : fcsFlag < 4)
    (hfcsSize : fcs.length = frameContentSizeFieldSize fcsFlag false)
    (hid : encodeDictionaryId dictionaryId = (dictIdFlag, id)) :
    WindowedRoundTrip (do
        let window ← encodeWindowDescriptor (max windowSize.toNat (1 <<< 10))
        .ok (writeFrameMagic dst format ++ UInt8.ofNat (frameDescriptor fcsFlag dictIdFlag false checksum) ::
          UInt8.ofNat window :: (id ++ fcs)))
      dst rest windowSize (if fcs.length = 0 then none else some (decodeFrameContentSize fcs)) checksum dictionaryId
      format := by
  obtain ⟨hid4, hidSize, hidValue⟩ := read_encodeDictionaryId dictionaryId hid
  have hspec := encodeWindowDescriptor_spec (max windowSize.toNat (1 <<< 10))
  rw [show (1 <<< 10 : Nat) = 1024 by rfl, max_assoc, max_self] at hspec
  rw [show (1 <<< 10 : Nat) = 1024 by rfl]
  rcases hspec with ⟨d, hd, hok, hleast⟩ | ⟨herror, hnone⟩
  · refine .inl ⟨magicOf format ++ UInt8.ofNat (frameDescriptor fcsFlag dictIdFlag false checksum) ::
      UInt8.ofNat d :: (id ++ fcs), decodeWindowDescriptor d, ?_, hleast, ?_⟩
    · rw [hok, ok_bind, writeFrameMagic_eq, List.append_assoc]
    · have hparse := parse_fields (some d) checksum rest (length_magicOf format) hfcs hid4
        (by simpa using hd) hidSize hfcsSize (.inl rfl)
      rw [hidValue] at hparse
      simp only [windowField, Option.isNone_some, Option.elim_some, List.singleton_append, Option.map_some,
        List.length_singleton] at hparse
      rw [List.append_assoc, List.cons_append, List.cons_append, List.append_assoc, parse_magicOf, hparse]
      simp only [List.length_append, List.length_cons]
      congr 3
      omega
  · exact .inr ⟨by rw [herror, error_bind], hnone⟩

/-- Every header written is read back, whatever follows it: a single-segment header and, where the window can be
said, windowed headers without and with a content size. -/
theorem headers_roundTrip (dst rest : Bytes) (contentSize windowSize : UInt64) (checksum : Bool)
    (dictionaryId : Option UInt32) (format : Format) :
    (∃ header, writeSingleSegmentHeaderWithDict dst contentSize checksum dictionaryId format = dst ++ header ∧
      parseFrameHeaderWithFormat format (header ++ rest) =
        .ok (.zstandard (headerOf none (some contentSize.toNat) (declaredId dictionaryId) checksum header.length))) ∧
    WindowedRoundTrip (writeWindowedHeaderWithDict dst windowSize checksum dictionaryId format) dst rest windowSize none
      checksum dictionaryId format ∧
    (256 ≤ contentSize.toNat →
      WindowedRoundTrip (writeWindowedHeaderWithContentSize dst windowSize contentSize checksum dictionaryId format) dst
        rest windowSize (some contentSize.toNat) checksum dictionaryId format) := by
  rcases hid : encodeDictionaryId dictionaryId with ⟨dictIdFlag, id⟩
  rcases hfcs : encodeFrameContentSize contentSize with ⟨fcsFlag, fcs⟩
  obtain ⟨hid4, hidSize, hidValue⟩ := read_encodeDictionaryId dictionaryId hid
  obtain ⟨hfcs4, hfcsSize, -, hflag, hfcsValue⟩ := decode_encodeFrameContentSize contentSize hfcs
  have hpos : fcs.length ≠ 0 := by
    rw [hfcsSize]
    unfold frameContentSizeFieldSize
    split <;> decide
  refine ⟨?_, ?_, fun hlarge => ?_⟩
  · refine ⟨magicOf format ++ UInt8.ofNat (frameDescriptor fcsFlag dictIdFlag true checksum) :: (id ++ fcs), ?_, ?_⟩
    · unfold writeSingleSegmentHeaderWithDict
      simp only [hid, hfcs]
      rw [writeFrameMagic_eq, List.append_assoc]
    · have hparse := parse_fields none checksum rest (length_magicOf format) hfcs4 hid4 (by simp) hidSize
        hfcsSize (.inr hpos)
      rw [hidValue, if_neg hpos, hfcsValue] at hparse
      simp only [windowField, Option.isNone_none, Option.elim_none, List.nil_append, Option.map_none,
        List.length_nil] at hparse
      rw [List.append_assoc, List.cons_append, List.append_assoc, parse_magicOf, hparse]
      simp only [List.length_append, List.length_cons]
      congr 3
      omega
  · have hround := windowed_roundTrip dst rest windowSize checksum dictionaryId format
      (show 0 < 4 by decide) (show ([] : Bytes).length = frameContentSizeFieldSize 0 false from rfl) hid
    rw [List.append_nil] at hround
    unfold writeWindowedHeaderWithDict
    simp only [hid]
    exact hround
  · have hne := hflag hlarge
    have hround := windowed_roundTrip dst rest windowSize checksum dictionaryId format hfcs4
      (show fcs.length = frameContentSizeFieldSize fcsFlag false by
        rw [hfcsSize]
        unfold frameContentSizeFieldSize
        split <;> simp_all) hid
    rw [if_neg hpos, hfcsValue] at hround
    unfold writeWindowedHeaderWithContentSize
    simp only [hid, hfcs, if_neg hne]
    exact hround

theorem headers_roundTrip_small :
    WindowedRoundTrip (writeWindowedHeaderWithContentSize [] 70000 300 true (some 7) .zstd1) [] [1, 2] 70000 (some 300)
      true (some 7) .zstd1 :=
  (headers_roundTrip [] [1, 2] 300 70000 true (some 7) .zstd1).2.2 (by decide)

end Zstandard
