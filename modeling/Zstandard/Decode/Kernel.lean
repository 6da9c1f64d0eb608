/-
The raw copies of the sequence executor and their correctness: the sixteen-byte literal copy, the
match copy with its wide, short-offset and doubling forms, and the exact copies of the cold paths.

Every form keeps the bytes before its destination and leaves the overlapping copy behind it, writing
no further than `wildcopyOverlength` past the bytes it is asked for. The wide match copies are the
one move lemma of `Lz.Filled`, each with its own distance.
-/
import Zstandard.Decode.Out

namespace Zstandard

/-! ## Literals -/

/-- `copy_16` of the literals at `ip` to the output at `pos`. -/
def copy16 (mem : Bytes) (pos : Nat) (src : Bytes) (ip : Nat) : Bytes :=
  Lz.write mem pos ((src.drop ip).take 16)

/-- The rest of a literal run, sixteen bytes a round. -/
def copyLiteralsLoop (src : Bytes) (outPos ip literalLength : Nat) : Nat → Nat → Bytes → Bytes
  | 0, _, mem => mem
  | fuel + 1, pos, mem =>
    if pos < literalLength then
      copyLiteralsLoop src outPos ip literalLength fuel (pos + 16) (copy16 mem (outPos + pos) src (ip + pos))
    else mem

/-- The literal copy of a sequence: always one `copy_16`, then the rest. -/
def copyLiterals (mem : Bytes) (outPos : Nat) (src : Bytes) (ip literalLength : Nat) : Bytes :=
  let mem := copy16 mem outPos src ip
  if literalLength > 16 then copyLiteralsLoop src outPos ip literalLength literalLength 16 mem else mem

/-! ## Matches -/

/-- `PATTERN_DOUBLING_MIN`. -/
def patternDoublingMin : Nat := 4096

/-- The rounds of a doubling copy: what is there is copied behind itself. -/
def doublingLoop (dst n : Nat) : Nat → Nat → Bytes → Bytes
  | 0, _, mem => mem
  | fuel + 1, done, mem =>
    if done < n then
      let chunk := min done (n - done)
      doublingLoop dst n fuel (done + chunk) (Lz.move mem (dst + done) dst chunk)
    else mem

/-- `copy_match_by_doubling`. -/
def copyMatchByDoubling (mem : Bytes) (dst src offset matchLength : Nat) : Bytes :=
  let seed := min offset matchLength
  doublingLoop dst matchLength matchLength seed (Lz.move mem dst src seed)

/-- The unrolled loop of the wide copy: two sixteen-byte moves a round. -/
def copyWideLoop (dst src matchLength : Nat) : Nat → Nat → Bytes → Bytes
  | 0, _, mem => mem
  | fuel + 1, pos, mem =>
    let mem := Lz.move mem (dst + pos) (src + pos) 16
    let mem := Lz.move mem (dst + (pos + 16)) (src + (pos + 16)) 16
    if pos + 32 ≥ matchLength then mem else copyWideLoop dst src matchLength fuel (pos + 32) mem

/-- The eight-byte copy that ends the short-offset form. -/
def copyEightLoop (stop : Nat) : Nat → Nat → Nat → Bytes → Bytes
  | 0, _, _, mem => mem
  | fuel + 1, op, ip, mem =>
    if op < stop then copyEightLoop stop fuel (op + 8) (ip + 8) (Lz.move mem op ip 8) else mem

def dec32Table : List Nat := [0, 1, 2, 1, 4, 4, 4, 4]
def dec64Table : List Nat := [8, 8, 8, 7, 8, 9, 10, 11]

/-- `ZSTD_overlapCopy8`: the first eight bytes of a match nearer than eight, after which the source
is at least eight behind. Returns the source of the ninth byte. -/
def overlapCopy8 (mem : Bytes) (dst src offset : Nat) : Bytes × Nat :=
  let mem := Lz.move mem dst src 1
  let mem := Lz.move mem (dst + 1) (src + 1) 1
  let mem := Lz.move mem (dst + 2) (src + 2) 1
  let mem := Lz.move mem (dst + 3) (src + 3) 1
  let ip := src + dec32Table.getD offset 0
  (Lz.move mem (dst + 4) ip 4, ip + 8 - dec64Table.getD offset 0)

/-- `copy_match_inline`. -/
def copyMatchInline (mem : Bytes) (outPos matchSrc matchLength : Nat) : Bytes :=
  let offset := outPos - matchSrc
  if matchLength ≥ patternDoublingMin then copyMatchByDoubling mem outPos matchSrc offset matchLength
  else if offset ≥ 16 then
    let mem := Lz.move mem outPos matchSrc 16
    if matchLength > 16 then copyWideLoop outPos matchSrc matchLength matchLength 16 mem else mem
  else
    let (mem, ip) :=
      if offset < 8 then overlapCopy8 mem outPos matchSrc offset
      else (Lz.move mem outPos matchSrc 8, matchSrc + 8)
    if matchLength > 8 then copyEightLoop (outPos + matchLength) matchLength (outPos + 8) ip mem else mem

/-! ## Exact copies -/

/-- `append_match_from_history`. -/
def appendMatchFromHistory (alloc : Allocator) (r : Region) (matchStart matchLength : Nat) : Result Region :=
  if matchLength = 0 then .ok r else do
    let r ← r.ensureRoom alloc matchLength
    let offset := r.len - matchStart
    let mem :=
      if matchLength ≤ offset then Lz.move r.mem r.len matchStart matchLength
      else if offset = 1 then
        Lz.write r.mem r.len (List.replicate matchLength (r.asSlice.getD matchStart 0))
      else doublingLoop r.len matchLength matchLength offset (Lz.move r.mem r.len matchStart offset)
    .ok { r with mem, len := r.len + matchLength }

/-- `append_match_from_dictionary_history`. -/
def appendMatchFromDictionaryHistory (alloc : Allocator) (r : Region) (frameStart : Nat) (dictionary : Bytes)
    (offset matchLength : Nat) : Result Region :=
  if matchLength = 0 then .ok r else
  let historyLen := dictionary.length + (r.len - frameStart)
  let sourceIndex := historyLen - offset
  if sourceIndex < dictionary.length then do
    let dictChunkLen := min (dictionary.length - sourceIndex) matchLength
    let r ← r.append alloc ((dictionary.drop sourceIndex).take dictChunkLen)
    let remaining := matchLength - dictChunkLen
    if remaining ≠ 0 then appendMatchFromHistory alloc r frameStart remaining else .ok r
  else appendMatchFromHistory alloc r (frameStart + (sourceIndex - dictionary.length)) matchLength

/-! ## The literal copy is exact -/

/-- `mem` agrees with `mem₀` before `pos` and holds the literals from `ip` in its next `done` cells. -/
structure LiteralsCopied (mem₀ : Bytes) (pos : Nat) (src : Bytes) (ip done : Nat) (mem : Bytes) : Prop where
  length : mem.length = mem₀.length
  kept : ∀ i < pos, mem[i]? = mem₀[i]?
  copied : ∀ i < done, mem[pos + i]? = src[ip + i]?

theorem LiteralsCopied.copy16 {mem₀ mem src : Bytes} {pos ip done : Nat}
    (h : LiteralsCopied mem₀ pos src ip done mem) (hsrc : ip + done + 16 ≤ src.length)
    (hroom : pos + done + 16 ≤ mem₀.length) :
    LiteralsCopied mem₀ pos src ip (done + 16) (copy16 mem (pos + done) src (ip + done)) := by
  have hl : ((src.drop (ip + done)).take 16).length = 16 := by simp; omega
  have hle : pos + done + ((src.drop (ip + done)).take 16).length ≤ mem.length := by rw [hl, h.length]; omega
  unfold Zstandard.copy16
  refine ⟨by rw [Lz.length_write hle, h.length], fun i hi => ?_, fun i hi => ?_⟩
  · rw [Lz.getElem?_write hle, if_neg (by omega), h.kept i hi]
  · rw [Lz.getElem?_write hle, hl]
    split
    · rw [List.getElem?_take_of_lt (by omega), List.getElem?_drop]
      congr 1; omega
    · exact h.copied i (by omega)

theorem copyLiteralsLoop_copied {mem₀ src : Bytes} {pos ip n : Nat} (hsrc : ip + n + 16 ≤ src.length)
    (hroom : pos + n + 16 ≤ mem₀.length) :
    ∀ (fuel done : Nat) (mem : Bytes), n ≤ done + 16 * fuel → LiteralsCopied mem₀ pos src ip done mem →
      ∃ done', n ≤ done' ∧ LiteralsCopied mem₀ pos src ip done' (copyLiteralsLoop src pos ip n fuel done mem)
  | 0, done, mem, hn, h => ⟨done, by omega, h⟩
  | fuel + 1, done, mem, hn, h => by
    unfold copyLiteralsLoop
    split
    · exact copyLiteralsLoop_copied hsrc hroom fuel (done + 16) _ (by omega)
        (h.copy16 (by omega) (by omega))
    · exact ⟨done, by omega, h⟩

/-- The literal copy leaves the run behind what was there, with sixteen bytes of slack. -/
theorem copyLiterals_spec {mem src : Bytes} {pos ip n : Nat} (hsrc : ip + n + 16 ≤ src.length)
    (hroom : pos + n + 16 ≤ mem.length) :
    (copyLiterals mem pos src ip n).length = mem.length ∧
      (copyLiterals mem pos src ip n).take (pos + n) = mem.take pos ++ (src.drop ip).take n := by
  have h0 : LiteralsCopied mem pos src ip 0 mem := ⟨rfl, fun _ _ => rfl, fun i hi => by omega⟩
  obtain ⟨done, hd, h⟩ : ∃ done, n ≤ done ∧ LiteralsCopied mem pos src ip done (copyLiterals mem pos src ip n) := by
    unfold copyLiterals
    have h16 : LiteralsCopied mem pos src ip 16 (Zstandard.copy16 mem pos src ip) := by
      simpa using h0.copy16 (by omega) (by omega)
    simp only
    split
    · exact copyLiteralsLoop_copied hsrc hroom n 16 _ (by omega) h16
    · exact ⟨16, by omega, h16⟩
  refine ⟨h.length, List.ext_getElem? fun i => ?_⟩
  have hp : (mem.take pos).length = pos := by simp; omega
  have hn : ((src.drop ip).take n).length = n := by simp; omega
  rcases Nat.lt_or_ge i pos with hi | hi
  · rw [List.getElem?_take_of_lt (by omega), h.kept i hi, List.getElem?_append_left (by omega),
      List.getElem?_take_of_lt hi]
  rcases Nat.lt_or_ge i (pos + n) with hi' | hi'
  · obtain ⟨j, rfl⟩ : ∃ j, i = pos + j := ⟨i - pos, by omega⟩
    rw [List.getElem?_take_of_lt hi', h.copied j (by omega), List.getElem?_append_right (by omega), hp,
      Nat.add_sub_cancel_left, List.getElem?_take_of_lt (by omega), List.getElem?_drop]
  · rw [List.getElem?_eq_none (by simp; omega), List.getElem?_eq_none (by simp; omega)]

/-! ## The match copies are exact -/

open Lz

/-- What a match copy of `n` bytes to `base` from `offset` back must leave. -/
def MatchCopied (mem : Bytes) (base offset n : Nat) (mem' : Bytes) : Prop :=
  ∃ done, n ≤ done ∧ Filled mem base offset done mem'

theorem MatchCopied.spec {mem mem' : Bytes} {base offset n : Nat} (h : MatchCopied mem base offset n mem')
    (ho : 0 < offset) (hbase : offset ≤ base) (hroom : base + n ≤ mem.length) :
    mem'.length = mem.length ∧ mem'.take (base + n) = copy (mem.take base) offset n := by
  obtain ⟨done, hn, h⟩ := h
  exact ⟨h.length, h.take_eq_copy ho hbase hn hroom⟩

theorem doublingLoop_copied {mem₀ : Bytes} {base offset n : Nat} (ho : 0 < offset) (hbase : offset ≤ base)
    (hroom : base + n ≤ mem₀.length) :
    ∀ (fuel done : Nat) (mem : Bytes), n ≤ done + fuel → done ≤ n → (done = n ∨ ∃ k, 0 < k ∧ done = k * offset) →
      Filled mem₀ base offset done mem → MatchCopied mem₀ base offset n (doublingLoop base n fuel done mem)
  | 0, done, mem, hn, _, _, h => ⟨done, by omega, h⟩
  | fuel + 1, done, mem, hn, hle, hk, h => by
    unfold doublingLoop
    split
    · rename_i hlt
      obtain ⟨k, hk0, rfl⟩ : ∃ k, 0 < k ∧ done = k * offset := by
        rcases hk with hk | hk
        · omega
        · exact hk
      have hko : 0 < k * offset := Nat.mul_pos hk0 ho
      have hmove := h.move (k := k) (n := min (k * offset) (n - k * offset)) hk0 (by omega) (by omega) hbase
        (by rw [h.length]; omega)
      rw [show base + k * offset - k * offset = base by omega] at hmove
      refine doublingLoop_copied ho hbase hroom fuel _ _ (by omega) (by omega) ?_ hmove
      rcases Nat.le_total (k * offset) (n - k * offset) with hc | hc
      · right; exact ⟨2 * k, by omega, by rw [min_eq_left hc]; ring⟩
      · left; omega
    · exact ⟨done, by omega, h⟩

theorem copyMatchByDoubling_copied {mem : Bytes} {base offset n : Nat} (ho : 0 < offset) (hbase : offset ≤ base)
    (hn0 : 0 < n) (hroom : base + n ≤ mem.length) :
    MatchCopied mem base offset n (copyMatchByDoubling mem base (base - offset) offset n) := by
  have h := (Filled.refl mem base offset).move (k := 1) (n := min offset n) (by omega) (by omega) (by omega)
    hbase (by omega)
  simp only [Nat.add_zero, Nat.one_mul, Nat.zero_add] at h
  unfold copyMatchByDoubling
  refine doublingLoop_copied ho hbase hroom n _ _ (by omega) (by omega) ?_ h
  rcases Nat.le_total offset n with hc | hc
  · right; exact ⟨1, by omega, by rw [min_eq_left hc, Nat.one_mul]⟩
  · left; omega

theorem copyWideLoop_copied {mem₀ : Bytes} {base offset n : Nat} (ho : 16 ≤ offset) (hbase : offset ≤ base)
    (hroom : base + n + 32 ≤ mem₀.length) :
    ∀ (fuel done : Nat) (mem : Bytes), n ≤ done + 32 * fuel → done < n → Filled mem₀ base offset done mem →
      MatchCopied mem₀ base offset n (copyWideLoop base (base - offset) n fuel done mem)
  | 0, done, mem, hn, hlt, h => by omega
  | fuel + 1, done, mem, hn, hlt, h => by
    have h1 := h.move (k := 1) (n := 16) (by omega) (by omega) (by omega) hbase (by rw [h.length]; omega)
    have h2 := h1.move (k := 1) (n := 16) (by omega) (by omega) (by omega) hbase (by rw [h1.length]; omega)
    unfold copyWideLoop
    simp only
    rw [show base + done - 1 * offset = base - offset + done by omega] at h1 h2
    rw [show base + (done + 16) - 1 * offset = base - offset + (done + 16) by omega] at h2
    split
    · exact ⟨done + 16 + 16, by omega, h2⟩
    · exact copyWideLoop_copied ho hbase hroom fuel (done + 32) _ (by omega) (by omega) h2

theorem copyEightLoop_copied {mem₀ : Bytes} {base offset n k : Nat} (hk0 : 0 < k) (hk : 8 ≤ k * offset)
    (hbase : offset ≤ base) (hroom : base + n + 8 ≤ mem₀.length) :
    ∀ (fuel done : Nat) (mem : Bytes), n ≤ done + 8 * fuel → k * offset ≤ done + offset →
      Filled mem₀ base offset done mem →
      MatchCopied mem₀ base offset n
        (copyEightLoop (base + n) fuel (base + done) (base + done - k * offset) mem)
  | 0, done, mem, hn, _, h => ⟨done, by omega, h⟩
  | fuel + 1, done, mem, hn, hreach, h => by
    unfold copyEightLoop
    split
    · have h1 := h.move (k := k) (n := 8) hk0 hk hreach hbase (by rw [h.length]; omega)
      rw [show base + done + 8 = base + (done + 8) by omega,
        show base + done - k * offset + 8 = base + (done + 8) - k * offset by omega]
      exact copyEightLoop_copied hk0 hk hbase hroom fuel (done + 8) _ (by omega) (by omega) h1
    · exact ⟨done, by omega, h⟩

/-- The fix-up tables: after the first four bytes the source moves to a multiple of the offset at
least four behind, and after the next four to one at least eight behind, neither before the pattern. -/
theorem overlap_tables : ∀ offset < 8, 0 < offset →
    (∃ k, 0 < k ∧ 4 + offset - dec32Table.getD offset 0 = k * offset ∧ 4 ≤ k * offset ∧ k * offset ≤ 4 + offset) ∧
    (∃ k, 0 < k ∧ offset + dec64Table.getD offset 0 - dec32Table.getD offset 0 = k * offset ∧ 8 ≤ k * offset ∧
      k * offset ≤ 8 + offset) := by
  intro offset h1 h2
  interval_cases offset
  · exact ⟨⟨4, by decide⟩, ⟨8, by decide⟩⟩
  · exact ⟨⟨2, by decide⟩, ⟨4, by decide⟩⟩
  · exact ⟨⟨2, by decide⟩, ⟨3, by decide⟩⟩
  · exact ⟨⟨1, by decide⟩, ⟨2, by decide⟩⟩
  · exact ⟨⟨1, by decide⟩, ⟨2, by decide⟩⟩
  · exact ⟨⟨1, by decide⟩, ⟨2, by decide⟩⟩
  · exact ⟨⟨1, by decide⟩, ⟨2, by decide⟩⟩

theorem overlap_tables_le : ∀ offset < 8, 0 < offset →
    dec32Table.getD offset 0 ≤ 4 ∧ 7 ≤ dec64Table.getD offset 0 ∧
      dec32Table.getD offset 0 ≤ dec64Table.getD offset 0 ∧
        dec32Table.getD offset 0 + 8 ≥ dec64Table.getD offset 0 := by
  decide

theorem overlapCopy8_filled {mem : Bytes} {base offset : Nat} (ho : 0 < offset) (h8 : offset < 8)
    (hbase : offset ≤ base) (hroom : base + 8 ≤ mem.length) :
    Filled mem base offset 8 (overlapCopy8 mem base (base - offset) offset).1 ∧
      ∃ k, 0 < k ∧ 8 ≤ k * offset ∧ k * offset ≤ 8 + offset ∧
        (overlapCopy8 mem base (base - offset) offset).2 = base + 8 - k * offset := by
  obtain ⟨⟨k4, hk4, he4, hge4, hle4⟩, ⟨k8, hk8, he8, hge8, hle8⟩⟩ := overlap_tables offset h8 ho
  obtain ⟨hd1, hd2, hd3, hd4⟩ := overlap_tables_le offset h8 ho
  have step : ∀ {m : Bytes} {done : Nat}, done < 4 → Filled mem base offset done m →
      Filled mem base offset (done + 1) (move m (base + done) (base - offset + done) 1) := by
    intro m done hd h
    have := h.move (k := 1) (n := 1) (by omega) (by omega) (by omega) hbase (by rw [h.length]; omega)
    rwa [show base + done - 1 * offset = base - offset + done by omega] at this
  have h1 := step (by omega) (Filled.refl mem base offset)
  have h2 := step (by omega) h1
  have h3 := step (by omega) h2
  have h4 := step (by omega) h3
  simp only [Nat.add_zero, Nat.zero_add] at h1 h2 h3 h4
  have h5 := h4.move (k := k4) (n := 4) hk4 hge4 hle4 hbase (by rw [h4.length]; omega)
  rw [show base + 4 - k4 * offset = base - offset + dec32Table.getD offset 0 by omega] at h5
  refine ⟨h5, k8, hk8, hge8, hle8, ?_⟩
  show base - offset + dec32Table.getD offset 0 + 8 - dec64Table.getD offset 0 = _
  omega

/-- `copy_match_inline` makes the overlapping copy, given its documented slack. -/
theorem copyMatchInline_spec {mem : Bytes} {outPos offset n : Nat} (ho : 0 < offset) (hle : offset ≤ outPos)
    (hroom : outPos + n + wildcopyOverlength ≤ mem.length) :
    (copyMatchInline mem outPos (outPos - offset) n).length = mem.length ∧
      (copyMatchInline mem outPos (outPos - offset) n).take (outPos + n) = copy (mem.take outPos) offset n := by
  unfold wildcopyOverlength at hroom
  refine MatchCopied.spec ?_ ho hle (by omega)
  unfold copyMatchInline
  rw [show outPos - (outPos - offset) = offset by omega]
  simp only
  split
  · rename_i hn
    unfold patternDoublingMin at hn
    exact copyMatchByDoubling_copied ho hle (by omega) (by omega)
  split
  · have h := (Filled.refl mem outPos offset).move (k := 1) (n := 16) (by omega) (by omega) (by omega) hle (by omega)
    simp only [Nat.add_zero, Nat.one_mul, Nat.zero_add] at h
    split
    · exact copyWideLoop_copied (by omega) hle (by omega) n 16 _ (by omega) (by omega) h
    · exact ⟨16, by omega, h⟩
  · obtain ⟨h, k, hk0, hk8, hk, hip⟩ : Filled mem outPos offset 8
        (if offset < 8 then overlapCopy8 mem outPos (outPos - offset) offset
          else (move mem outPos (outPos - offset) 8, outPos - offset + 8)).1 ∧
        ∃ k, 0 < k ∧ 8 ≤ k * offset ∧ k * offset ≤ 8 + offset ∧
          (if offset < 8 then overlapCopy8 mem outPos (outPos - offset) offset
            else (move mem outPos (outPos - offset) 8, outPos - offset + 8)).2 = outPos + 8 - k * offset := by
      split
      · exact overlapCopy8_filled ho (by assumption) hle (by omega)
      · have h := (Filled.refl mem outPos offset).move (k := 1) (n := 8) (by omega) (by omega) (by omega) hle
          (by omega)
        simp only [Nat.add_zero, Nat.one_mul, Nat.zero_add] at h
        exact ⟨h, 1, by omega, by omega, by omega, by simp only; omega⟩
    split
    · rw [hip]
      exact copyEightLoop_copied hk0 hk8 hle (by omega) n 8 _ (by omega) hk h
    · exact ⟨8, by omega, h⟩

/-! ## The exact copies are exact, or report that they do not fit -/

namespace Region

/-- The region's decoded bytes are `b`. -/
def Holds (r : Region) (b : Bytes) : Prop := r.asSlice = b ∧ r.len = b.length

/-- A region can come to hold `n` bytes. -/
def Fits (r : Region) (n : Nat) : Prop := r.growable = true ∨ n ≤ r.mem.length

theorem Holds.le {r : Region} {b : Bytes} (h : r.Holds b) : r.len ≤ r.mem.length := by
  obtain ⟨h1, h2⟩ := h
  have := congrArg List.length h1
  simp [asSlice] at this
  omega

/-- From `r`, the operation `x` comes to hold `b`, staying in place as long as `b` fits in the memory
there is; or `b` does not fit, and it says so. -/
structure Yields (r : Region) (b : Bytes) (x : Result Region) : Prop where
  ok : r.Fits b.length → ∃ r', x = .ok r' ∧ r'.Holds b ∧ r'.growable = r.growable ∧
    (b.length ≤ r.mem.length → r'.mem.length = r.mem.length)
  error : ¬ r.Fits b.length → x = .error .dstSizeTooSmall

theorem Yields.of_holds {r : Region} {b : Bytes} (h : r.Holds b) : r.Yields b (.ok r) :=
  ⟨fun _ => ⟨r, rfl, h, rfl, fun _ => rfl⟩, fun hf => absurd (.inr (h.2 ▸ h.le)) hf⟩

theorem Yields.holds {r r' : Region} {b : Bytes} {x : Result Region} (h : r.Yields b x) (hx : x = .ok r') :
    r'.Holds b := by
  by_cases hf : r.Fits b.length
  · obtain ⟨r'', h1, h2, -⟩ := h.ok hf
    rw [hx] at h1
    cases h1
    exact h2
  · rw [h.error hf] at hx
    cases hx

theorem Yields.growable {r r' : Region} {b : Bytes} {x : Result Region} (h : r.Yields b x) (hx : x = .ok r') :
    r'.growable = r.growable := by
  by_cases hf : r.Fits b.length
  · obtain ⟨r'', h1, -, h3, -⟩ := h.ok hf
    rw [hx] at h1
    cases h1
    exact h3
  · rw [h.error hf] at hx
    cases hx

theorem Yields.bind {r : Region} {b c : Bytes} {x : Result Region} {f : Region → Result Region}
    (hx : r.Yields b x) (hle : b.length ≤ c.length)
    (hf : ∀ r' : Region, r'.Holds b → r'.Yields c (f r')) : r.Yields c (x >>= f) := by
  constructor
  · intro hc
    obtain ⟨r', rfl, hb, hg, hm⟩ := hx.ok (hc.imp id (by omega))
    obtain ⟨r'', h2, hc', hg', hm'⟩ := (hf r' hb).ok (hc.imp (hg ▸ ·) fun h => by rw [hm (by omega)]; exact h)
    exact ⟨r'', h2, hc', hg'.trans hg, fun h => by rw [hm' (by rw [hm (by omega)]; exact h), hm (by omega)]⟩
  · intro hc
    by_cases hb : r.Fits b.length
    · obtain ⟨r', rfl, hb', hg, hm⟩ := hx.ok hb
      refine (hf r' hb').error fun h => hc ?_
      rcases h with h | h
      · exact .inl (hg ▸ h)
      · rcases hb with hb | hb
        · exact .inl hb
        · exact .inr (hm hb ▸ h)
    · rw [hx.error hb]; rfl

/-- An operation that makes room for the bytes it adds and then writes them. -/
theorem yields_write {alloc : Allocator} {r : Region} {b c : Bytes} (h : r.Holds b) {n : Nat}
    (hlen : c.length = b.length + n) {f : Region → Region}
    (hf : ∀ r', r'.Holds b → b.length + n ≤ r'.mem.length →
      (f r').Holds c ∧ (f r').growable = r'.growable ∧ (f r').mem.length = r'.mem.length) :
    r.Yields c (r.ensureRoom alloc n >>= fun r' => .ok (f r')) := by
  have hle := h.le
  have hl := h.2
  unfold ensureRoom
  split
  · rename_i hroom
    obtain ⟨h1, h2, h3⟩ := hf r h (by omega)
    exact ⟨fun _ => ⟨_, rfl, h1, h2, fun _ => h3⟩, fun hc => absurd (.inr (by omega)) hc⟩
  rename_i hroom
  split
  · rename_i hg
    have henough := alloc.enough r.asSlice n
    have hr' : ({ r with mem := r.asSlice ++ alloc.spare r.asSlice n } : Region).Holds b := by
      refine ⟨?_, h.2⟩
      show (r.asSlice ++ _).take r.len = b
      rw [h.1, h.2, List.take_left]
    obtain ⟨h1, h2, h3⟩ := hf _ hr' (by simp only [List.length_append]; rw [h.1] at henough ⊢; omega)
    exact ⟨fun _ => ⟨_, rfl, h1, h2, fun hc => by omega⟩, fun hc => absurd (.inl hg) hc⟩
  · rename_i hg
    refine ⟨fun hc => ?_, fun _ => rfl⟩
    rcases hc with hc | hc
    · exact absurd hc hg
    · omega

theorem append_yields (alloc : Allocator) {r : Region} {b : Bytes} (h : r.Holds b) (bytes : Bytes) :
    r.Yields (b ++ bytes) (r.append alloc bytes) := by
  unfold append
  split
  · rename_i h0
    rw [List.length_eq_zero_iff.1 h0, List.append_nil]
    exact .of_holds h
  refine yields_write h (by simp) fun r' hr' hroom => ?_
  have hw : r'.len + bytes.length ≤ r'.mem.length := by rw [hr'.2]; exact hroom
  refine ⟨⟨?_, by simp [hr'.2]⟩, rfl, Lz.length_write hw⟩
  show (Lz.write r'.mem r'.len bytes).take (r'.len + bytes.length) = _
  rw [Lz.take_write hw]
  exact congrArg (· ++ bytes) hr'.1

end Region

theorem replicate_isCopy {b : Bytes} (hb : 0 < b.length) (n : Nat) :
    copy b 1 n = b ++ List.replicate n (b.getD (b.length - 1) 0) := by
  symm
  apply IsCopy.eq_copy (by omega) (by omega)
  have hlast : b[b.length - 1]? = some (b.getD (b.length - 1) 0) := by
    rw [List.getD_eq_getElem?_getD, List.getElem?_eq_getElem (by omega)]; rfl
  refine ⟨by simp, fun i hi => List.getElem?_append_left hi, fun i h1 h2 => ?_⟩
  rw [List.getElem?_append_right h1, List.getElem?_replicate, if_pos (by omega)]
  rcases Nat.eq_or_lt_of_le h1 with rfl | h1
  · rw [List.getElem?_append_left (by omega), hlast]
  · rw [List.getElem?_append_right (by omega), List.getElem?_replicate, if_pos (by omega)]

theorem appendMatchFromHistory_yields (alloc : Allocator) {r : Region} {b : Bytes} (h : r.Holds b)
    {offset n : Nat} (ho : 0 < offset) (hle : offset ≤ b.length) :
    r.Yields (copy b offset n) (appendMatchFromHistory alloc r (b.length - offset) n) := by
  unfold appendMatchFromHistory
  split
  · rename_i h0; subst h0; exact .of_holds h
  rename_i hn
  have hlen := length_copy ho hle n
  refine Region.yields_write h hlen fun r' hr' hroom => ?_
  have hoff : r'.len - (b.length - offset) = offset := by rw [hr'.2]; omega
  have hsrc : b.length - offset = r'.len - offset := by rw [hr'.2]
  have key : ∀ mem', MatchCopied r'.mem r'.len offset n mem' →
      (({ r' with mem := mem', len := r'.len + n } : Region).Holds (copy b offset n) ∧
        mem'.length = r'.mem.length) := by
    intro mem' hm
    obtain ⟨h1, h2⟩ := hm.spec ho (by rw [hr'.2]; exact hle) (by rw [hr'.2]; exact hroom)
    refine ⟨⟨?_, by rw [hlen, hr'.2]⟩, h1⟩
    show mem'.take (r'.len + n) = _
    rw [h2]; exact congrArg (copy · offset n) hr'.1
  simp only [hoff]
  split
  · rename_i hno
    have hm := (Filled.refl r'.mem r'.len offset).move (k := 1) (n := n) (by omega) (by omega) (by omega)
      (by rw [hr'.2]; exact hle) (by rw [hr'.2]; omega)
    simp only [Nat.add_zero, Nat.one_mul, Nat.zero_add, ← hsrc] at hm
    obtain ⟨h1, h2⟩ := key _ ⟨n, le_refl _, hm⟩
    exact ⟨h1, trivial, h2⟩
  split
  · rename_i h1; subst h1
    have hw : r'.len + (List.replicate n (r'.asSlice.getD (b.length - 1) 0)).length ≤ r'.mem.length := by
      rw [hr'.2]; simpa using hroom
    refine ⟨⟨?_, by rw [hlen, hr'.2]⟩, trivial, Lz.length_write hw⟩
    show (write r'.mem r'.len _).take (r'.len + n) = _
    have ht := take_write hw
    rw [List.length_replicate] at ht
    rw [ht, replicate_isCopy (by omega), hr'.1]
    exact congrArg (· ++ _) hr'.1
  · have hm := (Filled.refl r'.mem r'.len offset).move (k := 1) (n := offset) (by omega) (by omega) (by omega)
      (by rw [hr'.2]; exact hle) (by rw [hr'.2]; omega)
    simp only [Nat.add_zero, Nat.one_mul, Nat.zero_add, ← hsrc] at hm
    obtain ⟨h1, h2⟩ := key _ (doublingLoop_copied ho (by rw [hr'.2]; exact hle) (by rw [hr'.2]; exact hroom)
      n offset _ (by omega) (by omega) (.inr ⟨1, by omega, by omega⟩) hm)
    exact ⟨h1, trivial, h2⟩

/-- A match over dictionary and frame output, as the bytes appended to the output. -/
def copyWithDictionary (out : Bytes) (frameStart : Nat) (dictionary : Bytes) (offset n : Nat) : Bytes :=
  out.take frameStart ++ (copy (dictionary ++ out.drop frameStart) offset n).drop dictionary.length

theorem length_copyWithDictionary {out dictionary : Bytes} {frameStart offset : Nat} (ho : 0 < offset)
    (hle : offset ≤ dictionary.length + (out.length - frameStart)) (hfs : frameStart ≤ out.length) (n : Nat) :
    (copyWithDictionary out frameStart dictionary offset n).length = out.length + n := by
  have hle' : offset ≤ (dictionary ++ out.drop frameStart).length := by simpa using hle
  have := length_copy ho hle' n
  simp [copyWithDictionary, this]; omega

/-- A match that starts in the output does not see the dictionary. -/
theorem copyWithDictionary_of_le {out dictionary : Bytes} {frameStart offset : Nat} (ho : 0 < offset)
    (hle : offset ≤ out.length - frameStart) (n : Nat) :
    copyWithDictionary out frameStart dictionary offset n = copy out offset n := by
  unfold copyWithDictionary
  rw [copy_append ho (by simpa using hle), List.drop_left, ← copy_append ho (by simpa using hle),
    List.take_append_drop]

/-- A match that starts in the dictionary: its bytes there, and then the output's own start. -/
theorem copyWithDictionary_split {out dictionary : Bytes} {frameStart offset n : Nat}
    (hgt : out.length - frameStart < offset) (hle : offset ≤ dictionary.length + (out.length - frameStart))
    {k : Nat} (hk : k = min (offset - (out.length - frameStart)) n) :
    let chunk := (dictionary.drop (dictionary.length + (out.length - frameStart) - offset)).take k
    copyWithDictionary out frameStart dictionary offset n =
      if n - k = 0 then out ++ chunk else copy (out ++ chunk) offset (n - k) := by
  intro chunk
  have ho : 0 < offset := by omega
  have hhist : (dictionary ++ out.drop frameStart).length = dictionary.length + (out.length - frameStart) := by simp
  have hck : chunk.length = k := by simp [chunk]; omega
  -- the part of the match inside the dictionary is a plain slice
  have hfirst : copy (dictionary ++ out.drop frameStart) offset k = dictionary ++ (out.drop frameStart ++ chunk) := by
    rw [copy_of_le ho (by omega) (by omega), hhist, List.drop_append_of_le_length (by omega),
      List.take_append_of_le_length (by simp; omega), List.append_assoc]
  unfold copyWithDictionary
  split
  · rw [show n = k by omega, hfirst, List.drop_left, ← List.append_assoc, List.take_append_drop]
  · have hlen : (out.drop frameStart ++ chunk).length = offset := by simp [hck]; omega
    rw [show n = k + (n - k) by omega, ← copy_add ho (by omega), hfirst, copy_append ho (by omega),
      List.drop_left, Nat.add_sub_cancel_left, ← copy_append ho (by omega), ← List.append_assoc,
      List.take_append_drop]

theorem appendMatchFromDictionaryHistory_yields {alloc : Allocator} {r : Region} {b dictionary : Bytes}
    (h : r.Holds b) {frameStart offset n : Nat} (ho : 0 < offset) (hfs : frameStart ≤ b.length)
    (hle : offset ≤ dictionary.length + (b.length - frameStart)) :
    r.Yields (copyWithDictionary b frameStart dictionary offset n)
      (appendMatchFromDictionaryHistory alloc r frameStart dictionary offset n) := by
  unfold appendMatchFromDictionaryHistory
  split
  · rename_i h0; subst h0
    have : copyWithDictionary b frameStart dictionary offset 0 = b := by
      simp [copyWithDictionary, copy]
    rw [this]; exact .of_holds h
  rename_i hn
  simp only [h.2]
  split
  · rename_i hdict
    have hsub : dictionary.length - (dictionary.length + (b.length - frameStart) - offset) =
        offset - (b.length - frameStart) := by omega
    have hsplit := copyWithDictionary_split (n := n) (by omega) hle rfl
    simp only at hsplit
    rw [hsub, hsplit]
    generalize hk : min (offset - (b.length - frameStart)) n = k at hsplit ⊢
    have hap := Region.append_yields alloc h
      ((dictionary.drop (dictionary.length + (b.length - frameStart) - offset)).take k)
    have hlc : ((dictionary.drop (dictionary.length + (b.length - frameStart) - offset)).take k).length = k := by
      simp; omega
    split
    · rename_i hm
      refine hap.bind (le_refl _) fun r' hr' => ?_
      rw [if_neg (by simpa using hm)]
      exact .of_holds hr'
    · rename_i hm
      have hoff : (b ++ (dictionary.drop (dictionary.length + (b.length - frameStart) - offset)).take k).length -
          frameStart = offset := by rw [List.length_append, hlc]; omega
      refine hap.bind ?_ fun r' hr' => ?_
      · rw [length_copy ho (by omega)]; omega
      · have := appendMatchFromHistory_yields alloc hr' (n := n - k) ho (by omega)
        rwa [show (b ++ (dictionary.drop (dictionary.length + (b.length - frameStart) - offset)).take k).length -
          offset = frameStart by rw [List.length_append, hlc]; omega] at this
  · rename_i hdict
    rw [copyWithDictionary_of_le ho (by omega)]
    have hob : offset ≤ b.length := by omega
    have := appendMatchFromHistory_yields alloc h (n := n) ho hob
    rwa [show b.length - offset = frameStart + (dictionary.length + (b.length - frameStart) - offset -
      dictionary.length) by omega] at this

end Zstandard
