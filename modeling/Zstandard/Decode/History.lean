/-
What a decoded block depends on: of everything decoded before it, only the frame's own output, and of
that no more than a window once the frame has produced more than a window.

`HistoryRel` relates two outputs with different bytes in front of a common end. A sequence appends the
same bytes to both or fails on both (`placeSpec_eq`), so a block decoded onto one decodes onto the
other. Moving a frame to the start of an output and dropping history behind a frame are both instances.
-/
import Zstandard.Decode.Block
import Zstandard.Library.Follows

namespace Zstandard

open Simulation

/-! ## Two outputs with a common end -/

/-- Two outputs whose frames start at `fsA` and `fsB`: the frame's output is the same, or more than
a window of it is. -/
def HistoryRel (window fsA : Nat) (a : Bytes) (fsB : Nat) (b : Bytes) : Prop :=
  ∃ preA preB held : Bytes, a = preA ++ held ∧ b = preB ++ held ∧
    ((fsA = preA.length ∧ fsB = preB.length) ∨ (fsA ≤ preA.length ∧ fsB ≤ preB.length ∧ window < held.length))

theorem HistoryRel.symm {window fsA fsB : Nat} {a b : Bytes} (h : HistoryRel window fsA a fsB b) :
    HistoryRel window fsB b fsA a := by
  obtain ⟨preA, preB, held, ha, hb, h⟩ := h
  exact ⟨preB, preA, held, hb, ha, h.imp (fun h => ⟨h.2, h.1⟩) fun h => ⟨h.2.1, h.1, h.2.2⟩⟩

theorem HistoryRel.append {window fsA fsB : Nat} {a b : Bytes} (h : HistoryRel window fsA a fsB b) (x : Bytes) :
    HistoryRel window fsA (a ++ x) fsB (b ++ x) := by
  obtain ⟨preA, preB, held, rfl, rfl, h⟩ := h
  refine ⟨preA, preB, held ++ x, by simp, by simp, h.imp id fun h => ⟨h.1, h.2.1, ?_⟩⟩
  rw [List.length_append]; omega

/-- A frame that starts at the end of both outputs. -/
theorem HistoryRel.start (window : Nat) (a b : Bytes) : HistoryRel window a.length a b.length b :=
  ⟨a, b, [], by simp, by simp, .inl ⟨rfl, rfl⟩⟩

theorem HistoryRel.le {window fsA fsB : Nat} {a b : Bytes} (h : HistoryRel window fsA a fsB b) :
    fsA ≤ a.length ∧ fsB ≤ b.length := by
  obtain ⟨preA, preB, held, rfl, rfl, h⟩ := h
  simp only [List.length_append]
  omega

/-! ## One sequence -/

/-- The bytes a copy appends. -/
theorem Lz.copy_eq_append {pre held : Bytes} {offset : Nat} (ho : 0 < offset) (hle : offset ≤ held.length) (n : Nat) :
    Lz.copy (pre ++ held) offset n = pre ++ held ++ (Lz.copy held offset n).drop held.length := by
  obtain ⟨x, hx⟩ := Lz.copy_prefix ho hle n
  rw [Lz.copy_append ho hle, ← hx, List.drop_left, List.append_assoc]

theorem copyWithDictionary_eq_append {pre held dictionary : Bytes} {offset : Nat} (ho : 0 < offset)
    (hle : offset ≤ dictionary.length + held.length) (n : Nat) :
    copyWithDictionary (pre ++ held) pre.length dictionary offset n =
      pre ++ held ++ (Lz.copy (dictionary ++ held) offset n).drop (dictionary.length + held.length) := by
  have hle' : offset ≤ (dictionary ++ held).length := by simpa using hle
  obtain ⟨x, hx⟩ := Lz.copy_prefix ho hle' n
  unfold copyWithDictionary
  rw [List.take_left, List.drop_left, ← hx, List.append_assoc, List.drop_left, ← List.append_assoc dictionary,
    List.drop_append, List.append_assoc]
  simp

section Place

variable {c : ExecContext} {fsA fsB : Nat} {a b : Bytes}

/-- A match appends the same bytes to both outputs, or fails on both. -/
theorem matchSpec_eq (h : HistoryRel c.windowSize fsA a fsB b) {offset : Nat} (ho : 0 < offset) (n : Nat) :
    ∃ r : Result Bytes, matchSpec { c with frameStart := fsA } a offset n = (a ++ ·) <$> r ∧
      matchSpec { c with frameStart := fsB } b offset n = (b ++ ·) <$> r := by
  obtain ⟨preA, preB, held, rfl, rfl, h⟩ := h
  unfold matchSpec dictionaryMatchSpec
  simp only [List.length_append]
  by_cases hin : offset ≤ held.length ∧ offset ≤ c.windowSize
  · -- from the common end
    refine ⟨.ok ((Lz.copy held offset n).drop held.length), ?_, ?_⟩ <;>
      rw [if_pos (by omega), Lz.copy_eq_append ho hin.1, map_ok]
  rcases h with ⟨rfl, rfl⟩ | ⟨hA, hB, hw⟩
  · -- the frame's output is the same, and so is the dictionary behind it
    simp only [Nat.add_sub_cancel_left, if_neg hin]
    split
    · exact ⟨.error _, rfl, rfl⟩
    cases c.dictionary with
    | none => exact ⟨.error _, rfl, rfl⟩
    | some dict =>
      simp only
      split
      · exact ⟨.error _, rfl, rfl⟩
      split
      · exact ⟨.error _, rfl, rfl⟩
      · refine ⟨.ok ((Lz.copy (dict ++ held) offset n).drop (dict.length + held.length)), ?_, ?_⟩ <;>
          rw [copyWithDictionary_eq_append ho (by omega), map_ok]
  · -- both frames have outrun the window: the dictionary is out of reach of both
    have hoff : ¬ offset ≤ c.windowSize := fun hle => hin ⟨by omega, hle⟩
    simp only [hoff, and_false, if_false]
    split
    · exact ⟨.error _, rfl, rfl⟩
    cases c.dictionary with
    | none => exact ⟨.error _, rfl, rfl⟩
    | some dict =>
      have hA' : preA.length + held.length - fsA > c.windowSize := by omega
      have hB' : preB.length + held.length - fsB > c.windowSize := by omega
      simp only [if_pos hA', if_pos hB']
      exact ⟨.error _, rfl, rfl⟩

/-- One sequence appends the same bytes to both outputs, or fails on both. -/
theorem placeSpec_eq (h : HistoryRel c.windowSize fsA a fsB b) (ip ll : Nat) {offset : Nat} (ho : 0 < offset)
    (n : Nat) :
    ∃ r : Result Bytes, placeSpec { c with frameStart := fsA } a ip ll offset n = (a ++ ·) <$> r ∧
      placeSpec { c with frameStart := fsB } b ip ll offset n = (b ++ ·) <$> r := by
  obtain ⟨r, hA, hB⟩ := matchSpec_eq (h.append ((c.literals.asSlice.drop ip).take ll)) ho n
  refine ⟨(((c.literals.asSlice.drop ip).take ll) ++ ·) <$> r, ?_, ?_⟩
  · refine Eq.trans hA ?_
    cases r <;> simp
  · refine Eq.trans hB ?_
    cases r <;> simp

end Place

/-! ## One block -/

/-- Two executors that have appended the same bytes, the second with `d` more budget. -/
structure Alongside (a b : Bytes) (d : Nat) (s t : ExecState Bytes) : Prop where
  out : ∃ x, s.out = a ++ x ∧ t.out = b ++ x
  reps : s.reps = t.reps
  ip : s.ip = t.ip
  budget : s.budget + d = t.budget

section Loop

variable {c : ExecContext} {fsA fsB : Nat} {a b : Bytes} (h : HistoryRel c.windowSize fsA a fsB b)
  {boundsA boundsB : ExecBounds} (hlit : boundsA.literalsLen = boundsB.literalsLen) {d : Nat}

include h hlit

theorem executeSequence_follows {s t : ExecState Bytes} (hs : Alongside a b d s t) (seq : RawSequence) :
    Follows (Alongside a b d)
      (executeSequence List.length (placeSpec { c with frameStart := fsA }) boundsA s seq)
      (executeSequence List.length (placeSpec { c with frameStart := fsB }) boundsB t seq) := by
  obtain ⟨⟨x, hx, hx'⟩, hreps, hip, hbud⟩ := hs
  unfold executeSequence
  simp only [hreps, hip, hlit]
  split
  · split <;> exact .of_error _
  rename_i hle
  rw [if_neg (by omega), hx, hx']
  obtain ⟨r, hA, hB⟩ := placeSpec_eq (h.append x) t.ip seq.literalLength (t.reps.resolveDecode_pos seq.offsetValue _)
    seq.matchLength
  rw [hA, hB]
  cases r with
  | error e => exact .of_error _
  | ok y => exact .of_ok ⟨⟨x ++ y, by simp, by simp⟩, rfl, rfl, by simp only; omega⟩

theorem sequenceLoop_follows (tables : SequenceTablesState) :
    ∀ (n : Nat) (r : SequenceReader) {s t : ExecState Bytes}, Alongside a b d s t →
      Follows (fun s t => s.1 = t.1 ∧ Alongside a b d s.2 t.2)
        (sequenceLoop (specSink { c with frameStart := fsA }) boundsA tables n r s)
        (sequenceLoop (specSink { c with frameStart := fsB }) boundsB tables n r t)
  | 0, _, _, _, hs => .of_ok ⟨rfl, hs⟩
  | n + 1, r, s, t, hs => by
    unfold sequenceLoop
    cases decodeSequence r with | mk seq r0 => ?_
    refine .bind_same fun r1 _ => (executeSequence_follows h hlit hs seq).bind fun s1 t1 _ hs1 => ?_
    simp only
    split
    · exact .of_error _
    · exact sequenceLoop_follows tables n _ hs1

theorem runSequences_follows (tables : SequenceTablesState) (section_ : ParsedSequenceSection)
    (reps : DecoderRepeatOffsets) (hd : boundsA.budget + d = boundsB.budget) :
    Follows (Alongside a b d)
      (runSequences (specSink { c with frameStart := fsA }) boundsA tables section_ a reps)
      (runSequences (specSink { c with frameStart := fsB }) boundsB tables section_ b reps) := by
  unfold runSequences
  refine .bind_same fun r _ => ?_
  have hs : Alongside a b d { out := a, reps, ip := 0, budget := boundsA.budget }
      { out := b, reps, ip := 0, budget := boundsB.budget } := ⟨⟨[], by simp, by simp⟩, rfl, rfl, hd⟩
  refine (sequenceLoop_follows h hlit tables _ r hs).bind ?_
  rintro ⟨r1, s1⟩ ⟨r2, t1⟩ _ ⟨hr, hs1⟩
  simp only at hr hs1
  subst hr
  simp only
  cases decodeSequence r1 with | mk seq r0 => ?_
  refine (executeSequence_follows h hlit hs1 seq).bind fun s2 t2 _ hs2 => ?_
  simp only
  split
  · exact .of_error _
  · exact .of_ok hs2

end Loop

/-- The second cap allows whatever the first allows, for outputs of the lengths `m` and `n`. -/
def LimitLe (limitA : OutputLimit) (m : Nat) (limitB : OutputLimit) (n : Nat) : Prop :=
  limitA.maxOutputSize = limitB.maxOutputSize ∧ limitB.produced n ≤ limitA.produced m

theorem LimitLe.add {limitA limitB : OutputLimit} {m n : Nat} (h : LimitLe limitA m limitB n) (k : Nat) :
    LimitLe limitA (m + k) limitB (n + k) := by
  obtain ⟨h1, h2⟩ := h
  refine ⟨h1, ?_⟩
  unfold OutputLimit.produced at *
  omega

theorem LimitLe.remaining {limitA limitB : OutputLimit} {m n : Nat} (h : LimitLe limitA m limitB n) :
    Follows (· ≤ ·) (limitA.remaining m) (limitB.remaining n) := by
  obtain ⟨h1, h2⟩ := h
  unfold OutputLimit.remaining
  rw [h1]
  cases limitB.maxOutputSize with
  | none => exact .of_ok (le_refl _)
  | some max =>
    simp only
    split
    · rw [if_pos (by omega)]
      exact .of_ok (by omega)
    · exact .of_error _

theorem LimitLe.checkTotal {limitA limitB : OutputLimit} {m n : Nat} (h : LimitLe limitA m limitB n) :
    Follows (fun _ _ => True) (limitA.checkTotal m) (limitB.checkTotal n) := by
  obtain ⟨h1, h2⟩ := h
  unfold OutputLimit.checkTotal
  rw [h1]
  cases limitB.maxOutputSize with
  | none => exact .of_ok trivial
  | some max =>
    simp only
    split
    · exact .of_error _
    · rw [if_neg (by omega)]
      exact .of_ok trivial

/-- Two outputs extended by the same bytes. -/
def Extends (a b a' b' : Bytes) : Prop := ∃ x, a' = a ++ x ∧ b' = b ++ x

theorem appendTrailingSpec_follows {a b s t : Bytes} (hst : Extends a b s t) {literals : Bytes}
    {cursor blockBytes outputA outputB : Nat} {limitA limitB : OutputLimit} (hle : outputA ≤ outputB) :
    Follows (Extends a b) (appendTrailingSpec s literals cursor blockBytes outputA limitA)
      (appendTrailingSpec t literals cursor blockBytes outputB limitB) := by
  obtain ⟨x, rfl, rfl⟩ := hst
  unfold appendTrailingSpec
  split
  · exact .of_error _
  have hroom : Follows (fun _ _ => True)
      (ensureDecodeOutputRoom (a ++ x).length (literals.drop cursor).length blockBytes outputA limitA)
      (ensureDecodeOutputRoom (b ++ x).length (literals.drop cursor).length blockBytes outputB limitB) := by
    unfold ensureDecodeOutputRoom
    split
    · exact .of_error _
    split
    · exact .of_error _
    · rw [if_neg (by omega)]
      exact .of_ok trivial
  exact hroom.bind fun _ _ _ _ => .of_ok ⟨x ++ literals.drop cursor, by simp, by simp⟩

section Block

variable {window fsA fsB : Nat} {a b : Bytes} (h : HistoryRel window fsA a fsB b) {limitA limitB : OutputLimit}
  (hlimit : LimitLe limitA a.length limitB b.length)

include h hlimit

theorem executeSequencesSpec_follows {c : ExecContext} (hw : c.windowSize = window) (section_ : ParsedSequenceSection)
    (tables : SequenceTablesState) (blockSizeMax : Nat) (reps : DecoderRepeatOffsets) :
    Follows (fun x y => Extends a b x.out y.out ∧ x.tables = y.tables ∧ x.reps = y.reps)
      (executeSequencesSpec section_ tables a { c with frameStart := fsA } blockSizeMax reps limitA)
      (executeSequencesSpec section_ tables b { c with frameStart := fsB } blockSizeMax reps limitB) := by
  subst hw
  unfold executeSequencesSpec
  split
  · refine hlimit.remaining.bind fun m n _ hmn => ?_
    refine (appendTrailingSpec_follows (a := a) (b := b) ⟨[], by simp, by simp⟩ hmn).bind fun s t _ hst => ?_
    exact .of_ok ⟨hst, rfl, rfl⟩
  refine .bind_same fun tables' _ => hlimit.remaining.bind fun m n _ hmn => ?_
  let boundsA : ExecBounds :=
    { literalsLen := c.literals.len, blockRemaining := blockSizeMax, outputRemaining := m, limit := limitA }
  let boundsB : ExecBounds :=
    { literalsLen := c.literals.len, blockRemaining := blockSizeMax, outputRemaining := n, limit := limitB }
  obtain ⟨d, hd⟩ : ∃ d, boundsA.budget + d = boundsB.budget :=
    ⟨boundsB.budget - boundsA.budget, by simp only [ExecBounds.budget, boundsA, boundsB]; omega⟩
  have hlit : boundsA.literalsLen = boundsB.literalsLen := rfl
  refine (runSequences_follows h hlit tables' section_ reps hd).bind
    fun s t _ hs => ?_
  have hconsumed : boundsA.budget - s.budget = boundsB.budget - t.budget := by
    have := hs.budget; omega
  simp only
  rw [hs.ip, hs.reps, hconsumed]
  refine (appendTrailingSpec_follows hs.out (Nat.sub_le_sub_right hmn _)).bind fun s' t' _ hst => ?_
  exact .of_ok ⟨hst, rfl, rfl⟩

/-- One compressed block: decoded onto the first output, it decodes onto the second. -/
theorem decodeCompressedBlockInto_follows {p : FrameParams} (hw : p.windowSize = window) (src : Bytes)
    (st : EntropyState) :
    Follows (fun x y => Extends a b x.1 y.1 ∧ x.2 = y.2)
      (decodeCompressedBlockInto bytesOutput src { p with frameStart := fsA } st a limitA)
      (decodeCompressedBlockInto bytesOutput src { p with frameStart := fsB } st b limitB) := by
  unfold decodeCompressedBlockInto
  refine .bind_same fun ⟨n, literals, ls⟩ _ => ?_
  simp only
  split
  · exact .of_error _
  refine .bind_same fun section_ _ => .bind_same fun ⟨parsed, tables⟩ _ => ?_
  split
  · exact .of_error _
  refine (executeSequencesSpec_follows h hlimit
    (c := { frameStart := fsA, windowSize := p.windowSize, dictionary := p.dictionary, literals }) hw parsed tables
    p.blockSizeMax st.reps).bind fun x y _ hxy => ?_
  exact .of_ok ⟨hxy.1, by rw [hxy.2.1, hxy.2.2]⟩

omit h in
theorem appendBytes_follows (bytes : Bytes) :
    Follows (Extends a b) (appendBytes bytesOutput a bytes limitA) (appendBytes bytesOutput b bytes limitB) :=
  (hlimit.add bytes.length).checkTotal.bind fun _ _ _ _ => .of_ok ⟨bytes, rfl, rfl⟩

omit h in
theorem appendRepeated_follows (byte : UInt8) (count : Nat) :
    Follows (Extends a b) (appendRepeated bytesOutput a byte count limitA)
      (appendRepeated bytesOutput b byte count limitB) :=
  (hlimit.add count).checkTotal.bind fun _ _ _ _ => .of_ok ⟨List.replicate count byte, rfl, rfl⟩

/-- One block of any type. -/
theorem decodeBlock_follows {p : FrameParams} (hw : p.windowSize = window) (header : BlockHeader) (payload : Bytes)
    (st : EntropyState) :
    Follows (fun x y => Extends a b x.1 y.1 ∧ x.2 = y.2)
      (decodeBlock bytesOutput header payload { p with frameStart := fsA } st a limitA)
      (decodeBlock bytesOutput header payload { p with frameStart := fsB } st b limitB) := by
  unfold decodeBlock
  cases header.blockType with
  | raw =>
    simp only
    split
    · exact .of_error _
    · exact (appendBytes_follows hlimit payload).bind fun _ _ _ hab => .of_ok ⟨hab, rfl⟩
  | rle =>
    simp only
    split
    · exact .of_error _
    · exact .bind_same fun byte _ => (appendRepeated_follows hlimit byte _).bind fun _ _ _ hab => .of_ok ⟨hab, rfl⟩
  | compressed => exact decodeCompressedBlockInto_follows h hlimit hw payload st

/-- Under caps that leave the same room, a block appends the same to both outputs. -/
theorem decodeBlock_same {p : FrameParams} (hw : p.windowSize = window)
    (hback : LimitLe limitB b.length limitA a.length)
    {header : BlockHeader} {payload x : Bytes} {st st' : EntropyState} :
    decodeBlock bytesOutput header payload { p with frameStart := fsA } st a limitA = .ok (a ++ x, st') ↔
      decodeBlock bytesOutput header payload { p with frameStart := fsB } st b limitB = .ok (b ++ x, st') := by
  have hto := decodeBlock_follows h hlimit hw header payload st
  have hfrom := decodeBlock_follows h.symm hback hw header payload st
  constructor
  · intro hd
    obtain ⟨⟨b', st''⟩, hb, ⟨y, hy, hy'⟩, rfl⟩ := hto _ hd
    obtain rfl := List.append_cancel_left hy
    rw [hb]
    exact congrArg _ (Prod.ext hy' rfl)
  · intro hd
    obtain ⟨⟨a', st''⟩, ha, ⟨y, hy, hy'⟩, rfl⟩ := hfrom _ hd
    obtain rfl := List.append_cancel_left hy
    rw [ha]
    exact congrArg _ (Prod.ext hy' rfl)

end Block

end Zstandard
