/-
The profiled block path against the fused one: when decoding the sequences of a block into a list and
executing the list gives what decoding and executing them together gives.

Which blocks each path accepts is a matter of lengths and offsets only (`BlockFits`, `Along`), and the
bytes are the same whenever both accept. The paths differ in two places: the list decoder runs out of
its container where a sequence spills, and the two treat the offset 2^32 - 1, which the fused decoder
keeps for an invalid repeat, differently.
-/
import Zstandard.Decode.Refill
import Zstandard.Decode.Slice
import Zstandard.Entropy.Normalized

namespace Zstandard

open Fse BitStack Simulation Bounded

/-! ## What a block's sequences need -/

namespace ExecContext

/-- An offset that reaches into the frame's own output, `produced` bytes so far. -/
def InWindow (c : ExecContext) (produced offset : Nat) : Prop := offset ≤ produced ∧ offset ≤ c.windowSize

/-- An offset that reaches into the dictionary, where that is still in reach. -/
def InDictionary (c : ExecContext) (produced offset : Nat) : Prop :=
  ∃ dictionary ∈ c.dictionary, produced ≤ c.windowSize ∧ offset ≤ dictionary.length + produced

end ExecContext

namespace DecoderRepeatOffsets

/-- The offset a sequence finds, and the repeat offsets behind it. -/
abbrev find (reps : DecoderRepeatOffsets) (seq : RawSequence) : Nat × DecoderRepeatOffsets :=
  reps.resolveDecode seq.offsetValue seq.literalLength

/-- The offset value names an offset: it is no "repeat offset 1 minus 1" of a repeat offset of one. -/
def Resolves (reps : DecoderRepeatOffsets) (seq : RawSequence) : Prop :=
  ∃ x, reps.toRepeatOffsets.resolveValues seq.literalLength seq.offsetValue = .ok x

end DecoderRepeatOffsets

open DecoderRepeatOffsets (offsetSentinel)

/-- What the fused decoder lets a sequence reach. -/
def FusedReaches (c : ExecContext) (produced : Nat) (reps : DecoderRepeatOffsets) (seq : RawSequence) : Prop :=
  c.InWindow produced (reps.find seq).1 ∨
    ((reps.find seq).1 ≠ offsetSentinel ∧ c.InDictionary produced (reps.find seq).1)

/-- What the list executor lets a sequence reach. -/
def ListReaches (c : ExecContext) (produced : Nat) (reps : DecoderRepeatOffsets) (seq : RawSequence) : Prop :=
  reps.Resolves seq ∧ (c.InWindow produced (reps.find seq).1 ∨ c.InDictionary produced (reps.find seq).1)

/-- The two decoders see the same offset: it resolves, and where it happens to be the sentinel it is
an offset into the output. -/
def SeenAlike (c : ExecContext) (produced : Nat) (reps : DecoderRepeatOffsets) (seq : RawSequence) : Prop :=
  reps.Resolves seq ∧ ((reps.find seq).1 = offsetSentinel → c.InWindow produced (reps.find seq).1)

/-- Every sequence of a block has the property, of what is produced of the frame behind its literals
and of the repeat offsets before it. -/
def Along (P : Nat → DecoderRepeatOffsets → RawSequence → Prop) (c : ExecContext) :
    List RawSequence → Nat → DecoderRepeatOffsets → Prop
  | [], _, _ => True
  | seq :: seqs, len, reps =>
    P (len + seq.literalLength - c.frameStart) reps seq ∧
      Along P c seqs (len + (seq.literalLength + seq.matchLength)) (reps.find seq).2

theorem Along.imp {P Q R : Nat → DecoderRepeatOffsets → RawSequence → Prop} {c : ExecContext}
    (h : ∀ n reps seq, P n reps seq → Q n reps seq → R n reps seq) :
    ∀ {seqs : List RawSequence} {len : Nat} {reps : DecoderRepeatOffsets},
      Along P c seqs len reps → Along Q c seqs len reps → Along R c seqs len reps
  | [], _, _, _, _ => trivial
  | _ :: _, _, _, hp, hq => ⟨h _ _ _ hp.1 hq.1, Along.imp h hp.2 hq.2⟩

/-- The literals and matches of a block stay within its limits. -/
structure BlockFits (c : ExecContext) (blockSizeMax : Nat) (maxOutputSize room : Option Nat) (len : Nat)
    (seqs : List RawSequence) : Prop where
  literals : (seqs.map RawSequence.literalLength).sum ≤ c.literals.len
  blockSize : c.literals.len + matchBytes seqs ≤ blockSizeMax
  outputSize : ∀ m ∈ maxOutputSize, len + (c.literals.len + matchBytes seqs) ≤ m
  room : ∀ cap ∈ room, len + (c.literals.len + matchBytes seqs) ≤ cap

/-- The places of a section's sequences, the last apart. -/
def ParsedSequenceSection.denotes (section_ : ParsedSequenceSection) (tables : SequenceTablesState) :
    Result (List SequencePlace × Option SequencePlace) :=
  if section_.numberOfSequences = 0 then .ok ([], none) else do
    let tables ← setupTables tables
    let (places, last) ← section_.places tables
    .ok (places, some last)

/-- The sequences at those places. -/
def ParsedSequenceSection.sequences (section_ : ParsedSequenceSection)
    (x : List SequencePlace × Option SequencePlace) : List RawSequence :=
  (x.1 ++ x.2.toList).map (·.sequence (readLe section_.bitstream))

/-! ## What a block's sequences produce -/

/-- The match of a sequence, from wherever its offset reaches. -/
def matchResult (c : ExecContext) (out : Bytes) (offset matchLength : Nat) : Bytes :=
  if offset ≤ out.length - c.frameStart ∧ offset ≤ c.windowSize then Lz.copy out offset matchLength
  else copyWithDictionary out c.frameStart (c.dictionary.getD []) offset matchLength

/-- The state behind a sequence. -/
def stepResult (c : ExecContext) (t : ExecState Bytes) (seq : RawSequence) : ExecState Bytes :=
  { out := matchResult c (t.out ++ (c.literals.asSlice.drop t.ip).take seq.literalLength) (t.reps.find seq).1
      seq.matchLength
    reps := (t.reps.find seq).2, ip := t.ip + seq.literalLength
    budget := t.budget - (seq.literalLength + seq.matchLength) }

/-- A section's literals and matches. -/
def totalBytes (seqs : List RawSequence) : Nat := (seqs.map fun seq => seq.literalLength + seq.matchLength).sum

theorem totalBytes_eq (seqs : List RawSequence) :
    totalBytes seqs = (seqs.map RawSequence.literalLength).sum + matchBytes seqs := by
  unfold totalBytes matchBytes
  induction seqs with
  | nil => rfl
  | cons seq seqs ih =>
    simp only [List.map_cons, List.sum_cons]
    omega

section
variable {c : ExecContext}

theorem length_matchResult {out : Bytes} {offset n : Nat} (ho : 0 < offset) (hfs : c.frameStart ≤ out.length)
    (h : c.InWindow (out.length - c.frameStart) offset ∨ c.InDictionary (out.length - c.frameStart) offset) :
    (matchResult c out offset n).length = out.length + n := by
  unfold matchResult
  split
  · exact Lz.length_copy ho (by omega) n
  · rename_i hno
    obtain ⟨dictionary, hd, -, hle⟩ := h.resolve_left hno
    rw [Option.mem_def.1 hd]
    exact length_copyWithDictionary ho hle hfs n

/-- The fused decoder's placement, as a condition and a result. -/
theorem placeSpec_iff {out b : Bytes} {ip ll offset n : Nat} (hip : ip + ll ≤ c.literals.len) :
    placeSpec c out ip ll offset n = .ok b ↔
      (c.InWindow (out.length + ll - c.frameStart) offset ∨
        (offset ≠ offsetSentinel ∧ c.InDictionary (out.length + ll - c.frameStart) offset)) ∧
      b = matchResult c (out ++ (c.literals.asSlice.drop ip).take ll) offset n := by
  have hlen : (out ++ (c.literals.asSlice.drop ip).take ll).length = out.length + ll := by
    rw [List.length_append, length_literals hip]
  unfold placeSpec matchResult
  simp only [hlen]
  by_cases hin : offset ≤ out.length + ll - c.frameStart ∧ offset ≤ c.windowSize
  · rw [if_pos hin, if_pos hin]
    constructor
    · intro h
      cases h
      exact ⟨.inl hin, rfl⟩
    · rintro ⟨-, rfl⟩
      rfl
  rw [if_neg hin, if_neg hin]
  unfold dictionaryMatchSpec ExecContext.InDictionary ExecContext.InWindow
  simp only [hlen]
  by_cases hs : offset = offsetSentinel
  · rw [if_pos hs]
    constructor
    · intro h
      cases h
    · rintro ⟨h | h, -⟩
      · exact absurd h hin
      · exact absurd hs h.1
  rw [if_neg hs]
  cases c.dictionary with
  | none =>
    constructor
    · intro h
      cases h
    · rintro ⟨h | ⟨-, d, hd, -⟩, -⟩
      · exact absurd h hin
      · cases hd
  | some dictionary =>
    simp only [Option.mem_some_iff, Option.getD_some, exists_eq_left']
    by_cases h1 : out.length + ll - c.frameStart > c.windowSize
    · rw [if_pos h1]
      constructor
      · intro h
        cases h
      · rintro ⟨h | ⟨-, h, -⟩, -⟩
        · exact absurd h hin
        · omega
    rw [if_neg h1]
    by_cases h2 : offset > dictionary.length + (out.length + ll - c.frameStart)
    · rw [if_pos h2]
      constructor
      · intro h
        cases h
      · rintro ⟨h | ⟨-, -, h⟩, -⟩
        · exact absurd h hin
        · omega
    rw [if_neg h2]
    constructor
    · intro h
      cases h
      exact ⟨.inr ⟨hs, by omega, by omega⟩, rfl⟩
    · rintro ⟨-, rfl⟩
      rfl

theorem length_stepResult {t : ExecState Bytes} {seq : RawSequence} (hfs : c.frameStart ≤ t.out.length)
    (hip : t.ip + seq.literalLength ≤ c.literals.len)
    (h : c.InWindow (t.out.length + seq.literalLength - c.frameStart) (t.reps.find seq).1 ∨
      c.InDictionary (t.out.length + seq.literalLength - c.frameStart) (t.reps.find seq).1) :
    (stepResult c t seq).out.length = t.out.length + (seq.literalLength + seq.matchLength) := by
  have hlen : (t.out ++ (c.literals.asSlice.drop t.ip).take seq.literalLength).length =
      t.out.length + seq.literalLength := by
    rw [List.length_append, length_literals hip]
  unfold stepResult
  simp only
  rw [length_matchResult (t.reps.resolveDecode_pos _ _) (by rw [hlen]; omega) (by rw [hlen]; exact h), hlen]
  omega

theorem executeSequence_iff {b : ExecBounds} (hb : b.literalsLen = c.literals.len) {t t' : ExecState Bytes}
    {seq : RawSequence} :
    executeSequence List.length (placeSpec c) b t seq = .ok t' ↔
      (seq.literalLength + seq.matchLength ≤ t.budget ∧ t.ip + seq.literalLength ≤ c.literals.len) ∧
        FusedReaches c (t.out.length + seq.literalLength - c.frameStart) t.reps seq ∧ t' = stepResult c t seq := by
  unfold executeSequence
  simp only [hb]
  by_cases hlim : seq.literalLength + seq.matchLength > t.budget ∨ t.ip + seq.literalLength > c.literals.len
  · rw [if_pos hlim]
    constructor
    · intro h
      split at h <;> cases h
    · rintro ⟨⟨h1, h2⟩, -⟩
      omega
  rw [if_neg hlim]
  have hstep := fun out => @placeSpec_iff c t.out out t.ip seq.literalLength (t.reps.find seq).1 seq.matchLength
    (by omega)
  constructor
  · intro h
    obtain ⟨out, h1, h⟩ := bind_ok h
    cases h
    obtain ⟨h2, rfl⟩ := (hstep out).1 h1
    exact ⟨⟨by omega, by omega⟩, h2, rfl⟩
  · rintro ⟨-, h2, rfl⟩
    rw [(hstep _).2 ⟨h2, rfl⟩]
    rfl

/-- The fused decoder executes a list of sequences exactly when they stay within its budget and the
literals, and each reaches. -/
theorem foldlM_executeSequence_iff {b : ExecBounds} (hb : b.literalsLen = c.literals.len) :
    ∀ (seqs : List RawSequence) (t t' : ExecState Bytes), c.frameStart ≤ t.out.length → t.ip ≤ c.literals.len →
      (seqs.foldlM (executeSequence List.length (placeSpec c) b) t = .ok t' ↔
        totalBytes seqs ≤ t.budget ∧ t.ip + (seqs.map RawSequence.literalLength).sum ≤ c.literals.len ∧
          Along (FusedReaches c) c seqs t.out.length t.reps ∧ t' = seqs.foldl (stepResult c) t)
  | [], t, t', _, hip => by
    constructor
    · intro h
      cases h
      exact ⟨Nat.zero_le _, by simpa using hip, trivial, rfl⟩
    · rintro ⟨-, -, -, rfl⟩
      rfl
  | seq :: seqs, t, t', hfs, hip => by
    have htotal : totalBytes (seq :: seqs) = seq.literalLength + seq.matchLength + totalBytes seqs := rfl
    have hlen := @length_stepResult c t seq hfs
    have hrec := fun h1 h2 => foldlM_executeSequence_iff hb seqs (stepResult c t seq) t' h1 h2
    have hip' : (stepResult c t seq).ip = t.ip + seq.literalLength := rfl
    have hbud : (stepResult c t seq).budget = t.budget - (seq.literalLength + seq.matchLength) := rfl
    rw [List.foldlM_cons, List.foldl_cons, List.map_cons, List.sum_cons, htotal]
    constructor
    · intro h
      obtain ⟨t1, h1, h⟩ := bind_ok h
      obtain ⟨⟨h2, h3⟩, h4, rfl⟩ := (executeSequence_iff hb).1 h1
      have hout := hlen h3 (h4.imp_right And.right)
      obtain ⟨h5, h6, h7, h8⟩ := (hrec (by omega) (by omega)).1 h
      rw [hout] at h7
      exact ⟨by omega, by omega, ⟨h4, h7⟩, h8⟩
    · rintro ⟨h1, h2, ⟨h3, h4⟩, h5⟩
      have hout := hlen (by omega) (h3.imp_right And.right)
      rw [(executeSequence_iff hb).2 ⟨⟨by omega, by omega⟩, h3, rfl⟩]
      refine (hrec (by omega) (by omega)).2 ⟨by omega, by omega, ?_, h5⟩
      rw [hout]
      exact h4

/-- What the budget was does not show in the result. -/
theorem foldl_stepResult_same : ∀ (seqs : List RawSequence) (t t' : ExecState Bytes), t.out = t'.out →
    t.reps = t'.reps →
    t.ip = t'.ip → (seqs.foldl (stepResult c) t).out = (seqs.foldl (stepResult c) t').out ∧
      (seqs.foldl (stepResult c) t).reps = (seqs.foldl (stepResult c) t').reps ∧
      (seqs.foldl (stepResult c) t).ip = (seqs.foldl (stepResult c) t').ip
  | [], _, _, h1, h2, h3 => ⟨h1, h2, h3⟩
  | seq :: seqs, t, t', h1, h2, h3 => by
    rw [List.foldl_cons, List.foldl_cons]
    refine foldl_stepResult_same seqs _ _ ?_ ?_ ?_ <;> simp only [stepResult, h1, h2, h3]

theorem foldl_stepResult_counts : ∀ (seqs : List RawSequence) (t : ExecState Bytes),
    (seqs.foldl (stepResult c) t).budget = t.budget - totalBytes seqs ∧
      (seqs.foldl (stepResult c) t).ip = t.ip + (seqs.map RawSequence.literalLength).sum
  | [], t => ⟨rfl, rfl⟩
  | seq :: seqs, t => by
    obtain ⟨h1, h2⟩ := foldl_stepResult_counts seqs (stepResult c t seq)
    have htotal : totalBytes (seq :: seqs) = seq.literalLength + seq.matchLength + totalBytes seqs := rfl
    rw [List.foldl_cons, h1, h2, List.map_cons, List.sum_cons, htotal]
    simp only [stepResult]
    omega

end

section
variable {c : ExecContext}

/-- Sequences that reach produce their literals and their matches. -/
theorem length_foldl_stepResult {P : Nat → DecoderRepeatOffsets → RawSequence → Prop}
    (hP : ∀ n reps seq, P n reps seq → c.InWindow n (reps.find seq).1 ∨ c.InDictionary n (reps.find seq).1) :
    ∀ (seqs : List RawSequence) (t : ExecState Bytes), c.frameStart ≤ t.out.length →
      t.ip + (seqs.map RawSequence.literalLength).sum ≤ c.literals.len → Along P c seqs t.out.length t.reps →
      (seqs.foldl (stepResult c) t).out.length = t.out.length + totalBytes seqs
  | [], t, _, _, _ => rfl
  | seq :: seqs, t, hfs, hip, h => by
    have htotal : totalBytes (seq :: seqs) = seq.literalLength + seq.matchLength + totalBytes seqs := rfl
    rw [List.map_cons, List.sum_cons] at hip
    have hlen := @length_stepResult c t seq hfs (by omega) (hP _ _ _ h.1)
    have hrest := length_foldl_stepResult hP seqs (stepResult c t seq) (by omega)
      (by simp only [stepResult]; omega) (by rw [hlen]; exact h.2)
    rw [List.foldl_cons, hrest, hlen, htotal]
    omega

end

/-- The bytes and the repeat offsets that a block's sequences and literals leave. -/
def blockResult (c : ExecContext) (out : Bytes) (reps : DecoderRepeatOffsets) (seqs : List RawSequence) :
    Bytes × RepeatOffsets :=
  let t := seqs.foldl (stepResult c) { out, reps, ip := 0, budget := 0 }
  (t.out ++ c.literals.asSlice.drop t.ip, t.reps.toRepeatOffsets)

theorem ensureDecodeOutputRoom_iff {outLen additional blockBytes outputBytes : Nat} {limit : OutputLimit} :
    ensureDecodeOutputRoom outLen additional blockBytes outputBytes limit = .ok () ↔
      additional ≤ blockBytes ∧ additional ≤ outputBytes := by
  unfold ensureDecodeOutputRoom
  split
  · constructor
    · intro h
      cases h
    · rintro ⟨h, -⟩
      omega
  split
  · constructor
    · intro h
      cases h
    · rintro ⟨-, h⟩
      omega
  · exact ⟨fun _ => ⟨by omega, by omega⟩, fun _ => rfl⟩

theorem appendTrailingSpec_iff {b b' literals : Bytes} {cursor blockBytes outputBytes : Nat} {limit : OutputLimit} :
    appendTrailingSpec b literals cursor blockBytes outputBytes limit = .ok b' ↔
      (cursor ≤ literals.length ∧ literals.length - cursor ≤ blockBytes ∧ literals.length - cursor ≤ outputBytes) ∧
        b' = b ++ literals.drop cursor := by
  unfold appendTrailingSpec
  split
  · constructor
    · intro h
      cases h
    · rintro ⟨⟨h, -⟩, -⟩
      omega
  rename_i hle
  simp only [List.length_drop]
  constructor
  · intro h
    obtain ⟨_, h1, h⟩ := bind_ok h
    cases h
    obtain ⟨h2, h3⟩ := ensureDecodeOutputRoom_iff.1 h1
    exact ⟨⟨by omega, h2, h3⟩, rfl⟩
  · rintro ⟨⟨-, h2, h3⟩, rfl⟩
    rw [ensureDecodeOutputRoom_iff.2 ⟨h2, h3⟩]
    rfl

/-- What a cap on the whole output still allows, where some limit on the block is smaller than any
`usize`. -/
theorem remaining_wholeOutput (maxOutputSize : Option Nat) (len : Nat) :
    (∃ m, maxOutputSize = some m ∧ m < len ∧ ∃ e, (OutputLimit.wholeOutput maxOutputSize).remaining len = .error e) ∨
      ∃ remaining, (OutputLimit.wholeOutput maxOutputSize).remaining len = .ok remaining ∧
        ∀ n ≤ usizeMax, n ≤ remaining ↔ ∀ m ∈ maxOutputSize, len + n ≤ m := by
  unfold OutputLimit.wholeOutput OutputLimit.remaining OutputLimit.produced
  cases maxOutputSize with
  | none => exact .inr ⟨usizeMax, rfl, fun n hn => ⟨fun _ _ h => (nomatch h), fun _ => hn⟩⟩
  | some m =>
    simp only [Nat.zero_add]
    by_cases hle : len ≤ m
    · rw [if_pos hle]
      refine .inr ⟨m - len, rfl, fun n _ => ?_⟩
      simp only [Option.mem_some_iff, forall_eq']
      omega
    · rw [if_neg hle]
      exact .inl ⟨m, rfl, by omega, _, rfl⟩

section
variable {section_ : ParsedSequenceSection} {tables : SequenceTablesState} {c : ExecContext} {out : Bytes}
  {blockSizeMax : Nat} {reps : DecoderRepeatOffsets} {maxOutputSize : Option Nat}

theorem blockFits_iff (hmax : blockSizeMax ≤ usizeMax) {len remaining : Nat} {seqs : List RawSequence}
    (hle : ∀ n ≤ usizeMax, n ≤ remaining ↔ ∀ m ∈ maxOutputSize, len + n ≤ m) :
    BlockFits c blockSizeMax maxOutputSize none len seqs ↔
      (seqs.map RawSequence.literalLength).sum ≤ c.literals.len ∧ c.literals.len + matchBytes seqs ≤ blockSizeMax ∧
        c.literals.len + matchBytes seqs ≤ remaining := by
  constructor
  · intro h
    have h2 := h.blockSize
    exact ⟨h.literals, h2, (hle _ (by omega)).2 h.outputSize⟩
  · rintro ⟨h1, h2, h3⟩
    exact ⟨h1, h2, (hle _ (by omega)).1 h3, fun _ h => (nomatch h)⟩

/-- The sequences of a block and its trailing literals, executed on lists. -/
def executeAll (c : ExecContext) (blockSizeMax remaining : Nat) (limit : OutputLimit) (out : Bytes)
    (reps : DecoderRepeatOffsets) (seqs : List RawSequence) : Result (Bytes × RepeatOffsets) := do
  let b : ExecBounds :=
    { literalsLen := c.literals.len, blockRemaining := blockSizeMax, outputRemaining := remaining, limit }
  let t ← seqs.foldlM (executeSequence List.length (placeSpec c) b) { out, reps, ip := 0, budget := b.budget }
  let consumed := b.budget - t.budget
  let out ← appendTrailingSpec t.out c.literals.asSlice t.ip (blockSizeMax - consumed) (remaining - consumed) limit
  .ok (out, t.reps.toRepeatOffsets)

theorem executeAll_iff (hfs : c.frameStart ≤ out.length) (hmax : blockSizeMax ≤ usizeMax) {remaining : Nat}
    {limit : OutputLimit} {seqs : List RawSequence}
    (hle : ∀ n ≤ usizeMax, n ≤ remaining ↔ ∀ m ∈ maxOutputSize, out.length + n ≤ m) (x : Bytes × RepeatOffsets) :
    executeAll c blockSizeMax remaining limit out reps seqs = .ok x ↔
      BlockFits c blockSizeMax maxOutputSize none out.length seqs ∧ Along (FusedReaches c) c seqs out.length reps ∧
        x = blockResult c out reps seqs := by
  have hlits := c.literals.asSlice_length
  have htotal := totalBytes_eq seqs
  rw [blockFits_iff hmax hle]
  unfold executeAll blockResult
  simp only
  generalize hb : ({ literalsLen := c.literals.len, blockRemaining := blockSizeMax, outputRemaining := remaining,
                     limit } : ExecBounds) = b
  have hbudget : b.budget = min blockSizeMax remaining := by rw [← hb]; rfl
  have hrun := fun t' => foldlM_executeSequence_iff (c := c) (b := b) (by rw [← hb]) seqs
    { out, reps, ip := 0, budget := b.budget } t' hfs (Nat.zero_le _)
  have hcounts := @foldl_stepResult_counts c seqs { out, reps, ip := 0, budget := b.budget }
  have hsame := @foldl_stepResult_same c seqs { out, reps, ip := 0, budget := b.budget }
    { out, reps, ip := 0, budget := 0 } rfl rfl rfl
  rw [← hsame.1, ← hsame.2.1, ← hsame.2.2]
  simp only [Nat.zero_add] at hrun hcounts
  constructor
  · intro h
    obtain ⟨t, h1, h⟩ := bind_ok h
    obtain ⟨h2, h3, h4, rfl⟩ := (hrun t).1 h1
    obtain ⟨b', h5, h⟩ := bind_ok h
    cases h
    obtain ⟨⟨h6, h7, h8⟩, rfl⟩ := appendTrailingSpec_iff.1 h5
    rw [hlits, hcounts.1, hcounts.2] at h7 h8
    exact ⟨⟨h3, by omega, by omega⟩, h4, rfl⟩
  · rintro ⟨⟨h1, h2, h3⟩, h4, rfl⟩
    rw [(hrun _).2 ⟨by omega, h1, h4, rfl⟩]
    simp only [bind, Except.bind]
    rw [appendTrailingSpec_iff.2 ⟨⟨?_, ?_, ?_⟩, rfl⟩]
    · rw [hcounts.2, hlits]
      exact h1
    · rw [hcounts.1, hcounts.2, hlits]
      omega
    · rw [hcounts.1, hcounts.2, hlits]
      omega

/-- What the fused decoder's specification accepts, and what it gives. -/
theorem executeSequencesSpec_iff (hn : ∀ tables', setupTables tables = .ok tables' → tables'.Narrow)
    (hfs : c.frameStart ≤ out.length) (hmax : blockSizeMax ≤ usizeMax) (x : Bytes × RepeatOffsets) :
    (∃ o, executeSequencesSpec section_ tables out c blockSizeMax reps (.wholeOutput maxOutputSize) = .ok o ∧
        (o.out, o.reps.toRepeatOffsets) = x) ↔
      ∃ places, section_.denotes tables = .ok places ∧
        BlockFits c blockSizeMax maxOutputSize none out.length (section_.sequences places) ∧
        Along (FusedReaches c) c (section_.sequences places) out.length reps ∧
        x = blockResult c out reps (section_.sequences places) := by
  rcases remaining_wholeOutput maxOutputSize out.length with ⟨m, hm, hlt, e, he⟩ | ⟨remaining, hr, hle⟩
  · -- the output is over its cap before the block
    constructor
    · rintro ⟨o, h, -⟩
      unfold executeSequencesSpec at h
      rw [he] at h
      split at h
      · cases h
      · obtain ⟨_, _, h⟩ := bind_ok h
        cases h
    · rintro ⟨places, -, hfits, -⟩
      have := hfits.outputSize m hm
      omega
  have hall := fun seqs => @executeAll_iff c out blockSizeMax reps maxOutputSize hfs hmax remaining
    (.wholeOutput maxOutputSize) seqs hle x
  simp only [← hall]
  unfold executeSequencesSpec ParsedSequenceSection.denotes
  rw [hr]
  by_cases hnum : section_.numberOfSequences = 0
  · rw [if_pos hnum, if_pos hnum]
    have hseqs : section_.sequences ([], none) = [] := rfl
    simp only [Except.ok.injEq, exists_eq_left', hseqs]
    unfold executeAll
    simp only [List.foldlM_nil, bind, Except.bind, pure, Except.pure, Nat.sub_self, Nat.sub_zero]
    cases appendTrailingSpec out c.literals.asSlice 0 blockSizeMax remaining (.wholeOutput maxOutputSize) with
    | error e => simp
    | ok b' => simp
  · rw [if_neg hnum, if_neg hnum]
    cases hset : setupTables tables with
    | error e =>
      constructor
      · rintro ⟨o, h, -⟩
        cases h
      · rintro ⟨places, h, -⟩
        cases h
    | ok tables' =>
      have hmatch := @runSequences_matches _ (specSink c)
        { literalsLen := c.literals.len, blockRemaining := blockSizeMax, outputRemaining := remaining,
          limit := .wholeOutput maxOutputSize } tables' (hn _ hset) rfl section_ out reps
      constructor
      · rintro ⟨o, h, rfl⟩
        obtain ⟨_, h1, h⟩ := bind_ok h
        cases h1
        obtain ⟨_, h1, h⟩ := bind_ok h
        cases h1
        obtain ⟨t, h1, h⟩ := bind_ok h
        obtain ⟨b', h2, h⟩ := bind_ok h
        cases h
        obtain ⟨t', h3, rfl⟩ := hmatch.1 t h1
        obtain ⟨⟨places, last⟩, h4, h3⟩ := bind_ok h3
        refine ⟨(places, some last), ?_, ?_⟩
        · rw [ok_bind, h4]
          rfl
        · unfold executeAll ParsedSequenceSection.sequences
          simp only [Option.toList_some]
          have h3 : List.foldlM (executeSequence List.length (placeSpec c) _) _ _ = .ok t := h3
          rw [h3, ok_bind, h2]
          rfl
      · rintro ⟨places, h, hx⟩
        obtain ⟨_, h1, h⟩ := bind_ok h
        cases h1
        obtain ⟨⟨places, last⟩, h1, h⟩ := bind_ok h
        cases h
        obtain ⟨t, h2, hx⟩ := bind_ok hx
        obtain ⟨b', h3, hx⟩ := bind_ok hx
        cases hx
        obtain ⟨t', h4, rfl⟩ := hmatch.2 t (by rw [h1]; exact h2)
        refine ⟨{ out := b', tables := tables', reps := t'.reps }, ?_, rfl⟩
        simp only [ok_bind, h4, h3]

theorem length_blockResult {P : Nat → DecoderRepeatOffsets → RawSequence → Prop}
    (hP : ∀ n reps seq, P n reps seq → c.InWindow n (reps.find seq).1 ∨ c.InDictionary n (reps.find seq).1)
    {seqs : List RawSequence} (hfs : c.frameStart ≤ out.length)
    (hlits : (seqs.map RawSequence.literalLength).sum ≤ c.literals.len) (h : Along P c seqs out.length reps) :
    (blockResult c out reps seqs).1.length = out.length + (c.literals.len + matchBytes seqs) := by
  have hip := (@foldl_stepResult_counts c seqs { out, reps, ip := 0, budget := 0 }).2
  have htotal := totalBytes_eq seqs
  have hlen := @length_foldl_stepResult c P hP seqs { out, reps, ip := 0, budget := 0 } hfs (by simpa using hlits) h
  unfold blockResult
  simp only at hip hlen ⊢
  rw [List.length_append, List.length_drop, c.literals.asSlice_length, hip, hlen]
  omega

/-- What the fused decoder accepts, and what it gives, on any destination. -/
theorem decodeAndExecuteSequences_iff (alloc : Allocator) {dst : DecodeOut} (hdst : dst.asSlice = out)
    (htables : tables.Ok) (hn : ∀ tables', setupTables tables = .ok tables' → tables'.Narrow)
    (hfs : c.frameStart ≤ out.length) (hmax : blockSizeMax ≤ usizeMax) (x : Bytes × RepeatOffsets) :
    (∃ o, decodeAndExecuteSequences alloc section_ tables dst c blockSizeMax reps (.wholeOutput maxOutputSize) = .ok o ∧
        (o.out.asSlice, o.reps.toRepeatOffsets) = x) ↔
      ∃ places, section_.denotes tables = .ok places ∧
        BlockFits c blockSizeMax maxOutputSize dst.room out.length (section_.sequences places) ∧
        Along (FusedReaches c) c (section_.sequences places) out.length reps ∧
        x = blockResult c out reps (section_.sequences places) := by
  have hagree := decodeAndExecuteSequences_agrees alloc (show OutputRel dst.room dst out from ⟨rfl, hdst⟩)
    htables hfs section_
    blockSizeMax reps (.wholeOutput maxOutputSize)
  have hspec := fun x => @executeSequencesSpec_iff section_ tables c out blockSizeMax reps maxOutputSize hn hfs hmax x
  have hreach : ∀ n reps seq, FusedReaches c n reps seq →
      c.InWindow n (DecoderRepeatOffsets.find reps seq).1 ∨ c.InDictionary n (DecoderRepeatOffsets.find reps seq).1 :=
    fun _ _ _ h => h.imp_right And.right
  constructor
  · rintro ⟨o, ho, rfl⟩
    cases hs : executeSequencesSpec section_ tables out c blockSizeMax reps (.wholeOutput maxOutputSize) with
    | error e =>
      obtain ⟨e', he', -⟩ := hagree.error e hs
      rw [ho] at he'
      cases he'
    | ok o' =>
      by_cases hroom : FitsRoom dst.room o'.out
      swap
      · obtain ⟨e, he⟩ := hagree.full o' hs hroom
        rw [ho] at he
        cases he
      obtain ⟨o'', ho'', hrel⟩ := hagree.ok o' hs hroom
      rw [ho] at ho''
      cases ho''
      obtain ⟨places, h1, h2, h3, h4⟩ := (hspec _).1 ⟨o', hs, rfl⟩
      have hlen := length_blockResult hreach hfs h2.literals h3
      refine ⟨places, h1, ⟨h2.literals, h2.blockSize, h2.outputSize, fun cap hcap => ?_⟩, h3, ?_⟩
      · have := hroom cap hcap
        rw [← h4] at hlen
        simp only at hlen
        omega
      · rw [← h4, hrel.out.holds, hrel.reps]
  · rintro ⟨places, h1, h2, h3, rfl⟩
    obtain ⟨o', hs, h4⟩ := (hspec (blockResult c out reps (section_.sequences places))).2
      ⟨places, h1, ⟨h2.literals, h2.blockSize, h2.outputSize, fun _ h => (nomatch h)⟩, h3, rfl⟩
    have hlen := length_blockResult hreach hfs h2.literals h3
    obtain ⟨o, ho, hrel⟩ := hagree.ok o' hs fun cap hcap => by
      have := h2.room cap hcap
      rw [← h4] at hlen
      simp only at hlen
      omega
    exact ⟨o, ho, by rw [hrel.out.holds, hrel.reps, h4]⟩

/-! ## The list executor -/

/-- From `r`, a computation that also gives `d` comes to hold `b`, or says that it does not fit. -/
structure YieldsWith {δ : Type} (r : Region) (b : Bytes) (d : δ) (x : Result (Region × δ)) : Prop where
  ok : r.Fits b.length → ∃ r', x = .ok (r', d) ∧ r.Reaches r' b
  error : ¬ r.Fits b.length → ∃ e, x = .error e

theorem YieldsWith.bind {δ : Type} {r : Region} {b b' : Bytes} {d : δ} {x : Result Region}
    {f : Region → Result (Region × δ)} (hx : r.Yields b x) (hle : b.length ≤ b'.length)
    (hf : ∀ r' : Region, r'.Holds b → YieldsWith r' b' d (f r')) : YieldsWith r b' d (x >>= f) := by
  constructor
  · intro hfit
    obtain ⟨r', rfl, hb, hg, hm⟩ := hx.ok (hfit.imp id (by omega))
    obtain ⟨r'', h2, hc, hg', hm'⟩ := (hf r' hb).ok (hfit.imp (hg ▸ ·) fun h => by rw [hm (by omega)]; exact h)
    exact ⟨r'', h2, hc, hg'.trans hg, fun h => by rw [hm' (by rw [hm (by omega)]; exact h), hm (by omega)]⟩
  · intro hfit
    by_cases hb : r.Fits b.length
    · obtain ⟨r', rfl, hb', hg, hm⟩ := hx.ok hb
      refine (hf r' hb').error fun h => hfit ?_
      rcases h with h | h
      · exact .inl (hg ▸ h)
      · rcases hb with hb | hb
        · exact .inl hb
        · exact .inr (hm hb ▸ h)
    · exact ⟨_, by rw [hx.error hb]; rfl⟩

/-- The list executor's match, as a condition and a result. -/
theorem executeCommandMatch_yields (alloc : Allocator) {r : Region} (h : r.Holds out) {offset n : Nat} (ho : 0 < offset)
    (hfs : c.frameStart ≤ out.length) :
    ((c.InWindow (out.length - c.frameStart) offset ∨ c.InDictionary (out.length - c.frameStart) offset) →
        r.Yields (matchResult c out offset n) (executeCommandMatch alloc c r offset n)) ∧
      (¬ (c.InWindow (out.length - c.frameStart) offset ∨ c.InDictionary (out.length - c.frameStart) offset) →
        ∃ e, executeCommandMatch alloc c r offset n = .error e) := by
  unfold executeCommandMatch matchResult ExecContext.InWindow ExecContext.InDictionary
  simp only [h.2]
  by_cases hin : offset ≤ out.length - c.frameStart ∧ offset ≤ c.windowSize
  · rw [if_pos (le_min hin.1 hin.2), if_pos hin]
    exact ⟨fun _ => appendMatchFromHistory_yields alloc h ho (by omega), fun hno => absurd (.inl hin) hno⟩
  rw [if_neg fun hmin => hin (le_min_iff.1 hmin), if_neg hin]
  cases c.dictionary with
  | none =>
    refine ⟨fun hr => ?_, fun _ => ⟨_, rfl⟩⟩
    rcases hr with hr | ⟨d, hd, -⟩
    · exact absurd hr hin
    · cases hd
  | some dictionary =>
    simp only [Option.mem_some_iff, Option.getD_some, exists_eq_left']
    by_cases h1 : out.length - c.frameStart > c.windowSize
    · rw [if_pos h1]
      refine ⟨fun hr => ?_, fun _ => ⟨_, rfl⟩⟩
      rcases hr with hr | ⟨hr, -⟩
      · exact absurd hr hin
      · omega
    rw [if_neg h1]
    by_cases h2 : offset > dictionary.length + (out.length - c.frameStart)
    · rw [if_pos h2]
      refine ⟨fun hr => ?_, fun _ => ⟨_, rfl⟩⟩
      rcases hr with hr | ⟨-, hr⟩
      · exact absurd hr hin
      · omega
    rw [if_neg h2]
    exact ⟨fun _ => appendMatchFromDictionaryHistory_yields h ho hfs (by omega),
      fun hno => absurd (.inr ⟨by omega, by omega⟩) hno⟩

theorem executeCommandMatch_ok (alloc : Allocator) {r : Region} (h : r.Holds out) {reps : DecoderRepeatOffsets}
    {seq : RawSequence} (hfs : c.frameStart ≤ out.length)
    (hreach : c.InWindow (out.length - c.frameStart) (reps.find seq).1 ∨
      c.InDictionary (out.length - c.frameStart) (reps.find seq).1) :
    r.Yields (matchResult c out (reps.find seq).1 seq.matchLength)
      (executeCommandMatch alloc c r (reps.find seq).1 seq.matchLength) :=
  (executeCommandMatch_yields alloc h (reps.resolveDecode_pos _ _) hfs).1 hreach

/-- The list executor executes the sequences that stay within the literals and reach. -/
theorem executeCommands_yields (alloc : Allocator) :
    ∀ (seqs : List RawSequence) {r : Region} {t : ExecState Bytes}, r.Holds t.out → c.frameStart ≤ t.out.length →
      t.ip + (seqs.map RawSequence.literalLength).sum ≤ c.literals.len →
      Along (ListReaches c) c seqs t.out.length t.reps →
      YieldsWith r (seqs.foldl (stepResult c) t).out
        ((seqs.foldl (stepResult c) t).reps.toRepeatOffsets, (seqs.foldl (stepResult c) t).ip)
        (executeCommands alloc c seqs r t.reps.toRepeatOffsets t.ip)
  | [], r, t, h, _, _, _ => by
    refine ⟨fun _ => ⟨r, rfl, h, rfl, fun _ => rfl⟩, fun hf => absurd (.inr ?_) hf⟩
    rw [List.foldl_nil, ← h.2]
    exact h.le
  | seq :: seqs, r, t, h, hfs, hip, hal => by
    rw [List.map_cons, List.sum_cons] at hip
    obtain ⟨⟨⟨⟨offset, reps'⟩, hres⟩, hreach⟩, hrest⟩ := hal
    obtain ⟨ho, hr⟩ := DecoderRepeatOffsets.resolveDecode_eq hres
    have hlen := @length_stepResult c t seq hfs (by omega) hreach
    have hlits : (t.out ++ (c.literals.asSlice.drop t.ip).take seq.literalLength).length =
        t.out.length + seq.literalLength := by
      rw [List.length_append, length_literals (by omega)]
    have hfinal := @length_foldl_stepResult c (ListReaches c) (fun _ _ _ h => h.2) seqs (stepResult c t seq)
      (by omega) (by simp only [stepResult]; omega) (by rw [hlen]; exact hrest)
    rw [executeCommands, hres, ok_bind, List.foldl_cons]
    simp only
    rw [if_neg (by rw [c.literals.asSlice_length]; omega)]
    -- the literals, then the match, then the rest
    refine .bind (Region.append_yields alloc h _) (by omega) fun r1 h1 => ?_
    have hmatch := executeCommandMatch_ok alloc h1 (c := c) (by omega)
      (by rw [hlits]; exact hreach)
    have hout : (stepResult c t seq).out = matchResult c
      (t.out ++ (c.literals.asSlice.drop t.ip).take seq.literalLength) (t.reps.find seq).1 seq.matchLength := rfl
    rw [← hout, show (t.reps.find seq).1 = offset from ho] at hmatch
    refine .bind hmatch (by omega) fun r2 h2 => ?_
    have := executeCommands_yields alloc seqs (t := stepResult c t seq) h2 (by omega)
      (by simp only [stepResult]; omega) (by rw [hlen]; exact hrest)
    rw [← hr]
    exact this

/-- It rejects every other list. -/
theorem executeCommands_rejects (alloc : Allocator) :
    ∀ (seqs : List RawSequence) {r : Region} {t : ExecState Bytes} {x : Region × RepeatOffsets × Nat},
      r.Holds t.out → c.frameStart ≤ t.out.length → t.ip ≤ c.literals.len →
      executeCommands alloc c seqs r t.reps.toRepeatOffsets t.ip = .ok x →
      t.ip + (seqs.map RawSequence.literalLength).sum ≤ c.literals.len ∧
        Along (ListReaches c) c seqs t.out.length t.reps
  | [], _, _, _, _, _, hip, _ => ⟨by simpa using hip, trivial⟩
  | seq :: seqs, r, t, x, h, hfs, hip, hx => by
    rw [List.map_cons, List.sum_cons]
    rw [executeCommands] at hx
    obtain ⟨⟨offset, reps'⟩, hres, hx⟩ := bind_ok hx
    obtain ⟨ho, hr⟩ := DecoderRepeatOffsets.resolveDecode_eq hres
    simp only at hx
    by_cases hlit : t.ip + seq.literalLength > c.literals.asSlice.length
    · rw [if_pos hlit] at hx
      cases hx
    rw [if_neg hlit] at hx
    rw [c.literals.asSlice_length] at hlit
    obtain ⟨r1, h1, hx⟩ := bind_ok hx
    obtain ⟨r2, h2, hx⟩ := bind_ok hx
    have hlits : (t.out ++ (c.literals.asSlice.drop t.ip).take seq.literalLength).length =
        t.out.length + seq.literalLength := by
      rw [List.length_append, length_literals (by omega)]
    have hy1 := (Region.append_yields alloc h ((c.literals.asSlice.drop t.ip).take seq.literalLength)).holds h1
    obtain ⟨hm1, hm2⟩ := executeCommandMatch_yields alloc hy1 (t.reps.resolveDecode_pos seq.offsetValue
      seq.literalLength) (n := seq.matchLength) (c := c) (by omega)
    rw [hlits, ho] at hm1 hm2
    by_cases hreach : c.InWindow (t.out.length + seq.literalLength - c.frameStart) offset ∨
        c.InDictionary (t.out.length + seq.literalLength - c.frameStart) offset
    swap
    · obtain ⟨e, he⟩ := hm2 hreach
      rw [h2] at he
      cases he
    have hy2 := (hm1 hreach).holds h2
    have hfind : (t.reps.find seq).1 = offset := ho
    have hlen := @length_stepResult c t seq hfs (by omega) (by rw [hfind]; exact hreach)
    have hout : (stepResult c t seq).out = matchResult c
      (t.out ++ (c.literals.asSlice.drop t.ip).take seq.literalLength) offset seq.matchLength := by
      rw [← hfind]
      rfl
    rw [← hout] at hy2
    rw [← hr] at hx
    obtain ⟨h3, h4⟩ := executeCommands_rejects alloc seqs (t := stepResult c t seq) hy2 (by omega)
      (by simp only [stepResult]; omega) hx
    simp only [stepResult] at h3
    rw [hlen] at h4
    exact ⟨by omega, ⟨⟨_, hres⟩, by rw [hfind]; exact hreach⟩, h4⟩

/-- The region of a destination. -/
theorem region_holds (alloc : Allocator) (dst : DecodeOut) (additional : Nat) :
    (dst.region alloc additional).Holds dst.asSlice ∧
      (dst.region alloc additional).growable = decide (dst.room = none) ∧
      ∀ cap ∈ dst.room, (dst.region alloc additional).mem.length = cap := by
  cases dst with
  | growable buf => exact ⟨⟨List.take_left, rfl⟩, rfl, fun _ h => (nomatch h)⟩
  | fixed d =>
    refine ⟨⟨rfl, (DecodeOut.length_asSlice (.fixed d)).symm⟩, rfl, fun _ h => ?_⟩
    cases h
    rfl

/-- Reaching what fits does not change what fits. -/
theorem Region.Reaches.fits_iff {r r' : Region} {b : Bytes} (h : r.Reaches r' b) (hf : r.Fits b.length) (n : Nat) :
    r'.Fits n ↔ r.Fits n := by
  unfold Region.Fits at *
  rw [h.growable]
  rcases hf with hg | hle
  · simp [hg]
  · rw [h.inPlace hle]

/-- The list executor behind its last command: the trailing literals. -/
theorem trailing_yields (alloc : Allocator) {region : Region} {seqs : List RawSequence} (hreg : region.Holds out)
    (hfs : c.frameStart ≤ out.length) (hsum : (seqs.map RawSequence.literalLength).sum ≤ c.literals.len)
    (hal : Along (ListReaches c) c seqs out.length reps) :
    YieldsWith region (blockResult c out reps seqs).1 (blockResult c out reps seqs).2 (do
      let (r, reps, cursor) ← executeCommands alloc c seqs region reps.toRepeatOffsets 0
      if cursor > c.literals.asSlice.length then
        .error (.corruption "sequence literal cursor exceeded literals buffer")
      else
        let r ← r.append alloc (c.literals.asSlice.drop cursor)
        .ok (r, reps)) := by
  have hy := executeCommands_yields alloc seqs (t := { out, reps, ip := 0, budget := 0 }) hreg hfs
    (by simpa using hsum) hal
  have hip := (@foldl_stepResult_counts c seqs { out, reps, ip := 0, budget := 0 }).2
  simp only [Nat.zero_add] at hip hy
  unfold blockResult
  simp only
  generalize seqs.foldl (stepResult c) { out, reps, ip := 0, budget := 0 } = t at *
  have hle : ¬ t.ip > c.literals.asSlice.length := by
    rw [hip, c.literals.asSlice_length]
    omega
  by_cases hf : region.Fits t.out.length
  · obtain ⟨r1, h1, h2⟩ := hy.ok hf
    rw [h1, ok_bind]
    simp only
    rw [if_neg hle]
    have hap := Region.append_yields alloc h2.holds (c.literals.asSlice.drop t.ip)
    constructor
    · intro hfit
      obtain ⟨r2, h3, h4, h5, h6⟩ := hap.ok ((h2.fits_iff hf _).2 hfit)
      refine ⟨r2, by rw [h3]; rfl, h4, h5.trans h2.growable, fun hc => ?_⟩
      have hle1 : t.out.length ≤ region.mem.length := by
        rw [List.length_append] at hc
        omega
      rw [h6 (by rw [h2.inPlace hle1]; exact hc), h2.inPlace hle1]
    · intro hfit
      exact ⟨_, by rw [hap.error fun hc => hfit ((h2.fits_iff hf _).1 hc)]; rfl⟩
  · obtain ⟨e, he⟩ := hy.error hf
    rw [he]
    refine ⟨fun hfit => absurd (hfit.imp id fun h => ?_) hf, fun _ => ⟨e, rfl⟩⟩
    rw [List.length_append] at h
    omega

/-- Executing a list on a destination: what is accepted, and what it gives. -/
theorem executeList_iff (alloc : Allocator) {dst : DecodeOut} (hdst : dst.asSlice = out)
    (hfs : c.frameStart ≤ out.length) (seqs : List RawSequence) (x : Bytes × RepeatOffsets) :
    (∃ o, executeSequencesWithTotalMatchBytes alloc dst c blockSizeMax seqs reps.toRepeatOffsets maxOutputSize
          (matchBytes seqs) = .ok o ∧ (o.1.asSlice, o.2) = x) ↔
      BlockFits c blockSizeMax maxOutputSize dst.room out.length seqs ∧ Along (ListReaches c) c seqs out.length reps ∧
        x = blockResult c out reps seqs := by
  have hlen : dst.len = out.length := by rw [← hdst, DecodeOut.length_asSlice]
  have hlits := c.literals.asSlice_length
  unfold executeSequencesWithTotalMatchBytes
  simp only [hlits, hlen]
  by_cases hblock : c.literals.len + matchBytes seqs > blockSizeMax
  · rw [if_pos hblock]
    constructor
    · rintro ⟨o, h, -⟩
      cases h
    · rintro ⟨h, -⟩
      have := h.blockSize
      omega
  rw [if_neg hblock]
  cases hover : maxOutputSize.filter fun m => decide (out.length + (c.literals.len + matchBytes seqs) > m) with
  | some m =>
    obtain ⟨hm, hgt⟩ := Option.filter_eq_some_iff.1 hover
    simp only [decide_eq_true_eq] at hgt
    constructor
    · rintro ⟨o, h, -⟩
      cases h
    · rintro ⟨h, -⟩
      have := h.outputSize m hm
      omega
  | none =>
    have hout : ∀ m ∈ maxOutputSize, out.length + (c.literals.len + matchBytes seqs) ≤ m := by
      intro m hm
      have := Option.filter_eq_none_iff.1 hover m hm
      simpa using this
    simp only
    obtain ⟨hreg, hgrow, hcap⟩ := region_holds alloc dst (c.literals.len + matchBytes seqs + wildcopyOverlength)
    rw [hdst] at hreg
    generalize dst.region alloc (c.literals.len + matchBytes seqs + wildcopyOverlength) = region at *
    have hfits : ∀ n, region.Fits n ↔ ∀ cap ∈ dst.room, n ≤ cap := by
      intro n
      unfold Region.Fits
      rw [hgrow]
      cases hr : dst.room with
      | none => simp
      | some cap => simp [hcap cap hr]
    constructor
    · rintro ⟨o, h, rfl⟩
      obtain ⟨⟨r, reps', cursor⟩, h1, h⟩ := bind_ok h
      obtain ⟨hsum, hal⟩ := executeCommands_rejects alloc seqs (t := { out, reps, ip := 0, budget := 0 }) hreg hfs
        (Nat.zero_le _) h1
      rw [Nat.zero_add] at hsum
      have hy := trailing_yields alloc hreg hfs hsum hal
      have hlen' := length_blockResult (fun _ _ _ h => h.2) hfs hsum hal
      rw [h1, ok_bind] at hy
      simp only at h hy
      split at h
      · cases h
      rename_i hle
      rw [if_neg (by rw [hlits]; exact hle)] at hy
      obtain ⟨r2, h2, h⟩ := bind_ok h
      cases h
      rw [h2, ok_bind] at hy
      by_cases hfit : region.Fits (blockResult c out reps seqs).1.length
      swap
      · obtain ⟨e, he⟩ := hy.error hfit
        cases he
      obtain ⟨r3, h3, h4⟩ := hy.ok hfit
      cases h3
      have hroom := (hfits _).1 hfit
      rw [hlen'] at hroom
      refine ⟨⟨hsum, by omega, hout, hroom⟩, hal, ?_⟩
      have hrel := Region.toOut_rel h4.holds dst.room (h4.growable.trans hgrow) fun cap hc => by
        rw [h4.inPlace (by rw [hlen', hcap cap hc]; exact hroom cap hc), hcap cap hc]
      rw [hrel.holds]
    · rintro ⟨h1, h2, rfl⟩
      have hy := trailing_yields alloc hreg hfs h1.literals h2
      have hlen' := length_blockResult (fun _ _ _ h => h.2) hfs h1.literals h2
      obtain ⟨r, h3, h4⟩ := hy.ok ((hfits _).2 (by rw [hlen']; exact h1.room))
      obtain ⟨⟨r1, reps1, cursor⟩, h5, h3⟩ := bind_ok h3
      simp only at h3
      split at h3
      · cases h3
      rename_i hle
      obtain ⟨r2, h6, h3⟩ := bind_ok h3
      cases h3
      have hrel := Region.toOut_rel h4.holds dst.room (h4.growable.trans hgrow) fun cap hc => by
        rw [h4.inPlace (by rw [hlen', hcap cap hc]; exact h1.room cap hc), hcap cap hc]
      refine ⟨(r.toOut, (blockResult c out reps seqs).2), ?_, by rw [hrel.holds]⟩
      rw [h5, ok_bind]
      simp only
      rw [if_neg (by rw [← hlits]; exact hle), h6]
      rfl

/-- What the list decoder accepts, and what it gives. -/
theorem decodeThenExecute_iff (alloc : Allocator) {dst : DecodeOut} (hdst : dst.asSlice = out)
    (hpaired : tables.Paired) (hfs : c.frameStart ≤ out.length) (x : Bytes × RepeatOffsets) :
    (∃ o, decodeThenExecute alloc section_ tables dst c blockSizeMax reps.toRepeatOffsets maxOutputSize = .ok o ∧
        (o.1.asSlice, o.2) = x) ↔
      ∃ places, section_.denotes tables = .ok places ∧ places.1.any SequencePlace.spills = false ∧
        BlockFits c blockSizeMax maxOutputSize dst.room out.length (section_.sequences places) ∧
        Along (ListReaches c) c (section_.sequences places) out.length reps ∧
        x = blockResult c out reps (section_.sequences places) := by
  have hlist := fun seqs => @executeList_iff c out blockSizeMax reps maxOutputSize alloc dst hdst hfs seqs x
  unfold decodeThenExecute ParsedSequenceSection.denotes
  by_cases hnum : section_.numberOfSequences = 0
  · have hseqs : section_.sequences ([], none) = [] := rfl
    have hdec : decodeSequenceCommandsIntoStats section_ tables = .ok ([], 0) := by
      unfold decodeSequenceCommandsIntoStats
      rw [if_pos hnum]
    rw [if_pos hnum, hdec]
    simp only [Except.ok.injEq, exists_eq_left', hseqs, List.any_nil, true_and, ok_bind]
    exact hlist []
  · rw [if_neg hnum]
    have hmatch := decodeSequenceCommands_matches hnum hpaired
    constructor
    · rintro ⟨o, h, hx⟩
      obtain ⟨⟨seqs, total⟩, h1, h⟩ := bind_ok h
      obtain ⟨seqs', h2, h3⟩ := hmatch.1 _ h1
      cases h3
      obtain ⟨tables', h4, h2⟩ := bind_ok h2
      obtain ⟨⟨places, last⟩, h5, h2⟩ := bind_ok h2
      simp only at h2
      split at h2
      · cases h2
      rename_i hsp
      cases h2
      refine ⟨(places, some last), ?_, by simpa using hsp, (hlist _).1 ⟨o, h, hx⟩⟩
      rw [h4, ok_bind, h5]
      rfl
    · rintro ⟨places, h, hsp, hrest⟩
      obtain ⟨tables', h4, h⟩ := bind_ok h
      obtain ⟨⟨places', last⟩, h5, h⟩ := bind_ok h
      cases h
      obtain ⟨o, h6, h7⟩ := (hlist _).2 hrest
      obtain ⟨y, h8, rfl⟩ := hmatch.2 ((places' ++ [last]).map (·.sequence (readLe section_.bitstream))) (by
        rw [h4, ok_bind, h5, ok_bind]
        simp only
        rw [if_neg (by simpa using hsp)])
      refine ⟨o, ?_, h7⟩
      rw [h8]
      exact h6

end

/-! ## The tables of the profiled path -/

theorem stateEntries_nbBits (tableLog : Nat) : ∀ (tableSymbol symbolNext : List Nat),
    ∀ e ∈ stateEntries tableLog tableSymbol symbolNext, e.nbBits ≤ tableLog
  | [], _, e, he => by cases he
  | symbol :: rest, symbolNext, e, he => by
    rw [stateEntries] at he
    rcases List.mem_cons.1 he with rfl | he
    · exact Nat.sub_le _ _
    · exact stateEntries_nbBits tableLog rest _ e he

theorem buildDtable_narrow {part : SequencePart} {normalizedCounter : List Int} {maxSymbolValue tableLog : Nat}
    {dt : DTable} (hmax : maxSymbolValue ≤ part.maxSymbolValue) (hlog : tableLog ≤ part.maxAccuracyLog)
    (h : buildDtable normalizedCounter maxSymbolValue tableLog = .ok dt) :
    (part.sequenceDtableFrom dt).Narrow part := by
  have hsym := buildDtable_symbol_le h
  obtain ⟨entries, h1, h⟩ := bind_ok h
  cases h
  obtain ⟨_, _, h1⟩ := bind_ok h1
  obtain ⟨⟨tableSymbol, symbolNext⟩, _, h1⟩ := bind_ok h1
  cases h1
  refine ⟨by simpa using hlog, fun e he => ?_, fun e he => ?_⟩
  · rw [part.sequenceDtableFrom_entries] at he
    obtain ⟨d, hd, rfl⟩ := List.mem_map.1 he
    exact part.entry_extra (le_trans (hsym d hd) hmax)
  · rw [part.sequenceDtableFrom_entries] at he
    obtain ⟨d, hd, rfl⟩ := List.mem_map.1 he
    rw [part.entry_nbBits]
    exact le_trans (stateEntries_nbBits tableLog _ _ d hd) hlog

/-- The fused table built from counts is the one made from the plain table built from them. -/
theorem buildSequenceDtable_eq {part : SequencePart} {normalizedCounter : List Int} {maxSymbolValue tableLog : Nat}
    {dt : DTable} {seq : SequenceDTable} (h : buildDtable normalizedCounter maxSymbolValue tableLog = .ok dt)
    (hs : part.buildSequenceDtable normalizedCounter maxSymbolValue tableLog = .ok seq) :
    seq = part.sequenceDtableFrom dt := by
  obtain ⟨entries, h1, rfl⟩ := part.buildSequenceDtable_ok hs
  obtain ⟨entries', h2, h⟩ := bind_ok h
  cases h
  rw [h1] at h2
  cases h2
  cases part <;> rfl

theorem SequenceTableSlot.Paired.of_counts {part : SequencePart} {normalizedCounter : List Int}
    {maxSymbolValue tableLog : Nat} {dtable : Option DTable} {seq : SequenceDTable}
    (hmax : maxSymbolValue ≤ part.maxSymbolValue) (hlog : tableLog ≤ part.maxAccuracyLog)
    (hd : TableTarget.both.slot (buildDtable normalizedCounter maxSymbolValue tableLog) = .ok dtable)
    (hs : part.buildSequenceDtable normalizedCounter maxSymbolValue tableLog = .ok seq) :
    ({ dtable, seq, dirty := false, has := true } : SequenceTableSlot).Paired part := by
  cases hb : buildDtable normalizedCounter maxSymbolValue tableLog with
  | error e =>
    rw [hb] at hd
    cases hd
  | ok dt =>
    rw [hb] at hd
    cases hd
    refine ⟨fun h => (nomatch h), fun dt' h => ?_, fun dt' h => ?_⟩
    · cases h
      exact .inr ⟨rfl, buildSequenceDtable_eq hb hs⟩
    · cases h
      exact buildDtable_narrow hmax hlog hb

theorem decodeSeqTableBoth_paired {part : SequencePart} {mode : CompressionMode} {src : Bytes}
    {slot slot' : SequenceTableSlot} {n : Nat} (hp : slot.Paired part)
    (h : decodeSeqTableBoth part mode .both src slot = .ok (slot', n)) : slot'.Paired part := by
  cases mode with
  | predefined =>
    obtain ⟨dtable, hd, h⟩ := bind_ok h
    obtain ⟨seq, hs, h⟩ := bind_ok h
    cases h
    exact .of_counts (by cases part <;> decide) (by cases part <;> decide) hd hs
  | rle =>
    obtain ⟨b, _, h⟩ := bind_ok h
    simp only at h
    split at h
    · cases h
    rename_i hle
    obtain ⟨dtable, hd, h⟩ := bind_ok h
    cases h
    cases hd
    refine ⟨fun h => (nomatch h), fun dt h => ?_, fun dt h => ?_⟩
    · cases h
      exact .inr ⟨rfl, rfl⟩
    · cases h
      refine ⟨by simp [buildRleDtable], fun e he => ?_, fun e he => ?_⟩
      · rw [part.sequenceDtableFrom_entries] at he
        obtain ⟨d, hd, rfl⟩ := List.mem_map.1 he
        rw [List.mem_singleton.1 hd]
        exact part.entry_extra (Nat.not_lt.1 hle)
      · rw [part.sequenceDtableFrom_entries] at he
        obtain ⟨d, hd, rfl⟩ := List.mem_map.1 he
        rw [List.mem_singleton.1 hd, part.entry_nbBits]
        exact Nat.zero_le _
  | fseCompressed =>
    obtain ⟨nc, hn, h⟩ := bind_ok h
    obtain ⟨dtable, hd, h⟩ := bind_ok h
    obtain ⟨seq, hs, h⟩ := bind_ok h
    cases h
    exact .of_counts (readNcount_maxSymbolValue hn) (readNcount_normalized hn).2.2.1 hd hs
  | «repeat» =>
    unfold decodeSeqTableBoth at h
    simp only at h
    split at h
    · cases h
      exact hp
    · cases h

/-- The tables a profiled frame can come to: none, those of its dictionary, and those its blocks leave. -/
inductive ProfiledTables : SequenceTablesState → Prop
  | fresh : ProfiledTables {}
  | dictionary {src : Bytes} {d : DecoderDictionary} (h : DecoderDictionary.parse src = .ok d) :
    ProfiledTables d.sequenceTables
  | block {src : Bytes} {tables tables' : SequenceTablesState} {section_ : ParsedSequenceSection}
    (ht : ProfiledTables tables) (h : parseSequenceSection src tables .both = .ok (section_, tables')) :
    ProfiledTables tables'

theorem SequenceTableSlot.paired_default (part : SequencePart) : ({} : SequenceTableSlot).Paired part :=
  ⟨fun _ => rfl, fun _ h => (nomatch h), fun _ h => (nomatch h)⟩

/-- A table straight from a dictionary. -/
theorem ParsedCounts.ofDtable_paired {part : SequencePart} {src : Bytes} {counts : ParsedCounts part}
    {dt : { dt : DTable // ∀ e ∈ dt.entries, e.symbol ≤ part.maxSymbolValue }}
    (hc : readSequenceCounts part src = .ok counts) (h : counts.dtable = .ok dt) :
    (SequenceTableSlot.ofDtable (some dt.1)).Paired part := by
  refine ⟨fun h => (nomatch h), fun _ _ => .inl rfl, fun dt' hdt => ?_⟩
  cases hdt
  unfold readSequenceCounts at hc
  split at hc
  · rename_i n hn
    cases hc
    unfold ParsedCounts.dtable at h
    split at h
    · rename_i dt' hb
      cases h
      exact buildDtable_narrow (readNcount_maxSymbolValue hn) (readNcount_normalized hn).2.2.1 hb
    · cases h
  · cases hc

theorem ProfiledTables.paired {tables : SequenceTablesState} (h : ProfiledTables tables) :
    tables.Paired ∧ tables.Ok := by
  induction h with
  | fresh =>
    exact ⟨⟨SequenceTableSlot.paired_default _, SequenceTableSlot.paired_default _, SequenceTableSlot.paired_default _⟩,
      SequenceTablesState.ok_default⟩
  | @dictionary src d h =>
    refine ⟨?_, d.tablesOk⟩
    unfold DecoderDictionary.parse at h
    split at h
    · cases h
      exact ⟨SequenceTableSlot.paired_default _, SequenceTableSlot.paired_default _,
        SequenceTableSlot.paired_default _⟩
    · obtain ⟨⟨_, _⟩, _, h⟩ := bind_ok h
      obtain ⟨offsets, h1, h⟩ := bind_ok h
      obtain ⟨matchLengths, h2, h⟩ := bind_ok h
      obtain ⟨literalLengths, h3, h⟩ := bind_ok h
      simp only at h
      split at h
      · cases h
      obtain ⟨_, _, h⟩ := bind_ok h
      obtain ⟨offsetTable, h4, h⟩ := bind_ok h
      obtain ⟨matchLengthTable, h5, h⟩ := bind_ok h
      obtain ⟨literalLengthTable, h6, h⟩ := bind_ok h
      cases h
      exact ⟨ParsedCounts.ofDtable_paired h3 h6, ParsedCounts.ofDtable_paired h1 h4,
        ParsedCounts.ofDtable_paired h2 h5⟩
  | @block src tables tables' section_ _ h ih =>
    refine ⟨?_, parseSequenceSection_tablesOk ih.2 h⟩
    obtain ⟨hp, -⟩ := ih
    unfold parseSequenceSection at h
    obtain ⟨⟨n, countSize⟩, _, h⟩ := bind_ok h
    simp only at h
    split at h
    · cases h
      exact hp
    obtain ⟨modes, _, h⟩ := bind_ok h
    split at h
    · cases h
    obtain ⟨⟨ll, n1⟩, h1, h⟩ := bind_ok h
    obtain ⟨⟨off, n2⟩, h2, h⟩ := bind_ok h
    obtain ⟨⟨ml, n3⟩, h3, h⟩ := bind_ok h
    obtain ⟨_, _, h⟩ := bind_ok h
    split at h
    · cases h
    · cases h
      exact ⟨decodeSeqTableBoth_paired hp.1 h1, decodeSeqTableBoth_paired hp.2 h2, decodeSeqTableBoth_paired hp.3 h3⟩

theorem SequenceTablesState.Paired.narrow {tables tables' : SequenceTablesState} (h : tables.Paired)
    (hs : setupTables tables = .ok tables') : tables'.Narrow := by
  obtain ⟨t, -, ht⟩ := h.tables_match.2 tables' hs
  exact ht.2

/-! ## Agreement -/

/-- Both decoders accept, with the same bytes and the same repeat offsets, or both reject. -/
def DecodersAgree (list : Result (DecodeOut × RepeatOffsets)) (fused : Result (BlockOutcome DecodeOut)) : Prop :=
  ((∃ x, list = .ok x) ↔ ∃ y, fused = .ok y) ∧
    ∀ x y, list = .ok x → fused = .ok y → x.1.asSlice = y.out.asSlice ∧ x.2 = y.reps.toRepeatOffsets

section
variable {tables : SequenceTablesState}

/-- The fused decoder refines the command-list decoder on a block exactly when, if its bits denote
sequences within its limits, either none of them but the last spills and the two decoders see every
offset alike, or some offset reaches too far for the one and for the other. -/
theorem decoders_agree_iff (alloc : Allocator) (ht : ProfiledTables tables) (section_ : ParsedSequenceSection)
    (dst : DecodeOut) (c : ExecContext) (hfs : c.frameStart ≤ dst.len) (blockSizeMax : Nat)
    (hmax : blockSizeMax ≤ usizeMax) (reps : DecoderRepeatOffsets) (maxOutputSize : Option Nat) :
    DecodersAgree (decodeThenExecute alloc section_ tables dst c blockSizeMax reps.toRepeatOffsets maxOutputSize)
        (decodeAndExecuteSequences alloc section_ tables dst c blockSizeMax reps (.wholeOutput maxOutputSize)) ↔
      ∀ places, section_.denotes tables = .ok places →
        BlockFits c blockSizeMax maxOutputSize dst.room dst.len (section_.sequences places) →
        (places.1.any SequencePlace.spills = false ∧ Along (SeenAlike c) c (section_.sequences places) dst.len reps) ∨
          (¬ Along (FusedReaches c) c (section_.sequences places) dst.len reps ∧
            ¬ (places.1.any SequencePlace.spills = false ∧
              Along (ListReaches c) c (section_.sequences places) dst.len reps)) := by
  obtain ⟨hpaired, hok⟩ := ht.paired
  have hlist := fun x => @decodeThenExecute_iff section_ tables c dst.asSlice blockSizeMax reps maxOutputSize alloc dst
    rfl hpaired (by simpa using hfs) x
  have hfused := fun x => @decodeAndExecuteSequences_iff section_ tables c dst.asSlice blockSizeMax reps maxOutputSize
    alloc dst rfl hok (fun _ => hpaired.narrow) (by simpa using hfs) hmax x
  simp only [DecodeOut.length_asSlice] at hlist hfused
  constructor
  · rintro ⟨hiff, -⟩ places hden hfits
    by_cases hf : Along (FusedReaches c) c (section_.sequences places) dst.len reps
    · -- the fused decoder accepts, so the other does, and each offset is one that both see
      obtain ⟨o, ho, -⟩ := (hfused _).2 ⟨places, hden, hfits, hf, rfl⟩
      obtain ⟨x, hx⟩ := hiff.2 ⟨o, ho⟩
      obtain ⟨places', hden', hsp, -, hl, -⟩ := (hlist _).1 ⟨x, hx, rfl⟩
      rw [hden] at hden'
      cases hden'
      refine .inl ⟨hsp, hl.imp (fun n reps seq h1 h2 => ⟨h1.1, fun hs => ?_⟩) hf⟩
      exact h2.resolve_right fun h => h.1 hs
    · refine .inr ⟨hf, fun ⟨hsp, hl⟩ => hf ?_⟩
      obtain ⟨x, hx, -⟩ := (hlist _).2 ⟨places, hden, hsp, hfits, hl, rfl⟩
      obtain ⟨o, ho⟩ := hiff.1 ⟨x, hx⟩
      obtain ⟨places', hden', -, hf', -⟩ := (hfused _).1 ⟨o, ho, rfl⟩
      rw [hden] at hden'
      cases hden'
      exact hf'
  · intro h
    constructor
    · constructor
      · rintro ⟨x, hx⟩
        obtain ⟨places, hden, hsp, hfits, hl, -⟩ := (hlist _).1 ⟨x, hx, rfl⟩
        rcases h places hden hfits with ⟨-, hs⟩ | ⟨-, hno⟩
        · have hf : Along (FusedReaches c) c (section_.sequences places) dst.len reps :=
            hs.imp (fun n reps seq h1 h2 => by
            by_cases hsent : (reps.find seq).1 = offsetSentinel
            · exact .inl (h1.2 hsent)
            · exact h2.2.imp_right fun h => ⟨hsent, h⟩) hl
          obtain ⟨o, ho, -⟩ := (hfused _).2 ⟨places, hden, hfits, hf, rfl⟩
          exact ⟨o, ho⟩
        · exact absurd ⟨hsp, hl⟩ hno
      · rintro ⟨o, ho⟩
        obtain ⟨places, hden, hfits, hf, -⟩ := (hfused _).1 ⟨o, ho, rfl⟩
        rcases h places hden hfits with ⟨hsp, hs⟩ | ⟨hno, -⟩
        · have hl : Along (ListReaches c) c (section_.sequences places) dst.len reps :=
            hs.imp (fun _ _ _ h1 h2 => ⟨h1.1, h2.imp_right And.right⟩) hf
          obtain ⟨x, hx, -⟩ := (hlist _).2 ⟨places, hden, hsp, hfits, hl, rfl⟩
          exact ⟨x, hx⟩
        · exact absurd hf hno
    · intro x y hx hy
      obtain ⟨places, hden, -, -, -, h1⟩ := (hlist _).1 ⟨x, hx, rfl⟩
      obtain ⟨places', hden', -, -, h2⟩ := (hfused _).1 ⟨y, hy, rfl⟩
      rw [hden] at hden'
      cases hden'
      rw [← h2] at h1
      exact Prod.mk.inj h1

end

theorem eq_ok_of_toOption {α : Type} {x : Result α} {a : α} (h : x.toOption = some a) : x = .ok a := by
  cases x with
  | error e => cases h
  | ok b => exact congrArg Except.ok (Option.some.inj h)

/-- What a section's bits denote, read off a run of the parser. -/
theorem denotes_of_run {bytes : Bytes} {spills : Bool} {seqs : List RawSequence}
    (hrun : ((parseSequenceSection bytes {} .both).toOption.bind fun x =>
      (x.1.denotes x.2).toOption.map fun places => (places.1.any SequencePlace.spills, x.1.sequences places)) =
      some (spills, seqs)) :
    ∃ section_ tables places, parseSequenceSection bytes {} .both = .ok (section_, tables) ∧
      section_.denotes tables = .ok places ∧ places.1.any SequencePlace.spills = spills ∧
      section_.sequences places = seqs := by
  obtain ⟨⟨section_, tables⟩, hparsed, hden⟩ := Option.bind_eq_some_iff.1 hrun
  obtain ⟨places, hplaces, heq⟩ := Option.map_eq_some_iff.1 hden
  obtain ⟨hsp, hseqs⟩ := Prod.mk.inj heq
  exact ⟨section_, tables, places, eq_ok_of_toOption hparsed, eq_ok_of_toOption hplaces, hsp, hseqs⟩

/-- Four sequences over predefined tables, whose bits are more than a container holds. -/
def fourSequenceSection : Bytes := [4, 0, 58, 16, 112, 29, 14, 88, 129, 107, 3]

def fiveLiteralContext : ExecContext :=
  { frameStart := 0, windowSize := 1024, dictionary := none, literals := .ofScratch [1, 2, 3, 4, 5] }

theorem decoders_agree_iff_small :
    ∃ section_ tables, parseSequenceSection fourSequenceSection {} .both = .ok (section_, tables) ∧
      (decodeThenExecute zeroAllocator section_ tables (.growable []) fiveLiteralContext 20 .initial none).toOption.map
        (·.1.asSlice) = some [1, 2, 1, 2, 1, 2, 3, 3, 3, 3, 4, 4, 4, 4, 4, 4, 5, 4, 4, 5] ∧
      DecodersAgree
        (decodeThenExecute zeroAllocator section_ tables (.growable []) fiveLiteralContext 20 .initial none)
        (decodeAndExecuteSequences zeroAllocator section_ tables (.growable []) fiveLiteralContext 20 .initial
          (.wholeOutput none)) := by
  have hrun : ((parseSequenceSection fourSequenceSection {} .both).toOption.bind fun x =>
      (x.1.denotes x.2).toOption.map fun places => (places.1.any SequencePlace.spills, x.1.sequences places)) =
      some (false, [⟨2, 4, 5⟩, ⟨1, 3, 4⟩, ⟨1, 5, 1⟩, ⟨1, 3, 6⟩]) := by decide +kernel
  have hbytes : ((parseSequenceSection fourSequenceSection {} .both).toOption.bind fun x =>
      (decodeThenExecute zeroAllocator x.1 x.2 (.growable []) fiveLiteralContext 20 .initial none).toOption.map
        (·.1.asSlice)) = some [1, 2, 1, 2, 1, 2, 3, 3, 3, 3, 4, 4, 4, 4, 4, 4, 5, 4, 4, 5] := by decide +kernel
  obtain ⟨section_, tables, places, hparsed, hden, hsp, hseqs⟩ := denotes_of_run hrun
  rw [hparsed] at hbytes
  refine ⟨section_, tables, hparsed, hbytes, ?_⟩
  refine (decoders_agree_iff zeroAllocator (.block .fresh hparsed) section_ (.growable []) fiveLiteralContext
    (Nat.zero_le _) 20 (by decide) .initial none).2 fun places' hden' _ => .inl ?_
  rw [hden] at hden'
  cases hden'
  rw [hseqs]
  refine ⟨hsp, ⟨⟨_, rfl⟩, fun h => absurd h (by decide)⟩, ⟨⟨_, rfl⟩, fun h => absurd h (by decide)⟩,
    ⟨⟨_, rfl⟩, fun h => absurd h (by decide)⟩, ⟨⟨_, rfl⟩, fun h => absurd h (by decide)⟩, trivial⟩

/-- Two sequences over predefined tables: 65536 literals and a match of 32771 bytes, whose 41 extra bits
and 17 state bits begin seven bits below a byte boundary, then a short match. -/
def spillSection : Bytes := [2, 0, 0, 3, 0, 0, 0, 0, 0, 0, 244, 204, 7]

def spillContext : ExecContext :=
  { frameStart := 0, windowSize := 131072, dictionary := none, literals := .ofScratch (List.replicate 65536 0) }

/-- A block the fused decoder accepts and the command-list decoder rejects. -/
theorem decoders_disagree :
    ∃ section_ tables, parseSequenceSection spillSection {} .both = .ok (section_, tables) ∧
      ¬ DecodersAgree
        (decodeThenExecute zeroAllocator section_ tables (.growable []) spillContext 131072 .initial none)
        (decodeAndExecuteSequences zeroAllocator section_ tables (.growable []) spillContext 131072 .initial
          (.wholeOutput none)) := by
  -- what the bits denote: the first of the two sequences spills
  have hrun : ((parseSequenceSection spillSection {} .both).toOption.bind fun x =>
      (x.1.denotes x.2).toOption.map fun places => (places.1.any SequencePlace.spills, x.1.sequences places)) =
      some (true, [⟨65536, 32771, 1024⟩, ⟨0, 3, 128⟩]) := by decide +kernel
  obtain ⟨section_, tables, places, hparsed, hden, hsp, hseqs⟩ := denotes_of_run hrun
  obtain ⟨hpaired, hok⟩ := (ProfiledTables.block .fresh hparsed).paired
  have hlits : spillContext.literals.len = 65536 := List.length_replicate
  refine ⟨section_, tables, hparsed, fun h => ?_⟩
  have hfits : BlockFits spillContext 131072 none none 0 (section_.sequences places) := by
    rw [hseqs]
    refine ⟨?_, ?_, fun _ h => (nomatch h), fun _ h => (nomatch h)⟩ <;> rw [hlits] <;> decide
  have hal : Along (FusedReaches spillContext) spillContext (section_.sequences places) 0 .initial := by
    rw [hseqs]
    refine ⟨.inl ?_, .inl ?_, trivial⟩ <;> unfold ExecContext.InWindow <;> decide
  have hfused := fun x => (@decodeAndExecuteSequences_iff section_ tables spillContext [] 131072 .initial none
    zeroAllocator (.growable []) rfl hok (fun _ => hpaired.narrow) (Nat.zero_le _) (by norm_num [usizeMax]) x).2
  obtain ⟨o, ho, -⟩ := hfused _ ⟨places, hden, hfits, hal, rfl⟩
  obtain ⟨x, hx⟩ := h.1.2 ⟨o, ho⟩
  have hlist := fun x => (@decodeThenExecute_iff section_ tables spillContext [] 131072 .initial none
    zeroAllocator (.growable []) rfl hpaired (Nat.zero_le _) x).1
  obtain ⟨places', hden', hsp', -⟩ := hlist _ ⟨x, hx, rfl⟩
  rw [hden] at hden'
  cases hden'
  rw [hsp] at hsp'
  cases hsp'

end Zstandard
