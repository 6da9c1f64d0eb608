/-
The long-distance matches of a whole frame: blocks one after the other, and compactions between them.

`FrameRun` is a frame as the encoder holds it: the bytes let go of, the dictionary searched in front, the bytes kept
and the matcher. A compaction lets go of the dictionary too, but rebases the table by the frame's bytes only
(`FrameRun.compact`), so with a dictionary in front the positions kept are too high by its length. The matches of a
frame are sound in every state reached through compactions without one (`FrameRun.Reached.sound`).
-/
import Zstandard.Encode.Generated

namespace Zstandard

namespace Ldm

/-- A frame being encoded. -/
structure FrameRun where
  gone : Bytes
  dictionary : Bytes
  frame : Bytes
  ldm : LdmFrameState
deriving DecidableEq, Repr

theorem Sound.prepend {data : Bytes} {maxDistance credit start length offset : Nat}
    (h : Sound data maxDistance credit start length offset) (gone : Bytes) (hgone : gone = [] ∨ credit = 0) :
    Sound (gone ++ data) maxDistance credit (gone.length + start) length offset := by
  refine ⟨?_, ?_⟩
  · rw [List.length_append]
    exact h.genuine.prepend gone
  · have hlow := h.genuine.low_le
    rcases hgone with rfl | h0
    · simp only [List.length_nil, Nat.zero_add]
      exact h.reach
    · -- no dictionary is credited, so the offset is within the window
      exact h.reach.imp_right fun hcredit => by omega

namespace FrameRun

/-- All bytes so far, the dictionary's first. -/
def history (r : FrameRun) : Bytes := r.gone ++ (r.dictionary ++ r.frame)

def start (params : LdmParameters) (maxDistance : Nat) (dictionary : Bytes) : Result FrameRun := do
  let ldm ← (LdmFrameState.new params maxDistance).loadDictionary dictionary
  .ok { gone := [], dictionary, frame := [], ldm }

/-- The next block's bytes join the frame, and its matches are generated. -/
def block (r : FrameRun) (bytes : Bytes) : Result FrameRun := do
  let ldm ← r.ldm.sequencesForBlock r.dictionary (r.frame ++ bytes) r.frame.length
  .ok { r with frame := r.frame ++ bytes, ldm }

/-- What `compact_frame` does to the matcher, which from then on is given no dictionary. -/
def compact (r : FrameRun) (dropped : Nat) : Result FrameRun := do
  let ldm ← r.ldm.shiftPositions dropped
  .ok { gone := r.gone ++ (r.dictionary ++ r.frame.take dropped), dictionary := [], frame := r.frame.drop dropped, ldm }

/-- The states of a frame over any run of blocks and compactions, each compaction from a state that has `may`. -/
inductive Reached (params : LdmParameters) (maxDistance : Nat) (dictionary : Bytes) (may : FrameRun → Prop) :
    FrameRun → Prop
  | start {r : FrameRun} : start params maxDistance dictionary = .ok r → Reached params maxDistance dictionary may r
  | block {r r' : FrameRun} {bytes : Bytes} : Reached params maxDistance dictionary may r → bytes ≠ [] →
    bytes.length < 2 ^ 32 → r.block bytes = .ok r' → Reached params maxDistance dictionary may r'
  | compact {r r' : FrameRun} {dropped : Nat} : Reached params maxDistance dictionary may r → may r →
    dropped ≤ r.frame.length → r.compact dropped = .ok r' → Reached params maxDistance dictionary may r'

/-- What the matcher owes a frame: its positions are below the frontier, and whatever the next block is, its matches
come out, real ones over everything before, laid one after the other from the block's first byte to at most its
last. Asked for the same block again, it answers the same. -/
structure Owes (r : FrameRun) (params : LdmParameters) (maxDistance : Nat) : Prop where
  positions : r.ldm.matcher.table.Filed params.minMatchLength (r.dictionary.length + r.frame.length)
  block : ∀ bytes : Bytes, bytes ≠ [] → bytes.length < 2 ^ 32 → ∃ r' upto, r.block bytes = .ok r' ∧
    r'.history = r.history ++ bytes ∧ upto ≤ r'.history.length ∧
    Laid (Sound r'.history maxDistance r.ldm.matcher.loadedDictEnd) r.history.length r'.ldm.sequences upto ∧
    r'.ldm.sequencesForBlock r.dictionary (r.frame ++ bytes) r.frame.length = .ok r'.ldm

/-- What every step keeps. -/
structure InStep (r : FrameRun) (params : LdmParameters) (maxDistance : Nat) (dictionary : Bytes) : Prop where
  params_eq : r.ldm.matcher.params = params
  maxDistance_eq : r.ldm.maxDistance = maxDistance
  filed : r.ldm.matcher.table.Filed params.minMatchLength (r.dictionary.length + r.frame.length)
  credited : r.ldm.matcher.loadedDictEnd ≤ dictionary.length
  -- once bytes are gone, no dictionary is in front and none is credited
  gone : r.gone = [] ∨ (r.dictionary = [] ∧ r.ldm.matcher.loadedDictEnd = 0)
  generated : ∀ from' upto, r.ldm.generatedFor = some (from', upto) → upto = r.frame.length

section
variable {params : LdmParameters} {maxDistance : Nat} {dictionary : Bytes} {r r' : FrameRun}

theorem start_inStep (h : start params maxDistance dictionary = .ok r) : r.InStep params maxDistance dictionary := by
  obtain ⟨table, hload, hfiled⟩ := loadDictionary_ok params maxDistance dictionary
  unfold start at h
  simp only [hload, bind, Except.bind] at h
  cases h
  exact ⟨rfl, rfl, hfiled, le_refl _, .inl rfl, by simp⟩

theorem InStep.block (h : r.InStep params maxDistance dictionary) (hreach : maxDistance + dictionary.length ≤ 2 ^ 32)
    {bytes : Bytes} (hne : bytes ≠ []) (hsmall : bytes.length < 2 ^ 32) :
    ∃ r' upto, r.block bytes = .ok r' ∧ r'.InStep params maxDistance dictionary ∧ r'.history = r.history ++ bytes ∧
      upto ≤ r'.history.length ∧
      Laid (Sound r'.history maxDistance r.ldm.matcher.loadedDictEnd) r.history.length r'.ldm.sequences upto ∧
      r'.ldm.sequencesForBlock r.dictionary (r.frame ++ bytes) r.frame.length = .ok r'.ldm := by
  have hpos := List.length_pos_iff.mpr hne
  have hlength : (r.frame ++ bytes).length = r.frame.length + bytes.length := List.length_append
  -- the block is not the one generated last
  have hnew : r.ldm.generatedFor ≠ some (r.frame.length, (r.frame ++ bytes).length) := by
    intro heq
    have := h.generated _ _ heq
    omega
  have hfiled := h.filed
  have hcredited := h.credited
  rw [← h.params_eq, Nat.add_comm] at hfiled
  generalize hsrc : ({ dictionary := r.dictionary, frame := r.frame ++ bytes } : LdmSource) = src
  have hframe : src.frameStart = r.dictionary.length := by rw [← hsrc]; rfl
  have hlen : src.len = (r.frame ++ bytes).length + r.dictionary.length := by rw [← hsrc]; exact Nat.add_comm _ _
  obtain ⟨s', seqs, upto, hok, hparams, hcredit, hfiled', hupto, hlaid⟩ := generateSequences_ok
    (show src.frameStart ≤ r.frame.length + r.dictionary.length by omega)
    (show r.frame.length + r.dictionary.length ≤ (r.frame ++ bytes).length + r.dictionary.length by omega) hlen.symm
    (by omega) (show maxDistance + r.ldm.matcher.loadedDictEnd ≤ 2 ^ 32 by omega) hfiled
  have hjoint : src.joint = r.dictionary ++ (r.frame ++ bytes) := by rw [← hsrc]; rfl
  have hhistory : r.gone ++ src.joint = r.history ++ bytes := by
    rw [hjoint]
    unfold history
    simp only [List.append_assoc]
  generalize hldm : ({ matcher := s', maxDistance := r.ldm.maxDistance, sequences := seqs
                       generatedFor := some (r.frame.length, (r.frame ++ bytes).length) } : LdmFrameState) = ldm
  have hsequences : r.ldm.sequencesForBlock r.dictionary (r.frame ++ bytes) r.frame.length = .ok ldm := by
    unfold LdmFrameState.sequencesForBlock
    simp only [if_neg hnew, hsrc, h.maxDistance_eq, hok, bind, Except.bind]
    rw [← hldm, h.maxDistance_eq]
  refine ⟨{ r with frame := r.frame ++ bytes, ldm }, r.gone.length + upto, ?_, ?_, ?_, ?_, ?_, ?_⟩
  · unfold FrameRun.block
    simp only [hsequences, bind, Except.bind]
  · subst hldm
    refine ⟨hparams.trans h.params_eq, h.maxDistance_eq, ?_, hcredit.trans hcredited, ?_, ?_⟩
    · rw [h.params_eq, Nat.add_comm] at hfiled'
      exact hfiled'
    · rcases h.gone with h0 | ⟨h0, h1⟩
      · exact .inl h0
      · exact .inr ⟨h0, by simp only; omega⟩
    · intro from' upto' heq
      cases heq
      rfl
  · unfold history at hhistory ⊢
    rw [← hhistory, hjoint]
  · unfold history
    simp only [List.length_append] at hupto ⊢
    omega
  · subst hldm
    have hbefore : r.history.length = r.gone.length + (r.frame.length + r.dictionary.length) := by
      unfold history
      simp only [List.length_append]
      omega
    have hafter : ({ r with frame := r.frame ++ bytes } : FrameRun).history = r.gone ++ src.joint := by
      rw [hjoint]
      rfl
    rw [hbefore]
    change Laid (Sound ({ r with frame := r.frame ++ bytes } : FrameRun).history _ _) _ _ _
    rw [hafter]
    exact hlaid.shift fun _ _ _ hsound => hsound.prepend r.gone (h.gone.imp_right And.right)
  · subst hldm
    unfold LdmFrameState.sequencesForBlock
    simp only [if_true]

theorem InStep.compact (h : r.InStep params maxDistance dictionary) (hdictionary : r.dictionary = []) {dropped : Nat}
    (hdropped : dropped ≤ r.frame.length) (hok : r.compact dropped = .ok r') :
      r'.InStep params maxDistance dictionary := by
  unfold FrameRun.compact LdmFrameState.shiftPositions LdmState.shiftPositions at hok
  by_cases hfits : dropped < 2 ^ 32
  · rw [if_pos hfits] at hok
    simp only [bind, Except.bind] at hok
    cases hok
    refine ⟨h.params_eq, h.maxDistance_eq, ?_, Nat.zero_le _, .inr ⟨rfl, rfl⟩, ?_⟩
    · have hfiled := h.filed.reduce dropped
      rw [hdictionary, List.length_nil, Nat.zero_add] at hfiled
      simp only [List.length_nil, List.length_drop, Nat.zero_add]
      exact hfiled
    · intro from' upto heq
      simp only [Option.map_eq_some_iff, Prod.mk.injEq] at heq
      obtain ⟨⟨from0, upto0⟩, hgenerated, -, hupto⟩ := heq
      have := h.generated _ _ hgenerated
      simp only [List.length_drop]
      omega
  · rw [if_neg hfits] at hok
    cases hok

/-- The run: every state reached through compactions without a dictionary in front is in step. -/
theorem Reached.inStep (hreach : maxDistance + dictionary.length ≤ 2 ^ 32)
    (h : Reached params maxDistance dictionary (·.dictionary = []) r) : r.InStep params maxDistance dictionary := by
  induction h with
  | start h => exact start_inStep h
  | block _ hne hsmall hok ih =>
    obtain ⟨r', -, hok', hstep, -⟩ := ih.block hreach hne hsmall
    rw [hok] at hok'
    cases hok'
    exact hstep
  | compact _ hdictionary hdropped hok ih => exact ih.compact hdictionary hdropped hok

end

/-- In every state of a frame that no compaction has left with the positions of another buffer, the matcher keeps its
positions below the frontier and gives any next block sound matches. -/
theorem Reached.owes {params : LdmParameters} {maxDistance : Nat} {dictionary : Bytes} {r : FrameRun}
    (hreach : maxDistance + dictionary.length ≤ 2 ^ 32)
    (h : Reached params maxDistance dictionary (·.dictionary = []) r) : r.Owes params maxDistance := by
  refine ⟨(h.inStep hreach).filed, fun bytes hne hsmall => ?_⟩
  obtain ⟨r', upto, hok, -, hrest⟩ := (h.inStep hreach).block hreach hne hsmall
  exact ⟨r', upto, hok, hrest⟩

/-! ## A dictionary in front of a compaction -/

/-- A table that files every position, and matches of four bytes. -/
def denseParams : LdmParameters :=
  .resolve { hashLog := some 10, minMatchLength := some 4, bucketSizeLog := some 1, hashRateLog := none } .fast 10

/-- A dictionary, a block and a compaction, each of one byte over and over. -/
def compacted (dictionary block dropped : Nat) : Result FrameRun := do
  let r ← start denseParams 1024 (List.replicate dictionary 7)
  let r ← r.block (List.replicate block 7)
  r.compact dropped

theorem compacted_reached {dictionary block dropped : Nat} {may : FrameRun → Prop} {r : FrameRun} (hpos : 0 < block)
    (hblock : block < 2 ^ 32) (hdropped : dropped ≤ block) (hmay : dictionary = 0 ∨ ∀ r, may r)
    (hdictionary : ∀ r : FrameRun, r.dictionary = [] → may r) (h : compacted dictionary block dropped = .ok r) :
    Reached denseParams 1024 (List.replicate dictionary 7) may r := by
  unfold compacted at h
  obtain ⟨r1, h1, h⟩ := bind_ok h
  obtain ⟨r2, h2, h⟩ := bind_ok h
  have hr1 : r1.dictionary = List.replicate dictionary 7 ∧ r1.frame = [] := by
    obtain ⟨ldm, -, hr1⟩ := bind_ok h1
    cases hr1
    exact ⟨rfl, rfl⟩
  have hr2 : r2.dictionary = List.replicate dictionary 7 ∧ r2.frame = List.replicate block 7 := by
    obtain ⟨ldm, -, hr2⟩ := bind_ok h2
    cases hr2
    exact ⟨hr1.1, by rw [hr1.2, List.nil_append]⟩
  have hreached2 : Reached denseParams 1024 (List.replicate dictionary 7) may r2 :=
    .block (.start h1) (by rw [ne_eq, List.replicate_eq_nil_iff]; omega)
      (by rw [List.length_replicate]; exact hblock) h2
  refine .compact hreached2 ?_ (by rw [hr2.2, List.length_replicate]; exact hdropped) h
  rcases hmay with rfl | hmay
  · exact hdictionary r2 hr2.1
  · exact hmay r2

theorem owes_compacted : ∃ r, compacted 0 32 16 = .ok r ∧ r.Owes denseParams 1024 := by
  have hok : (compacted 0 32 16).toBool = true := by decide +kernel
  rcases h : compacted 0 32 16 with e | r
  · rw [h] at hok
    cases hok
  · exact ⟨r, rfl, Reached.owes (by decide) (compacted_reached (by decide) (by decide) (by decide) (.inl rfl)
      (fun _ h => h) h)⟩

/-- With a dictionary of eleven bytes, a block of five and a compaction that drops two, the next block finds a
position above itself in the table. -/
theorem not_owes_of_dictionary : ¬ ∀ (params : LdmParameters) (maxDistance : Nat) (dictionary : Bytes) (r : FrameRun),
    maxDistance + dictionary.length ≤ 2 ^ 32 → Reached params maxDistance dictionary (fun _ => True) r →
    r.Owes params maxDistance := by
  intro hall
  have hbad : (match compacted 11 5 2 with
      | .ok r => !(r.block (List.replicate 13 7)).toBool
      | .error _ => false) = true := by decide +kernel
  split at hbad
  · rename_i r h
    have howes := hall denseParams 1024 (List.replicate 11 7) r (by decide)
      (compacted_reached (by decide) (by decide) (by decide) (.inr fun _ => trivial) (fun _ _ => trivial) h)
    obtain ⟨r', -, hok, -⟩ := howes.block (List.replicate 13 7) (by decide) (by decide)
    rw [hok] at hbad
    cases hbad
  · cases hbad

end FrameRun

end Ldm

end Zstandard
