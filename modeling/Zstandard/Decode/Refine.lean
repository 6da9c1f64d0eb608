/-
The faithful executor refines the specification executor: the sequence loop, and with it
`decode_and_execute_sequences`, for the unchecked, the checked and the exact-tail copies alike.

One placement is related to its specification by `PlaceAgrees`. The invariant of the loop is
`ExecRel`: the region holds the specification's output, the two runs agree on repeat offsets,
literals and budget, and where nothing watches for the slack the whole budget still fits before it.
-/
import Zstandard.Decode.Exec
import Zstandard.Library.Bounded

namespace Zstandard

open Bounded Fse

/-! ## One placement -/

namespace Region

/-- From `r`, an executor has come to hold `b` in `r'`, in place as long as `b` fits in the memory
there was. -/
structure Reaches (r : Region) (r' : Region) (b : Bytes) : Prop where
  holds : r'.Holds b
  growable : r'.growable = r.growable
  inPlace : b.length ≤ r.mem.length → r'.mem.length = r.mem.length

end Region

/-- The outcome of one placement on the region against the one on the list. -/
abbrev PlaceAgrees (r : Region) (x : Result Region) (y : Result Bytes) : Prop :=
  Agrees (fun b => r.Fits b.length) (r.growable = true) r.Reaches x y

theorem Region.Yields.agrees {r : Region} {b : Bytes} {x : Result Region} (h : r.Yields b x) :
    PlaceAgrees r x (.ok b) := by
  refine ⟨fun b' hb hf => ?_, fun b' hb hf => ?_, fun e he => (nomatch he)⟩
  · cases hb
    obtain ⟨r', h1, h2, h3, h4⟩ := h.ok hf
    exact ⟨r', h1, h2, h3, h4⟩
  · cases hb
    exact ⟨_, h.error hf⟩

/-- A placement that continues from where an earlier one stopped. -/
theorem PlaceAgrees.bind {r : Region} {x : Result Region} {f : Region → Result Region} {b : Bytes}
    {y : Result Bytes} (hx : r.Yields b x) (hle : ∀ b', y = .ok b' → b.length ≤ b'.length)
    (hf : ∀ r', r.Reaches r' b → PlaceAgrees r' (f r') y) : PlaceAgrees r (x >>= f) y := by
  refine Agrees.bind (y := .ok b) (g := fun _ => y) hx.agrees (fun b' hg => .inl hg) ?_ ?_
  · intro b' d hb hd hfit
    cases hb
    exact hfit.imp id fun h => le_trans (hle d hd) h
  · intro r' b' hb hfit hr
    cases hb
    obtain ⟨h1, h2, h3⟩ := hf r' hr
    have hmem : r.growable = false → r'.mem.length = r.mem.length := fun hg =>
      hr.inPlace (hfit.resolve_left (by simp [hg]))
    have hiff : ∀ n, r'.Fits n ↔ r.Fits n := by
      intro n
      unfold Region.Fits
      rw [hr.growable]
      cases hg : r.growable
      · rw [hmem hg]
      · simp
    refine ⟨fun d hd hfd => ?_, fun d hd hfd => h2 d hd fun h => hfd ((hiff _).1 h), fun e he => ?_⟩
    · obtain ⟨r'', h4, h5⟩ := h1 d hd ((hiff _).2 hfd)
      refine ⟨r'', h4, h5.holds, h5.growable.trans hr.growable, fun hd' => ?_⟩
      have := hr.inPlace (le_trans (hle d hd) hd')
      rw [h5.inPlace (by omega), this]
    · rw [← hr.growable]; exact h3 e he

section Place

variable {alloc : Allocator} {c : ExecContext} {r : Region} {b : Bytes} {offset n ip ll : Nat}

theorem length_dictionaryMatchSpec (ho : 0 < offset) (hfs : c.frameStart ≤ b.length) {b' : Bytes}
    (h : dictionaryMatchSpec c b offset n = .ok b') : b'.length = b.length + n := by
  unfold dictionaryMatchSpec at h
  simp only at h
  split at h
  · cases h
  split at h
  · split at h
    · cases h
    split at h
    · cases h
    · cases h
      exact length_copyWithDictionary ho (by omega) hfs n
  · cases h

/-- The match of a sequence on lists: from the output if it starts there, else from the dictionary. -/
def matchSpec (c : ExecContext) (out : Bytes) (offset matchLength : Nat) : Result Bytes :=
  if offset ≤ out.length - c.frameStart ∧ offset ≤ c.windowSize then .ok (Lz.copy out offset matchLength)
  else dictionaryMatchSpec c out offset matchLength

theorem length_matchSpec (ho : 0 < offset) (hfs : c.frameStart ≤ b.length) {b' : Bytes}
    (h : matchSpec c b offset n = .ok b') : b'.length = b.length + n := by
  unfold matchSpec at h
  split at h
  · cases h
    exact Lz.length_copy ho (by omega) n
  · exact length_dictionaryMatchSpec ho hfs h

theorem length_literals (hip : ip + ll ≤ c.literals.len) : ((c.literals.asSlice.drop ip).take ll).length = ll := by
  simp; omega

theorem length_placeSpec (ho : 0 < offset) (hfs : c.frameStart ≤ b.length) (hip : ip + ll ≤ c.literals.len)
    {b' : Bytes} (h : placeSpec c b ip ll offset n = .ok b') : b'.length = b.length + (ll + n) := by
  have := length_matchSpec ho (by rw [List.length_append]; omega) (show matchSpec c (b ++ _) offset n = .ok b' from h)
  rw [this, List.length_append, length_literals hip]
  omega

theorem executeDictionaryMatch_agrees (h : r.Holds b) (hfs : c.frameStart ≤ b.length) (ho : 0 < offset) :
    PlaceAgrees r (executeDictionaryMatch alloc c r offset n) (dictionaryMatchSpec c b offset n) := by
  unfold executeDictionaryMatch dictionaryMatchSpec
  simp only [h.2]
  split
  · exact .of_error _
  cases c.dictionary with
  | none => exact .of_error _
  | some dict =>
    simp only
    split
    · exact .of_error _
    split
    · exact .of_error _
    · exact (appendMatchFromDictionaryHistory_yields h ho hfs (by omega)).agrees

theorem executeSequenceExact_agrees (h : r.Holds b) (hfs : c.frameStart ≤ b.length) (ho : 0 < offset)
    (hip : ip + ll ≤ c.literals.len) :
    PlaceAgrees r (executeSequenceExact alloc c r ip ll offset n) (placeSpec c b ip ll offset n) := by
  have hlit : (c.literals.padded.drop ip).take ll = (c.literals.asSlice.drop ip).take ll := by
    unfold DecodedLiterals.asSlice
    rw [List.drop_take, List.take_take, min_eq_left (by omega)]
  unfold executeSequenceExact
  rw [hlit]
  refine PlaceAgrees.bind (Region.append_yields alloc h _) (fun b' hb' => ?_) fun r' hr' => ?_
  · rw [length_placeSpec ho hfs hip hb', List.length_append, length_literals hip]
    omega
  · have hfs' : c.frameStart ≤ (b ++ (c.literals.asSlice.drop ip).take ll).length := by
      rw [List.length_append]; omega
    unfold placeSpec
    simp only [hr'.holds.2]
    split
    · exact (appendMatchFromHistory_yields alloc hr'.holds ho (by omega)).agrees
    · exact executeDictionaryMatch_agrees hr'.holds hfs' ho

/-- One placement, whichever copies it uses: the wide ones need their slack where nothing checks. -/
theorem placeSequence_agrees {wildcopyEnd : Nat} {checked : Bool} (h : r.Holds b) (hfs : c.frameStart ≤ b.length)
    (ho : 0 < offset) (hip : ip + ll ≤ c.literals.len) (hpos : 0 < ll + n)
    (hmem : wildcopyEnd = r.mem.length - wildcopyOverlength)
    (hslack : checked = false → r.len + (ll + n) ≤ wildcopyEnd) :
    PlaceAgrees r (placeSequence alloc c wildcopyEnd checked r ip ll offset n) (placeSpec c b ip ll offset n) := by
  unfold placeSequence
  split
  swap
  · exact executeSequenceExact_agrees h hfs ho hip
  rename_i hroom
  have hroom : b.length + (ll + n) + wildcopyOverlength ≤ r.mem.length := by
    have hl := h.2
    unfold wildcopyOverlength at hmem ⊢
    cases checked
    · have := hslack rfl; omega
    · have := hroom.resolve_left (by simp); omega
  have hwild : wildcopyOverlength = 32 := rfl
  have hhead := c.literals.headroom
  unfold literalOverreadHeadroom at hhead
  have hsrc : ip + ll + 16 ≤ c.literals.padded.length := by omega
  have hdst : r.len + ll + 16 ≤ r.mem.length := by rw [h.2]; omega
  obtain ⟨hlen, htake⟩ := copyLiterals_spec hsrc hdst
  have hlit : (c.literals.padded.drop ip).take ll = (c.literals.asSlice.drop ip).take ll := by
    unfold DecodedLiterals.asSlice
    rw [List.drop_take, List.take_take, min_eq_left (by omega)]
  rw [hlit, show r.mem.take r.len = b from h.1] at htake
  unfold placeSpec
  simp only
  generalize copyLiterals r.mem r.len c.literals.padded ip ll = mem at hlen htake
  generalize hb1 : b ++ (c.literals.asSlice.drop ip).take ll = b1 at htake
  have hl1 : b1.length = r.len + ll := by rw [← hb1, List.length_append, length_literals hip, h.2]
  have hholds : ({ r with mem, len := r.len + ll } : Region).Holds b1 := ⟨htake, hl1.symm⟩
  have hlb := h.2
  rw [hl1]
  split
  · -- the match starts in the output
    rename_i hin
    have hreach : offset ≤ r.len + ll := by omega
    have hslack' : r.len + ll + n + wildcopyOverlength ≤ mem.length := by rw [hlen]; omega
    obtain ⟨hlen2, htake2⟩ := copyMatchInline_spec ho hreach hslack'
    rw [htake] at htake2
    refine .of_ok (.inr (by rw [Lz.length_copy ho (by omega)]; omega)) ⟨⟨htake2, ?_⟩, rfl, fun _ => ?_⟩
    · rw [Lz.length_copy ho (by omega), hl1]
    · exact hlen2.trans hlen
  · have hy : r.Yields b1 (.ok { r with mem, len := r.len + ll }) :=
      ⟨fun _ => ⟨_, rfl, hholds, rfl, fun _ => hlen⟩, fun hf => absurd (.inr (by omega)) hf⟩
    have hfs1 : c.frameStart ≤ b1.length := by omega
    refine PlaceAgrees.bind (f := fun r => executeDictionaryMatch alloc c r offset n) hy (fun b' hb' => ?_)
      fun r' hr' => executeDictionaryMatch_agrees hr'.holds hfs1 ho
    rw [length_dictionaryMatchSpec ho hfs1 hb']
    omega

end Place

/-! ## What the specification produces -/

/-- One step of the specification: it consumes its literals and its budget, and produces both parts. -/
structure SpecStep (c : ExecContext) (t t' : ExecState Bytes) : Prop where
  produced : t'.out.length + t'.budget = t.out.length + t.budget
  grows : t.out.length ≤ t'.out.length
  literals : t'.ip ≤ c.literals.len

theorem SpecStep.trans {c : ExecContext} {t t' t'' : ExecState Bytes} (h : SpecStep c t t') (h' : SpecStep c t' t'') :
    SpecStep c t t'' :=
  ⟨h'.produced.trans h.produced, le_trans h.grows h'.grows, h'.literals⟩

section Spec

variable {c : ExecContext} {b : ExecBounds}

theorem executeSequence_specStep (hb : b.literalsLen = c.literals.len) {t t' : ExecState Bytes} {seq : RawSequence}
    (hfs : c.frameStart ≤ t.out.length) (h : executeSequence List.length (placeSpec c) b t seq = .ok t') :
    SpecStep c t t' := by
  unfold executeSequence at h
  simp only at h
  split at h
  · split at h <;> cases h
  rename_i hle
  obtain ⟨out, h1, h2⟩ := bind_ok h
  cases h2
  have := length_placeSpec (t.reps.resolveDecode_pos _ _) hfs (by omega) h1
  exact ⟨by simp only; omega, by simp only; omega, by simp only; omega⟩

theorem sequenceLoop_specStep (hb : b.literalsLen = c.literals.len) {tables : SequenceTablesState} :
    ∀ (n : Nat) {r r' : SequenceReader} {t t' : ExecState Bytes}, c.frameStart ≤ t.out.length → t.ip ≤ c.literals.len →
      sequenceLoop (specSink c) b tables n r t = .ok (r', t') → SpecStep c t t'
  | 0, r, r', t, t', _, hip, h => by cases h; exact ⟨rfl, le_refl _, hip⟩
  | n + 1, r, r', t, t', hfs, _, h => by
    unfold sequenceLoop at h
    obtain ⟨r1, _, h⟩ := bind_ok h
    obtain ⟨t1, h1, h⟩ := bind_ok h
    have hs := executeSequence_specStep hb hfs h1
    simp only at h
    split at h
    · cases h
    · exact hs.trans (sequenceLoop_specStep hb n (le_trans hfs hs.grows) hs.literals h)

theorem runSequences_specStep (hb : b.literalsLen = c.literals.len) {tables : SequenceTablesState}
    {section_ : ParsedSequenceSection} {out : Bytes} {reps : DecoderRepeatOffsets} {t' : ExecState Bytes}
    (hfs : c.frameStart ≤ out.length) (h : runSequences (specSink c) b tables section_ out reps = .ok t') :
    SpecStep c { out, reps, ip := 0, budget := b.budget } t' := by
  unfold runSequences at h
  obtain ⟨r, _, h⟩ := bind_ok h
  obtain ⟨⟨r1, t1⟩, h1, h⟩ := bind_ok h
  have hs := sequenceLoop_specStep hb _ (t := { out, reps, ip := 0, budget := b.budget }) hfs (Nat.zero_le _) h1
  obtain ⟨t2, h2, h⟩ := bind_ok h
  have hs2 := executeSequence_specStep hb (le_trans hfs hs.grows) h2
  simp only [ite_eq_iff, reduceCtorEq, and_false, false_or, Except.ok.injEq] at h
  exact h.2 ▸ hs.trans hs2

end Spec

/-! ## The loop -/

/-- The invariant of the loop, for a destination of capacity `cap`. -/
structure ExecRel (c : ExecContext) (growable : Bool) (cap : Nat) (checked : Bool) (s : ExecState Region)
    (t : ExecState Bytes) : Prop where
  holds : s.out.Holds t.out
  growable : s.out.growable = growable
  capacity : s.out.mem.length = cap
  reps : s.reps = t.reps
  ip : s.ip = t.ip
  budget : s.budget = t.budget
  frame : c.frameStart ≤ t.out.length
  slack : checked = false → t.out.length + t.budget ≤ cap - wildcopyOverlength

/-- Every placement of an executor agrees with the specification's, on a region of capacity `cap`
whose slack is only promised where nothing is checked. -/
def PlacesRight (c : ExecContext) (cap : Nat) (checked : Bool)
    (place : Region → Nat → Nat → Nat → Nat → Result Region) : Prop :=
  ∀ {r : Region} {b : Bytes} {ip ll offset n : Nat}, r.Holds b → r.mem.length = cap → c.frameStart ≤ b.length →
    0 < offset → ip + ll ≤ c.literals.len → 0 < ll + n →
    (checked = false → r.len + (ll + n) ≤ cap - wildcopyOverlength) →
    PlaceAgrees r (place r ip ll offset n) (placeSpec c b ip ll offset n)

/-- An executor that agrees with the specification, whichever of its two placements it uses. -/
structure SinkAgrees (c : ExecContext) (cap : Nat) (checked : Bool) (sink : Sink Region) : Prop where
  len : sink.len = Region.len
  place : PlacesRight c cap checked sink.place
  placeLast : PlacesRight c cap checked sink.placeLast

/-- The executor of the tail, used for every sequence. -/
def exactSink (alloc : Allocator) (c : ExecContext) : Sink Region :=
  { len := Region.len, place := executeSequenceExact alloc c, placeLast := executeSequenceExact alloc c }

theorem placeSequence_placesRight {alloc : Allocator} {c : ExecContext} {cap : Nat} {checked checkedHere : Bool}
    (hch : checkedHere = false → checked = false) :
    PlacesRight c cap checked (placeSequence alloc c (cap - wildcopyOverlength) checkedHere) := by
  intro r b ip ll offset n h hcap hfs ho hip hpos hslack
  exact placeSequence_agrees h hfs ho hip hpos (by rw [hcap]) fun hc => hslack (hch hc)

theorem regionSink_agrees (alloc : Allocator) (c : ExecContext) (cap : Nat) {checked checkedHere : Bool}
    (hch : checkedHere = false → checked = false) :
    SinkAgrees c cap checked (regionSink alloc c (cap - wildcopyOverlength) checkedHere) :=
  ⟨rfl, placeSequence_placesRight hch, placeSequence_placesRight (by simp)⟩

theorem exactSink_agrees (alloc : Allocator) (c : ExecContext) (cap : Nat) (checked : Bool) :
    SinkAgrees c cap checked (exactSink alloc c) := by
  have h : PlacesRight c cap checked (executeSequenceExact alloc c) :=
    fun h _ hfs ho hip _ _ => executeSequenceExact_agrees h hfs ho hip
  exact ⟨rfl, h, h⟩

section Loop

variable {c : ExecContext} {b : ExecBounds} {growable : Bool} {cap : Nat} {checked : Bool} {sink : Sink Region}

/-- What fits a destination of capacity `cap`. -/
def FitsCap (growable : Bool) (cap : Nat) (t : ExecState Bytes) : Prop := growable = true ∨ t.out.length ≤ cap

theorem executeSequence_agrees (hg : growable = true → checked = false) (hb : b.literalsLen = c.literals.len)
    {place : Region → Nat → Nat → Nat → Nat → Result Region} (hp : PlacesRight c cap checked place)
    {s : ExecState Region} {t : ExecState Bytes} (h : ExecRel c growable cap checked s t) {seq : RawSequence}
    (hpos : 0 < seq.matchLength) :
    Agrees (FitsCap growable cap) (growable = true) (ExecRel c growable cap checked)
      (executeSequence Region.len place b s seq) (executeSequence List.length (placeSpec c) b t seq) := by
  obtain ⟨hholds, rfl, rfl, hreps, hip, hbud, hfs, hslack⟩ := h
  unfold executeSequence
  simp only [hreps, hip, hbud, hholds.2]
  split
  · split <;> exact .of_error _
  rename_i hle
  have hiple : t.ip + seq.literalLength ≤ c.literals.len := by omega
  have hop := t.reps.resolveDecode_pos seq.offsetValue seq.literalLength
  have hplace := hp (n := seq.matchLength) hholds rfl hfs hop hiple (by omega)
    (fun hc => by rw [hholds.2]; have := hslack hc; omega)
  refine hplace.map (fun b' _ => Iff.rfl) fun r' b' hb' hf hr => ?_
  have hlen := length_placeSpec hop hfs hiple hb'
  have hnew : checked = false →
      b'.length + (t.budget - (seq.literalLength + seq.matchLength)) ≤ s.out.mem.length - wildcopyOverlength :=
    fun hc => by have := hslack hc; omega
  refine ⟨hr.holds, hr.growable, hr.inPlace ?_, rfl, rfl, rfl, by simp only; omega, hnew⟩
  rcases hf with hf | hf
  · have := hnew (hg hf)
    omega
  · exact hf

theorem entryAt_mem {t : SequenceDTable} {state : Nat} {e : SequenceDecodeEntry} (h : entryAt t state = .ok e) :
    e ∈ t.entries := by
  unfold entryAt at h
  split at h
  · rename_i he; cases h; exact List.mem_of_getElem? he
  · cases h

theorem updateStates_baseline {tables : SequenceTablesState} (ht : tables.Ok) {r r' : SequenceReader}
    (h : updateStates tables r = .ok r') : 0 < r'.ml.baseline := by
  obtain ⟨lit, _, h⟩ := bind_ok h
  obtain ⟨ml, h1, h⟩ := bind_ok h
  obtain ⟨off, _, h⟩ := bind_ok h
  cases h
  exact ht.matchBaseline _ (entryAt_mem h1)

theorem initSequenceReader_baseline {tables : SequenceTablesState} (ht : tables.Ok) {bitstream : Bytes}
    {r : SequenceReader} (h : initSequenceReader bitstream tables = .ok r) : 0 < r.ml.baseline := by
  obtain ⟨bitD, _, h⟩ := bind_ok h
  obtain ⟨lit, _, h⟩ := bind_ok h
  obtain ⟨off, _, h⟩ := bind_ok h
  obtain ⟨ml, h1, h⟩ := bind_ok h
  cases h
  exact ht.matchBaseline _ (entryAt_mem h1)

theorem decodeSequence_matchLength {r r' : SequenceReader} {seq : RawSequence} (h : 0 < r.ml.baseline)
    (hd : decodeSequence r = (seq, r')) : 0 < seq.matchLength := by
  have : 0 < (decodeSequence r).1.matchLength := Nat.add_pos_left h _
  rwa [hd] at this

theorem sequenceLoop_agrees (hg : growable = true → checked = false) (hb : b.literalsLen = c.literals.len)
    (hsink : SinkAgrees c cap checked sink)
    {tables : SequenceTablesState} (ht : tables.Ok) :
    ∀ (n : Nat) {r : SequenceReader} {s : ExecState Region} {t : ExecState Bytes}, 0 < r.ml.baseline →
      t.ip ≤ c.literals.len → ExecRel c growable cap checked s t →
      Agrees (fun t => FitsCap growable cap t.2) (growable = true)
        (fun s t => s.1 = t.1 ∧ 0 < t.1.ml.baseline ∧ ExecRel c growable cap checked s.2 t.2)
        (sequenceLoop sink b tables n r s)
        (sequenceLoop (specSink c) b tables n r t)
  | 0, r, s, t, hr, hip, h => by
    refine .of_ok (.inr ?_) ⟨rfl, hr, h⟩
    rw [← h.holds.2, ← h.capacity]
    exact h.holds.le
  | n + 1, r, s, t, hr, hip, h => by
    unfold sequenceLoop
    rw [hsink.len]
    cases hd : decodeSequence r with | mk seq r0 => ?_
    refine .bind_same fun r1 h1 => ?_
    refine (executeSequence_agrees hg hb hsink.place h (decodeSequence_matchLength hr hd)).bind (fun t' hgr => .inl hgr)
      (fun t1 t2 ht1 ht2 hf => ?_) fun s1 t1 ht1 hf hrel => ?_
    · have hs := executeSequence_specStep hb h.frame ht1
      refine hf.imp id fun hf => le_trans ?_ hf
      simp only at ht2
      split at ht2
      · cases ht2
      · exact (sequenceLoop_specStep hb n (le_trans h.frame hs.grows) hs.literals ht2).grows
    · simp only
      split
      · exact .of_error _
      · have hr1 := updateStates_baseline ht h1
        exact sequenceLoop_agrees hg hb hsink ht n (by exact hr1)
          (executeSequence_specStep hb h.frame ht1).literals hrel

/-- The run lemma: every executor that agrees placement by placement agrees on the whole block. -/
theorem runSequences_agrees (hg : growable = true → checked = false) (hb : b.literalsLen = c.literals.len)
    (hsink : SinkAgrees c cap checked sink)
    {tables : SequenceTablesState} (ht : tables.Ok) (section_ : ParsedSequenceSection) {region : Region} {out : Bytes}
    {reps : DecoderRepeatOffsets}
    (h : ExecRel c growable cap checked { out := region, reps, ip := 0, budget := b.budget }
      { out, reps, ip := 0, budget := b.budget }) :
    Agrees (FitsCap growable cap) (growable = true) (ExecRel c growable cap checked)
      (runSequences sink b tables section_ region reps)
      (runSequences (specSink c) b tables section_ out reps) := by
  unfold runSequences
  rw [hsink.len]
  refine .bind_same fun r hr => ?_
  refine (sequenceLoop_agrees hg hb hsink ht _ (initSequenceReader_baseline ht hr) (Nat.zero_le _) h).bind
    (fun _ hgr => .inl hgr) (fun t1 t2 ht1 ht2 hf => ?_) ?_
  · -- the last sequence only adds to the output
    have hs := sequenceLoop_specStep hb _ h.frame (Nat.zero_le _) ht1
    obtain ⟨t3, h3, h4⟩ := bind_ok ht2
    simp only [ite_eq_iff, reduceCtorEq, and_false, false_or, Except.ok.injEq] at h4
    exact hf.imp id fun hf => le_trans (executeSequence_specStep hb (le_trans h.frame hs.grows) h3).grows (h4.2 ▸ hf)
  · rintro ⟨r1, s1⟩ ⟨r2, t1⟩ ht1 hf ⟨hrr, hr1, hrel⟩
    simp only at hrr hr1 hrel ⊢
    subst hrr
    cases hd : decodeSequence r1 with | mk seq r0 => ?_
    refine (executeSequence_agrees hg hb hsink.placeLast hrel
      (decodeSequence_matchLength hr1 hd)).bind (fun _ hgr => .inl hgr) (fun t2 t3 ht2 ht3 hf => ?_)
      fun s2 t2 ht2 hf hrel => ?_
    · simp only [ite_eq_iff, reduceCtorEq, and_false, false_or, Except.ok.injEq] at ht3
      exact ht3.2 ▸ hf
    · split
      · exact .of_error _
      · exact .of_ok hf hrel

end Loop

/-! ## A whole block -/

/-- A destination of capacity `room` (any, for a growable one) that holds `b`. -/
structure OutputRel (room : Option Nat) (out : DecodeOut) (b : Bytes) : Prop where
  room : out.room = room
  holds : out.asSlice = b

/-- What a destination of capacity `room` can hold. -/
def FitsRoom (room : Option Nat) (b : Bytes) : Prop := ∀ cap ∈ room, b.length ≤ cap

theorem OutputRel.len {room : Option Nat} {out : DecodeOut} {b : Bytes} (h : OutputRel room out b) :
    out.len = b.length := by
  rw [← h.holds, DecodeOut.length_asSlice]

theorem DecodeOut.append_agrees {room : Option Nat} {out : DecodeOut} {b : Bytes} (h : OutputRel room out b)
    (bytes : Bytes) :
    Agrees (FitsRoom room) (room = none) (OutputRel room) (out.append bytes) (.ok (b ++ bytes)) := by
  obtain ⟨rfl, rfl⟩ := h
  cases out with
  | growable buf => exact .of_ok (fun _ h => (nomatch h)) ⟨rfl, rfl⟩
  | fixed dst =>
    have hle := dst.le
    have hlen : (dst.buf.take dst.len).length = dst.len := by simp; omega
    unfold append asSlice DecodeOut.room
    simp only
    split
    · rename_i hroom
      refine .of_ok (fun cap hcap => ?_) ⟨?_, ?_⟩
      · cases hcap; rw [List.length_append, hlen]; exact hroom
      · simp only [DecodeOut.room]; rw [Lz.length_write hroom]
      · exact Lz.take_write hroom
    · rename_i hroom
      refine ⟨fun b' hb' hf => ?_, fun b' hb' hf => ⟨_, rfl⟩, fun e he => (nomatch he)⟩
      cases hb'
      have := hf _ rfl
      rw [List.length_append, hlen] at this
      exact absurd this hroom

theorem appendTrailingLiterals_agrees {room : Option Nat} {out : DecodeOut} {b : Bytes} (h : OutputRel room out b)
    (literals : Bytes) (cursor blockBytes outputBytes : Nat) (limit : OutputLimit) :
    Agrees (FitsRoom room) (room = none) (OutputRel room)
      (appendTrailingLiterals out literals cursor blockBytes outputBytes limit)
      (appendTrailingSpec b literals cursor blockBytes outputBytes limit) := by
  unfold appendTrailingLiterals appendTrailingSpec
  split
  · exact .of_error _
  · rw [h.len]
    exact .bind_same fun _ _ => DecodeOut.append_agrees h _

theorem appendTrailingSpec_ok {b b' literals : Bytes} {cursor blockBytes outputBytes : Nat} {limit : OutputLimit}
    (h : appendTrailingSpec b literals cursor blockBytes outputBytes limit = .ok b') :
    b.length ≤ b'.length ∧ b'.length ≤ b.length + blockBytes := by
  unfold appendTrailingSpec at h
  split at h
  · cases h
  obtain ⟨_, h1, h⟩ := bind_ok h
  cases h
  unfold ensureDecodeOutputRoom at h1
  split at h1
  · cases h1
  · rw [List.length_append]; omega

/-- The region of a destination, before the first sequence of a block. -/
theorem DecodeOut.region_execRel (alloc : Allocator) {c : ExecContext} {room : Option Nat} {out : DecodeOut}
    {b : Bytes} (h : OutputRel room out b) (hfs : c.frameStart ≤ b.length) (remaining blockSizeMax : Nat)
    (reps : DecoderRepeatOffsets) :
    let region := out.region alloc (min remaining blockSizeMax + wildcopyOverlength)
    let checked : Bool := ¬ out.len + min blockSizeMax remaining ≤ region.mem.length - wildcopyOverlength
    region.growable = decide (room = none) ∧ (region.growable = true → checked = false) ∧
      (∀ cap ∈ room, region.mem.length = cap) ∧
      ExecRel c region.growable region.mem.length checked
        { out := region, reps, ip := 0, budget := min blockSizeMax remaining }
        { out := b, reps, ip := 0, budget := min blockSizeMax remaining } := by
  intro region checked
  have hlen := h.len
  obtain ⟨rfl, rfl⟩ := h
  have hchecked : checked = false → (asSlice out).length + min blockSizeMax remaining ≤
      region.mem.length - wildcopyOverlength := by
    intro hc
    rw [← hlen]
    simpa [checked] using hc
  cases out with
  | growable buf =>
    have henough := alloc.enough buf (min remaining blockSizeMax + wildcopyOverlength)
    refine ⟨rfl, fun _ => ?_, by rintro _ ⟨⟩, ⟨List.take_left, rfl⟩, rfl, rfl, rfl, rfl, rfl, hfs, hchecked⟩
    simp only [checked, decide_eq_false_iff_not, not_not, region, DecodeOut.region, DecodeOut.len, List.length_append]
    omega
  | fixed dst =>
    refine ⟨rfl, by rintro ⟨⟩, fun _ hc => ?_, ⟨rfl, ?_⟩, rfl, rfl, rfl, rfl, rfl, hfs, hchecked⟩
    · cases hc; rfl
    · exact (length_asSlice (.fixed dst)).symm

theorem Region.toOut_rel {r : Region} {b : Bytes} (h : r.Holds b) (room : Option Nat)
    (hg : r.growable = decide (room = none)) (hcap : ∀ cap ∈ room, r.mem.length = cap) : OutputRel room r.toOut b := by
  have hle := h.le
  unfold toOut
  cases room with
  | none =>
    simp only [decide_true] at hg
    rw [if_pos hg]
    exact ⟨rfl, h.1⟩
  | some cap =>
    simp only [reduceCtorEq, decide_false] at hg
    rw [if_neg (by simp [hg])]
    refine ⟨by simp [DecodeOut.room, hcap cap rfl], ?_⟩
    show r.mem.take (min r.len r.mem.length) = b
    rw [min_eq_left hle]; exact h.1

/-- How the outcomes of a block on a destination and on a list are related. -/
structure OutcomeRel (room : Option Nat) (x : BlockOutcome DecodeOut) (y : BlockOutcome Bytes) : Prop where
  out : OutputRel room x.out y.out
  tables : x.tables = y.tables
  reps : x.reps = y.reps

/-- The refinement: on a growable destination the executor gives the bytes, states and errors of
the specification; on a fixed one it succeeds exactly when the specification does and the bytes fit. -/
theorem decodeAndExecuteSequences_agrees (alloc : Allocator) {room : Option Nat} {out : DecodeOut} {b : Bytes}
    (h : OutputRel room out b) {tables : SequenceTablesState} (ht : tables.Ok) {c : ExecContext}
    (hfs : c.frameStart ≤ b.length) (section_ : ParsedSequenceSection) (blockSizeMax : Nat)
    (reps : DecoderRepeatOffsets) (limit : OutputLimit) :
    Agrees (fun o => FitsRoom room o.out) (room = none) (OutcomeRel room)
      (decodeAndExecuteSequences alloc section_ tables out c blockSizeMax reps limit)
      (executeSequencesSpec section_ tables b c blockSizeMax reps limit) := by
  unfold decodeAndExecuteSequences executeSequencesSpec
  rw [h.len]
  split
  · refine .bind_same fun remaining _ => ?_
    exact (appendTrailingLiterals_agrees h _ _ _ _ _).map (fun _ _ => Iff.rfl) fun _ _ _ _ hr => ⟨hr, rfl, rfl⟩
  refine .bind_same fun tables' ht' => .bind_same fun remaining _ => ?_
  obtain ⟨hg, hch, hcap, hrel⟩ := DecodeOut.region_execRel alloc h hfs remaining blockSizeMax reps
  rw [h.len] at hch hrel
  generalize out.region alloc (min remaining blockSizeMax + wildcopyOverlength) = region at *
  have hfits : ∀ t : ExecState Bytes, FitsCap region.growable region.mem.length t ↔ FitsRoom room t.out := by
    intro t
    unfold FitsCap FitsRoom
    rw [hg]
    cases room with
    | none => simp
    | some cap => simp [hcap cap rfl]
  let bounds : ExecBounds :=
    { literalsLen := c.literals.len, blockRemaining := blockSizeMax, outputRemaining := remaining, limit }
  have hrun := runSequences_agrees (b := bounds) hch rfl (regionSink_agrees alloc c _ id) (setupTables_tablesOk ht ht')
    section_ hrel
  rw [show (region.growable = true) = (room = none) by rw [hg]; simp] at hrun
  simp only
  refine hrun.bind (fun t hr => (hfits t).2 fun cap hc => by rw [hr] at hc; cases hc) (fun t o _ ho hf => ?_)
    fun s t _ _ hr => ?_
  · obtain ⟨out', h1, h2⟩ := bind_ok ho
    cases h2
    exact (hfits t).2 fun cap hc => le_trans (appendTrailingSpec_ok h1).1 (hf cap hc)
  · have hout := Region.toOut_rel hr.holds room (hr.growable.trans hg)
      fun cap hc => hr.capacity.trans (hcap cap hc)
    rw [hr.ip, hr.budget, hr.reps]
    exact (appendTrailingLiterals_agrees hout _ _ _ _ _).map (fun _ _ => Iff.rfl) fun _ _ _ _ hr => ⟨hr, rfl, rfl⟩

/-- What a block of sequences produces: at most a block of bytes behind what was there, and tables
that stay in their alphabets. -/
theorem executeSequencesSpec_ok {section_ : ParsedSequenceSection} {tables : SequenceTablesState} (ht : tables.Ok)
    {b : Bytes} {c : ExecContext} (hfs : c.frameStart ≤ b.length) {blockSizeMax : Nat} {reps : DecoderRepeatOffsets}
    {limit : OutputLimit} {o : BlockOutcome Bytes}
    (h : executeSequencesSpec section_ tables b c blockSizeMax reps limit = .ok o) :
    b.length ≤ o.out.length ∧ o.out.length ≤ b.length + blockSizeMax ∧ o.tables.Ok := by
  unfold executeSequencesSpec at h
  split at h
  · obtain ⟨remaining, _, h⟩ := bind_ok h
    obtain ⟨out, h1, h⟩ := bind_ok h
    cases h
    exact ⟨(appendTrailingSpec_ok h1).1, (appendTrailingSpec_ok h1).2, ht⟩
  · obtain ⟨tables', h1, h⟩ := bind_ok h
    obtain ⟨remaining, _, h⟩ := bind_ok h
    obtain ⟨t, h2, h⟩ := bind_ok h
    obtain ⟨out, h3, h⟩ := bind_ok h
    cases h
    obtain ⟨h4, h5, -⟩ := runSequences_specStep rfl hfs h2
    obtain ⟨h6, h7⟩ := appendTrailingSpec_ok h3
    simp only [ExecBounds.budget] at h4 h5 h7
    refine ⟨by simp only; omega, by simp only; omega, setupTables_tablesOk ht h1⟩

end Zstandard
