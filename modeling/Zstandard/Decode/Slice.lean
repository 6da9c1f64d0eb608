/-
Decoding into a caller's slice gives the bytes of `decode_all` whenever they fit, and fails
otherwise: the drivers, run on a destination and on a list, agree at every step.

The step lemma is one block, the run lemmas are the loops over blocks and frames. What fits at the
end fitted before, because a driver only adds to its output.
-/
import Zstandard.Decode.OneShot

namespace Zstandard

open Bounded

/-! ## What the drivers leave on a list -/

theorem Cursor.readExact_ok {c c' : Cursor} {n : Nat} {bytes : Bytes} (h : c.readExact n = .ok (bytes, c')) :
    c.pos + n ≤ c.src.length ∧ bytes = (c.src.drop c.pos).take n ∧ c' = { c with pos := c.pos + n } := by
  obtain ⟨b, h1, h⟩ := bind_ok h
  cases h
  obtain ⟨_, h2, h3⟩ := getRange_ok h1
  exact ⟨h2, by rw [h3]; congr 1; omega, rfl⟩

theorem decodeFrameBlock_decoded {cursor cursor' : Cursor} {header : BlockHeader} {p : FrameParams}
    {st st' : EntropyState} (hst : st.Ok) {out out' : Bytes} (hfs : p.frameStart ≤ out.length) {limit : OutputLimit}
    (h : decodeFrameBlock bytesOutput cursor header p st out limit = .ok (cursor', out', st')) :
    BlockDecoded out p.blockSizeMax (out', st') := by
  unfold decodeFrameBlock at h
  cases ht : header.blockType with
  | raw =>
    simp only [ht] at h
    split at h
    · cases h
    obtain ⟨⟨data, c⟩, h1, h⟩ := bind_ok h
    obtain ⟨out1, h2, h⟩ := bind_ok h
    cases h
    obtain ⟨h3, rfl, -⟩ := Cursor.readExact_ok h1
    rw [appendBytes_bytes h2]
    simp only [BlockHeader.payloadSize, ht] at *
    exact ⟨by simp, by simp; omega, hst⟩
  | rle =>
    simp only [ht] at h
    split at h
    · cases h
    obtain ⟨⟨byte, c⟩, _, h⟩ := bind_ok h
    obtain ⟨out1, h2, h⟩ := bind_ok h
    cases h
    rw [appendRepeated_bytes h2]
    exact ⟨by simp, by simp; omega, hst⟩
  | compressed =>
    simp only [ht] at h
    obtain ⟨⟨data, c⟩, _, h⟩ := bind_ok h
    obtain ⟨r, h2, h⟩ := bind_ok h
    cases h
    exact decodeCompressedBlockInto_decoded hst hfs h2

theorem decodeBlocks_grows {p : FrameParams} {limit : OutputLimit} :
    ∀ (fuel : Nat) {cursor cursor' : Cursor} {st : EntropyState} {out out' : Bytes}, st.Ok → p.frameStart ≤ out.length →
      decodeBlocks bytesOutput p limit fuel cursor st out = .ok (cursor', out') → out.length ≤ out'.length
  | 0, _, _, _, _, _, _, _, h => by cases h
  | fuel + 1, cursor, cursor', st, out, out', hst, hfs, h => by
    unfold decodeBlocks at h
    obtain ⟨⟨bytes, c⟩, _, h⟩ := bind_ok h
    obtain ⟨header, _, h⟩ := bind_ok h
    obtain ⟨⟨c1, out1, st1⟩, h1, h⟩ := bind_ok h
    have hd := decodeFrameBlock_decoded hst hfs h1
    simp only at h
    split at h
    · cases h; exact hd.grows
    · exact le_trans hd.grows (decodeBlocks_grows fuel hd.ok (le_trans hfs hd.grows) h)

theorem decodeZstandardFrame_grows {options : DecoderOptions} {dictionary : Option DecoderDictionary}
    {cursor cursor' : Cursor} {header : ZstandardFrameHeader} {out out' : Bytes}
    (h : decodeZstandardFrame bytesOutput options dictionary cursor header out = .ok (cursor', out')) :
    out.length ≤ out'.length := by
  unfold decodeZstandardFrame at h
  obtain ⟨⟨_, c⟩, _, h⟩ := bind_ok h
  obtain ⟨_, _, h⟩ := bind_ok h
  obtain ⟨⟨c1, out1⟩, h1, h⟩ := bind_ok h
  obtain ⟨c2, _, h⟩ := bind_ok h
  obtain ⟨_, _, h⟩ := bind_ok h
  cases h
  exact decodeBlocks_grows _ (EntropyState.initial_ok dictionary) (by exact le_refl _) h1

theorem decodeFrames_grows {options : DecoderOptions} {dictionary : Option DecoderDictionary} :
    ∀ (fuel : Nat) {cursor : Cursor} {out out' : Bytes},
      decodeFrames bytesOutput options dictionary fuel cursor out = .ok out' → out.length ≤ out'.length
  | 0, cursor, out, out', h => by
    unfold decodeFrames at h
    split at h
    · cases h; exact le_refl _
    · cases h
  | fuel + 1, cursor, out, out', h => by
    unfold decodeFrames at h
    split at h
    · cases h; exact le_refl _
    obtain ⟨fh, _, h⟩ := bind_ok h
    cases fh with
    | skippable frame =>
      simp only at h
      split at h
      · cases h
      obtain ⟨c, _, h⟩ := bind_ok h
      exact decodeFrames_grows fuel h
    | zstandard header =>
      obtain ⟨⟨c, out1⟩, h1, h⟩ := bind_ok h
      simp only at h
      split at h
      · cases h
      exact le_trans (decodeZstandardFrame_grows h1) (decodeFrames_grows fuel h)

/-! ## The drivers on both destinations -/

section Agreement

variable {σ : Type} {o : Output σ} {room : Option Nat} {rel : σ → Bytes → Prop} (ho : OutputAgrees o room rel)

include ho

theorem decodeFrameBlock_agrees {out : σ} {b : Bytes} (h : rel out b) (cursor : Cursor) (header : BlockHeader)
    {p : FrameParams} {st : EntropyState} (hst : st.Ok) (hfs : p.frameStart ≤ b.length) (limit : OutputLimit) :
    Agrees (fun r => FitsRoom room r.2.1) (room = none) (fun x y => x.1 = y.1 ∧ rel x.2.1 y.2.1 ∧ x.2.2 = y.2.2)
      (decodeFrameBlock o cursor header p st out limit) (decodeFrameBlock bytesOutput cursor header p st b limit) := by
  unfold decodeFrameBlock
  cases header.blockType with
  | raw =>
    simp only
    split
    · exact .of_error _
    refine .bind_same fun ⟨data, c⟩ _ => ?_
    exact (appendBytes_agrees ho h data limit).map (fun _ _ => Iff.rfl) fun _ _ _ _ hr => ⟨rfl, hr, rfl⟩
  | rle =>
    simp only
    split
    · exact .of_error _
    refine .bind_same fun ⟨byte, c⟩ _ => ?_
    exact (appendRepeated_agrees ho h byte _ limit).map (fun _ _ => Iff.rfl) fun _ _ _ _ hr => ⟨rfl, hr, rfl⟩
  | compressed =>
    refine .bind_same fun ⟨data, c⟩ _ => ?_
    exact (decodeCompressedBlockInto_agrees ho h data hst hfs limit).map (fun _ _ => Iff.rfl)
      fun _ _ _ _ hr => ⟨rfl, hr.1, hr.2⟩

theorem decodeBlocks_agrees {p : FrameParams} (limit : OutputLimit) :
    ∀ (fuel : Nat) {out : σ} {b : Bytes} (cursor : Cursor) {st : EntropyState}, rel out b → st.Ok →
      p.frameStart ≤ b.length →
      Agrees (fun r => FitsRoom room r.2) (room = none) (fun x y => x.1 = y.1 ∧ rel x.2 y.2)
        (decodeBlocks o p limit fuel cursor st out) (decodeBlocks bytesOutput p limit fuel cursor st b)
  | 0, _, _, _, _, _, _, _ => .of_error _
  | fuel + 1, out, b, cursor, st, h, hst, hfs => by
    unfold decodeBlocks
    refine .bind_same fun ⟨bytes, c⟩ _ => .bind_same fun header _ => ?_
    refine (decodeFrameBlock_agrees ho h c header hst hfs limit).bind (fun r hr => by simp [FitsRoom, hr])
      ?_ ?_
    · rintro ⟨c1, b1, st1⟩ ⟨c2, b2⟩ h1 h2 hf cap hcap
      have hd := decodeFrameBlock_decoded hst hfs h1
      refine le_trans ?_ (hf cap hcap)
      simp only at h2
      split at h2
      · cases h2; exact le_refl _
      · exact decodeBlocks_grows fuel hd.ok (le_trans hfs hd.grows) h2
    · rintro ⟨c1, out1, st1⟩ ⟨c2, b1, st2⟩ h1 hf ⟨hc, hr, hs⟩
      simp only at hc hr hs
      subst hc hs
      have hd := decodeFrameBlock_decoded hst hfs h1
      simp only
      split
      · exact .of_ok hf ⟨rfl, hr⟩
      · exact decodeBlocks_agrees limit fuel c1 hr hd.ok (le_trans hfs hd.grows)

theorem decodeZstandardFrame_agrees (options : DecoderOptions) (dictionary : Option DecoderDictionary)
    (cursor : Cursor) (header : ZstandardFrameHeader) {out : σ} {b : Bytes} (h : rel out b) :
    Agrees (fun r => FitsRoom room r.2) (room = none) (fun x y => x.1 = y.1 ∧ rel x.2 y.2)
      (decodeZstandardFrame o options dictionary cursor header out)
      (decodeZstandardFrame bytesOutput options dictionary cursor header b) := by
  unfold decodeZstandardFrame
  refine .bind_same fun ⟨_, c⟩ _ => ?_
  simp only [ho.len out b h]
  refine .bind_same fun _ _ => ?_
  refine (decodeBlocks_agrees ho _ _ _ h (EntropyState.initial_ok dictionary) (by exact le_refl _)).bind
    (fun r hr => by simp [FitsRoom, hr]) ?_ ?_
  · rintro ⟨c1, b1⟩ ⟨c2, b2⟩ h1 h2 hf
    obtain ⟨_, _, h2⟩ := bind_ok h2
    obtain ⟨_, _, h2⟩ := bind_ok h2
    cases h2
    exact hf
  · rintro ⟨c1, out1⟩ ⟨c2, b1⟩ h1 hf ⟨hc, hr⟩
    simp only at hc hr
    subst hc
    simp only [ho.len out1 b1 hr, ho.asSlice out1 b1 hr]
    exact .bind_same fun c3 _ => .bind_same fun _ _ => .of_ok hf ⟨rfl, hr⟩

theorem decodeFrames_agrees (options : DecoderOptions) (dictionary : Option DecoderDictionary) :
    ∀ (fuel : Nat) (cursor : Cursor) {out : σ} {b : Bytes}, rel out b → FitsRoom room b →
      Agrees (FitsRoom room) (room = none) rel (decodeFrames o options dictionary fuel cursor out)
        (decodeFrames bytesOutput options dictionary fuel cursor b)
  | 0, cursor, out, b, h, hf => by
    unfold decodeFrames
    split
    · exact .of_ok hf h
    · exact .of_error _
  | fuel + 1, cursor, out, b, h, hf => by
    unfold decodeFrames
    split
    · exact .of_ok hf h
    refine .bind_same fun fh _ => ?_
    cases fh with
    | skippable frame =>
      simp only
      split
      · exact .of_error _
      · exact .bind_same fun c _ => decodeFrames_agrees options dictionary fuel c h hf
    | zstandard header =>
      refine (decodeZstandardFrame_agrees ho options dictionary cursor header h).bind
        (fun r hr => by simp [FitsRoom, hr]) ?_ ?_
      · rintro ⟨c1, b1⟩ b2 h1 h2 hf' cap hcap
        refine le_trans ?_ (hf' cap hcap)
        simp only at h2
        split at h2
        · cases h2
        · exact decodeFrames_grows fuel h2
      · rintro ⟨c1, out1⟩ ⟨c2, b1⟩ h1 hf' ⟨hc, hr⟩
        simp only at hc hr
        subst hc
        simp only
        split
        · exact .of_error _
        · exact decodeFrames_agrees options dictionary fuel c1 hr hf'

theorem decodeInto_agrees (options : DecoderOptions) (dictionary : Option DecoderDictionary) (src : Bytes) {out : σ}
    (h : rel out []) :
    Agrees (FitsRoom room) (room = none) rel (decodeInto o options dictionary src out)
      (decodeInto bytesOutput options dictionary src []) := by
  unfold decodeInto
  split
  · exact .of_error _
  · exact decodeFrames_agrees ho options dictionary _ _ h fun cap _ => Nat.zero_le cap

end Agreement

/-! ## Slices -/

/-- `decode_all` is the drivers' specification, whatever the allocator does. -/
theorem decodeAll_eq (alloc : Allocator) (options : DecoderOptions) (dictionary : Option DecoderDictionary)
    (src : Bytes) :
    decodeAll alloc options dictionary src = decodeInto bytesOutput options dictionary src [] := by
  have hstart : OutputRel none (.growable []) [] := ⟨rfl, rfl⟩
  obtain ⟨hok, -, herr⟩ := decodeInto_agrees (decodeOutput_agrees alloc none) options dictionary src hstart
  unfold decodeAll
  cases hy : decodeInto bytesOutput options dictionary src [] with
  | error e =>
    obtain ⟨e', he, hee⟩ := herr e hy
    rw [he, hee rfl]
    rfl
  | ok b =>
    obtain ⟨out, hx, hr⟩ := hok b hy fun cap hcap => (nomatch hcap)
    rw [hx, ← hr.holds]
    rfl

theorem decodeIntoSlice_iff (alloc : Allocator) (options : DecoderOptions) (dictionary : Option DecoderDictionary)
    (src dst : Bytes) (n : Nat) (bytes : Bytes) :
    decodeIntoSlice alloc options dictionary src dst = .ok (n, bytes) ↔
      decodeInto bytesOutput options dictionary src [] = .ok bytes ∧ bytes.length ≤ dst.length ∧ n = bytes.length := by
  have hstart : OutputRel (some dst.length) (.fixedOf dst) [] := ⟨rfl, rfl⟩
  have h := (decodeInto_agrees (decodeOutput_agrees alloc (some dst.length)) options dictionary src hstart).ok_iff
    (fun _ _ hr => hr.holds) bytes
  have hfits : FitsRoom (some dst.length) bytes ↔ bytes.length ≤ dst.length := by simp [FitsRoom]
  rw [hfits] at h
  unfold decodeIntoSlice
  cases hx : decodeInto (decodeOutput alloc) options dictionary src (.fixedOf dst) with
  | error e =>
    rw [hx] at h
    simp only [error_bind, reduceCtorEq, false_iff]
    rintro ⟨h1, h2, -⟩
    exact (nomatch h.2 ⟨h1, h2⟩)
  | ok out =>
    rw [hx] at h
    simp only [ok_bind, Except.ok.injEq, Prod.mk.injEq, map_ok] at h ⊢
    rw [← and_assoc, ← h, and_comm]
    refine and_congr_right fun ho => ?_
    rw [← ho, DecodeOut.length_asSlice, eq_comm]

/-! ## The executors -/

/-- The sequence tables a decoder can have when it comes to execute a block: a dictionary's or none,
and what parsing sections and setting up their tables makes of them. -/
inductive SequenceTablesState.Reached (dictionary : Option DecoderDictionary) : SequenceTablesState → Prop
  | start : Reached dictionary (EntropyState.initial dictionary).sequences
  | parsed {src : Bytes} {tables tables' : SequenceTablesState} {target : TableTarget} {s : ParsedSequenceSection} :
    Reached dictionary tables → parseSequenceSection src tables target = .ok (s, tables') → Reached dictionary tables'
  | setup {tables tables' : SequenceTablesState} :
    Reached dictionary tables → setupTables tables = .ok tables' → Reached dictionary tables'

theorem SequenceTablesState.Reached.ok {dictionary : Option DecoderDictionary} {tables : SequenceTablesState}
    (h : tables.Reached dictionary) : tables.Ok := by
  induction h with
  | start => exact EntropyState.initial_ok dictionary
  | parsed _ hp ih => exact parseSequenceSection_tablesOk ih hp
  | setup _ hs ih => exact setupTables_tablesOk ih hs

/-- What an executor is judged by: the decoded bytes, the repeat offsets, the literals used and the
budget left. -/
def ExecState.result (s : ExecState Region) : Bytes × DecoderRepeatOffsets × Nat × Nat :=
  (s.out.asSlice, s.reps, s.ip, s.budget)

theorem ExecRel.result_eq {c : ExecContext} {growable checked : Bool} {cap : Nat} {s : ExecState Region}
    {t : ExecState Bytes} (h : ExecRel c growable cap checked s t) : s.result = (t.out, t.reps, t.ip, t.budget) := by
  unfold ExecState.result
  rw [h.holds.1, h.reps, h.ip, h.budget]

/-- A block's sequences on one executor, in the memory `decode_and_execute_sequences` prepares. -/
def executeOn (alloc : Allocator) (sink : Nat → Sink Region) (section_ : ParsedSequenceSection)
    (tables : SequenceTablesState) (out : DecodeOut) (c : ExecContext) (blockSizeMax remaining : Nat)
    (reps : DecoderRepeatOffsets) (limit : OutputLimit) : Option (Bytes × DecoderRepeatOffsets × Nat × Nat) :=
  let region := out.region alloc (min remaining blockSizeMax + wildcopyOverlength)
  let b : ExecBounds := { literalsLen := c.literals.len, blockRemaining := blockSizeMax
                          outputRemaining := remaining, limit }
  (ExecState.result <$> runSequences (sink region.mem.length) b tables section_ region reps).toOption

/-- The slack the unchecked executor relies on. -/
def HasSlack (alloc : Allocator) (out : DecodeOut) (blockSizeMax remaining : Nat) : Prop :=
  out.len + min blockSizeMax remaining ≤
    (out.region alloc (min remaining blockSizeMax + wildcopyOverlength)).mem.length - wildcopyOverlength

instance (alloc : Allocator) (out : DecodeOut) (blockSizeMax remaining : Nat) :
    Decidable (HasSlack alloc out blockSizeMax remaining) :=
  inferInstanceAs (Decidable (_ ≤ _))

section Executors

variable (alloc : Allocator) {dictionary : Option DecoderDictionary} {tables : SequenceTablesState}
  (ht : tables.Reached dictionary) (section_ : ParsedSequenceSection) (out : DecodeOut) {c : ExecContext}
  (hfs : c.frameStart ≤ out.len) (blockSizeMax remaining : Nat) (reps : DecoderRepeatOffsets) (limit : OutputLimit)

include ht hfs

/-- Every executor that agrees placement by placement gives what the exact one gives. -/
theorem executeOn_eq_exact {sink : Nat → Sink Region}
    (hsink : ∀ cap, SinkAgrees c cap (decide ¬ HasSlack alloc out blockSizeMax remaining) (sink cap)) :
    executeOn alloc sink section_ tables out c blockSizeMax remaining reps limit =
      executeOn alloc (fun _ => exactSink alloc c) section_ tables out c blockSizeMax remaining reps limit := by
  have hout : OutputRel out.room out out.asSlice := ⟨rfl, rfl⟩
  obtain ⟨-, hch, -, hrel⟩ := DecodeOut.region_execRel alloc (c := c) hout
    (by rw [DecodeOut.length_asSlice]; exact hfs) remaining blockSizeMax reps
  let b : ExecBounds := { literalsLen := c.literals.len, blockRemaining := blockSizeMax
                          outputRemaining := remaining, limit }
  have hrun := fun (sink : Sink Region) hs =>
    runSequences_agrees (b := b) hch rfl (show SinkAgrees c _ _ sink from hs) ht.ok section_ hrel
  exact (hrun _ (hsink _)).toOption_eq (hrun _ (exactSink_agrees alloc c _ _)) fun s t hr => hr.result_eq

end Executors

/-- Decoding into a slice succeeds exactly when `decode_all` does and its output fits, with the same
bytes; and every block's sequences give the same on the checked executor as on the exact one, and
on the unchecked one wherever it is used. -/
theorem decodeIntoSlice_agrees (alloc : Allocator) :
    (∀ (options : DecoderOptions) (dictionary : Option DecoderDictionary) (src dst : Bytes) (n : Nat) (bytes : Bytes),
      decodeIntoSlice alloc options dictionary src dst = .ok (n, bytes) ↔
        decodeAll alloc options dictionary src = .ok bytes ∧ bytes.length ≤ dst.length ∧ n = bytes.length) ∧
    (∀ (dictionary : Option DecoderDictionary) (tables : SequenceTablesState), tables.Reached dictionary →
      ∀ (section_ : ParsedSequenceSection) (out : DecodeOut) (c : ExecContext), c.frameStart ≤ out.len →
      ∀ (blockSizeMax remaining : Nat) (reps : DecoderRepeatOffsets) (limit : OutputLimit),
        let run sink := executeOn alloc sink section_ tables out c blockSizeMax remaining reps limit
        run (fun cap => regionSink alloc c (cap - wildcopyOverlength) true) = run (fun _ => exactSink alloc c) ∧
        (HasSlack alloc out blockSizeMax remaining →
          run (fun cap => regionSink alloc c (cap - wildcopyOverlength) false) =
            run (fun _ => exactSink alloc c))) := by
  refine ⟨fun options dictionary src dst n bytes => ?_, ?_⟩
  · rw [decodeAll_eq]
    exact decodeIntoSlice_iff alloc options dictionary src dst n bytes
  · intro dictionary tables ht section_ out c hfs blockSizeMax remaining reps limit run
    refine ⟨executeOn_eq_exact alloc ht section_ out hfs _ _ reps limit fun cap => ?_, fun hs => ?_⟩
    · exact regionSink_agrees alloc c cap (by simp)
    · exact executeOn_eq_exact alloc ht section_ out hfs _ _ reps limit fun cap =>
        regionSink_agrees alloc c cap fun _ => by simp [hs]

/-- An allocator that hands out zeros, and no more than it is asked for. -/
def zeroAllocator : Allocator := { spare := fun _ n => List.replicate n 0, enough := by simp }

/-- A frame of one raw block of one byte. -/
def oneByteFrame : Bytes := [0x28, 0xB5, 0x2F, 0xFD, 0x20, 0x01, 0x09, 0x00, 0x00, 0x61]

/-- A section of one sequence, all three alphabets run-length coded: one literal, then a match of
length three at offset one. -/
def oneSequenceSection : Bytes := [1, 0x54, 1, 2, 0, 0x04]

def oneLiteralContext : ExecContext :=
  { frameStart := 0, windowSize := 1024, dictionary := none, literals := .ofScratch [0x61] }

theorem decodeIntoSlice_agrees_small :
    decodeIntoSlice zeroAllocator .initial none oneByteFrame [0] = .ok (1, [0x61]) ∧
    ∃ section_ tables, parseSequenceSection oneSequenceSection {} .sequenceOnly = .ok (section_, tables) ∧
      let run sink := executeOn zeroAllocator sink section_ tables (.fixedOf (List.replicate 40 0)) oneLiteralContext
        4 4 .initial (.wholeOutput none)
      run (fun cap => regionSink zeroAllocator oneLiteralContext (cap - wildcopyOverlength) true) =
        run (fun _ => exactSink zeroAllocator oneLiteralContext) ∧
      run (fun cap => regionSink zeroAllocator oneLiteralContext (cap - wildcopyOverlength) false) =
        run (fun _ => exactSink zeroAllocator oneLiteralContext) ∧
      (run (fun _ => exactSink zeroAllocator oneLiteralContext)).map Prod.fst = some [0x61, 0x61, 0x61, 0x61] := by
  refine ⟨((decodeIntoSlice_agrees zeroAllocator).1 .initial none oneByteFrame [0] 1 [0x61]).2
    ⟨by decide, by decide, rfl⟩, _, _, rfl, ?_⟩
  have hparsed : parseSequenceSection oneSequenceSection {} .sequenceOnly = .ok _ := rfl
  have hreached := SequenceTablesState.Reached.parsed (.start : SequenceTablesState.Reached none {}) hparsed
  obtain ⟨h1, h2⟩ := (decodeIntoSlice_agrees zeroAllocator).2 none _ hreached _ (.fixedOf (List.replicate 40 0))
    oneLiteralContext (by decide) 4 4 .initial (.wholeOutput none)
  exact ⟨h1, h2 (by decide), by decide⟩

end Zstandard
