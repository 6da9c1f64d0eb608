/-
Decoding one block, for the two drivers and for any destination.

The drivers see a destination through `Output`: its length, its bytes, an append and the sequence
executor. `decodeOutput` is the crate's `DecodeOut`; `bytesOutput` is a list with the specification
executor. Whatever a driver computes with the one it computes with the other, up to the room of a
fixed destination (`OutputAgrees`).
-/
import Zstandard.Decode.Refine
import Zstandard.Decode.Dictionary

namespace Zstandard

open Bounded

/-! ## Destinations as the drivers see them -/

/-- What a block decoder needs of its output. -/
structure Output (σ : Type) where
  len : σ → Nat
  asSlice : σ → Bytes
  append : σ → Bytes → Result σ
  decodeAndExecuteSequences : ParsedSequenceSection → SequenceTablesState → σ → ExecContext → Nat →
    DecoderRepeatOffsets → OutputLimit → Result (BlockOutcome σ)

/-- The output of the decoders. -/
def decodeOutput (alloc : Allocator) : Output DecodeOut :=
  { len := DecodeOut.len, asSlice := DecodeOut.asSlice, append := DecodeOut.append
    decodeAndExecuteSequences := decodeAndExecuteSequences alloc }

/-- A list of bytes, for reading a format as it is meant. -/
def bytesOutput : Output Bytes :=
  { len := List.length, asSlice := id, append := fun out bytes => .ok (out ++ bytes)
    decodeAndExecuteSequences := executeSequencesSpec }

section Definitions

variable {σ : Type} (o : Output σ)

/-- Bytes, within the limit. -/
def appendBytes (out : σ) (bytes : Bytes) (limit : OutputLimit) : Result σ := do
  limit.checkTotal (o.len out + bytes.length)
  o.append out bytes

/-- A repeated byte, within the limit. -/
def appendRepeated (out : σ) (byte : UInt8) (count : Nat) (limit : OutputLimit) : Result σ := do
  limit.checkTotal (o.len out + count)
  o.append out (List.replicate count byte)

/-! ## One block -/

/-- The entropy state a block hands to the next one of its frame. -/
structure EntropyState where
  literals : LiteralsState
  sequences : SequenceTablesState
  reps : DecoderRepeatOffsets

/-- The entropy state a frame starts from. -/
def EntropyState.initial (dictionary : Option DecoderDictionary) : EntropyState :=
  match dictionary with
  | some d => { literals := d.literalsState, sequences := d.sequenceTables, reps := d.repeatOffsets }
  | none => { literals := {}, sequences := {}, reps := .initial }

/-- What every block of a frame is decoded with. -/
structure FrameParams where
  blockSizeMax : Nat
  frameStart : Nat
  windowSize : Nat
  dictionary : Option Bytes

/-- `decode_compressed_block_into`. -/
def decodeCompressedBlockInto (src : Bytes) (p : FrameParams) (st : EntropyState) (out : σ) (limit : OutputLimit) :
    Result (σ × EntropyState) := do
  let (literalsSize, literals, literalsState) ← decodeLiteralsSectionInto src st.literals p.blockSizeMax
  if literals.len > p.blockSizeMax then
    .error (.corruption "compressed block literals exceed the frame block size limit") else
  let sequenceSection ← getFrom src literalsSize
  let (parsed, tables) ← parseSequenceSection sequenceSection st.sequences .sequenceOnly
  if parsed.numberOfSequences = 0 ∧ parsed.headerSize ≠ sequenceSection.length then
    .error (.corruption "zero-sequence blocks must not contain additional sequence payload") else
  let c : ExecContext :=
    { frameStart := p.frameStart, windowSize := p.windowSize, dictionary := p.dictionary, literals }
  let outcome ← o.decodeAndExecuteSequences parsed tables out c p.blockSizeMax st.reps limit
  .ok (outcome.out, { literals := literalsState, sequences := outcome.tables, reps := outcome.reps })

def blockSizeExceeded : Error := .corruption "block size exceeds frame block size limit"

/-- A block with its payload at hand: the streaming decoder's `decode_block`. -/
def decodeBlock (header : BlockHeader) (payload : Bytes) (p : FrameParams) (st : EntropyState) (out : σ)
    (limit : OutputLimit) : Result (σ × EntropyState) :=
  match header.blockType with
  | .raw =>
    if header.blockSize > p.blockSizeMax then .error blockSizeExceeded else do
    .ok (← appendBytes o out payload limit, st)
  | .rle =>
    if header.blockSize > p.blockSizeMax then .error blockSizeExceeded else do
    .ok (← appendRepeated o out (← getByte payload 0) header.blockSize limit, st)
  | .compressed => decodeCompressedBlockInto o payload p st out limit

end Definitions

/-! ## Both destinations -/

/-- A destination and a list on which every driver operation agrees. -/
structure OutputAgrees {σ : Type} (o : Output σ) (room : Option Nat) (rel : σ → Bytes → Prop) : Prop where
  len : ∀ out b, rel out b → o.len out = b.length
  asSlice : ∀ out b, rel out b → o.asSlice out = b
  append : ∀ out b bytes, rel out b → Agrees (FitsRoom room) (room = none) rel (o.append out bytes) (.ok (b ++ bytes))
  decodeAndExecuteSequences : ∀ section_ tables out b c blockSizeMax reps limit, rel out b → tables.Ok →
    c.frameStart ≤ b.length → Agrees (fun y => FitsRoom room y.out) (room = none)
      (fun x y => rel x.out y.out ∧ x.tables = y.tables ∧ x.reps = y.reps)
      (o.decodeAndExecuteSequences section_ tables out c blockSizeMax reps limit)
      (executeSequencesSpec section_ tables b c blockSizeMax reps limit)

theorem decodeOutput_agrees (alloc : Allocator) (room : Option Nat) :
    OutputAgrees (decodeOutput alloc) room (OutputRel room) where
  len _ _ h := h.len
  asSlice _ _ h := h.holds
  append _ _ bytes h := DecodeOut.append_agrees h bytes
  decodeAndExecuteSequences section_ _ _ _ _ blockSizeMax reps limit h ht hfs := by
    obtain ⟨h1, h2, h3⟩ := decodeAndExecuteSequences_agrees alloc h ht hfs section_ blockSizeMax reps limit
    refine ⟨fun y hy hf => ?_, h2, h3⟩
    obtain ⟨x, hx, hr⟩ := h1 y hy hf
    exact ⟨x, hx, hr.out, hr.tables, hr.reps⟩

/-! ## What a block leaves -/

/-- The invariant of a frame's entropy state. -/
def EntropyState.Ok (st : EntropyState) : Prop := st.sequences.Ok

theorem EntropyState.initial_ok (dictionary : Option DecoderDictionary) : (EntropyState.initial dictionary).Ok := by
  cases dictionary with
  | none => exact SequenceTablesState.ok_default
  | some d => exact d.tablesOk

/-- What decoding a block onto a list leaves: the list extended by at most `n` bytes, and an entropy
state in order. -/
structure BlockDecoded (out : Bytes) (n : Nat) (r : Bytes × EntropyState) : Prop where
  grows : out.length ≤ r.1.length
  le : r.1.length ≤ out.length + n
  ok : r.2.Ok

theorem checkTotal_ok_iff {l : OutputLimit} {n : Nat} :
    l.checkTotal n = .ok () ↔ ∀ max ∈ l.maxOutputSize, l.produced n ≤ max := by
  unfold OutputLimit.checkTotal
  cases l.maxOutputSize with
  | none => simp
  | some max => by_cases h : l.produced n > max <;> simp [h, Nat.not_le.2, Nat.le_of_not_lt]

theorem appendBytes_bytes {out out' bytes : Bytes} {limit : OutputLimit}
    (h : appendBytes bytesOutput out bytes limit = .ok out') : out' = out ++ bytes := by
  obtain ⟨_, _, h⟩ := bind_ok h
  cases h
  rfl

theorem appendRepeated_bytes {out out' : Bytes} {byte : UInt8} {count : Nat} {limit : OutputLimit}
    (h : appendRepeated bytesOutput out byte count limit = .ok out') : out' = out ++ List.replicate count byte := by
  obtain ⟨_, _, h⟩ := bind_ok h
  cases h
  rfl

theorem decodeCompressedBlockInto_decoded {src : Bytes} {p : FrameParams} {st : EntropyState}
    (hst : st.Ok) {out : Bytes} (hfs : p.frameStart ≤ out.length) {limit : OutputLimit} {r : Bytes × EntropyState}
    (h : decodeCompressedBlockInto bytesOutput src p st out limit = .ok r) : BlockDecoded out p.blockSizeMax r := by
  unfold decodeCompressedBlockInto at h
  obtain ⟨⟨n, literals, ls⟩, _, h⟩ := bind_ok h
  simp only at h
  split at h
  · cases h
  obtain ⟨section_, _, h⟩ := bind_ok h
  obtain ⟨⟨parsed, tables⟩, hp, h⟩ := bind_ok h
  split at h
  · cases h
  obtain ⟨outcome, ho, h⟩ := bind_ok h
  cases h
  obtain ⟨h1, h2, h3⟩ := executeSequencesSpec_ok (parseSequenceSection_tablesOk hst hp) (by exact hfs) ho
  exact ⟨h1, h2, h3⟩

theorem decodeBlock_decoded {header : BlockHeader} {payload : Bytes} (hp : payload.length = header.payloadSize)
    {p : FrameParams} {st : EntropyState} (hst : st.Ok) {out : Bytes} (hfs : p.frameStart ≤ out.length)
    {limit : OutputLimit} {r : Bytes × EntropyState}
    (h : decodeBlock bytesOutput header payload p st out limit = .ok r) : BlockDecoded out p.blockSizeMax r := by
  unfold decodeBlock at h
  unfold BlockHeader.payloadSize at hp
  cases ht : header.blockType with
  | raw =>
    simp only [ht] at h hp
    split at h
    · cases h
    obtain ⟨out', h1, h⟩ := bind_ok h
    cases h
    rw [appendBytes_bytes h1]
    exact ⟨by simp, by simp; omega, hst⟩
  | rle =>
    simp only [ht] at h
    split at h
    · cases h
    obtain ⟨b, _, h⟩ := bind_ok h
    obtain ⟨out', h1, h⟩ := bind_ok h
    cases h
    rw [appendRepeated_bytes h1]
    exact ⟨by simp, by simp; omega, hst⟩
  | compressed =>
    simp only [ht] at h
    exact decodeCompressedBlockInto_decoded hst hfs h

/-! ## One block on both destinations -/

section Agreement

variable {σ : Type} {o : Output σ} {room : Option Nat} {rel : σ → Bytes → Prop} (ho : OutputAgrees o room rel)

include ho

theorem appendBytes_agrees {out : σ} {b : Bytes} (h : rel out b) (bytes : Bytes) (limit : OutputLimit) :
    Agrees (FitsRoom room) (room = none) rel (appendBytes o out bytes limit)
      (appendBytes bytesOutput b bytes limit) := by
  unfold appendBytes
  rw [ho.len out b h]
  exact .bind_same fun _ _ => ho.append out b bytes h

theorem appendRepeated_agrees {out : σ} {b : Bytes} (h : rel out b) (byte : UInt8) (count : Nat) (limit : OutputLimit) :
    Agrees (FitsRoom room) (room = none) rel (appendRepeated o out byte count limit)
      (appendRepeated bytesOutput b byte count limit) := by
  unfold appendRepeated
  rw [ho.len out b h]
  exact .bind_same fun _ _ => ho.append out b _ h

theorem decodeCompressedBlockInto_agrees {out : σ} {b : Bytes} (h : rel out b) (src : Bytes) {p : FrameParams}
    {st : EntropyState} (hst : st.Ok) (hfs : p.frameStart ≤ b.length) (limit : OutputLimit) :
    Agrees (fun r => FitsRoom room r.1) (room = none) (fun x y => rel x.1 y.1 ∧ x.2 = y.2)
      (decodeCompressedBlockInto o src p st out limit) (decodeCompressedBlockInto bytesOutput src p st b limit) := by
  unfold decodeCompressedBlockInto
  refine .bind_same fun ⟨n, literals, ls⟩ _ => ?_
  simp only
  split
  · exact .of_error _
  refine .bind_same fun section_ _ => .bind_same fun ⟨parsed, tables⟩ hp => ?_
  split
  · exact .of_error _
  refine (ho.decodeAndExecuteSequences parsed tables out b _ p.blockSizeMax st.reps limit h
    (parseSequenceSection_tablesOk hst hp) (by exact hfs)).map (fun _ _ => Iff.rfl) fun x y _ _ hr => ?_
  exact ⟨hr.1, by rw [hr.2.1, hr.2.2]⟩

/-- One block of any type. -/
theorem decodeBlock_agrees {out : σ} {b : Bytes} (h : rel out b) (header : BlockHeader) (payload : Bytes)
    {p : FrameParams} {st : EntropyState} (hst : st.Ok) (hfs : p.frameStart ≤ b.length) (limit : OutputLimit) :
    Agrees (fun r => FitsRoom room r.1) (room = none) (fun x y => rel x.1 y.1 ∧ x.2 = y.2)
      (decodeBlock o header payload p st out limit) (decodeBlock bytesOutput header payload p st b limit) := by
  unfold decodeBlock
  cases header.blockType with
  | raw =>
    simp only
    split
    · exact .of_error _
    · exact (appendBytes_agrees ho h payload limit).map (fun _ _ => Iff.rfl) fun _ _ _ _ hr => ⟨hr, rfl⟩
  | rle =>
    simp only
    split
    · exact .of_error _
    refine .bind_same fun byte _ => ?_
    exact (appendRepeated_agrees ho h byte _ limit).map (fun _ _ => Iff.rfl) fun _ _ _ _ hr => ⟨hr, rfl⟩
  | compressed => exact decodeCompressedBlockInto_agrees ho h payload hst hfs limit

end Agreement

end Zstandard
