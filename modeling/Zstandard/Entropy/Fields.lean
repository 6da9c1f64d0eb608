/-
The two bitstreams as one stack: what a writer is given field by field, a reader takes off from the last to the first.

A run of the writer is any list of additions and flushes that meets its debug assertions; how the flushes are placed
does not show in the result. The stream comes out unless its whole bytes reach the word that the writer keeps free
at the end of the destination. The reader, on any bytes and after any reads, reloads inside the stream.
-/
import Zstandard.Entropy.BitWriter

namespace Zstandard

open BitStack

/-! ## Writing -/

/-- What a writer is told: a field to add, with `add_bits_fast` or `add_bits`, or to flush. -/
inductive FieldWrite where
  | add (fast : Bool) (value nbBits : Nat)
  | flush
deriving DecidableEq, Repr

namespace BitCStream

def write (c : BitCStream) : FieldWrite → Result BitCStream
  | .add true value nbBits => .ok (c.addBitsFast value nbBits)
  | .add false value nbBits => .ok (c.addBits value nbBits)
  | .flush => c.flushBits

def writeAll : List FieldWrite → BitCStream → Result BitCStream
  | [], c => .ok c
  | w :: rest, c => do writeAll rest (← c.write w)

end BitCStream

/-- A whole stream: its size, or zero, and what the destination then holds. -/
def writeStream (dst : Bytes) (writes : List FieldWrite) : Result (Nat × Bytes) := do
  let c ← BitCStream.new dst
  let c ← c.writeAll writes
  c.close

/-- The fields of a run, without its flushes. -/
def fieldsOf : List FieldWrite → List Field
  | [] => []
  | .add _ value nbBits :: rest => (value, nbBits) :: fieldsOf rest
  | .flush :: rest => fieldsOf rest

/-- The debug assertions of the writer from `bitPos` pending bits on, those of `close` included. -/
def Asserted : Nat → List FieldWrite → Prop
  | bitPos, [] => bitPos + 1 < 64
  | bitPos, .add true value nbBits :: rest =>
    value < 2 ^ nbBits ∧ bitPos + nbBits < 64 ∧ Asserted (bitPos + nbBits) rest
  | bitPos, .add false _ nbBits :: rest => nbBits < 32 ∧ bitPos + nbBits < 64 ∧ Asserted (bitPos + nbBits) rest
  | bitPos, .flush :: rest => Asserted (bitPos % 8) rest

instance Asserted.decidable : ∀ (bitPos : Nat) (writes : List FieldWrite), Decidable (Asserted bitPos writes)
  | bitPos, [] => inferInstanceAs (Decidable (bitPos + 1 < 64))
  | bitPos, .add true value nbBits :: rest =>
    have := Asserted.decidable (bitPos + nbBits) rest
    inferInstanceAs (Decidable (value < 2 ^ nbBits ∧ bitPos + nbBits < 64 ∧ Asserted (bitPos + nbBits) rest))
  | bitPos, .add false _ nbBits :: rest =>
    have := Asserted.decidable (bitPos + nbBits) rest
    inferInstanceAs (Decidable (nbBits < 32 ∧ bitPos + nbBits < 64 ∧ Asserted (bitPos + nbBits) rest))
  | bitPos, .flush :: rest => Asserted.decidable (bitPos % 8) rest

namespace BitCStream

variable {c : BitCStream} {fs : List Field}

theorem Holds.exact {k : Nat} (h : c.Holds fs k) : c.Holds fs c.bitPos :=
  ⟨h.room, h.within, h.pending, le_refl _, h.bits⟩

theorem flushBits_bitPos {c' : BitCStream} (h : c.flushBits = .ok c') : c'.bitPos = c.bitPos % 8 := by
  unfold flushBits at h
  obtain ⟨dst, -, h⟩ := bind_ok h
  cases h
  rfl

theorem flushBits_length {c' : BitCStream} (hc : c.Holds fs c.bitPos) (h : c.flushBits = .ok c') :
    c'.dst.length = c.dst.length := by
  have hroom := hc.room
  have hin := hc.within
  rw [flushBits_eq hroom hin] at h
  cases h
  exact put_length (by omega)

/-- The run of a writer: it holds the fields it was given and has moved no further than their bits. -/
theorem writeAll_ok : ∀ {writes : List FieldWrite} {c : BitCStream} {fs : List Field}, c.Holds fs c.bitPos →
    c.bitPos < 64 →
    Asserted c.bitPos writes → c.used ≤ width fs →
    ∃ c', c.writeAll writes = .ok c' ∧ c'.Holds (fs ++ fieldsOf writes) c'.bitPos ∧ c'.bitPos + 1 < 64 ∧
      c'.used ≤ width (fs ++ fieldsOf writes) ∧ c'.endPos = c.endPos ∧ c'.dst.length = c.dst.length
  | [], c, fs, hc, _, h, hused => by
    refine ⟨c, rfl, ?_, h, ?_, rfl, rfl⟩
    · rwa [fieldsOf, List.append_nil]
    · rwa [fieldsOf, List.append_nil]
  | .add fast v n :: rest, c, fs, hc, _, h, hused => by
    -- both additions put the field on top
    obtain ⟨c1, hwrite, hheld, hbit, hused1, hend, hdst, hbound, hrest⟩ : ∃ c1, c.write (.add fast v n) = .ok c1 ∧
        c1.Holds (fs ++ [(v, n)]) (c.bitPos + n) ∧ c1.bitPos = c.bitPos + n ∧ c1.used = c.used + n ∧
        c1.endPos = c.endPos ∧ c1.dst = c.dst ∧ c.bitPos + n < 64 ∧ Asserted (c.bitPos + n) rest := by
      cases fast with
      | true => exact ⟨_, rfl, hc.addBitsFast h.1 h.2.1, rfl, addBits_used (v := v), rfl, rfl, h.2.1, h.2.2⟩
      | false => exact ⟨_, rfl, hc.addBits h.1 h.2.1, rfl, addBits_used, rfl, rfl, h.2.1, h.2.2⟩
    obtain ⟨c', hrun, hholds, hlast, hused', hend', hdst'⟩ := writeAll_ok hheld.exact (by rwa [hbit])
      (show Asserted c1.bitPos rest by rwa [hbit]) (by rw [hused1, width_append, width_cons, width_nil]; omega)
    have hfields : fs ++ fieldsOf (.add fast v n :: rest) = fs ++ [(v, n)] ++ fieldsOf rest := by
      rw [List.append_assoc]
      rfl
    rw [hfields]
    refine ⟨c', ?_, hholds, hlast, hused', hend'.trans hend, by rw [hdst', hdst]⟩
    rw [writeAll, hwrite, ok_bind, hrun]
  | .flush :: rest, c, fs, hc, hbound, h, hused => by
    obtain ⟨c1, hflush, hheld⟩ := hc.flushBits hbound
    obtain ⟨hless, hend⟩ := flushBits_used hflush
    obtain ⟨c', hrun, hholds, hlast, hused', hend', hdst'⟩ := writeAll_ok hheld.exact
      (by rw [flushBits_bitPos hflush]; omega) (show Asserted c1.bitPos rest by rw [flushBits_bitPos hflush]; exact h)
      (hless.trans hused)
    refine ⟨c', ?_, hholds, hlast, hused', hend'.trans hend, by rw [hdst', flushBits_length hc hflush]⟩
    rw [writeAll, show c.write .flush = c.flushBits from rfl, hflush, ok_bind, hrun]

/-- A stream that was closed, by what its fields need. -/
theorem writeStream_ok {dst : Bytes} {writes : List FieldWrite} (hasserted : Asserted 0 writes)
    (hdst : 8 < dst.length) :
    ∃ out, writeStream dst writes = .ok (streamSize (width (fieldsOf writes)) (dst.length - 8), out) ∧
      out.length = dst.length ∧ (streamSize (width (fieldsOf writes)) (dst.length - 8) ≠ 0 →
        readLe (out.take (streamSize (width (fieldsOf writes)) (dst.length - 8))) =
          pack (fieldsOf writes) + 2 ^ width (fieldsOf writes)) := by
  obtain ⟨c, hnew, hbit, hused, hend, hlen⟩ : ∃ c, BitCStream.new dst = .ok c ∧ c.bitPos = 0 ∧ c.used = 0 ∧
      c.endPos = dst.length - 8 ∧ c.dst.length = dst.length := by
    unfold BitCStream.new containerBytes
    rw [if_neg (by omega)]
    exact ⟨_, rfl, rfl, rfl, rfl, rfl⟩
  obtain ⟨c', hrun, hholds, hlast, hused', hend', hlen'⟩ := writeAll_ok (new_holds hnew).exact (by omega)
    (show Asserted c.bitPos writes by rwa [hbit]) (by rw [hused]; exact Nat.zero_le _)
  rw [List.nil_append] at hholds hused'
  obtain ⟨out, hclose, hout, hread⟩ := hholds.close_exact hlast hused'
  rw [hend', hend] at hclose hread
  refine ⟨out, ?_, by rw [hout, hlen', hlen], hread⟩
  unfold writeStream
  rw [hnew, ok_bind, hrun, ok_bind, hclose]

end BitCStream

/-! ## Reading back -/

namespace BitDStream

/-- A field taken off, and a reload: with `read_bits` where its mask is wide enough, else with `read_bits_fast`, and in
two reads with a reload between them where the container might not hold it at once. -/
def takeField (d : BitDStream) (nbBits : Nat) : Nat × BitDStreamStatus × BitDStream :=
  if nbBits < 32 then ((d.readBits nbBits).1, (d.readBits nbBits).2.reload)
  else if nbBits ≤ 56 then ((d.readBitsFast nbBits).1, (d.readBitsFast nbBits).2.reload)
  else
    let (high, d) := d.readBits (nbBits - 32)
    let (status, d) := d.reload
    if status = .overflow then (high, status, d)
    else (high * 2 ^ 32 + (d.readBitsFast 32).1, (d.readBitsFast 32).2.reload)

/-- Fields of the given widths taken off: the values, what the reloads said and the reader at the end. -/
def readAll : List Nat → BitDStream → List (Nat × BitDStreamStatus) × BitDStream
  | [], d => ([], d)
  | n :: widths, d =>
    let (value, status, d) := d.takeField n
    let (reads, d) := readAll widths d
    ((value, status) :: reads, d)

/-- The reader gives back the fields from the last to the first and is then at the end of its stream. -/
structure ReadsBack (d : BitDStream) (fs : List Field) : Prop where
  values : (d.readAll (fs.reverse.map (·.2))).1.map (·.1) = fs.reverse.map fun f => f.1 % 2 ^ f.2
  statuses : ∀ read ∈ (d.readAll (fs.reverse.map (·.2))).1, read.2 ≠ .overflow
  finished : (d.readAll (fs.reverse.map (·.2))).2.endOfStream = true

/-- There is room for a field of up to 56 bits. -/
def Roomy (d : BitDStream) : Prop := d.ptr = 0 ∨ d.bitsConsumed ≤ 8

theorem Roomy.holds {d : BitDStream} {p n : Nat} (h : d.Roomy) (hat : d.At p) (hn : n ≤ 56) (hp : n ≤ p) :
    d.Holds n := by
  have hpos := hat.position
  unfold Holds
  rcases h with h0 | h0 <;> omega

/-- Wherever a field is taken in one read or in two, it is the bits below the reader. -/
theorem takeField_at {d : BitDStream} {p n : Nat} (hat : d.At p) (hroomy : d.Roomy) (hn : n < 64) (hp : n ≤ p) :
    (d.takeField n).1 = field (readLe d.src) p n ∧ (d.takeField n).2.1 ≠ .overflow ∧
      (d.takeField n).2.2.At (p - n) ∧ (d.takeField n).2.2.Roomy ∧ (d.takeField n).2.2.src = d.src := by
  have hreload : ∀ {d : BitDStream} {p : Nat}, d.At p →
      d.reload.1 ≠ .overflow ∧ d.reload.2.At p ∧ d.reload.2.Roomy := by
    intro d p hat
    obtain ⟨hstatus, hat, hsettled⟩ := reload_at hat
    exact ⟨hstatus, hat, hsettled.imp_right fun h => h.trans (by omega)⟩
  unfold takeField
  by_cases h32 : n < 32
  · rw [if_pos h32]
    obtain ⟨hvalue, hat'⟩ := readBits_at hat (hroomy.holds hat (by omega) hp)
    obtain ⟨hstatus, hat'', hroomy'⟩ := hreload hat'
    exact ⟨hvalue, hstatus, hat'', hroomy', by rw [reload_src, readBits_snd]; rfl⟩
  rw [if_neg h32]
  by_cases h56 : n ≤ 56
  · rw [if_pos h56]
    obtain ⟨hvalue, hat'⟩ := readBitsFast_at hat (hroomy.holds hat h56 hp) (by omega)
    obtain ⟨hstatus, hat'', hroomy'⟩ := hreload hat'
    exact ⟨hvalue, hstatus, hat'', hroomy', by rw [reload_src]; rfl⟩
  rw [if_neg h56]
  -- the high bits come off with a read, and a reload makes room for the low 32
  obtain ⟨hhigh, hat1⟩ := readBits_at hat (hroomy.holds hat (show n - 32 ≤ 56 by omega) (by omega))
  obtain ⟨hstatus1, hat2, hroomy2⟩ := hreload hat1
  simp only [if_neg hstatus1]
  have hsrc : (d.readBits (n - 32)).2.reload.2.src = d.src := by rw [reload_src, readBits_snd]; rfl
  obtain ⟨hlow, hat3⟩ := readBitsFast_at hat2 (hroomy2.holds hat2 (show 32 ≤ 56 by omega) (by omega)) (by omega)
  obtain ⟨hstatus3, hat4, hroomy4⟩ := hreload hat3
  rw [show p - (n - 32) - 32 = p - n by omega] at hat4
  refine ⟨?_, hstatus3, hat4, hroomy4, by rw [reload_src]; exact hsrc⟩
  rw [hhigh, hlow, hsrc, ← field_add (show n - 32 + 32 ≤ p by omega), show n - 32 + 32 = n by omega]

theorem readsBack {fs : List Field} : ∀ {d : BitDStream} {p : Nat}, d.At p → d.Roomy → (∀ f ∈ fs, f.2 < 64) →
    Reads (readLe d.src) p fs → p = width fs → d.ReadsBack fs := by
  induction fs using List.reverseRecOn with
  | nil =>
    intro d p hat _ _ _ hp
    exact ⟨rfl, by simp [readAll], (endOfStream_iff hat).2 hp⟩
  | append_singleton fs f ih =>
    intro d p hat hroomy hwidths hreads hp
    obtain ⟨v, n⟩ := f
    obtain ⟨hvalue, hstatus, hat', hroomy', hsrc⟩ := takeField_at hat hroomy (hwidths (v, n) (by simp)) hreads.width_le
    obtain ⟨hvalues, hstatuses, hfinished⟩ := ih hat' hroomy' (fun f hf => hwidths f (List.mem_append_left _ hf))
      (by rw [hsrc]; exact hreads.pop) (by
        rw [width_append, width_cons, width_nil] at hp
        omega)
    have hfield := hreads.field
    rw [← hvalue] at hfield
    refine ⟨?_, ?_, ?_⟩
    · simp only [List.reverse_append, List.reverse_singleton, List.singleton_append, List.map_cons, readAll,
        hvalues, hfield]
    · simp only [List.reverse_append, List.reverse_singleton, List.singleton_append, List.map_cons, readAll]
      intro read hread
      rcases List.mem_cons.mp hread with rfl | hread
      · exact hstatus
      · exact hstatuses read hread
    · simp only [List.reverse_append, List.reverse_singleton, List.singleton_append, List.map_cons, readAll]
      exact hfinished

/-- A number with a mark above its fields is a stream that reads them back. -/
theorem new_readsBack {stream : Bytes} {fs : List Field} (hwidths : ∀ f ∈ fs, f.2 < 64)
    (hlen : stream.length = width fs / 8 + 1) (hstream : readLe stream = pack fs + 2 ^ width fs) :
    ∃ d, BitDStream.new stream = .ok d ∧ d.ReadsBack fs := by
  have hlog : Nat.log2 (readLe stream) = width fs := by
    have := log2_add_mul (pack_lt fs) (show 1 ≠ 0 by norm_num)
    rw [Nat.mul_one, show Nat.log2 1 = 0 by rfl, Nat.add_zero] at this
    rw [hstream, this]
  obtain ⟨d, hd⟩ : ∃ d, BitDStream.new stream = .ok d := by
    refine BitDStream.new_ok (fun h0 => by rw [h0] at hlen; cases hlen) ?_
    rw [hlen, hstream, pow_256]
    have : 2 ^ (8 * (width fs / 8 + 1 - 1)) ≤ 2 ^ width fs := Nat.pow_le_pow_right (by norm_num) (by omega)
    omega
  obtain ⟨hsrc, hat⟩ := new_at hd
  rw [hlog] at hat
  refine ⟨d, hd, readsBack hat (new_room hd).symm hwidths ?_ rfl⟩
  rw [hsrc, hstream]
  exact Reads.marked fs

/-! ## Reloads on any bytes -/

/-- The functions that take bits off a reader. -/
inductive BitRead where
  | bits (nbBits : Nat)
  | bitsFast (nbBits : Nat)
  | bitsFastZeroSafe (nbBits : Nat)
  | skip (nbBits : Nat)
deriving DecidableEq, Repr

def BitRead.nbBits : BitRead → Nat
  | bits nbBits => nbBits
  | bitsFast nbBits => nbBits
  | bitsFastZeroSafe nbBits => nbBits
  | skip nbBits => nbBits

def take (d : BitDStream) : BitRead → BitDStream
  | .bits nbBits => (d.readBits nbBits).2
  | .bitsFast nbBits => (d.readBitsFast nbBits).2
  | .bitsFastZeroSafe nbBits => (d.readBitsFastZeroSafe nbBits).2
  | .skip nbBits => d.skipBits nbBits

/-- The read does not panic: its mask is in the table unless the fast path takes it, its shifts are narrower than the
container, and the count of the bits taken stays a `u32`. -/
def BitRead.Asserted (d : BitDStream) (r : BitRead) : Prop :=
  d.bitsConsumed + r.nbBits < 2 ^ 32 ∧
    match r with
    | bits nbBits => nbBits < 32 ∨ d.canReadFast nbBits
    | bitsFast nbBits => 1 ≤ nbBits ∧ nbBits ≤ containerBits
    | bitsFastZeroSafe nbBits => nbBits < containerBits
    | skip _ => True

/-- Whatever takes them, the bits are counted and nothing else changes. -/
theorem take_eq (d : BitDStream) (r : BitRead) : d.take r = d.skipBits r.nbBits := by
  cases r with
  | bits n => exact readBits_snd d n
  | bitsFast n => rfl
  | bitsFastZeroSafe n => rfl
  | skip n => rfl

/-- The readers of `src` that have taken `consumed` bits in all, by reads that `may` allows and by reloads. -/
inductive Reader (may : BitDStream → Nat → Prop) (src : Bytes) : Nat → BitDStream → Prop
  | new {d : BitDStream} : BitDStream.new src = .ok d → Reader may src 0 d
  | take {consumed : Nat} {d : BitDStream} (r : BitRead) : Reader may src consumed d → r.Asserted d → may d r.nbBits →
    Reader may src (consumed + r.nbBits) (d.take r)
  | reload {consumed : Nat} {d : BitDStream} : Reader may src consumed d → Reader may src consumed d.reload.2

/-- A reload leaves the reader alone or moves it back inside the stream: not before the start, and to where a whole
container can be loaded. -/
def ReloadsInside (d : BitDStream) : Prop :=
  d.reload.2 = d ∨ ∃ nbBytes, nbBytes ≤ d.ptr ∧ d.reload.2 = d.moveBack nbBytes ∧ d.reload.2.ptr + 8 ≤ d.src.length

/-- What reads and reloads keep. -/
structure Tracks (d : BitDStream) (src : Bytes) (consumed : Nat) : Prop where
  src_eq : d.src = src
  loaded : d.ptr = 0 ∨ d.ptr + 8 ≤ src.length
  position : (Nat.log2 (readLe src) : Int) - consumed + d.bitsConsumed = 8 * d.ptr + 64

theorem reload_cases (d : BitDStream) :
    (d.reload.2 = d ∧ (d.reload.1 = .overflow ↔ 64 < d.bitsConsumed)) ∨
    ∃ nbBytes, nbBytes ≤ d.ptr ∧ nbBytes * 8 ≤ d.bitsConsumed ∧ 0 < d.ptr ∧ d.bitsConsumed ≤ 64 ∧
      d.reload.1 ≠ .overflow ∧ d.reload.2 = d.moveBack nbBytes := by
  unfold reload reloadFast containerBits containerBytes
  by_cases hover : d.bitsConsumed > 64
  · rw [if_pos hover]
    exact .inl ⟨rfl, by simp only [true_iff]; omega⟩
  rw [if_neg hover]
  by_cases h8 : d.ptr ≥ 8
  · rw [if_pos h8, if_neg (by omega)]
    exact .inr ⟨_, by omega, by omega, by omega, by omega, by simp, rfl⟩
  rw [if_neg h8]
  by_cases h0 : d.ptr = 0
  · rw [if_pos h0]
    refine .inl ⟨rfl, ?_⟩
    simp only
    split <;> simp <;> omega
  rw [if_neg h0]
  simp only
  split
  · exact .inr ⟨_, le_refl _, by omega, by omega, by omega, by simp, rfl⟩
  · exact .inr ⟨_, by omega, by omega, by omega, by omega, by simp, rfl⟩

section
variable {may : BitDStream → Nat → Prop} {src : Bytes} {consumed : Nat} {d : BitDStream}

theorem Reader.tracks (h : Reader may src consumed d) : d.Tracks src consumed := by
  induction h with
  | new hnew =>
    obtain ⟨hsrc, hat⟩ := new_at hnew
    have hpos := hat.position
    refine ⟨hsrc, ?_, by omega⟩
    unfold BitDStream.new containerBytes at hnew
    split at hnew
    · cases hnew
    split at hnew
    · cases hnew
    split at hnew
    · cases hnew
      exact .inr (by simp only; omega)
    · cases hnew
      exact .inl rfl
  | take r _ _ _ ih =>
    rw [take_eq]
    refine ⟨ih.src_eq, ih.loaded, ?_⟩
    have := ih.position
    simp only [skipBits_bitsConsumed, skipBits_ptr]
    omega
  | @reload consumed d _ ih =>
    rcases reload_cases d with ⟨heq, -⟩ | ⟨nbBytes, hle, hbits, -, -, -, heq⟩
    · rwa [heq]
    · have hpos := ih.position
      have hloaded := ih.loaded
      rw [heq]
      refine ⟨ih.src_eq, ?_, ?_⟩
      · unfold moveBack
        simp only
        omega
      · unfold moveBack
        simp only
        omega

theorem Reader.reloadsInside (h : Reader may src consumed d) : d.ReloadsInside := by
  have htracks := h.tracks
  rcases reload_cases d with ⟨heq, -⟩ | ⟨nbBytes, hle, -, hpos, -, -, heq⟩
  · exact .inl heq
  · refine .inr ⟨nbBytes, hle, heq, ?_⟩
    have hloaded := htracks.loaded
    rw [heq, htracks.src_eq]
    unfold moveBack
    simp only
    omega

/-- A reload reports that more was taken than the container held. -/
theorem reload_overflow_iff (d : BitDStream) : d.reload.1 = .overflow ↔ 64 < d.bitsConsumed := by
  rcases reload_cases d with ⟨-, hiff⟩ | ⟨_, -, -, -, hle, hne, -⟩
  · exact hiff
  · exact ⟨fun h => absurd h hne, fun h => by omega⟩

/-- A read of bits that the container holds, or of any at the start of the stream. -/
def MayRead (d : BitDStream) (n : Nat) : Prop := d.Holds n ∨ d.ptr = 0

theorem Reader.within (h : Reader MayRead src consumed d) : d.bitsConsumed ≤ 64 ∨ d.ptr = 0 := by
  induction h with
  | new hnew => exact .inl (new_at hnew).2.consumed
  | take r _ _ hmay ih =>
    rw [take_eq]
    exact hmay
  | @reload consumed d _ ih =>
    rcases reload_cases d with ⟨heq, -⟩ | ⟨nbBytes, -, -, -, hle, -, heq⟩
    · rwa [heq]
    · rw [heq]
      unfold moveBack
      exact .inl (by simp only; omega)

/-- With such reads a reload reports exactly that more was taken than the stream holds. -/
theorem Reader.overflow_iff (h : Reader MayRead src consumed d) :
    d.reload.1 = .overflow ↔ Nat.log2 (readLe src) < consumed := by
  have hpos := h.tracks.position
  rw [reload_overflow_iff]
  rcases h.within with h0 | h0 <;> omega

end

end BitDStream

/-! ## Both together -/

theorem Asserted.widths : ∀ {writes : List FieldWrite} {bitPos : Nat}, Asserted bitPos writes →
    ∀ f ∈ fieldsOf writes, f.2 < 64
  | [], _, _, f, hf => by cases hf
  | .add true v n :: rest, _, h, f, hf => by
    rcases List.mem_cons.mp hf with rfl | hf
    · exact (Nat.le_add_left _ _).trans_lt h.2.1
    · exact h.2.2.widths f hf
  | .add false v n :: rest, _, h, f, hf => by
    rcases List.mem_cons.mp hf with rfl | hf
    · exact h.1.trans (by norm_num)
    · exact h.2.2.widths f hf
  | .flush :: rest, _, h, f, hf => (show Asserted _ rest from h).widths f hf

/-- A run that flushes before a field that might not fit: any fields of fewer than 32 bits meet the assertions. -/
def spaced : Nat → List Field → List FieldWrite
  | _, [] => []
  | bitPos, (value, nbBits) :: fields =>
    if bitPos + nbBits ≥ 57 then .flush :: .add false value nbBits :: spaced (bitPos % 8 + nbBits) fields
    else .add false value nbBits :: spaced (bitPos + nbBits) fields

theorem spaced_asserted : ∀ {fields : List Field} {bitPos : Nat}, (∀ f ∈ fields, f.2 < 32) → bitPos < 57 →
    Asserted bitPos (spaced bitPos fields) ∧ fieldsOf (spaced bitPos fields) = fields
  | [], bitPos, _, hpos => ⟨show bitPos + 1 < 64 by omega, rfl⟩
  | (v, n) :: fields, bitPos, hwidths, hpos => by
    have hn : n < 32 := hwidths (v, n) List.mem_cons_self
    have hrest : ∀ f ∈ fields, f.2 < 32 := fun f hf => hwidths f (List.mem_cons_of_mem _ hf)
    unfold spaced
    split
    · obtain ⟨h1, h2⟩ := spaced_asserted hrest (show bitPos % 8 + n < 57 by omega)
      exact ⟨⟨hn, by omega, h1⟩, congrArg ((v, n) :: ·) h2⟩
    · obtain ⟨h1, h2⟩ := spaced_asserted hrest (show bitPos + n < 57 by omega)
      exact ⟨⟨hn, by omega, h1⟩, congrArg ((v, n) :: ·) h2⟩

/-- A writer gives a stream that a reader takes apart again, unless its whole bytes reach the last word of the
destination. On any bytes, a reader reloads inside them and reports exactly the bits taken past its container, which
with reads that the container allows are those past the end. -/
theorem bitstreams_dual {writes : List FieldWrite} (hasserted : Asserted 0 writes) (dst : Bytes) :
    ((dst.length ≤ 8 ∧ writeStream dst writes = .error .dstSizeTooSmall) ∨
      (8 < dst.length ∧ ∃ out, out.length = dst.length ∧
        (((width (fieldsOf writes) + 1) / 8 < dst.length - 8 ∧
            writeStream dst writes = .ok (width (fieldsOf writes) / 8 + 1, out) ∧
            ∃ d, BitDStream.new (out.take (width (fieldsOf writes) / 8 + 1)) = .ok d ∧ d.ReadsBack (fieldsOf writes)) ∨
          (dst.length - 8 ≤ (width (fieldsOf writes) + 1) / 8 ∧ writeStream dst writes = .ok (0, out))))) ∧
    ∀ (src : Bytes) (consumed : Nat) (d : BitDStream),
      (∀ may, BitDStream.Reader may src consumed d →
        d.ReloadsInside ∧ (d.reload.1 = .overflow ↔ 64 < d.bitsConsumed)) ∧
      (BitDStream.Reader BitDStream.MayRead src consumed d →
        (d.reload.1 = .overflow ↔ Nat.log2 (readLe src) < consumed)) := by
  refine ⟨?_, fun src consumed d => ⟨fun may h => ⟨h.reloadsInside, d.reload_overflow_iff⟩, fun h => h.overflow_iff⟩⟩
  rcases Nat.lt_or_ge 8 dst.length with hlong | hshort
  · obtain ⟨out, hok, hlen, hread⟩ := BitCStream.writeStream_ok hasserted hlong
    refine .inr ⟨hlong, out, hlen, ?_⟩
    unfold BitCStream.streamSize at hok hread
    by_cases hfits : (width (fieldsOf writes) + 1) / 8 < dst.length - 8
    · rw [if_pos hfits, show (width (fieldsOf writes) + 8) / 8 = width (fieldsOf writes) / 8 + 1 by omega] at hok hread
      refine .inl ⟨hfits, hok, BitDStream.new_readsBack hasserted.widths ?_ (hread (Nat.succ_ne_zero _))⟩
      rw [List.length_take_of_le (by omega)]
    · rw [if_neg hfits] at hok
      exact .inr ⟨not_lt.1 hfits, hok⟩
  · refine .inl ⟨hshort, ?_⟩
    unfold writeStream BitCStream.new containerBytes
    rw [if_pos hshort]
    rfl

/-- A field of 60 bits between narrower ones, which comes back in two reads. -/
theorem bitstreams_dual_small : ∃ out d,
    writeStream (List.replicate 32 0)
        [.add false 5 3, .flush, .add true 1000000000000000000 60, .flush, .add true 20000000000 35,
          .add false 70000 17] =
      .ok (15, out) ∧
      BitDStream.new (out.take 15) = .ok d ∧
      d.ReadsBack [(5, 3), (1000000000000000000, 60), (20000000000, 35), (70000, 17)] := by
  have hdual := bitstreams_dual (show Asserted 0
    [.add false 5 3, .flush, .add true 1000000000000000000 60, .flush, .add true 20000000000 35,
      .add false 70000 17] by decide) (List.replicate 32 0)
  rcases hdual.1 with ⟨hshort, -⟩ | ⟨-, out, -, ⟨-, hok, d, hd, hback⟩ | ⟨hfull, -⟩⟩
  · exact absurd hshort (by decide)
  · exact ⟨out, d, hok, hd, hback⟩
  · exact absurd hfull (by decide)

/-- Seven bits and the mark are one byte, which fits nine; the writer gives none. And a reader that takes 31 bits of a
stream of sixteen bytes and 31 more without a reload is told that they are more than it has. -/
theorem not_dual_to_the_byte :
    (¬ ∀ (dst out : Bytes) (writes : List FieldWrite) (size : Nat), Asserted 0 writes →
      writeStream dst writes = .ok (size, out) → (size = 0 ↔ dst.length < width (fieldsOf writes) / 8 + 1)) ∧
    ¬ ∀ (src : Bytes) (consumed : Nat) (d : BitDStream), BitDStream.Reader (fun _ _ => True) src consumed d →
      (d.reload.1 = .overflow ↔ Nat.log2 (readLe src) < consumed) := by
  constructor
  · intro hall
    have hfits := hall (List.replicate 9 0) (128 :: List.replicate 8 0) [.add false 0 7] 0 (by decide) (by decide)
    exact absurd (hfits.1 rfl) (by decide)
  · intro hall
    obtain ⟨d, hd⟩ : ∃ d, BitDStream.new (List.replicate 16 1) = .ok d := ⟨_, rfl⟩
    have hreader : BitDStream.Reader (fun _ _ => True) (List.replicate 16 1) 0 d := .new hd
    cases hd
    have hover := hall _ _ _ ((hreader.take (.bits 31) ⟨by decide, .inl (by decide)⟩ trivial).take (.bits 31)
      ⟨by decide, .inl (by decide)⟩ trivial)
    exact absurd (hover.1 (by decide)) (by decide)

end Zstandard
