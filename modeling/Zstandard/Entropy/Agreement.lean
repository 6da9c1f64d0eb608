/-
The single- and the double-symbol Huffman decoders agree.

Both run a lookup in unrolled loops between reloads. What a lookup keeps of the stream it reads, the loops keep:
`Lookups` says it of one lookup, and the reloading loop and the lockstep of four streams are run lemmas over it.
The single-symbol decoder keeps that the payload spells what was emitted, or that the reader has left the payload.
On a payload that spells some symbols, either decoder keeps that it goes on with the symbols still missing; the
last one of the double-symbol decoder may be looked up together with the zeros behind the payload.
-/
import Zstandard.Entropy.Answers

namespace Zstandard

open BitStack PrefixCode

namespace Huff0

/-! ## Spelled payloads -/

/-- The bits of a payload below its end mark are the codes of some symbols, the first one on top. -/
structure SpelledBy (ctable : CTable) (payload symbols : Bytes) : Prop where
  coded : ∀ symbol ∈ symbols, 0 < (ctable symbol).nbBits
  marked : ∃ last, payload.getLast? = some last ∧ last ≠ 0
  bits : readLe payload = pack (codes ctable symbols.reverse) + 2 ^ width (codes ctable symbols.reverse)

/-- The four payloads of a section each spell their segment of the symbols. -/
structure SpelledBy4 (ctable : CTable) (size : Nat) (payload symbols : Bytes) : Prop where
  payload_length : 10 ≤ payload.length
  size_le : 6 ≤ size
  segments_le : 3 * ((size + 3) / 4) ≤ size
  segments : ∃ s1 s2 s3 s4 o1 o2 o3 o4, splitStreams payload = .ok (s1, s2, s3, s4) ∧
    symbols = o1 ++ o2 ++ o3 ++ o4 ∧
    (o1.length = (size + 3) / 4 ∧ o2.length = (size + 3) / 4 ∧ o3.length = (size + 3) / 4 ∧
      o4.length = size - 3 * ((size + 3) / 4)) ∧
    SpelledBy ctable s1 o1 ∧ SpelledBy ctable s2 o2 ∧ SpelledBy ctable s3 o3 ∧ SpelledBy ctable s4 o4

section
variable {ctable : CTable} {tableLog : Nat}

theorem CodesOf.fits {weights : List Nat} (h : CodesOf weights tableLog ctable) (symbol : UInt8) :
    (ctable symbol).val < 2 ^ (ctable symbol).nbBits := by
  rcases Nat.eq_zero_or_pos (ctable symbol).nbBits with h0 | hpos
  · by_cases hlt : symbol.toNat < weights.length
    · have hentry := h.entry (List.getElem?_eq_getElem hlt)
      rw [UInt8.ofNat_toNat] at hentry
      have hle := h.weight_le _ (List.getElem_mem hlt)
      by_cases hw : weights[symbol.toNat] = 0
      · rw [hentry, if_pos hw]
        decide
      · rw [hentry, if_neg hw] at h0
        simp only at h0
        omega
    · rw [h.absent symbol (by omega)]
      decide
  · obtain ⟨w, k, hw, hle, hk, rfl⟩ := h.exists_select hpos
    have hroom := h.slots_le hw hle hk
    have htop := firstSlot_mono weights (show w + 1 ≤ tableLog + 1 by omega)
    rw [h.firstSlot_top] at htop
    rw [h.code_select hw hk]
    simp only
    have hpow : 2 ^ tableLog = 2 ^ (tableLog + 1 - w) * 2 ^ (w - 1) := by
      rw [← pow_add]
      congr 1
      omega
    have hmul := hroom.trans htop
    rw [hpow] at hmul
    exact Nat.le_of_mul_le_mul_right hmul (by positivity)

/-- A payload is spelled by some symbols exactly when a reader of it starts above their codes. -/
theorem spelledBy_iff (hfit : ∀ symbol, (ctable symbol).val < 2 ^ (ctable symbol).nbBits) {payload symbols : Bytes} :
    SpelledBy ctable payload symbols ↔ ∃ d, BitDStream.new payload = .ok d ∧
      Spells ctable.code (readLe payload) (Nat.log2 (readLe payload)) symbols 0 := by
  have hcodes : codes ctable symbols.reverse = symbols.reverse.map ctable.code := rfl
  rw [spells_zero_iff hfit]
  constructor
  · rintro ⟨hcoded, ⟨last, hlast, hne⟩, hbits⟩
    have hnew : ∃ d, BitDStream.new payload = .ok d := by
      unfold BitDStream.new
      rw [hlast]
      simp only
      rw [if_neg hne]
      split <;> exact ⟨_, rfl⟩
    obtain ⟨d, hd⟩ := hnew
    refine ⟨d, hd, hcoded, ?_⟩
    rw [hcodes] at hbits
    have hlog : Nat.log2 (readLe payload) = width (symbols.reverse.map ctable.code) := by
      have := log2_add_mul (pack_lt (symbols.reverse.map ctable.code)) Nat.one_ne_zero
      rw [Nat.mul_one, ← hbits] at this
      rw [this, show Nat.log2 1 = 0 by decide, Nat.add_zero]
    rw [hlog, hbits]
    exact Reads.marked _
  · rintro ⟨d, hd, hcoded, hreads⟩
    have hlast : ∃ last, payload.getLast? = some last ∧ last ≠ 0 := by
      unfold BitDStream.new at hd
      split at hd
      · cases hd
      rename_i last hlast
      split at hd
      · cases hd
      · rename_i hne
        exact ⟨last, hlast, hne⟩
    refine ⟨hcoded, hlast, ?_⟩
    have hne : readLe payload ≠ 0 := by
      obtain ⟨last, hlast, h0⟩ := hlast
      rw [← List.dropLast_append_getLast? last hlast, readLe_append]
      have hlast0 : last.toNat ≠ 0 := fun h => h0 (UInt8.toNat_inj.mp h)
      have hpos : 0 < 256 ^ payload.dropLast.length * readLe [last] :=
        Nat.mul_pos (by positivity) (by simp only [readLe]; omega)
      omega
    rw [hcodes, ← hreads.depth, ← hreads.bits]
    have hlow : 2 ^ Nat.log2 (readLe payload) ≤ readLe payload := Nat.log2_self_le hne
    have hhigh : readLe payload < 2 ^ (Nat.log2 (readLe payload) + 1) := Nat.lt_log2_self
    rw [pow_succ] at hhigh
    rw [Nat.mod_eq_sub_mod hlow, Nat.mod_eq_of_lt (by omega)]
    omega

end

/-! ## Loops over a lookup -/

/-- Room for reads of `n` bits: the container holds them, or it is the last one. -/
def Room (d : BitDStream) (n : Nat) : Prop := d.Holds n ∨ d.ptr = 0

theorem Room.mono {d : BitDStream} {m n : Nat} (h : Room d n) (hm : m ≤ n) : Room d m := by
  unfold Room BitDStream.Holds at *
  omega

theorem Room.of_le {d : BitDStream} {n : Nat} (h : d.bitsConsumed ≤ 7) (hn : n ≤ 57) : Room d n :=
  .inl (by unfold BitDStream.Holds; omega)

theorem Room.of_settled {d : BitDStream} {n : Nat} (h : d.Settled) (hn : n ≤ 57) : Room d n := h.room hn

/-- A lookup of up to `bits` bits that emits up to `most` bytes, and what it and a reload keep while it does not
emit more than `size` bytes. -/
structure Lookups (keep : StreamState → Prop) (lookup : StreamState → StreamState) (bits most size : Nat) : Prop where
  step : ∀ s, keep s → Room s.2 bits → s.1.length + most ≤ size → keep (lookup s)
  reload : ∀ out d, keep (out, d) → keep (out, d.reload.2)
  reloadFast : ∀ out d, keep (out, d) → keep (out, d.reloadFast.2)
  stands : ∀ s, keep s → ∃ q, s.2.StandsAt q
  grows : ∀ s, s.1.length < (lookup s).1.length ∧ (lookup s).1.length ≤ s.1.length + most
  reads : ∀ s k, Room s.2 (bits + k) → Room (lookup s).2 k

/-- A reloading loop of either decoder: `n` lookups a round while `width` bytes are left. -/
def reloadingLoop (lookup : StreamState → StreamState) (size n width : Nat) : Nat → StreamState → StreamState
  | 0, s => s
  | fuel + 1, s =>
    if s.2.reload.1 = .unfinished ∧ s.1.length + width ≤ size then
      reloadingLoop lookup size n width fuel (lookup^[n] (s.1, s.2.reload.2))
    else (s.1, s.2.reload.2)

section
variable {keep : StreamState → Prop} {lookup : StreamState → StreamState} {bits most size : Nat}

theorem Lookups.iterate_length (h : Lookups keep lookup bits most size) : ∀ (n : Nat) (s : StreamState),
    s.1.length + n ≤ (lookup^[n] s).1.length ∧ (lookup^[n] s).1.length ≤ s.1.length + most * n
  | 0, s => ⟨le_refl _, le_refl _⟩
  | n + 1, s => by
    obtain ⟨h1, h2⟩ := h.grows s
    obtain ⟨h3, h4⟩ := h.iterate_length n (lookup s)
    rw [Function.iterate_succ_apply, Nat.mul_succ]
    omega

/-- Lookups in a row. -/
theorem Lookups.iterate (h : Lookups keep lookup bits most size) : ∀ (n : Nat) {s : StreamState}, keep s →
    Room s.2 (bits * n) → s.1.length + most * n ≤ size → keep (lookup^[n] s)
  | 0, _, hs, _, _ => hs
  | n + 1, s, hs, hroom, hlen => by
    rw [Nat.mul_succ] at hroom hlen
    rw [Nat.add_comm] at hroom
    rw [Function.iterate_succ_apply]
    have hgrow := (h.grows s).2
    exact h.iterate n (h.step s hs (hroom.mono (Nat.le_add_right _ _)) (by omega)) (h.reads s _ hroom) (by omega)

/-- What a reloading loop ends with. -/
structure Reloaded (keep : StreamState → Prop) (size width : Nat) (s : StreamState) : Prop where
  keeps : keep s
  settled : s.2.Settled
  length_le : s.1.length ≤ size
  ended : size < s.1.length + width ∨ s.2.ptr = 0

theorem Lookups.reloadingLoop (h : Lookups keep lookup bits most size) {n width : Nat} (hn : 0 < n)
    (hbits : bits * n ≤ 57) (hwidth : most * n ≤ width) : ∀ (fuel : Nat) {s : StreamState}, keep s →
    s.1.length ≤ size → size < s.1.length + fuel → Reloaded keep size width (reloadingLoop lookup size n width fuel s)
  | 0, s, _, hlen, hfuel => by omega
  | fuel + 1, s, hs, hlen, hfuel => by
    obtain ⟨q, hq⟩ := h.stands s hs
    have hkeep := h.reload s.1 s.2 hs
    unfold Huff0.reloadingLoop
    split
    · rename_i hmore
      obtain ⟨h1, h2⟩ := h.iterate_length n (s.1, s.2.reload.2)
      simp only at h1 h2
      refine h.reloadingLoop hn hbits hwidth fuel ?_ (by omega) (by omega)
      exact h.iterate n hkeep (.of_le (hq.reload_unfinished hmore.1) hbits) (by simp only; omega)
    · rename_i hstop
      refine ⟨hkeep, hq.reload.2.2, hlen, ?_⟩
      by_cases hu : s.2.reload.1 = .unfinished
      · exact .inl (Nat.lt_of_not_le fun hle => hstop ⟨hu, hle⟩)
      · exact .inr (hq.reload_finished hu)

end

/-! ## What the decoders keep -/

/-- The payload spells what was emitted, unless the reader has left it. -/
def SpelledSoFar (ctable : CTable) (payload : Bytes) (s : StreamState) : Prop :=
  s.2.src = payload ∧ ∃ q : Int, s.2.StandsAt q ∧
    (0 ≤ q → Spells ctable.code (readLe payload) (Nat.log2 (readLe payload)) s.1.reverse q.toNat)

/-- The payload goes on with the symbols that are still missing. -/
def GoesOn (ctable : CTable) (payload symbols : Bytes) (s : StreamState) : Prop :=
  s.2.src = payload ∧ ∃ p rest, s.2.At p ∧ symbols = s.1.reverse ++ rest ∧
    Spells ctable.code (readLe payload) p rest 0

section
variable {ctable : CTable} {payload symbols : Bytes} {s : StreamState} {d : BitDStream} {out : Bytes} {depth : Nat}

theorem SpelledSoFar.new (h : BitDStream.new payload = .ok d) : SpelledSoFar ctable payload ([], d) := by
  obtain ⟨hsrc, hat⟩ := BitDStream.new_at h
  exact ⟨hsrc, _, hat.standsAt, fun _ => rfl⟩

theorem SpelledSoFar.reload (h : SpelledSoFar ctable payload (out, d)) :
    SpelledSoFar ctable payload (out, d.reload.2) := by
  obtain ⟨hsrc, q, hq, hspells⟩ := h
  exact ⟨(BitDStream.reload_src d).trans hsrc, q, hq.reload.2.1, hspells⟩

theorem reloadFast_src (d : BitDStream) : d.reloadFast.2.src = d.src := by
  unfold BitDStream.reloadFast
  split <;> rfl

theorem SpelledSoFar.reloadFast (h : SpelledSoFar ctable payload (out, d)) :
    SpelledSoFar ctable payload (out, d.reloadFast.2) := by
  obtain ⟨hsrc, q, hq, hspells⟩ := h
  exact ⟨(reloadFast_src d).trans hsrc, q, hq.reloadFast.1, hspells⟩

/-- What ends cleanly is spelled to its end. -/
theorem SpelledSoFar.ended (h : SpelledSoFar ctable payload (out, d)) (hend : d.endOfStream = true) :
    Spells ctable.code (readLe payload) (Nat.log2 (readLe payload)) out.reverse 0 := by
  obtain ⟨-, q, hq, hspells⟩ := h
  have hpos := hq.position
  unfold BitDStream.endOfStream containerBits at hend
  simp only [Bool.and_eq_true, decide_eq_true_eq] at hend hpos
  obtain rfl : q = 0 := by omega
  exact hspells (le_refl _)

theorem GoesOn.new (h : BitDStream.new payload = .ok d)
    (hs : Spells ctable.code (readLe payload) (Nat.log2 (readLe payload)) symbols 0) :
    GoesOn ctable payload symbols ([], d) := by
  obtain ⟨hsrc, hat⟩ := BitDStream.new_at h
  exact ⟨hsrc, _, symbols, hat, rfl, hs⟩

theorem GoesOn.reload (h : GoesOn ctable payload symbols (out, d)) :
    GoesOn ctable payload symbols (out, d.reload.2) := by
  obtain ⟨hsrc, p, rest, hat, hrest⟩ := h
  exact ⟨(BitDStream.reload_src d).trans hsrc, p, rest, (BitDStream.reload_at hat).2.1, hrest⟩

theorem GoesOn.reloadFast (h : GoesOn ctable payload symbols (out, d)) :
    GoesOn ctable payload symbols (out, d.reloadFast.2) := by
  obtain ⟨hsrc, p, rest, hat, hrest⟩ := h
  have hmoved := hat.standsAt.reloadFast.1.at (by omega)
  exact ⟨(reloadFast_src d).trans hsrc, p, rest, hmoved, hrest⟩

/-- Nothing is left when nothing is missing. -/
theorem GoesOn.ended (h : GoesOn ctable payload symbols s) (hlen : s.1.length = symbols.length) :
    s.1.reverse = symbols ∧ s.2.endOfStream = true := by
  obtain ⟨-, p, rest, hat, hsplit, hrest⟩ := h
  have hnil : rest = [] := by
    apply List.eq_nil_of_length_eq_zero
    rw [hsplit, List.length_append, List.length_reverse] at hlen
    omega
  subst hnil
  cases hrest
  exact ⟨by rw [hsplit, List.append_nil], (BitDStream.endOfStream_iff hat).2 rfl⟩

/-- What is looked up in the payload, with zeros behind it, begins as the missing symbols do. -/
theorem GoesOn.looked (h : GoesOn ctable payload symbols s) {bits nbBits : Nat} (h1 : 1 ≤ bits) (h64 : bits ≤ 64)
    (hroom : Room s.2 bits) (hlen : s.1.length < symbols.length) {sequence : Bytes} (hnb : nbBits ≤ bits)
    (hspells : Spells ctable.code (s.2.lookBitsFast bits) bits sequence (bits - nbBits)) :
    ∃ p rest, s.2.At p ∧ symbols = s.1.reverse ++ rest ∧
      Spells ctable.code (readLe payload <<< bits) (p + bits) rest bits ∧
      Spells ctable.code (readLe payload <<< bits) (p + bits) sequence (p + bits - nbBits) := by
  obtain ⟨hsrc, p, rest, hat, hsplit, hrest⟩ := h
  have hp : 0 < p := by
    cases rest with
    | nil =>
      rw [hsplit, List.append_nil, List.length_reverse] at hlen
      omega
    | cons r rest => exact lt_of_lt_of_le hrest.1.pos hrest.1.le
  rw [BitDStream.lookBitsFast_pad hat hroom hp h1 h64, hsrc] at hspells
  have hpad := hrest.pad bits
  rw [Nat.zero_add] at hpad
  refine ⟨p, rest, hat, hsplit, hpad, ?_⟩
  have hword := Spells.of_field (Nat.le_add_left bits p) (le_refl bits) hspells
  rw [Nat.sub_self, Nat.sub_zero, Nat.sub_sub_self hnb] at hword
  exact hword

/-- A lookup emits the next symbols while it does not emit more than are missing. -/
theorem GoesOn.emit (hc : Complete ctable.code depth) (h : GoesOn ctable payload symbols s) {bits nbBits : Nat}
    (h1 : 1 ≤ bits) (h64 : bits ≤ 64) (hroom : Room s.2 bits) {sequence : Bytes} (hpos : 0 < sequence.length)
    (hlen : s.1.length + sequence.length ≤ symbols.length) (hnb : nbBits ≤ bits)
    (hspells : Spells ctable.code (s.2.lookBitsFast bits) bits sequence (bits - nbBits)) :
    GoesOn ctable payload symbols (sequence.reverse ++ s.1, s.2.skipBits nbBits) := by
  obtain ⟨p, rest, hat, hsplit, hrest, hword⟩ := h.looked h1 h64 hroom (by omega) hnb hspells
  have hmissing : symbols.length = s.1.length + rest.length := by
    rw [hsplit, List.length_append, List.length_reverse]
  obtain ⟨rest', rfl, hrest'⟩ := hc.spells_prefix hword hrest (by omega)
  have hle := hrest'.le
  have hholds : s.2.Holds nbBits := by
    have := hat.position
    unfold Room BitDStream.Holds at *
    omega
  rw [show p + bits - nbBits = p - nbBits + bits by omega] at hrest'
  refine ⟨h.1, p - nbBits, rest', BitDStream.skipBits_at hat hholds, ?_, ?_⟩
  · simp [hsplit]
  · have hzero : Spells ctable.code (readLe payload <<< bits) (p - nbBits + bits) rest' (0 + bits) := by
      rwa [Nat.zero_add]
    exact hzero.of_pad

/-- A lookup of one symbol extends what is spelled. -/
theorem SpelledSoFar.emit (h : SpelledSoFar ctable payload s) {bits : Nat} (h1 : 1 ≤ bits) (h64 : bits ≤ 64)
    (hroom : Room s.2 bits) {symbol : UInt8} (hnb : (ctable symbol).nbBits ≤ bits)
    (hheads : Heads ctable.code (s.2.lookBitsFast bits) bits symbol) :
    SpelledSoFar ctable payload (symbol :: s.1, s.2.skipBits (ctable symbol).nbBits) := by
  obtain ⟨hsrc, q, hq, hspells⟩ := h
  refine ⟨hsrc, q - (ctable symbol).nbBits, hq.skip (hroom.mono hnb), fun hpos => ?_⟩
  have hn : 0 < (ctable symbol).nbBits := hheads.pos
  obtain ⟨p, rfl⟩ : ∃ p : Nat, q = p := ⟨q.toNat, by omega⟩
  have hat := hq.at (by omega)
  rw [Int.toNat_natCast] at hat
  rw [BitDStream.lookBitsFast_pad hat hroom (by omega) h1 h64, hsrc] at hheads
  have hword := hheads.of_field (le_refl bits) (Nat.le_add_left bits p)
  rw [Nat.sub_self, Nat.sub_zero] at hword
  have hnext := (hword.of_pad (show (ctable symbol).nbBits ≤ p by omega)).spells
  rw [List.reverse_cons]
  have htail : ((p : Int) - (ctable symbol).nbBits).toNat = p - (ctable symbol).nbBits := by omega
  rw [htail]
  exact (hspells (by omega)).append hnext

end

/-! ## The single-symbol decoder -/

/-- `decode_symbol_x1` on a segment. -/
def lookupX1 (t : DTableX1) (s : StreamState) : StreamState :=
  ((decodeSymbolX1 t s.2).1 :: s.1, (decodeSymbolX1 t s.2).2)

theorem decodeSymbolsX1_eq (t : DTableX1) : ∀ (n : Nat) (out : Bytes) (d : BitDStream),
    decodeSymbolsX1 t n out d = (lookupX1 t)^[n] (out, d)
  | 0, _, _ => rfl
  | n + 1, out, d => by
    rw [Function.iterate_succ_apply]
    exact decodeSymbolsX1_eq t n _ _

theorem decodeFoursX1_eq (t : DTableX1) (size : Nat) : ∀ (fuel : Nat) (out : Bytes) (d : BitDStream),
    decodeFoursX1 t size fuel out d = reloadingLoop (lookupX1 t) size 4 4 fuel (out, d)
  | 0, _, _ => rfl
  | fuel + 1, out, d => by
    unfold decodeFoursX1 reloadingLoop
    simp only
    have hmore : out.length < size - 3 ↔ out.length + 4 ≤ size := by omega
    simp only [hmore]
    split
    · rw [decodeSymbolsX1_eq]
      exact decodeFoursX1_eq t size fuel _ _
    · rfl

section
variable {t : DTableX1} {ctable : CTable} {keep : StreamState → Prop} {bits size : Nat}

theorem DTableX1.Decodes.grows (t : DTableX1) (s : StreamState) : (lookupX1 t s).1.length = s.1.length + 1 := rfl

theorem DTableX1.Decodes.answers_looked (ht : t.Decodes ctable) (d : BitDStream) :
    Heads ctable.code (d.lookBitsFast t.tableLog) t.tableLog (decodeSymbolX1 t d).1 ∧
      (decodeSymbolX1 t d).2 = d.skipBits (ctable (decodeSymbolX1 t d).1).nbBits := by
  have hle := ht.le
  unfold tablelogMax at hle
  obtain ⟨hheads, hbits⟩ := ht.answers _ (d.lookBitsFast_lt ht.pos (by omega))
  unfold decodeSymbolX1
  simp only
  exact ⟨hheads, by rw [hbits]⟩

theorem DTableX1.Decodes.reads (ht : t.Decodes ctable) (s : StreamState) (k : Nat) (h : Room s.2 (t.tableLog + k)) :
    Room (lookupX1 t s).2 k := by
  obtain ⟨hheads, hskip⟩ := ht.answers_looked s.2
  have hle : (ctable (decodeSymbolX1 t s.2).1).nbBits ≤ t.tableLog := ht.complete.le _
  unfold lookupX1
  rw [hskip]
  unfold Room BitDStream.Holds at *
  rw [BitDStream.skipBits_bitsConsumed, BitDStream.skipBits_ptr]
  omega

theorem DTableX1.Decodes.spelledSoFar (ht : t.Decodes ctable) (payload : Bytes) (size : Nat) :
    Lookups (SpelledSoFar ctable payload) (lookupX1 t) t.tableLog 1 size := by
  have hle := ht.le
  unfold tablelogMax at hle
  refine ⟨?_, fun _ _ h => h.reload, fun _ _ h => h.reloadFast, fun _ h => ⟨_, h.2.choose_spec.1⟩, ?_, ht.reads⟩
  · intro s hs hroom _
    obtain ⟨hheads, hskip⟩ := ht.answers_looked s.2
    have := hs.emit ht.pos (by omega) hroom (ht.complete.le _) hheads
    rwa [← hskip] at this
  · intro s
    rw [DTableX1.Decodes.grows]
    omega

theorem DTableX1.Decodes.goesOn (ht : t.Decodes ctable) (payload symbols : Bytes) :
    Lookups (GoesOn ctable payload symbols) (lookupX1 t) t.tableLog 1 symbols.length := by
  have hle := ht.le
  unfold tablelogMax at hle
  refine ⟨?_, fun _ _ h => h.reload, fun _ _ h => h.reloadFast, ?_, ?_, ht.reads⟩
  · intro s hs hroom hlen
    obtain ⟨hheads, hskip⟩ := ht.answers_looked s.2
    have := hs.emit ht.complete ht.pos (by omega) hroom (show 0 < [(decodeSymbolX1 t s.2).1].length from Nat.one_pos)
      hlen (ht.complete.le _) hheads.spells
    rw [CTable.code_snd, ← hskip] at this
    exact this
  · rintro s ⟨-, p, rest, hat, -⟩
    exact ⟨p, hat.standsAt⟩
  · intro s
    rw [DTableX1.Decodes.grows]
    omega

/-- `decode_stream_x1` fills its segment and keeps what its lookups keep. -/
theorem decodeStreamX1_keeps (h : Lookups keep (lookupX1 t) bits 1 size) (hbits : bits ≤ 12) {s : StreamState}
    (hs : keep s) (hlen : s.1.length ≤ size) :
    keep (decodeStreamX1 t size s.1 s.2) ∧ (decodeStreamX1 t size s.1 s.2).1.length = size := by
  have hloop := h.reloadingLoop (n := 4) (by norm_num) (by omega) (show 1 * 4 ≤ 4 by norm_num)
    (size + 1) hs hlen (by omega)
  unfold decodeStreamX1
  rw [decodeFoursX1_eq]
  simp only
  rw [decodeSymbolsX1_eq]
  rw [Prod.mk.eta, Prod.mk.eta]
  generalize reloadingLoop (lookupX1 t) size 4 4 (size + 1) s = s' at hloop ⊢
  have hle := hloop.length_le
  obtain ⟨h1, h2⟩ := h.iterate_length (size - s'.1.length) s'
  refine ⟨h.iterate _ hloop.keeps ?_ (by omega), by omega⟩
  rcases hloop.ended with hend | hend
  · -- at most three symbols are left
    have hthree : size - s'.1.length ≤ 3 := by omega
    refine (Room.of_settled hloop.settled (show 36 ≤ 57 by norm_num)).mono ?_
    calc bits * (size - s'.1.length) ≤ 12 * 3 := Nat.mul_le_mul hbits hthree
      _ = 36 := rfl
  · exact .inr hend

/-- The single-symbol decoder accepts exactly the payloads that its output spells. -/
theorem decompress1X1_iff (ht : t.Decodes ctable) (hfit : ∀ symbol, (ctable symbol).val < 2 ^ (ctable symbol).nbBits)
    {payload out : Bytes} :
    decompress1X1 size payload t = .ok out ↔ out.length = size ∧ SpelledBy ctable payload out := by
  have hle := ht.le
  unfold tablelogMax at hle
  rw [spelledBy_iff hfit]
  unfold decompress1X1
  constructor
  · intro h
    obtain ⟨d, hd, h⟩ := bind_ok h
    obtain ⟨hkeep, hlen⟩ := decodeStreamX1_keeps (ht.spelledSoFar payload size) hle (.new hd) (Nat.zero_le _)
    simp only at h
    split at h
    · cases h
    rename_i hclean
    rw [not_or, not_not, not_not] at hclean
    cases h
    refine ⟨by rw [List.length_reverse]; exact hclean.1, d, hd, ?_⟩
    exact SpelledSoFar.ended hkeep hclean.2
  · rintro ⟨rfl, d, hd, hspells⟩
    obtain ⟨hkeep, hlen⟩ := decodeStreamX1_keeps (ht.goesOn payload out) hle (.new hd hspells) (Nat.zero_le _)
    obtain ⟨hout, hend⟩ := hkeep.ended hlen
    rw [hd, ok_bind]
    simp only
    rw [if_neg (by rw [not_or, not_not, not_not]; exact ⟨hlen, hend⟩), hout]

end

/-! ## The double-symbol decoder -/

theorem decodeSymbolsX2_eq (t : DTableX2) : ∀ (n : Nat) (s : StreamState),
    decodeSymbolsX2 t n s = (decodeSymbolX2 t)^[n] s
  | 0, _ => rfl
  | n + 1, s => by
    rw [Function.iterate_succ_apply]
    exact decodeSymbolsX2_eq t n _

theorem decodeGroupsX2_eq (t : DTableX2) (size n width : Nat) : ∀ (fuel : Nat) (s : StreamState),
    decodeGroupsX2 t size n width fuel s = reloadingLoop (decodeSymbolX2 t) size n width fuel s
  | 0, _ => rfl
  | fuel + 1, s => by
    unfold decodeGroupsX2 reloadingLoop
    simp only [decodeSymbolsX2_eq]
    split
    · exact decodeGroupsX2_eq t size n width fuel _
    · rfl

section
variable {t : DTableX2} {ctable : CTable} {payload symbols : Bytes} {depth : Nat}

theorem DTableX2.Decodes.bounds (ht : t.Decodes ctable) : 1 ≤ t.tableLog ∧ t.tableLog ≤ 12 := by
  rcases ht.log with h | h <;> rw [h] <;> decide

theorem DTableX2.Decodes.answers_looked (ht : t.Decodes ctable) (d : BitDStream) :
    AnswersX2 ctable t.tableLog (d.lookBitsFast t.tableLog) (t.entries.getD (d.lookBitsFast t.tableLog) default) :=
  ht.answers _ (d.lookBitsFast_lt ht.bounds.1 (by have := ht.bounds; omega))

theorem DTableX2.Decodes.goesOn (hc : Complete ctable.code depth) (ht : t.Decodes ctable) (payload symbols : Bytes) :
    Lookups (GoesOn ctable payload symbols) (decodeSymbolX2 t) t.tableLog 2 symbols.length := by
  obtain ⟨hpos, hle⟩ := ht.bounds
  refine ⟨?_, fun _ _ h => h.reload, fun _ _ h => h.reloadFast, ?_, ?_, ?_⟩
  · intro s hs hroom hlen
    have hentry := ht.answers_looked s.2
    have hsome := hentry.some
    have htwo := hentry.two
    exact hs.emit hc hpos (by omega) hroom (by omega) (by omega) hentry.le hentry.spells
  · rintro s ⟨-, p, rest, hat, -⟩
    exact ⟨p, hat.standsAt⟩
  · intro s
    have hentry := ht.answers_looked s.2
    have hsome := hentry.some
    have htwo := hentry.two
    unfold decodeSymbolX2
    simp only [List.length_append, List.length_reverse]
    omega
  · intro s k hroom
    have hentry := (ht.answers_looked s.2).le
    unfold decodeSymbolX2 Room BitDStream.Holds at *
    simp only [BitDStream.skipBits_bitsConsumed, BitDStream.skipBits_ptr]
    omega

/-- Before the last symbol: one is missing at most, and all that is left is in the container. -/
structure LastMissing (ctable : CTable) (payload symbols : Bytes) (s : StreamState) : Prop where
  goesOn : GoesOn ctable payload symbols s
  settled : s.2.Settled
  length_le : s.1.length ≤ symbols.length
  missing : symbols.length < s.1.length + 2

theorem decodePairsX2_goesOn {bits : Nat}
    (h : Lookups (GoesOn ctable payload symbols) (decodeSymbolX2 t) bits 2 symbols.length) :
    ∀ (fuel : Nat) {s : StreamState}, Reloaded (GoesOn ctable payload symbols) symbols.length 2 s →
      symbols.length < s.1.length + fuel → LastMissing ctable payload symbols (decodePairsX2 t symbols.length fuel s)
  | 0, s, hs, hfuel => by
    have := hs.length_le
    omega
  | fuel + 1, s, hs, hfuel => by
    unfold decodePairsX2
    split
    · rename_i hmore
      have hptr := hs.ended.resolve_left (by omega)
      obtain ⟨h1, h2⟩ := h.grows s
      refine decodePairsX2_goesOn h fuel ⟨h.step s hs.keeps (.inr hptr) hmore, ?_, by omega, .inr ?_⟩ (by omega)
      · exact .inl hptr
      · exact hptr
    · rename_i hstop
      exact ⟨hs.keeps, hs.settled, hs.length_le, by omega⟩

/-- The last symbol is the first one of its entry, and its entry takes all that is left. -/
theorem DTableX2.Decodes.decodeLast (hc : Complete ctable.code depth) (hdepth : depth ≤ 12) (ht : t.Decodes ctable)
    {s : StreamState} (hs : LastMissing ctable payload symbols s) (hlt : s.1.length < symbols.length) :
    (decodeLastSymbolX2 t s).1.reverse = symbols ∧ (decodeLastSymbolX2 t s).2.endOfStream = true := by
  obtain ⟨hpos, hle⟩ := ht.bounds
  have hentry := ht.answers_looked s.2
  have hsome := hentry.some
  have hroom := Room.of_settled hs.settled (show t.tableLog ≤ 57 by omega)
  obtain ⟨p, rest, hat, hsplit, hrest, hword⟩ :=
    hs.goesOn.looked hpos (by omega) hroom hlt hentry.le hentry.spells
  have hmissing : symbols.length = s.1.length + rest.length := by
    rw [hsplit, List.length_append, List.length_reverse]
  have hlast := hs.missing
  have hone : rest.length = 1 := by omega
  obtain ⟨more, hseq, hmore⟩ := hc.spells_prefix hrest hword (by omega)
  have hcover := hmore.le
  have hposition := hat.position
  have hsettled := hs.settled
  unfold decodeLastSymbolX2
  simp only
  generalize t.entries.getD (s.2.lookBitsFast t.tableLog) default = entry at *
  have htake : entry.sequence.take 1 = rest := by
    rw [hseq, ← hone, List.take_left']
    rfl
  have hlebits := hentry.le
  have hp : 0 < p ∧ p ≤ 12 := by
    obtain ⟨r, rfl⟩ := List.length_eq_one_iff.1 hone
    have hr := hrest.1.pos
    have hrle := hc.le r
    have hdone : p + t.tableLog - (ctable.code r).2 = t.tableLog := hrest.2
    omega
  have hptr : s.2.ptr = 0 := hs.settled.resolve_right (by omega)
  have hconsumed : s.2.bitsConsumed < containerBits := by
    unfold containerBits
    omega
  constructor
  · rw [htake, hsplit, List.reverse_append]
    obtain ⟨r, rfl⟩ := List.length_eq_one_iff.1 hone
    rfl
  · by_cases hsingle : entry.sequence.length = 1
    · have hnil : more = [] := by
        apply List.eq_nil_of_length_eq_zero
        rw [hseq, List.length_append] at hsingle
        omega
      subst hnil
      have hdone : t.tableLog = p + t.tableLog - entry.nbBits := hmore
      rw [if_pos hsingle]
      unfold BitDStream.endOfStream containerBits
      rw [BitDStream.skipBits_ptr, BitDStream.skipBits_bitsConsumed, Bool.and_eq_true, decide_eq_true_eq,
        decide_eq_true_eq]
      omega
    · rw [if_neg hsingle, if_pos hconsumed]
      unfold BitDStream.endOfStream containerBits at *
      rw [Bool.and_eq_true, decide_eq_true_eq, decide_eq_true_eq]
      exact ⟨hptr, by simp only; omega⟩

/-- The double-symbol decoder follows a payload to its end. -/
theorem decodeStreamX2_goesOn (hc : Complete ctable.code depth) (hdepth : depth ≤ 12) (ht : t.Decodes ctable)
    {s : StreamState} (hs : GoesOn ctable payload symbols s) (hlen : s.1.length ≤ symbols.length) :
    (decodeStreamX2 t symbols.length s.1 s.2).1.reverse = symbols ∧
      (decodeStreamX2 t symbols.length s.1 s.2).2.endOfStream = true := by
  have h := ht.goesOn hc payload symbols
  obtain ⟨hpos, hle⟩ := ht.bounds
  unfold decodeStreamX2
  simp only
  -- the wide rounds, or one reload
  generalize hfirst : (if symbols.length - s.1.length ≥ containerBytes then
      if t.tableLog ≤ decoderFastTablelog then decodeGroupsX2 t symbols.length 5 10 (symbols.length + 1) (s.1, s.2)
      else decodeGroupsX2 t symbols.length 4 containerBytes (symbols.length + 1) (s.1, s.2)
    else (s.1, s.2.reload.2)) = s1
  have hs1 : GoesOn ctable payload symbols s1 ∧ s1.2.Settled ∧ s1.1.length ≤ symbols.length := by
    rw [← hfirst]
    split
    · split
      · rename_i hfast
        unfold decoderFastTablelog at hfast
        rw [decodeGroupsX2_eq]
        have := h.reloadingLoop (n := 5) (by norm_num) (by omega) (le_refl 10) (symbols.length + 1) hs hlen (by omega)
        exact ⟨this.keeps, this.settled, this.length_le⟩
      · rw [decodeGroupsX2_eq]
        have := h.reloadingLoop (n := 4) (by norm_num) (by omega) (le_refl 8) (symbols.length + 1) hs hlen (by omega)
        exact ⟨this.keeps, this.settled, this.length_le⟩
    · obtain ⟨-, p, rest, hat, -⟩ := id hs
      exact ⟨hs.reload, (BitDStream.reload_at hat).2.2, hlen⟩
  obtain ⟨hkeep, hsettled, hlen1⟩ := hs1
  generalize hsecond : (if symbols.length - s1.1.length ≥ 2 then
      decodePairsX2 t symbols.length (symbols.length + 1)
        (decodeGroupsX2 t symbols.length 1 2 (symbols.length + 1) s1)
    else s1) = s2
  have hs2 : LastMissing ctable payload symbols s2 := by
    rw [← hsecond]
    split
    · rw [decodeGroupsX2_eq]
      have := h.reloadingLoop (n := 1) (by norm_num) (by omega) (le_refl 2) (symbols.length + 1) hkeep hlen1 (by omega)
      exact decodePairsX2_goesOn h (symbols.length + 1) this (by omega)
    · exact ⟨hkeep, hsettled, hlen1, by omega⟩
  split
  · rename_i hlt
    exact ht.decodeLast hc hdepth hs2 hlt
  · rename_i hge
    have hle2 := hs2.length_le
    exact hs2.goesOn.ended (by omega)

theorem decompress1X2_spelled (hc : Complete ctable.code depth) (hdepth : depth ≤ 12) (ht : t.Decodes ctable)
    (hfit : ∀ symbol, (ctable symbol).val < 2 ^ (ctable symbol).nbBits) (h : SpelledBy ctable payload symbols) :
    decompress1X2 symbols.length payload t = .ok symbols := by
  obtain ⟨d, hd, hspells⟩ := (spelledBy_iff hfit).1 h
  obtain ⟨hout, hend⟩ := decodeStreamX2_goesOn hc hdepth ht (GoesOn.new hd hspells) (Nat.zero_le _)
  have hlen := congrArg List.length hout
  rw [List.length_reverse] at hlen
  unfold decompress1X2
  rw [hd, ok_bind]
  simp only
  rw [if_neg (by rw [not_or, not_not, not_not]; exact ⟨hlen, hend⟩), hout]

end

/-! ## Four streams -/

/-- A stream whose segment is not overrun. -/
structure Within (keep : StreamState → Prop) (size : Nat) (s : StreamState) : Prop where
  keeps : keep s
  length_le : s.1.length ≤ size

/-- A stream before a round of the lockstep loop: while the loop goes on its container is full, or the last one. -/
structure Ready (keep : StreamState → Prop) (size : Nat) (more : Bool) (s : StreamState) : Prop
    extends Within keep size s where
  full : more = true → s.2.bitsConsumed ≤ 8 ∨ s.2.ptr = 0

section
variable {lookup : StreamState → StreamState} {bits most n : Nat}

/-- A round of one stream, up to its fast reload. -/
theorem Lookups.round {keep : StreamState → Prop} {size : Nat} (h : Lookups keep lookup bits most size)
    (hbits : bits * n ≤ 56) {s : StreamState} (hs : Ready keep size true s) (hlen : s.1.length + most * n ≤ size) :
    Within keep size ((lookup^[n] s).1, (lookup^[n] s).2.reloadFast.2) ∧
      ((lookup^[n] s).2.reloadFast.1 = .unfinished → (lookup^[n] s).2.reloadFast.2.bitsConsumed ≤ 8) := by
  have hroom : Room s.2 (bits * n) := by
    rcases hs.full rfl with hfull | hlast
    · exact .inl (by unfold BitDStream.Holds; omega)
    · exact .inr hlast
  have hkeep := h.iterate n hs.keeps hroom hlen
  obtain ⟨q, hq⟩ := h.stands _ hkeep
  obtain ⟨-, hle⟩ := h.iterate_length n s
  refine ⟨⟨h.reloadFast _ _ hkeep, by simp only; omega⟩, fun hu => ?_⟩
  exact (hq.reloadFast.2 hu).trans (by norm_num)

variable {keep1 keep2 keep3 keep4 : StreamState → Prop} {z1 z2 z3 z4 : Nat}

/-- The lockstep loop keeps every stream within its segment. `joint` relates the lengths of the four segments. -/
theorem Lookups.fourStreamLoop (h1 : Lookups keep1 lookup bits most z1) (h2 : Lookups keep2 lookup bits most z2)
    (h3 : Lookups keep3 lookup bits most z3) (h4 : Lookups keep4 lookup bits most z4) (hbits : bits * n ≤ 56)
    (more : StreamState → StreamState → StreamState → StreamState → Bool) (joint : Nat → Nat → Nat → Nat → Prop)
    (hjoint : ∀ s1 s2 s3 s4 : StreamState, joint s1.1.length s2.1.length s3.1.length s4.1.length →
      joint (lookup^[n] s1).1.length (lookup^[n] s2).1.length (lookup^[n] s3).1.length (lookup^[n] s4).1.length)
    (hmore : ∀ s1 s2 s3 s4 : StreamState, joint s1.1.length s2.1.length s3.1.length s4.1.length →
      more s1 s2 s3 s4 = true → s1.1.length + most * n ≤ z1 ∧ s2.1.length + most * n ≤ z2 ∧
        s3.1.length + most * n ≤ z3 ∧ s4.1.length + most * n ≤ z4) :
    ∀ (fuel : Nat) {go : Bool} {s1 s2 s3 s4 : StreamState}, Ready keep1 z1 go s1 → Ready keep2 z2 go s2 →
      Ready keep3 z3 go s3 → Ready keep4 z4 go s4 → joint s1.1.length s2.1.length s3.1.length s4.1.length →
      let r := Huff0.fourStreamLoop (lookup^[n]) more fuel go s1 s2 s3 s4
      Within keep1 z1 r.1 ∧ Within keep2 z2 r.2.1 ∧ Within keep3 z3 r.2.2.1 ∧ Within keep4 z4 r.2.2.2
  | 0, _, _, _, _, _, r1, r2, r3, r4, _ => ⟨r1.toWithin, r2.toWithin, r3.toWithin, r4.toWithin⟩
  | fuel + 1, go, s1, s2, s3, s4, r1, r2, r3, r4, hj => by
    unfold Huff0.fourStreamLoop
    simp only
    split
    · rename_i hgo
      rw [Bool.and_eq_true] at hgo
      obtain ⟨rfl, hm⟩ := hgo
      obtain ⟨l1, l2, l3, l4⟩ := hmore s1 s2 s3 s4 hj hm
      obtain ⟨w1, f1⟩ := h1.round hbits r1 l1
      obtain ⟨w2, f2⟩ := h2.round hbits r2 l2
      obtain ⟨w3, f3⟩ := h3.round hbits r3 l3
      obtain ⟨w4, f4⟩ := h4.round hbits r4 l4
      have hnext := hjoint s1 s2 s3 s4 hj
      refine h1.fourStreamLoop h2 h3 h4 hbits more joint hjoint hmore fuel ⟨w1, ?_⟩ ⟨w2, ?_⟩ ⟨w3, ?_⟩ ⟨w4, ?_⟩ hnext <;>
        intro hu <;> rw [decide_eq_true_eq] at hu
      · exact .inl (f1 hu.1)
      · exact .inl (f2 hu.2.1)
      · exact .inl (f3 hu.2.2.1)
      · exact .inl (f4 hu.2.2.2)
    · exact ⟨r1.toWithin, r2.toWithin, r3.toWithin, r4.toWithin⟩

end

/-- What `openStreams` has checked and set up. -/
theorem openStreams_ok_iff {size : Nat} {src : Bytes} {s : Streams} :
    openStreams size src = .ok s ↔ 10 ≤ src.length ∧ 6 ≤ size ∧ 3 * ((size + 3) / 4) ≤ size ∧
      ∃ s1 s2 s3 s4, splitStreams src = .ok (s1, s2, s3, s4) ∧ BitDStream.new s1 = .ok s.d1 ∧
        BitDStream.new s2 = .ok s.d2 ∧ BitDStream.new s3 = .ok s.d3 ∧ BitDStream.new s4 = .ok s.d4 ∧
        s.segment = (size + 3) / 4 ∧ s.last = size - 3 * ((size + 3) / 4) := by
  unfold openStreams
  constructor
  · intro h
    split at h
    · cases h
    split at h
    · cases h
    obtain ⟨⟨s1, s2, s3, s4⟩, hsplit, h⟩ := bind_ok h
    obtain ⟨d1, h1, h⟩ := bind_ok h
    obtain ⟨d2, h2, h⟩ := bind_ok h
    obtain ⟨d3, h3, h⟩ := bind_ok h
    obtain ⟨d4, h4, h⟩ := bind_ok h
    simp only at h
    split at h
    · cases h
    · cases h
      exact ⟨by omega, by omega, by omega, s1, s2, s3, s4, hsplit, h1, h2, h3, h4, rfl, rfl⟩
  · rintro ⟨hlen, hsize, hseg, s1, s2, s3, s4, hsplit, h1, h2, h3, h4, hs, hl⟩
    rw [if_neg (by omega), if_neg (by omega), hsplit, ok_bind]
    simp only
    rw [h1, ok_bind, h2, ok_bind, h3, ok_bind, h4, ok_bind, if_neg (by omega), ← hl, ← hs]

theorem closeStreams_ok_iff {finish : Nat → Bytes → BitDStream → Bytes × BitDStream} {s : Streams}
    {r : StreamState × StreamState × StreamState × StreamState} {out : Bytes}
    (h1 : r.1.1.length ≤ s.segment) (h2 : r.2.1.1.length ≤ s.segment) (h3 : r.2.2.1.1.length ≤ s.segment) :
    closeStreams finish s r = .ok out ↔
      ((finish s.segment r.1.1 r.1.2).2.endOfStream = true ∧ (finish s.segment r.2.1.1 r.2.1.2).2.endOfStream = true ∧
        (finish s.segment r.2.2.1.1 r.2.2.1.2).2.endOfStream = true ∧
        (finish s.last r.2.2.2.1 r.2.2.2.2).2.endOfStream = true) ∧
      out = (finish s.segment r.1.1 r.1.2).1.reverse ++ (finish s.segment r.2.1.1 r.2.1.2).1.reverse ++
        (finish s.segment r.2.2.1.1 r.2.2.1.2).1.reverse ++ (finish s.last r.2.2.2.1 r.2.2.2.2).1.reverse := by
  obtain ⟨⟨o1, d1⟩, ⟨o2, d2⟩, ⟨o3, d3⟩, o4, d4⟩ := r
  simp only at h1 h2 h3
  unfold closeStreams
  simp only
  rw [if_neg (by omega)]
  split
  · rename_i hend
    simp only [Bool.and_eq_true] at hend
    simp only [Except.ok.injEq]
    constructor
    · rintro rfl
      exact ⟨⟨hend.1.1.1, hend.1.1.2, hend.1.2, hend.2⟩, rfl⟩
    · rintro ⟨-, rfl⟩
      rfl
  · rename_i hend
    constructor
    · intro h
      cases h
    · rintro ⟨⟨e1, e2, e3, e4⟩, -⟩
      exact absurd (by rw [e1, e2, e3, e4]; rfl) hend

/-- A new stream is ready for the loop. -/
theorem Ready.new {keep : StreamState → Prop} {size : Nat} {payload : Bytes} {d : BitDStream}
    (h : BitDStream.new payload = .ok d) (hs : keep ([], d)) : Ready keep size true ([], d) :=
  ⟨⟨hs, Nat.zero_le _⟩, fun _ => BitDStream.new_room h⟩

section
variable {t1 : DTableX1} {t2 : DTableX2} {ctable : CTable} {size : Nat} {payload out : Bytes} {depth : Nat}

/-- The lockstep loop of `decompress_4x1`. -/
def lockstepX1 (t : DTableX1) (size : Nat) (s : Streams) : StreamState × StreamState × StreamState × StreamState :=
  fourStreamLoop (fun p => decodeSymbolsX1 t 4 p.1 p.2) (fun _ _ _ s4 => decide (s4.1.length < s.last - 3))
    (size + 1) true ([], s.d1) ([], s.d2) ([], s.d3) ([], s.d4)

/-- The lockstep loop of `decompress_4x2`. -/
def lockstepX2 (t : DTableX2) (size : Nat) (s : Streams) : StreamState × StreamState × StreamState × StreamState :=
  fourStreamLoop (decodeSymbolsX2 t 4)
    (fun s1 s2 s3 s4 => decide (s1.1.length + containerBytes ≤ s.segment ∧ s2.1.length + containerBytes ≤ s.segment ∧
      s3.1.length + containerBytes ≤ s.segment ∧ s4.1.length + containerBytes ≤ s.last)) (size + 1) true
    ([], s.d1) ([], s.d2) ([], s.d3) ([], s.d4)

theorem decompress4X1_eq (size : Nat) (payload : Bytes) (t : DTableX1) : decompress4X1 size payload t =
    openStreams size payload >>= fun s => closeStreams (decodeStreamX1 t) s (lockstepX1 t size s) := rfl

theorem decompress4X2_eq (size : Nat) (payload : Bytes) (t : DTableX2) : decompress4X2 size payload t =
    openStreams size payload >>= fun s => closeStreams (decodeStreamX2 t) s (lockstepX2 t size s) := rfl

/-- All four streams are within their segments. -/
structure AllWithin (keep1 keep2 keep3 keep4 : StreamState → Prop) (segment last : Nat)
    (r : StreamState × StreamState × StreamState × StreamState) : Prop where
  first : Within keep1 segment r.1
  second : Within keep2 segment r.2.1
  third : Within keep3 segment r.2.2.1
  fourth : Within keep4 last r.2.2.2

/-- The four segments of the single-symbol loop are equally long, and the last one is the shortest. -/
theorem lockstepX1_within {bits : Nat} {keep1 keep2 keep3 keep4 : StreamState → Prop} {s : Streams}
    (hs : openStreams size payload = .ok s)
    (h1 : Lookups keep1 (lookupX1 t1) bits 1 s.segment) (h2 : Lookups keep2 (lookupX1 t1) bits 1 s.segment)
    (h3 : Lookups keep3 (lookupX1 t1) bits 1 s.segment) (h4 : Lookups keep4 (lookupX1 t1) bits 1 s.last)
    (hbits : bits ≤ 12) (k1 : keep1 ([], s.d1)) (k2 : keep2 ([], s.d2)) (k3 : keep3 ([], s.d3))
    (k4 : keep4 ([], s.d4)) :
    AllWithin keep1 keep2 keep3 keep4 s.segment s.last (lockstepX1 t1 size s) := by
  obtain ⟨-, -, hseg, p1, p2, p3, p4, -, n1, n2, n3, n4, hsegment, hlast⟩ := openStreams_ok_iff.1 hs
  have hdecode : (fun p : StreamState => decodeSymbolsX1 t1 4 p.1 p.2) = (lookupX1 t1)^[4] := by
    funext p
    exact decodeSymbolsX1_eq t1 4 p.1 p.2
  unfold lockstepX1
  rw [hdecode]
  obtain ⟨w1, w2, w3, w4⟩ := h1.fourStreamLoop h2 h3 h4 (n := 4) (by omega)
    (fun _ _ _ s4 => decide (s4.1.length < s.last - 3)) (fun a b c d => a = d ∧ b = d ∧ c = d)
    (by
      rintro a b c d ⟨ha, hb, hc⟩
      exact ⟨congrArg (· + 1 + 1 + 1 + 1) ha, congrArg (· + 1 + 1 + 1 + 1) hb, congrArg (· + 1 + 1 + 1 + 1) hc⟩)
    (by
      rintro a b c d ⟨ha, hb, hc⟩ hmore
      rw [decide_eq_true_eq] at hmore
      omega)
    (size + 1) (.new n1 k1) (.new n2 k2) (.new n3 k3) (.new n4 k4) ⟨rfl, rfl, rfl⟩
  exact ⟨w1, w2, w3, w4⟩

/-- The lookups of the double-symbol loop leave eight bytes of every segment. -/
theorem lockstepX2_within {bits : Nat} {keep1 keep2 keep3 keep4 : StreamState → Prop} {s : Streams}
    (hs : openStreams size payload = .ok s)
    (h1 : Lookups keep1 (decodeSymbolX2 t2) bits 2 s.segment) (h2 : Lookups keep2 (decodeSymbolX2 t2) bits 2 s.segment)
    (h3 : Lookups keep3 (decodeSymbolX2 t2) bits 2 s.segment) (h4 : Lookups keep4 (decodeSymbolX2 t2) bits 2 s.last)
    (hbits : bits ≤ 12) (k1 : keep1 ([], s.d1)) (k2 : keep2 ([], s.d2)) (k3 : keep3 ([], s.d3))
    (k4 : keep4 ([], s.d4)) :
    AllWithin keep1 keep2 keep3 keep4 s.segment s.last (lockstepX2 t2 size s) := by
  obtain ⟨-, -, hseg, p1, p2, p3, p4, -, n1, n2, n3, n4, hsegment, hlast⟩ := openStreams_ok_iff.1 hs
  have hdecode : decodeSymbolsX2 t2 4 = (decodeSymbolX2 t2)^[4] := by
    funext p
    exact decodeSymbolsX2_eq t2 4 p
  unfold lockstepX2
  rw [hdecode]
  obtain ⟨w1, w2, w3, w4⟩ := h1.fourStreamLoop h2 h3 h4 (n := 4) (by omega)
    (fun s1 s2 s3 s4 => decide (s1.1.length + containerBytes ≤ s.segment ∧
      s2.1.length + containerBytes ≤ s.segment ∧ s3.1.length + containerBytes ≤ s.segment ∧
      s4.1.length + containerBytes ≤ s.last)) (fun _ _ _ _ => True)
    (fun _ _ _ _ _ => trivial)
    (by
      intro a b c d _ hmore
      rw [decide_eq_true_eq] at hmore
      exact hmore)
    (size + 1) (.new n1 k1) (.new n2 k2) (.new n3 k3) (.new n4 k4) trivial
  exact ⟨w1, w2, w3, w4⟩

/-- The streams of a spelled section, each before its segment. -/
theorem SpelledBy4.opened (hfit : ∀ symbol, (ctable symbol).val < 2 ^ (ctable symbol).nbBits)
    (h : SpelledBy4 ctable size payload out) :
    ∃ s p1 p2 p3 p4 o1 o2 o3 o4, openStreams size payload = .ok s ∧ out = o1 ++ o2 ++ o3 ++ o4 ∧
      (o1.length = s.segment ∧ o2.length = s.segment ∧ o3.length = s.segment ∧ o4.length = s.last) ∧
      GoesOn ctable p1 o1 ([], s.d1) ∧ GoesOn ctable p2 o2 ([], s.d2) ∧ GoesOn ctable p3 o3 ([], s.d3) ∧
      GoesOn ctable p4 o4 ([], s.d4) := by
  obtain ⟨hlen, hsize, hseg, p1, p2, p3, p4, o1, o2, o3, o4, hsplit, rfl, hlengths, b1, b2, b3, b4⟩ := h
  obtain ⟨d1, n1, b1⟩ := (spelledBy_iff hfit).1 b1
  obtain ⟨d2, n2, b2⟩ := (spelledBy_iff hfit).1 b2
  obtain ⟨d3, n3, b3⟩ := (spelledBy_iff hfit).1 b3
  obtain ⟨d4, n4, b4⟩ := (spelledBy_iff hfit).1 b4
  refine ⟨⟨d1, d2, d3, d4, (size + 3) / 4, size - 3 * ((size + 3) / 4)⟩, p1, p2, p3, p4, o1, o2, o3, o4, ?_, rfl,
    hlengths, .new n1 b1, .new n2 b2, .new n3 b3, .new n4 b4⟩
  exact openStreams_ok_iff.2 ⟨hlen, hsize, hseg, p1, p2, p3, p4, hsplit, n1, n2, n3, n4, rfl, rfl⟩

/-- The single-symbol decoder accepts exactly the sections whose four payloads spell their segments of the output. -/
theorem decompress4X1_iff (ht : t1.Decodes ctable) (hfit : ∀ symbol, (ctable symbol).val < 2 ^ (ctable symbol).nbBits) :
    decompress4X1 size payload t1 = .ok out ↔ SpelledBy4 ctable size payload out := by
  have hle := ht.le
  unfold tablelogMax at hle
  rw [decompress4X1_eq]
  constructor
  · intro h
    obtain ⟨s, hs, h⟩ := bind_ok h
    obtain ⟨hlen, hsize, hseg, p1, p2, p3, p4, hsplit, n1, n2, n3, n4, hsegment, hlast⟩ := openStreams_ok_iff.1 hs
    obtain ⟨w1, w2, w3, w4⟩ := lockstepX1_within hs (ht.spelledSoFar p1 _) (ht.spelledSoFar p2 _)
      (ht.spelledSoFar p3 _) (ht.spelledSoFar p4 _) hle (.new n1) (.new n2) (.new n3) (.new n4)
    generalize lockstepX1 t1 size s = r at *
    rw [closeStreams_ok_iff w1.length_le w2.length_le w3.length_le] at h
    obtain ⟨⟨e1, e2, e3, e4⟩, rfl⟩ := h
    obtain ⟨f1, l1⟩ := decodeStreamX1_keeps (ht.spelledSoFar p1 _) hle w1.keeps w1.length_le
    obtain ⟨f2, l2⟩ := decodeStreamX1_keeps (ht.spelledSoFar p2 _) hle w2.keeps w2.length_le
    obtain ⟨f3, l3⟩ := decodeStreamX1_keeps (ht.spelledSoFar p3 _) hle w3.keeps w3.length_le
    obtain ⟨f4, l4⟩ := decodeStreamX1_keeps (ht.spelledSoFar p4 _) hle w4.keeps w4.length_le
    refine ⟨hlen, hsize, hseg, p1, p2, p3, p4, _, _, _, _, hsplit, rfl, ?_, ?_, ?_, ?_, ?_⟩
    · simp only [List.length_reverse]
      exact ⟨l1.trans hsegment, l2.trans hsegment, l3.trans hsegment, l4.trans hlast⟩
    · exact (spelledBy_iff hfit).2 ⟨_, n1, f1.ended e1⟩
    · exact (spelledBy_iff hfit).2 ⟨_, n2, f2.ended e2⟩
    · exact (spelledBy_iff hfit).2 ⟨_, n3, f3.ended e3⟩
    · exact (spelledBy_iff hfit).2 ⟨_, n4, f4.ended e4⟩
  · intro h
    obtain ⟨s, p1, p2, p3, p4, o1, o2, o3, o4, hs, rfl, ⟨l1, l2, l3, l4⟩, b1, b2, b3, b4⟩ := h.opened hfit
    have g1 := ht.goesOn p1 o1
    have g2 := ht.goesOn p2 o2
    have g3 := ht.goesOn p3 o3
    have g4 := ht.goesOn p4 o4
    rw [l1] at g1
    rw [l2] at g2
    rw [l3] at g3
    rw [l4] at g4
    obtain ⟨w1, w2, w3, w4⟩ := lockstepX1_within hs g1 g2 g3 g4 hle b1 b2 b3 b4
    rw [hs, ok_bind]
    generalize lockstepX1 t1 size s = r at *
    obtain ⟨k1, m1⟩ := decodeStreamX1_keeps g1 hle w1.keeps w1.length_le
    obtain ⟨k2, m2⟩ := decodeStreamX1_keeps g2 hle w2.keeps w2.length_le
    obtain ⟨k3, m3⟩ := decodeStreamX1_keeps g3 hle w3.keeps w3.length_le
    obtain ⟨k4, m4⟩ := decodeStreamX1_keeps g4 hle w4.keeps w4.length_le
    obtain ⟨o1', e1⟩ := k1.ended (m1.trans l1.symm)
    obtain ⟨o2', e2⟩ := k2.ended (m2.trans l2.symm)
    obtain ⟨o3', e3⟩ := k3.ended (m3.trans l3.symm)
    obtain ⟨o4', e4⟩ := k4.ended (m4.trans l4.symm)
    rw [closeStreams_ok_iff w1.length_le w2.length_le w3.length_le]
    exact ⟨⟨e1, e2, e3, e4⟩, by rw [o1', o2', o3', o4']⟩

/-- The double-symbol decoder accepts them too. -/
theorem decompress4X2_spelled (hc : Complete ctable.code depth) (hdepth : depth ≤ 12) (ht : t2.Decodes ctable)
    (hfit : ∀ symbol, (ctable symbol).val < 2 ^ (ctable symbol).nbBits) (h : SpelledBy4 ctable size payload out) :
    decompress4X2 size payload t2 = .ok out := by
  obtain ⟨s, p1, p2, p3, p4, o1, o2, o3, o4, hs, rfl, ⟨l1, l2, l3, l4⟩, b1, b2, b3, b4⟩ := h.opened hfit
  have g1 := ht.goesOn hc p1 o1
  have g2 := ht.goesOn hc p2 o2
  have g3 := ht.goesOn hc p3 o3
  have g4 := ht.goesOn hc p4 o4
  rw [l1] at g1
  rw [l2] at g2
  rw [l3] at g3
  rw [l4] at g4
  obtain ⟨w1, w2, w3, w4⟩ := lockstepX2_within hs g1 g2 g3 g4 ht.bounds.2 b1 b2 b3 b4
  rw [decompress4X2_eq, hs, ok_bind]
  generalize lockstepX2 t2 size s = r at *
  rw [closeStreams_ok_iff w1.length_le w2.length_le w3.length_le]
  have finished : ∀ {p o : Bytes} {z : Nat} {u : StreamState}, o.length = z → Within (GoesOn ctable p o) z u →
      (decodeStreamX2 t2 z u.1 u.2).1.reverse = o ∧ (decodeStreamX2 t2 z u.1 u.2).2.endOfStream = true := by
    rintro p o z u rfl hu
    exact decodeStreamX2_goesOn hc hdepth ht hu.keeps hu.length_le
  obtain ⟨o1', e1⟩ := finished l1 w1
  obtain ⟨o2', e2⟩ := finished l2 w2
  obtain ⟨o3', e3⟩ := finished l3 w3
  obtain ⟨o4', e4⟩ := finished l4 w4
  exact ⟨⟨e1, e2, e3, e4⟩, by rw [o1', o2', o3', o4']⟩

end

/-! ## Agreement -/

/-- On one payload: what the single-symbol decoder accepts the double-symbol decoder accepts with the same bytes, and
the single-symbol decoder accepts what the codes spell. -/
structure DecodersAgree (t1 : DTableX1) (t2 : DTableX2) (ctable : CTable) (size : Nat) (payload : Bytes) : Prop where
  oneStream : ∀ out, decompress1X1 size payload t1 = .ok out → decompress1X2 size payload t2 = .ok out
  fourStreams : ∀ out, decompress4X1 size payload t1 = .ok out → decompress4X2 size payload t2 = .ok out
  oneStream_eq : ∀ out out', decompress1X1 size payload t1 = .ok out → decompress1X2 size payload t2 = .ok out' →
    out = out'
  fourStreams_eq : ∀ out out', decompress4X1 size payload t1 = .ok out → decompress4X2 size payload t2 = .ok out' →
    out = out'
  oneStream_iff : ∀ out, decompress1X1 size payload t1 = .ok out ↔ out.length = size ∧ SpelledBy ctable payload out
  fourStreams_iff : ∀ out, decompress4X1 size payload t1 = .ok out ↔ SpelledBy4 ctable size payload out

theorem decodersAgree {t1 : DTableX1} {t2 : DTableX2} {ctable : CTable} (h1 : t1.Decodes ctable)
    (h2 : t2.Decodes ctable)
    (hfit : ∀ symbol, (ctable symbol).val < 2 ^ (ctable symbol).nbBits) (size : Nat) (payload : Bytes) :
    DecodersAgree t1 t2 ctable size payload := by
  have one : ∀ out, decompress1X1 size payload t1 = .ok out → decompress1X2 size payload t2 = .ok out := by
    intro out h
    obtain ⟨rfl, hspelled⟩ := (decompress1X1_iff h1 hfit).1 h
    exact decompress1X2_spelled h1.complete h1.le h2 hfit hspelled
  have four : ∀ out, decompress4X1 size payload t1 = .ok out → decompress4X2 size payload t2 = .ok out := fun out h =>
    decompress4X2_spelled h1.complete h1.le h2 hfit ((decompress4X1_iff h1 hfit).1 h)
  refine ⟨one, four, ?_, ?_, fun out => decompress1X1_iff h1 hfit, fun out => decompress4X1_iff h1 hfit⟩
  · intro out out' h h'
    rw [one out h] at h'
    exact Except.ok.inj h'
  · intro out out' h h'
    rw [four out h] at h'
    exact Except.ok.inj h'

/-- Every description is refused by both table readers, or gives both tables and the codes both decoders agree on
for all payloads and sizes. -/
theorem singleDouble_agree (desc : Bytes) :
    (∃ e, readDtableX1 desc = .error e ∧ readDtableX2 desc = .error e) ∨
    ∃ t1 t2 ctable size repeatValid, readDtableX1 desc = .ok (t1, size) ∧ readDtableX2 desc = .ok (t2, size) ∧
      readCtableX1WithRepeatValidity desc = .ok (ctable, size, repeatValid) ∧
      ∀ (regeneratedSize : Nat) (payload : Bytes), DecodersAgree t1 t2 ctable.ctable regeneratedSize payload := by
  cases h : readStats desc with
  | error e =>
    refine .inl ⟨e, ?_, ?_⟩
    · unfold readDtableX1
      rw [h]
      rfl
    · unfold readDtableX2
      rw [h]
      rfl
  | ok stats =>
    obtain ⟨entries, repeatValid, hentries, hread⟩ := readCtableX1WithRepeatValidity_ok h
    have hcodes := readCtableX1_codes h hentries
    obtain ⟨t1, h1, -, hdecodes1⟩ := readDtableX1_decodes h hcodes
    obtain ⟨t2, h2, hdecodes2⟩ := readDtableX2_decodes h hcodes
    exact .inr ⟨t1, t2, _, stats.size, repeatValid, h1, h2, hread, decodersAgree hdecodes1 hdecodes2 hcodes.fits⟩

/-- Two symbols of one bit each: the payload `0b110` reads as the symbols 1, 0. -/
example : (readDtableX1 [128, 16] >>= fun t => decompress1X1 2 [6] t.1) = .ok [1, 0] := by decide +kernel

end Huff0

end Zstandard
