/-
FSE coding with two interleaved states: `compress_using_ctable` from the last symbol down, and what
`decompress_interleaved2` makes of it.

The two states take turns, so each transition of one is written above the transition that the other made
just before. `Coded` lists the fields in that order; it is what the encoder's loop builds up, symbol by
symbol, and what the decoder's loops take down. The first state of each half is the only one whose entry
asks for bits that are not there, which ends the decoder.
-/
import Zstandard.Entropy.BitWriter
import Zstandard.Entropy.Duality
import Mathlib.Data.Nat.Bitwise

namespace Zstandard

namespace Fse

open BitStack

/-! ## The encoder -/

def encodeSymbol (bitC : BitCStream) (value : Nat) (ct : CTable) (symbol : Nat) : Result (BitCStream × Nat) := do
  let (nbBitsOut, next) ← encodeState ct value symbol
  .ok (bitC.addBits value nbBitsOut, next)

def flushCstate (bitC : BitCStream) (value : Nat) (ct : CTable) : Result BitCStream :=
  (bitC.addBits value ct.tableLog).flushBits

def blockBound (size : Nat) : Nat := size + size >>> 7 + 4 + containerBytes

/-- The writer, both states and the symbols that are still to come, the last one first. -/
structure Encoder where
  bitC : BitCStream
  state1 : Nat
  state2 : Nat
  rest : List Nat

/-- The first states: of an odd number of symbols, one more symbol is encoded at once. Less than that is
an index below zero. -/
def startStates (ct : CTable) (fast : Bool) (bitC : BitCStream) (src : List Nat) : Result Encoder :=
  if src.length % 2 ≠ 0 then
    match src.reverse with
    | x :: y :: z :: rest => do
      let state1 ← initCstate2 ct x
      let state2 ← initCstate2 ct y
      let (bitC, state1) ← encodeSymbol bitC state1 ct z
      let bitC ← bitC.flush fast
      .ok { bitC, state1, state2, rest }
    | _ => .error .generic
  else
    match src.reverse with
    | x :: y :: rest => do
      let state2 ← initCstate2 ct x
      let state1 ← initCstate2 ct y
      .ok { bitC, state1, state2, rest }
    | _ => .error .generic

/-- Two symbols, one of each state. -/
def encodePair (ct : CTable) (e : Encoder) : Result Encoder :=
  match e.rest with
  | b :: a :: rest => do
    let (bitC, state2) ← encodeSymbol e.bitC e.state2 ct b
    let (bitC, state1) ← encodeSymbol bitC e.state1 ct a
    .ok { bitC, state1, state2, rest }
  | _ => .error .generic

/-- The loop: four symbols between two flushes. -/
def encodeFours (ct : CTable) (fast : Bool) : Nat → Encoder → Result Encoder
  | 0, e => .ok e
  | fuel + 1, e =>
    if e.rest = [] then .ok e else do
      let e ← encodePair ct e
      let e ← encodePair ct e
      let bitC ← e.bitC.flush fast
      encodeFours ct fast fuel { e with bitC }

def compressUsingCtableGeneric (dst : Bytes) (src : List Nat) (ct : CTable) (fast : Bool) : Result (Nat × Bytes) :=
  if src.length ≤ 2 then .ok (0, dst) else
  match BitCStream.new dst with
  | .error .dstSizeTooSmall => .ok (0, dst)
  | .error e => .error e
  | .ok bitC => do
    let e ← startStates ct fast bitC src
    let e ← (if (src.length - 2) &&& 2 ≠ 0 then do
        let e ← encodePair ct e
        let bitC ← e.bitC.flush fast
        .ok { e with bitC }
      else .ok e)
    let e ← encodeFours ct fast src.length e
    let bitC ← flushCstate e.bitC e.state2 ct
    let bitC ← flushCstate bitC e.state1 ct
    bitC.close

def compressUsingCtable (dst : Bytes) (src : List Nat) (ct : CTable) : Result (Nat × Bytes) :=
  compressUsingCtableGeneric dst src ct (decide (dst.length ≥ blockBound src.length))

/-! ## The fields between the symbols -/

/-- The fields that a decoder finds below the slots `cur`, whose turn it is, and `other`, on its way to
`symbols`. -/
inductive Coded (tableLog : Nat) (entries : List DecodeEntry) : Nat → Nat → List Field → List Nat → Prop
  | last {cur other a b newState newState' nbBits nbBits' : Nat} :
    entries[cur]? = some { newState, symbol := a, nbBits } → 1 ≤ nbBits → nbBits ≤ tableLog →
    entries[other]? = some { newState := newState', symbol := b, nbBits := nbBits' } →
    Coded tableLog entries cur other [] [a, b]
  | next {cur other a newState nbBits value : Nat} {fs : List Field} {symbols : List Nat} :
    entries[cur]? = some { newState, symbol := a, nbBits } → nbBits ≤ tableLog →
    Coded tableLog entries other (newState + value % 2 ^ nbBits) fs symbols →
    Coded tableLog entries cur other (fs ++ [(value, nbBits)]) (a :: symbols)

theorem Coded.width_le {tableLog cur other : Nat} {entries : List DecodeEntry} {fs : List Field} {symbols : List Nat}
    (h : Coded tableLog entries cur other fs symbols) : width fs + 2 * tableLog ≤ tableLog * symbols.length := by
  induction h with
  | last _ _ _ _ =>
    simp only [width_nil, List.length_cons, List.length_nil]
    omega
  | next _ hle _ ih =>
    rw [width_append, width_cons, width_nil, List.length_cons, Nat.mul_add]
    omega

theorem Coded.two_le {tableLog cur other : Nat} {entries : List DecodeEntry} {fs : List Field} {symbols : List Nat}
    (h : Coded tableLog entries cur other fs symbols) : 2 ≤ symbols.length := by
  induction h with
  | last _ _ _ _ => exact le_refl 2
  | next _ _ _ ih =>
    rw [List.length_cons]
    omega

/-! ## What the encoder builds up -/

section
variable {endPos tableLog : Nat} {states : Nat → Prop} {share : Nat → Nat} {ct : CTable} {entries : List DecodeEntry}

/-- The writer and the two states, `cur` the one that took the last turn, stand for `symbols`. -/
def Encoded (endPos tableLog : Nat) (states : Nat → Prop) (entries : List DecodeEntry) (bitC : BitCStream)
    (cur other k : Nat) (symbols : List Nat) : Prop :=
  states cur ∧ states other ∧ (bitC.used + 2 * tableLog ≤ tableLog * symbols.length ∧ bitC.endPos = endPos) ∧
    ∃ fs, bitC.Holds fs k ∧
    Coded tableLog entries (cur % 2 ^ tableLog) (other % 2 ^ tableLog) fs symbols

theorem encodeSymbol_ok (hdual : Dual tableLog states share ct entries) {bitC : BitCStream} {cur other k symbol : Nat}
    {symbols : List Nat} (h : Encoded endPos tableLog states entries bitC cur other k symbols) (hs : share symbol ≠ 0)
    (hmask : tableLog < 32) (hk : k + tableLog < 64) :
    ∃ bitC' next, encodeSymbol bitC other ct symbol = .ok (bitC', next) ∧
      Encoded endPos tableLog states entries bitC' next cur (k + tableLog) (symbol :: symbols) := by
  obtain ⟨hcur, hother, hused, fs, hholds, hcoded⟩ := h
  obtain ⟨nbBits, next, newState, hstep, hle, hnext, hentry, hback⟩ := hdual.step hs hother
  have hadded := (hholds.addBits (v := other) (n := nbBits) (by omega) (by omega)).mono
    (show k + nbBits ≤ k + tableLog by omega)
  refine ⟨bitC.addBits other nbBits, next, ?_, hnext, hcur, ⟨?_, hused.2⟩, _, hadded, ?_⟩
  · unfold encodeSymbol
    rw [hstep]
    rfl
  · rw [BitCStream.addBits_used, List.length_cons, Nat.mul_succ]
    omega
  · exact .next hentry hle (by rw [hback]; exact hcoded)

theorem flush_ok {bitC : BitCStream} {cur other k : Nat} {symbols : List Nat}
    (h : Encoded endPos tableLog states entries bitC cur other k symbols) (hk : k < 64) :
    ∃ bitC', bitC.flush false = .ok bitC' ∧ Encoded endPos tableLog states entries bitC' cur other 7 symbols := by
  obtain ⟨hcur, hother, hused, fs, hholds, hcoded⟩ := h
  obtain ⟨bitC', hflush, hholds'⟩ := hholds.flushBits hk
  obtain ⟨hused', hend⟩ := BitCStream.flushBits_used hflush
  exact ⟨bitC', hflush, hcur, hother, ⟨by omega, hend.trans hused.2⟩, fs, hholds', hcoded⟩

/-- An encoder between two symbols of `src`: what it has written stands for the symbols that are done. -/
def Encoder.Stands (endPos tableLog : Nat) (states : Nat → Prop) (entries : List DecodeEntry) (src : List Nat) (k : Nat)
    (e : Encoder) : Prop :=
  ∃ symbols, src = e.rest.reverse ++ symbols ∧ Encoded endPos tableLog states entries e.bitC e.state1 e.state2 k symbols

section
variable {src : List Nat} (hdual : Dual tableLog states share ct entries) (hlog : tableLog ≤ tablelogMax)
  (hsupport : ∀ s ∈ src, share s ≠ 0)

include hdual hsupport in
theorem encodePair_ok {k : Nat} {e : Encoder} (h : e.Stands endPos tableLog states entries src k)
    (hrest : 2 ≤ e.rest.length) (hk : k + tableLog + tableLog < 64) :
    ∃ e', encodePair ct e = .ok e' ∧ e'.Stands endPos tableLog states entries src (k + tableLog + tableLog) ∧
      e'.rest.length + 2 = e.rest.length := by
  obtain ⟨symbols, hsrc, henc⟩ := h
  obtain ⟨bitC, state1, state2, rest⟩ := e
  match rest with
  | [] | [_] => simp at hrest
  | b :: a :: rest =>
    simp only at hsrc henc
    have hmem : ∀ s ∈ [b, a], share s ≠ 0 := by
      intro s hs
      refine hsupport s ?_
      rw [hsrc, List.mem_append, List.mem_reverse]
      rcases List.mem_pair.1 hs with rfl | rfl
      · exact .inl List.mem_cons_self
      · exact .inl (List.mem_cons_of_mem _ List.mem_cons_self)
    obtain ⟨bitC1, next2, h2, henc2⟩ := encodeSymbol_ok hdual henc (hmem b (by simp)) (by omega) (by omega)
    obtain ⟨bitC2, next1, h1, henc1⟩ := encodeSymbol_ok hdual henc2 (hmem a (by simp)) (by omega) hk
    refine ⟨{ bitC := bitC2, state1 := next1, state2 := next2, rest }, ?_, ⟨a :: b :: symbols, ?_, henc1⟩, rfl⟩
    · unfold encodePair
      simp only
      rw [h2, ok_bind]
      simp only
      rw [h1, ok_bind]
    · rw [hsrc]
      simp

include hdual hlog hsupport in
theorem encodeFours_ok : ∀ (fuel : Nat) {e : Encoder}, e.Stands endPos tableLog states entries src 7 →
    e.rest.length ≤ fuel →
    e.rest.length % 4 = 0 →
      ∃ e', encodeFours ct false fuel e = .ok e' ∧ e'.Stands endPos tableLog states entries src 7 ∧ e'.rest = []
  | 0, e, h, hle, _ => ⟨e, rfl, h, List.length_eq_zero_iff.1 (by omega)⟩
  | fuel + 1, e, h, hle, hfour => by
    unfold encodeFours
    unfold tablelogMax at hlog
    by_cases hnil : e.rest = []
    · rw [if_pos hnil]
      exact ⟨e, rfl, h, hnil⟩
    · have hpos := List.length_pos_iff.2 hnil
      rw [if_neg hnil]
      obtain ⟨e1, h1, hstands1, hlen1⟩ := encodePair_ok hdual hsupport h (by omega) (by omega)
      obtain ⟨e2, h2, ⟨symbols, hsrc, henc⟩, hlen2⟩ := encodePair_ok hdual hsupport hstands1 (by omega) (by omega)
      obtain ⟨bitC, hflush, henc'⟩ := flush_ok henc (by omega)
      rw [h1, ok_bind, h2, ok_bind, hflush, ok_bind]
      exact encodeFours_ok fuel (e := { e2 with bitC }) ⟨symbols, hsrc, henc'⟩ (by simp only; omega)
        (by simp only; omega)

include hdual hlog hsupport in
theorem startStates_ok {bitC : BitCStream} (hbitC : bitC.Holds [] 0) (hnew : bitC.used = 0)
    (hend : bitC.endPos = endPos) (hlen : 3 ≤ src.length)
    (hshare : ∀ s ∈ src, share s < 2 ^ tableLog) :
    ∃ e, startStates ct false bitC src = .ok e ∧ e.Stands endPos tableLog states entries src 7 ∧
      e.rest.length + 2 + src.length % 2 = src.length := by
  unfold tablelogMax at hlog
  unfold startStates
  have hback : src = src.reverse.reverse := (List.reverse_reverse src).symm
  have hlenr : src.reverse.length = src.length := List.length_reverse
  have hmem : ∀ s ∈ src.reverse, s ∈ src := fun s hs => List.mem_reverse.1 hs
  generalize src.reverse = rev at hback hlenr hmem
  match rev with
  | [] | [_] | [_, _] =>
    simp only [List.length_cons, List.length_nil] at hlenr
    omega
  | x :: y :: z :: rest =>
    simp only [List.length_cons] at hlenr
    obtain ⟨first, newState, nbBits, hx, hfirst, hentry, hle, -⟩ := hdual.init (hsupport x (hmem x (by simp)))
    obtain ⟨first', newState', nbBits', hy, hfirst', hentry', hle', hmore⟩ := hdual.init (hsupport y (hmem y (by simp)))
    have hlast : Encoded endPos tableLog states entries bitC first' first 0 [y, x] :=
      ⟨hfirst', hfirst, ⟨by simp [hnew, Nat.mul_comm], hend⟩, [], hbitC,
        .last hentry' (hmore (hshare y (hmem y (by simp)))) hle' hentry⟩
    by_cases hodd : src.length % 2 ≠ 0
    · rw [if_pos hodd]
      obtain ⟨bitC1, next, hz, henc⟩ := encodeSymbol_ok hdual hlast (hsupport z (hmem z (by simp)))
        (by omega) (by omega)
      obtain ⟨bitC2, hflush, henc'⟩ := flush_ok henc (by omega)
      simp only [hx, hy, hz, hflush, ok_bind]
      refine ⟨_, rfl, ⟨[z, y, x], ?_, henc'⟩, by simp only; omega⟩
      rw [hback]
      simp
    · rw [if_neg hodd]
      simp only [hx, hy, ok_bind]
      obtain ⟨h1, h2, hused, fs, hholds, hcoded⟩ := hlast
      refine ⟨_, rfl, ⟨[y, x], ?_, h1, h2, hused, fs, hholds.mono (by omega),
        hcoded⟩, by simp only [List.length_cons]; omega⟩
      rw [hback]
      simp

/-- The payload holds the two states above the fields of the symbols. -/
def Payload (tableLog : Nat) (entries : List DecodeEntry) (src : List Nat) (payload : Bytes) : Prop :=
  ∃ d fs state1 state2, BitDStream.new payload = .ok d ∧
    d.At (width (fs ++ [(state2, tableLog)] ++ [(state1, tableLog)])) ∧
    Reads (readLe d.src) (width (fs ++ [(state2, tableLog)] ++ [(state1, tableLog)]))
      (fs ++ [(state2, tableLog)] ++ [(state1, tableLog)]) ∧
    Coded tableLog entries (state1 % 2 ^ tableLog) (state2 % 2 ^ tableLog) fs src

theorem flushCstate_ok {bitC : BitCStream} {fs : List Field} {k value : Nat} (hct : ct.tableLog = tableLog)
    (h : bitC.Holds fs k) (hmask : tableLog < 32) (hk : k + tableLog < 64) :
    ∃ bitC', flushCstate bitC value ct = .ok bitC' ∧ bitC'.Holds (fs ++ [(value, tableLog)]) 7 ∧
      bitC'.used ≤ bitC.used + tableLog ∧ bitC'.endPos = bitC.endPos := by
  unfold flushCstate
  rw [hct]
  obtain ⟨bitC', hflush, hholds⟩ := (h.addBits (v := value) hmask hk).flushBits hk
  have hused := BitCStream.flushBits_used hflush
  rw [BitCStream.addBits_used] at hused
  exact ⟨bitC', hflush, hholds, hused⟩

include hdual hlog hsupport in
/-- The clamped coder always ends; when it had the room, its payload holds the symbols. -/
theorem compressUsingCtableGeneric_ok {dst : Bytes} (hlen : 3 ≤ src.length)
    (hshare : ∀ s ∈ src, share s < 2 ^ tableLog) :
    ∃ size out, compressUsingCtableGeneric dst src ct false = .ok (size, out) ∧
      (size ≠ 0 → size ≤ out.length ∧ Payload tableLog entries src (out.take size)) ∧
      ((tableLog * src.length + 1) / 8 + containerBytes < dst.length → size ≠ 0) := by
  have hlog' := hlog
  unfold tablelogMax at hlog'
  unfold compressUsingCtableGeneric
  rw [if_neg (by omega)]
  by_cases hdst : dst.length ≤ containerBytes
  · unfold BitCStream.new
    rw [if_pos hdst]
    exact ⟨0, dst, rfl, fun h0 => absurd rfl h0, fun hroom => by omega⟩
  obtain ⟨bitC, hnew, hused0, hend0⟩ : ∃ bitC, BitCStream.new dst = .ok bitC ∧ bitC.used = 0 ∧
      bitC.endPos = dst.length - containerBytes := by
    unfold BitCStream.new
    rw [if_neg hdst]
    exact ⟨_, rfl, rfl, rfl⟩
  obtain ⟨e, hstart, hstands, hrest⟩ :=
    startStates_ok hdual hlog hsupport (BitCStream.new_holds hnew) hused0 hend0 hlen hshare
  rw [hnew]
  simp only
  rw [hstart, ok_bind]
  have htwo : (src.length - 2) &&& 2 ≠ 0 ↔ e.rest.length % 4 ≠ 0 := by
    have h2 : (src.length - 2) &&& 2 = ((src.length - 2).testBit 1).toNat * 2 := Nat.and_two_pow (src.length - 2) 1
    have hbit : (src.length - 2).testBit 1 = decide ((src.length - 2) / 2 % 2 = 1) := by
      rw [Nat.testBit_eq_decide_div_mod_eq, pow_one]
    rw [h2, hbit]
    by_cases hb : (src.length - 2) / 2 % 2 = 1
    · simp only [hb, decide_true, Bool.toNat_true]
      omega
    · simp only [hb, decide_false, Bool.toNat_false]
      omega
  obtain ⟨e1, hpair, hstands1, hfour, hle1⟩ : ∃ e1, (if (src.length - 2) &&& 2 ≠ 0 then do
        let e ← encodePair ct e
        let bitC ← e.bitC.flush false
        .ok { e with bitC }
      else .ok e) = Except.ok (ε := Error) e1 ∧
        e1.Stands (dst.length - containerBytes) tableLog states entries src 7 ∧ e1.rest.length % 4 = 0 ∧
        e1.rest.length ≤ src.length := by
    by_cases hb : (src.length - 2) &&& 2 ≠ 0
    · have hr := htwo.1 hb
      rw [if_pos hb]
      obtain ⟨e1, h1, ⟨symbols, hsrc, henc⟩, hlen1⟩ := encodePair_ok hdual hsupport hstands (by omega) (by omega)
      obtain ⟨bitC', hflush, henc'⟩ := flush_ok henc (by omega)
      rw [h1, ok_bind, hflush, ok_bind]
      exact ⟨_, rfl, ⟨symbols, hsrc, henc'⟩, by simp only; omega, by simp only; omega⟩
    · have hr := mt htwo.2 hb
      rw [if_neg hb]
      exact ⟨e, rfl, hstands, by omega, by omega⟩
  rw [hpair, ok_bind]
  obtain ⟨e2, hloop, ⟨symbols, hsrc, -, -, ⟨hused, hend⟩, fs, hholds, hcoded⟩, hnil⟩ :=
    encodeFours_ok hdual hlog hsupport src.length hstands1 hle1 hfour
  rw [hnil, List.reverse_nil, List.nil_append] at hsrc
  obtain ⟨bitC2, hflush2, hholds2, hused2, hend2⟩ :=
    @flushCstate_ok _ _ _ _ _ e2.state2 hdual.tableLog_eq hholds (by omega) (by omega)
  obtain ⟨bitC1, hflush1, hholds1, hused1, hend1⟩ :=
    @flushCstate_ok _ _ _ _ _ e2.state1 hdual.tableLog_eq hholds2 (by omega) (by omega)
  obtain ⟨size, out, hclose, hread, hroom⟩ := hholds1.close (by norm_num)
  rw [hloop, ok_bind, hflush2, ok_bind, hflush1, ok_bind, hclose]
  refine ⟨size, out, rfl, fun hne => ?_, fun hfits => hroom ?_⟩
  · obtain ⟨hle, d, hd, hat, hreads⟩ := hread hne
    rw [hsrc]
    exact ⟨hle, d, fs, e2.state1, e2.state2, hd, hat, hreads, hcoded⟩
  · rw [hsrc] at hfits
    rw [hend1, hend2, hend]
    omega

end

end

/-! ## Both flushes -/

section
variable {ct : CTable} {fast : Bool}

theorem encodeSymbol_free {bitC bitC' : BitCStream} {value next symbol : Nat}
    (h : encodeSymbol bitC value ct symbol = .ok (bitC', next)) : bitC'.Free ↔ bitC.Free := by
  unfold encodeSymbol at h
  obtain ⟨⟨nbBits, next⟩, -, h⟩ := bind_ok h
  cases h
  exact BitCStream.addBits_free

theorem encodePair_free {e e' : Encoder} (h : encodePair ct e = .ok e') : e'.bitC.Free ↔ e.bitC.Free := by
  unfold encodePair at h
  split at h
  · obtain ⟨⟨bitC2, next2⟩, h2, h⟩ := bind_ok h
    obtain ⟨⟨bitC1, next1⟩, h1, h⟩ := bind_ok h
    cases h
    exact (encodeSymbol_free h1).trans (encodeSymbol_free h2)
  · cases h

theorem startStates_swap (fast' : Bool) {bitC : BitCStream} {src : List Nat} {e : Encoder}
    (h : startStates ct fast bitC src = .ok e) (hfree : e.bitC.Free) : startStates ct fast' bitC src = .ok e := by
  unfold startStates at h ⊢
  split
  · rename_i hodd
    rw [if_pos hodd] at h
    match hrev : src.reverse with
    | [] | [_] | [_, _] => simp [hrev] at h
    | x :: y :: z :: rest =>
      simp only [hrev] at h ⊢
      obtain ⟨state1, hx, h⟩ := bind_ok h
      obtain ⟨state2, hy, h⟩ := bind_ok h
      obtain ⟨⟨bitC1, next⟩, hz, h⟩ := bind_ok h
      obtain ⟨bitC2, hflush, h⟩ := bind_ok h
      cases h
      rw [hx, ok_bind, hy, ok_bind, hz, ok_bind]
      simp only
      rw [(BitCStream.flush_swap fast' hflush hfree).1, ok_bind]
  · rename_i heven
    rwa [if_neg heven] at h

theorem encodeFours_swap (fast' : Bool) : ∀ (fuel : Nat) {e e' : Encoder}, encodeFours ct fast fuel e = .ok e' →
    e'.bitC.Free → encodeFours ct fast' fuel e = .ok e' ∧ e.bitC.Free
  | 0, e, e', h, hfree => by
    cases h
    exact ⟨rfl, hfree⟩
  | fuel + 1, e, e', h, hfree => by
    unfold encodeFours at h ⊢
    by_cases hnil : e.rest = []
    · rw [if_pos hnil] at h ⊢
      cases h
      exact ⟨rfl, hfree⟩
    · rw [if_neg hnil] at h ⊢
      obtain ⟨e1, h1, h⟩ := bind_ok h
      obtain ⟨e2, h2, h⟩ := bind_ok h
      obtain ⟨bitC, hflush, h⟩ := bind_ok h
      obtain ⟨hrest, hfree'⟩ := encodeFours_swap fast' fuel h hfree
      obtain ⟨hflush', hfree2⟩ := BitCStream.flush_swap fast' hflush hfree'
      rw [h1, ok_bind, h2, ok_bind, hflush', ok_bind]
      exact ⟨hrest, (encodePair_free h1).1 ((encodePair_free h2).1 hfree2)⟩

/-- A stream that fits is the same with either flush. -/
theorem compressUsingCtableGeneric_swap (fast' : Bool) {dst out : Bytes} {src : List Nat} {size : Nat}
    (h : compressUsingCtableGeneric dst src ct fast = .ok (size, out)) (hne : size ≠ 0) :
    compressUsingCtableGeneric dst src ct fast' = .ok (size, out) := by
  unfold compressUsingCtableGeneric at h ⊢
  split
  · rename_i hlen
    rwa [if_pos hlen] at h
  · rename_i hlen
    rw [if_neg hlen] at h
    cases hnew : BitCStream.new dst with
    | error e =>
      rw [hnew] at h
      cases e <;> exact h
    | ok bitC =>
      rw [hnew] at h
      simp only at h ⊢
      obtain ⟨e, hstart, h⟩ := bind_ok h
      obtain ⟨e1, hpair, h⟩ := bind_ok h
      obtain ⟨e2, hloop, h⟩ := bind_ok h
      obtain ⟨bitC2, hflush2, h⟩ := bind_ok h
      obtain ⟨bitC1, hflush1, h⟩ := bind_ok h
      -- the end was not reached at any of these steps, from the last one back
      have hfree1 := BitCStream.close_free h hne
      have hfree2 := (@BitCStream.flush_swap _ _ false false hflush1 hfree1).2
      have hfree3 := (@BitCStream.flush_swap _ _ false false hflush2 hfree2).2
      obtain ⟨hloop', hfree4⟩ := encodeFours_swap fast' _ hloop hfree3
      obtain ⟨hpair', hfree5⟩ : (if (src.length - 2) &&& 2 ≠ 0 then do
          let e ← encodePair ct e
          let bitC ← e.bitC.flush fast'
          .ok { e with bitC }
        else .ok e) = Except.ok (ε := Error) e1 ∧ e.bitC.Free := by
        split at hpair
        · rename_i htwo
          rw [if_pos htwo]
          obtain ⟨e', h1, hpair⟩ := bind_ok hpair
          obtain ⟨bitC', hflush, hpair⟩ := bind_ok hpair
          cases hpair
          obtain ⟨hflush', hfree'⟩ := BitCStream.flush_swap fast' hflush hfree4
          rw [h1, ok_bind, hflush', ok_bind]
          exact ⟨rfl, (encodePair_free h1).1 hfree'⟩
        · rename_i htwo
          rw [if_neg htwo]
          cases hpair
          exact ⟨rfl, hfree4⟩
      rw [startStates_swap fast' hstart hfree5, ok_bind, hpair', ok_bind, hloop', ok_bind, hflush2, ok_bind, hflush1,
        ok_bind, h]

end

/-! ## The decoder -/

section
variable {tableLog : Nat} {dt : DTable} {fast : Bool}

theorem decodeSymbol_eq {cur a newState nbBits : Nat} (d : BitDStream)
    (hentry : dt.entries[cur]? = some { newState, symbol := a, nbBits }) :
    (decodeSymbol dt fast cur d).1 = a ∧ (decodeSymbol dt fast cur d).2.2 = d.skipBits nbBits := by
  unfold decodeSymbol
  rw [List.getD_eq_getElem?_getD, hentry]
  cases fast
  · exact ⟨rfl, BitDStream.readBits_snd d nbBits⟩
  · exact ⟨rfl, rfl⟩

/-- Decoding a symbol whose bits are in the container. -/
theorem decodeSymbol_at {cur a newState nbBits p : Nat} {d : BitDStream}
    (hentry : dt.entries[cur]? = some { newState, symbol := a, nbBits }) (hfast : fast = true → 1 ≤ nbBits)
    (hat : d.At p) (hn : d.Holds nbBits) :
    decodeSymbol dt fast cur d = (a, newState + field (readLe d.src) p nbBits, d.skipBits nbBits) := by
  unfold decodeSymbol
  rw [List.getD_eq_getElem?_getD, hentry]
  cases fast
  · simp only [Option.getD_some, Bool.false_eq_true, if_false]
    rw [(BitDStream.readBits_at hat hn).1, BitDStream.readBits_snd]
  · simp only [Option.getD_some, if_true]
    rw [(BitDStream.readBitsFast_at hat hn (hfast rfl)).1, BitDStream.readBitsFast_snd]

section
variable (hlog : tableLog ≤ tablelogMax) (hfast : fast = true → ∀ e ∈ dt.entries, 1 ≤ e.nbBits)

include hfast in
theorem fast_entry {cur a newState nbBits : Nat} (hentry : dt.entries[cur]? = some { newState, symbol := a, nbBits }) :
    fast = true → 1 ≤ nbBits := fun h => hfast h _ (List.mem_of_getElem? hentry)

include hlog hfast in
/-- The tail decodes all symbols that are coded, and stops at the first bits that are not there. -/
theorem decodeTail_coded {dstLen : Nat} {cur other : Nat} {fs : List Field} {symbols : List Nat}
    (h : Coded tableLog dt.entries cur other fs symbols) :
    ∀ {fuel : Nat} {out : List Nat} {d : BitDStream} {p : Nat}, d.At p → d.Settled → Reads (readLe d.src) p fs →
      out.length + symbols.length ≤ dstLen → symbols.length ≤ fuel →
        decodeTail dt fast dstLen fuel out cur other d = .ok (symbols.reverse ++ out) := by
  unfold tablelogMax at hlog
  induction h with
  | @last cur other a b newState newState' nbBits nbBits' hentry hpos hle hentry' =>
    intro fuel out d p hat hsettled hreads hdst hfuel
    simp only [List.length_cons, List.length_nil] at hdst hfuel
    obtain ⟨fuel, rfl⟩ : ∃ n, fuel = n + 1 := ⟨fuel - 1, by omega⟩
    have hp : p = 0 := hreads.depth
    obtain ⟨ha, hskip⟩ := @decodeSymbol_eq _ fast _ _ _ _ d hentry
    -- the bits of the transition are not there
    have hstands := (hat.standsAt.skip (n := nbBits) (hsettled.room (by omega))).reload
    have hover : (d.skipBits nbBits).reload.1 = .overflow := hstands.1.2 (by omega)
    unfold decodeTail
    rw [if_neg (by omega)]
    generalize decodeSymbol dt fast cur d = r at ha hskip
    obtain ⟨x, next, d'⟩ := r
    simp only at ha hskip ⊢
    rw [ha, hskip, if_pos hover, (@decodeSymbol_eq _ fast _ _ _ _ _ hentry').1]
    rfl
  | @next cur other a newState nbBits value fs symbols hentry hle hcoded ih =>
    intro fuel out d p hat hsettled hreads hdst hfuel
    rw [List.length_cons] at hdst hfuel
    obtain ⟨fuel, rfl⟩ : ∃ n, fuel = n + 1 := ⟨fuel - 1, by omega⟩
    have hlen := hcoded.two_le
    have hholds := hsettled.holds hat (by omega) hreads.width_le
    have hdecode := decodeSymbol_at hentry (fast_entry hfast hentry) hat hholds
    rw [hreads.field] at hdecode
    obtain ⟨hok, hat', hsettled'⟩ := BitDStream.reload_at (BitDStream.skipBits_at hat hholds)
    unfold decodeTail
    rw [if_neg (by omega), hdecode]
    simp only
    rw [if_neg hok, ih hat' hsettled' (by rw [BitDStream.reload_src]; exact hreads.pop)
      (by rw [List.length_cons]; omega) (by omega), List.reverse_cons]
    simp

include hfast in
/-- With bits left for more than one symbol, a symbol is decoded without a reload. -/
theorem decodeSymbol_next {cur other p : Nat} {fs : List Field} {symbols : List Nat} {d : BitDStream}
    (h : Coded tableLog dt.entries cur other fs symbols) (hat : d.At p) (hreads : Reads (readLe d.src) p fs)
    (hp : 0 < p) (hroom : d.bitsConsumed + tableLog ≤ 64) :
    ∃ a cur' d' p' fs' symbols', symbols = a :: symbols' ∧ decodeSymbol dt fast cur d = (a, cur', d') ∧
      Coded tableLog dt.entries other cur' fs' symbols' ∧ d'.At p' ∧ Reads (readLe d'.src) p' fs' ∧
      d'.bitsConsumed ≤ d.bitsConsumed + tableLog ∧ p ≤ p' + tableLog := by
  cases h with
  | last _ _ _ _ =>
    have : p = 0 := hreads.depth
    omega
  | @next _ _ a newState nbBits value fs symbols hentry hle hcoded =>
    have hholds : d.Holds nbBits := by
      unfold BitDStream.Holds
      omega
    have hdecode := decodeSymbol_at hentry (fast_entry hfast hentry) hat hholds
    rw [hreads.field] at hdecode
    exact ⟨a, _, _, _, fs, symbols, rfl, hdecode, hcoded, BitDStream.skipBits_at hat hholds, hreads.pop,
      by rw [BitDStream.skipBits_bitsConsumed]; omega, by omega⟩

include hlog hfast in
/-- The loop of four takes symbols down and leaves a settled reader for the tail. -/
theorem decodeFours_coded {olimit dstLen : Nat} (holimit : dstLen ≤ olimit + 3) :
    ∀ (fuel : Nat) {out : List Nat} {cur other p : Nat} {fs : List Field} {symbols : List Nat} {d : BitDStream},
      Coded tableLog dt.entries cur other fs symbols → d.At p → Reads (readLe d.src) p fs →
      out.length + symbols.length ≤ dstLen → olimit ≤ fuel + out.length → (fuel = 0 → d.Settled) →
        ∃ out' cur' other' d' p' fs' symbols',
          decodeFours dt fast olimit fuel out cur other d = (out', cur', other', d') ∧
          out'.reverse ++ symbols' = out.reverse ++ symbols ∧ Coded tableLog dt.entries cur' other' fs' symbols' ∧
          d'.At p' ∧ d'.Settled ∧ Reads (readLe d'.src) p' fs' ∧ out'.length + symbols'.length ≤ dstLen
  | 0, out, cur, other, p, fs, symbols, d, hcoded, hat, hreads, hdst, _, hsettled =>
    ⟨out, cur, other, d, p, fs, symbols, rfl, rfl, hcoded, hat, hsettled rfl, hreads, hdst⟩
  | fuel + 1, out, cur, other, p, fs, symbols, d, hcoded, hat, hreads, hdst, hfuel, _ => by
    have hlog' := hlog
    unfold tablelogMax at hlog'
    obtain ⟨-, hat0, hsettled0⟩ := BitDStream.reload_at hat
    have hreads0 : Reads (readLe d.reload.2.src) p fs := by
      rw [BitDStream.reload_src]
      exact hreads
    have hunfinished := BitDStream.reload_unfinished hat
    unfold decodeFours
    generalize hreload : d.reload = r at hat0 hsettled0 hreads0 hunfinished
    obtain ⟨status, d0⟩ := r
    simp only at hat0 hsettled0 hreads0 hunfinished ⊢
    by_cases hgo : status = .unfinished ∧ out.length < olimit
    · rw [if_pos hgo]
      have hconsumed := hunfinished hgo.1
      have hpos := hat0.position
      obtain ⟨a, next1, d1, p1, fs1, symbols1, rfl, h1, hcoded1, hat1, hreads1, hc1, hp1⟩ :=
        decodeSymbol_next hfast hcoded hat0 hreads0 (by omega) (by omega)
      obtain ⟨b, next2, d2, p2, fs2, symbols2, rfl, h2, hcoded2, hat2, hreads2, hc2, hp2⟩ :=
        decodeSymbol_next hfast hcoded1 hat1 hreads1 (by omega) (by omega)
      obtain ⟨c, next3, d3, p3, fs3, symbols3, rfl, h3, hcoded3, hat3, hreads3, hc3, hp3⟩ :=
        decodeSymbol_next hfast hcoded2 hat2 hreads2 (by omega) (by omega)
      obtain ⟨e, next4, d4, p4, fs4, symbols4, rfl, h4, hcoded4, hat4, hreads4, hc4, hp4⟩ :=
        decodeSymbol_next hfast hcoded3 hat3 hreads3 (by omega) (by omega)
      -- enough symbols are left for the loop to be entered again
      have hleft : 3 ≤ symbols4.length := by
        have hwidth := hcoded4.width_le
        have := hreads4.depth
        by_contra hc
        have : tableLog * symbols4.length ≤ tableLog * 2 := Nat.mul_le_mul_left _ (by omega)
        omega
      simp only [List.length_cons] at hdst
      rw [h1]
      simp only
      rw [h2]
      simp only
      rw [h3]
      simp only
      rw [h4]
      obtain ⟨out', cur', other', d', p', fs', symbols', hloop, hsame, hrest⟩ :=
        @decodeFours_coded _ _ holimit fuel (e :: c :: b :: a :: out) _ _ _ _ _ _ hcoded4 hat4 hreads4
          (by simp only [List.length_cons]; omega) (by simp only [List.length_cons]; omega) (fun h0 => by omega)
      refine ⟨out', cur', other', d', p', fs', symbols', hloop, ?_, hrest⟩
      rw [hsame]
      simp
    · rw [if_neg hgo]
      exact ⟨out, cur, other, d0, p, fs, symbols, rfl, rfl, hcoded, hat0, hsettled0, hreads0, hdst⟩

end

/-- Reading a state that the reader has the room for. -/
theorem initDstate_at {d : BitDStream} {p value : Nat} {fs : List Field} (hat : d.At p) (hn : d.Holds tableLog)
    (hreads : Reads (readLe d.src) p (fs ++ [(value, tableLog)])) :
    ∃ d', initDstate d tableLog = (value % 2 ^ tableLog, d') ∧ d'.At (p - tableLog) ∧ d'.Settled ∧ d'.src = d.src ∧
      Reads (readLe d'.src) (p - tableLog) fs := by
  have hread := BitDStream.readBits_at hat hn
  have hsrc : (d.readBits tableLog).2.src = d.src := by rw [BitDStream.readBits_snd]; rfl
  obtain ⟨-, hat', hsettled'⟩ := BitDStream.reload_at hread.2
  refine ⟨_, ?_, hat', hsettled', by rw [BitDStream.reload_src, hsrc], ?_⟩
  · unfold initDstate
    rw [← hreads.field, ← hread.1]
  · rw [BitDStream.reload_src, hsrc]
    exact hreads.pop

/-- A payload decodes to its symbols, for any destination that holds them. -/
theorem decompressInterleaved2_payload {src : List Nat} {payload : Bytes} {dstLen : Nat} (hpos : 1 ≤ tableLog)
    (hlog : tableLog ≤ tablelogMax) (hdt : dt.tableLog = tableLog)
    (hfast : dt.fastMode = true → ∀ e ∈ dt.entries, 1 ≤ e.nbBits) (h : Payload tableLog dt.entries src payload)
    (hdst : src.length ≤ dstLen) : decompressInterleaved2 dstLen payload dt = .ok src := by
  obtain ⟨d, fs, state1, state2, hnew, hat, hreads, hcoded⟩ := h
  have hlog' := hlog
  unfold tablelogMax at hlog'
  have hroom : d.Holds tableLog := by
    have hposition := hat.position
    have hle := hreads.width_le
    unfold BitDStream.Holds
    rcases BitDStream.new_room hnew with h0 | h0 <;> omega
  obtain ⟨d1, hinit1, hat1, hsettled1, -, hreads1⟩ := initDstate_at hat hroom hreads
  obtain ⟨d2, hinit2, hat2, hsettled2, -, hreads2⟩ :=
    initDstate_at hat1 (hsettled1.holds hat1 (by omega) hreads1.width_le) hreads1
  obtain ⟨hok, hat3, hsettled3⟩ := BitDStream.reload_at hat2
  have hreads3 := hreads2
  rw [← BitDStream.reload_src d2] at hreads3
  unfold decompressInterleaved2
  rw [if_neg (by omega), hnew, ok_bind, hdt, hinit1]
  simp only
  rw [hinit2]
  simp only
  rw [if_neg hok]
  obtain ⟨out', cur', other', d', p', fs', symbols', hloop, hsame, hcoded', hat', hsettled', hreads', hdst'⟩ :=
    @decodeFours_coded _ _ _ hlog hfast (dstLen - 3) dstLen (by omega) dstLen [] _ _ _ _ _ _ hcoded hat3
      hreads3 (by simpa using hdst) (by simp) (fun _ => hsettled3)
  rw [hloop]
  simp only
  rw [decodeTail_coded hlog hfast hcoded' hat' hsettled' hreads' hdst' (by omega), ok_bind, List.reverse_append,
    List.reverse_reverse, hsame]
  rfl

end

end Fse

end Zstandard
