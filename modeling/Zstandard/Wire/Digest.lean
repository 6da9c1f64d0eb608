/-
The checksum is XXH64: the state that takes its input in pieces and the one-shot function both give the hash that the
definition gives, and digests taken on the way disturb nothing.
-/
import Zstandard.Wire.Xxhash
import Zstandard.Library.Xxh64

namespace Zstandard

/-! ## Words -/

theorem rotateLeft_toBitVec (x : UInt64) {n : UInt64} (h : n.toNat < 64) (hn : 0 < n.toNat) :
    (rotateLeft x n).toBitVec = x.toBitVec.rotateLeft n.toNat := by
  have hleft : (n.toBitVec % 64).toNat = n.toNat := by
    rw [BitVec.toNat_umod]
    exact Nat.mod_eq_of_lt h
  have hright : ((64 - n).toBitVec % 64).toNat = 64 - n.toNat := by
    have hsub : (64 - n).toNat = 64 - n.toNat := by
      rw [UInt64.toNat_sub_of_le]
      · rfl
      · exact UInt64.le_iff_toNat_le.mpr h.le
    rw [BitVec.toNat_umod]
    show (64 - n).toNat % 64 = _
    rw [hsub]
    exact Nat.mod_eq_of_lt (by omega)
  unfold rotateLeft
  rw [BitVec.rotateLeft_def, Nat.mod_eq_of_lt h, UInt64.toBitVec_or, UInt64.toBitVec_shiftLeft,
    UInt64.toBitVec_shiftRight, BitVec.shiftLeft_eq', BitVec.ushiftRight_eq', hleft, hright]

theorem readLe_eq_littleEndian : ∀ bytes : Bytes, readLe bytes = Xxh64.littleEndian bytes
  | [] => rfl
  | b :: bytes => by
    rw [Xxh64.littleEndian_cons, ← readLe_eq_littleEndian bytes]
    rfl

theorem readU64Le_toBitVec (src : Bytes) (offset : Nat) :
    (readU64Le (src.drop offset)).toBitVec = Xxh64.wordAt src offset 8 := by
  unfold readU64Le Xxh64.wordAt
  rw [readLe_eq_littleEndian]
  rfl

theorem xxhRound_toBitVec (acc lane : UInt64) :
    (xxhRound acc lane).toBitVec = Xxh64.round acc.toBitVec lane.toBitVec := by
  unfold xxhRound Xxh64.round
  rw [UInt64.toBitVec_mul, rotateLeft_toBitVec _ (by decide) (by decide), UInt64.toBitVec_add, UInt64.toBitVec_mul]
  rfl

theorem mergeRound_toBitVec (acc value : UInt64) :
    (mergeRound acc value).toBitVec = Xxh64.mergeRound acc.toBitVec value.toBitVec := by
  unfold mergeRound Xxh64.mergeRound
  rw [UInt64.toBitVec_add, UInt64.toBitVec_mul, UInt64.toBitVec_xor, xxhRound_toBitVec]
  rfl

theorem avalanche_toBitVec (hash : UInt64) : (avalanche hash).toBitVec = Xxh64.avalanche hash.toBitVec := by
  unfold avalanche Xxh64.avalanche
  simp only [UInt64.toBitVec_xor, UInt64.toBitVec_mul, UInt64.toBitVec_shiftRight]
  rfl

namespace Xxh64State

/-! ## Lanes -/

/-- The lanes of a state. -/
def lanes (s : Xxh64State) : List Xxh64.Word := [s.v1.toBitVec, s.v2.toBitVec, s.v3.toBitVec, s.v4.toBitVec]

/-- A stripe is one turn of each lane. -/
theorem consumeChunk_lanes (s : Xxh64State) (input : Bytes) : (s.consumeChunk (input.take 32)).lanes =
    [Xxh64.round s.v1.toBitVec (Xxh64.wordAt input 0 8), Xxh64.round s.v2.toBitVec (Xxh64.wordAt input 8 8),
      Xxh64.round s.v3.toBitVec (Xxh64.wordAt input 16 8), Xxh64.round s.v4.toBitVec (Xxh64.wordAt input 24 8)] := by
  have hword : ∀ i, i + 8 ≤ 32 → (readU64Le ((input.take 32).drop i)).toBitVec = Xxh64.wordAt input i 8 := by
    intro i hi
    rw [readU64Le_toBitVec]
    unfold Xxh64.wordAt
    rw [List.drop_take, List.take_take, min_eq_left (by omega)]
  have hfirst := hword 0 (by omega)
  rw [List.drop_zero] at hfirst
  unfold lanes consumeChunk
  dsimp only
  rw [xxhRound_toBitVec, xxhRound_toBitVec, xxhRound_toBitVec, xxhRound_toBitVec, hfirst, hword 8 (by omega),
    hword 16 (by omega), hword 24 (by omega)]

theorem consumeStripes_seed (s : Xxh64State) (input : Bytes) : (s.consumeStripes input).seed = s.seed := by
  induction hn : input.length using Nat.strong_induction_on generalizing s input with
  | _ n ih =>
    rcases Nat.lt_or_ge input.length 32 with h | h
    · rw [consumeStripes_of_lt s h]
    · rw [consumeStripes_of_le s h, ih (input.drop 32).length (by rw [List.length_drop]; omega) _ _ rfl, consumeChunk]

/-- The stripes of an input go into the lanes, and what is left over into the buffer. -/
theorem consumeStripes_spec (s : Xxh64State) (input : Bytes) :
    (s.consumeStripes input).lanes =
      [Xxh64.lane input 0 (input.length / 32) s.v1.toBitVec, Xxh64.lane input 1 (input.length / 32) s.v2.toBitVec,
        Xxh64.lane input 2 (input.length / 32) s.v3.toBitVec, Xxh64.lane input 3 (input.length / 32) s.v4.toBitVec] ∧
    (s.consumeStripes input).buffered = input.drop (32 * (input.length / 32)) := by
  induction hn : input.length using Nat.strong_induction_on generalizing s input with
  | _ n ih =>
    rcases Nat.lt_or_ge input.length 32 with h | h
    · rw [consumeStripes_of_lt s h, Nat.div_eq_of_lt (by omega), Nat.mul_zero, List.drop_zero]
      refine ⟨?_, rfl⟩
      rw [Xxh64.lane_zero, Xxh64.lane_zero, Xxh64.lane_zero, Xxh64.lane_zero, lanes]
    · obtain ⟨hlanes, hbuffered⟩ :=
        ih (input.drop 32).length (by rw [List.length_drop]; omega) (s.consumeChunk (input.take 32)) (input.drop 32) rfl
      obtain ⟨k, hk⟩ : ∃ k, n / 32 = k + 1 := ⟨n / 32 - 1, by omega⟩
      have hk' : (input.drop 32).length / 32 = k := by rw [List.length_drop]; omega
      have hchunk := s.consumeChunk_lanes input
      rw [consumeStripes_of_le s h, hk]
      rw [hk'] at hlanes hbuffered
      refine ⟨?_, ?_⟩
      · unfold lanes at hchunk
        simp only [List.cons.injEq, and_true] at hchunk
        obtain ⟨h1, h2, h3, h4⟩ := hchunk
        rw [hlanes, Xxh64.lane_succ, Xxh64.lane_succ, Xxh64.lane_succ, Xxh64.lane_succ, h1, h2, h3, h4]
      · rw [hbuffered, List.drop_drop, show 32 + 32 * k = 32 * (k + 1) by omega]

/-! ## The tail -/

theorem digestByte_toBitVec (hash : UInt64) (b : UInt8) :
    (digestByte hash b).toBitVec = Xxh64.takeOne hash.toBitVec b := by
  unfold digestByte Xxh64.takeOne
  rw [UInt64.toBitVec_mul, rotateLeft_toBitVec _ (by decide) (by decide), UInt64.toBitVec_xor, UInt64.toBitVec_mul]
  rfl

theorem foldl_digestByte_toBitVec : ∀ (input : Bytes) (hash : UInt64),
    (input.foldl digestByte hash).toBitVec = input.foldl Xxh64.takeOne hash.toBitVec
  | [], _ => rfl
  | b :: input, hash => by
    rw [List.foldl_cons, List.foldl_cons, foldl_digestByte_toBitVec input, digestByte_toBitVec]

theorem digestFour_toBitVec (hash : UInt64) (src : Bytes) :
    (rotateLeft (hash ^^^ UInt64.ofNat (readU32Le src) * prime64_1) 23 * prime64_2 + prime64_3).toBitVec =
      Xxh64.takeFour hash.toBitVec (Xxh64.wordAt src 0 4) := by
  unfold Xxh64.takeFour Xxh64.wordAt readU32Le
  rw [UInt64.toBitVec_add, UInt64.toBitVec_mul, rotateLeft_toBitVec _ (by decide) (by decide), UInt64.toBitVec_xor,
    UInt64.toBitVec_mul, readLe_eq_littleEndian, List.drop_zero]
  rfl

theorem digestEight_toBitVec (hash : UInt64) (src : Bytes) :
    (rotateLeft (hash ^^^ xxhRound 0 (readU64Le src)) 27 * prime64_1 + prime64_4).toBitVec =
      Xxh64.takeEight hash.toBitVec (Xxh64.wordAt src 0 8) := by
  unfold Xxh64.takeEight
  rw [UInt64.toBitVec_add, UInt64.toBitVec_mul, rotateLeft_toBitVec _ (by decide) (by decide), UInt64.toBitVec_xor,
    xxhRound_toBitVec, ← readU64Le_toBitVec, List.drop_zero]
  rfl

/-- The steps of the digest behind the lanes. -/
theorem tail_toBitVec (input : Bytes) : ∀ hash : UInt64,
    ((digestFour (digestEights hash input).1 (digestEights hash input).2).2.foldl digestByte
      (digestFour (digestEights hash input).1 (digestEights hash input).2).1).toBitVec =
    Xxh64.tail hash.toBitVec input := by
  induction hn : input.length using Nat.strong_induction_on generalizing input with
  | _ n ih =>
    intro hash
    rcases Nat.lt_or_ge input.length 8 with h | h
    · rw [digestEights, if_pos h, Xxh64.tail_of_lt _ h]
      unfold digestFour
      dsimp only
      by_cases hfour : 4 ≤ input.length
      · rw [if_neg (by omega), if_pos hfour, foldl_digestByte_toBitVec, digestFour_toBitVec]
      · rw [if_pos (by omega), if_neg hfour, foldl_digestByte_toBitVec]
    · rw [digestEights, if_neg (by omega), ih (input.drop 8).length (by rw [List.length_drop]; omega)
        (input.drop 8) rfl, Xxh64.tail_of_le _ h, digestEight_toBitVec]

/-! ## Digests -/

/-- The digest in terms of what went in, for a state that all of it went into. -/
theorem digest_update (seed : UInt64) {src : Bytes} (h : src.length < 2 ^ 64) :
    ((new seed).update src).digest.toBitVec = Xxh64.hash seed.toBitVec src := by
  obtain ⟨hlanes, hbuffered⟩ := (new seed).consumeStripes_spec src
  have hseed := (new seed).consumeStripes_seed src
  have htotal : (0 + UInt64.ofNat src.length).toBitVec = BitVec.ofNat 64 src.length := by
    rw [UInt64.zero_add]; rfl
  have hlong : (0 + UInt64.ofNat src.length ≥ 32) ↔ 32 ≤ src.length := by
    rw [UInt64.zero_add, ge_iff_le, UInt64.le_iff_toNat_le, UInt64.toNat_ofNat', Nat.mod_eq_of_lt h]
    rfl
  rw [update_eq_stripes]
  rw [show (new seed).buffered ++ src = src from rfl, show (new seed).totalLen = 0 from rfl]
  generalize (new seed).consumeStripes src = s at hlanes hbuffered hseed
  unfold lanes at hlanes
  simp only [List.cons.injEq, and_true] at hlanes
  obtain ⟨h1, h2, h3, h4⟩ := hlanes
  unfold digest Xxh64.hash
  dsimp only
  rw [avalanche_toBitVec, tail_toBitVec, UInt64.toBitVec_add, htotal, hbuffered]
  have hacc : (if 0 + UInt64.ofNat src.length ≥ 32 then
      mergeRound (mergeRound (mergeRound (mergeRound
        (rotateLeft s.v1 1 + rotateLeft s.v2 7 + rotateLeft s.v3 12 + rotateLeft s.v4 18) s.v1) s.v2) s.v3) s.v4
      else s.seed + prime64_5).toBitVec = Xxh64.accumulated seed.toBitVec src := by
    unfold Xxh64.accumulated
    by_cases hle : 32 ≤ src.length
    · rw [if_pos (hlong.2 hle), if_neg (by omega)]
      unfold Xxh64.converged
      simp only [mergeRound_toBitVec, UInt64.toBitVec_add]
      rw [rotateLeft_toBitVec _ (by decide) (by decide), rotateLeft_toBitVec _ (by decide) (by decide),
        rotateLeft_toBitVec _ (by decide) (by decide), rotateLeft_toBitVec _ (by decide) (by decide), h1, h2, h3, h4]
      rfl
    · rw [if_neg (by rw [hlong]; exact hle), if_pos (by omega), hseed]
      rfl
  rw [hacc]

end Xxh64State

/-- A caller's use of a state: more input, or a digest taken on the way. -/
inductive HashCall where
  | update (input : Bytes)
  | digest
deriving DecidableEq, Repr

namespace HashCall

/-- What was put in, one piece after the other. -/
def content : List HashCall → Bytes
  | [] => []
  | .update input :: calls => input ++ content calls
  | .digest :: calls => content calls

/-- The digests that were taken, and the state at the end. -/
def run : List HashCall → Xxh64State → List UInt64 × Xxh64State
  | [], s => ([], s)
  | .update input :: calls, s => run calls (s.update input)
  | .digest :: calls, s => (s.digest :: (run calls s).1, (run calls s).2)

/-- What had been put in, behind `before`, when each digest was taken. -/
def taken : List HashCall → Bytes → List Bytes
  | [], _ => []
  | .update input :: calls, before => taken calls (before ++ input)
  | .digest :: calls, before => before :: taken calls before

theorem run_spec (seed : UInt64) : ∀ (calls : List HashCall) (before : Bytes),
    run calls ((Xxh64State.new seed).update before) =
      ((taken calls before).map (xxh64 · seed), (Xxh64State.new seed).update (before ++ content calls))
  | [], before => by
    rw [content, List.append_nil]
    rfl
  | .update input :: calls, before => by
    rw [run, taken, content, Xxh64State.update_append, run_spec seed calls, List.append_assoc]
  | .digest :: calls, before => by
    rw [run, taken, content, run_spec seed calls]
    rfl

end HashCall

/-- However the input is cut and whatever digests are taken on the way, each digest is the one-shot hash of what had
been put in until then; and the hash of a slice, whose length fits a word, is XXH64 of it. -/
theorem xxh64_streaming (seed : UInt64) (calls : List HashCall) :
    (HashCall.run calls (.new seed)).1 = (HashCall.taken calls []).map (xxh64 · seed) ∧
    (HashCall.run calls (.new seed)).2.digest = xxh64 (HashCall.content calls) seed ∧
    ∀ src : Bytes, src.length < 2 ^ 64 → (xxh64 src seed).toBitVec = Xxh64.hash seed.toBitVec src := by
  have hrun := HashCall.run_spec seed calls []
  rw [Xxh64State.update_nil, List.nil_append] at hrun
  rw [hrun]
  refine ⟨rfl, rfl, ?_⟩
  intro src h
  exact Xxh64State.digest_update seed h

theorem xxh64_streaming_two :
    (HashCall.run [.update [1, 2], .digest, .update [], .update [3]] (.new 7)).1 = [xxh64 [1, 2] 7] ∧
    (xxh64 [1, 2, 3] 7).toBitVec = Xxh64.hash 7 [1, 2, 3] := by
  obtain ⟨hdigests, -, hhash⟩ := xxh64_streaming 7 [.update [1, 2], .digest, .update [], .update [3]]
  exact ⟨hdigests, hhash [1, 2, 3] (by decide)⟩

end Zstandard
