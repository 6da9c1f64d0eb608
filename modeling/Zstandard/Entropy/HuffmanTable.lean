/-
The description of a Huffman table: the weights of its symbols but the last one, compressed if that is worth it and
else two to a byte.

A reader gets the weights of all symbols back, the last one from what the others leave of the tree.
-/
import Zstandard.Entropy.HuffmanCodes
import Zstandard.Entropy.Weights

namespace Zstandard

namespace Huff0

/-! ## Writing -/

/-- `bits_to_weight`. -/
def bitsToWeight (huffLog : Nat) : List Nat :=
  (List.range (tablelogMax + 1)).map fun n => if 1 ≤ n ∧ n ≤ huffLog then huffLog + 1 - n else 0

/-- `huff_weight` of the symbols before the last one. -/
def huffWeights (ctable : List CElt) (huffLog : Nat) : List Nat → Result (List Nat)
  | [] => .ok []
  | n :: rest => do
    let item ← elementAt ctable n
    let weight ← elementAt (bitsToWeight huffLog) item.nbBits
    let weights ← huffWeights ctable huffLog rest
    .ok (weight :: weights)

/-- Two weights to a byte, the first one in the high bits; the weight behind the last one is zero. -/
def packWeights : List Nat → Bytes
  | [] => []
  | [w] => [UInt8.ofNat (w <<< 4)]
  | w :: w' :: rest => UInt8.ofNat (w <<< 4 ||| w') :: packWeights rest

/-- `write_ctable_raw`: the size, with what the destination then holds. -/
def writeCtableRaw (dst : Bytes) (huffWeight : List Nat) (maxSymbolValue : Nat) : Result (Nat × Bytes) :=
  if maxSymbolValue > 127 then .error .generic
  else if dst.isEmpty then .error .dstSizeTooSmall
  else
    let rawSize := (maxSymbolValue + 1) / 2 + 1
    if rawSize > dst.length ∨ maxSymbolValue = 0 then .error .dstSizeTooSmall
    else .ok (rawSize, UInt8.ofNat (128 + (maxSymbolValue - 1)) :: packWeights huffWeight ++ dst.drop rawSize)

/-- `write_ctable`: the size, with what the destination then holds. -/
def writeCtable (dst : Bytes) (ctable : List CElt) (maxSymbolValue huffLog : Nat) : Result (Nat × Bytes) :=
  if dst.isEmpty then .error .dstSizeTooSmall
  else if huffLog > tablelogMax then .error .generic
  else do
    let huffWeight ← huffWeights ctable huffLog (List.range maxSymbolValue)
    let (compressedSize, rest) ← compressWeights (dst.drop 1) huffWeight
    if compressedSize > 1 ∧ compressedSize < maxSymbolValue / 2 then
      .ok (compressedSize + 1, UInt8.ofNat compressedSize :: rest)
    else writeCtableRaw (dst.take 1 ++ rest) huffWeight maxSymbolValue

/-! ## Reading -/

theorem bitsToWeight_getD {huffLog n : Nat} (hlog : huffLog ≤ tablelogMax) (hn : n ≤ huffLog) :
    (bitsToWeight huffLog)[n]? = some (bitsOfWeight huffLog n) := by
  rw [bitsToWeight, List.getElem?_map, List.getElem?_range (by omega), Option.map_some]
  unfold bitsOfWeight
  by_cases hzero : n = 0
  · rw [if_neg (by omega), if_pos hzero]
  · rw [if_pos (by omega), if_neg hzero]

theorem huffWeights_ok {ctable : List CElt} {huffLog : Nat} (hlog : huffLog ≤ tablelogMax) :
    ∀ {symbols weights : List Nat}, (∀ n ∈ symbols, lengthAt ctable n ≤ huffLog) →
    huffWeights ctable huffLog symbols = .ok weights →
    weights = (symbols.map (lengthAt ctable)).map (bitsOfWeight huffLog)
  | [], _, _, h => by
    cases h
    rfl
  | n :: symbols, weights, hle, h => by
    unfold huffWeights at h
    obtain ⟨item, hitem, h⟩ := bind_ok h
    obtain ⟨weight, hweight, h⟩ := bind_ok h
    obtain ⟨rest, hrest, h⟩ := bind_ok h
    cases h
    have hlen : lengthAt ctable n = item.nbBits := congrArg CElt.nbBits (getD_of_some (elementAt_ok.1 hitem))
    have hn := hle n List.mem_cons_self
    rw [elementAt_ok, ← hlen, bitsToWeight_getD hlog hn] at hweight
    cases hweight
    rw [huffWeights_ok hlog (fun n hn => hle n (List.mem_cons_of_mem _ hn)) hrest]
    rfl

theorem packWeights_length : ∀ weights : List Nat, (packWeights weights).length = (weights.length + 1) / 2
  | [] => rfl
  | [_] => by simp [packWeights]
  | _ :: _ :: rest => by
    rw [packWeights, List.length_cons, packWeights_length rest, List.length_cons, List.length_cons]
    omega

/-- A byte of two weights. -/
theorem pack_byte {w w' : Nat} (hw : w < 16) (hw' : w' < 16) : (UInt8.ofNat (w <<< 4 ||| w')).toNat = 16 * w + w' := by
  rw [← Nat.shiftLeft_add_eq_or_of_lt (by omega), Nat.shiftLeft_eq, UInt8.toNat_ofNat_of_lt' (by
    show w * 2 ^ 4 + w' < 256
    omega)]
  omega

theorem unpackWeights_packWeights : ∀ {weights : List Nat}, (∀ w ∈ weights, w < 16) →
    (unpackWeights (packWeights weights)).take weights.length = weights
  | [], _ => rfl
  | [w], h => by
    have hw := h w List.mem_cons_self
    have hbyte : (UInt8.ofNat (w <<< 4)).toNat = 16 * w := by
      have := pack_byte hw (show 0 < 16 by omega)
      rwa [Nat.or_zero] at this
    rw [packWeights, unpackWeights, hbyte, Nat.mul_div_cancel_left _ (by omega)]
    rfl
  | w :: w' :: rest, h => by
    have hw := h w List.mem_cons_self
    have hw' := h w' (List.mem_cons_of_mem _ List.mem_cons_self)
    rw [packWeights, unpackWeights, pack_byte hw hw', List.length_cons, List.length_cons, List.take_succ_cons,
      List.take_succ_cons, unpackWeights_packWeights fun w hw =>
        h w (List.mem_cons_of_mem _ (List.mem_cons_of_mem _ hw)),
      show (16 * w + w') / 16 = w by omega, show (16 * w + w') % 16 = w' by omega]

/-- The weights before the last one are enough. -/
theorem readStats_of_weights {src : Bytes} {weights : List Nat} {last b size : Nat}
    (hread : readWeights src = .ok (weights, size)) (hfull : FullTree (weights ++ [last]) b) (hpos : 1 ≤ b)
    (hlog : b < tablelogMax) (hlast : 1 ≤ last)
    (hrank : 2 ∣ (weights ++ [last]).count 1 ∧ 0 < (weights ++ [last]).count 1) :
    ∃ stats, readStats src = .ok stats ∧ stats.huffWeight = weights ++ [last] ∧ stats.tableLog = b ∧
      stats.size = size := by
  have hle := hfull.weight_le last (List.mem_append.2 (.inr List.mem_cons_self))
  have htotal := hfull.total
  unfold weightTotal at htotal
  rw [List.map_append, List.sum_append, List.map_singleton, List.sum_singleton, half_pow hlast] at htotal
  change weightTotal weights + _ = _ at htotal
  obtain ⟨b, rfl⟩ : ∃ n, b = n + 1 := ⟨b - 1, by omega⟩
  have hshare : 2 ^ (last - 1) ≤ 2 ^ b := Nat.pow_le_pow_right (by norm_num) (by omega)
  have hsharePos : 0 < 2 ^ (last - 1) := by positivity
  have hdouble : 2 ^ (b + 1) = 2 * 2 ^ b := pow_succ' 2 b
  have hhigh : highbit32 (weightTotal weights) = b := by
    unfold highbit32
    rw [Nat.log2_eq_iff (by omega)]
    omega
  have hlogRest : highbit32 (2 ^ (last - 1)) = last - 1 := by
    unfold highbit32
    exact Nat.log2_two_pow
  unfold readStats
  rw [hread, ok_bind]
  dsimp only
  rw [if_neg, if_neg (by omega), hhigh, if_neg (by omega),
    show 2 ^ (b + 1) - weightTotal weights = 2 ^ (last - 1) by omega, hlogRest, if_neg (by simp),
    Nat.sub_add_cancel hlast]
  have hcount : ((List.range (tablelogMax + 1)).map fun w => (weights ++ [last]).count w).getD 1 0 =
      (weights ++ [last]).count 1 := rfl
  rw [hcount, if_neg (by omega)]
  · exact ⟨_, rfl, rfl, rfl, rfl⟩
  · rw [Bool.not_eq_true, List.any_eq_false]
    intro w hw
    have := hfull.weight_le w (List.mem_append.2 (.inl hw))
    rw [decide_eq_true_eq]
    omega

/-! ## The destination keeps its size -/

theorem writeU64_length {output output' : Bytes} {offset value : Nat} (h : writeU64 output offset value = .ok output') :
    output'.length = output.length := by
  unfold writeU64 at h
  split at h
  · cases h
    exact put_length (by omega)
  · cases h

theorem flush_length {c c' : BitCStream} {fast : Bool} (h : c.flush fast = .ok c') : c'.dst.length = c.dst.length := by
  unfold BitCStream.flush at h
  split at h
  · unfold BitCStream.flushBitsFast at h
    obtain ⟨dst, hdst, h⟩ := bind_ok h
    cases h
    exact writeU64_length hdst
  · unfold BitCStream.flushBits at h
    obtain ⟨dst, hdst, h⟩ := bind_ok h
    cases h
    exact writeU64_length hdst

theorem close_length {c : BitCStream} {size : Nat} {dst : Bytes} (h : c.close = .ok (size, dst)) :
    dst.length = c.dst.length := by
  unfold BitCStream.close at h
  obtain ⟨c', hflush, h⟩ := bind_ok h
  have hlen := @flush_length (c.addBitsFast 1 1) c' false hflush
  split at h <;> (cases h; exact hlen)

section
open Fse

theorem encodeSymbol_dst {c c' : BitCStream} {value value' symbol : Nat} {ct : Fse.CTable}
    (h : Fse.encodeSymbol c value ct symbol = .ok (c', value')) : c'.dst = c.dst := by
  unfold Fse.encodeSymbol at h
  obtain ⟨⟨nbBitsOut, next⟩, -, h⟩ := bind_ok h
  cases h
  rfl

theorem startStates_length {ct : Fse.CTable} {fast : Bool} {c : BitCStream} {src : List Nat} {e : Encoder}
    (h : startStates ct fast c src = .ok e) : e.bitC.dst.length = c.dst.length := by
  unfold startStates at h
  split at h
  · split at h
    · obtain ⟨state1, -, h⟩ := bind_ok h
      obtain ⟨state2, -, h⟩ := bind_ok h
      obtain ⟨⟨c1, state1'⟩, hencode, h⟩ := bind_ok h
      obtain ⟨c2, hflush, h⟩ := bind_ok h
      cases h
      rw [flush_length hflush, encodeSymbol_dst hencode]
    · cases h
  · split at h
    · obtain ⟨state2, -, h⟩ := bind_ok h
      obtain ⟨state1, -, h⟩ := bind_ok h
      cases h
      rfl
    · cases h

theorem encodePair_dst {ct : Fse.CTable} {e e' : Encoder} (h : encodePair ct e = .ok e') :
    e'.bitC.dst = e.bitC.dst := by
  unfold encodePair at h
  split at h
  · obtain ⟨⟨c1, state2⟩, h1, h⟩ := bind_ok h
    obtain ⟨⟨c2, state1⟩, h2, h⟩ := bind_ok h
    cases h
    exact (encodeSymbol_dst h2).trans (encodeSymbol_dst h1)
  · cases h

theorem encodeFours_length {ct : Fse.CTable} {fast : Bool} : ∀ (fuel : Nat) {e e' : Encoder},
    encodeFours ct fast fuel e = .ok e' → e'.bitC.dst.length = e.bitC.dst.length
  | 0, _, _, h => by
    cases h
    rfl
  | fuel + 1, e, e', h => by
    unfold encodeFours at h
    split at h
    · cases h
      rfl
    · obtain ⟨e1, h1, h⟩ := bind_ok h
      obtain ⟨e2, h2, h⟩ := bind_ok h
      obtain ⟨c, hflush, h⟩ := bind_ok h
      rw [encodeFours_length fuel h]
      exact (flush_length hflush).trans (by rw [encodePair_dst h2, encodePair_dst h1])

theorem flushCstate_length {ct : Fse.CTable} {c c' : BitCStream} {value : Nat} (h : flushCstate c value ct = .ok c') :
    c'.dst.length = c.dst.length := @flush_length (c.addBits value ct.tableLog) c' false h

/-- The coder of the weights. -/
theorem compressUsingCtable_length {dst out : Bytes} {src : List Nat} {ct : Fse.CTable} {size : Nat}
    (h : Fse.compressUsingCtable dst src ct = .ok (size, out)) : out.length = dst.length := by
  unfold Fse.compressUsingCtable compressUsingCtableGeneric at h
  split at h
  · cases h
    rfl
  split at h
  · cases h
    rfl
  · cases h
  rename_i c hnew
  have hdst : c.dst = dst := by
    unfold BitCStream.new at hnew
    split at hnew
    · cases hnew
    · cases hnew
      rfl
  obtain ⟨e, hstart, h⟩ := bind_ok h
  obtain ⟨e1, hodd, h⟩ := bind_ok h
  obtain ⟨e2, hfours, h⟩ := bind_ok h
  obtain ⟨c1, hflush1, h⟩ := bind_ok h
  obtain ⟨c2, hflush2, h⟩ := bind_ok h
  have hodd : e1.bitC.dst.length = e.bitC.dst.length := by
    split at hodd
    · obtain ⟨e', hpair, hodd⟩ := bind_ok hodd
      obtain ⟨c', hflush, hodd⟩ := bind_ok hodd
      cases hodd
      exact (flush_length hflush).trans (by rw [encodePair_dst hpair])
    · cases hodd
      rfl
  have hstates : c2.dst.length = e2.bitC.dst.length := (flushCstate_length hflush2).trans (flushCstate_length hflush1)
  rw [close_length h, hstates, encodeFours_length _ hfours, hodd, startStates_length hstart, hdst]

end

theorem flushTwoBytes_length {w w' : Fse.NcountWriter} (h : Fse.flushTwoBytes w = .ok w') :
    w'.dst.length = w.dst.length := by
  unfold Fse.flushTwoBytes at h
  split at h
  · cases h
  · cases h
    exact put_length (by omega)

theorem flushFull_length {w w' : Fse.NcountWriter} (h : Fse.flushFull w = .ok w') : w'.dst.length = w.dst.length := by
  unfold Fse.flushFull at h
  split at h
  · obtain ⟨w1, hflush, h⟩ := bind_ok h
    have hlen := flushTwoBytes_length hflush
    cases h
    exact hlen
  · cases h
    rfl

theorem writeLongRuns_length : ∀ (fuel skipped : Nat) {skipped' : Nat} {w w' : Fse.NcountWriter},
    Fse.writeLongRuns fuel skipped w = .ok (skipped', w') → w'.dst.length = w.dst.length
  | 0, _, _, _, _, h => by
    cases h
    rfl
  | fuel + 1, skipped, _, _, _, h => by
    unfold Fse.writeLongRuns at h
    split at h
    · obtain ⟨w1, hflush, h⟩ := bind_ok h
      have hlen := flushTwoBytes_length hflush
      exact (writeLongRuns_length fuel _ h).trans hlen
    · cases h
      rfl

theorem writeShortRuns_dst : ∀ (fuel skipped : Nat) (w : Fse.NcountWriter),
    (Fse.writeShortRuns fuel skipped w).2.dst = w.dst
  | 0, _, _ => rfl
  | fuel + 1, skipped, w => by
    unfold Fse.writeShortRuns
    split
    · exact writeShortRuns_dst fuel _ _
    · rfl

theorem lowerWriter_dst : ∀ (fuel : Nat) (w : Fse.NcountWriter), (Fse.lowerWriter fuel w).dst = w.dst
  | 0, _ => rfl
  | fuel + 1, w => by
    unfold Fse.lowerWriter
    split
    · exact lowerWriter_dst fuel _
    · rfl

theorem writeSymbol_length {normalizedCounter : List Int} {alphabetSize : Nat} {w w' : Fse.NcountWriter}
    (h : Fse.writeSymbol normalizedCounter alphabetSize w = .ok w') : w'.dst.length = w.dst.length := by
  unfold Fse.writeSymbol at h
  obtain ⟨w1, hrun, h⟩ := bind_ok h
  have hrun : w1.dst.length = w.dst.length := by
    split at hrun
    · unfold Fse.writeZeroRun at hrun
      dsimp only at hrun
      split at hrun
      · cases hrun
        rfl
      · obtain ⟨⟨skipped, w2⟩, hlong, hrun⟩ := bind_ok hrun
        have hfull := flushFull_length hrun
        dsimp only at hfull
        rw [hfull, writeShortRuns_dst, writeLongRuns_length _ _ hlong]
    · cases hrun
      rfl
  rw [← hrun]
  split at h
  · cases h
    rfl
  · unfold Fse.writeCount at h
    dsimp only at h
    split at h
    · cases h
    · have hfull := flushFull_length h
      rw [hfull, lowerWriter_dst]

theorem writeCounts_length {normalizedCounter : List Int} {alphabetSize : Nat} :
    ∀ (fuel : Nat) {w w' : Fse.NcountWriter},
    Fse.writeCounts normalizedCounter alphabetSize fuel w = .ok w' → w'.dst.length = w.dst.length
  | 0, _, _, h => by
    cases h
    rfl
  | fuel + 1, _, _, h => by
    unfold Fse.writeCounts at h
    split at h
    · obtain ⟨w1, hsymbol, h⟩ := bind_ok h
      exact (writeCounts_length fuel h).trans (writeSymbol_length hsymbol)
    · cases h
      rfl

/-- The header of a distribution. -/
theorem writeNcount_length {dst out : Bytes} {normalizedCounter : List Int} {maxSymbolValue tableLog size : Nat}
    (h : Fse.writeNcount dst normalizedCounter maxSymbolValue tableLog = .ok (size, out)) :
      out.length = dst.length := by
  unfold Fse.writeNcount at h
  split at h
  · cases h
  split at h
  · cases h
  obtain ⟨w, hcounts, h⟩ := bind_ok h
  have hlen := writeCounts_length _ hcounts
  split at h
  · cases h
  split at h
  · cases h
  · rename_i hroom
    cases h
    rw [put_length (by omega), hlen]

theorem compressWeights_length {dst out : Bytes} {weightTable : List Nat} {size : Nat}
    (h : compressWeights dst weightTable = .ok (size, out)) : out.length = dst.length := by
  unfold compressWeights at h
  split at h
  · cases h
    rfl
  split at h
  · cases h
  dsimp only at h
  split at h
  · cases h
    rfl
  split at h
  · cases h
    rfl
  obtain ⟨⟨log, norm⟩, -, h⟩ := bind_ok h
  obtain ⟨⟨headerSize, dst1⟩, hwrite, h⟩ := bind_ok h
  obtain ⟨ctable, -, h⟩ := bind_ok h
  obtain ⟨⟨compressedSize, payload⟩, hpayload, h⟩ := bind_ok h
  dsimp only at hpayload
  have hheader : dst1.length = dst.length := writeNcount_length hwrite
  have hlen : (dst1.take headerSize ++ payload).length = dst.length := by
    rw [List.length_append, List.length_take, compressUsingCtable_length hpayload, List.length_drop]
    omega
  dsimp only at h
  split at h <;> (cases h; exact hlen)

theorem huffWeights_length {ctable : List CElt} {huffLog : Nat} : ∀ {symbols weights : List Nat},
    huffWeights ctable huffLog symbols = .ok weights → weights.length = symbols.length
  | [], _, h => by
    cases h
    rfl
  | n :: symbols, _, h => by
    unfold huffWeights at h
    obtain ⟨item, -, h⟩ := bind_ok h
    obtain ⟨weight, -, h⟩ := bind_ok h
    obtain ⟨rest, hrest, h⟩ := bind_ok h
    cases h
    rw [List.length_cons, List.length_cons, huffWeights_length hrest]

/-- A description leaves the destination its size. -/
theorem writeCtable_length {dst out : Bytes} {ctable : List CElt} {m huffLog size : Nat}
    (h : writeCtable dst ctable m huffLog = .ok (size, out)) : out.length = dst.length := by
  unfold writeCtable at h
  split at h
  · cases h
  rename_i hempty
  rw [List.isEmpty_iff] at hempty
  have hpos := List.length_pos_iff.2 hempty
  split at h
  · cases h
  obtain ⟨weights, hweights, h⟩ := bind_ok h
  obtain ⟨⟨compressedSize, rest⟩, hcompress, h⟩ := bind_ok h
  have hrest := compressWeights_length hcompress
  rw [List.length_drop] at hrest
  dsimp only at h
  split at h
  · cases h
    rw [List.length_cons]
    omega
  · unfold writeCtableRaw at h
    split at h
    · cases h
    split at h
    · cases h
    dsimp only at h
    split at h
    · cases h
    rename_i hfits
    cases h
    rw [List.length_append, List.length_take] at hfits
    rw [List.length_append, List.length_cons, packWeights_length, huffWeights_length hweights, List.length_range,
      List.length_drop, List.length_append, List.length_take]
    omega

section
variable {tree : List CElt} {count : List Nat} {m b : Nat}

/-- The weights of the symbols before the last one, and its own. -/
theorem weightsOf_eq (tree : List CElt) (m b : Nat) : weightsOf tree m b =
    ((List.range m).map (lengthAt tree)).map (bitsOfWeight b) ++ [bitsOfWeight b (lengthAt tree m)] := by
  rw [weightsOf, List.range_succ, List.map_append, List.map_append]
  rfl

/-- A reader of the description, with anything behind it, gets the weights of the table. -/
theorem writeCtable_reads {dst out : Bytes} {size : Nat} (hbuilt : BuiltFrom tree count m b) (hm : m ≤ symbolvalueMax)
    (hlog : b < tablelogMax) (hlast : 1 ≤ lengthAt tree m) (h : writeCtable dst tree m b = .ok (size, out))
    (hsize : size ≤ out.length) (payload : Bytes) :
    ∃ stats, readStats (out.take size ++ payload) = .ok stats ∧ stats.huffWeight = weightsOf tree m b ∧
      stats.tableLog = b ∧ stats.size = size := by
  have hfull := hbuilt.fullTree
  have hpos := hbuilt.log_pos
  have hrank : 2 ∣ (weightsOf tree m b).count 1 ∧ 0 < (weightsOf tree m b).count 1 := by
    obtain ⟨last, len, hleaves⟩ := hbuilt.leaves
    have hcount := count_bitsOfWeight hfull.weight_le le_rfl hpos
    rw [hbuilt.map_weightsOf, Nat.add_sub_cancel] at hcount
    rw [← hcount]
    exact hleaves.deepest_even
  rw [weightsOf_eq] at hfull hrank ⊢
  unfold writeCtable at h
  split at h
  · cases h
  split at h
  · cases h
  obtain ⟨weights, hweights, h⟩ := bind_ok h
  obtain ⟨⟨compressedSize, rest⟩, hcompress, h⟩ := bind_ok h
  have heq := huffWeights_ok (by omega) (fun n hn => hbuilt.length_le (List.mem_range.1 hn).le) hweights
  rw [← heq] at hfull hrank ⊢
  have hlastWeight : 1 ≤ bitsOfWeight b (lengthAt tree m) := by
    have hle := hbuilt.length_le (le_refl m)
    unfold bitsOfWeight
    rw [if_neg (by omega)]
    omega
  have hlength : weights.length = m := by rw [heq, List.length_map, List.length_map, List.length_range]
  refine readStats_of_weights ?_ hfull hpos hlog hlastWeight hrank
  dsimp only at h
  split at h
  · rename_i hworth
    cases h
    have hroom : compressedSize ≤ rest.length := Nat.le_of_succ_le_succ hsize
    have hbyte : (UInt8.ofNat compressedSize).toNat = compressedSize := UInt8.toNat_ofNat_of_lt' (by
      unfold symbolvalueMax at hm
      show compressedSize < 256
      omega)
    have hdecode := decompress_compressWeights (by omega) hcompress hworth.1
    rw [List.take_succ_cons, List.cons_append]
    unfold readWeights
    dsimp only
    rw [hbyte, if_neg (by unfold symbolvalueMax at hm; omega), if_neg (by
      rw [List.length_cons, List.length_append, List.length_take]
      omega), List.take_append_of_le_length (by rw [List.length_take]; omega), List.take_take, Nat.min_self, hdecode]
    rfl
  · unfold writeCtableRaw at h
    split at h
    · cases h
    split at h
    · cases h
    dsimp only at h
    split at h
    · cases h
    rename_i hsmall hdst hfits
    cases h
    have hbyte : (UInt8.ofNat (128 + (m - 1))).toNat = 128 + (m - 1) := UInt8.toNat_ofNat_of_lt' (by
      show 128 + (m - 1) < 256
      omega)
    have hpacked : (packWeights weights).length = (m + 1) / 2 := by rw [packWeights_length, hlength]
    have hnibbles : ∀ w ∈ weights, w < 16 := by
      intro w hw
      have := hfull.weight_le w (List.mem_append.2 (.inl hw))
      unfold tablelogMax at hlog
      omega
    rw [List.cons_append, List.take_succ_cons, List.take_append_of_le_length hpacked.ge,
      List.take_of_length_le hpacked.le, List.cons_append]
    unfold readWeights
    dsimp only
    rw [hbyte, if_pos (by omega), show 128 + (m - 1) - 127 = m by omega, if_neg (by
      rw [List.length_cons, List.length_append, hpacked]
      unfold symbolvalueMax
      omega), List.take_append_of_le_length hpacked.ge, List.take_of_length_le hpacked.le]
    have hback := unpackWeights_packWeights hnibbles
    rw [hlength] at hback
    rw [hback]

end

end Huff0

end Zstandard
