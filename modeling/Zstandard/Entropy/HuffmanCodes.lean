/-
The table of a Huffman encoder from the counts of its symbols.

Its codes are those that the weights of the same lengths give a reader: the lengths fill a tree, and the symbols of a
length take consecutive codes. Symbols without a length keep what the numbering left in their entries, which nothing
reads.
-/
import Zstandard.Entropy.HuffmanHeight
import Zstandard.Entropy.Codes

namespace Zstandard

open LengthLimit

namespace Huff0

/-! ## The table -/

/-- `nb_per_rank` of the leaves. -/
def countLengths (nodes : List NodeElt) (nonNullRank : Nat) : Result (List Nat) :=
  (List.range (nonNullRank + 1)).foldlM (fun nbPerRank n => do
    let node ← elementAt nodes (n + 1)
    modifyElement nbPerRank node.nbBits (· + 1)) (List.replicate (tablelogMax + 1) 0)

/-- The lengths of the symbols, out of the order of the nodes. -/
def scatterLengths (tree : List CElt) (nodes : List NodeElt) (alphabetSize : Nat) : Result (List CElt) :=
  (List.range alphabetSize).foldlM (fun tree n => do
    let node ← elementAt nodes (n + 1)
    modifyElement tree node.byte.toNat fun item => { item with nbBits := node.nbBits }) tree

/-- A symbol takes the next code of its length. -/
def numberCode (s : List CElt × List Nat) (n : Nat) : Result (List CElt × List Nat) := do
  let item ← elementAt s.1 n
  let val ← elementAt s.2 item.nbBits
  let valPerRank ← setElement s.2 item.nbBits (val + 1)
  let tree ← setElement s.1 n { item with val }
  .ok (tree, valPerRank)

/-- `build_ctable`: the table log it settled on, and the table. -/
def buildCtableFromCounts (tree : List CElt) (count : List Nat) (maxSymbolValue maxNbBits : Nat) :
    Result (Nat × List CElt) := do
  let maxNbBits := if maxNbBits = 0 then tablelogDefault else maxNbBits
  if maxSymbolValue > symbolvalueMax then .error .maxSymbolValueTooLarge else
  let nodes ← sortNodes (List.replicate ctableWorkspaceSizeU32 default) count maxSymbolValue
  let nonNullRank ← nonNullRank nodes (maxSymbolValue + 1)
  let nodes ← buildTree nodes nonNullRank
  let nodes ← setDepths nodes nonNullRank
  let (nodes, maxNbBits) ← setMaxHeight nodes nonNullRank maxNbBits
  if maxNbBits > tablelogMax then .error .generic else
  let nbPerRank ← countLengths nodes nonNullRank
  let tree ← scatterLengths tree nodes (maxSymbolValue + 1)
  let (tree, _) ← (List.range (maxSymbolValue + 1)).foldlM numberCode
    (tree, valPerRank (fun n => nbPerRank.getD n 0) maxNbBits)
  .ok (maxNbBits, tree)

/-! ## Its entries -/

/-- The code length of a symbol. -/
def lengthAt (tree : List CElt) (symbol : Nat) : Nat := (tree.getD symbol default).nbBits

theorem countLengths_ok {nodes : List NodeElt} {nbPerRank' : List Nat} : ∀ {ks : List Nat} {nbPerRank : List Nat},
    ks.foldlM (fun nbPerRank n => do
      let node ← elementAt nodes (n + 1)
      modifyElement nbPerRank node.nbBits (· + 1)) nbPerRank = (.ok nbPerRank' : Result (List Nat)) →
    ∀ m, nbPerRank'.getD m 0 = nbPerRank.getD m 0 + (ks.map (bitsOf nodes)).count m
  | [], nbPerRank, h, m => by
    cases h
    rfl
  | k :: ks, nbPerRank, h, m => by
    rw [List.foldlM_cons] at h
    obtain ⟨nbPerRank1, h1, h⟩ := bind_ok h
    obtain ⟨node, hnode, h1⟩ := bind_ok h1
    have hbits : node.nbBits = bitsOf nodes k := (congrArg NodeElt.nbBits (getD_of_some (elementAt_ok.1 hnode))).symm
    obtain ⟨n, hn, rfl⟩ := modifyElement_ok h1
    rw [countLengths_ok h m, getD_set (List.getElem?_eq_some_iff.1 hn).1, List.map_cons, hbits]
    by_cases hm : bitsOf nodes k = m
    · rw [if_pos hm, hm, List.count_cons_self, ← hm, ← hbits, getD_of_some hn]
      omega
    · rw [if_neg hm, List.count_cons_of_ne hm]

theorem scatterLengths_ok {nodes : List NodeElt} {tree' : List CElt} : ∀ {ks : List Nat} {tree : List CElt},
    (ks.map fun k => (nodeOf nodes k).byte.toNat).Nodup →
    ks.foldlM (fun tree n => do
      let node ← elementAt nodes (n + 1)
      modifyElement tree node.byte.toNat fun item => { item with nbBits := node.nbBits }) tree =
      (.ok tree' : Result (List CElt)) →
    tree'.length = tree.length ∧ (∀ k ∈ ks, lengthAt tree' (nodeOf nodes k).byte.toNat = bitsOf nodes k) ∧
      ∀ j, j ∉ ks.map (fun k => (nodeOf nodes k).byte.toNat) → tree'[j]? = tree[j]?
  | [], tree, _, h => by
    cases h
    exact ⟨rfl, fun k hk => absurd hk List.not_mem_nil, fun _ _ => rfl⟩
  | k :: ks, tree, hnodup, h => by
    rw [List.foldlM_cons] at h
    obtain ⟨tree1, h1, h⟩ := bind_ok h
    obtain ⟨node, hnode, h1⟩ := bind_ok h1
    have hnode : nodeOf nodes k = node := getD_of_some (elementAt_ok.1 hnode)
    obtain ⟨item, hitem, rfl⟩ := modifyElement_ok h1
    rw [List.map_cons, List.nodup_cons] at hnodup
    obtain ⟨hlength, hset, hrest⟩ := scatterLengths_ok hnodup.2 h
    rw [hnode] at hnodup
    have hlt := (List.getElem?_eq_some_iff.1 hitem).1
    refine ⟨by rw [hlength, List.length_set], ?_, ?_⟩
    · intro a ha
      rcases List.mem_cons.1 ha with rfl | ha
      · unfold lengthAt bitsOf
        rw [hnode, List.getD_eq_getElem?_getD, hrest _ hnodup.1, List.getElem?_set_self hlt]
        rfl
      · exact hset a ha
    · intro j hj
      rw [List.map_cons, List.mem_cons, not_or, hnode] at hj
      rw [hrest j hj.2, List.getElem?_set_ne (Ne.symm hj.1)]

theorem numberCode_ok {s s' : List CElt × List Nat} {n : Nat} (h : numberCode s n = .ok s') :
    ∃ item, s.1[n]? = some item ∧ item.nbBits < s.2.length ∧
      s' = (s.1.set n { item with val := s.2.getD item.nbBits 0 },
        s.2.set item.nbBits (s.2.getD item.nbBits 0 + 1)) := by
  unfold numberCode at h
  obtain ⟨item, hitem, h⟩ := bind_ok h
  obtain ⟨val, hval, h⟩ := bind_ok h
  obtain ⟨valPerRank, h1, h⟩ := bind_ok h
  obtain ⟨tree, h2, h⟩ := bind_ok h
  cases h
  rw [elementAt_ok] at hitem hval
  refine ⟨item, hitem, (List.getElem?_eq_some_iff.1 hval).1, ?_⟩
  rw [(setElement_ok h1).2, (setElement_ok h2).2, getD_of_some hval]

/-- The codes of the first symbols: each is the first one of its length and the symbols of that length before it. -/
theorem numberCodes_ok {tree : List CElt} {vals : List Nat} : ∀ (n : Nat) {s : List CElt × List Nat},
    (List.range n).foldlM numberCode (tree, vals) = .ok s →
    s.1.length = tree.length ∧ n ≤ tree.length ∧ (∀ i, lengthAt s.1 i = lengthAt tree i) ∧
      (∀ i < n, s.1[i]? = some { val := vals.getD (lengthAt tree i) 0 +
        ((List.range i).map (lengthAt tree)).count (lengthAt tree i), nbBits := lengthAt tree i }) ∧
      (∀ i, n ≤ i → s.1[i]? = tree[i]?) ∧
      ∀ m, s.2.getD m 0 = vals.getD m 0 + ((List.range n).map (lengthAt tree)).count m
  | 0, s, h => by
    cases h
    exact ⟨rfl, Nat.zero_le _, fun _ => rfl, fun i hi => absurd hi (Nat.not_lt_zero i), fun _ _ => rfl, fun m => rfl⟩
  | n + 1, s, h => by
    rw [List.range_succ, List.foldlM_append] at h
    obtain ⟨s1, h1, h⟩ := bind_ok h
    rw [List.foldlM_cons] at h
    obtain ⟨s2, h2, h⟩ := bind_ok h
    cases h
    obtain ⟨hlength, hle, hlens, hbefore, hafter, hvals⟩ := numberCodes_ok n h1
    obtain ⟨item, hitem, hbits, rfl⟩ := numberCode_ok h2
    have hlt := (List.getElem?_eq_some_iff.1 hitem).1
    have hat : item.nbBits = lengthAt tree n := by
      rw [← hlens n]
      exact (congrArg CElt.nbBits (getD_of_some hitem)).symm
    refine ⟨by rw [List.length_set, hlength], by omega, ?_, ?_, ?_, ?_⟩
    · intro i
      unfold lengthAt
      rw [getD_set hlt]
      split
      · rename_i hi
        rw [← hi]
        exact hat
      · exact hlens i
    · intro i hi
      rw [List.getElem?_set]
      by_cases hin : n = i
      · subst hin
        rw [if_pos rfl, if_pos hlt, hvals, hat]
      · rw [if_neg hin]
        exact hbefore i (by omega)
    · intro i hi
      rw [List.getElem?_set_ne (by omega)]
      exact hafter i (by omega)
    · intro m
      dsimp only
      rw [getD_set hbits, List.range_succ, List.map_append, List.count_append, hvals m, hvals item.nbBits, hat]
      by_cases hm : lengthAt tree n = m
      · rw [if_pos hm, hm, List.map_singleton, hm, List.count_singleton_self]
        rfl
      · rw [if_neg hm, List.map_singleton, List.count_singleton, if_neg (by simpa using hm)]
        rfl

/-! ## A full tree -/

theorem sum_map_range (f : Nat → Nat) : ∀ n, ((List.range n).map f).sum = ∑ i ∈ Finset.range n, f i
  | 0 => rfl
  | n + 1 => by
    rw [List.range_succ, List.map_append, List.sum_append, sum_map_range f n, Finset.sum_range_succ]
    rfl

theorem count_map_range (f : Nat → Nat) (m n : Nat) :
    ((List.range n).map f).count m = ∑ i ∈ Finset.range n, if f i = m then 1 else 0 := by
  induction n with
  | zero => rfl
  | succ n ih =>
    rw [List.range_succ, List.map_append, List.count_append, ih, Finset.sum_range_succ, List.map_singleton,
      List.count_singleton]
    simp only [beq_iff_eq]

/-- What a table that was built from counts has to do with the tree. -/
structure FromLeaves (tree : List CElt) (m last b : Nat) (len : Nat → Nat) : Prop where
  last_pos : 1 ≤ last
  last_le : last ≤ m
  full : Full len last b
  rest : ∀ i, last < i → i ≤ m → len i = 0
  perm : ((List.range (m + 1)).map (lengthAt tree)).Perm ((List.range (m + 1)).map len)

section
variable {tree : List CElt} {m last b : Nat} {len : Nat → Nat}

namespace FromLeaves

variable (h : FromLeaves tree m last b len)
include h

theorem split : (List.range (m + 1)).map len = (List.range (last + 1)).map len ++ List.replicate (m - last) 0 := by
  have hlast := h.last_le
  rw [show m + 1 = last + 1 + (m - last) by omega, List.range_add, List.map_append, List.map_map]
  congr 1
  refine List.eq_replicate_iff.2 ⟨by rw [List.length_map, List.length_range], ?_⟩
  rintro n hn
  obtain ⟨i, hi, rfl⟩ := List.mem_map.1 hn
  rw [List.mem_range] at hi
  exact h.rest (last + 1 + i) (by omega) (by omega)

theorem log_pos : 1 ≤ b := h.full.deepest ▸ h.full.pos h.last_pos last le_rfl

theorem length_le {s : Nat} (hs : s ≤ m) : lengthAt tree s ≤ b := by
  have hmem : lengthAt tree s ∈ (List.range (m + 1)).map len :=
    h.perm.mem_iff.1 (List.mem_map.2 ⟨s, List.mem_range.2 (by omega), rfl⟩)
  obtain ⟨i, hi, heq⟩ := List.mem_map.1 hmem
  rw [List.mem_range] at hi
  rw [← heq]
  by_cases hlast : i ≤ last
  · exact h.full.deepest ▸ h.full.mono i last hlast le_rfl
  · rw [h.rest i (by omega) (by omega)]
    exact Nat.zero_le _

/-- How many codes of a length there are. -/
theorem count_length {n : Nat} (hn : 1 ≤ n) :
    ((List.range (m + 1)).map (lengthAt tree)).count n = ((List.range (last + 1)).map len).count n := by
  rw [h.perm.count_eq, h.split, List.count_append, List.count_eq_zero_of_not_mem (l := List.replicate (m - last) 0)
    fun hmem => by have := List.eq_of_mem_replicate hmem; omega, Nat.add_zero]

theorem weightTotal_eq :
    weightTotal (((List.range (m + 1)).map (lengthAt tree)).map (bitsOfWeight b)) = 2 ^ b := by
  have hpos := h.full.pos h.last_pos
  unfold weightTotal
  rw [((h.perm.map _).map _).sum_eq, h.split, List.map_append, List.map_append, List.sum_append, List.map_replicate,
    List.map_replicate, List.map_map, List.map_map, sum_map_range, ← h.full.sum]
  have hzero : (List.replicate (m - last) (2 ^ bitsOfWeight b 0 / 2)).sum = 0 := by
    rw [List.sum_replicate, show 2 ^ bitsOfWeight b 0 / 2 = 0 by simp [bitsOfWeight], smul_zero]
  rw [hzero, Nat.add_zero]
  refine Finset.sum_congr rfl fun i hi => ?_
  have hi := Nat.le_of_lt_succ (Finset.mem_range.1 hi)
  have hone := hpos i hi
  have hle : len i ≤ b := h.full.deepest ▸ h.full.mono i last hi le_rfl
  simp only [Function.comp_apply, bitsOfWeight]
  rw [if_neg (by omega), half_pow (by omega), show b + 1 - len i - 1 = b - len i by omega]

/-- The deepest codes come in pairs. -/
theorem deepest_even : 2 ∣ ((List.range (m + 1)).map (lengthAt tree)).count b ∧
    0 < ((List.range (m + 1)).map (lengthAt tree)).count b := by
  rw [h.count_length h.log_pos]
  refine ⟨?_, List.count_pos_iff.2 (List.mem_map.2 ⟨last, List.mem_range.2 (Nat.lt_succ_self last), h.full.deepest⟩)⟩
  have heven := h.full.even_deepest h.log_pos
  rwa [deepestCount_eq_sum, ← count_map_range] at heven

end FromLeaves

end

/-! ## The codes -/

/-- A table built from the counts of the symbols up to `m`: the codes of a full tree, one for each that is counted. -/
structure BuiltFrom (tree : List CElt) (count : List Nat) (m b : Nat) : Prop where
  leaves : ∃ last len, FromLeaves tree m last b len
  log_le : b ≤ tablelogMax
  entry : ∀ i ≤ m, tree[i]? = some {
    val := (valPerRank (fun n => ((List.range (m + 1)).map (lengthAt tree)).count n) b).getD (lengthAt tree i) 0 +
      ((List.range i).map (lengthAt tree)).count (lengthAt tree i)
    nbBits := lengthAt tree i }
  present : ∀ i ≤ m, count.getD i 0 ≠ 0 → 1 ≤ lengthAt tree i

theorem Leaves.nbBits_getD {nodes : List NodeElt} {count : List Nat} {n : Nat} (h : Leaves nodes count n) (j : Nat) :
    (nodes.getD j default).nbBits = 0 := by
  rw [List.getD_eq_getElem?_getD]
  cases hnode : nodes[j]? with
  | none => rfl
  | some node => exact h.clean node (List.mem_of_getElem? hnode)

theorem rankMin_congr {f g : Nat → Nat} {tableLog : Nat} (h : ∀ n, 1 ≤ n → f n = g n) : ∀ steps, steps ≤ tableLog →
    rankMin f tableLog steps = rankMin g tableLog steps
  | 0, _ => rfl
  | steps + 1, hsteps => by
    unfold rankMin
    rw [rankMin_congr h steps (by omega), h _ (by omega)]

theorem valPerRank_congr {f g : Nat → Nat} (tableLog : Nat) (h : ∀ n, 1 ≤ n → f n = g n) :
    valPerRank f tableLog = valPerRank g tableLog := by
  unfold valPerRank
  refine List.map_congr_left fun n _ => ?_
  split
  · exact rankMin_congr h _ (by omega)
  · rfl

/-- The nodes of a sorted histogram: a symbol is the byte of one of them. -/
theorem Leaves.nodes_perm {nodes : List NodeElt} {count : List Nat} {m : Nat} (h : Leaves nodes count (m + 1))
    (hm : m ≤ symbolvalueMax) :
    ((List.range (m + 1)).map fun i => ((nodeOf nodes i).byte.toNat, (nodeOf nodes i).count)).Perm
      ((List.range (m + 1)).map fun symbol => (symbol, count.getD symbol 0)) := by
  have hroom : m + 2 ≤ nodes.length := by
    rw [h.length]
    unfold ctableWorkspaceSizeU32 symbolvalueMax at *
    omega
  have hmap : (nodes.drop 1).take (m + 1) = (List.range (m + 1)).map (nodeOf nodes) := by
    refine List.ext_getElem? fun i => ?_
    rw [List.getElem?_take, List.getElem?_map]
    by_cases hi : i < m + 1
    · rw [if_pos hi, List.getElem?_drop, List.getElem?_range hi, Nat.add_comm 1 i, Option.map_some, nodeOf,
        List.getD_eq_getElem?_getD, List.getElem?_eq_getElem (by omega)]
      rfl
    · rw [if_neg hi, List.getElem?_eq_none (by rw [List.length_range]; omega)]
      rfl
  have hperm := h.perm
  rw [hmap, List.map_map] at hperm
  exact hperm

/-- Only the counts of the alphabet are sorted. -/
theorem sortNodes_take (nodes : List NodeElt) (count : List Nat) (m : Nat) :
    sortNodes nodes (count.take (m + 1)) m = sortNodes nodes count m := by
  unfold sortNodes rankBases placeSymbols
  rw [List.take_take, Nat.min_self]

theorem buildCtableFromCounts_built {tree tree' : List CElt} {count : List Nat} {m maxNbBits b : Nat}
    (h : buildCtableFromCounts tree count m maxNbBits = .ok (b, tree')) (hlen : m < count.length)
    (hsmall : ∀ c ∈ count.take (m + 1), c < 2 ^ 30) :
    tree'.length = tree.length ∧ BuiltFrom tree' count m b ∧ (maxNbBits ≠ 0 → b ≤ maxNbBits) ∧
      ∀ i, m < i → tree'[i]? = tree[i]? := by
  unfold buildCtableFromCounts at h
  dsimp only at h
  split at h
  · cases h
  rename_i hm
  obtain ⟨nodes, hsort, h⟩ := bind_ok h
  obtain ⟨last, hrank, h⟩ := bind_ok h
  obtain ⟨nodes1, htree, h⟩ := bind_ok h
  obtain ⟨nodes2, hdepths, h⟩ := bind_ok h
  obtain ⟨⟨nodes3, b'⟩, hheight, h⟩ := bind_ok h
  dsimp only at h
  split at h
  · cases h
  rename_i hlog
  obtain ⟨nbPerRank, hcounts, h⟩ := bind_ok h
  obtain ⟨tree1, hscatter, h⟩ := bind_ok h
  obtain ⟨⟨tree2, vals⟩, hnumber, h⟩ := bind_ok h
  cases h
  have hleaves := sortNodes_leaves ((sortNodes_take _ count m).trans hsort)
    (show m < (count.take (m + 1)).length by rw [List.length_take]; omega) (by omega)
    fun c hc => (hsmall c hc).trans (by norm_num)
  have hperm := hleaves.nodes_perm (by omega)
  have htake : ∀ symbol ≤ m, (count.take (m + 1)).getD symbol 0 = count.getD symbol 0 := by
    intro symbol hsymbol
    rw [List.getD_eq_getElem?_getD, List.getElem?_take, if_pos (by omega), ← List.getD_eq_getElem?_getD]
  obtain ⟨hlast, hlastCount, hzero⟩ := nonNullRank_spec hrank
  have hstart : last < startnode := by
    unfold startnode
    omega
  -- what a node holds is a symbol and its count
  have hnode : ∀ i ≤ m, ∃ symbol ≤ m, (nodeOf nodes i).byte.toNat = symbol ∧
    (nodeOf nodes i).count = count.getD symbol 0 := by
    intro i hi
    obtain ⟨symbol, hsymbol, heq⟩ := List.mem_map.1
      (hperm.mem_iff.1 (List.mem_map.2 ⟨i, List.mem_range.2 (Nat.lt_succ_of_le hi), rfl⟩))
    rw [Prod.mk.injEq] at heq
    have hsymbol := Nat.le_of_lt_succ (List.mem_range.1 hsymbol)
    exact ⟨symbol, hsymbol, heq.1.symm, heq.2.symm.trans (htake symbol hsymbol)⟩
  have hsmall' : ∀ i ≤ last, (nodeOf nodes i).count < 2 ^ 30 := by
    intro i hi
    obtain ⟨symbol, hsymbol, -, hcount⟩ := hnode i (by omega)
    rw [hcount, ← htake symbol hsymbol, List.getD_eq_getElem?_getD,
      List.getElem?_eq_getElem (by rw [List.length_take]; omega)]
    exact hsmall _ (List.getElem_mem _)
  obtain ⟨hpos, hmerging, hkept⟩ := buildTree_merged hstart hsmall' htree
  obtain ⟨hsame, htreeDepths, hpast⟩ := setDepths_depths hpos hmerging hdepths
  have hfull : Full (bitsOf nodes2) last (bitsOf nodes2 last) :=
    ⟨fun i j hij hj => htreeDepths.leaf_mono hij hj, rfl,
      htreeDepths.sum_leaves fun i hi => htreeDepths.leaf_mono hi le_rfl⟩
  have hsentinel : (nodes2.getD 0 default).nbBits = 0 := by
    rw [hsame.sentinel, hkept.sentinel]
    exact hleaves.nbBits_getD 0
  obtain ⟨hleveled, hfull', hle⟩ := setMaxHeight_full hsentinel hfull hheight
  have hbyte : ∀ i, (nodeOf nodes3 i).byte = (nodeOf nodes i).byte := fun i =>
    ((hleveled.same.byte i).trans (hsame.byte i)).trans (hkept.byte i)
  have hrest : ∀ i, last < i → i ≤ m → bitsOf nodes3 i = 0 := by
    intro i hi him
    rw [hleveled.past i hi, hpast i hi (by unfold startnode; omega)]
    exact (hkept.nbBits i).trans (hleaves.nbBits_getD (i + 1))
  have hbytes : ((List.range (m + 1)).map fun k => (nodeOf nodes3 k).byte.toNat).Perm (List.range (m + 1)) := by
    have hfst := hperm.map Prod.fst
    rw [List.map_map, List.map_map] at hfst
    simp only [hbyte]
    simpa only [Function.comp_def, List.map_id'] using hfst
  obtain ⟨hlength1, hset, hkeep1⟩ := scatterLengths_ok (hbytes.nodup_iff.2 List.nodup_range) hscatter
  obtain ⟨hlength2, -, hlens, hentry, hkeep2, -⟩ := numberCodes_ok (m + 1) hnumber
  have hlens : lengthAt tree2 = lengthAt tree1 := funext hlens
  have hbuilt : FromLeaves tree2 m last b (bitsOf nodes3) := by
    refine ⟨hpos, by omega, hfull', hrest, ?_⟩
    rw [hlens]
    refine (hbytes.map (lengthAt tree1)).symm.trans (List.Perm.of_eq ?_)
    rw [List.map_map]
    exact List.map_congr_left hset
  have hranks : ∀ n, 1 ≤ n → nbPerRank.getD n 0 = ((List.range (m + 1)).map (lengthAt tree2)).count n := by
    intro n hn
    rw [countLengths_ok hcounts n, hbuilt.count_length hn, List.getD_eq_getElem?_getD, List.getElem?_replicate]
    split
    · exact Nat.zero_add _
    · exact Nat.zero_add _
  refine ⟨hlength2.trans hlength1, ⟨⟨last, _, hbuilt⟩, by omega, fun i hi => ?_, fun i hi hcount => ?_⟩, fun hne => ?_,
    fun i hi => ?_⟩
  · rw [hentry i (Nat.lt_succ_of_le hi), valPerRank_congr b hranks, hlens]
  · -- a symbol that is counted is a leaf
    obtain ⟨k, hk, heq⟩ := List.mem_map.1 (hperm.mem_iff.2 (List.mem_map.2 ⟨i, List.mem_range.2 (by omega), rfl⟩))
    rw [Prod.mk.injEq] at heq
    have hkm := List.mem_range.1 hk
    have hlt : k ≤ last := by
      by_contra hgt
      exact hcount (by rw [← htake i hi, ← heq.2]; exact hzero k (by omega) hkm)
    have hbits := hset k hk
    rw [hbyte, heq.1] at hbits
    rw [hlens, hbits]
    exact hfull'.pos hpos k hlt
  · rw [if_neg hne] at hle
    exact hle
  · rw [hkeep2 i (by omega), hkeep1 i]
    rw [hbytes.mem_iff, List.mem_range]
    omega

/-- What is behind the alphabet does not matter. -/
theorem BuiltFrom.congr {tree tree' : List CElt} {count : List Nat} {m b : Nat} (h : BuiltFrom tree count m b)
    (hsame : ∀ i ≤ m, tree'[i]? = tree[i]?) : BuiltFrom tree' count m b := by
  have hlengthAt : ∀ i ≤ m, lengthAt tree' i = lengthAt tree i := by
    intro i hi
    unfold lengthAt
    rw [List.getD_eq_getElem?_getD, hsame i hi, ← List.getD_eq_getElem?_getD]
  have hmap : ∀ n ≤ m + 1, (List.range n).map (lengthAt tree') = (List.range n).map (lengthAt tree) := by
    intro n hn
    refine List.map_congr_left fun i hi => hlengthAt i ?_
    have := List.mem_range.1 hi
    omega
  obtain ⟨last, len, hleaves⟩ := h.leaves
  refine ⟨⟨last, len, hleaves.last_pos, hleaves.last_le, hleaves.full, hleaves.rest, ?_⟩, h.log_le, fun i hi => ?_,
    fun i hi hcount => ?_⟩
  · rw [hmap _ le_rfl]
    exact hleaves.perm
  · rw [hsame i hi, hlengthAt i hi, hmap _ le_rfl, hmap i (by omega)]
    exact h.entry i hi
  · rw [hlengthAt i hi]
    exact h.present i hi hcount

/-! ## The same codes as a reader has -/

/-- The weights of the symbols up to `m`. -/
def weightsOf (tree : List CElt) (m b : Nat) : List Nat :=
  ((List.range (m + 1)).map (lengthAt tree)).map (bitsOfWeight b)

/-- The codes of a table; what an entry without a length holds besides is never read. -/
def CTableX1.coding (t : CTableX1) : CTable := fun symbol =>
  if (t.ctable symbol).nbBits = 0 then default else t.ctable symbol

theorem bitsOfWeight_bitsOfWeight {b n : Nat} (h : n ≤ b) : bitsOfWeight b (bitsOfWeight b n) = n := by
  unfold bitsOfWeight
  split
  · split
    · omega
    · omega
  · split
    · omega
    · omega

section
variable {tree : List CElt} {count : List Nat} {m b : Nat}

theorem weightsOf_length (tree : List CElt) (m b : Nat) : (weightsOf tree m b).length = m + 1 := by
  rw [weightsOf, List.length_map, List.length_map, List.length_range]

theorem weightsOf_getElem? {i w : Nat} (h : (weightsOf tree m b)[i]? = some w) :
    i ≤ m ∧ w = bitsOfWeight b (lengthAt tree i) := by
  have hlt := (List.getElem?_eq_some_iff.1 h).1
  rw [weightsOf_length] at hlt
  rw [weightsOf, List.getElem?_map, List.getElem?_map, List.getElem?_range hlt] at h
  exact ⟨by omega, (Option.some.inj h).symm⟩

namespace BuiltFrom

variable (h : BuiltFrom tree count m b)
include h

theorem length_le {i : Nat} (hi : i ≤ m) : lengthAt tree i ≤ b := by
  obtain ⟨last, len, hleaves⟩ := h.leaves
  exact hleaves.length_le hi

theorem log_pos : 1 ≤ b := by
  obtain ⟨last, len, hleaves⟩ := h.leaves
  exact hleaves.log_pos

/-- The lengths again, from the weights. -/
theorem map_weightsOf : (weightsOf tree m b).map (bitsOfWeight b) = (List.range (m + 1)).map (lengthAt tree) := by
  rw [weightsOf, List.map_map, List.map_map]
  refine List.map_congr_left fun i hi => ?_
  exact bitsOfWeight_bitsOfWeight (h.length_le (Nat.le_of_lt_succ (List.mem_range.1 hi)))

theorem fullTree : FullTree (weightsOf tree m b) b := by
  obtain ⟨last, len, hleaves⟩ := h.leaves
  refine ⟨fun w hw => ?_, hleaves.weightTotal_eq⟩
  obtain ⟨i, hi⟩ := List.getElem?_of_mem hw
  obtain ⟨-, rfl⟩ := weightsOf_getElem? hi
  have hpos := h.log_pos
  unfold bitsOfWeight
  split
  · exact Nat.zero_le _
  · omega

/-- The codes are those of the weights. -/
theorem codes (hm : m ≤ symbolvalueMax) (hrest : ∀ i, m < i → tree.getD i default = default) :
    CodesOf (weightsOf tree m b) b (CTableX1.coding { tableLog := b, entries := tree }) := by
  have hlog := h.log_le
  have hfull := h.fullTree
  refine ⟨hfull, by rw [weightsOf_length]; omega, ?_, ?_⟩
  · intro i w hi
    obtain ⟨him, hw⟩ := weightsOf_getElem? hi
    have hle := h.length_le him
    have hat : CTableX1.ctable { tableLog := b, entries := tree } (UInt8.ofNat i) = tree.getD i default := by
      unfold CTableX1.ctable
      rw [UInt8.toNat_ofNat_of_lt' (by
        unfold symbolvalueMax at hm
        show i < 256
        omega)]
    have hentry := getD_of_some (h.entry i him) (d := default)
    unfold CTableX1.coding
    rw [hat, hentry]
    dsimp only
    by_cases hzero : lengthAt tree i = 0
    · rw [if_pos hzero, if_pos (by rw [hw, hzero]; simp [bitsOfWeight])]
    · have hwEq : w = b + 1 - lengthAt tree i := by rw [hw, bitsOfWeight, if_neg hzero]
      have hweights : ∀ x ∈ weightsOf tree m b, x ≤ b := hfull.weight_le
      have hfirst := rankMin_eq hweights (w - 1) (by omega)
      rw [Nat.sub_add_cancel (by omega)] at hfirst
      have hbefore : ((weightsOf tree m b).take i).map (bitsOfWeight b) = (List.range i).map (lengthAt tree) := by
        rw [List.map_take, h.map_weightsOf, ← List.map_take, List.take_range, Nat.min_eq_left (by omega)]
      have htake : ∀ x ∈ (weightsOf tree m b).take i, x ≤ b := fun x hx => hweights x (List.mem_of_mem_take hx)
      have hcount := count_bitsOfWeight htake (show 1 ≤ w by omega) (show w ≤ b by omega)
      rw [hbefore, show b + 1 - w = lengthAt tree i by omega] at hcount
      rw [if_neg hzero, if_neg (by omega), ← h.map_weightsOf, hcount, valPerRank, List.getD_eq_getElem?_getD,
        List.getElem?_map, List.getElem?_range (by omega), Option.map_some, Option.getD_some, if_pos (by omega),
        show b - lengthAt tree i = w - 1 by omega, hfirst, show b + 1 - w = lengthAt tree i by omega]
  · intro symbol hsymbol
    rw [weightsOf_length] at hsymbol
    have hat : CTableX1.ctable { tableLog := b, entries := tree } symbol = default := hrest _ (by omega)
    unfold CTableX1.coding
    rw [hat]
    exact if_pos rfl

end BuiltFrom

end

end Huff0

end Zstandard
