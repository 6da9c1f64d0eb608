/-
The tree of a Huffman code as the encoder builds it, in the array of its nodes: the leaves in the order of their counts,
and from a fixed position on the inner nodes in the order they are made.

The two least frequent nodes without a parent get one. A leaf that is next has a lower count than any inner node that
is not made yet, and the sentinel below the leaves a higher one than all, so the nodes taken are always there.
-/
import Zstandard.Library.MergeTree
import Zstandard.Entropy.HuffmanSort

namespace Zstandard

open MergeTree

namespace Huff0

def tablelogDefault : Nat := 11

/-- `read_node`: the nodes are shifted by one, below them is the sentinel. -/
def readNode (nodes : List NodeElt) (idx : Int) : Result NodeElt :=
  if idx < 0 then elementAt nodes 0 else elementAt nodes (idx.toNat + 1)

/-- A write through `write_node_mut`; a negative index does not fit a `usize`. -/
def writeNodeMut (nodes : List NodeElt) (idx : Int) (f : NodeElt → NodeElt) : Result (List NodeElt) :=
  if idx < 0 then .error .generic else modifyElement nodes (idx.toNat + 1) f

/-- `a + b` in 32 bits. -/
def addCount (a b : Nat) : Result Nat := if a + b < 2 ^ 32 then .ok (a + b) else .error .generic

/-- `while nodes[non_null_rank + 1].count == 0 { non_null_rank -= 1 }`, from below `rank`. -/
def nonNullRank (nodes : List NodeElt) : Nat → Result Nat
  | 0 => .error .generic
  | rank + 1 => do
    if (← elementAt nodes (rank + 1)).count = 0 then nonNullRank nodes rank else .ok rank

/-- Where a tree stands: the leaves up to `lowS` and the inner nodes from `lowN` have no parent yet. -/
structure TreeBuild where
  nodes : List NodeElt
  lowS : Int
  lowN : Nat
  nodeNb : Nat

/-- The less frequent of the next leaf and the next inner node. -/
def takeNode (nodes : List NodeElt) (lowS : Int) (lowN : Nat) : Result (Int × Int × Nat) := do
  let leaf ← readNode nodes lowS
  let inner ← readNode nodes lowN
  if leaf.count < inner.count then .ok (lowS, lowS - 1, lowN) else .ok (lowN, lowS, lowN + 1)

/-- `nodeNb` becomes the parent of two nodes. -/
def joinNodes (nodes : List NodeElt) (n1 n2 : Int) (nodeNb : Nat) : Result (List NodeElt) := do
  let first ← readNode nodes n1
  let second ← readNode nodes n2
  let count ← addCount first.count second.count
  let nodes ← writeNodeMut nodes nodeNb fun node => { node with count }
  let nodes ← writeNodeMut nodes n1 fun node => { node with parent := nodeNb }
  writeNodeMut nodes n2 fun node => { node with parent := nodeNb }

/-- A round of the loop that builds the tree. -/
def mergeNodes (s : TreeBuild) : Result TreeBuild := do
  let (n1, lowS, lowN) ← takeNode s.nodes s.lowS s.lowN
  let (n2, lowS, lowN) ← takeNode s.nodes lowS lowN
  let nodes ← joinNodes s.nodes n1 n2 s.nodeNb
  .ok { nodes, lowS, lowN, nodeNb := s.nodeNb + 1 }

def mergeLoop : Nat → TreeBuild → Result TreeBuild
  | 0, s => .ok s
  | n + 1, s => do mergeLoop n (← mergeNodes s)

/-- The parents of the leaves up to `nonNullRank`, and of the inner nodes below the root. -/
def buildTree (nodes : List NodeElt) (nonNullRank : Nat) : Result (List NodeElt) := do
  let nodeRoot := startnode + nonNullRank - 1
  let nodes ← joinNodes nodes nonNullRank ((nonNullRank : Int) - 1) startnode
  -- Every inner node not built yet is worth more than a leaf, and the sentinel more than an inner node.
  let nodes ← (List.range' (startnode + 1) (nodeRoot - startnode)).foldlM
    (fun nodes (n : Nat) => writeNodeMut nodes n fun node => { node with count := 2 ^ 30 }) nodes
  let nodes ← modifyElement nodes 0 fun node => { node with count := 2 ^ 31 }
  let s ← mergeLoop (nodeRoot - startnode)
    { nodes, lowS := (nonNullRank : Int) - 2, lowN := startnode, nodeNb := startnode + 1 }
  .ok s.nodes

/-- One more bit than the parent. -/
def setDepth (nodes : List NodeElt) (n : Nat) : Result (List NodeElt) := do
  let node ← readNode nodes n
  let parent ← readNode nodes node.parent
  if parent.nbBits + 1 < 2 ^ 8 then writeNodeMut nodes n fun node => { node with nbBits := parent.nbBits + 1 }
  else .error .generic

/-- The depths of all nodes, from the root down. -/
def setDepths (nodes : List NodeElt) (nonNullRank : Nat) : Result (List NodeElt) := do
  let nodeRoot := startnode + nonNullRank - 1
  let nodes ← writeNodeMut nodes nodeRoot fun node => { node with nbBits := 0 }
  let nodes ← (List.range' startnode (nodeRoot - startnode)).reverse.foldlM setDepth nodes
  (List.range (nonNullRank + 1)).foldlM setDepth nodes

/-! ## Reading and writing nodes -/

/-- The node at a position, behind the sentinel. -/
def nodeOf (nodes : List NodeElt) (i : Nat) : NodeElt := nodes.getD (i + 1) default

section
variable {nodes nodes' : List NodeElt} {idx : Int} {i j : Nat} {node : NodeElt} {f : NodeElt → NodeElt}

theorem readNode_ok (hidx : 0 ≤ idx) (h : readNode nodes idx = .ok node) : node = nodeOf nodes idx.toNat := by
  unfold readNode at h
  rw [if_neg (by omega), elementAt_ok] at h
  exact (getD_of_some h).symm

theorem readNode_sentinel (hidx : idx < 0) (h : readNode nodes idx = .ok node) : node = nodes.getD 0 default := by
  unfold readNode at h
  rw [if_pos hidx, elementAt_ok] at h
  exact (getD_of_some h).symm

/-- The list where one node is written: the others, the sentinel among them, are as they were. -/
structure Written (nodes nodes' : List NodeElt) (i : Nat) (node : NodeElt) : Prop where
  length : nodes'.length = nodes.length
  lt : i + 1 < nodes.length
  sentinel : nodes'.getD 0 default = nodes.getD 0 default
  at_eq : ∀ j, nodeOf nodes' j = if j = i then node else nodeOf nodes j

theorem written_set (hlt : i + 1 < nodes.length) (node : NodeElt) : Written nodes (nodes.set (i + 1) node) i node where
  length := List.length_set
  lt := hlt
  sentinel := by rw [getD_set hlt, if_neg (Nat.succ_ne_zero i)]
  at_eq := by
    intro j
    unfold nodeOf
    rw [getD_set hlt]
    by_cases h : j = i
    · rw [if_pos h, if_pos (by rw [h])]
    · rw [if_neg h, if_neg (by omega)]

theorem modifyNode_written (h : modifyElement nodes (i + 1) f = .ok nodes') :
    Written nodes nodes' i (f (nodeOf nodes i)) := by
  obtain ⟨node, hnode, rfl⟩ := modifyElement_ok h
  have hlt := (List.getElem?_eq_some_iff.1 hnode).1
  have hnode : nodeOf nodes i = node := getD_of_some hnode
  rw [hnode]
  exact written_set hlt _

theorem writeNodeMut_ok (h : writeNodeMut nodes idx f = .ok nodes') :
    0 ≤ idx ∧ Written nodes nodes' idx.toNat (f (nodeOf nodes idx.toNat)) := by
  unfold writeNodeMut at h
  split at h
  · cases h
  · exact ⟨by omega, modifyNode_written h⟩

end

/-! ## The tree -/

theorem nonNullRank_spec {nodes : List NodeElt} : ∀ {rank r : Nat}, nonNullRank nodes rank = .ok r →
    r < rank ∧ (nodeOf nodes r).count ≠ 0 ∧ ∀ i, r < i → i < rank → (nodeOf nodes i).count = 0
  | 0, _, h => by cases h
  | rank + 1, r, h => by
    unfold nonNullRank at h
    obtain ⟨node, hnode, h⟩ := bind_ok h
    have hnode : nodeOf nodes rank = node := getD_of_some (elementAt_ok.1 hnode)
    split at h
    · rename_i hzero
      obtain ⟨hlt, hcount, hrest⟩ := nonNullRank_spec h
      refine ⟨by omega, hcount, fun i hi hlt' => ?_⟩
      rcases Nat.eq_or_lt_of_le (Nat.le_of_lt_succ hlt') with rfl | hlt''
      · rw [hnode]
        exact hzero
      · exact hrest i hi hlt''
    · rename_i hcount
      cases h
      exact ⟨Nat.lt_succ_self _, by rw [hnode]; exact hcount, fun i hi hlt => by omega⟩

/-- What building a tree leaves alone: all but the parents, and the counts of the inner nodes and the sentinel. -/
structure Kept (nodes nodes' : List NodeElt) : Prop where
  length : nodes'.length = nodes.length
  sentinel : (nodes'.getD 0 default).nbBits = (nodes.getD 0 default).nbBits
  byte : ∀ i, (nodeOf nodes' i).byte = (nodeOf nodes i).byte
  nbBits : ∀ i, (nodeOf nodes' i).nbBits = (nodeOf nodes i).nbBits
  count : ∀ i < startnode, (nodeOf nodes' i).count = (nodeOf nodes i).count

theorem Kept.refl (nodes : List NodeElt) : Kept nodes nodes :=
  ⟨rfl, rfl, fun _ => rfl, fun _ => rfl, fun _ _ => rfl⟩

theorem Kept.trans {nodes nodes' nodes'' : List NodeElt} (h : Kept nodes nodes') (h' : Kept nodes' nodes'') :
    Kept nodes nodes'' :=
  ⟨h'.length.trans h.length, h'.sentinel.trans h.sentinel, fun i => (h'.byte i).trans (h.byte i),
    fun i => (h'.nbBits i).trans (h.nbBits i), fun i hi => (h'.count i hi).trans (h.count i hi)⟩

theorem Written.kept {nodes nodes' : List NodeElt} {i : Nat} {node : NodeElt} (h : Written nodes nodes' i node)
    (hbyte : node.byte = (nodeOf nodes i).byte) (hbits : node.nbBits = (nodeOf nodes i).nbBits)
    (hcount : i < startnode → node.count = (nodeOf nodes i).count) : Kept nodes nodes' where
  length := h.length
  sentinel := congrArg NodeElt.nbBits h.sentinel
  byte := by
    intro j
    rw [h.at_eq j]
    split
    · rename_i hj
      rw [hj, hbyte]
    · rfl
  nbBits := by
    intro j
    rw [h.at_eq j]
    split
    · rename_i hj
      rw [hj, hbits]
    · rfl
  count := by
    intro j hj
    rw [h.at_eq j]
    split
    · rename_i hji
      rw [hji, hcount (hji ▸ hj)]
    · rfl

/-- Two nodes get a parent, and the parent their counts. -/
structure Joined (nodes nodes' : List NodeElt) (a b made : Nat) : Prop where
  kept : Kept nodes nodes'
  sentinel : nodes'.getD 0 default = nodes.getD 0 default
  parent : ∀ i, (nodeOf nodes' i).parent = if i = a ∨ i = b then made else (nodeOf nodes i).parent
  count : ∀ i, i ≠ made → (nodeOf nodes' i).count = (nodeOf nodes i).count

theorem joinNodes_ok {nodes nodes' : List NodeElt} {n1 n2 : Int} {made : Nat} (hmade : startnode ≤ made)
    (h : joinNodes nodes n1 n2 made = .ok nodes') :
    0 ≤ n1 ∧ 0 ≤ n2 ∧ Joined nodes nodes' n1.toNat n2.toNat made := by
  unfold joinNodes at h
  obtain ⟨first, -, h⟩ := bind_ok h
  obtain ⟨second, -, h⟩ := bind_ok h
  obtain ⟨count, -, h⟩ := bind_ok h
  obtain ⟨nodes1, h1, h⟩ := bind_ok h
  obtain ⟨nodes2, h2, h⟩ := bind_ok h
  obtain ⟨-, w1⟩ := writeNodeMut_ok h1
  obtain ⟨hn1, w2⟩ := writeNodeMut_ok h2
  obtain ⟨hn2, w3⟩ := writeNodeMut_ok h
  rw [Int.toNat_natCast] at w1
  refine ⟨hn1, hn2, ?_, ?_, ?_, ?_⟩
  · exact ((w1.kept rfl rfl fun hlt => by omega).trans (w2.kept rfl rfl fun _ => rfl)).trans
      (w3.kept rfl rfl fun _ => rfl)
  · rw [w3.sentinel, w2.sentinel, w1.sentinel]
  · intro i
    rw [w3.at_eq i]
    by_cases hi2 : i = n2.toNat
    · rw [if_pos hi2, if_pos (.inr hi2)]
    · rw [if_neg hi2, w2.at_eq i]
      by_cases hi1 : i = n1.toNat
      · rw [if_pos hi1, if_pos (.inl hi1)]
      · rw [if_neg hi1, if_neg (by rintro (h | h) <;> contradiction), w1.at_eq i]
        split
        · rename_i hi
          rw [hi]
        · rfl
  · intro i hi
    rw [w3.at_eq i]
    by_cases hi2 : i = n2.toNat
    · rw [if_pos hi2, ← hi2]
      dsimp only
      rw [w2.at_eq i]
      by_cases hi1 : i = n1.toNat
      · rw [if_pos hi1, ← hi1]
        dsimp only
        rw [w1.at_eq i, if_neg hi]
      · rw [if_neg hi1, w1.at_eq i, if_neg hi]
    · rw [if_neg hi2, w2.at_eq i]
      by_cases hi1 : i = n1.toNat
      · rw [if_pos hi1, ← hi1]
        dsimp only
        rw [w1.at_eq i, if_neg hi]
      · rw [if_neg hi1, w1.at_eq i, if_neg hi]

/-- The parents as the tree of the library has them. -/
def parentOf (nodes : List NodeElt) (i : Nat) : Nat := (nodeOf nodes i).parent

/-- A tree under construction with what tells the leaves, the inner nodes and those not made yet from each other. -/
structure Growing (nodes : List NodeElt) (last root : Nat) (lowS : Int) (lowN made : Nat) : Prop where
  merging : Merging (parentOf nodes) startnode last (lowS + 1).toNat lowN made 0
  lowS_ge : -1 ≤ lowS
  lowN_lt : lowN < made
  leaf : ∀ i ≤ last, (nodeOf nodes i).count < 2 ^ 30
  pending : ∀ k, made ≤ k → k ≤ root → (nodeOf nodes k).count = 2 ^ 30

/-- Taking a leaf or an inner node: whichever it was is the child of the next node, once that is its parent. -/
theorem takeNode_ok {nodes : List NodeElt} {last root lowN lowN' made taken : Nat} {lowS lowS' n : Int}
    {parent : Nat → Nat} (parent' : Nat → Nat) (h : takeNode nodes lowS lowN = .ok (n, lowS', lowN')) (hn : 0 ≤ n)
    (hlowS : -1 ≤ lowS) (hmade : startnode ≤ made ∧ made ≤ root)
    (hleaf : ∀ i ≤ last, (nodeOf nodes i).count < 2 ^ 30)
    (hpending : ∀ k, made ≤ k → k ≤ root → (nodeOf nodes k).count = 2 ^ 30)
    (hmerging : Merging parent startnode last (lowS + 1).toNat lowN made taken)
    (havailable : lowN ≤ made → 0 < (lowS + 1).toNat + (made - lowN))
    (hchild : parent' n.toNat = made) (hother : ∀ i, i ≠ n.toNat → parent' i = parent i) :
    -1 ≤ lowS' ∧ Merging parent' startnode last (lowS' + 1).toNat lowN' made (taken + 1) := by
  unfold takeNode at h
  obtain ⟨leaf, hleafRead, h⟩ := bind_ok h
  obtain ⟨inner, hinnerRead, h⟩ := bind_ok h
  split at h
  · cases h
    refine ⟨by omega, ?_⟩
    rw [show (lowS + 1).toNat = lowS.toNat + 1 by omega] at hmerging
    rw [show (lowS - 1 + 1).toNat = lowS.toNat by omega]
    exact hmerging.takeLeaf hchild hother
  · rename_i hcount
    cases h
    rw [Int.toNat_natCast] at hchild hother
    refine ⟨hlowS, hmerging.takeInner ?_ hchild hother⟩
    -- a node that is not made yet out-counts every leaf, and without leaves there is one that is made
    have hle := hmerging.lowN_le
    by_contra hge
    have heq : lowN = made := by omega
    have havailable := havailable hle
    have hbound := hmerging.low_le
    have hinner := readNode_ok (Int.natCast_nonneg lowN) hinnerRead
    rw [Int.toNat_natCast, heq] at hinner
    have hleaf' := readNode_ok (by omega) hleafRead
    have h1 := hpending made le_rfl hmade.2
    have h2 := hleaf lowS.toNat (by omega)
    rw [← hinner] at h1
    rw [← hleaf'] at h2
    omega

theorem mergeNodes_growing {s s' : TreeBuild} {last root : Nat} (hlast : last < startnode)
    (hroot : root = startnode + last - 1) (hmade : startnode < s.nodeNb ∧ s.nodeNb ≤ root)
    (h : Growing s.nodes last root s.lowS s.lowN s.nodeNb) (hstep : mergeNodes s = .ok s') :
    s'.nodeNb = s.nodeNb + 1 ∧ Growing s'.nodes last root s'.lowS s'.lowN s'.nodeNb ∧ Kept s.nodes s'.nodes := by
  unfold mergeNodes at hstep
  obtain ⟨⟨n1, lowS1, lowN1⟩, h1, hstep⟩ := bind_ok hstep
  obtain ⟨⟨n2, lowS2, lowN2⟩, h2, hstep⟩ := bind_ok hstep
  obtain ⟨nodes, hjoin, hstep⟩ := bind_ok hstep
  cases hstep
  obtain ⟨hn1, hn2, hjoined⟩ := joinNodes_ok hmade.1.le hjoin
  have hcount := h.merging.count
  have hfirst := h.merging.first_le
  have hlow := h.merging.low_le
  -- the parents after the first of the two is taken
  let parent1 : Nat → Nat := fun i => if i = n1.toNat then s.nodeNb else parentOf s.nodes i
  obtain ⟨hlowS1, hm1⟩ := takeNode_ok parent1 h1 hn1 h.lowS_ge ⟨hmade.1.le, hmade.2⟩ h.leaf h.pending
    h.merging (fun _ => by have := h.lowN_lt; omega) (by dsimp only [parent1]; rw [if_pos rfl]) fun i hi => if_neg hi
  have hcount1 := hm1.count
  have hfirst1 := hm1.first_le
  have hlow1 := hm1.low_le
  obtain ⟨hlowS2, hm2⟩ := takeNode_ok (parentOf nodes) h2 hn2 hlowS1 ⟨hmade.1.le, hmade.2⟩ h.leaf
    h.pending hm1 (fun hle => by omega)
    (by unfold parentOf; rw [hjoined.parent, if_pos (.inr rfl)]) fun i hi => by
      unfold parentOf
      rw [hjoined.parent]
      by_cases hi1 : i = n1.toNat
      · rw [if_pos (.inl hi1)]
        exact (if_pos hi1).symm
      · rw [if_neg (not_or.2 ⟨hi1, hi⟩)]
        exact (if_neg hi1).symm
  refine ⟨rfl, ⟨hm2.close, hlowS2, Nat.lt_succ_of_le hm2.lowN_le, ?_, ?_⟩, hjoined.kept⟩
  · intro i hi
    rw [hjoined.count i (by omega)]
    exact h.leaf i hi
  · intro k hk hle
    dsimp only at hk
    rw [hjoined.count k (by omega)]
    exact h.pending k (by omega) hle

theorem mergeLoop_growing {last root : Nat} (hlast : last < startnode) (hroot : root = startnode + last - 1) :
    ∀ (n : Nat) {s s' : TreeBuild}, startnode < s.nodeNb → s.nodeNb + n ≤ root + 1 →
      Growing s.nodes last root s.lowS s.lowN s.nodeNb → mergeLoop n s = .ok s' →
      s'.nodeNb = s.nodeNb + n ∧ Growing s'.nodes last root s'.lowS s'.lowN s'.nodeNb ∧ Kept s.nodes s'.nodes
  | 0, s, s', _, _, hs, h => by
    cases h
    exact ⟨rfl, hs, .refl _⟩
  | n + 1, s, s', hfirst, hle, hs, h => by
    unfold mergeLoop at h
    obtain ⟨s1, h1, h⟩ := bind_ok h
    obtain ⟨hnb, hs1, hkept⟩ := mergeNodes_growing hlast hroot ⟨hfirst, by omega⟩ hs h1
    obtain ⟨hnb', hs', hkept'⟩ := mergeLoop_growing hlast hroot n (by omega) (by omega) hs1 h
    exact ⟨by omega, hs', hkept.trans hkept'⟩

theorem Written.parentOf {nodes nodes' : List NodeElt} {i : Nat} {node : NodeElt} (h : Written nodes nodes' i node)
    (hparent : node.parent = (nodeOf nodes i).parent) : parentOf nodes' = parentOf nodes := by
  funext j
  unfold Huff0.parentOf
  rw [h.at_eq j]
  split
  · rename_i hj
    rw [hj, hparent]
  · rfl

theorem fillInner_kept {nodes nodes' : List NodeElt} {first n : Nat} (hfirst : startnode ≤ first)
    (h : (List.range' first n).foldlM
      (fun nodes (k : Nat) => writeNodeMut nodes k fun node => { node with count := 2 ^ 30 }) nodes = .ok nodes') :
    Kept nodes nodes' ∧ parentOf nodes' = parentOf nodes ∧
      ∀ k, (nodeOf nodes' k).count = if first ≤ k ∧ k < first + n then 2 ^ 30 else (nodeOf nodes k).count := by
  induction n generalizing first nodes with
  | zero =>
    cases h
    refine ⟨.refl _, rfl, fun k => ?_⟩
    rw [if_neg (by omega)]
  | succ n ih =>
    rw [List.range'_succ, List.foldlM_cons] at h
    obtain ⟨nodes1, h1, h⟩ := bind_ok h
    obtain ⟨-, hw⟩ := writeNodeMut_ok h1
    rw [Int.toNat_natCast] at hw
    obtain ⟨hkept, hparent, hcount⟩ := ih (hfirst.trans (Nat.le_succ first)) h
    refine ⟨(hw.kept rfl rfl fun hlt => by omega).trans hkept, hparent.trans (hw.parentOf rfl), fun k => ?_⟩
    rw [hcount k, hw.at_eq k]
    rcases Nat.lt_trichotomy k first with hlt | rfl | hlt
    · rw [if_neg (by omega), if_neg (by omega), if_neg (by omega)]
    · rw [if_neg (by omega), if_pos rfl, if_pos (by omega)]
    · rw [if_neg (show k ≠ first by omega)]
      exact if_congr (by omega) rfl rfl

theorem modifySentinel_kept {nodes nodes' : List NodeElt} {c : Nat}
    (h : modifyElement nodes 0 (fun node => { node with count := c }) = .ok nodes') :
    Kept nodes nodes' ∧ ∀ i, nodeOf nodes' i = nodeOf nodes i := by
  obtain ⟨node, hnode, rfl⟩ := modifyElement_ok h
  have hlt := (List.getElem?_eq_some_iff.1 hnode).1
  have hsame : ∀ i, nodeOf (nodes.set 0 { node with count := c }) i = nodeOf nodes i := by
    intro i
    unfold nodeOf
    rw [getD_set hlt, if_neg (Nat.zero_ne_add_one i)]
  refine ⟨⟨List.length_set, ?_, fun i => by rw [hsame], fun i => by rw [hsame], fun i _ => by rw [hsame]⟩, hsame⟩
  rw [getD_set hlt, if_pos rfl, getD_of_some hnode]

/-- The parents that `buildTree` finds are those of a whole tree. -/
theorem buildTree_merged {nodes nodes' : List NodeElt} {last : Nat} (hlast : last < startnode)
    (hleaf : ∀ i ≤ last, (nodeOf nodes i).count < 2 ^ 30) (h : buildTree nodes last = .ok nodes') :
    1 ≤ last ∧ Merging (parentOf nodes') startnode last 0 (startnode + last - 1) (startnode + last) 0 ∧
      Kept nodes nodes' := by
  unfold buildTree at h
  obtain ⟨nodes1, h1, h⟩ := bind_ok h
  obtain ⟨nodes2, h2, h⟩ := bind_ok h
  obtain ⟨nodes3, h3, h⟩ := bind_ok h
  obtain ⟨s, hs, h⟩ := bind_ok h
  cases h
  obtain ⟨-, hpos, hjoined⟩ := joinNodes_ok le_rfl h1
  rw [Int.toNat_natCast] at hjoined
  have hfirst : ((last : Int) - 1).toNat = last - 1 := by omega
  have hpos : 1 ≤ last := by omega
  rw [hfirst] at hjoined
  -- the first node is made of the two last leaves
  have hstart : Merging (fun i => if i = last then startnode else parentOf nodes i) startnode last last startnode
      startnode 1 := (Merging.start (parentOf nodes) hlast).takeLeaf (if_pos rfl) fun i hi => if_neg hi
  have hparent1 : ∀ i, parentOf nodes1 i = if i = last ∨ i = last - 1 then startnode else parentOf nodes i :=
    hjoined.parent
  have hstart2 : Merging (parentOf nodes1) startnode last (last - 1) startnode startnode 2 := by
    rw [show last = last - 1 + 1 by omega] at hstart
    rw [show last = last - 1 + 1 by omega]
    refine hstart.takeLeaf ?_ fun i hi => ?_
    · rw [hparent1, if_pos (.inr rfl)]
    · rw [hparent1]
      by_cases hi1 : i = last
      · rw [if_pos (.inl hi1), if_pos (by omega)]
      · rw [if_neg (not_or.2 ⟨hi1, hi⟩), if_neg (by omega)]
  obtain ⟨hkept2, hparent2, hcount2⟩ := fillInner_kept (Nat.le_succ startnode) h2
  obtain ⟨hkept3, hsame3⟩ := modifySentinel_kept h3
  have hparent3 : parentOf nodes3 = parentOf nodes1 := by
    rw [← hparent2]
    funext i
    exact congrArg NodeElt.parent (hsame3 i)
  have hgrowing : Growing nodes3 last (startnode + last - 1) ((last : Int) - 2) startnode (startnode + 1) := by
    refine ⟨?_, by omega, Nat.lt_succ_self _, ?_, ?_⟩
    · rw [hparent3, show ((last : Int) - 2 + 1).toNat = last - 1 by omega]
      exact hstart2.close
    · intro i hi
      rw [hsame3, hcount2, if_neg (by omega), hjoined.count i (by omega)]
      exact hleaf i hi
    · intro k hk hle
      rw [hsame3, hcount2, if_pos (by omega)]
  obtain ⟨hnb, hdone, hkept⟩ := mergeLoop_growing hlast rfl _ (Nat.lt_succ_self _) (by dsimp only; omega) hgrowing hs
  dsimp only at hnb hkept
  refine ⟨hpos, ?_, ((hjoined.kept.trans hkept2).trans hkept3).trans hkept⟩
  have hcount := hdone.merging.count
  have hlow := hdone.merging.low_le
  have hlowN := hdone.lowN_lt
  have hfirstN := hdone.merging.first_le
  have hdone' := hdone.merging
  -- all leaves and all inner nodes but the root have a parent
  rw [show s.nodeNb = startnode + last by omega] at hdone' hcount hlowN
  rw [show (s.lowS + 1).toNat = 0 by omega, show s.lowN = startnode + last - 1 by omega] at hdone'
  exact hdone'

/-! ## The depths -/

/-- The same tree with other lengths. -/
structure SameTree (nodes nodes' : List NodeElt) : Prop where
  length : nodes'.length = nodes.length
  sentinel : nodes'.getD 0 default = nodes.getD 0 default
  parent : ∀ i, parentOf nodes' i = parentOf nodes i
  byte : ∀ i, (nodeOf nodes' i).byte = (nodeOf nodes i).byte
  count : ∀ i, (nodeOf nodes' i).count = (nodeOf nodes i).count

theorem SameTree.refl (nodes : List NodeElt) : SameTree nodes nodes :=
  ⟨rfl, rfl, fun _ => rfl, fun _ => rfl, fun _ => rfl⟩

theorem SameTree.trans {nodes nodes' nodes'' : List NodeElt} (h : SameTree nodes nodes')
    (h' : SameTree nodes' nodes'') : SameTree nodes nodes'' :=
  ⟨h'.length.trans h.length, h'.sentinel.trans h.sentinel, fun i => (h'.parent i).trans (h.parent i),
    fun i => (h'.byte i).trans (h.byte i), fun i => (h'.count i).trans (h.count i)⟩

/-- Writing a length changes nothing else. -/
theorem Written.sameTree {nodes nodes' : List NodeElt} {i b : Nat}
    (h : Written nodes nodes' i { nodeOf nodes i with nbBits := b }) : SameTree nodes nodes' := by
  refine ⟨h.length, h.sentinel, fun j => congrFun (h.parentOf rfl) j, fun j => ?_, fun j => ?_⟩
  all_goals
    rw [h.at_eq j]
    split
    · rename_i hj
      rw [hj]
    · rfl

/-- The length of the code at a position. -/
def bitsOf (nodes : List NodeElt) (i : Nat) : Nat := (nodeOf nodes i).nbBits

theorem Written.bitsOf {nodes nodes' : List NodeElt} {i b : Nat}
    (h : Written nodes nodes' i { nodeOf nodes i with nbBits := b }) (j : Nat) :
    bitsOf nodes' j = if j = i then b else bitsOf nodes j := by
  unfold Huff0.bitsOf
  rw [h.at_eq j]
  split
  · rfl
  · rfl

theorem setDepth_ok {nodes nodes' : List NodeElt} {n : Nat} (h : setDepth nodes n = .ok nodes') :
    SameTree nodes nodes' ∧
      ∀ j, bitsOf nodes' j = if j = n then bitsOf nodes (parentOf nodes n) + 1 else bitsOf nodes j := by
  unfold setDepth at h
  obtain ⟨node, hnode, h⟩ := bind_ok h
  obtain ⟨parent, hparent, h⟩ := bind_ok h
  have hnode := readNode_ok (Int.natCast_nonneg n) hnode
  have hparent := readNode_ok (Int.natCast_nonneg _) hparent
  rw [Int.toNat_natCast] at hnode hparent
  rw [hnode] at hparent
  split at h
  · obtain ⟨-, hw⟩ := writeNodeMut_ok h
    rw [Int.toNat_natCast, hparent] at hw
    exact ⟨hw.sameTree, hw.bitsOf⟩
  · cases h

/-- Lengths set from the parents down stay one more than the parents have. -/
theorem foldlM_setDepth {parent : Nat → Nat} : ∀ {ks : List Nat} {nodes nodes' : List NodeElt},
    (∀ i, parentOf nodes i = parent i) → (∀ k ∈ ks, parent k ≠ k) →
    ks.Pairwise (fun a b => a ≠ b ∧ parent a ≠ b) → ks.foldlM setDepth nodes = .ok nodes' →
    SameTree nodes nodes' ∧ (∀ k ∈ ks, bitsOf nodes' k = bitsOf nodes' (parent k) + 1) ∧
      ∀ k, k ∉ ks → bitsOf nodes' k = bitsOf nodes k
  | [], nodes, nodes', _, _, _, h => by
    cases h
    exact ⟨.refl _, fun k hk => absurd hk List.not_mem_nil, fun _ _ => rfl⟩
  | k :: ks, nodes, nodes', hparent, hself, hpair, h => by
    rw [List.foldlM_cons] at h
    obtain ⟨nodes1, h1, h⟩ := bind_ok h
    obtain ⟨hsame1, hbits1⟩ := setDepth_ok h1
    rw [List.pairwise_cons] at hpair
    obtain ⟨hsame, hset, hrest⟩ := foldlM_setDepth (fun i => (hsame1.parent i).trans (hparent i))
      (fun a ha => hself a (List.mem_cons_of_mem _ ha)) hpair.2 h
    refine ⟨hsame1.trans hsame, fun a ha => ?_, fun a ha => ?_⟩
    · rcases List.mem_cons.1 ha with rfl | ha
      · rw [hrest a fun hmem => (hpair.1 a hmem).1 rfl, hrest (parent a) fun hmem => (hpair.1 _ hmem).2 rfl, hbits1,
          hbits1, if_pos rfl, if_neg (hself a List.mem_cons_self), hparent]
      · exact hset a ha
    · rw [List.mem_cons, not_or] at ha
      rw [hrest a ha.2, hbits1, if_neg ha.1]

/-- The lengths are the depths of the tree. -/
theorem setDepths_depths {nodes nodes' : List NodeElt} {last : Nat} (hpos : 1 ≤ last)
    (hmerging : Merging (parentOf nodes) startnode last 0 (startnode + last - 1) (startnode + last) 0)
    (h : setDepths nodes last = .ok nodes') :
    SameTree nodes nodes' ∧ Depths (parentOf nodes') (bitsOf nodes') startnode last (startnode + last - 1) ∧
      ∀ i, last < i → i < startnode → bitsOf nodes' i = bitsOf nodes i := by
  have hlast := hmerging.last_lt
  unfold setDepths at h
  obtain ⟨nodes1, h1, h⟩ := bind_ok h
  obtain ⟨nodes2, h2, h⟩ := bind_ok h
  obtain ⟨-, hw⟩ := writeNodeMut_ok h1
  rw [Int.toNat_natCast] at hw
  have hsame1 := hw.sameTree
  have hbits1 := hw.bitsOf
  have hmerged : Merging (parentOf nodes) startnode last 0 (startnode + last - 1) (startnode + last - 1 + 1) 0 := by
    rwa [Nat.sub_add_cancel (by omega)]
  have hinner : ∀ k, startnode ≤ k → k < startnode + last - 1 →
      k < parentOf nodes k ∧ parentOf nodes k ≤ startnode + last - 1 := by
    intro k hk hlt
    have hne := hmerged.parent_ne.2 k hk hlt
    have hbounds := hmerged.inner k hk hlt
    omega
  have hleaf : ∀ i ≤ last, startnode ≤ parentOf nodes i := fun i hi => (hmerged.leaf i (Nat.zero_le i) hi).1
  obtain ⟨hsame2, hset2, hrest2⟩ := foldlM_setDepth hsame1.parent (fun k hk => by
      rw [List.mem_reverse, List.mem_range'_1] at hk
      exact (hinner k hk.1 (by omega)).1.ne') (by
      rw [List.pairwise_reverse]
      refine (List.pairwise_lt_range' 1).imp_of_mem fun {a b} ha hb hlt => ?_
      rw [List.mem_range'_1] at ha hb
      have := (hinner b hb.1 (by omega)).1
      exact ⟨by omega, by omega⟩) h2
  obtain ⟨hsame3, hset3, hrest3⟩ := foldlM_setDepth (fun i => (hsame2.parent i).trans (hsame1.parent i)) (fun k hk => by
      rw [List.mem_range] at hk
      have := hleaf k (by omega)
      omega) (by
      refine List.pairwise_lt_range.imp_of_mem fun {a b} ha hb hlt => ?_
      rw [List.mem_range] at ha hb
      have := hleaf a (by omega)
      exact ⟨by omega, by omega⟩) h
  have hparent : parentOf nodes' = parentOf nodes :=
    funext fun i => ((hsame3.parent i).trans (hsame2.parent i)).trans (hsame1.parent i)
  have hkeep : ∀ k, startnode ≤ k → bitsOf nodes' k = bitsOf nodes2 k := by
    intro k hk
    refine hrest3 k fun hmem => ?_
    rw [List.mem_range] at hmem
    omega
  have hbits2 : ∀ k, (k < startnode ∨ startnode + last - 1 ≤ k) → bitsOf nodes2 k = bitsOf nodes1 k := by
    intro k hk
    refine hrest2 k fun hmem => ?_
    rw [List.mem_reverse, List.mem_range'_1] at hmem
    omega
  refine ⟨(hsame1.trans hsame2).trans hsame3, ⟨?_, ?_, ?_, ?_⟩, ?_⟩
  · rw [hparent]
    exact hmerged
  · rw [hkeep _ (by omega), hbits2 _ (.inr le_rfl), hbits1, if_pos rfl]
  · intro i hi
    rw [hparent]
    exact hset3 i (List.mem_range.2 (by omega))
  · intro k hk hlt
    rw [hparent, hkeep k hk, hkeep _ (by have := hinner k hk hlt; omega)]
    refine hset2 k ?_
    rw [List.mem_reverse, List.mem_range'_1]
    omega
  · intro i hi hlt
    rw [hrest3 i (by rw [List.mem_range]; omega), hbits2 i (.inl hlt), hbits1, if_neg (by omega)]

end Huff0

end Zstandard
