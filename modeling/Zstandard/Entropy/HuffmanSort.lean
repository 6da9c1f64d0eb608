/-
The symbols of a histogram in the order a Huffman tree is built from: into buckets by count, and the buckets of
more than one count sorted in place.

The order decides which symbols get the shorter codes, and so how well they do; that the codes are a complete code
needs no more than that every symbol is there once.
-/
import Zstandard.Library.Rearranged
import Zstandard.Entropy.Ctables

namespace Zstandard

open Rearrange

namespace Huff0

/-- The nodes of the workspace: leaves below, parents from here on. -/
def startnode : Nat := symbolvalueMax + 1
def ctableWorkspaceSizeU32 : Nat := 2 * symbolvalueMax + 2

/-- The buckets of the sort: one for each small count, and one for each power of two above. -/
def rankPositionTableSize : Nat := 192
def rankPositionLogBucketsBegin : Nat := 158
def rankPositionDistinctCountCutoff : Nat := rankPositionLogBucketsBegin + 7

/-- `NodeElt`: a leaf or a parent, with its count. -/
structure NodeElt where
  count : Nat
  parent : Nat
  byte : UInt8
  nbBits : Nat
deriving DecidableEq, Repr

instance : Inhabited NodeElt := ⟨⟨0, 0, 0, 0⟩⟩

/-- `RankPos`: a bucket, and how far it is filled. -/
structure RankPos where
  base : Nat
  current : Nat
deriving DecidableEq, Repr

instance : Inhabited RankPos := ⟨⟨0, 0⟩⟩

/-! ## Reading and writing -/

/-- An element of a slice; past its end the source panics. -/
def elementAt {α : Type} (slice : List α) (index : Nat) : Result α :=
  match slice[index]? with
  | some element => .ok element
  | none => .error .generic

/-- A write, which has to be inside. -/
def setElement {α : Type} (slice : List α) (index : Nat) (element : α) : Result (List α) :=
  if index < slice.length then .ok (slice.set index element) else .error .generic

/-- A write over what is there. -/
def modifyElement {α : Type} (slice : List α) (index : Nat) (f : α → α) : Result (List α) := do
  setElement slice index (f (← elementAt slice index))

/-- `slice.swap`. -/
def swapElements {α : Type} (slice : List α) (i j : Nat) : Result (List α) := do
  let a ← elementAt slice i
  let b ← elementAt slice j
  setElement (← setElement slice i b) j a

/-! ## Sorting a bucket -/

/-- The inner loop of `insertion_sort_nodes`: `key` goes below the `j` nodes from `low` that it does not out-count. -/
def insertNode (low : Nat) (key : NodeElt) : Nat → List NodeElt → Result (List NodeElt)
  | 0, nodes => setElement nodes low key
  | j + 1, nodes => do
    let node ← elementAt nodes (low + j)
    if node.count < key.count then insertNode low key j (← setElement nodes (low + j + 1) node)
    else setElement nodes (low + j + 1) key

/-- `insertion_sort_nodes` on the nodes from `low` to before `stop`, which is `high + 1` of the source. -/
def insertionSortNodes (nodes : List NodeElt) (low stop : Nat) : Result (List NodeElt) :=
  (List.range' 1 (stop - low - 1)).foldlM (fun nodes i => do
    let key ← elementAt nodes (low + i)
    insertNode low key i nodes) nodes

/-- `partition_nodes`: where the pivot, the last node before `stop`, came to stand. -/
def partitionNodes (nodes : List NodeElt) (low stop : Nat) : Result (Nat × List NodeElt) := do
  let pivot ← elementAt nodes (stop - 1)
  let (boundary, nodes) ← (List.range' low (stop - 1 - low)).foldlM (fun (boundary, nodes) j => do
    let node ← elementAt nodes j
    if node.count > pivot.count then .ok (boundary + 1, ← swapElements nodes boundary j)
    else .ok (boundary, nodes)) (low, nodes)
  .ok (boundary, ← swapElements nodes boundary (stop - 1))

/-- Short stretches are sorted by insertion. -/
def insertionSortThreshold : Nat := 8

/-- `quick_sort_nodes`. Only a call asks whether the range is short enough to insert; a range that its loop goes on
with is partitioned. -/
def quickSortNodes : Nat → (called : Bool) → (low stop : Nat) → List NodeElt → Result (List NodeElt)
  | 0, _, _, _, _ => .error .generic
  | fuel + 1, called, low, stop, nodes =>
    if called ∧ stop ≤ low + insertionSortThreshold then insertionSortNodes nodes low stop
    else if low + 1 < stop then do
      let (pivot, nodes) ← partitionNodes nodes low stop
      if pivot - low < stop - 1 - pivot then do
        let nodes ← quickSortNodes fuel true low pivot nodes
        quickSortNodes fuel false (pivot + 1) stop nodes
      else do
        let nodes ← quickSortNodes fuel true (pivot + 1) stop nodes
        quickSortNodes fuel false low pivot nodes
    else .ok nodes

/-! ## Buckets -/

/-- The bucket of a count. -/
def rankIndex (count : Nat) : Nat :=
  if count < rankPositionDistinctCountCutoff then count else highbit32 count + rankPositionLogBucketsBegin

/-- `base` of every bucket: how many symbols have a count in it, then how many out-count it. -/
def rankBases (count : List Nat) (maxSymbolValue : Nat) : Result (List RankPos) := do
  let rankPosition ← (count.take (maxSymbolValue + 1)).foldlM (fun ranks c =>
    modifyElement ranks (rankIndex c) fun rank => { rank with base := rank.base + 1 })
    (List.replicate rankPositionTableSize default)
  (List.range' 1 (rankPositionTableSize - 1)).reverse.foldlM (fun ranks n => do
    let above ← elementAt ranks n
    modifyElement ranks (n - 1) fun rank =>
      { base := rank.base + above.base, current := rank.base + above.base }) rankPosition

/-- Every symbol to the next place of its bucket. -/
def placeSymbols (count : List Nat) (maxSymbolValue : Nat) (start : List NodeElt × List RankPos) :
    Result (List NodeElt × List RankPos) :=
  (count.take (maxSymbolValue + 1)).zipIdx.foldlM (fun (nodes, ranks) (c, symbol) => do
    let rank ← elementAt ranks (rankIndex c + 1)
    let ranks ← setElement ranks (rankIndex c + 1) { rank with current := rank.current + 1 }
    let nodes ← modifyElement nodes (rank.current + 1) fun node => { node with count := c, byte := UInt8.ofNat symbol }
    .ok (nodes, ranks)) start

/-- `sort_nodes`. -/
def sortNodes (nodes : List NodeElt) (count : List Nat) (maxSymbolValue : Nat) : Result (List NodeElt) := do
  let ranks ← rankBases count maxSymbolValue
  let (nodes, ranks) ← placeSymbols count maxSymbolValue (nodes, ranks)
  -- The buckets are indexed one past the one they hold, and the last of them stays as it is.
  (List.range' rankPositionDistinctCountCutoff (rankPositionTableSize - 1 - rankPositionDistinctCountCutoff)).foldlM
    (fun nodes n => do
      let rank ← elementAt ranks n
      let bucketSize := rank.current - rank.base
      if bucketSize > 1 then do
        let bucket ← quickSortNodes (2 * bucketSize) true 0 bucketSize (nodes.drop (rank.base + 1))
        .ok (nodes.take (rank.base + 1) ++ bucket)
      else .ok nodes) nodes

/-! ## What reading and writing does -/

section
variable {α : Type} {slice slice' : List α} {index i j : Nat} {element : α}

theorem elementAt_ok : elementAt slice index = .ok element ↔ slice[index]? = some element := by
  unfold elementAt
  split
  · rename_i e he
    rw [he]
    constructor <;> rintro ⟨⟩ <;> rfl
  · rename_i hnone
    rw [hnone]
    constructor <;> rintro ⟨⟩

theorem setElement_ok (h : setElement slice index element = .ok slice') :
    index < slice.length ∧ slice' = slice.set index element := by
  unfold setElement at h
  split at h
  · rename_i hlt
    cases h
    exact ⟨hlt, rfl⟩
  · cases h

theorem modifyElement_ok {f : α → α} (h : modifyElement slice index f = .ok slice') :
    ∃ element, slice[index]? = some element ∧ slice' = slice.set index (f element) := by
  unfold modifyElement at h
  obtain ⟨element, he, h⟩ := bind_ok h
  exact ⟨element, elementAt_ok.1 he, (setElement_ok h).2⟩

theorem swapElements_rearranged {lo hi : Nat} (h : swapElements slice i j = .ok slice') (hlo : lo ≤ i ∧ lo ≤ j)
    (hhi : i < hi ∧ j < hi) : Rearranged lo hi slice slice' := by
  unfold swapElements at h
  obtain ⟨a, ha, h⟩ := bind_ok h
  obtain ⟨b, hb, h⟩ := bind_ok h
  obtain ⟨slice1, h1, h⟩ := bind_ok h
  obtain ⟨-, rfl⟩ := setElement_ok h1
  obtain ⟨-, rfl⟩ := setElement_ok h
  exact .swap (elementAt_ok.1 ha) (elementAt_ok.1 hb) hlo hhi

/-- What every round of a loop keeps, the loop keeps. -/
theorem foldlM_keeps {σ β : Type} {f : σ → β → Result σ} (keep : σ → Prop) : ∀ {l : List β} {s s' : σ}, keep s →
    (∀ s s' x, x ∈ l → keep s → f s x = .ok s' → keep s') → l.foldlM f s = .ok s' → keep s'
  | [], _, _, hs, _, h => by
    cases h
    exact hs
  | x :: l, s, s', hs, hstep, h => by
    rw [List.foldlM_cons] at h
    obtain ⟨s1, h1, h⟩ := bind_ok h
    exact foldlM_keeps keep (hstep s s1 x List.mem_cons_self hs h1)
      (fun s s' y hy => hstep s s' y (List.mem_cons_of_mem _ hy)) h

end

/-! ## Sorting moves the nodes of a range -/

section
variable {nodes nodes' : List NodeElt} {low stop : Nat}

theorem insertNode_rearranged {key : NodeElt} : ∀ (j : Nat) {nodes : List NodeElt}, low + j < nodes.length →
    insertNode low key j nodes = .ok nodes' → Rearranged low (low + j + 1) (nodes.set (low + j) key) nodes'
  | 0, nodes, _, h => by
    obtain ⟨-, rfl⟩ := setElement_ok h
    exact .refl _
  | j + 1, nodes, hlen, h => by
    unfold insertNode at h
    obtain ⟨node, hnode, h⟩ := bind_ok h
    rw [elementAt_ok] at hnode
    split at h
    · obtain ⟨shifted, hshifted, h⟩ := bind_ok h
      obtain ⟨hlt, rfl⟩ := setElement_ok hshifted
      have hrest := insertNode_rearranged j (by rw [List.length_set]; omega) h
      have hshift := Rearranged.shift (show low + j + 1 < nodes.length from hlen) hnode key
      exact (hshift.mono (Nat.le_add_right _ _) (by omega)).trans (hrest.mono le_rfl (by omega))
    · obtain ⟨-, rfl⟩ := setElement_ok h
      exact .refl _

theorem insertionSortNodes_rearranged (h : insertionSortNodes nodes low stop = .ok nodes') :
    Rearranged low stop nodes nodes' := by
  unfold insertionSortNodes at h
  refine foldlM_keeps (Rearranged low stop nodes) (.refl nodes) ?_ h
  intro s s' i hi hs hstep
  obtain ⟨key, hkey, hstep⟩ := bind_ok hstep
  rw [elementAt_ok] at hkey
  rw [List.mem_range'_1] at hi
  obtain ⟨hlt, rfl⟩ := List.getElem?_eq_some_iff.1 hkey
  have hmoved := insertNode_rearranged i hlt hstep
  rw [List.set_getElem_self] at hmoved
  exact hs.trans (hmoved.mono le_rfl (by omega))

theorem partitionNodes_rearranged {pivot : Nat} (hlow : low < stop)
    (h : partitionNodes nodes low stop = .ok (pivot, nodes')) :
    low ≤ pivot ∧ pivot < stop ∧ Rearranged low stop nodes nodes' := by
  unfold partitionNodes at h
  obtain ⟨pivotNode, -, h⟩ := bind_ok h
  obtain ⟨⟨boundary, split⟩, hfold, h⟩ := bind_ok h
  obtain ⟨swapped, hswap, h⟩ := bind_ok h
  cases h
  -- the boundary never passes the node that is looked at
  have hkeep : ∀ (n : Nat) (s : Nat × List NodeElt) (r : Nat × List NodeElt) (j : Nat), low ≤ s.1 → s.1 ≤ j →
      j + n < stop → Rearranged low stop nodes s.2 →
      (List.range' j n).foldlM (fun (s : Nat × List NodeElt) j => do
        let node ← elementAt s.2 j
        if node.count > pivotNode.count then .ok (s.1 + 1, ← swapElements s.2 s.1 j)
        else .ok (s.1, s.2) : Nat × List NodeElt → Nat → Result (Nat × List NodeElt)) s = .ok r →
      low ≤ r.1 ∧ r.1 < stop ∧ Rearranged low stop nodes r.2 := by
    intro n
    induction n with
    | zero =>
      intro s r j hlow hle hstop hs h
      cases h
      exact ⟨hlow, by omega, hs⟩
    | succ n ih =>
      intro s r j hlow hle hstop hs h
      rw [List.range'_succ, List.foldlM_cons] at h
      obtain ⟨s1, h1, h⟩ := bind_ok h
      obtain ⟨node, -, h1⟩ := bind_ok h1
      split at h1
      · obtain ⟨swapped, hswapped, h1⟩ := bind_ok h1
        cases h1
        exact ih _ r (j + 1) (Nat.le_succ_of_le hlow) (Nat.succ_le_succ hle) (by omega)
          (hs.trans (swapElements_rearranged hswapped ⟨hlow, by omega⟩ ⟨by omega, by omega⟩)) h
      · cases h1
        exact ih s r (j + 1) hlow (by omega) (by omega) hs h
  obtain ⟨hge, hlt, hmoved⟩ := hkeep _ (low, nodes) (pivot, split) low le_rfl le_rfl (by omega) (.refl nodes) hfold
  exact ⟨hge, hlt, hmoved.trans (swapElements_rearranged hswap ⟨hge, by omega⟩ ⟨hlt, by omega⟩)⟩

theorem quickSortNodes_rearranged : ∀ (fuel : Nat) {called : Bool} {low stop : Nat} {nodes nodes' : List NodeElt},
    quickSortNodes fuel called low stop nodes = .ok nodes' → Rearranged low stop nodes nodes'
  | 0, _, _, _, _, _, h => by cases h
  | fuel + 1, called, low, stop, nodes, nodes', h => by
    unfold quickSortNodes at h
    split at h
    · exact insertionSortNodes_rearranged h
    split at h
    · obtain ⟨⟨pivot, split⟩, hsplit, h⟩ := bind_ok h
      obtain ⟨hge, hlt, hmoved⟩ := partitionNodes_rearranged (by omega) hsplit
      simp only at h
      split at h <;> obtain ⟨half, hhalf, h⟩ := bind_ok h
      · exact (hmoved.trans ((quickSortNodes_rearranged fuel hhalf).mono le_rfl hlt.le)).trans
          ((quickSortNodes_rearranged fuel h).mono (by omega) le_rfl)
      · exact (hmoved.trans ((quickSortNodes_rearranged fuel hhalf).mono (by omega) le_rfl)).trans
          ((quickSortNodes_rearranged fuel h).mono le_rfl hlt.le)
    · cases h
      exact .refl nodes

end

/-! ## Buckets -/

section
variable {cs : List Nat} {ranks ranks' : List RankPos}

/-- How many of the counts fall into the bucket `m` or one above it. -/
def above (cs : List Nat) (m : Nat) : Nat := cs.countP (m ≤ rankIndex ·)

theorem above_eq (cs : List Nat) (m : Nat) : above cs m = cs.countP (rankIndex · = m) + above cs (m + 1) := by
  unfold above
  rw [← countP_or_disjoint (by simp only [decide_eq_true_eq]; intro c; omega)]
  refine List.countP_congr fun c _ => ?_
  simp only [Bool.or_eq_true, decide_eq_true_eq]
  omega

/-- Writing an element changes what is read at its position only. -/
theorem getD_set {α : Type} {l : List α} {i j : Nat} (hi : i < l.length) (x d : α) :
    (l.set i x).getD j d = if i = j then x else l.getD j d := by
  rw [List.getD_eq_getElem?_getD, List.getElem?_set, if_pos hi]
  split
  · rfl
  · rw [List.getD_eq_getElem?_getD]

theorem getD_of_some {α : Type} {l : List α} {i : Nat} {x d : α} (h : l[i]? = some x) : l.getD i d = x := by
  rw [List.getD_eq_getElem?_getD, h, Option.getD_some]

/-- Every count is counted in its bucket. -/
theorem tallyRanks : ∀ {cs : List Nat} {ranks : List RankPos}, cs.foldlM (fun ranks c =>
      modifyElement ranks (rankIndex c) fun rank => { rank with base := rank.base + 1 }) ranks = .ok ranks' →
    ranks'.length = ranks.length ∧ ∀ m, (ranks'.getD m default).base =
      (ranks.getD m default).base + cs.countP (rankIndex · = m)
  | [], _, h => by
    cases h
    exact ⟨rfl, fun _ => rfl⟩
  | c :: cs, ranks, h => by
    rw [List.foldlM_cons] at h
    obtain ⟨ranks1, h1, h⟩ := bind_ok h
    obtain ⟨rank, hrank, rfl⟩ := modifyElement_ok h1
    have hlt := (List.getElem?_eq_some_iff.1 hrank).1
    obtain ⟨hlen, hbase⟩ := tallyRanks h
    refine ⟨by rw [hlen, List.length_set], fun m => ?_⟩
    rw [hbase m, getD_set hlt, List.countP_cons]
    by_cases hm : rankIndex c = m
    · subst hm
      rw [if_pos rfl, if_pos (by simp), getD_of_some hrank]
      dsimp only
      omega
    · rw [if_neg hm, if_neg (by simpa using hm), Nat.add_zero]

/-- Counting from the top, every bucket below `n` comes to start where the ones above it end. -/
theorem sumRanks : ∀ (n : Nat) {ranks : List RankPos}, (List.range' 1 n).reverse.foldlM (fun ranks n => do
      let above ← elementAt ranks n
      modifyElement ranks (n - 1) fun rank => { base := rank.base + above.base, current := rank.base + above.base })
      ranks = .ok ranks' →
    (ranks.getD n default).base = above cs n →
    (∀ m < n, (ranks.getD m default).base = cs.countP (rankIndex · = m)) →
    ranks'.length = ranks.length ∧ (∀ m < n, (ranks'.getD m default).base = above cs m ∧
      (ranks'.getD m default).current = above cs m) ∧ ∀ m, n ≤ m → ranks'.getD m default = ranks.getD m default
  | 0, _, h, _, _ => by
    cases h
    exact ⟨rfl, fun _ hm => absurd hm (Nat.not_lt_zero _), fun _ _ => rfl⟩
  | n + 1, ranks, h, htop, hbelow => by
    rw [List.range'_concat, List.reverse_append, List.reverse_singleton, List.singleton_append, List.foldlM_cons,
      Nat.one_mul, Nat.add_comm 1 n] at h
    obtain ⟨ranks1, h1, h⟩ := bind_ok h
    obtain ⟨up, hup, h1⟩ := bind_ok h1
    rw [elementAt_ok] at hup
    obtain ⟨rank, hrank, rfl⟩ := modifyElement_ok h1
    rw [Nat.add_sub_cancel] at hrank h
    have hlt := (List.getElem?_eq_some_iff.1 hrank).1
    rw [getD_of_some hup] at htop
    have hbase := hbelow n (Nat.lt_succ_self n)
    rw [getD_of_some hrank] at hbase
    have hsum : rank.base + up.base = above cs n := by rw [hbase, htop, ← above_eq]
    obtain ⟨hlen, hrest, hkept⟩ := sumRanks n h (by rw [getD_set hlt, if_pos rfl]; exact hsum)
      fun m hm => by rw [getD_set hlt, if_neg (by omega)]; exact hbelow m (by omega)
    refine ⟨by rw [hlen, List.length_set], fun m hm => ?_, fun m hm => ?_⟩
    · rcases Nat.eq_or_lt_of_le (Nat.le_of_lt_succ hm) with rfl | hlt'
      · rw [hkept m le_rfl, getD_set hlt, if_pos rfl]
        exact ⟨hsum, hsum⟩
      · exact hrest m hlt'
    · rw [hkept m (by omega), getD_set hlt, if_neg (by omega)]

theorem rankIndex_lt {c : Nat} (h : c < 2 ^ 32) : rankIndex c + 1 < rankPositionTableSize - 1 := by
  unfold rankIndex rankPositionTableSize rankPositionDistinctCountCutoff rankPositionLogBucketsBegin
  split
  · omega
  · have := (Nat.log2_lt (by omega)).2 h
    unfold highbit32
    omega

theorem rankBases_spec {count : List Nat} {maxSymbolValue : Nat} (h : rankBases count maxSymbolValue = .ok ranks)
    (hsmall : ∀ c ∈ count, c < 2 ^ 32) : ranks.length = rankPositionTableSize ∧ ∀ m < rankPositionTableSize - 1,
      (ranks.getD m default).base = above (count.take (maxSymbolValue + 1)) m ∧
      (ranks.getD m default).current = above (count.take (maxSymbolValue + 1)) m := by
  unfold rankBases at h
  obtain ⟨tallied, htally, h⟩ := bind_ok h
  obtain ⟨hlen, hbase⟩ := tallyRanks htally
  have hzero : ∀ m, (((List.replicate rankPositionTableSize default : List RankPos)).getD m default).base = 0 := by
    intro m
    rw [List.getD_eq_getElem?_getD, List.getElem?_replicate]
    split <;> rfl
  have htop : above (count.take (maxSymbolValue + 1)) (rankPositionTableSize - 1 + 1) = 0 := by
    refine List.countP_eq_zero.2 fun c hc => ?_
    have := rankIndex_lt (hsmall c (List.mem_of_mem_take hc))
    simp only [decide_eq_true_eq]
    omega
  obtain ⟨hlen', hsums, -⟩ := sumRanks (rankPositionTableSize - 1) h
    (by rw [hbase, hzero, Nat.zero_add, above_eq, htop]; rfl) fun m _ => by rw [hbase, hzero, Nat.zero_add]
  exact ⟨by rw [hlen', hlen, List.length_replicate], hsums⟩

end

/-! ## Every symbol once -/

/-- The nodes of the symbols before `i` stand at their places. -/
structure Placed (cs : List Nat) (i : Nat) (nodes : List NodeElt) (ranks : List RankPos) : Prop where
  length : nodes.length = ctableWorkspaceSizeU32
  clean : ∀ node ∈ nodes, node.nbBits = 0
  ranksLength : ranks.length = rankPositionTableSize
  bases : ∀ m < rankPositionTableSize - 1, (ranks.getD m default).base = above cs m ∧
    (ranks.getD m default).current = above cs m + (cs.take i).countP (rankIndex · + 1 = m)
  placed : ∀ j < i, ∀ c, cs[j]? = some c → ∃ node, nodes[place rankIndex cs j c + 1]? = some node ∧
    node.count = c ∧ node.byte = UInt8.ofNat j

theorem Placed.step {cs : List Nat} {i c : Nat} {nodes nodes' : List NodeElt} {ranks : List RankPos} {rank : RankPos}
    (h : Placed cs i nodes ranks) (hsmall : ∀ c ∈ cs, c < 2 ^ 32) (hc : cs[i]? = some c)
    (hrank : ranks[rankIndex c + 1]? = some rank)
    (hset : modifyElement nodes (rank.current + 1) (fun node => { node with count := c, byte := UInt8.ofNat i }) =
      .ok nodes') :
    Placed cs (i + 1) nodes' (ranks.set (rankIndex c + 1) { rank with current := rank.current + 1 }) := by
  have hr := rankIndex_lt (hsmall c (List.mem_of_getElem? hc))
  have hrlt := (List.getElem?_eq_some_iff.1 hrank).1
  obtain ⟨hbase, hcurrent⟩ := h.bases _ hr
  rw [getD_of_some hrank] at hbase hcurrent
  have hplace : rank.current = place rankIndex cs i c := by
    rw [hcurrent]
    unfold place above
    congr 1
    exact List.countP_congr fun x _ => by simp only [decide_eq_true_eq]; omega
  obtain ⟨node, hnode, rfl⟩ := modifyElement_ok hset
  have hlt := (List.getElem?_eq_some_iff.1 hnode).1
  refine ⟨by rw [List.length_set, h.length], ?_, by rw [List.length_set, h.ranksLength], ?_, ?_⟩
  · intro x hx
    rcases List.mem_or_eq_of_mem_set hx with hx | rfl
    · exact h.clean x hx
    · exact h.clean node (List.mem_of_getElem? hnode)
  · intro m hm
    rw [getD_set hrlt, countP_take_succ _ hc]
    by_cases hrm : rankIndex c + 1 = m
    · subst hrm
      rw [if_pos rfl, if_pos (by simp)]
      exact ⟨hbase, by dsimp only; omega⟩
    · rw [if_neg hrm, if_neg (by simpa using hrm), Nat.add_zero]
      exact h.bases m hm
  · intro j hj c' hc'
    rcases Nat.eq_or_lt_of_le (Nat.le_of_lt_succ hj) with rfl | hlt'
    · obtain rfl := Option.some.inj (hc.symm.trans hc')
      rw [← hplace]
      exact ⟨_, List.getElem?_set_self hlt, rfl, rfl⟩
    · obtain ⟨node', hnode', hfields⟩ := h.placed j hlt' c' hc'
      have hne : place rankIndex cs j c' ≠ place rankIndex cs i c := place_ne hc' hc hlt'
      exact ⟨node', by rw [List.getElem?_set_ne (by omega)]; exact hnode', hfields⟩

theorem placeSymbols_placed {cs : List Nat} (hsmall : ∀ c ∈ cs, c < 2 ^ 32) : ∀ {rest : List Nat} {i : Nat}
    {s s' : List NodeElt × List RankPos}, cs.drop i = rest → Placed cs i s.1 s.2 →
    (rest.zipIdx i).foldlM (fun (s : List NodeElt × List RankPos) (c : Nat × Nat) => do
      let rank ← elementAt s.2 (rankIndex c.1 + 1)
      let ranks ← setElement s.2 (rankIndex c.1 + 1) { rank with current := rank.current + 1 }
      let nodes ← modifyElement s.1 (rank.current + 1) fun node =>
        { node with count := c.1, byte := UInt8.ofNat c.2 }
      (.ok (nodes, ranks) : Result (List NodeElt × List RankPos))) s = .ok s' → Placed cs cs.length s'.1 s'.2
  | [], i, s, s', hrest, hs, h => by
    cases h
    have hi : cs.length ≤ i := by rwa [List.drop_eq_nil_iff] at hrest
    refine ⟨hs.length, hs.clean, hs.ranksLength, fun m hm => ?_, fun j hj => hs.placed j (by omega)⟩
    have hbases := hs.bases m hm
    rw [List.take_of_length_le hi] at hbases
    rw [List.take_length]
    exact hbases
  | c :: rest, i, s, s', hrest, hs, h => by
    rw [List.zipIdx_cons, List.foldlM_cons] at h
    obtain ⟨s1, h1, h⟩ := bind_ok h
    obtain ⟨rank, hrank, h1⟩ := bind_ok h1
    obtain ⟨ranks, hranks, h1⟩ := bind_ok h1
    obtain ⟨nodes, hnodes, h1⟩ := bind_ok h1
    cases h1
    obtain ⟨-, rfl⟩ := setElement_ok hranks
    have hc : cs[i]? = some c := by
      have hhead := congrArg (·[0]?) hrest
      rwa [List.getElem?_drop, Nat.add_zero] at hhead
    exact placeSymbols_placed hsmall (by rw [← List.drop_drop, hrest]; rfl)
      (hs.step hsmall hc (elementAt_ok.1 hrank) hnodes) h

/-- The nodes `1 … n` hold the symbols before `n` and their counts, each of them once; no node has a length. -/
structure Leaves (nodes : List NodeElt) (count : List Nat) (n : Nat) : Prop where
  length : nodes.length = ctableWorkspaceSizeU32
  clean : ∀ node ∈ nodes, node.nbBits = 0
  perm : (((nodes.drop 1).take n).map fun node => (node.byte.toNat, node.count)).Perm
    ((List.range n).map fun symbol => (symbol, count.getD symbol 0))

theorem Leaves.rearrange {nodes nodes' : List NodeElt} {count : List Nat} {n : Nat} (h : Leaves nodes count n)
    (hmoved : Rearranged 1 (n + 1) nodes nodes') : Leaves nodes' count n := by
  have hsegment := hmoved.segment
  rw [Nat.add_sub_cancel] at hsegment
  exact ⟨by rw [hmoved.length_eq, h.length], fun node hnode => h.clean node (hmoved.perm.mem_iff.1 hnode),
    (hsegment.map _).trans h.perm⟩

theorem Placed.leaves {cs : List Nat} {nodes : List NodeElt} {ranks : List RankPos}
    (h : Placed cs cs.length nodes ranks) (hlen : cs.length ≤ symbolvalueMax + 1) : Leaves nodes cs cs.length := by
  have hroom : cs.length + 1 ≤ nodes.length := by
    rw [h.length]
    unfold ctableWorkspaceSizeU32 symbolvalueMax at *
    omega
  refine ⟨h.length, h.clean, ?_⟩
  refine perm_of_places _ (fun i => place rankIndex cs i (cs.getD i 0)) ?_ ?_ ?_ ?_
  · rw [List.length_map, List.length_take, List.length_drop]
    omega
  · intro i hi
    exact place_lt (by rw [List.getD_eq_getElem?_getD, List.getElem?_eq_getElem hi]; rfl)
  · intro i j hij hj
    exact place_ne (by rw [List.getD_eq_getElem?_getD, List.getElem?_eq_getElem (hij.trans hj)]; rfl)
      (by rw [List.getD_eq_getElem?_getD, List.getElem?_eq_getElem hj]; rfl) hij
  · intro i hi
    have hc : cs[i]? = some (cs.getD i 0) := by rw [List.getD_eq_getElem?_getD, List.getElem?_eq_getElem hi]; rfl
    obtain ⟨node, hnode, hcount, hbyte⟩ := h.placed i hi _ hc
    have hlt : place rankIndex cs i (cs.getD i 0) < cs.length := place_lt hc
    rw [List.getElem?_map, List.getElem?_take, if_pos hlt, List.getElem?_drop, Nat.add_comm 1, hnode, Option.map_some,
      hcount, hbyte, UInt8.toNat_ofNat_of_lt' (lt_of_lt_of_le hi hlen)]

/-- Sorting puts every symbol once among the leaves. -/
theorem sortNodes_leaves {count : List Nat} {maxSymbolValue : Nat} {nodes : List NodeElt}
    (h : sortNodes (List.replicate ctableWorkspaceSizeU32 default) count maxSymbolValue = .ok nodes)
    (hlen : maxSymbolValue < count.length) (hmax : maxSymbolValue ≤ symbolvalueMax) (hsmall : ∀ c ∈ count, c < 2 ^ 32) :
    Leaves nodes count (maxSymbolValue + 1) := by
  unfold sortNodes at h
  obtain ⟨ranks, hranks, h⟩ := bind_ok h
  obtain ⟨hranksLength, hbases⟩ := rankBases_spec hranks hsmall
  obtain ⟨⟨placedNodes, placedRanks⟩, hplaced, h⟩ := bind_ok h
  have hlength : (count.take (maxSymbolValue + 1)).length = maxSymbolValue + 1 := by
    rw [List.length_take]
    omega
  have hsmall' : ∀ c ∈ count.take (maxSymbolValue + 1), c < 2 ^ 32 := fun c hc => hsmall c (List.mem_of_mem_take hc)
  have hdone := placeSymbols_placed hsmall' (i := 0) rfl (s := (List.replicate ctableWorkspaceSizeU32 default, ranks))
    ⟨List.length_replicate, fun node hnode => by rw [List.eq_of_mem_replicate hnode]; rfl, hranksLength,
      fun m hm => by simpa using hbases m hm, fun j hj => absurd hj (Nat.not_lt_zero j)⟩ hplaced
  have hleaves := hdone.leaves (by rw [hlength]; omega)
  rw [hlength] at hleaves
  refine foldlM_keeps (Leaves · count (maxSymbolValue + 1)) ⟨hleaves.length, hleaves.clean, ?_⟩ ?_ h
  · refine hleaves.perm.trans (List.Perm.of_eq (List.map_congr_left fun symbol hsymbol => ?_))
    rw [List.getD_eq_getElem?_getD, List.getElem?_take, if_pos (List.mem_range.1 hsymbol),
      ← List.getD_eq_getElem?_getD]
  · intro s s' n hn hs hstep
    rw [List.mem_range'_1] at hn
    have hn' : n < rankPositionTableSize - 1 := by
      unfold rankPositionDistinctCountCutoff rankPositionLogBucketsBegin rankPositionTableSize at *
      omega
    obtain ⟨rank, hrank, hstep⟩ := bind_ok hstep
    rw [elementAt_ok] at hrank
    obtain ⟨hbase, hcurrent⟩ := hdone.bases n hn'
    rw [getD_of_some hrank] at hbase hcurrent
    dsimp only at hstep
    split at hstep
    · obtain ⟨bucket, hbucket, hstep⟩ := bind_ok hstep
      cases hstep
      -- a bucket ends where the next lower one starts
      have hend : rank.current ≤ maxSymbolValue + 1 := by
        obtain ⟨n, rfl⟩ : ∃ k, n = k + 1 := ⟨n - 1, by
          unfold rankPositionDistinctCountCutoff at hn
          omega⟩
        rw [List.take_length] at hcurrent
        have habove := above_eq (count.take (maxSymbolValue + 1)) n
        have hle : above (count.take (maxSymbolValue + 1)) n ≤ _ := List.countP_le_length
        have hsame : (count.take (maxSymbolValue + 1)).countP (rankIndex · + 1 = n + 1) =
            (count.take (maxSymbolValue + 1)).countP (rankIndex · = n) :=
          List.countP_congr fun c _ => by simp only [decide_eq_true_eq]; omega
        omega
      have hmoved := (quickSortNodes_rearranged _ hbucket).drop (by
        rw [hs.length]
        unfold ctableWorkspaceSizeU32 symbolvalueMax at *
        omega)
      exact hs.rearrange (hmoved.mono (by omega) (by omega))
    · cases hstep
      exact hs

end Huff0

end Zstandard
