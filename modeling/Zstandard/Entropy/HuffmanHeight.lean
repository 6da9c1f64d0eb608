/-
The code lengths of a Huffman tree brought under the limit of the format.

The leaves that are too deep are cut, which costs; leaves of another length are made longer until that is paid, and
what was paid too much the deepest leaves get back. The last leaf of every length is kept track of on the way, so that
none of this needs a search.
-/
import Zstandard.Library.LengthLimit
import Zstandard.Entropy.HuffmanTree

namespace Zstandard

open LengthLimit Finset

namespace Huff0

/-! ## The maximum height -/

/-- The array `rank_last` and `NO_SYMBOL`. -/
abbrev RankLast := List (Option Nat)

/-- Where `set_max_height` stands. -/
structure HeightLimit where
  nodes : List NodeElt
  totalCost : Int
  n : Int

/-- The leaves that are too deep, from the last one up: each is cut, and what that costs is counted in units of the
deepest leaf. -/
def cutLoop (largestBits maxNbBits : Nat) : Nat → HeightLimit → Result HeightLimit
  | 0, _ => .error .generic
  | fuel + 1, s => do
    let node ← readNode s.nodes s.n
    if node.nbBits > maxNbBits then do
      if largestBits < node.nbBits then .error .generic else
      let totalCost := s.totalCost + (2 ^ (largestBits - maxNbBits) - 2 ^ (largestBits - node.nbBits))
      if totalCost ≥ 2 ^ 31 then .error .generic else
      let nodes ← writeNodeMut s.nodes s.n fun node => { node with nbBits := maxNbBits }
      cutLoop largestBits maxNbBits fuel { nodes, totalCost, n := s.n - 1 }
    else .ok s

/-- `while n >= 0 && nb_bits(n) == max_nb_bits { n -= 1 }`. -/
def skipDeepest (maxNbBits : Nat) (nodes : List NodeElt) : Nat → Int → Result Int
  | 0, _ => .error .generic
  | fuel + 1, n =>
    if n < 0 then .ok n else do
      let node ← readNode nodes n
      if node.nbBits = maxNbBits then skipDeepest maxNbBits nodes fuel (n - 1) else .ok n

/-- The last leaf of every length below the maximum, by how far below it is; `pos + 1` leaves are left. -/
def findRankLast (maxNbBits : Nat) (nodes : List NodeElt) : Nat → Nat → RankLast → Result RankLast
  | 0, _, rankLast => .ok rankLast
  | pos + 1, currentNbBits, rankLast => do
    let node ← readNode nodes pos
    if node.nbBits < currentNbBits then do
      let rankLast ← setElement rankLast (maxNbBits - node.nbBits) (some pos)
      findRankLast maxNbBits nodes pos node.nbBits rankLast
    else findRankLast maxNbBits nodes pos currentNbBits rankLast

/-- The rank to take a leaf from: the cheaper one of a leaf of this rank and two of the rank below. -/
def cheaperRank (nodes : List NodeElt) (rankLast : RankLast) : Nat → Result Nat
  | 0 => .ok 0
  | 1 => .ok 1
  | k + 2 => do
    match ← elementAt rankLast (k + 2) with
    | none => cheaperRank nodes rankLast (k + 1)
    | some highPos =>
      match ← elementAt rankLast (k + 1) with
      | none => .ok (k + 2)
      | some lowPos => do
        let highTotal := (← elementAt nodes (highPos + 1)).count
        let low ← elementAt nodes (lowPos + 1)
        let lowTotal ← addCount low.count low.count
        if highTotal ≤ lowTotal then .ok (k + 2) else cheaperRank nodes rankLast (k + 1)

/-- `while n_bits <= TABLELOG_MAX && rank_last[n_bits] == NO_SYMBOL { n_bits += 1 }`. -/
def nonEmptyRank (rankLast : RankLast) : Nat → Nat → Result Nat
  | 0, _ => .error .generic
  | fuel + 1, nBits =>
    if nBits ≤ tablelogMax then do
      match ← elementAt rankLast nBits with
      | none => nonEmptyRank rankLast fuel (nBits + 1)
      | some _ => .ok nBits
    else .ok nBits

/-- The rank of one more bit has a leaf now. -/
def fillRankBelow (rankLast : RankLast) (nBits pos : Nat) : Result RankLast := do
  match ← elementAt rankLast (nBits - 1) with
  | none => setElement rankLast (nBits - 1) (some pos)
  | some _ => .ok rankLast

/-- The last leaf of a rank is the one before, if it is of the rank at all. -/
def dropFromRank (maxNbBits : Nat) (nodes : List NodeElt) (rankLast : RankLast) (nBits pos : Nat) : Result RankLast :=
  if pos = 0 then setElement rankLast nBits none
  else if maxNbBits < nBits then .error .generic
  else do
    let node ← elementAt nodes pos
    setElement rankLast nBits (if node.nbBits = maxNbBits - nBits then some (pos - 1) else none)

/-- The last leaf of a rank one bit longer. -/
def lengthenLeaf (maxNbBits : Nat) (nodes : List NodeElt) (rankLast : RankLast) (nBits : Nat) :
    Result (List NodeElt × RankLast) := do
  match ← elementAt rankLast nBits with
  | none => .error .generic
  | some pos => do
    let rankLast ← fillRankBelow rankLast nBits pos
    let nodes ← modifyElement nodes (pos + 1) fun node => { node with nbBits := node.nbBits + 1 }
    let rankLast ← dropFromRank maxNbBits nodes rankLast nBits pos
    .ok (nodes, rankLast)

/-- Leaves are made longer until the cost is paid. -/
def repayLoop (maxNbBits : Nat) : Nat → List NodeElt → Int → RankLast → Result (List NodeElt × Int × RankLast)
  | 0, _, _, _ => .error .generic
  | fuel + 1, nodes, totalCost, rankLast =>
    if totalCost > 0 then do
      let nBits ← cheaperRank nodes rankLast (highbit32 totalCost.toNat + 1)
      let nBits ← nonEmptyRank rankLast (tablelogMax + 2) nBits
      let (nodes, rankLast) ← lengthenLeaf maxNbBits nodes rankLast nBits
      repayLoop maxNbBits fuel nodes (totalCost - 2 ^ (nBits - 1)) rankLast
    else .ok (nodes, totalCost, rankLast)

/-- One of the deepest leaves one bit shorter. -/
def shortenNode (nodes : List NodeElt) (index : Nat) : Result (List NodeElt) := do
  if (← elementAt nodes index).nbBits = 0 then .error .generic
  else modifyElement nodes index fun node => { node with nbBits := node.nbBits - 1 }

/-- What was paid too much is given back. -/
def giveBackLoop (maxNbBits : Nat) : Nat → List NodeElt → Int → Int → Option Nat → Result (List NodeElt)
  | 0, _, _, _, _ => .error .generic
  | fuel + 1, nodes, totalCost, n, rankLast1 =>
    if totalCost < 0 then
      match rankLast1 with
      | none => do
        let n ← skipDeepest maxNbBits nodes (n.toNat + 2) n
        if n < 0 then .error .generic else
        let nodes ← shortenNode nodes (n.toNat + 2)
        giveBackLoop maxNbBits fuel nodes (totalCost + 1) n (some (n.toNat + 1))
      | some last => do
        let nodes ← shortenNode nodes (last + 2)
        giveBackLoop maxNbBits fuel nodes (totalCost + 1) n (some (last + 1))
    else .ok nodes

/-- `set_max_height`. -/
def setMaxHeight (nodes : List NodeElt) (lastNonNull maxNbBits : Nat) : Result (List NodeElt × Nat) := do
  let largestBits := (← elementAt nodes (lastNonNull + 1)).nbBits
  if largestBits ≤ maxNbBits then .ok (nodes, largestBits) else
  if largestBits - maxNbBits ≥ 31 then .error .generic else
  let s ← cutLoop largestBits maxNbBits (lastNonNull + 2) { nodes, totalCost := 0, n := lastNonNull }
  let n ← skipDeepest maxNbBits s.nodes (lastNonNull + 2) s.n
  let totalCost := s.totalCost >>> (largestBits - maxNbBits)
  let rankLast ← findRankLast maxNbBits s.nodes (n + 1).toNat maxNbBits (List.replicate (tablelogMax + 2) none)
  let (nodes, totalCost, rankLast) ← repayLoop maxNbBits (totalCost.toNat + 1) s.nodes totalCost rankLast
  let nodes ← giveBackLoop maxNbBits (totalCost.natAbs + 1) nodes totalCost n (← elementAt rankLast 1)
  .ok (nodes, maxNbBits)

/-! ## Under the limit -/

/-- Other lengths of the leaves, and nothing else. -/
structure Leveled (nodes nodes' : List NodeElt) (last : Nat) : Prop where
  same : SameTree nodes nodes'
  past : ∀ i, last < i → bitsOf nodes' i = bitsOf nodes i

theorem Leveled.refl (nodes : List NodeElt) (last : Nat) : Leveled nodes nodes last := ⟨.refl _, fun _ _ => rfl⟩

theorem Leveled.trans {nodes nodes' nodes'' : List NodeElt} {last : Nat} (h : Leveled nodes nodes' last)
    (h' : Leveled nodes' nodes'' last) : Leveled nodes nodes'' last :=
  ⟨h.same.trans h'.same, fun i hi => (h'.past i hi).trans (h.past i hi)⟩

/-- One leaf gets another length. -/
theorem Written.leveled {nodes nodes' : List NodeElt} {i b last : Nat} (hi : i ≤ last)
    (h : Written nodes nodes' i { nodeOf nodes i with nbBits := b }) : Leveled nodes nodes' last := by
  refine ⟨h.sameTree, fun j hj => ?_⟩
  rw [h.bitsOf, if_neg (by omega)]

/-- The leaves past `n` are cut to the limit, and the cost counted. -/
structure CutTo (nodes : List NodeElt) (last largestBits maxNbBits : Nat) (s : HeightLimit) : Prop where
  same : SameTree nodes s.nodes
  n_ge : -1 ≤ s.n
  n_le : s.n ≤ last
  bits : ∀ i : Nat, bitsOf s.nodes i = if s.n < i ∧ i ≤ last then maxNbBits else bitsOf nodes i
  deep : ∀ i : Nat, s.n < i → i ≤ last → maxNbBits < bitsOf nodes i
  cost : s.totalCost = ∑ i ∈ range (last + 1),
    if s.n < i then (2 ^ (largestBits - maxNbBits) - 2 ^ (largestBits - bitsOf nodes i) : Int) else 0

theorem CutTo.start (nodes : List NodeElt) (last largestBits maxNbBits : Nat) :
    CutTo nodes last largestBits maxNbBits { nodes, totalCost := 0, n := last } where
  same := .refl _
  n_ge := by dsimp only; omega
  n_le := le_rfl
  bits := fun i => by rw [if_neg (by dsimp only; omega)]
  deep := fun i hi hle => by dsimp only at hi; omega
  cost := by
    refine (sum_eq_zero fun i hi => ?_).symm
    have := mem_range.1 hi
    rw [if_neg (by dsimp only; omega)]

theorem cutLoop_cut {nodes : List NodeElt} {last largestBits maxNbBits : Nat}
    (hsentinel : (nodes.getD 0 default).nbBits = 0) : ∀ (fuel : Nat) {s s' : HeightLimit},
    CutTo nodes last largestBits maxNbBits s → cutLoop largestBits maxNbBits fuel s = .ok s' →
    CutTo nodes last largestBits maxNbBits s' ∧ (0 ≤ s'.n → bitsOf nodes s'.n.toNat ≤ maxNbBits)
  | 0, _, _, _, h => by cases h
  | fuel + 1, s, s', hs, h => by
    unfold cutLoop at h
    obtain ⟨node, hnode, h⟩ := bind_ok h
    have hbits : 0 ≤ s.n → node.nbBits = bitsOf nodes s.n.toNat := by
      intro hn
      have hat := hs.bits s.n.toNat
      rw [if_neg (by omega)] at hat
      rw [← hat, readNode_ok hn hnode]
      rfl
    have hn_le := hs.n_le
    split at h
    · rename_i hdeep
      have hn : 0 ≤ s.n := by
        by_contra hneg
        rw [readNode_sentinel (by omega) hnode, hs.same.sentinel, hsentinel] at hdeep
        omega
      obtain ⟨n, hsn⟩ := Int.eq_ofNat_of_zero_le hn
      rw [hbits hn, hsn, Int.toNat_natCast] at hdeep h
      split at h
      · cases h
      dsimp only at h
      split at h
      · cases h
      obtain ⟨nodes1, h1, h⟩ := bind_ok h
      obtain ⟨-, hw⟩ := writeNodeMut_ok h1
      rw [Int.toNat_natCast] at hw
      refine cutLoop_cut hsentinel fuel ⟨hs.same.trans hw.sameTree, ?_, ?_, ?_, ?_, ?_⟩ h
      · dsimp only
        omega
      · dsimp only
        omega
      · intro i
        rw [hw.bitsOf, hs.bits]
        dsimp only
        by_cases hi : i = n
        · rw [if_pos hi, if_pos (by omega)]
        · rw [if_neg hi]
          exact if_congr (by omega) rfl rfl
      · intro i hi hle
        dsimp only at hi
        by_cases hin : i = n
        · rw [hin]
          exact hdeep
        · exact hs.deep i (by omega) hle
      · dsimp only
        have hn : (∑ i ∈ range (last + 1), if i = n then
            (2 ^ (largestBits - maxNbBits) - 2 ^ (largestBits - bitsOf nodes i) : Int) else 0) =
            2 ^ (largestBits - maxNbBits) - 2 ^ (largestBits - bitsOf nodes n) := by
          rw [sum_ite_eq' (range (last + 1)) n, if_pos (mem_range.2 (by omega))]
        rw [hs.cost, ← hn, ← sum_add_distrib]
        refine sum_congr rfl fun i _ => ?_
        rcases lt_trichotomy i n with hlt | rfl | hlt
        · rw [if_neg (by omega), if_neg (by omega), if_neg (by omega), add_zero]
        · rw [if_neg (by omega), if_pos rfl, if_pos (by omega), zero_add]
        · rw [if_pos (by omega), if_neg (by omega), if_pos (by omega), add_zero]
    · rename_i hle
      cases h
      exact ⟨hs, fun hn => by rw [← hbits hn]; omega⟩

theorem skipDeepest_ok {maxNbBits : Nat} {nodes : List NodeElt} : ∀ (fuel : Nat) {n n' : Int}, -1 ≤ n →
    skipDeepest maxNbBits nodes fuel n = .ok n' →
    -1 ≤ n' ∧ n' ≤ n ∧ (∀ i : Nat, n' < i → i ≤ n → bitsOf nodes i = maxNbBits) ∧
      (0 ≤ n' → bitsOf nodes n'.toNat ≠ maxNbBits)
  | 0, _, _, _, h => by cases h
  | fuel + 1, n, n', hn, h => by
    unfold skipDeepest at h
    split at h
    · cases h
      exact ⟨hn, le_rfl, fun i hi hle => by omega, fun hpos => by omega⟩
    · obtain ⟨node, hnode, h⟩ := bind_ok h
      have hnode := readNode_ok (by omega) hnode
      split at h
      · rename_i hbits
        obtain ⟨hge, hle, hdeep, hstop⟩ := skipDeepest_ok fuel (by omega) h
        refine ⟨hge, by omega, fun i hi hin => ?_, hstop⟩
        by_cases hi' : (i : Int) = n
        · rw [show i = n.toNat by omega, ← hbits, hnode]
          rfl
        · exact hdeep i hi (by omega)
      · rename_i hbits
        cases h
        refine ⟨hn, le_rfl, fun i hi hle => by omega, fun _ => ?_⟩
        rw [hnode] at hbits
        exact hbits

/-- The last leaf of every length below the limit, by how far below it is. -/
structure LastOfRank (len : Nat → Nat) (last max : Nat) (rankLast : RankLast) : Prop where
  length : rankLast.length = tablelogMax + 2
  found : ∀ k p, 1 ≤ k → rankLast[k]? = some (some p) → p ≤ last ∧ len p + k = max ∧ ∀ i, p < i →
    i ≤ last → len p < len i
  missing : ∀ k, 1 ≤ k → rankLast[k]? = some none → ∀ i ≤ last, len i + k ≠ max

theorem setElement_getElem {α : Type} {slice slice' : List α} {index : Nat} {element : α}
    (h : setElement slice index element = .ok slice') (j : Nat) :
    slice'[j]? = if j = index then some element else slice[j]? := by
  obtain ⟨hlt, rfl⟩ := setElement_ok h
  rw [List.getElem?_set]
  by_cases hj : j = index
  · rw [if_pos hj.symm, if_pos hj, if_pos hlt]
  · rw [if_neg (Ne.symm hj), if_neg hj]

/-- What the search for them has found among the leaves from `pos` on, the shortest of which is `current` bits long. -/
structure RankScan (len : Nat → Nat) (last max pos current : Nat) (rankLast : RankLast) : Prop where
  length : rankLast.length = tablelogMax + 2
  found : ∀ k p, 1 ≤ k → rankLast[k]? = some (some p) → pos ≤ p ∧ p ≤ last ∧ len p + k = max ∧
    ∀ i, p < i → i ≤ last → len p < len i
  missing : ∀ k, 1 ≤ k → rankLast[k]? = some none → ∀ i, pos ≤ i → i ≤ last → len i + k ≠ max
  current_le : ∀ i, pos ≤ i → i ≤ last → current ≤ len i
  current_eq : current = max ∨ ∃ i, pos ≤ i ∧ i ≤ last ∧ len i = current

theorem findRankLast_ok {maxNbBits last : Nat} {nodes : List NodeElt}
    (hmono : ∀ i j, i ≤ j → j ≤ last → bitsOf nodes i ≤ bitsOf nodes j) : ∀ (pos : Nat) {current : Nat}
    {rankLast rankLast' : RankLast}, pos ≤ last + 1 → current ≤ maxNbBits →
    RankScan (bitsOf nodes) last maxNbBits pos current rankLast →
    findRankLast maxNbBits nodes pos current rankLast = .ok rankLast' →
    LastOfRank (bitsOf nodes) last maxNbBits rankLast'
  | 0, _, _, _, _, _, hs, h => by
    cases h
    exact ⟨hs.length, fun k p hk hp => (hs.found k p hk hp).2, fun k hk hnone i hi =>
      hs.missing k hk hnone i (Nat.zero_le i) hi⟩
  | pos + 1, current, rankLast, rankLast', hpos, hcurrent, hs, h => by
    unfold findRankLast at h
    obtain ⟨node, hnode, h⟩ := bind_ok h
    have hnode := readNode_ok (Int.natCast_nonneg pos) hnode
    rw [Int.toNat_natCast] at hnode
    have hbits : node.nbBits = bitsOf nodes pos := by rw [hnode]; rfl
    rw [hbits] at h
    split at h
    · rename_i hlt
      obtain ⟨rankLast1, h1, h⟩ := bind_ok h
      have hget := setElement_getElem h1
      refine findRankLast_ok hmono pos (by omega) (by omega) ⟨?_, ?_, ?_, ?_, ?_⟩ h
      · rw [(setElement_ok h1).2, List.length_set, hs.length]
      · intro k p hk hp
        rw [hget] at hp
        split at hp
        · cases hp
          refine ⟨le_rfl, by omega, by omega, fun i hi hle => ?_⟩
          have := hs.current_le i hi hle
          omega
        · obtain ⟨hge, hrest⟩ := hs.found k p hk hp
          exact ⟨by omega, hrest⟩
      · intro k hk hnone i hi hle
        rw [hget] at hnone
        split at hnone
        · cases hnone
        · rcases Nat.eq_or_lt_of_le hi with rfl | hi
          · omega
          · exact hs.missing k hk hnone i hi hle
      · intro i hi hle
        rcases Nat.eq_or_lt_of_le hi with rfl | hi
        · exact le_rfl
        · have := hs.current_le i hi hle
          omega
      · exact .inr ⟨pos, le_rfl, by omega, rfl⟩
    · rename_i hge
      -- as long as the leaf after it, or as long as a leaf may be
      have hsame : maxNbBits ≤ bitsOf nodes pos ∨ ∃ i, pos + 1 ≤ i ∧ i ≤ last ∧ bitsOf nodes i = bitsOf nodes pos := by
        rcases hs.current_eq with heq | ⟨i, hi, hle, heq⟩
        · exact .inl (by omega)
        · have := hmono pos i (by omega) hle
          exact .inr ⟨i, hi, hle, by omega⟩
      refine findRankLast_ok hmono pos (by omega) hcurrent ⟨hs.length, ?_, ?_, ?_, ?_⟩ h
      · intro k p hk hp
        obtain ⟨hge, hrest⟩ := hs.found k p hk hp
        exact ⟨by omega, hrest⟩
      · intro k hk hnone i hi hle
        rcases Nat.eq_or_lt_of_le hi with rfl | hi
        · rcases hsame with hmax | ⟨j, hj, hjle, heq⟩
          · omega
          · rw [← heq]
            exact hs.missing k hk hnone j hj hjle
        · exact hs.missing k hk hnone i hi hle
      · intro i hi hle
        rcases Nat.eq_or_lt_of_le hi with rfl | hi
        · omega
        · exact hs.current_le i hi hle
      · rcases hs.current_eq with heq | ⟨i, hi, hle, heq⟩
        · exact .inl heq
        · exact .inr ⟨i, by omega, hle, heq⟩

theorem cheaperRank_ok {nodes : List NodeElt} {rankLast : RankLast} : ∀ {start r : Nat}, 1 ≤ start →
    cheaperRank nodes rankLast start = .ok r →
    1 ≤ r ∧ r ≤ start ∧ (r = 1 ∨ ∃ p, rankLast[r]? = some (some p))
  | 0, _, hstart, _ => by omega
  | 1, r, _, h => by
    cases h
    exact ⟨le_rfl, le_rfl, .inl rfl⟩
  | k + 2, r, _, h => by
    unfold cheaperRank at h
    obtain ⟨high, hhigh, h⟩ := bind_ok h
    rw [elementAt_ok] at hhigh
    have hlower : cheaperRank nodes rankLast (k + 1) = .ok r → 1 ≤ r ∧ r ≤ k + 2 ∧
        (r = 1 ∨ ∃ p, rankLast[r]? = some (some p)) := by
      intro h
      obtain ⟨hpos, hle, hrank⟩ := cheaperRank_ok (Nat.succ_pos k) h
      exact ⟨hpos, by omega, hrank⟩
    cases high with
    | none => exact hlower h
    | some highPos =>
      obtain ⟨low, -, h⟩ := bind_ok h
      have hhere : (k + 2 = r) → 1 ≤ r ∧ r ≤ k + 2 ∧ (r = 1 ∨ ∃ p, rankLast[r]? = some (some p)) := by
        rintro rfl
        exact ⟨Nat.succ_pos _, le_rfl, .inr ⟨highPos, hhigh⟩⟩
      cases low with
      | none => exact hhere (Except.ok.inj h)
      | some lowPos =>
        dsimp only at h
        obtain ⟨highNode, -, h⟩ := bind_ok h
        obtain ⟨lowNode, -, h⟩ := bind_ok h
        obtain ⟨lowTotal, -, h⟩ := bind_ok h
        split at h
        · exact hhere (Except.ok.inj h)
        · exact hlower h

theorem nonEmptyRank_ok {rankLast : RankLast} : ∀ (fuel : Nat) {nBits r : Nat},
    nonEmptyRank rankLast fuel nBits = .ok r → nBits ≤ r ∧ ∀ j, nBits ≤ j → j < r → rankLast[j]? = some none
  | 0, _, _, h => by cases h
  | fuel + 1, nBits, r, h => by
    unfold nonEmptyRank at h
    split at h
    · obtain ⟨found, hfound, h⟩ := bind_ok h
      rw [elementAt_ok] at hfound
      cases found with
      | none =>
        obtain ⟨hle, hnone⟩ := nonEmptyRank_ok fuel h
        refine ⟨by omega, fun j hj hlt => ?_⟩
        rcases Nat.eq_or_lt_of_le hj with rfl | hj
        · exact hfound
        · exact hnone j hj hlt
      | some _ =>
        cases h
        exact ⟨le_rfl, fun j hj hlt => by omega⟩
    · cases h
      exact ⟨le_rfl, fun j hj hlt => by omega⟩

theorem fillRankBelow_ok {rankLast rankLast' : RankLast} {nBits pos : Nat}
    (h : fillRankBelow rankLast nBits pos = .ok rankLast') :
    rankLast'.length = rankLast.length ∧ ∀ k, rankLast'[k]? =
      if k = nBits - 1 ∧ rankLast[k]? = some none then some (some pos) else rankLast[k]? := by
  unfold fillRankBelow at h
  obtain ⟨below, hbelow, h⟩ := bind_ok h
  rw [elementAt_ok] at hbelow
  cases below with
  | none =>
    have hget := setElement_getElem h
    refine ⟨by rw [(setElement_ok h).2, List.length_set], fun k => ?_⟩
    rw [hget]
    by_cases hk : k = nBits - 1
    · rw [if_pos hk, if_pos ⟨hk, hk ▸ hbelow⟩]
    · rw [if_neg hk, if_neg fun hand => hk hand.1]
  | some _ =>
    cases h
    refine ⟨rfl, fun k => (if_neg ?_).symm⟩
    rintro ⟨rfl, hnone⟩
    rw [hbelow] at hnone
    cases hnone

theorem dropFromRank_ok {nodes : List NodeElt} {maxNbBits nBits pos : Nat} {rankLast rankLast' : RankLast}
    (h : dropFromRank maxNbBits nodes rankLast nBits pos = .ok rankLast') :
    ∃ next, rankLast'.length = rankLast.length ∧
      (∀ k, rankLast'[k]? = if k = nBits then some next else rankLast[k]?) ∧
      (next = none ∧ (pos = 0 ∨ bitsOf nodes (pos - 1) + nBits ≠ maxNbBits) ∨
        0 < pos ∧ next = some (pos - 1) ∧ bitsOf nodes (pos - 1) + nBits = maxNbBits) := by
  unfold dropFromRank at h
  split at h
  · rename_i hpos
    exact ⟨none, by rw [(setElement_ok h).2, List.length_set], setElement_getElem h, .inl ⟨rfl, .inl hpos⟩⟩
  · rename_i hpos
    split at h
    · cases h
    · obtain ⟨node, hnode, h⟩ := bind_ok h
      rw [elementAt_ok] at hnode
      have hbits : bitsOf nodes (pos - 1) = node.nbBits := by
        unfold bitsOf nodeOf
        rw [Nat.sub_add_cancel (by omega), getD_of_some hnode]
      refine ⟨_, by rw [(setElement_ok h).2, List.length_set], setElement_getElem h, ?_⟩
      split
      · exact .inr ⟨by omega, rfl, by omega⟩
      · exact .inl ⟨rfl, .inr (by omega)⟩

/-- A leaf made longer: the last one of its length, and the ranks are found again without a search. -/
theorem lengthenLeaf_ok {nodes nodes' : List NodeElt} {last maxNbBits nBits : Nat} {rankLast rankLast' : RankLast}
    (hmono : ∀ i j, i ≤ j → j ≤ last → bitsOf nodes i ≤ bitsOf nodes j) (hnBits : 1 ≤ nBits)
    (hrank : LastOfRank (bitsOf nodes) last maxNbBits rankLast)
    (h : lengthenLeaf maxNbBits nodes rankLast nBits = .ok (nodes', rankLast')) :
    ∃ p, p ≤ last ∧ bitsOf nodes p + nBits = maxNbBits ∧ (∀ i, p < i → i ≤ last → bitsOf nodes p < bitsOf nodes i) ∧
      Leveled nodes nodes' last ∧ (∀ i, bitsOf nodes' i = if i = p then bitsOf nodes p + 1 else bitsOf nodes i) ∧
      LastOfRank (bitsOf nodes') last maxNbBits rankLast' := by
  unfold lengthenLeaf at h
  obtain ⟨found, hfound, h⟩ := bind_ok h
  rw [elementAt_ok] at hfound
  cases found with
  | none => cases h
  | some p =>
    obtain ⟨rankLast1, h1, h⟩ := bind_ok h
    obtain ⟨nodes1, hnodes, h⟩ := bind_ok h
    obtain ⟨rankLast2, h2, h⟩ := bind_ok h
    cases h
    have hw := modifyNode_written hnodes
    obtain ⟨hp, hlen, hlast⟩ := hrank.found nBits p hnBits hfound
    have hbits : ∀ i, bitsOf nodes' i = if i = p then bitsOf nodes p + 1 else bitsOf nodes i := hw.bitsOf
    obtain ⟨hlength1, hget1⟩ := fillRankBelow_ok h1
    obtain ⟨next, hlength2, hget2, hnext⟩ := dropFromRank_ok h2
    have hat : bitsOf nodes' p = bitsOf nodes p + 1 := by rw [hbits, if_pos rfl]
    have hne : ∀ i, i ≠ p → bitsOf nodes' i = bitsOf nodes i := fun i hi => by rw [hbits, if_neg hi]
    have hge : ∀ i, bitsOf nodes i ≤ bitsOf nodes' i := by
      intro i
      by_cases hi : i = p
      · rw [hi, hat]
        exact Nat.le_succ _
      · exact (hne i hi).ge
    refine ⟨p, hp, hlen, hlast, hw.leveled hp, hbits, ⟨by rw [hlength2, hlength1, hrank.length], ?_, ?_⟩⟩
    · intro k q hk hq
      rw [hget2] at hq
      split at hq
      · -- the leaf before it is the last of the rank now
        rename_i hkn
        rcases hnext with ⟨rfl, -⟩ | ⟨hpos, rfl, hprev⟩
        · cases hq
        cases hq
        refine ⟨by omega, by omega, fun i hi hle => ?_⟩
        rcases Nat.eq_or_lt_of_le (show p ≤ i by omega) with rfl | hlt
        · omega
        · have h1 := hlast i hlt hle
          have h2 := hge i
          omega
      · rename_i hkn
        rw [hget1] at hq
        split at hq
        · -- the leaf made longer is the last of its new rank, which had none
          rename_i hempty
          cases hq
          refine ⟨hp, by omega, fun i hi hle => ?_⟩
          have h1 := hlast i hi hle
          have h2 := hrank.missing k hk hempty.2 i hle
          rw [hat, hne i (by omega)]
          omega
        · obtain ⟨hqlast, hqlen, hqmax⟩ := hrank.found k q hk hq
          have hqp : q ≠ p := by
            rintro rfl
            omega
          rw [hne q hqp]
          exact ⟨hqlast, hqlen, fun i hi hle => lt_of_lt_of_le (hqmax i hi hle) (hge i)⟩
    · intro k hk hnone i hi
      rw [hget2] at hnone
      split at hnone
      · rename_i hkn
        rcases hnext with ⟨-, hprev⟩ | ⟨-, rfl, -⟩
        · rcases lt_trichotomy i p with hlt | rfl | hlt
          · have h1 := hmono i (p - 1) (by omega) (by omega)
            have h2 := hmono (p - 1) p (by omega) hp
            rw [hne (p - 1) (by omega)] at hprev
            rw [hne i (by omega)]
            omega
          · omega
          · have h1 := hlast i hlt hi
            have h2 := hge i
            omega
        · cases hnone
      · rw [hget1] at hnone
        split at hnone
        · cases hnone
        · rename_i hempty
          by_cases hip : i = p
          · rw [hip, hat]
            intro heq
            exact hempty ⟨by omega, hnone⟩
          · rw [hne i hip]
            exact hrank.missing k hk hnone i hi

/-- The rank a leaf is taken from: more than is owed is paid only where no leaf is nearer to the limit. -/
theorem repayRank_ok {nodes : List NodeElt} {last maxNbBits r nBits fuel : Nat} {rankLast : RankLast} {cost : Int}
    (hcost : 0 < cost) (hle : ∀ i ≤ last, bitsOf nodes i ≤ maxNbBits)
    (hrank : LastOfRank (bitsOf nodes) last maxNbBits rankLast)
    (h1 : cheaperRank nodes rankLast (highbit32 cost.toNat + 1) = .ok r)
    (h2 : nonEmptyRank rankLast fuel r = .ok nBits) :
    1 ≤ nBits ∧ (cost < 2 ^ (nBits - 1) → ∀ i ≤ last, bitsOf nodes i = maxNbBits ∨
      bitsOf nodes i + nBits ≤ maxNbBits) := by
  obtain ⟨hpos, hstart, hr⟩ := cheaperRank_ok (Nat.succ_pos _) h1
  obtain ⟨hge, hempty⟩ := nonEmptyRank_ok fuel h2
  refine ⟨by omega, fun hover i hi => ?_⟩
  have hhigh : 2 ^ highbit32 cost.toNat ≤ cost.toNat := Nat.log2_self_le (by omega)
  have hlt : highbit32 cost.toNat < nBits - 1 := by
    refine (Nat.pow_lt_pow_iff_right (show 1 < 2 by omega)).1 (lt_of_le_of_lt hhigh ?_)
    have hcast : (cost.toNat : Int) < (2 ^ (nBits - 1) : Nat) := by
      rw [Int.toNat_of_nonneg hcost.le]
      exact_mod_cast hover
    exact_mod_cast hcast
  -- the search went up from the lowest rank
  have hone : r = 1 := by
    rcases hr with hr | ⟨p, hp⟩
    · exact hr
    · have := hempty r le_rfl (by omega)
      rw [hp] at this
      cases this
  have hbits := hle i hi
  by_contra hnot
  rw [not_or] at hnot
  exact hrank.missing (maxNbBits - bitsOf nodes i) (by omega) (hempty _ (by omega) (by omega)) i hi (by omega)

theorem repayLoop_ok {last maxNbBits : Nat} : ∀ (fuel : Nat) {nodes nodes' : List NodeElt} {cost cost' : Int}
    {rankLast rankLast' : RankLast}, Limited (bitsOf nodes) last maxNbBits cost →
    LastOfRank (bitsOf nodes) last maxNbBits rankLast →
    repayLoop maxNbBits fuel nodes cost rankLast = .ok (nodes', cost', rankLast') →
    Leveled nodes nodes' last ∧ Limited (bitsOf nodes') last maxNbBits cost' ∧ cost' ≤ 0 ∧
      LastOfRank (bitsOf nodes') last maxNbBits rankLast' ∧
      ∀ i, bitsOf nodes i = maxNbBits → bitsOf nodes' i = maxNbBits
  | 0, _, _, _, _, _, _, _, _, h => by cases h
  | fuel + 1, nodes, nodes', cost, cost', rankLast, rankLast', hlimited, hrank, h => by
    unfold repayLoop at h
    split at h
    · rename_i hcost
      obtain ⟨r, h1, h⟩ := bind_ok h
      obtain ⟨nBits, h2, h⟩ := bind_ok h
      obtain ⟨⟨nodes1, rankLast1⟩, h3, h⟩ := bind_ok h
      obtain ⟨hnBits, hempty⟩ := repayRank_ok hcost hlimited.le hrank h1 h2
      obtain ⟨p, hp, hlen, hlast, hleveled, hbits, hrank1⟩ := lengthenLeaf_ok hlimited.mono hnBits hrank h3
      have hlimited1 : Limited (bitsOf nodes1) last maxNbBits _ := hlimited.lengthen hcost hp hnBits hlen hlast hempty
        (by rw [hbits, if_pos rfl]) fun i hi => by rw [hbits, if_neg hi]
      obtain ⟨hleveled', hlimited', hle, hrank', hdeep⟩ := repayLoop_ok fuel hlimited1 hrank1 h
      refine ⟨hleveled.trans hleveled', hlimited', hle, hrank', fun i hi => hdeep i ?_⟩
      rw [hbits, if_neg ?_, hi]
      rintro rfl
      omega
    · rename_i hcost
      cases h
      exact ⟨.refl _ _, hlimited, by omega, hrank, fun _ hi => hi⟩

theorem shortenNode_ok {nodes nodes' : List NodeElt} {i : Nat} (h : shortenNode nodes (i + 1) = .ok nodes') :
    0 < bitsOf nodes i ∧ Written nodes nodes' i { nodeOf nodes i with nbBits := bitsOf nodes i - 1 } := by
  unfold shortenNode at h
  obtain ⟨node, hnode, h⟩ := bind_ok h
  rw [elementAt_ok] at hnode
  have hbits : bitsOf nodes i = node.nbBits := congrArg NodeElt.nbBits (getD_of_some hnode)
  split at h
  · cases h
  · exact ⟨by omega, modifyNode_written h⟩

/-- Where the leaves of the limit's length start: behind the last one that is a bit shorter, if that one is known. -/
structure GivingBack (len : Nat → Nat) (last max : Nat) (n : Int) (rankLast1 : Option Nat) : Prop where
  n_ge : -1 ≤ n
  n_le : n ≤ last
  found : ∀ p, rankLast1 = some p → p ≤ last ∧ len p + 1 = max ∧ ∀ i, p < i → i ≤ last → len p < len i
  missing : rankLast1 = none → ∀ i : Nat, n < i → i ≤ last → len i = max

theorem shortenFirst_ok {nodes nodes1 : List NodeElt} {last maxNbBits q : Nat} {cost n : Int}
    (hlimited : Limited (bitsOf nodes) last maxNbBits cost) (hcost : cost < 0) (hn : -1 ≤ n ∧ n ≤ last) (hq : q ≤ last)
    (hlen : bitsOf nodes q = maxNbBits) (hfirst : ∀ i < q, bitsOf nodes i < maxNbBits)
    (h : shortenNode nodes (q + 1) = .ok nodes1) :
    Leveled nodes nodes1 last ∧ Limited (bitsOf nodes1) last maxNbBits (cost + 1) ∧
      GivingBack (bitsOf nodes1) last maxNbBits n (some q) := by
  obtain ⟨hpos, hw⟩ := shortenNode_ok h
  have hbits := hw.bitsOf
  have hat : bitsOf nodes1 q + 1 = bitsOf nodes q := by
    rw [hbits, if_pos rfl]
    omega
  have hother : ∀ i, i ≠ q → bitsOf nodes1 i = bitsOf nodes i := fun i hi => by rw [hbits, if_neg hi]
  refine ⟨hw.leveled hq, hlimited.shorten hcost hq hlen hfirst hat hother, hn.1, hn.2, ?_, ?_⟩
  · rintro p hp
    cases hp
    refine ⟨hq, by omega, fun i hi hle => ?_⟩
    have := hlimited.mono q i hi.le hle
    rw [hother i (by omega)]
    omega
  · intro hnone
    cases hnone

theorem giveBackLoop_ok {last maxNbBits : Nat} : ∀ (fuel : Nat) {nodes nodes' : List NodeElt} {cost n : Int}
    {rankLast1 : Option Nat}, Limited (bitsOf nodes) last maxNbBits cost → cost ≤ 0 →
    GivingBack (bitsOf nodes) last maxNbBits n rankLast1 →
    giveBackLoop maxNbBits fuel nodes cost n rankLast1 = .ok nodes' →
    Leveled nodes nodes' last ∧ Limited (bitsOf nodes') last maxNbBits 0
  | 0, _, _, _, _, _, _, _, _, h => by cases h
  | fuel + 1, nodes, nodes', cost, n, rankLast1, hlimited, hcost, hs, h => by
    unfold giveBackLoop at h
    have hlastLen := hlimited.deepest_last
    split at h
    · rename_i hneg
      cases rankLast1 with
      | none =>
        obtain ⟨n1, h1, h⟩ := bind_ok h
        obtain ⟨hge, hle, hdeep, hstop⟩ := skipDeepest_ok _ hs.n_ge h1
        split at h
        · cases h
        · obtain ⟨nodes1, h2, h⟩ := bind_ok h
          have hn_le := hs.n_le
          have hstop := hstop (by omega)
          have hne : n1.toNat ≠ last := fun heq => hstop (heq ▸ hlastLen)
          obtain ⟨hleveled, hlimited1, hs1⟩ := shortenFirst_ok hlimited hneg ⟨hge, by omega⟩
            (show n1.toNat + 1 ≤ last by omega) (by
              by_cases hin : ((n1.toNat + 1 : Nat) : Int) ≤ n
              · exact hdeep _ (by omega) hin
              · exact hs.missing rfl _ (by omega) (by omega)) (by
              intro i hi
              have h1 := hlimited.mono i n1.toNat (by omega) (by omega)
              have h2 := hlimited.le n1.toNat (by omega)
              omega) h2
          obtain ⟨hleveled', hdone⟩ := giveBackLoop_ok fuel hlimited1 (by omega) hs1 h
          exact ⟨hleveled.trans hleveled', hdone⟩
      | some p =>
        obtain ⟨nodes1, h2, h⟩ := bind_ok h
        obtain ⟨hp, hlen, hmax⟩ := hs.found p rfl
        have hlt : p < last := by
          refine lt_of_le_of_ne hp ?_
          rintro rfl
          omega
        have hnext := hmax (p + 1) (Nat.lt_succ_self p) hlt
        have hnextLe := hlimited.le (p + 1) hlt
        obtain ⟨hleveled, hlimited1, hs1⟩ := shortenFirst_ok hlimited hneg ⟨hs.n_ge, hs.n_le⟩
          (show p + 1 ≤ last by omega) (by omega) (by
            intro i hi
            have := hlimited.mono i p (by omega) hp
            omega) h2
        obtain ⟨hleveled', hdone⟩ := giveBackLoop_ok fuel hlimited1 (by omega) hs1 h
        exact ⟨hleveled.trans hleveled', hdone⟩
    · rename_i hneg
      cases h
      have hzero : cost = 0 := by omega
      rw [hzero] at hlimited
      exact ⟨.refl _ _, hlimited⟩

/-- The lengths under the limit: they fill a tree again. -/
theorem setMaxHeight_full {nodes nodes' : List NodeElt} {last maxNbBits b : Nat}
    (hsentinel : (nodes.getD 0 default).nbBits = 0) (hfull : Full (bitsOf nodes) last (bitsOf nodes last))
    (h : setMaxHeight nodes last maxNbBits = .ok (nodes', b)) :
    Leveled nodes nodes' last ∧ Full (bitsOf nodes') last b ∧ b ≤ maxNbBits := by
  unfold setMaxHeight at h
  obtain ⟨node, hnode, h⟩ := bind_ok h
  have hbits : node.nbBits = bitsOf nodes last := (congrArg NodeElt.nbBits (getD_of_some (elementAt_ok.1 hnode))).symm
  rw [hbits] at h
  dsimp only at h
  split at h
  · rename_i hle
    cases h
    exact ⟨.refl _ _, hfull, hle⟩
  rename_i hgt
  split at h
  · cases h
  obtain ⟨s, hs, h⟩ := bind_ok h
  obtain ⟨n, hn, h⟩ := bind_ok h
  obtain ⟨rankLast, hrankLast, h⟩ := bind_ok h
  obtain ⟨⟨nodes2, cost2, rankLast2⟩, hrepay, h⟩ := bind_ok h
  obtain ⟨rankLast1, hrank1, h⟩ := bind_ok h
  obtain ⟨nodes3, hback, h⟩ := bind_ok h
  cases h
  obtain ⟨hcut, hstop⟩ := cutLoop_cut hsentinel _ (CutTo.start nodes last (bitsOf nodes last) maxNbBits) hs
  have hn_ge := hcut.n_ge
  have hn_le := hcut.n_le
  have hmin : ∀ i ≤ last, bitsOf s.nodes i = min (bitsOf nodes i) maxNbBits ∧
    (s.n < i ↔ maxNbBits < bitsOf nodes i) := by
    intro i hi
    rw [hcut.bits]
    by_cases hsn : s.n < i
    · have hdeep := hcut.deep i hsn hi
      rw [if_pos ⟨hsn, hi⟩, Nat.min_eq_right hdeep.le]
      exact ⟨rfl, by simp only [hsn, hdeep]⟩
    · have h1 := hfull.mono i s.n.toNat (by omega) (by omega)
      have h2 := hstop (by omega)
      rw [if_neg (fun hand => hsn hand.1), Nat.min_eq_left (by omega)]
      exact ⟨rfl, by omega⟩
  obtain ⟨hcost, hlimited⟩ := hfull.cut (not_le.1 hgt) (hcut.cost.trans (sum_congr rfl fun i hi =>
    if_congr (hmin i (Nat.le_of_lt_succ (mem_range.1 hi))).2 rfl rfl))
  have hlimited : Limited (bitsOf s.nodes) last maxNbBits _ := hlimited.congr fun i hi => (hmin i hi).1
  have hshift : s.totalCost >>> (bitsOf nodes last - maxNbBits) =
    s.totalCost / 2 ^ (bitsOf nodes last - maxNbBits) := by
    rw [Int.shiftRight_eq_div_pow]
    push_cast
    rfl
  rw [hshift] at hrepay
  obtain ⟨hnge, hnle, hdeep, hnstop⟩ := skipDeepest_ok _ hn_ge hn
  -- from `n` up the leaves are of the limit's length
  have hdeepest : ∀ i : Nat, n < i → i ≤ last → bitsOf s.nodes i = maxNbBits := by
    intro i hi hle
    by_cases hin : (i : Int) ≤ s.n
    · exact hdeep i hi hin
    · rw [hcut.bits, if_pos ⟨by omega, hle⟩]
  have hrank := findRankLast_ok hlimited.mono _ (by omega) le_rfl
    ⟨List.length_replicate, ?_, ?_, ?_, .inl rfl⟩ hrankLast
  · obtain ⟨hleveled, hlimited2, hcost2, hrank2, hkeep⟩ := repayLoop_ok _ hlimited hrank hrepay
    rw [elementAt_ok] at hrank1
    obtain ⟨hleveled3, hlimited3⟩ := giveBackLoop_ok _ hlimited2 hcost2 ⟨hnge, by omega,
      fun p hp => hrank2.found 1 p le_rfl (hp ▸ hrank1), fun _ i hi hle => hkeep i (hdeepest i hi hle)⟩ hback
    refine ⟨(Leveled.trans ⟨hcut.same, fun i hi => ?_⟩ hleveled).trans hleveled3, hlimited3.full, le_rfl⟩
    rw [hcut.bits, if_neg (by omega)]
  · intro k p _ hp
    rw [List.getElem?_replicate] at hp
    split at hp
    · cases hp
    · cases hp
  · intro k hk _ i hi hle
    rw [hdeepest i (by omega) hle]
    omega
  · intro i hi hle
    exact (hdeepest i (by omega) hle).ge

end Huff0

end Zstandard
