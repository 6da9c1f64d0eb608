/-
The way that the nodes of the optimal parser stand for.

A node is settled once its position is passed: it is the first, a literal behind the node before, or the end of a match
that was on offer at an earlier node, to that node's own repeat offsets and literals. A settled node is not written
again, and what lies ahead, if it is in reach at all, ends a match that was on offer at a settled node (`NodesLead`).
That the node a match starts from has already been searched, and so is final, is why offset values that were chosen
for the node's repeat offsets are right for the way through it.
-/
import Zstandard.Encode.OptimalParser
import Zstandard.Encode.PriceTables
import Zstandard.Encode.Repcodes

namespace Zstandard

open Outcome
open Ldm (optNum OptimalMatchCandidate)

/-- What the nodes start from: the literals and the repeat offsets of the first, how far they may reach, and which
matches are on offer at a position to a node with given repeat offsets and literals. -/
structure PathStart where
  litlen : Nat
  reps : RepeatOffsets
  horizon : Nat
  offered : (pos : Nat) → (reps : RepeatOffsets) → (literalLength offsetValue matchLength : Nat) → Prop

namespace OptimalPathNode

/-- The node ends a match, perhaps with literals behind it, that was on offer to a node before `cur`. -/
structure Ends (start : PathStart) (nodes : PathNodes) (cur pos : Nat) (node previous : OptimalPathNode) : Prop where
  length_ge : 3 ≤ node.mlen
  le : node.mlen + node.litlen ≤ pos
  before : pos - (node.mlen + node.litlen) < cur
  get : nodes[pos - (node.mlen + node.litlen)]? = some previous
  offered : start.offered (pos - (node.mlen + node.litlen)) previous.reps previous.litlen node.off node.mlen

/-- What a node is once its position is passed: the first, a literal after another, or the end of a match. -/
inductive Settled (start : PathStart) (nodes : PathNodes) : Nat → OptimalPathNode → Prop
  | first {node : OptimalPathNode} : node.mlen = 0 → node.litlen = start.litlen → node.reps = start.reps →
    Settled start nodes 0 node
  | literal {pos : Nat} {node previous : OptimalPathNode} : nodes[pos]? = some previous → node.mlen = 0 →
    node.litlen = previous.litlen + 1 → node.reps = previous.reps → Settled start nodes (pos + 1) node
  | ends {pos : Nat} {node previous : OptimalPathNode} : node.Ends start nodes pos pos previous →
    node.reps = previous.reps.resolved previous.litlen node.off → Settled start nodes pos node

/-- The end of a match whose repeat offsets are still to come, unless a literal follows it. -/
def Pending (start : PathStart) (nodes : PathNodes) (cur pos : Nat) (node : OptimalPathNode) : Prop :=
  ∃ previous, node.Ends start nodes cur pos previous ∧
    (node.litlen = 0 ∨ node.reps = previous.reps.resolved previous.litlen node.off)

end OptimalPathNode

/-- Before `cur` every node is settled; up to `lastPos` the others hold the marker or end a match. -/
structure NodesLead (start : PathStart) (cur lastPos : Nat) (nodes : PathNodes) : Prop where
  length_eq : nodes.length = optNum + 1
  last_le : lastPos ≤ start.horizon
  settled : ∀ pos node, nodes[pos]? = some node → pos < cur →
    node.litlen ≤ start.litlen + pos ∧ node.Settled start nodes pos
  reach : ∀ pos node, nodes[pos]? = some node → cur ≤ pos → pos ≤ lastPos →
    maxPrice ≤ node.price ∨ node.Pending start nodes cur pos

section
variable {bad : PriceFault → Prop} {m : OptimalPriceModel} {start : PathStart} {cur lastPos pos : Nat}
variable {nodes : PathNodes} {node previous : OptimalPathNode}

/-! ## Reading nodes -/

theorem nodeAt_inside (h : pos < nodes.length) : Avoids bad (nodeAt nodes pos) (nodes[pos]? = some ·) := by
  unfold nodeAt
  rw [List.getElem?_eq_getElem h]
  exact .of_ok rfl

theorem nodeBefore_inside {back : Nat} (hback : back ≤ pos) (hget : nodes[pos - back]? = some previous) :
    Avoids bad (nodeBefore nodes pos back) (previous = ·) := by
  unfold nodeBefore nodeAt
  rw [if_pos hback, hget]
  exact .of_ok rfl

theorem modifyNode_inside (h : pos < nodes.length) (f : OptimalPathNode → OptimalPathNode) :
    Avoids bad (modifyNode nodes pos f) fun nodes' => ∃ node, nodes' = nodes.set pos (f node) :=
  (nodeAt_inside h).bind fun node _ => .of_ok ⟨node, rfl⟩

/-- What the watch lets through is below the marker. -/
theorem accumulated_spared (hbad : PriceFault.Spares bad) (price : Nat) :
    Avoids bad (accumulated price) fun price' => price' = price ∧ price < maxPrice := by
  unfold accumulated
  split
  · rename_i hlt
    exact .of_ok ⟨rfl, hlt⟩
  · exact .of_error (hbad .marked trivial)

/-! ## Writing nodes -/

namespace OptimalPathNode

/-- What ends a match does not depend on the nodes from `cur` on. -/
theorem Ends.set (h : node.Ends start nodes cur pos previous) {at' : Nat} (hat : cur ≤ at')
    (other : OptimalPathNode) : node.Ends start (nodes.set at' other) cur pos previous where
  __ := h
  get := by
    have := h.before
    rw [List.getElem?_set_ne (by omega)]
    exact h.get

theorem Ends.mono (h : node.Ends start nodes cur pos previous) {cur' : Nat} (hcur : cur ≤ cur') :
    node.Ends start nodes cur' pos previous where
  __ := h
  before := h.before.trans_le hcur

theorem Settled.set (h : node.Settled start nodes pos) {at' : Nat} (hat : pos ≤ at') (other : OptimalPathNode) :
    node.Settled start (nodes.set at' other) pos := by
  cases h with
  | first hmlen hlitlen hreps => exact .first hmlen hlitlen hreps
  | literal hget hmlen hlitlen hreps =>
    exact .literal ((List.getElem?_set_ne (by omega)).trans hget) hmlen hlitlen hreps
  | ends hends hreps => exact .ends (hends.set hat other) hreps

theorem Pending.set (h : node.Pending start nodes cur pos) {at' : Nat} (hat : cur ≤ at') (other : OptimalPathNode) :
    node.Pending start (nodes.set at' other) cur pos := by
  obtain ⟨previous, hends, hreps⟩ := h
  exact ⟨previous, hends.set hat other, hreps⟩

theorem Pending.mono (h : node.Pending start nodes cur pos) {cur' : Nat} (hcur : cur ≤ cur') :
    node.Pending start nodes cur' pos := by
  obtain ⟨previous, hends, hreps⟩ := h
  exact ⟨previous, hends.mono hcur, hreps⟩

end OptimalPathNode

/-- A node from `cur` on is written. -/
theorem NodesLead.set {lastPos' : Nat} (h : NodesLead start cur lastPos nodes) (hcur : cur ≤ pos)
    (hle : lastPos' ≤ start.horizon)
    (hreach : pos ≤ lastPos' → maxPrice ≤ node.price ∨ node.Pending start nodes cur pos)
    (hlast : ∀ q ≤ lastPos', q ≤ lastPos ∨ q = pos) : NodesLead start cur lastPos' (nodes.set pos node) where
  length_eq := List.length_set.trans h.length_eq
  last_le := hle
  settled q other hq hlt := by
    rcases getElem?_set_cases hq with ⟨rfl, -⟩ | ⟨-, hq⟩
    · omega
    · obtain ⟨hlitlen, hsettled⟩ := h.settled q other hq hlt
      exact ⟨hlitlen, hsettled.set (by omega) node⟩
  reach q other hq hge hle' := by
    rcases getElem?_set_cases hq with ⟨rfl, rfl⟩ | ⟨hne, hq⟩
    · exact (hreach hle').imp_right fun hnode => hnode.set hcur _
    · rcases hlast q hle' with hle'' | rfl
      · exact (h.reach q other hq hge hle'').imp_right fun hnode => hnode.set hcur _
      · exact absurd rfl hne

theorem NodesLead.modify {lastPos' : Nat} {f : OptimalPathNode → OptimalPathNode}
    (h : NodesLead start cur lastPos nodes) (hcur : cur ≤ pos) (hpos : pos ≤ optNum) (hle : lastPos' ≤ start.horizon)
    (hreach : pos ≤ lastPos' → ∀ node, maxPrice ≤ (f node).price ∨ (f node).Pending start nodes cur pos)
    (hlast : ∀ q ≤ lastPos', q ≤ lastPos ∨ q = pos) :
    Avoids bad (modifyNode nodes pos f) (NodesLead start cur lastPos' ·) := by
  refine (modifyNode_inside (by rw [h.length_eq]; omega) f).mono ?_
  rintro _ ⟨node, rfl⟩
  exact h.set hcur hle (fun hle => hreach hle node) hlast

/-- The node at `cur` is settled. -/
theorem NodesLead.settle (h : NodesLead start cur lastPos nodes) (hlitlen : node.litlen ≤ start.litlen + cur)
    (hsettled : node.Settled start nodes cur) : NodesLead start (cur + 1) lastPos (nodes.set cur node) where
  length_eq := List.length_set.trans h.length_eq
  last_le := h.last_le
  settled q other hq hlt := by
    rcases getElem?_set_cases hq with ⟨rfl, rfl⟩ | ⟨hne, hq⟩
    · exact ⟨hlitlen, hsettled.set le_rfl _⟩
    · obtain ⟨hlitlen', hsettled'⟩ := h.settled q other hq (by omega)
      exact ⟨hlitlen', hsettled'.set (by omega) node⟩
  reach q other hq hge hle := by
    rcases getElem?_set_cases hq with ⟨rfl, -⟩ | ⟨-, hq⟩
    · omega
    · exact (h.reach q other hq (by omega) hle).imp_right fun hnode =>
        (hnode.set le_rfl node).mono (Nat.le_succ _)

theorem NodesLead.get (h : NodesLead start cur lastPos nodes) (pos : Nat) (hpos : pos ≤ optNum) :
    ∃ node, nodes[pos]? = some node :=
  ⟨_, List.getElem?_eq_getElem (by rw [h.length_eq]; omega)⟩

/-! ## Settling the node at the next position -/

/-- What the node at `cur` is between its literal and its repeat offsets. -/
structure Arrived (start : PathStart) (nodes : PathNodes) (cur : Nat) (node : OptimalPathNode) : Prop where
  litlen_le : node.litlen ≤ start.litlen + cur
  kind : node.litlen ≠ 0 ∧ node.Settled start nodes cur ∨ node.Pending start nodes cur cur

theorem OptimalPathNode.Pending.arrived (h : node.Pending start nodes cur cur) : Arrived start nodes cur node where
  litlen_le := by
    obtain ⟨previous, hends, -⟩ := h
    have := hends.le
    omega
  kind := .inr h

/-- A literal behind the node before takes the place of a match that is no cheaper, and of the marker. -/
theorem updateOptimalLiteralNode_leads (hbad : PriceFault.Spares bad) (hm : m.Tabled)
    (h : NodesLead start cur lastPos nodes) (hpos : 0 < cur) (hle : cur ≤ lastPos) (hhorizon : start.horizon ≤ optNum)
    (hroom : bad .outside → start.litlen + start.horizon < 2 ^ 17) (byte : UInt8) :
    Avoids bad (updateOptimalLiteralNode m nodes cur byte) fun updated =>
      (∃ node, updated.1 = nodes.set cur node ∧ Arrived start nodes cur node) ∧
        ∀ replaced ∈ updated.2, replaced.litlen = 0 ∧ replaced.Pending start nodes cur cur := by
  have hlast := h.last_le
  have hcur : cur ≤ optNum := (hle.trans hlast).trans hhorizon
  obtain ⟨previous, hprevious⟩ := h.get (cur - 1) (by omega)
  obtain ⟨current, hcurrent⟩ := h.get cur hcur
  obtain ⟨hlit, -⟩ := h.settled _ _ hprevious (by omega)
  have hlength : cur < nodes.length := by
    rw [h.length_eq]
    omega
  unfold updateOptimalLiteralNode
  refine (nodeBefore_inside hpos hprevious).bind ?_
  rintro _ rfl
  refine (addU32_spared hbad _ _).bind ?_
  rintro _ rfl
  refine (OptimalPriceModel.literalBytePrice_inside hbad hm byte).bind fun literal _ => ?_
  refine (addU32_spared hbad _ _).bind fun withLiteral _ => ?_
  refine (OptimalPriceModel.llPrice_inside hbad hm fun houtside => by have := hroom houtside; omega).bind fun l _ => ?_
  refine (addU32_spared hbad _ _).bind fun withLength _ => ?_
  refine (OptimalPriceModel.llPrice_inside hbad hm fun houtside => by have := hroom houtside; omega).bind fun l' _ => ?_
  refine (subU32_spared hbad _ _).bind fun price _ => ?_
  refine (accumulated_spared hbad price).bind ?_
  rintro _ ⟨rfl, hlt⟩
  refine (nodeAt_inside hlength).bind fun current' hcurrent' => ?_
  rw [hcurrent] at hcurrent'
  cases hcurrent'
  have hkind := h.reach cur current hcurrent le_rfl hle
  split
  · refine (modifyNode_inside hlength _).bind ?_
    rintro _ ⟨-, rfl⟩
    refine .of_ok ⟨⟨_, rfl, ⟨by dsimp only; omega, .inl ⟨Nat.succ_ne_zero _, ?_⟩⟩⟩, ?_⟩
    · obtain ⟨pos, rfl⟩ : ∃ pos, cur = pos + 1 := ⟨cur - 1, by omega⟩
      exact .literal hprevious rfl rfl rfl
    · intro replaced hreplaced
      dsimp only at hreplaced
      split at hreplaced
      · rename_i hmatch
        cases hreplaced
        exact ⟨hmatch.1, hkind.resolve_left (by omega)⟩
      · cases hreplaced
  · -- the watch has kept the price below the marker, so the node that stays is in reach
    have hpending := hkind.resolve_left (by omega)
    refine .of_ok ⟨⟨current, ?_, hpending.arrived⟩, fun replaced hreplaced => nomatch hreplaced⟩
    obtain ⟨hlength, rfl⟩ := List.getElem?_eq_some_iff.1 hcurrent
    exact (List.set_getElem_self hlength).symm

/-- The repeat offsets of a node that ends a match. -/
theorem resolveNodeReps_leads (h : NodesLead start cur lastPos nodes) (hcur : cur ≤ optNum)
    (hnode : Arrived start nodes cur node) :
    Avoids bad (resolveNodeReps (nodes.set cur node) cur)
      fun nodes' => NodesLead start (cur + 1) lastPos nodes' ∧ ∃ node', nodes' = nodes.set cur node' := by
  have hlength : cur < (nodes.set cur node).length := by
    rw [List.length_set, h.length_eq]
    omega
  have hself : (nodes.set cur node)[cur]? = some node := List.getElem?_set_self (by rw [h.length_eq]; omega)
  unfold resolveNodeReps
  refine (nodeAt_inside hlength).bind fun node' hnode' => ?_
  rw [hself] at hnode'
  cases hnode'
  split
  · rename_i hlitlen
    refine .of_ok ⟨h.settle hnode.litlen_le ?_, node, rfl⟩
    rcases hnode.kind with ⟨-, hsettled⟩ | ⟨previous, hends, hreps⟩
    · exact hsettled
    · exact .ends hends (hreps.resolve_left hlitlen)
  · rename_i hlitlen
    rw [not_not] at hlitlen
    obtain ⟨previous, hends, -⟩ := hnode.kind.resolve_left fun hliteral => hliteral.1 hlitlen
    have hback := hends.le
    have hget := (hends.set le_rfl node).get
    rw [hlitlen, Nat.add_zero] at hback hget
    refine (nodeBefore_inside hback hget).bind ?_
    rintro _ rfl
    have hset : Avoids bad
        (modifyNode (nodes.set cur node) cur fun node =>
          { node with reps := previous.reps.resolved previous.litlen node.off })
        (· = nodes.set cur { node with reps := previous.reps.resolved previous.litlen node.off }) := by
      unfold modifyNode nodeAt
      rw [hself]
      exact .of_ok (List.set_set ..)
    refine hset.mono ?_
    rintro _ rfl
    exact ⟨h.settle hnode.litlen_le (.ends ⟨hends.length_ge, hends.le, hends.before, hends.get, hends.offered⟩ rfl),
      _, rfl⟩

/-! ## Writing the nodes ahead -/

/-- What is on offer at `cur` to a node: every length of a candidate, from three on. -/
structure OffersTo (start : PathStart) (cur : Nat) (node : OptimalPathNode) (candidate : OptimalMatchCandidate) :
    Prop where
  offsetValue_lt : candidate.offsetValue < 2 ^ 32
  offered : ∀ matchLength, 3 ≤ matchLength → matchLength ≤ candidate.length →
    start.offered cur node.reps node.litlen candidate.offsetValue matchLength

/-- A match node behind the node that its candidate was offered to. -/
theorem OffersTo.pending {candidate : OptimalMatchCandidate} (h : OffersTo start pos node candidate)
    (hget : nodes[pos]? = some node) (hpos : pos < cur) (matchLength : Nat) (hlength : 3 ≤ matchLength)
    (hle : matchLength ≤ candidate.length) (price : Nat) (other : OptimalPathNode) :
    (matchNode price candidate.offsetValue matchLength other).Pending start nodes cur (pos + matchLength) := by
  have hback : pos + matchLength - (matchLength + 0) = pos := by omega
  refine ⟨node, ⟨hlength, ?_, ?_, ?_, ?_⟩, .inl rfl⟩
  · dsimp only [matchNode]
    omega
  · dsimp only [matchNode]
    omega
  · dsimp only [matchNode]
    rw [hback]
    exact hget
  · dsimp only [matchNode]
    rw [hback]
    exact h.offered matchLength hlength hle

/-- The nodes while those in reach of `current`, the last that is settled, are written. -/
structure NodesAt (start : PathStart) (cur lastPos : Nat) (current : OptimalPathNode) (nodes : PathNodes) : Prop
    extends NodesLead start (cur + 1) lastPos nodes where
  current_eq : nodes[cur]? = some current

variable {current : OptimalPathNode}

theorem NodesAt.modify {lastPos' : Nat} {f : OptimalPathNode → OptimalPathNode}
    (h : NodesAt start cur lastPos current nodes) (hcur : cur < pos) (hpos : pos ≤ optNum)
    (hle : lastPos' ≤ start.horizon)
    (hreach : pos ≤ lastPos' → ∀ node, maxPrice ≤ (f node).price ∨ (f node).Pending start nodes (cur + 1) pos)
    (hlast : ∀ q ≤ lastPos', q ≤ lastPos ∨ q = pos) :
    Avoids bad (modifyNode nodes pos f) (NodesAt start cur lastPos' current ·) := by
  refine (modifyNode_inside (by rw [h.length_eq]; omega) f).mono ?_
  rintro _ ⟨node, rfl⟩
  exact ⟨h.toNodesLead.set hcur hle (fun hle => hreach hle node) hlast,
    (List.getElem?_set_ne (by omega)).trans h.current_eq⟩

/-- The nodes of the next positions of a range, one after the other. -/
theorem NodesAt.extend (bad : PriceFault → Prop) {f : PathNodes → Nat → Priced PathNodes} {n : Nat}
    (hf : ∀ p nodes, lastPos < p → p ≤ lastPos + n → NodesAt start cur (p - 1) current nodes →
      Avoids bad (f nodes p) (NodesAt start cur p current ·)) (h : NodesAt start cur lastPos current nodes) :
    Avoids bad ((List.range' (lastPos + 1) n).foldlM f nodes) (NodesAt start cur (lastPos + n) current ·) := by
  have hloop := Avoids.foldlM_range' (fun p nodes => NodesAt start cur (p - 1) current nodes) (f := f) (n := n)
    (fun p (hlow : lastPos + 1 ≤ p) hhigh nodes hnodes => hf p nodes (by omega) (by omega) hnodes) h
  rwa [show lastPos + 1 + n - 1 = lastPos + n by omega] at hloop

/-- Every position of a gap is as good as out of reach. -/
theorem fillGap_leads (h : NodesAt start cur lastPos current nodes) (hcur : cur ≤ lastPos)
    (hhorizon : start.horizon ≤ optNum) (hpos : pos ≤ start.horizon) :
    Avoids bad (fillGap nodes lastPos pos) (NodesAt start cur (max lastPos pos) current ·) := by
  have hlast := h.last_le
  have hloop := h.extend bad (n := pos - lastPos)
    (f := fun nodes gap => modifyNode nodes gap fun node => { node with price := maxPrice, litlen := 2 ^ 32 - 1 })
    fun p nodes hlow hhigh hnodes => hnodes.modify (by omega) (by omega) (by omega) (fun _ _ => .inl le_rfl)
      fun q hq => by omega
  rwa [show lastPos + (pos - lastPos) = max lastPos pos by omega] at hloop

/-- The price of one length of a candidate, as far as its indices go. -/
theorem lengthPrice_spared (hbad : PriceFault.Spares bad) (hm : m.Tabled) (candidatePrice : Nat) {matchLength : Nat}
    (hle : matchLength ≤ optNum) : Avoids bad (lengthPrice m candidatePrice matchLength) fun _ => True := by
  unfold optNum at hle
  unfold lengthPrice
  refine (OptimalPriceModel.matchLengthPrice_inside hbad hm fun _ => by omega).bind fun length _ => ?_
  refine (addU32_spared hbad _ _).bind fun price _ => ?_
  exact (accumulated_spared hbad price).mono fun _ _ => trivial

theorem initCandidateNodes_leads (hbad : PriceFault.Spares bad) (hm : m.Tabled) (basePrice : Nat)
    (hhorizon : start.horizon ≤ optNum) {candidate : OptimalMatchCandidate}
    (hoffers : OffersTo start 0 current candidate) {state : PathNodes × Nat} (hpos : 3 ≤ state.2)
    (h : NodesAt start 0 (state.2 - 1) current state.1) :
    Avoids bad (initCandidateNodes m basePrice start.horizon state candidate) fun state' =>
      3 ≤ state'.2 ∧ NodesAt start 0 (state'.2 - 1) current state'.1 := by
  obtain ⟨nodes, pos⟩ := state
  unfold initCandidateNodes
  dsimp only at *
  split
  · exact .of_ok ⟨hpos, h⟩
  · rename_i hstop
    refine (OptimalPriceModel.offsetPrice_inside hbad hm hoffers.offsetValue_lt).bind fun offset _ => ?_
    refine (addU32_spared hbad _ _).bind fun candidatePrice _ => ?_
    have hloop := h.extend bad (n := min candidate.length start.horizon + 1 - pos)
      (f := fun nodes matchLength => do
        let price ← lengthPrice m candidatePrice matchLength
        modifyNode nodes matchLength (matchNode price candidate.offsetValue matchLength))
      fun p nodes hlow hhigh hnodes => by
        refine (lengthPrice_spared hbad hm candidatePrice (by omega)).bind fun price _ => ?_
        have hpending := hoffers.pending hnodes.current_eq Nat.one_pos p (by omega) (by omega) price
        rw [Nat.zero_add] at hpending
        exact hnodes.modify (by omega) (by omega) (by omega) (fun _ node => .inr (hpending node))
          fun q hq => by omega
    rw [show pos - 1 + 1 = pos by omega, show pos - 1 + (min candidate.length start.horizon + 1 - pos) =
      min candidate.length start.horizon by omega] at hloop
    exact hloop.bind fun nodes' hnodes' => .of_ok ⟨by dsimp only; omega, hnodes'⟩

/-- The first nodes come into reach one after the other, or the first is not in reach and there is nothing ahead. -/
theorem initOptimalMatchNodes_leads (hbad : PriceFault.Spares bad) (hm : m.Tabled)
    (h : NodesAt start 0 0 current nodes) (hprice : current.price < maxPrice) {minMatch : Nat}
    (hminMatch : 3 ≤ minMatch) (hmin : minMatch ≤ start.horizon) (hhorizon : start.horizon ≤ optNum)
    {candidates : List OptimalMatchCandidate} (hoffers : ∀ c ∈ candidates, OffersTo start 0 current c) :
    Avoids bad (initOptimalMatchNodes m nodes candidates start.horizon minMatch) fun state =>
      0 < state.2 ∧ NodesLead start 1 state.2 state.1 := by
  unfold initOptimalMatchNodes
  refine (nodeAt_inside (by rw [h.length_eq]; exact Nat.succ_pos _)).bind fun current' hcurrent' => ?_
  rw [h.current_eq] at hcurrent'
  cases hcurrent'
  rw [if_neg (by omega)]
  have hbelow := h.extend bad (n := minMatch - 1)
    (f := fun nodes p => do
      let litlen ← addU32 current.litlen p
      modifyNode nodes p fun node => { node with price := maxPrice, mlen := 0, litlen })
    fun p nodes _ hp hnodes => (addU32_spared hbad _ _).bind fun litlen _ =>
      hnodes.modify (by omega) (by omega) (by omega) (fun _ _ => .inl le_rfl) fun q hq => by omega
  rw [Nat.zero_add] at hbelow
  rw [Nat.min_eq_left (by omega)]
  refine hbelow.bind fun nodes hnodes => ?_
  refine (OptimalPriceModel.llPrice_inside hbad hm fun _ => by norm_num).bind fun l _ => ?_
  refine (addU32_spared hbad _ _).bind fun basePrice _ => ?_
  have hcandidates : Avoids bad (candidates.foldlM (initCandidateNodes m basePrice start.horizon) (nodes, minMatch))
      fun state => 3 ≤ state.2 ∧ NodesAt start 0 (state.2 - 1) current state.1 := Avoids.foldlM _
    (fun candidate hcandidate state hstate => initCandidateNodes_leads hbad hm basePrice hhorizon
      (hoffers candidate hcandidate) hstate.1 hstate.2)
    ⟨hminMatch, by rwa [Nat.zero_add] at hnodes⟩
  refine hcandidates.bind ?_
  rintro ⟨nodes', pos⟩ ⟨hpos, hnodes'⟩
  dsimp only at *
  have hlast := hnodes'.last_le
  have hmark : Avoids bad (if pos ≤ start.horizon then modifyNode nodes' pos markNode else .ok nodes')
      (NodesAt start 0 (pos - 1) current ·) := by
    split
    · exact hnodes'.modify (by omega) (by omega) hlast (fun _ _ => .inl le_rfl) fun q hq => .inl hq
    · exact .of_ok hnodes'
  exact hmark.bind fun nodes'' hnodes'' => .of_ok ⟨by dsimp only; omega, hnodes''.toNodesLead⟩

theorem updateCandidateNodes_leads (hbad : PriceFault.Spares bad) (hm : m.Tabled) (hhorizon : start.horizon ≤ optNum)
    (candidatePrice : Nat) {previousLength : Nat} {candidate : OptimalMatchCandidate}
    (hoffers : OffersTo start cur current candidate) (hprevious : 2 ≤ previousLength) :
    ∀ (count : Nat) (state : PathNodes × Nat), previousLength + count ≤ candidate.length →
      cur + previousLength + count ≤ start.horizon → cur ≤ state.2 → NodesAt start cur state.2 current state.1 →
        Avoids bad (updateCandidateNodes m cur candidatePrice candidate.offsetValue previousLength count state)
          fun state' => cur ≤ state'.2 ∧ NodesAt start cur state'.2 current state'.1
  | 0, _, _, _, hcur, h => .of_ok ⟨hcur, h⟩
  | count + 1, (nodes, lastPos), hle, hreach, hcur, h => by
    unfold updateCandidateNodes
    dsimp only at *
    refine (lengthPrice_spared hbad hm candidatePrice (by omega)).bind fun price _ => ?_
    refine (nodeAt_inside (by rw [h.length_eq]; omega)).bind fun target _ => ?_
    split
    · refine (fillGap_leads h hcur hhorizon (by omega)).bind fun nodes hnodes => ?_
      have hpending := hoffers.pending hnodes.current_eq (Nat.lt_succ_self _) (previousLength + count + 1) (by omega)
        (by omega) price
      refine (hnodes.modify (by omega) (by omega) hnodes.last_le
        (fun _ node => .inr (hpending node)) fun q hq => .inl hq).bind fun nodes' hnodes' => ?_
      exact updateCandidateNodes_leads hbad hm hhorizon candidatePrice hoffers hprevious count (nodes', _) (by omega)
        (by omega) (by dsimp only; omega) hnodes'
    · split
      · exact .of_ok ⟨hcur, h⟩
      · exact updateCandidateNodes_leads hbad hm hhorizon candidatePrice hoffers hprevious count (nodes, lastPos)
          (by omega) (by omega) hcur h

theorem updateCandidates_leads (hbad : PriceFault.Spares bad) (hm : m.Tabled) (hhorizon : start.horizon ≤ optNum)
    (basePrice : Nat) {maxReach : Nat} (hle : cur + maxReach ≤ start.horizon) :
    ∀ (candidates : List OptimalMatchCandidate) (previousLength : Nat) (state : PathNodes × Nat),
      (∀ c ∈ candidates, OffersTo start cur current c) → 2 ≤ previousLength → cur ≤ state.2 →
        NodesAt start cur state.2 current state.1 →
          Avoids bad (updateCandidates m cur basePrice maxReach candidates previousLength state)
            fun state' => cur ≤ state'.2 ∧ NodesAt start cur state'.2 current state'.1
  | [], _, _, _, _, hcur, h => .of_ok ⟨hcur, h⟩
  | candidate :: candidates, previousLength, state, hoffers, hprevious, hcur, h => by
    have hfirst := hoffers candidate List.mem_cons_self
    have hrest : ∀ c ∈ candidates, OffersTo start cur current c := fun c hc => hoffers c (List.mem_cons_of_mem _ hc)
    unfold updateCandidates
    dsimp only
    split
    · exact updateCandidates_leads hbad hm hhorizon basePrice hle candidates _ state hrest hprevious hcur h
    · refine (OptimalPriceModel.offsetPrice_inside hbad hm hfirst.offsetValue_lt).bind fun offset _ => ?_
      refine (addU32_spared hbad _ _).bind fun candidatePrice _ => ?_
      refine (updateCandidateNodes_leads hbad hm hhorizon candidatePrice hfirst hprevious _ state (by omega) (by omega)
        hcur h).bind ?_
      rintro state' ⟨hcur', h'⟩
      split
      · exact .of_ok ⟨hcur', h'⟩
      · exact updateCandidates_leads hbad hm hhorizon basePrice hle candidates _ state' hrest (by omega) hcur' h'

/-- The nodes that the candidates of a settled node reach. -/
theorem updateOptimalMatchNodes_leads (hbad : PriceFault.Spares bad) (hm : m.Tabled)
    (h : NodesAt start cur lastPos current nodes) (hcur : cur ≤ lastPos) {minMatch : Nat} (hminMatch : 3 ≤ minMatch)
    (hhorizon : start.horizon ≤ optNum) {candidates : List OptimalMatchCandidate}
    (hoffers : ∀ c ∈ candidates, OffersTo start cur current c) :
    Avoids bad (updateOptimalMatchNodes m nodes cur lastPos candidates start.horizon minMatch) fun state =>
      cur ≤ state.2 ∧ NodesLead start (cur + 1) state.2 state.1 := by
  have hlast := h.last_le
  unfold updateOptimalMatchNodes
  refine (nodeAt_inside (by rw [h.length_eq]; omega)).bind fun current' _ => ?_
  split
  · exact .of_ok ⟨hcur, h.toNodesLead⟩
  · refine (OptimalPriceModel.llPrice_inside hbad hm fun _ => by norm_num).bind fun l _ => ?_
    refine (addU32_spared hbad _ _).bind fun basePrice _ => ?_
    refine Avoids.mono
      (updateCandidates_leads hbad hm hhorizon basePrice (by omega) candidates _ _ hoffers (by omega) hcur h) ?_
    rintro state ⟨hcur', h'⟩
    exact ⟨hcur', h'.toNodesLead⟩

/-! ## A match and one literal more -/

theorem asI32_spared (hbad : PriceFault.Spares bad) (a : Nat) : Avoids bad (asI32 a) fun _ => True := by
  unfold asI32
  split
  · exact .of_ok trivial
  · exact .of_error (hbad .wrapped trivial)

theorem addI32_spared (hbad : PriceFault.Spares bad) (a b : Int) : Avoids bad (addI32 a b) fun _ => True := by
  unfold addI32
  split
  · exact .of_ok trivial
  · exact .of_error (hbad .wrapped trivial)

theorem subI32_spared (hbad : PriceFault.Spares bad) (a b : Int) : Avoids bad (subI32 a b) fun _ => True := by
  unfold subI32
  split
  · exact .of_ok trivial
  · exact .of_error (hbad .wrapped trivial)

theorem asU32_spared (hbad : PriceFault.Spares bad) (a : Int) : Avoids bad (asU32 a) fun _ => True := by
  unfold asU32
  split
  · exact .of_ok trivial
  · exact .of_error (hbad .wrapped trivial)

theorem signedLlPrice_spared (hbad : PriceFault.Spares bad) (hm : m.Tabled) {literalLength : Nat}
    (hll : bad .outside → literalLength < 2 ^ 17) {α : Type} {k : Int → Priced α} {post : α → Prop}
    (hk : ∀ l, Avoids bad (k l) post) : Avoids bad (do k (← asI32 (← m.llPrice literalLength))) post :=
  (OptimalPriceModel.llPrice_inside hbad hm hll).bind fun l _ => (asI32_spared hbad l).bind fun l' _ => hk l'

/-- The node behind the replaced match and a literal ends that match. -/
theorem matchPlusOneLiteral_leads (hbad : PriceFault.Spares bad) (hm : m.Tabled)
    (h : NodesLead start (cur + 1) lastPos nodes) (hcur : cur ≤ lastPos) (hhorizon : start.horizon ≤ optNum)
    (hroom : bad .outside → start.litlen + start.horizon < 2 ^ 17) {prevMatch previous : OptimalPathNode}
    (hend : prevMatch.litlen = 0) (hends : prevMatch.Ends start nodes cur cur previous) (byte : Option UInt8) :
    Avoids bad (matchPlusOneLiteral m nodes cur lastPos start.horizon prevMatch byte) fun state =>
      cur ≤ state.2 ∧ NodesLead start (cur + 1) state.2 state.1 := by
  have hlast := h.last_le
  unfold matchPlusOneLiteral
  refine signedLlPrice_spared hbad hm (fun _ => by norm_num) fun l1 => ?_
  refine signedLlPrice_spared hbad hm (fun _ => by norm_num) fun l0 => ?_
  refine (subI32_spared hbad l1 l0).bind fun ll1Inc _ => ?_
  cases byte with
  | none => exact .of_ok ⟨hcur, h⟩
  | some byte =>
  dsimp only
  split
  · exact .of_ok ⟨hcur, h⟩
  rename_i hstep
  rw [not_or, not_lt] at hstep
  refine (OptimalPriceModel.literalBytePrice_inside hbad hm byte).bind fun literal _ => ?_
  refine (asI32_spared hbad literal).bind fun literal _ => ?_
  refine (asI32_spared hbad prevMatch.price).bind fun prevPrice _ => ?_
  refine (addI32_spared hbad prevPrice literal).bind fun withLiteral _ => ?_
  refine (addI32_spared hbad withLiteral ll1Inc).bind fun with1literal _ => ?_
  refine (nodeAt_inside (by rw [h.length_eq]; omega)).bind fun node hnode => ?_
  obtain ⟨hlit, -⟩ := h.settled cur node hnode (Nat.lt_succ_self _)
  refine (addU32_spared hbad _ _).bind ?_
  rintro _ rfl
  refine (asI32_spared hbad node.price).bind fun nodePrice _ => ?_
  refine (addI32_spared hbad nodePrice literal).bind fun withNext _ => ?_
  refine signedLlPrice_spared hbad hm (fun houtside => by have := hroom houtside; omega) fun l => ?_
  refine (addI32_spared hbad withNext l).bind fun withMore _ => ?_
  refine signedLlPrice_spared hbad hm (fun houtside => by have := hroom houtside; omega) fun l' => ?_
  refine (subI32_spared hbad withMore l').bind fun withMoreLiterals _ => ?_
  split
  · exact .of_ok ⟨hcur, h⟩
  refine (asU32_spared hbad with1literal).bind fun unwatched _ => ?_
  refine (accumulated_spared hbad unwatched).bind fun price _ => ?_
  refine (nodeAt_inside (by rw [h.length_eq]; omega)).bind fun target _ => ?_
  split
  · exact .of_ok ⟨hcur, h⟩
  have hback := hends.le
  have hget := hends.get
  have hlength := hends.length_ge
  rw [hend, Nat.add_zero] at hback hget
  refine (nodeBefore_inside hback hget).bind ?_
  rintro _ rfl
  let next : OptimalPathNode :=
    ⟨price, prevMatch.off, prevMatch.mlen, 1, previous.reps.resolved previous.litlen prevMatch.off⟩
  have hpending : next.Pending start nodes (cur + 1) (cur + 1) := by
    have hsame : cur + 1 - (prevMatch.mlen + 1) = cur - (prevMatch.mlen + prevMatch.litlen) := by omega
    refine ⟨previous, ⟨hlength, Nat.succ_le_succ hback, ?_, ?_, ?_⟩, .inr rfl⟩
    · show cur + 1 - (prevMatch.mlen + 1) < cur + 1
      omega
    · exact hsame ▸ hends.get
    · exact hsame ▸ hends.offered
  have hset : Avoids bad (modifyNode nodes (cur + 1) fun _ => next)
      (NodesLead start (cur + 1) (max lastPos (cur + 1)) ·) :=
    h.modify le_rfl (by omega) (by omega) (fun _ _ => .inr hpending) fun q hq => by omega
  exact hset.bind fun nodes' hnodes' => .of_ok ⟨hcur.trans (Nat.le_max_left _ _), hnodes'⟩

end

end Zstandard
