/-
The nodes of the optimal parser: for each position ahead the cheapest way there that has been seen, by a literal from
the position before or by a match from further back.

A node in reach is never cheaper than the literals it ends in, so that a literal more can take their price off it, and
it is above them by a bounded price for each position on the way (`OptimalPathNode.Reached`). Over the longest path
that stays far below the marker of the nodes that are out of reach.
-/
import Zstandard.Encode.Candidates
import Zstandard.Encode.PriceModel
import Zstandard.Encode.Repcodes

namespace Zstandard

open Outcome
open Ldm (optNum OptimalMatchCandidate)

/-! ## Nodes -/

/-- The price of a node that cannot be reached. -/
def maxPrice : Nat := 2 ^ 30

/-- `OptimalPathNode`: the cheapest way to a position, by its last step. -/
structure OptimalPathNode where
  price : Nat
  off : Nat
  mlen : Nat
  litlen : Nat
  reps : RepeatOffsets
deriving DecidableEq

/-- A node that no way leads to. -/
def OptimalPathNode.unset : OptimalPathNode := ⟨maxPrice, 0, 0, 0, ⟨0, 0, 0⟩⟩

/-- The table of the dynamic programme. -/
abbrev PathNodes := List OptimalPathNode

/-- A node, which has to be in the table. -/
def nodeAt (nodes : PathNodes) (pos : Nat) : Priced OptimalPathNode :=
  match nodes[pos]? with
  | some node => .ok node
  | none => .error .outside

/-- `nodes[pos] = f nodes[pos]`. -/
def modifyNode (nodes : PathNodes) (pos : Nat) (f : OptimalPathNode → OptimalPathNode) : Priced PathNodes := do
  let node ← nodeAt nodes pos
  .ok (nodes.set pos (f node))

/-- The node that many positions before. -/
def nodeBefore (nodes : PathNodes) (pos back : Nat) : Priced OptimalPathNode :=
  if back ≤ pos then nodeAt nodes (pos - back) else .error .outside

/-- Watches the price of a node: it stays below the marker. -/
def accumulated (price : Nat) : Priced Nat := if price < maxPrice then .ok price else .error .marked

def markNode (node : OptimalPathNode) : OptimalPathNode := { node with price := maxPrice }

/-- A node reached by a match. -/
def matchNode (price off mlen : Nat) (node : OptimalPathNode) : OptimalPathNode :=
  { node with price, off, mlen, litlen := 0 }

section
variable (m : OptimalPriceModel)

/-- The node, and the match node that it replaces. -/
def updateOptimalLiteralNode (nodes : PathNodes) (pos : Nat) (byte : UInt8) :
    Priced (PathNodes × Option OptimalPathNode) := do
  let previous ← nodeBefore nodes pos 1
  let newLitlen ← addU32 previous.litlen 1
  let price ← addU32 previous.price (← m.literalBytePrice byte)
  let price ← addU32 price (← m.llPrice newLitlen)
  let price ← subU32 price (← m.llPrice previous.litlen)
  let price ← accumulated price
  let current ← nodeAt nodes pos
  if price ≤ current.price then
    let nodes ← modifyNode nodes pos fun _ => ⟨price, 0, 0, newLitlen, previous.reps⟩
    .ok (nodes, if current.litlen = 0 ∧ current.price < maxPrice then some current else none)
  else .ok (nodes, none)

/-- One length of a candidate: its price on top of those of the way there and of the offset. -/
def lengthPrice (candidatePrice matchLength : Nat) : Priced Nat := do
  accumulated (← addU32 candidatePrice (← m.matchLengthPrice matchLength))

/-- The nodes of one candidate in `init_optimal_match_nodes`. -/
def initCandidateNodes (basePrice horizon : Nat) (state : PathNodes × Nat) (candidate : OptimalMatchCandidate) :
    Priced (PathNodes × Nat) := do
  let (nodes, pos) := state
  let stop := min candidate.length horizon
  if pos > stop then .ok (nodes, pos) else
  let candidatePrice ← addU32 basePrice (← m.offsetPrice candidate.offsetValue)
  let nodes ← (List.range' pos (stop + 1 - pos)).foldlM (fun nodes matchLength => do
    let price ← lengthPrice m candidatePrice matchLength
    modifyNode nodes matchLength (matchNode price candidate.offsetValue matchLength)) nodes
  .ok (nodes, stop + 1)

/-- The nodes, and the last position that is in reach. -/
def initOptimalMatchNodes (nodes : PathNodes) (candidates : List OptimalMatchCandidate) (horizon minMatch : Nat) :
    Priced (PathNodes × Nat) := do
  let current ← nodeAt nodes 0
  if current.price ≥ maxPrice then .ok (nodes, 0) else
  let nodes ← (List.range' 1 (min (minMatch - 1) horizon)).foldlM (fun nodes p => do
    let litlen ← addU32 current.litlen p
    modifyNode nodes p fun node => { node with price := maxPrice, mlen := 0, litlen }) nodes
  let basePrice ← addU32 current.price (← m.llPrice 0)
  let (nodes, pos) ← candidates.foldlM (initCandidateNodes m basePrice horizon) (nodes, minMatch)
  let nodes ← (if pos ≤ horizon then modifyNode nodes pos markNode else .ok nodes)
  .ok (nodes, pos - 1)

/-- The positions up to `pos` come into reach, none of them as the end of a match. -/
def fillGap (nodes : PathNodes) (lastPos pos : Nat) : Priced PathNodes :=
  (List.range' (lastPos + 1) (pos - lastPos)).foldlM (fun nodes gap =>
    modifyNode nodes gap fun node => { node with price := maxPrice, litlen := 2 ^ 32 - 1 }) nodes

/-- The lengths of a candidate from the longest down, `count` of them above the previous candidate's length. -/
def updateCandidateNodes (cur candidatePrice offsetValue previousLength : Nat) :
    Nat → PathNodes × Nat → Priced (PathNodes × Nat)
  | 0, state => .ok state
  | count + 1, (nodes, lastPos) => do
    let matchLength := previousLength + count + 1
    let pos := cur + matchLength
    let price ← lengthPrice m candidatePrice matchLength
    if lastPos < pos ∨ price < (← nodeAt nodes pos).price then
      let nodes ← fillGap nodes lastPos pos
      let nodes ← modifyNode nodes pos (matchNode price offsetValue matchLength)
      updateCandidateNodes cur candidatePrice offsetValue previousLength count (nodes, max lastPos pos)
    else if m.options.isUltra = false then .ok (nodes, lastPos)
    else updateCandidateNodes cur candidatePrice offsetValue previousLength count (nodes, lastPos)

/-- The loop of `update_optimal_match_nodes` over the candidates. -/
def updateCandidates (cur basePrice maxReach : Nat) :
    List OptimalMatchCandidate → Nat → PathNodes × Nat → Priced (PathNodes × Nat)
  | [], _, state => .ok state
  | candidate :: candidates, previousLength, state => do
    let maxLength := min candidate.length maxReach
    if maxLength ≤ previousLength then updateCandidates cur basePrice maxReach candidates previousLength state else
    let candidatePrice ← addU32 basePrice (← m.offsetPrice candidate.offsetValue)
    let state ← updateCandidateNodes m cur candidatePrice candidate.offsetValue previousLength
      (maxLength - previousLength) state
    if maxLength = maxReach then .ok state
    else updateCandidates cur basePrice maxReach candidates maxLength state

/-- `update_optimal_match_nodes`: the nodes that the candidates of a position reach. -/
def updateOptimalMatchNodes (nodes : PathNodes) (cur lastPos : Nat) (candidates : List OptimalMatchCandidate)
    (horizon minMatch : Nat) : Priced (PathNodes × Nat) := do
  let current ← nodeAt nodes cur
  if current.price ≥ maxPrice then .ok (nodes, lastPos) else
  let basePrice ← addU32 current.price (← m.llPrice 0)
  updateCandidates m cur basePrice (horizon - cur) candidates (minMatch - 1) (nodes, lastPos)

/-! ## A match and one literal more -/

/-- `as i32` -/
def asI32 (a : Nat) : Priced Int := if a < 2 ^ 31 then .ok a else .error .wrapped

/-- A sum of signed words that has to fit. -/
def addI32 (a b : Int) : Priced Int := if -2 ^ 31 ≤ a + b ∧ a + b < 2 ^ 31 then .ok (a + b) else .error .wrapped

/-- A difference of signed words that has to fit. -/
def subI32 (a b : Int) : Priced Int := if -2 ^ 31 ≤ a - b ∧ a - b < 2 ^ 31 then .ok (a - b) else .error .wrapped

/-- `as u32` -/
def asU32 (a : Int) : Priced Nat := if 0 ≤ a ∧ a < 2 ^ 32 then .ok a.toNat else .error .wrapped

/-- `resolve_values` where its error is ignored. -/
def RepeatOffsets.resolved (reps : RepeatOffsets) (literalLength offsetValue : Nat) : RepeatOffsets :=
  match reps.resolveValues literalLength offsetValue with
  | .ok (_, reps) => reps
  | .error _ => reps

/-- The way on from a match that a literal has replaced, with the `byte` after that literal. -/
def matchPlusOneLiteral (nodes : PathNodes) (cur lastPos horizon : Nat) (prevMatch : OptimalPathNode)
    (byte : Option UInt8) : Priced (PathNodes × Nat) := do
  let ll1Inc ← subI32 (← asI32 (← m.llPrice 1)) (← asI32 (← m.llPrice 0))
  match byte with
  | none => .ok (nodes, lastPos)
  | some byte =>
    if 0 ≤ ll1Inc ∨ horizon < cur + 1 then .ok (nodes, lastPos) else
    let literal ← asI32 (← m.literalBytePrice byte)
    let with1literal ← addI32 (← asI32 prevMatch.price) literal
    let with1literal ← addI32 with1literal ll1Inc
    let node ← nodeAt nodes cur
    let newLitlen ← addU32 node.litlen 1
    let withMoreLiterals ← addI32 (← asI32 node.price) literal
    let withMoreLiterals ← addI32 withMoreLiterals (← asI32 (← m.llPrice newLitlen))
    let withMoreLiterals ← subI32 withMoreLiterals (← asI32 (← m.llPrice node.litlen))
    if withMoreLiterals ≤ with1literal then .ok (nodes, lastPos) else
    let price ← accumulated (← asU32 with1literal)
    if (← nodeAt nodes (cur + 1)).price ≤ price then .ok (nodes, lastPos) else
    let previous ← nodeBefore nodes cur prevMatch.mlen
    let reps := previous.reps.resolved previous.litlen prevMatch.off
    let nodes ← modifyNode nodes (cur + 1) fun _ => ⟨price, prevMatch.off, prevMatch.mlen, 1, reps⟩
    .ok (nodes, max lastPos (cur + 1))

end

/-! ## Nodes in reach -/

/-- A length and an offset value that have codes. -/
def HasCodes (offsetValue matchLength : Nat) : Prop := 3 ≤ matchLength ∧ 0 < offsetValue ∧ offsetValue < 2 ^ 32

/-- A node that the way back can go through. -/
def OptimalPathNode.Sane (node : OptimalPathNode) : Prop := node.mlen = 0 ∨ HasCodes node.off node.mlen

/-- A node in reach is no cheaper than its literals, and every position on the way adds a bounded price. -/
def OptimalPathNode.Reached (m : OptimalPriceModel) (litlen0 pos : Nat) (node : OptimalPathNode) : Prop :=
  ∃ l, m.llPrice node.litlen = .ok l ∧ l ≤ node.price ∧ node.price ≤ l + 40000 * pos ∧ node.litlen ≤ litlen0 + pos

/-- Every node of the table is sane. -/
structure NodesSane (nodes : PathNodes) : Prop where
  length_le : nodes.length ≤ optNum + 1
  sane : ∀ node ∈ nodes, node.Sane

/-- Before `cur` every node is in reach; up to `lastPos` the others hold the marker. -/
structure NodesOK (m : OptimalPriceModel) (litlen0 cur lastPos : Nat) (nodes : PathNodes) : Prop extends
    NodesSane nodes where
  settled : ∀ pos node, nodes[pos]? = some node → pos < cur → node.Reached m litlen0 pos
  reach : ∀ pos node, nodes[pos]? = some node → pos ≤ lastPos → node.price = maxPrice ∨ node.Reached m litlen0 pos

section
variable {m : OptimalPriceModel} {litlen0 cur lastPos pos : Nat} {nodes : PathNodes} {node : OptimalPathNode}

theorem llPrice_le (hm : m.Sound) {literalLength l : Nat} (h : m.llPrice literalLength = .ok l) : l ≤ 9727 :=
  (OptimalPriceModel.llPrice_avoids hm literalLength).of_eq_ok h

theorem llPrice_spec (hm : m.Sound) (literalLength : Nat) :
    Avoids PriceFault.Bad (m.llPrice literalLength) fun l => m.llPrice literalLength = .ok l ∧ l ≤ 9727 := by
  have h := OptimalPriceModel.llPrice_avoids hm literalLength
  cases hl : m.llPrice literalLength with
  | error e => exact .of_error (h.not_bad hl)
  | ok l => exact .of_ok ⟨rfl, h.of_eq_ok hl⟩

theorem nodeAt_avoids (nodes : PathNodes) (pos : Nat) :
    Avoids PriceFault.Bad (nodeAt nodes pos) (nodes[pos]? = some ·) := by
  unfold nodeAt
  cases nodes[pos]? with
  | none => exact .of_error id
  | some node => exact .of_ok rfl

theorem nodeBefore_avoids (nodes : PathNodes) (pos back : Nat) :
    Avoids PriceFault.Bad (nodeBefore nodes pos back) fun node => back ≤ pos ∧ nodes[pos - back]? = some node := by
  unfold nodeBefore
  split
  · rename_i hback
    exact (nodeAt_avoids nodes (pos - back)).mono fun node hnode => ⟨hback, hnode⟩
  · exact .of_error id

theorem modifyNode_avoids (nodes : PathNodes) (pos : Nat) (f : OptimalPathNode → OptimalPathNode) :
    Avoids PriceFault.Bad (modifyNode nodes pos f)
      fun nodes' => ∃ node, nodes[pos]? = some node ∧ nodes' = nodes.set pos (f node) := by
  unfold modifyNode
  exact (nodeAt_avoids nodes pos).bind fun node hnode => .of_ok ⟨node, hnode, rfl⟩

theorem accumulated_avoids {price : Nat} (h : price < maxPrice) :
    Avoids PriceFault.Bad (accumulated price) (price = ·) := by
  unfold accumulated
  rw [if_pos h]
  exact .of_ok rfl

theorem OptimalPathNode.Reached.price_lt (h : node.Reached m litlen0 pos) (hm : m.Sound) (hpos : pos ≤ optNum) :
    node.price < maxPrice := by
  obtain ⟨l, hl, -, hle, -⟩ := h
  have := llPrice_le hm hl
  unfold maxPrice optNum at *
  omega

theorem getElem?_set_cases {α : Type} {l : List α} {i j : Nat} {a b : α} (h : (l.set i a)[j]? = some b) :
    (i = j ∧ b = a) ∨ (i ≠ j ∧ l[j]? = some b) := by
  rw [List.getElem?_set] at h
  split at h
  · rename_i hij
    split at h
    · cases h
      exact .inl ⟨hij, rfl⟩
    · cases h
  · rename_i hij
    exact .inr ⟨hij, h⟩

theorem NodesSane.set (h : NodesSane nodes) (hnode : node.Sane) : NodesSane (nodes.set pos node) where
  length_le := List.length_set.trans_le h.length_le
  sane other hother := by
    rcases List.mem_or_eq_of_mem_set hother with hother | rfl
    · exact h.sane other hother
    · exact hnode

/-- One node is written. -/
theorem NodesOK.set {lastPos' : Nat} (h : NodesOK m litlen0 cur lastPos nodes) (hnode : node.Sane)
    (hsettled : pos < cur → node.Reached m litlen0 pos)
    (hreach : pos ≤ lastPos' → node.price = maxPrice ∨ node.Reached m litlen0 pos)
    (hlast : ∀ q ≤ lastPos', q ≤ lastPos ∨ q = pos) : NodesOK m litlen0 cur lastPos' (nodes.set pos node) where
  toNodesSane := h.toNodesSane.set hnode
  settled q other hq hlt := by
    rcases getElem?_set_cases hq with ⟨rfl, rfl⟩ | ⟨-, hq⟩
    · exact hsettled hlt
    · exact h.settled q other hq hlt
  reach q other hq hle := by
    rcases getElem?_set_cases hq with ⟨rfl, rfl⟩ | ⟨hne, hq⟩
    · exact hreach hle
    · rcases hlast q hle with hle | rfl
      · exact h.reach q other hq hle
      · exact absurd rfl hne

/-- A node that is not settled changes. -/
theorem NodesOK.modify {lastPos' : Nat} {f : OptimalPathNode → OptimalPathNode}
    (h : NodesOK m litlen0 cur lastPos nodes) (hcur : cur ≤ pos) (hsane : ∀ node, node.Sane → (f node).Sane)
    (hreach : pos ≤ lastPos' → ∀ node, (f node).price = maxPrice ∨ (f node).Reached m litlen0 pos)
    (hlast : ∀ q ≤ lastPos', q ≤ lastPos ∨ q = pos) :
    Avoids PriceFault.Bad (modifyNode nodes pos f) (NodesOK m litlen0 cur lastPos' ·) := by
  refine (modifyNode_avoids nodes pos f).mono ?_
  rintro _ ⟨node, hnode, rfl⟩
  exact h.set (hsane node (h.sane node (List.mem_of_getElem? hnode))) (fun hlt => absurd hlt (by omega))
    (fun hle => hreach hle node) hlast

theorem NodesOK.settle (h : NodesOK m litlen0 cur lastPos nodes)
    (hcur : ∀ node, nodes[cur]? = some node → node.Reached m litlen0 cur) :
    NodesOK m litlen0 (cur + 1) lastPos nodes where
  toNodesSane := h.toNodesSane
  settled q other hq hlt := by
    rcases Nat.lt_succ_iff_lt_or_eq.1 hlt with hlt | rfl
    · exact h.settled q other hq hlt
    · exact hcur other hq
  reach := h.reach

theorem NodesOK.pos_le (h : NodesOK m litlen0 cur lastPos nodes) (hnode : nodes[pos]? = some node) :
    pos ≤ optNum := by
  have hlt : pos < nodes.length := by
    by_contra hge
    rw [List.getElem?_eq_none (by omega)] at hnode
    cases hnode
  have := h.length_le
  omega

/-! ## Prices of nodes -/

/-- A literal node is as far above its literals as the node before, up to a literal. -/
theorem updateOptimalLiteralNode_avoids (hm : m.Sound) (h : NodesOK m litlen0 cur lastPos nodes) (hpos : 0 < cur)
    (hle : cur ≤ lastPos) (hlitlen : litlen0 < 2 ^ 31) (byte : UInt8) :
    Avoids PriceFault.Bad (updateOptimalLiteralNode m nodes cur byte) fun updated =>
      cur ≤ optNum ∧ NodesOK m litlen0 (cur + 1) lastPos updated.1 ∧
        ∀ replaced ∈ updated.2, replaced.Sane ∧ replaced.Reached m litlen0 cur ∧ replaced.litlen = 0 := by
  unfold updateOptimalLiteralNode
  refine (nodeBefore_avoids nodes cur 1).bind ?_
  rintro previous ⟨-, hprevious⟩
  obtain ⟨l, hl, hlow, hhigh, hlit⟩ := h.settled _ _ hprevious (by omega)
  have hcur := h.pos_le hprevious
  have hl9 := llPrice_le hm hl
  unfold optNum at hcur
  refine (addU32_avoids (by omega)).bind ?_
  rintro _ rfl
  refine (OptimalPriceModel.literalBytePrice_avoids hm byte).bind fun literal hliteral => ?_
  refine (addU32_avoids (by omega)).bind ?_
  rintro _ rfl
  refine (llPrice_spec hm _).bind ?_
  rintro l' ⟨hl', hl'9⟩
  refine (addU32_avoids (by omega)).bind ?_
  rintro _ rfl
  have hprice : Avoids PriceFault.Bad (m.llPrice previous.litlen) (l = ·) := by
    rw [hl]
    exact .of_ok rfl
  refine hprice.bind ?_
  rintro _ rfl
  refine (subU32_avoids (by omega)).bind fun price hprice => ?_
  refine (accumulated_avoids (by unfold maxPrice; omega)).bind ?_
  rintro _ rfl
  refine (nodeAt_avoids nodes cur).bind fun current hcurrent => ?_
  have hnode : OptimalPathNode.Reached m litlen0 cur ⟨price, 0, 0, previous.litlen + 1, previous.reps⟩ :=
    ⟨l', hl', by dsimp only; omega, by dsimp only; omega, by dsimp only; omega⟩
  split
  · refine (modifyNode_avoids nodes cur _).bind ?_
    rintro _ ⟨-, -, rfl⟩
    refine .of_ok ⟨h.pos_le hcurrent, NodesOK.settle (h.set (.inl rfl) (fun _ => hnode) (fun _ => .inr hnode)
      fun q hq => .inl hq) ?_, ?_⟩
    · intro node hset
      rcases getElem?_set_cases hset with ⟨-, rfl⟩ | ⟨hne, -⟩
      · exact hnode
      · exact absurd rfl hne
    · intro replaced hreplaced
      dsimp only at hreplaced
      split at hreplaced
      · rename_i hmatch
        cases hreplaced
        refine ⟨h.sane current (List.mem_of_getElem? hcurrent), ?_, hmatch.1⟩
        exact (h.reach cur current hcurrent hle).resolve_left (by omega)
      · cases hreplaced
  · rename_i hlarger
    refine .of_ok ⟨h.pos_le hcurrent, h.settle fun node hnode' => ?_, fun replaced hreplaced => nomatch hreplaced⟩
    rw [hcurrent] at hnode'
    cases hnode'
    have hlt := hnode.price_lt hm (h.pos_le hcurrent)
    dsimp only at hlt
    exact (h.reach cur current hcurrent hle).resolve_left (by omega)

/-- What a candidate of a node in reach costs before its length. -/
structure CandidatePrice (m : OptimalPriceModel) (cur candidatePrice : Nat) : Prop where
  price : ∃ l, m.llPrice 0 = .ok l ∧ l ≤ candidatePrice ∧ candidatePrice ≤ l + 40000 * cur + 30000

theorem candidatePrice_avoids (cur : Nat) (hm : m.Sound) {basePrice l offsetValue matchLength : Nat}
    (hl : m.llPrice 0 = .ok l)
    (hlow : l ≤ basePrice) (hhigh : basePrice ≤ l + 40000 * cur + 9727) (hcur : cur ≤ optNum)
    (hcodes : HasCodes offsetValue matchLength) {k : Nat → Priced α} {post : α → Prop}
    (hk : ∀ price, CandidatePrice m cur price → Avoids PriceFault.Bad (k price) post) :
    Avoids PriceFault.Bad (do k (← addU32 basePrice (← m.offsetPrice offsetValue))) post := by
  have hl9 := llPrice_le hm hl
  unfold optNum at hcur
  refine (OptimalPriceModel.offsetPrice_avoids hm hcodes.2.1 hcodes.2.2).bind fun offset hoffset => ?_
  refine (addU32_avoids (by omega)).bind fun price hprice => hk price ⟨l, hl, by omega, by omega⟩

theorem lengthPrice_avoids (litlen0 off matchLength : Nat) (hm : m.Sound) {candidatePrice : Nat}
    (h : CandidatePrice m cur candidatePrice) (hlength : 3 ≤ matchLength) (hle : cur + matchLength ≤ optNum) :
    Avoids PriceFault.Bad (lengthPrice m candidatePrice matchLength) fun price =>
      ∀ node, (matchNode price off matchLength node).Reached m litlen0 (cur + matchLength) := by
  obtain ⟨l, hl, hlow, hhigh⟩ := h.price
  have hl9 := llPrice_le hm hl
  unfold optNum at hle
  unfold lengthPrice
  refine (OptimalPriceModel.matchLengthPrice_avoids hm hlength).bind fun length hlengthPrice => ?_
  refine (addU32_avoids (by omega)).bind fun price hprice => ?_
  refine (accumulated_avoids (by unfold maxPrice; omega)).mono ?_
  rintro _ rfl node
  exact ⟨l, hl, by dsimp only [matchNode]; omega, by dsimp only [matchNode]; omega, Nat.zero_le _⟩

/-! ## Writing the nodes ahead -/

theorem matchNode_sane {price off mlen : Nat} (h : HasCodes off mlen) (node : OptimalPathNode) :
    (matchNode price off mlen node).Sane := .inr h

/-- The nodes of the next positions of a range, one after the other. -/
theorem NodesOK.extend {f : PathNodes → Nat → Priced PathNodes} {n : Nat}
    (hf : ∀ p nodes, lastPos < p → p ≤ lastPos + n → NodesOK m litlen0 cur (p - 1) nodes →
      Avoids PriceFault.Bad (f nodes p) (NodesOK m litlen0 cur p ·)) (h : NodesOK m litlen0 cur lastPos nodes) :
    Avoids PriceFault.Bad ((List.range' (lastPos + 1) n).foldlM f nodes) (NodesOK m litlen0 cur (lastPos + n) ·) := by
  have hloop := Avoids.foldlM_range' (fun p nodes => NodesOK m litlen0 cur (p - 1) nodes) (f := f) (n := n)
    (fun p (hlow : lastPos + 1 ≤ p) hhigh nodes hnodes => hf p nodes (by omega) (by omega) hnodes) h
  rwa [show lastPos + 1 + n - 1 = lastPos + n by omega] at hloop

/-- Every position of a gap is as good as out of reach. -/
theorem fillGap_avoids (h : NodesOK m litlen0 cur lastPos nodes) (hcur : cur ≤ lastPos + 1) (pos : Nat) :
    Avoids PriceFault.Bad (fillGap nodes lastPos pos) (NodesOK m litlen0 cur (max lastPos pos) ·) := by
  have hloop := h.extend (n := pos - lastPos)
    (f := fun nodes gap => modifyNode nodes gap fun node => { node with price := maxPrice, litlen := 2 ^ 32 - 1 })
    fun p nodes hlow _ hnodes => hnodes.modify (by omega) (fun _ hnode => hnode) (fun _ _ => .inl rfl)
      fun q hq => by omega
  rwa [show lastPos + (pos - lastPos) = max lastPos pos by omega] at hloop

theorem initCandidateNodes_avoids (hm : m.Sound) {basePrice l horizon : Nat} (hl : m.llPrice 0 = .ok l)
    (hlow : l ≤ basePrice) (hhigh : basePrice ≤ l + 9727) (hhorizon : horizon ≤ optNum)
    {candidate : OptimalMatchCandidate} (hcodes : HasCodes candidate.offsetValue candidate.length)
    {state : PathNodes × Nat} (hpos : 3 ≤ state.2) (h : NodesOK m litlen0 1 (state.2 - 1) state.1) :
    Avoids PriceFault.Bad (initCandidateNodes m basePrice horizon state candidate) fun state' =>
      3 ≤ state'.2 ∧ NodesOK m litlen0 1 (state'.2 - 1) state'.1 := by
  obtain ⟨nodes, pos⟩ := state
  unfold initCandidateNodes
  dsimp only at *
  split
  · exact .of_ok ⟨hpos, h⟩
  · rename_i hstop
    refine candidatePrice_avoids 0 hm hl hlow (by omega) (Nat.zero_le _) hcodes fun price hprice => ?_
    have hloop := h.extend (n := min candidate.length horizon + 1 - pos)
      (f := fun nodes matchLength => do
        let price ← lengthPrice m price matchLength
        modifyNode nodes matchLength (matchNode price candidate.offsetValue matchLength))
      fun p nodes hlow' hhigh' hnodes => by
        have hlength := lengthPrice_avoids litlen0 candidate.offsetValue p hm hprice (by omega) (by omega)
        refine hlength.bind fun price' hprice' => ?_
        rw [Nat.zero_add] at hprice'
        exact hnodes.modify (by omega) (fun node _ => matchNode_sane ⟨by omega, hcodes.2⟩ node)
          (fun _ node => .inr (hprice' node)) fun q hq => by omega
    rw [show pos - 1 + 1 = pos by omega,
      show pos - 1 + (min candidate.length horizon + 1 - pos) = min candidate.length horizon by omega] at hloop
    exact hloop.bind fun nodes' hnodes' => .of_ok ⟨by dsimp only; omega, hnodes'⟩

/-- The first nodes come into reach one after the other. -/
theorem initOptimalMatchNodes_avoids (hm : m.Sound) (h : NodesOK m litlen0 1 0 nodes) {horizon minMatch : Nat}
    (hminMatch : 3 ≤ minMatch) (hmin : minMatch ≤ horizon) (hhorizon : horizon ≤ optNum) (hlitlen : litlen0 < 2 ^ 31)
    {candidates : List OptimalMatchCandidate} (hcodes : ∀ c ∈ candidates, HasCodes c.offsetValue c.length) :
    Avoids PriceFault.Bad (initOptimalMatchNodes m nodes candidates horizon minMatch) fun state =>
      NodesOK m litlen0 1 state.2 state.1 := by
  unfold optNum at hhorizon
  unfold initOptimalMatchNodes
  refine (nodeAt_avoids nodes 0).bind fun current hcurrent => ?_
  obtain ⟨l, hl, hlow, hhigh, hlit⟩ := h.settled 0 current hcurrent Nat.one_pos
  have hl9 := llPrice_le hm hl
  split
  · exact .of_ok h
  have hbelow := h.extend (n := minMatch - 1)
    (f := fun nodes p => do
      let litlen ← addU32 current.litlen p
      modifyNode nodes p fun node => { node with price := maxPrice, mlen := 0, litlen })
    fun p nodes _ hp hnodes => (addU32_avoids (by omega)).bind fun litlen _ =>
      hnodes.modify (by omega) (fun _ _ => .inl rfl) (fun _ _ => .inl rfl) fun q hq => by omega
  rw [Nat.zero_add] at hbelow
  rw [Nat.min_eq_left (by omega)]
  refine hbelow.bind fun nodes hnodes => ?_
  refine (llPrice_spec hm 0).bind ?_
  rintro l0 ⟨hl0, hl09⟩
  refine (addU32_avoids (by omega)).bind fun basePrice hbase => ?_
  have hcandidates := Avoids.foldlM (fun state => 3 ≤ state.2 ∧ NodesOK m litlen0 1 (state.2 - 1) state.1)
    (f := initCandidateNodes m basePrice horizon) (l := candidates) (a := (nodes, minMatch))
    (fun candidate hcandidate state hstate => initCandidateNodes_avoids hm hl0 (by omega) (by omega)
      (by unfold optNum; omega) (hcodes candidate hcandidate) hstate.1 hstate.2)
    ⟨hminMatch, by rwa [Nat.zero_add] at hnodes⟩
  refine hcandidates.bind ?_
  rintro ⟨nodes', pos⟩ ⟨hpos, hnodes'⟩
  dsimp only at *
  have hmark : Avoids PriceFault.Bad (if pos ≤ horizon then modifyNode nodes' pos markNode else .ok nodes')
      (NodesOK m litlen0 1 (pos - 1) ·) := by
    split
    · exact hnodes'.modify (by omega) (fun _ hnode => hnode) (fun _ _ => .inl rfl) fun q hq => .inl hq
    · exact .of_ok hnodes'
  exact hmark.bind fun nodes'' hnodes'' => .of_ok hnodes''

theorem updateCandidateNodes_avoids (hm : m.Sound) {candidatePrice offsetValue previousLength matchLength : Nat}
    (hprice : CandidatePrice m cur candidatePrice) (hcodes : HasCodes offsetValue matchLength)
    (hprevious : 2 ≤ previousLength) : ∀ (count : Nat) (state : PathNodes × Nat),
      cur + previousLength + count ≤ optNum → cur ≤ state.2 → NodesOK m litlen0 (cur + 1) state.2 state.1 →
        Avoids PriceFault.Bad (updateCandidateNodes m cur candidatePrice offsetValue previousLength count state)
          fun state' => cur ≤ state'.2 ∧ NodesOK m litlen0 (cur + 1) state'.2 state'.1
  | 0, _, _, hcur, h => .of_ok ⟨hcur, h⟩
  | count + 1, (nodes, lastPos), hle, hcur, h => by
    unfold updateCandidateNodes
    dsimp only at *
    have hlength := lengthPrice_avoids litlen0 offsetValue (previousLength + count + 1) hm hprice (by omega) (by omega)
    refine hlength.bind fun price hprice' => ?_
    refine (nodeAt_avoids nodes _).bind fun target _ => ?_
    split
    · refine (fillGap_avoids h (by omega) (cur + (previousLength + count + 1))).bind fun nodes hnodes => ?_
      refine (hnodes.modify (by omega) (fun node _ => matchNode_sane ⟨by omega, hcodes.2⟩ node)
        (fun _ node => .inr (hprice' node)) fun q hq => .inl hq).bind fun nodes' hnodes' => ?_
      exact updateCandidateNodes_avoids hm hprice hcodes hprevious count (nodes', _) (by omega)
        (by dsimp only; omega) hnodes'
    · split
      · exact .of_ok ⟨hcur, h⟩
      · exact updateCandidateNodes_avoids hm hprice hcodes hprevious count (nodes, lastPos) (by omega) hcur h

theorem updateCandidates_avoids (hm : m.Sound) {basePrice l maxReach : Nat} (hl : m.llPrice 0 = .ok l)
    (hlow : l ≤ basePrice) (hhigh : basePrice ≤ l + 40000 * cur + 9727) (hle : cur + maxReach ≤ optNum) :
    ∀ (candidates : List OptimalMatchCandidate) (previousLength : Nat) (state : PathNodes × Nat),
      (∀ c ∈ candidates, HasCodes c.offsetValue c.length) → 2 ≤ previousLength → cur ≤ state.2 →
        NodesOK m litlen0 (cur + 1) state.2 state.1 →
          Avoids PriceFault.Bad (updateCandidates m cur basePrice maxReach candidates previousLength state)
            fun state' => cur ≤ state'.2 ∧ NodesOK m litlen0 (cur + 1) state'.2 state'.1
  | [], _, _, _, _, hcur, h => .of_ok ⟨hcur, h⟩
  | candidate :: candidates, previousLength, state, hcodes, hprevious, hcur, h => by
    have hfirst := hcodes candidate List.mem_cons_self
    have hrest : ∀ c ∈ candidates, HasCodes c.offsetValue c.length :=
      fun c hc => hcodes c (List.mem_cons_of_mem _ hc)
    unfold updateCandidates
    dsimp only
    split
    · exact updateCandidates_avoids hm hl hlow hhigh hle candidates _ state hrest hprevious hcur h
    · refine candidatePrice_avoids cur hm hl hlow hhigh (by omega) hfirst fun price hprice => ?_
      refine (updateCandidateNodes_avoids hm hprice hfirst hprevious _ state (by omega) hcur h).bind ?_
      rintro state' ⟨hcur', h'⟩
      split
      · exact .of_ok ⟨hcur', h'⟩
      · exact updateCandidates_avoids hm hl hlow hhigh hle candidates _ state' hrest (by omega) hcur' h'

/-- The nodes that the candidates of a settled node reach. -/
theorem updateOptimalMatchNodes_avoids (hm : m.Sound) (h : NodesOK m litlen0 (cur + 1) lastPos nodes)
    (hcur : cur ≤ lastPos) {horizon minMatch : Nat} (hminMatch : 3 ≤ minMatch) (hhorizon : horizon ≤ optNum)
    {candidates : List OptimalMatchCandidate} (hcodes : ∀ c ∈ candidates, HasCodes c.offsetValue c.length) :
    Avoids PriceFault.Bad (updateOptimalMatchNodes m nodes cur lastPos candidates horizon minMatch) fun state =>
      cur ≤ state.2 ∧ NodesOK m litlen0 (cur + 1) state.2 state.1 := by
  unfold updateOptimalMatchNodes
  refine (nodeAt_avoids nodes cur).bind fun current hcurrent => ?_
  obtain ⟨l, hl, hlow, hhigh, -⟩ := h.settled cur current hcurrent (Nat.lt_succ_self _)
  have hl9 := llPrice_le hm hl
  have hpos := h.pos_le hcurrent
  unfold optNum at hpos hhorizon
  split
  · exact .of_ok ⟨hcur, h⟩
  refine (llPrice_spec hm 0).bind ?_
  rintro l0 ⟨hl0, hl09⟩
  refine (addU32_avoids (by omega)).bind fun basePrice hbase => ?_
  exact updateCandidates_avoids hm hl0 (by omega) (by omega) (by unfold optNum; omega) candidates _ _ hcodes
    (by omega) hcur h

/-! ## Signed prices -/

theorem asI32_avoids {a : Nat} (h : a < 2 ^ 31) : Avoids PriceFault.Bad (asI32 a) (· = (a : Int)) := by
  unfold asI32
  rw [if_pos h]
  exact .of_ok rfl

theorem addI32_avoids {a b : Int} (h : -2 ^ 31 ≤ a + b ∧ a + b < 2 ^ 31) :
    Avoids PriceFault.Bad (addI32 a b) (· = a + b) := by
  unfold addI32
  rw [if_pos h]
  exact .of_ok rfl

theorem subI32_avoids {a b : Int} (h : -2 ^ 31 ≤ a - b ∧ a - b < 2 ^ 31) :
    Avoids PriceFault.Bad (subI32 a b) (· = a - b) := by
  unfold subI32
  rw [if_pos h]
  exact .of_ok rfl

theorem asU32_avoids {a : Int} (h : 0 ≤ a ∧ a < 2 ^ 32) : Avoids PriceFault.Bad (asU32 a) fun b => (b : Int) = a := by
  unfold asU32
  rw [if_pos h]
  exact .of_ok (Int.toNat_of_nonneg h.1)

theorem signedLlPrice_avoids (hm : m.Sound) (literalLength : Nat) {k : Int → Priced α} {post : α → Prop}
    (hk : ∀ l : Nat, m.llPrice literalLength = .ok l → l ≤ 9727 → Avoids PriceFault.Bad (k l) post) :
    Avoids PriceFault.Bad (do k (← asI32 (← m.llPrice literalLength))) post := by
  refine (llPrice_spec hm literalLength).bind ?_
  rintro l ⟨hl, hl9⟩
  refine (asI32_avoids (by omega)).bind ?_
  rintro _ rfl
  exact hk l hl hl9

/-- The casts of the shortcut are exact, and its node is in reach. -/
theorem matchPlusOneLiteral_avoids (hm : m.Sound) (h : NodesOK m litlen0 (cur + 1) lastPos nodes)
    (hcur : cur ≤ lastPos) (hpos : cur ≤ optNum) (hlitlen : litlen0 < 2 ^ 31) (horizon : Nat)
    {prevMatch : OptimalPathNode} (hsane : prevMatch.Sane) (hprev : prevMatch.Reached m litlen0 cur)
    (hend : prevMatch.litlen = 0) (byte : Option UInt8) :
    Avoids PriceFault.Bad (matchPlusOneLiteral m nodes cur lastPos horizon prevMatch byte) fun state =>
      cur ≤ state.2 ∧ NodesOK m litlen0 (cur + 1) state.2 state.1 := by
  obtain ⟨l0, hl0, hlow, hhigh, -⟩ := hprev
  rw [hend] at hl0
  have hl09 := llPrice_le hm hl0
  unfold optNum at hpos
  unfold matchPlusOneLiteral
  refine signedLlPrice_avoids hm 1 fun l1 hl1 hl19 => ?_
  refine signedLlPrice_avoids hm 0 fun l0' hl0' _ => ?_
  have hl0l0' := hl0.symm.trans hl0'
  cases hl0l0'
  refine (subI32_avoids (by omega)).bind ?_
  rintro _ rfl
  cases byte with
  | none => exact .of_ok ⟨hcur, h⟩
  | some byte =>
  dsimp only
  split
  · exact .of_ok ⟨hcur, h⟩
  refine (OptimalPriceModel.literalBytePrice_avoids hm byte).bind fun literal hliteral => ?_
  refine (asI32_avoids (by omega)).bind ?_
  rintro _ rfl
  refine (asI32_avoids (by omega)).bind fun prevPrice hprevPrice => ?_
  refine (addI32_avoids (by omega)).bind fun withLiteral hwithLiteral => ?_
  refine (addI32_avoids (by omega)).bind fun with1literal hwith => ?_
  refine (nodeAt_avoids nodes cur).bind fun node hnode => ?_
  obtain ⟨l, hl, hlow', hhigh', hlit⟩ := h.settled cur node hnode (Nat.lt_succ_self _)
  have hl9 := llPrice_le hm hl
  refine (addU32_avoids (by omega)).bind fun newLitlen _ => ?_
  refine (asI32_avoids (by omega)).bind fun nodePrice hnodePrice => ?_
  refine (addI32_avoids (by omega)).bind fun withNext hwithNext => ?_
  refine signedLlPrice_avoids hm newLitlen fun l' _ hl'9 => ?_
  refine (addI32_avoids (by omega)).bind fun withMore hwithMore => ?_
  refine signedLlPrice_avoids hm node.litlen fun l'' _ hl''9 => ?_
  refine (subI32_avoids (by omega)).bind fun withMoreLiterals _ => ?_
  split
  · exact .of_ok ⟨hcur, h⟩
  -- the match is above its literals, so the price is above those of one literal
  refine (asU32_avoids (by omega)).bind fun price hprice => ?_
  refine (accumulated_avoids (by unfold maxPrice; omega)).bind ?_
  rintro _ rfl
  refine (nodeAt_avoids nodes (cur + 1)).bind fun target _ => ?_
  split
  · exact .of_ok ⟨hcur, h⟩
  refine (nodeBefore_avoids nodes cur prevMatch.mlen).bind fun previous _ => ?_
  let next : OptimalPathNode :=
    ⟨price, prevMatch.off, prevMatch.mlen, 1, previous.reps.resolved previous.litlen prevMatch.off⟩
  have hreached : next.Reached m litlen0 (cur + 1) :=
    ⟨l1, hl1, by dsimp only [next]; omega, by dsimp only [next]; omega, by dsimp only [next]; omega⟩
  have hset : Avoids PriceFault.Bad (modifyNode nodes (cur + 1) fun _ => next)
      (NodesOK m litlen0 (cur + 1) (max lastPos (cur + 1)) ·) :=
    h.modify le_rfl (fun _ _ => hsane) (fun _ _ => .inr hreached) fun q hq => by omega
  refine hset.bind fun nodes' hnodes' => ?_
  exact .of_ok ⟨hcur.trans (Nat.le_max_left _ _), hnodes'⟩

end

end Zstandard
