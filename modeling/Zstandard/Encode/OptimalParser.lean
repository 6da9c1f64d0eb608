/-
The optimal parser over the blocks of a frame: candidates at a position, the pass over the positions ahead, the way
back through the nodes, and the statistics that one block leaves to the next.

What the match finders report is arbitrary, and so is what they keep from one search to the next. The prices that the
parser makes of it never reach the marker and never leave their types (`planBlocks_exact`).
-/
import Zstandard.Encode.OptimalPath

namespace Zstandard

open Outcome
open Ldm (optNum OptimalMatchCandidate LdmCandidates)

/-! ## Candidates -/

/-- The shortest match that is offered. -/
def optRepcodeMinMatch : Nat := 3

/-- What a match finder reports: an offset within the largest window, and a length that a u32 holds. -/
structure ReportedMatch where
  rawOffset : Nat
  length : Nat
  rawOffset_le : rawOffset ≤ 2 ^ 31
  length_lt : length < 2 ^ 32

/-- `classify_offset`. -/
def RepeatOffsets.classifyOffset (r : RepeatOffsets) (rawOffset literalLength : Nat) : Nat :=
  let llZero := literalLength = 0
  if ¬ llZero ∧ rawOffset = r.rep1 then 1
  else if rawOffset = r.rep2 then (if llZero then 1 else 2)
  else if rawOffset = r.rep3 then (if llZero then 2 else 3)
  else if llZero ∧ r.rep1 > 1 ∧ rawOffset = r.rep1 - 1 then 3
  else rawOffset + 3

/-- `push_optimal_candidate`: a match that is too short is left out. -/
def pushOptimalCandidate (candidates : List OptimalMatchCandidate) (found : ReportedMatch) (reps : RepeatOffsets)
    (literalLength : Nat) : List OptimalMatchCandidate :=
  if found.rawOffset = 0 ∨ found.length < optRepcodeMinMatch then candidates
  else candidates ++ [⟨reps.classifyOffset found.rawOffset literalLength, found.length⟩]

/-- The match finders with their tables, in any state, and what they report at a position: nothing where their tables
are already past it. -/
structure OptimalSearch (σ : Type) where
  report : σ → (position : Nat) → (reps : RepeatOffsets) → (literalLength : Nat) → Option (List ReportedMatch) × σ

/-- A block to parse: the input up to its end, where it starts, the bits that a dictionary's tables spend on symbols,
and the long-distance matches. -/
structure OptimalBlock (σ : Type) where
  src : Bytes
  blockStart : Nat
  reps : RepeatOffsets
  seedCosts : Option ((Nat → Nat) × (Nat → Nat) × (Nat → Nat) × (Nat → Nat))
  minMatch : Nat
  targetLength : Nat
  /-- The parser is the one over a prefix, which starts at the second byte of the input. -/
  twoPhase : Bool
  search : OptimalSearch σ
  finder : σ
  ldm : Option (List Ldm.RawSequence)
  minMatch_ge : 3 ≤ minMatch
  blockLength_le : src.length - blockStart ≤ 2 ^ 17
  ldmOffset_le : ∀ sequences ∈ ldm, ∀ sequence ∈ sequences, sequence.offset ≤ 2 ^ 31

/-- The tables of the match finders, and the cursor over the long-distance matches. -/
structure SearchState (σ : Type) where
  finder : σ
  ldm : Option LdmCandidates

namespace OptimalBlock

variable {σ : Type} (b : OptimalBlock σ)

/-- Past it no match is searched. -/
def limit : Nat := b.src.length - 8

/-- A match as long as this is taken at once. -/
def sufficientLen : Nat := min b.targetLength (optNum - 1)

/-- The shortest match that the nodes know. -/
def minLength : Nat := if b.minMatch = 3 then 3 else 4

/-- The shortest long-distance match, of which the two parsers have different notions. -/
def ldmMinMatch : Nat := if b.twoPhase then b.minMatch else b.minLength

/-- `collect_optimal_matches` and `offer`, which the parser over a prefix leaves out where it has not searched. -/
def collect (s : SearchState σ) (position : Nat) (reps : RepeatOffsets) (literalLength : Nat) :
    List OptimalMatchCandidate × SearchState σ :=
  let (found, finder) := b.search.report s.finder position reps literalLength
  let candidates :=
    (found.getD []).foldl (fun candidates m => pushOptimalCandidate candidates m reps literalLength) []
  match s.ldm with
  | none => (candidates, ⟨finder, none⟩)
  | some ldm =>
    if b.twoPhase ∧ found.isNone then (candidates, ⟨finder, some ldm⟩) else
    let (ldm, candidates) := ldm.offer candidates (position - b.blockStart) (b.src.length - position) b.ldmMinMatch
    (candidates, ⟨finder, some ldm⟩)

end OptimalBlock

theorem RepeatOffsets.classifyOffset_bounds (r : RepeatOffsets) {rawOffset : Nat} (literalLength : Nat)
    (h : rawOffset ≤ 2 ^ 31) :
    0 < r.classifyOffset rawOffset literalLength ∧ r.classifyOffset rawOffset literalLength < 2 ^ 32 := by
  unfold classifyOffset
  dsimp only
  split_ifs <;> omega

theorem pushOptimalCandidate_hasCodes {candidates : List OptimalMatchCandidate} (found : ReportedMatch)
    (reps : RepeatOffsets) (literalLength : Nat) (h : ∀ c ∈ candidates, HasCodes c.offsetValue c.length) :
    ∀ c ∈ pushOptimalCandidate candidates found reps literalLength, HasCodes c.offsetValue c.length := by
  unfold pushOptimalCandidate optRepcodeMinMatch
  split
  · exact h
  · rename_i hfound
    intro c hc
    rcases List.mem_append.1 hc with hc | hc
    · exact h c hc
    · rw [List.mem_singleton.1 hc]
      exact ⟨by dsimp only; omega, reps.classifyOffset_bounds literalLength found.rawOffset_le⟩

theorem pushed_hasCodes (reps : RepeatOffsets) (literalLength : Nat) :
    ∀ (found : List ReportedMatch) (candidates : List OptimalMatchCandidate),
      (∀ c ∈ candidates, HasCodes c.offsetValue c.length) →
        ∀ c ∈ found.foldl (fun candidates m => pushOptimalCandidate candidates m reps literalLength) candidates,
          HasCodes c.offsetValue c.length
  | [], _, h => h
  | m :: found, _, h =>
    pushed_hasCodes reps literalLength found _ (pushOptimalCandidate_hasCodes m reps literalLength h)

/-- A candidate that is added at a position is the rest of the long-distance match there. -/
theorem Ldm.LdmCandidates.Aligned.offered {sequences : List Ldm.RawSequence} {blockLen : Nat} {c : LdmCandidates}
    (h : Ldm.LdmCandidates.Aligned sequences blockLen c) {position : Nat} (hle : position ≤ blockLen)
    (candidates : List OptimalMatchCandidate) (minMatch : Nat) :
    ∀ m ∈ (c.offer candidates position (blockLen - position) minMatch).2, m ∈ candidates ∨
      LdmCandidates.Covers sequences blockLen position m ∧ minMatch ≤ m.length := by
  have hnext := h.offer hle candidates minMatch
  unfold LdmCandidates.offer at hnext ⊢
  by_cases hcurrent : c.cursor.current = none
  · rw [if_pos hcurrent]
    exact fun m hm => .inl hm
  · rw [if_neg hcurrent] at hnext ⊢
    dsimp only at hnext ⊢
    generalize c.advanceTo position (blockLen - position) = c at hnext
    rcases Ldm.LdmCandidates.addMatch_cases c candidates position minMatch with
      heq | ⟨span, hspan, hstart, hstop, hmin, -, -, heq⟩
    · rw [heq]
      exact fun m hm => .inl hm
    · rw [heq]
      obtain ⟨-, s, start, stop, hlies, hlow, hup, hoffset⟩ := hnext.span span hspan
      intro m hm
      rcases List.mem_append.1 hm with hm | hm
      · exact .inl hm
      · cases List.mem_singleton.1 hm
        refine .inr ⟨⟨s, start, stop, hlies, by omega, by omega, by rw [hoffset], ?_⟩, hmin⟩
        dsimp only
        omega

namespace OptimalBlock

variable {σ : Type} {b : OptimalBlock σ}

theorem ldmMinMatch_ge : 3 ≤ b.ldmMinMatch := by
  have := b.minMatch_ge
  unfold ldmMinMatch minLength
  split_ifs <;> omega

/-- The cursor has been over the block's own long-distance matches only. -/
def SearchOK (b : OptimalBlock σ) (s : SearchState σ) : Prop :=
  ∀ ldm, s.ldm = some ldm → ∃ sequences, b.ldm = some sequences ∧
    LdmCandidates.Reached sequences (b.src.length - b.blockStart) ldm

theorem collect_ok {s : SearchState σ} (hs : b.SearchOK s) {position : Nat} (hlow : b.blockStart ≤ position)
    (hle : position ≤ b.src.length) (reps : RepeatOffsets) (literalLength : Nat) :
    (∀ c ∈ (b.collect s position reps literalLength).1, HasCodes c.offsetValue c.length) ∧
      b.SearchOK (b.collect s position reps literalLength).2 := by
  unfold collect
  obtain ⟨found, finder⟩ := b.search.report s.finder position reps literalLength
  dsimp only
  have hpushed := pushed_hasCodes reps literalLength (found.getD []) [] (fun c hc => nomatch hc)
  cases hldm : s.ldm with
  | none => exact ⟨hpushed, fun ldm h => nomatch h⟩
  | some ldm =>
    obtain ⟨sequences, hsequences, hreached⟩ := hs ldm hldm
    dsimp only
    split
    · refine ⟨hpushed, fun ldm' h => ?_⟩
      cases h
      exact ⟨sequences, hsequences, hreached⟩
    · have hin : position - b.blockStart ≤ b.src.length - b.blockStart := by omega
      rw [show b.src.length - position = b.src.length - b.blockStart - (position - b.blockStart) by omega]
      refine ⟨fun c hc => ?_, fun ldm' h => ?_⟩
      · have hcovers := hreached.aligned.offered hin _ b.ldmMinMatch c hc
        rcases hcovers with hc | ⟨⟨sequence, _, _, ⟨k, hk, -⟩, -, -, hvalue, -⟩, hmin⟩
        · exact hpushed c hc
        · have hoffset := b.ldmOffset_le sequences hsequences sequence (List.mem_of_getElem? hk)
          have hge := ldmMinMatch_ge (b := b)
          exact ⟨by omega, by omega, by omega⟩
      · cases h
        exact ⟨sequences, hsequences, .offer _ _ hreached hin⟩

end OptimalBlock

/-! ## One pass over the positions ahead -/

/-- The table, its last position and the finder, in the middle of a forward pass. -/
structure ForwardState (σ : Type) where
  nodes : PathNodes
  lastPos : Nat
  state : SearchState σ

/-- How a step of the pass over the positions ends. -/
inductive ForwardExit where
  | next | stop
  | stretch (candidate : OptimalMatchCandidate)

section
variable {σ : Type} (b : OptimalBlock σ) (m : OptimalPriceModel)

/-- The repeat offsets of a node that ends a match. -/
def resolveNodeReps (nodes : PathNodes) (cur : Nat) : Priced PathNodes := do
  let node ← nodeAt nodes cur
  if node.litlen ≠ 0 then .ok nodes else
  let previous ← nodeBefore nodes cur node.mlen
  modifyNode nodes cur fun node => { node with reps := previous.reps.resolved previous.litlen node.off }

/-- The search at a node, and the nodes that its candidates reach. -/
def searchNode (ip horizon cur : Nat) (s : ForwardState σ) (node : OptimalPathNode) :
    Priced (ForwardState σ × ForwardExit) :=
  let (candidates, state) := b.collect s.state (ip + cur) node.reps node.litlen
  match candidates.getLast? with
  | none => .ok ({ s with state }, .next)
  | some best =>
    if best.length > b.sufficientLen ∨ cur + best.length ≥ horizon ∨ ip + cur + best.length ≥ b.src.length then
      .ok ({ s with state }, .stretch best)
    else do
      let (nodes, lastPos) ← updateOptimalMatchNodes m s.nodes cur s.lastPos candidates horizon b.minLength
      .ok (⟨nodes, lastPos, state⟩, .next)

/-- One position of the forward pass. -/
def forwardStep (ip horizon cur : Nat) (s : ForwardState σ) : Priced (ForwardState σ × ForwardExit) := do
  let byte ← (match b.src[ip + cur - 1]? with
    | some byte => .ok byte
    | none => .error .outside)
  let (nodes, replacedMatch) ← updateOptimalLiteralNode m s.nodes cur byte
  let nodes ← resolveNodeReps nodes cur
  let (nodes, lastPos) ← (match m.options.isUltra, replacedMatch with
    | true, some prevMatch => matchPlusOneLiteral m nodes cur s.lastPos horizon prevMatch b.src[ip + cur]?
    | _, _ => .ok (nodes, s.lastPos))
  if ip + cur > b.limit then .ok (⟨nodes, lastPos, s.state⟩, .next) else
  if cur = lastPos then .ok (⟨nodes, lastPos, s.state⟩, .stop) else
  let node ← nodeAt nodes cur
  let skip ← (if m.options.isUltra = false ∧ cur + 1 ≤ horizon then do
      let near ← addU32 node.price (optPriceUnit / 2)
      .ok (decide ((← nodeAt nodes (cur + 1)).price ≤ near))
    else .ok false)
  if skip then .ok (⟨nodes, lastPos, s.state⟩, .next) else
  searchNode b m ip horizon cur ⟨nodes, lastPos, s.state⟩ node

/-- The loop over the positions, with the candidate that ends it and its position. -/
def forwardPass (ip horizon : Nat) : Nat → Nat → ForwardState σ →
    Priced (ForwardState σ × Option (OptimalMatchCandidate × Nat))
  | 0, _, _ => .error .outside
  | fuel + 1, cur, s =>
    if cur > s.lastPos then .ok (s, none) else do
    let (s, exit) ← forwardStep b m ip horizon cur s
    match exit with
    | .next => forwardPass ip horizon fuel (cur + 1) s
    | .stop => .ok (s, none)
    | .stretch candidate => .ok (s, some (candidate, cur))

end

/-! ## The way back -/

/-- Back over literals. -/
def literalStart (nodes : PathNodes) : Nat → Priced Nat
  | 0 => .ok 0
  | pos + 1 => do
    let node ← nodeAt nodes (pos + 1)
    if node.mlen = 0 then literalStart nodes pos else .ok (pos + 1)

/-- The sequences behind a position, read off its nodes. -/
def backtraceLoop (nodes : PathNodes) : Nat → Nat → List SequenceCommand → Priced (List SequenceCommand)
  | 0, _, sequences => .ok sequences
  | fuel + 1, pos, sequences =>
    if pos = 0 then .ok sequences else do
    let node ← nodeAt nodes pos
    if node.mlen = 0 then .ok sequences else
    let prev ← nodeBefore nodes pos (node.mlen + node.litlen)
    let sequences := ⟨prev.litlen, node.mlen, node.off⟩ :: sequences
    backtraceLoop nodes fuel (← literalStart nodes (pos - (node.mlen + node.litlen))) sequences

/-- The sequences of the way to a position, and the literals behind the last. -/
def backtraceOptimalPath (nodes : PathNodes) (lastPos : Nat) : Priced (List SequenceCommand × Nat) := do
  let last ← nodeAt nodes lastPos
  let pos ← literalStart nodes lastPos
  .ok (← backtraceLoop nodes (lastPos + 1) pos [], last.litlen)

/-! ## Emission -/

/-- What has been emitted so far, and where the next literals begin. -/
structure OptimalParse where
  literals : Bytes
  sequences : List SequenceCommand
  anchor : Nat
  reps : RepeatOffsets
  model : OptimalPriceModel

/-- `emit_optimal_sequence`. -/
def emitOptimalSequence (src : Bytes) (p : OptimalParse) (seq : SequenceCommand) : Priced OptimalParse := do
  let literalsEnd := p.anchor + seq.literalLength
  if literalsEnd > src.length then .error .outside else
  let literals := (src.drop p.anchor).take seq.literalLength
  let model ← p.model.updateStats literals seq.literalLength seq.offsetValue seq.matchLength
  match p.reps.resolveValues seq.literalLength seq.offsetValue with
  | .error _ => .error .refused
  | .ok (_, reps) =>
    .ok ⟨p.literals ++ literals, p.sequences ++ [seq], literalsEnd + seq.matchLength, reps, model⟩

/-- The sequences of one stretch. -/
def emitAll (src : Bytes) (p : OptimalParse) (sequences : List SequenceCommand) : Priced OptimalParse :=
  sequences.foldlM (emitOptimalSequence src) p

/-! ## Blocks -/

/-- The state of the parser between two stretches. -/
structure OptimalRun (σ : Type) where
  parse : OptimalParse
  ip : Nat
  nodes : PathNodes
  state : SearchState σ

section
variable {σ : Type} (b : OptimalBlock σ)

/-- The nodes ahead of `ip`, from its candidates to the sequences on the cheapest way. -/
def planAhead (r : OptimalRun σ) (candidates : List OptimalMatchCandidate) : Priced (OptimalRun σ) := do
  let p := r.parse
  let horizon := min optNum (b.src.length - r.ip)
  let litlen := r.ip - p.anchor
  let price ← accumulated (← p.model.llPrice litlen)
  let nodes ← modifyNode r.nodes 0 fun _ => ⟨price, 0, 0, litlen, p.reps⟩
  let (nodes, lastPos) ← initOptimalMatchNodes p.model nodes candidates horizon b.minLength
  let (s, stretch) ← forwardPass b p.model r.ip horizon (optNum + 1) 1 ⟨nodes, lastPos, r.state⟩
  let nodes ← (if s.lastPos + 1 ≤ horizon then modifyNode s.nodes (s.lastPos + 1) markNode else .ok s.nodes)
  match stretch with
  | some (candidate, cur) =>
    let (sequences, tailLiterals) ← backtraceOptimalPath nodes cur
    let p ← emitAll b.src p sequences
    let p ← emitOptimalSequence b.src p ⟨tailLiterals, candidate.length, candidate.offsetValue⟩
    .ok ⟨p, p.anchor, nodes, s.state⟩
  | none =>
    let (sequences, tailLiterals) ← backtraceOptimalPath nodes s.lastPos
    if sequences = [] then .ok ⟨p, p.anchor + tailLiterals, nodes, s.state⟩ else
    let p ← emitAll b.src p sequences
    .ok ⟨p, p.anchor, nodes, s.state⟩

/-- One round of the loop over the block. -/
def planStep (r : OptimalRun σ) : Priced (OptimalRun σ) :=
  let p := r.parse
  if r.ip < p.anchor then .error .outside else
  let (candidates, state) := b.collect r.state r.ip p.reps (r.ip - p.anchor)
  match candidates.getLast? with
  | none => .ok { r with ip := r.ip + 1, state }
  | some best =>
    if best.length > b.sufficientLen then do
      let p ← emitOptimalSequence b.src p ⟨r.ip - p.anchor, best.length, best.offsetValue⟩
      .ok ⟨p, p.anchor, r.nodes, state⟩
    else planAhead b { r with state } candidates

/-- The loop of the parser. -/
def planLoop : Nat → OptimalRun σ → Priced (OptimalRun σ)
  | 0, _ => .error .unfinished
  | fuel + 1, r => if r.ip < b.limit then do planLoop fuel (← planStep b r) else .ok r

/-- The model that a block starts with: the statistics of the block before, a dictionary's, or its own. -/
def startModel (options : PriceOptions) (persisted : Option OptimalPriceState) : Priced OptimalPriceModel := do
  match persisted with
  | some state => OptimalPriceModel.fromPersistedState (← state.rescale) options
  | none =>
    let seed ← (match b.seedCosts with
      | some (lit, ll, ml, off) => do .ok (some (← optimalPriceSeed lit ll ml off))
      | none => .ok none)
    OptimalPriceModel.new (b.src.drop b.blockStart) seed options

/-- What a block leaves: its literals, its sequences, its repeat offsets, and the statistics for the next. -/
structure OptimalPlan where
  literals : Bytes
  sequences : List SequenceCommand
  reps : RepeatOffsets
  optPriceState : Option OptimalPriceState

/-- `plan_sequences_optimal_*_into`. -/
def planBlock (options : PriceOptions) (fuel : Nat) (persisted : Option OptimalPriceState) : Priced OptimalPlan := do
  if b.src.length - b.blockStart < 4 then .ok ⟨b.src.drop b.blockStart, [], b.reps, persisted⟩ else
  let model ← startModel b options persisted
  let ip := if b.twoPhase ∧ b.blockStart = 0 then 1 else b.blockStart
  let state := ⟨b.finder, b.ldm.map (LdmCandidates.new · (b.src.length - b.blockStart))⟩
  let r ← planLoop b fuel ⟨⟨[], [], b.blockStart, b.reps, model⟩, ip, List.replicate (optNum + 1) .unset, state⟩
  if r.parse.anchor > b.src.length then .error .outside else
  .ok ⟨r.parse.literals ++ b.src.drop r.parse.anchor, r.parse.sequences, r.parse.reps, some r.parse.model.stats⟩

end

/-- The blocks of a frame, each with the statistics of the one before. -/
def planBlocks {σ : Type} (options : PriceOptions) (fuel : Nat) (blocks : List (OptimalBlock σ)) :
    Priced (Option OptimalPriceState) :=
  blocks.foldlM (fun persisted b => do .ok (← planBlock b options fuel persisted).optPriceState) none

/-! ## The pass over the positions -/

section
variable {σ : Type} {b : OptimalBlock σ} {m : OptimalPriceModel} {nodes : PathNodes}
variable {litlen0 cur lastPos ip horizon : Nat}

theorem resolveNodeReps_avoids (h : NodesOK m litlen0 (cur + 1) lastPos nodes) :
    Avoids PriceFault.Bad (resolveNodeReps nodes cur) (NodesOK m litlen0 (cur + 1) lastPos ·) := by
  unfold resolveNodeReps
  refine (nodeAt_avoids nodes cur).bind fun node _ => ?_
  split
  · exact .of_ok h
  refine (nodeBefore_avoids nodes cur node.mlen).bind fun previous _ => ?_
  refine (modifyNode_avoids nodes cur _).mono ?_
  rintro _ ⟨current, hcurrent, rfl⟩
  -- neither the price nor the match depends on the repeat offsets
  exact h.set (h.sane current (List.mem_of_getElem? hcurrent)) (fun hlt => h.settled cur current hcurrent hlt)
    (fun hle => h.reach cur current hcurrent hle) fun q hq => .inl hq

theorem OptimalBlock.minLength_bounds : 3 ≤ b.minLength ∧ b.minLength ≤ 4 := by
  unfold minLength
  split <;> omega

/-- What the pass keeps. -/
structure ForwardOK (b : OptimalBlock σ) (m : OptimalPriceModel) (litlen0 cur : Nat) (s : ForwardState σ) : Prop where
  nodes : NodesOK m litlen0 cur s.lastPos s.nodes
  state : b.SearchOK s.state

/-- A pass ends in a candidate that can be coded, if in one at all. -/
def ForwardExit.OK (exit : ForwardExit) : Prop :=
  ∀ candidate, exit = .stretch candidate → HasCodes candidate.offsetValue candidate.length

theorem searchNode_avoids (hm : m.Sound) {s : ForwardState σ} (h : ForwardOK b m litlen0 (cur + 1) s)
    (hcur : cur ≤ s.lastPos) (hhorizon : horizon ≤ optNum) (hlow : b.blockStart ≤ ip) (hle : ip + cur ≤ b.src.length)
    (node : OptimalPathNode) :
    Avoids PriceFault.Bad (searchNode b m ip horizon cur s node) fun result =>
      ForwardOK b m litlen0 (cur + 1) result.1 ∧ cur ≤ result.1.lastPos ∧ result.2.OK := by
  have hcollect := b.collect_ok h.state (by omega) hle node.reps node.litlen
  unfold searchNode
  generalize b.collect s.state (ip + cur) node.reps node.litlen = collected at hcollect
  obtain ⟨candidates, state⟩ := collected
  obtain ⟨hcodes, hstate⟩ := hcollect
  dsimp only at *
  split
  · exact .of_ok ⟨⟨h.nodes, hstate⟩, hcur, fun candidate hexit => nomatch hexit⟩
  rename_i best hbest
  split
  · refine .of_ok ⟨⟨h.nodes, hstate⟩, hcur, fun candidate hexit => ?_⟩
    cases hexit
    exact hcodes best (List.mem_of_getLast? hbest)
  · refine (updateOptimalMatchNodes_avoids hm h.nodes hcur b.minLength_bounds.1 hhorizon hcodes).bind ?_
    rintro ⟨nodes, lastPos⟩ ⟨hcur', hnodes⟩
    exact .of_ok ⟨⟨hnodes, hstate⟩, hcur', fun candidate hexit => nomatch hexit⟩

theorem forwardStep_avoids (hm : m.Sound) {s : ForwardState σ} (h : ForwardOK b m litlen0 cur s) (hpos : 0 < cur)
    (hcur : cur ≤ s.lastPos) (hhorizon : horizon ≤ optNum) (hlitlen : litlen0 < 2 ^ 31) (hlow : b.blockStart ≤ ip) :
    Avoids PriceFault.Bad (forwardStep b m ip horizon cur s) fun result =>
      ForwardOK b m litlen0 (cur + 1) result.1 ∧ cur ≤ result.1.lastPos ∧ result.2.OK := by
  have hnext : ForwardExit.OK .next := fun candidate hexit => nomatch hexit
  have hstop : ForwardExit.OK .stop := fun candidate hexit => nomatch hexit
  unfold forwardStep
  have hbyte : Avoids PriceFault.Bad (match b.src[ip + cur - 1]? with
      | some byte => .ok byte
      | none => .error .outside : Priced UInt8) fun _ => True := by
    split
    · exact .of_ok trivial
    · exact .of_error id
  refine hbyte.bind fun byte _ => ?_
  refine (updateOptimalLiteralNode_avoids hm h.nodes hpos hcur hlitlen byte).bind ?_
  rintro ⟨_, replacedMatch⟩ ⟨hle, hupdated, hreplaced⟩
  refine (resolveNodeReps_avoids hupdated).bind fun nodes hnodes => ?_
  have hshortcut : Avoids PriceFault.Bad (match m.options.isUltra, replacedMatch with
      | true, some prevMatch => matchPlusOneLiteral m nodes cur s.lastPos horizon prevMatch b.src[ip + cur]?
      | _, _ => .ok (nodes, s.lastPos))
      fun state => cur ≤ state.2 ∧ NodesOK m litlen0 (cur + 1) state.2 state.1 := by
    cases m.options.isUltra with
    | false => exact .of_ok ⟨hcur, hnodes⟩
    | true =>
      cases replacedMatch with
      | none => exact .of_ok ⟨hcur, hnodes⟩
      | some prevMatch =>
        obtain ⟨hsane, hreached, hend⟩ := hreplaced prevMatch rfl
        exact matchPlusOneLiteral_avoids hm hnodes hcur hle hlitlen horizon hsane hreached hend _
  refine hshortcut.bind ?_
  rintro ⟨nodes, lastPos⟩ ⟨hcur', hnodes⟩
  dsimp only at *
  split
  · exact .of_ok ⟨⟨hnodes, h.state⟩, hcur', hnext⟩
  rename_i hlimit
  split
  · exact .of_ok ⟨⟨hnodes, h.state⟩, hcur', hstop⟩
  refine (nodeAt_avoids nodes cur).bind fun node hnode => ?_
  have hskip : Avoids PriceFault.Bad (if m.options.isUltra = false ∧ cur + 1 ≤ horizon then do
      let near ← addU32 node.price (optPriceUnit / 2)
      .ok (decide ((← nodeAt nodes (cur + 1)).price ≤ near))
      else .ok false) fun _ => True := by
    split
    · have hlt := (hnodes.settled cur node hnode (Nat.lt_succ_self _)).price_lt hm hle
      refine (addU32_avoids (by unfold maxPrice optPriceUnit at *; omega)).bind fun near _ => ?_
      exact (nodeAt_avoids nodes (cur + 1)).bind fun _ _ => .of_ok trivial
    · exact .of_ok trivial
  refine hskip.bind fun skip _ => ?_
  split
  · exact .of_ok ⟨⟨hnodes, h.state⟩, hcur', hnext⟩
  · refine searchNode_avoids (s := ⟨nodes, lastPos, s.state⟩) hm ⟨hnodes, h.state⟩ hcur' hhorizon hlow ?_ node
    unfold OptimalBlock.limit at hlimit
    omega

/-- However the pass ends, its nodes can be gone back through. -/
theorem forwardPass_avoids (hm : m.Sound) (hhorizon : horizon ≤ optNum) (hlitlen : litlen0 < 2 ^ 31)
    (hlow : b.blockStart ≤ ip) : ∀ (fuel cur : Nat) (s : ForwardState σ), 0 < cur → ForwardOK b m litlen0 cur s →
      Avoids PriceFault.Bad (forwardPass b m ip horizon fuel cur s) fun result =>
        NodesSane result.1.nodes ∧ b.SearchOK result.1.state ∧
          ∀ candidate ∈ result.2, HasCodes candidate.1.offsetValue candidate.1.length
  | 0, _, _, _, _ => .of_error id
  | fuel + 1, cur, s, hpos, h => by
    unfold forwardPass
    split
    · exact .of_ok ⟨h.nodes.toNodesSane, h.state, fun candidate hc => nomatch hc⟩
    refine (forwardStep_avoids hm h hpos (by omega) hhorizon hlitlen hlow).bind ?_
    rintro ⟨s', exit⟩ ⟨h', -, hexit⟩
    cases exit with
    | next => exact forwardPass_avoids hm hhorizon hlitlen hlow fuel (cur + 1) s' (Nat.succ_pos _) h'
    | stop => exact .of_ok ⟨h'.nodes.toNodesSane, h'.state, fun candidate hc => nomatch hc⟩
    | stretch candidate =>
      refine .of_ok ⟨h'.nodes.toNodesSane, h'.state, fun candidate' hc => ?_⟩
      cases hc
      exact hexit candidate rfl

/-! ## The way back -/

theorem literalStart_avoids (nodes : PathNodes) : ∀ pos,
    Avoids PriceFault.Bad (literalStart nodes pos) fun _ => True
  | 0 => .of_ok trivial
  | pos + 1 => by
    unfold literalStart
    refine (nodeAt_avoids nodes _).bind fun node _ => ?_
    split
    · exact literalStart_avoids nodes pos
    · exact .of_ok trivial

theorem backtraceLoop_avoids (h : NodesSane nodes) : ∀ (fuel pos : Nat) (sequences : List SequenceCommand),
    (∀ seq ∈ sequences, HasCodes seq.offsetValue seq.matchLength) →
      Avoids PriceFault.Bad (backtraceLoop nodes fuel pos sequences)
        (∀ seq ∈ ·, HasCodes seq.offsetValue seq.matchLength)
  | 0, _, _, hsequences => .of_ok hsequences
  | fuel + 1, pos, sequences, hsequences => by
    unfold backtraceLoop
    split
    · exact .of_ok hsequences
    refine (nodeAt_avoids nodes pos).bind fun node hnode => ?_
    split
    · exact .of_ok hsequences
    rename_i hmatch
    refine (nodeBefore_avoids nodes pos _).bind fun prev _ => ?_
    refine (literalStart_avoids nodes _).bind fun start _ => ?_
    refine backtraceLoop_avoids h fuel start _ fun seq hseq => ?_
    rcases List.mem_cons.1 hseq with rfl | hseq
    · exact (h.sane node (List.mem_of_getElem? hnode)).resolve_left hmatch
    · exact hsequences seq hseq

theorem backtraceOptimalPath_avoids (h : NodesSane nodes) (lastPos : Nat) :
    Avoids PriceFault.Bad (backtraceOptimalPath nodes lastPos)
      fun path => ∀ seq ∈ path.1, HasCodes seq.offsetValue seq.matchLength := by
  unfold backtraceOptimalPath
  refine (nodeAt_avoids nodes lastPos).bind fun last _ => ?_
  refine (literalStart_avoids nodes lastPos).bind fun pos _ => ?_
  refine (backtraceLoop_avoids h _ pos [] fun seq hseq => nomatch hseq).bind fun sequences hsequences => ?_
  exact .of_ok hsequences

/-! ## Emission -/

/-- The statistics have grown with the part of the block that is coded. -/
structure ParseOK (b : OptimalBlock σ) (options : PriceOptions) (p : OptimalParse) : Prop where
  anchor_ge : b.blockStart ≤ p.anchor
  sound : p.model.Sound
  options_eq : p.model.options = options
  counted : p.model.stats.Counted options.compressedLiterals
    (2 ^ 18 + 2 * (min p.anchor (b.src.length + 1) - b.blockStart))

theorem emitOptimalSequence_avoids {options : PriceOptions} {p : OptimalParse} (h : ParseOK b options p)
    {seq : SequenceCommand} (hcodes : HasCodes seq.offsetValue seq.matchLength) :
    Avoids PriceFault.Bad (emitOptimalSequence b.src p seq) (ParseOK b options) := by
  have hanchor := h.anchor_ge
  have hblock := b.blockLength_le
  unfold emitOptimalSequence
  dsimp only
  split
  · exact .of_error id
  rename_i hend
  have hliterals : ((b.src.drop p.anchor).take seq.literalLength).length = seq.literalLength := by
    rw [List.length_take, List.length_drop]
    omega
  have hcounted := h.counted
  rw [← h.options_eq] at hcounted
  refine (OptimalPriceModel.updateStats_avoids hcounted (by rw [hliterals]; omega) hcodes.2.1 hcodes.2.2
    hcodes.1).bind ?_
  rintro model ⟨hsound, hstats, hoptions⟩
  split
  · exact .of_error id
  · refine .of_ok ⟨by dsimp only; omega, hsound, hoptions.trans h.options_eq, ?_⟩
    rw [hoptions, h.options_eq, hliterals] at hstats
    refine hstats.mono ?_
    have := hcodes.1
    dsimp only
    omega

theorem emitAll_avoids {options : PriceOptions} {sequences : List SequenceCommand} {p : OptimalParse}
    (h : ParseOK b options p) (hcodes : ∀ seq ∈ sequences, HasCodes seq.offsetValue seq.matchLength) :
    Avoids PriceFault.Bad (emitAll b.src p sequences) (ParseOK b options) :=
  Avoids.foldlM _ (fun seq hseq _ hp => emitOptimalSequence_avoids hp (hcodes seq hseq)) h

/-! ## Blocks -/

/-- The invariant of the loop. -/
structure RunOK (b : OptimalBlock σ) (options : PriceOptions) (r : OptimalRun σ) : Prop where
  parse : ParseOK b options r.parse
  nodes : NodesSane r.nodes
  state : b.SearchOK r.state

theorem planAhead_avoids {options : PriceOptions} {r : OptimalRun σ} (h : RunOK b options r)
    (hip : r.parse.anchor ≤ r.ip) (hlimit : r.ip < b.limit) {candidates : List OptimalMatchCandidate}
    (hcodes : ∀ c ∈ candidates, HasCodes c.offsetValue c.length) :
    Avoids PriceFault.Bad (planAhead b r candidates) (RunOK b options) := by
  have hm := h.parse.sound
  have hanchor := h.parse.anchor_ge
  have hblock := b.blockLength_le
  have hlength := b.minLength_bounds
  unfold OptimalBlock.limit at hlimit
  have hlitlen : r.ip - r.parse.anchor < 2 ^ 31 := by omega
  have hhorizon : min optNum (b.src.length - r.ip) ≤ optNum := Nat.min_le_left _ _
  have hmin : b.minLength ≤ min optNum (b.src.length - r.ip) := by
    unfold optNum
    omega
  unfold planAhead
  dsimp only
  refine (llPrice_spec hm _).bind ?_
  rintro l ⟨hl, hl9⟩
  refine (accumulated_avoids (by unfold maxPrice; omega)).bind ?_
  rintro _ rfl
  -- the first node is in reach at the price of the literals before it
  have hfirst : Avoids PriceFault.Bad (modifyNode r.nodes 0 fun _ => ⟨l, 0, 0, r.ip - r.parse.anchor, r.parse.reps⟩)
      (NodesOK r.parse.model (r.ip - r.parse.anchor) 1 0 ·) := by
    refine (modifyNode_avoids r.nodes 0 _).mono ?_
    rintro _ ⟨-, -, rfl⟩
    have hreached : ∀ pos node, (r.nodes.set 0 ⟨l, 0, 0, r.ip - r.parse.anchor, r.parse.reps⟩)[pos]? = some node →
        pos < 1 → node.Reached r.parse.model (r.ip - r.parse.anchor) pos := by
      intro pos node hnode hlt
      rcases getElem?_set_cases hnode with ⟨-, rfl⟩ | ⟨hne, -⟩
      · exact ⟨l, hl, le_rfl, by dsimp only; omega, by dsimp only; omega⟩
      · omega
    exact ⟨h.nodes.set (.inl rfl), hreached, fun pos node hnode hle => .inr (hreached pos node hnode (by omega))⟩
  refine hfirst.bind fun nodes hnodes => ?_
  refine (initOptimalMatchNodes_avoids hm hnodes hlength.1 hmin hhorizon hlitlen hcodes).bind ?_
  rintro ⟨nodes, lastPos⟩ hnodes
  refine (forwardPass_avoids hm hhorizon hlitlen (by omega) _ 1 _ Nat.one_pos ⟨hnodes, h.state⟩).bind ?_
  rintro ⟨s, stretch⟩ ⟨hsane, hstate, hstretch⟩
  dsimp only at *
  have hmark : Avoids PriceFault.Bad (if s.lastPos + 1 ≤ min optNum (b.src.length - r.ip)
      then modifyNode s.nodes (s.lastPos + 1) markNode else .ok s.nodes) (NodesSane ·) := by
    split
    · refine (modifyNode_avoids s.nodes _ markNode).mono ?_
      rintro _ ⟨node, hnode, rfl⟩
      exact hsane.set (hsane.sane node (List.mem_of_getElem? hnode))
    · exact .of_ok hsane
  refine hmark.bind fun nodes hnodes => ?_
  cases stretch with
  | some last =>
    obtain ⟨candidate, cur⟩ := last
    refine (backtraceOptimalPath_avoids hnodes cur).bind ?_
    rintro ⟨sequences, tailLiterals⟩ hsequences
    refine (emitAll_avoids h.parse hsequences).bind fun p hp => ?_
    refine (emitOptimalSequence_avoids hp ?_).bind fun p' hp' => .of_ok ⟨hp', hnodes, hstate⟩
    exact hstretch (candidate, cur) rfl
  | none =>
    refine (backtraceOptimalPath_avoids hnodes s.lastPos).bind ?_
    rintro ⟨sequences, tailLiterals⟩ hsequences
    dsimp only
    split
    · exact .of_ok ⟨h.parse, hnodes, hstate⟩
    · exact (emitAll_avoids h.parse hsequences).bind fun p hp => .of_ok ⟨hp, hnodes, hstate⟩

theorem planStep_avoids {options : PriceOptions} {r : OptimalRun σ} (h : RunOK b options r)
    (hlimit : r.ip < b.limit) : Avoids PriceFault.Bad (planStep b r) (RunOK b options) := by
  have hanchor := h.parse.anchor_ge
  unfold planStep
  dsimp only
  split
  · exact .of_error id
  rename_i hip
  have hle : r.ip ≤ b.src.length := by
    unfold OptimalBlock.limit at hlimit
    omega
  have hcollect := b.collect_ok h.state (show b.blockStart ≤ r.ip by omega) hle r.parse.reps (r.ip - r.parse.anchor)
  generalize b.collect r.state r.ip r.parse.reps (r.ip - r.parse.anchor) = collected at hcollect
  obtain ⟨candidates, state⟩ := collected
  obtain ⟨hcodes, hstate⟩ := hcollect
  dsimp only at *
  split
  · exact .of_ok ⟨h.parse, h.nodes, hstate⟩
  rename_i best hbest
  split
  · refine (emitOptimalSequence_avoids h.parse ?_).bind fun p hp => .of_ok ⟨hp, h.nodes, hstate⟩
    exact hcodes best (List.mem_of_getLast? hbest)
  · exact planAhead_avoids (r := { r with state }) ⟨h.parse, h.nodes, hstate⟩ (by dsimp only; omega) hlimit hcodes

theorem planLoop_avoids {options : PriceOptions} : ∀ (fuel : Nat) {r : OptimalRun σ}, RunOK b options r →
    Avoids PriceFault.Bad (planLoop b fuel r) (RunOK b options)
  | 0, _, _ => .of_error id
  | fuel + 1, r, h => by
    unfold planLoop
    split
    · rename_i hlimit
      exact (planStep_avoids h hlimit).bind fun r' h' => planLoop_avoids fuel h'
    · exact .of_ok h

theorem startModel_avoids (options : PriceOptions) {persisted : Option OptimalPriceState}
    (hpersisted : ∀ state ∈ persisted, state.Counted options.compressedLiterals (2 ^ 20))
    (hlength : b.blockStart < b.src.length) :
    Avoids PriceFault.Bad (startModel b options persisted) fun m =>
      m.Sound ∧ m.stats.Counted m.options.compressedLiterals (2 ^ 18) ∧ m.options = options := by
  unfold startModel
  cases persisted with
  | some state =>
    refine (hpersisted state rfl).rescale.bind fun state' hstate' => ?_
    exact OptimalPriceModel.fromPersistedState_avoids hstate'
  | none =>
    have hseed : Avoids PriceFault.Bad (match b.seedCosts with
        | some (lit, ll, ml, off) => do .ok (some (← optimalPriceSeed lit ll ml off))
        | none => .ok none) fun seed => ∀ s ∈ seed, s.Counted true (2 ^ 18) := by
      split
      · rename_i lit ll ml off _
        obtain ⟨seed, hseed, hcounted⟩ := optimalPriceSeed_ok lit ll ml off
        rw [hseed]
        refine .of_ok fun s hs => ?_
        cases hs
        exact hcounted
      · exact .of_ok fun s hs => nomatch hs
    refine hseed.bind fun seed hseed => ?_
    have hblock := b.blockLength_le
    have hlen : (b.src.drop b.blockStart).length = b.src.length - b.blockStart := List.length_drop
    refine OptimalPriceModel.new_avoids options ?_ (by omega) hseed
    intro hnil
    rw [hnil, List.length_nil] at hlen
    omega

theorem planBlock_avoids (options : PriceOptions) (fuel : Nat) {persisted : Option OptimalPriceState}
    (hpersisted : ∀ state ∈ persisted, state.Counted options.compressedLiterals (2 ^ 20)) :
    Avoids PriceFault.Bad (planBlock b options fuel persisted) fun plan =>
      ∀ state ∈ plan.optPriceState, state.Counted options.compressedLiterals (2 ^ 20) := by
  unfold planBlock
  split
  · exact .of_ok hpersisted
  rename_i hlength
  refine (startModel_avoids (b := b) options hpersisted (by omega)).bind ?_
  rintro model ⟨hsound, hcounted, hoptions⟩
  rw [hoptions] at hcounted
  have hstart : RunOK b options ⟨⟨[], [], b.blockStart, b.reps, model⟩,
      if b.twoPhase ∧ b.blockStart = 0 then 1 else b.blockStart, List.replicate (optNum + 1) .unset,
      ⟨b.finder, b.ldm.map (LdmCandidates.new · (b.src.length - b.blockStart))⟩⟩ := by
    refine ⟨⟨le_rfl, hsound, hoptions, hcounted.mono (by omega)⟩, ⟨List.length_replicate.le, ?_⟩, ?_⟩
    · intro node hnode
      rw [List.eq_of_mem_replicate hnode]
      exact .inl rfl
    · rintro ldm hldm
      obtain ⟨sequences, hsequences, rfl⟩ := Option.map_eq_some_iff.1 hldm
      exact ⟨sequences, hsequences, .new⟩
  refine (planLoop_avoids fuel hstart).bind fun r hr => ?_
  split
  · exact .of_error id
  · refine .of_ok fun state hstate => ?_
    cases hstate
    have hblock := b.blockLength_le
    exact hr.parse.counted.mono (by omega)

/-- No run over the blocks of a frame ends in a number that wraps, a price that reaches the marker, or the weight of
a sum that is zero or not the sum of its frequencies; and what a block leaves adds up. -/
theorem planBlocks_exact (options : PriceOptions) (fuel : Nat) (blocks : List (OptimalBlock σ)) :
    Avoids PriceFault.Bad (planBlocks options fuel blocks) fun persisted =>
      ∀ state ∈ persisted, state.Counted options.compressedLiterals (2 ^ 20) := by
  unfold planBlocks
  refine Avoids.foldlM (fun persisted : Option OptimalPriceState =>
    ∀ state ∈ persisted, state.Counted options.compressedLiterals (2 ^ 20)) ?_ (fun state hstate => nomatch hstate)
  intro b _ persisted hpersisted
  exact (planBlock_avoids options fuel hpersisted).bind fun plan hplan => .of_ok hplan

end

/-- A block of one byte over and over, in which a match finder sees a match at the fifth byte. -/
def constantBlock : OptimalBlock Unit where
  src := List.replicate 24 97
  blockStart := 0
  reps := ⟨1, 4, 8⟩
  seedCosts := none
  minMatch := 3
  targetLength := 999
  twoPhase := false
  search := ⟨fun _ pos _ _ => (if pos = 4 then some [⟨1, 12, by decide, by decide⟩] else none, ())⟩
  finder := ()
  ldm := none
  minMatch_ge := by decide
  blockLength_le := by decide
  ldmOffset_le := by rintro _ ⟨⟩

set_option maxRecDepth 2000 in
example : (planBlock constantBlock ⟨true, true, true⟩ 20 none).toOption.map (·.sequences) = some [⟨4, 12, 1⟩] := by
  decide +kernel

end Zstandard
