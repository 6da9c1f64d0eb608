/-
The optimal parser's plans against its blocks.

Every sequence of a plan is a match, or the beginning of one, that was on offer at the very place where it is laid
down, to the repeat offsets and the literal length that hold there (`OptimalBlock.Laid`). So where the finders and the
long-distance matches tell the truth, the offset values of a plan resolve to the raw offsets they stand for, and its
literals and matches give the block (`planBlock_valid`).
-/
import Zstandard.Encode.OptimalWay
import Zstandard.Encode.Searched

namespace Zstandard

open Outcome
open Ldm (optNum OptimalMatchCandidate LdmCandidates Genuine)

/-! ## Offset values of candidates -/

namespace RepeatOffsets

/-- Classified against the repeat offsets is what encoding would make of it. -/
theorem classifyOffset_eq (r : RepeatOffsets) {rawOffset : Nat} (literalLength : Nat) (h : rawOffset + 3 < 2 ^ 32) :
    r.classifyOffset rawOffset literalLength = (r.encodeOffsetValueAndUpdate rawOffset literalLength).1 := by
  unfold classifyOffset encodeOffsetValueAndUpdate
  dsimp only
  split_ifs <;> first | rfl | (rw [Nat.mod_eq_of_lt h])

theorem resolveValues_resolved {r r' : RepeatOffsets} {literalLength offsetValue rawOffset : Nat}
    (h : r.resolveValues literalLength offsetValue = .ok (rawOffset, r')) :
    r.resolved literalLength offsetValue = r' := by
  unfold resolved
  rw [h]

end RepeatOffsets

namespace OptimalBlock

variable {σ : Type}

/-! ## What is found -/

/-- The states of the match finders, whatever they have been asked before, in any order. -/
inductive Asked (b : OptimalBlock σ) : σ → Prop
  | start : Asked b b.finder
  | report {finder : σ} {position : Nat} (reps : RepeatOffsets) (literalLength : Nat) : Asked b finder →
    b.blockStart ≤ position → position + 8 ≤ b.src.length →
    Asked b (b.search.report finder position reps literalLength).2

/-- A match found at a position, for given repeat offsets and literals: its raw offset, the offset value it is offered
under, and its length. -/
inductive Found (b : OptimalBlock σ) (position : Nat) (reps : RepeatOffsets) (literalLength : Nat) :
    (rawOffset offsetValue length : Nat) → Prop
  | reported {finder : σ} {found : List ReportedMatch} {m : ReportedMatch} : b.Asked finder →
    (b.search.report finder position reps literalLength).1 = some found → m ∈ found → m.rawOffset ≠ 0 →
    Found b position reps literalLength m.rawOffset (reps.classifyOffset m.rawOffset literalLength) m.length
  | longDistance {sequences : List Ldm.RawSequence} {s : Ldm.RawSequence} {start stop : Nat} :
    b.ldm = some sequences → Ldm.LiesAt sequences s start stop → b.blockStart + start ≤ position →
    position < b.blockStart + stop →
    Found b position reps literalLength s.offset (s.offset + 3)
      (min stop (b.src.length - b.blockStart) - (position - b.blockStart))

/-- What is found in the block is true: the bytes there are those so far back, over what lies `before` the source and
the source up to the end of the block. -/
def FindsMatches (b : OptimalBlock σ) (before : Bytes) : Prop :=
  ∀ position reps literalLength rawOffset offsetValue length, b.blockStart ≤ position → position + 8 ≤ b.src.length →
    b.Found position reps literalLength rawOffset offsetValue length → 3 ≤ length →
    Genuine (before ++ b.src) 0 (before.length + b.src.length) (before.length + position) length rawOffset

/-- A match or the beginning of one, with an offset value that has a code. -/
structure Offers (b : OptimalBlock σ) (position : Nat) (reps : RepeatOffsets)
    (literalLength offsetValue matchLength : Nat) : Prop where
  low : b.blockStart ≤ position
  room : position + 8 ≤ b.src.length
  length_ge : 3 ≤ matchLength
  offsetValue_lt : offsetValue < 2 ^ 32
  found : ∃ rawOffset length, b.Found position reps literalLength rawOffset offsetValue length ∧ matchLength ≤ length

/-- The search has been over this block only. -/
structure Searched (b : OptimalBlock σ) (s : SearchState σ) : Prop where
  asked : b.Asked s.finder
  ldm : b.SearchOK s

variable {b : OptimalBlock σ} {before : Bytes}

theorem pushed_cases (reps : RepeatOffsets) (literalLength : Nat) : ∀ (found : List ReportedMatch)
    (candidates : List OptimalMatchCandidate),
      ∀ c ∈ found.foldl (fun candidates m => pushOptimalCandidate candidates m reps literalLength) candidates,
        c ∈ candidates ∨ ∃ m ∈ found, m.rawOffset ≠ 0 ∧
          c = ⟨reps.classifyOffset m.rawOffset literalLength, m.length⟩
  | [], _, _, hc => .inl hc
  | m :: found, candidates, c, hc => by
    rcases pushed_cases reps literalLength found _ c hc with hc | ⟨m', hm', hc⟩
    · dsimp only [pushOptimalCandidate] at hc
      split at hc
      · exact .inl hc
      · rename_i hpush
        rcases List.mem_append.1 hc with hc | hc
        · exact .inl hc
        · exact .inr ⟨m, List.mem_cons_self, fun hzero => hpush (.inl hzero), List.mem_singleton.1 hc⟩
    · exact .inr ⟨m', List.mem_cons_of_mem _ hm', hc⟩

/-- What is collected at a position is found there. -/
theorem collect_found {s : SearchState σ} (hs : b.Searched s) {position : Nat} (hlow : b.blockStart ≤ position)
    (hroom : position + 8 ≤ b.src.length) (reps : RepeatOffsets) (literalLength : Nat) :
    (∀ c ∈ (b.collect s position reps literalLength).1, 3 ≤ c.length ∧ c.offsetValue < 2 ^ 32 ∧
      ∃ rawOffset, b.Found position reps literalLength rawOffset c.offsetValue c.length) ∧
      b.Searched (b.collect s position reps literalLength).2 := by
  obtain ⟨hcodes, hstate⟩ := b.collect_ok hs.ldm hlow (by omega) reps literalLength
  have hasked := hs.asked.report reps literalLength hlow hroom
  have hreported : ∀ found, (b.search.report s.finder position reps literalLength).1 = found →
      ∀ c ∈ (found.getD []).foldl (fun candidates m => pushOptimalCandidate candidates m reps literalLength) [],
        ∃ rawOffset, b.Found position reps literalLength rawOffset c.offsetValue c.length := by
    intro found hfound c hc
    rcases pushed_cases reps literalLength _ _ c hc with hc | ⟨m, hm, hne, rfl⟩
    · cases hc
    · cases found with
      | none => cases hm
      | some found => exact ⟨m.rawOffset, .reported hs.asked hfound hm hne⟩
  suffices (∀ c ∈ (b.collect s position reps literalLength).1,
      ∃ rawOffset, b.Found position reps literalLength rawOffset c.offsetValue c.length) ∧
      b.Asked (b.collect s position reps literalLength).2.finder from
    ⟨fun c hc => ⟨(hcodes c hc).1, (hcodes c hc).2.2, this.1 c hc⟩, this.2, hstate⟩
  clear hcodes hstate
  unfold collect
  generalize b.search.report s.finder position reps literalLength = reported at hasked hreported
  obtain ⟨found, finder⟩ := reported
  specialize hreported found rfl
  dsimp only at *
  cases hldm : s.ldm with
  | none => exact ⟨hreported, hasked⟩
  | some ldm =>
    dsimp only
    split
    · exact ⟨hreported, hasked⟩
    · obtain ⟨sequences, hsequences, hreached⟩ := hs.ldm ldm hldm
      have hin : position - b.blockStart ≤ b.src.length - b.blockStart := by omega
      rw [show b.src.length - position = b.src.length - b.blockStart - (position - b.blockStart) by omega]
      refine ⟨fun c hc => ?_, hasked⟩
      rcases hreached.aligned.offered hin _ b.ldmMinMatch c hc with hc | ⟨⟨raw, start, stop, hlies, hstart, hstop,
        hvalue, hlength⟩, -⟩
      · exact hreported c hc
      · refine ⟨raw.offset, ?_⟩
        rw [hvalue, show c.length = min stop (b.src.length - b.blockStart) - (position - b.blockStart) by omega]
        exact .longDistance hsequences hlies (by omega) (by omega)

/-- A match that is true resolves to its raw offset. -/
theorem Found.resolves {position literalLength rawOffset offsetValue length : Nat} {reps : RepeatOffsets}
    (h : b.Found position reps literalLength rawOffset offsetValue length) (hpos : 0 < rawOffset) :
    reps.resolveValues literalLength offsetValue =
      .ok (rawOffset, reps.resolved literalLength offsetValue) := by
  have hraw : ∃ next, reps.resolveValues literalLength offsetValue = .ok (rawOffset, next) := by
    cases h with
    | @reported finder found m _ _ _ _ =>
      have hmax := m.rawOffset_le
      have hresolves : reps.resolveValues literalLength (reps.encodeOffsetValueAndUpdate m.rawOffset literalLength).1 =
          .ok (m.rawOffset, (reps.encodeOffsetValueAndUpdate m.rawOffset literalLength).2) :=
        RepeatOffsets.resolveValues_encode hpos (by omega)
      rw [← reps.classifyOffset_eq literalLength (by omega)] at hresolves
      exact ⟨_, hresolves⟩
    | @longDistance sequences s _ _ _ _ _ _ =>
      refine ⟨⟨s.offset, reps.rep1, reps.rep2⟩, ?_⟩
      unfold RepeatOffsets.resolveValues
      rw [if_pos (by omega), Nat.add_sub_cancel]
  obtain ⟨next, hnext⟩ := hraw
  rw [RepeatOffsets.resolveValues_resolved hnext, hnext]

/-- The raw offset behind an offer, and the match as far as it is used. -/
theorem Offers.genuine (hfinds : b.FindsMatches before) {position literalLength offsetValue matchLength : Nat}
    {reps : RepeatOffsets} (h : b.Offers position reps literalLength offsetValue matchLength) :
    ∃ rawOffset length, b.Found position reps literalLength rawOffset offsetValue length ∧ matchLength ≤ length ∧
      Genuine (before ++ b.src) 0 (before.length + b.src.length) (before.length + position) matchLength rawOffset ∧
      reps.resolveValues literalLength offsetValue = .ok (rawOffset, reps.resolved literalLength offsetValue) := by
  obtain ⟨rawOffset, length, hfound, hle⟩ := h.found
  have hge := h.length_ge
  have hgenuine := hfinds position reps literalLength rawOffset offsetValue length h.low h.room hfound (by omega)
  have hstop := hgenuine.stop_le
  exact ⟨rawOffset, length, hfound, hle,
    ⟨hgenuine.offset_pos, hgenuine.low_le, by omega, fun i hi => hgenuine.bytes i (hi.trans_le hle)⟩,
    hfound.resolves hgenuine.offset_pos⟩

/-! ## Sequences that are laid down -/

/-- From a position with its repeat offsets to another, each sequence on offer where its match begins. -/
def Laid (b : OptimalBlock σ) : Nat → RepeatOffsets → List SequenceCommand → Nat → RepeatOffsets → Prop
  | anchor, reps, [], anchor', reps' => anchor = anchor' ∧ reps = reps'
  | anchor, reps, seq :: seqs, anchor', reps' =>
    b.Offers (anchor + seq.literalLength) reps seq.literalLength seq.offsetValue seq.matchLength ∧
      Laid b (anchor + seq.literalLength + seq.matchLength) (reps.resolved seq.literalLength seq.offsetValue) seqs
        anchor' reps'

/-- The literals in front of each match. -/
def literalsOf (src : Bytes) : Nat → List SequenceCommand → Bytes
  | _, [] => []
  | anchor, seq :: seqs =>
    (src.drop anchor).take seq.literalLength ++
      literalsOf src (anchor + seq.literalLength + seq.matchLength) seqs

/-- Where each sequence comes from: a match of that raw offset was found where it is laid down. -/
def Traced (b : OptimalBlock σ) : Nat → RepeatOffsets → List SequenceCommand → List Nat → Prop
  | _, _, [], [] => True
  | anchor, reps, seq :: seqs, rawOffset :: rawOffsets =>
    (∃ length, b.Found (anchor + seq.literalLength) reps seq.literalLength rawOffset seq.offsetValue length ∧
      seq.matchLength ≤ length) ∧
      Traced b (anchor + seq.literalLength + seq.matchLength) (reps.resolved seq.literalLength seq.offsetValue) seqs
        rawOffsets
  | _, _, _, _ => False

theorem Laid.le : ∀ {seqs : List SequenceCommand} {anchor anchor' : Nat} {reps reps' : RepeatOffsets},
    b.Laid anchor reps seqs anchor' reps' → anchor ≤ anchor'
  | [], _, _, _, _, h => h.1.le
  | _ :: _, _, _, _, _, h => by
    have := h.2.le
    omega

theorem Laid.snoc {seq : SequenceCommand} : ∀ {seqs : List SequenceCommand} {anchor anchor' : Nat}
    {reps reps' : RepeatOffsets}, b.Laid anchor reps seqs anchor' reps' →
      b.Offers (anchor' + seq.literalLength) reps' seq.literalLength seq.offsetValue seq.matchLength →
      b.Laid anchor reps (seqs ++ [seq]) (anchor' + seq.literalLength + seq.matchLength)
        (reps'.resolved seq.literalLength seq.offsetValue)
  | [], _, _, _, _, ⟨hanchor, hreps⟩, hoffers => by
    subst hanchor hreps
    exact ⟨hoffers, rfl, rfl⟩
  | _ :: _, _, _, _, _, ⟨hfirst, hrest⟩, hoffers => ⟨hfirst, hrest.snoc hoffers⟩

theorem Laid.literalsOf_snoc {seq : SequenceCommand} : ∀ {seqs : List SequenceCommand} {anchor anchor' : Nat}
    {reps reps' : RepeatOffsets}, b.Laid anchor reps seqs anchor' reps' →
      literalsOf b.src anchor (seqs ++ [seq]) =
        literalsOf b.src anchor seqs ++ (b.src.drop anchor').take seq.literalLength
  | [], _, _, _, _, ⟨hanchor, _⟩ => by
    subst hanchor
    exact List.append_nil _
  | _ :: seqs, _, _, _, _, ⟨_, hrest⟩ => by
    rw [List.cons_append, literalsOf, hrest.literalsOf_snoc, ← List.append_assoc]
    rfl

/-- What is laid down ends inside the block. -/
theorem Laid.le_length (hfinds : b.FindsMatches before) : ∀ {seqs : List SequenceCommand} {anchor anchor' : Nat}
    {reps reps' : RepeatOffsets}, b.Laid anchor reps seqs anchor' reps' → anchor ≤ b.src.length →
      anchor' ≤ b.src.length
  | [], _, _, _, _, ⟨hanchor, _⟩, hle => hanchor ▸ hle
  | _ :: _, _, _, _, _, ⟨hfirst, hrest⟩, _ => by
    obtain ⟨_, _, _, _, hgenuine, _⟩ := hfirst.genuine hfinds
    have hstop := hgenuine.stop_le
    exact hrest.le_length hfinds (by omega)

/-- A decoder that stands where the sequences begin gets to where they end, and finds their raw offsets on the way. -/
theorem Laid.executes (hfinds : b.FindsMatches before) : ∀ {seqs : List SequenceCommand} {anchor anchor' : Nat}
    {reps reps' : RepeatOffsets}, b.Laid anchor reps seqs anchor' reps' → anchor ≤ b.src.length →
      ∃ offsets, reps.resolveAll seqs = .ok (offsets, reps') ∧ b.Traced anchor reps seqs offsets ∧
        ∀ rest, executePlan (before ++ b.src.take anchor) (literalsOf b.src anchor seqs ++ rest) (seqs.zip offsets) =
          .ok (before ++ b.src.take anchor' ++ rest)
  | [], _, _, _, _, ⟨hanchor, hreps⟩, _ => by
    subst hanchor hreps
    exact ⟨[], rfl, trivial, fun rest => rfl⟩
  | seq :: seqs, anchor, anchor', reps, reps', ⟨hfirst, hrest⟩, hle => by
    obtain ⟨rawOffset, length, hfound, hlength, hgenuine, hresolves⟩ := hfirst.genuine hfinds
    have hroom := hfirst.room
    have hstop := hgenuine.stop_le
    have hlow := hgenuine.low_le
    have hpos := hgenuine.offset_pos
    obtain ⟨offsets, hoffsets, htraced, hexecutes⟩ := hrest.executes hfinds (by omega)
    refine ⟨rawOffset :: offsets, ?_, ⟨⟨length, hfound, hlength⟩, htraced⟩, fun rest => ?_⟩
    · simp only [RepeatOffsets.resolveAll, hresolves, ok_bind, hoffsets]
    have hliterals : ((b.src.drop anchor).take seq.literalLength).length = seq.literalLength := by
      rw [List.length_take, List.length_drop]
      omega
    have htake : ((b.src.drop anchor).take seq.literalLength ++
        (literalsOf b.src (anchor + seq.literalLength + seq.matchLength) seqs ++ rest)).take seq.literalLength =
        (b.src.drop anchor).take seq.literalLength := List.take_left' hliterals
    have hdrop : ((b.src.drop anchor).take seq.literalLength ++
        (literalsOf b.src (anchor + seq.literalLength + seq.matchLength) seqs ++ rest)).drop seq.literalLength =
        literalsOf b.src (anchor + seq.literalLength + seq.matchLength) seqs ++ rest := List.drop_left' hliterals
    -- the literals bring the decoder to the place where the match was found
    have hout : before ++ b.src.take anchor ++ (b.src.drop anchor).take seq.literalLength =
        (before ++ b.src).take (before.length + (anchor + seq.literalLength)) := by
      rw [List.append_assoc, ← List.take_add, List.take_length_add_append]
    have houtLength : ((before ++ b.src).take (before.length + (anchor + seq.literalLength))).length =
        before.length + (anchor + seq.literalLength) := by
      rw [List.length_take, List.length_append]
      omega
    have hcopy := hgenuine.copy_eq (by rw [List.length_append])
    rw [Nat.add_assoc before.length] at hcopy
    rw [literalsOf, List.append_assoc, List.zip_cons_cons, executePlan]
    rw [htake, hdrop, hout, if_neg (by rw [List.length_append, hliterals]; omega),
      if_neg (by rw [houtLength]; omega), hcopy, List.take_length_add_append]
    exact hexecutes rest

end OptimalBlock

/-! ## One pass over the positions ahead -/

section
variable {σ : Type} {b : OptimalBlock σ} {bad : PriceFault → Prop} {before : Bytes} {m : OptimalPriceModel}
variable {start : PathStart} {ip cur lastPos pos : Nat} {nodes : PathNodes} {node : OptimalPathNode}

/-- The nodes ahead of `ip`: what is on offer to them is what the block offers there. -/
structure StartsAt (b : OptimalBlock σ) (ip : Nat) (start : PathStart) : Prop where
  low : b.blockStart ≤ ip
  horizon_le : start.horizon ≤ optNum
  inside : ip + start.horizon ≤ b.src.length
  litlen_le : start.litlen ≤ ip
  offered : ∀ pos reps literalLength offsetValue matchLength,
    start.offered pos reps literalLength offsetValue matchLength ↔
      b.Offers (ip + pos) reps literalLength offsetValue matchLength

theorem StartsAt.offersTo (hstart : StartsAt b ip start) {s : SearchState σ} (hs : b.Searched s)
    (hroom : ip + cur + 8 ≤ b.src.length) :
    ∀ c ∈ (b.collect s (ip + cur) node.reps node.litlen).1, 3 ≤ c.length ∧ OffersTo start cur node c := by
  have hlow := hstart.low
  intro c hc
  obtain ⟨hlength, hvalue, rawOffset, hfound⟩ :=
    (b.collect_found hs (by omega) hroom node.reps node.litlen).1 c hc
  refine ⟨hlength, hvalue, fun matchLength hge hle => ?_⟩
  rw [hstart.offered]
  exact ⟨by omega, hroom, hge, hvalue, rawOffset, c.length, hfound, hle⟩

structure ForwardLeads (b : OptimalBlock σ) (start : PathStart) (cur : Nat) (s : ForwardState σ) : Prop where
  nodes : NodesLead start cur s.lastPos s.nodes
  state : b.Searched s.state

/-- How a step may end: at the last position, or with a candidate on offer to the node it has settled. -/
def ForwardExit.Leads (start : PathStart) (cur : Nat) (s : ForwardState σ) : ForwardExit → Prop
  | .next => True
  | .stop => s.lastPos = cur
  | .stretch candidate =>
    ∃ node, s.nodes[cur]? = some node ∧ 3 ≤ candidate.length ∧ OffersTo start cur node candidate

theorem searchNode_leads (hbad : PriceFault.Spares bad) (hm : m.Tabled) (hstart : StartsAt b ip start)
    {s : ForwardState σ} (h : ForwardLeads b start (cur + 1) s) (hcur : cur ≤ s.lastPos)
    (hroom : ip + cur + 8 ≤ b.src.length) (hnode : s.nodes[cur]? = some node) :
    Avoids bad (searchNode b m ip start.horizon cur s node) fun result =>
      ForwardLeads b start (cur + 1) result.1 ∧ cur ≤ result.1.lastPos ∧ result.2.Leads start cur result.1 := by
  have hlow := hstart.low
  have hoffers : ∀ c ∈ (b.collect s.state (ip + cur) node.reps node.litlen).1,
      3 ≤ c.length ∧ OffersTo start cur node c :=
    hstart.offersTo h.state hroom
  have hsearched := (b.collect_found h.state (by omega) hroom node.reps node.litlen).2
  unfold searchNode
  generalize b.collect s.state (ip + cur) node.reps node.litlen = collected at hoffers hsearched
  obtain ⟨candidates, state⟩ := collected
  dsimp only at *
  split
  · exact .of_ok ⟨⟨h.nodes, hsearched⟩, hcur, trivial⟩
  rename_i best hbest
  split
  · exact .of_ok ⟨⟨h.nodes, hsearched⟩, hcur, node, hnode, hoffers best (List.mem_of_getLast? hbest)⟩
  · refine (updateOptimalMatchNodes_leads hbad hm ⟨h.nodes, hnode⟩ hcur b.minLength_bounds.1 hstart.horizon_le
      fun c hc => (hoffers c hc).2).bind ?_
    rintro ⟨nodes, lastPos⟩ ⟨hcur', hnodes⟩
    exact .of_ok ⟨⟨hnodes, hsearched⟩, hcur', trivial⟩

theorem forwardStep_leads (hbad : PriceFault.Spares bad) (hm : m.Tabled) (hstart : StartsAt b ip start)
    (hshort : bad .outside → start.litlen + start.horizon < 2 ^ 17) {s : ForwardState σ}
    (h : ForwardLeads b start cur s) (hpos : 0 < cur) (hcur : cur ≤ s.lastPos) :
    Avoids bad (forwardStep b m ip start.horizon cur s) fun result =>
      ForwardLeads b start (cur + 1) result.1 ∧ cur ≤ result.1.lastPos ∧ result.2.Leads start cur result.1 := by
  have hlast := h.nodes.last_le
  have hinside := hstart.inside
  have hhorizon := hstart.horizon_le
  unfold forwardStep
  refine Avoids.bind (?_ : Avoids bad _ fun _ => True) fun byte _ => ?_
  · rw [List.getElem?_eq_getElem (by omega)]
    exact .of_ok trivial
  refine (updateOptimalLiteralNode_leads hbad hm h.nodes hpos hcur hhorizon hshort byte).bind ?_
  rintro ⟨_, replacedMatch⟩ ⟨⟨node, rfl, harrived⟩, hreplaced⟩
  refine (resolveNodeReps_leads h.nodes (by omega) harrived).bind ?_
  rintro _ ⟨hnodes, node', rfl⟩
  refine Avoids.bind (?_ : Avoids bad _ fun state => cur ≤ state.2 ∧ NodesLead start (cur + 1) state.2 state.1) ?_
  · cases m.options.isUltra with
    | false => exact .of_ok ⟨hcur, hnodes⟩
    | true =>
      cases replacedMatch with
      | none => exact .of_ok ⟨hcur, hnodes⟩
      | some prevMatch =>
        obtain ⟨hend, previous, hends, -⟩ := hreplaced prevMatch rfl
        exact matchPlusOneLiteral_leads hbad hm hnodes hcur hhorizon hshort hend (hends.set le_rfl node') _
  rintro ⟨nodes, lastPos⟩ ⟨hcur', hnodes⟩
  dsimp only at *
  have hlast' := hnodes.last_le
  split
  · exact .of_ok ⟨⟨hnodes, h.state⟩, hcur', trivial⟩
  rename_i hlimit
  split
  · rename_i hend
    exact .of_ok ⟨⟨hnodes, h.state⟩, hcur', hend.symm⟩
  refine (nodeAt_inside (by rw [hnodes.length_eq]; omega)).bind fun current hcurrent => ?_
  have hskip : Avoids bad (if m.options.isUltra = false ∧ cur + 1 ≤ start.horizon then do
      let near ← addU32 current.price (optPriceUnit / 2)
      .ok (decide ((← nodeAt nodes (cur + 1)).price ≤ near))
      else .ok false) fun _ => True := by
    split
    · refine (addU32_spared hbad _ _).bind fun near _ => ?_
      exact (nodeAt_inside (by rw [hnodes.length_eq]; omega)).bind fun _ _ => .of_ok trivial
    · exact .of_ok trivial
  refine hskip.bind fun skip _ => ?_
  split
  · exact .of_ok ⟨⟨hnodes, h.state⟩, hcur', trivial⟩
  · refine searchNode_leads (s := ⟨nodes, lastPos, s.state⟩) hbad hm hstart ⟨hnodes, h.state⟩ hcur' ?_ hcurrent
    unfold OptimalBlock.limit at hlimit
    omega

/-- However the pass ends, the nodes are settled up to the position where the way back begins. -/
theorem forwardPass_leads (hbad : PriceFault.Spares bad) (hm : m.Tabled) (hstart : StartsAt b ip start)
    (hshort : bad .outside → start.litlen + start.horizon < 2 ^ 17) :
    ∀ (fuel cur : Nat) (s : ForwardState σ), 0 < cur → 0 < s.lastPos → cur ≤ s.lastPos + 1 →
      optNum + 1 < fuel + cur →
      ForwardLeads b start cur s →
        Avoids bad (forwardPass b m ip start.horizon fuel cur s) fun result =>
          ∃ cur', ForwardLeads b start cur' result.1 ∧ cur' ≤ result.1.lastPos + 1 ∧ 0 < result.1.lastPos ∧
            (result.2 = none → result.1.lastPos < cur') ∧
            ∀ candidate stop, result.2 = some (candidate, stop) → 0 < stop ∧ stop < cur' ∧
              ∃ node, result.1.nodes[stop]? = some node ∧ 3 ≤ candidate.length ∧ OffersTo start stop node candidate
  | 0, cur, s, _, _, hcur, hfuel, h => by
    have hlast := h.nodes.last_le
    have hhorizon := hstart.horizon_le
    omega
  | fuel + 1, cur, s, hpos, hlast, hcur, hfuel, h => by
    unfold forwardPass
    split
    · refine .of_ok ⟨cur, h, hcur, hlast, fun _ => by omega, ?_⟩
      rintro _ _ ⟨⟩
    refine (forwardStep_leads hbad hm hstart hshort h hpos (by omega)).bind ?_
    rintro ⟨s', exit⟩ ⟨h', hcur', hexit⟩
    dsimp only at *
    cases exit with
    | next =>
      exact forwardPass_leads hbad hm hstart hshort fuel (cur + 1) s' (Nat.succ_pos _) (by omega) (by omega) (by omega)
        h'
    | stop =>
      have hend : s'.lastPos = cur := hexit
      refine .of_ok ⟨cur + 1, h', by dsimp only; omega, by dsimp only; omega, fun _ => by dsimp only; omega, ?_⟩
      rintro _ _ ⟨⟩
    | stretch candidate =>
      refine .of_ok ⟨cur + 1, h', by dsimp only; omega, by dsimp only; omega, by rintro ⟨⟩, ?_⟩
      rintro _ _ ⟨⟩
      exact ⟨hpos, Nat.lt_succ_self _, hexit⟩

/-! ## The way back -/

/-- A node and what holds there: where the literals in front of it begin, and the repeat offsets. -/
def StandsAt (ip : Nat) (nodes : PathNodes) (pos anchor : Nat) (reps : RepeatOffsets) : Prop :=
  ∃ node, nodes[pos]? = some node ∧ anchor + node.litlen = ip + pos ∧ node.reps = reps

theorem literalStart_leads (h : NodesLead start cur lastPos nodes) (hcur : cur ≤ optNum + 1) {anchor : Nat}
    {reps : RepeatOffsets} : ∀ {pos : Nat}, pos < cur → StandsAt ip nodes pos anchor reps →
      Avoids bad (literalStart nodes pos) fun pos' => pos' ≤ pos ∧ StandsAt ip nodes pos' anchor reps ∧
        (0 < pos' → ∃ node, nodes[pos']? = some node ∧ node.mlen ≠ 0)
  | 0, _, hstands => .of_ok ⟨le_rfl, hstands, fun hpos => absurd hpos (Nat.lt_irrefl 0)⟩
  | pos + 1, hpos, ⟨node, hnode, hanchor, hreps⟩ => by
    unfold literalStart
    refine (nodeAt_inside (by rw [h.length_eq]; omega)).bind fun node' hnode' => ?_
    rw [hnode] at hnode'
    cases hnode'
    split
    · rename_i hmlen
      cases (h.settled _ node hnode hpos).2 with
      | literal hget _ hlitlen hsame =>
        have hstands : StandsAt ip nodes pos anchor reps := ⟨_, hget, by omega, hsame.symm.trans hreps⟩
        refine (literalStart_leads h hcur (by omega) hstands).mono ?_
        rintro pos' ⟨hle, hstands, hmatch⟩
        exact ⟨by omega, hstands, hmatch⟩
      | ends hends _ =>
        have := hends.length_ge
        omega
    · rename_i hmlen
      exact .of_ok ⟨le_rfl, ⟨node, hnode, hanchor, hreps⟩, fun _ => ⟨node, hnode, hmlen⟩⟩

/-- From a node that a match ends at, back to the first. -/
theorem backtraceLoop_leads (hstart : StartsAt b ip start) (h : NodesLead start cur lastPos nodes)
    (hcur : cur ≤ optNum + 1) {anchor' : Nat} {reps' : RepeatOffsets} :
    ∀ {fuel pos anchor : Nat} {reps : RepeatOffsets} {sequences : List SequenceCommand}, pos < fuel → pos < cur →
      StandsAt ip nodes pos anchor reps → (0 < pos → ∃ node, nodes[pos]? = some node ∧ node.mlen ≠ 0) →
        b.Laid anchor reps sequences anchor' reps' →
          Avoids bad (backtraceLoop nodes fuel pos sequences) fun path =>
            b.Laid (ip - start.litlen) start.reps path anchor' reps' ∧ (pos = 0 → path = sequences)
  | 0, _, _, _, _, hfuel, _, _, _, _ => absurd hfuel (Nat.not_lt_zero _)
  | fuel + 1, pos, anchor, reps, sequences, hfuel, hpos, hstands, hmatch, hlaid => by
    have hlow := hstart.litlen_le
    obtain ⟨node, hnode, hanchor, hreps⟩ := hstands
    obtain ⟨-, hsettled⟩ := h.settled pos node hnode hpos
    unfold backtraceLoop
    split
    · rename_i hzero
      subst hzero
      cases hsettled with
      | first _ hlitlen hsame =>
        subst hreps
        rw [show anchor = ip - start.litlen by omega, hsame] at hlaid
        exact .of_ok ⟨hlaid, fun _ => rfl⟩
      | ends hends _ =>
        have hle := hends.le
        have hge := hends.length_ge
        omega
    rename_i hzero
    refine (nodeAt_inside (by rw [h.length_eq]; omega)).bind fun node' hnode' => ?_
    rw [hnode] at hnode'
    cases hnode'
    have hmlen : node.mlen ≠ 0 := by
      obtain ⟨node', hnode', hmlen⟩ := hmatch (by omega)
      rw [hnode] at hnode'
      cases hnode'
      exact hmlen
    rw [if_neg hmlen]
    cases hsettled with
    | first hnone _ _ => exact absurd hnone hmlen
    | literal _ hnone _ _ => exact absurd hnone hmlen
    | @ends _ _ previous hends hsame =>
      have hback := hends.le
      have hge := hends.length_ge
      have hget := hends.get
      have hoffered := (hstart.offered _ _ _ _ _).1 hends.offered
      refine (nodeBefore_inside hback hget).bind ?_
      rintro _ rfl
      dsimp only
      generalize hq : pos - (node.mlen + node.litlen) = q at hget hoffered
      obtain ⟨hlitlen, -⟩ := h.settled q previous hget (by omega)
      have hbefore : ip + q - previous.litlen + previous.litlen = ip + q := by omega
      have hend : ip + q + node.mlen = anchor := by omega
      have hstands : StandsAt ip nodes q (ip + q - previous.litlen) previous.reps := ⟨previous, hget, hbefore, rfl⟩
      refine (literalStart_leads h hcur (by omega) hstands).bind ?_
      rintro pos' ⟨hle, hstands', hmatch'⟩
      have hlaid' : b.Laid (ip + q - previous.litlen) previous.reps
          (⟨previous.litlen, node.mlen, node.off⟩ :: sequences) anchor' reps' := by
        refine ⟨?_, ?_⟩
        · dsimp only
          rwa [hbefore]
        · dsimp only
          rwa [hbefore, hend, ← hsame, hreps]
      exact (backtraceLoop_leads hstart h hcur (by omega) (by omega) hstands' hmatch' hlaid').mono
        fun path hpath => ⟨hpath.1, fun hnone => absurd hnone hzero⟩

/-- The sequences from the first node to a settled one, and the literals behind them. -/
theorem backtraceOptimalPath_leads (hstart : StartsAt b ip start) (h : NodesLead start cur lastPos nodes)
    (hcur : cur ≤ optNum + 1) {stop : Nat} (hstop : stop < cur) (hnode : nodes[stop]? = some node) :
    Avoids bad (backtraceOptimalPath nodes stop) fun path => path.2 = node.litlen ∧ node.litlen ≤ ip + stop ∧
      b.Laid (ip - start.litlen) start.reps path.1 (ip + stop - node.litlen) node.reps ∧
        (path.1 = [] ∨ node.litlen < stop) := by
  have hlow := hstart.litlen_le
  obtain ⟨hlitlen, -⟩ := h.settled stop node hnode hstop
  unfold backtraceOptimalPath
  refine (nodeAt_inside (by rw [h.length_eq]; omega)).bind fun node' hnode' => ?_
  rw [hnode] at hnode'
  cases hnode'
  have hstands : StandsAt ip nodes stop (ip + stop - node.litlen) node.reps := ⟨node, hnode, by omega, rfl⟩
  refine (literalStart_leads h hcur hstop hstands).bind ?_
  rintro pos ⟨hle, hstands', hmatch⟩
  have hnil : b.Laid (ip + stop - node.litlen) node.reps [] (ip + stop - node.litlen) node.reps := ⟨rfl, rfl⟩
  refine (backtraceLoop_leads hstart h hcur (by omega) (by omega) hstands' hmatch hnil).bind ?_
  rintro sequences ⟨hlaid, hfirst⟩
  refine .of_ok ⟨rfl, by omega, hlaid, ?_⟩
  by_cases hpos : pos = 0
  · exact .inl (hfirst hpos)
  · -- the match that ends at `pos` lies behind the first node
    obtain ⟨node', hnode', hmlen⟩ := hmatch (by omega)
    obtain ⟨other, hother, hanchor, -⟩ := hstands'
    rw [hnode'] at hother
    cases hother
    obtain ⟨-, hsettled⟩ := h.settled pos node' hnode' (by omega)
    cases hsettled with
    | first hnone _ _ => exact absurd hnone hmlen
    | literal _ hnone _ _ => exact absurd hnone hmlen
    | ends hends _ =>
      have hge := hends.length_ge
      have hback := hends.le
      exact .inr (by omega)

/-! ## Emission -/

/-- What has been emitted is laid down from the block's first byte on. -/
structure ParseLeads (b : OptimalBlock σ) (p : OptimalParse) : Prop where
  laid : b.Laid b.blockStart b.reps p.sequences p.anchor p.reps
  literals_eq : p.literals = OptimalBlock.literalsOf b.src b.blockStart p.sequences
  tabled : p.model.Tabled

theorem emitOptimalSequence_leads (hbad : PriceFault.Spares bad) (hfinds : b.FindsMatches before) {p : OptimalParse}
    (h : ParseLeads b p) {seq : SequenceCommand}
    (hoffers : b.Offers (p.anchor + seq.literalLength) p.reps seq.literalLength seq.offsetValue seq.matchLength) :
    Avoids bad (emitOptimalSequence b.src p seq) fun p' => ParseLeads b p' ∧
      p'.anchor = p.anchor + seq.literalLength + seq.matchLength ∧
      p'.reps = p.reps.resolved seq.literalLength seq.offsetValue := by
  have hanchor := h.laid.le
  have hblock := b.blockLength_le
  have hroom := hoffers.room
  obtain ⟨rawOffset, _, _, _, hgenuine, hresolves⟩ := hoffers.genuine hfinds
  have hstop := hgenuine.stop_le
  unfold emitOptimalSequence
  dsimp only
  rw [if_neg (by omega)]
  refine (h.tabled.updateStats hbad _ (fun _ => by omega) hoffers.offsetValue_lt fun _ => by omega).bind
    fun model hmodel => ?_
  rw [hresolves]
  refine .of_ok ⟨⟨h.laid.snoc hoffers, ?_, hmodel⟩, rfl, rfl⟩
  dsimp only
  rw [h.laid.literalsOf_snoc, h.literals_eq]

theorem emitAll_leads (hbad : PriceFault.Spares bad) (hfinds : b.FindsMatches before) {anchor' : Nat}
    {reps' : RepeatOffsets} : ∀ {sequences : List SequenceCommand} {p : OptimalParse}, ParseLeads b p →
      b.Laid p.anchor p.reps sequences anchor' reps' →
        Avoids bad (emitAll b.src p sequences) fun p' => ParseLeads b p' ∧ p'.anchor = anchor' ∧ p'.reps = reps'
  | [], p, h, ⟨hanchor, hreps⟩ => .of_ok ⟨h, hanchor, hreps⟩
  | seq :: sequences, p, h, ⟨hfirst, hrest⟩ => by
    unfold emitAll
    rw [List.foldlM_cons]
    refine (emitOptimalSequence_leads hbad hfinds h hfirst).bind ?_
    rintro p' ⟨h', hanchor, hreps⟩
    rw [← hanchor, ← hreps] at hrest
    exact emitAll_leads hbad hfinds h' hrest

/-! ## Blocks -/

structure RunLeads (b : OptimalBlock σ) (r : OptimalRun σ) : Prop where
  parse : ParseLeads b r.parse
  anchor_le : r.parse.anchor ≤ r.ip
  nodes_length : r.nodes.length = optNum + 1
  state : b.Searched r.state

theorem planAhead_leads (hbad : PriceFault.Spares bad) (hfinds : b.FindsMatches before)
    (hshort : bad .outside → b.src.length - b.blockStart < 2 ^ 17) {r : OptimalRun σ} (h : RunLeads b r)
    (hlimit : r.ip < b.limit) {candidates : List OptimalMatchCandidate}
    (hcandidates : ∀ c ∈ candidates, 3 ≤ c.length ∧ c.offsetValue < 2 ^ 32 ∧
      ∃ rawOffset, b.Found r.ip r.parse.reps (r.ip - r.parse.anchor) rawOffset c.offsetValue c.length) :
    Avoids bad (planAhead b r candidates) fun r' => RunLeads b r' ∧ r.ip < r'.ip := by
  have hm := h.parse.tabled
  have hanchor := h.parse.laid.le
  have hip := h.anchor_le
  have hblock := b.blockLength_le
  have hlength := b.minLength_bounds
  unfold OptimalBlock.limit at hlimit
  let start : PathStart :=
    ⟨r.ip - r.parse.anchor, r.parse.reps, min optNum (b.src.length - r.ip),
      fun pos reps literalLength offsetValue matchLength =>
        b.Offers (r.ip + pos) reps literalLength offsetValue matchLength⟩
  have hhorizon : start.horizon ≤ optNum := Nat.min_le_left _ _
  have hinside : r.ip + start.horizon ≤ b.src.length := by
    show r.ip + min optNum (b.src.length - r.ip) ≤ b.src.length
    omega
  have hstart : StartsAt b r.ip start :=
    ⟨by omega, hhorizon, hinside, Nat.sub_le _ _, fun _ _ _ _ _ => Iff.rfl⟩
  have hstartLitlen : start.litlen = r.ip - r.parse.anchor := rfl
  have hmin : b.minLength ≤ start.horizon := by
    show b.minLength ≤ min optNum (b.src.length - r.ip)
    unfold optNum
    omega
  have hstartShort : bad .outside → start.litlen + start.horizon < 2 ^ 17 := fun houtside => by
    have := hshort houtside
    omega
  unfold planAhead
  dsimp only
  refine (OptimalPriceModel.llPrice_inside hbad hm fun _ => by omega).bind fun l _ => ?_
  refine (accumulated_spared hbad l).bind ?_
  rintro price ⟨rfl, hprice⟩
  -- the first node is in reach, with the literals before it
  let first : OptimalPathNode := ⟨price, 0, 0, r.ip - r.parse.anchor, r.parse.reps⟩
  have hfirst : Avoids bad (modifyNode r.nodes 0 fun _ => first) (NodesAt start 0 0 first ·) := by
    refine (modifyNode_inside (by rw [h.nodes_length]; exact Nat.succ_pos _) fun _ => first).mono ?_
    rintro _ ⟨-, rfl⟩
    refine ⟨⟨List.length_set.trans h.nodes_length, Nat.zero_le _, ?_, fun pos _ _ hge hle => by omega⟩,
      List.getElem?_set_self (by rw [h.nodes_length]; exact Nat.succ_pos _)⟩
    intro pos node hnode hlt
    rcases getElem?_set_cases hnode with ⟨rfl, rfl⟩ | ⟨hne, -⟩
    · exact ⟨Nat.le_refl _, .first rfl rfl rfl⟩
    · omega
  refine hfirst.bind fun nodes hnodes => ?_
  have hoffers : ∀ c ∈ candidates, OffersTo start 0 first c := by
    intro c hc
    obtain ⟨hge, hvalue, rawOffset, hfound⟩ := hcandidates c hc
    refine ⟨hvalue, fun matchLength hge hle => ?_⟩
    exact ⟨by omega, by omega, hge, hvalue, rawOffset, c.length, hfound, hle⟩
  refine (initOptimalMatchNodes_leads hbad hm hnodes hprice hlength.1 hmin hhorizon hoffers).bind ?_
  rintro ⟨nodes, lastPos⟩ ⟨hlast, hnodes⟩
  dsimp only at *
  refine (forwardPass_leads hbad hm hstart hstartShort (optNum + 1) 1 ⟨nodes, lastPos, r.state⟩ Nat.one_pos hlast
    (by dsimp only; omega) (by omega) ⟨hnodes, h.state⟩).bind ?_
  rintro ⟨s, stretch⟩ ⟨cur, hs, hcur, hlast', hnone, hsome⟩
  dsimp only at *
  have hreach := hs.nodes.last_le
  have hmark : Avoids bad (if s.lastPos + 1 ≤ start.horizon then modifyNode s.nodes (s.lastPos + 1) markNode
      else .ok s.nodes) fun nodes => NodesLead start cur s.lastPos nodes ∧
        ∀ pos ≤ s.lastPos, nodes[pos]? = s.nodes[pos]? := by
    split
    · refine (modifyNode_inside (by rw [hs.nodes.length_eq]; omega) markNode).mono ?_
      rintro _ ⟨node, rfl⟩
      exact ⟨hs.nodes.set hcur hreach (fun hle => by omega) fun q hq => .inl hq,
        fun pos hpos => List.getElem?_set_ne (by omega)⟩
    · exact .of_ok ⟨hs.nodes, fun pos _ => rfl⟩
  refine hmark.bind ?_
  rintro nodes ⟨hnodes, hsame⟩
  have hanchorEq : r.ip - start.litlen = r.parse.anchor := by omega
  have hcurLe : cur ≤ optNum + 1 := by omega
  cases stretch with
  | some last =>
    obtain ⟨candidate, stop⟩ := last
    obtain ⟨hpos, hstop, node, hnode, hge, hnodeOffers⟩ := hsome candidate stop rfl
    rw [← hsame stop (by omega)] at hnode
    refine (backtraceOptimalPath_leads hstart hnodes hcurLe hstop hnode).bind ?_
    rintro ⟨sequences, tailLiterals⟩ ⟨htail, hle, hlaid, -⟩
    dsimp only at *
    rw [hanchorEq] at hlaid
    refine (emitAll_leads hbad hfinds h.parse hlaid).bind ?_
    rintro p ⟨hp, hpAnchor, hpReps⟩
    have hback : p.anchor + tailLiterals = r.ip + stop := by omega
    have hseq := (hstart.offered _ _ _ _ _).1 (hnodeOffers.offered candidate.length hge le_rfl)
    rw [← hpReps, ← htail, ← hback] at hseq
    have hemitted : Avoids bad
        (emitOptimalSequence b.src p ⟨tailLiterals, candidate.length, candidate.offsetValue⟩) _ :=
      emitOptimalSequence_leads hbad hfinds hp hseq
    refine hemitted.bind ?_
    rintro p' ⟨hp', hp'Anchor, -⟩
    refine .of_ok ⟨⟨hp', le_rfl, hnodes.length_eq, hs.state⟩, ?_⟩
    dsimp only at *
    omega
  | none =>
    obtain ⟨node, hnode⟩ := hnodes.get s.lastPos (by omega)
    obtain ⟨hlitlen, hsettled⟩ := hnodes.settled s.lastPos node hnode (hnone rfl)
    refine (backtraceOptimalPath_leads hstart hnodes hcurLe (hnone rfl) hnode).bind ?_
    rintro ⟨sequences, tailLiterals⟩ ⟨htail, hle, hlaid, hempty⟩
    dsimp only at *
    rw [hanchorEq] at hlaid
    split
    · rename_i hnil
      subst hnil
      obtain ⟨hsameAnchor, -⟩ := hlaid
      refine .of_ok ⟨⟨h.parse, Nat.le_add_right _ _, hnodes.length_eq, hs.state⟩, ?_⟩
      dsimp only
      omega
    · rename_i hne
      refine (emitAll_leads hbad hfinds h.parse hlaid).bind ?_
      rintro p ⟨hp, hpAnchor, -⟩
      refine .of_ok ⟨⟨hp, le_rfl, hnodes.length_eq, hs.state⟩, ?_⟩
      have := hempty.resolve_left hne
      dsimp only
      omega

theorem planStep_leads (hbad : PriceFault.Spares bad) (hfinds : b.FindsMatches before)
    (hshort : bad .outside → b.src.length - b.blockStart < 2 ^ 17) {r : OptimalRun σ} (h : RunLeads b r)
    (hlimit : r.ip < b.limit) : Avoids bad (planStep b r) fun r' => RunLeads b r' ∧ r.ip < r'.ip := by
  have hanchor := h.parse.laid.le
  have hip := h.anchor_le
  have hroom : r.ip + 8 ≤ b.src.length := by
    unfold OptimalBlock.limit at hlimit
    omega
  unfold planStep
  dsimp only
  rw [if_neg (by omega)]
  have hcollect := b.collect_found h.state (by omega) hroom r.parse.reps (r.ip - r.parse.anchor)
  generalize b.collect r.state r.ip r.parse.reps (r.ip - r.parse.anchor) = collected at hcollect
  obtain ⟨candidates, state⟩ := collected
  obtain ⟨hfound, hsearched⟩ := hcollect
  dsimp only at *
  split
  · exact .of_ok ⟨⟨h.parse, Nat.le_succ_of_le hip, h.nodes_length, hsearched⟩, Nat.lt_succ_self _⟩
  rename_i best hbest
  split
  · obtain ⟨hge, hvalue, rawOffset, hbestFound⟩ := hfound best (List.mem_of_getLast? hbest)
    have hback : r.parse.anchor + (r.ip - r.parse.anchor) = r.ip := by omega
    have hseq : b.Offers (r.parse.anchor + (r.ip - r.parse.anchor)) r.parse.reps (r.ip - r.parse.anchor)
        best.offsetValue best.length :=
      ⟨by omega, by omega, hge, hvalue, rawOffset, best.length, by rwa [hback], le_rfl⟩
    have hemitted : Avoids bad
        (emitOptimalSequence b.src r.parse ⟨r.ip - r.parse.anchor, best.length, best.offsetValue⟩) _ :=
      emitOptimalSequence_leads hbad hfinds h.parse hseq
    refine hemitted.bind ?_
    rintro p ⟨hp, hpAnchor, -⟩
    refine .of_ok ⟨⟨hp, le_rfl, h.nodes_length, hsearched⟩, ?_⟩
    dsimp only at *
    omega
  · exact planAhead_leads (r := { r with state }) hbad hfinds hshort ⟨h.parse, hip, h.nodes_length, hsearched⟩ hlimit
      hfound

/-- Every round moves on, so the loop ends. -/
theorem planLoop_leads (hbad : PriceFault.Spares bad) (hfinds : b.FindsMatches before)
    (hshort : bad .outside → b.src.length - b.blockStart < 2 ^ 17) : ∀ (fuel : Nat) {r : OptimalRun σ},
      0 < fuel → b.limit < fuel + r.ip → RunLeads b r → Avoids bad (planLoop b fuel r) (RunLeads b)
  | 0, _, hfuel, _, _ => absurd hfuel (Nat.lt_irrefl 0)
  | fuel + 1, r, _, hfuel, h => by
    unfold planLoop
    split
    · rename_i hlimit
      refine (planStep_leads hbad hfinds hshort h hlimit).bind ?_
      rintro r' ⟨h', hmoves⟩
      exact planLoop_leads hbad hfinds hshort fuel (by omega) (by omega) h'
    · exact .of_ok h

theorem startModel_tabled (hbad : PriceFault.Spares bad) (options : PriceOptions)
    {persisted : Option OptimalPriceState} (hpersisted : ∀ state ∈ persisted, state.Tabled) :
    Avoids bad (startModel b options persisted) (·.Tabled) := by
  unfold startModel
  cases persisted with
  | some state =>
    refine ((hpersisted state rfl).rescale hbad).bind fun state' hstate' => ?_
    exact OptimalPriceModel.fromPersistedState_tabled hbad hstate' options
  | none =>
    refine Avoids.bind (?_ : Avoids bad _ fun seed => ∀ s ∈ seed, s.Tabled) fun seed hseed =>
      OptimalPriceModel.new_tabled hbad _ hseed options
    split
    · refine (optimalPriceSeed_inside hbad _ _ _ _).bind fun seed htabled => .of_ok fun s hs => ?_
      cases hs
      exact htabled
    · apply Avoids.of_ok
      rintro _ ⟨⟩

end

/-! ## Plans -/

/-- What a plan owes its block: a decoder finds the raw offsets, those of matches found where they are laid down, it
has the plan's repeat offsets then, and it gets the block. -/
structure OptimalPlan.Valid {σ : Type} (plan : OptimalPlan) (b : OptimalBlock σ) (before : Bytes)
    (offsets : List Nat) : Prop where
  resolves : b.reps.resolveAll plan.sequences = .ok (offsets, plan.reps)
  traced : b.Traced b.blockStart b.reps plan.sequences offsets
  reproduces : executePlan (before ++ b.src.take b.blockStart) plan.literals (plan.sequences.zip offsets) =
    .ok (before ++ b.src)

section
variable {σ : Type} {b : OptimalBlock σ} {bad : PriceFault → Prop} {before : Bytes}

theorem planBlock_leads (hbad : PriceFault.Spares bad) (hfinds : b.FindsMatches before)
    (hshort : bad .outside → b.src.length - b.blockStart < 2 ^ 17) (options : PriceOptions) {fuel : Nat}
    (hfuel : b.src.length < fuel) {persisted : Option OptimalPriceState}
    (hpersisted : ∀ state ∈ persisted, state.Tabled) :
    Avoids bad (planBlock b options fuel persisted) fun plan =>
      (∃ offsets, plan.Valid b before offsets) ∧ ∀ state ∈ plan.optPriceState, state.Tabled := by
  unfold planBlock
  split
  · refine .of_ok ⟨⟨[], rfl, trivial, ?_⟩, hpersisted⟩
    show Except.ok (before ++ b.src.take b.blockStart ++ b.src.drop b.blockStart) = _
    rw [List.append_assoc, List.take_append_drop]
  rename_i hlength
  refine (startModel_tabled (b := b) hbad options hpersisted).bind fun model hmodel => ?_
  dsimp only
  have hstart : RunLeads b ⟨⟨[], [], b.blockStart, b.reps, model⟩,
      if b.twoPhase ∧ b.blockStart = 0 then 1 else b.blockStart, List.replicate (optNum + 1) .unset,
      ⟨b.finder, b.ldm.map (LdmCandidates.new · (b.src.length - b.blockStart))⟩⟩ := by
    refine ⟨⟨⟨rfl, rfl⟩, rfl, hmodel⟩, ?_, List.length_replicate, .start, ?_⟩
    · dsimp only
      split <;> omega
    · rintro ldm hldm
      obtain ⟨sequences, hsequences, rfl⟩ := Option.map_eq_some_iff.1 hldm
      exact ⟨sequences, hsequences, .new⟩
  have hlimit : b.limit < fuel := by
    unfold OptimalBlock.limit
    omega
  refine (planLoop_leads hbad hfinds hshort fuel (by omega) (by omega) hstart).bind fun r hr => ?_
  have hend := hr.parse.laid.le_length hfinds (by omega)
  rw [if_neg (by omega)]
  obtain ⟨offsets, hresolves, htraced, hexecutes⟩ := hr.parse.laid.executes hfinds (by omega)
  refine .of_ok ⟨⟨offsets, hresolves, htraced, ?_⟩, fun state hstate => ?_⟩
  · dsimp only
    rw [hr.parse.literals_eq, hexecutes, List.append_assoc, List.take_append_drop]
  · cases hstate
    exact hr.parse.tabled.stats

/-- Every plan stands for its block. Where what is found is true, the parser ends, without an index or a number out of
range, and its plan resolves to the raw offsets of matches that were found and gives the block; all but a block of 128
KiB, which may be priced as one run of literals too long for a code. -/
theorem planBlock_valid (hfinds : b.FindsMatches before) (options : PriceOptions) {fuel : Nat}
    (hfuel : b.src.length < fuel) {persisted : Option OptimalPriceState}
    (hpersisted : ∀ state ∈ persisted, state.Counted options.compressedLiterals (2 ^ 20) ∧ state.Tabled) :
    (∃ plan offsets, planBlock b options fuel persisted = .ok plan ∧ plan.Valid b before offsets ∧
      ∀ state ∈ plan.optPriceState, state.Counted options.compressedLiterals (2 ^ 20) ∧ state.Tabled) ∨
    (b.src.length - b.blockStart = 2 ^ 17 ∧ planBlock b options fuel persisted = .error .outside) := by
  have hblock := b.blockLength_le
  have hcounted := planBlock_avoids (b := b) options fuel fun state hstate => (hpersisted state hstate).1
  have hspares : PriceFault.Spares fun e => ¬ e.Bad ∧ (e = .outside → b.src.length - b.blockStart < 2 ^ 17) :=
    fun e he hbad => hbad.1 he
  have hleads := planBlock_leads hspares hfinds (fun houtside => houtside.2 rfl) options hfuel
    fun state hstate => (hpersisted state hstate).2
  cases hplan : planBlock b options fuel persisted with
  | ok plan =>
    have hkept := hcounted.of_eq_ok hplan
    obtain ⟨⟨offsets, hvalid⟩, htabled⟩ := hleads.of_eq_ok hplan
    exact .inl ⟨plan, offsets, rfl, hvalid, fun state hstate => ⟨hkept state hstate, htabled state hstate⟩⟩
  | error e =>
    have hspared := hcounted.not_bad hplan
    have hlong := hleads.not_bad hplan
    right
    rw [not_and] at hlong
    obtain ⟨rfl, hlong⟩ := Classical.not_imp.1 (hlong hspared)
    exact ⟨by omega, rfl⟩

end

theorem constantBlock_findsMatches : constantBlock.FindsMatches [] := by
  intro position reps literalLength rawOffset offsetValue length _ _ hfound _
  cases hfound with
  | @reported _ found m _ hreport hm _ =>
    have hreport : (if position = 4 then some [(⟨1, 12, by decide, by decide⟩ : ReportedMatch)] else none) =
        some found := hreport
    split at hreport
    · rename_i hposition
      cases hreport
      cases List.mem_singleton.1 hm
      subst hposition
      exact ⟨by decide, by decide, by decide, by decide⟩
    · cases hreport
  | longDistance hldm _ _ _ => cases hldm

/-- The block of one byte over and over. -/
theorem planBlock_valid_constant : ∃ plan offsets, planBlock constantBlock ⟨true, true, true⟩ 25 none = .ok plan ∧
    plan.Valid constantBlock [] offsets ∧
      ∀ state ∈ plan.optPriceState, state.Counted true (2 ^ 20) ∧ state.Tabled := by
  have hfirst : ∀ state ∈ (none : Option OptimalPriceState), state.Counted true (2 ^ 20) ∧ state.Tabled :=
    fun state hstate => nomatch hstate
  rcases planBlock_valid constantBlock_findsMatches ⟨true, true, true⟩ (show 24 < 25 by decide) hfirst with
    hvalid | ⟨hlong, -⟩
  · exact hvalid
  · exact absurd hlong (by decide)

end Zstandard
