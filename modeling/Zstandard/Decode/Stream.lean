/-
Streaming decoding against `decode_all`, for every way of pushing and draining.

A call to `push` is a run of rounds that ends because the input so far has run out or because an empty
skippable frame has ended (`Tracks.process`). In the second case the rest of what was pushed waits for
another call, and `finish` is the last one: the decoder accepts exactly the inputs `decode_all` accepts
whose stops are all passed by then (`streamDecode_ok_iff`).
-/
import Zstandard.Decode.Lockstep

namespace Zstandard

open Walker

namespace StreamingDecoder

/-! ## Calls -/

/-- A call of the caller's between the start and `finish`. -/
inductive Call where
  | push (src : Bytes)
  | takeOutput
  | read (dstLen : Nat)
deriving DecidableEq, Repr

/-- One call, on a decoder and what was drained of it so far. -/
def Call.run (alloc : Allocator) (s : StreamingDecoder × Bytes) : Call → Result (StreamingDecoder × Bytes)
  | .push src => do
    let d ← s.1.push alloc src
    .ok (d, s.2)
  | .takeOutput => .ok (s.1.takeOutput.2, s.2 ++ s.1.takeOutput.1)
  | .read dstLen => .ok ((s.1.read dstLen).2, s.2 ++ (s.1.read dstLen).1)

/-- The calls, `finish`, and a last drain: all drained output, if every push and `finish` accept. -/
def streamDecode (alloc : Allocator) (options : DecoderOptions) (dictionary : Option DecoderDictionary)
    (calls : List Call) : Result Bytes := do
  let (d, drained) ← calls.foldlM (Call.run alloc) (.new dictionary options, [])
  let d ← d.finish alloc
  .ok (drained ++ d.takeOutput.1)

def Call.pushed : Call → Bytes
  | .push src => src
  | _ => []

/-- The input the calls push. -/
def pushedInput (calls : List Call) : Bytes := (calls.map Call.pushed).flatten

/-- How much input has been pushed after each push, `reach` before the first. -/
def pushEnds : Nat → List Call → List Nat
  | _, [] => []
  | reach, .push src :: calls => (reach + src.length) :: pushEnds (reach + src.length) calls
  | reach, _ :: calls => pushEnds reach calls

/-! ## The rounds of one call -/

/-- What a call leaves alone. -/
structure SameStream (d d' : StreamingDecoder) : Prop where
  options : d'.options = d.options
  dictionary : d'.dictionary = d.dictionary
  receivedInput : d'.receivedInput = d.receivedInput
  finishedInput : d'.finishedInput = d.finishedInput
  reach : d'.reach = d.reach

variable {src : Bytes} {d d' : StreamingDecoder} {drained : Bytes} {start : Nat} (alloc : Allocator)

theorem Same.stream (h : Same d d') : SameStream d d' :=
  ⟨h.options, h.dictionary, h.receivedInput, h.finishedInput, by unfold reach; rw [h.input, h.inputDropped]⟩

theorem SameStream.trans {d'' : StreamingDecoder} (h : SameStream d d') (h' : SameStream d' d'') : SameStream d d'' :=
  ⟨h'.options.trans h.options, h'.dictionary.trans h.dictionary, h'.receivedInput.trans h.receivedInput,
    h'.finishedInput.trans h.finishedInput, h'.reach.trans h.reach⟩

/-- Compaction drops input that was read. -/
theorem compactInput_eq (d : StreamingDecoder) : ∃ k ≤ d.inputPos,
    d.compactInput =
      { d with input := d.input.drop k, inputPos := d.inputPos - k, inputDropped := d.inputDropped + k } := by
  unfold compactInput
  split
  · exact ⟨0, Nat.zero_le _, rfl⟩
  split
  · rename_i hall
    refine ⟨d.inputPos, le_refl _, ?_⟩
    rw [Nat.sub_self, hall, List.drop_length]
  split
  · exact ⟨d.inputPos, le_refl _, by rw [Nat.sub_self]⟩
  · exact ⟨0, Nat.zero_le _, rfl⟩

theorem Tracks.compactInput (h : Tracks src d drained start) :
    Tracks src d.compactInput drained start ∧ SameStream d d.compactInput ∧ d.compactInput.rank = d.rank ∧
      ∀ out stops, d.compactInput.Completing src drained start out stops ↔
        d.Completing src drained start out stops := by
  have hheld := h.held.compactInput
  have hin := h.inside
  obtain ⟨k, hk, heq⟩ := d.compactInput_eq
  rw [heq] at hheld ⊢
  have hreach : d.inputDropped + k + (d.input.drop k).length = d.reach := by
    unfold reach; rw [List.length_drop]; omega
  have hpos : StreamingDecoder.streamInputPos
      { d with input := d.input.drop k, inputPos := d.inputPos - k, inputDropped := d.inputDropped + k } =
      d.streamInputPos := by
    simp only [streamInputPos]; omega
  refine ⟨⟨hheld, ?_, ?_, ?_, h.total, h.opened, h.multi, h.frame, h.sum⟩, ⟨rfl, rfl, rfl, rfl, hreach⟩, ?_,
    fun out stops => ?_⟩
  · simp only [List.length_drop]; omega
  · obtain ⟨t, ht⟩ := h.input
    refine ⟨t, ?_⟩
    simp only
    rw [← List.drop_drop, ← ht, List.drop_append_of_le_length (by omega)]
  · exact hreach.trans_le h.arrived
  · unfold rank
    simp only [List.length_drop]
    congr 2; omega
  · unfold Completing reading
    rw [hpos]
    exact Iff.rfl

/-- What a call's rounds do: they fail where one-shot decoding fails, or wait for more input, or halt
behind an empty skippable frame. -/
def ProcessOk (src : Bytes) (d : StreamingDecoder) (drained : Bytes) (start : Nat) : Result StreamingDecoder → Prop
  | .error _ => ∀ out stops, ¬ d.Completing src drained start out stops
  | .ok d' => ∃ start', Tracks src d' drained start' ∧ SameStream d d' ∧
    (((∀ out stops, d.Completing src drained start out stops ↔ d'.Completing src drained start' out stops) ∧
      d'.Starved src drained start') ∨ d.Stopped src drained start d' start')

theorem Tracks.processLoop : ∀ (fuel : Nat) {d : StreamingDecoder} {start : Nat}, Tracks src d drained start →
    d.rank < fuel → ProcessOk src d drained start (d.processLoop alloc fuel)
  | 0, _, _, _, hf => by omega
  | fuel + 1, d, start, h, hf => by
    have hround := h.processStep alloc
    unfold StreamingDecoder.processLoop
    rcases hs : d.processStep alloc with e | ⟨_ | _, d1⟩
    · rw [hs] at hround
      exact hround
    · -- the last round
      rw [hs] at hround
      rw [ok_bind]
      simp only [Bool.false_eq_true, if_false]
      rcases hround with ⟨rfl, hstarved⟩ | ⟨start', h1, hsame, hstop⟩
      · exact ⟨start, h, ⟨rfl, rfl, rfl, rfl, rfl⟩, .inl ⟨fun _ _ => Iff.rfl, hstarved⟩⟩
      · exact ⟨start', h1, hsame.stream, .inr hstop⟩
    · rw [hs] at hround
      rw [ok_bind]
      simp only [if_true]
      obtain ⟨start1, h1, hsame, hrank, hiff⟩ := hround
      obtain ⟨h2, hsame2, hrank2, hiff2⟩ := h1.compactInput
      have hto := fun out stops => (hiff out stops).trans (hiff2 out stops).symm
      have ih := Tracks.processLoop fuel h2 (by omega)
      cases hl : d1.compactInput.processLoop alloc fuel with
      | error e =>
        rw [hl] at ih
        exact fun out stops hc => ih out stops ((hto out stops).1 hc)
      | ok d' =>
        rw [hl] at ih
        obtain ⟨start', h3, hsame3, hend⟩ := ih
        refine ⟨start', h3, (hsame.stream.trans hsame2).trans hsame3, hend.imp (fun h => ⟨fun out stops => ?_, h.2⟩)
          fun h => ⟨h.1, fun out stops => ?_⟩⟩
        · exact (hto out stops).trans (h.1 out stops)
        · exact (hto out stops).trans (h.2 out stops)

theorem Tracks.process (h : Tracks src d drained start) : ProcessOk src d drained start (d.process alloc) := by
  refine h.processLoop alloc _ ?_
  unfold rank
  split <;> omega

/-- A call passes the next stop if it has arrived. -/
theorem ProcessOk.pass {r : Result StreamingDecoder} (h : ProcessOk src d drained start r) (hr : r = .ok d') :
    ∃ start', Tracks src d' drained start' ∧ SameStream d d' ∧
      (∀ out stops, d.Completing src drained start out stops →
        d'.Completing src drained start' out (Walker.pass stops d'.reach)) ∧
      (∀ out stops, d'.Completing src drained start' out stops → ∃ stops', d.Completing src drained start out stops') ∧
      (d'.Starved src drained start' ∨ d'.state = .frameHeader) := by
  subst hr
  obtain ⟨start', h1, hsame, h⟩ := h
  refine ⟨start', h1, hsame, ?_⟩
  rcases h with ⟨hiff, hstarved⟩ | ⟨hstate, hiff⟩
  · refine ⟨fun out stops hc => ?_, fun out stops hc => ⟨stops, (hiff out stops).2 hc⟩, .inl hstarved⟩
    have hc' := (hiff out stops).1 hc
    rw [pass_of_forall_lt (hstarved out stops hc').1]
    exact hc'
  · refine ⟨fun out stops hc => ?_, fun out stops hc => ⟨_, (hiff out _).2 ⟨stops, hc, rfl⟩⟩, .inr hstate⟩
    obtain ⟨rest, hc', rfl⟩ := (hiff out stops).1 hc
    have hpos := h1.pos_le
    have harrived := h1.arrived
    split
    · rw [pass_of_le hpos]
      exact hc'
    · -- at the end of the input there is no stop left
      have hend : ({ src, pos := d'.streamInputPos } : Cursor).isEmpty = true := by
        unfold Cursor.isEmpty; rw [decide_eq_true_eq]; simp only; omega
      obtain ⟨-, rfl⟩ := (completes_end hend).1 ((completing_frameHeader hstate).1 hc')
      exact hc'

/-! ## Drains -/

/-- Only the output buffer and the offsets into it differ. -/
def OutputMoved (d d' : StreamingDecoder) : Prop :=
  ∃ output outputPos k, d' = { d with output, outputPos }.releaseHistory k

theorem Tracks.moved (h : Tracks src d drained start) {drained' : Bytes} (hheld : d'.Held drained' start)
    (hu : d'.uncompacted drained' = d.uncompacted drained) (hmoved : OutputMoved d d') :
    Tracks src d' drained' start ∧ SameStream d d' ∧
      ∀ out stops, d'.Completing src drained' start out stops ↔ d.Completing src drained start out stops := by
  obtain ⟨output, outputPos, k, rfl⟩ := hmoved
  refine ⟨⟨hheld, h.inside, h.input, h.arrived, by rw [hu]; exact h.total, fun hs => ?_, h.multi, fun f hf => ?_,
    fun hs f hf => ?_⟩, ⟨rfl, rfl, rfl, rfl, rfl⟩, fun out stops => ?_⟩
  · show (d.currentFrame.map _).isSome
    rw [Option.isSome_map]; exact h.opened hs
  · obtain ⟨frame, hframe, rfl⟩ := Option.map_eq_some_iff.1 hf
    obtain ⟨h1, h2, h3, h4⟩ := h.frame frame hframe
    rw [hu]
    exact ⟨h1, h2, h3, h4⟩
  · obtain ⟨frame, hframe, rfl⟩ := Option.map_eq_some_iff.1 hf
    exact h.sum hs frame hframe
  · unfold Completing reading
    have hphase : ({ d with output, outputPos }.releaseHistory k).phase start = d.phase start := by
      unfold phase releaseHistory
      cases d.state <;> cases d.currentFrame <;> rfl
    rw [hu, hphase]
    exact Iff.rfl

theorem Tracks.consumeOutput (h : Tracks src d drained start) {count : Nat} (hc : count ≤ d.pendingOutputLen) :
    Tracks src (d.consumeOutput count) (drained ++ d.pendingOutput.take count) start ∧
      SameStream d (d.consumeOutput count) ∧ ∀ out stops,
        (d.consumeOutput count).Completing src (drained ++ d.pendingOutput.take count) start out stops ↔
          d.Completing src drained start out stops := by
  have hpos := h.held.pos
  have hcount : d.outputPos + count ≤ d.output.length := by unfold pendingOutputLen at hc; omega
  have hheld := h.held.consumeOutput hc
  have hu : (d.consumeOutput count).uncompacted (drained ++ d.pendingOutput.take count) = d.uncompacted drained :=
    uncompacted_of_pending rfl (pendingOutput_consumeOutput hcount)
  obtain ⟨k, -, heq⟩ := compactOutput_eq (d := { d with outputPos := d.outputPos + count }) hcount
  have heq : d.consumeOutput count = _ := heq
  rw [heq] at hheld hu ⊢
  exact h.moved hheld hu ⟨_, _, _, rfl⟩

theorem Tracks.read (h : Tracks src d drained start) (dstLen : Nat) :
    Tracks src (d.read dstLen).2 (drained ++ (d.read dstLen).1) start ∧ SameStream d (d.read dstLen).2 ∧ ∀ out stops,
      (d.read dstLen).2.Completing src (drained ++ (d.read dstLen).1) start out stops ↔
        d.Completing src drained start out stops := by
  unfold StreamingDecoder.read
  simp only
  split
  · rw [List.append_nil]
    exact ⟨h, ⟨rfl, rfl, rfl, rfl, rfl⟩, fun _ _ => Iff.rfl⟩
  · exact h.consumeOutput (min_le_right _ _)

theorem Tracks.takeOutput (h : Tracks src d drained start) :
    Tracks src d.takeOutput.2 (drained ++ d.takeOutput.1) start ∧ SameStream d d.takeOutput.2 ∧ ∀ out stops,
      d.takeOutput.2.Completing src (drained ++ d.takeOutput.1) start out stops ↔
        d.Completing src drained start out stops := by
  have hpos := h.held.pos
  have hheld := h.held.takeOutput
  by_cases hc : d.outputPos = 0 ∧ d.currentFrame.isNone
  · have heq : d.takeOutput = (d.output, { d with output := [] }) := by
      unfold StreamingDecoder.takeOutput; rw [if_pos hc]
    rw [heq] at hheld ⊢
    have hnone : d.currentFrame = none := Option.isNone_iff_eq_none.1 hc.2
    refine h.moved hheld ?_ ⟨[], 0, 0, ?_⟩
    · simp [uncompacted, pendingOutput, hc.1]
    · simp [releaseHistory, hc.1, hnone]
  · have heq : d.takeOutput = (d.pendingOutput, { d with outputPos := d.output.length }.compactOutput) := by
      unfold StreamingDecoder.takeOutput; rw [if_neg hc]
    have hlen : d.pendingOutputLen + d.outputPos = d.output.length := by unfold pendingOutputLen; omega
    have hconsume := h.consumeOutput (le_refl d.pendingOutputLen)
    have htake : d.pendingOutput.take d.pendingOutputLen = d.pendingOutput := by
      rw [List.take_of_length_le]; unfold pendingOutput pendingOutputLen; rw [List.length_drop]
    unfold StreamingDecoder.consumeOutput at hconsume
    rw [htake, show d.outputPos + d.pendingOutputLen = d.output.length by omega] at hconsume
    rw [heq]
    exact hconsume

/-! ## A sequence of calls -/

/-- A decoder between the calls: fed with the beginning of `src`, not finished. -/
structure Fed (options : DecoderOptions) (dictionary : Option DecoderDictionary) (src : Bytes) (d : StreamingDecoder)
    (drained : Bytes) (start : Nat) : Prop where
  tracks : Tracks src d drained start
  options : d.options = options
  dictionary : d.dictionary = dictionary
  unfinished : d.finishedInput = false
  received : d.receivedInput = decide (0 < d.reach)

variable {options : DecoderOptions} {dictionary : Option DecoderDictionary}

theorem Fed.new (options : DecoderOptions) (dictionary : Option DecoderDictionary) (src : Bytes) :
    Fed options dictionary src (.new dictionary options) [] 0 :=
  ⟨⟨Held.new dictionary options, le_refl _, List.nil_prefix, Nat.zero_le _, rfl, by rintro ⟨⟩,
    by rintro n ⟨⟩, by rintro f ⟨⟩, by rintro ⟨⟩⟩, rfl, rfl, rfl, rfl⟩

theorem Fed.of_same (h : Fed options dictionary src d drained start) {drained' : Bytes} {start' : Nat}
    (ht : Tracks src d' drained' start') (hs : SameStream d d') : Fed options dictionary src d' drained' start' :=
  ⟨ht, hs.options.trans h.options, hs.dictionary.trans h.dictionary, hs.finishedInput.trans h.unfinished,
    by rw [hs.receivedInput, hs.reach]; exact h.received⟩

/-- More of the input arrives. -/
theorem Fed.feed (h : Fed options dictionary src d drained start) {bytes : Bytes} (hb : bytes <+: src.drop d.reach) :
    Fed options dictionary src (d.feed bytes) drained start ∧ (d.feed bytes).reach = d.reach + bytes.length ∧
      ∀ out stops, (d.feed bytes).Completing src drained start out stops ↔
        d.Completing src drained start out stops := by
  have hreach : (d.feed bytes).reach = d.reach + bytes.length := by
    show d.inputDropped + (d.input ++ bytes).length = _
    unfold reach
    rw [List.length_append, Nat.add_assoc]
  have hin := h.tracks.inside
  refine ⟨⟨⟨h.tracks.held.of_eq rfl rfl rfl h.tracks.held.idle, ?_, ?_, ?_, h.tracks.total, h.tracks.opened,
    h.tracks.multi, h.tracks.frame, h.tracks.sum⟩, h.options, h.dictionary, h.unfinished, ?_⟩, hreach,
      fun _ _ => Iff.rfl⟩
  · show d.inputPos ≤ (d.input ++ bytes).length
    rw [List.length_append]; omega
  · obtain ⟨t, ht⟩ := h.tracks.input
    obtain ⟨t', ht'⟩ := hb
    refine ⟨t', ?_⟩
    show d.input ++ bytes ++ t' = src.drop d.inputDropped
    unfold reach at ht'
    rw [← List.drop_drop, ← ht, List.drop_left] at ht'
    rw [List.append_assoc, ht', ht]
  · rw [hreach]
    have hle := hb.length_le
    have harrived := h.tracks.arrived
    rw [List.length_drop] at hle
    omega
  · rw [hreach]
    show (d.receivedInput || !bytes.isEmpty) = _
    rw [h.received]
    cases bytes with
    | nil => simp
    | cons b bs => simp

/-- One call: it fails where one-shot decoding does, and otherwise passes a stop for each push that reaches it. -/
theorem Fed.call (h : Fed options dictionary src d drained start) (c : Call) (hc : c.pushed <+: src.drop d.reach) :
    match c.run alloc (d, drained) with
    | .error _ => ∀ out stops, ¬ d.Completing src drained start out stops
    | .ok (d', drained') => ∃ start', Fed options dictionary src d' drained' start' ∧
        d'.reach = d.reach + c.pushed.length ∧
        (∀ out stops, d.Completing src drained start out stops →
          d'.Completing src drained' start' out ((pushEnds d.reach [c]).foldl pass stops)) ∧
        ∀ out stops, d'.Completing src drained' start' out stops →
          ∃ stops', d.Completing src drained start out stops' := by
  cases c with
  | push bytes =>
    have hc : bytes <+: src.drop d.reach := hc
    obtain ⟨h1, hreach, hiff⟩ := h.feed hc
    have hp := h1.tracks.process alloc
    have hrun : Call.run alloc (d, drained) (.push bytes) =
        (StreamingDecoder.process alloc (d.feed bytes)).map (·, drained) := by
      show (do let d' ← d.push alloc bytes; .ok (d', drained)) = _
      unfold StreamingDecoder.push
      rw [h.unfinished, if_neg (by simp)]
      rfl
    rw [hrun]
    cases hr : StreamingDecoder.process alloc (d.feed bytes) with
    | error e =>
      rw [hr] at hp
      exact fun out stops hc => hp out stops ((hiff out stops).2 hc)
    | ok d' =>
      obtain ⟨start', ht, hsame, hpass, hback, -⟩ := hp.pass hr
      have hreach' := hsame.reach.trans hreach
      refine ⟨start', h1.of_same ht hsame, hreach', fun out stops hc => ?_, fun out stops hc => ?_⟩
      · have := hpass out stops ((hiff out stops).2 hc)
        rwa [hreach'] at this
      · exact (hback out stops hc).imp fun stops' => (hiff out stops').1
  | takeOutput =>
    obtain ⟨ht, hsame, hiff⟩ := h.tracks.takeOutput
    exact ⟨start, h.of_same ht hsame, hsame.reach, fun out stops => (hiff out stops).2,
      fun out stops hc => ⟨stops, (hiff out stops).1 hc⟩⟩
  | read dstLen =>
    obtain ⟨ht, hsame, hiff⟩ := h.tracks.read dstLen
    exact ⟨start, h.of_same ht hsame, hsame.reach, fun out stops => (hiff out stops).2,
      fun out stops hc => ⟨stops, (hiff out stops).1 hc⟩⟩

theorem pushEnds_cons (reach : Nat) (c : Call) (calls : List Call) :
    pushEnds reach (c :: calls) = pushEnds reach [c] ++ pushEnds (reach + c.pushed.length) calls := by
  cases c <;> rfl

/-- The calls that push the rest of the input. -/
theorem Fed.calls : ∀ (calls : List Call) {d : StreamingDecoder} {drained : Bytes} {start : Nat},
    Fed options dictionary src d drained start → pushedInput calls = src.drop d.reach →
    match calls.foldlM (Call.run alloc) (d, drained) with
    | .error _ => ∀ out stops, ¬ d.Completing src drained start out stops
    | .ok (d', drained') => ∃ start', Fed options dictionary src d' drained' start' ∧ d'.reach = src.length ∧
        (∀ out stops, d.Completing src drained start out stops →
          d'.Completing src drained' start' out ((pushEnds d.reach calls).foldl pass stops)) ∧
        ∀ out stops, d'.Completing src drained' start' out stops → ∃ stops', d.Completing src drained start out stops'
  | [], d, drained, start, h, hp => by
    have harrived := h.tracks.arrived
    have hend : src.length ≤ d.reach := by
      rw [← List.drop_eq_nil_iff, ← hp]; rfl
    exact ⟨start, h, by omega, fun _ _ hc => hc, fun _ stops hc => ⟨stops, hc⟩⟩
  | c :: calls, d, drained, start, h, hp => by
    have hsplit : c.pushed ++ pushedInput calls = src.drop d.reach := hp
    have hcall := h.call alloc c ⟨_, hsplit⟩
    rw [List.foldlM_cons]
    cases hr : c.run alloc (d, drained) with
    | error e => rw [hr] at hcall; exact hcall
    | ok s =>
      obtain ⟨d1, drained1⟩ := s
      rw [hr] at hcall
      obtain ⟨start1, h1, hreach, hpass, hback⟩ := hcall
      have hrest : pushedInput calls = src.drop d1.reach := by
        rw [hreach, ← List.drop_drop, ← hsplit, List.drop_left]
      have ih := Fed.calls calls h1 hrest
      rw [ok_bind]
      cases hr' : calls.foldlM (Call.run alloc) (d1, drained1) with
      | error e =>
        rw [hr'] at ih
        exact fun out stops hc => ih out _ (hpass out stops hc)
      | ok s' =>
        obtain ⟨d', drained'⟩ := s'
        rw [hr'] at ih
        obtain ⟨start', h', hend, hpass', hback'⟩ := ih
        refine ⟨start', h', hend, fun out stops hc => ?_, fun out stops hc => ?_⟩
        · rw [pushEnds_cons, List.foldl_append, ← hreach]
          exact hpass' out _ (hpass out stops hc)
        · obtain ⟨stops', hc'⟩ := hback' out stops hc
          exact hback out stops' hc'

/-! ## The end -/

theorem finishStatus_ok_iff (h : Tracks src d drained start) (hreach : d.reach = src.length) :
    d.finishStatus = .ok () ↔
      d.receivedInput = true ∧ d.state = .frameHeader ∧ d.streamInputPos = src.length := by
  have hin := h.inside
  unfold finishStatus
  have hpos : d.inputPos = d.input.length ↔ d.streamInputPos = src.length := by
    unfold reach at hreach; unfold streamInputPos; omega
  by_cases hr : d.receivedInput = true
  swap
  · simp [hr]
  by_cases hs : d.state = .frameHeader
  swap
  · simp [hr, hs]
  have hnone := h.held.idle (by rw [hs]; rfl)
  by_cases hp : d.inputPos = d.input.length
  · simp [hr, hs, hnone, hp, hpos.1 hp]
  · have hp' : ¬ d.streamInputPos = src.length := fun h => hp (hpos.2 h)
    simp [hr, hs, hnone, hp, hp']

/-- At the end of the input between two frames, nothing is left to decode. -/
theorem completing_end (hs : d.state = .frameHeader) (hp : d.streamInputPos = src.length) {out : Bytes}
    {stops : List Nat} :
    d.Completing src drained start out stops ↔ out = d.uncompacted drained ∧ stops = [] := by
  rw [completing_frameHeader hs]
  exact completes_end (by unfold Cursor.isEmpty; simpa using hp)

/-- `finish` accepts exactly where one-shot decoding completes without a stop. -/
theorem Fed.finish (h : Fed options dictionary src d drained start) (hreach : d.reach = src.length) (out : Bytes) :
    (∃ d', d.finish alloc = .ok d' ∧ drained ++ d'.takeOutput.1 = out) ↔
      src ≠ [] ∧ d.Completing src drained start out [] := by
  have ht : Tracks src { d with finishedInput := true } drained start :=
    ⟨h.tracks.held.of_eq rfl rfl rfl h.tracks.held.idle, h.tracks.inside, h.tracks.input, h.tracks.arrived,
      h.tracks.total, h.tracks.opened, h.tracks.multi, h.tracks.frame, h.tracks.sum⟩
  have hp := ht.process alloc
  have hfinish : d.finish alloc = (do
      let d1 ← { d with finishedInput := true }.process alloc
      d1.finishStatus
      .ok d1) := by
    unfold StreamingDecoder.finish
    rw [h.unfinished, if_neg (by simp)]
  have hreceived : d.receivedInput = true ↔ src ≠ [] := by
    rw [h.received, decide_eq_true_eq, hreach, List.length_pos_iff]
  rw [hfinish]
  cases hr : StreamingDecoder.process alloc { d with finishedInput := true } with
  | error e =>
    rw [hr] at hp
    exact ⟨fun ⟨d', h', _⟩ => (nomatch h'), fun ⟨_, hc⟩ => absurd hc (hp out [])⟩
  | ok d1 =>
    rw [hr] at hp
    obtain ⟨start', h1, hsame, hend⟩ := hp
    have hstatus := finishStatus_ok_iff h1 (hsame.reach.trans hreach)
    rw [hsame.receivedInput] at hstatus
    have hcompleting : d1.state = .frameHeader → d1.streamInputPos = src.length →
        (d.Completing src drained start out [] ↔ out = d1.uncompacted drained) := by
      intro hs hpos
      have hout : ∀ stops, d1.Completing src drained start' out stops ↔ _ := fun stops => completing_end hs hpos
      rcases hend with ⟨hiff, -⟩ | ⟨-, hiff⟩
      · exact (hiff out []).trans ((hout []).trans (and_iff_left rfl))
      · refine (hiff out []).trans ⟨fun ⟨rest, hc, _⟩ => ((hout rest).1 hc).1,
          fun ho => ⟨[], (hout []).2 ⟨ho, rfl⟩, ?_⟩⟩
        rw [if_neg (by omega)]
    have hpending : drained ++ d1.takeOutput.1 = d1.uncompacted drained := by rw [takeOutput_fst]; rfl
    rw [ok_bind]
    constructor
    · rintro ⟨d', h', rfl⟩
      obtain ⟨_, h2, h'⟩ := bind_ok h'
      cases h'
      obtain ⟨hrec, hs, hpos⟩ := hstatus.1 h2
      exact ⟨hreceived.1 hrec, (hcompleting hs hpos).2 hpending⟩
    · rintro ⟨hne, hc⟩
      obtain ⟨hs, hpos⟩ : d1.state = .frameHeader ∧ d1.streamInputPos = src.length := by
        rcases hend with ⟨hiff, hstarved⟩ | ⟨hs, hiff⟩
        · exact (hstarved out [] ((hiff out []).1 hc)).2 (hsame.reach.trans hreach)
        · obtain ⟨rest, -, hnil⟩ := (hiff out []).1 hc
          have hle := h1.pos_le.trans h1.arrived
          refine ⟨hs, ?_⟩
          by_contra hlt
          rw [if_pos (by omega)] at hnil
          cases hnil
      refine ⟨d1, ?_, hpending.trans ((hcompleting hs hpos).1 hc).symm⟩
      rw [hstatus.2 ⟨hreceived.2 hne, hs, hpos⟩, ok_bind]

/-! ## Whole streams -/

/-- The streaming decoder accepts exactly the inputs `decode_all` accepts whose stops are all passed by the
pushes, with the same output. -/
theorem streamDecode_ok_iff (alloc : Allocator) (options : DecoderOptions) (dictionary : Option DecoderDictionary)
    (calls : List Call) (out : Bytes) :
    streamDecode alloc options dictionary calls = .ok out ↔
      decodeAll alloc options dictionary (pushedInput calls) = .ok out ∧
        (pushEnds 0 calls).foldl pass (stops options.format (pushedInput calls)) = [] := by
  have h0 := Fed.new options dictionary (pushedInput calls)
  have hstart : ∀ out stops', Completing (pushedInput calls) (.new dictionary options) [] 0 out stops' ↔
      FramesRun options dictionary (.new (pushedInput calls)) [] out ∧
        stops' = stops options.format (pushedInput calls) := by
    intro out stops'
    rw [completing_frameHeader rfl]
    unfold Completes Frames
    exact and_iff_right fun _ h => (nomatch h)
  have hcalls := h0.calls alloc calls rfl
  rw [decodeAll_eq, decodeInto_ok_iff]
  unfold streamDecode
  cases hr : calls.foldlM (Call.run alloc) (.new dictionary options, []) with
  | error e =>
    rw [hr] at hcalls
    refine ⟨fun h => (nomatch h), fun ⟨⟨_, hrun⟩, _⟩ => absurd ((hstart out _).2 ⟨hrun, rfl⟩) (hcalls out _)⟩
  | ok s =>
    obtain ⟨d, drained⟩ := s
    rw [hr] at hcalls
    obtain ⟨start, hfed, hreach, hpass, hback⟩ := hcalls
    have hfin := hfed.finish alloc hreach out
    have hlast : (do let d' ← d.finish alloc; .ok (drained ++ d'.takeOutput.1) : Result Bytes) = .ok out ↔
        ∃ d', d.finish alloc = .ok d' ∧ drained ++ d'.takeOutput.1 = out := by
      cases d.finish alloc <;> simp
    rw [ok_bind]
    refine hlast.trans (hfin.trans ?_)
    constructor
    · rintro ⟨hne, hc⟩
      obtain ⟨stops', hc'⟩ := hback out [] hc
      obtain ⟨hrun, rfl⟩ := (hstart out stops').1 hc'
      exact ⟨⟨hne, hrun⟩, (hpass out _ hc').stops_unique hc⟩
    · rintro ⟨⟨hne, hrun⟩, hnil⟩
      have hc := hpass out _ ((hstart out _).2 ⟨hrun, rfl⟩)
      rw [show (StreamingDecoder.new dictionary options).reach = 0 from rfl, hnil] at hc
      exact ⟨hne, hc⟩

theorem pushEnds_sorted : ∀ (calls : List Call) (reach : Nat),
    (∀ n ∈ pushEnds reach calls, reach ≤ n) ∧ (pushEnds reach calls).Pairwise (· ≤ ·)
  | [], _ => ⟨fun _ hn => (nomatch hn), .nil⟩
  | .push src :: calls, reach => by
    obtain ⟨h1, h2⟩ := pushEnds_sorted calls (reach + src.length)
    refine ⟨fun n hn => ?_, .cons h1 h2⟩
    rcases List.mem_cons.1 hn with rfl | hn
    · omega
    · have := h1 n hn; omega
  | .takeOutput :: calls, reach => pushEnds_sorted calls reach
  | .read _ :: calls, reach => pushEnds_sorted calls reach

/-- Every stop of the input is reached by as many pushes as there are stops from it on. -/
def StopsPassed (format : Format) (calls : List Call) : Prop :=
  ∀ z ∈ stops format (pushedInput calls),
    countFrom (stops format (pushedInput calls)) z ≤ countFrom (pushEnds 0 calls) z

instance (format : Format) (calls : List Call) : Decidable (StopsPassed format calls) :=
  inferInstanceAs (Decidable (∀ z ∈ stops format (pushedInput calls), _))

/-- Streaming decoding equals one-shot decoding exactly when one-shot decoding fails or every place where
an empty skippable frame ends before more input is reached by enough pushes. -/
theorem streamDecode_eq_decodeAll_iff (alloc : Allocator) (options : DecoderOptions)
    (dictionary : Option DecoderDictionary) (calls : List Call) :
    (∀ out, streamDecode alloc options dictionary calls = .ok out ↔
      decodeAll alloc options dictionary (pushedInput calls) = .ok out) ↔
    ((∃ out, decodeAll alloc options dictionary (pushedInput calls) = .ok out) → StopsPassed options.format calls) := by
  have hpassed : (pushEnds 0 calls).foldl pass (stops options.format (pushedInput calls)) = [] ↔
      StopsPassed options.format calls :=
    foldl_pass_eq_nil_iff (stopsAt_sorted _ _).2 (pushEnds_sorted calls 0).2
  simp only [streamDecode_ok_iff, hpassed]
  constructor
  · rintro h ⟨out, hout⟩
    exact ((h out).2 hout).2
  · exact fun h out => ⟨fun ho => ho.1, fun ho => ⟨ho, h ⟨out, ho⟩⟩⟩

/-- Three empty skippable frames. -/
def emptySkippables : Bytes :=
  let frame : Bytes := [0x50, 0x2A, 0x4D, 0x18, 0, 0, 0, 0]
  frame ++ frame ++ frame

/-- Pushed at once they are rejected, although `decode_all` accepts them. -/
theorem emptySkippables_rejected :
    decodeAll zeroAllocator .initial none (pushedInput [.push emptySkippables]) = .ok [] ∧
      ¬ ∃ out, streamDecode zeroAllocator .initial none [.push emptySkippables] = .ok out := by
  have h : streamDecode zeroAllocator .initial none [.push emptySkippables] = .error .unexpectedEof := by decide
  refine ⟨by decide, ?_⟩
  rintro ⟨out, ho⟩
  rw [h] at ho
  cases ho

end StreamingDecoder

end Zstandard
