/-
A streaming decoder after an error: unless a round was wasted, no later call decodes anything or reports a
complete stream.

The invariant behind it is `Stuck`: a decoder that refuses whatever comes, or whose input is over and
incomplete. Every operation keeps it, and an operation that fails without a wasted round establishes it.
-/
import Zstandard.Decode.Refusing

namespace Zstandard

namespace StreamingDecoder

section
variable (alloc : Allocator) (left : Leftover)

section Calls

variable {alloc : Allocator} {left : Leftover} {d d' : StreamingDecoder}

/-! ## Calls -/

/-- A refusing decoder stays one over all rounds of a call. -/
theorem Refusing.processLoopKept (h : d.Refusing) (hd : d.Healthy) (fuel : Nat) :
    (d.processLoopKept alloc left (fuel + 1)).2.Healthy ∧ (d.processLoopKept alloc left (fuel + 1)).2.Refusing ∧
      OutputKept d (d.processLoopKept alloc left (fuel + 1)).2 := by
  have hround := @Refusing.processStepKept alloc left _ h hd
  unfold StreamingDecoder.processLoopKept
  rcases hstep : d.processStepKept alloc left with ⟨e | progress, d1⟩ <;> rw [hstep] at hround
  · exact ⟨hround.healthy, hround.refusing, hround.kept⟩
  · cases progress
    · exact ⟨hround.healthy, hround.refusing, hround.kept⟩
    · exact absurd rfl hround.stays

/-- What all rounds of a call do when none is wasted: on enough fuel, an error leaves a refusing decoder. -/
theorem Healthy.processLoopKept : ∀ (fuel : Nat) {d : StreamingDecoder}, d.Healthy → d.CleanLoop alloc left fuel →
    d.rank < fuel → (d.processLoopKept alloc left fuel).2.Healthy ∧
      (d.processLoopKept alloc left fuel).2.finishedInput = d.finishedInput ∧
      ∀ e, (d.processLoopKept alloc left fuel).1 = .error e → (d.processLoopKept alloc left fuel).2.Refusing
  | 0, _, _, _, hfuel => by omega
  | fuel + 1, d, hd, hclean, hfuel => by
    have hround := @Healthy.processStepKept alloc left _ hd
    obtain ⟨hnot, hclean⟩ := hclean
    unfold StreamingDecoder.processLoopKept
    rcases hstep : d.processStepKept alloc left with ⟨e | progress, d1⟩
    · rw [hstep] at hround
      rcases hround with hwasted | ⟨hd1, hrefusing, hfin⟩
      · exact absurd hwasted hnot
      · exact ⟨hd1, hfin, fun _ _ => hrefusing⟩
    · rw [hstep] at hround hclean
      cases progress
      · exact ⟨hround.1, hround.2.finishedInput, by rintro _ ⟨⟩⟩
      · obtain ⟨hd1, hfin, hrank⟩ := hround
        have hrank' := rank_compactInput d1
        obtain ⟨h1, h2, h3⟩ := Healthy.processLoopKept fuel hd1.compactInput hclean (by omega)
        refine ⟨h1, h2.trans ?_, h3⟩
        obtain ⟨k, -, heq⟩ := d1.compactInput_eq
        rw [heq]
        exact hfin

theorem rank_lt_fuel (d : StreamingDecoder) : d.rank < 2 * (d.input.length - d.inputPos) + 2 := by
  unfold rank
  split <;> omega

/-- What a push into a stuck decoder does: nothing to its output. -/
theorem Stuck.pushKept (h : d.Stuck) (src : Bytes) :
    (d.pushKept alloc left src).2.Stuck ∧ OutputKept d (d.pushKept alloc left src).2 := by
  unfold StreamingDecoder.pushKept
  split
  · exact ⟨h, .refl d⟩
  rename_i hfin
  have hrefusing := (h.refuses.resolve_right fun h => hfin h.1).feed h.healthy src
  obtain ⟨h1, h2, h3⟩ := @Refusing.processLoopKept alloc left _ hrefusing (h.healthy.feed src)
    (2 * ((d.feed src).input.length - (d.feed src).inputPos) + 1)
  exact ⟨⟨h1, .inl h2⟩, h3.output, h3.outputPos, h3.total, h3.finishedInput⟩

/-- `finish` on a stuck decoder fails. -/
theorem Stuck.finishKept (h : d.Stuck) : (d.finishKept alloc left).2.Stuck ∧
    ∃ e, (d.finishKept alloc left).1 = .error e := by
  have hstatus : ∃ e, d.finishStatus = .error e := h.refuses.elim Refusing.finishStatus And.right
  unfold StreamingDecoder.finishKept
  split
  · exact ⟨h, hstatus⟩
  rename_i hfin
  have hrefusing := h.refuses.resolve_right fun h => hfin h.1
  have hclosed : Refusing { d with finishedInput := true } := hrefusing
  obtain ⟨h1, h2, -⟩ := @Refusing.processLoopKept alloc left _ hclosed ⟨h.healthy.inside, h.healthy.total⟩
    (2 * (d.input.length - d.inputPos) + 1)
  unfold processKept
  rcases hloop : ({ d with finishedInput := true } : StreamingDecoder).processLoopKept alloc left
    (2 * (d.input.length - d.inputPos) + 2) with ⟨e | _, d'⟩ <;> rw [hloop] at h1 h2
  · exact ⟨⟨h1, .inl h2⟩, e, rfl⟩
  · exact ⟨⟨h1, .inl h2⟩, h2.finishStatus⟩

/-- Every operation leaves a stuck decoder stuck. -/
theorem Stuck.run (h : d.Stuck) (op : Operation) : (op.run alloc left d).2.Stuck := by
  rcases op with (src | _ | dstLen) | _
  · exact (h.pushKept src).1
  · exact h.drained (.takeOutput d)
  · exact h.drained (.read d dstLen)
  · exact h.finishKept.1

theorem Stuck.afterOperations (h : d.Stuck) (ops : List Operation) : (d.afterOperations alloc left ops).Stuck := by
  induction ops generalizing d with
  | nil => exact h
  | cons op ops ih => exact ih (h.run op)

/-- An operation without a wasted round keeps a decoder in order, and when it fails it leaves it stuck. -/
theorem Healthy.run (hd : d.Healthy) {op : Operation} (hclean : op.Clean alloc left d) :
    (op.run alloc left d).2.Healthy ∧ (op.DecodingError alloc left d → (op.run alloc left d).2.Stuck) := by
  rcases op with (src | _ | dstLen) | _
  · show (d.pushKept alloc left src).2.Healthy ∧ _
    by_cases hfin : d.finishedInput
    · refine ⟨?_, fun h => absurd (h.2 src rfl) (by simp [hfin])⟩
      unfold StreamingDecoder.pushKept
      rw [if_pos hfin]
      exact hd
    · have hloop := (hd.feed src).processLoopKept _ (hclean (by simpa using hfin)) (rank_lt_fuel _)
      have hpush : d.pushKept alloc left src = (d.feed src).processKept alloc left := by
        unfold StreamingDecoder.pushKept
        rw [if_neg hfin]
      refine ⟨by rw [hpush]; exact hloop.1, ?_⟩
      rintro ⟨⟨e, he⟩, -⟩
      replace he : (d.pushKept alloc left src).1 = .error e := he
      show (d.pushKept alloc left src).2.Stuck
      rw [hpush] at he ⊢
      exact ⟨hloop.1, .inl (hloop.2.2 e he)⟩
  · exact ⟨hd.drained (.takeOutput d), by rintro ⟨⟨e, he⟩, -⟩; cases he⟩
  · exact ⟨hd.drained (.read d dstLen), by rintro ⟨⟨e, he⟩, -⟩; cases he⟩
  · show (d.finishKept alloc left).2.Healthy ∧ _
    by_cases hfin : d.finishedInput
    · have hfinish : d.finishKept alloc left = (d.finishStatus, d) := by
        unfold StreamingDecoder.finishKept
        rw [if_pos hfin]
      refine ⟨by rw [hfinish]; exact hd, ?_⟩
      rintro ⟨⟨e, he⟩, -⟩
      replace he : (d.finishKept alloc left).1 = .error e := he
      show (d.finishKept alloc left).2.Stuck
      rw [hfinish] at he ⊢
      exact ⟨hd, .inr ⟨hfin, e, he⟩⟩
    · have hclosed : Healthy { d with finishedInput := true } := ⟨hd.inside, hd.total⟩
      obtain ⟨h1, h2, h3⟩ := hclosed.processLoopKept _ (hclean (by simpa using hfin)) (rank_lt_fuel _)
      unfold Operation.DecodingError
      show (d.finishKept alloc left).2.Healthy ∧ ((∃ e, (d.finishKept alloc left).1 = .error e) ∧ _ →
        (d.finishKept alloc left).2.Stuck)
      unfold StreamingDecoder.finishKept StreamingDecoder.processKept
      rw [if_neg hfin]
      rcases hloop : ({ d with finishedInput := true } : StreamingDecoder).processLoopKept alloc left
        (2 * (d.input.length - d.inputPos) + 2) with ⟨e | _, d'⟩ <;> rw [hloop] at h1 h2 h3
      · exact ⟨h1, fun _ => ⟨h1, .inl (h3 e rfl)⟩⟩
      · exact ⟨h1, fun h => ⟨h1, .inr ⟨h2, h.1⟩⟩⟩

/-- A run without a wasted round keeps a decoder in order. -/
theorem Healthy.afterOperations : ∀ (ops : List Operation) {d : StreamingDecoder}, d.Healthy →
    d.CleanRun alloc left ops → (d.afterOperations alloc left ops).Healthy
  | [], _, hd, _ => hd
  | _ :: ops, _, hd, hclean => Healthy.afterOperations ops (hd.run hclean.1).1 hclean.2

theorem cleanRun_append : ∀ (ops ops' : List Operation) {d : StreamingDecoder},
    d.CleanRun alloc left (ops ++ ops') ↔
      d.CleanRun alloc left ops ∧ (d.afterOperations alloc left ops).CleanRun alloc left ops'
  | [], _, _ => (and_iff_right trivial).symm
  | op :: ops, ops', d => by
    show op.Clean alloc left d ∧ CleanRun alloc left (op.run alloc left d).2 (ops ++ ops') ↔ (_ ∧ _) ∧ _
    rw [cleanRun_append ops ops', ← and_assoc]
    rfl

theorem Healthy.new (dictionary : Option DecoderDictionary) (options : DecoderOptions) :
    (StreamingDecoder.new dictionary options).Healthy := ⟨le_refl _, le_refl _⟩

end Calls

/-! ## Every run -/

/-- In a run without a wasted round, a decoding error is the end: behind it, whatever is called, no push adds to
the output and `finish` fails. -/
theorem decodingErrors_sticky (dictionary : Option DecoderDictionary) (options : DecoderOptions) (ops : List Operation)
    (op : Operation) (hclean : (new dictionary options).CleanRun alloc left (ops ++ [op]))
    (hfail : op.DecodingError alloc left ((new dictionary options).afterOperations alloc left ops))
    (later : List Operation) :
    let d := (new dictionary options).afterOperations alloc left (ops ++ op :: later)
    (∀ src, OutputKept d (d.pushKept alloc left src).2) ∧ ∃ e, (d.finishKept alloc left).1 = .error e := by
  obtain ⟨hclean, hop, -⟩ := (cleanRun_append ops [op]).1 hclean
  have hhealthy := (Healthy.new dictionary options).afterOperations ops hclean
  have hstuck := @Stuck.afterOperations alloc left _ ((hhealthy.run hop).2 hfail) later
  have hrun : ∀ d : StreamingDecoder, d.afterOperations alloc left (ops ++ op :: later) =
      (op.run alloc left (d.afterOperations alloc left ops)).2.afterOperations alloc left later := by
    intro d
    unfold afterOperations
    rw [List.foldl_append, List.foldl_cons]
  intro d
  have hd : d.Stuck := by
    show ((new dictionary options).afterOperations alloc left (ops ++ op :: later)).Stuck
    rw [hrun]
    exact hstuck
  exact ⟨fun src => (hd.pushKept src).2, hd.finishKept.2⟩

/-- A header that asks for dictionary 7, on a decoder without one. -/
def dictionaryHeader : Bytes := [0x28, 0xB5, 0x2F, 0xFD, 0x01, 0x00, 0x07]

/-- Bytes that start no frame. -/
theorem decodingErrors_sticky_badMagic : ∃ e, (((new none .initial).afterOperations zeroAllocator (fun d _ _ => d)
    [.call (.push [0, 0, 0, 0]), .call .takeOutput]).finishKept zeroAllocator (fun d _ _ => d)).1 = .error e := by
  have hp : parseFrameHeaderWithFormat .zstd1 [0, 0, 0, 0] = .error (.badMagic 0) := by decide
  refine (decodingErrors_sticky zeroAllocator (fun d _ _ => d) none .initial [] (.call (.push [0, 0, 0, 0])) ?_ ?_
    [.call .takeOutput]).2
  · refine ⟨fun _ => ⟨?_, trivial⟩, trivial⟩
    rintro ⟨header, e, -, -, hp', -⟩
    exact nomatch hp.symm.trans hp'
  · exact ⟨⟨.badMagic 0, rfl⟩, fun _ _ => rfl⟩

/-- A frame that was not opened leaves nothing behind: the push fails, and `finish` reports a complete stream. -/
theorem decodingErrors_forgotten :
    let push : Operation := .call (.push dictionaryHeader)
    push.DecodingError zeroAllocator (fun d _ _ => d) (new none .initial) ∧
      ((push.run zeroAllocator (fun d _ _ => d) (new none .initial)).2.finishKept zeroAllocator (fun d _ _ => d)).1 =
        .ok () ∧
      decodeAll zeroAllocator .initial none dictionaryHeader = .error (.dictionaryRequired (some 7)) :=
  ⟨⟨⟨.dictionaryRequired (some 7), rfl⟩, fun _ _ => rfl⟩, rfl, rfl⟩

end

end StreamingDecoder

end Zstandard
