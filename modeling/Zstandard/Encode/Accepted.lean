/-
The offsets a frame may emit are offsets its decoder accepts.

One step keeps the geometry of the buffer (`Frame.Step.ok`), one segment stays above its floors, and
the floors are where the decoder's own rule draws the line: so a frame whose segments are all narrow
is accepted (`Frame.reached_accepted`), and a frame without a dictionary always is
(`Frame.plain_accepted`). A streamed frame that has left its dictionary behind may carry a repeat
offset wider than its window past the parsers that then take over (`Frame.reached_rejected`).
-/
import Zstandard.Encode.Reach

namespace Zstandard

/-! ## The decoder's rule -/

namespace Frame

variable {F : Frame} {s s' : FrameState}

theorem le_window {n : Nat} (h1 : n ≤ F.historyLimit) (h2 : n ≤ F.content.length) : n ≤ F.window :=
  le_declaredWindow F.declared h1 fun size hsize => by rw [← F.sized size hsize]; exact h2

theorem accepts_inFrame {produced offset : Nat} (h1 : offset ≤ produced) (h2 : offset ≤ F.historyLimit)
    (h3 : produced ≤ F.content.length) : F.Accepts produced offset :=
  .inl ⟨h1, F.le_window h2 (le_trans h1 h3)⟩

/-- The rule is what the sequence executor checks. -/
theorem accepts_iff_placeSpec {c : ExecContext} {out : Bytes} {ip literalLength offset matchLength : Nat}
    (hw : c.windowSize = F.window) (hd : c.dictionary = F.dictionary)
    (ho : offset ≠ DecoderRepeatOffsets.offsetSentinel) :
    F.Accepts ((out ++ (c.literals.asSlice.drop ip).take literalLength).length - c.frameStart) offset ↔
      (placeSpec c out ip literalLength offset matchLength).isOk = true := by
  simp only [placeSpec, dictionaryMatchSpec, Accepts, hw, hd, if_neg ho]
  split
  · rename_i h
    exact ⟨fun _ => rfl, fun _ => .inl h⟩
  · rename_i h
    rcases F.dictionary with _ | d
    · constructor
      · rintro (h' | ⟨d, hd', -⟩)
        · exact absurd h' h
        · cases hd'
      · intro h'
        cases h'
    · simp only [Option.mem_def, Option.some.injEq, exists_eq_left']
      constructor
      · rintro (h' | ⟨h1, h2⟩)
        · exact absurd h' h
        · rw [if_neg (by omega), if_neg (by omega)]
          rfl
      · intro h'
        split at h'
        · cases h'
        split at h'
        · cases h'
        · exact .inr ⟨by omega, by omega⟩

/-! ## Geometry -/

/-- What every reachable state satisfies. -/
structure OK (F : Frame) (s : FrameState) : Prop where
  block : s.blockEnd ≤ s.blockStart + F.historyLimit
  start_le : s.blockStart ≤ s.pos
  pos_le : s.pos ≤ s.blockEnd
  inside : s.dropped + s.blockEnd ≤ F.content.length
  whole : s.prefixed = true → s.dropped = 0

theorem ok_start (reps : RepeatOffsets) : F.OK (F.start reps) :=
  ⟨Nat.zero_le _, le_refl _, le_refl _, Nat.zero_le _, fun _ => rfl⟩

theorem Step.ok {p : Option PlannedChunk} (h : F.Step s p s') (hs : F.OK s) : F.OK s' := by
  obtain ⟨h1, h2, h3, h4, h5⟩ := hs
  cases h with
  | openBlock closed size inside =>
    have := F.block_le
    exact ⟨by simp only; omega, le_refl _, by simp only; omega, by simp only; omega, h5⟩
  | segment ahead inside _ _ => exact ⟨h1, by simp only; omega, inside, h4, h5⟩
  | longDistance inside _ => exact ⟨h1, by simp only; omega, inside, h4, h5⟩
  | stored => exact ⟨h1, by simp only; omega, le_refl _, h4, h5⟩
  | compact closed long keeps =>
    exact ⟨by simp only; omega, le_refl _, le_refl _, by simp only; omega, fun h => by cases h⟩

theorem Run.ok {reps : RepeatOffsets} {planned : List PlannedChunk} (h : F.Run reps planned s) : F.OK s := by
  induction h with
  | start => exact ok_start reps
  | step _ h ih => exact h.ok ih

theorem length_source (hs : F.OK s) {stop : Nat} (h : stop ≤ s.blockEnd) : (F.source s stop).length = stop := by
  have := hs.inside
  simp only [source, List.length_take, List.length_drop]
  omega

/-! ## Behind a prefix -/

/-- The floors of a prefixed block are one of two kinds: the dictionary is reachable from everywhere
in it, or from nowhere. -/
theorem blockFloors_cases (hs : F.OK s) (parser : Parser) :
    (F.blockFloors s).prefixRetired = false ∧ s.blockEnd ≤ F.historyLimit ∧
        (∀ pos, (F.blockFloors s).lows parser pos = (min F.prefixLowLimit F.pre.length, 0)) ∨
      (F.blockFloors s).prefixRetired = true ∧ ∃ low : Nat → Nat,
        (∀ pos, (F.blockFloors s).lows parser pos = (F.pre.length, low pos)) ∧
        (∀ pos ≤ s.blockEnd, pos ≤ low pos + F.historyLimit) ∧ ∀ a b, a ≤ b → low a ≤ low b := by
  have hb := hs.block
  by_cases htrim : F.pre.length + s.blockEnd - F.historyLimit > F.pre.length
  · -- the block ends beyond the window
    have hlows : prefixedWindowLows F.pre.length s.blockStart s.blockEnd F.historyLimit F.prefixLowLimit =
        (F.pre.length, min (F.pre.length + s.blockEnd - F.historyLimit - F.pre.length) s.blockStart) := by
      simp only [prefixedWindowLows, if_pos htrim]
    refine .inr ⟨by simp [blockFloors, prefixedBlockFloors, hlows], ?_⟩
    cases hp : parser.fastPair with
    | true =>
      refine ⟨fun _ => min (F.pre.length + s.blockEnd - F.historyLimit - F.pre.length) s.blockStart,
        fun pos => ?_, fun pos hpos => by simp only; omega, fun _ _ _ => le_refl _⟩
      simp [PrefixedBlockFloors.lows, hp, blockFloors, prefixedBlockFloors, hlows]
    | false =>
      refine ⟨fun pos => max (s.blockStart - F.historyLimit) (pos - F.historyLimit),
        fun pos => ?_, fun pos hpos => by simp only; omega, fun a b hab => by simp only; omega⟩
      simp only [PrefixedBlockFloors.lows, hp, blockFloors, prefixedBlockFloors, hlows, ge_iff_le, le_refl,
        decide_true, if_true, Bool.false_eq_true, if_false]
      exact PrefixedMatchFloor.at_retired ..
  · have hlows : prefixedWindowLows F.pre.length s.blockStart s.blockEnd F.historyLimit F.prefixLowLimit =
        (min F.prefixLowLimit F.pre.length, 0) := by
      simp only [prefixedWindowLows, if_neg htrim]
    by_cases hret : F.pre.length ≤ min F.prefixLowLimit F.pre.length
    · -- all of the prefix lies below the limit
      refine .inr ⟨by simp only [blockFloors, prefixedBlockFloors, hlows]; exact decide_eq_true hret, ?_⟩
      cases hp : parser.fastPair with
      | true =>
        refine ⟨fun _ => 0, fun pos => ?_, fun pos hpos => by simp only; omega, fun _ _ _ => le_refl _⟩
        simp only [PrefixedBlockFloors.lows, hp, if_true, blockFloors, prefixedBlockFloors, hlows]
        exact Prod.ext (Nat.le_antisymm (Nat.min_le_right ..) hret) rfl
      | false =>
        refine ⟨fun pos => max (s.blockStart - F.historyLimit) (pos - F.historyLimit),
          fun pos => ?_, fun pos hpos => by simp only; omega, fun a b hab => by simp only; omega⟩
        simp only [PrefixedBlockFloors.lows, hp, blockFloors, prefixedBlockFloors, hlows, ge_iff_le, hret,
          decide_true, if_true, Bool.false_eq_true, if_false]
        exact PrefixedMatchFloor.at_retired ..
    · refine .inl ⟨by simp only [blockFloors, prefixedBlockFloors, hlows]; exact decide_eq_false hret,
        by omega, fun pos => ?_⟩
      simp only [PrefixedBlockFloors.lows, blockFloors, prefixedBlockFloors, hlows, ge_iff_le, hret, decide_false,
        PrefixedMatchFloor.at, Bool.false_eq_true, if_false, ite_self]

/-- A match above the floors is one the decoder accepts; behind a retired prefix it must also be
within the window. -/
theorem accepts_prefixed (hs : F.OK s) (hp : s.prefixed = true) {parser : Parser} {look start offset : Nat}
    (hstart : start ≤ s.blockEnd) (hle : offset ≤ F.pre.length + start)
    (low : logicalMatchStartIsValid F.pre.length (F.pre.length + start - offset)
      ((F.blockFloors s).lows parser look).1 ((F.blockFloors s).lows parser look).2 = true)
    (hret : (F.blockFloors s).prefixRetired = true → offset ≤ F.historyLimit) : F.Accepts start offset := by
  have hin := hs.inside
  have hz := hs.whole hp
  unfold logicalMatchStartIsValid at low
  rcases blockFloors_cases hs parser with ⟨-, hend, hlows⟩ | ⟨hr, low', hlows, -, -⟩
  · rw [hlows look] at low
    split at low
    · -- into the dictionary, whose content begins at the limit
      rename_i hlt
      have hlow := of_decide_eq_true low
      simp only at hlow
      rcases hd : F.dictionary with _ | d
      · have := F.pre_nil hd
        simp [this] at hlt
      · have hlead := F.lead d hd
        refine .inr ⟨d, hd, F.le_window (by omega) (by omega), by omega⟩
    · exact accepts_inFrame (by omega) (by omega) (by omega)
  · rw [hlows look] at low
    split at low
    · have hlow := of_decide_eq_true low
      simp only at hlow
      omega
    · exact accepts_inFrame (by omega) (hret hr) (by omega)

/-- The repeat offsets of a prefixed parse while the prefix is retired. -/
def SafeBehind (F : Frame) (s : FrameState) (t : ParseState) : Prop :=
  (F.blockFloors s).prefixRetired = true → t.reps.rep1 ≤ F.historyLimit ∧ t.reps.rep2 ≤ F.historyLimit

theorem SafeBehind.store {t : ParseState} {m : FoundMatch} (h : F.SafeBehind s t)
    (hm : (F.blockFloors s).prefixRetired = true → m.offset ≤ F.historyLimit) : F.SafeBehind s (t.store m) := by
  intro hr
  obtain ⟨h1, h2⟩ := t.store_reps m
  obtain ⟨h3, h4⟩ := h hr
  have := hm hr
  refine ⟨by omega, ?_⟩
  rcases h2 with h2 | h2 <;> omega

/-- A valid start behind a retired prefix is at most a window back from the position whose floors
were used. -/
theorem offset_le_of_retired (hs : F.OK s) {parser : Parser} {pos m : Nat} (hpos : pos ≤ s.blockEnd)
    (low : logicalMatchStartIsValid F.pre.length m ((F.blockFloors s).lows parser pos).1
      ((F.blockFloors s).lows parser pos).2 = true)
    (hr : (F.blockFloors s).prefixRetired = true) : F.pre.length + pos ≤ m + F.historyLimit := by
  rcases blockFloors_cases hs parser with ⟨hr', -, -⟩ | ⟨-, low', hlows, hreach, -⟩
  · rw [hr] at hr'
    cases hr'
  · rw [hlows pos] at low
    have := hreach pos hpos
    unfold logicalMatchStartIsValid at low
    split at low
    all_goals
      have hlow := of_decide_eq_true low
      simp only at hlow
      omega

/-- A candidate, extended towards the floors of an earlier position, is above them. -/
theorem extended_valid (hs : F.OK s) {parser : Parser} {src : Bytes} {anchor look pos m length : Nat}
    {found : FoundMatch} (look_le : look ≤ pos) (before : m < F.pre.length + pos)
    (low : logicalMatchStartIsValid F.pre.length m ((F.blockFloors s).lows parser pos).1
      ((F.blockFloors s).lows parser pos).2 = true)
    (stored :
      found = extendBackPrefixChainMatch F.pre src anchor ((F.blockFloors s).lows parser look).1
        ((F.blockFloors s).lows parser look).2 ⟨pos, F.pre.length + pos - m, length⟩ ∨
      found = extendBackLogicalMatchWithLimits F.pre src anchor ((F.blockFloors s).lows parser look).1
        ((F.blockFloors s).lows parser look).2 ⟨pos, F.pre.length + pos - m, length⟩) :
    found.offset = F.pre.length + pos - m ∧ found.start ≤ pos ∧ found.offset ≤ F.pre.length + found.start ∧
      logicalMatchStartIsValid F.pre.length (F.pre.length + found.start - found.offset)
        ((F.blockFloors s).lows parser look).1 ((F.blockFloors s).lows parser look).2 = true := by
  have hm : F.pre.length + pos - (F.pre.length + pos - m) = m := by omega
  -- the floors only rise
  have hlook : logicalMatchStartIsValid F.pre.length m ((F.blockFloors s).lows parser look).1
      ((F.blockFloors s).lows parser look).2 = true := by
    rcases blockFloors_cases hs parser with ⟨-, -, hlows⟩ | ⟨-, low', hlows, -, hmono⟩
    · rw [hlows pos] at low
      rw [hlows look]
      exact low
    · rw [hlows pos] at low
      rw [hlows look]
      have := hmono look pos look_le
      unfold logicalMatchStartIsValid at low ⊢
      split at low
      · rename_i hlt
        rw [if_pos hlt]
        exact low
      · rename_i hlt
        rw [if_neg hlt]
        have := of_decide_eq_true low
        exact decide_eq_true (by simp only at this ⊢; omega)
  rcases stored with stored | stored
  · have hlow : (if F.pre.length + pos - (F.pre.length + pos - m) < F.pre.length then
        ((F.blockFloors s).lows parser look).1 else F.pre.length + ((F.blockFloors s).lows parser look).2) ≤
          F.pre.length + pos - (F.pre.length + pos - m) := by
      rw [hm]
      unfold logicalMatchStartIsValid at hlook
      split at hlook <;> (rename_i hlt; have := of_decide_eq_true hlook; simp only [hlt, if_true, if_false]; omega)
    obtain ⟨e1, e2, -, e4, e5⟩ := extendBackLogicalMatchWithMinStart_spec F.pre src anchor _
      ⟨pos, F.pre.length + pos - m, length⟩ (by simp only; omega) hlow
    unfold extendBackPrefixChainMatch at stored
    simp only at stored
    rw [← stored] at e1 e2 e4 e5
    simp only at e1 e2 e4 e5
    refine ⟨e1, e2, by omega, ?_⟩
    unfold logicalMatchStartIsValid at hlook ⊢
    rw [e1]
    rw [hm] at e5
    split at hlook
    · rename_i hlt
      rw [if_pos hlt] at e5
      rw [if_pos (by omega)]
      exact decide_eq_true e5
    · rename_i hlt
      rw [if_neg hlt] at e5
      rw [if_neg (by omega)]
      exact decide_eq_true (by omega)
  · obtain ⟨e1, e2, -, e4, e5⟩ := extendBackLogicalMatchWithLimits_spec F.pre src anchor
      ((F.blockFloors s).lows parser look).1 ((F.blockFloors s).lows parser look).2
      ⟨pos, F.pre.length + pos - m, length⟩ (by simp only; omega) (by simp only; rw [hm]; exact hlook)
    rw [← stored] at e1 e2 e4 e5
    simp only at e1 e2 e4 e5
    rw [← e1] at e5
    exact ⟨e1, e2, by omega, e5⟩

theorem step_accepted (hs : F.OK s) (hp : s.prefixed = true) {parser : Parser} {src : Bytes} {t t' : ParseState}
    {m : FoundMatch} (h : PrefixedStep parser (F.blockFloors s) F.pre src t m t') (hsrc : src.length ≤ s.blockEnd)
    (ht : F.SafeBehind s t) : F.Accepts m.start m.offset ∧ F.SafeBehind s t' := by
  cases h with
  | @candidate look pos c length _ look_le behind inside before low stored =>
    obtain ⟨e1, e2, e3, e4⟩ := extended_valid hs look_le before low stored
    have hoff : (F.blockFloors s).prefixRetired = true → m.offset ≤ F.historyLimit := by
      intro hr
      have := offset_le_of_retired hs (le_trans inside hsrc) low hr
      omega
    exact ⟨accepts_prefixed hs hp (by omega) e3 e4 hoff, ht.store hoff⟩
  | @aheadRepeat pos n look bytes =>
    have hend := prefixedRepeatMatchAt_inside bytes
    obtain ⟨-, b2, b3⟩ := prefixedRepeatMatchAt_some bytes
    have hoff : (F.blockFloors s).prefixRetired = true → t.reps.rep1 ≤ F.historyLimit := fun hr => (ht hr).1
    exact ⟨accepts_prefixed hs hp (by simp only [minMatch] at hend ⊢; omega) b2 b3 hoff, ht.store hoff⟩
  | @repeatAt pos raw n look which bytes =>
    have hend := prefixedRepeatMatchAt_inside bytes
    obtain ⟨-, b2, b3⟩ := prefixedRepeatMatchAt_some bytes
    have hoff : (F.blockFloors s).prefixRetired = true → raw ≤ F.historyLimit := by
      intro hr
      have := offset_le_of_retired hs (by omega) b3 hr
      omega
    exact ⟨accepts_prefixed hs hp (by simp only; omega) b2 b3 hoff, ht.store hoff⟩
  | @repeatBack step pos n isFast look bytes back =>
    have hend := prefixedRepeatMatchAt_inside bytes
    obtain ⟨b2, b3⟩ := back
    have hoff : (F.blockFloors s).prefixRetired = true → t.reps.rep1 ≤ F.historyLimit := fun hr => (ht hr).1
    subst isFast
    have b3 : logicalMatchStartIsValid F.pre.length (F.pre.length + pos - t.reps.rep1)
        ((F.blockFloors s).lows (.fast step) pos).1 ((F.blockFloors s).lows (.fast step) pos).2 = true := b3
    exact ⟨accepts_prefixed hs hp (by simp only; omega) b2 b3 hoff, ht.store hoff⟩

theorem parse_accepted (hs : F.OK s) (hp : s.prefixed = true) {parser : Parser} {src : Bytes} {t : ParseState}
    {ms : List FoundMatch} (h : PrefixedParse parser (F.blockFloors s) F.pre src t ms)
    (hsrc : src.length ≤ s.blockEnd) (ht : F.SafeBehind s t) : ∀ m ∈ ms, F.Accepts m.start m.offset := by
  induction h with
  | done t => intro m hm; cases hm
  | step h _ ih =>
    obtain ⟨h1, h2⟩ := step_accepted hs hp h hsrc ht
    intro m hm
    rcases List.mem_cons.mp hm with rfl | hm
    · exact h1
    · exact ih h2 m hm

theorem safeBehind_prefixedReps (hs : F.OK s) : F.SafeBehind s ⟨s.pos, F.prefixedReps s, false⟩ := by
  intro hr
  simp only [prefixedReps, if_pos hr, invalidateNoDictRepeatOffsets]
  rcases blockFloors_cases hs .row with ⟨hr', -, -⟩ | ⟨-, low, hlows, hreach, -⟩
  · rw [hr] at hr'
    cases hr'
  · -- the parsers other than the fast pair read their floors from the same record
    have hlow : (F.blockFloors s).matchFloor.at s.pos = (F.pre.length, low s.pos) := hlows s.pos
    have := hreach s.pos hs.pos_le
    rw [hlow]
    simp only
    constructor <;> (split <;> omega)

/-! ## Every match reached -/

theorem le_matchFloor (s : FrameState) (stop pos : Nat) :
    pos ≤ (F.sourceFloors s stop).matchFloor.at pos + F.historyLimit := by
  simp only [sourceFloors, contiguousFloors, MatchFloor.at_reaching]
  omega

/-- A narrow parse without a prefix stays within the window. -/
theorem segment_within (hs : F.OK s) {parser : Parser} {stop : Nat} {ms : List FoundMatch}
    (h : F.Segment s parser stop ms) (inside : stop ≤ s.blockEnd) (narrow : F.Narrow ⟨s, parser, stop, ms⟩)
    (contiguous : s.prefixed = false) : ∀ m ∈ ms, m.offset ≤ F.historyLimit ∧ m.offset ≤ m.start ∧ m.start ≤ stop := by
  have hsrc := F.length_source hs inside
  have hb := hs.block
  have hst := hs.start_le
  cases h with
  | retired isPrefixed _ _ _ _ _ | behindPrefix isPrefixed _ _ =>
    rw [contiguous] at isPrefixed
    cases isPrefixed
  | @source f first _ contiguous floors look parse =>
    subst floors look
    have hw : ∀ m ∈ ms, m.Within F.historyLimit (F.source s stop).length :=
      parse.within ?_ ?_ (le_matchFloor s stop)
    · intro m hm
      obtain ⟨h1, h2, h3⟩ := hw m hm
      exact ⟨h1, h2, by omega⟩
    · -- what the parser was handed is what the condition is about
      rcases narrow with narrow | narrow
      · rw [contiguous] at narrow
        cases narrow
      cases parser with
      | fast step | doubleFast =>
        rcases narrow with narrow | ⟨h1, h2⟩
        · exact .inl ⟨by rw [hsrc]; exact narrow, rfl⟩
        · refine .inr ⟨h1, ?_, h2.symm.imp_right fun h => ⟨h, rfl⟩⟩
          simp only [Parser.carried, invalidateNoDictRepeatOffsets]
          split <;> omega
      | row =>
        simp only [Parser.Safe, Parser.carried, invalidateNoDictRepeatOffsets]
        have := F.le_matchFloor s stop (Parser.row.first (F.sourceFloors s stop) s.pos)
        constructor <;> (split <;> omega)
      | lazy =>
        rcases narrow with narrow | narrow
        · exact .inl (by rw [hsrc]; exact narrow)
        · exact .inr narrow
      | optimal => trivial
    · intro pos hpos
      rw [hsrc] at hpos
      simp only [sourceFloors, contiguousFloors]
      omega

theorem segment_accepted (hs : F.OK s) {parser : Parser} {stop : Nat} {ms : List FoundMatch}
    (h : F.Segment s parser stop ms) (inside : stop ≤ s.blockEnd)
    (narrow : F.Narrow ⟨s, parser, stop, ms⟩) : ∀ m ∈ ms, F.Accepts (s.dropped + m.start) m.offset := by
  have hsrc := F.length_source hs inside
  have hin := hs.inside
  cases hp : s.prefixed with
  | false =>
    intro m hm
    obtain ⟨h1, h2, h3⟩ := segment_within hs h inside narrow hp m hm
    exact accepts_inFrame (by omega) h1 (by omega)
  | true =>
    cases h with
    | source contiguous _ _ _ =>
      rw [hp] at contiguous
      cases contiguous
    | @retired step first f _ isPrefixed isFast retired floors look parse =>
      subst isFast floors look
      have hw : ∀ m ∈ ms, m.Within F.historyLimit (F.source s stop).length :=
        parse.within ?_ ?_ (le_matchFloor s stop)
      · intro m hm
        obtain ⟨h1, h2, h3⟩ := hw m hm
        exact accepts_inFrame (by omega) h1 (by omega)
      · -- the carried repeat offsets were clamped before the parser was chosen
        obtain ⟨h1, h2⟩ := safeBehind_prefixedReps hs retired
        refine .inr ⟨?_, ?_, .inl ?_⟩ <;>
          (simp only [Parser.carried, invalidateNoDictRepeatOffsets]; split <;> omega)
      · intro pos hpos
        rw [hsrc] at hpos
        rcases blockFloors_cases hs (.fast step) with ⟨hr, -, -⟩ | ⟨-, low, hlows, hreach, -⟩
        · rw [retired] at hr
          cases hr
        · have hlow : (F.blockFloors s).sourceLow = low pos := congrArg Prod.snd (hlows pos)
          have := hreach pos (by omega)
          simp only [hlow]
          omega
    | behindPrefix isPrefixed live parse =>
      intro m hm
      have h := parse_accepted hs isPrefixed parse (by omega) (safeBehind_prefixedReps hs) m hm
      rw [hs.whole isPrefixed, Nat.zero_add]
      exact h

/-- In a frame whose segments are all narrow, every match reached is one the decoder accepts. -/
theorem reached_accepted {reps : RepeatOffsets} {planned : List PlannedChunk} (run : F.Run reps planned s)
    (narrow : ∀ p ∈ planned, F.Narrow p) :
    ∀ p ∈ planned, ∀ m ∈ p.found, F.Accepts (p.before.dropped + m.start) m.offset := by
  induction run with
  | start => intro p hp; cases hp
  | @step planned p s s' run h ih =>
    intro q hq
    rcases List.mem_append.mp hq with hq' | hq'
    · exact ih (fun p hp => narrow p (List.mem_append_left _ hp)) q hq'
    · have hn := narrow q hq
      cases h with
      | segment ahead inside parsed _ =>
        simp only [Option.toList, List.mem_singleton] at hq'
        subst hq'
        exact segment_accepted run.ok parsed inside hn
      | openBlock | longDistance | stored | compact => cases hq'

/-- What a frame without a prefix keeps. -/
structure Plain (F : Frame) (s : FrameState) : Prop where
  contiguous : s.prefixed = false
  reps : ∀ r ∈ [s.reps.rep1, s.reps.rep2, s.reps.rep3], r ≤ F.historyLimit
  atStart : ∀ r ∈ [s.atStart.rep1, s.atStart.rep2, s.atStart.rep3], r ≤ F.historyLimit

theorem Plain.narrow (h : F.Plain s) (parser : Parser) (stop : Nat) (ms : List FoundMatch) :
    F.Narrow ⟨s, parser, stop, ms⟩ := by
  obtain ⟨-, h1, -⟩ := h
  simp only [List.forall_mem_cons] at h1
  refine .inr ?_
  cases parser with
  | fast step | doubleFast =>
    refine .inr ⟨?_, .inr ?_⟩ <;>
      (simp only [Parser.carried, invalidateNoDictRepeatOffsets]; split <;> omega)
  | row | optimal => trivial
  | lazy => exact .inr (by simp only; omega)

theorem Step.plain {p : Option PlannedChunk} (h : F.Step s p s') (hs : F.OK s) (hp : F.Plain s) : F.Plain s' := by
  obtain ⟨h1, h2, h3⟩ := hp
  cases h with
  | openBlock closed size inside => exact ⟨h1, h2, h2⟩
  | @segment parser stop ms reps ahead inside parsed kept =>
    refine ⟨h1, fun r hr => ?_, h3⟩
    rcases kept r hr with hr | ⟨m, hm, rfl⟩
    · exact h2 r hr
    · -- a match without a prefix is within the window
      have hn := Plain.narrow ⟨h1, h2, h3⟩ parser stop ms
      exact (segment_within hs parsed inside hn h1 m hm).1
  | longDistance inside own =>
    refine ⟨h1, ?_, h3⟩
    simp only [List.forall_mem_cons] at h2 ⊢
    exact ⟨own h1, h2.1, h2.2.1, h2.2.2.2⟩
  | stored => exact ⟨h1, h3, h3⟩
  | compact closed long keeps => exact ⟨rfl, h2, h2⟩

/-- Without a dictionary every match reached is accepted, whatever the blocks and the parsers. -/
theorem plain_accepted {reps : RepeatOffsets} {planned : List PlannedChunk} (run : F.Run reps planned s)
    (hpre : F.pre = []) (hreps : ∀ r ∈ [reps.rep1, reps.rep2, reps.rep3], r ≤ F.historyLimit) :
    F.Plain s ∧ ∀ p ∈ planned, ∀ m ∈ p.found, F.Accepts (p.before.dropped + m.start) m.offset := by
  induction run with
  | start => exact ⟨⟨by simp [Frame.start, hpre], hreps, hreps⟩, fun p hp => by cases hp⟩
  | @step planned p s s' run h ih =>
    obtain ⟨hplain, hall⟩ := ih
    refine ⟨h.plain run.ok hplain, fun q hq => ?_⟩
    rcases List.mem_append.mp hq with hq | hq
    · exact hall q hq
    · cases h with
      | @segment parser stop ms _ ahead inside parsed _ =>
        simp only [Option.toList, List.mem_singleton] at hq
        subst hq
        exact segment_accepted run.ok parsed inside (hplain.narrow parser stop ms)
      | openBlock | longDistance | stored | compact => cases hq

end Frame

/-- A block that is stored without a plan. -/
theorem Frame.Run.storedBlock {F : Frame} {s : FrameState} {reps : RepeatOffsets} {planned : List PlannedChunk}
    (run : F.Run reps planned s) (closed : s.pos = s.blockEnd) {n : Nat} (size : n ≤ F.blockSizeMax)
    (inside : s.dropped + s.pos + n ≤ F.content.length) :
    F.Run reps planned { s with blockStart := s.pos, blockEnd := s.pos + n, pos := s.pos + n, atStart := s.reps } := by
  have h := Frame.Run.step (Frame.Run.step run (.openBlock closed size inside)) .stored
  simpa using h

/-! ### A streamed frame that leaves its dictionary behind -/

/-- Bytes without structure. -/
def scattered (i : Nat) : UInt8 := UInt8.ofNat (i * i * 2654435761 / 65536)

/-- 4096 bytes: the first block ends with the dictionary, the last one repeats bytes 1025 back. -/
def wideContent : Bytes :=
  (List.range 4096).map fun i =>
    if 985 ≤ i ∧ i < 1024 then scattered (i - 985 + 5000)
    else if 3075 ≤ i ∧ i < 3107 then scattered (i - 1025)
    else scattered i

def wideDictionary : Bytes := (List.range 40).map fun i => scattered (i + 5000)

/-- A stream over a raw dictionary with a window of 1 KiB. -/
def wideFrame : Frame where
  content := wideContent
  historyLimit := 1024
  contentSize := none
  window := 1024
  blockSizeMax := 1024
  pre := wideDictionary
  prefixLowLimit := 0
  dictionary := some wideDictionary
  declared := by decide +kernel
  sized := by simp
  block_le := le_refl _
  lead := by simp
  pre_nil := by simp

/-- The first block is planned over the live dictionary: one match, 1025 back. -/
def wideLive : PlannedChunk :=
  ⟨⟨0, true, 0, 1024, 0, ⟨1, 4, 8⟩, ⟨1, 4, 8⟩⟩, .fast 2, 1024, [⟨985, 1025, 39⟩]⟩

/-- The fourth is planned behind the compaction: the first repeat offset is taken again. -/
def wideLeft : PlannedChunk :=
  ⟨⟨2048, false, 1024, 2048, 1024, ⟨1025, 1, 4⟩, ⟨1025, 1, 4⟩⟩, .fast 2, 2048, [⟨1027, 1025, 32⟩]⟩

theorem wideLive_segment : wideFrame.Segment wideLive.before wideLive.parser wideLive.stop wideLive.found := by
  have h : PrefixedStep (.fast 2) (wideFrame.blockFloors wideLive.before) wideDictionary
      (wideFrame.source wideLive.before 1024) ⟨0, ⟨1, 4, 8⟩, false⟩ ⟨985, 1025, 39⟩
      ((⟨0, ⟨1, 4, 8⟩, false⟩ : ParseState).store ⟨985, 1025, 39⟩) := by
    apply @PrefixedStep.candidate _ _ _ _ _ 985 985 0 39 _ (le_refl _) (by decide)
    · decide +kernel
    · decide +kernel
    · decide +kernel
    · exact .inl (by decide +kernel)
  exact .behindPrefix rfl (by decide +kernel) (.step h (.done _))

theorem wideLeft_segment : wideFrame.Segment wideLeft.before wideLeft.parser wideLeft.stop wideLeft.found := by
  have h : SourceStep (.fast 2) (wideFrame.sourceFloors wideLeft.before 2048)
      (wideFrame.source wideLeft.before 2048) 1025 ⟨1024, ⟨1025, 1, 4⟩, false⟩ ⟨1027, 1025, 32⟩
      ⟨1059, ⟨1025, 1, 4⟩, true⟩ := by
    apply @SourceStep.fastRepeat _ _ _ _ _ 2 1027 0 _ ⟨rfl, le_refl _⟩
    · decide +kernel
    · decide
    · decide +kernel
    · decide
    · decide +kernel
    · decide +kernel
    · decide +kernel
  exact .source rfl rfl (by decide +kernel) (.step h (.done _))

theorem wideLive_opened : wideFrame.Run ⟨1, 4, 8⟩ [] wideLive.before := by
  have h : wideFrame.Step (wideFrame.start ⟨1, 4, 8⟩) none wideLive.before :=
    @Frame.Step.openBlock wideFrame (wideFrame.start ⟨1, 4, 8⟩) 1024 rfl (by decide) (by decide +kernel)
  exact .step .start h

theorem wideFrame_run : wideFrame.Run ⟨1, 4, 8⟩ [wideLive, wideLeft]
    ⟨2048, false, 1024, 2048, 2048, ⟨1025, 1, 4⟩, ⟨1025, 1, 4⟩⟩ := by
  have h1 : wideFrame.Run ⟨1, 4, 8⟩ [wideLive] ⟨0, true, 0, 1024, 1024, ⟨1025, 1, 4⟩, ⟨1, 4, 8⟩⟩ :=
    .step wideLive_opened (.segment (by decide) (by decide) wideLive_segment (by decide))
  -- two blocks that do not compress keep the repeat offsets
  have h2 : wideFrame.Run ⟨1, 4, 8⟩ [wideLive] ⟨0, true, 1024, 2048, 2048, ⟨1025, 1, 4⟩, ⟨1025, 1, 4⟩⟩ :=
    h1.storedBlock rfl (le_refl 1024) (by decide +kernel)
  have h3 : wideFrame.Run ⟨1, 4, 8⟩ [wideLive] ⟨0, true, 2048, 3072, 3072, ⟨1025, 1, 4⟩, ⟨1025, 1, 4⟩⟩ :=
    h2.storedBlock rfl (le_refl 1024) (by decide +kernel)
  have h4 : wideFrame.Run ⟨1, 4, 8⟩ [wideLive] ⟨2048, false, 1024, 1024, 1024, ⟨1025, 1, 4⟩, ⟨1025, 1, 4⟩⟩ :=
    .step (p := none) h3 (@Frame.Step.compact wideFrame _ 2048 rfl (by decide) (by decide))
  have h5 : wideFrame.Run ⟨1, 4, 8⟩ [wideLive] wideLeft.before :=
    .step (p := none) h4 (@Frame.Step.openBlock wideFrame _ 1024 rfl (le_refl _) (by decide +kernel))
  exact .step h5 (.segment (by decide) (by decide) wideLeft_segment (by decide))

/-- A match the encoder reaches and the decoder rejects: 1025 back in a window of 1024, with 3075
bytes produced. -/
theorem Frame.reached_rejected : wideFrame.Run ⟨1, 4, 8⟩ [wideLive, wideLeft]
      ⟨2048, false, 1024, 2048, 2048, ⟨1025, 1, 4⟩, ⟨1025, 1, 4⟩⟩ ∧
    ∃ p ∈ [wideLive, wideLeft], ∃ m ∈ p.found, ¬ wideFrame.Accepts (p.before.dropped + m.start) m.offset := by
  refine ⟨wideFrame_run, wideLeft, by simp, ⟨1027, 1025, 32⟩, List.mem_singleton.mpr rfl, ?_⟩
  rintro (⟨-, h⟩ | ⟨d, -, h, -⟩)
  · exact absurd h (by decide)
  · exact absurd h (by decide)

/-- The same frame before its compaction. -/
theorem Frame.reached_accepted_small :
    wideFrame.Accepts 985 1025 := by
  have h1 : wideFrame.Run ⟨1, 4, 8⟩ [wideLive] ⟨0, true, 0, 1024, 1024, ⟨1025, 1, 4⟩, ⟨1, 4, 8⟩⟩ :=
    .step wideLive_opened (.segment (by decide) (by decide) wideLive_segment (by decide))
  exact Frame.reached_accepted h1 (fun p hp => by rw [List.mem_singleton.mp hp]; exact .inl rfl)
    wideLive (List.mem_singleton.mpr rfl) ⟨985, 1025, 39⟩ (List.mem_singleton.mpr rfl)

end Zstandard
