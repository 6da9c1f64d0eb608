/-
How far the match copies write: each kernel leaves the byte-by-byte copy and touches nothing behind it but the
slack it documents.

The wide copies may run up to 31 bytes past the match, the doubling copy and the two appends not at all. Where
an append outgrows a growable buffer, what follows the match is spare capacity nobody wrote.
-/
import Zstandard.Decode.Kernel

namespace Zstandard

open Lz

/-! ## The loops stay inside -/

section Loops

variable {mem₀ mem : Bytes} {base stop n : Nat}

theorem doublingLoop_within (hroom : stop ≤ mem₀.length) (hstop : base + n ≤ stop) :
    ∀ (fuel done : Nat) {mem : Bytes}, Within base stop mem₀ mem →
      Within base stop mem₀ (doublingLoop base n fuel done mem)
  | 0, _, _, h => h
  | fuel + 1, done, mem, h => by
    unfold doublingLoop
    split
    · exact doublingLoop_within hroom hstop fuel _ (h.move base (by omega) (by omega) hroom)
    · exact h

theorem copyMatchByDoubling_within (src offset : Nat) (hroom : base + n ≤ mem.length) :
    Within base (base + n) mem (copyMatchByDoubling mem base src offset n) :=
  doublingLoop_within hroom (le_refl _) n _ ((Within.refl _ _ mem).move src (le_refl _) (by omega) hroom)

/-- A round starts before the end of the match, so it ends less than 32 bytes behind it. -/
theorem copyWideLoop_within (src : Nat) (hroom : stop ≤ mem₀.length) (hstop : base + n + 31 ≤ stop) :
    ∀ (fuel done : Nat) {mem : Bytes}, done < n → Within base stop mem₀ mem →
      Within base stop mem₀ (copyWideLoop base src n fuel done mem)
  | 0, _, _, _, h => h
  | fuel + 1, done, mem, hlt, h => by
    unfold copyWideLoop
    have h1 := h.move (src + done) (show base ≤ base + done by omega) (show base + done + 16 ≤ stop by omega) hroom
    have h2 := h1.move (src + (done + 16)) (show base ≤ base + (done + 16) by omega)
      (show base + (done + 16) + 16 ≤ stop by omega) hroom
    simp only
    split
    · exact h2
    · exact copyWideLoop_within src hroom hstop fuel _ (by omega) h2

theorem copyEightLoop_within (hroom : stop ≤ mem₀.length) (hstop : base + n + 7 ≤ stop) :
    ∀ (fuel op ip : Nat) {mem : Bytes}, base ≤ op → Within base stop mem₀ mem →
      Within base stop mem₀ (copyEightLoop (base + n) fuel op ip mem)
  | 0, _, _, _, _, h => h
  | fuel + 1, op, ip, mem, hop, h => by
    unfold copyEightLoop
    split
    · exact copyEightLoop_within hroom hstop fuel _ _ (by omega) (h.move ip hop (by omega) hroom)
    · exact h

theorem overlapCopy8_within (src offset : Nat) (hroom : stop ≤ mem.length) (hstop : base + 8 ≤ stop) :
    Within base stop mem (overlapCopy8 mem base src offset).1 := by
  have h0 := (Within.refl base stop mem).move src (le_refl base) (show base + 1 ≤ stop by omega) hroom
  have h1 := h0.move (src + 1) (show base ≤ base + 1 by omega) (show base + 1 + 1 ≤ stop by omega) hroom
  have h2 := h1.move (src + 2) (show base ≤ base + 2 by omega) (show base + 2 + 1 ≤ stop by omega) hroom
  have h3 := h2.move (src + 3) (show base ≤ base + 3 by omega) (show base + 3 + 1 ≤ stop by omega) hroom
  exact h3.move (src + dec32Table.getD offset 0) (by omega) (by omega) hroom

/-- The wide copies run at most 31 bytes past the match. -/
theorem copyMatchInline_within (src : Nat) (hroom : base + n + wildcopyOverlength ≤ mem.length) :
    Within base (base + n + (wildcopyOverlength - 1)) mem (copyMatchInline mem base src n) := by
  unfold wildcopyOverlength at *
  have hroom' : base + n + 31 ≤ mem.length := by omega
  unfold copyMatchInline
  simp only
  split
  · exact (copyMatchByDoubling_within src _ (by omega)).mono (by omega)
  split
  · have h := (Within.refl base (base + n + 31) mem).move src (n := 16) (le_refl _) (by omega) hroom'
    split
    · exact copyWideLoop_within src hroom' (le_refl _) n 16 (by omega) h
    · exact h
  · have h : Within base (base + n + 31) mem
        (if base - src < 8 then overlapCopy8 mem base src (base - src) else (move mem base src 8, src + 8)).1 := by
      split
      · exact overlapCopy8_within src _ hroom' (by omega)
      · exact (Within.refl _ _ mem).move src (le_refl _) (by omega) hroom'
    split
    · exact copyEightLoop_within hroom' (by omega) n _ _ (by omega) h
    · exact h

end Loops

/-! ## The appends stay inside -/

namespace Region

variable {alloc : Allocator} {r r' r'' : Region}

/-- Behind what the region holds now, memory is what it was, or spare capacity as the allocator handed it over. -/
def Untouched (alloc : Allocator) (r r' : Region) : Prop :=
  (r'.mem.length = r.mem.length ∧ r.len ≤ r'.len ∧ r'.mem.drop r'.len = r.mem.drop r'.len) ∨
    (r.growable ∧ ∃ held additional, r'.mem.drop r'.len <:+ alloc.spare held additional)

theorem Untouched.refl (r : Region) : Untouched alloc r r := .inl ⟨rfl, le_refl _, rfl⟩

theorem Untouched.trans (h : Untouched alloc r r') (h' : Untouched alloc r' r'') (hg : r'.growable = r.growable) :
    Untouched alloc r r'' := by
  rcases h' with ⟨hlen', hle', hdrop'⟩ | ⟨hg', held, additional, hs⟩
  · have hsub : r'.mem.drop r''.len = (r'.mem.drop r'.len).drop (r''.len - r'.len) := by
      rw [List.drop_drop]
      congr 1; omega
    rcases h with ⟨hlen, hle, hdrop⟩ | ⟨hgr, held, additional, hs⟩
    · refine .inl ⟨hlen'.trans hlen, hle.trans hle', ?_⟩
      rw [hdrop', hsub, hdrop, List.drop_drop]
      congr 1; omega
    · refine .inr ⟨hgr, held, additional, ?_⟩
      rw [hdrop', hsub]
      exact (List.drop_suffix _ _).trans hs
  · exact .inr ⟨hg ▸ hg', held, additional, hs⟩

/-- Making room moves nothing, and writing the bytes room was made for stays before what is behind them. -/
theorem untouched_write {n : Nat} (h : r.ensureRoom alloc n = .ok r') (hle : r.len ≤ r.mem.length) {mem : Bytes}
    (hw : r'.len + n ≤ r'.mem.length → Within r'.len (r'.len + n) r'.mem mem) :
    Untouched alloc r { r' with mem, len := r'.len + n } := by
  unfold ensureRoom at h
  split at h
  · rename_i hroom
    cases h
    have hin := hw (by omega)
    exact .inl ⟨hin.length, by simp only; omega, hin.drop_eq⟩
  split at h
  · rename_i hg
    cases h
    have hslice : r.asSlice.length = r.len := by unfold asSlice; rw [List.length_take]; omega
    have henough := alloc.enough r.asSlice n
    have hin := hw (by simp only [List.length_append]; omega)
    refine .inr ⟨hg, r.asSlice, n, ?_⟩
    simp only
    rw [hin.drop_eq, ← hslice, List.drop_append, List.drop_eq_nil_of_le (by omega), List.nil_append,
      Nat.add_sub_cancel_left]
    exact List.drop_suffix _ _
  · cases h

theorem append_untouched (hle : r.len ≤ r.mem.length) {bytes : Bytes} (h : r.append alloc bytes = .ok r') :
    Untouched alloc r r' := by
  unfold append at h
  split at h
  · cases h; exact .refl r
  obtain ⟨r1, hroom, h⟩ := bind_ok h
  cases h
  exact untouched_write hroom hle fun hfits => (Within.refl _ _ r1.mem).write (le_refl _) (le_refl _) hfits

theorem appendMatchFromHistory_untouched (hle : r.len ≤ r.mem.length) {matchStart matchLength : Nat}
    (h : appendMatchFromHistory alloc r matchStart matchLength = .ok r') : Untouched alloc r r' := by
  unfold appendMatchFromHistory at h
  split at h
  · cases h; exact .refl r
  rename_i hn
  obtain ⟨r1, hroom, h⟩ := bind_ok h
  cases h
  refine untouched_write hroom hle fun hfits => ?_
  have h0 := Within.refl r1.len (r1.len + matchLength) r1.mem
  split
  · exact h0.move matchStart (le_refl _) (le_refl _) hfits
  split
  · exact h0.write (le_refl _) (by rw [List.length_replicate]) hfits
  · exact doublingLoop_within hfits (le_refl _) _ _ (h0.move matchStart (le_refl _) (by omega) hfits)

/-- What an append of a match leaves: the bytes it should, or the report that they do not fit, and nothing else
changed behind them. -/
structure Appends (alloc : Allocator) (r : Region) (b : Bytes) (x : Result Region) : Prop where
  yields : r.Yields b x
  untouched : ∀ r', x = .ok r' → Untouched alloc r r'

end Region

/-! ## The kernels -/

/-- What a match copy of `n` bytes to `base` leaves of `mem`: the byte-by-byte copy, and nothing changed more than
`slack` bytes behind it. -/
structure CopiesMatch (mem : Bytes) (base offset n slack : Nat) (mem' : Bytes) : Prop where
  length : mem'.length = mem.length
  copied : mem'.take (base + n) = copy (mem.take base) offset n
  untouched : ∀ i ≥ base + n + slack, mem'[i]? = mem[i]?

theorem copyMatchByDoubling_copies {mem : Bytes} {base offset n : Nat} (ho : 0 < offset) (hle : offset ≤ base)
    (hroom : base + n ≤ mem.length) :
    CopiesMatch mem base offset n 0 (copyMatchByDoubling mem base (base - offset) offset n) := by
  have hin := @copyMatchByDoubling_within mem _ _ (base - offset) offset hroom
  refine ⟨hin.length, ?_, fun i hi => hin.outside i (.inr hi)⟩
  rcases Nat.eq_zero_or_pos n with rfl | hn
  · apply List.ext_getElem?
    intro i
    rcases Nat.lt_or_ge i base with hi | hi
    · rw [List.getElem?_take_of_lt (by omega), hin.outside i (.inl hi), copy, List.getElem?_take_of_lt hi]
    · rw [List.getElem?_eq_none (by simp; omega), copy, List.getElem?_eq_none (by simp; omega)]
  · exact ((copyMatchByDoubling_copied ho hle hn hroom).spec ho hle hroom).2

theorem copyMatchInline_copies {mem : Bytes} {outPos offset n : Nat} (ho : 0 < offset) (hle : offset ≤ outPos)
    (hroom : outPos + n + wildcopyOverlength ≤ mem.length) :
    CopiesMatch mem outPos offset n (wildcopyOverlength - 1) (copyMatchInline mem outPos (outPos - offset) n) := by
  obtain ⟨hlen, hcopy⟩ := copyMatchInline_spec ho hle hroom
  exact ⟨hlen, hcopy, fun i hi => (copyMatchInline_within (outPos - offset) hroom).outside i (.inr hi)⟩

theorem appendMatchFromHistory_appends (alloc : Allocator) {r : Region} {b : Bytes} (h : r.Holds b) {offset n : Nat}
    (ho : 0 < offset) (hle : offset ≤ b.length) :
    r.Appends alloc (copy b offset n) (appendMatchFromHistory alloc r (b.length - offset) n) :=
  ⟨appendMatchFromHistory_yields alloc h ho hle, fun _ hx => Region.appendMatchFromHistory_untouched h.le hx⟩

theorem appendMatchFromDictionaryHistory_appends (alloc : Allocator) {r : Region} {b dictionary : Bytes} (h : r.Holds b)
    {frameStart offset n : Nat} (ho : 0 < offset) (hfs : frameStart ≤ b.length)
    (hle : offset ≤ dictionary.length + (b.length - frameStart)) :
    r.Appends alloc (copyWithDictionary b frameStart dictionary offset n)
      (appendMatchFromDictionaryHistory alloc r frameStart dictionary offset n) := by
  refine ⟨appendMatchFromDictionaryHistory_yields h ho hfs hle, fun r' hx => ?_⟩
  unfold appendMatchFromDictionaryHistory at hx
  split at hx
  · cases hx; exact .refl r
  simp only at hx
  split at hx
  · obtain ⟨r1, happend, hx⟩ := bind_ok hx
    have hyields := Region.append_yields alloc h ((dictionary.drop
      (dictionary.length + (r.len - frameStart) - offset)).take
      (min (dictionary.length - (dictionary.length + (r.len - frameStart) - offset)) n))
    have h1 := Region.append_untouched h.le happend
    split at hx
    · exact h1.trans (Region.appendMatchFromHistory_untouched (hyields.holds happend).le hx) (hyields.growable happend)
    · cases hx; exact h1
  · exact Region.appendMatchFromHistory_untouched h.le hx

/-- Every match copy kernel makes the byte-by-byte copy, over the history or over dictionary and history, and writes
nothing behind the match but its documented slack. -/
theorem matchCopies_exact (alloc : Allocator) :
    (∀ (mem : Bytes) (base offset n : Nat), 0 < offset → offset ≤ base → base + n ≤ mem.length →
      CopiesMatch mem base offset n 0 (copyMatchByDoubling mem base (base - offset) offset n)) ∧
    (∀ (mem : Bytes) (outPos offset n : Nat), 0 < offset → offset ≤ outPos →
      outPos + n + wildcopyOverlength ≤ mem.length →
      CopiesMatch mem outPos offset n (wildcopyOverlength - 1) (copyMatchInline mem outPos (outPos - offset) n)) ∧
    (∀ (r : Region) (b : Bytes) (offset n : Nat), r.Holds b → 0 < offset → offset ≤ b.length →
      r.Appends alloc (copy b offset n) (appendMatchFromHistory alloc r (b.length - offset) n)) ∧
    ∀ (r : Region) (b dictionary : Bytes) (frameStart offset n : Nat), r.Holds b → 0 < offset → frameStart ≤ b.length →
      offset ≤ dictionary.length + (b.length - frameStart) →
      r.Appends alloc (copyWithDictionary b frameStart dictionary offset n)
        (appendMatchFromDictionaryHistory alloc r frameStart dictionary offset n) := by
  refine ⟨?_, ?_, ?_, ?_⟩
  · exact fun mem base offset n ho hle hroom => copyMatchByDoubling_copies ho hle hroom
  · exact fun mem outPos offset n ho hle hroom => copyMatchInline_copies ho hle hroom
  · exact fun r b offset n h ho hle => appendMatchFromHistory_appends alloc h ho hle
  · exact fun r b dictionary frameStart offset n h ho hfs hle =>
      appendMatchFromDictionaryHistory_appends alloc h ho hfs hle

/-- Seven bytes from three back. -/
theorem matchCopies_exact_small :
    CopiesMatch ([1, 2, 3] ++ List.replicate 42 0) 3 3 7 31 (copyMatchInline ([1, 2, 3] ++ List.replicate 42 0) 3 0 7) ∧
      (copyMatchInline ([1, 2, 3] ++ List.replicate 42 0) 3 0 7).take 10 = [1, 2, 3, 1, 2, 3, 1, 2, 3, 1] :=
  ⟨(matchCopies_exact ⟨fun _ n => List.replicate n 0, by simp⟩).2.1 ([1, 2, 3] ++ List.replicate 42 0) 3 3 7 (by decide)
    (by decide) (by decide), by decide⟩

end Zstandard
