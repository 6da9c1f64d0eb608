/-
Rebasing a match finder: when the first `delta` bytes of the buffer are dropped, each table goes on describing the same
bytes. An entry that names a retained position is found in the slot the new position selects and names the new position,
an entry that names a dropped one is gone, the chains and trees over what is retained keep their shape, and the cursors
step over nothing but the two positions of padding that a tree never files.

A tree stores indices: the position itself under the lazy parser, and two more than the position under the optimal ones.
-/
import Zstandard.Encode.Finders
import Zstandard.Library.Links

namespace Zstandard

open Links

/-! ## Entries -/

/-- What `shift_raw_positions` makes of one entry. -/
def rebasedEntry (delta : Nat) (empty entry : UInt32) : UInt32 :=
  if entry = empty then empty
  else if delta ≤ entry.toNat then UInt32.ofNat (entry.toNat - delta) else empty

/-- The same beside a mark that stays. -/
def rebasedUnlessMark (delta : Nat) (empty mark entry : UInt32) : UInt32 :=
  if entry = mark then mark else rebasedEntry delta empty entry

theorem shiftRawPositions_eq_map (table : List UInt32) (delta : Nat) (empty : UInt32) :
    shiftRawPositions table delta empty = table.map (rebasedEntry delta empty) := by
  unfold shiftRawPositions
  split
  · refine List.map_congr_left fun entry _ => ?_
    unfold rebasedEntry
    by_cases h : entry = empty <;> simp [h]
  · -- no entry reaches a `delta` that is no `u32`
    rw [List.eq_replicate_iff.2 ⟨List.length_map _, ?_⟩]
    intro e he
    obtain ⟨entry, -, rfl⟩ := List.mem_map.1 he
    have := entry.toNat_lt
    unfold rebasedEntry
    rw [if_neg (show ¬ delta ≤ entry.toNat by omega), ite_self]

theorem shiftRawPositionsPreserving_eq_map (table : List UInt32) (delta : Nat) (empty mark : UInt32) :
    shiftRawPositionsPreserving table delta empty mark = table.map (rebasedUnlessMark delta empty mark) := by
  unfold shiftRawPositionsPreserving
  split
  · refine List.map_congr_left fun entry _ => ?_
    unfold rebasedUnlessMark rebasedEntry
    by_cases hm : entry = mark
    · simp [hm]
    · by_cases h : entry = empty <;> simp [h, hm]
  · refine List.map_congr_left fun entry _ => ?_
    have := entry.toNat_lt
    unfold rebasedUnlessMark rebasedEntry
    rw [if_neg (show ¬ delta ≤ entry.toNat by omega), ite_self]
    by_cases hm : entry = mark <;> simp [hm]

/-- The position an untagged entry names. -/
def rawPosition (empty entry : UInt32) : Option Nat := if entry = empty then none else some entry.toNat

theorem rawPosition_eq_some {empty entry : UInt32} {p : Nat} :
    rawPosition empty entry = some p ↔ entry ≠ empty ∧ entry.toNat = p := by
  unfold rawPosition; split <;> simp_all

theorem rebasedEntry_toNat {delta : Nat} {empty entry : UInt32} (he : entry ≠ empty) (h : delta ≤ entry.toNat) :
    (rebasedEntry delta empty entry).toNat = entry.toNat - delta := by
  have := entry.toNat_lt
  unfold rebasedEntry
  rw [if_neg he, if_pos h, UInt32.toNat_ofNat']
  omega

theorem rebasedEntry_dropped {delta : Nat} {empty entry : UInt32} (h : entry.toNat < delta) :
    rebasedEntry delta empty entry = empty := by
  unfold rebasedEntry
  rw [if_neg (show ¬ delta ≤ entry.toNat by omega), ite_self]

@[simp] theorem rebasedEntry_empty (delta : Nat) (empty : UInt32) : rebasedEntry delta empty empty = empty := if_pos rfl

/-- The position a tagged entry names. -/
def taggedPosition {E : Type} [TaggedEntry E] [DecidableEq E] (entry : E) : Option Nat :=
  if entry = TaggedEntry.empty then none else some (TaggedEntry.position entry)

/-- The position an entry of the long table names. -/
def longPosition (entry : UInt64) : Option Nat :=
  if longEntryPos entry = noPos then none else some (longEntryPos entry).toNat

/-! ## Tables keyed by hashes -/

/-- A table keyed by hashes goes on describing the same bytes: slot by slot, an entry naming a retained position names
the new one under the same tag, an entry naming a dropped position is the empty one, and no entry comes to name one. -/
structure Carried {α β : Type} (position : α → Option Nat) (tag : α → β) (empty : α) (delta : Nat)
    (table table' : List α) : Prop where
  length_eq : table'.length = table.length
  retained : ∀ (slot : Nat) (e : α) (p : Nat), table[slot]? = some e → position e = some p → delta < p →
    ∃ e', table'[slot]? = some e' ∧ position e' = some (p - delta) ∧ tag e' = tag e
  dropped : ∀ (slot : Nat) (e : α) (p : Nat), table[slot]? = some e → position e = some p → p < delta →
    table'[slot]? = some empty
  unfilled : ∀ (slot : Nat) (e : α), table[slot]? = some e → position e = none →
    ∃ e', table'[slot]? = some e' ∧ position e' = none

/-- It is enough to look at the entries one by one. -/
theorem Carried.of_map {α β : Type} {position : α → Option Nat} {tag : α → β} {empty : α} {delta : Nat} {f : α → α}
    (hretained : ∀ e p, position e = some p → delta < p → position (f e) = some (p - delta) ∧ tag (f e) = tag e)
    (hdropped : ∀ e p, position e = some p → p < delta → f e = empty)
    (hunfilled : ∀ e, position e = none → position (f e) = none) (table : List α) :
    Carried position tag empty delta table (table.map f) where
  length_eq := List.length_map _
  retained slot e p hslot hp hd := ⟨f e, by rw [List.getElem?_map, hslot]; rfl, hretained e p hp hd⟩
  dropped slot e p hslot hp hd := by rw [List.getElem?_map, hslot, Option.map_some, hdropped e p hp hd]
  unfilled slot e hslot hp := ⟨f e, by rw [List.getElem?_map, hslot]; rfl, hunfilled e hp⟩

theorem shiftRawPositions_carried (table : List UInt32) (delta : Nat) (empty : UInt32)
    (hempty : empty = 0 ∨ empty = noPos) :
    Carried (rawPosition empty) (fun _ => ()) empty delta table (shiftRawPositions table delta empty) := by
  rw [shiftRawPositions_eq_map]
  apply Carried.of_map
  · intro e p hp hd
    obtain ⟨he, rfl⟩ := rawPosition_eq_some.1 hp
    refine ⟨rawPosition_eq_some.2 ⟨fun h => ?_, rebasedEntry_toNat he (by omega)⟩, rfl⟩
    -- a position above `delta` moves neither to zero nor to the last one
    have hnat := congrArg UInt32.toNat h
    rw [rebasedEntry_toNat he (by omega)] at hnat
    have := e.toNat_lt
    rcases hempty with rfl | rfl
    · rw [show (0 : UInt32).toNat = 0 from rfl] at hnat; omega
    · rw [show noPos.toNat = 2 ^ 32 - 1 from rfl] at hnat
      apply he; apply UInt32.toNat_inj.1
      rw [show noPos.toNat = 2 ^ 32 - 1 from rfl]; omega
  · intro e p hp hd
    obtain ⟨-, rfl⟩ := rawPosition_eq_some.1 hp
    exact rebasedEntry_dropped hd
  · intro e hp
    have he : e = empty := by by_contra h; simp [rawPosition, h] at hp
    rw [he, rebasedEntry_empty]; simp [rawPosition]

theorem shiftTaggedPositions_carried {E : Type} [TaggedEntry E] [DecidableEq E] (table : List E) (delta : Nat) :
    Carried taggedPosition TaggedEntry.tagMatches TaggedEntry.empty delta table (shiftTaggedPositions table delta) := by
  unfold shiftTaggedPositions
  apply Carried.of_map
  · intro e p hp hd
    have he : e ≠ TaggedEntry.empty := by rintro rfl; simp [taggedPosition] at hp
    obtain rfl : TaggedEntry.position e = p := by simpa [taggedPosition, he] using hp
    rw [if_neg he, if_pos (by omega)]
    refine ⟨?_, TaggedEntry.tagMatches_withPosition e _⟩
    unfold taggedPosition
    rw [if_neg (TaggedEntry.withPosition_ne_empty e _ he (Nat.sub_le _ _))]
    rw [TaggedEntry.position_withPosition e _ (Nat.sub_le _ _)]
  · intro e p hp hd
    have he : e ≠ TaggedEntry.empty := by rintro rfl; simp [taggedPosition] at hp
    obtain rfl : TaggedEntry.position e = p := by simpa [taggedPosition, he] using hp
    rw [if_neg he, if_neg (by omega)]
  · intro e hp
    have he : e = TaggedEntry.empty := by by_contra h; simp [taggedPosition, h] at hp
    simp [he, taggedPosition]

theorem longPosition_empty : longPosition longEntryEmpty = none := by decide

theorem shiftLongEntries_carried (table : List UInt64) (delta : Nat) :
    Carried longPosition longEntryTagMatches longEntryEmpty delta table (shiftLongEntries table delta) := by
  have hpos : ∀ {e : UInt64} {p : Nat}, longPosition e = some p → longEntryPos e ≠ noPos ∧
    (longEntryPos e).toNat = p := by
    intro e p h
    unfold longPosition at h
    split at h
    · cases h
    · exact ⟨‹_›, by simpa using h⟩
  unfold shiftLongEntries
  split
  · apply Carried.of_map
    · intro e p hp hd
      obtain ⟨he, rfl⟩ := hpos hp
      have hlt := (longEntryPos e).toNat_lt
      rw [if_neg he, if_pos (by omega)]
      refine ⟨?_, longEntryTagMatches_withPos _ _⟩
      have hnat : (UInt32.ofNat ((longEntryPos e).toNat - delta)).toNat = (longEntryPos e).toNat - delta := by
        rw [UInt32.toNat_ofNat']; omega
      unfold longPosition
      rw [longEntryPos_withPos, if_neg, hnat]
      intro h
      have := congrArg UInt32.toNat h
      rw [hnat, show noPos.toNat = 2 ^ 32 - 1 from rfl] at this
      apply he; apply UInt32.toNat_inj.1
      rw [show noPos.toNat = 2 ^ 32 - 1 from rfl]; omega
    · intro e p hp hd
      obtain ⟨he, rfl⟩ := hpos hp
      rw [if_neg he, if_neg (by omega)]
    · intro e hp
      have he : longEntryPos e = noPos := by by_contra h; simp [longPosition, h] at hp
      rw [if_pos he, hp]
  · -- every position is a `u32`, so all of them are dropped
    rw [← List.map_const']
    apply Carried.of_map
    · intro e p hp hd
      obtain ⟨-, rfl⟩ := hpos hp
      have := (longEntryPos e).toNat_lt
      omega
    · intro e p _ _; rfl
    · intro e _; exact longPosition_empty


/-! ## The slot that the same bytes select -/

theorem readU32At_drop {src : Bytes} {delta p : Nat} (h : delta ≤ p) :
    readU32At (src.drop delta) (p - delta) = readU32At src p := by
  unfold readU32At; rw [List.drop_drop, Nat.add_sub_cancel' h]

theorem readU64At_drop {src : Bytes} {delta p : Nat} (h : delta ≤ p) :
    readU64At (src.drop delta) (p - delta) = readU64At src p := by
  unfold readU64At; rw [List.drop_drop, Nat.add_sub_cancel' h]

theorem hashSrcAtMlsBits_drop {src : Bytes} {delta p : Nat} (h : delta ≤ p) (hashBits minMatch : Nat) :
    hashSrcAtMlsBits (src.drop delta) (p - delta) hashBits minMatch = hashSrcAtMlsBits src p hashBits minMatch := by
  unfold hashSrcAtMlsBits; rw [readU32At_drop h, readU64At_drop h]

theorem hashAt_drop {src : Bytes} {delta p : Nat} (h : delta ≤ p) (hashBits : Nat) :
    hashAt (src.drop delta) (p - delta) hashBits = hashAt src p hashBits := by
  unfold hashAt; rw [readU32At_drop h]

theorem hashLongAt_drop {src : Bytes} {delta p : Nat} (h : delta ≤ p) (hashBits : Nat) :
    hashLongAt (src.drop delta) (p - delta) hashBits = hashLongAt src p hashBits := by
  unfold hashLongAt; rw [readU64At_drop h]

theorem rowHashSrcAt_drop {src : Bytes} {delta p : Nat} (h : delta ≤ p) (hashBits mls : Nat) (salt : UInt64) :
    rowHashSrcAt (src.drop delta) (p - delta) hashBits mls salt = rowHashSrcAt src p hashBits mls salt := by
  unfold rowHashSrcAt; rw [readU32At_drop h, readU64At_drop h]

/-- Whether a hash still has its eight bytes is the same question before and after. -/
theorem hashReadSize_drop {src : Bytes} {delta p : Nat} (h : delta ≤ p) :
    p - delta + hashReadSize ≤ (src.drop delta).length ↔ p + hashReadSize ≤ src.length := by
  rw [List.length_drop]; unfold hashReadSize; omega

/-! ## Cursors -/

/-- A cursor after the move: not below where a new finder starts, past what was filed, and not past anything that was
not, unless that lands below where a new finder starts. -/
structure CursorMoved (initial delta cursor cursor' : Nat) : Prop where
  initial_le : initial ≤ cursor'
  filed : ∀ p, p < cursor → delta ≤ p → p - delta < cursor'
  unfiled : ∀ p, cursor ≤ p → delta ≤ p → initial ≤ p - delta → cursor' ≤ p - delta

theorem CursorMoved.max_sub (initial delta cursor : Nat) :
    CursorMoved initial delta cursor (max (cursor - delta) initial) where
  initial_le := le_max_right _ _
  filed p _ _ := lt_max_of_lt_left (by omega)
  unfiled p _ _ h := max_le (by omega) h

theorem CursorMoved.sub (delta cursor : Nat) : CursorMoved 0 delta cursor (cursor - delta) := by
  have h := CursorMoved.max_sub 0 delta cursor
  rwa [Nat.max_zero] at h

/-! ## Tables keyed by positions -/

/-- A slot of a cycle of `2 ^ log` is kept by any drop of whole cycles. -/
theorem and_mask_sub {period log delta i : Nat} (hperiod : period = 2 ^ log) (halign : delta % period = 0)
    (h : delta ≤ i) : (i - delta) &&& (period - 1) = i &&& (period - 1) := by
  subst hperiod
  rw [Nat.and_two_pow_sub_one_eq_mod, Nat.and_two_pow_sub_one_eq_mod]
  obtain ⟨k, rfl⟩ := Nat.dvd_of_mod_eq_zero halign
  obtain ⟨j, rfl⟩ := Nat.exists_eq_add_of_le h
  rw [Nat.add_sub_cancel_left, Nat.mul_add_mod]

theorem and_mask_lt {period log : Nat} (hperiod : period = 2 ^ log) (i : Nat) : i &&& (period - 1) < period := by
  subst hperiod
  rw [Nat.and_two_pow_sub_one_eq_mod]
  exact Nat.mod_lt _ (Nat.two_pow_pos _)

/-- Below one cycle the slot is the index itself. -/
theorem and_mask_eq {period log i : Nat} (hperiod : period = 2 ^ log) (h : i < period) : i &&& (period - 1) = i := by
  subst hperiod
  rw [Nat.and_two_pow_sub_one_eq_mod, Nat.mod_eq_of_lt h]

/-- Moving a table bodily: the slots from `gone` on come to the front, each entry rebased, and the rest is empty. -/
theorem movedToFront_getElem? {table : List UInt32} {gone slot : Nat} {empty : UInt32} (f : List UInt32 → List UInt32)
    (g : UInt32 → UInt32) (hf : ∀ t, f t = t.map g) (hgone : gone ≤ table.length) :
    (f ((movedToFront table (table.length - gone) empty).take (table.length - gone)) ++
        (movedToFront table (table.length - gone) empty).drop (table.length - gone))[slot]? =
      if slot < table.length - gone then (table[slot + gone]?).map g
      else if slot < table.length then some empty else none := by
  have hback : table.length - (table.length - gone) = gone := by omega
  have hkept : (table.drop gone).length = table.length - gone := List.length_drop
  unfold movedToFront
  rw [hf, hback, List.take_left' hkept, List.drop_left' hkept]
  split_ifs with h h'
  · rw [List.getElem?_append_left (by rw [List.length_map, hkept]; exact h), List.getElem?_map, List.getElem?_drop,
      Nat.add_comm]
  · rw [List.getElem?_append_right (by rw [List.length_map, hkept]; omega), List.getElem?_replicate, if_pos]
    rw [List.length_map, hkept]; omega
  · rw [List.getElem?_append_right (by rw [List.length_map, hkept]; omega), List.getElem?_replicate, if_neg]
    rw [List.length_map, hkept]; omega


/-! ## Finders keyed by hashes alone -/

/-- An entry filed under the bytes at a position is found again under the same bytes at the new position. -/
def FoundAgain {α β : Type} (position : α → Option Nat) (tag : α → β) (delta : Nat) (slot slot' : Nat → Nat)
    (table table' : List α) : Prop :=
  ∀ (p i : Nat) (e : α), delta ≤ p → table[slot p]? = some e → position e = some i → delta < i →
    ∃ e', table'[slot' (p - delta)]? = some e' ∧ position e' = some (i - delta) ∧ tag e' = tag e

theorem Carried.foundAgain {α β : Type} {position : α → Option Nat} {tag : α → β} {empty : α} {delta : Nat}
    {table table' : List α} (h : Carried position tag empty delta table table') {slot slot' : Nat → Nat}
    (hslot : ∀ p, delta ≤ p → slot' (p - delta) = slot p) : FoundAgain position tag delta slot slot' table table' := by
  intro p i e hp he hi hd
  rw [hslot p hp]
  exact h.retained (slot p) e i he hi hd

structure FastFinder.Rebased {E : Type} [TaggedEntry E] [DecidableEq E] (src : Bytes) (delta : Nat)
    (f f' : FastFinder E) : Prop where
  heads : Carried taggedPosition TaggedEntry.tagMatches TaggedEntry.empty delta f.heads f'.heads
  found : FoundAgain taggedPosition TaggedEntry.tagMatches delta (fun p => taggedIndex (f.hashAndTag src p))
    (fun p => taggedIndex (f'.hashAndTag (src.drop delta) p)) f.heads f'.heads

theorem FastFinder.shiftPositions_rebased {E : Type} [TaggedEntry E] [DecidableEq E] (src : Bytes) (delta : Nat)
    (f : FastFinder E) : f.Rebased src delta (f.shiftPositions delta) where
  heads := shiftTaggedPositions_carried f.heads delta
  found := (shiftTaggedPositions_carried f.heads delta).foundAgain fun _ hp =>
    congrArg taggedIndex (hashSrcAtMlsBits_drop hp _ _)

structure DoubleFastFinder.Rebased {E : Type} [TaggedEntry E] [DecidableEq E] (src : Bytes) (delta : Nat)
    (f f' : DoubleFastFinder E) : Prop where
  long : Carried longPosition longEntryTagMatches longEntryEmpty delta f.longEntries f'.longEntries
  foundLong : FoundAgain longPosition longEntryTagMatches delta (fun p => taggedIndex (f.longHashAndTag src p))
    (fun p => taggedIndex (f'.longHashAndTag (src.drop delta) p)) f.longEntries f'.longEntries
  short : Carried taggedPosition TaggedEntry.tagMatches TaggedEntry.empty delta f.shortHeads f'.shortHeads
  foundShort : FoundAgain taggedPosition TaggedEntry.tagMatches delta (fun p => taggedIndex (f.shortHashAndTag src p))
    (fun p => taggedIndex (f'.shortHashAndTag (src.drop delta) p)) f.shortHeads f'.shortHeads

theorem DoubleFastFinder.shiftPositions_rebased {E : Type} [TaggedEntry E] [DecidableEq E] (src : Bytes) (delta : Nat)
    (f : DoubleFastFinder E) : f.Rebased src delta (f.shiftPositions delta) where
  long := shiftLongEntries_carried f.longEntries delta
  foundLong := (shiftLongEntries_carried f.longEntries delta).foundAgain fun _ hp =>
    congrArg taggedIndex (hashLongAt_drop hp _)
  short := shiftTaggedPositions_carried f.shortHeads delta
  foundShort := (shiftTaggedPositions_carried f.shortHeads delta).foundAgain fun _ hp =>
    congrArg taggedIndex (hashSrcAtMlsBits_drop hp _ _)

/-- In a row the entry keeps its place `k`, and with it the tag, which is in a table of its own. -/
structure RowHashFinder.Rebased (src : Bytes) (delta : Nat) (f f' : RowHashFinder) : Prop where
  table : Carried (rawPosition 0) (fun _ => ()) 0 delta f.hashTable f'.hashTable
  found : ∀ k, FoundAgain (rawPosition 0) (fun _ => ()) delta (fun p => (f.rowRelRowAndTag (f.hash src p)).1 + k)
    (fun p => (f'.rowRelRowAndTag (f'.hash (src.drop delta) p)).1 + k) f.hashTable f'.hashTable
  tags : f'.tagTable = f.tagTable
  tag : ∀ p, delta ≤ p →
    (f'.rowRelRowAndTag (f'.hash (src.drop delta) (p - delta))).2 = (f.rowRelRowAndTag (f.hash src p)).2
  cursor : CursorMoved 0 delta f.nextToUpdate f'.nextToUpdate

theorem RowHashFinder.shiftPositions_rebased (src : Bytes) (delta : Nat) (f : RowHashFinder) :
    f.Rebased src delta (f.shiftPositions delta) := by
  have htable := shiftRawPositions_carried f.hashTable delta 0 (.inl rfl)
  have hhash : ∀ p, delta ≤ p → (f.shiftPositions delta).hash (src.drop delta) (p - delta) = f.hash src p :=
    fun p hp => rowHashSrcAt_drop hp _ _ _
  constructor
  · exact htable
  · intro k
    exact htable.foundAgain fun p hp => congrArg (fun h => (f.rowRelRowAndTag h).1 + k) (hhash p hp)
  · rfl
  · intro p hp
    exact congrArg (fun h => (f.rowRelRowAndTag h).2) (hhash p hp)
  · exact CursorMoved.sub delta f.nextToUpdate

/-! ## Chains -/

/-- What an entry of `previous` links to. -/
def chainLink (entry : UInt32) : Link := if entry = noPos then .nothing else .node entry.toNat

/-- The position filed before `p` under the same hash. -/
def MatchFinder.link (f : MatchFinder) (p : Nat) (_ : Unit) : Link :=
  chainLink (f.previous.getD (f.previousIndex p) noPos)

def MatchFinder.StoredBelow (f : MatchFinder) (liveEnd : Nat) : Prop :=
  ∀ e ∈ f.previous, e ≠ noPos → e.toNat < liveEnd

theorem chainLink_rebasedEntry (delta : Nat) (e : UInt32) :
    chainLink (rebasedEntry delta noPos e) = (chainLink e).moved delta delta := by
  unfold chainLink
  by_cases he : e = noPos
  · rw [he, rebasedEntry_empty, if_pos rfl, Link.moved_nothing]
  rw [if_neg he]
  rcases Nat.lt_or_ge e.toNat delta with h | h
  · rw [rebasedEntry_dropped h, if_pos rfl, Link.moved_node_below h]
  · have hnat := rebasedEntry_toNat he h
    rw [if_neg, hnat, Link.moved_node h]
    intro heq
    rw [heq, show noPos.toNat = 2 ^ 32 - 1 from rfl] at hnat
    have := e.toNat_lt
    apply he; apply UInt32.toNat_inj.1
    rw [show noPos.toNat = 2 ^ 32 - 1 from rfl]; omega

/-- The chains after the move. Every link of a retained position is the old one moved, so the walk from any link goes
through the images of the retained positions that the old walk went through, and no entry names a dropped position. -/
structure MatchFinder.Rebased (src : Bytes) (delta liveEnd : Nat) (f f' : MatchFinder) : Prop where
  heads : Carried (rawPosition noPos) (fun _ => ()) noPos delta f.heads f'.heads
  found : FoundAgain (rawPosition noPos) (fun _ => ()) delta (f.hashSrcAt src) (f'.hashSrcAt (src.drop delta))
    f.heads f'.heads
  links : ∀ p, delta ≤ p → p < liveEnd → f'.link (p - delta) () = (f.link p ()).moved delta delta
  origin : ∀ (slot : Nat) (e : UInt32), f'.previous[slot]? = some e → e ≠ noPos →
    ∃ (slot₀ : Nat) (e₀ : UInt32), f.previous[slot₀]? = some e₀ ∧ e₀ ≠ noPos ∧ e₀.toNat = e.toNat + delta
  shape : f.StoredBelow liveEnd → ∀ (path : List Unit) (l : Link), (∀ p, l = .node p → p < liveEnd) →
    follow f'.link path (l.moved delta delta) =
      (follow (fun p i => (f.link p i).above delta) path (l.above delta)).moved delta delta
  cursor : CursorMoved 0 delta f.nextToUpdate f'.nextToUpdate

theorem MatchFinder.hashSrcAt_drop {src : Bytes} {delta p : Nat} (h : delta ≤ p) {f f' : MatchFinder}
    (hbits : f'.hashBits = f.hashBits) (hmin : f'.minMatch = f.minMatch) :
    f'.hashSrcAt (src.drop delta) (p - delta) = f.hashSrcAt src p := by
  unfold MatchFinder.hashSrcAt hashAtMls
  rw [hbits, hmin, hashSrcAtMlsBits_drop h, hashAt_drop h]
  exact if_congr (hashReadSize_drop h) rfl rfl

/-- A rebased entry that names a position comes from one that named a position `delta` further on. -/
theorem rebasedEntry_origin {delta : Nat} {empty e₀ : UInt32} (h : rebasedEntry delta empty e₀ ≠ empty) :
    e₀ ≠ empty ∧ e₀.toNat = (rebasedEntry delta empty e₀).toNat + delta := by
  have he : e₀ ≠ empty := by rintro rfl; exact h (rebasedEntry_empty delta e₀)
  have hd : delta ≤ e₀.toNat := by
    by_contra hlt; exact h (rebasedEntry_dropped (by omega))
  exact ⟨he, by rw [rebasedEntry_toNat he hd]; omega⟩

/-- The index of a link is a slot of the table. -/
theorem MatchFinder.previousIndex_lt (f : MatchFinder) (p : Nat) : f.previousIndex p < f.previous.length := by
  obtain ⟨log, hlog⟩ := f.cycle
  exact and_mask_lt hlog p

theorem MatchFinder.link_eq {f : MatchFinder} {p slot : Nat} {e : UInt32} (hslot : f.previousIndex p = slot)
    (he : f.previous[slot]? = some e) (i : Unit) : f.link p i = chainLink e := by
  unfold MatchFinder.link
  rw [hslot, List.getD_eq_getElem?_getD, he, Option.getD_some]

/-- The shape follows from the links. -/
theorem MatchFinder.shape_of_links {delta liveEnd : Nat} {f f' : MatchFinder}
    (hlinks : ∀ p, delta ≤ p → p < liveEnd → f'.link (p - delta) () = (f.link p ()).moved delta delta)
    (hstored : f.StoredBelow liveEnd) : Translated delta delta liveEnd f.link f'.link where
  moved p _ hp hlive := hlinks p hp hlive
  below p _ q _ _ hq := by
    have hlt := f.previousIndex_lt p
    rw [f.link_eq rfl (List.getElem?_eq_getElem hlt)] at hq
    unfold chainLink at hq
    split at hq
    · cases hq
    · obtain rfl := Link.node.inj hq
      exact hstored _ (List.getElem_mem hlt) ‹_›

theorem MatchFinder.shiftPositions_rebased (src : Bytes) {delta : Nat} (liveEnd : Nat) (f : MatchFinder)
    (halign : delta % f.rebasePeriod = 0) : f.Rebased src delta liveEnd (f.shiftPositions delta) := by
  obtain ⟨log, hlog⟩ := f.cycle
  have hheads := shiftRawPositions_carried f.heads delta noPos (.inr rfl)
  have hprevious : (f.shiftPositions delta).previous = f.previous.map (rebasedEntry delta noPos) :=
    shiftRawPositions_eq_map f.previous delta noPos
  have hlinks : ∀ p, delta ≤ p → p < liveEnd →
      (f.shiftPositions delta).link (p - delta) () = (f.link p ()).moved delta delta := by
    intro p hp _
    have hlt := f.previousIndex_lt p
    have he := List.getElem?_eq_getElem hlt
    -- a drop of whole cycles leaves the link in its slot
    have hslot : (f.shiftPositions delta).previousIndex (p - delta) = f.previousIndex p := by
      unfold MatchFinder.previousIndex MatchFinder.chainMask
      rw [hprevious, List.length_map]
      exact and_mask_sub hlog halign hp
    rw [f.link_eq rfl he, ← chainLink_rebasedEntry]
    apply MatchFinder.link_eq hslot
    rw [hprevious, List.getElem?_map, he, Option.map_some]
  constructor
  · exact hheads
  · exact hheads.foundAgain fun _ hp => MatchFinder.hashSrcAt_drop hp rfl rfl
  · exact hlinks
  · intro slot e he hne
    rw [hprevious, List.getElem?_map, Option.map_eq_some_iff] at he
    obtain ⟨e₀, he₀, rfl⟩ := he
    exact ⟨slot, e₀, he₀, rebasedEntry_origin hne⟩
  · intro hstored
    exact (MatchFinder.shape_of_links hlinks hstored).follow_eq
  · exact CursorMoved.sub delta f.nextToUpdate

theorem MatchFinder.shiftPositionsBySlot_rebased (src : Bytes) (delta : Nat) {liveEnd : Nat} (f : MatchFinder)
    (hlive : liveEnd ≤ f.rebasePeriod) : f.Rebased src delta liveEnd (f.shiftPositionsBySlot delta) := by
  obtain ⟨log, hlog⟩ := f.cycle
  have hheads := shiftRawPositions_carried f.heads delta noPos (.inr rfl)
  have hprevious : ∀ slot : Nat, (f.shiftPositionsBySlot delta).previous[slot]? = _ := fun slot =>
    movedToFront_getElem? (fun t => shiftRawPositions t delta noPos) (rebasedEntry delta noPos)
      (fun t => shiftRawPositions_eq_map t delta noPos) (min_le_right delta f.previous.length)
  have hlength : (f.shiftPositionsBySlot delta).previous.length = f.previous.length := by
    simp only [MatchFinder.shiftPositionsBySlot, List.length_append, shiftRawPositions_length]
    rw [← List.length_append, List.take_append_drop, movedToFront_length]
  unfold MatchFinder.rebasePeriod at hlive
  have hlinks : ∀ p, delta ≤ p → p < liveEnd →
      (f.shiftPositionsBySlot delta).link (p - delta) () = (f.link p ()).moved delta delta := by
    intro p hp hlt
    -- nothing has wrapped yet: positions are slots
    have hslot : f.previousIndex p = p := and_mask_eq hlog (by omega)
    have hslot' : (f.shiftPositionsBySlot delta).previousIndex (p - delta) = p - delta := by
      unfold MatchFinder.previousIndex MatchFinder.chainMask
      rw [hlength]
      exact and_mask_eq hlog (by omega)
    have he : f.previous[p]? = some f.previous[p] := List.getElem?_eq_getElem (by omega)
    rw [f.link_eq hslot he, ← chainLink_rebasedEntry]
    apply MatchFinder.link_eq hslot'
    rw [hprevious, if_pos (by omega), show p - delta + min delta f.previous.length = p by omega, he, Option.map_some]
  constructor
  · exact hheads
  · exact hheads.foundAgain fun _ hp => MatchFinder.hashSrcAt_drop hp rfl rfl
  · exact hlinks
  · intro slot e he hne
    rw [hprevious] at he
    split_ifs at he
    · rw [Option.map_eq_some_iff] at he
      obtain ⟨e₀, he₀, rfl⟩ := he
      exact ⟨_, e₀, he₀, rebasedEntry_origin hne⟩
    · exact absurd (Option.some.inj he).symm hne
  · intro hstored
    exact (MatchFinder.shape_of_links hlinks hstored).follow_eq
  · exact CursorMoved.sub delta f.nextToUpdate


/-! ## Trees -/

/-- What a child entry links to. -/
def treeLink (entry : UInt32) : Link :=
  if entry = 0 then .nothing else if entry = dubtUnsortedMark then .mark else .node entry.toNat

/-- A child of the node at index `i`, the smaller or the larger one. -/
def BinaryTreeFinder.child (f : BinaryTreeFinder) (i : Nat) (larger : Bool) : Link :=
  treeLink (f.children.getD (2 * (i &&& f.btMask) + larger.toNat) 0)

def BinaryTreeFinder.StoredBelow (f : BinaryTreeFinder) (liveEnd : Nat) : Prop :=
  ∀ e ∈ f.children, e ≠ 0 → e ≠ dubtUnsortedMark → e ≠ noPos ∧ e.toNat < liveEnd

theorem treeLink_rebased {delta : Nat} {e : UInt32} (hne : e ≠ noPos) :
    treeLink (rebasedUnlessMark delta 0 dubtUnsortedMark e) = (treeLink e).moved (delta + 1) delta := by
  unfold treeLink rebasedUnlessMark
  by_cases hm : e = dubtUnsortedMark
  · rw [if_pos hm, if_neg (by decide), if_pos rfl, if_neg (by rw [hm]; decide), if_pos hm, Link.moved_mark]
  rw [if_neg hm]
  by_cases he : e = 0
  · rw [he, rebasedEntry_empty, if_pos rfl, Link.moved_nothing]
  rw [if_neg he, if_neg hm]
  rcases Nat.lt_or_ge e.toNat delta with h | h
  · rw [rebasedEntry_dropped h, if_pos rfl, Link.moved_node_below (by omega)]
  have hnat := rebasedEntry_toNat he h
  rcases Nat.eq_or_lt_of_le h with h | h
  · -- the index that becomes zero ends a tree like an empty child
    rw [if_pos, Link.moved_node_below (by omega)]
    apply UInt32.toNat_inj.1
    rw [hnat, show (0 : UInt32).toNat = 0 from rfl]; omega
  · have hlt := e.toNat_lt
    have hzero : rebasedEntry delta 0 e ≠ 0 := by
      intro heq
      rw [heq, show (0 : UInt32).toNat = 0 from rfl] at hnat; omega
    have hmark : rebasedEntry delta 0 e ≠ dubtUnsortedMark := by
      intro heq
      rw [heq, show dubtUnsortedMark.toNat = 2 ^ 32 - 2 from rfl] at hnat
      have hm' : e.toNat ≠ 2 ^ 32 - 2 := fun h' => hm (UInt32.toNat_inj.1 h')
      have hn' : e.toNat ≠ 2 ^ 32 - 1 := fun h' => hne (UInt32.toNat_inj.1 h')
      omega
    rw [if_neg hzero, if_neg hmark, hnat, Link.moved_node (by omega)]

/-- The trees after the move, over indices. Every child of a retained node is the old one moved, the unsorted marks
included, so a path down a tree goes through the images of the retained nodes that it went through before. -/
structure BinaryTreeFinder.Rebased (src : Bytes) (delta liveEnd : Nat) (f f' : BinaryTreeFinder) : Prop where
  heads : Carried (rawPosition 0) (fun _ => ()) 0 delta f.heads f'.heads
  found : FoundAgain (rawPosition 0) (fun _ => ()) delta (f.hashSrcAt src) (f'.hashSrcAt (src.drop delta))
    f.heads f'.heads
  children : f.StoredBelow liveEnd → ∀ (i : Nat) (larger : Bool), delta ≤ i → i < liveEnd →
    f'.child (i - delta) larger = (f.child i larger).moved (delta + 1) delta
  origin : ∀ (slot : Nat) (e : UInt32), f'.children[slot]? = some e → e ≠ 0 → e ≠ dubtUnsortedMark →
    ∃ (slot₀ : Nat) (e₀ : UInt32), f.children[slot₀]? = some e₀ ∧ e₀ ≠ 0 ∧ e₀.toNat = e.toNat + delta
  shape : f.StoredBelow liveEnd → ∀ (path : List Bool) (l : Link), (∀ i, l = .node i → i < liveEnd) →
    follow f'.child path (l.moved (delta + 1) delta) =
      (follow (fun i larger => (f.child i larger).above (delta + 1)) path (l.above (delta + 1))).moved (delta + 1) delta
  padding : ∀ (slot : Nat) (e : UInt32) (p bias : Nat), f.heads[slot]? = some e → e.toNat = p + bias → p < delta →
    ∃ e', f'.heads[slot]? = some e' ∧ e'.toNat ≤ bias - 1
  cursor : CursorMoved 2 delta f.nextToUpdate f'.nextToUpdate

/-- The head of a tree whose positions are stored `bias` higher: what named a dropped byte falls into the padding. -/
theorem shiftRawPositions_padding {heads : List UInt32} {delta slot p bias : Nat} {e : UInt32}
    (he : heads[slot]? = some e) (hp : e.toNat = p + bias) (hd : p < delta) :
    ∃ e', (shiftRawPositions heads delta 0)[slot]? = some e' ∧ e'.toNat ≤ bias - 1 := by
  refine ⟨rebasedEntry delta 0 e, by rw [shiftRawPositions_eq_map, List.getElem?_map, he, Option.map_some], ?_⟩
  by_cases h0 : e = 0
  · rw [h0, rebasedEntry_empty]; exact Nat.zero_le _
  rcases Nat.lt_or_ge e.toNat delta with h | h
  · rw [rebasedEntry_dropped h]; exact Nat.zero_le _
  · rw [rebasedEntry_toNat h0 h]; omega

theorem BinaryTreeFinder.hashSrcAt_drop {src : Bytes} {delta p : Nat} (h : delta ≤ p) {f f' : BinaryTreeFinder}
    (hbits : f'.hashBits = f.hashBits) (hmin : f'.minMatch = f.minMatch) :
    f'.hashSrcAt (src.drop delta) (p - delta) = f.hashSrcAt src p := by
  unfold BinaryTreeFinder.hashSrcAt hashAtMls
  rw [hbits, hmin, hashSrcAtMlsBits_drop h, hashAt_drop h]
  exact if_congr (hashReadSize_drop h) rfl rfl

theorem BinaryTreeFinder.childIndex_lt (f : BinaryTreeFinder) (i : Nat) (larger : Bool) :
    2 * (i &&& f.btMask) + larger.toNat < f.children.length := by
  obtain ⟨log, hlog⟩ := f.cycle
  have hlt := and_mask_lt hlog i
  have hside : larger.toNat ≤ 1 := Bool.toNat_le larger
  rw [Nat.add_sub_cancel] at hlt
  rw [f.twoChildren]; omega

theorem BinaryTreeFinder.child_eq {f : BinaryTreeFinder} {i slot : Nat} {larger : Bool} {e : UInt32}
    (hslot : 2 * (i &&& f.btMask) + larger.toNat = slot) (he : f.children[slot]? = some e) :
    f.child i larger = treeLink e := by
  unfold BinaryTreeFinder.child
  rw [hslot, List.getD_eq_getElem?_getD, he, Option.getD_some]

theorem BinaryTreeFinder.StoredBelow.ne_noPos {f : BinaryTreeFinder} {liveEnd : Nat} (h : f.StoredBelow liveEnd)
    {e : UInt32} (he : e ∈ f.children) : e ≠ noPos := by
  by_cases h0 : e = 0
  · rw [h0]; decide
  by_cases hm : e = dubtUnsortedMark
  · rw [hm]; decide
  · exact (h e he h0 hm).1

theorem BinaryTreeFinder.translated {delta liveEnd : Nat} {f f' : BinaryTreeFinder}
    (hchildren : ∀ (i : Nat) (larger : Bool), delta ≤ i → i < liveEnd →
      f'.child (i - delta) larger = (f.child i larger).moved (delta + 1) delta)
    (hstored : f.StoredBelow liveEnd) : Translated (delta + 1) delta liveEnd f.child f'.child where
  moved i larger hi hlive := hchildren i larger (by omega) hlive
  below i larger q _ _ hq := by
    have hlt := f.childIndex_lt i larger
    rw [f.child_eq rfl (List.getElem?_eq_getElem hlt)] at hq
    unfold treeLink at hq
    split_ifs at hq with h0 hm
    obtain rfl := Link.node.inj hq
    exact (hstored _ (List.getElem_mem hlt) h0 hm).2

/-- An entry that names an index comes from one that named an index `delta` further on. -/
theorem rebasedUnlessMark_origin {delta : Nat} {empty mark e₀ : UInt32}
    (h : rebasedUnlessMark delta empty mark e₀ ≠ empty) (hm : rebasedUnlessMark delta empty mark e₀ ≠ mark) :
    e₀ ≠ empty ∧ e₀.toNat = (rebasedUnlessMark delta empty mark e₀).toNat + delta := by
  unfold rebasedUnlessMark at h hm ⊢
  by_cases hmark : e₀ = mark
  · exact absurd (if_pos hmark) hm
  · rw [if_neg hmark] at h ⊢
    exact rebasedEntry_origin h

theorem BinaryTreeFinder.shiftPositions_rebased (src : Bytes) {delta : Nat} (liveEnd : Nat) (f : BinaryTreeFinder)
    (halign : delta % f.rebasePeriod = 0) : f.Rebased src delta liveEnd (f.shiftPositions delta) := by
  obtain ⟨log, hlog⟩ := f.cycle
  have hheads := shiftRawPositions_carried f.heads delta 0 (.inl rfl)
  have hshifted : (f.shiftPositions delta).children = f.children.map (rebasedUnlessMark delta 0 dubtUnsortedMark) :=
    shiftRawPositionsPreserving_eq_map f.children delta 0 dubtUnsortedMark
  have hchildren : f.StoredBelow liveEnd → ∀ (i : Nat) (larger : Bool), delta ≤ i → i < liveEnd →
      (f.shiftPositions delta).child (i - delta) larger = (f.child i larger).moved (delta + 1) delta := by
    intro hstored i larger hi _
    have hlt := f.childIndex_lt i larger
    have he := List.getElem?_eq_getElem hlt
    -- a drop of whole cycles leaves a node's children in their slots
    have hslot : (i - delta) &&& f.btMask = i &&& f.btMask := and_mask_sub hlog halign hi
    rw [f.child_eq rfl he, ← treeLink_rebased (hstored.ne_noPos (List.getElem_mem hlt))]
    apply BinaryTreeFinder.child_eq (show _ = 2 * (i &&& f.btMask) + larger.toNat from ?_)
    · rw [hshifted, List.getElem?_map, he, Option.map_some]
    · rw [← hslot]; rfl
  constructor
  · exact hheads
  · exact hheads.foundAgain fun _ hp => BinaryTreeFinder.hashSrcAt_drop hp rfl rfl
  · exact hchildren
  · intro slot e he hne hm
    rw [hshifted, List.getElem?_map, Option.map_eq_some_iff] at he
    obtain ⟨e₀, he₀, rfl⟩ := he
    exact ⟨slot, e₀, he₀, rebasedUnlessMark_origin hne hm⟩
  · intro hstored
    exact (BinaryTreeFinder.translated (hchildren hstored) hstored).follow_eq
  · intro slot e p bias
    exact shiftRawPositions_padding
  · exact CursorMoved.max_sub 2 delta f.nextToUpdate

theorem BinaryTreeFinder.shiftPositionsBySlot_rebased (src : Bytes) (delta : Nat) {liveEnd : Nat} (f : BinaryTreeFinder)
    (hlive : liveEnd ≤ f.rebasePeriod) : f.Rebased src delta liveEnd (f.shiftPositionsBySlot delta) := by
  obtain ⟨log, hlog⟩ := f.cycle
  have hheads := shiftRawPositions_carried f.heads delta 0 (.inl rfl)
  have hshifted : ∀ slot : Nat, (f.shiftPositionsBySlot delta).children[slot]? = _ := fun slot =>
    movedToFront_getElem? (fun t => shiftRawPositionsPreserving t delta 0 dubtUnsortedMark)
      (rebasedUnlessMark delta 0 dubtUnsortedMark)
      (fun t => shiftRawPositionsPreserving_eq_map t delta 0 dubtUnsortedMark)
      (min_le_right (2 * delta) f.children.length)
  unfold BinaryTreeFinder.rebasePeriod at hlive
  have hlength := f.twoChildren
  have hchildren : f.StoredBelow liveEnd → ∀ (i : Nat) (larger : Bool), delta ≤ i → i < liveEnd →
      (f.shiftPositionsBySlot delta).child (i - delta) larger = (f.child i larger).moved (delta + 1) delta := by
    intro hstored i larger hi hlt
    have hside : larger.toNat ≤ 1 := Bool.toNat_le larger
    -- nothing has wrapped yet: the slots of an index are twice the index
    have hmask : i &&& f.btMask = i := and_mask_eq hlog (by omega)
    have hmask' : (i - delta) &&& f.btMask = i - delta := and_mask_eq hlog (by omega)
    have hbound : 2 * i + larger.toNat < f.children.length := by omega
    have he := List.getElem?_eq_getElem hbound
    rw [f.child_eq (by rw [hmask]) he, ← treeLink_rebased (hstored.ne_noPos (List.getElem_mem hbound))]
    apply BinaryTreeFinder.child_eq (show _ = 2 * (i - delta) + larger.toNat from ?_)
    · rw [hshifted, if_pos (by omega)]
      rw [show 2 * (i - delta) + larger.toNat + min (2 * delta) f.children.length = 2 * i + larger.toNat by omega]
      rw [he, Option.map_some]
    · exact congrArg (2 * · + larger.toNat) hmask'
  constructor
  · exact hheads
  · exact hheads.foundAgain fun _ hp => BinaryTreeFinder.hashSrcAt_drop hp rfl rfl
  · exact hchildren
  · intro slot e he hne hm
    rw [hshifted] at he
    split_ifs at he
    · rw [Option.map_eq_some_iff] at he
      obtain ⟨e₀, he₀, rfl⟩ := he
      exact ⟨_, e₀, he₀, rebasedUnlessMark_origin hne hm⟩
    · exact absurd (Option.some.inj he).symm hne
  · intro hstored
    exact (BinaryTreeFinder.translated (hchildren hstored) hstored).follow_eq
  · intro slot e p bias
    exact shiftRawPositions_padding
  · exact CursorMoved.max_sub 2 delta f.nextToUpdate

/-! ## The match state -/

/-- The finder of a state after the move is of the same kind, and rebased. -/
def ContiguousBlockMatchStateInner.Rebased (src : Bytes) (delta liveEnd : Nat) :
    ContiguousBlockMatchStateInner → ContiguousBlockMatchStateInner → Prop
  | .chain f, .chain f' => f.Rebased src delta liveEnd f'
  | .fast f, .fast f' => f.Rebased src delta f'
  | .wideFast f, .wideFast f' => f.Rebased src delta f'
  | .doubleFast f, .doubleFast f' => f.Rebased src delta f'
  | .wideDoubleFast f, .wideDoubleFast f' => f.Rebased src delta f'
  | .row f, .row f' => f.Rebased src delta f'
  | .binaryTree f, .binaryTree f' => f.Rebased src delta liveEnd f'
  | _, _ => False

structure ContiguousBlockMatchState.Rebased (src : Bytes) (delta liveEnd : Nat) (m m' : ContiguousBlockMatchState) :
    Prop where
  finder : m.inner.Rebased src delta liveEnd m'.inner
  cursor : CursorMoved 0 delta m.fastTableNextToUpdate m'.fastTableNextToUpdate
  builtWith : m'.builtWith = m.builtWith
  wideEntries : m'.wideEntries = m.wideEntries

/-- One of the two routes applies whenever `shift_positions` returns true. -/
theorem ContiguousBlockMatchState.shiftPositions_eq_some {m m' : ContiguousBlockMatchState} {delta liveEnd : Nat} :
    m.shiftPositions delta liveEnd = some m' ↔ (liveEnd ≤ m.rebasePeriod ∨ delta % m.rebasePeriod = 0) ∧
      m' = { m with
        fastTableNextToUpdate := m.fastTableNextToUpdate - delta
        inner := m.inner.shiftPositions delta (liveEnd ≤ m.rebasePeriod) } := by
  unfold shiftPositions
  split
  · constructor
    · intro h; cases h
    · rintro ⟨h, -⟩; omega
  · constructor
    · intro h; exact ⟨by omega, (Option.some.inj h).symm⟩
    · rintro ⟨-, rfl⟩; rfl

/-- Whenever a state says that it has rebased its finder, the finder goes on describing the same bytes. -/
theorem shift_positions_keeps_describing {m m' : ContiguousBlockMatchState} {delta liveEnd : Nat} (src : Bytes)
    (h : m.shiftPositions delta liveEnd = some m') : m.Rebased src delta liveEnd m' := by
  obtain ⟨hroute, rfl⟩ := ContiguousBlockMatchState.shiftPositions_eq_some.1 h
  refine ⟨?_, CursorMoved.sub delta m.fastTableNextToUpdate, rfl, rfl⟩
  unfold ContiguousBlockMatchState.rebasePeriod at hroute ⊢
  cases hinner : m.inner with
  | fast f => exact f.shiftPositions_rebased src delta
  | wideFast f => exact f.shiftPositions_rebased src delta
  | doubleFast f => exact f.shiftPositions_rebased src delta
  | wideDoubleFast f => exact f.shiftPositions_rebased src delta
  | row f => exact f.shiftPositions_rebased src delta
  | chain f =>
    rw [hinner] at hroute
    by_cases hslot : liveEnd ≤ f.rebasePeriod
    · simp only [ContiguousBlockMatchStateInner.shiftPositions, ContiguousBlockMatchStateInner.rebasePeriod, hslot,
        decide_true, if_true]
      exact f.shiftPositionsBySlot_rebased src delta hslot
    · simp only [ContiguousBlockMatchStateInner.shiftPositions, ContiguousBlockMatchStateInner.rebasePeriod, hslot,
        decide_false, Bool.false_eq_true, if_false]
      exact f.shiftPositions_rebased src liveEnd (hroute.resolve_left hslot)
  | binaryTree f =>
    rw [hinner] at hroute
    by_cases hslot : liveEnd ≤ f.rebasePeriod
    · simp only [ContiguousBlockMatchStateInner.shiftPositions, ContiguousBlockMatchStateInner.rebasePeriod, hslot,
        decide_true, if_true]
      exact f.shiftPositionsBySlot_rebased src delta hslot
    · simp only [ContiguousBlockMatchStateInner.shiftPositions, ContiguousBlockMatchStateInner.rebasePeriod, hslot,
        decide_false, Bool.false_eq_true, if_false]
      exact f.shiftPositions_rebased src liveEnd (hroute.resolve_left hslot)

/-- A tree of an optimal parser over twelve bytes, with a cycle of four. Byte 8 heads it, two indices higher; below it
is byte 6 beside a mark, and below that one byte that four dropped leave and one that they do not. -/
def retainedTree : BinaryTreeFinder where
  heads := [10]
  children := [6, 3, 0, 0, 8, dubtUnsortedMark, 0, 0]
  hashBits := 0
  minMatch := 4
  btMask := 3
  defaultSearchDepth := 32
  nextToUpdate := 11
  prefixLen := 0
  windowLog := 31
  cycle := ⟨2, rfl⟩
  twoChildren := rfl

/-- The same tree in a cycle of sixteen, which it has not been round yet. -/
def unwrappedTree : BinaryTreeFinder where
  heads := [10]
  children := List.replicate 16 0 ++ [6, 3, 0, 0, 8, dubtUnsortedMark] ++ List.replicate 10 0
  hashBits := 0
  minMatch := 4
  btMask := 15
  defaultSearchDepth := 32
  nextToUpdate := 11
  prefixLen := 0
  windowLog := 31
  cycle := ⟨4, rfl⟩
  twoChildren := rfl

def fourNodeParameters : MatchFinderParameters :=
  ⟨.binaryTreeOpt, 0, 3, 0, 0, 4, 1, 32, 0, 0, 0, 8, 4, 4, 0, 0, 0, false, true, 10, false, none, none, none, 0⟩

def treeState (f : BinaryTreeFinder) : ContiguousBlockMatchState := ⟨.binaryTree f, 0, fourNodeParameters, false⟩

/-- One cycle dropped of the first tree, and three bytes, slot by slot, of the second: the head, its child and the mark
move with their bytes, and of the two below the one that is dropped is gone. -/
theorem shift_positions_keeps_describing_trees : ∃ m₁ m₂ f₁ f₂,
    (treeState retainedTree).shiftPositions 4 12 = some m₁ ∧ m₁.inner = .binaryTree f₁ ∧
    (treeState unwrappedTree).shiftPositions 3 12 = some m₂ ∧ m₂.inner = .binaryTree f₂ ∧
    (treeState retainedTree).Rebased ((List.range 12).map UInt8.ofNat) 4 12 m₁ ∧
    (treeState unwrappedTree).Rebased ((List.range 12).map UInt8.ofNat) 3 12 m₂ ∧
    f₁.heads = [6] ∧ f₁.child 6 false = .node 4 ∧ f₁.child 6 true = .mark ∧
    f₁.child 4 false = .node 2 ∧ f₁.child 4 true = .nothing ∧
    f₂.heads = [7] ∧ f₂.child 7 false = .node 5 ∧ f₂.child 7 true = .mark ∧
    f₂.child 5 false = .node 3 ∧ f₂.child 5 true = .nothing := by
  refine ⟨_, _, _, _, rfl, rfl, rfl, rfl, shift_positions_keeps_describing _ rfl,
    shift_positions_keeps_describing _ rfl, ?_⟩
  exact ⟨rfl, rfl, rfl, rfl, rfl, rfl, rfl, rfl, rfl, rfl⟩

/-- A tree of an optimal parser over nine bytes, with a cycle of four: only byte 3 is filed, two indices higher. -/
def fourNodeTree : BinaryTreeFinder where
  heads := [5]
  children := [0, 0, 0, 0, 0, 0, 0, 0]
  hashBits := 0
  minMatch := 4
  btMask := 3
  defaultSearchDepth := 32
  nextToUpdate := 4
  prefixLen := 0
  windowLog := 31
  cycle := ⟨2, rfl⟩
  twoChildren := rfl

def fourNodeState : ContiguousBlockMatchState := treeState fourNodeTree

/-- Dropping four bytes, the cursor steps over byte 5, which is retained and was not filed, and the entry of byte 3,
which is dropped, does not become the empty one. -/
theorem shift_positions_padding_skipped : ∃ m' f', fourNodeState.shiftPositions 4 9 = some m' ∧
    m'.inner = .binaryTree f' ∧
    (fourNodeTree.nextToUpdate ≤ 5 ∧ 4 < 5 ∧ 5 < 9 ∧ 5 - 4 < f'.nextToUpdate) ∧
    (∃ e e' : UInt32, fourNodeTree.heads[0]? = some e ∧ e.toNat = 3 + 2 ∧ f'.heads[0]? = some e' ∧ e' ≠ 0) := by
  refine ⟨_, fourNodeTree.shiftPositions 4, rfl, rfl, by decide, 5, 1, rfl, rfl, ?_, by decide⟩
  decide

end Zstandard
