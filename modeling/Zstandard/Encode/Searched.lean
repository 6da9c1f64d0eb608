/-
What one step of long-distance matching does.

Every position in the table is that of a window hashed below the frontier (`LdmTable.Filed`), so a candidate lies
before the split that looks it up, and counting from the two stays within the bytes searched. What the scan of a
bucket settles on is a genuine match (`Genuine`): its bytes are those its offset before it, above the window's floor.
-/
import Zstandard.Encode.LongDistance
import Zstandard.Encode.LayDown

namespace Zstandard

namespace Ldm

/-! ## Positions filed -/

/-- Every position in the table is that of a window below the frontier. A zeroed entry is none. -/
def LdmTable.Filed (t : LdmTable) (minMatch frontier : Nat) : Prop :=
  ∀ entry ∈ t.entries, entry.offset = 0 ∨ entry.offset + minMatch ≤ frontier

namespace LdmTable

variable {t : LdmTable} {minMatch frontier : Nat}

theorem new_filed (params : LdmParameters) (minMatch frontier : Nat) :
    (LdmTable.new params).Filed minMatch frontier := by
  intro entry hmem
  rw [List.eq_of_mem_replicate hmem]
  exact .inl rfl

theorem Filed.mono {frontier' : Nat} (h : t.Filed minMatch frontier) (hle : frontier ≤ frontier') :
    t.Filed minMatch frontier' := by
  intro entry hmem
  rcases h entry hmem with h0 | h0
  · exact .inl h0
  · exact .inr (by omega)

theorem Filed.insert (h : t.Filed minMatch frontier) {hash split : Nat} {xxhash : UInt64}
    (hsplit : split + minMatch ≤ frontier) : (t.insert hash (entryOf split xxhash)).Filed minMatch frontier := by
  intro entry hmem
  rcases List.mem_or_eq_of_mem_set hmem with hmem | rfl
  · exact h entry hmem
  · have hle : split % 2 ^ 32 ≤ split := Nat.mod_le _ _
    exact .inr (by simp only [entryOf]; omega)

/-- Rebased by what was dropped, the positions are below the frontier of what is left. -/
theorem Filed.reduce (h : t.Filed minMatch frontier) (dropped : Nat) :
    (t.reduce dropped).Filed minMatch (frontier - dropped) := by
  intro entry hmem
  obtain ⟨old, hold, rfl⟩ := List.mem_map.mp hmem
  simp only
  rcases h old hold with h0 | h0
  · exact .inl (by omega)
  · rcases Nat.lt_or_ge dropped old.offset with hlt | hge
    · exact .inr (by omega)
    · exact .inl (by omega)

theorem Filed.bucket (h : t.Filed minMatch frontier) {hash : Nat} {entry : LdmEntry} (hmem : entry ∈ t.bucket hash) :
    entry.offset = 0 ∨ entry.offset + minMatch ≤ frontier :=
  h entry (List.mem_of_mem_drop (List.mem_of_mem_take hmem))

end LdmTable

/-! ## Genuine matches -/

/-- A match of `length` bytes at `start`, ending by `stop`: it repeats what lies `offset` before it, at
`low` or above. -/
structure Genuine (data : Bytes) (low stop start length offset : Nat) : Prop where
  offset_pos : 0 < offset
  low_le : low + offset ≤ start
  stop_le : start + length ≤ stop
  bytes : ∀ i < length, data[start + i]? = data[start - offset + i]?

namespace Genuine

variable {data : Bytes} {low stop start length offset : Nat}

theorem mono {stop' : Nat} (h : Genuine data low stop start length offset) (hle : stop ≤ stop') :
    Genuine data 0 stop' start length offset :=
  ⟨h.offset_pos, by have := h.low_le; omega, h.stop_le.trans hle, h.bytes⟩

/-- The bytes in front of the data may be put back. -/
theorem prepend (h : Genuine data 0 stop start length offset) (gone : Bytes) :
    Genuine (gone ++ data) 0 (gone.length + stop) (gone.length + start) length offset := by
  have hle := h.low_le
  have hstop := h.stop_le
  refine ⟨h.offset_pos, by omega, by omega, fun i hi => ?_⟩
  rw [List.getElem?_append_right (by omega), List.getElem?_append_right (by omega)]
  have hi := h.bytes i hi
  rw [show gone.length + start + i - gone.length = start + i by omega,
    show gone.length + start - offset + i - gone.length = start - offset + i by omega]
  exact hi

/-- A decoder that has the bytes before the match gets those of the match by copying. -/
theorem copy_eq (h : Genuine data low stop start length offset) (hstop : stop ≤ data.length) :
    Lz.copy (data.take start) offset length = data.take (start + length) := by
  have hlow := h.low_le
  have hle := h.stop_le
  have hlength : (data.take start).length = start := List.length_take_of_le (by omega)
  symm
  refine Lz.IsCopy.eq_copy h.offset_pos (by omega) ⟨by simp only [List.length_take]; omega, fun i hi => ?_,
    fun i hi hi' => ?_⟩
  · rw [hlength] at hi
    rw [List.getElem?_take_of_lt (by omega), List.getElem?_take_of_lt hi]
  · rw [hlength] at hi hi'
    rw [List.getElem?_take_of_lt hi', List.getElem?_take_of_lt (by omega)]
    have hbytes := h.bytes (i - start) (by omega)
    rwa [show start + (i - start) = i by omega, show start - offset + (i - start) = i - offset by omega] at hbytes

end Genuine

/-! ## Counting -/

theorem subIndex_of_le {a b : Nat} (h : b ≤ a) : subIndex a b = .ok (a - b) := if_pos h

section
variable (byte : Nat → Result UInt8) {pos matchPos : Nat}

theorem countForwardsLoop_ok {stop : Nat} (hbyte : ∀ p < stop, ∃ b, byte p = .ok b) (hlt : matchPos < pos) :
    ∀ fuel count : Nat, pos + count ≤ stop → stop < pos + count + fuel →
    ∃ n, countForwardsLoop byte pos matchPos stop fuel count = .ok n ∧ count ≤ n ∧ pos + n ≤ stop ∧
      ∀ i, count ≤ i → i < n → byte (pos + i) = byte (matchPos + i)
  | 0, count, hle, hfuel => by omega
  | fuel + 1, count, hle, hfuel => by
    unfold countForwardsLoop
    by_cases hin : pos + count < stop
    · obtain ⟨a, ha⟩ := hbyte _ hin
      obtain ⟨b, hb⟩ := hbyte (matchPos + count) (by omega)
      rw [if_pos hin]
      simp only [ha, hb, bind, Except.bind]
      by_cases hab : a = b
      · rw [if_pos hab]
        obtain ⟨n, hn, hcount, hstop, heq⟩ := countForwardsLoop_ok hbyte hlt fuel (count + 1)
          (by omega) (by omega)
        refine ⟨n, hn, by omega, hstop, fun i hi hi' => ?_⟩
        rcases Nat.eq_or_lt_of_le hi with rfl | hlt
        · rw [ha, hb, hab]
        · exact heq i hlt hi'
      · rw [if_neg hab]
        exact ⟨count, rfl, le_refl _, hle, fun i hi hi' => by omega⟩
    · rw [if_neg hin]
      exact ⟨count, rfl, le_refl _, hle, fun i hi hi' => by omega⟩

theorem countBackwardsLoop_ok (anchor windowLow : Nat) (hbyte : ∀ p < pos, ∃ b, byte p = .ok b) (hlt : matchPos < pos) :
    ∀ fuel count : Nat, anchor + count ≤ pos → windowLow + count ≤ matchPos → pos < anchor + count + fuel →
    ∃ n, countBackwardsLoop byte pos anchor matchPos windowLow fuel count = .ok n ∧ count ≤ n ∧ anchor + n ≤ pos ∧
      windowLow + n ≤ matchPos ∧ ∀ i, count ≤ i → i < n → byte (pos - i - 1) = byte (matchPos - i - 1)
  | 0, count, hanchor, hlow, hfuel => by omega
  | fuel + 1, count, hanchor, hlow, hfuel => by
    have hstay : ∃ n, (.ok count : Result Nat) = .ok n ∧ count ≤ n ∧ anchor + n ≤ pos ∧ windowLow + n ≤ matchPos ∧
        ∀ i, count ≤ i → i < n → byte (pos - i - 1) = byte (matchPos - i - 1) :=
      ⟨count, rfl, le_refl _, hanchor, hlow, fun i hi hi' => by omega⟩
    unfold countBackwardsLoop
    simp only [subIndex_of_le (show count ≤ pos by omega), subIndex_of_le (show count ≤ matchPos by omega), bind,
      Except.bind]
    by_cases hhere : pos - count > anchor
    · rw [if_pos hhere]
      by_cases hthere : matchPos - count > windowLow
      · obtain ⟨a, ha⟩ := hbyte (pos - count - 1) (by omega)
        obtain ⟨b, hb⟩ := hbyte (matchPos - count - 1) (by omega)
        rw [if_pos hthere]
        simp only [ha, hb]
        by_cases hab : a = b
        · rw [if_pos hab]
          obtain ⟨n, hn, hcount, hanchor', hlow', heq⟩ := countBackwardsLoop_ok anchor windowLow hbyte
            hlt fuel (count + 1) (by omega) (by omega) (by omega)
          refine ⟨n, hn, by omega, hanchor', hlow', fun i hi hi' => ?_⟩
          rcases Nat.eq_or_lt_of_le hi with rfl | hlt
          · rw [ha, hb, hab]
          · exact heq i hlt hi'
        · rw [if_neg hab]
          exact hstay
      · rw [if_neg hthere]
        exact hstay
    · rw [if_neg hhere]
      exact hstay

end

namespace LdmSource

/-- The bytes searched, in the one index space. -/
def joint (s : LdmSource) : Bytes := s.dictionary ++ s.frame

variable {s : LdmSource}

theorem length_joint : s.joint.length = s.len := List.length_append

theorem byteAt_eq {slice : Bytes} {i : Nat} (h : i < slice.length) : byteAt slice i = .ok slice[i] := by
  unfold byteAt
  rw [List.getElem?_eq_getElem h]

theorem byte_eq {pos : Nat} (h : pos < s.joint.length) : s.byte pos = .ok s.joint[pos] := by
  unfold byte
  unfold joint at h ⊢
  rw [List.length_append] at h
  split
  · rename_i hle
    rw [byteAt_eq (by omega), List.getElem_append_right hle]
  · rename_i hlt
    rw [byteAt_eq (by omega), List.getElem_append_left (by omega)]

theorem frame_eq {pos : Nat} (h : s.frameStart + pos < s.joint.length) :
    byteAt s.frame pos = .ok s.joint[s.frameStart + pos] := by
  have hbyte := byte_eq h
  unfold byte frameStart at *
  rw [if_pos (by omega), Nat.add_sub_cancel_left] at hbyte
  exact hbyte

/-- Two reads that agree are two bytes that agree. -/
theorem getElem?_of_byte {p q : Nat} (hp : p < s.joint.length) (hq : q < s.joint.length) (h : s.byte p = s.byte q) :
    s.joint[p]? = s.joint[q]? := by
  rw [byte_eq hp, byte_eq hq, Except.ok.injEq] at h
  rw [List.getElem?_eq_getElem hp, List.getElem?_eq_getElem hq, h]

theorem getElem?_of_frame {p q : Nat} (hp : s.frameStart + p < s.joint.length) (hq : s.frameStart + q < s.joint.length)
    (h : byteAt s.frame p = byteAt s.frame q) : s.joint[s.frameStart + p]? = s.joint[s.frameStart + q]? := by
  rw [frame_eq hp, frame_eq hq, Except.ok.injEq] at h
  rw [List.getElem?_eq_getElem hp, List.getElem?_eq_getElem hq, h]

theorem frameRange_ok (start stop : Nat) (h0 : s.frameStart ≤ start) (hle : start ≤ stop) (hstop : stop ≤ s.len) :
    ∃ data, s.frameRange start stop = .ok data ∧ data.length = stop - start := by
  unfold frameRange frameStart len at *
  simp only [subIndex_of_le (show s.dictionary.length ≤ start by omega),
    subIndex_of_le (show s.dictionary.length ≤ stop by omega), bind, Except.bind]
  rw [if_pos (by omega)]
  refine ⟨_, rfl, ?_⟩
  rw [List.length_take_of_le (by rw [List.length_drop]; omega)]
  omega

theorem countForwards_ok {pos matchPos stop : Nat} (hlt : matchPos < pos) (hpos : s.frameStart ≤ pos) (hle : pos ≤ stop)
    (hstop : stop ≤ s.len) : ∃ n, s.countForwards pos matchPos stop = .ok n ∧ pos + n ≤ stop ∧
      ∀ i < n, s.joint[pos + i]? = s.joint[matchPos + i]? := by
  rw [← length_joint] at hstop
  unfold countForwards
  by_cases hframe : matchPos ≥ s.frameStart
  · rw [if_pos hframe]
    simp only [subIndex_of_le hpos, subIndex_of_le hframe, subIndex_of_le (hpos.trans hle), bind, Except.bind]
    obtain ⟨n, hn, -, hn', heq⟩ := countForwardsLoop_ok (byteAt s.frame)
      (fun p (hp : p < stop - s.frameStart) => ⟨_, frame_eq (by omega)⟩)
      (show matchPos - s.frameStart < pos - s.frameStart by omega) (stop - s.frameStart - (pos - s.frameStart) + 1) 0
      (by omega) (by omega)
    refine ⟨n, hn, by omega, fun i hi => ?_⟩
    have hbytes := getElem?_of_frame (by omega) (by omega) (heq i (Nat.zero_le _) hi)
    rwa [show s.frameStart + (pos - s.frameStart + i) = pos + i by omega,
      show s.frameStart + (matchPos - s.frameStart + i) = matchPos + i by omega] at hbytes
  · rw [if_neg hframe]
    obtain ⟨n, hn, -, hn', heq⟩ := countForwardsLoop_ok s.byte (fun p (hp : p < stop) => ⟨_, byte_eq (by omega)⟩) hlt
      (stop - pos + 1) 0 (by omega) (by omega)
    exact ⟨n, hn, by omega, fun i hi => getElem?_of_byte (by omega) (by omega) (heq i (Nat.zero_le _) hi)⟩

theorem countBackwards_ok (windowLow : Nat) {pos anchor matchPos : Nat} (hlt : matchPos < pos)
    (hanchor : s.frameStart ≤ anchor) (hle : anchor ≤ pos) (hlow : windowLow ≤ matchPos) (hpos : pos ≤ s.len) :
    ∃ n, s.countBackwards pos anchor matchPos windowLow = .ok n ∧ anchor + n ≤ pos ∧ windowLow + n ≤ matchPos ∧
      ∀ i < n, s.joint[pos - i - 1]? = s.joint[matchPos - i - 1]? := by
  rw [← length_joint] at hpos
  unfold countBackwards
  by_cases hframe : windowLow ≥ s.frameStart
  · rw [if_pos hframe]
    simp only [subIndex_of_le (hanchor.trans hle), subIndex_of_le hanchor, subIndex_of_le hframe,
      subIndex_of_le (hframe.trans hlow), bind, Except.bind]
    obtain ⟨n, hn, -, hn', hlow', heq⟩ := countBackwardsLoop_ok (byteAt s.frame)
      (anchor - s.frameStart) (windowLow - s.frameStart)
      (fun p (hp : p < pos - s.frameStart) => ⟨_, frame_eq (by omega)⟩)
      (show matchPos - s.frameStart < pos - s.frameStart by omega) (pos - s.frameStart - (anchor - s.frameStart) + 1) 0
      (by omega) (by omega) (by omega)
    refine ⟨n, hn, by omega, by omega, fun i hi => ?_⟩
    have hbytes := getElem?_of_frame (by omega) (by omega) (heq i (Nat.zero_le _) hi)
    rwa [show s.frameStart + (pos - s.frameStart - i - 1) = pos - i - 1 by omega,
      show s.frameStart + (matchPos - s.frameStart - i - 1) = matchPos - i - 1 by omega] at hbytes
  · rw [if_neg hframe]
    obtain ⟨n, hn, -, hn', hlow', heq⟩ := countBackwardsLoop_ok s.byte anchor windowLow
      (fun p (hp : p < pos) => ⟨_, byte_eq (by omega)⟩) hlt (pos - anchor + 1) 0 (by omega) (by omega) (by omega)
    exact ⟨n, hn, hn', hlow', fun i hi => getElem?_of_byte (by omega) (by omega) (heq i (Nat.zero_le _) hi)⟩

end LdmSource

/-! ## The scan of a bucket -/

/-- A candidate that makes a match around the split, not before the anchor. -/
structure BucketMatch.Fits (m : BucketMatch) (data : Bytes) (windowLow anchor split stop : Nat) : Prop where
  genuine : Genuine data windowLow stop (split - m.backward) (m.forward + m.backward) (split - m.matchPos)
  matchPos_le : m.matchPos ≤ split
  anchor_le : anchor + m.backward ≤ split

/-- Bytes that agree forwards and backwards make one match. -/
theorem fits_of_counts {data : Bytes} {windowLow anchor split stop matchPos forward backward : Nat}
    (hlt : matchPos < split) (hstop : split + forward ≤ stop) (hanchor : anchor + backward ≤ split)
    (hlow : windowLow + backward ≤ matchPos)
    (hforward : ∀ i < forward, data[split + i]? = data[matchPos + i]?)
    (hbackward : ∀ i < backward, data[split - i - 1]? = data[matchPos - i - 1]?) :
    ({ matchPos, forward, backward } : BucketMatch).Fits data windowLow anchor split stop := by
  refine ⟨⟨by simp only; omega, by simp only; omega, by simp only; omega, fun i hi => ?_⟩, by simp only; omega, hanchor⟩
  simp only at hi ⊢
  rcases Nat.lt_or_ge i backward with hlt | hge
  · have hb := hbackward (backward - i - 1) (by omega)
    rwa [show split - (backward - i - 1) - 1 = split - backward + i by omega,
      show matchPos - (backward - i - 1) - 1 = split - backward - (split - matchPos) + i by omega] at hb
  · have hf := hforward (i - backward) (by omega)
    rwa [show split + (i - backward) = split - backward + i by omega,
      show matchPos + (i - backward) = split - backward - (split - matchPos) + i by omega] at hf

theorem scanBucket_ok {src : LdmSource} {split stop anchor : Nat} (minMatch windowLow checksum : Nat)
    (hsplit : split ≤ stop) (hstop : stop ≤ src.len) (hstart : src.frameStart ≤ anchor) (hanchor : anchor ≤ split) :
    ∀ (entries : List LdmEntry) (best : Option BucketMatch), (∀ e ∈ entries, e.offset = 0 ∨ e.offset < split) →
    (∀ m, best = some m → m.Fits src.joint windowLow anchor split stop) →
    ∃ best', scanBucket src minMatch split stop anchor windowLow checksum entries best = .ok best' ∧
      ∀ m, best' = some m → m.Fits src.joint windowLow anchor split stop
  | [], best, _, hbest => ⟨best, rfl, hbest⟩
  | candidate :: rest, best, hentries, hbest => by
    have hrest : ∀ e ∈ rest, e.offset = 0 ∨ e.offset < split := fun e he => hentries e (List.mem_cons_of_mem _ he)
    unfold scanBucket
    by_cases hskip : candidate.checksum ≠ checksum ∨ candidate.offset ≤ windowLow
    · rw [if_pos hskip]
      exact scanBucket_ok minMatch windowLow checksum hsplit hstop hstart hanchor rest best hrest hbest
    rw [if_neg hskip]
    obtain ⟨-, habove⟩ := not_or.mp hskip
    have hbelow : candidate.offset < split := by
      rcases hentries candidate List.mem_cons_self with h0 | h0 <;> omega
    rw [if_neg (not_le.2 hbelow)]
    obtain ⟨forward, hf, hforward, hfeq⟩ := src.countForwards_ok hbelow (hstart.trans hanchor) hsplit hstop
    simp only [hf, bind, Except.bind]
    by_cases hshort : forward < minMatch
    · rw [if_pos hshort]
      exact scanBucket_ok minMatch windowLow checksum hsplit hstop hstart hanchor rest best hrest hbest
    rw [if_neg hshort]
    obtain ⟨backward, hb, hbackward, hlow, hbeq⟩ := src.countBackwards_ok windowLow hbelow hstart hanchor
      (by omega) (hsplit.trans hstop)
    simp only [hb]
    have hfits := fits_of_counts hbelow hforward hbackward hlow hfeq hbeq
    refine scanBucket_ok minMatch windowLow checksum hsplit hstop hstart hanchor rest _ hrest fun m hm => ?_
    rcases best with _ | b
    · cases hm
      exact hfits
    · simp only at hm
      split at hm
      · cases hm
        exact hfits
      · cases hm
        exact hbest _ rfl

/-! ## The splits of a batch -/

theorem feedLoop_spec (stopMask : UInt64) :
    ∀ {data : Bytes} {hash : UInt64} {n room : Nat} {final : UInt64} {read : Nat} {splits : List Nat},
    GearHash.feedLoop stopMask data hash n room = (final, read, splits) →
    n ≤ read ∧ read ≤ n + data.length ∧ (data ≠ [] → n < read) ∧ splits.Pairwise (· < ·) ∧
      ∀ x ∈ splits, n < x ∧ x ≤ read
  | [], hash, n, room, final, read, splits, h => by
    cases h
    exact ⟨le_refl _, le_refl _, fun h => absurd rfl h, .nil, by simp⟩
  | b :: data, hash, n, room, final, read, splits, h => by
    rw [List.length_cons]
    unfold GearHash.feedLoop at h
    simp only at h
    split at h
    · split at h
      · -- no room for another split
        cases h
        exact ⟨by omega, by omega, fun _ => by omega, List.pairwise_singleton _ _, by simp⟩
      · generalize hrec : GearHash.feedLoop stopMask data ((hash <<< 1) + gearTab.getD b.toNat 0) (n + 1)
          (room - 1) = r at h
        obtain ⟨final', read', splits'⟩ := r
        obtain ⟨h1, h2, -, h4, h5⟩ := feedLoop_spec stopMask hrec
        cases h
        simp only
        refine ⟨by omega, by omega, fun _ => by omega, List.pairwise_cons.mpr ⟨fun x hx => (h5 x hx).1, h4⟩, ?_⟩
        intro x hx
        rcases List.mem_cons.mp hx with rfl | hx
        · omega
        · have := h5 x hx
          omega
    · obtain ⟨h1, h2, -, h4, h5⟩ := feedLoop_spec stopMask h
      refine ⟨by omega, by omega, fun _ => by omega, h4, fun x hx => ?_⟩
      have := h5 x hx
      omega

/-- A batch reads at least one byte, and its splits come in order. -/
theorem feed_spec {g g' : GearHash} {data : Bytes} {hashed : Nat} {splits : List Nat} (hdata : data ≠ [])
    (h : g.feed data = (g', hashed, splits)) :
    0 < hashed ∧ hashed ≤ data.length ∧ splits.Pairwise (· < ·) ∧ ∀ x ∈ splits, 0 < x ∧ x ≤ hashed := by
  unfold GearHash.feed at h
  generalize hloop : GearHash.feedLoop g.stopMask data g.rolling 0 ldmBatchSize = r at h
  obtain ⟨final, read, found⟩ := r
  cases h
  obtain ⟨-, h2, h3, h4, h5⟩ := feedLoop_spec g.stopMask hloop
  exact ⟨h3 hdata, by omega, h4, h5⟩

end Ldm

end Zstandard
