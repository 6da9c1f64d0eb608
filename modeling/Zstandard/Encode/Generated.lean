/-
What a frame's long-distance matches are, over any run of blocks and compactions.

The generator keeps every position it files below the point it has hashed to, and every sequence it puts out starts
where the one before it ended (`Laid`). A block's sequences are then real matches over all that came before, as long
as the positions in the table are those of the bytes searched. Compaction rebases them by what it dropped of the
frame alone, and later blocks are searched without the dictionary in front: with a dictionary still there the two
do not fit together.
-/
import Zstandard.Encode.Searched

namespace Zstandard

namespace Ldm

/-! ## Sequences laid one after the other -/

/-- The sequences lie one after the other from `position` to `stop`, and each match has `P` of its start, length and
offset. -/
def Laid (P : Nat → Nat → Nat → Prop) : Nat → List RawSequence → Nat → Prop
  | position, [], stop => position = stop
  | position, raw :: rest, stop =>
    P (position + raw.literalLength) raw.matchLength raw.offset ∧ Laid P (position + raw.span) rest stop

section
variable {P Q : Nat → Nat → Nat → Prop}

theorem Laid.le : ∀ {seqs : List RawSequence} {a b : Nat}, Laid P a seqs b → a ≤ b
  | [], _, _, h => le_of_eq h
  | raw :: rest, a, b, h => by
    have := h.2.le
    omega

theorem Laid.append : ∀ {xs ys : List RawSequence} {a b c : Nat}, Laid P a xs b → Laid P b ys c → Laid P a (xs ++ ys) c
  | [], _, _, _, _, hx, hy => by
    cases hx
    exact hy
  | _ :: _, _, _, _, _, hx, hy => ⟨hx.1, hx.2.append hy⟩

theorem Laid.imp (himp : ∀ start length offset, P start length offset → Q start length offset) :
    ∀ {seqs : List RawSequence} {a b : Nat}, Laid P a seqs b → Laid Q a seqs b
  | [], _, _, h => h
  | _ :: _, _, _, h => ⟨himp _ _ _ h.1, h.2.imp himp⟩

/-- The same sequences behind `k` bytes more. -/
theorem Laid.shift {k : Nat} (himp : ∀ start length offset, P start length offset → Q (k + start) length offset) :
    ∀ {seqs : List RawSequence} {a b : Nat}, Laid P a seqs b → Laid Q (k + a) seqs (k + b)
  | [], _, _, h => congrArg (k + ·) h
  | _ :: _, a, _, h => by
    refine ⟨?_, ?_⟩
    · rw [Nat.add_assoc]
      exact himp _ _ _ h.1
    · rw [Nat.add_assoc]
      exact h.2.shift himp

theorem modify_append_length {α : Type} (f : α → α) (y : α) (ys : List α) :
    ∀ xs : List α, (xs ++ y :: ys).modify xs.length f = xs ++ f y :: ys
  | [] => List.modify_zero_cons f y ys
  | x :: xs => congrArg (x :: ·) (modify_append_length f y ys xs)

/-- The first sequence takes the literals in front of it. -/
theorem Laid.addLiterals (outer : List RawSequence) {seqs : List RawSequence} {literals a b : Nat}
    (h : Laid P (a + literals) seqs b) (hne : seqs ≠ []) (hsmall : b < a + 2 ^ 32) :
    ∃ seqs', LdmState.addLiterals (outer ++ seqs) outer.length literals = outer ++ seqs' ∧ Laid P a seqs' b := by
  obtain ⟨raw, rest, rfl⟩ := List.exists_cons_of_ne_nil hne
  have hle := h.2.le
  unfold RawSequence.span at hle
  refine ⟨{ raw with literalLength := raw.literalLength + literals } :: rest, ?_, ?_, ?_⟩
  · unfold LdmState.addLiterals
    rw [modify_append_length, Nat.mod_eq_of_lt (by omega)]
  · have h1 := h.1
    rwa [show a + literals + raw.literalLength = a + (raw.literalLength + literals) by omega] at h1
  · have h2 := h.2
    unfold RawSequence.span at h2 ⊢
    rwa [show a + literals + (raw.literalLength + raw.matchLength) =
      a + (raw.literalLength + literals + raw.matchLength) by omega] at h2

/-- Genuine matches laid one after the other are what the encoder lays down, where their offset values fit 32 bits. -/
theorem Laid.realFrom {data : Bytes} : ∀ {seqs : List RawSequence} {a b : Nat},
    Laid (Genuine data 0 data.length) a seqs b → (∀ raw ∈ seqs, raw.offset + 3 < 2 ^ 32) → RealFrom data a seqs
  | [], _, _, _, _ => trivial
  | raw :: rest, a, b, h, hsmall => by
    obtain ⟨hg, hrest⟩ := h
    have hlow := hg.low_le
    refine ⟨hg.offset_pos, by omega, hsmall raw List.mem_cons_self, hg.stop_le, hg.copy_eq (le_refl _), ?_⟩
    have h2 := hrest.realFrom fun raw hraw => hsmall raw (List.mem_cons_of_mem _ hraw)
    unfold RawSequence.span at h2
    rwa [← Nat.add_assoc] at h2

end

/-! ## The loop -/

/-- The generator at `frontier`: the positions filed, and what it has put out behind `outer` since `start`. -/
structure Generation.Stands (g : Generation) (src : LdmSource) (minMatch windowLow start stop frontier : Nat)
    (outer : List RawSequence) : Prop where
  filed : g.table.Filed minMatch frontier
  laid : ∃ seqs, g.out = outer ++ seqs ∧ Laid (Genuine src.joint windowLow stop) start seqs g.anchor
  anchor_le : g.anchor ≤ stop

section
variable {src : LdmSource} {minMatch ip hashed start stop windowLow : Nat} {outer : List RawSequence} {g : Generation}

theorem processSplit_ok (hmin : 0 < minMatch) (hframe : src.frameStart ≤ start) (hip : start + minMatch ≤ ip)
    (hhashed : ip + hashed ≤ stop)
    (hstop : stop ≤ src.len) (hsmall : stop < start + 2 ^ 32) (hlow : stop ≤ windowLow + 2 ^ 32)
    {done splitOffset : Nat} (hdone : done < splitOffset) (hsplit : splitOffset ≤ hashed)
    (h : g.Stands src minMatch windowLow start stop (ip + done) outer) :
    ∃ g', processSplit src minMatch ip stop windowLow splitOffset g = .ok g' ∧
      g'.Stands src minMatch windowLow start stop (ip + splitOffset) outer := by
  have hlen : (ip + splitOffset - minMatch) + minMatch = ip + splitOffset := by omega
  obtain ⟨window, hwindow, -⟩ := src.frameRange_ok (ip + splitOffset - minMatch)
    (ip + splitOffset - minMatch + minMatch) (by omega) (by omega) (by omega)
  unfold processSplit
  simp only [subIndex_of_le (show minMatch ≤ ip + splitOffset by omega), hwindow, bind, Except.bind]
  generalize hs : ip + splitOffset - minMatch = split at hlen
  have hinsert : (g.table.insert (bucketOf g.table (xxh64 window 0)) (entryOf split (xxh64 window 0))).Filed minMatch
      (ip + splitOffset) := (h.filed.mono (by omega)).insert (by omega)
  by_cases hbefore : split < g.anchor
  · rw [if_pos hbefore]
    exact ⟨_, rfl, hinsert, h.laid, h.anchor_le⟩
  rw [if_neg hbefore]
  obtain ⟨seqs, hout, hlaid⟩ := h.laid
  have hstart := hlaid.le
  obtain ⟨best, hbest, hfits⟩ := scanBucket_ok minMatch windowLow (entryOf split (xxh64 window 0)).checksum
    (show split ≤ stop by omega) hstop (hframe.trans hstart) (show g.anchor ≤ split by omega)
    (g.table.bucket (bucketOf g.table (xxh64 window 0))) none
    (fun e he => (h.filed.bucket he).imp_right fun hle => by omega) (by simp)
  rw [hbest]
  rcases best with _ | m
  · exact ⟨_, rfl, hinsert, h.laid, h.anchor_le⟩
  obtain ⟨hgenuine, hmatch, hanchor⟩ := hfits m rfl
  have hend := hgenuine.stop_le
  have hmlow := hgenuine.low_le
  have hpos := hgenuine.offset_pos
  simp only [subIndex_of_le (show m.backward ≤ split by omega),
    subIndex_of_le (show g.anchor ≤ split - m.backward by omega), subIndex_of_le hmatch]
  -- what is cast to 32 bits fits
  rw [Nat.mod_eq_of_lt (show split - m.backward - g.anchor < 2 ^ 32 by omega),
    Nat.mod_eq_of_lt (show m.forward + m.backward < 2 ^ 32 by omega),
    Nat.mod_eq_of_lt (show split - m.matchPos < 2 ^ 32 by omega)]
  refine ⟨_, rfl, hinsert, ⟨seqs ++ [_], by rw [← List.append_assoc, ← hout],
    hlaid.append ⟨?_, ?_⟩⟩, by simp only; omega⟩
  · rw [show g.anchor + (split - m.backward - g.anchor) = split - m.backward by omega]
    exact hgenuine
  · change g.anchor + (split - m.backward - g.anchor + (m.forward + m.backward)) = split + m.forward
    omega

theorem processSplits_ok (hmin : 0 < minMatch) (hframe : src.frameStart ≤ start) (hip : start + minMatch ≤ ip)
    (hhashed : ip + hashed ≤ stop)
    (hstop : stop ≤ src.len) (hsmall : stop < start + 2 ^ 32) (hlow : stop ≤ windowLow + 2 ^ 32) :
    ∀ {splits : List Nat} {done : Nat} {g : Generation}, done ≤ hashed → splits.Pairwise (· < ·) →
    (∀ x ∈ splits, done < x ∧ x ≤ hashed) → g.Stands src minMatch windowLow start stop (ip + done) outer →
    ∃ g' restart, processSplits src minMatch ip hashed stop windowLow splits g = .ok (g', restart) ∧
      g'.Stands src minMatch windowLow start stop (ip + hashed) outer ∧
      ∀ r, restart = some r → ip < r ∧ r + hashed = g'.anchor
  | [], done, g, hdone, _, _, h =>
    ⟨g, none, rfl, ⟨h.filed.mono (by omega), h.laid, h.anchor_le⟩, by simp⟩
  | splitOffset :: rest, done, g, hdone, hsorted, hrange, h => by
    obtain ⟨h1, h2⟩ := hrange splitOffset List.mem_cons_self
    obtain ⟨hhead, htail⟩ := List.pairwise_cons.mp hsorted
    obtain ⟨g', hg', hstands⟩ := processSplit_ok hmin hframe hip hhashed hstop hsmall hlow h1 h2 h
    unfold processSplits
    simp only [hg', bind, Except.bind]
    split
    · -- the match runs past what was hashed
      rename_i hpast
      rw [subIndex_of_le (show hashed ≤ g'.anchor by omega)]
      refine ⟨g', _, rfl, ⟨hstands.filed.mono (by omega), hstands.laid, hstands.anchor_le⟩, fun r hr => ?_⟩
      cases hr
      omega
    · exact processSplits_ok hmin hframe hip hhashed hstop hsmall hlow h2 htail
        (fun x hx => ⟨hhead x hx, (hrange x (List.mem_cons_of_mem _ hx)).2⟩) hstands

theorem generateLoop_ok {limit : Nat} (hmin : 0 < minMatch) (hframe : src.frameStart ≤ start) (hlimit : limit ≤ stop)
    (hstop : stop ≤ src.len) (hsmall : stop < start + 2 ^ 32) (hlow : stop ≤ windowLow + 2 ^ 32) :
    ∀ (fuel ip : Nat) (gear : GearHash) (g : Generation), start + minMatch ≤ ip → ip ≤ stop → limit < ip + fuel →
    0 < fuel → g.Stands src minMatch windowLow start stop ip outer →
    ∃ g', generateLoop src minMatch stop limit windowLow fuel ip gear g = .ok g' ∧
      g'.Stands src minMatch windowLow start stop stop outer
  | 0, _, _, _, _, _, _, hpos, _ => absurd hpos (Nat.lt_irrefl 0)
  | fuel + 1, ip, gear, g, hip, hle, hfuel, _, h => by
    unfold generateLoop
    by_cases hin : ip < limit
    · obtain ⟨data, hdata, hlength⟩ := src.frameRange_ok ip limit (by omega) (by omega) (by omega)
      rw [if_pos hin]
      simp only [hdata, bind, Except.bind]
      generalize hfeed : gear.feed data = fed
      obtain ⟨gear', hashed, splits⟩ := fed
      obtain ⟨hpos, hread, hsorted, hrange⟩ := feed_spec (by rintro rfl; simp at hlength; omega) hfeed
      obtain ⟨g', restart, hg', hstands, hrestart⟩ := processSplits_ok hmin hframe hip (by omega) hstop hsmall hlow
        (Nat.zero_le hashed) hsorted hrange (by simpa using h)
      simp only [hg']
      have hanchor := hstands.anchor_le
      -- hashing goes on at the end of the batch, or where a match that runs past it ends
      have hnext : ip + hashed ≤ restart.getD ip + hashed ∧ restart.getD ip + hashed ≤ stop := by
        rcases restart with _ | r
        · exact ⟨le_refl _, by simp only [Option.getD_none]; omega⟩
        · have := hrestart r rfl
          simp only [Option.getD_some]
          omega
      exact generateLoop_ok hmin hframe hlimit hstop hsmall hlow fuel _ gear' g' (by omega) hnext.2
        (by omega) (by omega)
        ⟨hstands.filed.mono hnext.1, hstands.laid, hstands.anchor_le⟩
    · rw [if_neg hin]
      exact ⟨g, rfl, h.filed.mono hle, h.laid, h.anchor_le⟩

end

/-! ## A chunk and a block -/

section
variable {src : LdmSource} {start stop windowLow : Nat}

theorem generateInto_ok (s : LdmState) (hframe : src.frameStart ≤ start) (hle : start ≤ stop) (hstop : stop ≤ src.len)
    (hsmall : stop < start + 2 ^ 32) (hlow : stop ≤ windowLow + 2 ^ 32) (out : List RawSequence)
    (h : s.table.Filed s.params.minMatchLength start) :
    ∃ table seqs leftover, s.generateInto src start stop windowLow out = .ok ({ s with table }, out ++ seqs, leftover) ∧
      table.Filed s.params.minMatchLength stop ∧ leftover ≤ stop ∧
      Laid (Genuine src.joint windowLow stop) start seqs (stop - leftover) := by
  have hmin := s.params.minMatchLength_pos
  unfold LdmState.generateInto
  by_cases hshort : stop - start < s.params.minMatchLength
  · simp only [if_pos hshort]
    refine ⟨s.table, [], stop - start, by rw [List.append_nil], h.mono hle, by omega, ?_⟩
    change start = stop - (stop - start)
    omega
  simp only [if_neg hshort]
  obtain ⟨g, hg, hstands⟩ := generateLoop_ok hmin hframe (show stop - hashReadSize ≤ stop by omega) hstop hsmall hlow
    (stop - hashReadSize + 1) (start + s.params.minMatchLength) (.new s.params)
    { table := s.table, anchor := start, out } (le_refl _) (by omega) (by omega) (by omega)
    ⟨h.mono (by omega), ⟨[], (List.append_nil out).symm, rfl⟩, hle⟩
  obtain ⟨seqs, hout, hlaid⟩ := hstands.laid
  have hanchor := hstands.anchor_le
  simp only [hg, subIndex_of_le hanchor, hout, bind, Except.bind]
  refine ⟨g.table, seqs, stop - g.anchor, rfl, hstands.filed, by omega, ?_⟩
  rwa [show stop - (stop - g.anchor) = g.anchor by omega]

end

/-- A genuine match whose offset is within the window, or that starts in a dictionary still credited: one whose last
byte the window reaches from the end of the match. -/
structure Sound (data : Bytes) (maxDistance credit start length offset : Nat) : Prop where
  genuine : Genuine data 0 data.length start length offset
  reach : offset ≤ maxDistance ∨ (start < offset + credit ∧ start + length ≤ maxDistance + credit)

/-- The floor a chunk is searched down to keeps its matches within reach. -/
theorem Genuine.sound {data : Bytes} {windowLow chunkEnd maxDistance credit start length offset : Nat}
    (h : Genuine data windowLow chunkEnd start length offset) (hend : chunkEnd ≤ data.length)
    (hfloor : chunkEnd ≤ windowLow + maxDistance ∨ chunkEnd ≤ maxDistance + credit) :
    Sound data maxDistance credit start length offset := by
  refine ⟨h.mono hend, ?_⟩
  have hlow := h.low_le
  have hstop := h.stop_le
  rcases Nat.lt_or_ge maxDistance offset with hfar | hnear
  · exact .inr (by omega)
  · exact .inl hnear

section
variable {src : LdmSource} {blockStart stop maxDistance credit : Nat} {outer : List RawSequence}

/-- What a chunk of a block leaves to the next. -/
structure Chunked (s : LdmState) (out : List RawSequence) (src : LdmSource) (blockStart maxDistance credit chunkStart
    leftover : Nat) (outer : List RawSequence) : Prop where
  filed : s.table.Filed s.params.minMatchLength chunkStart
  credited : s.loadedDictEnd ≤ credit
  leftover_le : leftover ≤ chunkStart
  laid : ∃ seqs, out = outer ++ seqs ∧ Laid (Sound src.joint maxDistance credit) blockStart seqs (chunkStart - leftover)

theorem windowFloor_spec (s : LdmState) (chunkEnd maxDistance : Nat) (hcredit : s.loadedDictEnd ≤ credit) :
    ∃ s' windowLow, s.windowFloor chunkEnd maxDistance = (s', windowLow) ∧ s'.table = s.table ∧ s'.params = s.params ∧
      s'.loadedDictEnd ≤ credit ∧ (chunkEnd ≤ windowLow + maxDistance ∨ chunkEnd ≤ maxDistance + credit) := by
  unfold LdmState.windowFloor
  split
  · exact ⟨_, _, rfl, rfl, rfl, Nat.zero_le _, .inl (by omega)⟩
  · exact ⟨_, _, rfl, rfl, rfl, hcredit, .inr (by omega)⟩

theorem chunkEnd_bounds {chunkStart : Nat} (h : chunkStart < stop) :
    chunkStart < min (chunkStart + ldmMaxChunkSize) stop ∧ min (chunkStart + ldmMaxChunkSize) stop ≤ stop := by
  have hpos : 0 < ldmMaxChunkSize := by decide
  omega

theorem generateChunk_ok (hframe : src.frameStart ≤ blockStart) (hreach : maxDistance + credit ≤ 2 ^ 32)
    {chunkStart chunkEnd leftover : Nat} {s : LdmState} {out : List RawSequence} (hle : chunkStart < chunkEnd)
    (hend : chunkEnd ≤ src.len) (hsmall : chunkEnd < blockStart + 2 ^ 32)
    (h : Chunked s out src blockStart maxDistance credit chunkStart leftover outer) :
    ∃ s' out' leftover', LdmState.generateChunk src maxDistance chunkStart chunkEnd leftover s out =
        .ok (s', out', leftover') ∧
      s'.params = s.params ∧ Chunked s' out' src blockStart maxDistance credit chunkEnd leftover' outer := by
  obtain ⟨seqs, hout, hlaid⟩ := h.laid
  have hlen := src.length_joint
  have hbehind := hlaid.le
  have hleft := h.leftover_le
  obtain ⟨s1, windowLow, hfloor, htable, hparams, hcredit, hwindow⟩ :=
    windowFloor_spec s chunkEnd maxDistance h.credited
  have hfiled := h.filed
  rw [← htable, ← hparams] at hfiled
  obtain ⟨table, new, tail, hinto, hfiled', htail, hnew⟩ := generateInto_ok s1 (hframe.trans (by omega)) hle.le hend
    (show chunkEnd < chunkStart + 2 ^ 32 by omega) (show chunkEnd ≤ windowLow + 2 ^ 32 by omega) out hfiled
  have hsound := hnew.imp fun _ _ _ hgenuine => hgenuine.sound (by omega) hwindow
  have hcover := hnew.le
  unfold LdmState.generateChunk
  simp only [hfloor, hinto, bind, Except.bind]
  rw [← hparams]
  by_cases hnone : new = []
  · -- no match in the chunk: all of it is literals
    subst hnone
    have hat : chunkStart = chunkEnd - tail := hnew
    rw [if_neg (by simp), Nat.mod_eq_of_lt (show chunkEnd - chunkStart < 2 ^ 32 by omega),
      Nat.mod_eq_of_lt (show leftover + (chunkEnd - chunkStart) < 2 ^ 32 by omega)]
    refine ⟨{ s1 with table }, _, _, rfl, rfl, hfiled', hcredit, by omega, seqs, by rw [List.append_nil, hout], ?_⟩
    rwa [show chunkEnd - (leftover + (chunkEnd - chunkStart)) = chunkStart - leftover by omega]
  · have hlonger : (out ++ new).length > out.length := by
      rw [List.length_append]
      have := List.length_pos_iff.mpr hnone
      omega
    rw [if_pos hlonger, Nat.mod_eq_of_lt (show tail < 2 ^ 32 by omega)]
    obtain ⟨new', hnew', hlaid'⟩ := Laid.addLiterals out
      (show Laid _ (chunkStart - leftover + leftover) new _ by rwa [Nat.sub_add_cancel hleft]) hnone (by omega)
    rw [hnew']
    exact ⟨{ s1 with table }, _, _, rfl, rfl, hfiled', hcredit, htail, seqs ++ new', by rw [hout, List.append_assoc],
      hlaid.append hlaid'⟩

theorem generateChunks_step {fuel chunkStart leftover leftover' : Nat} {s s' : LdmState} {out out' : List RawSequence}
    (hin : chunkStart < stop)
    (h : LdmState.generateChunk src maxDistance chunkStart (min (chunkStart + ldmMaxChunkSize) stop) leftover s out =
      .ok (s', out', leftover')) :
    LdmState.generateChunks src stop maxDistance (fuel + 1) chunkStart leftover s out =
      LdmState.generateChunks src stop maxDistance fuel (min (chunkStart + ldmMaxChunkSize) stop)
        leftover' s' out' := by
  rw [LdmState.generateChunks, if_pos hin]
  exact congrArg (· >>= _) h

theorem generateChunks_ok (hframe : src.frameStart ≤ blockStart) (hstop : stop ≤ src.len)
    (hsmall : stop < blockStart + 2 ^ 32) (hreach : maxDistance + credit ≤ 2 ^ 32) :
    ∀ (fuel chunkStart leftover : Nat) (s : LdmState) (out : List RawSequence), chunkStart ≤ stop →
    stop < chunkStart + fuel → Chunked s out src blockStart maxDistance credit chunkStart leftover outer →
    ∃ s' out' leftover', LdmState.generateChunks src stop maxDistance fuel chunkStart leftover s out = .ok (s', out') ∧
      s'.params = s.params ∧ Chunked s' out' src blockStart maxDistance credit stop leftover' outer
  | 0, _, _, _, _, hle, hfuel, _ => by omega
  | fuel + 1, chunkStart, leftover, s, out, hle, hfuel, h => by
    by_cases hin : chunkStart < stop
    · obtain ⟨hmore, hless⟩ := chunkEnd_bounds hin
      obtain ⟨s', out', leftover', hchunk, hparams, h'⟩ := generateChunk_ok hframe hreach hmore (hless.trans hstop)
        (hless.trans_lt hsmall) h
      rw [generateChunks_step hin hchunk, ← hparams]
      generalize min (chunkStart + ldmMaxChunkSize) stop = chunkEnd at hmore hless h' ⊢
      exact generateChunks_ok hframe hstop hsmall hreach fuel _ _ s' out' hless (by omega) h'
    · rw [LdmState.generateChunks, if_neg hin]
      obtain rfl : chunkStart = stop := by omega
      exact ⟨s, out, leftover, rfl, rfl, h⟩

/-- A block's sequences: real matches, one after the other from its first byte on. -/
theorem generateSequences_ok {s : LdmState} (hframe : src.frameStart ≤ blockStart) (hle : blockStart ≤ stop)
    (hstop : stop = src.len) (hsmall : stop < blockStart + 2 ^ 32) (hreach : maxDistance + s.loadedDictEnd ≤ 2 ^ 32)
    (h : s.table.Filed s.params.minMatchLength blockStart) :
    ∃ s' seqs upto, s.generateSequences src blockStart stop maxDistance [] = .ok (s', seqs) ∧ s'.params = s.params ∧
      s'.loadedDictEnd ≤ s.loadedDictEnd ∧ s'.table.Filed s.params.minMatchLength stop ∧ upto ≤ stop ∧
      Laid (Sound src.joint maxDistance s.loadedDictEnd) blockStart seqs upto := by
  unfold LdmState.generateSequences
  obtain ⟨s', out, leftover, hok, hparams, hchunked⟩ := generateChunks_ok hframe (le_of_eq hstop) hsmall hreach
    (stop - blockStart + 1) blockStart 0 s [] hle (by omega) ⟨h, le_refl _, Nat.zero_le _, [],
    (List.append_nil []).symm, rfl⟩
  obtain ⟨seqs, hout, hlaid⟩ := hchunked.laid
  cases hout
  have hfiled := hchunked.filed
  rw [hparams] at hfiled
  exact ⟨s', seqs, _, hok, hparams, hchunked.credited, hfiled, Nat.sub_le _ _, hlaid⟩

end

/-! ## The dictionary -/

theorem fillSplits_ok {dictionary : Bytes} {minMatch ip hashed : Nat} (hhashed : ip + hashed ≤ dictionary.length) :
    ∀ {splits : List Nat} {t : LdmTable}, (∀ x ∈ splits, x ≤ hashed) → t.Filed minMatch dictionary.length →
    ∃ t', LdmState.fillSplits dictionary minMatch ip splits t = .ok t' ∧ t'.Filed minMatch dictionary.length
  | [], t, _, h => ⟨t, rfl, h⟩
  | splitOffset :: rest, t, hsplits, h => by
    have hrest : ∀ x ∈ rest, x ≤ hashed := fun x hx => hsplits x (List.mem_cons_of_mem _ hx)
    have hle := hsplits splitOffset List.mem_cons_self
    unfold LdmState.fillSplits
    split
    · exact fillSplits_ok hhashed hrest h
    · simp only
      rw [if_pos (by omega)]
      exact fillSplits_ok hhashed hrest (h.insert (by omega))

theorem fillLoop_ok {dictionary : Bytes} {minMatch : Nat} :
    ∀ (fuel ip : Nat) (gear : GearHash) (t : LdmTable), 0 < fuel → dictionary.length < ip + fuel →
    t.Filed minMatch dictionary.length →
    ∃ t', LdmState.fillLoop dictionary minMatch fuel ip gear t = .ok t' ∧ t'.Filed minMatch dictionary.length
  | 0, _, _, _, hpos, _, _ => absurd hpos (Nat.lt_irrefl 0)
  | fuel + 1, ip, gear, t, _, hfuel, h => by
    unfold LdmState.fillLoop
    split
    · rename_i hin
      generalize hfeed : gear.feed (dictionary.drop ip) = fed
      obtain ⟨gear', hashed, splits⟩ := fed
      obtain ⟨hpos, hread, -, hrange⟩ := feed_spec (by rw [ne_eq, List.drop_eq_nil_iff]; omega) hfeed
      rw [List.length_drop] at hread
      obtain ⟨t', ht', hfiled⟩ := fillSplits_ok (show ip + hashed ≤ dictionary.length by omega)
        (fun x hx => (hrange x hx).2) h
      simp only [ht', bind, Except.bind]
      exact fillLoop_ok fuel _ gear' t' (by omega) (by omega) hfiled
    · exact ⟨t, rfl, h⟩

theorem loadDictionary_ok (params : LdmParameters) (maxDistance : Nat) (dictionary : Bytes) :
    ∃ table, (LdmFrameState.new params maxDistance).loadDictionary dictionary =
        .ok { matcher := { table, params, loadedDictEnd := dictionary.length }, maxDistance, sequences := []
              generatedFor := none } ∧
      table.Filed params.minMatchLength dictionary.length := by
  obtain ⟨table, hfill, hfiled⟩ := fillLoop_ok (dictionary.length + 1) 0 (.new params) (.new params)
    (Nat.succ_pos _) (by omega) (LdmTable.new_filed params params.minMatchLength dictionary.length)
  refine ⟨table, ?_, hfiled⟩
  unfold LdmFrameState.loadDictionary LdmState.fillFromDictionary LdmFrameState.new LdmState.new
  simp only [hfill, bind, Except.bind]

end Ldm

end Zstandard
