/-
The encoder's output sink. The fixed mode keeps counting past its capacity and stores what fits; what it does to its
length, to its overflow mark and, while there is no overflow, to its bytes is what the growable mode does.

A write that is skipped because it ends past the capacity leaves old bytes inside it. They do not matter while the
output reaches to the end of that write, for then it has overflowed, and a rollback to its start or before cuts them
off: what is stored is right except inside such writes (`Simulates`).
-/
import Zstandard.Wire.Bytes

namespace Zstandard

/-- `FixedOut`: the buffer, how much of it is output, and how much output did not fit. -/
structure FixedOut where
  buf : Bytes
  stored : Nat
  dropped : Nat
  stored_le : stored ≤ buf.length
  full : 0 < dropped → stored = buf.length

/-- `OutBuf`: a vector that grows, or a slice that does not. -/
inductive OutBuf where
  | growable (buf : Bytes)
  | fixed (out : FixedOut)

namespace FixedOut

theorem nothing_stored (buf : Bytes) : 0 ≤ buf.length := Nat.zero_le _

/-- Nothing stored yet. -/
def ofBuffer (buf : Bytes) : FixedOut := ⟨buf, 0, 0, nothing_stored buf, fun h => absurd h (Nat.lt_irrefl 0)⟩

/-- The length it would have had. -/
def len (f : FixedOut) : Nat := f.stored + f.dropped

/-- A byte, stored while there is room. -/
def push (f : FixedOut) (byte : UInt8) : FixedOut :=
  if h : f.stored < f.buf.length then
    { buf := f.buf.set f.stored byte, stored := f.stored + 1, dropped := f.dropped
      stored_le := by rw [List.length_set]; omega
      full := fun hd => by have := f.full hd; omega }
  else
    { f with
      dropped := f.dropped + 1
      full := fun _ => le_antisymm f.stored_le (not_lt.1 h) }

/-- The bytes that fit are stored, the others counted. -/
def extendFromSlice (f : FixedOut) (bytes : Bytes) : FixedOut :=
  let room := f.buf.length - f.stored
  let fits := min room bytes.length
  { buf := f.buf.take f.stored ++ bytes.take fits ++ f.buf.drop (f.stored + fits)
    stored := f.stored + fits
    dropped := f.dropped + (bytes.length - fits)
    stored_le := by
      have := f.stored_le
      simp only [List.length_append, List.length_take, List.length_drop]
      omega
    full := fun hd => by
      have := f.stored_le
      have := f.full
      simp only [List.length_append, List.length_take, List.length_drop]
      omega }

/-- `truncate`: what was dropped goes first. -/
def truncate (f : FixedOut) (newLen : Nat) : FixedOut :=
  if newLen ≥ f.stored + f.dropped then f
  else
    { buf := f.buf, stored := min newLen f.buf.length, dropped := newLen - min newLen f.buf.length
      stored_le := min_le_right _ _
      full := fun hd => by omega }

/-- `write_at`: only a write that ends inside what is stored is made. -/
def writeAt (f : FixedOut) (pos : Nat) (bytes : Bytes) : FixedOut :=
  if h : pos + bytes.length ≤ f.stored then
    { f with
      buf := f.buf.take pos ++ bytes ++ f.buf.drop (pos + bytes.length)
      stored_le := by
        have := f.stored_le
        simp only [List.length_append, List.length_take, List.length_drop]
        omega
      full := fun hd => by
        have := f.full hd
        simp only [List.length_append, List.length_take, List.length_drop]
        omega }
  else f

end FixedOut

namespace OutBuf

/-- `len`. -/
def len : OutBuf → Nat
  | growable buf => buf.length
  | fixed out => out.len

/-- `overflowed`. -/
def overflowed : OutBuf → Bool
  | growable _ => false
  | fixed out => 0 < out.dropped

/-- The bytes actually stored. -/
def asSlice : OutBuf → Bytes
  | growable buf => buf
  | fixed out => out.buf.take out.stored

/-- `push`. -/
def push (byte : UInt8) : OutBuf → OutBuf
  | growable buf => growable (buf ++ [byte])
  | fixed out => fixed (out.push byte)

/-- `extend_from_slice`. -/
def extendFromSlice (bytes : Bytes) : OutBuf → OutBuf
  | growable buf => growable (buf ++ bytes)
  | fixed out => fixed (out.extendFromSlice bytes)

/-- `for _ in current..new_len`. -/
def pushes (value : UInt8) : Nat → FixedOut → FixedOut
  | 0, out => out
  | n + 1, out => pushes value n (out.push value)

/-- `resize`. -/
def resize (newLen : Nat) (value : UInt8) : OutBuf → OutBuf
  | growable buf => growable (buf.take newLen ++ List.replicate (newLen - buf.length) value)
  | fixed out => fixed (pushes value (newLen - out.len) out)

/-- `truncate`. -/
def truncate (newLen : Nat) : OutBuf → OutBuf
  | growable buf => growable (buf.take newLen)
  | fixed out => fixed (out.truncate newLen)

/-- `write_at`; nothing where the target lies outside the growable buffer, which panics. -/
def writeAt (pos : Nat) (bytes : Bytes) : OutBuf → Option OutBuf
  | growable buf =>
    if pos + bytes.length ≤ buf.length then some (growable (buf.take pos ++ bytes ++ buf.drop (pos + bytes.length)))
    else none
  | fixed out => some (fixed (out.writeAt pos bytes))

end OutBuf

/-! ## Runs -/

/-- What the encoder does to its output. -/
inductive OutOp where
  | push (byte : UInt8)
  | extend (bytes : Bytes)
  | resize (newLen : Nat) (value : UInt8)
  | truncate (newLen : Nat)
  | writeAt (pos : Nat) (bytes : Bytes)
deriving DecidableEq, Repr

namespace OutOp

/-- One operation; none where the source would panic. -/
def perform (o : OutBuf) : OutOp → Option OutBuf
  | .push byte => some (o.push byte)
  | .extend bytes => some (o.extendFromSlice bytes)
  | .resize newLen value => some (o.resize newLen value)
  | .truncate newLen => some (o.truncate newLen)
  | .writeAt pos bytes => o.writeAt pos bytes

/-- A run of operations. -/
def run : List OutOp → OutBuf → Option OutBuf
  | [], o => some o
  | op :: ops, o => (op.perform o).bind (run ops)

/-- What the encoder promises of an operation, after the operations `before`: it resizes to grow, and rolls back to no
place inside a range that it has patched. -/
def Allowed (before : List OutOp) (o : OutBuf) : OutOp → Prop
  | .resize newLen _ => o.len ≤ newLen
  | .truncate newLen => ∀ pos bytes, .writeAt pos bytes ∈ before → ¬ (pos < newLen ∧ newLen < pos + bytes.length)
  | _ => True

/-- A run of allowed operations. -/
def AllAllowed : List OutOp → List OutOp → OutBuf → Prop
  | _, [], _ => True
  | before, op :: ops, o => op.Allowed before o ∧ ∀ o', op.perform o = some o' → AllAllowed (before ++ [op]) ops o'

end OutOp

/-! ## Simulation -/

/-- A patched range that ends past the capacity, while the output still reaches to its end. -/
def Skipped (before : List OutOp) (capacity written i : Nat) : Prop :=
  ∃ pos bytes, .writeAt pos bytes ∈ before ∧ pos ≤ i ∧ i < pos + bytes.length ∧ capacity < pos + bytes.length ∧
    pos + bytes.length ≤ written

/-- The fixed buffer counts what the growable one holds, and stores it except inside patches it had to skip. -/
structure Simulates (before : List OutOp) (capacity : Nat) (g : Bytes) (f : FixedOut) : Prop where
  room : f.buf.length = capacity
  len : f.len = g.length
  bytes : ∀ i < f.stored, f.buf[i]? = g[i]? ∨ Skipped before capacity g.length i

theorem Skipped.mono {before after : List OutOp} {capacity written written' i : Nat}
    (h : Skipped before capacity written i) (hbefore : ∀ op ∈ before, op ∈ after) (hle : written ≤ written') :
    Skipped after capacity written' i := by
  obtain ⟨pos, bytes, hmem, hpos, hend, hcapacity, hwritten⟩ := h
  exact ⟨pos, bytes, hbefore _ hmem, hpos, hend, hcapacity, hwritten.trans hle⟩

variable {before : List OutOp} {capacity : Nat} {g : Bytes} {f : FixedOut}

theorem Simulates.start (buf : Bytes) : Simulates [] buf.length [] (.ofBuffer buf) :=
  ⟨rfl, rfl, fun i hi => absurd hi (Nat.not_lt_zero i)⟩

/-- With nothing dropped, nothing can have been skipped. -/
theorem Simulates.fits (h : Simulates before capacity g f) (hfits : f.dropped = 0) : f.stored = g.length := by
  have := h.len
  unfold FixedOut.len at this
  omega

theorem Simulates.extend (h : Simulates before capacity g f) (bytes : Bytes) :
    Simulates before capacity (g ++ bytes) (f.extendFromSlice bytes) := by
  have hstored := f.stored_le
  have hfull := f.full
  have hlen := h.len
  have hcapacity := h.room
  unfold FixedOut.len at hlen
  refine ⟨?_, ?_, ?_⟩
  · unfold FixedOut.extendFromSlice
    simp only [List.length_append, List.length_take, List.length_drop]
    omega
  · unfold FixedOut.extendFromSlice FixedOut.len
    rw [List.length_append]
    dsimp only
    omega
  · intro i hi
    unfold FixedOut.extendFromSlice at hi ⊢
    dsimp only at hi ⊢
    rw [List.append_assoc]
    rcases Nat.lt_or_ge i f.stored with hlt | hge
    · -- what was stored stays
      rw [List.getElem?_append_left (by rw [List.length_take]; omega), List.getElem?_take_of_lt hlt,
        List.getElem?_append_left (by omega)]
      rcases h.bytes i hlt with heq | hskipped
      · exact .inl heq
      · exact .inr (hskipped.mono (fun _ => id) (by rw [List.length_append]; omega))
    · -- new bytes are stored only where nothing was dropped
      have hfits : f.stored = g.length := h.fits (by omega)
      left
      rw [List.getElem?_append_right (by rw [List.length_take]; omega), List.length_take, min_eq_left hstored,
        List.getElem?_append_left (by rw [List.length_take]; omega), List.getElem?_take_of_lt (by omega),
        List.getElem?_append_right (by omega), hfits]

/-- One byte is a slice of one byte. -/
theorem FixedOut.push_eq (f : FixedOut) (byte : UInt8) : (f.push byte).buf = (f.extendFromSlice [byte]).buf ∧
    (f.push byte).stored = (f.extendFromSlice [byte]).stored ∧
    (f.push byte).dropped = (f.extendFromSlice [byte]).dropped := by
  have hstored := f.stored_le
  unfold push extendFromSlice
  dsimp only
  split
  · rename_i hlt
    rw [List.length_singleton, min_eq_right (by omega)]
    refine ⟨?_, rfl, rfl⟩
    show f.buf.set f.stored byte = f.buf.take f.stored ++ [byte] ++ f.buf.drop (f.stored + 1)
    rw [List.set_eq_take_append_cons_drop, if_pos hlt, List.append_assoc]
    rfl
  · rename_i hge
    rw [show f.buf.length - f.stored = 0 by omega, Nat.zero_min]
    refine ⟨?_, rfl, rfl⟩
    show f.buf = f.buf.take f.stored ++ [] ++ f.buf.drop (f.stored + 0)
    rw [List.append_nil, Nat.add_zero, List.take_append_drop]

theorem Simulates.push (h : Simulates before capacity g f) (byte : UInt8) :
    Simulates before capacity (g ++ [byte]) (f.push byte) := by
  have hextended := h.extend [byte]
  obtain ⟨hbuf, hstored, hdropped⟩ := f.push_eq byte
  refine ⟨?_, ?_, ?_⟩
  · rw [hbuf]; exact hextended.room
  · unfold FixedOut.len
    rw [hstored, hdropped]; exact hextended.len
  · rw [hbuf, hstored]; exact hextended.bytes

theorem Simulates.pushes (value : UInt8) : ∀ (n : Nat) {g : Bytes} {f : FixedOut}, Simulates before capacity g f →
    Simulates before capacity (g ++ List.replicate n value) (OutBuf.pushes value n f)
  | 0, g, f, h => by
    rw [List.replicate_zero, List.append_nil]
    exact h
  | n + 1, g, f, h => by
    have hrest := (h.push value).pushes value n
    rw [List.append_assoc] at hrest
    exact hrest

/-- A rollback outside the patches that were skipped. -/
theorem Simulates.truncate (h : Simulates before capacity g f) {newLen : Nat}
    (hallowed : ∀ pos bytes, .writeAt pos bytes ∈ before → ¬ (pos < newLen ∧ newLen < pos + bytes.length)) :
    Simulates before capacity (g.take newLen) (f.truncate newLen) := by
  have hlen := h.len
  have hstored := f.stored_le
  have hfull := f.full
  unfold FixedOut.len at hlen
  unfold FixedOut.truncate
  split
  · rw [List.take_of_length_le (by omega)]
    exact h
  · refine ⟨h.room, ?_, ?_⟩
    · unfold FixedOut.len
      rw [List.length_take]
      dsimp only
      omega
    · intro i hi
      dsimp only at hi ⊢
      rw [List.getElem?_take_of_lt (by omega), List.length_take]
      rcases h.bytes i (by omega) with heq | ⟨pos, bytes, hmem, hpos, hend, hcapacity, hwritten⟩
      · exact .inl heq
      · -- the rollback is not before the start, so it is not before the end
        have := hallowed pos bytes hmem
        exact .inr ⟨pos, bytes, hmem, hpos, hend, hcapacity, by omega⟩

/-- A patch is made in both, or it ends past the capacity. -/
theorem Simulates.writeAt (h : Simulates before capacity g f) {pos : Nat} {bytes : Bytes}
    (hpos : pos + bytes.length ≤ g.length) : Simulates (before ++ [.writeAt pos bytes]) capacity
      (g.take pos ++ bytes ++ g.drop (pos + bytes.length)) (f.writeAt pos bytes) := by
  have hlen := h.len
  have hstored := f.stored_le
  have hfull := f.full
  have hcapacity := h.room
  unfold FixedOut.len at hlen
  have hglen : (g.take pos ++ bytes ++ g.drop (pos + bytes.length)).length = g.length := by
    simp only [List.length_append, List.length_take, List.length_drop]
    omega
  have hmono : ∀ {i}, Skipped before capacity g.length i → Skipped
    (before ++ [.writeAt pos bytes]) capacity g.length i :=
    fun hskipped => hskipped.mono (fun op hop => List.mem_append_left _ hop) le_rfl
  -- a byte of a spliced buffer
  have hsplice : ∀ {l : Bytes} {i : Nat}, pos + bytes.length ≤ l.length →
      (l.take pos ++ bytes ++ l.drop (pos + bytes.length))[i]? =
        if i < pos then l[i]? else if i < pos + bytes.length then bytes[i - pos]? else l[i]? := by
    intro l i hl
    rw [List.append_assoc]
    split
    · rw [List.getElem?_append_left (by rw [List.length_take]; omega), List.getElem?_take_of_lt ‹_›]
    · rw [List.getElem?_append_right (by rw [List.length_take]; omega), List.length_take, min_eq_left (by omega)]
      split
      · rw [List.getElem?_append_left (by omega)]
      · rw [List.getElem?_append_right (by omega), List.getElem?_drop]
        congr 1
        omega
  unfold FixedOut.writeAt
  split
  · refine ⟨?_, ?_, ?_⟩
    · simp only [List.length_append, List.length_take, List.length_drop]
      omega
    · rw [hglen]; exact h.len
    · intro i hi
      dsimp only at hi ⊢
      rw [hglen, hsplice (by omega), hsplice hpos]
      split
      · exact (h.bytes i hi).imp_right hmono
      · split
        · exact .inl rfl
        · exact (h.bytes i hi).imp_right hmono
  · rename_i hskip
    refine ⟨h.room, ?_, ?_⟩
    · rw [hglen]; exact h.len
    · intro i hi
      rw [hglen, hsplice hpos]
      split
      · exact (h.bytes i hi).imp_right hmono
      · split
        · -- inside the patch that was skipped, whose end is past the capacity
          right
          refine ⟨pos, bytes, List.mem_append_right _ List.mem_cons_self, by omega, by omega, ?_, hpos⟩
          omega
        · exact (h.bytes i hi).imp_right hmono

/-- One operation. -/
theorem Simulates.perform (h : Simulates before capacity g f) {op : OutOp} (hallowed : op.Allowed before (.growable g))
    {o : OutBuf} (hop : op.perform (.growable g) = some o) :
    ∃ g' f', o = .growable g' ∧ op.perform (.fixed f) = some (.fixed f') ∧
      Simulates (before ++ [op]) capacity g' f' := by
  have hweaken : ∀ {g' : Bytes} {f' : FixedOut}, Simulates before capacity g' f' →
      Simulates (before ++ [op]) capacity g' f' := by
    intro g' f' h'
    refine ⟨h'.room, h'.len, fun i hi => ?_⟩
    exact (h'.bytes i hi).imp_right fun hs => hs.mono (fun op hop => List.mem_append_left _ hop) le_rfl
  cases op with
  | push byte =>
    cases hop
    exact ⟨_, _, rfl, rfl, hweaken (h.push byte)⟩
  | extend bytes =>
    cases hop
    exact ⟨_, _, rfl, rfl, hweaken (h.extend bytes)⟩
  | resize newLen value =>
    cases hop
    have hgrows : g.length ≤ newLen := hallowed
    refine ⟨_, _, rfl, rfl, hweaken ?_⟩
    rw [List.take_of_length_le hgrows, h.len]
    exact h.pushes value _
  | truncate newLen =>
    cases hop
    exact ⟨_, _, rfl, rfl, hweaken (h.truncate hallowed)⟩
  | writeAt pos bytes =>
    unfold OutOp.perform OutBuf.writeAt at hop
    dsimp only at hop
    split at hop
    · cases hop
      exact ⟨_, _, rfl, rfl, h.writeAt ‹_›⟩
    · cases hop

/-- A run of operations. -/
theorem Simulates.run : ∀ (ops : List OutOp) {before : List OutOp} {g : Bytes} {f : FixedOut},
    Simulates before capacity g f → OutOp.AllAllowed before ops (.growable g) → ∀ {o : OutBuf},
    OutOp.run ops (.growable g) = some o →
    ∃ g' f', o = .growable g' ∧ OutOp.run ops (.fixed f) = some (.fixed f') ∧
      Simulates (before ++ ops) capacity g' f'
  | [], before, g, f, h, _, o, hrun => by
    cases hrun
    rw [List.append_nil]
    exact ⟨g, f, rfl, rfl, h⟩
  | op :: ops, before, g, f, h, hallowed, o, hrun => by
    obtain ⟨o₁, hop, hrun⟩ := Option.bind_eq_some_iff.1 hrun
    obtain ⟨hop_allowed, hrest⟩ := hallowed
    obtain ⟨g₁, f₁, rfl, hop', h₁⟩ := h.perform hop_allowed hop
    obtain ⟨g', f', rfl, hrun', h'⟩ := h₁.run ops (hrest _ hop) hrun
    refine ⟨g', f', rfl, ?_, ?_⟩
    · unfold OutOp.run
      rw [hop']
      exact hrun'
    · rw [List.append_assoc] at h'
      exact h'

/-- Whatever is pushed, extended, grown, rolled back and patched, with no rollback into a patch, the fixed mode reports
the length of the growable one, has overflowed exactly when that exceeds its capacity, and otherwise holds the same
bytes. -/
theorem fixed_simulates_growable {ops : List OutOp} {o : OutBuf} (buf : Bytes)
    (hallowed : OutOp.AllAllowed [] ops (.growable [])) (hrun : OutOp.run ops (.growable []) = some o) :
    ∃ f, OutOp.run ops (.fixed (.ofBuffer buf)) = some f ∧ f.len = o.len ∧
      (f.overflowed = true ↔ buf.length < o.len) ∧ (f.overflowed = false → f.asSlice = o.asSlice) := by
  obtain ⟨g, f, rfl, hrun', h⟩ := (Simulates.start buf).run ops hallowed hrun
  have hlen := h.len
  have hstored := f.stored_le
  have hfull := f.full
  have hcapacity := h.room
  unfold FixedOut.len at hlen
  refine ⟨.fixed f, hrun', h.len, ?_, ?_⟩
  · show (decide (0 < f.dropped) = true) ↔ buf.length < g.length
    rw [decide_eq_true_iff]
    omega
  · intro hfits
    have hfits : f.dropped = 0 := by
      have : ¬ 0 < f.dropped := of_decide_eq_false hfits
      omega
    have hall := h.fits hfits
    show f.buf.take f.stored = g
    apply List.ext_getElem?
    intro i
    rcases Nat.lt_or_ge i f.stored with hlt | hge
    · rw [List.getElem?_take_of_lt hlt]
      rcases h.bytes i hlt with heq | ⟨pos, bytes, -, -, -, hpast, hwritten⟩
      · exact heq
      · omega
    · rw [List.getElem?_eq_none (by rw [List.length_take]; omega), List.getElem?_eq_none (by omega)]

theorem fixed_simulates_growable_patched :
    ∃ f, OutOp.run [.resize 3 0, .extend [1, 2], .writeAt 0 [7, 8, 9], .truncate 3, .push 5]
        (.fixed (.ofBuffer [0, 0, 0, 0])) = some f ∧
      f.len = 4 ∧ (f.overflowed = true ↔ 4 < 4) ∧ (f.overflowed = false → f.asSlice = [7, 8, 9, 5]) := by
  have hrun : OutOp.run [.resize 3 0, .extend [1, 2], .writeAt 0 [7, 8, 9], .truncate 3, .push 5] (.growable []) =
    some (.growable [7, 8, 9, 5]) := rfl
  apply fixed_simulates_growable [0, 0, 0, 0] ?_ hrun
  refine ⟨Nat.zero_le 3, ?_⟩
  rintro o ⟨⟩
  refine ⟨trivial, ?_⟩
  rintro o ⟨⟩
  refine ⟨trivial, ?_⟩
  rintro o ⟨⟩
  refine ⟨?_, ?_⟩
  · -- the rollback is to the end of the patch
    intro pos bytes hmem
    simp only [List.cons_append, List.nil_append, List.mem_cons, reduceCtorEq, OutOp.writeAt.injEq,
      List.not_mem_nil, or_false, false_or] at hmem
    obtain ⟨rfl, rfl⟩ := hmem
    decide
  · rintro o ⟨⟩
    exact ⟨trivial, fun _ _ => trivial⟩

end Zstandard
