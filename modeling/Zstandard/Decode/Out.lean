/-
The decoder's output: a growable buffer or a caller's slice (`DecodeOut`), the cap on what a decoder
may produce (`OutputLimit`), and the raw memory the sequence executor writes through (`Region`).

Between blocks a growable buffer is its contents. Within a block it is a region: the contents and
the spare capacity behind them, of which the allocator promises only the length.
-/
import Zstandard.Decode.Literals
import Zstandard.Decode.Sequence
import Zstandard.Library.Lz

namespace Zstandard

/-! ## Destinations -/

/-- The fixed-capacity half of `DecodeOut`. -/
structure FixedDst where
  buf : Bytes
  len : Nat
  le : len ≤ buf.length
deriving DecidableEq, Repr

/-- `DecodeOut`: a vector, or a destination of a fixed size. -/
inductive DecodeOut where
  | growable (buf : Bytes)
  | fixed (dst : FixedDst)
deriving DecidableEq, Repr

namespace DecodeOut

/-- `DecodeOut::fixed`. -/
def fixedOf (buf : Bytes) : DecodeOut := .fixed ⟨buf, 0, Nat.zero_le _⟩

/-- The decoded bytes. -/
def asSlice : DecodeOut → Bytes
  | growable buf => buf
  | fixed dst => dst.buf.take dst.len

/-- `len`. -/
def len : DecodeOut → Nat
  | growable buf => buf.length
  | fixed dst => dst.len

/-- How many bytes the destination can ever hold: no bound for a growable one. -/
def room : DecodeOut → Option Nat
  | growable _ => none
  | fixed dst => some dst.buf.length

/-- `clear`. -/
def clear : DecodeOut → DecodeOut
  | growable _ => growable []
  | fixed dst => fixed ⟨dst.buf, 0, Nat.zero_le _⟩

/-- `append`: a write that would not fit a fixed destination fails whole. -/
def append : DecodeOut → Bytes → Result DecodeOut
  | growable buf, bytes => .ok (growable (buf ++ bytes))
  | fixed dst, bytes =>
    if h : dst.len + bytes.length ≤ dst.buf.length then
      .ok (fixed ⟨Lz.write dst.buf dst.len bytes, dst.len + bytes.length, by rw [Lz.length_write h]; exact h⟩)
    else .error .dstSizeTooSmall

/-- `append_repeated`. -/
def appendRepeated (out : DecodeOut) (byte : UInt8) (count : Nat) : Result DecodeOut :=
  out.append (List.replicate count byte)

@[simp] theorem length_asSlice (out : DecodeOut) : out.asSlice.length = out.len := by
  cases out with
  | growable buf => rfl
  | fixed dst => have := dst.le; simp [asSlice, len]; omega

end DecodeOut

/-! ## Output limits -/

def usizeMax : Nat := 2 ^ 64 - 1

/-- `OutputLimit`: the caller's cap, with what was produced before the bytes still held. -/
structure OutputLimit where
  producedBefore : Nat
  maxOutputSize : Option Nat
deriving DecidableEq, Repr

namespace OutputLimit

/-- The limit of an output that is kept whole. -/
def wholeOutput (maxOutputSize : Option Nat) : OutputLimit := { producedBefore := 0, maxOutputSize }

/-- The limit of an output whose front has been handed out. -/
def after (producedBefore : Nat) (maxOutputSize : Option Nat) : OutputLimit := { producedBefore, maxOutputSize }

/-- What has been produced together with this output. -/
def produced (l : OutputLimit) (outLen : Nat) : Nat := l.producedBefore + outLen

/-- `check_total`. -/
def checkTotal (l : OutputLimit) (outLen : Nat) : Result Unit :=
  match l.maxOutputSize with
  | none => .ok ()
  | some max => if l.produced outLen > max then .error (.outputSizeTooLarge (l.produced outLen) max) else .ok ()

/-- How many more bytes the cap allows: `usize::MAX` when there is none. -/
def remaining (l : OutputLimit) (outLen : Nat) : Result Nat :=
  match l.maxOutputSize with
  | none => .ok usizeMax
  | some limit =>
    if l.produced outLen ≤ limit then .ok (limit - l.produced outLen)
    else .error (.outputSizeTooLarge (l.produced outLen) limit)

end OutputLimit

def blockOutputTooLarge : Error := .corruption "compressed block output exceeds the frame block size limit"

/-- `sequence_budget_error`: which of the two limits folded into the budget was exceeded. -/
def sequenceBudgetError (additional blockRemaining outLen : Nat) (limit : OutputLimit) : Error :=
  if additional > blockRemaining then blockOutputTooLarge
  else
    match limit.maxOutputSize with
    | none => blockOutputTooLarge
    | some max =>
      if limit.produced outLen + additional > max then
        .outputSizeTooLarge (limit.produced outLen + additional) max
      else blockOutputTooLarge

/-- `ensure_decode_output_room`. -/
def ensureDecodeOutputRoom (outLen additional remainingBlockBytes remainingOutputBytes : Nat)
    (limit : OutputLimit) : Result Unit :=
  if additional > remainingBlockBytes then .error blockOutputTooLarge
  else if additional > remainingOutputBytes then
    .error (.outputSizeTooLarge (limit.produced outLen + additional) (limit.maxOutputSize.getD 0))
  else .ok ()

/-- `append_trailing_literals`: what the sequences leave of the literals, within the block and the output. -/
def appendTrailingLiterals (out : DecodeOut) (literals : Bytes) (literalCursor remainingBlockBytes
    remainingOutputBytes : Nat) (limit : OutputLimit) : Result DecodeOut :=
  if literalCursor > literals.length then
    .error (.corruption "sequence literal cursor exceeded literals buffer")
  else do
    let trailing := literals.drop literalCursor
    ensureDecodeOutputRoom out.len trailing.length remainingBlockBytes remainingOutputBytes limit
    out.append trailing

/-! ## The executor's memory -/

/-- `WILDCOPY_OVERLENGTH`: how far a wide copy may run past what it copies. -/
def wildcopyOverlength : Nat := 32

/-- What `Vec::reserve` promises: spare capacity of any contents behind what the buffer holds. -/
structure Allocator where
  spare : Bytes → Nat → Bytes
  enough : ∀ held additional, additional ≤ (spare held additional).length

/-- The output as the executor sees it: memory up to the capacity, the first `len` bytes decoded. -/
structure Region where
  growable : Bool
  mem : Bytes
  len : Nat
deriving DecidableEq, Repr

namespace Region

/-- What is written of the region. -/
def asSlice (r : Region) : Bytes := r.mem.take r.len

/-- `ensure_room`. -/
def ensureRoom (alloc : Allocator) (r : Region) (additional : Nat) : Result Region :=
  if r.mem.length - r.len ≥ additional then .ok r
  else if r.growable then .ok { r with mem := r.asSlice ++ alloc.spare r.asSlice additional }
  else .error .dstSizeTooSmall

/-- `append`: room is made first. -/
def append (alloc : Allocator) (r : Region) (bytes : Bytes) : Result Region := do
  if bytes.length = 0 then .ok r else
  let r ← r.ensureRoom alloc bytes.length
  .ok { r with mem := Lz.write r.mem r.len bytes, len := r.len + bytes.length }

end Region

/-- The raw memory of a destination after `try_reserve(additional)`: a hint a fixed one ignores. -/
def DecodeOut.region (alloc : Allocator) (additional : Nat) : DecodeOut → Region
  | .growable buf => { growable := true, mem := buf ++ alloc.spare buf additional, len := buf.length }
  | .fixed dst => { growable := false, mem := dst.buf, len := dst.len }

/-- The destination after `set_len`: the executor never moves the length past the capacity
(`Region.toOut_rel`), which the model's `min` keeps in the type. -/
def Region.toOut (r : Region) : DecodeOut :=
  if r.growable then .growable r.asSlice
  else .fixed ⟨r.mem, min r.len r.mem.length, min_le_right _ _⟩

end Zstandard
