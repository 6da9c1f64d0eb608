/-
The vocabulary every later module shares: byte strings, the error type of the crate, the checked
slice reads (`get(pos)`, `get(pos..end)`) and the little-endian readers, with the facts that a read
made inside a prefix does not see what follows it.
-/
import Mathlib.Tactic

namespace Zstandard

/-- A byte slice or an owned byte buffer. -/
abbrev Bytes := List UInt8

/-- `Error`: everything the encoder, the decoder and the dictionary paths report. -/
inductive Error where
  | generic
  | invalidParameter (parameter : String)
  | dstSizeTooSmall
  | srcSizeWrong
  | unexpectedEof
  | badMagic (magic : Nat)
  | corruption (message : String)
  | tableLogTooLarge
  | maxSymbolValueTooLarge
  | maxSymbolValueTooSmall
  | workSpaceTooSmall
  | windowSizeTooLarge (windowSize maxWindowSize : Nat)
  | dictionaryRequired (id : Option Nat)
  | dictionaryMismatch (expected actual : Nat)
  | outputSizeTooLarge (outputSize maxOutputSize : Nat)
  | contentSizeTooLarge (size : Nat)
  | outputSizeOverflow
  | contentSizeMismatch (expected actual : Nat)
  | trailingInput (offset : Nat)
  | checksumMismatch (expected actual : Nat)
deriving DecidableEq, Repr

abbrev Result (α : Type) := Except Error α

/-! ## Results -/

theorem bind_ok {α β : Type} {x : Result α} {f : α → Result β} {b : β} (h : (x >>= f) = .ok b) :
    ∃ a, x = .ok a ∧ f a = .ok b := by
  cases x with
  | error e => cases h
  | ok a => exact ⟨a, rfl, h⟩

@[simp] theorem ok_bind {α β : Type} (a : α) (f : α → Result β) : (Except.ok a >>= f) = f a := rfl

@[simp] theorem error_bind {α β : Type} (e : Error) (f : α → Result β) :
    ((Except.error e : Result α) >>= f) = .error e := rfl

@[simp] theorem map_ok {α β : Type} (f : α → β) (a : α) :
    (f <$> (Except.ok a : Result α)) = .ok (f a) := rfl

@[simp] theorem map_error {α β : Type} (f : α → β) (e : Error) :
    (f <$> (Except.error e : Result α)) = .error e := rfl

/-- `checked_add` on a 64-bit counter, with the error the caller names for `None`. -/
def checkedAdd (a b : Nat) (e : Error) : Result Nat :=
  if a + b < 2 ^ 64 then .ok (a + b) else .error e

theorem checkedAdd_ok {a b c : Nat} {e : Error} (h : checkedAdd a b e = .ok c) : c = a + b ∧ a + b < 2 ^ 64 := by
  unfold checkedAdd at h
  split at h
  · cases h; exact ⟨rfl, by assumption⟩
  · cases h

theorem checkedAdd_of_lt {a b : Nat} {e : Error} (h : a + b < 2 ^ 64) : checkedAdd a b e = .ok (a + b) := by
  unfold checkedAdd; rw [if_pos h]

/-! ## Slice reads -/

/-- `src.get(pos).ok_or(UnexpectedEof)`. -/
def getByte (src : Bytes) (pos : Nat) : Result UInt8 :=
  match src[pos]? with
  | some b => .ok b
  | none => .error .unexpectedEof

/-- `src.get(pos..end).ok_or(UnexpectedEof)`. -/
def getRange (src : Bytes) (pos stop : Nat) : Result Bytes :=
  if pos ≤ stop ∧ stop ≤ src.length then .ok ((src.drop pos).take (stop - pos)) else .error .unexpectedEof

/-- `src.get(pos..).ok_or(UnexpectedEof)`. -/
def getFrom (src : Bytes) (pos : Nat) : Result Bytes :=
  if pos ≤ src.length then .ok (src.drop pos) else .error .unexpectedEof

/-- `from_le_bytes`, for any width. -/
def readLe : Bytes → Nat
  | [] => 0
  | b :: bs => b.toNat + 256 * readLe bs

/-- `to_le_bytes` truncated to `n` bytes. -/
def writeLe (value : Nat) : Nat → Bytes
  | 0 => []
  | n + 1 => UInt8.ofNat (value % 256) :: writeLe (value / 256) n

def readU24Le (src : Bytes) : Nat := readLe (src.take 3)
def readU32Le (src : Bytes) : Nat := readLe (src.take 4)

@[simp] theorem writeLe_length : ∀ (n value : Nat), (writeLe value n).length = n
  | 0, _ => rfl
  | n + 1, value => by simp [writeLe, writeLe_length n]

theorem readLe_lt : ∀ bs : Bytes, readLe bs < 256 ^ bs.length
  | [] => by simp [readLe]
  | b :: bs => by
    have h := readLe_lt bs
    have hb := b.toNat_lt
    simp only [readLe, List.length_cons, pow_succ]
    omega

/-- Reading back what was written, for a value of at most `n` bytes. -/
theorem readLe_writeLe : ∀ (n value : Nat), value < 256 ^ n → readLe (writeLe value n) = value
  | 0, value, h => by simp at h; simp [writeLe, readLe, h]
  | n + 1, value, h => by
    have hlt : value / 256 < 256 ^ n := by
      rw [Nat.div_lt_iff_lt_mul (by norm_num)]; rwa [pow_succ] at h
    simp only [writeLe, readLe, readLe_writeLe n _ hlt, UInt8.toNat_ofNat']
    omega

theorem getByte_ok {src : Bytes} {pos : Nat} {b : UInt8} (h : getByte src pos = .ok b) :
    src[pos]? = some b := by
  unfold getByte at h
  split at h
  · cases h; assumption
  · cases h

theorem getRange_ok {src r : Bytes} {pos stop : Nat} (h : getRange src pos stop = .ok r) :
    pos ≤ stop ∧ stop ≤ src.length ∧ r = (src.drop pos).take (stop - pos) := by
  unfold getRange at h
  split at h
  · rename_i hc; cases h; exact ⟨hc.1, hc.2, rfl⟩
  · cases h

theorem getFrom_ok {src r : Bytes} {pos : Nat} (h : getFrom src pos = .ok r) :
    pos ≤ src.length ∧ r = src.drop pos := by
  unfold getFrom at h
  split at h
  · cases h; exact ⟨by assumption, rfl⟩
  · cases h

theorem getRange_length {src r : Bytes} {pos stop : Nat} (h : getRange src pos stop = .ok r) :
    r.length = stop - pos := by
  obtain ⟨h1, h2, rfl⟩ := getRange_ok h
  simp; omega

end Zstandard
