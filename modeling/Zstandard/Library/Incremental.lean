/-
Readers of the beginning of an input that is still arriving. A reader is incremental at `eof` when,
on every prefix, it either asks for more input by failing with `eof` or already gives the answer it
gives on every longer input. The combinators keep the property, so a header parser built from
checked reads has it by construction, and a resumable driver that retries on `eof` agrees with a
one-shot driver.
-/
import Mathlib.Tactic

namespace Reader

variable {ι α β ε : Type}

/-- `p` either asks for more input with `eof` or is not changed by more input. -/
def Incremental (eof : ε) (p : List ι → Except ε α) : Prop :=
  ∀ s t, p s = .error eof ∨ p (s ++ t) = p s

variable {eof : ε} {p : List ι → Except ε α}

theorem incremental_const (r : Except ε α) : Incremental (ι := ι) eof (fun _ => r) := fun _ _ => .inr rfl

theorem Incremental.bind {f : α → List ι → Except ε β} (hp : Incremental eof p)
    (hf : ∀ a, Incremental eof (f a)) : Incremental eof (fun s => p s >>= fun a => f a s) := by
  intro s t
  rcases hp s t with h | h
  · left; simp only [h]; rfl
  · simp only [h]
    cases hs : p s with
    | error e => right; rfl
    | ok a => exact hf a s t

theorem Incremental.map {f : α → β} (hp : Incremental eof p) :
    Incremental eof (fun s => f <$> p s) := by
  intro s t
  rcases hp s t with h | h
  · left; simp only [h]; rfl
  · right; simp only [h]

theorem Incremental.ite {q : List ι → Except ε α} {c : Prop} [Decidable c]
    (hp : Incremental eof p) (hq : Incremental eof q) :
    Incremental eof (fun s => if c then p s else q s) := by
  by_cases hc : c
  · simpa only [if_pos hc] using hp
  · simpa only [if_neg hc] using hq

theorem Incremental.ok_append (hp : Incremental eof p) {s : List ι} {a : α} (h : p s = .ok a)
    (t : List ι) : p (s ++ t) = .ok a := by
  rcases hp s t with h' | h'
  · rw [h] at h'; cases h'
  · rw [h', h]

theorem Incremental.error_append (hp : Incremental eof p) {s : List ι} {e : ε} (h : p s = .error e)
    (he : e ≠ eof) (t : List ι) : p (s ++ t) = .error e := by
  rcases hp s t with h' | h'
  · rw [h] at h'; cases h'; exact absurd rfl he
  · rw [h', h]

/-- Input that is not enough for a longer prefix is not enough for a shorter one. -/
theorem Incremental.eof_of_append (hp : Incremental eof p) {s t : List ι}
    (h : p (s ++ t) = .error eof) : p s = .error eof := by
  rcases hp s t with h' | h'
  · exact h'
  · rw [← h', h]

end Reader
