/-
Computations with errors of two kinds: those that a run may end in, and those that it must not. `Avoids` is the partial
correctness that goes with them, with one rule for each way to put computations together.
-/
import Mathlib.Data.List.Basic

namespace Outcome

variable {ε α β γ : Type}

/-- `x` ends in no bad error, and what it returns satisfies `post`. -/
def Avoids (bad : ε → Prop) (x : Except ε α) (post : α → Prop) : Prop :=
  match x with
  | .ok a => post a
  | .error e => ¬ bad e

variable {bad : ε → Prop} {x : Except ε α} {post post' : α → Prop}

theorem Avoids.of_ok {a : α} (h : post a) : Avoids bad (.ok a : Except ε α) post := h

theorem Avoids.of_error {e : ε} (h : ¬ bad e) : Avoids bad (.error e : Except ε α) post := h

theorem Avoids.mono (h : Avoids bad x post) (hpost : ∀ a, post a → post' a) : Avoids bad x post' := by
  cases x with
  | error e => exact h
  | ok a => exact hpost a h

theorem Avoids.bind {f : α → Except ε β} {post' : β → Prop} (h : Avoids bad x post)
    (hf : ∀ a, post a → Avoids bad (f a) post') : Avoids bad (x >>= f) post' := by
  cases x with
  | error e => exact h
  | ok a => exact hf a h

theorem Avoids.not_bad (h : Avoids bad x post) {e : ε} (hx : x = .error e) : ¬ bad e := by
  subst hx
  exact h

theorem Avoids.of_eq_ok (h : Avoids bad x post) {a : α} (hx : x = .ok a) : post a := by
  subst hx
  exact h

/-- An invariant of every step is one of the loop. -/
theorem Avoids.foldlM (inv : α → Prop) {f : α → γ → Except ε α} : ∀ {l : List γ} {a : α},
    (∀ c ∈ l, ∀ a, inv a → Avoids bad (f a c) inv) → inv a → Avoids bad (l.foldlM f a) inv
  | [], _, _, ha => ha
  | c :: l, a, hf, ha => by
    rw [List.foldlM_cons]
    exact (hf c List.mem_cons_self a ha).bind fun a' ha' =>
      Avoids.foldlM inv (fun c' hc' => hf c' (List.mem_cons_of_mem _ hc')) ha'

/-- A loop with an invariant of the number of its steps. -/
theorem Avoids.foldlM_count (inv : Nat → α → Prop) {f : α → γ → Except ε α} : ∀ {l : List γ} {n : Nat} {a : α},
    (∀ c ∈ l, ∀ i, i < n + l.length → ∀ a, inv i a → Avoids bad (f a c) (inv (i + 1))) → inv n a →
      Avoids bad (l.foldlM f a) (inv (n + l.length))
  | [], _, _, _, ha => ha
  | c :: l, n, a, hf, ha => by
    rw [List.length_cons] at hf ⊢
    rw [List.foldlM_cons]
    refine (hf c List.mem_cons_self n (by omega) a ha).bind fun a' ha' => ?_
    have hrest := Avoids.foldlM_count inv (n := n + 1)
      (fun c' hc' i hi => hf c' (List.mem_cons_of_mem _ hc') i (by omega)) ha'
    rwa [show n + 1 + l.length = n + (l.length + 1) by omega] at hrest

/-- A loop over consecutive numbers, with an invariant of the next one. -/
theorem Avoids.foldlM_range' (inv : Nat → α → Prop) {f : α → Nat → Except ε α} : ∀ {n start : Nat} {a : α},
    (∀ i, start ≤ i → i < start + n → ∀ a, inv i a → Avoids bad (f a i) (inv (i + 1))) → inv start a →
      Avoids bad ((List.range' start n).foldlM f a) (inv (start + n))
  | 0, _, _, _, ha => ha
  | n + 1, start, a, hf, ha => by
    rw [List.range'_succ, List.foldlM_cons]
    refine (hf start (Nat.le_refl _) (by omega) a ha).bind fun a' ha' => ?_
    have hrest := Avoids.foldlM_range' inv (n := n)
      (fun i (hi : start + 1 ≤ i) hi' => hf i (by omega) (by omega)) ha'
    rwa [show start + 1 + n = start + (n + 1) by omega] at hrest

/-- What holds of the result for every element holds of all results. -/
theorem Avoids.mapM {f : γ → Except ε α} : ∀ {l : List γ}, (∀ c ∈ l, Avoids bad (f c) post) →
    Avoids bad (l.mapM f) (∀ a ∈ ·, post a)
  | [], _ => fun a ha => (nomatch ha)
  | c :: l, h => by
    rw [List.mapM_cons]
    refine (h c List.mem_cons_self).bind fun a ha => ?_
    refine (Avoids.mapM fun c' hc' => h c' (List.mem_cons_of_mem _ hc')).bind fun as has => ?_
    refine .of_ok fun a' ha' => ?_
    rcases List.mem_cons.1 ha' with rfl | ha'
    · exact ha
    · exact has a' ha'

/-- There are as many results as elements. -/
theorem Avoids.mapM_length {f : γ → Except ε α} : ∀ {l : List γ}, (∀ c ∈ l, Avoids bad (f c) fun _ => True) →
    Avoids bad (l.mapM f) (·.length = l.length)
  | [], _ => .of_ok rfl
  | c :: l, h => by
    rw [List.mapM_cons]
    refine (h c List.mem_cons_self).bind fun a _ => ?_
    refine (Avoids.mapM_length fun c' hc' => h c' (List.mem_cons_of_mem _ hc')).bind fun as hlength => ?_
    exact .of_ok (congrArg (· + 1) hlength)

end Outcome
