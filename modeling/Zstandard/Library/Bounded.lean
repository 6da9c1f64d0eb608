/-
Refinement of a computation on a bounded resource by one on an unbounded resource.

`Agrees fits unbounded rel x y` relates the outcome `x` of the bounded computation to the outcome `y`
of its specification: where the specification succeeds with a result that fits, so does the bounded
computation, with a related result; where the result does not fit, or the specification fails, the
bounded computation fails, and with the specification's own error when there is no bound at all.

The bind rule lets the two be related step by step. It asks that fitting is monotone: a result that
fits was reached through results that fit.
-/
import Mathlib.Tactic

namespace Bounded

variable {ε α β γ δ : Type}

structure Agrees (fits : β → Prop) (unbounded : Prop) (rel : α → β → Prop) (x : Except ε α) (y : Except ε β) :
    Prop where
  ok : ∀ b, y = .ok b → fits b → ∃ a, x = .ok a ∧ rel a b
  full : ∀ b, y = .ok b → ¬ fits b → ∃ e, x = .error e
  error : ∀ e, y = .error e → ∃ e', x = .error e' ∧ (unbounded → e' = e)

variable {fits : β → Prop} {unbounded : Prop} {rel : α → β → Prop} {x : Except ε α} {y : Except ε β}

theorem Agrees.of_ok {a : α} {b : β} (hf : fits b) (h : rel a b) :
    Agrees fits unbounded rel (.ok a : Except ε α) (.ok b) :=
  ⟨fun b' hb _ => by cases hb; exact ⟨a, rfl, h⟩, fun b' hb hn => by cases hb; exact absurd hf hn,
    fun e he => (nomatch he)⟩

theorem Agrees.of_error (e : ε) : Agrees fits unbounded rel (.error e : Except ε α) (.error e) :=
  ⟨fun b hb => (nomatch hb), fun b hb => (nomatch hb), fun e' he => by cases he; exact ⟨e, rfl, fun _ => rfl⟩⟩

/-- Both sides continue from related results. -/
theorem Agrees.bind {fits' : δ → Prop} {rel' : γ → δ → Prop} {f : α → Except ε γ} {g : β → Except ε δ}
    (h : Agrees fits unbounded rel x y) (hu : ∀ b, unbounded → fits b)
    (hmono : ∀ b d, y = .ok b → g b = .ok d → fits' d → fits b)
    (hfg : ∀ a b, y = .ok b → fits b → rel a b → Agrees fits' unbounded rel' (f a) (g b)) :
    Agrees fits' unbounded rel' (x >>= f) (y >>= g) := by
  cases hy : y with
  | error e =>
    obtain ⟨e', rfl, he⟩ := h.error e hy
    exact ⟨fun b hb => (nomatch hb), fun b hb => (nomatch hb),
      fun e'' h'' => by cases h''; exact ⟨e', rfl, he⟩⟩
  | ok b =>
    by_cases hb : fits b
    · obtain ⟨a, rfl, hr⟩ := h.ok b hy hb
      exact hfg a b hy hb hr
    · obtain ⟨e, rfl⟩ := h.full b hy hb
      exact ⟨fun d hd hf => absurd (hmono b d hy hd hf) hb, fun d _ _ => ⟨e, rfl⟩,
        fun e' _ => ⟨e, rfl, fun hun => absurd (hu b hun) hb⟩⟩

/-- Both sides run the same computation first. -/
theorem Agrees.bind_same {fits' : δ → Prop} {rel' : γ → δ → Prop} {z : Except ε α} {f : α → Except ε γ}
    {g : α → Except ε δ} (hfg : ∀ a, z = .ok a → Agrees fits' unbounded rel' (f a) (g a)) :
    Agrees fits' unbounded rel' (z >>= f) (z >>= g) := by
  cases hz : z with
  | error e => exact .of_error e
  | ok a => exact hfg a hz

/-- The last step on both sides is a pure one. -/
theorem Agrees.map {fits' : δ → Prop} {rel' : γ → δ → Prop} {f : α → γ} {g : β → δ}
    (h : Agrees fits unbounded rel x y) (hfits : ∀ b, y = .ok b → (fits' (g b) ↔ fits b))
    (hrel : ∀ a b, y = .ok b → fits b → rel a b → rel' (f a) (g b)) :
    Agrees fits' unbounded rel' (x >>= fun a => .ok (f a)) (y >>= fun b => .ok (g b)) := by
  cases hy : y with
  | error e =>
    obtain ⟨e', rfl, he⟩ := h.error e hy
    exact ⟨fun b hb => (nomatch hb), fun b hb => (nomatch hb),
      fun e'' h'' => by cases h''; exact ⟨e', rfl, he⟩⟩
  | ok b =>
    refine ⟨fun d hd hf => ?_, fun d hd hf => ?_, fun e he => (nomatch he)⟩
    · cases hd
      have hfb := (hfits b hy).1 hf
      obtain ⟨a, rfl, hr⟩ := h.ok b hy hfb
      exact ⟨f a, rfl, hrel a b hy hfb hr⟩
    · cases hd
      obtain ⟨e, rfl⟩ := h.full b hy fun hb => hf ((hfits b hy).2 hb)
      exact ⟨e, rfl⟩

/-- Two bounded computations of one specification have the same successes, as far as their results
are determined by it. -/
theorem Agrees.toOption_eq {x' : Except ε α} (h : Agrees fits unbounded rel x y) (h' : Agrees fits unbounded rel x' y)
    {view : α → γ} {view' : β → γ} (hview : ∀ a b, rel a b → view a = view' b) :
    (view <$> x).toOption = (view <$> x').toOption := by
  cases hy : y with
  | error e =>
    obtain ⟨e₁, rfl, -⟩ := h.error e hy
    obtain ⟨e₂, rfl, -⟩ := h'.error e hy
    rfl
  | ok b =>
    by_cases hb : fits b
    · obtain ⟨a₁, rfl, hr₁⟩ := h.ok b hy hb
      obtain ⟨a₂, rfl, hr₂⟩ := h'.ok b hy hb
      exact congrArg some ((hview a₁ b hr₁).trans (hview a₂ b hr₂).symm)
    · obtain ⟨e₁, rfl⟩ := h.full b hy hb
      obtain ⟨e₂, rfl⟩ := h'.full b hy hb
      rfl

/-- A bounded computation succeeds exactly when its specification does and the result fits. -/
theorem Agrees.ok_iff (h : Agrees fits unbounded rel x y) {view : α → β} (hview : ∀ a b, rel a b → view a = b) (b : β) :
    (view <$> x) = .ok b ↔ y = .ok b ∧ fits b := by
  constructor
  · intro hx
    cases hy : y with
    | error e =>
      obtain ⟨e', rfl, -⟩ := h.error e hy
      cases hx
    | ok b' =>
      by_cases hb : fits b'
      · obtain ⟨a, rfl, hr⟩ := h.ok b' hy hb
        cases hx
        rw [hview a b' hr]
        exact ⟨rfl, hb⟩
      · obtain ⟨e, rfl⟩ := h.full b' hy hb
        cases hx
  · rintro ⟨hy, hb⟩
    obtain ⟨a, rfl, hr⟩ := h.ok b hy hb
    exact congrArg Except.ok (hview a b hr)

end Bounded
