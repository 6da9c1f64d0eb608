/-
One fallible computation following another: whenever the first succeeds, so does the second, with a
related result. Forward simulations of drivers are built from it step by step. Two computations match
when each follows the other.
-/
import Mathlib.Tactic

namespace Simulation

variable {ε α β γ δ : Type}

/-- Whenever `x` succeeds, so does `y`, with a related result. -/
def Follows (rel : α → β → Prop) (x : Except ε α) (y : Except ε β) : Prop :=
  ∀ a, x = .ok a → ∃ b, y = .ok b ∧ rel a b

variable {rel : α → β → Prop} {x : Except ε α} {y : Except ε β}

theorem Follows.of_ok {a : α} {b : β} (h : rel a b) : Follows rel (.ok a : Except ε α) (.ok b) :=
  fun a' ha => by cases ha; exact ⟨b, rfl, h⟩

theorem Follows.of_error (e : ε) : Follows rel (.error e) y := fun _ ha => (nomatch ha)

theorem Follows.bind {rel' : γ → δ → Prop} {f : α → Except ε γ} {g : β → Except ε δ} (h : Follows rel x y)
    (hfg : ∀ a b, x = .ok a → rel a b → Follows rel' (f a) (g b)) : Follows rel' (x >>= f) (y >>= g) := by
  intro c hc
  cases hx : x with
  | error e => rw [hx] at hc; cases hc
  | ok a =>
    rw [hx] at hc
    obtain ⟨b, rfl, hr⟩ := h a hx
    exact hfg a b hx hr c hc

/-- Both sides run the same computation first. -/
theorem Follows.bind_same {rel' : γ → δ → Prop} {z : Except ε α} {f : α → Except ε γ} {g : α → Except ε δ}
    (hfg : ∀ a, z = .ok a → Follows rel' (f a) (g a)) : Follows rel' (z >>= f) (z >>= g) := by
  intro c hc
  cases hz : z with
  | error e => rw [hz] at hc; cases hc
  | ok a => rw [hz] at hc; exact hfg a hz c hc

theorem Follows.mono {rel' : α → β → Prop} (h : Follows rel x y) (hr : ∀ a b, rel a b → rel' a b) :
    Follows rel' x y :=
  fun a ha => (h a ha).imp fun _ hb => ⟨hb.1, hr _ _ hb.2⟩

/-- Both succeed, with related results, or both fail. -/
def Matches (rel : α → β → Prop) (x : Except ε α) (y : Except ε β) : Prop :=
  Follows rel x y ∧ Follows (fun b a => rel a b) y x

theorem Matches.of_ok {a : α} {b : β} (h : rel a b) : Matches rel (.ok a : Except ε α) (.ok b) :=
  ⟨.of_ok h, .of_ok h⟩

theorem Matches.of_error (e e' : ε) : Matches rel (.error e : Except ε α) (.error e') :=
  ⟨.of_error e, .of_error e'⟩

theorem Matches.bind {rel' : γ → δ → Prop} {f : α → Except ε γ} {g : β → Except ε δ} (h : Matches rel x y)
    (hfg : ∀ a b, x = .ok a → y = .ok b → rel a b → Matches rel' (f a) (g b)) : Matches rel' (x >>= f) (y >>= g) := by
  cases hx : x with
  | error e =>
    cases hy : y with
    | error e' => exact .of_error e e'
    | ok b =>
      obtain ⟨a, ha, -⟩ := h.2 b hy
      rw [hx] at ha
      cases ha
  | ok a =>
    obtain ⟨b, hy, hr⟩ := h.1 a hx
    rw [hy]
    exact hfg a b hx hy hr

/-- Both sides run the same computation first. -/
theorem Matches.bind_same {rel' : γ → δ → Prop} {z : Except ε α} {f : α → Except ε γ} {g : α → Except ε δ}
    (hfg : ∀ a, z = .ok a → Matches rel' (f a) (g a)) : Matches rel' (z >>= f) (z >>= g) := by
  cases hz : z with
  | error e => exact .of_error e e
  | ok a => exact hfg a hz

theorem Matches.refl (x : Except ε α) : Matches Eq x x := by
  cases x with
  | error e => exact .of_error e e
  | ok a => exact .of_ok rfl

theorem Matches.trans {rel' : β → γ → Prop} {rel'' : α → γ → Prop} {z : Except ε γ} (h : Matches rel x y)
    (h' : Matches rel' y z) (hr : ∀ a b c, rel a b → rel' b c → rel'' a c) : Matches rel'' x z := by
  cases hx : x with
  | error e =>
    cases hz : z with
    | error e' => exact .of_error e e'
    | ok c =>
      obtain ⟨b, hb, -⟩ := h'.2 c hz
      obtain ⟨a, ha, -⟩ := h.2 b hb
      rw [hx] at ha
      cases ha
  | ok a =>
    obtain ⟨b, hb, h1⟩ := h.1 a hx
    obtain ⟨c, hc, h2⟩ := h'.1 b hb
    rw [hc]
    exact .of_ok (hr a b c h1 h2)

theorem Matches.eq_left {x' : Except ε α} (h : Matches Eq x x') (h' : Matches rel x' y) : Matches rel x y :=
  h.trans h' fun _ _ _ h1 h2 => h1 ▸ h2

theorem Matches.eq_right {y' : Except ε β} (h : Matches rel x y) (h' : Matches Eq y y') : Matches rel x y' :=
  h.trans h' fun _ _ _ h1 h2 => h2 ▸ h1

/-- Two computations that do not need each other may run in either order. -/
theorem Matches.swap (x : Except ε α) (y : Except ε β) (f : α → β → Except ε γ) :
    Matches Eq (x >>= fun a => y >>= fun b => f a b) (y >>= fun b => x >>= fun a => f a b) := by
  cases x with
  | error e =>
    cases y with
    | error e' => exact .of_error e e'
    | ok b => exact .of_error e e
  | ok a =>
    cases y with
    | error e' => exact .of_error e' e'
    | ok b => exact .refl _

theorem Matches.ok_iff (h : Matches rel x y) : (∃ a, x = .ok a) ↔ ∃ b, y = .ok b := by
  constructor
  · rintro ⟨a, ha⟩
    obtain ⟨b, hb, -⟩ := h.1 a ha
    exact ⟨b, hb⟩
  · rintro ⟨b, hb⟩
    obtain ⟨a, ha, -⟩ := h.2 b hb
    exact ⟨a, ha⟩

theorem Matches.related (h : Matches rel x y) {a : α} {b : β} (ha : x = .ok a) (hb : y = .ok b) : rel a b := by
  obtain ⟨b', hb', hr⟩ := h.1 a ha
  rw [hb] at hb'
  cases hb'
  exact hr

/-- Both succeed, with related results, or both fail with the same error. -/
inductive Alike (rel : α → β → Prop) : Except ε α → Except ε β → Prop
  | ok {a : α} {b : β} (h : rel a b) : Alike rel (.ok a) (.ok b)
  | error (e : ε) : Alike rel (.error e) (.error e)

theorem Alike.bind {rel' : γ → δ → Prop} {f : α → Except ε γ} {g : β → Except ε δ} (h : Alike rel x y)
    (hfg : ∀ a b, x = .ok a → y = .ok b → rel a b → Alike rel' (f a) (g b)) : Alike rel' (x >>= f) (y >>= g) := by
  cases h with
  | ok h => exact hfg _ _ rfl rfl h
  | error e => exact .error e

/-- Both sides run the same computation first. -/
theorem Alike.bind_same {rel' : γ → δ → Prop} {z : Except ε α} {f : α → Except ε γ} {g : α → Except ε δ}
    (hfg : ∀ a, z = .ok a → Alike rel' (f a) (g a)) : Alike rel' (z >>= f) (z >>= g) := by
  cases z with
  | ok a => exact hfg a rfl
  | error e => exact .error e

theorem Alike.mono {rel' : α → β → Prop} (h : Alike rel x y) (hr : ∀ a b, rel a b → rel' a b) : Alike rel' x y := by
  cases h with
  | ok h => exact .ok (hr _ _ h)
  | error e => exact .error e

theorem Alike.exists_ok {b : β} (h : Alike rel x (.ok b)) : ∃ a, x = .ok a ∧ rel a b := by
  cases h with
  | ok h => exact ⟨_, rfl, h⟩

theorem Alike.eq_error {e : ε} (h : Alike rel x (.error e)) : x = .error e := by
  cases h with
  | error => rfl

/-- Two loops over the same list, turn by turn. -/
theorem Alike.foldlM {rel : α → β → Prop} {f : α → γ → Except ε α} {g : β → γ → Except ε β}
    (hstep : ∀ a b c, rel a b → Alike rel (f a c) (g b c)) : ∀ (l : List γ) {a : α} {b : β}, rel a b →
    Alike rel (l.foldlM f a) (l.foldlM g b)
  | [], _, _, h => .ok h
  | c :: l, a, b, h => by
    rw [List.foldlM_cons, List.foldlM_cons]
    exact (hstep a b c h).bind fun _ _ _ _ h' => Alike.foldlM hstep l h'

theorem Alike.trans {rel' : β → γ → Prop} {rel'' : α → γ → Prop} {z : Except ε γ} (h : Alike rel x y)
    (h' : Alike rel' y z) (hr : ∀ a b c, rel a b → rel' b c → rel'' a c) : Alike rel'' x z := by
  cases h with
  | ok h =>
    cases h' with
    | ok h' => exact .ok (hr _ _ _ h h')
  | error e =>
    cases h' with
    | error => exact .error e

theorem Alike.symm (h : Alike rel x y) : Alike (fun b a => rel a b) y x := by
  cases h with
  | ok h => exact .ok h
  | error e => exact .error e

theorem Alike.of_ok (h : Alike rel x y) {a : α} (ha : x = .ok a) : ∃ b, y = .ok b ∧ rel a b := by
  cases h with
  | ok h =>
    cases ha
    exact ⟨_, rfl, h⟩
  | error e => cases ha

theorem Alike.eq {rel : α → α → Prop} {x y : Except ε α} (h : Alike rel x y) (hrel : ∀ a b, rel a b → a = b) :
    x = y := by
  cases h with
  | ok h => rw [hrel _ _ h]
  | error e => rfl

end Simulation
