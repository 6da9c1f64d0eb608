/-
A computation under a cap, beside the same computation without one. The second comes to ask for amounts of something
as it runs, `peak` at the most. The first refuses exactly when that is more than the cap, and otherwise does what the
second does, error for error (`Capped`). Where the second succeeds, what it holds in the end is the most it asked for
(`Reaches`).
-/
import Zstandard.Library.Follows

namespace Simulation

variable {ε α β γ δ : Type}

/-- What a computation goes on to ask for where it succeeds. -/
def onOk (y : Except ε β) (later : β → Nat) : Nat :=
  match y with
  | .ok b => later b
  | .error _ => 0

@[simp] theorem onOk_ok (b : β) (later : β → Nat) : onOk (.ok b : Except ε β) later = later b := rfl

@[simp] theorem onOk_error (e : ε) (later : β → Nat) : onOk (.error e : Except ε β) later = 0 := rfl

/-- None of the errors `x` can end in is a refusal. -/
def Plain (refusal : ε → Prop) (x : Except ε α) : Prop := ∀ e, x = .error e → ¬ refusal e

section Plain

variable {refusal : ε → Prop} {x : Except ε α}

@[grind ←] theorem Plain.of_ok (a : α) : Plain refusal (.ok a : Except ε α) := fun _ h => (nomatch h)

theorem Plain.of_error {e : ε} (h : ¬ refusal e) : Plain refusal (.error e : Except ε α) := by
  rintro e' ⟨⟩
  exact h

@[grind ←] theorem Plain.bind {f : α → Except ε γ} (h : Plain refusal x) (hf : ∀ a, x = .ok a → Plain refusal (f a)) :
    Plain refusal (x >>= f) := by
  cases x with
  | error e => rintro e' ⟨⟩; exact h e rfl
  | ok a => exact hf a rfl

@[grind ←] theorem Plain.map {f : α → γ} (h : Plain refusal x) : Plain refusal (f <$> x) := by
  cases x with
  | error e => rintro e' ⟨⟩; exact h e rfl
  | ok a => exact .of_ok (f a)

theorem Plain.foldlM {f : α → γ → Except ε α} (hf : ∀ a c, Plain refusal (f a c)) :
    ∀ (l : List γ) (a : α), Plain refusal (l.foldlM f a)
  | [], a => .of_ok a
  | c :: l, a => by
    rw [List.foldlM_cons]
    exact (hf a c).bind fun a' _ => Plain.foldlM hf l a'

end Plain

/-- `x` is `y` under a cap, where `y` asks for `peak` at the most. -/
structure Capped (cap : Nat) (refusal : ε → Prop) (rel : α → β → Prop) (peak : Nat) (x : Except ε α)
    (y : Except ε β) : Prop where
  refuses : cap < peak → ∃ e, x = .error e ∧ refusal e
  agrees : peak ≤ cap → Alike rel x y
  plain : peak ≤ cap → Plain refusal y

section Capped

variable {cap peak : Nat} {refusal : ε → Prop} {rel : α → β → Prop} {x : Except ε α} {y : Except ε β}

theorem Capped.of_alike (hle : peak ≤ cap) (h : Alike rel x y) (hplain : Plain refusal y) :
    Capped cap refusal rel peak x y :=
  ⟨fun hover => absurd hle (Nat.not_le_of_lt hover), fun _ => h, fun _ => hplain⟩

theorem Capped.of_refusal {e : ε} (hover : cap < peak) (h : refusal e) :
    Capped cap refusal rel peak (.error e : Except ε α) y :=
  ⟨fun _ => ⟨e, rfl, h⟩, fun hle => absurd hle (Nat.not_le_of_lt hover), fun hle => absurd hle (Nat.not_le_of_lt hover)⟩

theorem Capped.of_error {e : ε} (h : ¬ refusal e) :
    Capped cap refusal rel 0 (.error e : Except ε α) (.error e : Except ε β) :=
  .of_alike (Nat.zero_le cap) (.error e) (.of_error h)

theorem Capped.of_ok {a : α} {b : β} (h : rel a b) : Capped cap refusal rel 0 (.ok a : Except ε α) (.ok b) :=
  .of_alike (Nat.zero_le cap) (.ok h) (.of_ok b)

/-- The peaks of two steps, one after the other. -/
theorem Capped.bind {rel' : γ → δ → Prop} {f : α → Except ε γ} {g : β → Except ε δ} {later : β → Nat}
    (h : Capped cap refusal rel peak x y)
    (hfg : ∀ a b, x = .ok a → y = .ok b → rel a b → Capped cap refusal rel' (later b) (f a) (g b)) :
    Capped cap refusal rel' (max peak (onOk y later)) (x >>= f) (y >>= g) := by
  rcases Nat.lt_or_ge cap peak with hover | hle
  · obtain ⟨e, rfl, he⟩ := h.refuses hover
    exact ⟨fun _ => ⟨e, rfl, he⟩, fun hmax => by omega, fun hmax => by omega⟩
  have hplain := h.plain hle
  rcases h.agrees hle with ⟨hr⟩ | e
  · rename_i a b
    obtain ⟨h1, h2, h3⟩ := hfg a b rfl rfl hr
    refine ⟨fun hover => h1 ?_, fun hmax => h2 ?_, fun hmax => h3 ?_⟩ <;> rw [onOk_ok] at * <;> omega
  · refine ⟨fun hover => ?_, fun _ => .error e, fun _ => .of_error (hplain e rfl)⟩
    rw [onOk_error] at hover
    omega

/-- Both sides run the same computation first, which asks for nothing. -/
theorem Capped.bind_same {rel' : γ → δ → Prop} {z : Except ε α} {f : α → Except ε γ} {g : α → Except ε δ}
    {later : α → Nat} (hz : Plain refusal z)
    (hfg : ∀ a, z = .ok a → Capped cap refusal rel' (later a) (f a) (g a)) :
    Capped cap refusal rel' (onOk z later) (z >>= f) (z >>= g) := by
  cases z with
  | ok a => exact hfg a rfl
  | error e => exact .of_error (hz e rfl)

/-- A last step that asks for nothing more. -/
theorem Capped.map {rel' : γ → δ → Prop} {f : α → Except ε γ} {g : β → Except ε δ} (h : Capped cap refusal rel peak x y)
    (hfg : ∀ a b, x = .ok a → y = .ok b → rel a b → Capped cap refusal rel' 0 (f a) (g b)) :
    Capped cap refusal rel' peak (x >>= f) (y >>= g) := by
  have hzero : onOk y (fun _ => 0) = 0 := by cases y <;> rfl
  have hbind : Capped cap refusal rel' (max peak (onOk y fun _ => 0)) (x >>= f) (y >>= g) := h.bind hfg
  rwa [hzero, Nat.max_zero] at hbind

theorem Capped.mono {rel' : α → β → Prop} (h : Capped cap refusal rel peak x y) (hr : ∀ a b, rel a b → rel' a b) :
    Capped cap refusal rel' peak x y :=
  ⟨h.refuses, fun hle => (h.agrees hle).mono hr, h.plain⟩

/-- The capped computation ends in a refusal exactly when more than the cap is asked for. -/
theorem Capped.refused_iff (h : Capped cap refusal rel peak x y) : (∃ e, x = .error e ∧ refusal e) ↔ cap < peak := by
  refine ⟨?_, h.refuses⟩
  rintro ⟨e, rfl, he⟩
  by_contra hle
  have hsame := (h.agrees (Nat.le_of_not_lt hle)).symm.eq_error
  exact h.plain (Nat.le_of_not_lt hle) e hsame he

theorem Capped.le_of_ok (h : Capped cap refusal rel peak x y) {a : α} (ha : x = .ok a) :
    peak ≤ cap ∧ ∃ b, y = .ok b ∧ rel a b := by
  have hle : peak ≤ cap := by
    by_contra hover
    obtain ⟨e, he, -⟩ := h.refuses (Nat.lt_of_not_le hover)
    rw [ha] at he
    cases he
  exact ⟨hle, (h.agrees hle).of_ok ha⟩

end Capped

/-- Where `y` succeeds, it holds the most it asked for, or `start` where that is more. -/
def Reaches (size : β → Nat) (start peak : Nat) (y : Except ε β) : Prop := ∀ b, y = .ok b → size b = max start peak

section Reaches

variable {size : β → Nat} {start peak : Nat} {y : Except ε β}

theorem Reaches.of_ok {b : β} (h : size b = start) : Reaches size start 0 (.ok b : Except ε β) := by
  rintro b' ⟨⟩
  rw [Nat.max_zero, h]

theorem Reaches.of_error (e : ε) : Reaches size start peak (.error e : Except ε β) := fun _ h => (nomatch h)

theorem Reaches.bind {size' : δ → Nat} {g : β → Except ε δ} {later : β → Nat} (h : Reaches size start peak y)
    (hg : ∀ b, y = .ok b → Reaches size' (size b) (later b) (g b)) :
    Reaches size' start (max peak (onOk y later)) (y >>= g) := by
  intro c hc
  cases y with
  | error e => cases hc
  | ok b => rw [hg b rfl c hc, h b rfl, onOk_ok, Nat.max_assoc]

/-- A first step that holds nothing yet. -/
theorem Reaches.bind_same {size' : δ → Nat} {g : β → Except ε δ} {later : β → Nat}
    (hg : ∀ b, y = .ok b → Reaches size' start (later b) (g b)) : Reaches size' start (onOk y later) (y >>= g) := by
  intro c hc
  cases y with
  | error e => cases hc
  | ok b => exact hg b rfl c hc

/-- A last step that keeps what is held. -/
theorem Reaches.map {size' : δ → Nat} {g : β → Except ε δ} (h : Reaches size start peak y)
    (hg : ∀ b, y = .ok b → ∀ c, g b = .ok c → size' c = size b) : Reaches size' start peak (y >>= g) := by
  intro c hc
  cases y with
  | error e => cases hc
  | ok b => rw [hg b rfl c hc, h b rfl]

end Reaches

end Simulation
