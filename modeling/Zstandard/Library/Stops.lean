/-
A walker that halts at stops. On each visit it may go as far as some reach and passes at most one stop:
the next one, if it is within reach. With reaches that never shrink, all stops are passed exactly when,
for each stop, there are as many visits that reach it as stops from it on.
-/
import Mathlib.Tactic

namespace Walker

variable {α : Type} [LinearOrder α]

/-- One visit with the given reach. -/
def pass : List α → α → List α
  | [], _ => []
  | stop :: stops, reach => if stop ≤ reach then stops else stop :: stops

@[simp] theorem pass_nil (reach : α) : pass [] reach = [] := rfl

theorem pass_of_le {stop reach : α} (h : stop ≤ reach) (stops : List α) : pass (stop :: stops) reach = stops := if_pos h

theorem pass_of_lt {stop reach : α} (h : reach < stop) (stops : List α) : pass (stop :: stops) reach = stop :: stops :=
  if_neg (not_le.2 h)

theorem pass_of_forall_lt {stops : List α} {reach : α} (h : ∀ z ∈ stops, reach < z) : pass stops reach = stops := by
  cases stops with
  | nil => rfl
  | cons stop stops => exact pass_of_lt (h stop List.mem_cons_self) stops

/-- How many elements are at `z` or behind it. -/
def countFrom (xs : List α) (z : α) : Nat := xs.countP (z ≤ ·)

theorem countFrom_cons_of_le {x z : α} (h : z ≤ x) (xs : List α) : countFrom (x :: xs) z = countFrom xs z + 1 :=
  List.countP_cons_of_pos (by simpa using h)

theorem countFrom_cons_of_lt {x z : α} (h : x < z) (xs : List α) : countFrom (x :: xs) z = countFrom xs z :=
  List.countP_cons_of_neg (by simpa using h)

theorem countFrom_le (xs : List α) (z : α) : countFrom xs z ≤ xs.length := List.countP_le_length

theorem countFrom_eq_length {xs : List α} {z : α} (h : ∀ x ∈ xs, z ≤ x) : countFrom xs z = xs.length :=
  List.countP_eq_length.2 fun x hx => by simpa using h x hx

/-- All stops are passed exactly when every stop is reached often enough. -/
theorem foldl_pass_eq_nil_iff : ∀ {stops reaches : List α}, stops.Pairwise (· ≤ ·) → reaches.Pairwise (· ≤ ·) →
    (reaches.foldl pass stops = [] ↔ ∀ z ∈ stops, countFrom stops z ≤ countFrom reaches z)
  | stops, [], _, _ => by
    cases stops with
    | nil => simp
    | cons stop stops =>
      rw [List.foldl_nil]
      refine ⟨fun h => (nomatch h), fun h => ?_⟩
      have := h stop List.mem_cons_self
      rw [countFrom_cons_of_le (le_refl _)] at this
      simp [countFrom] at this
  | [], reach :: reaches, _, hr => by
    rw [List.foldl_cons, pass_nil, foldl_pass_eq_nil_iff .nil (List.pairwise_cons.1 hr).2]
    simp
  | stop :: stops, reach :: reaches, hs, hr => by
    obtain ⟨hs1, hs2⟩ := List.pairwise_cons.1 hs
    obtain ⟨hr1, hr2⟩ := List.pairwise_cons.1 hr
    have hlater : ∀ z ≤ reach, countFrom reaches z = reaches.length := fun z hz =>
      countFrom_eq_length fun x hx => le_trans hz (hr1 x hx)
    rw [List.foldl_cons]
    rcases le_or_gt stop reach with hle | hlt
    · rw [pass_of_le hle, foldl_pass_eq_nil_iff hs2 hr2]
      constructor
      · intro h z hz
        rcases List.mem_cons.1 hz with rfl | hz'
        · -- the first stop: the visits that follow reach it as well, and pass the others
          rw [countFrom_cons_of_le (le_refl _), countFrom_cons_of_le hle, countFrom_eq_length hs1, hlater _ hle]
          cases stops with
          | nil => simp
          | cons next stops =>
            have hn := h next List.mem_cons_self
            rw [countFrom_eq_length (z := next)] at hn
            · have := countFrom_le reaches next; omega
            · exact fun x hx => by
                rcases List.mem_cons.1 hx with rfl | hx
                · exact le_refl _
                · exact (List.pairwise_cons.1 hs2).1 x hx
        · have hz2 := h z hz'
          rcases le_or_gt z stop with hzs | hzs
          · have hz3 : countFrom stops z = stops.length := countFrom_eq_length fun x hx => le_trans hzs (hs1 x hx)
            rw [countFrom_cons_of_le hzs, countFrom_cons_of_le (le_trans hzs hle)]
            omega
          · rw [countFrom_cons_of_lt hzs]
            refine le_trans hz2 ?_
            rcases le_or_gt z reach with hzr | hzr
            · rw [countFrom_cons_of_le hzr]; omega
            · rw [countFrom_cons_of_lt hzr]
      · intro h z hz
        have hz2 := h z (List.mem_cons_of_mem _ hz)
        rcases le_or_gt z reach with hzr | hzr
        · -- every visit that follows reaches `z`, and there are enough of them for all stops
          have hfirst := h stop List.mem_cons_self
          rw [countFrom_cons_of_le (le_refl _), countFrom_cons_of_le hle, countFrom_eq_length hs1,
            hlater _ hle] at hfirst
          have := countFrom_le stops z
          rw [hlater z hzr]
          omega
        · rw [countFrom_cons_of_lt hzr, countFrom_cons_of_lt (lt_of_le_of_lt hle hzr)] at hz2
          exact hz2
    · rw [pass_of_lt hlt, foldl_pass_eq_nil_iff hs hr2]
      refine forall₂_congr fun z hz => ?_
      have hz' : reach < z := by
        rcases List.mem_cons.1 hz with rfl | hz
        · exact hlt
        · exact lt_of_lt_of_le hlt (hs1 z hz)
      rw [countFrom_cons_of_lt hz' reaches]

end Walker
