/-
The spread of an FSE table gives every symbol as many slots as its count says.

The step of the spread is odd, so its walk meets every slot once before it comes back to the first.
Skipping the slots of the low-probability symbols, the walk meets the remaining ones in turn; there are
as many of them as symbols to place, so each is filled once and the walk ends where it began.
-/
import Zstandard.Entropy.Normalized

namespace Zstandard

namespace Fse

/-! ## The walk -/

/-- The slot the walk is at after `k` steps, none skipped. -/
def walk (tableSize k : Nat) : Nat := k * tableStep tableSize % tableSize

section
variable {tableLog k k' : Nat}

theorem tableStep_coprime (h : 4 ≤ tableLog) : Nat.Coprime (2 ^ tableLog) (tableStep (2 ^ tableLog)) := by
  obtain ⟨n, rfl⟩ : ∃ n, tableLog = n + 4 := ⟨tableLog - 4, by omega⟩
  have hodd : tableStep (2 ^ (n + 4)) % 2 = 1 := by
    unfold tableStep
    rw [pow_add]
    omega
  refine Nat.Coprime.pow_left _ ?_
  rw [Nat.coprime_two_left, Nat.odd_iff]
  exact hodd

theorem walk_lt (k : Nat) : walk (2 ^ tableLog) k < 2 ^ tableLog := Nat.mod_lt _ (by positivity)

theorem walk_succ (k : Nat) :
    walk (2 ^ tableLog) (k + 1) = (walk (2 ^ tableLog) k + tableStep (2 ^ tableLog)) % 2 ^ tableLog := by
  unfold walk
  rw [Nat.mod_add_mod, Nat.add_mul, Nat.one_mul]

theorem walk_period (k : Nat) : walk (2 ^ tableLog) (k + 2 ^ tableLog) = walk (2 ^ tableLog) k := by
  unfold walk
  rw [Nat.add_mul, Nat.add_mul_mod_self_left]

/-- Within one period no slot is met twice. -/
theorem walk_injective (h : 4 ≤ tableLog) (hk : k < 2 ^ tableLog) (hk' : k' < 2 ^ tableLog)
    (heq : walk (2 ^ tableLog) k = walk (2 ^ tableLog) k') : k = k' := by
  have hmod : k ≡ k' [MOD 2 ^ tableLog] :=
    Nat.ModEq.cancel_right_of_coprime (tableStep_coprime h) heq
  rwa [Nat.ModEq, Nat.mod_eq_of_lt hk, Nat.mod_eq_of_lt hk'] at hmod

/-- Within one period every slot is met. -/
theorem walk_surjective (h : 4 ≤ tableLog) {u : Nat} (hu : u < 2 ^ tableLog) :
    ∃ k < 2 ^ tableLog, walk (2 ^ tableLog) k = u := by
  have himage : (Finset.range (2 ^ tableLog)).image (walk (2 ^ tableLog)) = Finset.range (2 ^ tableLog) := by
    refine Finset.eq_of_subset_of_card_le (fun v hv => ?_) ?_
    · obtain ⟨k, -, rfl⟩ := Finset.mem_image.1 hv
      exact Finset.mem_range.2 (walk_lt k)
    · rw [Finset.card_image_of_injOn fun k hk k' hk' heq =>
        walk_injective h (Finset.mem_range.1 hk) (Finset.mem_range.1 hk') heq]
  have hmem : u ∈ (Finset.range (2 ^ tableLog)).image (walk (2 ^ tableLog)) := by
    rw [himage]
    exact Finset.mem_range.2 hu
  obtain ⟨k, hk, hku⟩ := Finset.mem_image.1 hmem
  exact ⟨k, Finset.mem_range.1 hk, hku⟩

/-- The slots up to `high` are met once each in a period. -/
theorem count_walk (h : 4 ≤ tableLog) {high : Nat} (hh : high < 2 ^ tableLog) :
    Nat.count (fun k => walk (2 ^ tableLog) k ≤ high) (2 ^ tableLog) = high + 1 := by
  rw [Nat.count_eq_card_filter_range]
  have himage : ((Finset.range (2 ^ tableLog)).filter fun k => walk (2 ^ tableLog) k ≤ high).image
      (walk (2 ^ tableLog)) = Finset.range (high + 1) := by
    ext u
    simp only [Finset.mem_image, Finset.mem_filter, Finset.mem_range]
    constructor
    · rintro ⟨k, ⟨-, hk⟩, rfl⟩
      omega
    · intro hu
      obtain ⟨k, hk, rfl⟩ := walk_surjective h (show u < 2 ^ tableLog by omega)
      exact ⟨k, ⟨hk, by omega⟩, rfl⟩
  rw [← Finset.card_range (high + 1), ← himage, Finset.card_image_of_injOn]
  intro k hk k' hk' heq
  rw [Finset.mem_coe, Finset.mem_filter, Finset.mem_range] at hk hk'
  exact walk_injective h hk.1 hk'.1 heq

/-- Advancing finds the next slot of the walk that is not skipped. -/
theorem advancePosition_walk {high : Nat} : ∀ (fuel : Nat) {k : Nat},
    (∃ j, j < fuel ∧ walk (2 ^ tableLog) (k + 1 + j) ≤ high) →
      ∃ j, advancePosition (2 ^ tableLog) high fuel (walk (2 ^ tableLog) k) = walk (2 ^ tableLog) (k + 1 + j) ∧
        walk (2 ^ tableLog) (k + 1 + j) ≤ high ∧ ∀ i < j, ¬ walk (2 ^ tableLog) (k + 1 + i) ≤ high
  | 0, k, ⟨j, hj, _⟩ => absurd hj (by omega)
  | fuel + 1, k, ⟨j, hj, hle⟩ => by
    unfold advancePosition
    simp only [← walk_succ]
    by_cases hgood : walk (2 ^ tableLog) (k + 1) ≤ high
    · rw [if_neg (by omega)]
      exact ⟨0, rfl, hgood, fun i hi => absurd hi (by omega)⟩
    · rw [if_pos (by omega)]
      have hj0 : j ≠ 0 := by
        rintro rfl
        exact hgood hle
      have hnext : ∃ j, j < fuel ∧ walk (2 ^ tableLog) (k + 1 + 1 + j) ≤ high :=
        ⟨j - 1, by omega, by rwa [show k + 1 + 1 + (j - 1) = k + 1 + j by omega]⟩
      obtain ⟨j', h1, h2, h3⟩ := advancePosition_walk fuel hnext
      refine ⟨j' + 1, by rw [h1]; congr 1; omega, by rwa [show k + 1 + (j' + 1) = k + 1 + 1 + j' by omega], ?_⟩
      intro i hi
      rcases Nat.eq_zero_or_pos i with rfl | hi0
      · exact hgood
      · have := h3 (i - 1) (by omega)
        rwa [show k + 1 + 1 + (i - 1) = k + 1 + i by omega] at this

/-- Counting skips what is skipped. -/
theorem count_skip {p : Nat → Prop} [DecidablePred p] (a : Nat) : ∀ (j : Nat), (∀ i < j, ¬ p (a + i)) →
    Nat.count p (a + j) = Nat.count p a
  | 0, _ => rfl
  | j + 1, h => by
    rw [← Nat.add_assoc, Nat.count_succ, if_neg (h j (by omega)), Nat.add_zero]
    exact count_skip a j fun i hi => h i (by omega)

end

/-! ## Filled slots -/

/-- The filled slots of a table of `size`, with how many of them hold each symbol. -/
structure Filled (size : Nat) (tableSymbol : List Nat) (filled : Finset Nat) (placed : List Nat) : Prop where
  length : tableSymbol.length = size
  within : ∀ u ∈ filled, u < size
  card : filled.card = placed.length
  count : ∀ s, (filled.filter fun u => tableSymbol.getD u 0 = s).card = placed.count s

theorem Filled.set {size u s : Nat} {tableSymbol : List Nat} {filled : Finset Nat} {placed : List Nat}
    (h : Filled size tableSymbol filled placed) (hu : u < size) (hnew : u ∉ filled) :
    Filled size (tableSymbol.set u s) (insert u filled) (s :: placed) := by
  have hget : ∀ v, (tableSymbol.set u s).getD v 0 = if u = v then s else tableSymbol.getD v 0 := by
    intro v
    rw [List.getD_eq_getElem?_getD, List.getElem?_set, List.getD_eq_getElem?_getD]
    by_cases hv : u = v
    · subst hv
      simp [h.length, hu]
    · simp [hv]
  refine ⟨by rw [List.length_set, h.length], fun v hv => ?_, ?_, fun t => ?_⟩
  · rcases Finset.mem_insert.1 hv with rfl | hv
    · exact hu
    · exact h.within v hv
  · rw [Finset.card_insert_of_notMem hnew, h.card, List.length_cons]
  · have hold : (filled.filter fun v => (tableSymbol.set u s).getD v 0 = t) =
        filled.filter fun v => tableSymbol.getD v 0 = t := by
      refine Finset.filter_congr fun v hv => ?_
      rw [hget, if_neg (by rintro rfl; exact hnew hv)]
    rw [Finset.filter_insert, hget, if_pos rfl, hold, List.count_cons, ← h.count t]
    by_cases hst : s = t
    · rw [if_pos hst, Finset.card_insert_of_notMem (fun hc => hnew (Finset.mem_filter.1 hc).1),
        if_pos (by simpa using hst)]
    · rw [if_neg hst, if_neg (by simpa using hst), Nat.add_zero]

/-- A table with every slot filled holds each symbol as often as it was placed. -/
theorem Filled.full {size : Nat} {tableSymbol : List Nat} {filled : Finset Nat} {placed : List Nat}
    (h : Filled size tableSymbol filled placed) (hlen : placed.length = size) (s : Nat) :
    tableSymbol.count s = placed.count s := by
  have hfull : filled = Finset.range size :=
    Finset.eq_of_subset_of_card_le (fun u hu => Finset.mem_range.2 (h.within u hu))
      (by rw [Finset.card_range, h.card, hlen])
  rw [← h.count s, hfull]
  have hcount : ∀ (l : List Nat), l.count s = ((Finset.range l.length).filter fun u => l.getD u 0 = s).card := by
    intro l
    induction l using List.reverseRecOn with
    | nil => simp
    | append_singleton l a ih =>
      rw [List.count_append, ih, List.length_append, List.length_singleton, Finset.range_add_one, Finset.filter_insert]
      have hlast : (l ++ [a]).getD l.length 0 = a := by simp [List.getD_eq_getElem?_getD]
      have hrest : (Finset.range l.length).filter (fun u => (l ++ [a]).getD u 0 = s) =
          (Finset.range l.length).filter fun u => l.getD u 0 = s := by
        refine Finset.filter_congr fun u hu => ?_
        rw [List.getD_eq_getElem?_getD, List.getElem?_append_left (Finset.mem_range.1 hu),
          List.getD_eq_getElem?_getD]
      rw [hlast, hrest]
      by_cases has : a = s
      · subst has
        rw [if_pos rfl, Finset.card_insert_of_notMem (by simp)]
        simp
      · rw [if_neg has]
        simp [has]
  rw [hcount tableSymbol, h.length]

/-! ## The first pass -/

/-- The symbols that the first pass places, the last placed first. -/
def lowSymbols (counts : List (Int × Nat)) : List Nat := ((counts.filter (·.1 = -1)).map (·.2)).reverse

theorem lowSymbols_append (a : List (Int × Nat)) (c : Int × Nat) :
    lowSymbols (a ++ [c]) = if c.1 = -1 then c.2 :: lowSymbols a else lowSymbols a := by
  unfold lowSymbols
  by_cases h : c.1 = -1 <;> simp [h]

/-- After the first pass over some counts: the topmost slots are filled, with their symbols. -/
structure FirstPass (size : Nat) (counts : List (Int × Nat)) (s : Spread) : Prop where
  filled : Filled size s.tableSymbol ((Finset.range size).filter (size - (lowSymbols counts).length ≤ ·))
    (lowSymbols counts)
  high : s.highThreshold = size - 1 - (lowSymbols counts).length

theorem FirstPass.fold {size : Nat} {init : Spread} (hinit : FirstPass size [] init) (counts : List (Int × Nat))
    (hle : (lowSymbols counts).length ≤ size) :
    FirstPass size counts (counts.foldl (fun s c => placeLowProbability s c.2 c.1) init) := by
  induction counts using List.reverseRecOn with
  | nil => exact hinit
  | append_singleton counts c ih =>
    rw [lowSymbols_append] at hle
    rw [List.foldl_append, List.foldl_cons, List.foldl_nil]
    by_cases hc : c.1 = -1
    · rw [if_pos hc, List.length_cons] at hle
      obtain ⟨h1, h2⟩ := ih (by omega)
      generalize counts.foldl (fun s c => placeLowProbability s c.2 c.1) init = s at *
      have hnew : s.highThreshold ∉ (Finset.range size).filter (size - (lowSymbols counts).length ≤ ·) := by
        rw [Finset.mem_filter, Finset.mem_range]
        omega
      have hset := h1.set (s := c.2) (show s.highThreshold < size by omega) hnew
      unfold placeLowProbability
      rw [if_pos hc]
      constructor
      · rw [lowSymbols_append, if_pos hc]
        convert hset using 1
        ext u
        simp only [Finset.mem_filter, Finset.mem_range, Finset.mem_insert, List.length_cons]
        omega
      · rw [lowSymbols_append, if_pos hc, List.length_cons]
        simp only
        omega
    · rw [if_neg hc] at hle
      have h := ih hle
      unfold placeLowProbability
      rw [if_neg hc]
      refine ⟨?_, ?_⟩
      · rw [lowSymbols_append, if_neg hc]
        exact h.filled
      · rw [lowSymbols_append, if_neg hc]
        exact h.high

/-! ## The second pass -/

/-- The symbols that the second pass places, in order. -/
def highSymbols (counts : List (Int × Nat)) : List Nat := counts.flatMap fun c => List.replicate c.1.toNat c.2

/-- Placing one symbol. -/
def placeOne (tableSize highThreshold : Nat) (acc : List Nat × Nat) (symbol : Nat) : List Nat × Nat :=
  (acc.1.set acc.2 symbol, advancePosition tableSize highThreshold tableSize acc.2)

theorem placeSymbol_eq (tableSize highThreshold symbol : Nat) : ∀ (n : Nat) (acc : List Nat × Nat),
    placeSymbol tableSize highThreshold symbol n acc =
      (List.replicate n symbol).foldl (placeOne tableSize highThreshold) acc
  | 0, _ => rfl
  | n + 1, (tableSymbol, position) => by
    rw [placeSymbol, placeSymbol_eq tableSize highThreshold symbol n, List.replicate_succ, List.foldl_cons]
    rfl

theorem foldl_placeSymbol (tableSize highThreshold : Nat) : ∀ (counts : List (Int × Nat)) (acc : List Nat × Nat),
    counts.foldl (fun acc c => placeSymbol tableSize highThreshold c.2 c.1.toNat acc) acc =
      (highSymbols counts).foldl (placeOne tableSize highThreshold) acc
  | [], _ => rfl
  | c :: counts, acc => by
    rw [List.foldl_cons, foldl_placeSymbol tableSize highThreshold counts, placeSymbol_eq]
    unfold highSymbols
    rw [List.flatMap_cons, List.foldl_append]

/-- After some placements of the second pass: the position is that of step `k` of the walk, and every
slot filled so far is a low-probability one or was met before. -/
def SecondPass (tableLog high : Nat) (placed : List Nat) (done : Nat) (acc : List Nat × Nat) : Prop :=
  ∃ k, acc.2 = walk (2 ^ tableLog) k ∧ walk (2 ^ tableLog) k ≤ high ∧
    Nat.count (fun k => walk (2 ^ tableLog) k ≤ high) k = done ∧
    ∃ filled, Filled (2 ^ tableLog) acc.1 filled placed ∧
      ∀ u ∈ filled, u > high ∨ ∃ k' < k, walk (2 ^ tableLog) k' = u

section
variable {tableLog high : Nat} (hlog : 4 ≤ tableLog) (hh : high < 2 ^ tableLog)

/-- From a slot of the walk that is not skipped, advancing leads to the next such slot. -/
theorem walk_advance {k : Nat} (hgood : walk (2 ^ tableLog) k ≤ high) :
    ∃ k', advancePosition (2 ^ tableLog) high (2 ^ tableLog) (walk (2 ^ tableLog) k) = walk (2 ^ tableLog) k' ∧
      k < k' ∧ walk (2 ^ tableLog) k' ≤ high ∧
      Nat.count (fun k => walk (2 ^ tableLog) k ≤ high) k' =
        Nat.count (fun k => walk (2 ^ tableLog) k ≤ high) k + 1 := by
  -- a period later the walk is back at the same slot
  have hagain : ∃ j, j < 2 ^ tableLog ∧ walk (2 ^ tableLog) (k + 1 + j) ≤ high := by
    have : 0 < 2 ^ tableLog := by positivity
    refine ⟨2 ^ tableLog - 1, by omega, ?_⟩
    rw [show k + 1 + (2 ^ tableLog - 1) = k + 2 ^ tableLog by omega, walk_period]
    exact hgood
  obtain ⟨j, h1, h2, h3⟩ := advancePosition_walk (2 ^ tableLog) hagain
  refine ⟨k + 1 + j, h1, by omega, h2, ?_⟩
  have hskip := count_skip (p := fun k => walk (2 ^ tableLog) k ≤ high) (k + 1) j h3
  rw [hskip, Nat.count_succ, if_pos hgood]

include hlog hh in
/-- Fewer slots met than there are: the first period of the walk is not over. -/
theorem walk_within {k : Nat} (hcount : Nat.count (fun k => walk (2 ^ tableLog) k ≤ high) k < high + 1) :
    k < 2 ^ tableLog := by
  by_contra hc
  have hperiod := count_walk hlog hh
  have := Nat.count_monotone (fun k => walk (2 ^ tableLog) k ≤ high) (show 2 ^ tableLog ≤ k by omega)
  omega

include hlog hh in
/-- The walk that has met every slot once is back at the first. -/
theorem walk_back {k : Nat} (hgood : walk (2 ^ tableLog) k ≤ high)
    (hcount : Nat.count (fun k => walk (2 ^ tableLog) k ≤ high) k = high + 1) : walk (2 ^ tableLog) k = 0 := by
  have hperiod := count_walk hlog hh
  have hzero : walk (2 ^ tableLog) (2 ^ tableLog) = 0 := by
    unfold walk
    exact Nat.mul_mod_right _ _
  have hk : k = 2 ^ tableLog := by
    rcases Nat.lt_trichotomy k (2 ^ tableLog) with hlt | heq | hgt
    · have h1 := Nat.count_monotone (fun k => walk (2 ^ tableLog) k ≤ high) (show k + 1 ≤ 2 ^ tableLog by omega)
      rw [Nat.count_succ, if_pos hgood] at h1
      omega
    · exact heq
    · have h1 := Nat.count_monotone (fun k => walk (2 ^ tableLog) k ≤ high) (show 2 ^ tableLog + 1 ≤ k by omega)
      rw [Nat.count_succ, if_pos (by omega)] at h1
      omega
  rw [hk, hzero]

include hlog hh in
theorem SecondPass.place (symbol : Nat) {placed : List Nat} {done : Nat} {acc : List Nat × Nat}
    (h : SecondPass tableLog high placed done acc) (hdone : done < high + 1) :
    SecondPass tableLog high (symbol :: placed) (done + 1) (placeOne (2 ^ tableLog) high acc symbol) := by
  obtain ⟨k, hpos, hgood, hcount, filled, hfilled, hmet⟩ := h
  have hk := walk_within hlog hh (show Nat.count _ k < high + 1 by omega)
  have hnew : walk (2 ^ tableLog) k ∉ filled := by
    intro hmem
    rcases hmet _ hmem with hu | ⟨k', hk', heq⟩
    · omega
    · have := walk_injective hlog (by omega) hk heq
      omega
  have hset := hfilled.set (s := symbol) (walk_lt k) hnew
  obtain ⟨k', h1, hlt, h2, h3⟩ := walk_advance hgood
  refine ⟨k', ?_, h2, by omega, insert (walk (2 ^ tableLog) k) filled, ?_, ?_⟩
  · unfold placeOne
    simp only
    rw [hpos, h1]
  · unfold placeOne
    simp only
    rw [hpos]
    exact hset
  · intro u hu
    rcases Finset.mem_insert.1 hu with rfl | hu
    · exact .inr ⟨k, hlt, rfl⟩
    · rcases hmet u hu with hu | ⟨k₀, hk₀, heq⟩
      · exact .inl hu
      · exact .inr ⟨k₀, by omega, heq⟩

include hlog hh in
theorem SecondPass.fold : ∀ (symbols : List Nat) {placed : List Nat} {done : Nat} {acc : List Nat × Nat},
    SecondPass tableLog high placed done acc → done + symbols.length ≤ high + 1 →
      SecondPass tableLog high (symbols.reverse ++ placed) (done + symbols.length)
        (symbols.foldl (placeOne (2 ^ tableLog) high) acc)
  | [], _, _, _, h, _ => h
  | symbol :: symbols, placed, done, acc, h, hle => by
    rw [List.length_cons] at hle
    have hnext := SecondPass.fold symbols (SecondPass.place hlog hh symbol h (by omega)) (by omega)
    rw [List.foldl_cons, List.reverse_cons, List.append_assoc, List.singleton_append, List.length_cons,
      show done + (symbols.length + 1) = done + 1 + symbols.length by omega]
    exact hnext

include hlog hh in
theorem SecondPass.back {placed : List Nat} {acc : List Nat × Nat}
    (h : SecondPass tableLog high placed (high + 1) acc) :
    acc.2 = 0 := by
  obtain ⟨k, hpos, hgood, hcount, -⟩ := h
  rw [hpos, walk_back hlog hh hgood hcount]

end

/-! ## Both passes -/

theorem lowSymbols_cons (c : Int × Nat) (counts : List (Int × Nat)) :
    lowSymbols (c :: counts) = lowSymbols counts ++ if c.1 = -1 then [c.2] else [] := by
  unfold lowSymbols
  by_cases h : c.1 = -1 <;> simp [h]

/-- The two passes place every symbol as often as its count says. -/
theorem count_symbols (s : Nat) : ∀ (counts : List Int) (k : Nat), (∀ c ∈ counts, -1 ≤ c) →
    (highSymbols (counts.zipIdx k)).count s + (lowSymbols (counts.zipIdx k)).count s =
      if k ≤ s then (counts.getD (s - k) 0).natAbs else 0
  | [], k, _ => by simp [highSymbols, lowSymbols]
  | c :: counts, k, h => by
    have ih := count_symbols s counts (k + 1) fun c' hc => h c' (List.mem_cons_of_mem _ hc)
    have hc := h c List.mem_cons_self
    have hhigh : (highSymbols ((c, k) :: counts.zipIdx (k + 1))).count s =
        (if k = s then c.toNat else 0) + (highSymbols (counts.zipIdx (k + 1))).count s := by
      unfold highSymbols
      rw [List.flatMap_cons, List.count_append, List.count_replicate]
      simp
    have hlow : (lowSymbols ((c, k) :: counts.zipIdx (k + 1))).count s =
        (lowSymbols (counts.zipIdx (k + 1))).count s + if k = s ∧ c = -1 then 1 else 0 := by
      rw [lowSymbols_cons, List.count_append]
      by_cases h1 : c = -1
      · by_cases h2 : k = s <;> simp [h1, h2]
      · simp [h1]
    rw [List.zipIdx_cons, hhigh, hlow]
    rcases Nat.lt_trichotomy k s with hlt | heq | hgt
    · rw [if_pos (by omega)] at ih
      rw [if_neg (by omega), if_neg (by omega), if_pos (by omega), show s - k = s - (k + 1) + 1 by omega,
        List.getD_cons_succ]
      omega
    · subst heq
      rw [if_neg (by omega)] at ih
      rw [if_pos rfl, if_pos (le_refl k), Nat.sub_self, List.getD_cons_zero]
      by_cases h1 : c = -1
      · rw [if_pos ⟨rfl, h1⟩]
        omega
      · rw [if_neg (by tauto)]
        omega
    · rw [if_neg (by omega)] at ih
      rw [if_neg (by omega), if_neg (by omega), if_neg (by omega)]
      omega

/-- The two passes place as many symbols as the counts sum to. -/
theorem length_symbols : ∀ (counts : List Int) (k : Nat), (∀ c ∈ counts, -1 ≤ c) →
    (highSymbols (counts.zipIdx k)).length + (lowSymbols (counts.zipIdx k)).length = slotTotal counts
  | [], k, _ => by simp [highSymbols, lowSymbols, slotTotal]
  | c :: counts, k, h => by
    have ih := length_symbols counts (k + 1) fun c' hc => h c' (List.mem_cons_of_mem _ hc)
    have hc := h c List.mem_cons_self
    have htotal : slotTotal (c :: counts) = c.natAbs + slotTotal counts := by simp [slotTotal]
    have hhigh : (highSymbols ((c, k) :: counts.zipIdx (k + 1))).length =
        c.toNat + (highSymbols (counts.zipIdx (k + 1))).length := by
      unfold highSymbols
      rw [List.flatMap_cons, List.length_append, List.length_replicate]
    rw [List.zipIdx_cons, hhigh, lowSymbols_cons, List.length_append, htotal]
    by_cases h1 : c = -1
    · rw [if_pos h1, List.length_singleton]
      omega
    · rw [if_neg h1, List.length_nil]
      omega

/-- The first state of every symbol is its count. -/
theorem symbolNext_fold : ∀ (counts : List Int) (k : Nat) (init : Spread), (∀ c ∈ counts, -1 ≤ c) →
    k + counts.length ≤ init.symbolNext.length →
      ((counts.zipIdx k).foldl (fun s c => placeLowProbability s c.2 c.1) init).symbolNext.length =
          init.symbolNext.length ∧
        ∀ s, ((counts.zipIdx k).foldl (fun s c => placeLowProbability s c.2 c.1) init).symbolNext.getD s 0 =
          if k ≤ s ∧ s < k + counts.length then (counts.getD (s - k) 0).natAbs else init.symbolNext.getD s 0
  | [], k, init, _, _ => by
    refine ⟨rfl, fun s => ?_⟩
    rw [if_neg (by rw [List.length_nil]; omega)]
    rfl
  | c :: counts, k, init, h, hle => by
    have hc := h c List.mem_cons_self
    rw [List.length_cons] at hle
    have hone : (placeLowProbability init k c).symbolNext = init.symbolNext.set k c.natAbs := by
      unfold placeLowProbability
      by_cases h1 : c = -1
      · rw [if_pos h1, h1]
        rfl
      · rw [if_neg h1, show c.toNat = c.natAbs by omega]
    obtain ⟨h1, h2⟩ := symbolNext_fold counts (k + 1) (placeLowProbability init k c)
      (fun c' hc => h c' (List.mem_cons_of_mem _ hc)) (by rw [hone, List.length_set]; omega)
    rw [List.zipIdx_cons, List.foldl_cons]
    refine ⟨by rw [h1, hone, List.length_set], fun s => ?_⟩
    rw [h2 s, hone, List.length_cons]
    have hset : (init.symbolNext.set k c.natAbs).getD s 0 = if k = s then c.natAbs else init.symbolNext.getD s 0 := by
      rw [List.getD_eq_getElem?_getD, List.getElem?_set, List.getD_eq_getElem?_getD]
      by_cases hs : k = s
      · subst hs
        rw [if_pos rfl, if_pos rfl, if_pos (by omega)]
        rfl
      · rw [if_neg hs, if_neg hs]
    rcases Nat.lt_trichotomy k s with hlt | heq | hgt
    · by_cases hs : s < k + (counts.length + 1)
      · rw [if_pos (by omega), if_pos (by omega), show s - k = s - (k + 1) + 1 by omega, List.getD_cons_succ]
      · rw [if_neg (by omega), if_neg (by omega), hset, if_neg (by omega)]
    · subst heq
      rw [if_neg (by omega), if_pos (by omega), hset, if_pos rfl, Nat.sub_self, List.getD_cons_zero]
    · rw [if_neg (by omega), if_neg (by omega), hset, if_neg (by omega)]

/-- The spread of a distribution that fills its table. -/
theorem spreadSymbols_spec {counts : List Int} {maxSymbolValue tableLog : Nat}
    (hn : Normalized counts maxSymbolValue tableLog) (hlog : 4 ≤ tableLog) (hmax : maxSymbolValue ≤ symbolvalueMax) :
    ∃ tableSymbol symbolNext, spreadSymbols counts maxSymbolValue tableLog = .ok (tableSymbol, symbolNext) ∧
      tableSymbol.length = 2 ^ tableLog ∧
      (∀ s, tableSymbol.count s = ((counts.take (maxSymbolValue + 1)).getD s 0).natAbs) ∧
      symbolNext.length = symbolvalueMax + 1 ∧
      ∀ s ≤ maxSymbolValue, symbolNext.getD s 0 = ((counts.take (maxSymbolValue + 1)).getD s 0).natAbs := by
  have hal := hn.alphabet
  have hge : ∀ c ∈ counts.take (maxSymbolValue + 1), -1 ≤ c := fun c hc => hn.atLeast c (List.mem_of_mem_take hc)
  have htaken : (counts.take (maxSymbolValue + 1)).length = maxSymbolValue + 1 := by
    rw [List.length_take]
    omega
  have htotal := hn.total
  have hlen := length_symbols (counts.take (maxSymbolValue + 1)) 0 hge
  have hcount := fun s => count_symbols s (counts.take (maxSymbolValue + 1)) 0 hge
  have hpos : 0 < 2 ^ tableLog := by positivity
  rw [htotal] at hlen
  unfold spreadSymbols
  simp only
  generalize counts.take (maxSymbolValue + 1) = counts at *
  have hnext := symbolNext_fold counts 0
    { tableSymbol := List.replicate (2 ^ tableLog) 0, symbolNext := List.replicate (symbolvalueMax + 1) 0,
      highThreshold := 2 ^ tableLog - 1 } hge (by simp [htaken]; omega)
  have hfirst : FirstPass (2 ^ tableLog) []
      { tableSymbol := List.replicate (2 ^ tableLog) 0, symbolNext := List.replicate (symbolvalueMax + 1) 0,
        highThreshold := 2 ^ tableLog - 1 } := by
    refine ⟨⟨by simp, fun u hu => Finset.mem_range.1 (Finset.mem_filter.1 hu).1, ?_, fun s => ?_⟩, rfl⟩
    · have : (Finset.range (2 ^ tableLog)).filter (2 ^ tableLog - (lowSymbols []).length ≤ ·) = ∅ := by
        ext u
        simp [lowSymbols]
      rw [this]
      rfl
    · have : (Finset.range (2 ^ tableLog)).filter (2 ^ tableLog - (lowSymbols []).length ≤ ·) = ∅ := by
        ext u
        simp [lowSymbols]
      rw [this]
      rfl
  have hpass := hfirst.fold (counts.zipIdx 0) (by omega)
  rw [show counts.zipIdx = counts.zipIdx 0 from rfl, foldl_placeSymbol]
  generalize (counts.zipIdx 0).foldl (fun s c => placeLowProbability s c.2 c.1) _ = spread at *
  obtain ⟨hfilled, hhigh⟩ := hpass
  rcases Nat.eq_zero_or_pos (highSymbols (counts.zipIdx 0)).length with hnone | hsome
  · -- nothing is left for the second pass
    have hnil := List.length_eq_zero_iff.1 hnone
    rw [hnil] at hcount ⊢
    refine ⟨spread.tableSymbol, spread.symbolNext, rfl, hfilled.length, fun s => ?_, by rw [hnext.1]; simp,
      fun s hs => ?_⟩
    · have := hcount s
      rw [if_pos (Nat.zero_le s), Nat.sub_zero, List.count_nil, Nat.zero_add] at this
      rw [hfilled.full (by omega), this]
    · rw [hnext.2 s, if_pos (by omega), Nat.sub_zero]
  · have hsecond : SecondPass tableLog spread.highThreshold (lowSymbols (counts.zipIdx 0)) 0
      (spread.tableSymbol, 0) := by
      refine ⟨0, by simp [walk], by simp [walk], Nat.count_zero _, _, hfilled, fun u hu => .inl ?_⟩
      have := (Finset.mem_filter.1 hu).2
      omega
    have hh : spread.highThreshold < 2 ^ tableLog := by omega
    have hall := SecondPass.fold hlog hh (highSymbols (counts.zipIdx 0)) hsecond (by omega)
    rw [show 0 + (highSymbols (counts.zipIdx 0)).length = spread.highThreshold + 1 by omega] at hall
    have hback := hall.back hlog hh
    obtain ⟨-, -, -, -, filled, hfull, -⟩ := hall
    rw [if_neg (by simpa using hback)]
    refine ⟨_, _, rfl, hfull.length, fun s => ?_, by rw [hnext.1]; simp, fun s hs => ?_⟩
    · have := hcount s
      rw [if_pos (Nat.zero_le s), Nat.sub_zero] at this
      rw [hfull.full (by simp only [List.length_append, List.length_reverse]; omega), List.count_append,
        List.count_reverse, this]
    · rw [hnext.2 s, if_pos (by omega), Nat.sub_zero]

end Fse

end Zstandard
