/-
The overlapping copy of LZ77 decoders and its implementations by wide moves inside one memory
region.

`copy out offset n` appends `n` elements one at a time, each equal to the one `offset` places back.
Its result is the only list that extends `out` by `n` and is periodic with period `offset` there
(`IsCopy.unique`), so an implementation is correct as soon as it establishes the period.

`Filled` is the invariant of the implementations: a region of which the first `done` cells after
`base` have the period. One move lemma (`Filled.move`) carries all of them: moving `n` cells from a
distance that is a multiple of the offset, at least `n` and not reaching before the pattern, extends
the filled part by `n`.
-/
import Mathlib.Tactic

namespace Lz

variable {α : Type}

/-! ## The copy -/

/-- Append `n` elements to `out`, each equal to the element `offset` places before it. -/
def copy (out : List α) (offset : Nat) : Nat → List α
  | 0 => out
  | n + 1 =>
    match out[out.length - offset]? with
    | some b => copy (out ++ [b]) offset n
    | none => out

/-- `r` extends `out` by `n` elements with period `offset`. -/
structure IsCopy (out : List α) (offset n : Nat) (r : List α) : Prop where
  length : r.length = out.length + n
  kept : ∀ i < out.length, r[i]? = out[i]?
  periodic : ∀ i, out.length ≤ i → i < out.length + n → r[i]? = r[i - offset]?

theorem copy_isCopy {offset : Nat} (ho : 0 < offset) :
    ∀ (n : Nat) (out : List α), offset ≤ out.length → IsCopy out offset n (copy out offset n)
  | 0, out, _ => ⟨rfl, fun _ _ => rfl, fun i h1 h2 => by omega⟩
  | n + 1, out, h => by
    have hlt : out.length - offset < out.length := by omega
    have hget : out[out.length - offset]? = some out[out.length - offset] := List.getElem?_eq_getElem hlt
    unfold copy
    rw [hget]
    obtain ⟨h1, h2, h3⟩ := copy_isCopy ho n (out ++ [out[out.length - offset]]) (by simp; omega)
    simp only [List.length_append, List.length_cons, List.length_nil] at h1 h2 h3
    refine ⟨by simp only; omega, fun i hi => ?_, fun i hi1 hi2 => ?_⟩
    · simp only
      rw [h2 i (by omega), List.getElem?_append_left hi]
    · simp only
      rcases Nat.lt_or_ge i (out.length + 1) with hi | hi
      · -- the element just appended
        have : i = out.length := by omega
        subst this
        rw [h2 _ (by omega), h2 _ (by omega), List.getElem?_append_right (le_refl _),
          List.getElem?_append_left hlt, hget]
        simp
      · exact h3 i (by omega) (by omega)

/-- The period determines the extension. -/
theorem IsCopy.unique {out r s : List α} {offset n : Nat} (ho : 0 < offset) (hle : offset ≤ out.length)
    (hr : IsCopy out offset n r) (hs : IsCopy out offset n s) : r = s := by
  apply List.ext_getElem?
  intro i
  induction i using Nat.strong_induction_on with
  | _ i ih =>
    rcases Nat.lt_or_ge i out.length with h | h
    · rw [hr.kept i h, hs.kept i h]
    rcases Nat.lt_or_ge i (out.length + n) with h' | h'
    · rw [hr.periodic i h h', hs.periodic i h h']
      exact ih (i - offset) (by omega)
    · rw [List.getElem?_eq_none (by rw [hr.length]; omega), List.getElem?_eq_none (by rw [hs.length]; omega)]

theorem IsCopy.eq_copy {out r : List α} {offset n : Nat} (ho : 0 < offset) (hle : offset ≤ out.length)
    (h : IsCopy out offset n r) : r = copy out offset n :=
  h.unique ho hle (copy_isCopy ho n out hle)

theorem length_copy {out : List α} {offset : Nat} (ho : 0 < offset) (hle : offset ≤ out.length) (n : Nat) :
    (copy out offset n).length = out.length + n :=
  (copy_isCopy ho n out hle).length

theorem copy_prefix {out : List α} {offset : Nat} (ho : 0 < offset) (hle : offset ≤ out.length) (n : Nat) :
    out <+: copy out offset n := by
  have h := copy_isCopy ho n out hle
  rw [List.prefix_iff_eq_take]
  apply List.ext_getElem?
  intro i
  rcases Nat.lt_or_ge i out.length with hi | hi
  · rw [List.getElem?_take_of_lt hi, h.kept i hi]
  · rw [List.getElem?_eq_none hi, List.getElem?_eq_none (by simp; omega)]

/-- The last element again and again. -/
theorem copy_run (a : α) : ∀ (n : Nat) (front : List α),
    copy (front ++ [a]) 1 n = front ++ List.replicate (n + 1) a
  | 0, front => rfl
  | n + 1, front => by
    have hlast : (front ++ [a])[(front ++ [a]).length - 1]? = some a := by
      rw [List.length_append, List.length_singleton, Nat.add_sub_cancel, List.getElem?_append_right (le_refl _),
        Nat.sub_self]
      rfl
    unfold copy
    rw [hlast]
    dsimp only
    rw [copy_run a n (front ++ [a]), List.append_assoc]
    rfl

/-- What precedes the reach of the copy does not matter. -/
theorem copy_append {out : List α} {offset : Nat} (ho : 0 < offset) (hle : offset ≤ out.length)
    (pre : List α) (n : Nat) : copy (pre ++ out) offset n = pre ++ copy out offset n := by
  obtain ⟨h1, h2, h3⟩ := copy_isCopy ho n out hle
  symm
  apply IsCopy.eq_copy ho (by simp; omega)
  refine ⟨by simp [h1]; omega, fun i hi => ?_, fun i hi1 hi2 => ?_⟩
  · rcases Nat.lt_or_ge i pre.length with h | h
    · rw [List.getElem?_append_left h, List.getElem?_append_left h]
    · rw [List.getElem?_append_right h, List.getElem?_append_right h, h2 _ (by simp at hi; omega)]
  · simp only [List.length_append] at hi1 hi2
    rw [List.getElem?_append_right (by omega), List.getElem?_append_right (by omega),
      h3 _ (by omega) (by omega)]
    congr 1; omega

/-- A copy made in two parts. -/
theorem copy_add {out : List α} {offset : Nat} (ho : 0 < offset) (hle : offset ≤ out.length) (m n : Nat) :
    copy (copy out offset m) offset n = copy out offset (m + n) := by
  have hm := copy_isCopy ho m out hle
  have hlen := hm.length
  have hn := copy_isCopy ho n (copy out offset m) (by omega)
  apply IsCopy.eq_copy ho hle
  refine ⟨by rw [hn.length, hlen]; omega, fun i hi => ?_, fun i hi1 hi2 => ?_⟩
  · rw [hn.kept i (by omega), hm.kept i hi]
  · rcases Nat.lt_or_ge i (copy out offset m).length with h | h
    · rw [hn.kept i h, hn.kept _ (by omega), hm.periodic i hi1 (by omega)]
    · exact hn.periodic i h (by omega)

/-- An extension that does not overlap is a slice of what is there. -/
theorem copy_of_le {out : List α} {offset n : Nat} (ho : 0 < offset) (hle : offset ≤ out.length)
    (hn : n ≤ offset) : copy out offset n = out ++ (out.drop (out.length - offset)).take n := by
  symm
  apply IsCopy.eq_copy ho hle
  have hs : ((out.drop (out.length - offset)).take n).length = n := by simp; omega
  refine ⟨by rw [List.length_append, hs], fun i hi => List.getElem?_append_left hi, fun i h1 h2 => ?_⟩
  rw [List.getElem?_append_right h1, List.getElem?_take_of_lt (by omega), List.getElem?_drop,
    List.getElem?_append_left (by omega)]
  congr 1; omega

/-! ## Moves inside a region -/

/-- Overwrite the cells from `pos` with `bs`. -/
def write (mem : List α) (pos : Nat) (bs : List α) : List α :=
  mem.take pos ++ bs ++ mem.drop (pos + bs.length)

/-- Overwrite the `n` cells from `dst` with the `n` cells from `src`, read before the first write. -/
def move (mem : List α) (dst src n : Nat) : List α := write mem dst ((mem.drop src).take n)

theorem length_write {mem bs : List α} {pos : Nat} (h : pos + bs.length ≤ mem.length) :
    (write mem pos bs).length = mem.length := by
  simp [write]; omega

theorem getElem?_write {mem bs : List α} {pos : Nat} (h : pos + bs.length ≤ mem.length) (i : Nat) :
    (write mem pos bs)[i]? = if pos ≤ i ∧ i < pos + bs.length then bs[i - pos]? else mem[i]? := by
  have ht : (mem.take pos).length = pos := by simp; omega
  unfold write
  rcases Nat.lt_or_ge i pos with h1 | h1
  · rw [if_neg (by omega), List.append_assoc, List.getElem?_append_left (by omega),
      List.getElem?_take_of_lt h1]
  rcases Nat.lt_or_ge i (pos + bs.length) with h2 | h2
  · rw [if_pos ⟨h1, h2⟩, List.getElem?_append_left (by simp; omega), List.getElem?_append_right (by omega), ht]
  · rw [if_neg (by omega), List.getElem?_append_right (by simp; omega), List.getElem?_drop]
    congr 1; simp; omega

theorem length_move {mem : List α} {dst n : Nat} (src : Nat) (hd : dst + n ≤ mem.length) :
    (move mem dst src n).length = mem.length :=
  length_write (by simp; omega)

theorem getElem?_move {mem : List α} {dst src n : Nat} (hd : dst + n ≤ mem.length) (hs : src + n ≤ mem.length)
    (i : Nat) :
    (move mem dst src n)[i]? = if dst ≤ i ∧ i < dst + n then mem[src + (i - dst)]? else mem[i]? := by
  have hl : ((mem.drop src).take n).length = n := by simp; omega
  unfold move
  rw [getElem?_write (by omega), hl]
  split
  · rw [List.getElem?_take_of_lt (by omega), List.getElem?_drop]
  · rfl

theorem take_write {mem bs : List α} {pos : Nat} (h : pos + bs.length ≤ mem.length) :
    (write mem pos bs).take (pos + bs.length) = mem.take pos ++ bs := by
  unfold write
  rw [List.take_append_of_le_length (by simp; omega), List.take_of_length_le (by simp)]

/-- `mem` is `mem₀` outside the cells from `base` up to `stop`. -/
structure Within (base stop : Nat) (mem₀ mem : List α) : Prop where
  length : mem.length = mem₀.length
  outside : ∀ i, i < base ∨ stop ≤ i → mem[i]? = mem₀[i]?

theorem Within.refl (base stop : Nat) (mem : List α) : Within base stop mem mem := ⟨rfl, fun _ _ => rfl⟩

theorem Within.mono {base stop stop' : Nat} {mem₀ mem : List α} (h : Within base stop mem₀ mem) (hle : stop ≤ stop') :
    Within base stop' mem₀ mem :=
  ⟨h.length, fun i hi => h.outside i (hi.imp_right hle.trans)⟩

theorem Within.write {base stop pos : Nat} {mem₀ mem bs : List α} (h : Within base stop mem₀ mem) (hb : base ≤ pos)
    (hs : pos + bs.length ≤ stop) (hroom : stop ≤ mem₀.length) : Within base stop mem₀ (write mem pos bs) := by
  have hlen := h.length
  refine ⟨(length_write (by omega)).trans hlen, fun i hi => ?_⟩
  rw [getElem?_write (by omega), if_neg (by omega), h.outside i hi]

theorem Within.move {base stop dst : Nat} {mem₀ mem : List α} (h : Within base stop mem₀ mem) (src : Nat) {n : Nat}
    (hb : base ≤ dst) (hs : dst + n ≤ stop) (hroom : stop ≤ mem₀.length) :
    Within base stop mem₀ (move mem dst src n) :=
  h.write hb (by rw [List.length_take]; omega) hroom

theorem Within.drop_eq {base stop : Nat} {mem₀ mem : List α} (h : Within base stop mem₀ mem) :
    mem.drop stop = mem₀.drop stop := by
  apply List.ext_getElem?
  intro i
  rw [List.getElem?_drop, List.getElem?_drop, h.outside _ (.inr (by omega))]

/-- `mem` agrees with `mem₀` before `base`, and its `done` cells from `base` on have period `offset`. -/
structure Filled (mem₀ : List α) (base offset done : Nat) (mem : List α) : Prop where
  length : mem.length = mem₀.length
  kept : ∀ i < base, mem[i]? = mem₀[i]?
  periodic : ∀ i, base ≤ i → i < base + done → mem[i]? = mem[i - offset]?

theorem Filled.refl (mem : List α) (base offset : Nat) : Filled mem base offset 0 mem :=
  ⟨rfl, fun _ _ => rfl, fun _ _ _ => by omega⟩

/-- Cells a multiple of the period apart agree, once the region between them is filled. -/
theorem Filled.periodic_mul {mem₀ mem : List α} {base offset done : Nat} (h : Filled mem₀ base offset done mem)
    (k : Nat) : ∀ i, base + k * offset ≤ i + offset → i < base + done → mem[i]? = mem[i - k * offset]? := by
  induction k with
  | zero => intro i _ _; simp
  | succ k ih =>
    intro i h1 h2
    rw [Nat.succ_mul] at h1 ⊢
    rw [ih i (by omega) h2]
    rcases Nat.eq_zero_or_pos offset with rfl | ho
    · simp
    · rw [h.periodic (i - k * offset) (by omega) (by omega)]
      congr 1; omega

/-- The move lemma: `n` cells moved to the end of the filled part from `k` periods back, at least
`n` cells and not from before the pattern. -/
theorem Filled.move {mem₀ mem : List α} {base offset done : Nat} (h : Filled mem₀ base offset done mem)
    {k n : Nat} (hk : 0 < k) (hn : n ≤ k * offset) (hreach : k * offset ≤ done + offset)
    (hbase : offset ≤ base) (hroom : base + done + n ≤ mem.length) :
    Filled mem₀ base offset (done + n) (move mem (base + done) (base + done - k * offset) n) := by
  have hsrcle : base + done - k * offset + n ≤ mem.length := by omega
  have hget := getElem?_move hroom hsrcle
  refine ⟨by rw [length_move _ (by omega), h.length], fun i hi => ?_, fun i h1 h2 => ?_⟩
  · rw [hget, if_neg (by omega), h.kept i hi]
  rcases Nat.lt_or_ge i (base + done) with hi | hi
  · rw [hget, if_neg (by omega), hget, if_neg (by omega), h.periodic i h1 hi]
  -- a moved cell: it was read `k` periods back, and one period back reads the same cell
  have hsrc : base + done - k * offset + (i - (base + done)) = i - k * offset := by omega
  rw [hget, if_pos ⟨hi, by omega⟩, hsrc, hget]
  split
  · -- one period back was moved as well
    rw [h.periodic (i - k * offset) (by omega) (by omega)]
    congr 1; omega
  · obtain ⟨j, rfl⟩ : ∃ j, k = j + 1 := ⟨k - 1, by omega⟩
    rw [Nat.succ_mul] at hn hreach ⊢
    rw [h.periodic_mul j (i - offset) (by omega) (by omega)]
    congr 1; omega

/-- A region filled far enough holds the copy. -/
theorem Filled.take_eq_copy {mem₀ mem : List α} {base offset done n : Nat} (h : Filled mem₀ base offset done mem)
    (ho : 0 < offset) (hbase : offset ≤ base) (hn : n ≤ done) (hroom : base + n ≤ mem₀.length) :
    mem.take (base + n) = copy (mem₀.take base) offset n := by
  have hb : (mem₀.take base).length = base := by simp; omega
  apply IsCopy.eq_copy ho (by omega)
  refine ⟨by simp [h.length]; omega, fun i hi => ?_, fun i h1 h2 => ?_⟩
  · rw [hb] at hi
    rw [List.getElem?_take_of_lt (by omega), List.getElem?_take_of_lt hi, h.kept i hi]
  · rw [hb] at h1 h2
    rw [List.getElem?_take_of_lt (by omega), List.getElem?_take_of_lt (by omega), h.periodic i h1 (by omega)]

end Lz
