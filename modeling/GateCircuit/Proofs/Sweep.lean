/-
# Sweeps that work in place

A sweep runs over an array and changes it as it goes, so a later step sees what earlier ones wrote.
It does not matter if the steps are local: every index belongs to one step, its key, and a step reads
and writes only at its own indices. Then each entry of the result is what its own step makes of the
array the sweep began with.

Key definitions: `LocalSweep`.
Key theorems: `LocalSweep.getD_fold`, `fold_entrywise`, `getD_scatter`.
-/
import Mathlib

namespace GateCircuit

variable {α : Type} {d : α}

theorem getD_setIfInBounds (a : Array α) (i j : ℕ) (v : α) :
    (a.setIfInBounds i v).getD j d = if i = j ∧ j < a.size then v else a.getD j d := by
  simp only [Array.getD_eq_getD_getElem?, Array.getElem?_setIfInBounds]
  by_cases hij : i = j
  · subst hij
    by_cases hi : i < a.size
    · simp [hi]
    · simp [hi]
  · simp [hij]

theorem getD_of_size_le {a : Array α} {i : ℕ} (h : a.size ≤ i) : a.getD i d = d := by
  rw [Array.getD_eq_getD_getElem?, Array.getElem?_eq_none h]
  rfl

/-- Arrays of one size that have the same entries are equal. -/
theorem ext_getD {a b : Array α} (d : α) (hsize : a.size = b.size)
    (h : ∀ i < a.size, a.getD i d = b.getD i d) : a = b := by
  refine Array.ext hsize fun i hi hi' => ?_
  simpa [hi, hi'] using h i hi

/-- Step `k` of a sweep reads and writes only at the indices with key `k`. -/
structure LocalSweep (key : ℕ → ℕ) (d : α) (step : ℕ → Array α → Array α) : Prop where
  size : ∀ k a, (step k a).size = a.size
  frame : ∀ k a b, key b ≠ k → (step k a).getD b d = a.getD b d
  reads : ∀ k a a', a.size = a'.size → (∀ b, key b = k → a.getD b d = a'.getD b d) →
    ∀ b < a.size, key b = k → (step k a).getD b d = (step k a').getD b d

namespace LocalSweep

variable {key : ℕ → ℕ} {step : ℕ → Array α → Array α}

theorem size_fold (h : LocalSweep key d step) (a : Array α) :
    ∀ n, (Nat.fold n (fun k _ a => step k a) a).size = a.size
  | 0 => by rw [Nat.fold_zero]
  | n + 1 => by rw [Nat.fold_succ, h.size, size_fold h a n]

/-- **A local sweep acts at once.** An entry becomes what the step of its key makes of the original
array, if the sweep gets that far. -/
theorem getD_fold (h : LocalSweep key d step) (a : Array α) (n b : ℕ) :
    (Nat.fold n (fun k _ a => step k a) a).getD b d =
      if key b < n then (step (key b) a).getD b d else a.getD b d := by
  induction n generalizing b with
  | zero => simp
  | succ n ih =>
    rw [Nat.fold_succ]
    by_cases hb : key b = n
    · -- no step so far has touched the indices of step `n`
      have hsame : ∀ c, key c = n → (Nat.fold n (fun k _ a => step k a) a).getD c d = a.getD c d := by
        intro c hc
        rw [ih c, if_neg (by omega)]
      have hsize := h.size_fold a n
      rw [if_pos (by omega), hb]
      by_cases hin : b < a.size
      · exact h.reads n _ a hsize hsame b (by rwa [hsize]) hb
      · rw [getD_of_size_le (by rw [h.size]; omega), getD_of_size_le (by rw [h.size]; omega)]
    · rw [h.frame n _ b hb, ih b]
      have : key b < n + 1 ↔ key b < n := by omega
      simp only [this]

end LocalSweep

/-! ### Entries one by one -/

section Entrywise

/-- To write back what has been read changes nothing. -/
theorem setIfInBounds_getD (a : Array α) (i : ℕ) : a.setIfInBounds i (a.getD i d) = a := by
  refine ext_getD d Array.size_setIfInBounds fun j _ => ?_
  rw [getD_setIfInBounds]
  split
  · rename_i hij
    rw [hij.1]
  · rfl

theorem localSweep_entrywise (f : ℕ → α → α) :
    LocalSweep (fun k => k) d fun k a => a.setIfInBounds k (f k (a.getD k d)) where
  size _ _ := Array.size_setIfInBounds
  frame k a b hb := by rw [getD_setIfInBounds, if_neg (fun h => hb h.1.symm)]
  reads := by
    intro k a a' hsize hread b hb hkey
    subst hkey
    rw [getD_setIfInBounds, getD_setIfInBounds, if_pos ⟨rfl, hb⟩, if_pos ⟨rfl, hsize ▸ hb⟩,
      hread b rfl]

/-- A sweep that changes one entry after the other, each by itself, maps the array. -/
theorem fold_entrywise (f : ℕ → α → α) (a : Array α) :
    Nat.fold a.size (fun k _ a => a.setIfInBounds k (f k (a.getD k d))) a = a.mapIdx f := by
  have hlocal := localSweep_entrywise (d := d) f
  have hsize := hlocal.size_fold a a.size
  refine ext_getD d (hsize.trans Array.size_mapIdx.symm) fun b hb => ?_
  have hlt : b < a.size := hsize ▸ hb
  rw [hlocal.getD_fold, if_pos hlt, getD_setIfInBounds, if_pos ⟨rfl, hlt⟩]
  simp [hlt]

end Entrywise

/-! ### Writing a column back -/

section Scatter

variable (place : ℕ → ℕ) (value : ℕ → α)

/-- Writes `value row` at `place row` for every `row < n`. -/
def scatter (n : ℕ) (a : Array α) : Array α :=
  Nat.fold n (fun row _ a => a.setIfInBounds (place row) (value row)) a

theorem size_scatter (n : ℕ) (a : Array α) : (scatter place value n a).size = a.size := by
  unfold scatter
  induction n with
  | zero => rw [Nat.fold_zero]
  | succ n ih => rw [Nat.fold_succ, Array.size_setIfInBounds, ih]

theorem getD_scatter_of_ne (n : ℕ) (a : Array α) {b : ℕ} (hb : ∀ row < n, place row ≠ b) :
    (scatter place value n a).getD b d = a.getD b d := by
  induction n with
  | zero => rw [scatter, Nat.fold_zero]
  | succ n ih =>
    have ih := ih fun row hrow => hb row (by omega)
    have hn : place n ≠ b := hb n (by omega)
    unfold scatter at ih ⊢
    rw [Nat.fold_succ, getD_setIfInBounds, if_neg (by simp [hn]), ih]

/-- Different rows go to different places, so each is found where it was written. -/
theorem getD_scatter (n : ℕ) (a : Array α) {row : ℕ} (hrow : row < n)
    (hinj : ∀ r < n, ∀ r' < n, place r = place r' → r = r') (hin : place row < a.size) :
    (scatter place value n a).getD (place row) d = value row := by
  induction n with
  | zero => omega
  | succ n ih =>
    have hsize := size_scatter place value n a
    by_cases hn : row = n
    · subst hn
      unfold scatter at hsize ⊢
      rw [Nat.fold_succ, getD_setIfInBounds, if_pos ⟨rfl, by omega⟩]
    · have hne : place n ≠ place row := fun h => hn (hinj n (by omega) row hrow h).symm
      have ih := ih (by omega) fun r hr r' hr' => hinj r (by omega) r' (by omega)
      unfold scatter at ih ⊢
      rw [Nat.fold_succ, getD_setIfInBounds, if_neg (by simp [hne]), ih]

end Scatter
end GateCircuit
