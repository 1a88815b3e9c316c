import Mathlib

/-!
# Sums over the members of a finite group, each with a state of its own

`census w f` adds up the weight of the states of all members; with weights zero and one it
counts them. One member changes its state at a time.
-/

open Finset Function

variable {ι κ : Type*} [Fintype ι] {w w' : κ → ℕ} {f : ι → κ} {i j : ι}

def census (w : κ → ℕ) (f : ι → κ) : ℕ := ∑ i, w (f i)

theorem census_update [DecidableEq ι] (x : κ) :
    census w (update f i x) + w (f i) = census w f + w x := by
  unfold census
  rw [← add_sum_erase _ _ (mem_univ i), ← add_sum_erase _ (fun j => w (f j)) (mem_univ i),
    update_self]
  have hrest : ∑ j ∈ univ.erase i, w (update f i x j) = ∑ j ∈ univ.erase i, w (f j) := by
    refine sum_congr rfl ?_
    intro j hj
    rw [update_of_ne (ne_of_mem_erase hj)]
  omega

theorem census_updated [DecidableEq ι] {g : ι → κ} {x : κ} (h : g = update f i x) (w : κ → ℕ) :
    census w g + w (f i) = census w f + w x := by
  rw [h]
  exact census_update x

theorem le_census (i : ι) : w (f i) ≤ census w f :=
  single_le_sum_of_canonicallyOrdered (f := fun j => w (f j)) (mem_univ i)

theorem add_le_census (h : i ≠ j) : w (f i) + w (f j) ≤ census w f := by
  classical
  have hj := single_le_sum_of_canonicallyOrdered (f := fun j => w (f j))
    (mem_erase.mpr ⟨h.symm, mem_univ j⟩)
  unfold census
  rw [← add_sum_erase _ _ (mem_univ i)]
  omega

theorem census_eq_zero : census w f = 0 ↔ ∀ i, w (f i) = 0 := by
  simp [census]

theorem exists_of_census_pos (h : 0 < census w f) : ∃ i, 0 < w (f i) := by
  by_contra hnone
  push Not at hnone
  exact h.ne' (census_eq_zero.mpr fun i => Nat.le_zero.mp (hnone i))

theorem exists_of_census_eq_one (h : census w f = 1) :
    ∃ i, w (f i) = 1 ∧ ∀ j, j ≠ i → w (f j) = 0 := by
  obtain ⟨i, hi⟩ := exists_of_census_pos (h ▸ Nat.one_pos)
  have hle := le_census (w := w) (f := f) i
  refine ⟨i, by omega, ?_⟩
  intro j hj
  have hboth := add_le_census (w := w) (f := f) hj
  omega

theorem census_le_one (hw : ∀ i, w (f i) ≤ 1) (hf : ∀ i j, 0 < w (f i) → 0 < w (f j) → i = j) :
    census w f ≤ 1 := by
  by_cases h : ∃ i, 0 < w (f i)
  · obtain ⟨i, hi⟩ := h
    have hsum : census w f = w (f i) := by
      refine sum_eq_single i (fun j _ hj => ?_) (fun hi => absurd (mem_univ i) hi)
      by_contra hne
      exact hj (hf j i (Nat.pos_of_ne_zero hne) hi)
    exact hsum ▸ hw i
  · push Not at h
    rw [census_eq_zero.mpr fun i => Nat.le_zero.mp (h i)]
    exact Nat.zero_le 1
