import Mathlib.Algebra.BigOperators.Finprod

/-!
# The weight of a finite map

A partial map that is defined at finitely many keys has the weight `∑ w (m k)`, for a weight `w`
of its values. When one value changes, the weight changes by the difference of the two.
-/

namespace PartialMap

open Option Function

variable {κ α : Type*} {m : κ → Option α} {w : α → Nat}

/-- The map is defined at finitely many keys. -/
def Finite (m : κ → Option α) : Prop := {k | m k ≠ none}.Finite

noncomputable def weight (m : κ → Option α) (w : α → Nat) : Nat := ∑ᶠ k, (m k).elim 0 w

theorem Finite.update [DecidableEq κ] (h : Finite m) (k : κ) (o : Option α) :
    Finite (update m k o) := by
  refine (h.insert k).subset ?_
  intro k' hk'
  by_cases hk : k' = k
  · exact .inl hk
  · refine .inr ?_
    rwa [Set.mem_ofPred_eq, update_of_ne hk] at hk'

theorem weight_eq_sum {S : Finset κ} (hS : ∀ k, m k ≠ none → k ∈ S) :
    weight m w = ∑ k ∈ S, (m k).elim 0 w := by
  refine finsum_eq_sum_of_support_subset _ ?_
  intro k hk
  refine hS k ?_
  intro hnone
  rw [mem_support, hnone, elim_none] at hk
  exact hk rfl

theorem weight_update [DecidableEq κ] (h : Finite m) (k : κ) (o : Option α) :
    weight (update m k o) w + (m k).elim 0 w = weight m w + o.elim 0 w := by
  have hm : ∀ k', m k' ≠ none → k' ∈ insert k h.toFinset :=
    fun k' hk' => Finset.mem_insert_of_mem (h.mem_toFinset.mpr hk')
  have hm' : ∀ k', update m k o k' ≠ none → k' ∈ insert k h.toFinset := by
    intro k' hk'
    by_cases hk : k' = k
    · rw [hk]
      exact Finset.mem_insert_self _ _
    · rw [update_of_ne hk] at hk'
      exact hm k' hk'
  have hrest : ∑ k' ∈ (insert k h.toFinset).erase k, (update m k o k').elim 0 w =
      ∑ k' ∈ (insert k h.toFinset).erase k, (m k').elim 0 w := by
    refine Finset.sum_congr rfl ?_
    intro k' hk'
    rw [update_of_ne (Finset.ne_of_mem_erase hk')]
  rw [weight_eq_sum hm, weight_eq_sum hm', ← Finset.add_sum_erase _ _ (Finset.mem_insert_self k _),
    ← Finset.add_sum_erase _ (fun k' => (m k').elim 0 w) (Finset.mem_insert_self k _), hrest,
    update_self]
  omega

theorem le_weight (h : Finite m) (k : κ) : (m k).elim 0 w ≤ weight m w := by
  classical
  have hupdate := weight_update (w := w) h k none
  rw [elim_none] at hupdate
  omega

theorem add_le_weight [DecidableEq κ] (h : Finite m) {k k' : κ} (hne : k' ≠ k) :
    (m k).elim 0 w + (m k').elim 0 w ≤ weight m w := by
  have hupdate := weight_update (w := w) h k none
  have hle := le_weight (w := w) (h.update k none) k'
  rw [update_of_ne hne] at hle
  rw [elim_none] at hupdate
  omega

theorem weight_eq_zero (h : ∀ k a, m k = some a → w a = 0) : weight m w = 0 := by
  have hzero : ∀ k, (m k).elim 0 w = 0 := by
    intro k
    cases hk : m k with
    | none => rfl
    | some a => exact h k a hk
  rw [weight, finsum_congr hzero, finsum_zero]

theorem exists_of_weight_pos (h : 0 < weight m w) : ∃ k a, m k = some a ∧ 0 < w a := by
  by_contra hno
  push Not at hno
  have hzero : weight m w = 0 := weight_eq_zero fun k a hk => Nat.le_zero.mp (hno k a hk)
  omega

end PartialMap
