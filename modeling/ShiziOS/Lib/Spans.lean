import Mathlib

/-!
# Spans one after the other

A span is a start and a length. Spans that follow on each other from `lo` to `hi` are
disjoint and cover the interval between exactly.
-/

namespace Spans

open List

def span (r : Nat × Nat) : Set Nat := Set.Ico r.1 (r.1 + r.2)

/-- Each span starts where the one before it has ended, the first at `lo`. -/
inductive Chain (lo : Nat) : List (Nat × Nat) → (hi : Nat) → Prop
  | nil : Chain lo [] lo
  | snoc {l : List (Nat × Nat)} {hi n : Nat} (h : Chain lo l hi) : Chain lo (l ++ [(hi, n)])
      (hi + n)

namespace Chain

variable {lo hi : Nat} {l : List (Nat × Nat)}

section

variable (h : Chain lo l hi)
include h

theorem end_eq : hi = lo + (l.map Prod.snd).sum := by
  induction h with
  | nil => rfl
  | snoc h ih =>
    rw [map_append, sum_append, map_singleton, sum_singleton]
    omega

theorem start_le : lo ≤ hi := by
  rw [h.end_eq]
  exact Nat.le_add_right lo _

theorem mem_iff (b : Nat) : (∃ r ∈ l, b ∈ span r) ↔ b ∈ Set.Ico lo hi := by
  induction h with
  | nil => simp
  | @snoc l hi n h ih =>
    have hle := h.start_le
    have hlast : b ∈ span (hi, n) ↔ hi ≤ b ∧ b < hi + n := Set.mem_Ico
    rw [Set.mem_Ico] at ih ⊢
    simp only [mem_append, mem_singleton, or_and_right, exists_or, exists_eq_left]
    rw [ih, hlast]
    omega

theorem union : (⋃ r ∈ l, span r) = Set.Ico lo hi := by
  ext b
  rw [Set.mem_iUnion₂, ← h.mem_iff b]
  simp only [exists_prop]

theorem disjoint : l.Pairwise fun r r' => Disjoint (span r) (span r') := by
  induction h with
  | nil => exact List.Pairwise.nil
  | @snoc l hi n h ih =>
    rw [pairwise_append]
    refine ⟨ih, pairwise_singleton _ _, ?_⟩
    intro r hr r' hr'
    rw [mem_singleton] at hr'
    subst hr'
    rw [Set.disjoint_left]
    intro b hb hb'
    have hlt := (Set.mem_Ico.mp ((h.mem_iff b).mp ⟨r, hr, hb⟩)).2
    have hge := (Set.mem_Ico.mp hb').1
    exact absurd hlt (Nat.not_lt.mpr hge)

theorem inside {r : Nat × Nat} (hr : r ∈ l) : lo ≤ r.1 ∧ r.1 + r.2 ≤ hi := by
  induction h with
  | nil => cases hr
  | snoc h ih =>
    rcases mem_append.mp hr with hr | hr
    · exact ⟨(ih hr).1, (ih hr).2.trans (Nat.le_add_right _ _)⟩
    · obtain rfl := mem_singleton.mp hr
      exact ⟨h.start_le, le_rfl⟩

end

theorem cons {n : Nat} (h : Chain (lo + n) l hi) : Chain lo ((lo, n) :: l) hi := by
  induction h with
  | nil => exact Chain.snoc (l := []) .nil
  | snoc h ih => exact ih.snoc

end Chain

end Spans
