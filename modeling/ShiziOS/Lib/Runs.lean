import Mathlib.Tactic.Common

/-!
# Runs of transition systems

A system is given by its step function: an action takes a state to the next one, or cannot be
taken there. `Reach step C s₀` are the states that steps meeting `C` lead to from `s₀`.
-/

namespace Runs

open Option

variable {σ α τ β : Type*} {step : σ → α → Option σ} {C C' : σ → α → Prop} {s0 s s' : σ}

inductive Reach (step : σ → α → Option σ) (C : σ → α → Prop) (s₀ : σ) : σ → Prop where
  | start : Reach step C s₀ s₀
  | next {s s' : σ} {a : α} : Reach step C s₀ s → C s a → step s a = some s' → Reach step C s₀ s'

/-- The condition that every step meets. -/
def Any (_ : σ) (_ : α) : Prop := True

namespace Reach

theorem single {a : α} (hC : C s a) (h : step s a = some s') : Reach step C s s' :=
  .next .start hC h

theorem trans (h : Reach step C s0 s) (h' : Reach step C s s') : Reach step C s0 s' := by
  induction h' with
  | start => exact h
  | next _ hC hs ih => exact ih.next hC hs

theorem head (h : Reach step C s0 s) :
    s0 = s ∨ ∃ a s1, C s0 a ∧ step s0 a = some s1 ∧ Reach step C s1 s := by
  induction h with
  | start => exact .inl rfl
  | next _ hC hs ih =>
    rcases ih with rfl | ⟨a, s1, hC1, hs1, hrest⟩
    · exact .inr ⟨_, _, hC, hs, .start⟩
    · exact .inr ⟨a, s1, hC1, hs1, hrest.next hC hs⟩

theorem invariant {I : σ → Prop} (h : Reach step C s0 s) (h0 : I s0)
    (hI : ∀ s a s', I s → C s a → step s a = some s' → I s') : I s := by
  induction h with
  | start => exact h0
  | next _ ha hs ih => exact hI _ _ _ ih ha hs

/-- A run without choices that has come to its end passes through every state that is reached. -/
theorem to_end {step : σ → Unit → Option σ} {C : σ → Unit → Prop} (h : Reach step C s0 s)
    (h' : Reach step C s0 s') (hend : step s' () = none) : Reach step C s s' := by
  induction h with
  | start => exact h'
  | next _ _ hs ih =>
    rcases ih.head with rfl | ⟨_, s1, -, hs1, hrest⟩
    · rw [hend] at hs
      cases hs
    · obtain rfl := some.inj (hs.symm.trans hs1)
      exact hrest

end Reach

/-! ## Given runs -/

/-- The state that a list of actions leads to, if each can be taken and passes `check`. -/
def run (step : σ → α → Option σ) (check : σ → α → Bool) : σ → List α → Option σ
  | s, [] => some s
  | s, a :: as => if check s a then (step s a).bind fun s' => run step check s' as else none

theorem reach_of_run {check : σ → α → Bool} (hC : ∀ s a, check s a = true → C s a)
    {as : List α} (h : run step check s as = some s') : Reach step C s s' := by
  induction as generalizing s with
  | nil =>
    cases h
    exact .start
  | cons a as ih =>
    rw [run] at h
    split_ifs at h with ha
    obtain ⟨s1, hs1, hrun⟩ := bind_eq_some_iff.mp h
    exact (Reach.single (hC s a ha) hs1).trans (ih hrun)

theorem exists_reach {P : σ → Prop} [DecidablePred P] (check : σ → α → Bool)
    (hC : ∀ s a, check s a = true → C s a) (as : List α)
    (h : ((run step check s as).any fun s' => decide (P s')) = true) :
    ∃ s', Reach step C s s' ∧ P s' := by
  rw [any_eq_true] at h
  obtain ⟨s', hrun, hP⟩ := h
  exact ⟨s', reach_of_run hC hrun, of_decide_eq_true hP⟩

theorem exists_reach_any {P : σ → Prop} [DecidablePred P] (as : List α)
    (h : ((run step (fun _ _ => true) s as).any fun s' => decide (P s')) = true) :
    ∃ s', Reach step Any s s' ∧ P s' :=
  exists_reach _ (fun _ _ _ => trivial) as h

end Runs
