import ShiziOS.Mm.PmmInit
import ShiziOS.Mm.BuddyLoops

/-!
# The greedy decomposition of the free pages

What `free_lists_init` cuts a zone into: aligned blocks inside the zone, made of
free pages, ascending and therefore disjoint, covering every free page of the zone,
and each as large as its start and the free pages after it allow. The last point is
what makes the initial lists free of buddies.
-/

namespace ShiziOS.Mm

open Dyadic List List.Pairwise

/-! ## One run of free pages -/

theorem and_mask_eq_zero_iff (c k : Nat) : c &&& (2 ^ k - 1) = 0 ↔ 2 ^ k ∣ c := by
  rw [Nat.and_two_pow_sub_one_eq_mod, Nat.dvd_iff_mod_eq_zero]

theorem bestOrder_spec (current : Nat) {remaining : Nat} (hr : 0 < remaining) :
    ∀ n, 0 < n → bestOrder current remaining n < n ∧
      2 ^ bestOrder current remaining n ≤ remaining ∧ 2 ^ bestOrder current remaining n ∣ current ∧
      ∀ k, k < n → 2 ^ k ≤ remaining → 2 ^ k ∣ current → k ≤ bestOrder current remaining n := by
  intro n hn
  induction n with
  | zero => omega
  | succ n ih =>
    simp only [bestOrder, and_mask_eq_zero_iff]
    split_ifs with hfit
    · exact ⟨by omega, hfit.1, hfit.2, fun k hk _ _ => by omega⟩
    · rcases Nat.eq_zero_or_pos n with rfl | hpos
      · -- order 0 always fits, so the fall-back is not taken
        exact absurd ⟨by rw [pow_zero]; exact hr, by simp⟩ hfit
      · obtain ⟨hlt, hle, hdvd, hmax⟩ := ih hpos
        refine ⟨by omega, hle, hdvd, fun k hk hk' hkd => ?_⟩
        rcases Nat.lt_succ_iff_lt_or_eq.mp hk with hkn | rfl
        · exact hmax k hkn hk' hkd
        · exact absurd ⟨hk', hkd⟩ hfit

/-- Ascending blocks, each ending at or before the start of every later one. -/
def Ascending (l : List (Nat × Nat)) : Prop := l.Pairwise fun a b => a.1 + 2 ^ a.2 ≤ b.1

theorem cutRegion_mem {fuel current remaining : Nat} {b : Nat × Nat}
    (hb : b ∈ cutRegion fuel current remaining) :
    b.2 < maxOrder ∧ 2 ^ b.2 ∣ b.1 ∧ current ≤ b.1 ∧ b.1 + 2 ^ b.2 ≤ current + remaining ∧
      ∀ k, k < maxOrder → 2 ^ k ∣ b.1 → b.1 + 2 ^ k ≤ current + remaining → k ≤ b.2 := by
  induction fuel generalizing current remaining with
  | zero => simp [cutRegion] at hb
  | succ fuel ih =>
    rw [cutRegion] at hb
    split_ifs at hb with hr
    · simp at hb
    · have hspec := bestOrder_spec current (Nat.pos_of_ne_zero hr) maxOrder (by decide)
      obtain ⟨hlt, hle, hdvd, hmax⟩ := hspec
      rcases mem_cons.mp hb with rfl | hb
      · refine ⟨hlt, hdvd, le_rfl, Nat.add_le_add_left hle current, fun k hk hkd hkr => ?_⟩
        exact hmax k hk (Nat.le_of_add_le_add_left hkr) hkd
      · obtain ⟨h1, h2, h3, h4, h5⟩ := ih hb
        refine ⟨h1, h2, by omega, by omega, fun k hk hkd hkr => h5 k hk hkd ?_⟩
        omega

theorem cutRegion_ascending (fuel current remaining : Nat) :
    Ascending (cutRegion fuel current remaining) := by
  induction fuel generalizing current remaining with
  | zero => exact nil
  | succ fuel ih =>
    rw [cutRegion]
    split_ifs with hr
    · exact nil
    · exact cons (fun b hb => (cutRegion_mem hb).2.2.1) (ih _ _)

theorem cutRegion_cover (fuel current remaining : Nat) {q : Nat} (hfuel : remaining ≤ fuel)
    (hq : current ≤ q) (hq' : q < current + remaining) :
    ∃ b ∈ cutRegion fuel current remaining, In b.1 b.2 q := by
  induction fuel generalizing current remaining with
  | zero => omega
  | succ fuel ih =>
    have hr : remaining ≠ 0 := by omega
    rw [cutRegion, if_neg hr]
    obtain ⟨_, hle, _, _⟩ := bestOrder_spec current (Nat.pos_of_ne_zero hr) maxOrder (by decide)
    have hpos := Nat.two_pow_pos (bestOrder current remaining maxOrder)
    by_cases hin : q < current + 2 ^ bestOrder current remaining maxOrder
    · exact ⟨_, mem_cons_self, hq, hin⟩
    · obtain ⟨b, hb, hqb⟩ := ih (current + 2 ^ bestOrder current remaining maxOrder)
        (remaining - 2 ^ bestOrder current remaining maxOrder) (by omega) (by omega) (by omega)
      exact ⟨b, mem_cons_of_mem _ hb, hqb⟩

/-! ## One zone -/

theorem skipWhile_spec (alloc : Nat → Bool) (v : Bool) (endPfn : Nat) :
    ∀ fuel pfn, endPfn ≤ pfn + fuel →
      pfn ≤ skipWhile alloc v endPfn fuel pfn ∧
      (∀ q, pfn ≤ q → q < skipWhile alloc v endPfn fuel pfn → q < endPfn ∧ alloc q = v) ∧
      (skipWhile alloc v endPfn fuel pfn < endPfn →
        alloc (skipWhile alloc v endPfn fuel pfn) ≠ v) := by
  intro fuel
  induction fuel with
  | zero =>
    intro pfn hfuel
    exact ⟨le_rfl, fun q hq hq' => by simp only [skipWhile] at hq'; omega,
      fun hlt => by simp only [skipWhile] at hlt; omega⟩
  | succ fuel ih =>
    intro pfn hfuel
    rw [skipWhile]
    split_ifs with hmatch
    · obtain ⟨hle, hall, hstop⟩ := ih (pfn + 1) (by omega)
      refine ⟨by omega, fun q hq hq' => ?_, hstop⟩
      rcases Nat.eq_or_lt_of_le hq with rfl | hlt
      · exact hmatch
      · exact hall q hlt hq'
    · exact ⟨le_rfl, fun q hq hq' => by omega, fun hlt he => hmatch ⟨hlt, he⟩⟩

/-- What the scan of the pages `[pfn, endPfn)` delivers. -/
structure Decomposition (alloc : Nat → Bool) (pfn endPfn : Nat) (l : List (Nat × Nat)) : Prop where
  ascending : Ascending l
  order_lt : ∀ b ∈ l, b.2 < maxOrder
  aligned : ∀ b ∈ l, 2 ^ b.2 ∣ b.1
  start_le : ∀ b ∈ l, pfn ≤ b.1
  free : ∀ b ∈ l, ∀ q, In b.1 b.2 q → q < endPfn ∧ alloc q = false
  cover : ∀ q, pfn ≤ q → q < endPfn → alloc q = false → ∃ b ∈ l, In b.1 b.2 q
  greedy : ∀ b ∈ l, ∀ k, k < maxOrder → 2 ^ k ∣ b.1 →
    (∀ q, In b.1 k q → q < endPfn ∧ alloc q = false) → k ≤ b.2

theorem decomposition_nil {alloc : Nat → Bool} {pfn endPfn : Nat}
    (h : ∀ q, pfn ≤ q → q < endPfn → alloc q = true) : Decomposition alloc pfn endPfn [] := by
  refine ⟨nil, nofun, nofun, nofun, nofun, fun q hq hq' hf => ?_, nofun⟩
  rw [h q hq hq'] at hf
  cases hf

theorem scanZone_decomposition (alloc : Nat → Bool) (endPfn : Nat) :
    ∀ fuel pfn, endPfn ≤ pfn + fuel →
      Decomposition alloc pfn endPfn (scanZone alloc endPfn fuel pfn) := by
  intro fuel
  induction fuel with
  | zero =>
    intro pfn hfuel
    exact decomposition_nil fun q hq hq' => by omega
  | succ fuel ih =>
    intro pfn hfuel
    rw [scanZone]
    by_cases hpfn : pfn < endPfn
    swap
    · rw [if_neg hpfn]
      exact decomposition_nil fun q hq hq' => by omega
    rw [if_pos hpfn]
    dsimp only
    obtain ⟨hle, hused, hfirst⟩ := skipWhile_spec alloc true endPfn (endPfn - pfn) pfn (by omega)
    generalize skipWhile alloc true endPfn (endPfn - pfn) pfn = a at hle hused hfirst ⊢
    by_cases hend : endPfn ≤ a
    · rw [if_pos hend]
      exact decomposition_nil fun q hq hq' => (hused q hq (by omega)).2
    rw [if_neg hend]
    obtain ⟨hle', hrun, hlast⟩ := skipWhile_spec alloc false endPfn (endPfn - a) a (by omega)
    generalize skipWhile alloc false endPfn (endPfn - a) a = c at hle' hrun hlast ⊢
    -- the run is not empty, so the rest of the scan starts further up
    have hac : a < c := by
      rcases Nat.lt_or_ge a c with h | h
      · exact h
      · obtain rfl : c = a := by omega
        have h1 := hfirst (by omega)
        have h2 := hlast (by omega)
        simp only [ne_eq, Bool.not_eq_true, Bool.not_eq_false] at h1 h2
        simp [h1] at h2
    have hrec := ih c (by omega)
    have hcut : ∀ b ∈ cutRegion (c - a) a (c - a), a ≤ b.1 ∧ b.1 + 2 ^ b.2 ≤ c := by
      intro b hb
      obtain ⟨_, _, h3, h4, _⟩ := cutRegion_mem hb
      exact ⟨h3, by omega⟩
    refine ⟨?_, forall_mem_append.mpr ⟨fun b hb => (cutRegion_mem hb).1, hrec.order_lt⟩,
      forall_mem_append.mpr ⟨fun b hb => (cutRegion_mem hb).2.1, hrec.aligned⟩,
      forall_mem_append.mpr ⟨fun b hb => hle.trans (hcut b hb).1,
        fun b hb => (hle.trans hle').trans (hrec.start_le b hb)⟩,
      forall_mem_append.mpr ⟨fun b hb q hq => ?_, hrec.free⟩, ?_,
      forall_mem_append.mpr ⟨fun b hb k hk hkd hfree => ?_, hrec.greedy⟩⟩
    · refine pairwise_append.mpr ⟨cutRegion_ascending _ _ _, hrec.ascending, ?_⟩
      intro x hx y hy
      exact (hcut x hx).2.trans (hrec.start_le y hy)
    · obtain ⟨h1, h2⟩ := hcut b hb
      exact hrun q (h1.trans hq.1) (lt_of_lt_of_le hq.2 h2)
    · intro q hq hq' hf
      by_cases hqa : q < a
      · have := (hused q hq hqa).2
        simp [hf] at this
      by_cases hqc : q < c
      · obtain ⟨b, hb, hin⟩ := cutRegion_cover (c - a) a (c - a) le_rfl
          (Nat.le_of_not_lt hqa) (show q < a + (c - a) by omega)
        exact ⟨b, mem_append_left _ hb, hin⟩
      · obtain ⟨b, hb, hin⟩ := hrec.cover q (by omega) hq' hf
        exact ⟨b, mem_append_right _ hb, hin⟩
    · refine (cutRegion_mem hb).2.2.2.2 k hk hkd ?_
      -- a block that left the run would contain the used page right after it
      obtain ⟨h1, h2⟩ := hcut b hb
      by_contra hlt
      have hc : In b.1 k c := by
        have := Nat.two_pow_pos b.2
        exact ⟨by omega, by omega⟩
      obtain ⟨hce, hcf⟩ := hfree c hc
      exact hlast hce hcf

end ShiziOS.Mm
