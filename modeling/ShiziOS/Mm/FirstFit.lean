import ShiziOS.Mm.PmmInit

/-!
# First fit in the boot allocators

`boot_alloc` and `bitmap_alloc` scan their bitmap upwards with a counter of the clear
bits seen in a row. Both return the lowest run of the size asked for. The bits are named
by a `uint32_t` in `bitmap_alloc`, so beyond `2 ^ 32` frames it looks at, and sets, the
bits of other frames.
-/

namespace ShiziOS.Mm

open Nat

/-- The bits from `start` on, `n` of them, are clear and below `limit`. -/
def FreeRun (map : Nat → Bool) (limit n start : Nat) : Prop :=
  start + n ≤ limit ∧ ∀ i, start ≤ i → i < start + n → map i = false

/-- The result of an allocator on the bitmap `map`: the lowest free run and the bitmap with
exactly its bits set, or a failure that is justified. -/
def FirstFit (map : Bitmap) (limit n : Nat) : Option (Nat × Bitmap) → Prop
  | none => ∀ start, ¬ FreeRun map limit n start
  | some (start, map') => FreeRun map limit n start ∧ (∀ t < start, ¬ FreeRun map limit n t) ∧
    ∀ bit, map' bit = (decide (start ≤ bit ∧ bit < start + n) || map bit)

/-- What a search has found: the lowest free run, or that there is none. -/
def Lowest (map : Nat → Bool) (limit n : Nat) : Option Nat → Prop
  | none => ∀ start, ¬ FreeRun map limit n start
  | some start => FreeRun map limit n start ∧ ∀ t < start, ¬ FreeRun map limit n t

/-- The invariant of the scan before bit `i`: the last `c` bits are clear, and no run of
`n` clear bits starts before them. -/
structure Scan (map : Nat → Bool) (n i c : Nat) : Prop where
  count_le : c ≤ i
  count_lt : c < n
  clear : ∀ j, i - c ≤ j → j < i → map j = false
  none_before : ∀ start < i - c, ∃ j, start ≤ j ∧ j < start + n ∧ map j = true

section Scan

variable {map : Nat → Bool} {n i c limit : Nat}

theorem Scan.init (hn : 0 < n) : Scan map n 0 0 :=
  ⟨le_rfl, hn, fun j _ hj => absurd hj (not_lt_zero j), fun start hs => by omega⟩

section

variable (h : Scan map n i c)
include h

theorem Scan.not_freeRun {start : Nat} (hs : start < i - c) : ¬ FreeRun map limit n start := by
  intro hrun
  obtain ⟨j, hj, hj', hset⟩ := h.none_before start hs
  rw [hrun.2 j hj hj'] at hset
  cases hset

theorem Scan.clear_bit (hi : map i = false) : ∀ j, i - c ≤ j → j < i + 1 → map j = false := by
  intro j hj hj'
  rcases Nat.lt_succ_iff_lt_or_eq.mp hj' with hlt | rfl
  · exact h.clear j hj hlt
  · exact hi

theorem Scan.next (hi : map i = false) (hc : c + 1 ≠ n) : Scan map n (i + 1) (c + 1) := by
  have hle := h.count_le
  have hlt := h.count_lt
  refine ⟨by omega, by omega, fun j hj hj' => h.clear_bit hi j (by omega) hj', fun start hs => ?_⟩
  exact h.none_before start (by omega)

theorem Scan.reset (hi : map i = true) : Scan map n (i + 1) 0 := by
  have hle := h.count_le
  have hlt := h.count_lt
  refine ⟨by omega, by omega, fun j hj hj' => by omega, fun start hs => ?_⟩
  by_cases hbefore : start < i - c
  · exact h.none_before start hbefore
  · exact ⟨i, by omega, by omega, hi⟩

theorem Scan.found (hi : map i = false) (hc : c + 1 = n) (hlimit : i < limit) :
    Lowest map limit n (some (i - c)) := by
  have hle := h.count_le
  refine ⟨⟨by omega, fun j hj hj' => h.clear_bit hi j hj (by omega)⟩, fun t ht => ?_⟩
  exact h.not_freeRun ht

end

theorem Scan.done (h : Scan map n limit c) : Lowest map limit n none := by
  intro start hrun
  have hlt := h.count_lt
  have hlimit := hrun.1
  exact h.not_freeRun (by omega) hrun

end Scan

variable {map : Bitmap} {n maxPfn : Nat}

theorem bootSearch_lowest {limit : Nat} (fuel i c : Nat) (h : Scan map n i c)
    (hfuel : i + fuel = limit) : Lowest map limit n (bootSearch map n fuel i c) := by
  induction fuel generalizing i c with
  | zero =>
    obtain rfl : i = limit := hfuel
    exact h.done
  | succ fuel ih =>
    rw [bootSearch]
    split_ifs with hi hc
    · rw [← hc, Nat.add_sub_add_right]
      exact hc ▸ h.found hi hc (by omega)
    · exact ih (i + 1) (c + 1) (h.next hi hc) (by omega)
    · exact ih (i + 1) 0 (h.reset (by simpa using hi)) (by omega)

theorem bitmapSearch_eq (fuel i c start : Nat) (hle : c ≤ i) (hstart : 0 < c → start = i - c) :
    bitmapSearch map n fuel i c start = bootSearch map.check n fuel i c := by
  induction fuel generalizing i c start with
  | zero => rfl
  | succ fuel ih =>
    have he : (if c = 0 then i else start) = i - c := by
      split_ifs with hc
      · rw [hc, Nat.sub_zero]
      · exact hstart (Nat.pos_of_ne_zero hc)
    rw [bitmapSearch, bootSearch]
    dsimp only
    rw [he, ih (i + 1) (c + 1) (i - c) (by omega) (by omega),
      ih (i + 1) 0 start (by omega) (by omega)]
    split_ifs with hi hc
    · rw [← hc, Nat.add_sub_add_right]
    · rfl
    · rfl

/-- The inputs on which `bitmap_alloc` sees the bitmap as it is: there is a run below bit
`2 ^ 32`, or none at all, neither of bits nor of the bits that it looks at. -/
def Narrow (map : Bitmap) (maxPfn n : Nat) : Prop :=
  (∃ start, FreeRun map (min (maxPfn + 1) (2 ^ 32)) n start) ∨
    ∀ start, ¬ FreeRun map (maxPfn + 1) n start ∧ ¬ FreeRun map.check (maxPfn + 1) n start

theorem check_of_lt {bit : Nat} (h : bit < 2 ^ 32) : map.check bit = map bit := by
  rw [Bitmap.check, mod_eq_of_lt h]

theorem freeRun_check {limit start : Nat} (h : start + n ≤ 2 ^ 32) :
    FreeRun map.check limit n start ↔ FreeRun map limit n start := by
  refine and_congr_right fun _ => forall_congr' fun i => imp_congr_right fun _ => ?_
  refine imp_congr_right fun hi => ?_
  rw [check_of_lt (by omega)]

theorem check_of_narrow {limit start : Nat} (h : FreeRun map (min limit (2 ^ 32)) n start) :
    FreeRun map.check limit n start := by
  have hle := h.1
  exact (freeRun_check (by omega)).mpr ⟨by omega, h.2⟩

/-- On a machine with at most `2 ^ 32` frames it always does. -/
theorem narrow_of_lt (h : maxPfn < 2 ^ 32) : Narrow map maxPfn n := by
  by_cases hrun : ∃ start, FreeRun map (maxPfn + 1) n start
  · rw [Narrow, min_eq_left h]
    exact .inl hrun
  · refine .inr fun start => ⟨fun hfree => hrun ⟨start, hfree⟩, fun hfree => hrun ⟨start, ?_⟩⟩
    have hle := hfree.1
    exact (freeRun_check (by omega)).mp hfree

theorem putRange_apply (map : Bitmap) (start m bit : Nat) :
    map.putRange start true m bit =
      (decide (∃ j < m, bit = (start + j) % 2 ^ 32) || map bit) := by
  induction m with
  | zero => simp [Bitmap.putRange]
  | succ m ih =>
    rw [Bitmap.putRange, Bitmap.put, Function.update_apply, ih]
    simp only [exists_lt_succ_right]
    split_ifs with hbit
    · rw [decide_eq_true (.inr hbit), Bool.true_or]
    · simp only [hbit, or_false]

theorem bitmapAllocAt_lowest (map : Bitmap) (maxPfn : Nat) (hn : 1 ≤ n) :
    Lowest map.check (maxPfn + 1) n (bitmapSearch map n (maxPfn + 1) 0 0 0) := by
  rw [bitmapSearch_eq _ 0 0 0 le_rfl (by omega)]
  exact bootSearch_lowest (maxPfn + 1) 0 0 (Scan.init hn) (zero_add _)

theorem bitmapAllocAt_eq_none (hn : 1 ≤ n) (h : ∀ start, ¬ FreeRun map.check (maxPfn + 1) n start) :
    bitmapAllocAt map maxPfn n = none := by
  have hlow := bitmapAllocAt_lowest map maxPfn hn
  unfold bitmapAllocAt
  cases hr : bitmapSearch map n (maxPfn + 1) 0 0 0 with
  | none => rfl
  | some start =>
    rw [hr] at hlow
    exact absurd hlow.1 (h start)

theorem bitmapAllocAt_firstFit_iff (hn : 1 ≤ n) :
    FirstFit map (maxPfn + 1) n (bitmapAllocAt map maxPfn n) ↔ Narrow map maxPfn n := by
  have hlow := bitmapAllocAt_lowest map maxPfn hn
  unfold bitmapAllocAt
  generalize bitmapSearch map n (maxPfn + 1) 0 0 0 = r at hlow
  cases r with
  | none =>
    constructor
    · intro hnone
      exact .inr fun start => ⟨hnone start, hlow start⟩
    · rintro (⟨start, hrun⟩ | hnone)
      · exact absurd (check_of_narrow hrun) (hlow start)
      · exact fun start => (hnone start).1
  | some start =>
    obtain ⟨hrun, hfirst⟩ := hlow
    have hlimit := hrun.1
    by_cases hnarrow : start + n ≤ 2 ^ 32
    · -- the run found lies below bit `2 ^ 32`, where both views agree
      have hrun' := (freeRun_check hnarrow).mp hrun
      refine iff_of_true ⟨hrun', fun t ht hfree => ?_, fun bit => ?_⟩
        (.inl ⟨start, by omega, hrun'.2⟩)
      · exact hfirst t ht ((freeRun_check (by omega)).mpr hfree)
      · rw [putRange_apply]
        congr 1
        refine decide_eq_decide.mpr ⟨?_, fun hbit => ⟨bit - start, by omega, ?_⟩⟩
        · rintro ⟨j, hj, rfl⟩
          rw [mod_eq_of_lt (by omega)]
          omega
        · rw [mod_eq_of_lt (by omega)]
          omega
    · -- a run that crosses bit `2 ^ 32` sets bit `0` in place of bit `2 ^ 32`
      refine iff_of_false (fun hfit => ?_) (fun hn' => ?_)
      · obtain ⟨hfree, -, hbits⟩ := hfit
        have hset := hbits (2 ^ 32)
        have hstart : start ≤ 2 ^ 32 := by
          by_contra hlt
          refine hfirst (start - 2 ^ 32) (by omega) ⟨by omega, fun i hi hi' => ?_⟩
          have := hrun.2 (i + 2 ^ 32) (by omega) (by omega)
          rwa [Bitmap.check, add_mod_right] at this
        rw [putRange_apply, decide_eq_true (show start ≤ 2 ^ 32 ∧ 2 ^ 32 < start + n by omega),
          hfree.2 (2 ^ 32) hstart (by omega), Bool.or_false, Bool.true_or,
            decide_eq_true_eq] at hset
        obtain ⟨j, -, hj⟩ := hset
        have := mod_lt (start + j) (show 0 < 2 ^ 32 by decide)
        omega
      · rcases hn' with ⟨t, ht⟩ | hnone
        · have hle := ht.1
          exact hfirst t (by omega) (check_of_narrow ht)
        · exact (hnone start).2 hrun

theorem bootAlloc_firstFit (hn : 1 ≤ n) : FirstFit map bootAllocMaxPages n (bootAlloc map n) := by
  have hlow : Lowest map bootAllocMaxPages n (bootSearch map n bootAllocMaxPages 0 0) :=
    bootSearch_lowest bootAllocMaxPages 0 0 (Scan.init hn) (zero_add _)
  rw [bootAlloc, if_neg (by omega)]
  generalize bootSearch map n bootAllocMaxPages 0 0 = r at hlow
  cases r with
  | none => exact hlow
  | some start => exact ⟨hlow.1, hlow.2, fun bit => rfl⟩

/-! ## One allocation after the other -/

/-- The bits of two runs are different ones. -/
def Apart (a b : Nat × Nat) : Prop :=
  ∀ bit, a.1 ≤ bit → bit < a.1 + a.2 → ¬ (b.1 ≤ bit ∧ bit < b.1 + b.2)

/-- The runs that requests get one after the other, each of which meets `C` on the bitmap it
finds. A request that fails leaves the bitmap as it is. -/
inductive Successive (alloc : Bitmap → Nat → Option (Nat × Bitmap)) (C : Bitmap → Nat → Prop) :
    Bitmap → List (Nat × Nat) → Prop
  | none (map : Bitmap) : Successive alloc C map []
  | next {map map' : Bitmap} {n start : Nat} {runs : List (Nat × Nat)} (hn : 1 ≤ n)
    (hC : C map n) (h : alloc map n = some (start, map')) (rest : Successive alloc C map' runs) :
    Successive alloc C map ((start, n) :: runs)

section Successive

variable {alloc : Bitmap → Nat → Option (Nat × Bitmap)} {C : Bitmap → Nat → Prop} {limit : Nat}
  {runs : List (Nat × Nat)}

theorem Successive.not_set (h : Successive alloc C map runs)
    (hfit : ∀ map n, 1 ≤ n → C map n → FirstFit map limit n (alloc map n)) (bit : Nat)
    (hbit : map bit = true) : ∀ r ∈ runs, ¬ (r.1 ≤ bit ∧ bit < r.1 + r.2) := by
  induction h with
  | none => exact fun r hr => nomatch hr
  | @next map map' n start runs hn hC ha _ ih =>
    obtain ⟨hrun, -, hbits⟩ : FirstFit map limit n (some (start, map')) := ha ▸ hfit map n hn hC
    intro r hr
    rcases List.mem_cons.mp hr with rfl | hr
    · rintro ⟨hlo, hhi⟩
      rw [hrun.2 bit hlo hhi] at hbit
      cases hbit
    · exact ih (by rw [hbits, hbit, Bool.or_true]) r hr

theorem Successive.pairwise_apart (h : Successive alloc C map runs)
    (hfit : ∀ map n, 1 ≤ n → C map n → FirstFit map limit n (alloc map n)) :
    runs.Pairwise Apart := by
  induction h with
  | none => exact List.Pairwise.nil
  | @next map map' n start runs hn hC ha rest ih =>
    obtain ⟨-, -, hbits⟩ : FirstFit map limit n (some (start, map')) := ha ▸ hfit map n hn hC
    refine List.Pairwise.cons (fun b hb bit hlo hhi => ?_) ih
    refine rest.not_set hfit bit ?_ b hb
    rw [hbits, decide_eq_true ⟨hlo, hhi⟩, Bool.true_or]

end Successive

/-- First fit. A request to the boot allocator gets the lowest run or there is none, a
request to `bitmap_alloc` if and only if the search stays below bit `2 ^ 32`; and the runs of
such requests are pairwise disjoint. -/
theorem first_fit_iff (map : Bitmap) (n maxPfn : Nat) (hn : 1 ≤ n) :
    FirstFit map bootAllocMaxPages n (bootAlloc map n) ∧
      (FirstFit map (maxPfn + 1) n (bitmapAllocAt map maxPfn n) ↔ Narrow map maxPfn n) ∧
      (∀ runs, Successive bootAlloc (fun _ _ => True) map runs → runs.Pairwise Apart) ∧
      ∀ runs, Successive (bitmapAllocAt · maxPfn) (Narrow · maxPfn) map runs →
        runs.Pairwise Apart := by
  refine ⟨bootAlloc_firstFit hn, bitmapAllocAt_firstFit_iff hn, fun runs h => ?_,
    fun runs h => ?_⟩
  · exact h.pairwise_apart fun map n hn _ => bootAlloc_firstFit hn
  · exact h.pairwise_apart fun map n hn hC => (bitmapAllocAt_firstFit_iff hn).mpr hC

/-- Frames `0`, `2` and `5` are in use. -/
def holes : Bitmap := fun bit => bit == 0 || bit == 2 || bit == 5

theorem holes_runs : Successive (bitmapAllocAt · 9) (Narrow · 9) holes [(3, 2), (1, 1), (6, 2)] :=
  .next (by decide) (narrow_of_lt (by decide)) rfl <|
    .next (by decide) (narrow_of_lt (by decide)) rfl <|
    .next (by decide) (narrow_of_lt (by decide)) rfl (.none _)

theorem first_fit_iff_holes : FirstFit holes bootAllocMaxPages 2 (bootAlloc holes 2) ∧
    FirstFit holes 10 2 (bitmapAllocAt holes 9 2) ∧
    [(3, 2), (1, 1), (6, 2)].Pairwise Apart := by
  obtain ⟨hboot, hiff, -, hruns⟩ := first_fit_iff holes 2 9 (by decide)
  exact ⟨hboot, hiff.mpr (narrow_of_lt (by decide)), hruns _ holes_runs⟩

/-- With `2 ^ 32 + 1` frames and only the last one free, `bitmap_alloc` finds nothing. -/
theorem bitmap_alloc_misses_frame :
    FreeRun (fun bit => bit != 2 ^ 32) (2 ^ 32 + 1) 1 (2 ^ 32) ∧
      bitmapAllocAt (fun bit => bit != 2 ^ 32) (2 ^ 32) 1 = none := by
  refine ⟨⟨le_rfl, fun i hi hi' => ?_⟩, bitmapAllocAt_eq_none le_rfl fun start hrun => ?_⟩
  · obtain rfl : i = 2 ^ 32 := by omega
    rfl
  · have hclear := hrun.2 start le_rfl (lt_succ_self start)
    have := mod_lt start (show 0 < 2 ^ 32 by decide)
    simp only [Bitmap.check, bne_eq_false_iff_eq] at hclear
    omega

end ShiziOS.Mm
