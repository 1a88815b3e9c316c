import Mathlib.Tactic.FieldSimp
import Mathlib.Tactic.IntervalCases
import Mathlib.Tactic.Linarith
import Mathlib.Tactic.Positivity
import Mathlib.Tactic.Ring

/-!
# Cycles and nanoseconds

`kernel/time/timecycle.c` and the two conversions of `kernel/include/timecycle.h`. A panic and a
division that traps in `__udivti3` are `none`.

The search for a shift takes the first one at which the multiplier is not zero. Up to one gigahertz
that is `0`, and the multiplier is the whole number of nanoseconds in a cycle; above, the multiplier
is `1`, and the way back leaves out the shift.
-/

namespace ShiziOS.Time

open Nat

def nsecPerSec : Nat := 1000000000

def maxShift : Nat := 32

def uint32Max : Nat := 2 ^ 32 - 1

/-- `__udivti3`, or `none` for a trap: the divisor and the quotient of `divq` have 64 bits. -/
def udivti3 (a b : Nat) : Option Nat :=
  if 2 ^ 64 ≤ b ∨ b = 0 ∨ 2 ^ 64 ≤ a / b then none else some (a / b)

/-- The loop of `calc_optimal_shift`, with `left` rounds to go. -/
def optimalShiftLoop (hz maxSeconds : Nat) : (left shift : Nat) → Option Nat
  | 0, _ => some maxShift
  | left + 1, shift =>
    let numerator := nsecPerSec * 2 ^ shift % 2 ^ 128
    (udivti3 numerator hz).bind fun quotient =>
      let mult := quotient % 2 ^ 64
      if mult = 0 then optimalShiftLoop hz maxSeconds left (shift + 1)
      else if uint32Max < mult then some (if 0 < shift then shift - 1 else 0)
      else
        let maxCycles := hz * maxSeconds % 2 ^ 128
        let maxNs := maxCycles * mult % 2 ^ 128
        if 2 ^ 64 - 1 < maxNs / 2 ^ shift then optimalShiftLoop hz maxSeconds left (shift + 1)
        else some shift

def calcOptimalShift (hz maxSeconds : Nat) : Option Nat :=
  optimalShiftLoop hz maxSeconds (maxShift + 1) 0

/-- `calc_forward_params`: multiplier and shift. -/
def calcForwardParams (hz shift : Nat) : Option (Nat × Nat) :=
  (udivti3 (nsecPerSec * 2 ^ shift % 2 ^ 128) hz).map fun quotient => (quotient % 2 ^ 32, shift)

/-- The loop of `calc_inverse_params`, downwards. -/
def calcInverseLoop (mult shift : Nat) : (extraShift : Nat) → Option (Nat × Nat)
  | 0 => none
  | extraShift + 1 =>
    let one := 2 ^ (shift + (extraShift + 1)) % 2 ^ 128
    (udivti3 one mult).bind fun quotient =>
      let inv := quotient % 2 ^ 64
      if inv ≤ uint32Max then some (inv, shift + (extraShift + 1))
      else calcInverseLoop mult shift extraShift

/-- `calc_inverse_params`: multiplier and shift of the way back. -/
def calcInverseParams (mult shift : Nat) : Option (Nat × Nat) := calcInverseLoop mult shift 32

/-- The loop of `timecycle_init_params` for a multiplier that is zero. -/
def forwardLoop (hz : Nat) : (left s : Nat) → Nat × Nat → Option (Nat × Nat)
  | 0, _, params => some params
  | left + 1, s, _ =>
    (calcForwardParams hz s).bind fun params =>
      if params.1 ≠ 0 then some params else forwardLoop hz left (s + 1) params

structure Params where
  mult : Nat
  shift : Nat
  multInv : Nat
  shiftInv : Nat
deriving DecidableEq, Repr

def timecycleInitParams (hz maxSeconds : Nat) : Option Params :=
  if hz = 0 ∨ maxSeconds = 0 then none
  else do
    let optimalShift ← calcOptimalShift hz maxSeconds
    let params ← calcForwardParams hz optimalShift
    let (mult, shift) ←
      if params.1 = 0 then forwardLoop hz (maxShift - optimalShift) (optimalShift + 1) params
      else some params
    let (multInv, shiftInv) ← calcInverseParams mult shift
    if mult = 0 ∨ multInv = 0 then none else some ⟨mult, shift, multInv, shiftInv⟩

def timecycleCyclesToNs (cycles mult shift : Nat) : Nat :=
  cycles * mult % 2 ^ 128 / 2 ^ shift % 2 ^ 64

def timecycleNsToCycles (ns multInv shiftInv : Nat) : Nat :=
  ns * multInv % 2 ^ 128 / 2 ^ shiftInv % 2 ^ 64

/-! ## Accuracy -/

/-- A number differs from `y` by at most `0.1` percent of it and one. -/
def Close (x : Nat) (y : ℚ) : Prop := |x - y| ≤ y / 1000 + 1

/-- Both conversions are close for all times up to `maxSeconds`. -/
structure Params.Accurate (p : Params) (hz maxSeconds : Nat) : Prop where
  cycles : ∀ c ≤ hz * maxSeconds,
    Close (timecycleCyclesToNs c p.mult p.shift) (c * nsecPerSec / hz)
  ns : ∀ n ≤ maxSeconds * nsecPerSec,
    Close (timecycleNsToCycles n p.multInv p.shiftInv) (n * hz / nsecPerSec)

variable {n shift mult : Nat}

theorem close_iff {x den : Nat} (hden : 0 < den) :
    Close x (n / den) ↔
      1000 * den * x ≤ 1001 * n + 1000 * den ∧ 999 * n ≤ 1000 * den * x + 1000 * den := by
  have hupper : (x : ℚ) - n / den ≤ n / den / 1000 + 1 ↔
      (1000 * den * x : ℚ) ≤ 1001 * n + 1000 * den := by
    constructor
    · intro h
      field_simp at h
      linarith
    · intro h
      field_simp
      linarith
  have hlower : -(n / den / 1000 + 1) ≤ (x : ℚ) - n / den ↔
      (999 * n : ℚ) ≤ 1000 * den * x + 1000 * den := by
    constructor
    · intro h
      field_simp at h
      linarith
    · intro h
      field_simp
      linarith
  rw [Close, abs_le, hupper, hlower]
  exact_mod_cast and_comm

/-! ## The parameters -/

def year : Nat := 365 * 86400

variable {hz maxSeconds c m r : Nat}

theorem udivti3_eq {a b : Nat} (ha : a < 2 ^ 64) (hb : b < 2 ^ 64) (hpos : 0 < b) :
    udivti3 a b = some (a / b) := by
  have hle : a / b ≤ a := div_le_self _ _
  rw [udivti3, if_neg (by omega)]

theorem numerator_lt (hshift : shift ≤ maxShift) : nsecPerSec * 2 ^ shift < 2 ^ 64 := by
  have hpow : 2 ^ shift ≤ 2 ^ maxShift := Nat.pow_le_pow_right (by decide) hshift
  exact (mul_le_mul_left nsecPerSec hpow).trans_lt (by decide)

theorem numerator_mod (hshift : shift ≤ maxShift) :
    nsecPerSec * 2 ^ shift % 2 ^ 128 = nsecPerSec * 2 ^ shift :=
  mod_eq_of_lt ((numerator_lt hshift).trans (by decide))

theorem udivti3_numerator (hshift : shift ≤ maxShift) (hhz : hz ≤ 10 ^ 12) (hpos : 0 < hz) :
    udivti3 (nsecPerSec * 2 ^ shift % 2 ^ 128) hz = some (nsecPerSec * 2 ^ shift / hz) := by
  rw [numerator_mod hshift]
  exact udivti3_eq (numerator_lt hshift) (by omega) hpos

theorem optimalShiftLoop_skip {left : Nat} (hshift : shift ≤ maxShift) (hhz : hz ≤ 10 ^ 12)
    (h : nsecPerSec * 2 ^ shift < hz) :
    optimalShiftLoop hz maxSeconds (left + 1) shift =
      optimalShiftLoop hz maxSeconds left (shift + 1) := by
  simp only [optimalShiftLoop, udivti3_numerator hshift hhz (by omega), Option.bind_some,
    div_eq_of_lt h, zero_mod, if_true]

theorem span_le (hdiv : nsecPerSec * 2 ^ shift / hz = mult) (hc : c ≤ hz * maxSeconds) :
    c * mult ≤ 2 ^ shift * (nsecPerSec * maxSeconds) := by
  have hns : hz * mult ≤ nsecPerSec * 2 ^ shift := hdiv ▸ mul_div_le _ _
  calc c * mult ≤ hz * maxSeconds * mult := mul_le_mul_right _ hc
    _ = hz * mult * maxSeconds := mul_right_comm ..
    _ ≤ nsecPerSec * 2 ^ shift * maxSeconds := mul_le_mul_right _ hns
    _ = 2 ^ shift * (nsecPerSec * maxSeconds) := by ring

theorem calcForwardParams_eq (hshift : shift ≤ maxShift) (hhz : hz ≤ 10 ^ 12) (hpos : 0 < hz)
    (hmult : mult ≤ 10 ^ 9) (hdiv : nsecPerSec * 2 ^ shift / hz = mult) :
    calcForwardParams hz shift = some (mult, shift) := by
  rw [calcForwardParams, udivti3_numerator hshift hhz hpos, hdiv, Option.map_some,
    mod_eq_of_lt (by omega)]

theorem optimalShiftLoop_skips {k j : Nat} (hhz : hz ≤ 10 ^ 12) (h : nsecPerSec * 2 ^ k < hz)
    (hk : k < maxShift) (hj : j ≤ k + 1) : calcOptimalShift hz maxSeconds =
      optimalShiftLoop hz maxSeconds (maxShift + 1 - j) j := by
  induction j with
  | zero => rfl
  | succ j ih =>
    have hpow : nsecPerSec * 2 ^ j ≤ nsecPerSec * 2 ^ k :=
      Nat.mul_le_mul_left _ (Nat.pow_le_pow_right (by decide) (by omega))
    have hleft : maxShift + 1 - j = maxShift + 1 - (j + 1) + 1 := by omega
    rw [ih (by omega), hleft, optimalShiftLoop_skip (by omega) hhz (hpow.trans_lt h)]

theorem exists_octave (hlow : nsecPerSec < hz) :
    ∀ K, hz ≤ nsecPerSec * 2 ^ (K + 1) →
      ∃ k ≤ K, nsecPerSec * 2 ^ k < hz ∧ hz ≤ nsecPerSec * 2 ^ (k + 1)
  | 0, h => ⟨0, le_rfl, by omega, h⟩
  | K + 1, h => by
    rcases le_or_gt hz (nsecPerSec * 2 ^ (K + 1)) with hle | hgt
    · obtain ⟨k, hk, hoctave⟩ := exists_octave hlow K hle
      exact ⟨k, by omega, hoctave⟩
    · exact ⟨K + 1, le_rfl, hgt, h⟩

/-- What the parameters for `hz` fulfil. -/
structure Params.Sound (p : Params) (hz : Nat) : Prop where
  forward : nsecPerSec * 2 ^ p.shift / hz = p.mult
  shift : p.shift ≤ 10
  positive : 0 < p.mult
  inverse : 0 < p.multInv
  small : p.multInv ≤ 2 ^ 31
  both : p.mult * p.multInv ≤ 2 ^ p.shiftInv

/-- Division by `m` with a reciprocal of 32 bits. -/
def scaledDiv (n m : Nat) : Nat := n * (2 ^ 32 / m) / 2 ^ 32

theorem calcInverseParams_zero (h : 2 ≤ mult) (hmult : mult ≤ 10 ^ 9) :
    calcInverseParams mult 0 = some (2 ^ 32 / mult, 32) := by
  have hle : 2 ^ 32 / mult ≤ 2 ^ 32 / 2 := div_le_div_left h (by decide)
  have hone : 2 ^ (0 + (31 + 1)) % 2 ^ 128 = 2 ^ 32 := by decide
  have hlt : 2 ^ 32 / mult < 2 ^ 64 := by omega
  rw [calcInverseParams, calcInverseLoop]
  simp only [hone, udivti3_eq (show 2 ^ 32 < 2 ^ 64 by decide) (show mult < 2 ^ 64 by omega)
    (by omega), Option.bind_some, mod_eq_of_lt hlt]
  rw [if_pos (by unfold uint32Max; omega)]

section Span

variable (hpos : 0 < maxSeconds) (hmax : maxSeconds ≤ 10 ^ 9)

include hmax

theorem optimalShiftLoop_stop {left : Nat} (hshift : shift ≤ maxShift) (hhz : hz ≤ 10 ^ 12)
    (hpos : 0 < hz) (hm : 0 < mult) (hmult : mult ≤ 10 ^ 9)
    (hdiv : nsecPerSec * 2 ^ shift / hz = mult) :
    optimalShiftLoop hz maxSeconds (left + 1) shift = some shift := by
  have hcycles : hz * maxSeconds ≤ 10 ^ 12 * 10 ^ 9 := Nat.mul_le_mul hhz hmax
  have hall : hz * maxSeconds * mult ≤ 10 ^ 12 * 10 ^ 9 * 10 ^ 9 := Nat.mul_le_mul hcycles hmult
  have hle : hz * maxSeconds * mult / 2 ^ shift ≤ 1000000000 * maxSeconds :=
    Nat.div_le_of_le_mul (span_le hdiv le_rfl)
  simp only [optimalShiftLoop, uint32Max, udivti3_numerator hshift hhz hpos, Option.bind_some, hdiv,
    mod_eq_of_lt (by omega : mult < 2 ^ 64),
    mod_eq_of_lt (by omega : hz * maxSeconds < 2 ^ 128),
    mod_eq_of_lt (by omega : hz * maxSeconds * mult < 2 ^ 128)]
  rw [if_neg (by omega), if_neg (by omega), if_neg (by omega)]

theorem calcOptimalShift_high (hlow : nsecPerSec < hz) (hhigh : hz ≤ 10 ^ 12) :
    ∃ shift, 1 ≤ shift ∧ shift ≤ 10 ∧ calcOptimalShift hz maxSeconds = some shift ∧
      nsecPerSec * 2 ^ shift / hz = 1 := by
  obtain ⟨k, hk, hskip, hstop⟩ := exists_octave hlow 9 (hhigh.trans (by decide))
  have hshift : k + 1 ≤ maxShift := by
    unfold maxShift
    omega
  have hdiv : nsecPerSec * 2 ^ (k + 1) / hz = 1 := by
    refine Nat.div_eq_of_lt_le (by omega) ?_
    rw [pow_succ, ← mul_assoc]
    omega
  refine ⟨k + 1, by omega, by omega, ?_, hdiv⟩
  rw [optimalShiftLoop_skips hhigh hskip hshift le_rfl,
    show maxShift + 1 - (k + 1) = maxShift - (k + 1) + 1 by omega]
  exact optimalShiftLoop_stop hmax hshift hhigh (by omega) Nat.one_pos (by decide) hdiv

theorem timecycleNsToCycles_eq {multInv shiftInv : Nat} (hn : n ≤ maxSeconds * nsecPerSec)
    (hinv : multInv ≤ 2 ^ 31) (hle : multInv ≤ 2 ^ shiftInv) :
    timecycleNsToCycles n multInv shiftInv = n * multInv / 2 ^ shiftInv := by
  have hspan : maxSeconds * nsecPerSec ≤ 10 ^ 9 * nsecPerSec := mul_le_mul_right _ hmax
  have hmul : n * multInv ≤ 10 ^ 9 * nsecPerSec * 2 ^ 31 := Nat.mul_le_mul (hn.trans hspan) hinv
  have hdiv : n * multInv / 2 ^ shiftInv ≤ n := by
    refine Nat.div_le_of_le_mul ?_
    rw [Nat.mul_comm n]
    exact mul_le_mul_right n hle
  rw [timecycleNsToCycles, mod_eq_of_lt (hmul.trans_lt (by decide)),
    mod_eq_of_lt ((hdiv.trans (hn.trans hspan)).trans_lt (by decide))]

theorem Params.Sound.cyclesToNs {p : Params} (h : p.Sound hz) (hc : c ≤ hz * maxSeconds) :
    c * p.mult < 2 ^ 128 ∧ c * p.mult / 2 ^ p.shift < 2 ^ 64 ∧
      timecycleCyclesToNs c p.mult p.shift = c * p.mult / 2 ^ p.shift := by
  have hle := span_le h.forward hc
  have hpow : 2 ^ p.shift ≤ 2 ^ 10 := Nat.pow_le_pow_right (by decide) h.shift
  have hspan : nsecPerSec * maxSeconds ≤ nsecPerSec * 10 ^ 9 := mul_le_mul_left _ hmax
  have hlt : c * p.mult < 2 ^ 128 :=
    (hle.trans (Nat.mul_le_mul hpow hspan)).trans_lt (by decide)
  have hfits : c * p.mult / 2 ^ p.shift < 2 ^ 64 :=
    ((Nat.div_le_of_le_mul hle).trans hspan).trans_lt (by decide)
  exact ⟨hlt, hfits, by rw [timecycleCyclesToNs, mod_eq_of_lt hlt, mod_eq_of_lt hfits]⟩

include hpos

theorem timecycleInitParams_eq {p : Params} (hhz : 0 < hz) (hhigh : hz ≤ 10 ^ 12) (h : p.Sound hz)
    (hopt : calcOptimalShift hz maxSeconds = some p.shift) (hmult : p.mult ≤ 10 ^ 9)
    (hinv : calcInverseParams p.mult p.shift = some (p.multInv, p.shiftInv)) :
    timecycleInitParams hz maxSeconds = some p := by
  have hm := h.positive
  have hi := h.inverse
  have hshift : p.shift ≤ maxShift := h.shift.trans (by decide)
  simp only [timecycleInitParams, hopt, calcForwardParams_eq hshift hhigh hhz hmult h.forward,
    if_neg (by omega : ¬(hz = 0 ∨ maxSeconds = 0)), if_neg (by omega : ¬p.mult = 0), hinv,
    if_neg (by omega : ¬(p.mult = 0 ∨ p.multInv = 0)), Option.bind_eq_bind, Option.bind_some]

theorem timecycleInitParams_high (hlow : nsecPerSec < hz) (hhigh : hz ≤ 10 ^ 12) :
    ∃ shift, 1 ≤ shift ∧ timecycleInitParams hz maxSeconds = some ⟨1, shift, 2 ^ 31, 31⟩ ∧
      (Params.mk 1 shift (2 ^ 31) 31).Sound hz := by
  obtain ⟨shift, h1, h10, hopt, hdiv⟩ := calcOptimalShift_high hmax hlow hhigh
  have hinv : calcInverseParams 1 shift = some (2 ^ 31, 31) := by
    interval_cases shift <;> decide
  have hsound : (Params.mk 1 shift (2 ^ 31) 31).Sound hz :=
    ⟨hdiv, h10, one_pos, Nat.two_pow_pos 31, le_rfl, (one_mul _).le⟩
  exact ⟨shift, h1, timecycleInitParams_eq hpos hmax (by omega) hhigh hsound hopt
    (show 1 ≤ 10 ^ 9 by decide) hinv, hsound⟩

/-- Up to one gigahertz the ways are a multiplication by the nanoseconds of a cycle and a division
by them. -/
theorem timecycleInitParams_low (hhz : 0 < hz) (hhigh : hz ≤ nsecPerSec) :
    ∃ p, timecycleInitParams hz maxSeconds = some p ∧ p.Sound hz ∧ p.shift = 0 ∧
      ∀ n ≤ maxSeconds * nsecPerSec,
        timecycleNsToCycles n p.multInv p.shiftInv = scaledDiv n (nsecPerSec / hz) := by
  have hm : 0 < nsecPerSec / hz := div_pos hhigh hhz
  have hle : nsecPerSec / hz ≤ 10 ^ 9 := div_le_self _ _
  have hdiv : nsecPerSec * 2 ^ 0 / hz = nsecPerSec / hz := by rw [pow_zero, mul_one]
  have hhigh' : hz ≤ 10 ^ 12 := hhigh.trans (by decide)
  have hopt : calcOptimalShift hz maxSeconds = some 0 :=
    optimalShiftLoop_stop hmax (by decide) hhigh' hhz hm hle hdiv
  rcases lt_or_ge 1 (nsecPerSec / hz) with h2 | h1
  · have hhalf : 2 ^ 32 / (nsecPerSec / hz) ≤ 2 ^ 32 / 2 := div_le_div_left h2 (by decide)
    have hsound : (Params.mk (nsecPerSec / hz) 0 (2 ^ 32 / (nsecPerSec / hz)) 32).Sound hz :=
      ⟨hdiv, zero_le _, hm, div_pos (by omega) hm, hhalf, mul_div_le _ _⟩
    refine ⟨_, timecycleInitParams_eq hpos hmax hhz hhigh' hsound hopt hle
      (calcInverseParams_zero h2 hle), hsound, rfl, ?_⟩
    intro n hn
    exact timecycleNsToCycles_eq hmax hn hhalf (hhalf.trans (show 2 ^ 32 / 2 ≤ 2 ^ 32 by decide))
  · have hone : nsecPerSec / hz = 1 := by omega
    rw [hone] at hdiv ⊢
    have hsound : (Params.mk 1 0 (2 ^ 31) 31).Sound hz :=
      ⟨hdiv, by decide, one_pos, by decide, le_rfl, le_rfl⟩
    refine ⟨_, timecycleInitParams_eq hpos hmax hhz hhigh' hsound hopt (by decide) (by decide),
      hsound, rfl, ?_⟩
    intro n hn
    rw [timecycleNsToCycles_eq hmax hn le_rfl le_rfl, scaledDiv, Nat.div_one]
    simp only [Nat.mul_div_cancel n (Nat.two_pow_pos _)]

end Span

/-! ## When the conversions are accurate -/

/-- Up to one gigahertz cycles are counted short by what a cycle has beyond whole nanoseconds. -/
theorem close_cycles_iff (hhz : 0 < hz) :
    Close (c * (nsecPerSec / hz)) (c * nsecPerSec / hz) ↔
      c * (nsecPerSec % hz) ≤ c * 10 ^ 6 + hz := by
  have hmul : c * nsecPerSec = hz * (c * (nsecPerSec / hz)) + c * (nsecPerSec % hz) := by
    rw [← mul_assoc, mul_comm hz c, mul_assoc, ← mul_add, div_add_mod]
  have hclose := close_iff (x := c * (nsecPerSec / hz)) (n := c * nsecPerSec) hhz
  rw [cast_mul] at hclose
  rw [hclose, mul_assoc 1000]
  unfold nsecPerSec at hmul ⊢
  omega

theorem cycles_accurate_iff {p : Params} (hhz : 0 < hz) (hmax : maxSeconds ≤ 10 ^ 9)
    (h : p.Sound hz) (hshift : p.shift = 0) :
    (∀ c ≤ hz * maxSeconds, Close (timecycleCyclesToNs c p.mult p.shift) (c * nsecPerSec / hz)) ↔
      maxSeconds * (nsecPerSec % hz - 10 ^ 6) ≤ 1 := by
  have hns : ∀ c ≤ hz * maxSeconds,
      timecycleCyclesToNs c p.mult p.shift = c * (nsecPerSec / hz) := by
    intro c hc
    rw [(h.cyclesToNs hmax hc).2.2, ← h.forward, hshift, pow_zero, mul_one, Nat.div_one]
  constructor
  · intro h
    have hlast := h (hz * maxSeconds) le_rfl
    rw [hns _ le_rfl, close_cycles_iff hhz, mul_assoc, mul_assoc,
      ← Nat.mul_add_one] at hlast
    have := le_of_mul_le_mul_left hlast hhz
    rw [Nat.mul_sub]
    omega
  · intro h c hc
    rw [hns c hc, close_cycles_iff hhz]
    have hover : c * (nsecPerSec % hz - 10 ^ 6) ≤ hz := by
      calc c * (nsecPerSec % hz - 10 ^ 6) ≤ hz * maxSeconds * (nsecPerSec % hz - 10 ^ 6) :=
            mul_le_mul_right _ hc
        _ = hz * (maxSeconds * (nsecPerSec % hz - 10 ^ 6)) := mul_assoc ..
        _ ≤ hz * 1 := Nat.mul_le_mul_left hz h
        _ = hz := mul_one hz
    rw [Nat.mul_sub] at hover
    omega

theorem scaledDiv_lower (hm : 0 < m) (hle : m ≤ 10 ^ 6) (hmul : hz * m ≤ 10 ^ 9) :
    999 * (n * hz) ≤ 10 ^ 12 * scaledDiv n m + 10 ^ 12 := by
  have hinv : 2 ^ 32 < m * (2 ^ 32 / m + 1) := lt_mul_div_succ _ hm
  have hq : n * (2 ^ 32 / m) < 2 ^ 32 * (scaledDiv n m + 1) := lt_mul_div_succ _ (by decide)
  have hrate : 999 * hz * 2 ^ 32 ≤ 10 ^ 12 * (2 ^ 32 / m) := by
    refine le_of_mul_le_mul_right ?_ hm
    calc 999 * hz * 2 ^ 32 * m = 999 * 2 ^ 32 * (hz * m) := by ring
      _ ≤ 999 * 2 ^ 32 * 10 ^ 9 := mul_le_mul_left _ hmul
      _ ≤ 10 ^ 12 * (m * (2 ^ 32 / m)) := by
        rw [mul_add, mul_one] at hinv
        omega
      _ = 10 ^ 12 * (2 ^ 32 / m) * m := by ring
  refine le_of_mul_le_mul_left ?_ (by decide : 0 < 2 ^ 32)
  calc 2 ^ 32 * (999 * (n * hz)) = n * (999 * hz * 2 ^ 32) := by ring
    _ ≤ n * (10 ^ 12 * (2 ^ 32 / m)) := mul_le_mul_left _ hrate
    _ = 10 ^ 12 * (n * (2 ^ 32 / m)) := by ring
    _ ≤ 10 ^ 12 * (2 ^ 32 * (scaledDiv n m + 1)) := mul_le_mul_left _ hq.le
    _ = 2 ^ 32 * (10 ^ 12 * scaledDiv n m + 10 ^ 12) := by ring

theorem close_scaledDiv_iff (hlow : 1000 ≤ hz) (hhigh : hz ≤ nsecPerSec) :
    Close (scaledDiv n (nsecPerSec / hz)) (n * hz / nsecPerSec) ↔
      10 ^ 12 * scaledDiv n (nsecPerSec / hz) ≤ 1001 * (n * hz) + 10 ^ 12 := by
  have hclose := close_iff (x := scaledDiv n (nsecPerSec / hz)) (n := n * hz)
    (show 0 < nsecPerSec by decide)
  rw [cast_mul] at hclose
  rw [hclose]
  exact and_iff_left (scaledDiv_lower (div_pos hhigh (by omega)) (div_le_div_left hlow (by decide))
    (mul_div_le _ _))

theorem not_accurate_high (hlow : nsecPerSec < hz)
    (hpos : 0 < maxSeconds) (hmax : maxSeconds ≤ 10 ^ 9) (hshift : 1 ≤ shift) :
    ¬(Params.mk 1 shift (2 ^ 31) 31).Accurate hz maxSeconds := by
  intro h
  have hcycles := h.cycles (hz * maxSeconds) le_rfl
  have hns := h.ns (maxSeconds * nsecPerSec) le_rfl
  have hhalf : timecycleCyclesToNs (hz * maxSeconds) 1 shift ≤ hz * maxSeconds / 2 := by
    have hpow : 2 ^ 1 ≤ 2 ^ shift := Nat.pow_le_pow_right (by decide) hshift
    calc timecycleCyclesToNs (hz * maxSeconds) 1 shift
        ≤ hz * maxSeconds * 1 % 2 ^ 128 / 2 ^ shift := Nat.mod_le _ _
      _ ≤ hz * maxSeconds * 1 / 2 ^ shift := Nat.div_le_div_right (Nat.mod_le _ _)
      _ ≤ hz * maxSeconds / 2 := by
        rw [Nat.mul_one]
        exact div_le_div_left hpow (by decide)
  rw [timecycleNsToCycles_eq hmax le_rfl le_rfl le_rfl,
    Nat.mul_div_cancel _ (Nat.two_pow_pos _), ← Nat.cast_mul,
    close_iff (show 0 < nsecPerSec by decide)] at hns
  rw [← Nat.cast_mul, close_iff (by omega)] at hcycles
  -- both bounds are multiples of one factor
  have hforth : 999 * (maxSeconds * nsecPerSec) ≤
      1000 * timecycleCyclesToNs (hz * maxSeconds) 1 shift + 1000 := by
    refine Nat.le_of_mul_le_mul_left ?_ (show 0 < hz by omega)
    calc hz * (999 * (maxSeconds * nsecPerSec)) = 999 * (hz * maxSeconds * nsecPerSec) := by ring
      _ ≤ _ := hcycles.2
      _ = _ := by ring
  have hback : 999 * (hz * maxSeconds) ≤ 1000 * (maxSeconds * nsecPerSec) + 1000 := by
    refine Nat.le_of_mul_le_mul_left ?_ (show 0 < nsecPerSec by decide)
    calc nsecPerSec * (999 * (hz * maxSeconds)) = 999 * (maxSeconds * nsecPerSec * hz) := by ring
      _ ≤ _ := hns.2
      _ = _ := by ring
  unfold nsecPerSec at *
  omega

/-! ## One year -/

theorem reciprocal_le_iff (hm : 0 < m) (hrest : hz * m + r = 10 ^ 9) :
    10 ^ 12 * (2 ^ 32 / m) ≤ 1001 * hz * 2 ^ 32 ↔
      2 ^ 32 * (1001 * r - 10 ^ 9) ≤ 10 ^ 12 * (2 ^ 32 % m) := by
  have hinv := div_add_mod (2 ^ 32) m
  rw [← Nat.mul_le_mul_left_iff hm]
  have hleft : m * (10 ^ 12 * (2 ^ 32 / m)) = 10 ^ 12 * (m * (2 ^ 32 / m)) := by ring
  have hright : m * (1001 * hz * 2 ^ 32) = 1001 * 2 ^ 32 * (hz * m) := by ring
  omega

theorem reciprocal_residues : ∀ m ≤ 1000, 2 ^ 32 % m = 0 ∨
    200000 * m ≤ 2 ^ 32 * 1001 - (10 ^ 12 * (2 ^ 32 % m) - 2 ^ 32) % (2 ^ 32 * 1001) := by
  decide +kernel

theorem reciprocal_gap (hm : m ≤ 1000)
    (h : 10 ^ 12 * (2 ^ 32 % m) < 2 ^ 32 * (1001 * r - 10 ^ 9)) :
    10 ^ 12 * (2 ^ 32 % m) + 200000 * m ≤ 2 ^ 32 * (1001 * r - 10 ^ 9) := by
  obtain ⟨t, rfl⟩ : ∃ t, r = 999001 + t := Nat.exists_eq_add_of_le (by omega)
  have hk : 1001 * (999001 + t) - 10 ^ 9 = 1 + 1001 * t := by omega
  rw [hk] at h ⊢
  rcases reciprocal_residues m hm with h0 | hgap
  · omega
  · have ht : (10 ^ 12 * (2 ^ 32 % m) - 2 ^ 32) / (2 ^ 32 * 1001) ≤ t :=
      Nat.div_le_of_le_mul (by omega)
    omega

theorem reciprocal_year_iff (hm : 0 < m) (hrest : hz * m + r = 10 ^ 9) (hmod : r < hz) :
    (∀ n ≤ year * nsecPerSec, 10 ^ 12 * scaledDiv n m ≤ 1001 * (n * hz) + 10 ^ 12) ↔
      2 ^ 32 * (1001 * r - 10 ^ 9) ≤ 10 ^ 12 * (2 ^ 32 % m) := by
  constructor
  · intro h
    by_contra hlt
    have hinv := div_add_mod (2 ^ 32) m
    have hsmall : m ≤ 1000 := by
      have hmul : 999002 * m ≤ hz * m := mul_le_mul_right _ (by omega)
      omega
    have hgap := reciprocal_gap hsmall (Nat.lt_of_not_le hlt)
    -- a multiple of the denominator, at which nothing is rounded
    have hn := h (2 ^ 32 * 7342547) (by decide)
    have hq : scaledDiv (2 ^ 32 * 7342547) m = 7342547 * (2 ^ 32 / m) := by
      rw [scaledDiv, mul_assoc, Nat.mul_div_cancel_left _ (by decide)]
    rw [hq] at hn
    have hscaled := mul_le_mul_left m hn
    have hleft : m * (10 ^ 12 * (7342547 * (2 ^ 32 / m))) =
        7342547 * 10 ^ 12 * (m * (2 ^ 32 / m)) := by ring
    have hright : m * (1001 * (2 ^ 32 * 7342547 * hz) + 10 ^ 12) =
        1001 * (2 ^ 32 * 7342547) * (hz * m) + 10 ^ 12 * m := by ring
    omega
  · intro h n hn
    have hrate := (reciprocal_le_iff hm hrest).mpr h
    have hq : scaledDiv n m * 2 ^ 32 ≤ n * (2 ^ 32 / m) := div_mul_le_self _ _
    refine (le_of_mul_le_mul_right ?_ (show 0 < 2 ^ 32 by decide)).trans (le_add_right _ _)
    calc 10 ^ 12 * scaledDiv n m * 2 ^ 32 = 10 ^ 12 * (scaledDiv n m * 2 ^ 32) := mul_assoc ..
      _ ≤ 10 ^ 12 * (n * (2 ^ 32 / m)) := mul_le_mul_left _ hq
      _ = n * (10 ^ 12 * (2 ^ 32 / m)) := mul_left_comm ..
      _ ≤ n * (1001 * hz * 2 ^ 32) := mul_le_mul_left _ hrate
      _ = 1001 * (n * hz) * 2 ^ 32 := by ring

/-- When both conversions are accurate. -/
structure Fits (hz maxSeconds : Nat) : Prop where
  positive : 0 < maxSeconds
  gigahertz : hz ≤ nsecPerSec
  remainder : maxSeconds * (nsecPerSec % hz - 10 ^ 6) ≤ 1
  reciprocal : ∀ n ≤ maxSeconds * nsecPerSec,
    10 ^ 12 * scaledDiv n (nsecPerSec / hz) ≤ 1001 * (n * hz) + 10 ^ 12

theorem fits_year_iff (hlow : 1000 ≤ hz) :
    Fits hz year ↔ hz ≤ nsecPerSec ∧ nsecPerSec % hz ≤ 10 ^ 6 ∧
      2 ^ 32 * (1001 * (nsecPerSec % hz) - 10 ^ 9) ≤ 10 ^ 12 * (2 ^ 32 % (nsecPerSec / hz)) := by
  have hyear (hhigh : hz ≤ nsecPerSec) := reciprocal_year_iff (div_pos hhigh (by omega))
    (div_add_mod _ _) (mod_lt nsecPerSec (by omega))
  constructor
  · intro h
    have hremainder : 31536000 * (nsecPerSec % hz - 10 ^ 6) ≤ 1 := h.remainder
    exact ⟨h.gigahertz, by omega, (hyear h.gigahertz).mp h.reciprocal⟩
  · intro ⟨hhigh, hremainder, hreciprocal⟩
    have hzero : nsecPerSec % hz - 10 ^ 6 = 0 := by omega
    refine ⟨by decide, hhigh, ?_, (hyear hhigh).mpr hreciprocal⟩
    rw [hzero, mul_zero]
    exact zero_le 1

theorem Fits.shorter {longer : Nat} (h : Fits hz longer) (hpos : 0 < maxSeconds)
    (hle : maxSeconds ≤ longer) : Fits hz maxSeconds :=
  ⟨hpos, h.gigahertz, (Nat.mul_le_mul_right _ hle).trans h.remainder,
    fun n hn => h.reciprocal n (hn.trans (Nat.mul_le_mul_right _ hle))⟩

/-- The conversions are accurate if the clock runs at one gigahertz or less, at nearly a whole
number of nanoseconds per cycle, and the reciprocal of that number does not gain too much. For a
year that is a condition on two remainders, and it is enough for shorter spans. -/
theorem clock_accurate_iff (hz maxSeconds : Nat) (hlow : 1000 ≤ hz) (hhigh : hz ≤ 10 ^ 10)
    (hmax : maxSeconds ≤ year) :
    ((∃ p, timecycleInitParams hz maxSeconds = some p ∧ p.Accurate hz maxSeconds) ↔
      Fits hz maxSeconds) ∧
    (Fits hz year ↔ hz ≤ nsecPerSec ∧ nsecPerSec % hz ≤ 10 ^ 6 ∧
      2 ^ 32 * (1001 * (nsecPerSec % hz) - 10 ^ 9) ≤ 10 ^ 12 * (2 ^ 32 % (nsecPerSec / hz))) ∧
    (0 < maxSeconds → Fits hz year → Fits hz maxSeconds) := by
  refine ⟨?_, fits_year_iff hlow, fun hpos h => h.shorter hpos hmax⟩
  rcases Nat.eq_zero_or_pos maxSeconds with rfl | hpos
  · refine iff_of_false ?_ fun h => absurd h.positive (lt_irrefl 0)
    rintro ⟨p, hp, -⟩
    rw [timecycleInitParams, if_pos (.inr rfl)] at hp
    cases hp
  have hmax' : maxSeconds ≤ 10 ^ 9 := hmax.trans (by decide)
  rcases lt_or_ge nsecPerSec hz with hgiga | hgiga
  · obtain ⟨shift, hshift, hinit, -⟩ :=
      timecycleInitParams_high hpos hmax' hgiga (hhigh.trans (by decide))
    refine iff_of_false ?_ fun h => absurd h.gigahertz (by omega)
    rintro ⟨p, hp, haccurate⟩
    rw [hinit] at hp
    cases hp
    exact not_accurate_high hgiga hpos hmax' hshift haccurate
  · have hhz : 0 < hz := by omega
    obtain ⟨p, hinit, hsound, hshift, hns⟩ := timecycleInitParams_low hpos hmax' hhz hgiga
    have hcycles := cycles_accurate_iff hhz hmax' hsound hshift
    constructor
    · rintro ⟨p', hp', haccurate⟩
      rw [hinit] at hp'
      cases hp'
      refine ⟨hpos, hgiga, hcycles.mp haccurate.cycles, ?_⟩
      intro n hn
      rw [← close_scaledDiv_iff hlow hgiga, ← hns n hn]
      exact haccurate.ns n hn
    · intro h
      refine ⟨p, hinit, hcycles.mpr h.remainder, ?_⟩
      intro n hn
      rw [hns n hn, close_scaledDiv_iff hlow hgiga]
      exact h.reciprocal n hn

/-- A clock of 100 megahertz is accurate for a year. -/
theorem clock_accurate_hundred :
    ∃ p, timecycleInitParams (10 ^ 8) year = some p ∧ p.Accurate (10 ^ 8) year := by
  have h := clock_accurate_iff (10 ^ 8) year (by decide) (by decide) le_rfl
  exact h.1.mpr (h.2.1.mpr (by decide))

/-- At 300 megahertz a second is counted as 0.9 seconds. -/
theorem clock_runs_slow :
    ∃ p, timecycleInitParams (3 * 10 ^ 8) 1 = some p ∧
      timecycleCyclesToNs (3 * 10 ^ 8) p.mult p.shift = 9 * 10 ^ 8 ∧
      ¬p.Accurate (3 * 10 ^ 8) 1 := by
  refine ⟨⟨3, 0, 1431655765, 32⟩, by decide, by decide, ?_⟩
  intro h
  have hclose := h.cycles (3 * 10 ^ 8) (by decide)
  rw [show timecycleCyclesToNs (3 * 10 ^ 8) 3 0 = 9 * 10 ^ 8 by decide, ← cast_mul,
    close_iff (by decide)] at hclose
  exact absurd hclose.2 (by decide)

/-! ## No overshoot -/

/-- The conversions up to `maxSeconds` are monotone, and never give more than there is. -/
structure Params.Below (p : Params) (hz maxSeconds : Nat) : Prop where
  cycles_mono : ∀ c c', c ≤ c' → c' ≤ hz * maxSeconds →
    timecycleCyclesToNs c p.mult p.shift ≤ timecycleCyclesToNs c' p.mult p.shift
  ns_mono : ∀ n n', n ≤ n' → n' ≤ maxSeconds * nsecPerSec →
    timecycleNsToCycles n p.multInv p.shiftInv ≤ timecycleNsToCycles n' p.multInv p.shiftInv
  cycles_le : ∀ c ≤ hz * maxSeconds, c * p.mult < 2 ^ 128 ∧ c * p.mult / 2 ^ p.shift < 2 ^ 64 ∧
    (timecycleCyclesToNs c p.mult p.shift : ℚ) ≤ c * 10 ^ 9 / hz
  cycles_back : ∀ c ≤ hz * maxSeconds,
    timecycleNsToCycles (timecycleCyclesToNs c p.mult p.shift) p.multInv p.shiftInv ≤ c
  ns_back : ∀ n ≤ maxSeconds * nsecPerSec,
    timecycleCyclesToNs (timecycleNsToCycles n p.multInv p.shiftInv) p.mult p.shift ≤ n

theorem timecycleCyclesToNs_le : timecycleCyclesToNs c mult shift ≤ c * mult / 2 ^ shift :=
  (mod_le _ _).trans (Nat.div_le_div_right (mod_le _ _))

theorem Params.Sound.below {p : Params} (h : p.Sound hz) (hhz : 0 < hz)
    (hmax : maxSeconds ≤ 10 ^ 9) : p.Below hz maxSeconds where
  cycles_mono c c' hle hc := by
    rw [(h.cyclesToNs hmax hc).2.2, (h.cyclesToNs hmax (hle.trans hc)).2.2]
    exact Nat.div_le_div_right (mul_le_mul_right _ hle)
  ns_mono n n' hle hn := by
    have hpow := (Nat.le_mul_of_pos_left p.multInv h.positive).trans h.both
    rw [timecycleNsToCycles_eq hmax hn h.small hpow,
      timecycleNsToCycles_eq hmax (hle.trans hn) h.small hpow]
    exact Nat.div_le_div_right (mul_le_mul_right _ hle)
  cycles_le c hc := by
    have hcycles := h.cyclesToNs hmax hc
    refine ⟨hcycles.1, hcycles.2.1, ?_⟩
    have hle : c * p.mult / 2 ^ p.shift * hz ≤ c * nsecPerSec := by
      refine le_of_mul_le_mul_right ?_ (Nat.two_pow_pos p.shift)
      calc c * p.mult / 2 ^ p.shift * hz * 2 ^ p.shift
          = c * p.mult / 2 ^ p.shift * 2 ^ p.shift * hz := mul_right_comm ..
        _ ≤ c * p.mult * hz := mul_le_mul_right _ (div_mul_le_self _ _)
        _ = c * (p.mult * hz) := mul_assoc ..
        _ ≤ c * (nsecPerSec * 2 ^ p.shift) :=
          mul_le_mul_left _ (h.forward ▸ div_mul_le_self _ _)
        _ = c * nsecPerSec * 2 ^ p.shift := (mul_assoc ..).symm
    rw [hcycles.2.2, le_div_iff₀ (by exact_mod_cast hhz)]
    exact_mod_cast hle
  cycles_back c _ := by
    refine timecycleCyclesToNs_le.trans (Nat.div_le_of_le_mul ?_)
    calc timecycleCyclesToNs c p.mult p.shift * p.multInv ≤ c * p.mult * p.multInv :=
          mul_le_mul_right _ (timecycleCyclesToNs_le.trans (div_le_self _ _))
      _ = c * (p.mult * p.multInv) := mul_assoc ..
      _ ≤ c * 2 ^ p.shiftInv := mul_le_mul_left _ h.both
      _ = 2 ^ p.shiftInv * c := mul_comm ..
  ns_back n _ := by
    refine timecycleCyclesToNs_le.trans ((Nat.div_le_self _ _).trans ?_)
    refine le_of_mul_le_mul_right ?_ (Nat.two_pow_pos p.shiftInv)
    calc timecycleNsToCycles n p.multInv p.shiftInv * p.mult * 2 ^ p.shiftInv
        = timecycleNsToCycles n p.multInv p.shiftInv * 2 ^ p.shiftInv * p.mult := mul_right_comm ..
      _ ≤ n * p.multInv * p.mult := mul_le_mul_right _
          ((mul_le_mul_right _ timecycleCyclesToNs_le).trans (div_mul_le_self _ _))
      _ = n * (p.mult * p.multInv) := by ring
      _ ≤ n * 2 ^ p.shiftInv := mul_le_mul_left _ h.both

/-- The search for the parameters comes to multipliers that are not zero, without a trap, and the
conversions with them never overshoot. -/
theorem clock_never_overshoots (hz maxSeconds : Nat) (hhz : 1 ≤ hz) (hhigh : hz ≤ 10 ^ 12)
    (hpos : 1 ≤ maxSeconds) (hmax : maxSeconds ≤ 10 ^ 9) :
    ∃ p, timecycleInitParams hz maxSeconds = some p ∧ p.mult ≠ 0 ∧ p.multInv ≠ 0 ∧
      p.Below hz maxSeconds := by
  have hsound : ∃ p, timecycleInitParams hz maxSeconds = some p ∧ p.Sound hz := by
    rcases lt_or_ge nsecPerSec hz with hgiga | hgiga
    · obtain ⟨shift, -, hinit, hsound⟩ := timecycleInitParams_high hpos hmax hgiga hhigh
      exact ⟨_, hinit, hsound⟩
    · obtain ⟨p, hinit, hsound, -⟩ := timecycleInitParams_low hpos hmax hhz hgiga
      exact ⟨p, hinit, hsound⟩
  obtain ⟨p, hinit, hsound⟩ := hsound
  exact ⟨p, hinit, hsound.positive.ne', hsound.inverse.ne', hsound.below hhz hmax⟩

theorem clock_never_overshoots_three :
    ∃ p, timecycleInitParams (3 * 10 ^ 9) 60 = some p ∧ p.mult ≠ 0 ∧ p.multInv ≠ 0 ∧
      p.Below (3 * 10 ^ 9) 60 :=
  clock_never_overshoots _ _ (by decide) (by decide) (by decide) (by decide)

end ShiziOS.Time
