import Mathlib.Data.Nat.Bitwise
import Mathlib.Tactic

/-!
# Dyadic blocks of natural numbers

A dyadic block of order `o` is an interval `[p, p + 2 ^ o)` whose start is a
multiple of its length. Two blocks of one order are equal or disjoint, and the
block obtained by flipping bit `o` of the start is the other half of the block
of order `o + 1` around both. Nothing here mentions what the numbers stand for.
-/

namespace Dyadic

open Nat

/-- `q` lies in the interval of length `2 ^ o` that starts at `p`. -/
def In (p o q : Nat) : Prop := p ≤ q ∧ q < p + 2 ^ o

instance (p o q : Nat) : Decidable (In p o q) := inferInstanceAs (Decidable (_ ∧ _))

theorem in_self (p o : Nat) : In p o p := ⟨le_rfl, Nat.lt_add_of_pos_right (Nat.two_pow_pos o)⟩

variable {p o q : Nat}

theorem in_add {i : Nat} (hi : i < 2 ^ o) : In p o (p + i) :=
  ⟨Nat.le_add_right p i, Nat.add_lt_add_left hi p⟩

theorem In.exists_add (h : In p o q) : ∃ i, i < 2 ^ o ∧ q = p + i :=
  ⟨q - p, by obtain ⟨h1, h2⟩ := h; omega, by obtain ⟨h1, h2⟩ := h; omega⟩

theorem In.start_eq (hp : 2 ^ o ∣ p) (h : In p o q) : p = 2 ^ o * (q / 2 ^ o) := by
  obtain ⟨m, rfl⟩ := hp
  obtain ⟨i, hi, rfl⟩ := h.exists_add
  rw [Nat.mul_add_div (Nat.two_pow_pos o), Nat.div_eq_of_lt hi, Nat.add_zero]

theorem start_unique {p' : Nat} (hp : 2 ^ o ∣ p) (hp' : 2 ^ o ∣ p')
    (h : In p o q) (h' : In p' o q) : p = p' := by
  rw [h.start_eq hp, h'.start_eq hp']

theorem In.nest {g k : Nat} (hp : 2 ^ o ∣ p) (hg : 2 ^ k ∣ g) (hk : k ≤ o) (h : In p o g)
    (hq : In g k q) : In p o q := by
  have hend : g + 2 ^ k ≤ p + 2 ^ o := by
    refine Nat.le_of_lt_add_of_dvd (Nat.add_lt_add_right h.2 (2 ^ k))
      (Nat.dvd_add_self_right.mpr hg) (Nat.dvd_add ?_ (pow_dvd_pow 2 hk))
    exact (pow_dvd_pow 2 hk).trans hp
  exact ⟨h.1.trans hq.1, hq.2.trans_le hend⟩

/-! ## Buddies -/

/-- The block of the same order on the other side of bit `o`. -/
def buddy (p o : Nat) : Nat := p ^^^ 2 ^ o

theorem buddy_buddy (p o : Nat) : buddy (buddy p o) o = p := by
  simp [buddy]

private theorem buddy_mul (m o : Nat) : buddy (2 ^ o * m) o = 2 ^ o * (m ^^^ 1) := by
  have hshift : (m ^^^ 1) <<< o = m <<< o ^^^ 1 <<< o := Nat.shiftLeft_xor_distrib
  simp only [Nat.shiftLeft_eq, Nat.one_mul] at hshift
  rw [buddy, Nat.mul_comm (2 ^ o) m, Nat.mul_comm (2 ^ o), hshift]

theorem buddy_of_dvd_succ (h : 2 ^ (o + 1) ∣ p) : buddy p o = p + 2 ^ o := by
  obtain ⟨m, rfl⟩ := h
  rw [pow_succ, Nat.mul_assoc, buddy_mul, Nat.xor_one_of_even (even_two_mul m)]
  ring

theorem dvd_of_dvd_succ (h : 2 ^ (o + 1) ∣ p) : 2 ^ o ∣ p :=
  (pow_dvd_pow 2 (le_succ o)).trans h

theorem half_cases (h : 2 ^ o ∣ p) :
    (2 ^ (o + 1) ∣ p ∧ buddy p o = p + 2 ^ o) ∨
      (2 ^ (o + 1) ∣ buddy p o ∧ p = buddy p o + 2 ^ o) := by
  obtain ⟨m, rfl⟩ := h
  rcases even_or_odd m with hm | hm
  · left
    obtain ⟨k, rfl⟩ := hm.two_dvd
    have hdvd : 2 ^ (o + 1) ∣ 2 ^ o * (2 * k) := ⟨k, by ring⟩
    exact ⟨hdvd, buddy_of_dvd_succ hdvd⟩
  · right
    obtain ⟨k, rfl⟩ := hm
    have hflip : buddy (2 ^ o * (2 * k + 1)) o = 2 ^ (o + 1) * k := by
      rw [buddy_mul, Nat.xor_one_of_odd ⟨k, rfl⟩, Nat.add_sub_cancel]
      ring
    rw [hflip]
    exact ⟨⟨k, rfl⟩, by ring⟩

theorem dvd_buddy (h : 2 ^ o ∣ p) : 2 ^ o ∣ buddy p o := by
  rcases half_cases h with ⟨_, he⟩ | ⟨hd, _⟩
  · rw [he]
    exact (Nat.dvd_add_right h).mpr dvd_rfl
  · exact dvd_of_dvd_succ hd

theorem buddy_ne (p o : Nat) : buddy p o ≠ p := by
  intro h
  have hzero : p ^^^ (p ^^^ 2 ^ o) = 0 := by rw [show p ^^^ 2 ^ o = p from h, Nat.xor_self]
  rw [← Nat.xor_assoc, Nat.xor_self, Nat.zero_xor] at hzero
  exact absurd hzero (Nat.two_pow_pos o).ne'

theorem dvd_min_buddy (h : 2 ^ o ∣ p) : 2 ^ (o + 1) ∣ min p (buddy p o) := by
  rcases half_cases h with ⟨hd, he⟩ | ⟨hd, he⟩
  · rwa [min_eq_left (by omega)]
  · rwa [min_eq_right (by omega)]

theorem in_succ_iff (h : 2 ^ o ∣ p) :
    In (min p (buddy p o)) (o + 1) q ↔ In p o q ∨ In (buddy p o) o q := by
  unfold In
  rw [pow_succ]
  rcases half_cases h with ⟨_, he⟩ | ⟨_, he⟩ <;> omega

theorem in_split_iff : In p (o + 1) q ↔ In p o q ∨ In (p + 2 ^ o) o q := by
  unfold In
  rw [pow_succ]
  omega

theorem In.not_in_right (h : In p o q) : ¬ In (p + 2 ^ o) o q := by
  unfold In at *
  omega

theorem dvd_add_two_pow (h : 2 ^ (o + 1) ∣ p) : 2 ^ o ∣ p + 2 ^ o :=
  (Nat.dvd_add_right (dvd_of_dvd_succ h)).mpr dvd_rfl

end Dyadic
