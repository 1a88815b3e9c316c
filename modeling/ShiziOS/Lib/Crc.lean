import Mathlib.Tactic

/-!
# Cyclic redundancy checks, bit by bit and byte by byte

The register is shifted down, least significant bit first, and the polynomial is added when a one
falls out. A shift is linear in exclusive or, so that eight of them can be read off a table for the
low byte, while the bytes above it only move down.
-/

namespace Crc

open List BitVec

variable {w : Nat} (poly : BitVec w)

def shift (c : BitVec w) : BitVec w := if c.getLsbD 0 then c >>> 1 ^^^ poly else c >>> 1

def takeBit (c : BitVec w) (b : Bool) : BitVec w :=
  if c.getLsbD 0 ^^ b then c >>> 1 ^^^ poly else c >>> 1

/-- The bits of a byte, least significant first. -/
def byteBits (m : BitVec 8) : List Bool := (List.range 8).map m.getLsbD

def ofMessage (init : BitVec w) (data : List (BitVec 8)) : BitVec w :=
  (data.flatMap byteBits).foldl (takeBit poly) init

def shifts (n : Nat) (c : BitVec w) : BitVec w := (shift poly)^[n] c

variable {poly} {c d : BitVec w} {n : Nat}

theorem shift_xor (c d : BitVec w) : shift poly (c ^^^ d) = shift poly c ^^^ shift poly d := by
  have hcancel : ∀ x y : BitVec w, x ^^^ poly ^^^ (y ^^^ poly) = x ^^^ y := by
    intro x y
    rw [BitVec.xor_comm y poly, ← BitVec.xor_assoc, BitVec.xor_assoc x poly poly, BitVec.xor_self,
      BitVec.xor_zero]
  unfold shift
  rw [BitVec.getLsbD_xor, BitVec.ushiftRight_xor_distrib]
  cases c.getLsbD 0 <;> cases d.getLsbD 0
  · rfl
  · exact BitVec.xor_assoc _ _ _
  · show c >>> 1 ^^^ d >>> 1 ^^^ poly = c >>> 1 ^^^ poly ^^^ d >>> 1
    rw [BitVec.xor_assoc, BitVec.xor_assoc, BitVec.xor_comm poly]
  · exact (hcancel _ _).symm

/-- A shift loses nothing when the polynomial has the top bit. -/
theorem shift_injective (hpoly : poly.msb) : Function.Injective (shift poly) := by
  intro c d h
  unfold shift at h
  have hlow : c.getLsbD 0 = d.getLsbD 0 := by
    have hmsb := congrArg BitVec.msb h
    cases hc : c.getLsbD 0 <;> cases hd : d.getLsbD 0 <;> simp [hc, hd, hpoly] at hmsb ⊢
  have hup : c >>> 1 = d >>> 1 := by
    rw [hlow] at h
    cases hd : d.getLsbD 0 <;> simpa [hd] using h
  refine eq_of_getLsbD_eq fun i _ => ?_
  cases i with
  | zero => exact hlow
  | succ i => simpa [Nat.add_comm] using congrArg (getLsbD · i) hup

theorem shifts_succ (n : Nat) (c : BitVec w) :
    shifts poly (n + 1) c = shift poly (shifts poly n c) :=
  Function.iterate_succ_apply' _ n c

theorem shifts_xor (n : Nat) (c d : BitVec w) :
    shifts poly n (c ^^^ d) = shifts poly n c ^^^ shifts poly n d := by
  induction n with
  | zero => rfl
  | succ n ih => rw [shifts_succ, shifts_succ, shifts_succ, ih, shift_xor]

theorem shifts_of_clear (hc : ∀ i, i < n → c.getLsbD i = false) : shifts poly n c = c >>> n := by
  induction n with
  | zero => exact (ushiftRight_zero c).symm
  | succ n ih =>
    have hlow : (c >>> n).getLsbD 0 = false := by
      rw [getLsbD_ushiftRight]
      exact hc n (Nat.lt_succ_self n)
    rw [shifts_succ, ih fun i hi => hc i (by omega), shift, if_neg (by rw [hlow]; decide),
      shiftRight_add]

/-! ## Bytes -/

/-- The low `n` bits of a byte in a register. -/
def lowBits (w : Nat) (m : BitVec 8) (n : Nat) : BitVec w := (m.setWidth n).setWidth w

theorem getLsbD_lowBits (m : BitVec 8) (n i : Nat) :
    (lowBits w m n).getLsbD i = (decide (i < w ∧ i < n) && m.getLsbD i) := by
  rw [lowBits, getLsbD_setWidth, getLsbD_setWidth]
  by_cases hw : i < w <;> by_cases hn : i < n <;> simp [hw, hn]

def nextBit (w : Nat) (m : BitVec 8) (n : Nat) : BitVec w :=
  (ofBool (m.getLsbD n)).setWidth w <<< n

theorem getLsbD_nextBit (m : BitVec 8) (n i : Nat) :
    (nextBit w m n).getLsbD i = (decide (i < w ∧ i = n) && m.getLsbD i) := by
  rw [nextBit, getLsbD_shiftLeft, getLsbD_setWidth]
  by_cases hi : i = n
  · subst hi
    by_cases hw : i < w
    · have hpos : 0 < w := by omega
      simp [hw, hpos]
    · simp [hw]
  · by_cases hlt : i < n
    · simp [hi, hlt]
    · have hone : i - n ≠ 0 := by omega
      have hbit : (ofBool (m.getLsbD n)).getLsbD (i - n) = false :=
        getLsbD_of_ge _ _ (by omega)
      simp [hi, hlt, hbit]

theorem lowBits_succ (m : BitVec 8) (n : Nat) :
    lowBits w m (n + 1) = lowBits w m n ^^^ nextBit w m n := by
  apply eq_of_getLsbD_eq
  intro i hi
  rw [getLsbD_xor, getLsbD_lowBits, getLsbD_lowBits, getLsbD_nextBit]
  by_cases hn : i < n
  · have hne : i ≠ n := by omega
    simp [hi, hn, hne, Nat.lt_succ_of_lt hn]
  · by_cases heq : i = n
    · subst heq
      simp [hi]
    · have hlt : ¬i < n + 1 := by omega
      simp [hn, heq, hlt]

theorem takeBit_eq (hw : 0 < w) (c : BitVec w) (b : Bool) :
    takeBit poly c b = shift poly (c ^^^ (ofBool b).setWidth w) := by
  have hbit : ((ofBool b).setWidth w).getLsbD 0 = b := by
    rw [getLsbD_setWidth]
    cases b <;> simp [hw]
  have hdown : (ofBool b).setWidth w >>> 1 = 0#w := by
    apply eq_of_getLsbD_eq
    intro i hi
    rw [getLsbD_ushiftRight, getLsbD_setWidth, getLsbD_of_ge _ (1 + i) (by omega)]
    simp
  rw [takeBit, shift, getLsbD_xor, hbit, ushiftRight_xor_distrib, hdown, xor_zero]

theorem takeBits_eq (hw : 8 ≤ w) (m : BitVec 8) (hn : n ≤ 8) (c : BitVec w) :
    ((List.range n).map m.getLsbD).foldl (takeBit poly) c = shifts poly n
      (c ^^^ lowBits w m n) := by
  induction n with
  | zero =>
    have hzero : lowBits w m 0 = 0#w := by
      apply eq_of_getLsbD_eq
      intro i hi
      rw [getLsbD_lowBits]
      simp
    rw [hzero, xor_zero]
    rfl
  | succ n ih =>
    have hclear : ∀ i, i < n → (nextBit w m n).getLsbD i = false := by
      intro i hi
      have hne : i ≠ n := by omega
      rw [getLsbD_nextBit]
      simp [hne]
    have hnext : nextBit w m n >>> n = (ofBool (m.getLsbD n)).setWidth w := by
      apply eq_of_getLsbD_eq
      intro i hi
      rw [getLsbD_ushiftRight, getLsbD_nextBit, getLsbD_setWidth]
      by_cases hzero : i = 0
      · subst hzero
        have hlt : n < w := by omega
        simp [hi, hlt]
      · have hbit : (ofBool (m.getLsbD n)).getLsbD i = false := getLsbD_of_ge _ _ (by omega)
        simp [hzero, hbit]
    rw [range_succ, map_append, foldl_append, ih (by omega), map_singleton, foldl_cons,
      foldl_nil, takeBit_eq (by omega), lowBits_succ, ← xor_assoc, shifts_xor (n + 1),
        shifts_succ,
      shifts_succ n (nextBit w m n), shifts_of_clear hclear, hnext, shift_xor]

theorem lowBits_eight (m : BitVec 8) : lowBits w m 8 = m.setWidth w := by
  rw [lowBits, setWidth_eq]

theorem byte_eq (hw : 8 ≤ w) (m : BitVec 8) (c : BitVec w) :
    (byteBits m).foldl (takeBit poly) c = shifts poly 8 (c ^^^ m.setWidth w) := by
  rw [byteBits, takeBits_eq hw m le_rfl, lowBits_eight]

theorem shifts_eight (c : BitVec w) :
    shifts poly 8 c = shifts poly 8 ((c.setWidth 8).setWidth w) ^^^ c >>> 8 := by
  have hsplit : c = (c.setWidth 8).setWidth w ^^^ (c >>> 8) <<< 8 := by
    apply eq_of_getLsbD_eq
    intro i hi
    rw [getLsbD_xor, getLsbD_setWidth, getLsbD_setWidth, getLsbD_shiftLeft, getLsbD_ushiftRight]
    by_cases hlow : i < 8
    · simp [hi, hlow]
    · have hadd : 8 + (i - 8) = i := by omega
      simp [hi, hlow, hadd]
  have hclear : ∀ i, i < 8 → ((c >>> 8) <<< 8).getLsbD i = false := by
    intro i hi
    rw [getLsbD_shiftLeft]
    simp [hi]
  have hback : (c >>> 8) <<< 8 >>> 8 = c >>> 8 := by
    apply eq_of_getLsbD_eq
    intro i hi
    rw [getLsbD_ushiftRight, getLsbD_shiftLeft, getLsbD_ushiftRight, getLsbD_ushiftRight,
      Nat.add_sub_cancel_left]
    by_cases hin : 8 + i < w
    · simp [hin]
    · rw [getLsbD_of_ge c (8 + i) (by omega)]
      simp
  conv_lhs => rw [hsplit, shifts_xor, shifts_of_clear hclear, hback]

end Crc
