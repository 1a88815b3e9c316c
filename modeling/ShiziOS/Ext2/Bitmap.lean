import ShiziOS.Lib.Area

/-!
# Bitmaps

The functions of `include/bitmap.h` on an area of bytes. Bit `i` is bit `i % 8` of byte
`i / 8`.
-/

namespace ShiziOS.Ext2

open Bytes Function

def bitmapSet (map : Area) (bit : Nat) : Area :=
  update map (bit / 8) (map (bit / 8) ||| 1#8 <<< (bit % 8))

def bitmapClear (map : Area) (bit : Nat) : Area :=
  update map (bit / 8) (map (bit / 8) &&& ~~~(1#8 <<< (bit % 8)))

def bitmapCheck (map : Area) (bit : Nat) : Bool := (map (bit / 8) >>> (bit % 8)) &&& 1#8 == 1#8

/-- The loop of `bitmap_find`: `n` bits are left, from `i` on. -/
def findLoop (map : Area) (value : Bool) : (n i : Nat) → Nat
  | 0, i => i
  | n + 1, i => if bitmapCheck map i = value then i else findLoop map value n (i + 1)

def bitmapFind (map : Area) (bits start : Nat) (value : Bool) : Nat :=
  if bits ≤ start then bits else findLoop map value (bits - start) start

variable {map map' : Area} {bit i : Nat} {value : Bool}

theorem bitmapCheck_eq (map : Area) (bit : Nat) :
    bitmapCheck map bit = (map (bit / 8)).getLsbD (bit % 8) := by
  rw [bitmapCheck, Bool.eq_iff_iff, beq_iff_eq]
  constructor
  · intro h
    have h0 := congrArg (fun w => w.getLsbD 0) h
    simpa using h0
  · intro h
    apply BitVec.eq_of_getLsbD_eq
    intro k hk
    rcases k with _ | k
    · simpa using h
    · simp

theorem bitmapCheck_congr (h : map (bit / 8) = map' (bit / 8)) :
    bitmapCheck map bit = bitmapCheck map' bit := by
  rw [bitmapCheck, bitmapCheck, h]

theorem shift_one_getLsbD {j k : Nat} (hj : j < 8) : (1#8 <<< k).getLsbD j = decide (j = k) := by
  rw [BitVec.getLsbD_shiftLeft]
  by_cases h : j = k
  · subst h
    simp [hj]
  · by_cases hlt : j < k
    · simp [hlt, h]
    · have : j - k ≠ 0 := by omega
      simp [h, this]

theorem bitmapCheck_set (map : Area) (bit i : Nat) :
    bitmapCheck (bitmapSet map bit) i = (decide (i = bit) || bitmapCheck map i) := by
  rw [bitmapCheck_eq, bitmapCheck_eq, bitmapSet]
  by_cases hbyte : i / 8 = bit / 8
  · rw [hbyte, update_self, BitVec.getLsbD_or, shift_one_getLsbD (by omega), Bool.or_comm]
    congr 2
    rw [eq_iff_iff]
    omega
  · rw [update_of_ne hbyte]
    have hne : i ≠ bit := by
      rintro rfl
      exact hbyte rfl
    simp [hne]

theorem bitmapCheck_clear (map : Area) (bit i : Nat) :
    bitmapCheck (bitmapClear map bit) i = (decide (i ≠ bit) && bitmapCheck map i) := by
  rw [bitmapCheck_eq, bitmapCheck_eq, bitmapClear]
  by_cases hbyte : i / 8 = bit / 8
  · rw [hbyte, update_self, BitVec.getLsbD_and, BitVec.getLsbD_not, shift_one_getLsbD (by omega),
      Bool.and_comm]
    have hmod : i % 8 = bit % 8 ↔ i = bit := by omega
    have hlt : i % 8 < 8 := by omega
    simp [hmod, hlt]
  · rw [update_of_ne hbyte]
    have hne : i ≠ bit := by
      rintro rfl
      exact hbyte rfl
    simp [hne]

theorem findLoop_spec (map : Area) (value : Bool) (n i : Nat) :
    i ≤ findLoop map value n i ∧ findLoop map value n i ≤ i + n ∧
    (∀ j, i ≤ j → j < findLoop map value n i → bitmapCheck map j ≠ value) ∧
    (findLoop map value n i < i + n → bitmapCheck map (findLoop map value n i) = value) := by
  induction n generalizing i with
  | zero =>
    refine ⟨le_rfl, le_rfl, ?_, ?_⟩
    · intro j hj hlt
      have hlt : j < i := hlt
      omega
    · intro hlt
      exact absurd hlt (lt_irrefl i)
  | succ n ih =>
    rw [findLoop]
    split_ifs with h
    · refine ⟨le_rfl, by omega, ?_, fun _ => h⟩
      intro j hj hlt
      omega
    · obtain ⟨hle, hge, hbefore, hfound⟩ := ih (i + 1)
      refine ⟨by omega, by omega, ?_, ?_⟩
      · intro j hj hlt
        by_cases hij : j = i
        · rw [hij]
          exact h
        · exact hbefore j (by omega) hlt
      · intro hlt
        exact hfound (by omega)

theorem bitmapFind_spec (map : Area) (bits start : Nat) (value : Bool) :
    bitmapFind map bits start value ≤ bits ∧
    (∀ j, start ≤ j → j < bitmapFind map bits start value → bitmapCheck map j ≠ value) ∧
    (bitmapFind map bits start value < bits → start ≤ bitmapFind map bits start value ∧
      bitmapCheck map (bitmapFind map bits start value) = value) := by
  rw [bitmapFind]
  split_ifs with h
  · refine ⟨le_rfl, ?_, fun hlt => absurd hlt (lt_irrefl bits)⟩
    intro j hj hlt
    omega
  · obtain ⟨hle, hge, hbefore, hfound⟩ := findLoop_spec map value (bits - start) start
    exact ⟨by omega, hbefore, fun hlt => ⟨hle, hfound (by omega)⟩⟩

end ShiziOS.Ext2
