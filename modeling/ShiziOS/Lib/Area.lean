import Mathlib.Logic.Function.Basic
import Mathlib.Tactic

/-!
# Areas of bytes

An area is given by its bytes, without a bound: a disk, a buffer, or a record in memory. Parts
are copied from one area to another; numbers are stored least significant byte first.
-/

namespace Bytes

open Nat

abbrev Byte := BitVec 8

/-- Byte `k` of a word, the least significant byte first. -/
def byteOf (w : BitVec 64) (k : Nat) : Byte := w.extractLsb' (8 * k) 8

abbrev Area := Nat → Byte

namespace Area

/-- The bytes from `off` on. -/
def drop (a : Area) (off : Nat) : Area := fun k => a (off + k)

/-- The area with `n` bytes from `off` on replaced by those of `src`. -/
def copy (a : Area) (off n : Nat) (src : Area) : Area :=
  fun k => if off ≤ k ∧ k < off + n then src (k - off) else a k

def load16 (a : Area) (off : Nat) : Nat := (a off).toNat + 2 ^ 8 * (a (off + 1)).toNat

def load32 (a : Area) (off : Nat) : Nat := load16 a off + 2 ^ 16 * load16 a (off + 2)

def load64 (a : Area) (off : Nat) : Nat := load32 a off + 2 ^ 32 * load32 a (off + 4)

def store32 (a : Area) (off v : Nat) : Area :=
  copy a off 4 fun k => BitVec.ofNat 8 (v / 2 ^ (8 * k))

def store64 (a : Area) (off v : Nat) : Area :=
  copy a off 8 fun k => BitVec.ofNat 8 (v / 2 ^ (8 * k))

variable {a b src : Area} {off n k v : Nat}

theorem copy_inside (h : k < n) : copy a off n src (off + k) = src k := by
  rw [copy, if_pos (by omega), Nat.add_sub_cancel_left]

theorem copy_outside (h : k < off ∨ off + n ≤ k) : copy a off n src k = a k := by
  rw [copy, if_neg (by omega)]

theorem load32_lt (a : Area) (off : Nat) : load32 a off < 2 ^ 32 := by
  have h0 := (a off).isLt
  have h1 := (a (off + 1)).isLt
  have h2 := (a (off + 2)).isLt
  have h3 := (a (off + 2 + 1)).isLt
  rw [load32, load16, load16]
  omega

theorem load64_lt (a : Area) (off : Nat) : load64 a off < 2 ^ 64 := by
  have hlow := load32_lt a off
  have hhigh := load32_lt a (off + 4)
  rw [load64]
  omega

theorem load16_congr (h : ∀ j, j < 2 → a (off + j) = b (off + j)) :
    load16 a off = load16 b off := by
  have h0 := h 0 (by decide)
  have h1 := h 1 (by decide)
  rw [add_zero] at h0
  rw [load16, load16, h0, h1]

theorem load32_congr (h : ∀ j, j < 4 → a (off + j) = b (off + j)) :
    load32 a off = load32 b off := by
  have hlow : load16 a off = load16 b off := load16_congr fun j hj => h j (by omega)
  have hhigh : load16 a (off + 2) = load16 b (off + 2) := by
    apply load16_congr
    intro j hj
    rw [add_assoc]
    exact h (2 + j) (by omega)
  rw [load32, load32, hlow, hhigh]

theorem load64_congr (h : ∀ j, j < 8 → a (off + j) = b (off + j)) :
    load64 a off = load64 b off := by
  have hhigh : load32 a (off + 4) = load32 b (off + 4) := by
    apply load32_congr
    intro j hj
    rw [add_assoc]
    exact h (4 + j) (by omega)
  rw [load64, load64, load32_congr fun j hj => h j (by omega), hhigh]

theorem load64_copy_outside (h : off + 8 ≤ k ∨ k + n ≤ off) :
    load64 (copy a k n src) off = load64 a off :=
  load64_congr fun j hj => copy_outside (by omega)

theorem load64_store64_outside (h : off + 8 ≤ k ∨ k + 8 ≤ off) :
    load64 (store64 a k v) off = load64 a off :=
  load64_copy_outside h

theorem load64_copy_inside (h : k + 8 ≤ n) :
    load64 (copy a off n src) (off + k) = load64 src k := by
  have hsrc : load64 (copy a off n src) (off + k) = load64 (fun j => src (j - off)) (off + k) := by
    apply load64_congr
    intro j hj
    rw [copy, if_pos (by omega)]
  rw [hsrc]
  simp only [load64, load32, load16, Nat.add_assoc, Nat.add_sub_cancel_left]

theorem load64_drop : load64 (drop a off) k = load64 a (off + k) := by
  simp only [load64, load32, load16, drop, add_assoc]

theorem load64_of_bytes (h : v < 2 ^ 64)
    (hbytes : ∀ j, j < 8 → a (off + j) = BitVec.ofNat 8 (v / 2 ^ (8 * j))) : load64 a off = v := by
  have hbyte : ∀ j, j < 8 → (a (off + j)).toNat = v / 2 ^ (8 * j) % 2 ^ 8 := by
    intro j hj
    rw [hbytes j hj, BitVec.toNat_ofNat]
  have h0 := hbyte 0 (by decide)
  have h1 := hbyte 1 (by decide)
  have h2 := hbyte 2 (by decide)
  have h3 := hbyte 3 (by decide)
  have h4 := hbyte 4 (by decide)
  have h5 := hbyte 5 (by decide)
  have h6 := hbyte 6 (by decide)
  have h7 := hbyte 7 (by decide)
  simp only [load64, load32, load16, add_assoc, Nat.reduceAdd] at *
  rw [add_zero] at h0
  rw [h0, h1, h2, h3, h4, h5, h6, h7]
  omega

theorem load64_store64 (h : v < 2 ^ 64) : load64 (store64 a off v) off = v :=
  load64_of_bytes h fun _ hj => copy_inside hj

/-! ## Arrays and strings -/

/-- Numbers of eight bytes, one after the other. -/
def Words (a : Area) : Nat → List Nat → Prop
  | _, [] => True
  | off, w :: ws => load64 a off = w ∧ Words a (off + 8) ws

theorem words_append {ws ws' : List Nat} : Words a off (ws ++ ws') ↔
    Words a off ws ∧ Words a (off + 8 * ws.length) ws' := by
  induction ws generalizing off with
  | nil => simp [Words]
  | cons w ws ih =>
    rw [List.cons_append, Words, Words, ih, List.length_cons, and_assoc]
    rw [show off + 8 + 8 * ws.length = off + 8 * (ws.length + 1) by omega]

theorem Words.congr {ws : List Nat} {off' : Nat} (h : Words a off ws)
    (heq : ∀ j, j < 8 * ws.length → b (off' + j) = a (off + j)) : Words b off' ws := by
  induction ws generalizing off off' with
  | nil => trivial
  | cons w ws ih =>
    rw [List.length_cons] at heq
    have hload : load64 (drop b off') 0 = load64 (drop a off) 0 := by
      apply load64_congr
      intro j hj
      rw [zero_add]
      exact heq j (by omega)
    rw [load64_drop, load64_drop, add_zero, add_zero, h.1] at hload
    refine ⟨hload, ih h.2 fun j hj => ?_⟩
    rw [add_assoc, add_assoc]
    exact heq (8 + j) (by omega)

def CString (a : Area) : Nat → List Byte → Prop
  | off, [] => a off = 0
  | off, c :: s => c ≠ 0 ∧ a off = c ∧ CString a (off + 1) s

theorem CString.congr {s : List Byte} {off' : Nat} (h : CString a off s)
    (heq : ∀ j, j < s.length + 1 → b (off' + j) = a (off + j)) : CString b off' s := by
  induction s generalizing off off' with
  | nil =>
    have h0 := heq 0 (by decide)
    exact h0.trans h
  | cons c s ih =>
    rw [List.length_cons] at heq
    refine ⟨h.1, (heq 0 (by omega)).trans h.2.1, ih h.2.2 fun j hj => ?_⟩
    rw [add_assoc, add_assoc]
    exact heq (1 + j) (by omega)

end Area

end Bytes
