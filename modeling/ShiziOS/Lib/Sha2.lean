import ShiziOS.Lib.Area
import Mathlib

/-!
# SHA-256

The hash function of FIPS 180-4 for messages of whole bytes: padding, the message schedule, the
compression of a block and the digest. The constants are the first bits of the fractional parts
of roots of the first primes.
-/

namespace Sha2

open Bytes

abbrev Word := BitVec 32

/-! ## Functions and constants -/

def ch (x y z : Word) : Word := (x &&& y) ^^^ (~~~x &&& z)

def maj (x y z : Word) : Word := (x &&& y) ^^^ (x &&& z) ^^^ (y &&& z)

/-- The functions written with capital sigmas. -/
def bigSigma0 (x : Word) : Word := x.rotateRight 2 ^^^ x.rotateRight 13 ^^^ x.rotateRight 22

def bigSigma1 (x : Word) : Word := x.rotateRight 6 ^^^ x.rotateRight 11 ^^^ x.rotateRight 25

def smallSigma0 (x : Word) : Word := x.rotateRight 7 ^^^ x.rotateRight 18 ^^^ x >>> 3

def smallSigma1 (x : Word) : Word := x.rotateRight 17 ^^^ x.rotateRight 19 ^^^ x >>> 10

/-- The first `64` primes. -/
def primes : List Nat :=
  [2, 3, 5, 7, 11, 13, 17, 19, 23, 29, 31, 37, 41, 43, 47, 53, 59, 61, 67, 71, 73, 79, 83, 89, 97,
    101, 103, 107, 109,
   113, 127, 131, 137, 139, 149, 151, 157, 163, 167, 173, 179, 181, 191, 193, 197, 199, 211, 223,
     227, 229, 233, 239,
   241, 251, 257, 263, 269, 271, 277, 281, 283, 293, 307, 311]

/-- The first `32` bits of the fractional part of the root of degree `n`. -/
def rootWord (n p : Nat) : Word := BitVec.ofNat 32 (Nat.nthRoot n (p * 2 ^ (32 * n)))

def roundConstant (t : Nat) : Word := rootWord 3 (primes.getD t 0)

def initial : Vector Word 8 := Vector.ofFn fun i => rootWord 2 (primes.getD i 0)

/-! ## Compression -/

/-- The message schedule for the sixteen words of a block. -/
def schedule (m : Nat → Word) (t : Nat) : Word :=
  if t < 16 then m t
  else smallSigma1 (schedule m (t - 2)) + schedule m (t - 7) + smallSigma0 (schedule m (t - 15)) +
    schedule m (t - 16)
termination_by t
decreasing_by all_goals omega

/-- One round on the working variables. -/
def round (w : Word) (k : Word) (v : Vector Word 8) : Vector Word 8 :=
  let t₁ := v.get 7 + bigSigma1 (v.get 4) + ch (v.get 4) (v.get 5) (v.get 6) + k + w
  let t₂ := bigSigma0 (v.get 0) + maj (v.get 0) (v.get 1) (v.get 2)
  #v[t₁ + t₂, v.get 0, v.get 1, v.get 2, v.get 3 + t₁, v.get 4, v.get 5, v.get 6]

def rounds (w : Nat → Word) (n : Nat) (v : Vector Word 8) : Vector Word 8 :=
  (List.range n).foldl (fun v t => round (w t) (roundConstant t) v) v

/-- The hash value after a block. -/
def compress (h : Vector Word 8) (m : Nat → Word) : Vector Word 8 :=
  Vector.zipWith (· + ·) h (rounds (schedule m) 64 h)

/-! ## Messages -/

/-- Word `t` of block `i` of a padded message. -/
def blockWord (m : List Byte) (i t : Nat) : Word :=
  (m.getD (64 * i + 4 * t) 0 ++ m.getD (64 * i + 4 * t + 1) 0 ++ m.getD (64 * i + 4 * t + 2) 0 ++
    m.getD (64 * i + 4 * t + 3) 0 : BitVec 32)

/-- The hash value after the first `n` blocks. -/
def absorb (m : List Byte) (n : Nat) : Vector Word 8 :=
  (List.range n).foldl (fun h i => compress h (blockWord m i)) initial

/-- The number of zero bits behind the bit `1` that ends a message of `l` bits. -/
def zeroBits (l : Nat) : Nat := (447 + 512 - l % 512) % 512

/-- The bit `1` with the first seven zeros is the byte `80`. -/
def pad (m : List Byte) : List Byte :=
  m ++ 0x80 :: List.replicate ((zeroBits (8 * m.length) - 7) / 8) 0 ++
    (List.range 8).map fun i => BitVec.ofNat 8 (8 * m.length / 2 ^ (56 - 8 * i))

def wordBytes (w : Word) : List Byte :=
  [w.extractLsb' 24 8, w.extractLsb' 16 8, w.extractLsb' 8 8, w.extractLsb' 0 8]

def digest (m : List Byte) : List Byte :=
  (absorb (pad m) ((pad m).length / 64)).toList.flatMap wordBytes

/-! ## Facts -/

variable {m m' : List Byte} {n : Nat}

theorem schedule_of_lt {w : Nat → Word} {t : Nat} (ht : t < 16) : schedule w t = w t := by
  rw [schedule, if_pos ht]

theorem schedule_of_ge {w : Nat → Word} {t : Nat} (ht : ¬t < 16) : schedule w t =
    smallSigma1 (schedule w (t - 2)) + schedule w (t - 7) + smallSigma0 (schedule w (t - 15)) +
      schedule w (t - 16) := by
  rw [schedule, if_neg ht]

theorem schedule_congr {w w' : Nat → Word} (h : ∀ t, t < 16 → w t = w' t) (t : Nat) :
    schedule w t = schedule w' t := by
  induction t using Nat.strong_induction_on with
  | _ t ih =>
    by_cases ht : t < 16
    · rw [schedule_of_lt ht, schedule_of_lt ht, h t ht]
    · rw [schedule_of_ge ht, schedule_of_ge ht, ih (t - 2) (by omega), ih (t - 7) (by omega),
        ih (t - 15) (by omega), ih (t - 16) (by omega)]

theorem compress_congr {w w' : Nat → Word} (h : ∀ t, t < 16 → w t = w' t) (v : Vector Word 8) :
    compress v w = compress v w' := by
  rw [compress, compress, funext (schedule_congr h)]

theorem rounds_succ (w : Nat → Word) (n : Nat) (v : Vector Word 8) :
    rounds w (n + 1) v = round (w n) (roundConstant n) (rounds w n v) := by
  rw [rounds, List.range_succ, List.foldl_append, List.foldl_cons, List.foldl_nil, rounds]

theorem absorb_succ (m : List Byte) (n : Nat) :
    absorb m (n + 1) = compress (absorb m n) (blockWord m n) := by
  rw [absorb, List.range_succ, List.foldl_append, List.foldl_cons, List.foldl_nil, absorb]

theorem absorb_congr (h : ∀ k, k < 64 * n → m.getD k 0 = m'.getD k 0) :
    absorb m n = absorb m' n := by
  induction n with
  | zero => rw [absorb, absorb, List.range_zero, List.foldl_nil, List.foldl_nil]
  | succ n ih =>
    rw [absorb_succ, absorb_succ, ih fun k hk => h k (by omega)]
    apply compress_congr
    intro t ht
    rw [blockWord, blockWord, h _ (by omega), h _ (by omega), h _ (by omega), h _ (by omega)]

theorem absorb_append (m l : List Byte) (h : 64 * n ≤ m.length) : absorb (m ++ l) n = absorb m n :=
  absorb_congr fun k hk => List.getD_append _ _ _ _ (by omega)

theorem pad_length (m : List Byte) : (pad m).length = 64 * ((m.length + 8) / 64 + 1) := by
  simp only [pad, zeroBits, List.length_append, List.length_cons, List.length_replicate,
    List.length_map,
    List.length_range]
  omega

theorem pad_getD (m : List Byte) (k : Nat) (hk : k < (pad m).length) :
    (pad m).getD k 0 =
      if k < m.length then m.getD k 0
      else if k = m.length then 0x80
      else if k < (pad m).length - 8 then 0
      else BitVec.ofNat 8 (8 * m.length / 2 ^ (56 - 8 * (k - ((pad m).length - 8)))) := by
  have hlen := pad_length m
  generalize hz : (zeroBits (8 * m.length) - 7) / 8 = z at *
  have hz' : (pad m).length = m.length + 1 + z + 8 := by
    simp only [pad, List.length_append, List.length_cons, List.length_replicate, List.length_map,
      List.length_range, hz]
    omega
  rw [hz'] at hk ⊢
  rw [pad, hz]
  split_ifs with h1 h2 h3
  · rw [List.getD_append _ _ _ _ (by simp; omega), List.getD_append _ _ _ _ h1]
  · subst h2
    rw [List.getD_append _ _ _ _ (by simp), List.getD_append_right _ _ _ _ le_rfl, Nat.sub_self]
    rfl
  · rw [List.getD_append _ _ _ _ (by simp; omega), List.getD_append_right _ _ _ _ (by omega)]
    obtain ⟨j, hj⟩ : ∃ j, k - m.length = j + 1 := ⟨k - m.length - 1, by omega⟩
    rw [hj, List.getD_cons_succ, List.getD_replicate _ (by omega)]
  · have hindex : k - (m ++ 0x80 :: List.replicate z 0).length = k - (m.length + 1 + z) := by
      simp only [List.length_append, List.length_cons, List.length_replicate]
      omega
    rw [List.getD_append_right _ _ _ _ (by simp; omega), hindex, List.getD_eq_getElem?_getD,
      List.getElem?_map,
      List.getElem?_range (by omega), show m.length + 1 + z + 8 - 8 = m.length + 1 + z by omega]
    rfl

end Sha2
