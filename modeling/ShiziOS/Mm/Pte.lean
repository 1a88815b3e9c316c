import Mathlib.Data.Nat.Bitwise
import Mathlib.Tactic

/-!
# Layout and page table entries

The constants of `asm/mm_addr.h` and `mm/vmm_types.h` and the error codes that the
functions of the memory manager return. An address is a natural number; an operation
that can wrap reduces modulo `2 ^ 64` where it stands.

The bits of `vmm_mmu.h`, how `mmu_set_pte` builds an entry from a frame number and a
protection, and what the tests and the hardware read back from it.
-/

namespace ShiziOS.Mm

def pageSize : Nat := 4096

def userStart : Nat := 0x400000
def userStackTop : Nat := 0x7FFFFF000000

/-- The error codes; a function that returns `int` returns `0` or minus one of them. -/
inductive Errno where
  | einval | enomem | enoent | efault | eacces | eagain | eio | enospc
deriving DecidableEq, Repr

/-- `vm_prot_t`, a set of bits. -/
abbrev VmProt := BitVec 32

def vmRead : VmProt := 1
def vmWrite : VmProt := 2
def vmExec : VmProt := 4
def vmUser : VmProt := 8
def vmUc : VmProt := 16

theorem and_pageSize_eq_zero_iff (a : Nat) : a &&& (pageSize - 1) = 0 ↔ pageSize ∣ a := by
  have h := Nat.and_two_pow_sub_one_eq_mod a 12
  simp only [pageSize] at h ⊢
  rw [Nat.dvd_iff_mod_eq_zero]
  exact iff_of_eq (congrArg (· = 0) h)

/-! ## Entries -/

open BitVec

abbrev Pte := BitVec 64

def ptePresent : Pte := twoPow 64 0
def pteWritable : Pte := twoPow 64 1
def pteUser : Pte := twoPow 64 2
def ptePwt : Pte := twoPow 64 3
def ptePcd : Pte := twoPow 64 4
def pteHuge : Pte := twoPow 64 7
def pteNx : Pte := twoPow 64 63

def pteIsValid (pte : Pte) : Bool := pte &&& ptePresent != 0
def pteIsWritable (pte : Pte) : Bool := pte &&& pteWritable != 0
def pteIsUser (pte : Pte) : Bool := pte &&& pteUser != 0
def pteIsHuge (pte : Pte) : Bool := pte &&& pteHuge != 0
def pteIsExecutable (pte : Pte) : Bool := !(pte &&& pteNx != 0)

def ptePfn (pte : Pte) : Nat := ((pte &&& 0x000FFFFFFFFFF000) >>> 12).toNat

/-- The test `prot & flag`. -/
def VmProt.has (prot flag : VmProt) : Bool := prot &&& flag != 0

/-- The value that `mmu_set_pte` stores. -/
def pteValue (pfn : Nat) (huge : Bool) (prot : VmProt) : Pte :=
  let flags := ptePresent
  let flags := if VmProt.has prot vmWrite then flags ||| pteWritable else flags
  let flags := if VmProt.has prot vmUser then flags ||| pteUser else flags
  let flags := if VmProt.has prot vmExec then flags else flags ||| pteNx
  let flags := if VmProt.has prot vmUc then flags ||| (ptePwt ||| ptePcd) else flags
  let flags := if huge then flags ||| pteHuge else flags
  (BitVec.ofNat 64 pfn <<< 12) ||| flags

/-! ## Reading bits -/

theorem and_twoPow_bne_zero {w : Nat} (x : BitVec w) {k : Nat} (hk : k < w) :
    (x &&& twoPow w k != 0) = x.getLsbD k := by
  rw [and_twoPow]
  cases hx : x.getLsbD k with
  | false => simp
  | true =>
    simp only [if_true, bne_iff_ne, ne_eq]
    intro he
    have := congrArg (fun y => y.getLsbD k) he
    simp [hk] at this

theorem pteIsValid_eq (pte : Pte) : pteIsValid pte = pte.getLsbD 0 :=
  and_twoPow_bne_zero pte (by decide)

theorem pteIsWritable_eq (pte : Pte) : pteIsWritable pte = pte.getLsbD 1 :=
  and_twoPow_bne_zero pte (by decide)

theorem pteIsUser_eq (pte : Pte) : pteIsUser pte = pte.getLsbD 2 :=
  and_twoPow_bne_zero pte (by decide)

theorem pteIsHuge_eq (pte : Pte) : pteIsHuge pte = pte.getLsbD 7 :=
  and_twoPow_bne_zero pte (by decide)

theorem pteIsExecutable_eq (pte : Pte) : pteIsExecutable pte = !pte.getLsbD 63 :=
  congrArg not (and_twoPow_bne_zero pte (by decide))

theorem mask_getLsbD (k : Nat) : (0x000FFFFFFFFFF000 : Pte).getLsbD (12 + k) = decide (k < 40) := by
  have hmask : (0x000FFFFFFFFFF000 : Pte) = BitVec.ofNat 64 (2 ^ 40 - 1) <<< 12 := by decide
  rw [hmask, getLsbD_shiftLeft, getLsbD_ofNat, Nat.add_sub_cancel_left, Nat.testBit_two_pow_sub_one]
  by_cases hk : k < 40
  · simp only [hk, decide_true, Bool.and_true]
    simp
    omega
  · simp [hk]

theorem pteValue_getLsbD (pfn : Nat) (huge : Bool) (prot : VmProt) {k : Nat} (hk : k < 64) :
    (pteValue pfn huge prot).getLsbD k =
      (decide (12 ≤ k) && pfn.testBit (k - 12) || decide (k = 0) ||
        (VmProt.has prot vmWrite && decide (k = 1)) || (VmProt.has prot vmUser && decide (k = 2)) ||
        (!VmProt.has prot vmExec && decide (k = 63)) ||
        (VmProt.has prot vmUc && (decide (k = 3) || decide (k = 4))) ||
        (huge && decide (k = 7))) := by
  have hfield : (BitVec.ofNat 64 pfn <<< 12).getLsbD k =
      (decide (12 ≤ k) && pfn.testBit (k - 12)) := by
    rw [getLsbD_shiftLeft, getLsbD_ofNat]
    by_cases h : 12 ≤ k
    · simp [hk, h, show ¬ k < 12 by omega, show k - 12 < 64 by omega]
    · simp [h, show k < 12 by omega]
  have hbit : ∀ j, j < 64 → (twoPow 64 j).getLsbD k = decide (k = j) := by
    intro j hj
    rw [getLsbD_twoPow]
    simp [hj, eq_comm]
  simp only [pteValue, getLsbD_or, hfield]
  cases VmProt.has prot vmWrite <;> cases VmProt.has prot vmUser <;>
    cases VmProt.has prot vmExec <;> cases VmProt.has prot vmUc <;> cases huge <;>
    simp only [ptePresent, pteWritable, pteUser, pteNx, ptePwt, ptePcd, pteHuge, if_true,
      Bool.false_eq_true, if_false, getLsbD_or, hbit _ (show 0 < 64 by decide),
      hbit _ (show 1 < 64 by decide), hbit _ (show 2 < 64 by decide), hbit _
        (show 3 < 64 by decide),
      hbit _ (show 4 < 64 by decide), hbit _ (show 7 < 64 by decide),
      hbit _ (show 63 < 64 by decide), Bool.true_and, Bool.false_and, Bool.or_false, Bool.not_true,
      Bool.not_false, Bool.or_assoc]

@[simp] theorem pteIsValid_pteValue (pfn : Nat) (huge : Bool) (prot : VmProt) :
    pteIsValid (pteValue pfn huge prot) = true := by
  rw [pteIsValid_eq, pteValue_getLsbD _ _ _ (by decide)]
  simp

@[simp] theorem pteIsHuge_pteValue (pfn : Nat) (huge : Bool) (prot : VmProt) :
    pteIsHuge (pteValue pfn huge prot) = huge := by
  rw [pteIsHuge_eq, pteValue_getLsbD _ _ _ (by decide)]
  simp

@[simp] theorem pteIsWritable_pteValue (pfn : Nat) (huge : Bool) (prot : VmProt) :
    pteIsWritable (pteValue pfn huge prot) = VmProt.has prot vmWrite := by
  rw [pteIsWritable_eq, pteValue_getLsbD _ _ _ (by decide)]
  simp

@[simp] theorem pteIsUser_pteValue (pfn : Nat) (huge : Bool) (prot : VmProt) :
    pteIsUser (pteValue pfn huge prot) = VmProt.has prot vmUser := by
  rw [pteIsUser_eq, pteValue_getLsbD _ _ _ (by decide)]
  simp

theorem pteIsExecutable_pteValue {pfn : Nat} (hpfn : pfn < 2 ^ 40) (huge : Bool) (prot : VmProt) :
    pteIsExecutable (pteValue pfn huge prot) = VmProt.has prot vmExec := by
  have htop : pfn.testBit 51 = false :=
    Nat.testBit_lt_two_pow (lt_of_lt_of_le hpfn (Nat.pow_le_pow_right (by decide) (by decide)))
  rw [pteIsExecutable_eq, pteValue_getLsbD _ _ _ (by decide)]
  simp [htop]

theorem ptePfn_pteValue {pfn : Nat} (hpfn : pfn < 2 ^ 40) (huge : Bool) (prot : VmProt) :
    ptePfn (pteValue pfn huge prot) = pfn := by
  refine Nat.eq_of_testBit_eq fun k => ?_
  rw [ptePfn, testBit_toNat, getLsbD_ushiftRight, getLsbD_and, mask_getLsbD]
  by_cases hk : k < 40
  · rw [pteValue_getLsbD _ _ _ (by omega)]
    simp [hk, show 12 + k ≠ 63 by omega, show 12 + k ≠ 1 by omega, show 12 + k ≠ 2 by omega,
      show 12 + k ≠ 3 by omega, show 12 + k ≠ 4 by omega, show 12 + k ≠ 7 by omega]
  · rw [Nat.testBit_lt_two_pow (lt_of_lt_of_le hpfn (Nat.pow_le_pow_right (by decide) (by omega)))]
    simp [hk]

@[simp] theorem pteIsValid_zero : pteIsValid 0#64 = false := by decide

@[simp] theorem pteIsHuge_zero : pteIsHuge 0#64 = false := by decide

end ShiziOS.Mm
