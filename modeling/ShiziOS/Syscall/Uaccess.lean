import Mathlib.Data.BitVec
import ShiziOS.Lib.Area

/-!
# Access to user memory

`kernel/lib/uaccess.c` and the reads of `include/uaccess.h` and `asm/uaccess.h`. Memory is what the
processor sees in kernel mode at the time of a call: a byte that cannot be read is absent, and a
read of it ends with `-EFAULT`. Single values are read without a check of the address.

The assembly writes `ret` only when an access faults, although it declares it an output: after an
access that succeeds `ret` is what the register chosen for it holds. Each access is therefore given
what that register holds, and one that is negative is an error to the caller.

* `strnlenUser_cases`: the length of the string at an address, or a negative number.
* `StringAt.unique`: there is one string at an address.
-/

namespace ShiziOS.Syscall

open Bytes List Option

abbrev Memory := Nat → Option Byte

def userEnd : Nat := 0x00007FFFFFFFFFFF

def efault : Int := 14

def read (m : Memory) (addr : Nat) : Nat → Option (List Byte)
  | 0 => some []
  | n + 1 => (m (addr % 2 ^ 64)).bind fun b => (read m (addr + 1) n).map (b :: ·)

/-- The number with the given bytes, the least significant one first. -/
def ofBytes (bytes : List Byte) : Nat := bytes.foldr (fun b n => b.toNat + 2 ^ 8 * n) 0

/-- `uaccess_uaddr_ok`. -/
def uaddrOk (addr size : Nat) : Prop := addr ≤ userEnd ∧ size ≤ userEnd + 1 - addr

instance (addr size : Nat) : Decidable (uaddrOk addr size) := inferInstanceAs (Decidable (_ ∧ _))

/-- A value of eight bytes. -/
def userWord (m : Memory) (addr : Nat) : Option Nat := (read m addr 8).map ofBytes

/-- The bytes of a range that passes the check. -/
def userBytes (m : Memory) (addr n : Nat) : Option (List Byte) :=
  if uaddrOk addr n then read m addr n else none

/-- What is left in the register of `ret`. -/
abbrev Reg := BitVec 32

/-- `uaccess_get_user` for a value of eight bytes; a read that returns an error is absent. -/
def getUser (reg : Reg) (m : Memory) (addr : Nat) : Option Nat :=
  if reg.toInt < 0 then none else userWord m addr

/-- `uaccess_copy_from_user`. -/
def copyFromUser (reg : Reg) (m : Memory) (addr n : Nat) : Except Int (List Byte) :=
  match userBytes m addr n with
  | none => .error (-efault)
  | some bytes => if reg.toInt < 0 then .error reg.toInt else .ok bytes

/-- The loop of `uaccess_strnlen_user`. -/
def strnlenLoop (regs : Nat → Reg) (m : Memory) (s : Nat) : (fuel i : Nat) → Int
  | 0, _ => -efault
  | fuel + 1, i =>
    match m ((s + i) % 2 ^ 64) with
    | none => -efault
    | some c =>
      if (regs i).toInt < 0 then (regs i).toInt
      else if c = 0 then i else strnlenLoop regs m s fuel (i + 1)

/-- `uaccess_strnlen_user`. -/
def strnlenUser (regs : Nat → Reg) (m : Memory) (s max : Nat) : Int :=
  if uaddrOk s max then strnlenLoop regs m s max 0 else -efault

/-! ## Strings -/

/-- A string with its terminating zero at an address of the user. -/
structure StringAt (m : Memory) (s : Nat) (str : List Byte) : Prop where
  nonzero : ∀ b ∈ str, b ≠ 0
  in_user : s + str.length ≤ userEnd
  bytes : read m s (str.length + 1) = some (str ++ [0])

variable {regs : Nat → Reg} {m : Memory} {s max addr n : Nat} {str : List Byte}

theorem neg_toInt_lt (reg : Reg) : -2 ^ 31 ≤ reg.toInt := by
  have h := BitVec.le_toInt reg
  simpa using h

theorem read_succ {b : Byte} {bytes : List Byte} :
    read m addr (n + 1) = some (b :: bytes) ↔
      m (addr % 2 ^ 64) = some b ∧ read m (addr + 1) n = some bytes := by
  simp only [read, bind_eq_some_iff, map_eq_some_iff, List.cons.injEq]
  constructor
  · rintro ⟨b', hb', bytes', hbytes', rfl, rfl⟩
    exact ⟨hb', hbytes'⟩
  · rintro ⟨hb, hbytes⟩
    exact ⟨b, hb, bytes, hbytes, rfl, rfl⟩

theorem strnlenLoop_cases (fuel i : Nat) :
    (∃ str : List Byte, (∀ b ∈ str, b ≠ 0) ∧ str.length < fuel ∧
      read m (s + i) (str.length + 1) = some (str ++ [0]) ∧
      strnlenLoop regs m s fuel i = (i + str.length : Nat)) ∨
    (-2 ^ 31 ≤ strnlenLoop regs m s fuel i ∧ strnlenLoop regs m s fuel i < 0) ∧
      (regs = 0 → ∀ str : List Byte, (∀ b ∈ str, b ≠ 0) → str.length < fuel →
        read m (s + i) (str.length + 1) ≠ some (str ++ [0])) := by
  induction fuel generalizing i with
  | zero =>
    exact .inr ⟨by rw [strnlenLoop]; decide, fun _ str _ hlt => absurd hlt (Nat.not_lt_zero _)⟩
  | succ fuel ih =>
    cases hbyte : m ((s + i) % 2 ^ 64) with
    | none =>
      have heq : strnlenLoop regs m s (fuel + 1) i = -efault := by rw [strnlenLoop, hbyte]
      refine .inr ⟨heq ▸ by decide, fun _ str _ _ hread => ?_⟩
      rw [read, hbyte] at hread
      cases hread
    | some c =>
      simp only [strnlenLoop, hbyte]
      by_cases hreg : (regs i).toInt < 0
      · simp only [if_pos hreg]
        refine .inr ⟨⟨neg_toInt_lt _, hreg⟩, ?_⟩
        rintro rfl
        exact absurd hreg (show ¬(0 : Reg).toInt < 0 by decide)
      rw [if_neg hreg]
      by_cases hc : c = 0
      · subst hc
        exact .inl ⟨[], by simp, Nat.succ_pos _, read_succ.mpr ⟨hbyte, rfl⟩, by simp⟩
      · rw [if_neg hc]
        rcases ih (i + 1) with ⟨str, hnonzero, hlt, hread, heq⟩ | ⟨heq, hnone⟩
        · refine .inl ⟨c :: str, ?_, by simpa using hlt, ?_, ?_⟩
          · simp only [mem_cons, forall_eq_or_imp]
            exact ⟨hc, hnonzero⟩
          · exact read_succ.mpr ⟨hbyte, hread⟩
          · rw [heq, length_cons]
            push_cast
            omega
        · refine .inr ⟨heq, fun hzero str hnonzero hlt hread => ?_⟩
          cases str with
          | nil =>
            obtain ⟨hfirst, -⟩ := read_succ.mp hread
            exact hc (some.inj (hbyte.symm.trans hfirst))
          | cons b str =>
            obtain ⟨-, hrest⟩ := read_succ.mp hread
            exact hnone hzero str (fun b' hb' => hnonzero b' (mem_cons_of_mem b hb'))
              (by simpa using hlt) hrest

theorem strnlenUser_cases (regs : Nat → Reg) (m : Memory) (s max : Nat) :
    (∃ str, StringAt m s str ∧ uaddrOk s max ∧ str.length < max ∧
      strnlenUser regs m s max = str.length) ∨
    (-2 ^ 31 ≤ strnlenUser regs m s max ∧ strnlenUser regs m s max < 0) ∧
      (regs = 0 → ∀ str, StringAt m s str → uaddrOk s max → ¬str.length < max) := by
  unfold strnlenUser
  split_ifs with hok
  · rcases strnlenLoop_cases (m := m) (s := s) max 0 with ⟨str, hnonzero, hlt, hread, heq⟩ |
      ⟨heq, hnone⟩
    · refine .inl ⟨str, ⟨hnonzero, ?_, hread⟩, hok, hlt, by rw [heq, Nat.zero_add]⟩
      obtain ⟨hle, hsize⟩ := hok
      omega
    · exact .inr ⟨heq, fun hzero str hstr _ hlt => hnone hzero str hstr.nonzero hlt hstr.bytes⟩
  · exact .inr ⟨by decide, fun _ _ _ hok' => absurd hok' hok⟩

theorem StringAt.userBytes (h : StringAt m s str) :
    userBytes m s (str.length + 1) = some (str ++ [0]) := by
  have hin := h.in_user
  rw [Syscall.userBytes, if_pos ⟨by omega, by omega⟩, h.bytes]

theorem eq_of_read : ∀ {s : Nat} {str str' : List Byte}, (∀ b ∈ str, b ≠ 0) →
    (∀ b ∈ str', b ≠ 0) → read m s (str.length + 1) = some (str ++ [0]) →
    read m s (str'.length + 1) = some (str' ++ [0]) → str = str'
  | _, [], [], _, _, _, _ => rfl
  | _, [], b :: _, _, hnz', hread, hread' => by
    have heq := (read_succ.mp hread).1.symm.trans (read_succ.mp hread').1
    exact absurd (some.inj heq).symm (hnz' b mem_cons_self)
  | _, b :: _, [], hnz, _, hread, hread' => by
    have heq := (read_succ.mp hread).1.symm.trans (read_succ.mp hread').1
    exact absurd (some.inj heq) (hnz b mem_cons_self)
  | _, b :: str, b' :: str', hnz, hnz', hread, hread' => by
    obtain ⟨hb, hrest⟩ := read_succ.mp hread
    obtain ⟨hb', hrest'⟩ := read_succ.mp hread'
    rw [some.inj (hb.symm.trans hb'), eq_of_read
      (fun c hc => hnz c (mem_cons_of_mem b hc))
      (fun c hc => hnz' c (mem_cons_of_mem b' hc)) hrest hrest']

theorem StringAt.unique {str' : List Byte} (h : StringAt m s str) (h' : StringAt m s str') :
    str = str' :=
  eq_of_read h.nonzero h'.nonzero h.bytes h'.bytes

end ShiziOS.Syscall
