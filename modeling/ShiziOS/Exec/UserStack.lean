import ShiziOS.Lib.Area
import ShiziOS.Lib.Spans

/-!
# The first stack of a program

`exec_setup_user_stack` of `kernel/exec/core.c`. Memory is one area of bytes, from which the
argument lists are read and into which the stack is written. The array `auxv` gets room for
fourteen entries without growing when it is made, and has at most ten; it is a list here, and
`granted` says whether there is memory for it. A loop that finds no end is `none`.
-/

namespace ShiziOS.Loader

open Bytes Area List Option Nat

def u64 (n : Nat) : Nat := n % 2 ^ 64

/-- `auxv_entry_t`. -/
structure AuxvEntry where
  type : Nat
  value : Nat
  deriving DecidableEq

def atNull : Nat := 0
def atPhdr : Nat := 3
def atPhent : Nat := 4
def atPhnum : Nat := 5
def atPagesz : Nat := 6
def atBase : Nat := 7
def atFlags : Nat := 8
def atEntry : Nat := 9
def atNotelf : Nat := 10
def atPlatform : Nat := 15

def pageSize : Nat := 4096

/-- `PLATFORM_STRING`, `"x86_64"`. -/
def platform : List Byte := [0x78, 0x38, 0x36, 0x5F, 0x36, 0x34]

def enomem : Int := 12

/-- What the loader knows of the program. -/
structure Program where
  entry : BitVec 64
  phdr : BitVec 64
  phnum : BitVec 32
  phent : BitVec 32
  isElf : BitVec 32
  interpBase : BitVec 64

/-! ## The function -/

/-- `while (argv[argc]) argc++`. -/
def arrayLen (m : Area) (arr : Nat) : (fuel n : Nat) → Option Nat
  | 0, _ => none
  | fuel + 1, n => if m.load64 (arr + 8 * n) = 0 then some n else arrayLen m arr fuel (n + 1)

def strlenLoop (m : Area) (s : Nat) : (fuel n : Nat) → Option Nat
  | 0, _ => none
  | fuel + 1, n => if m (s + n) = 0 then some n else strlenLoop m s fuel (n + 1)

def strlen (m : Area) (s : Nat) : Option Nat := strlenLoop m s (2 ^ 64) 0

/-- The loop that adds up the sizes of `n` strings. -/
def sizeLoop (m : Area) (arr : Nat) : (n i strTotal : Nat) → Option Nat
  | 0, _, strTotal => some strTotal
  | n + 1, i, strTotal => do
    let len ← strlen m (m.load64 (arr + 8 * i))
    sizeLoop m arr n (i + 1) (u64 (strTotal + len + 1))

/-- The loop that copies `n` strings and sets the pointers to them. -/
def copyLoop (arr ptrs : Nat) : (n i strPos : Nat) → Area → Option (Nat × Area)
  | 0, _, strPos, m => some (strPos, m)
  | n + 1, i, strPos, m => do
    let len := u64 ((← strlen m (m.load64 (arr + 8 * i))) + 1)
    let m := m.store64 (ptrs + 8 * i) strPos
    let m := m.copy strPos len (m.drop (m.load64 (arr + 8 * i)))
    copyLoop arr ptrs n (i + 1) (u64 (strPos + len)) m

/-- The entries of `auxv`, with the address of the platform's name. -/
def Program.auxv (p : Program) (platformActual : Nat) : List AuxvEntry :=
  [⟨atPhdr, p.phdr.toNat⟩] ++ (if p.phent ≠ 0 then [⟨atPhent, p.phent.toNat⟩] else []) ++
    [⟨atPhnum, p.phnum.toNat⟩, ⟨atEntry, p.entry.toNat⟩, ⟨atBase, p.interpBase.toNat⟩,
      ⟨atPagesz, pageSize⟩, ⟨atFlags, 0⟩, ⟨atPlatform, platformActual⟩,
      ⟨atNotelf, p.isElf.toNat⟩, ⟨atNull, 0⟩]

def AuxvEntry.words (e : AuxvEntry) : List Nat := [e.type, e.value]

/-- Numbers as an array in memory. -/
def areaOf (ws : List Nat) : Area := fun k => BitVec.ofNat 8 (ws.getD (k / 8) 0 / 2 ^ (8 * (k % 8)))

/-- `exec_setup_user_stack`: the new stack pointer or an error, and the memory. -/
def execSetupUserStack (m : Area) (stackTop argv envp : Nat) (p : Program) (granted : Bool) :
    Option (Except Int Nat × Area) := do
  let argc ← arrayLen m argv (2 ^ 61) 0
  let envc ← arrayLen m envp (2 ^ 61) 0
  let strTotal ← sizeLoop m argv argc 0 0
  let strTotal ← sizeLoop m envp envc 0 strTotal
  let platformLen := platform.length + 1
  let strTotal := u64 (strTotal + platformLen)
  if granted = false then some (.error (-enomem), m)
  else
    -- the entry of the platform's name is filled in when the layout is known
    let auxvSize := u64 ((p.auxv 0).length * 16)
    let envpSize := u64 ((envc + 1) * 8)
    let argvSize := u64 ((argc + 1) * 8)
    let argcSize := 8
    let totalSize := u64 (auxvSize + envpSize + argvSize + argcSize + strTotal)
    -- `& ~15`
    let pos := u64 (stackTop + 2 ^ 64 - totalSize) / 16 * 16
    let argvBase := u64 (pos + argcSize)
    let envpBase := u64 (argvBase + argvSize)
    let auxvBase := u64 (envpBase + envpSize)
    let strBase := u64 (auxvBase + auxvSize)
    let m := m.copy auxvBase auxvSize (areaOf ((p.auxv strBase).flatMap AuxvEntry.words))
    let m := m.copy strBase platformLen fun k => platform.getD k 0
    let strBase := u64 (strBase + platformLen)
    let m := m.copy argvBase (u64 ((argc + 1) * 8)) (m.drop argv)
    let m := m.copy envpBase (u64 ((envc + 1) * 8)) (m.drop envp)
    let (strPos, m) ← copyLoop argv argvBase argc 0 strBase m
    let (_, m) ← copyLoop envp envpBase envc 0 strPos m
    some (.ok pos, m.store64 pos argc)

/-! ## Argument lists -/

/-- An interval has no address in common with `[lo, hi)`. -/
def Clear (lo hi off n : Nat) : Prop := off + n ≤ lo ∨ hi ≤ off

/-- An array of pointers to strings, ended by a null pointer, outside of `[lo, hi)`. -/
def Listed (m : Area) (lo hi : Nat) : Nat → List (List Byte) → Prop
  | arr, [] => m.load64 arr = 0 ∧ Clear lo hi arr 8
  | arr, s :: rest => (m.load64 arr ≠ 0 ∧ Clear lo hi arr 8) ∧
      (CString m (m.load64 arr) s ∧ Clear lo hi (m.load64 arr) (s.length + 1)) ∧
      Listed m lo hi (arr + 8) rest

/-- The bytes of strings with their ends. -/
def sizeOf (strs : List (List Byte)) : Nat := (strs.map fun s => s.length + 1).sum

/-- Where strings are that are written one after the other. -/
def places : Nat → List (List Byte) → List Nat
  | _, [] => []
  | pos, s :: rest => pos :: places (pos + (s.length + 1)) rest

/-- Strings with their places. -/
def spansOf (pos : Nat) (strs : List (List Byte)) : List (Nat × Nat) :=
  (places pos strs).zip (strs.map fun s => s.length + 1)

theorem sizeOf_cons (s : List Byte) (rest : List (List Byte)) :
    sizeOf (s :: rest) = s.length + 1 + sizeOf rest := rfl

theorem places_length (pos : Nat) (strs : List (List Byte)) :
    (places pos strs).length = strs.length := by
  induction strs generalizing pos with
  | nil => rfl
  | cons s rest ih => rw [places, length_cons, length_cons, ih]

theorem chain_spansOf {pos hi : Nat} {l : List (Nat × Nat)} (strs : List (List Byte))
    (h : Spans.Chain (pos + sizeOf strs) l hi) : Spans.Chain pos (spansOf pos strs ++ l) hi := by
  induction strs generalizing pos with
  | nil => exact h
  | cons s rest ih =>
    apply Spans.Chain.cons
    apply ih
    rw [sizeOf_cons, ← add_assoc] at h
    exact h

variable {m m' : Area} {lo hi arr n i pos fuel ptrs : Nat} {strs : List (List Byte)} {s : List Byte}

theorem Listed.congr (h : Listed m lo hi arr strs) (heq : ∀ k, k < lo ∨ hi ≤ k → m' k = m k) :
    Listed m' lo hi arr strs := by
  have hload : ∀ {off}, Clear lo hi off 8 → m'.load64 off = m.load64 off := by
    intro off hoff
    apply load64_congr
    intro j hj
    rcases hoff with hoff | hoff <;> exact heq _ (by omega)
  induction strs generalizing arr with
  | nil => exact ⟨by rw [hload h.2, h.1], h.2⟩
  | cons s rest ih =>
    obtain ⟨⟨hne, hword⟩, ⟨hstr, hclear⟩, hrest⟩ := h
    rw [Listed, hload hword]
    refine ⟨⟨hne, hword⟩, ⟨hstr.congr fun j hj => heq _ ?_, hclear⟩, ih hrest⟩
    rcases hclear with hc | hc <;> omega

theorem Listed.null (h : Listed m lo hi arr strs) :
    m.load64 (arr + 8 * strs.length) = 0 ∧ Clear lo hi (arr + 8 * strs.length) 8 := by
  induction strs generalizing arr with
  | nil => exact h
  | cons s rest ih =>
    have hnull := ih h.2.2
    rw [length_cons, show arr + 8 * (rest.length + 1) = arr + 8 + 8 * rest.length by omega]
    exact hnull

/-! ## The loops -/

theorem arrayLen_eq (h : Listed m lo hi (arr + 8 * n) strs) (hfuel : strs.length < fuel) :
    arrayLen m arr fuel n = some (n + strs.length) := by
  induction strs generalizing n fuel with
  | nil =>
    obtain ⟨fuel, rfl⟩ := exists_eq_succ_of_ne_zero (by omega : fuel ≠ 0)
    rw [arrayLen, if_pos h.1]
    rfl
  | cons s rest ih =>
    obtain ⟨fuel, rfl⟩ := exists_eq_succ_of_ne_zero (by omega : fuel ≠ 0)
    rw [length_cons] at hfuel ⊢
    rw [arrayLen, if_neg h.1.1, ih h.2.2 (by omega)]
    congr 1
    omega

theorem strlenLoop_eq (h : CString m (pos + n) s) (hfuel : s.length < fuel) :
    strlenLoop m pos fuel n = some (n + s.length) := by
  induction s generalizing n fuel with
  | nil =>
    obtain ⟨fuel, rfl⟩ := exists_eq_succ_of_ne_zero (by omega : fuel ≠ 0)
    have hzero : m (pos + n) = 0 := h
    rw [strlenLoop, if_pos hzero]
    rfl
  | cons c s ih =>
    obtain ⟨fuel, rfl⟩ := exists_eq_succ_of_ne_zero (by omega : fuel ≠ 0)
    obtain ⟨hc, hbyte, hrest⟩ := h
    rw [length_cons] at hfuel ⊢
    rw [strlenLoop, if_neg (by rw [hbyte]; exact hc), ih hrest (by omega)]
    congr 1
    omega

theorem strlen_eq (h : CString m pos s) (hlen : s.length < 2 ^ 64) :
    strlen m pos = some s.length := by
  rw [strlen, strlenLoop_eq h hlen, zero_add]

theorem sizeLoop_eq {strTotal : Nat} (h : Listed m lo hi (arr + 8 * i) strs)
    (hsize : strTotal + sizeOf strs < 2 ^ 64) :
    sizeLoop m arr strs.length i strTotal = some (strTotal + sizeOf strs) := by
  induction strs generalizing i strTotal with
  | nil => rfl
  | cons s rest ih =>
    rw [sizeOf_cons] at hsize ⊢
    rw [length_cons, sizeLoop, strlen_eq h.2.1.1 (by omega)]
    change sizeLoop m arr rest.length (i + 1) (u64 (strTotal + s.length + 1)) = _
    rw [u64, mod_eq_of_lt (by omega), ih h.2.2 (by omega)]
    congr 1
    omega

theorem strings_congr (h : List.Forall₂ (CString m) (places pos strs) strs)
    (heq : ∀ k, pos ≤ k → k < pos + sizeOf strs → m' k = m k) :
    List.Forall₂ (CString m') (places pos strs) strs := by
  induction strs generalizing pos with
  | nil => exact .nil
  | cons s rest ih =>
    rw [sizeOf_cons] at heq
    obtain ⟨hs, hrest⟩ := forall₂_cons.mp h
    refine .cons (hs.congr fun j hj => heq _ (by omega) (by omega)) (ih hrest fun k hk hk' => ?_)
    exact heq k (by omega) (by omega)

/-- What the loop leaves: the strings from `pos` on, the pointers to them in `ptrs`, and everything
else as it was. -/
structure Copied (m m' : Area) (ptrs pos : Nat) (strs : List (List Byte)) : Prop where
  words : Words m' ptrs (places pos strs)
  strings : List.Forall₂ (CString m') (places pos strs) strs
  frame : ∀ k, k < ptrs ∨ ptrs + 8 * strs.length ≤ k → k < pos ∨ pos + sizeOf strs ≤ k →
    m' k = m k

theorem copyLoop_spec (h : Listed m lo hi (arr + 8 * i) strs) (hlo : lo ≤ ptrs + 8 * i)
    (hptrs : ptrs + 8 * (i + strs.length) ≤ pos) (hpos : pos + sizeOf strs ≤ hi)
    (hhi : hi < 2 ^ 64) :
    ∃ m', copyLoop arr ptrs strs.length i pos m = some (pos + sizeOf strs, m') ∧
      Copied m m' (ptrs + 8 * i) pos strs := by
  induction strs generalizing m i pos with
  | nil => exact ⟨m, rfl, trivial, .nil, fun _ _ _ => rfl⟩
  | cons s rest ih =>
    obtain ⟨⟨-, hword⟩, ⟨hstr, hclear⟩, hrest⟩ := h
    rw [sizeOf_cons] at hpos ⊢
    rw [length_cons] at hptrs
    have hlen : u64 (s.length + 1) = s.length + 1 := mod_eq_of_lt (by omega)
    have hnext : u64 (pos + (s.length + 1)) = pos + (s.length + 1) := mod_eq_of_lt (by omega)
    -- the memory after one round
    let m1 := m.store64 (ptrs + 8 * i) pos
    let m2 := m1.copy pos (s.length + 1) (m1.drop (m.load64 (arr + 8 * i)))
    have hout : ∀ k, k < ptrs + 8 * i ∨ ptrs + 8 * i + 8 ≤ k → m1 k = m k := fun k hk =>
      copy_outside hk
    have hframe : ∀ k, k < ptrs + 8 * i ∨ ptrs + 8 * i + 8 ≤ k →
        k < pos ∨ pos + (s.length + 1) ≤ k → m2 k = m k := by
      intro k hk hk'
      exact (copy_outside hk').trans (hout k hk)
    have hptr : m1.load64 (arr + 8 * i) = m.load64 (arr + 8 * i) := by
      apply load64_congr
      intro j hj
      apply hout
      rcases hword with hc | hc <;> omega
    have hstr2 : CString m2 pos s := by
      apply hstr.congr
      intro j hj
      have hinside : m2 (pos + j) = m1 (m.load64 (arr + 8 * i) + j) := copy_inside hj
      rw [hinside]
      apply hout
      rcases hclear with hc | hc <;> omega
    have hword2 : m2.load64 (ptrs + 8 * i) = pos := by
      have hcopy : m2.load64 (ptrs + 8 * i) = m1.load64 (ptrs + 8 * i) :=
        load64_copy_outside (by omega)
      rw [hcopy]
      exact load64_store64 (by omega)
    have hlisted : Listed m2 lo hi (arr + 8 * (i + 1)) rest := by
      apply Listed.congr hrest
      intro k hk
      exact hframe k (by omega) (by omega)
    have hptrs' : ptrs + 8 * (i + 1 + rest.length) ≤ pos + (s.length + 1) := by omega
    obtain ⟨m', hloop, hcopied⟩ := ih hlisted (by omega) hptrs' (by omega)
    have hkeep : ∀ k, k < ptrs + 8 * (i + 1) ∨ ptrs + 8 * (i + 1 + rest.length) ≤ k →
        k < pos + (s.length + 1) ∨ pos + (s.length + 1) + sizeOf rest ≤ k → m' k = m2 k :=
      fun k hk hk' => hcopied.frame k (by omega) hk'
    refine ⟨m', ?_, ⟨?_, hcopied.words⟩, .cons ?_ hcopied.strings, ?_⟩
    · rw [length_cons, copyLoop, strlen_eq hstr (by omega)]
      change copyLoop arr ptrs rest.length (i + 1) (u64 (pos + u64 (s.length + 1)))
        (m1.copy pos (u64 (s.length + 1)) (m1.drop (m1.load64 (arr + 8 * i)))) = _
      rw [hlen, hnext, hptr, hloop, add_assoc]
    · rw [load64_congr fun j hj => hkeep (ptrs + 8 * i + j) (by omega) (by omega), hword2]
    · exact hstr2.congr fun j hj => hkeep (pos + j) (by omega) (by omega)
    · intro k hk hk'
      rw [length_cons] at hk
      rw [sizeOf_cons] at hk'
      rw [hkeep k (by omega) (by omega), hframe k (by omega) (by omega)]

/-! ## The layout -/

theorem u64_of_lt (h : n < 2 ^ 64) : u64 n = n := mod_eq_of_lt h

theorem words_areaOf {ws : List Nat} (h : ∀ w ∈ ws, w < 2 ^ 64) : Words (areaOf ws) 0 ws := by
  have hload : ∀ i, (areaOf ws).load64 (8 * i) = ws.getD i 0 := by
    intro i
    apply load64_of_bytes
    · rw [getD_eq_getElem?_getD]
      rcases hw : ws[i]? with _ | w
      · exact Nat.two_pow_pos 64
      · exact h w (mem_of_getElem? hw)
    · intro j hj
      rw [areaOf, show (8 * i + j) / 8 = i by omega, show (8 * i + j) % 8 = j by omega]
  suffices hdrop : ∀ i, Words (areaOf ws) (8 * i) (ws.drop i) from hdrop 0
  intro i
  induction hn : (ws.drop i).length generalizing i with
  | zero =>
    rw [eq_nil_of_length_eq_zero hn]
    trivial
  | succ n ih =>
    have hi : i < ws.length := by
      rw [length_drop] at hn
      omega
    rw [drop_eq_getElem_cons hi] at hn ⊢
    rw [length_cons, Nat.succ_inj] at hn
    refine ⟨?_, ih (i + 1) hn⟩
    rw [hload, getD_eq_getElem?_getD, getElem?_eq_getElem hi, getD_some]

namespace Program

variable (p : Program)

theorem auxv_length_eq (x : Nat) : (p.auxv x).length = (p.auxv 0).length := by
  unfold auxv
  split_ifs <;> rfl

theorem auxv_words_length (x : Nat) :
    ((p.auxv x).flatMap AuxvEntry.words).length = 2 * (p.auxv 0).length := by
  rw [← p.auxv_length_eq x, length_flatMap]
  simp [AuxvEntry.words, mul_comm]

theorem auxv_lt {x : Nat} (hx : x < 2 ^ 64) :
    ∀ w ∈ (p.auxv x).flatMap AuxvEntry.words, w < 2 ^ 64 := by
  unfold auxv
  split_ifs <;>
  · simp [AuxvEntry.words, atPhdr, atPhent, atPhnum, atEntry, atBase, atPagesz, atFlags, atPlatform,
      atNotelf, atNull, pageSize]
    omega

theorem auxv_ends (x : Nat) : ∃ l, p.auxv x = l ++ [⟨atNull, 0⟩] ∧ ∀ e ∈ l, e.type ≠ atNull := by
  refine ⟨(p.auxv x).dropLast, ?_, ?_⟩
  · unfold auxv
    split_ifs <;> rfl
  · unfold auxv
    split_ifs <;> simp [atPhdr, atPhent, atPhnum, atEntry, atBase, atPagesz, atFlags, atPlatform,
      atNotelf, atNull]

end Program

/-- The bytes that the stack needs. -/
def totalSize (args envs : List (List Byte)) (p : Program) : Nat :=
  16 * (p.auxv 0).length + 8 * (envs.length + 1) + 8 * (args.length + 1) + 8 +
    (sizeOf args + sizeOf envs + (platform.length + 1))

/-- The new stack pointer. -/
def stackPtr (stackTop : Nat) (args envs : List (List Byte)) (p : Program) : Nat :=
  (stackTop - totalSize args envs p) / 16 * 16

/-- The parts of the stack: the count, the two arrays of pointers, the auxiliary vector, the
platform's name and the strings. -/
def regions (sp : Nat) (args envs : List (List Byte)) (p : Program) (name : Nat)
    (argPtrs envPtrs : List Nat) : List (Nat × Nat) :=
  [(sp, 8), (sp + 8, 8 * (args.length + 1)),
    (sp + 8 + 8 * (args.length + 1), 8 * (envs.length + 1)),
    (sp + 8 + 8 * (args.length + 1) + 8 * (envs.length + 1), 16 * (p.auxv name).length),
    (name, platform.length + 1)] ++
    (argPtrs.zip (args.map fun s => s.length + 1) ++ envPtrs.zip (envs.map fun s => s.length + 1))

/-- The stack from `sp` on is what a program expects, and nothing else has changed. -/
structure Encodes (m m' : Area) (sp stackTop : Nat) (args envs : List (List Byte)) (p : Program)
    (name : Nat) (argPtrs envPtrs : List Nat) : Prop where
  aligned : sp % 16 = 0
  frame : ∀ k, k < sp ∨ stackTop ≤ k → m' k = m k
  words : Words m' sp ([args.length] ++ (argPtrs ++ [0] ++ (envPtrs ++ [0] ++
    (p.auxv name).flatMap AuxvEntry.words)))
  auxv_ends : ∃ l, p.auxv name = l ++ [⟨atNull, 0⟩] ∧ ∀ e ∈ l, e.type ≠ atNull
  argStrings : List.Forall₂ (CString m') argPtrs args
  envStrings : List.Forall₂ (CString m') envPtrs envs
  nameString : CString m' name platform
  inside : ∀ r ∈ regions sp args envs p name argPtrs envPtrs, sp ≤ r.1 ∧ r.1 + r.2 ≤ stackTop
  disjoint : (regions sp args envs p name argPtrs envPtrs).Pairwise fun r r' =>
    Disjoint (Spans.span r) (Spans.span r')

theorem cString_platform (hcopy : ∀ j, j < platform.length + 1 → m (pos + j) = platform.getD j 0) :
    CString m pos platform := by
  have hstr : CString (fun k => platform.getD k 0) 0 platform := by
    simp only [CString, platform]
    decide
  apply hstr.congr
  intro j hj
  rw [hcopy j hj, zero_add]

theorem chain_regions (sp : Nat) (args envs : List (List Byte)) (p : Program) :
    let name := sp + 8 + 8 * (args.length + 1) + 8 * (envs.length + 1) + 16 * (p.auxv 0).length
    Spans.Chain sp (regions sp args envs p name (places (name + (platform.length + 1)) args)
      (places (name + (platform.length + 1) + sizeOf args) envs)) (sp + totalSize args envs p) := by
  intro name
  rw [regions, p.auxv_length_eq]
  iterate 5 apply Spans.Chain.cons
  apply chain_spansOf
  have hend : sp + totalSize args envs p =
      name + (platform.length + 1) + sizeOf args + sizeOf envs := by
    simp only [name, totalSize]
    omega
  rw [hend, ← append_nil (List.zip _ _)]
  exact chain_spansOf envs .nil

/-- The memory before the strings are copied, for a stack at `sp`. -/
def prepared (m : Area) (argv envp sp argc envc : Nat) (p : Program) : Area :=
  let envpBase := sp + 8 + 8 * (argc + 1)
  let auxvBase := envpBase + 8 * (envc + 1)
  let name := auxvBase + 16 * (p.auxv 0).length
  let m := m.copy auxvBase (16 * (p.auxv 0).length)
    (areaOf ((p.auxv name).flatMap AuxvEntry.words))
  let m := m.copy name (platform.length + 1) fun k => platform.getD k 0
  let m := m.copy (sp + 8) (8 * (argc + 1)) (m.drop argv)
  m.copy envpBase (8 * (envc + 1)) (m.drop envp)

section

variable {argv envp sp stackTop : Nat} {args envs : List (List Byte)} {p : Program}

theorem prepared_frame (k : Nat) {argc envc : Nat} (h : k < sp + 8 ∨
    sp + 8 + 8 * (argc + 1) + 8 * (envc + 1) + 16 * (p.auxv 0).length + (platform.length + 1) ≤ k) :
    prepared m argv envp sp argc envc p k = m k := by
  simp only [prepared]
  rw [copy_outside (by omega), copy_outside (by omega), copy_outside (by omega),
    copy_outside (by omega)]

theorem prepared_spec (hsp : sp + totalSize args envs p ≤ stackTop) (htop : stackTop < 2 ^ 64)
    (hargs : Listed m sp stackTop argv args) (henvs : Listed m sp stackTop envp envs) :
    let m4 := prepared m argv envp sp args.length envs.length p
    let auxvBase := sp + 8 + 8 * (args.length + 1) + 8 * (envs.length + 1)
    let name := auxvBase + 16 * (p.auxv 0).length
    m4.load64 (sp + 8 + 8 * args.length) = 0 ∧
    m4.load64 (sp + 8 + 8 * (args.length + 1) + 8 * envs.length) = 0 ∧
    Words m4 auxvBase ((p.auxv name).flatMap AuxvEntry.words) ∧ CString m4 name platform := by
  intro m4 auxvBase name
  have hname : name < 2 ^ 64 := by
    rw [totalSize] at hsp
    omega
  rw [totalSize] at hsp
  obtain ⟨hargNull, hargClear⟩ := hargs.null
  obtain ⟨henvNull, henvClear⟩ := henvs.null
  refine ⟨?_, ?_, (words_areaOf (p.auxv_lt hname)).congr fun j hj => ?_,
    cString_platform fun j hj => ?_⟩
  · simp only [m4, prepared]
    rw [load64_copy_outside (by omega), load64_copy_inside (by omega), load64_drop]
    rcases hargClear with hc | hc <;>
      rw [load64_copy_outside (by omega), load64_copy_outside (by omega), hargNull]
  · simp only [m4, prepared]
    rw [load64_copy_inside (by omega), load64_drop]
    rcases henvClear with hc | hc <;>
      rw [load64_copy_outside (by omega), load64_copy_outside (by omega),
        load64_copy_outside (by omega), henvNull]
  · rw [p.auxv_words_length] at hj
    simp only [m4, prepared]
    rw [copy_outside (by omega), copy_outside (by omega), copy_outside (by omega),
      copy_inside (by omega), zero_add]
  · simp only [m4, prepared]
    rw [copy_outside (by omega), copy_outside (by omega), copy_inside hj]

theorem encodes_of_copied {name : Nat} {m5 m6 : Area} (hname : sp + 8 + 8 * (args.length + 1) +
      8 * (envs.length + 1) + 16 * (p.auxv 0).length = name) (halign : sp % 16 = 0)
    (hsp : sp + totalSize args envs p ≤ stackTop) (htop : stackTop < 2 ^ 64)
    (hargs : Listed m sp stackTop argv args) (henvs : Listed m sp stackTop envp envs)
    (h5 : Copied (prepared m argv envp sp args.length envs.length p) m5 (sp + 8)
      (name + (platform.length + 1)) args)
    (h6 : Copied m5 m6 (sp + 8 + 8 * (args.length + 1))
      (name + (platform.length + 1) + sizeOf args) envs) :
    Encodes m (m6.store64 sp args.length) sp stackTop args envs p name
      (places (name + (platform.length + 1)) args)
      (places (name + (platform.length + 1) + sizeOf args) envs) := by
  have hprep := prepared_spec hsp htop hargs henvs
  have hchain := chain_regions sp args envs p
  simp only [hname] at hprep hchain
  obtain ⟨hargNull, henvNull, haux, hplatform⟩ := hprep
  have hframe : ∀ k, k < sp + 8 ∨ name + (platform.length + 1) ≤ k →
      prepared m argv envp sp args.length envs.length p k = m k :=
    fun k hk => prepared_frame k (by omega)
  generalize prepared m argv envp sp args.length envs.length p = m4 at *
  rw [totalSize] at hsp
  -- everything behind the count is as the loops have left it
  have hkeep : ∀ k, sp + 8 ≤ k → m6.store64 sp args.length k = m6 k :=
    fun k hk => copy_outside (by omega)
  generalize hm' : m6.store64 sp args.length = m' at hkeep ⊢
  have hlenA := places_length (name + (platform.length + 1)) args
  have hlenE := places_length (name + (platform.length + 1) + sizeOf args) envs
  have hcount : m'.load64 sp = args.length := by
    rw [← hm']
    exact load64_store64 (by omega)
  have hrest : ∀ k, sp + 8 ≤ k → k < name + (platform.length + 1) →
      k < sp + 8 ∨ sp + 8 + 8 * args.length ≤ k →
      k < sp + 8 + 8 * (args.length + 1) ∨ sp + 8 + 8 * (args.length + 1) + 8 * envs.length ≤ k →
      m' k = m4 k := by
    intro k hk hk' hA hE
    rw [hkeep k hk, h6.frame k hE (by omega), h5.frame k hA (by omega)]
  have hload : ∀ off, off + 8 ≤ name + (platform.length + 1) → sp + 8 + 8 * args.length ≤ off →
      off + 8 ≤ sp + 8 + 8 * (args.length + 1) ∨
        sp + 8 + 8 * (args.length + 1) + 8 * envs.length ≤ off → m'.load64 off = m4.load64 off :=
    fun off h h' h'' => load64_congr fun j hj =>
      hrest _ (by omega) (by omega) (by omega) (by omega)
  refine ⟨halign, fun k hk => ?_, ?_, p.auxv_ends name, ?_, ?_, ?_, fun r hr => ?_, hchain.disjoint⟩
  · rw [← hm', store64, copy_outside (by omega), h6.frame k (by omega) (by omega),
      h5.frame k (by omega) (by omega), hframe k (by omega)]
  · refine words_append.mpr ⟨⟨hcount, trivial⟩,
      words_append.mpr ⟨words_append.mpr ⟨?_, ?_, trivial⟩,
      words_append.mpr ⟨words_append.mpr ⟨?_, ?_, trivial⟩, ?_⟩⟩⟩
    all_goals simp only [length_singleton, length_append, hlenA, hlenE, mul_one]
    · exact h5.words.congr fun j hj => by rw [hkeep _ (by omega), h6.frame _ (by omega) (by omega)]
    · rw [hload _ (by omega) (by omega) (by omega), hargNull]
    · exact h6.words.congr fun j _ => hkeep _ (by omega)
    · rw [hload _ (by omega) (by omega) (by omega), henvNull]
    · refine haux.congr fun j hj => hrest _ (by omega) ?_ (by omega) (by omega)
      rw [p.auxv_words_length] at hj
      omega
  · refine strings_congr h5.strings fun k hk hk' => ?_
    rw [hkeep k (by omega), h6.frame k (by omega) (by omega)]
  · exact strings_congr h6.strings fun k hk _ => hkeep k (by omega)
  · exact hplatform.congr fun j hj => hrest _ (by omega) (by omega) (by omega) (by omega)
  · exact ⟨(hchain.inside hr).1, (hchain.inside hr).2.trans (by rw [totalSize]; omega)⟩

end

/-- The program's view of its first stack. -/
theorem user_stack_encodes {stackTop argv envp : Nat} {args envs : List (List Byte)} (p : Program)
    (hroom : totalSize args envs p ≤ stackTop) (htop : stackTop < 2 ^ 64)
    (hargs : Listed m (stackPtr stackTop args envs p) stackTop argv args)
    (henvs : Listed m (stackPtr stackTop args envs p) stackTop envp envs) :
    execSetupUserStack m stackTop argv envp p false = some (.error (-enomem), m) ∧
    ∃ m' name argPtrs envPtrs, execSetupUserStack m stackTop argv envp p true =
        some (.ok (stackPtr stackTop args envs p), m') ∧
      Encodes m m' (stackPtr stackTop args envs p) stackTop args envs p name argPtrs envPtrs := by
  generalize hspEq : stackPtr stackTop args envs p = sp at hargs henvs ⊢
  have hsp : sp + totalSize args envs p ≤ stackTop ∧ sp % 16 = 0 := by
    rw [← hspEq, stackPtr]
    omega
  have htotal : totalSize args envs p = totalSize args envs p := rfl
  nth_rewrite 2 [totalSize] at htotal
  have hargc : arrayLen m argv (2 ^ 61) 0 = some args.length := by
    rw [arrayLen_eq hargs (by omega), zero_add]
  have henvc : arrayLen m envp (2 ^ 61) 0 = some envs.length := by
    rw [arrayLen_eq henvs (by omega), zero_add]
  have hsizeArgs : sizeLoop m argv args.length 0 0 = some (sizeOf args) := by
    rw [sizeLoop_eq hargs (by omega), zero_add]
  have hsizeEnvs : sizeLoop m envp envs.length 0 (sizeOf args) = some (sizeOf args + sizeOf envs) :=
    sizeLoop_eq henvs (by omega)
  constructor
  · simp only [execSetupUserStack, hargc, henvc, hsizeArgs, hsizeEnvs, bind_eq_bind,
      bind_some, if_true]
  obtain ⟨name, hname⟩ : ∃ name, sp + 8 + 8 * (args.length + 1) + 8 * (envs.length + 1) +
      16 * (p.auxv 0).length = name := ⟨_, rfl⟩
  have hframe4 : ∀ k, k < sp ∨ stackTop ≤ k →
      prepared m argv envp sp args.length envs.length p k = m k :=
    fun k hk => prepared_frame k (by omega)
  -- the strings of both lists are copied
  have hpos5 : sp + 8 + 8 * (0 + args.length) ≤ name + (platform.length + 1) := by omega
  obtain ⟨m5, hloop5, h5⟩ := copyLoop_spec (hargs.congr hframe4) (by omega) hpos5 (by omega) htop
  have hframe5 : ∀ k, k < sp ∨ stackTop ≤ k → m5 k = m k :=
    fun k hk => (h5.frame k (by omega) (by omega)).trans (hframe4 k hk)
  have hpos6 : sp + 8 + 8 * (args.length + 1) + 8 * (0 + envs.length) ≤
      name + (platform.length + 1) + sizeOf args := by omega
  obtain ⟨m6, hloop6, h6⟩ := copyLoop_spec (henvs.congr hframe5) (by omega) hpos6 (by omega) htop
  refine ⟨_, name, _, _, ?_, encodes_of_copied hname hsp.2 hsp.1 htop hargs henvs h5 h6⟩
  have htotal' : u64 (u64 ((p.auxv 0).length * 16) + u64 ((envs.length + 1) * 8) +
      u64 ((args.length + 1) * 8) + 8 + u64 (sizeOf args + sizeOf envs + (platform.length + 1))) =
      totalSize args envs p := by
    simp (disch := omega) only [u64_of_lt]
    omega
  have hpos : u64 (stackTop + 2 ^ 64 - totalSize args envs p) / 16 * 16 = sp := by
    rw [← hspEq, stackPtr, u64]
    omega
  simp only [execSetupUserStack, hargc, henvc, hsizeArgs, hsizeEnvs, bind_eq_bind,
    bind_some, Bool.true_eq_false, if_false, htotal', hpos]
  simp (disch := omega) only [u64_of_lt]
  simp only [prepared, hname] at hloop5
  rw [mul_comm _ 8, mul_comm _ 8, mul_comm _ 16, hname, hloop5]
  simp only [bind_some, hloop6]

/-- The arguments `a` and `bc` at `16`, and the variable `E=1` at `40`. -/
def twoArgs : Area := fun k =>
  ([(16, 64), (24, 72), (40, 80), (64, 0x61), (72, 0x62), (73, 0x63), (80, 0x45), (81, 0x3D),
    (82, 0x31)].lookup k).getD 0

theorem user_stack_two_args : ∃ m' name argPtrs envPtrs,
    execSetupUserStack twoArgs 4096 16 40 ⟨0, 0, 0, 0, 0, 0⟩ true = some (.ok 3888, m') ∧
      Encodes twoArgs m' 3888 4096 [[0x61], [0x62, 0x63]] [[0x45, 0x3D, 0x31]] ⟨0, 0, 0, 0, 0, 0⟩
        name argPtrs envPtrs := by
  have hsp : stackPtr 4096 [[0x61], [0x62, 0x63]] [[0x45, 0x3D, 0x31]]
      ⟨0, 0, 0, 0, 0, 0⟩ = 3888 := by
    decide
  have hroom : totalSize [[0x61], [0x62, 0x63]] [[0x45, 0x3D, 0x31]] ⟨0, 0, 0, 0, 0, 0⟩ ≤ 4096 := by
    decide
  have hargs : Listed twoArgs 3888 4096 16 [[0x61], [0x62, 0x63]] :=
    ⟨⟨by decide, .inl (by decide)⟩, ⟨⟨by decide, rfl, rfl⟩, .inl (by decide)⟩,
      ⟨by decide, .inl (by decide)⟩, ⟨⟨by decide, rfl, by decide, rfl, rfl⟩, .inl (by decide)⟩, rfl,
      .inl (by decide)⟩
  have henvs : Listed twoArgs 3888 4096 40 [[0x45, 0x3D, 0x31]] :=
    ⟨⟨by decide, .inl (by decide)⟩,
      ⟨⟨by decide, rfl, by decide, rfl, by decide, rfl, rfl⟩, .inl (by decide)⟩, rfl,
      .inl (by decide)⟩
  exact (user_stack_encodes ⟨0, 0, 0, 0, 0, 0⟩ hroom (by decide) hargs henvs).2

end ShiziOS.Loader
