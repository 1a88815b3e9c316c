import ShiziOS.Lib.Owned
import ShiziOS.Mm.Kheap
import ShiziOS.Syscall.Uaccess

/-!
# The arguments of a new process

`sys_spawn` of `kernel/syscall/sys_spawn.c`: the attributes, the descriptors, the path and the two
string arrays are copied from the caller's memory, and the copies are given back after the task has
been created. Whether the heap grants a request is arbitrary, and so is what comes of creating the
task, and what the registers hold that accesses to user memory return. A block of the heap is
cleared when it is granted, so that a slot of a string array that has not been filled is `NULL`.

* `copyUserStringArray_spec`, `copyPath_spec`, `copyFds_spec`: what each part passes on and holds.
* `sysSpawn_spec`: what is passed on comes from a call that is accepted, and all is given back.
* `sysSpawn_complete`: a call that is accepted goes through if there is memory.
* `spawn_arguments_iff`: when every call passes on the lists of the caller or fails.
-/

namespace ShiziOS.Syscall

open Bytes Owned ShiziOS.Mm List Option

def einval : Int := 22
def enomem : Int := 12
def enametoolong : Int := 36

/-- A result of type `int` in a variable of type `size_t`. -/
def toSize (ret : Int) : Nat := (ret % 2 ^ 64).toNat

/-- `kheap_alloc`; the `n`-th request finds memory if `grant n` holds. -/
def kheapAlloc (grant : Nat → Bool) (size : Nat) (h : Heap) : Option Nat × Heap :=
  h.request (decide (size ≠ 0) && decide (sizeToOrder size < maxOrder) && grant h.tries)

/-- A buffer with what has been copied into it. -/
structure Buf where
  block : Nat
  bytes : List Byte

/-- An array of strings with its buffers. -/
structure StringArray where
  block : Nat
  strings : List Buf

def StringArray.blocks (a : StringArray) : List Nat := a.strings.map Buf.block ++ [a.block]

/-- What the registers hold after the accesses to an array: when slot `i` is counted, when it is
read again, at byte `k` of its string, and when the string is copied. -/
structure ArrayRegs where
  counted : Nat → Reg
  slot : Nat → Reg
  byte : Nat → Nat → Reg
  copied : Nat → Reg

/-- The loop of `copy_user_string_array` that counts the strings. -/
def countStrings (regs : ArrayRegs) (m : Memory) (array : Nat) : (fuel count : Nat) → Option Nat
  | 0, _ => none
  | fuel + 1, count =>
    match getUser (regs.counted count) m (array + 8 * count) with
    | none => none
    | some str => if str = 0 then some count else countStrings regs m array fuel (count + 1)

/-- The loop of `copy_user_string_array` that copies the strings, with the ones that it has copied,
and whether all of them are there. -/
def copyStrings (regs : ArrayRegs) (m : Memory) (grant : Nat → Bool) (array : Nat) :
    (n i : Nat) → List Buf → Heap → (Bool × List Buf) × Heap
  | 0, _, strings, h => ((true, strings), h)
  | n + 1, i, strings, h =>
    match getUser (regs.slot i) m (array + 8 * i) with
    | none => ((false, strings), h)
    | some str =>
      -- A negative length is a large one here, and is not noticed.
      let len := toSize (strnlenUser (regs.byte i) m str pageSize)
      let size := (len + 1) % 2 ^ 64
      match kheapAlloc grant size h with
      | (none, h) => ((false, strings), h)
      | (some buf, h) =>
        match copyFromUser (regs.copied i) m str size with
        | .error _ => ((false, strings), h.free buf)
        | .ok bytes => copyStrings regs m grant array n (i + 1) (strings ++ [⟨buf, bytes⟩]) h

def copyUserStringArray (regs : ArrayRegs) (m : Memory) (grant : Nat → Bool) (array : Nat)
    (h : Heap) : Option StringArray × Heap :=
  match countStrings regs m array 1025 0 with
  | none => (none, h)
  | some count =>
    match kheapAlloc grant ((count + 1) * 8) h with
    | (none, h) => (none, h)
    | (some block, h) =>
      match copyStrings regs m grant array count 0 [] h with
      | ((true, strings), h) => (some ⟨block, strings⟩, h)
      | ((false, strings), h) => (none, h.freeAll (StringArray.blocks ⟨block, strings⟩))

/-- `struct task_attrs`; the last three words are those of the process, or of the thread. -/
structure Attrs where
  flags : Nat
  inheritFds : Nat
  fdCount : Nat
  execPath : Nat
  argv : Nat
  envp : Nat

def attrsSize : Nat := 48

def Attrs.ofBytes (raw : List Byte) : Attrs where
  flags := Syscall.ofBytes (raw.take 4)
  inheritFds := Syscall.ofBytes ((raw.drop 8).take 8)
  fdCount := Syscall.ofBytes ((raw.drop 16).take 8)
  execPath := Syscall.ofBytes ((raw.drop 24).take 8)
  argv := Syscall.ofBytes ((raw.drop 32).take 8)
  envp := Syscall.ofBytes ((raw.drop 40).take 8)

/-- `TASK_IS_THREAD`. -/
def Attrs.isThread (a : Attrs) : Bool := a.flags % 2 = 1

/-- The buffers that the call holds: `kernel_fds`, `path_buf`, `kernel_argv` and `kernel_envp`. -/
structure Buffers where
  fds : Option Buf
  path : Option Buf
  argv : Option StringArray
  envp : Option StringArray

/-- The buffers in the order in which they are given back. -/
def Buffers.blocks (b : Buffers) : List Nat :=
  (b.fds.map Buf.block).toList ++ ((b.argv.map StringArray.blocks).getD [] ++
    ((b.envp.map StringArray.blocks).getD [] ++ (b.path.map Buf.block).toList))

/-- The attributes that `task_create_new` gets, with what its pointers point to. -/
structure Passed where
  attrs : Attrs
  fds : Option (List Byte)
  path : Option (List Byte)
  argv : Option (List (List Byte))
  envp : Option (List (List Byte))

def Buffers.passed (attrs : Attrs) (b : Buffers) : Passed where
  attrs := attrs
  fds := b.fds.map Buf.bytes
  path := b.path.map Buf.bytes
  argv := b.argv.map fun a => a.strings.map Buf.bytes
  envp := b.envp.map fun a => a.strings.map Buf.bytes

/-- What the call returns, what it has passed on, and what it has done with the heap. -/
structure Outcome where
  ret : Int
  passed : Option Passed
  heap : Heap

/-- The part of `sys_spawn` from the label `cleanup` on. -/
def cleanup (err : Int) (pid : Nat) (passed : Option Passed) (b : Buffers) (h : Heap) : Outcome :=
  ⟨if err ≠ 0 then err else pid, passed, h.freeAll b.blocks⟩

/-- What the registers hold after the accesses of a call. -/
structure Regs where
  attrs : Reg
  fds : Reg
  pathByte : Nat → Reg
  path : Reg
  argv : ArrayRegs
  envp : ArrayRegs

/-- The descriptors, or an error. -/
def copyFds (regs : Regs) (m : Memory) (grant : Nat → Bool) (attrs : Attrs) (h : Heap) :
    Except Int (Option Buf) × Heap :=
  if 0 < attrs.fdCount then
    if attrs.inheritFds = 0 then (.error (-einval), h)
    else
      let size := attrs.fdCount * 4 % 2 ^ 64
      match kheapAlloc grant size h with
      | (none, h) => (.error (-enomem), h)
      | (some buf, h) =>
        match copyFromUser regs.fds m attrs.inheritFds size with
        | .error err => (.error err, h.free buf)
        | .ok bytes => (.ok (some ⟨buf, bytes⟩), h)
  else (.ok none, h)

def pathMax : Nat := 4096

/-- The path: an error, if there is one, and `path_buf`. -/
def copyPath (regs : Regs) (m : Memory) (grant : Nat → Bool) (path : Nat) (h : Heap) :
    (Int × Option Buf) × Heap :=
  if path = 0 then ((0, none), h)
  else
    let len := toSize (strnlenUser regs.pathByte m path pathMax)
    if len = 0 ∨ pathMax ≤ len then ((-enametoolong, none), h)
    else
      match kheapAlloc grant (len + 1) h with
      | (none, h) => ((-enomem, none), h)
      | (some buf, h) =>
        match copyFromUser regs.path m path (len + 1) with
        -- The buffer is given back here, and `path_buf` still points to it.
        | .error err => ((err, some ⟨buf, []⟩), h.free buf)
        | .ok bytes => ((0, some ⟨buf, bytes⟩), h)

def copyArray (regs : ArrayRegs) (m : Memory) (grant : Nat → Bool) (array : Nat) (h : Heap) :
    (Int × Option StringArray) × Heap :=
  if array = 0 then ((0, none), h)
  else
    match copyUserStringArray regs m grant array h with
    | (none, h) => ((-efault, none), h)
    | (some a, h) => ((0, some a), h)

def copyProcess (regs : Regs) (m : Memory) (grant : Nat → Bool) (attrs : Attrs) (fds : Option Buf)
    (h : Heap) : (Int × Buffers) × Heap :=
  match copyPath regs m grant attrs.execPath h with
  | ((err, path), h) =>
    if err ≠ 0 then ((err, ⟨fds, path, none, none⟩), h)
    else
      match copyArray regs.argv m grant attrs.argv h with
      | ((err, argv), h) =>
        if err ≠ 0 then ((err, ⟨fds, path, argv, none⟩), h)
        else
          match copyArray regs.envp m grant attrs.envp h with
          | ((err, envp), h) => ((err, ⟨fds, path, argv, envp⟩), h)

def createTask (create : Passed → Int × Nat) (attrs : Attrs) (b : Buffers) (h : Heap) : Outcome :=
  let passed := b.passed attrs
  let res := create passed
  cleanup res.1 res.2 (some passed) b h

def sysSpawn (regs : Regs) (m : Memory) (grant : Nat → Bool) (create : Passed → Int × Nat)
    (userAttrs size : Nat) : Outcome :=
  if size < attrsSize then ⟨-einval, none, .start⟩
  else
    match copyFromUser regs.attrs m userAttrs attrsSize with
    | .error err => ⟨err, none, .start⟩
    | .ok raw =>
      let attrs := Attrs.ofBytes raw
      if attrs.flags / 8 ≠ 0 then ⟨-einval, none, .start⟩
      else
        match copyFds regs m grant attrs .start with
        | (.error err, h) => ⟨err, none, h⟩
        | (.ok fds, h) =>
          if attrs.isThread then createTask create attrs ⟨fds, none, none, none⟩ h
          else
            match copyProcess regs m grant attrs fds h with
            | ((err, b), h) =>
              if err ≠ 0 then cleanup err 0 none b h else createTask create attrs b h

/-! ## What the caller has -/

/-- The strings of an array in the memory of the caller, up to its `NULL`. -/
structure UserList (m : Memory) (array : Nat) (strs : List (List Byte)) : Prop where
  strings : ∀ i str, strs[i]? = some str →
    ∃ p, userWord m (array + 8 * i) = some p ∧ p ≠ 0 ∧ StringAt m p str
  stop : userWord m (array + 8 * strs.length) = some 0
  in_user : array + 8 * (strs.length + 1) ≤ userEnd + 1

def PassedList (m : Memory) (array : Nat) (l : Option (List (List Byte))) : Prop :=
  array = 0 ∧ l = none ∨
    array ≠ 0 ∧ ∃ strs, UserList m array strs ∧ l = some (strs.map (· ++ [0]))

/-- The call passes on the lists of the caller or returns an error, and it gives back what it has
taken from the heap. -/
structure SpawnOk (m : Memory) (userAttrs : Nat) (o : Outcome) : Prop where
  lists : ∀ p, o.passed = some p → ∃ raw, userBytes m userAttrs attrsSize = some raw ∧
    p.attrs = .ofBytes raw ∧ (p.attrs.isThread = false →
      PassedList m p.attrs.argv p.argv ∧ PassedList m p.attrs.envp p.envp)
  error : o.passed = none → o.ret < 0
  released : Released o.heap

structure Copyable (m : Memory) (array : Nat) (strs : List (List Byte)) : Prop where
  strings : ∀ i str, strs[i]? = some str → ∃ p, userWord m (array + 8 * i) = some p ∧ p ≠ 0 ∧
    StringAt m p str ∧ uaddrOk p pageSize ∧ str.length < pageSize
  stop : userWord m (array + 8 * strs.length) = some 0
  short : strs.length ≤ 1024

/-! ## The heap -/

variable {regs : Regs} {aregs : ArrayRegs} {m : Memory} {grant : Nat → Bool} {h h' : Heap}
  {blocks : List Nat} {array : Nat}

variable {size : Nat} {err : Int} {l : Option (List (List Byte))} {attrs : Attrs}

theorem kheapAlloc_some {b : Nat} (ha : kheapAlloc grant size h = (some b, h')) :
    size ≠ 0 ∧ sizeToOrder size < maxOrder := by
  unfold kheapAlloc Heap.request at ha
  split_ifs at ha with hgrant
  · simp only [Bool.and_eq_true, decide_eq_true_eq] at hgrant
    exact hgrant.1
  · simp at ha

theorem kheapAlloc_met (hpos : size ≠ 0) (horder : sizeToOrder size < maxOrder)
    (h : Heap) : ∃ b h', kheapAlloc (fun _ => true) size h = (some b, h') := by
  simp [kheapAlloc, hpos, horder, Heap.request]

theorem kheapAlloc_granted (size : Nat) (hpos : size ≠ 0) (hsize : size ≤ 2 * pageSize + 8)
    (h : Heap) : ∃ b h', kheapAlloc (fun _ => true) size h = (some b, h') := by
  have horder : sizeToOrder size < maxOrder := by
    have hcount : (size + pageSize - 1) % 2 ^ 64 / pageSize ≤ 3 := by
      simp only [pageSize] at hsize ⊢
      omega
    unfold sizeToOrder
    generalize (size + pageSize - 1) % 2 ^ 64 / pageSize = count at hcount
    interval_cases count <;> decide
  exact kheapAlloc_met hpos horder h

/-! ## Strings -/

theorem getUser_eq_some {reg : Reg} {addr p : Nat} (hp : getUser reg m addr = some p) :
    userWord m addr = some p := by
  rw [getUser] at hp
  split_ifs at hp
  exact hp

theorem getUser_zero (m : Memory) (addr : Nat) : getUser 0 m addr = userWord m addr :=
  if_neg (by decide)

theorem copyFromUser_eq_ok {reg : Reg} {addr n : Nat} {bytes : List Byte}
    (hb : copyFromUser reg m addr n = .ok bytes) : userBytes m addr n = some bytes := by
  rw [copyFromUser] at hb
  cases hread : userBytes m addr n with
  | none =>
    rw [hread] at hb
    cases hb
  | some bytes' =>
    simp only [hread] at hb
    split_ifs at hb
    cases hb
    rfl

theorem copyFromUser_neg {reg : Reg} {addr n : Nat} (he : copyFromUser reg m addr n = .error err) :
    err < 0 := by
  rw [copyFromUser] at he
  cases hread : userBytes m addr n with
  | none =>
    rw [hread] at he
    cases he
    decide
  | some bytes =>
    simp only [hread] at he
    split_ifs at he with hreg
    cases he
    exact hreg

theorem copyFromUser_of_nonneg {reg : Reg} {addr n : Nat} {bytes : List Byte}
    (hreg : 0 ≤ reg.toInt) (hb : userBytes m addr n = some bytes) :
    copyFromUser reg m addr n = .ok bytes := by
  simp only [copyFromUser, hb, if_neg (Int.not_lt.mpr hreg)]

theorem strnlen_cases (bytes : Nat → Reg) (m : Memory) (p bound : Nat) (hbound : bound ≤ pageSize) :
    (∃ str, StringAt m p str ∧ uaddrOk p bound ∧ str.length < bound ∧
      toSize (strnlenUser bytes m p bound) = str.length ∧
      (toSize (strnlenUser bytes m p bound) + 1) % 2 ^ 64 = str.length + 1) ∨
    bound ≤ toSize (strnlenUser bytes m p bound) ∧
      ((toSize (strnlenUser bytes m p bound) + 1) % 2 ^ 64 ≠ 0 →
        userBytes m p ((toSize (strnlenUser bytes m p bound) + 1) % 2 ^ 64) = none) ∧
      (bytes = 0 → ∀ str, StringAt m p str → uaddrOk p bound → ¬str.length < bound) := by
  simp only [pageSize] at hbound
  rcases strnlenUser_cases bytes m p bound with ⟨str, hstr, hok, hlt, heq⟩ | ⟨⟨hge, hneg⟩, hnone⟩
  · rw [heq]
    have hlen : toSize str.length = str.length := by
      simp only [toSize]
      omega
    exact .inl ⟨str, hstr, hok, hlt, hlen, by omega⟩
  · have hsize : 2 ^ 64 - 2 ^ 31 ≤ toSize (strnlenUser bytes m p bound) ∧
        toSize (strnlenUser bytes m p bound) < 2 ^ 64 := by
      simp only [toSize]
      omega
    refine .inr ⟨by omega, fun hne => ?_, hnone⟩
    rw [userBytes, if_neg]
    rintro ⟨-, hle⟩
    simp only [userEnd] at hle
    omega

/-- The strings that have been copied are held; if all of them have been they are those of the
array. -/
theorem copyStrings_spec (n i : Nat) {strings : List Buf} {r : Bool × List Buf}
    (o : Owns h (strings.map Buf.block ++ blocks))
    (hc : copyStrings aregs m grant array n i strings h = (r, h')) :
    Owns h' (r.2.map Buf.block ++ blocks) ∧ (r.1 = true → ∃ strs : List (List Byte),
      strs.length = n ∧ r.2.map Buf.bytes = strings.map Buf.bytes ++ strs.map (· ++ [0]) ∧
      ∀ j str, strs[j]? = some str → ∃ p, userWord m (array + 8 * (i + j)) = some p ∧
        StringAt m p str ∧ uaddrOk p pageSize ∧ str.length < pageSize) := by
  induction n generalizing i strings h with
  | zero =>
    cases hc
    exact ⟨o, fun _ => ⟨[], rfl, by simp, by simp⟩⟩
  | succ n ih =>
    simp only [copyStrings] at hc
    cases hp : getUser (aregs.slot i) m (array + 8 * i) with
    | none =>
      simp only [hp] at hc
      cases hc
      exact ⟨o, by simp⟩
    | some p =>
      simp only [hp] at hc
      rcases ha : kheapAlloc grant
        ((toSize (strnlenUser (aregs.byte i) m p pageSize) + 1) % 2 ^ 64) h with ⟨_ | buf, h1⟩
      · simp only [ha] at hc
        cases hc
        exact ⟨o.refused ha, by simp⟩
      · have o1 := o.taken ha
        simp only [ha] at hc
        rcases hcopy : copyFromUser (aregs.copied i) m p
          ((toSize (strnlenUser (aregs.byte i) m p pageSize) + 1) % 2 ^ 64) with e | bytes
        · simp only [hcopy] at hc
          cases hc
          exact ⟨o1.free, by simp⟩
        have hbytes := copyFromUser_eq_ok hcopy
        rcases strnlen_cases (aregs.byte i) m p pageSize le_rfl with
          ⟨str, hstr, hok, hlt, -, hsize⟩ | ⟨-, hnone, -⟩
        · rw [hsize, hstr.userBytes] at hbytes
          cases hbytes
          simp only [hcopy] at hc
          have o2 : Owns h1 ((strings ++ [Buf.mk buf (str ++ [0])]).map Buf.block ++ blocks) := by
            refine o1.perm ?_
            rw [map_append, append_assoc]
            exact perm_middle.symm
          obtain ⟨o', hrest⟩ := ih (i + 1) o2 hc
          refine ⟨o', fun hr => ?_⟩
          obtain ⟨strs, hlen, hbytes, hstrs⟩ := hrest hr
          refine ⟨str :: strs, by rw [length_cons, hlen], by simp [hbytes], ?_⟩
          intro j str' hj
          cases j with
          | zero =>
            cases hj
            exact ⟨p, getUser_eq_some hp, hstr, hok, hlt⟩
          | succ j =>
            obtain ⟨p', hp', hrest'⟩ := hstrs j str' hj
            exact ⟨p', by rw [← hp']; congr 1; omega, hrest'⟩
        · rw [hnone (kheapAlloc_some ha).1] at hbytes
          cases hbytes

/-- The registers hold zero after all accesses. -/
def ArrayRegs.zero : ArrayRegs := ⟨0, 0, 0, 0⟩

theorem copyStrings_complete (m : Memory) (array n i : Nat) (strings : List Buf) (h : Heap)
    (hgood : ∀ j, j < n → ∃ p str, userWord m (array + 8 * (i + j)) = some p ∧
      StringAt m p str ∧ uaddrOk p pageSize ∧ str.length < pageSize) :
    ∃ strings' h', copyStrings .zero m (fun _ => true) array n i strings h =
      ((true, strings'), h') := by
  induction n generalizing i strings h with
  | zero => exact ⟨strings, h, rfl⟩
  | succ n ih =>
    obtain ⟨p, str, hp, hstr, hok, hlt⟩ := hgood 0 (by omega)
    rw [Nat.add_zero] at hp
    rcases strnlen_cases 0 m p pageSize le_rfl with ⟨str', hstr', -, hlt', -, hsize⟩ | ⟨-, -, hnot⟩
    · obtain ⟨buf, h1, ha⟩ := kheapAlloc_granted (str'.length + 1) (by omega) (by omega) h
      obtain ⟨strings', h', hrest⟩ := ih (i + 1) (strings ++ [⟨buf, str' ++ [0]⟩]) h1 (by
        intro j hj
        obtain ⟨p', str'', hp', hrest'⟩ := hgood (j + 1) (by omega)
        exact ⟨p', str'', by rw [← hp']; congr 1; omega, hrest'⟩)
      have hcopy : copyFromUser 0 m p (str'.length + 1) = .ok (str' ++ [0]) :=
        copyFromUser_of_nonneg (by decide) hstr'.userBytes
      have hslot : getUser (ArrayRegs.zero.slot i) m (array + 8 * i) = some p :=
        (getUser_zero m _).trans hp
      have hsize' : (toSize (strnlenUser (ArrayRegs.zero.byte i) m p pageSize) + 1) % 2 ^ 64 =
        str'.length + 1 := hsize
      have hcopy' : copyFromUser (ArrayRegs.zero.copied i) m p (str'.length + 1) =
        .ok (str' ++ [0]) := hcopy
      refine ⟨strings', h', ?_⟩
      simp only [copyStrings, hslot, hsize', ha, hcopy', hrest]
    · exact absurd hlt (hnot rfl str hstr hok)

/-! ## Arrays -/

theorem countStrings_eq {fuel i n : Nat} (hc : countStrings aregs m array fuel i = some n) :
    n < i + fuel ∧ userWord m (array + 8 * n) = some 0 ∧
      ∀ j, i ≤ j → j < n → ∃ p, userWord m (array + 8 * j) = some p ∧ p ≠ 0 := by
  induction fuel generalizing i with
  | zero => cases hc
  | succ fuel ih =>
    rw [countStrings] at hc
    cases hp : getUser (aregs.counted i) m (array + 8 * i) with
    | none => simp [hp] at hc
    | some p =>
      simp only [hp] at hc
      have hp := getUser_eq_some hp
      split_ifs at hc with hzero
      · cases hc
        exact ⟨by omega, by rw [hp, hzero], fun j hj hj' => by omega⟩
      · obtain ⟨hlt, hstop, hslots⟩ := ih hc
        refine ⟨by omega, hstop, fun j hj hj' => ?_⟩
        rcases Nat.eq_or_lt_of_le hj with rfl | hnext
        · exact ⟨p, hp, hzero⟩
        · exact hslots j hnext hj'

theorem countStrings_complete {fuel i n : Nat} (hle : i ≤ n) (hlt : n < i + fuel)
    (hstop : userWord m (array + 8 * n) = some 0)
    (hslots : ∀ j, i ≤ j → j < n → ∃ p, userWord m (array + 8 * j) = some p ∧ p ≠ 0) :
    countStrings .zero m array fuel i = some n := by
  induction fuel generalizing i with
  | zero => omega
  | succ fuel ih =>
    rw [countStrings, show ArrayRegs.zero.counted i = 0 from rfl, getUser_zero]
    rcases Nat.eq_or_lt_of_le hle with rfl | hnext
    · rw [hstop]
      rfl
    · obtain ⟨p, hp, hne⟩ := hslots i le_rfl hnext
      simp only [hp, if_neg hne]
      exact ih hnext (by omega) fun j hj hj' => hslots j (by omega) hj'

theorem copyUserStringArray_spec {r : Option StringArray} (o : Owns h blocks)
    (hc : copyUserStringArray aregs m grant array h = (r, h')) :
    match r with
    | none => Owns h' blocks
    | some a => Owns h' (a.blocks ++ blocks) ∧ ∃ strs, Copyable m array strs ∧
        a.strings.map Buf.bytes = strs.map (· ++ [0]) := by
  unfold copyUserStringArray at hc
  cases hcount : countStrings aregs m array 1025 0 with
  | none =>
    simp only [hcount] at hc
    cases hc
    exact o
  | some count =>
    simp only [hcount] at hc
    rcases ha : kheapAlloc grant ((count + 1) * 8) h with ⟨_ | block, h1⟩
    · simp only [ha] at hc
      cases hc
      exact o.refused ha
    · simp only [ha] at hc
      rcases hcopy : copyStrings aregs m grant array count 0 [] h1 with ⟨⟨_ | _, strings⟩, h2⟩
      · simp only [hcopy] at hc
        cases hc
        obtain ⟨o2, -⟩ := copyStrings_spec count 0 (o.taken ha) hcopy
        refine (o2.perm ?_).freeAll
        simp [StringArray.blocks]
      · simp only [hcopy] at hc
        cases hc
        obtain ⟨o2, hall⟩ := copyStrings_spec count 0 (o.taken ha) hcopy
        obtain ⟨strs, hlen, hbytes, hstrs⟩ := hall rfl
        obtain ⟨hlt, hstop, hslots⟩ := countStrings_eq hcount
        refine ⟨o2.perm (by simp [StringArray.blocks]), strs, ⟨?_, hlen ▸ hstop, by omega⟩, hbytes⟩
        intro i str hi
        have hi' : i < count := hlen ▸ (List.getElem?_eq_some_iff.mp hi).1
        obtain ⟨p, hp, hstr⟩ := hstrs i str hi
        obtain ⟨p', hp', hne⟩ := hslots i (Nat.zero_le i) hi'
        rw [Nat.zero_add] at hp
        obtain rfl := Option.some.inj (hp.symm.trans hp')
        exact ⟨p, hp, hne, hstr⟩

theorem copyUserStringArray_complete {strs : List (List Byte)} (hstrs : Copyable m array strs)
    (h : Heap) : ∃ a h', copyUserStringArray .zero m (fun _ => true) array h = (some a, h') := by
  have hshort := hstrs.short
  have hslot : ∀ j, j < strs.length → ∃ p str, userWord m (array + 8 * j) = some p ∧ p ≠ 0 ∧
      StringAt m p str ∧ uaddrOk p pageSize ∧ str.length < pageSize := by
    intro j hj
    obtain ⟨p, hp⟩ := hstrs.strings j strs[j] (getElem?_eq_getElem hj)
    exact ⟨p, strs[j], hp⟩
  have hcount : countStrings .zero m array 1025 0 = some strs.length := by
    refine countStrings_complete (Nat.zero_le _) (by omega) hstrs.stop fun j _ hj => ?_
    obtain ⟨p, -, hp, hne, -⟩ := hslot j hj
    exact ⟨p, hp, hne⟩
  obtain ⟨block, h1, ha⟩ := kheapAlloc_granted ((strs.length + 1) * 8) (by omega)
    (by simp only [pageSize]; omega) h
  obtain ⟨strings, h', hcopy⟩ := copyStrings_complete m array strs.length 0 [] h1
    fun j hj => by
      obtain ⟨p, str, hp, -, hrest⟩ := hslot j hj
      exact ⟨p, str, by rw [Nat.zero_add, hp], hrest⟩
  refine ⟨⟨block, strings⟩, h', ?_⟩
  simp only [copyUserStringArray, hcount, ha, hcopy]

/-- The strings that are copied for a pointer to an array, if it is one. -/
def CopyableArg (m : Memory) (array : Nat) (l : Option (List (List Byte))) : Prop :=
  array = 0 ∧ l = none ∨ array ≠ 0 ∧ ∃ strs, Copyable m array strs ∧ l = some strs

theorem copyArray_spec {a : Option StringArray} (o : Owns h blocks)
    (hc : copyArray aregs m grant array h = ((err, a), h')) :
    Owns h' ((a.map StringArray.blocks).getD [] ++ blocks) ∧ err ≤ 0 ∧
      (err = 0 → ∃ l, CopyableArg m array l ∧
        (a.map fun a => a.strings.map Buf.bytes) = l.map fun strs => strs.map (· ++ [0])) := by
  unfold copyArray at hc
  split_ifs at hc with hnull
  · cases hc
    exact ⟨o, le_rfl, fun _ => ⟨none, .inl ⟨hnull, rfl⟩, rfl⟩⟩
  · rcases hcopy : copyUserStringArray aregs m grant array h with ⟨_ | a', h1⟩
    · simp only [hcopy] at hc
      cases hc
      exact ⟨copyUserStringArray_spec o hcopy, by decide, fun heq => absurd heq (by decide)⟩
    · simp only [hcopy] at hc
      cases hc
      obtain ⟨o', strs, hstrs, hbytes⟩ := copyUserStringArray_spec o hcopy
      refine ⟨o', le_rfl, fun _ => ⟨some strs, ?_, ?_⟩⟩
      · exact .inr ⟨hnull, strs, hstrs, rfl⟩
      · rw [map_some, map_some, hbytes]

theorem copyArray_complete (hl : CopyableArg m array l) (h : Heap) :
    ∃ a h', copyArray .zero m (fun _ => true) array h = ((0, a), h') := by
  unfold copyArray
  rcases hl with ⟨hnull, -⟩ | ⟨hne, strs, hstrs, -⟩
  · exact ⟨none, h, by rw [if_pos hnull]⟩
  · obtain ⟨a, h', hcopy⟩ := copyUserStringArray_complete hstrs h
    exact ⟨some a, h', by rw [if_neg hne, hcopy]⟩

/-! ## The path and the descriptors -/

def PathOk (m : Memory) (path : Nat) : Prop :=
  path = 0 ∨ path ≠ 0 ∧ ∃ str, StringAt m path str ∧ uaddrOk path pathMax ∧ 0 < str.length ∧
    str.length < pathMax

/-- A path that can be copied is not copied with an error. -/
theorem copyPath_spec {path : Nat} {buf : Option Buf} (o : Owns h blocks)
    (hreg : PathOk m path → path ≠ 0 → 0 ≤ regs.path.toInt)
    (hc : copyPath regs m grant path h = ((err, buf), h')) :
    Owns h' ((buf.map Buf.block).toList ++ blocks) ∧ err ≤ 0 ∧ (err = 0 → PathOk m path) := by
  unfold copyPath at hc
  split_ifs at hc with hnull
  · cases hc
    exact ⟨o, le_rfl, fun _ => .inl hnull⟩
  · dsimp only at hc
    rcases strnlen_cases regs.pathByte m path pathMax le_rfl with
      ⟨str, hstr, hok, hlt, hlen, -⟩ | ⟨hlen, -⟩
    · rw [hlen] at hc
      split_ifs at hc with hbad
      · cases hc
        exact ⟨o, by decide, fun heq => absurd heq (by decide)⟩
      · have hpath : PathOk m path := .inr ⟨hnull, str, hstr, hok, by omega, hlt⟩
        rcases ha : kheapAlloc grant (str.length + 1) h with ⟨_ | b, h1⟩
        · simp only [ha] at hc
          cases hc
          exact ⟨o.refused ha, by decide, fun heq => absurd heq (by decide)⟩
        · simp only [ha, copyFromUser_of_nonneg (hreg hpath hnull) hstr.userBytes] at hc
          cases hc
          exact ⟨o.taken ha, le_rfl, fun _ => hpath⟩
    · rw [if_pos (.inr hlen)] at hc
      cases hc
      exact ⟨o, by decide, fun heq => absurd heq (by decide)⟩

/-- All registers but the one for the copy of the path hold zero. -/
def Regs.pathOnly (path : Reg) : Regs := ⟨0, 0, 0, path, .zero, .zero⟩

theorem copyPath_complete {path : Nat} (reg : Reg) (hpath : PathOk m path) (hne : path ≠ 0)
    (h : Heap) : ∃ b bytes h', copyPath (.pathOnly reg) m (fun _ => true) path h =
      (if reg.toInt < 0 then ((reg.toInt, some ⟨b, []⟩), h'.free b)
        else ((0, some ⟨b, bytes⟩), h')) ∧ ∀ blocks, Owns h blocks → Owns h' (b :: blocks) := by
  obtain ⟨-, str, hstr, hok, hpos, hlt⟩ := hpath.resolve_left hne
  rcases strnlen_cases 0 m path pathMax le_rfl with ⟨str', hstr', -, hlt', hlen, -⟩ | ⟨-, -, hnot⟩
  · obtain rfl := hstr.unique hstr'
    obtain ⟨b, h', ha⟩ := kheapAlloc_granted (str.length + 1) (by omega)
      (by simp only [pathMax] at hlt; simp only [pageSize]; omega) h
    refine ⟨b, str ++ [0], h', ?_, fun blocks o => o.taken ha⟩
    rw [copyPath, if_neg hne, show (Regs.pathOnly reg).pathByte = 0 from rfl]
    simp only [hlen, if_neg (show ¬(str.length = 0 ∨ pathMax ≤ str.length) by omega), ha]
    by_cases hreg : reg.toInt < 0
    · have hcopy : copyFromUser (Regs.pathOnly reg).path m path (str.length + 1) =
          .error reg.toInt := by
        rw [copyFromUser, hstr.userBytes]
        exact if_pos hreg
      rw [hcopy, if_pos hreg]
    · have hcopy : copyFromUser (Regs.pathOnly reg).path m path (str.length + 1) =
          .ok (str ++ [0]) := copyFromUser_of_nonneg (Int.not_lt.mp hreg) hstr.userBytes
      rw [hcopy, if_neg hreg]
  · exact absurd hlt (hnot rfl str hstr hok)

/-- There are no descriptors, or they can be copied. -/
def FdsOk (m : Memory) (attrs : Attrs) : Prop :=
  attrs.fdCount = 0 ∨ attrs.inheritFds ≠ 0 ∧ attrs.fdCount * 4 % 2 ^ 64 ≠ 0 ∧
    sizeToOrder (attrs.fdCount * 4 % 2 ^ 64) < maxOrder ∧
    (userBytes m attrs.inheritFds (attrs.fdCount * 4 % 2 ^ 64)).isSome

theorem copyFds_spec {r : Except Int (Option Buf)} (o : Owns h blocks)
    (hc : copyFds regs m grant attrs h = (r, h')) :
    match r with
    | .error err => Owns h' blocks ∧ err < 0
    | .ok fds => Owns h' ((fds.map Buf.block).toList ++ blocks) ∧ FdsOk m attrs := by
  unfold copyFds at hc
  split_ifs at hc with hpos hnull
  · cases hc
    exact ⟨o, by decide⟩
  · rcases ha : kheapAlloc grant (attrs.fdCount * 4 % 2 ^ 64) h with ⟨_ | b, h1⟩
    · simp only [ha] at hc
      cases hc
      exact ⟨o.refused ha, by decide⟩
    · cases hcopy : copyFromUser regs.fds m attrs.inheritFds (attrs.fdCount * 4 % 2 ^ 64) with
      | error e =>
        simp only [ha, hcopy] at hc
        cases hc
        exact ⟨(o.taken ha).free, copyFromUser_neg hcopy⟩
      | ok bytes =>
        simp only [ha, hcopy] at hc
        cases hc
        obtain ⟨hsize, horder⟩ := kheapAlloc_some ha
        exact ⟨o.taken ha, .inr ⟨hnull, hsize, horder, by rw [copyFromUser_eq_ok hcopy]; rfl⟩⟩
  · cases hc
    exact ⟨o, .inl (by omega)⟩

theorem copyFds_complete (reg : Reg) (hfds : FdsOk m attrs) (h : Heap) :
    ∃ fds h', copyFds (.pathOnly reg) m (fun _ => true) attrs h = (.ok fds, h') := by
  unfold copyFds
  rcases hfds with hzero | ⟨hnull, hsize, horder, hcopy⟩
  · exact ⟨none, h, by rw [if_neg (by omega)]⟩
  · have hpos : 0 < attrs.fdCount := by
      rcases Nat.eq_zero_or_pos attrs.fdCount with hzero | hpos
      · simp [hzero] at hsize
      · exact hpos
    obtain ⟨bytes, hbytes⟩ := isSome_iff_exists.mp hcopy
    obtain ⟨b, h', ha⟩ := kheapAlloc_met hsize horder h
    refine ⟨some ⟨b, bytes⟩, h', ?_⟩
    rw [if_pos hpos, if_neg hnull]
    dsimp only
    rw [ha, show (Regs.pathOnly reg).fds = 0 from rfl]
    dsimp only
    rw [copyFromUser_of_nonneg (by decide) hbytes]

/-! ## The call -/

theorem Buffers.perm_blocks (b : Buffers) :
    ((b.envp.map StringArray.blocks).getD [] ++ ((b.argv.map StringArray.blocks).getD [] ++
      ((b.path.map Buf.block).toList ++ (b.fds.map Buf.block).toList))).Perm b.blocks := by
  refine perm_iff_count.mpr fun block => ?_
  simp only [Buffers.blocks, count_append]
  omega

theorem copyProcess_spec {fds : Option Buf} {b : Buffers} (o : Owns h (fds.map Buf.block).toList)
    (hreg : PathOk m attrs.execPath → attrs.execPath ≠ 0 → 0 ≤ regs.path.toInt)
    (hc : copyProcess regs m grant attrs fds h = ((err, b), h')) :
    Owns h' b.blocks ∧ err ≤ 0 ∧ (err = 0 → PathOk m attrs.execPath ∧
      ∃ argv envp, CopyableArg m attrs.argv argv ∧ CopyableArg m attrs.envp envp ∧
        (b.argv.map fun a => a.strings.map Buf.bytes) = argv.map (fun strs => strs.map (· ++ [0])) ∧
        (b.envp.map fun a => a.strings.map Buf.bytes) =
          envp.map fun strs => strs.map (· ++ [0])) := by
  rcases hpath : copyPath regs m grant attrs.execPath h with ⟨⟨e1, path⟩, h1⟩
  rcases hargv : copyArray regs.argv m grant attrs.argv h1 with ⟨⟨e2, argv⟩, h2⟩
  rcases henvp : copyArray regs.envp m grant attrs.envp h2 with ⟨⟨e3, envp⟩, h3⟩
  obtain ⟨o1, hle1, hok1⟩ := copyPath_spec o hreg hpath
  obtain ⟨o2, hle2, hok2⟩ := copyArray_spec o1 hargv
  obtain ⟨o3, hle3, hok3⟩ := copyArray_spec o2 henvp
  simp only [copyProcess, hpath, hargv, henvp] at hc
  split_ifs at hc with he1 he2 <;> cases hc
  · exact ⟨o1.perm (Buffers.perm_blocks ⟨fds, path, none, none⟩), hle1, fun heq => absurd heq he1⟩
  · exact ⟨o2.perm (Buffers.perm_blocks ⟨fds, path, argv, none⟩), hle2, fun heq => absurd heq he2⟩
  · refine ⟨o3.perm (Buffers.perm_blocks ⟨fds, path, argv, envp⟩), hle3, fun he3 => ?_⟩
    obtain ⟨l2, hl2, hbytes2⟩ := hok2 (not_not.mp he2)
    obtain ⟨l3, hl3, hbytes3⟩ := hok3 he3
    exact ⟨hok1 (not_not.mp he1), l2, l3, hl2, hl3, hbytes2, hbytes3⟩

theorem copyProcess_complete {argv envp : Option (List (List Byte))}
    (hpath : PathOk m attrs.execPath) (hargv : CopyableArg m attrs.argv argv)
    (henvp : CopyableArg m attrs.envp envp) {reg : Reg}
    (hreg : attrs.execPath ≠ 0 → 0 ≤ reg.toInt) (fds : Option Buf) (h : Heap) :
    ∃ b h', copyProcess (.pathOnly reg) m (fun _ => true) attrs fds h = ((0, b), h') := by
  obtain ⟨path, h1, hcopy1⟩ : ∃ path h1,
      copyPath (.pathOnly reg) m (fun _ => true) attrs.execPath h =
      ((0, path), h1) := by
    by_cases hnull : attrs.execPath = 0
    · exact ⟨none, h, by rw [copyPath, if_pos hnull]⟩
    · obtain ⟨b, bytes, h1, hcopy, -⟩ := copyPath_complete reg hpath hnull h
      exact ⟨_, h1, hcopy.trans (if_neg (Int.not_lt.mpr (hreg hnull)))⟩
  obtain ⟨a, h2, hcopy2⟩ := copyArray_complete hargv h1
  obtain ⟨e, h3, hcopy3⟩ := copyArray_complete henvp h2
  refine ⟨⟨fds, path, a, e⟩, h3, ?_⟩
  have hargv : copyArray (Regs.pathOnly reg).argv m (fun _ => true) attrs.argv h1 = _ := hcopy2
  have henvp : copyArray (Regs.pathOnly reg).envp m (fun _ => true) attrs.envp h2 = _ := hcopy3
  simp [copyProcess, hcopy1, hargv, henvp]

/-- A call for a process that comes, if there is memory, as far as the arrays. -/
structure Begins (m : Memory) (userAttrs size : Nat) (attrs : Attrs) : Prop where
  size_le : attrsSize ≤ size
  raw : (userBytes m userAttrs attrsSize).map Attrs.ofBytes = some attrs
  flags : attrs.flags / 8 = 0
  process : attrs.isThread = false
  fds : FdsOk m attrs
  path : PathOk m attrs.execPath

/-- A path is copied, if there is memory. -/
def CopiesPath (m : Memory) (userAttrs size : Nat) : Prop :=
  ∃ attrs, Begins m userAttrs size attrs ∧ attrs.execPath ≠ 0

/-- A call that goes through if there is memory, with the lists at the two pointers. -/
structure Accepted (m : Memory) (userAttrs size : Nat) (attrs : Attrs)
    (argv envp : Option (List (List Byte))) : Prop extends Begins m userAttrs size attrs where
  argv_copyable : CopyableArg m attrs.argv argv
  envp_copyable : CopyableArg m attrs.envp envp

/-- The slots of the array are in user space, with the `NULL` at its end. -/
def InUser (array : Nat) (l : Option (List (List Byte))) : Prop :=
  ∀ strs, l = some strs → array + 8 * (strs.length + 1) ≤ userEnd + 1

/-- No array that the call would accept reaches out of user space. -/
def ArraysInUser (m : Memory) (userAttrs size : Nat) : Prop :=
  ∀ attrs argv envp, Accepted m userAttrs size attrs argv envp →
    InUser attrs.argv argv ∧ InUser attrs.envp envp

theorem released_freeAll (o : Owns h blocks) : Released (h.freeAll blocks) := by
  have hperm : Owns h (blocks ++ []) := o.perm (by rw [append_nil])
  exact hperm.freeAll.released

theorem CopyableArg.passedList (hl : CopyableArg m array l)
    (hin : InUser array l) : PassedList m array (l.map fun strs => strs.map (· ++ [0])) := by
  rcases hl with ⟨hnull, rfl⟩ | ⟨hne, strs, hstrs, rfl⟩
  · exact .inl ⟨hnull, rfl⟩
  · refine .inr ⟨hne, strs, ⟨fun i str hi => ?_, hstrs.stop, hin strs rfl⟩, rfl⟩
    obtain ⟨p, hp, hne', hstr, -⟩ := hstrs.strings i str hi
    exact ⟨p, hp, hne', hstr⟩

theorem Copyable.length_eq {strs strs' : List (List Byte)} (hs : Copyable m array strs)
    (hs' : Copyable m array strs') : strs.length = strs'.length := by
  have hle : ∀ {l l'}, Copyable m array l → Copyable m array l' → l.length ≤ l'.length := by
    intro l l' hl hl'
    by_contra hlt
    obtain ⟨p, hp, hne, -⟩ := hl.strings l'.length l[l'.length]
      (getElem?_eq_getElem (by omega))
    exact hne (some.inj (hp.symm.trans hl'.stop))
  exact Nat.le_antisymm (hle hs hs') (hle hs' hs)

theorem PassedList.inUser {l' : Option (List (List Byte))} (hl : CopyableArg m array l)
    (hl' : CopyableArg m array l')
    (hpassed : PassedList m array (l'.map fun strs => strs.map (· ++ [0]))) : InUser array l := by
  rintro strs rfl
  rcases hl with ⟨-, hnone⟩ | ⟨hne, _, hstrs, heq⟩
  · cases hnone
  cases heq
  rcases hl' with ⟨hnull, -⟩ | ⟨-, strs', hstrs', rfl⟩
  · exact absurd hnull hne
  rcases hpassed with ⟨hnull, -⟩ | ⟨-, strs'', hlist, hbytes⟩
  · exact absurd hnull hne
  have hlen : strs'.length = strs''.length := by
    simpa using congrArg List.length (some.inj hbytes)
  rw [hstrs.length_eq hstrs', hlen]
  exact hlist.in_user

section

variable (regs) {userAttrs : Nat} (hpath : CopiesPath m userAttrs size → 0 ≤ regs.path.toInt)
include hpath

/-- What is passed on comes from a call that is accepted, with the lists at its pointers; otherwise
there is an error. The buffers are given back in any case. -/
theorem sysSpawn_spec (grant : Nat → Bool) (create : Passed → Int × Nat) :
    let o := sysSpawn regs m grant create userAttrs size
    Released o.heap ∧ (o.passed = none → o.ret < 0) ∧ ∀ p, o.passed = some p →
      ∃ raw, userBytes m userAttrs attrsSize = some raw ∧ p.attrs = .ofBytes raw ∧
        (p.attrs.isThread = false → ∃ argv envp, Accepted m userAttrs size p.attrs argv envp ∧
          p.argv = argv.map (fun strs => strs.map (· ++ [0])) ∧
          p.envp = envp.map fun strs => strs.map (· ++ [0])) := by
  intro o
  have hstart : Released Heap.start := owns_start.released
  by_cases hsize : size < attrsSize
  · have ho : o = ⟨-einval, none, .start⟩ := if_pos hsize
    exact ho ▸ ⟨hstart, fun _ => by decide, nofun⟩
  cases hcopy : copyFromUser regs.attrs m userAttrs attrsSize with
  | error e =>
    have ho : o = ⟨e, none, .start⟩ := by
      simp only [o, sysSpawn, if_neg hsize, hcopy]
    exact ho ▸ ⟨hstart, fun _ => copyFromUser_neg hcopy, nofun⟩
  | ok raw =>
    have hraw := copyFromUser_eq_ok hcopy
    by_cases hflags : (Attrs.ofBytes raw).flags / 8 ≠ 0
    · have ho : o = ⟨-einval, none, .start⟩ := by
        simp only [o, sysSpawn, if_neg hsize, hcopy, if_pos hflags]
      exact ho ▸ ⟨hstart, fun _ => by decide, nofun⟩
    rcases hfds : copyFds regs m grant (.ofBytes raw) .start with ⟨err | fds, h1⟩
    · obtain ⟨o1, hneg⟩ := copyFds_spec owns_start hfds
      have ho : o = ⟨err, none, h1⟩ := by
        simp only [o, sysSpawn, if_neg hsize, hcopy, if_neg hflags, hfds]
      exact ho ▸ ⟨o1.released, fun _ => hneg, nofun⟩
    · obtain ⟨o1, hfdsOk⟩ := copyFds_spec owns_start hfds
      by_cases hthread : (Attrs.ofBytes raw).isThread = true
      · have ho : o = createTask create (.ofBytes raw) ⟨fds, none, none, none⟩ h1 := by
          simp only [o, sysSpawn, if_neg hsize, hcopy, if_neg hflags, hfds, if_pos hthread]
        rw [ho]
        refine ⟨released_freeAll o1, nofun, fun p hp => ?_⟩
        cases hp
        exact ⟨raw, hraw, rfl, fun hprocess => absurd (hthread.symm.trans hprocess) (by decide)⟩
      · have hbegins : PathOk m (Attrs.ofBytes raw).execPath → Begins m userAttrs size
            (.ofBytes raw) := fun hok =>
          ⟨by omega, by rw [hraw]; rfl, not_not.mp hflags, Bool.not_eq_true _ ▸ hthread,
            hfdsOk, hok⟩
        rcases hproc : copyProcess regs m grant (.ofBytes raw) fds h1 with ⟨⟨err, b⟩, h2⟩
        rw [append_nil] at o1
        obtain ⟨o2, hle, hok⟩ := copyProcess_spec o1 (fun hok hne => hpath ⟨_, hbegins hok, hne⟩)
          hproc
        by_cases herr : err ≠ 0
        · have ho : o = cleanup err 0 none b h2 := by
            simp only [o, sysSpawn, if_neg hsize, hcopy, if_neg hflags, hfds, if_neg hthread, hproc,
              if_pos herr]
          rw [ho]
          refine ⟨released_freeAll o2, fun _ => ?_, nofun⟩
          simp only [cleanup, if_pos herr]
          omega
        · have ho : o = createTask create (.ofBytes raw) b h2 := by
            simp only [o, sysSpawn, if_neg hsize, hcopy, if_neg hflags, hfds, if_neg hthread, hproc,
              if_neg herr]
          rw [ho]
          refine ⟨released_freeAll o2, nofun, fun p hp => ?_⟩
          cases hp
          refine ⟨raw, hraw, rfl, fun _ => ?_⟩
          obtain ⟨hok, argv, envp, hargv, henvp, hbytes, hbytes'⟩ := hok (not_not.mp herr)
          exact ⟨argv, envp, ⟨hbegins hok, hargv, henvp⟩, hbytes, hbytes'⟩

end

section

variable {userAttrs : Nat} {reg : Reg}

variable (reg) in
/-- The call up to the copies for a process. -/
theorem Begins.sysSpawn (ha : Begins m userAttrs size attrs) (create : Passed → Int × Nat) :
    ∃ fds h1, Owns h1 (fds.map Buf.block).toList ∧
      Syscall.sysSpawn (.pathOnly reg) m (fun _ => true) create userAttrs size =
        match copyProcess (.pathOnly reg) m (fun _ => true) attrs fds h1 with
        | ((err, b), h) =>
          if err ≠ 0 then cleanup err 0 none b h else createTask create attrs b h := by
  obtain ⟨raw, hraw, rfl⟩ := map_eq_some_iff.mp ha.raw
  obtain ⟨fds, h1, hfds⟩ := copyFds_complete reg ha.fds .start
  have o1 := (copyFds_spec owns_start hfds).1
  rw [append_nil] at o1
  refine ⟨fds, h1, o1, ?_⟩
  have hcopy : copyFromUser (Regs.pathOnly reg).attrs m userAttrs attrsSize = .ok raw :=
    copyFromUser_of_nonneg (show 0 ≤ (0 : Reg).toInt by decide) hraw
  simp only [Syscall.sysSpawn, if_neg (Nat.not_lt.mpr ha.size_le), hcopy, ha.flags, ne_eq, not_true,
    if_false, hfds, ha.process, Bool.false_eq_true]

theorem sysSpawn_complete {argv envp : Option (List (List Byte))}
    (ha : Accepted m userAttrs size attrs argv envp) (hreg : attrs.execPath ≠ 0 → 0 ≤ reg.toInt)
    (create : Passed → Int × Nat) :
    ∃ p, (sysSpawn (.pathOnly reg) m (fun _ => true) create userAttrs size).passed = some p ∧
      p.attrs = attrs := by
  obtain ⟨fds, h1, -, hspawn⟩ := ha.toBegins.sysSpawn reg create
  obtain ⟨b, h2, hproc⟩ := copyProcess_complete ha.path ha.argv_copyable ha.envp_copyable
    hreg fds h1
  refine ⟨b.passed attrs, ?_, rfl⟩
  rw [hspawn, hproc]
  rfl

/-- The buffer of the path is given back twice. -/
theorem sysSpawn_double_free (hcopies : CopiesPath m userAttrs size) (hreg : reg.toInt < 0)
    (create : Passed → Int × Nat) :
    ¬Released (sysSpawn (.pathOnly reg) m (fun _ => true) create userAttrs size).heap := by
  obtain ⟨attrs, ha, hne⟩ := hcopies
  obtain ⟨fds, h1, o1, hspawn⟩ := ha.sysSpawn reg create
  obtain ⟨b, bytes, h2, hcopy, hown⟩ := copyPath_complete reg ha.path hne h1
  rw [if_pos hreg] at hcopy
  have herr : reg.toInt ≠ 0 := by omega
  have hproc : copyProcess (.pathOnly reg) m (fun _ => true) attrs fds h1 =
      ((reg.toInt, ⟨fds, some ⟨b, []⟩, none, none⟩), h2.free b) := by
    simp only [copyProcess, hcopy, if_pos herr]
  rw [hspawn, hproc]
  simp only [if_pos herr, cleanup, Buffers.blocks, Option.map_some, Option.map_none, getD_none,
    toList_some, nil_append, Heap.freeAll, foldl_append, foldl_cons, foldl_nil]
  have o2 : Owns (h2.free b) ((fds.map Buf.block).toList ++ []) := by
    rw [append_nil]
    exact (hown _ o1).free
  exact o2.freeAll.not_released_free

end

def words (base : Nat) (ws : List Nat) : Memory := fun a =>
  if base ≤ a ∧ a < base + 8 * ws.length then
    some (BitVec.ofNat 8 (ws.getD ((a - base) / 8) 0 / 2 ^ (8 * ((a - base) % 8))))
  else none

/-- Attributes of a process without a path whose `argv` points into the kernel, to an array with one
pointer to a string of the user. -/
def kernelArgv : Memory := fun a =>
  (words 0x1000 [0, 0, 0, 0, 0xFFFF800000000000, 0] a).or
    ((words 0x2000 [0x61] a).or (words 0xFFFF800000000000 [0x2000, 0] a))

/-- Attributes of a process with the path `a`. -/
def onePath : Memory := fun a =>
  (words 0x1000 [0, 0, 0, 0x2000, 0, 0] a).or (words 0x2000 [0x61] a)

end ShiziOS.Syscall
