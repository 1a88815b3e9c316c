import ShiziOS.Util.Dynarr

/-!
# The file descriptors of a task

`kernel/task/files.c` over the arrays of `include/dynarr.h`. A table should map descriptors to
files. But `dynarr_get` returns the address of a slot, which is never null for a descriptor below
the count, and the callers take it for the file; `dynarr_set` copies what its pointer points at,
the first bytes of the file, and like `dynarr_append` refuses a null pointer. So no descriptor is
ever given out, and no file that is installed is found again.

Calls run one after the other; a lock that one call takes twice never comes free. The `release`
operation of a file is left out.
-/

namespace ShiziOS.Task

open Bytes Exec Util List Option Function

/-! ## State -/

def maxFd : Nat := 1024

inductive Errno where
  | ebadf | enomem | ebusy | einval | emfile
deriving DecidableEq, Repr

/-- `struct file`: its reference count, and its bytes as far as they are read here. -/
structure File where
  count : Nat
  bytes : Area

/-- The tables of descriptors, and the files by their addresses. -/
structure Files where
  tables : List Dynarr
  files : Nat → Option File

abbrev F := Exec Files

def tableAt (t : Nat) : F Dynarr := do ofOption (← get).tables[t]?

/-- A call on the array of a table. -/
def onTable {α : Type} (t : Nat) (x : D α) : F α := do
  let r ← ofOption (x (← tableAt t))
  modify fun s => { s with tables := s.tables.set t r.2 }
  pure r.1

/-- The table whose buffer has the `n` bytes from `p` on. -/
def Files.bufferOf (s : Files) (p n : Nat) : Option Nat :=
  s.tables.findIdx? fun d => decide (d.arr.addr ≤ p ∧ p + n ≤ d.arr.addr + d.arr.size)

/-- The bytes behind a pointer to a file or into a buffer. -/
def Files.bytesAt (s : Files) (p : Nat) : Option Area :=
  match s.files p with
  | some f => some f.bytes
  | none => do
    let d ← s.tables[← s.bufferOf p 8]?
    pure (d.arr.bytes.drop (p - d.arr.addr))

/-- `vfs_file_get`. Behind a pointer into a buffer it changes the four bytes where a file would
have its count. -/
def vfsFileGet (p : Nat) : F Unit := do
  let s ← get
  match s.files p with
  | some f =>
    set { s with files := update s.files p (some { f with count := (f.count + 1) % 2 ^ 32 }) }
  | none => do
    let t ← ofOption (s.bufferOf (p + 32) 4)
    onTable t (modify fun d =>
      let off := p + 32 - d.arr.addr
      let count := (d.arr.bytes.load32 off + 1) % 2 ^ 32
      { d with arr := { d.arr with bytes := d.arr.bytes.store32 off count } })

/-- `vfs_close`. A pointer to something else has no operations to call. -/
def vfsClose (p : Nat) : F Unit := do
  let s ← get
  let f ← ofOption (s.files p)
  let rest := if f.count = 1 then none else some { f with count := (f.count + 2 ^ 32 - 1) % 2 ^ 32 }
  set { s with files := update s.files p rest }

/-! ## The functions -/

/-- `task_files_alloc_fd`; `out` says that `out_fd` is not null. -/
def taskFilesAllocFd (heap : Heap) (fdt : Option Nat) (out : Bool) : F (Except Errno Nat) := do
  match fdt, out with
  | some t, true => do
    let d ← tableAt t
    match (List.range d.currentCount).find? fun i => (dynarrGet d i).isNone with
    | some i => pure (.ok (i % 2 ^ 32))
    | none =>
      if maxFd ≤ d.currentCount then pure (.error .emfile)
      else if ← onTable t (dynarrAppend heap none) then pure (.ok (d.currentCount % 2 ^ 32))
      else pure (.error .emfile)
  | _, _ => pure (.error .einval)

/-- A descriptor in the range that the functions accept. -/
def fdInRange (fd : Int) : Bool := decide (0 ≤ fd ∧ fd < maxFd)

/-- `task_files_install`; the null pointer is `0`. -/
def taskFilesInstall (heap : Heap) (fdt : Option Nat) (fd : Int) (file : Nat) : F
    (Except Errno Unit) := do
  match fdt with
  | none => pure (.error .einval)
  | some t =>
    if !fdInRange fd || file == 0 then pure (.error .einval)
    else if (dynarrGet (← tableAt t) fd.toNat).isSome then pure (.error .ebusy)
    else do
      vfsFileGet file
      let element ← ofOption ((← get).bytesAt file)
      if ← onTable t (dynarrSet heap fd.toNat (some element)) then pure (.ok ())
      else do
        vfsClose file
        pure (.error .enomem)

/-- `task_files_open`: the pointer that it returns. -/
def taskFilesOpen (fdt : Option Nat) (fd : Int) : F (Option Nat) := do
  match fdt with
  | none => pure none
  | some t =>
    if !fdInRange fd then pure none
    else do
      let d ← tableAt t
      if d.currentCount ≤ fd.toNat then pure none
      else
        match dynarrGet d fd.toNat with
        | none => pure none
        | some file => do
          vfsFileGet file
          pure (some file)

def taskFilesClose (heap : Heap) (fdt : Option Nat) (fd : Int) : F (Except Errno Unit) := do
  match fdt with
  | none => pure (.error .einval)
  | some t =>
    if !fdInRange fd then pure (.error .einval)
    else do
      let d ← tableAt t
      if d.currentCount ≤ fd.toNat then pure (.error .ebadf)
      else
        match dynarrGet d fd.toNat with
        | none => pure (.error .ebadf)
        | some file => do
          let _ ← onTable t (dynarrSet heap fd.toNat none)
          vfsClose file
          pure (.ok ())

/-- The loop of `task_files_copy_list`: the error that ended it, and how many were copied. -/
def copyEach (heap : Heap) (dst src : Nat) : List Int → (copied : Nat) → F (Option Errno × Nat)
  | [], copied => pure (none, copied)
  | fd :: fds, copied => do
    if !fdInRange fd then pure (some .einval, copied)
    else do
      let s ← tableAt src
      if s.currentCount ≤ fd.toNat then pure (some .ebadf, copied)
      else
        match dynarrGet s fd.toNat with
        | none => pure (some .ebadf, copied)
        | some file =>
          if (dynarrGet (← tableAt dst) fd.toNat).isSome then pure (some .ebusy, copied)
          else do
            vfsFileGet file
            let element ← ofOption ((← get).bytesAt file)
            if ← onTable dst (dynarrSet heap fd.toNat (some element)) then
              copyEach heap dst src fds (copied + 1)
            else do
              vfsClose file
              pure (some .enomem, copied)

/-- The loop that takes the copies back, the last one first. -/
def rollback (heap : Heap) (dst src : Nat) : List Int → F Unit
  | [] => pure ()
  | fd :: fds => do
    if fd.toNat < (← tableAt dst).currentCount then
      let _ ← onTable dst (dynarrSet heap fd.toNat none)
    let s ← tableAt src
    match if fd.toNat < s.currentCount then dynarrGet s fd.toNat else none with
    | none => pure ()
    | some file => vfsClose file
    rollback heap dst src fds

/-- `task_files_copy_list`; `none` for a list that is null although it should have elements. -/
def taskFilesCopyList (heap : Heap) (dst src : Option Nat) (fdList : Option (List Int)) :
    F (Except Errno Unit) := do
  match dst, src, fdList with
  | some dst, some src, some fds =>
    if fds = [] then pure (.ok ())
    -- both locks are one, and it is taken twice
    else if dst = src then stuck
    else do
      let r ← copyEach heap dst src fds 0
      match r.1 with
      | none => pure (.ok ())
      | some e => do
        rollback heap dst src (fds.take r.2).reverse
        pure (.error e)
  | _, _, _ => pure (.error .einval)

/-- `task_files_alloc`, as far as the table goes. -/
def taskFilesAlloc (heap : Heap) : Option Dynarr := dynarrCreate heap 8 maxFd

/-! ## The map that the tables should be -/

inductive FilesCall where
  | allocFd (fdt : Option Nat) (out : Bool)
  | install (fdt : Option Nat) (fd : Int) (file : Nat)
  | openFd (fdt : Option Nat) (fd : Int)
  | close (fdt : Option Nat) (fd : Int)
  | copyList (dst src : Option Nat) (fdList : Option (List Int))

inductive FilesReply where
  | fd (r : Except Errno Nat)
  | done (r : Except Errno Unit)
  | file (p : Option Nat)

def filesCall (heap : Heap) : FilesCall → F FilesReply
  | .allocFd fdt out => do return .fd (← taskFilesAllocFd heap fdt out)
  | .install fdt fd file => do return .done (← taskFilesInstall heap fdt fd file)
  | .openFd fdt fd => do return .file (← taskFilesOpen fdt fd)
  | .close fdt fd => do return .done (← taskFilesClose heap fdt fd)
  | .copyList dst src fdList => do return .done (← taskFilesCopyList heap dst src fdList)

/-- The files that are installed: by table and descriptor. -/
abbrev FdMap := Nat → Int → Option Nat

/-- The map after a call that was answered with `r`. -/
def mapAfter (m : FdMap) : FilesCall → FilesReply → FdMap
  | .install (some t) fd file, .done (.ok _) =>
    fun t' fd' => if t' = t ∧ fd' = fd then some file else m t' fd'
  | .close (some t) fd, .done (.ok _) => fun t' fd' => if t' = t ∧ fd' = fd then none else m t' fd'
  | .copyList (some dst) (some src) (some fds), .done (.ok _) =>
    fun t' fd' => if t' = dst ∧ fd' ∈ fds then m src fd' else m t' fd'
  | _, _ => m

/-- Opening any descriptor of any table returns the file that the map has there. -/
def Files.Shows (s : Files) (m : FdMap) : Prop :=
  ∀ t fd, t < s.tables.length → ∃ s', taskFilesOpen (some t) fd s = some (m t fd, s')

/-- What a call should answer: the lowest descriptor that is not in use, the file that is
installed, or an error and no change of any reference count. -/
def FilesAnswer (s : Files) (m : FdMap) (s' : Files) : FilesCall → FilesReply → Prop
  | .allocFd (some t) true, r =>
    ∀ fd : Nat, fd < maxFd → m t fd = none → (∀ fd' : Nat, fd' < fd → m t fd' ≠ none) →
    r = .fd (.ok fd)
  | .openFd (some t) fd, r => r = .file (m t fd)
  | .copyList _ _ _, .done (.error _) => s'.files = s.files
  | _, _ => True

/-! ## When the calls are right -/

/-- Tables that are there, and a file that is null or alive. -/
def FilesCall.Valid (s : Files) : FilesCall → Prop
  | .allocFd fdt _ => ∀ t, fdt = some t → t < s.tables.length
  | .install fdt _ file =>
    (∀ t, fdt = some t → t < s.tables.length) ∧ (file = 0 ∨ s.files file ≠ none)
  | .openFd fdt _ => ∀ t, fdt = some t → t < s.tables.length
  | .close fdt _ => ∀ t, fdt = some t → t < s.tables.length
  | .copyList dst src _ => ∀ t, dst = some t ∨ src = some t → t < s.tables.length

/-- A call that refuses its arguments, or for which there is no memory; opening, closing and
copying find nothing to do. -/
def FilesRight (heap : Heap) : FilesCall → Prop
  | .allocFd fdt out => fdt = none ∨ out = false
  | .install fdt fd file => fdt = none ∨ fdInRange fd = false ∨ file = 0 ∨
    16 ≤ fd ∧ heap (if fd < 512 then 0 else 1) = none
  | .copyList dst src fdList => dst = none ∨ dst ≠ src ∨ fdList = none ∨ fdList = some []
  | _ => True

/-- Tables as they are created, with files that are in use and lie outside their buffers. -/
structure Files.Fresh (s : Files) : Prop where
  tables : ∀ d, d ∈ s.tables → ∃ heap, taskFilesAlloc heap = some d
  count : ∀ p f, s.files p = some f → f.count ≠ 0 ∧ f.count < 2 ^ 32
  apart : ∀ d, d ∈ s.tables → s.files d.arr.addr = none

/-- Runs of such calls, with the map that the tables should be. -/
inductive FilesRun : Files → FdMap → Prop
  | start {s : Files} (h : s.Fresh) : FilesRun s fun _ _ => none
  | call {heap : Heap} {s s' : Files} {m : FdMap} {c : FilesCall} {r : FilesReply}
      (hrun : FilesRun s m)
      (hvalid : c.Valid s) (hright : FilesRight heap c)
        (hcall : filesCall heap c s = some (r, s')) :
      FilesRun s' (mapAfter m c r)

/-! ## Calls on fresh tables -/

variable {s s' : Files} {t : Nat} {d d' : Dynarr} {heap : Heap} {m : FdMap} {c : FilesCall}

theorem tableAt_eq (h : s.tables[t]? = some d) : tableAt t s = some (d, s) := by
  refine bind_eq_some.mpr ⟨s, s, rfl, ?_⟩
  rw [h]
  rfl

theorem onTable_eq {α : Type} {x : D α} {a : α} (h : s.tables[t]? = some d)
    (hx : x d = some (a, d')) :
    onTable t x s = some (a, { s with tables := s.tables.set t d' }) := by
  refine bind_eq_some.mpr ⟨d, s, tableAt_eq h, ?_⟩
  rw [hx]
  rfl

theorem set_self (h : s.tables[t]? = some d) : s.tables.set t d = s.tables := by
  obtain ⟨hlt, rfl⟩ := List.getElem?_eq_some_iff.mp h
  exact set_getElem_self hlt

theorem vfsFileGet_eq {p : Nat} {f : File} (hf : s.files p = some f) : vfsFileGet p s =
    some ((), { s with
      files := update s.files p (some { f with count := (f.count + 1) % 2 ^ 32 }) }) := by
  refine bind_eq_some.mpr ⟨s, s, rfl, ?_⟩
  rw [hf]
  rfl

theorem vfsClose_eq {p : Nat} {f : File} (hf : s.files p = some f) (hone : f.count ≠ 1) :
    vfsClose p s =
    some ((), { s with
      files := update s.files p (some { f with count := (f.count + 2 ^ 32 - 1) % 2 ^ 32 }) }) := by
  refine bind_eq_some.mpr ⟨s, s, rfl, ?_⟩
  rw [hf]
  refine bind_eq_some.mpr ⟨f, s, rfl, ?_⟩
  rw [if_neg hone]
  rfl

theorem Files.Fresh.table (h : s.Fresh) (ht : t < s.tables.length) :
    ∃ d, s.tables[t]? = some d ∧ d ∈ s.tables ∧
    d.Wf ∧ d.elementSize = 8 ∧ d.currentCount = 0 ∧ d.maxLimit = maxFd ∧ d.dynarrCount = 16 := by
  refine ⟨s.tables[t], getElem?_eq_getElem ht, getElem_mem ht, ?_⟩
  obtain ⟨heap, hd⟩ := h.tables _ (getElem_mem ht)
  obtain ⟨hwf, hes, hcount, hlimit, -, hcap⟩ := dynarrCreate_spec hd (by decide)
  exact ⟨hwf, hes, hcount, hlimit, hcap⟩

variable {fd : Int} {fdt : Option Nat} {file : Nat}

theorem fdInRange_iff : fdInRange fd = true ↔ 0 ≤ fd ∧ fd < 1024 := by
  rw [fdInRange, decide_eq_true_iff]
  rfl

theorem open_fresh (h : s.Fresh) (ht : t < s.tables.length) (fd : Int) :
    taskFilesOpen (some t) fd s = some (none, s) := by
  obtain ⟨d, hd, -, -, -, hcount, -⟩ := h.table ht
  rw [taskFilesOpen]
  split_ifs
  · rfl
  · refine bind_eq_some.mpr ⟨d, s, tableAt_eq hd, ?_⟩
    rw [if_pos (by omega)]
    rfl

theorem shows_fresh (h : s.Fresh) : s.Shows fun _ _ => none :=
  fun _ fd ht => ⟨s, open_fresh h ht fd⟩

theorem open_value (hd : s.tables[t]? = some d) (hrange : fdInRange fd = true)
    (hlt : fd.toNat < d.currentCount) {p : Option Nat} (hopen : taskFilesOpen (some t) fd s =
      some (p, s')) :
    p = some (d.arr.addr + fd.toNat * d.elementSize % 2 ^ 64) := by
  have hget : dynarrGet d fd.toNat = some (d.arr.addr + fd.toNat * d.elementSize % 2 ^ 64) :=
    if_neg (by omega)
  rw [taskFilesOpen, hrange] at hopen
  obtain ⟨d1, s1, htable, hopen⟩ := bind_eq_some.mp hopen
  rw [tableAt_eq hd] at htable
  cases htable
  rw [if_neg (by omega), hget] at hopen
  obtain ⟨_, s2, -, hopen⟩ := bind_eq_some.mp hopen
  cases hopen
  rfl

theorem allocFd_fresh (h : s.Fresh) (ht : t < s.tables.length) :
    taskFilesAllocFd heap (some t) true s = some (.error .emfile, s) := by
  obtain ⟨d, hd, -, -, -, hcount, -⟩ := h.table ht
  refine bind_eq_some.mpr ⟨d, s, tableAt_eq hd, ?_⟩
  rw [hcount, range_zero, find?_nil]
  refine bind_eq_some.mpr ⟨false, _, onTable_eq hd rfl, ?_⟩
  rw [set_self hd]
  rfl

theorem close_fresh (heap : Heap) (h : s.Fresh) (ht : ∀ t, fdt = some t →
    t < s.tables.length) (fd : Int) :
    ∃ e, taskFilesClose heap fdt fd s = some (.error e, s) := by
  cases fdt with
  | none => exact ⟨.einval, rfl⟩
  | some t =>
    obtain ⟨d, hd, -, -, -, hcount, -⟩ := h.table (ht t rfl)
    rw [taskFilesClose]
    split_ifs
    · exact ⟨.einval, rfl⟩
    · refine ⟨.ebadf, bind_eq_some.mpr ⟨d, s, tableAt_eq hd, ?_⟩⟩
      rw [if_pos (by omega)]
      rfl

theorem copyList_fresh (heap : Heap) (h : s.Fresh) {dst src : Nat} (hsrc : src < s.tables.length)
    (hne : dst ≠ src) (fd : Int) (fds : List Int) :
    ∃ e, taskFilesCopyList heap (some dst) (some src) (some (fd :: fds)) s = some
      (.error e, s) := by
  obtain ⟨d, hd, -, -, -, hcount, -⟩ := h.table hsrc
  obtain ⟨e, he⟩ : ∃ e, copyEach heap dst src (fd :: fds) 0 s = some ((some e, 0), s) := by
    rw [copyEach]
    split_ifs
    · exact ⟨.einval, rfl⟩
    · refine ⟨.ebadf, bind_eq_some.mpr ⟨d, s, tableAt_eq hd, ?_⟩⟩
      rw [if_pos (by omega)]
      rfl
  refine ⟨e, ?_⟩
  rw [taskFilesCopyList, if_neg (cons_ne_nil fd fds), if_neg hne]
  exact bind_eq_some.mpr ⟨_, s, he, rfl⟩

/-! ## Installing a file -/

theorem capacity_order {fd : Nat} (hge : 16 ≤ fd) (hlt : fd < 1024) :
    ∃ n, capacityLoop maxFd (fd + 1) 66 16 = some (some n) ∧ n * 8 ≠ 0 ∧
      Mm.sizeToOrder (n * 8) = if fd < 512 then 0 else 1 := by
  have hall : ∀ fd, fd < 1024 → 16 ≤ fd →
      ((capacityLoop maxFd (fd + 1) 66 16).bind id).any (fun n => decide (n * 8 ≠ 0 ∧
        Mm.sizeToOrder (n * 8) = if fd < 512 then 0 else 1)) = true := by
    decide +kernel
  have hfd := hall fd hlt hge
  rw [Option.any_eq_true] at hfd
  obtain ⟨n, hn, hspec⟩ := hfd
  obtain ⟨r, hr, hid⟩ := Option.bind_eq_some_iff.mp hn
  exact ⟨n, hr.trans (congrArg some hid), of_decide_eq_true hspec⟩

theorem canHold_iff (hes : d.elementSize = 8) (hlimit : d.maxLimit = maxFd)
    (hcap : d.dynarrCount = 16) {fd : Nat}
    (hge : 16 ≤ fd) (hlt : fd < 1024) : d.CanHold heap (fd + 1) ↔ heap (if fd < 512 then 0 else 1) ≠
      none := by
  obtain ⟨n, hn, hzero, horder⟩ := capacity_order hge hlt
  have hmalloc : dynarrMalloc heap (n * 8) = none ↔ heap (if fd < 512 then 0 else 1) = none := by
    rw [dynarrMalloc, if_neg, map_eq_none_iff, horder]
    rw [horder]
    have hle : (if fd < 512 then 0 else 1) ≤ 1 := by split_ifs <;> omega
    rintro (h | h)
    · exact hzero h
    · exact absurd (h.trans hle) (by decide)
  rw [Dynarr.CanHold, hlimit, hcap, hes, hn]
  constructor
  · rintro ⟨n', hn', hne⟩
    cases hn'
    exact mt hmalloc.mpr hne
  · exact fun hne => ⟨n, rfl, mt hmalloc.mp hne⟩

/-- The file counts one reference more; if there is no memory, it is taken back. Otherwise the
table has slots up to the descriptor. -/
theorem install_fresh (heap : Heap) (h : s.Fresh) (ht : t < s.tables.length)
    (hrange : fdInRange fd = true) (hnull : file ≠ 0) (hfile : s.files file ≠ none) :
    if 16 ≤ fd ∧ heap (if fd < 512 then 0 else 1) = none then
      taskFilesInstall heap (some t) fd file s = some (.error .enomem, s)
    else ∃ d d' s', taskFilesInstall heap (some t) fd file s = some (.ok (), s') ∧ d ∈ s.tables ∧
      s'.tables = s.tables.set t d' ∧ d'.currentCount = fd.toNat + 1 ∧
        (fd < 16 → d'.arr.addr = d.arr.addr) := by
  obtain ⟨d, hd, hmem, hwf, hes, hcount, hlimit, hcap⟩ := h.table ht
  obtain ⟨f, hf⟩ := ne_none_iff_exists'.mp hfile
  obtain ⟨hzero, hsmall⟩ := h.count file f hf
  obtain ⟨hnonneg, hlt⟩ := fdInRange_iff.mp hrange
  have hguard : (!fdInRange fd || file == 0) = false := by
    rw [hrange, Bool.not_true, Bool.false_or, beq_eq_false_iff_ne]
    exact hnull
  let s1 : Files := { s with
    files := update s.files file (some { f with count := (f.count + 1) % 2 ^ 32 }) }
  have hget : vfsFileGet file s = some ((), s1) := vfsFileGet_eq hf
  have hbytes : s1.bytesAt file = some f.bytes := by
    show (match update s.files file _ file with | some f => some f.bytes | none => _) = _
    rw [update_self]
  have hset : Total (dynarrSet heap fd.toNat (some f.bytes)) d _ :=
    dynarrSet_spec hwf fd.toNat f.bytes (by rw [hes]; omega)
  obtain ⟨ok, d', hset, hok⟩ := hset
  have hon : onTable t (dynarrSet heap fd.toNat (some f.bytes)) s1 =
      some (ok, { s1 with tables := s.tables.set t d' }) := onTable_eq hd hset
  -- the function up to the result of `dynarr_set`
  have hinstall : ∀ r s', (if ok then pure (.ok ()) else do
      vfsClose file
      pure (.error .enomem) : F (Except Errno Unit))
        { s1 with tables := s.tables.set t d' } = some (r, s') →
      taskFilesInstall heap (some t) fd file s = some (r, s') := by
    intro r s' hrest
    rw [taskFilesInstall, hguard]
    refine bind_eq_some.mpr ⟨d, s, tableAt_eq hd, ?_⟩
    have hnone : dynarrGet d fd.toNat = none := if_pos (by omega)
    rw [hnone]
    refine bind_eq_some.mpr ⟨(), s1, hget, ?_⟩
    refine bind_eq_some.mpr ⟨s1, s1, rfl, ?_⟩
    rw [hbytes]
    exact bind_eq_some.mpr ⟨f.bytes, s1, rfl, bind_eq_some.mpr ⟨ok, _, hon, hrest⟩⟩
  cases ok with
  | false =>
    obtain ⟨rfl, hge, hcan⟩ := hok
    rw [hcap] at hge
    rw [canHold_iff hes hlimit hcap hge (by omega), not_not] at hcan
    have hif : (if fd < 512 then 0 else 1) = if fd.toNat < 512 then 0 else 1 := by
      split_ifs <;> omega
    rw [if_pos ⟨by omega, by rw [hif]; exact hcan⟩]
    apply hinstall
    refine bind_eq_some.mpr ⟨(), s, ?_, rfl⟩
    -- the reference that was taken is given back
    have hf1 : s1.files file = some { f with count := (f.count + 1) % 2 ^ 32 } := update_self ..
    have hback : update s1.files file (some f) = s.files := by
      rw [update_idem, update_eq_self_iff, hf]
    rw [set_self hd]
    refine (vfsClose_eq hf1 (by dsimp only; omega)).trans ?_
    rw [show ((f.count + 1) % 2 ^ 32 + 2 ^ 32 - 1) % 2 ^ 32 = f.count by omega, hback]
  | true =>
    rw [if_neg]
    · refine ⟨d, d', _, hinstall _ _ rfl, hmem, rfl, ?_⟩
      rcases hok with ⟨-, rfl⟩ | ⟨d1, n, hge, -, -, hd1, rfl⟩
      · refine ⟨?_, fun _ => rfl⟩
        rw [Dynarr.put_currentCount, hcount, Nat.max_eq_right (Nat.zero_le _)]
      · exact ⟨rfl, fun hsmall => by omega⟩
    · rintro ⟨hge, hnone⟩
      rcases hok with ⟨hin, -⟩ | ⟨d1, n, -, -, hcan, -⟩
      · omega
      · rw [canHold_iff hes hlimit hcap (by omega) (by omega)] at hcan
        apply hcan
        rw [← hnone]
        congr 1
        split_ifs <;> omega

theorem not_shows_installed (h : s.Fresh) (hd : d ∈ s.tables) (ht : t < s.tables.length)
    (hrange : fdInRange fd = true) (hfile : s.files file ≠ none)
    (htables : s'.tables = s.tables.set t d') (hcount : d'.currentCount = fd.toNat + 1)
    (haddr : fd < 16 → d'.arr.addr = d.arr.addr) :
    ¬s'.Shows fun t' fd' => if t' = t ∧ fd' = fd then some file else none := by
  intro hshows
  have hd' : s'.tables[t]? = some d' := by
    rw [htables, getElem?_set_self ht]
  obtain ⟨s'', hopen⟩ := hshows t 0 (by rw [htables, length_set]; exact ht)
  dsimp only at hopen
  have hvalue := open_value hd' (by decide) (by rw [hcount]; exact Nat.succ_pos _) hopen
  by_cases hzero : fd = 0
  · subst hzero
    rw [if_pos ⟨rfl, rfl⟩, haddr (by decide)] at hvalue
    have hslot : file = d.arr.addr := by
      have heq := some.inj hvalue
      rwa [Int.toNat_zero, Nat.zero_mul, Nat.zero_mod, Nat.add_zero] at heq
    rw [hslot] at hfile
    exact hfile (h.apart d hd)
  · rw [if_neg (fun hand => hzero hand.2.symm)] at hvalue
    cases hvalue

/-! ## Runs -/

/-- What a call does on fresh tables: it is right and changes nothing, or it is wrong. -/
def FreshOutcome (heap : Heap) (s : Files) (c : FilesCall) : Prop :=
  (FilesRight heap c ∧ ∃ r, filesCall heap c s = some (r, s) ∧
    FilesAnswer s (fun _ _ => none) s c r ∧
    mapAfter (fun _ _ => none) c r = fun _ _ => none) ∨
  (¬FilesRight heap c ∧ ∀ r s', filesCall heap c s = some (r, s') →
    ¬(FilesAnswer s (fun _ _ => none) s' c r ∧ s'.Shows (mapAfter (fun _ _ => none) c r)))

theorem filesCall_eq {α : Type} {x : F α} {f : α → FilesReply} {a : α} (h : x s = some (a, s')) :
    (do return f (← x) : F FilesReply) s = some (f a, s') := bind_eq_some.mpr ⟨a, s', h, rfl⟩

theorem allocFd_outcome (heap : Heap) (h : s.Fresh) {out : Bool}
    (hvalid : (FilesCall.allocFd fdt out).Valid s) : FreshOutcome heap s (.allocFd fdt out) := by
  cases fdt with
  | none => exact .inl ⟨.inl rfl, _, filesCall_eq rfl, trivial, rfl⟩
  | some t =>
    cases out with
    | false => exact .inl ⟨.inr rfl, _, filesCall_eq rfl, trivial, rfl⟩
    | true =>
      refine .inr ⟨?_, ?_⟩
      · rintro (hf | hf)
        · cases hf
        · cases hf
      · rintro r s' hcall ⟨hanswer, -⟩
        rw [filesCall, filesCall_eq (allocFd_fresh h (hvalid t rfl))] at hcall
        cases hcall
        cases hanswer 0 (by decide) rfl fun fd' hlt => absurd hlt (Nat.not_lt_zero fd')

theorem install_outcome (heap : Heap) (h : s.Fresh)
    (hvalid : (FilesCall.install fdt fd file).Valid s) :
    FreshOutcome heap s (.install fdt fd file) := by
  cases fdt with
  | none => exact .inl ⟨.inl rfl, _, filesCall_eq rfl, trivial, rfl⟩
  | some t =>
    by_cases hargs : fdInRange fd = false ∨ file = 0
    · refine .inl ⟨hargs.elim (fun hr => .inr (.inl hr))
        (fun hf => .inr (.inr (.inl hf))), .done (.error .einval),
        filesCall_eq ?_, trivial, rfl⟩
      have hguard : (!fdInRange fd || file == 0) = true := by
        rcases hargs with hr | hf
        · rw [hr]
          rfl
        · rw [hf, beq_self_eq_true, Bool.or_true]
      rw [taskFilesInstall, hguard]
      rfl
    · rw [not_or, Bool.not_eq_false] at hargs
      obtain ⟨hrange, hnull⟩ := hargs
      have ht := hvalid.1 t rfl
      have hfile := hvalid.2.resolve_left hnull
      have hinstall := install_fresh heap h ht hrange hnull hfile
      by_cases hmem : 16 ≤ fd ∧ heap (if fd < 512 then 0 else 1) = none
      · rw [if_pos hmem] at hinstall
        exact .inl ⟨.inr (.inr (.inr hmem)), _, filesCall_eq hinstall, trivial, rfl⟩
      · rw [if_neg hmem] at hinstall
        obtain ⟨d, d', s1, hcall1, hd, htables, hcount, haddr⟩ := hinstall
        refine .inr ⟨?_, ?_⟩
        · rintro (hf | hf | hf | hf)
          · cases hf
          · rw [hf] at hrange
            cases hrange
          · exact hnull hf
          · exact hmem hf
        · rintro r s' hcall ⟨-, hshows⟩
          rw [filesCall, filesCall_eq hcall1] at hcall
          cases hcall
          exact not_shows_installed h hd ht hrange hfile htables hcount haddr hshows

theorem copyList_outcome (heap : Heap) (h : s.Fresh) {dst src : Option Nat}
    {fdList : Option (List Int)} (hvalid : (FilesCall.copyList dst src fdList).Valid s) :
    FreshOutcome heap s (.copyList dst src fdList) := by
  have hinval : ∀ e, FilesAnswer s (fun _ _ => none) s (.copyList dst src fdList)
    (.done (.error e)) ∧
      mapAfter (fun _ _ => none) (.copyList dst src fdList) (.done (.error e)) = fun _ _ =>
        none := by
    intro e
    exact ⟨rfl, by rcases dst with _ | _ <;> rcases src with _ | _ <;>
      rcases fdList with _ | _ <;> rfl⟩
  rcases dst with _ | dst
  · exact .inl ⟨.inl rfl, _, filesCall_eq rfl, hinval .einval⟩
  rcases src with _ | src
  · exact .inl ⟨.inr (.inl (some_ne_none dst)), _, filesCall_eq rfl, hinval .einval⟩
  rcases fdList with _ | fds
  · exact .inl ⟨.inr (.inr (.inl rfl)), _, filesCall_eq rfl, hinval .einval⟩
  rcases fds with _ | ⟨fd, fds⟩
  · refine .inl ⟨.inr (.inr (.inr rfl)), .done (.ok ()), filesCall_eq rfl, trivial, ?_⟩
    funext t' fd'
    show (if t' = dst ∧ fd' ∈ [] then none else none) = none
    rw [ite_self]
  · by_cases hne : dst = src
    · refine .inr ⟨?_, ?_⟩
      · rintro (hf | hf | hf | hf)
        · cases hf
        · exact hf (congrArg some hne)
        · cases hf
        · cases hf
      · intro r s' hcall
        obtain ⟨r', s1, hcopy, -⟩ := bind_eq_some.mp hcall
        rw [taskFilesCopyList, if_neg (cons_ne_nil fd fds), if_pos hne] at hcopy
        cases hcopy
    · obtain ⟨e, he⟩ := copyList_fresh heap h (hvalid src (.inr rfl)) hne fd fds
      refine .inl ⟨.inr (.inl ?_), _, filesCall_eq he, hinval e⟩
      rintro hf
      exact hne (some.inj hf)

theorem filesCall_outcome (heap : Heap) (h : s.Fresh) (hvalid : c.Valid s) :
    FreshOutcome heap s c := by
  cases c with
  | allocFd fdt out => exact allocFd_outcome heap h hvalid
  | install fdt fd file => exact install_outcome heap h hvalid
  | openFd fdt fd =>
    cases fdt with
    | none => exact .inl ⟨trivial, _, filesCall_eq rfl, trivial, rfl⟩
    | some t => exact .inl ⟨trivial, _, filesCall_eq (open_fresh h (hvalid t rfl) fd), rfl, rfl⟩
  | close fdt fd =>
    obtain ⟨e, he⟩ := close_fresh heap h hvalid fd
    refine .inl ⟨trivial, _, filesCall_eq he, trivial, ?_⟩
    cases fdt <;> rfl
  | copyList dst src fdList => exact copyList_outcome heap h hvalid

theorem FilesRun.fresh (hrun : FilesRun s m) : s.Fresh ∧ m = fun _ _ => none := by
  induction hrun with
  | start h => exact ⟨h, rfl⟩
  | @call heap s s' m c r hrun hvalid hright hcall ih =>
    obtain ⟨h, rfl⟩ := ih
    rcases filesCall_outcome heap h hvalid with ⟨-, r', hcall', -, hmap⟩ | ⟨hwrong, -⟩
    · rw [hcall] at hcall'
      cases hcall'
      exact ⟨h, hmap⟩
    · exact absurd hright hwrong

/-- In every run of right calls the tables are the map, which is empty; and the next call is
right exactly if it gives out no descriptor and installs no file. -/
theorem descriptors_refine_map (hrun : FilesRun s m) :
    s.Shows m ∧ ∀ (heap : Heap) (c : FilesCall), c.Valid s →
      ((∃ r s', filesCall heap c s = some (r, s') ∧ FilesAnswer s m s' c r ∧
        s'.Shows (mapAfter m c r)) ↔
        FilesRight heap c) := by
  obtain ⟨h, rfl⟩ := hrun.fresh
  refine ⟨shows_fresh h, ?_⟩
  intro heap c hvalid
  rcases filesCall_outcome heap h hvalid with ⟨hright, r, hcall, hanswer, hmap⟩ | ⟨hwrong, hno⟩
  · refine ⟨fun _ => hright, fun _ => ⟨r, s, hcall, hanswer, ?_⟩⟩
    rw [hmap]
    exact shows_fresh h
  · refine ⟨?_, fun hright => absurd hright hwrong⟩
    rintro ⟨r, s', hcall, hr⟩
    exact absurd hr (hno r s' hcall)

/-- A new table with its buffer at `addr`. -/
def newTable (addr : Nat) : Dynarr := ⟨⟨addr, 4096, fun _ => 0⟩, 8, 0, 14, 16, maxFd⟩

/-- Two tables, with their buffers at `4096` and `16384`, and one file at `8192`. -/
def oneFile : Files where
  tables := [newTable 4096, newTable 16384]
  files := fun p => if p = 8192 then some ⟨1, fun _ => 0⟩ else none

theorem oneFile_fresh : oneFile.Fresh where
  tables := by
    intro d hd
    rcases mem_pair.mp hd with rfl | rfl
    · exact ⟨fun _ => some 4096, rfl⟩
    · exact ⟨fun _ => some 16384, rfl⟩
  count := by
    intro p f hf
    by_cases hp : p = 8192
    · rw [oneFile, hp] at hf
      cases hf
      decide
    · rw [oneFile] at hf
      dsimp only at hf
      rw [if_neg hp] at hf
      cases hf
  apart := by
    intro d hd
    rcases mem_pair.mp hd with rfl | rfl <;> rfl

/-- A descriptor is opened, the file is to be installed as descriptor `600` without memory for the
slots, and the descriptor is closed. -/
theorem oneFile_run : FilesRun oneFile fun _ _ => none := by
  have hlt : ∀ t, some 0 = some t → t < oneFile.tables.length := by
    rintro t ⟨⟩
    decide
  have hopened : filesCall (fun _ => none) (.openFd (some 0) 600) oneFile = _ :=
    filesCall_eq (open_fresh oneFile_fresh (hlt 0 rfl) 600)
  have hopen := FilesRun.call (c := .openFd (some 0) 600) (.start oneFile_fresh) hlt trivial
    hopened
  have hfull := install_fresh (fun _ => none) oneFile_fresh (hlt 0 rfl)
    (show fdInRange 600 = true by decide) (show 8192 ≠ 0 by decide) (some_ne_none _)
  rw [if_pos ⟨by decide, rfl⟩] at hfull
  have hinstall := hopen.call (c := .install (some 0) 600 8192) ⟨hlt, .inr (some_ne_none _)⟩
    (.inr (.inr (.inr ⟨by decide, rfl⟩))) (filesCall_eq hfull)
  obtain ⟨e, hclose⟩ := close_fresh (fun _ => none) oneFile_fresh hlt 600
  exact hinstall.call (c := .close (some 0) 600) hlt trivial (filesCall_eq hclose)

theorem descriptors_refine_map_oneFile : oneFile.Shows (fun _ _ => none) ∧
    (∃ r s', filesCall (fun _ => none) (.copyList (some 1) (some 0) (some [600])) oneFile =
      some (r, s') ∧
      FilesAnswer oneFile (fun _ _ => none) s' (.copyList (some 1) (some 0) (some [600])) r ∧
      s'.Shows (mapAfter (fun _ _ => none) (.copyList (some 1) (some 0) (some [600])) r)) ∧
    ¬ ∃ r s', filesCall (fun _ => none) (.allocFd (some 0) true) oneFile = some (r, s') ∧
      FilesAnswer oneFile (fun _ _ => none) s' (.allocFd (some 0) true) r ∧
      s'.Shows (mapAfter (fun _ _ => none) (.allocFd (some 0) true) r) := by
  obtain ⟨hshows, hnext⟩ := descriptors_refine_map oneFile_run
  refine ⟨hshows, (hnext _ _ ?_).mpr (.inr (.inl (by decide))), fun h => ?_⟩
  · intro t ht
    rcases ht with ht | ht <;> cases ht <;> decide
  · refine absurd ((hnext _ _ ?_).mp h) (by simp [FilesRight])
    rintro t ⟨⟩
    decide

/-- The file at `8192` is installed as descriptor `0`; opening that descriptor returns the address
of its slot. A descriptor to install it at was not to be had. -/
theorem descriptor_is_slot :
    ((do
      let fd ← taskFilesAllocFd (fun _ => none) (some 0) true
      let done ← taskFilesInstall (fun _ => none) (some 0) 0 8192
      return (fd, done, ← taskFilesOpen (some 0) 0) : F _) oneFile).map Prod.fst =
    some (.error .emfile, .ok (), some 4096) := by
  rfl

end ShiziOS.Task
