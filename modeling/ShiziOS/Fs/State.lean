import ShiziOS.Lib.Area
import ShiziOS.Lib.Exec
import ShiziOS.Lib.Store

/-!
# The objects of the virtual file system

The structures of `kernel/fs/vfs.h` and the private ones of `kernel/fs/tmpfs/tmpfs.c`
with the functions of `vfs.c` that count references and keep the two caches.

Objects are reached through pointers into stores. What follows a pointer that leads
nowhere, a null pointer or one to freed memory, has no outcome, with one exception:
`vfs_path_lookup` reads `inode->mode` through a null pointer whenever a name is missing,
and what that gives depends on whether the first page is mapped (`Env.nullMode`).
Requests to the kernel heap are answered by an oracle. A call runs to its end before the
next one begins, so locks are left out here, and so are the lists that nothing reads: the
LRU lists, `subdirs` and `super_block::inodes`. Reference counters do not wrap.
-/

namespace ShiziOS.Fs

open Bytes

abbrev Ptr := Nat
abbrev Name := List Char

def pageSize : Nat := 4096

inductive Errno where
  | eperm | enoent | ebadf | enomem | eacces | eexist | enodev | enotdir | eisdir | einval
  | enospc | erofs | enametoolong | enosys | enotempty | eloop | ebusy
deriving DecidableEq, Repr

/-! ## Modes and flags -/

abbrev Mode := BitVec 32

def sIfmt : Mode := 0o170000
def sIflnk : Mode := 0o120000
def sIfreg : Mode := 0o100000
def sIfblk : Mode := 0o060000
def sIfdir : Mode := 0o040000
def sIfchr : Mode := 0o020000

def sIsdir (mode : Mode) : Bool := mode &&& sIfmt == sIfdir
def sIsreg (mode : Mode) : Bool := mode &&& sIfmt == sIfreg
def sIslnk (mode : Mode) : Bool := mode &&& sIfmt == sIflnk
def sIschr (mode : Mode) : Bool := mode &&& sIfmt == sIfchr
def sIsblk (mode : Mode) : Bool := mode &&& sIfmt == sIfblk

/-- A set of bits, for the flags of an open, of a lookup, of a mount and the rights asked. -/
abbrev Flags := BitVec 32

def Flags.has (flags bit : Flags) : Bool := flags &&& bit != 0

def lookupFollow : Flags := 1
def lookupDirectory : Flags := 2

def mayRead : Flags := 1
def mayWrite : Flags := 2
def mayExec : Flags := 4

def msRdonly : Flags := 1
def msNouser : Flags := 2

def oRdonly : Flags := 0
def oWronly : Flags := 1
def oRdwr : Flags := 2
def oCreat : Flags := 0x40
def oExcl : Flags := 0x80
def oTrunc : Flags := 0x200
def oAppend : Flags := 0x400
def oDirectory : Flags := 0x10000
def oNofollow : Flags := 0x20000

def vfsDefaultUmask : Mode := 0o022

/-! ## Objects -/

/-- `dynarr_t` with elements of eight bytes. `arr` is the memory from the buffer on, and
`freed` says that the buffer has been given back. -/
structure DynArr where
  arr : Nat → Byte
  count : Nat
  capacity : Nat
  freed : Bool

/-- The size and the data of an inode: `size` and `blocks` of `struct inode`, `data_size`
and `pages` of `struct tmpfs_inode`. -/
structure FileData where
  size : Nat
  blocks : Nat
  dataSize : Nat
  pages : Option DynArr

structure DirEntry where
  name : Name
  ino : Nat
deriving DecidableEq, Repr

/-- The tables that `fop` can point to. -/
inductive Fop where
  | tmpfs | dev
deriving DecidableEq, Repr

/-- `struct inode` with its `struct tmpfs_inode`. `hasOps` says that `ops` is set. -/
structure Inode where
  ino : Nat
  rdev : Nat
  mode : Mode
  uid : Nat
  gid : Nat
  data : FileData
  atime : Nat
  mtime : Nat
  ctime : Nat
  nlink : Nat
  hasOps : Bool
  fop : Option Fop
  sb : Ptr
  count : Int
  hashNext : Option Ptr
  dirList : List DirEntry
  symlinkTarget : Option Name

structure Dentry where
  parent : Option Ptr
  name : Name
  inode : Option Ptr
  count : Int
  mounted : Bool
  hashNext : Option Ptr

/-- `struct super_block` with its `struct tmpfs_sb_info`. -/
structure SuperBlock where
  dev : Nat
  inodeBitmap : List Bool
  maxPages : Nat
  usedPages : Nat

/-- `struct vfsmount`. A count is the number of references taken minus those given back; the
counter of the source, an `atomic_uint`, holds it modulo `2 ^ 32`. -/
structure Mount where
  root : Ptr
  mountpoint : Option Ptr
  flags : Flags
  count : Int
  mntMounts : List Ptr

structure Path where
  mnt : Ptr
  dentry : Ptr
deriving DecidableEq, Repr

/-- The tables that `file->ops` can point to; the operations of a driver are its own. -/
inductive FileOps where
  | tmpfs | default | driver
deriving DecidableEq, Repr

structure File where
  path : Path
  pos : Nat
  mode : Flags
  flags : Flags
  count : Int
  ops : FileOps

/-- The answers of the kernel heap: to the request with a number, for some pages. -/
abbrev Oracle := Nat → Nat → Option Nat

structure Vfs where
  inodes : Store Inode
  dentries : Store Dentry
  mounts : Store Mount
  files : Store File
  sbs : Store SuperBlock
  dentryCache : Nat → Option Ptr
  inodeCache : Nat → Option Ptr
  mountRoot : Option Ptr
  heap : Oracle

/-- What a call finds fixed: the root, the hash functions, the task and the time, the
outcome of a driver's `open`, and what lies at the mode of a null inode. -/
structure Env where
  vfsRoot : Path
  dentryHash : Option Ptr → Name → Nat
  inodeHash : Nat → Nat → Nat
  uid : Nat
  gid : Nat
  now : Nat
  driver : Nat → Mode → Option (Except Errno Unit)
  nullMode : Option Mode

/-! ## The heap -/

/-- The largest block of the kernel heap, `2 ^ 15` pages. -/
def kheapMax : Nat := 2 ^ 27

def Oracle.alloc (size : Nat) : Exec Oracle (Option Nat) := do
  let heap ← get
  if size = 0 ∨ kheapMax < size then pure none
  else do
    set (fun k => heap (k + 1) : Oracle)
    pure (heap 0 ((size + pageSize - 1) / pageSize))

abbrev K := Exec Vfs

/-- A program that only asks the heap. -/
def onHeap {α : Type} (x : Exec Oracle α) : K α := fun s =>
  (x s.heap).map fun r => (r.1, { s with heap := r.2 })

/-- `kheap_alloc`; `none` for `NULL`. -/
def kheapAlloc (size : Nat) : K (Option Nat) := onHeap (Oracle.alloc size)

/-- `kheap_alloc(sizeof(*p))`: every structure is smaller than a page. -/
def kheapAllocObject : K (Option Nat) := kheapAlloc 1

/-! ## Following pointers -/

open Exec

def inodeAt (p : Ptr) : K Inode := do ofOption ((← get).inodes.get p)
def dentryAt (p : Ptr) : K Dentry := do ofOption ((← get).dentries.get p)
def mountAt (p : Ptr) : K Mount := do ofOption ((← get).mounts.get p)
def fileAt (p : Ptr) : K File := do ofOption ((← get).files.get p)
def sbAt (p : Ptr) : K SuperBlock := do ofOption ((← get).sbs.get p)

def setInode (p : Ptr) (f : Inode → Inode) : K Unit := do
  let _ ← inodeAt p
  modify fun s => { s with inodes := s.inodes.modify p f }

def setDentry (p : Ptr) (f : Dentry → Dentry) : K Unit := do
  let _ ← dentryAt p
  modify fun s => { s with dentries := s.dentries.modify p f }

def setMount (p : Ptr) (f : Mount → Mount) : K Unit := do
  let _ ← mountAt p
  modify fun s => { s with mounts := s.mounts.modify p f }

def setFile (p : Ptr) (f : File → File) : K Unit := do
  let _ ← fileAt p
  modify fun s => { s with files := s.files.modify p f }

def setSb (p : Ptr) (f : SuperBlock → SuperBlock) : K Unit := do
  let _ ← sbAt p
  modify fun s => { s with sbs := s.sbs.modify p f }

/-- The inode of a dentry, `dentry->inode`, when it is followed. -/
def dentryInode (p : Ptr) : K Ptr := do ofOption (← dentryAt p).inode

/-! ## References -/

def vfsMntget (p : Ptr) : K Unit := setMount p fun m => { m with count := m.count + 1 }

def vfsMntput (p : Ptr) : K Unit := do
  let m ← mountAt p
  if m.count = 1 then modify fun s => { s with mounts := s.mounts.erase p }
  else setMount p fun m => { m with count := m.count - 1 }

def vfsDget (p : Ptr) : K Unit := setDentry p fun d => { d with count := d.count + 1 }
def vfsDput (p : Ptr) : K Unit := setDentry p fun d => { d with count := d.count - 1 }

def vfsIget (p : Ptr) : K Unit := setInode p fun i => { i with count := i.count + 1 }
def vfsIput (p : Ptr) : K Unit := setInode p fun i => { i with count := i.count - 1 }

def vfsPathGet (p : Path) : K Unit := do
  vfsMntget p.mnt
  vfsDget p.dentry

def vfsPathPut (p : Path) : K Unit := do
  vfsDput p.dentry
  vfsMntput p.mnt

/-! ## The caches

A bucket is a list through `hashNext`. A node that is added twice closes a cycle; a search
that runs into it does not come back. -/

/-- The search of `hash_lookup`; the inner `none` is `NULL`. -/
def hashWalk (next : Ptr → Option (Option Ptr)) (eq : Ptr → Bool) :
    (fuel : Nat) → Option Ptr → Option (Option Ptr)
  | _, none => some none
  | 0, some _ => none
  | fuel + 1, some p =>
    match next p with
    | none => none
    | some n => if eq p then some (some p) else hashWalk next eq fuel n

def Vfs.dentryIs (s : Vfs) (parent : Option Ptr) (name : Name) (p : Ptr) : Bool :=
  match s.dentries.get p with
  | some d => d.parent == parent && d.name == name
  | none => false

/-- `vfs_dcache_find`, also called `vfs_dlookup`. -/
def vfsDcacheFind (env : Env) (parent : Ptr) (name : Name) : K (Option Ptr) := do
  let s ← get
  let found ← ofOption (hashWalk (fun p => (s.dentries.get p).map (·.hashNext))
    (s.dentryIs (some parent) name) s.dentries.next
    (s.dentryCache (env.dentryHash (some parent) name)))
  match found with
  | none => pure none
  | some d => do
    vfsDget d
    pure (some d)

def vfsDcacheAdd (env : Env) (p : Ptr) : K Unit := do
  let d ← dentryAt p
  let idx := env.dentryHash d.parent d.name
  let s ← get
  setDentry p fun d => { d with hashNext := s.dentryCache idx }
  modify fun s => { s with dentryCache := Function.update s.dentryCache idx (some p) }

/-- The device of the super block of an inode. -/
def Vfs.devOf (s : Vfs) (p : Ptr) : Option Nat :=
  (s.inodes.get p).bind fun i => (s.sbs.get i.sb).map (·.dev)

def Vfs.inodeIs (s : Vfs) (dev ino : Nat) (p : Ptr) : Bool :=
  match s.inodes.get p with
  | some i => s.devOf p == some dev && i.ino == ino
  | none => false

def vfsIcacheFind (env : Env) (sb : Ptr) (ino : Nat) : K (Option Ptr) := do
  let dev := (← sbAt sb).dev
  let s ← get
  let found ← ofOption (hashWalk
    (fun p => (s.devOf p).bind fun _ => (s.inodes.get p).map (·.hashNext))
    (s.inodeIs dev ino) s.inodes.next (s.inodeCache (env.inodeHash dev ino)))
  match found with
  | none => pure none
  | some i => do
    vfsIget i
    pure (some i)

def vfsIcacheAdd (env : Env) (p : Ptr) : K Unit := do
  let i ← inodeAt p
  let idx := env.inodeHash (← sbAt i.sb).dev i.ino
  let s ← get
  setInode p fun i => { i with hashNext := s.inodeCache idx }
  modify fun s => { s with inodeCache := Function.update s.inodeCache idx (some p) }

/-- The part of `vfs_dalloc` for a name that is not in the cache. The result of its `strdup` is
not looked at; where it is `NULL` there is no outcome. -/
def newDentry (parent : Ptr) (name : Name) : K (Option Ptr) := do
  match ← kheapAllocObject with
  | none => pure none
  | some _ => do
    vfsDget parent
    match ← kheapAlloc (name.length + 1) with
    | none => stuck
    | some _ => do
      let p := (← get).dentries.next
      let d : Dentry := ⟨some parent, name, none, 1, false, none⟩
      modify fun s => { s with dentries := s.dentries.alloc d }
      pure (some p)

def vfsDalloc (env : Env) (parent : Ptr) (name : Name) : K (Option Ptr) := do
  match ← vfsDcacheFind env parent name with
  | some d => pure (some d)
  | none => newDentry parent name

/-! ## Permissions -/

/-- The bits of `mode` that hold for the task: those of the owner, the group or others. -/
def selected (env : Env) (i : Inode) : Mode :=
  if env.uid = i.uid then i.mode >>> 6 else if env.gid = i.gid then i.mode >>> 3 else i.mode

/-- `vfs_inode_permission`; the bits for reading, writing and executing are `4`, `2`, `1`. -/
def vfsInodePermission (env : Env) (i : Inode) (mask : Flags) : Except Errno Unit :=
  if env.uid = 0 then .ok ()
  else
    let mode := selected env i
    if Flags.has mask mayRead ∧ mode &&& 4 = 0 then .error .eacces
    else if Flags.has mask mayWrite ∧ mode &&& 2 = 0 then .error .eacces
    else if Flags.has mask mayExec ∧ mode &&& 1 = 0 then .error .eacces
    else .ok ()

end ShiziOS.Fs
