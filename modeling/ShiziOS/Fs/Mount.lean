import ShiziOS.Fs.Path

/-!
# Mounting a tmpfs

`tmpfs_mount` of `kernel/fs/tmpfs/tmpfs.c`, `vfs_root_mount`, `vfs_mount` and `vfs_umount` of
`kernel/fs/vfs.c`. The number of the anonymous device comes from the caller, `none` if there
is none left. The mount options are given as the number of pages, with `0` for no limit.
-/

namespace ShiziOS.Fs

open Exec

variable (env : Env)

/-- `tmpfs_ino_bitmap_init`; the number that is reserved is `1`. -/
def inoBitmapInit : Exec Oracle (Option (List Bool)) := do
  match ← DynArr.create with
  | none => pure none
  | some _ =>
    match ← bitmapAlloc (List.replicate 128 false) 1 with
    | none => pure none
    | some (_, bits) => pure (some bits)

/-- The root of a new tmpfs: its inode and its dentry. -/
def tmpfsMountRoot (sb : Ptr) : K (Except Errno Ptr) := do
  match ← tmpfsNewInode env sb (sIfdir ||| 0o755) with
  | .error e => pure (.error e)
  | .ok p => do
    setInode p fun i => { i with hasOps := true, nlink := 2 }
    match ← tmpfsDots p (← inodeAt p).ino with
    | .error e => do
      tmpfsDropInode p
      pure (.error e)
    | .ok () =>
      match ← kheapAllocObject with
      | none => do
        tmpfsDropInode p
        pure (.error .enomem)
      | some _ =>
        match ← kheapAlloc 2 with
        | none => do
          tmpfsDropInode p
          pure (.error .enomem)
        | some _ => do
          let dentry := (← get).dentries.next
          let d : Dentry := ⟨none, ['/'], some p, 1, false, none⟩
          modify fun s => { s with dentries := s.dentries.alloc d }
          pure (.ok dentry)

/-- `tmpfs_mount`: the dentry of the root. -/
def tmpfsMount (dev : Option Nat) (maxPages : Nat) : K (Except Errno Ptr) := do
  match ← kheapAllocObject with
  | none => pure (.error .enomem)
  | some _ =>
    match ← onHeap inoBitmapInit with
    | none => pure (.error .enomem)
    | some bits =>
      match ← kheapAllocObject with
      | none => pure (.error .enomem)
      | some _ =>
        match dev with
        | none => pure (.error .enospc)
        | some dev => do
          let sb := (← get).sbs.next
          modify fun s => { s with sbs := s.sbs.alloc ⟨dev, bits, maxPages, 0⟩ }
          match ← tmpfsMountRoot env sb with
          | .ok root => pure (.ok root)
          | .error e => do
            modify fun s => { s with sbs := s.sbs.erase sb }
            pure (.error e)

/-- `vfs_root_mount`: the path that becomes `vfs_root`. If there is no memory for it, the
freed mount stays the root of the tree. -/
def vfsRootMount (dev : Option Nat) : K (Except Errno Path) := do
  match ← tmpfsMount env dev 0 with
  | .error _ => stuck
  | .ok root =>
    match ← kheapAllocObject with
    | none => do
      vfsDput root
      pure (.error .enomem)
    | some _ => do
      let m := (← get).mounts.next
      modify fun s => { s with mounts := s.mounts.alloc ⟨root, none, 0, 1, []⟩,
                               mountRoot := some m }
      match ← kheapAllocObject with
      | none => do
        modify fun s => { s with mounts := s.mounts.erase m }
        vfsDput root
        pure (.error .enomem)
      | some _ => do
        vfsPathGet ⟨m, root⟩
        pure (.ok ⟨m, root⟩)

def vfsAttachMount (m : Ptr) (mountpoint : Path) : K Unit := do
  setMount mountpoint.mnt fun v => { v with mntMounts := v.mntMounts ++ [m] }
  setDentry mountpoint.dentry fun d => { d with mounted := true }

/-- `vfs_mount` of a tmpfs. -/
def vfsMount (dirName : List Char) (flags : Flags) (dev : Option Nat) (maxPages : Nat)
    (pwd : Path) : K (Except Errno Ptr) := do
  match ← vfsPathLookup env dirName lookupDirectory pwd with
  | .error e => pure (.error e)
  | .ok mountpoint =>
    match ← tmpfsMount env dev maxPages with
    | .error e => do
      vfsPathPut mountpoint
      pure (.error e)
    | .ok root =>
      match ← kheapAllocObject with
      | none => do
        vfsDput root
        vfsPathPut mountpoint
        pure (.error .enomem)
      | some _ => do
        let m := (← get).mounts.next
        let v : Mount := ⟨root, some mountpoint.dentry, flags, 1, []⟩
        modify fun s => { s with mounts := s.mounts.alloc v }
        vfsMntget mountpoint.mnt
        vfsDget mountpoint.dentry
        vfsAttachMount m mountpoint
        vfsPathPut mountpoint
        pure (.ok m)

/-! ## Unmounting -/

/-- `list_del` of a mount from the list of the mount it is attached to. The pointers of one that
is in no list, of the root or of one that was unmounted, lead nowhere. -/
def detachMount (m : Ptr) : K Unit := do
  let s ← get
  let parent ← ofOption ((List.range s.mounts.next).find? fun q =>
    (s.mounts.get q).any fun v => v.mntMounts.contains m)
  setMount parent fun v => { v with mntMounts := v.mntMounts.erase m }

/-- `vfs_umount`. What is unmounted is the mount that the path is on. Its super block has had two
references since `vfs_mount`, so that `kill_sb` is not called. -/
def vfsUmount (dirName : List Char) (flags : Nat) (fromKernel : Bool) (pwd : Path) :
    K (Except Errno Unit) := do
  if flags ≠ 0 then pure (.error .einval)
  else
    match ← vfsPathLookup env dirName lookupDirectory pwd with
    | .error e => pure (.error e)
    | .ok mountpoint => do
      let m ← mountAt mountpoint.mnt
      if !fromKernel && Flags.has m.flags msNouser then do
        vfsPathPut mountpoint
        pure (.error .eperm)
      else if m.mntMounts ≠ [] then do
        vfsPathPut mountpoint
        pure (.error .ebusy)
      else do
        detachMount mountpoint.mnt
        setDentry mountpoint.dentry fun d => { d with mounted := false }
        vfsMntput mountpoint.mnt
        vfsPathPut mountpoint
        pure (.ok ())

/-! ## A first mount -/

/-- Nothing is mounted, and the heap grants every request. -/
def Vfs.start : Vfs where
  inodes := .empty
  dentries := .empty
  mounts := .empty
  files := .empty
  sbs := .empty
  dentryCache := fun _ => none
  inodeCache := fun _ => none
  mountRoot := none
  heap := fun k _ => some (k + 1)

/-- A task with both caches in one bucket. -/
def Env.start (uid : Nat) : Env where
  vfsRoot := ⟨0, 0⟩
  dentryHash := fun _ _ => 0
  inodeHash := fun _ _ => 0
  uid := uid
  gid := uid
  now := 0
  driver := fun _ _ => none
  nullMode := some 0

/-- After `vfs_root_mount`. -/
@[irreducible] def Vfs.boot : Vfs :=
  ((vfsRootMount (Env.start 0) (some 1) Vfs.start).get (by decide +kernel)).2

end ShiziOS.Fs
