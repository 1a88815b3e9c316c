import ShiziOS.Fs.Path

/-!
# The calls of the virtual file system

The entry points of `kernel/fs/vfs.c` on files and directories, for tmpfs. Most of them
release the path they have looked up at their end, also when the lookup has failed and
there is none; then the null pointer is followed and there is no outcome. What a driver
does with its files is left out.
-/

namespace ShiziOS.Fs

open Bytes Exec Flags

variable (env : Env)

/-! ## Open files -/

def vfsFileGet (file : Ptr) : K Unit := setFile file fun f => { f with count := f.count + 1 }

/-- `ops` of an inode is followed; it is null for device nodes. -/
def withOps (p : Ptr) : K Unit := do
  if (← inodeAt p).hasOps then pure () else stuck

def vfsTruncate (file : Ptr) (length : Nat) : K (Except Errno Unit) := do
  let dentry := (← fileAt file).path.dentry
  withOps (← dentryInode dentry)
  tmpfsSetattr env dentry ⟨some length, none, none, none, none, none⟩

/-- `file->ops->open`, where `vfs_dev_open` puts the operations of the driver in place. -/
def fileOpen (file : Ptr) (i : Inode) : K (Except Errno Unit) := do
  match i.fop with
  | none => pure (.ok ())
  | some .tmpfs => pure (.ok ())
  | some .dev =>
    match env.driver i.rdev i.mode with
    | none => pure (.error .enodev)
    | some ret => do
      setFile file fun f => { f with ops := .driver }
      pure ret

def fileOpsOf (i : Inode) : FileOps :=
  match i.fop with
  | none => .default
  | some .tmpfs => .tmpfs
  | some .dev => .driver

/-- The checks of `vfs_do_open` before there is a file. -/
def openCheck (i : Inode) (m : Mount) (flags permMask : Flags) : Except Errno Unit :=
  match vfsInodePermission env i permMask with
  | .error e => .error e
  | .ok () =>
    if has flags oDirectory && !sIsdir i.mode then .error .enotdir
    else if (has permMask mayWrite || has flags oTrunc) && has m.flags
      msRdonly then
      .error .erofs
    else .ok ()

/-- The last part of `vfs_do_open`: open and truncate the file. -/
def fileStart (file : Ptr) (i : Inode) (flags permMask : Flags) : K (Except Errno Unit) := do
  match ← fileOpen env file i with
  | .error e => pure (.error e)
  | .ok () =>
    if has flags oTrunc && has permMask mayWrite && sIsreg i.mode then
      vfsTruncate env file 0
    else pure (.ok ())

/-- `vfs_do_open`. A file that is opened keeps a reference of its own to the path; the one
of the caller is released only on failure. -/
def vfsDoOpen (ps : Path) (flags permMask : Flags) : K (Except Errno Ptr) := do
  let i ← inodeAt (← dentryInode ps.dentry)
  match openCheck env i (← mountAt ps.mnt) flags permMask with
  | .error e => do
    vfsPathPut ps
    pure (.error e)
  | .ok () =>
    match ← kheapAllocObject with
    | none => do
      vfsPathPut ps
      pure (.error .enomem)
    | some _ => do
      vfsPathGet ps
      let file := (← get).files.next
      let f : File := ⟨ps, 0, permMask, flags, 1, fileOpsOf i⟩
      modify fun s => { s with files := s.files.alloc f }
      match ← fileStart env file i flags permMask with
      | .ok () => pure (.ok file)
      | .error e => do
        vfsPathPut ps
        modify fun s => { s with files := s.files.erase file }
        vfsPathPut ps
        pure (.error e)

/-- `vfs_close`; every close calls `release`. -/
def vfsClose (file : Ptr) : K Unit := do
  let f ← fileAt file
  match f.ops with
  | .tmpfs => do vfsIput (← dentryInode f.path.dentry)
  | _ => pure ()
  if f.count = 1 then do
    vfsPathPut f.path
    modify fun s => { s with files := s.files.erase file }
  else setFile file fun f => { f with count := f.count - 1 }

/-- `vfs_read`; without a position it reads at that of the file. -/
def vfsRead (file count : Nat) (pos : Option Nat) : K (Except Errno (List Byte)) := do
  let f ← fileAt file
  if has f.mode mayRead = false then pure (.error .ebadf)
  else
    match f.ops with
    | .default => pure (.error .einval)
    | .driver => stuck
    | .tmpfs => do
      let p ← dentryInode f.path.dentry
      let (bytes, offset) ← ofOption (tmpfsRead (← inodeAt p).data (pos.getD f.pos) count)
      setInode p fun i => { i with atime := env.now }
      if pos.isNone then setFile file fun f => { f with pos := offset } else pure ()
      pure (.ok bytes)

/-- `file->ops->write` of tmpfs under the lock of the inode. -/
def inodeWrite (p : Ptr) (offset : Nat) (data : List Byte) : K (Except Errno Nat) := do
  let i ← inodeAt p
  let (ret, sb, fileData) ← onHeap (tmpfsWrite (← sbAt i.sb) i.data offset data)
  setSb i.sb fun _ => sb
  setInode p fun i => { i with data := fileData }
  match ret with
  | .error e => pure (.error e)
  | .ok n => do
    setInode p fun i => { i with mtime := env.now }
    pure (.ok n)

/-- `vfs_write` up to the lock of the inode: the offset for a file without `O_APPEND`. -/
def writeBegin (file : Ptr) (pos : Option Nat) : K (Except Errno Nat) := do
  let f ← fileAt file
  if has f.mode mayWrite = false then pure (.error .ebadf)
  else
    match f.ops with
    | .default => pure (.error .einval)
    | .driver => stuck
    | .tmpfs => pure (.ok (pos.getD f.pos))

/-- Under the lock: where the write starts and what it returns. -/
def writeLocked (file offset : Nat) (data : List Byte) : K (Nat × Except Errno Nat) := do
  let f ← fileAt file
  let p ← dentryInode f.path.dentry
  let size := (← inodeAt p).data.size
  let offset := if has f.flags oAppend then size else offset
  let ret ← inodeWrite env p offset data
  pure (offset, ret)

/-- After the lock: the position of the file moves to `stop`. -/
def writeEnd (file : Ptr) (pos : Option Nat) (stop n : Nat) : K Unit := do
  if pos.isNone && decide (0 < n) then setFile file fun f => { f with pos := stop } else pure ()

def vfsWrite (file : Ptr) (data : List Byte) (pos : Option Nat) : K (Except Errno Nat) := do
  match ← writeBegin file pos with
  | .error e => pure (.error e)
  | .ok offset => do
    let (start, ret) ← writeLocked env file offset data
    match ret with
    | .error e => pure (.error e)
    | .ok n => do
      writeEnd file pos (start + n) n
      pure (.ok n)

/-! ## New entries -/

/-- The last component as `vfs_path_parent` points at it: up to the end of the string, with the
slashes behind it. -/
def lastUncut (path : List Char) : Name :=
  (splitLast path).2 ++ path.reverse.takeWhile (· == '/')

/-- `vfs_file_exists`. The cache is asked for the first bytes of the string, the file system for
all of it, `uncut`. Only names without slashes come into the cache, so that `vfs_dalloc` finds no
dentry there either. -/
def vfsFileExists (parent : Ptr) (name uncut : Name) : K Bool := do
  match ← vfsDcacheFind env parent name with
  | some d => do
    let v ← dentryAt d
    vfsDput d
    pure v.inode.isSome
  | none =>
    match ← newDentry parent uncut with
    | none => pure false
    | some d => do
      let dir ← dentryInode parent
      withOps dir
      let found ← tmpfsLookup env dir d
      let v ← dentryAt found
      vfsDput found
      pure v.inode.isSome

/-- Create an entry under the lock of its directory unless it exists; `op` is the call of
the file system. -/
def createLocked (parent dentry : Ptr) (name uncut : Name)
    (op : (dir : Ptr) → K (Except Errno Unit)) : K (Except Errno Unit) := do
  if ← vfsFileExists env parent name uncut then pure (.error .eexist)
  else do
    let dir ← dentryInode parent
    withOps dir
    match ← op dir with
    | .error e => pure (.error e)
    | .ok () => do
      vfsDcacheAdd env dentry
      pure (.ok ())

/-- What `vfs_mkdir`, `vfs_symlink`, `vfs_link` and `vfs_mknod` do with the parent directory
and the name of the new entry. -/
def createEntry (parent : Ptr) (name uncut : Name)
    (op : (dir dentry : Ptr) → K (Except Errno Unit)) : K (Except Errno Unit) := do
  match ← kheapAlloc (name.length + 1) with
  | none => pure (.error .enomem)
  | some _ =>
    match ← vfsDalloc env parent name with
    | none => pure (.error .enomem)
    | some dentry => do
      let ret ← createLocked env parent dentry name uncut fun dir => op dir dentry
      vfsDput dentry
      pure ret

/-- Look up the parent directory of a path and go on with it if the task may write there.
If the lookup fails, the null pointer is followed. -/
def withParent (path : List Char) (pwd : Path)
    (op : Path → Name → K (Except Errno Unit)) : K (Except Errno Unit) := do
  match ← vfsPathParent env path pwd with
  | .error _ => stuck
  | .ok (parent, name) => do
    let i ← inodeAt (← dentryInode parent.dentry)
    match vfsInodePermission env i (mayWrite ||| mayExec) with
    | .error e => do
      vfsPathPut parent
      pure (.error e)
    | .ok () => do
      let ret ← op parent name
      vfsPathPut parent
      pure ret

def vfsMkdir (path : List Char) (mode : Mode) (pwd : Path) : K (Except Errno Unit) :=
  withParent env path pwd fun parent name =>
    createEntry env parent.dentry name (lastUncut path) fun dir dentry =>
      tmpfsMkdir env dir dentry (mode &&& ~~~vfsDefaultUmask)

def vfsSymlink (target linkpath : List Char) (pwd : Path) : K (Except Errno Unit) :=
  withParent env linkpath pwd fun parent name =>
    createEntry env parent.dentry name (lastUncut linkpath) fun dir dentry =>
      tmpfsSymlink env dir dentry target

/-- `vfs_mknod`; only root may make a device node. -/
def vfsMknod (path : List Char) (mode : Mode) (dev : Nat) (pwd : Path) : K (Except Errno Unit) := do
  if sIschr mode = false ∧ sIsblk mode = false then pure (.error .einval)
  else
    withParent env path pwd fun parent name =>
      if env.uid ≠ 0 then pure (.error .eperm)
      else
        createEntry env parent.dentry name (lastUncut path) fun dir dentry =>
          tmpfsMknod env dir dentry (mode &&& ~~~vfsDefaultUmask) dev

def vfsUnlink (path : List Char) (pwd : Path) : K (Except Errno Unit) :=
  withParent env path pwd fun parent name => do
    match ← kheapAlloc (name.length + 1) with
    | none => pure (.error .enomem)
    | some _ =>
      match ← vfsDalloc env parent.dentry name with
      | none => pure (.error .enomem)
      | some dentry => do
        let dir ← dentryInode parent.dentry
        withOps dir
        let ret ← tmpfsUnlink dir dentry
        vfsDput dentry
        pure ret

/-- The inode of the directory that a dentry is in, `dentry->parent->inode`. -/
def parentInode (dentry : Ptr) : K Ptr := do
  dentryInode (← ofOption (← dentryAt dentry).parent)

def vfsRmdir (path : List Char) (pwd : Path) : K (Except Errno Unit) := do
  match ← vfsPathLookup env path lookupDirectory pwd with
  | .error _ => stuck
  | .ok target => do
    let child ← inodeAt (← dentryInode target.dentry)
    if sIsdir child.mode = false then do
      vfsPathPut target
      pure (.error .enotdir)
    else do
      let dir ← parentInode target.dentry
      match vfsInodePermission env (← inodeAt dir) (mayWrite ||| mayExec) with
      | .error e => do
        vfsPathPut target
        pure (.error e)
      | .ok () => do
        withOps dir
        let ret ← tmpfsRmdir dir target.dentry
        vfsPathPut target
        pure ret

/-- The part of `vfs_link` for the new path. -/
def linkNew (old : Path) (newpath : List Char) (pwd : Path) : K (Except Errno Unit) := do
  match ← vfsPathParent env newpath pwd with
  | .error e => pure (.error e)
  | .ok (parent, name) => do
    let i ← inodeAt (← dentryInode parent.dentry)
    match vfsInodePermission env i (mayWrite ||| mayExec) with
    | .error e => do
      vfsPathPut parent
      pure (.error e)
    | .ok () => do
      let ret ← createEntry env parent.dentry name (lastUncut newpath) fun dir dentry =>
        tmpfsLink old.dentry dir dentry
      vfsPathPut parent
      pure ret

def vfsLink (oldpath newpath : List Char) (pwd : Path) : K (Except Errno Unit) := do
  match ← vfsPathLookup env oldpath lookupFollow pwd with
  | .error _ => stuck
  | .ok old => do
    let i ← inodeAt (← dentryInode old.dentry)
    if sIsdir i.mode then do
      vfsPathPut old
      pure (.error .eperm)
    else do
      let ret ← linkNew env old newpath pwd
      vfsPathPut old
      pure ret

/-! ## Renaming -/

/-- The target of `vfs_rename` when it does not exist: a dentry without an inode. -/
def renameTarget (newpath : List Char) (pwd : Path) : K (Except Errno Path) := do
  match ← vfsPathParent env newpath pwd with
  | .error e => pure (.error e)
  | .ok (parent, name) => do
    let i ← inodeAt (← dentryInode parent.dentry)
    match vfsInodePermission env i (mayWrite ||| mayExec) with
    | .error e => do
      vfsPathPut parent
      pure (.error e)
    | .ok () =>
      match ← kheapAlloc (name.length + 1) with
      | none => do
        vfsPathPut parent
        pure (.error .enomem)
      | some _ =>
        match ← vfsDalloc env parent.dentry name with
        | none => do
          vfsPathPut parent
          pure (.error .enomem)
        | some dentry =>
          match ← kheapAllocObject with
          | none => do
            vfsDput dentry
            vfsPathPut parent
            pure (.error .enomem)
          | some _ => do
            vfsMntget parent.mnt
            vfsPathPut parent
            pure (.ok ⟨parent.mnt, dentry⟩)

/-- The part of `vfs_rename` with both paths. -/
def renamePaths (old new : Path) : K (Except Errno Unit) := do
  let oldDir ← parentInode old.dentry
  match vfsInodePermission env (← inodeAt oldDir) (mayWrite ||| mayExec) with
  | .error e => pure (.error e)
  | .ok () => do
    let newDir ← parentInode new.dentry
    match vfsInodePermission env (← inodeAt newDir) (mayWrite ||| mayExec) with
    | .error e => pure (.error e)
    | .ok () => do
      withOps oldDir
      tmpfsRename oldDir old.dentry newDir new.dentry

/-- `vfs_rename` with the source and what the lookup of the target has found. -/
def renameFrom (old : Path) (found : Except Errno Path) (newpath : List Char) (pwd : Path) :
    K (Except Errno Unit) := do
  let target ←
    match found with
    | .error .enoent => renameTarget env newpath pwd
    | res => pure res
  match target with
  | .error e => pure (.error e)
  | .ok new => do
    let ret ← renamePaths env old new
    vfsPathPut new
    pure ret

def vfsRename (oldpath newpath : List Char) (pwd : Path) : K (Except Errno Unit) := do
  match ← vfsPathLookup env oldpath lookupFollow pwd with
  | .error _ => stuck
  | .ok old => do
    let found ← vfsPathLookup env newpath lookupFollow pwd
    let ret ← renameFrom env old found newpath pwd
    vfsPathPut old
    pure ret

/-! ## Attributes -/

def vfsSetattr (path : List Char) (attr : Iattr) (pwd : Path) : K (Except Errno Unit) := do
  match ← vfsPathLookup env path lookupFollow pwd with
  | .error e => pure (.error e)
  | .ok ps => do
    let p ← dentryInode ps.dentry
    match vfsInodePermission env (← inodeAt p) mayWrite with
    | .error e => do
      vfsPathPut ps
      pure (.error e)
    | .ok () => do
      withOps p
      let ret ← tmpfsSetattr env ps.dentry attr
      vfsPathPut ps
      pure ret

/-! ## Opening -/

/-- `perm_mask` of `vfs_open`. `O_RDWR` is `2`, so that `O_WRONLY` reads. -/
def permMask (flags : Flags) : Flags :=
  let acc := flags &&& oRdwr
  (if acc ≠ oWronly then mayRead else 0) ||| (if acc ≠ oRdonly then mayWrite else 0)

/-- The flags of the lookups of `vfs_open`. -/
def openLookup (flags : Flags) : Flags := if has flags oNofollow then 0 else lookupFollow

/-- The parent and the name of `vfs_open`, cut at the last slash. The parent of a path
with its only slash in front is the empty string. -/
def splitOpen (path : List Char) : List Char × Name :=
  let name := (path.reverse.takeWhile (· != '/')).reverse
  match path.reverse.dropWhile (· != '/') with
  | [] => (['.'], name)
  | _ :: before => (before.reverse, name)

def vfsCreate (dir dentry : Ptr) (mode : Mode) : K (Except Errno Unit) := do
  match vfsInodePermission env (← inodeAt dir) (mayWrite ||| mayExec) with
  | .error e => pure (.error e)
  | .ok () => do
    withOps dir
    tmpfsCreate env dir dentry mode

/-- What the part of `vfs_open` under the lock of the parent has found or done. -/
inductive Created where
  | found | created | failed (e : Errno)
deriving DecidableEq, Repr

/-- The part of `vfs_open` under the lock. -/
def openLocked (parent dentry : Ptr) (name : Name) (mode : Mode) : K Created := do
  if ← vfsFileExists env parent name name then pure .found
  else do
    match ← vfsCreate env (← dentryInode parent) dentry (mode &&& ~~~vfsDefaultUmask) with
    | .error e => pure (.failed e)
    | .ok () => do
      vfsDcacheAdd env dentry
      pure .created

/-- Open the dentry in the directory `parent`, which is released. -/
def openChild (parent : Path) (dentry : Ptr) (flags : Flags) : K (Except Errno Ptr) := do
  match ← kheapAllocObject with
  | none => do
    vfsDput dentry
    vfsPathPut parent
    pure (.error .enomem)
  | some _ => do
    vfsMntget parent.mnt
    vfsPathPut parent
    vfsDoOpen env ⟨parent.mnt, dentry⟩ flags (permMask flags)

/-- The part of `vfs_open` after the lock. A name that another task has created is opened, with a
dentry of its own, unless the call is exclusive. -/
def createEnd (parent : Path) (name : Name) (dentry : Ptr) (flags : Flags) :
    Created → K (Except Errno Ptr)
  | .failed e => do
    vfsDput dentry
    vfsPathPut parent
    pure (.error e)
  | .created => openChild env parent dentry flags
  | .found => do
    vfsDput dentry
    if has flags oExcl then do
      vfsPathPut parent
      pure (.error .eexist)
    else
      match ← vfsDalloc env parent.dentry name with
      | none => do
        vfsPathPut parent
        pure (.error .enomem)
      | some dentry => openChild env parent dentry flags

/-- The part of `vfs_open` that creates. -/
def openCreate (parent : Path) (name : Name) (flags : Flags) (mode : Mode) : K (Except Errno Ptr) :=
  do
  match ← vfsDalloc env parent.dentry name with
  | none => do
    vfsPathPut parent
    pure (.error .enomem)
  | some dentry => do
    let made ← openLocked env parent.dentry dentry name mode
    createEnd env parent name dentry flags made

/-- `vfs_open` for a path that does not exist. -/
def openAbsent (path : List Char) (flags : Flags) (mode : Mode) (pwd : Path) :
    K (Except Errno Ptr) := do
  if has flags oCreat = false then pure (.error .enoent)
  else
    match ← kheapAlloc (path.length + 1) with
    | none => pure (.error .enomem)
    | some _ =>
      match ← vfsPathLookup env (splitOpen path).1 (openLookup flags) pwd with
      | .error e => pure (.error e)
      | .ok parent => openCreate env parent (splitOpen path).2 flags mode

/-- `vfs_open` for a path that exists. -/
def openFound (ps : Path) (flags : Flags) : K (Except Errno Ptr) := do
  if has flags oExcl then do
    vfsPathPut ps
    pure (.error .eexist)
  else vfsDoOpen env ps flags (permMask flags)

def vfsOpen (path : List Char) (flags : Flags) (mode : Mode) (pwd : Path) : K (Except Errno Ptr) :=
  do
  match ← vfsPathLookup env path (openLookup flags) pwd with
  | .error .enoent => openAbsent env path flags mode pwd
  | .error e => pure (.error e)
  | .ok ps => openFound env ps flags

end ShiziOS.Fs
