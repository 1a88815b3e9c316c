import ShiziOS.Fs.TmpfsData

/-!
# Directories of tmpfs

The operations of `tmpfs_inode_operations` in `kernel/fs/tmpfs/tmpfs.c`. Every inode of a
tmpfs has a list of entries; directories, files and links share one table of operations.
A directory entry is looked up by its name, and of several entries of one name the first
is found, so an entry that was found is known by its name.
-/

namespace ShiziOS.Fs

open Exec

variable (env : Env)

def decr64 (n : Nat) : Nat := (n + 2 ^ 64 - 1) % 2 ^ 64

/-! ## Inode numbers and inodes -/

/-- The first clear bit from `hint` on. -/
def bitmapFind (bits : List Bool) (hint : Nat) : Option Nat :=
  ((List.range bits.length).drop hint).find? fun k => !bits.getD k true

/-- `dynarr_bitmap_alloc`. A full bitmap is doubled; its `current_count` is zero, so that
nothing of the old one is copied. -/
def bitmapAlloc (bits : List Bool) (hint : Nat) : Exec Oracle (Option (Nat × List Bool)) := do
  match bitmapFind bits hint with
  | some k => pure (some (k, bits.set k true))
  | none =>
    let bytes := max (bits.length / 8 * 2) 16
    match ← Oracle.alloc bytes with
    | none => pure none
    | some _ =>
      let bits := List.replicate (bytes * 8) false
      pure ((bitmapFind bits hint).map fun k => (k, bits.set k true))

def tmpfsAllocIno (sb : Ptr) : K (Option Nat) := do
  match ← onHeap (bitmapAlloc (← sbAt sb).inodeBitmap 1) with
  | none => pure none
  | some (ino, bits) => do
    setSb sb fun v => { v with inodeBitmap := bits }
    pure (some ino)

def tmpfsFreeIno (sb : Ptr) (ino : Nat) : K Unit :=
  setSb sb fun v => { v with inodeBitmap := v.inodeBitmap.set ino false }

/-- `tmpfs_alloc_inode`; `none` for `NULL`. -/
def tmpfsAllocInode (sb : Ptr) : K (Option Ptr) := do
  match ← kheapAllocObject with
  | none => pure none
  | some _ =>
    match ← kheapAllocObject with
    | none => pure none
    | some _ => do
      let p := (← get).inodes.next
      let i : Inode := {
        ino := 0, rdev := 0, mode := 0, uid := 0, gid := 0, data := ⟨0, 0, 0, none⟩, atime := 0
        mtime := 0, ctime := 0, nlink := 0, hasOps := false, fop := none, sb := sb, count := 0
        hashNext := none, dirList := [], symlinkTarget := none }
      modify fun s => { s with inodes := s.inodes.alloc i }
      pure (some p)

def tmpfsDestroyInode (p : Ptr) : K Unit := do
  let _ ← inodeAt p
  modify fun s => { s with inodes := s.inodes.erase p }

def tmpfsInodeInit (p sb : Ptr) (mode : Mode) : K (Except Errno Unit) := do
  match ← tmpfsAllocIno sb with
  | none => pure (.error .enospc)
  | some ino => do
    setInode p fun i => { i with
      ino := ino, mode := mode, uid := env.uid, gid := env.gid, atime := env.now
      mtime := env.now, ctime := env.now, sb := sb }
    vfsIcacheAdd env p
    pure (.ok ())

/-- A new inode with a number; on failure there is none. -/
def tmpfsNewInode (sb : Ptr) (mode : Mode) : K (Except Errno Ptr) := do
  match ← tmpfsAllocInode sb with
  | none => pure (.error .enomem)
  | some p =>
    match ← tmpfsInodeInit env p sb mode with
    | .ok () => pure (.ok p)
    | .error e => do
      tmpfsDestroyInode p
      pure (.error e)

/-- The label `fail`: `tmpfs_evict_inode` and `tmpfs_destroy_inode` of a new inode, which
has no pages yet. It stays in the cache. -/
def tmpfsDropInode (p : Ptr) : K Unit := do
  let i ← inodeAt p
  tmpfsFreeIno i.sb i.ino
  tmpfsDestroyInode p

/-! ## Entries -/

def tmpfsDirLookup (l : List DirEntry) (name : Name) : Option DirEntry :=
  l.find? fun de => de.name == name

def tmpfsDirAdd (dir : Ptr) (name : Name) (ino : Nat) : K (Except Errno Unit) := do
  match ← kheapAllocObject with
  | none => pure (.error .enomem)
  | some _ =>
    match ← kheapAlloc (name.length + 1) with
    | none => pure (.error .enomem)
    | some _ => do
      setInode dir fun i => { i with dirList := i.dirList ++ [⟨name, ino⟩] }
      pure (.ok ())

/-- `tmpfs_dir_remove` of the entry that was found for a name. -/
def tmpfsDirRemove (dir : Ptr) (name : Name) : K Unit :=
  setInode dir fun i => { i with dirList := i.dirList.eraseP fun de => de.name == name }

/-- No entry but `.` and `..`. -/
def dirEmpty (l : List DirEntry) : Bool := l.all fun de => de.name == ['.'] || de.name == ['.', '.']

def tmpfsLookup (dir dentry : Ptr) : K Ptr := do
  let tdir ← inodeAt dir
  let d ← dentryAt dentry
  match tmpfsDirLookup tdir.dirList d.name with
  | none => pure dentry
  | some de =>
    match ← vfsIcacheFind env tdir.sb de.ino with
    | none => pure dentry
    | some i => do
      setDentry dentry fun d => { d with inode := some i }
      pure dentry

/-- Enter a new inode under the name of a dentry, as `tmpfs_create`, `tmpfs_symlink` and
`tmpfs_mkdir` do; an entry of that name is an error. -/
def tmpfsEnter (dir dentry inode : Ptr) : K (Except Errno Unit) := do
  let d ← dentryAt dentry
  let tdir ← inodeAt dir
  match tmpfsDirLookup tdir.dirList d.name with
  | some _ => do
    tmpfsDropInode inode
    pure (.error .eexist)
  | none => do
    match ← tmpfsDirAdd dir d.name (← inodeAt inode).ino with
    | .error e => do
      tmpfsDropInode inode
      pure (.error e)
    | .ok () => pure (.ok ())

def setDentryInode (dentry : Ptr) (inode : Option Ptr) : K Unit :=
  setDentry dentry fun d => { d with inode := inode }

def tmpfsCreate (dir dentry : Ptr) (mode : Mode) : K (Except Errno Unit) := do
  match ← tmpfsNewInode env (← inodeAt dir).sb (mode &&& ~~~sIfmt ||| sIfreg) with
  | .error e => pure (.error e)
  | .ok p => do
    setInode p fun i => { i with fop := some .tmpfs, nlink := 1, hasOps := true }
    match ← tmpfsEnter dir dentry p with
    | .error e => pure (.error e)
    | .ok () => do
      setDentryInode dentry (some p)
      pure (.ok ())

def pathMax : Nat := 4096

/-- `tmpfs_symlink`. A target that is too long or for which there is no memory leaves the
number of the destroyed inode in use. -/
def tmpfsSymlink (dir dentry : Ptr) (target : Name) : K (Except Errno Unit) := do
  match ← tmpfsNewInode env (← inodeAt dir).sb (sIflnk ||| 0o777) with
  | .error e => pure (.error e)
  | .ok p => do
    setInode p fun i => { i with hasOps := true, nlink := 1 }
    if pathMax ≤ target.length then do
      tmpfsDestroyInode p
      pure (.error .enametoolong)
    else
      match ← kheapAlloc (target.length + 1) with
      | none => do
        tmpfsDestroyInode p
        pure (.error .enomem)
      | some _ => do
        let size := target.length
        setInode p fun i => { i with
          symlinkTarget := some target, data := ⟨size, blocksOf size, size, none⟩ }
        match ← tmpfsEnter dir dentry p with
        | .error e => pure (.error e)
        | .ok () => do
          setDentryInode dentry (some p)
          pure (.ok ())

/-- `tmpfs_link`; it does not look for an entry of that name. -/
def tmpfsLink (old dir new : Ptr) : K (Except Errno Unit) := do
  let p ← dentryInode old
  match ← tmpfsDirAdd dir (← dentryAt new).name (← inodeAt p).ino with
  | .error e => pure (.error e)
  | .ok () => do
    setInode p fun i => { i with nlink := (i.nlink + 1) % 2 ^ 64 }
    setDentryInode new (some p)
    vfsIget p
    pure (.ok ())

def tmpfsUnlink (dir dentry : Ptr) : K (Except Errno Unit) := do
  let d ← dentryAt dentry
  match tmpfsDirLookup (← inodeAt dir).dirList d.name with
  | none => pure (.error .enoent)
  | some _ => do
    tmpfsDirRemove dir d.name
    setInode (← dentryInode dentry) fun i => { i with nlink := decr64 i.nlink }
    setDentryInode dentry none
    pure (.ok ())

/-- The entries `.` and `..` of a new directory. -/
def tmpfsDots (p : Ptr) (parentIno : Nat) : K (Except Errno Unit) := do
  match ← tmpfsDirAdd p ['.'] (← inodeAt p).ino with
  | .error e => pure (.error e)
  | .ok () =>
    match ← tmpfsDirAdd p ['.', '.'] parentIno with
    | .error e => do
      tmpfsDirRemove p ['.']
      pure (.error e)
    | .ok () => pure (.ok ())

def tmpfsMkdir (dir dentry : Ptr) (mode : Mode) : K (Except Errno Unit) := do
  match ← tmpfsNewInode env (← inodeAt dir).sb (mode &&& ~~~sIfmt ||| sIfdir) with
  | .error e => pure (.error e)
  | .ok p => do
    setInode p fun i => { i with hasOps := true, nlink := 2 }
    match ← tmpfsEnter dir dentry p with
    | .error e => pure (.error e)
    | .ok () =>
      match ← tmpfsDots p (← inodeAt dir).ino with
      | .error e => do
        tmpfsDirRemove dir (← dentryAt dentry).name
        tmpfsDropInode p
        pure (.error e)
      | .ok () => do
        setInode dir fun i => { i with nlink := (i.nlink + 1) % 2 ^ 64 }
        setDentryInode dentry (some p)
        pure (.ok ())

def tmpfsRmdir (dir dentry : Ptr) : K (Except Errno Unit) := do
  let child ← dentryInode dentry
  if dirEmpty (← inodeAt child).dirList = false then pure (.error .enotempty)
  else
    let d ← dentryAt dentry
    match tmpfsDirLookup (← inodeAt dir).dirList d.name with
    | none => pure (.error .enoent)
    | some _ => do
      tmpfsDirRemove dir d.name
      setInode child fun i => { i with nlink := decr64 i.nlink }
      setInode dir fun i => { i with nlink := decr64 i.nlink }
      setDentryInode dentry none
      pure (.ok ())

/-- `tmpfs_mknod`; it neither sets `ops` nor looks for an entry of that name. -/
def tmpfsMknod (dir dentry : Ptr) (mode : Mode) (dev : Nat) : K (Except Errno Unit) := do
  match ← tmpfsNewInode env (← inodeAt dir).sb mode with
  | .error e => pure (.error e)
  | .ok p => do
    setInode p fun i => { i with rdev := dev, fop := some .dev }
    match ← tmpfsDirAdd dir (← dentryAt dentry).name (← inodeAt p).ino with
    | .error e => do
      tmpfsDropInode p
      pure (.error e)
    | .ok () => do
      setDentryInode dentry (some p)
      pure (.ok ())

/-! ## Renaming -/

/-- The loop of `tmpfs_rename` over the ancestors of the target: is the source among them? -/
def isAncestor (s : Vfs) (inode : Ptr) : (fuel : Nat) → Option Ptr → Option Bool
  | _, none => some false
  | 0, some _ => none
  | fuel + 1, some p =>
    match s.dentries.get p with
    | none => none
    | some d => if d.inode = some inode then some true else isAncestor s inode fuel d.parent

/-- Replace the entry that is found for `name`. -/
def replaceEntry (name : Name) (f : DirEntry → DirEntry) : List DirEntry → List DirEntry
  | [] => []
  | de :: l => if de.name == name then f de :: l else de :: replaceEntry name f l

/-- Give the entry that is found for `name` another name. -/
def renameEntry (name newName : Name) : List DirEntry → List DirEntry :=
  replaceEntry name fun de => ⟨newName, de.ino⟩

/-- Change the number of the entry that is found for `name`. -/
def setEntryIno (name : Name) (ino : Nat) : List DirEntry → List DirEntry :=
  replaceEntry name fun _ => ⟨name, ino⟩

/-- The inode that a rename replaces, if there is one. -/
def targetInode (p : Option Ptr) : K (Option Inode) := do
  match p with
  | none => pure none
  | some p => do pure (some (← inodeAt p))

/-- The checks of `tmpfs_rename` before it changes anything. -/
def renameCheck (oldDir oldInode newDir new : Ptr) : K (Except Errno Unit) := do
  let i ← inodeAt oldInode
  let d ← dentryAt new
  let target ← targetInode d.inode
  if target.any (fun v => sIsdir v.mode && !sIsdir i.mode) then pure (.error .eisdir)
  else if target.any (fun v => sIsdir v.mode && decide (d.inode ≠ some oldInode) &&
    !dirEmpty v.dirList)
    then pure (.error .enotempty)
  else if sIsdir i.mode ∧ oldDir ≠ newDir then do
    let s ← get
    if ← ofOption (isAncestor s oldInode s.dentries.next d.parent) then pure (.error .einval)
    else pure (.ok ())
  else pure (.ok ())

/-- A directory that moves gets the new parent as its `..`. Its lock is taken for that while those
of the old and the new parent are held, and is not to be had if it is one of them. -/
def moveDotdot (oldDir oldInode newDir : Ptr) : K Unit := do
  if sIsdir (← inodeAt oldInode).mode then
    if oldInode = oldDir ∨ oldInode = newDir then stuck
    else do
      let ino := (← inodeAt newDir).ino
      setInode oldInode fun i => { i with dirList := setEntryIno ['.', '.'] ino i.dirList }
      setInode oldDir fun i => { i with nlink := decr64 i.nlink }
      setInode newDir fun i => { i with nlink := (i.nlink + 1) % 2 ^ 64 }
  else pure ()

def moveEntry (oldDir oldInode newDir : Ptr) (oldName newName : Name) : K (Except Errno Unit) := do
  if oldDir = newDir then
    match ← kheapAlloc (newName.length + 1) with
    | none => pure (.error .enomem)
    | some _ => do
      setInode oldDir fun i => { i with dirList := renameEntry oldName newName i.dirList }
      pure (.ok ())
  else
    match ← tmpfsDirAdd newDir newName (← inodeAt oldInode).ino with
    | .error e => pure (.error e)
    | .ok () => do
      tmpfsDirRemove oldDir oldName
      moveDotdot oldDir oldInode newDir
      pure (.ok ())

/-- The last part of `tmpfs_rename`: move the entry and the inode. -/
def renameMove (oldDir old oldInode newDir new : Ptr) : K (Except Errno Unit) := do
  match ← moveEntry oldDir oldInode newDir (← dentryAt old).name (← dentryAt new).name with
  | .error e => pure (.error e)
  | .ok () => do
    setDentryInode old none
    setDentryInode new (some oldInode)
    pure (.ok ())

def tmpfsRename (oldDir old newDir new : Ptr) : K (Except Errno Unit) := do
  match (← dentryAt old).inode with
  | none => pure (.error .enoent)
  | some oldInode =>
    match ← renameCheck oldDir oldInode newDir new with
    | .error e => pure (.error e)
    | .ok () => do
      let oldName := (← dentryAt old).name
      let d ← dentryAt new
      match tmpfsDirLookup (← inodeAt oldDir).dirList oldName with
      | none => pure (.error .enoent)
      | some _ =>
        match d.inode with
        | none => renameMove oldDir old oldInode newDir new
        | some newInode =>
          match tmpfsDirLookup (← inodeAt newDir).dirList d.name with
          | none => renameMove oldDir old oldInode newDir new
          | some _ =>
            if oldDir = newDir ∧ oldName = d.name then pure (.ok ())
            else do
              tmpfsDirRemove newDir d.name
              setInode newInode fun i => { i with nlink := decr64 i.nlink }
              renameMove oldDir old oldInode newDir new

/-! ## Attributes and links -/

/-- `struct iattr`; a field that is not valid is `none`. -/
structure Iattr where
  size : Option Nat
  mode : Option Mode
  uid : Option Nat
  gid : Option Nat
  atime : Option Nat
  mtime : Option Nat

/-- The part of `tmpfs_setattr` for the size. -/
def setattrSize (p : Ptr) (size : Option Nat) : K (Except Errno Unit) := do
  match size with
  | none => pure (.ok ())
  | some size => do
    let i ← inodeAt p
    let (ret, sb, data) ← onHeap (tmpfsSetSize (← sbAt i.sb) i.data size)
    setSb i.sb fun _ => sb
    setInode p fun i => { i with data := data }
    pure ret

def tmpfsSetattr (dentry : Ptr) (attr : Iattr) : K (Except Errno Unit) := do
  let p ← dentryInode dentry
  match ← setattrSize p attr.size with
  | .error e => pure (.error e)
  | .ok () => do
    setInode p fun i => { i with
      mode := (attr.mode.map fun mode => i.mode &&& sIfmt ||| mode &&& ~~~sIfmt).getD i.mode
      uid := attr.uid.getD i.uid
      gid := attr.gid.getD i.gid
      atime := attr.atime.getD i.atime
      mtime := attr.mtime.getD i.mtime
      ctime := env.now }
    pure (.ok ())

/-- `tmpfs_readlink` with a buffer of `bufsiz` bytes. -/
def tmpfsReadlink (i : Inode) (bufsiz : Nat) : K (Except Errno Name) :=
  match i.symlinkTarget with
  | none => pure (.error .einval)
  | some target =>
    let len := min i.data.dataSize bufsiz
    if len ≤ target.length then pure (.ok (target.take len)) else stuck

end ShiziOS.Fs
