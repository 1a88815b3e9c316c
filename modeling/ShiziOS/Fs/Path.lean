import ShiziOS.Fs.Tmpfs

/-!
# Path lookup

`vfs_path_prs_next`, `vfs_path_lookup` and `vfs_path_parent` of `kernel/fs/vfs.c`. A
string is the list of its characters, without the terminating zero.

The parsers of a lookup form a stack, the innermost first. A round of the loop takes one
component from the first parser, or takes the parser off when it has come to its end, or
puts another on it for the target of a link. `lookupFuel` bounds the rounds.
-/

namespace ShiziOS.Fs

open Exec

variable (env : Env)

def maxSymlinks : Nat := 8

/-! ## One component -/

/-- `vfs_path_prs_t`. -/
structure Prs where
  path : List Char
  currPath : Option Path
  offset : Nat

/-- The offset of the first character from `offset` on that is not a slash. -/
def skipSlashes (path : List Char) (offset : Nat) : Nat :=
  offset + ((path.drop offset).takeWhile (· == '/')).length

/-- The characters from `offset` up to the next slash or the end. -/
def nameAt (path : List Char) (offset : Nat) : Name := (path.drop offset).takeWhile (· != '/')

/-- The path at which a new parser starts; `none` if there is no memory for it. -/
def prsStart (prs : Prs) (pwd : Path) : K (Option Path) := do
  match prs.currPath with
  | some p => pure (some p)
  | none =>
    match ← kheapAllocObject with
    | none => pure none
    | some _ => do
      let p := if prs.path.head? = some '/' then env.vfsRoot else pwd
      vfsPathGet p
      pure (some p)

/-- The dentry of a name in a directory, from the cache or from the file system. Without
memory there is no dentry, and the error path follows the null pointer. -/
def prsDentry (parent : Ptr) (name : Name) : K Ptr := do
  match ← vfsDcacheFind env parent name with
  | some d => pure d
  | none =>
    match ← kheapAlloc (name.length + 1) with
    | none => stuck
    | some _ =>
      match ← vfsDalloc env parent name with
      | none => stuck
      | some d => do
        let dir ← dentryInode parent
        if (← inodeAt dir).hasOps then tmpfsLookup env dir d else stuck

def prsStep (p : Path) (name : Name) : K (Except Errno Path) := do
  let d ← prsDentry env p.dentry name
  match ← kheapAllocObject with
  | none => do
    vfsDput d
    pure (.error .enomem)
  | some _ => do
    vfsMntget p.mnt
    vfsPathPut p
    pure (.ok ⟨p.mnt, d⟩)

/-- `vfs_path_prs_next`: the parser afterwards and the path it has stepped to, or `none`
at the end of the string. -/
def vfsPathPrsNext (prs : Prs) (pwd : Path) : K (Prs × Except Errno (Option Path)) := do
  match ← prsStart env prs pwd with
  | none => pure (prs, .error .enomem)
  | some p =>
    let offset := skipSlashes prs.path prs.offset
    let name := nameAt prs.path offset
    if name = [] then pure (⟨prs.path, some p, offset⟩, .ok none)
    else
      let offset := offset + name.length
      match ← prsStep env p name with
      | .error e => pure (⟨prs.path, some p, offset⟩, .error e)
      | .ok p' => pure (⟨prs.path, some p', offset⟩, .ok (some p'))

/-! ## Mounts and links -/

/-- The loop of `vfs_find_mount`, depth first; the stack holds its top first. -/
def findMountLoop (s : Vfs) (dentry : Ptr) : (fuel : Nat) → List Ptr → Option (Option Ptr)
  | _, [] => some none
  | 0, _ :: _ => none
  | fuel + 1, cur :: stack =>
    match s.mounts.get cur with
    | none => none
    | some m =>
      if m.mountpoint = some dentry then some (some cur)
      else findMountLoop s dentry fuel (m.mntMounts.reverse ++ stack)

/-- `vfs_find_mount` where the counter of the mounts is `count`. Without memory for its stack it
finds nothing. -/
def vfsFindMountWith (count : Nat) (dentry : Ptr) : K (Option Ptr) := do
  match ← kheapAlloc (8 * count) with
  | none => pure none
  | some _ => do
    let s ← get
    match ← ofOption (findMountLoop s dentry s.mounts.next s.mountRoot.toList) with
    | none => pure none
    | some m => do
      vfsMntget m
      pure (some m)

/-- `vfs_find_mount` with a stack of one page, see `vfsFindMountWith_eq`. -/
def vfsFindMount (dentry : Ptr) : K (Option Ptr) := vfsFindMountWith 1 dentry

def vfsReadlink (dentry : Ptr) (bufsiz : Nat) : K (Except Errno Name) := do
  match (← dentryAt dentry).inode with
  | none => pure (.error .einval)
  | some p => do
    let i ← inodeAt p
    if sIslnk i.mode = false then pure (.error .einval)
    else if i.hasOps then tmpfsReadlink i bufsiz
    else stuck

/-! ## The loop -/

/-- The end of a lookup that fails: the paths of all parsers are released. -/
def putStack : List Prs → K Unit
  | [] => pure ()
  | prs :: stack => do
    match prs.currPath with
    | none => putStack stack
    | some p => do
      vfsPathPut p
      putStack stack

/-- A round of the loop goes on with a stack or ends the lookup. -/
inductive Round where
  | next (stack : List Prs)
  | done (res : Except Errno Path)

def failRound (stack : List Prs) (e : Errno) : K Round := do
  -- the frames are released from the outermost on
  putStack stack.reverse
  pure (.done (.error e))

/-- The outermost parser has come to its end. -/
def lookupEnd (flags : Flags) (prs : Prs) : K Round := do
  let p ← ofOption prs.currPath
  match (← dentryAt p.dentry).inode with
  | none => failRound [prs] .enoent
  | some i => do
    if Flags.has flags lookupDirectory && !sIsdir (← inodeAt i).mode then failRound [prs] .enotdir
    else pure (.done (.ok p))

/-- A parser of a link has come to its end; the one below goes on from there. -/
def popLink (prs up : Prs) (below : List Prs) : K Round := do
  match up.currPath with
  | none => pure (.next ({ up with currPath := prs.currPath } :: below))
  | some p => do
    vfsPathPut p
    pure (.next ({ up with currPath := prs.currPath } :: below))

/-- The path has come to a mount point; the lookup goes on at the root of the mount. -/
def crossMount (prs : Prs) (below : List Prs) (p : Path) : K Round := do
  match ← vfsFindMount p.dentry with
  | none => failRound (prs :: below) .enoent
  | some m =>
    match ← kheapAllocObject with
    | none => failRound (prs :: below) .enomem
    | some _ => do
      let root := (← mountAt m).root
      vfsDget root
      vfsPathPut p
      pure (.next ({ prs with currPath := some ⟨m, root⟩ } :: below))

/-- The path has come to a link, whose target gets a parser of its own. A target that is
not absolute starts at the link. -/
def followLink (prs : Prs) (below : List Prs) (p : Path) : K Round := do
  if maxSymlinks ≤ below.length + 1 then failRound (prs :: below) .eloop
  else do
    vfsPathGet p
    match ← vfsReadlink p.dentry (pathMax - 1) with
    | .error e => do
      vfsPathPut p
      failRound (prs :: below) e
    | .ok target =>
      match ← kheapAlloc (target.length + 1) with
      | none => do
        vfsPathPut p
        failRound (prs :: below) .enomem
      | some _ =>
        match ← kheapAllocObject with
        | none => do
          vfsPathPut p
          failRound (prs :: below) .enomem
        | some _ => do
          let base := if target.head? = some '/' then env.vfsRoot else p
          vfsPathGet base
          pure (.next (⟨target, some base, 0⟩ :: prs :: below))

/-- The mode of the inode of a dentry, also where there is none. -/
def modeOf (d : Dentry) : K Mode := do
  match d.inode with
  | none => ofOption env.nullMode
  | some i => do pure (← inodeAt i).mode

/-- What is done with the path that a parser has stepped to. -/
def lookupVisit (flags : Flags) (prs : Prs) (below : List Prs) (p : Path) : K Round := do
  let d ← dentryAt p.dentry
  if d.mounted then crossMount prs below p
  else
    let mode ← modeOf env d
    if sIslnk mode && Flags.has flags lookupFollow then followLink env prs below p
    else pure (.next (prs :: below))

def lookupRound (flags : Flags) (pwd : Path) : List Prs → K Round
  | [] => stuck
  | prs :: below => do
    match ← vfsPathPrsNext env prs pwd with
    | (prs, .error e) => failRound (prs :: below) e
    | (prs, .ok none) =>
      match below with
      | [] => lookupEnd flags prs
      | up :: below => popLink prs up below
    | (prs, .ok (some p)) => lookupVisit env flags prs below p

def lookupLoop (flags : Flags) (pwd : Path) : (fuel : Nat) → List Prs → K (Except Errno Path)
  | 0, _ => stuck
  | fuel + 1, stack => do
    match ← lookupRound env flags pwd stack with
    | .done res => pure res
    | .next stack => lookupLoop flags pwd fuel stack

/-- More rounds than a lookup of a string of this length can take. -/
def lookupFuel (length : Nat) : Nat := (length + 1) * (pathMax + 1) ^ (maxSymlinks - 1) + 1

def vfsPathLookup (path : List Char) (flags : Flags) (pwd : Path) : K (Except Errno Path) := do
  match ← kheapAlloc (path.length + 1) with
  | none => pure (.error .enomem)
  | some _ => lookupLoop env flags pwd (lookupFuel path.length) [⟨path, none, 0⟩]

/-! ## The parent directory -/

/-- A path without its trailing slashes, cut at its last slash: what stands before it, or
`none` without a slash, and the last component. -/
def splitLast (path : List Char) : Option (List Char) × Name :=
  let rev := path.reverse.dropWhile (· == '/')
  let name := (rev.takeWhile (· != '/')).reverse
  match rev.dropWhile (· != '/') with
  | [] => (none, name)
  | _ :: before => (some before.reverse, name)

/-- `vfs_path_parent`: the parent directory and the last component. -/
def vfsPathParent (path : List Char) (pwd : Path) : K (Except Errno (Path × Name)) := do
  if path.all (· == '/') then pure (.error .enoent)
  else
    let lookup (parent : List Char) : K (Except Errno (Path × Name)) := do
      match ← vfsPathLookup env parent lookupDirectory pwd with
      | .error e => pure (.error e)
      | .ok p => pure (.ok (p, (splitLast path).2))
    match (splitLast path).1 with
    | none => lookup ['.']
    | some [] => lookup ['/']
    | some parent => do
      match ← kheapAlloc (parent.length + 1) with
      | none => pure (.error .enomem)
      | some _ => lookup parent

end ShiziOS.Fs
