import ShiziOS.Fs.GraphRename
import ShiziOS.Fs.StillFiles

/-!
# The operation that a call comes to

Every call works on the directories through at most one operation of tmpfs. What comes before
it looks things up, what comes after it counts references and fills caches. `Call.dirOp` is the
part of a call up to that operation: it gives the operation with its arguments, in the state in
which the call hands it to tmpfs (`Call.dirOp_prepares`, `Call.run_follows`).
-/

namespace ShiziOS.Fs

open Exec Option

/-! ## Operations -/

/-- The operations of `tmpfs_inode_operations` that change directories. -/
inductive DirOp where
  | create (dir dentry : Ptr) (mode : Mode)
  | symlink (dir dentry : Ptr) (target : Name)
  | mknod (dir dentry : Ptr) (mode : Mode) (dev : Nat)
  | mkdir (dir dentry : Ptr) (mode : Mode)
  | link (old dir new : Ptr)
  | unlink (dir dentry : Ptr)
  | rmdir (dir dentry : Ptr)
  | rename (oldDir old newDir new : Ptr)

/-- The directories that an operation changes. -/
def DirOp.dirs : DirOp → List Ptr
  | .create dir _ _ | .symlink dir _ _ | .mknod dir _ _ _ | .mkdir dir _ _ | .link _ dir _
  | .unlink dir _ | .rmdir dir _ => [dir]
  | .rename oldDir _ newDir _ => [oldDir, newDir]

def DirOp.renames : DirOp → Bool
  | .rename .. => true
  | _ => false

section

variable (env : Env)

def DirOp.run : DirOp → K (Except Errno Unit)
  | .create dir dentry mode => tmpfsCreate env dir dentry mode
  | .symlink dir dentry target => tmpfsSymlink env dir dentry target
  | .mknod dir dentry mode dev => tmpfsMknod env dir dentry mode dev
  | .mkdir dir dentry mode => tmpfsMkdir env dir dentry mode
  | .link old dir new => tmpfsLink old dir new
  | .unlink dir dentry => tmpfsUnlink dir dentry
  | .rmdir dir dentry => tmpfsRmdir dir dentry
  | .rename oldDir old newDir new => tmpfsRename oldDir old newDir new

/-- A call that goes on in the parent directory of a path, if the task may write there. -/
def opInParent (path : List Char) (pwd : Path) (op : Path → Name → K (Option DirOp)) : K
    (Option DirOp) := do
  match ← vfsPathParent env path pwd with
  | .error _ => pure none
  | .ok (parent, name) => do
    let i ← inodeAt (← dentryInode parent.dentry)
    match vfsInodePermission env i (mayWrite ||| mayExec) with
    | .error _ => pure none
    | .ok () => op parent name

/-- A call that makes an entry, if there is none of that name. -/
def opNew (parent : Ptr) (name uncut : Name) (op : (dir dentry : Ptr) → DirOp) :
    K (Option DirOp) := do
  match ← kheapAlloc (name.length + 1) with
  | none => pure none
  | some _ =>
    match ← vfsDalloc env parent name with
    | none => pure none
    | some dentry => do
      if ← vfsFileExists env parent name uncut then pure none
      else do
        let dir ← dentryInode parent
        withOps dir
        pure (some (op dir dentry))

def opUnlink (parent : Ptr) (name : Name) : K (Option DirOp) := do
  match ← kheapAlloc (name.length + 1) with
  | none => pure none
  | some _ =>
    match ← vfsDalloc env parent name with
    | none => pure none
    | some dentry => do
      let dir ← dentryInode parent
      withOps dir
      pure (some (.unlink dir dentry))

def opRmdir (path : List Char) (pwd : Path) : K (Option DirOp) := do
  match ← vfsPathLookup env path lookupDirectory pwd with
  | .error _ => pure none
  | .ok target => do
    let child ← inodeAt (← dentryInode target.dentry)
    if sIsdir child.mode = false then pure none
    else do
      let dir ← parentInode target.dentry
      match vfsInodePermission env (← inodeAt dir) (mayWrite ||| mayExec) with
      | .error _ => pure none
      | .ok () => do
        withOps dir
        pure (some (.rmdir dir target.dentry))

def opLink (oldpath newpath : List Char) (pwd : Path) : K (Option DirOp) := do
  match ← vfsPathLookup env oldpath lookupFollow pwd with
  | .error _ => pure none
  | .ok old => do
    let i ← inodeAt (← dentryInode old.dentry)
    if sIsdir i.mode then pure none
    else
      opInParent env newpath pwd fun parent name =>
        opNew env parent.dentry name (lastUncut newpath) fun dir dentry =>
          .link old.dentry dir dentry

def opRenamePaths (old new : Path) : K (Option DirOp) := do
  let oldDir ← parentInode old.dentry
  match vfsInodePermission env (← inodeAt oldDir) (mayWrite ||| mayExec) with
  | .error _ => pure none
  | .ok () => do
    let newDir ← parentInode new.dentry
    match vfsInodePermission env (← inodeAt newDir) (mayWrite ||| mayExec) with
    | .error _ => pure none
    | .ok () => do
      withOps oldDir
      pure (some (.rename oldDir old.dentry newDir new.dentry))

def opRename (oldpath newpath : List Char) (pwd : Path) : K (Option DirOp) := do
  match ← vfsPathLookup env oldpath lookupFollow pwd with
  | .error _ => pure none
  | .ok old => do
    let found ← vfsPathLookup env newpath lookupFollow pwd
    let target ←
      match found with
      | .error .enoent => renameTarget env newpath pwd
      | res => pure res
    match target with
    | .error _ => pure none
    | .ok new => opRenamePaths env old new

def opCreate (parent : Ptr) (name : Name) (mode : Mode) : K (Option DirOp) := do
  match ← vfsDalloc env parent name with
  | none => pure none
  | some dentry => do
    if ← vfsFileExists env parent name name then pure none
    else do
      let dir ← dentryInode parent
      match vfsInodePermission env (← inodeAt dir) (mayWrite ||| mayExec) with
      | .error _ => pure none
      | .ok () => do
        withOps dir
        pure (some (.create dir dentry (mode &&& ~~~vfsDefaultUmask)))

def opOpen (path : List Char) (flags : Flags) (mode : Mode) (pwd : Path) : K (Option DirOp) := do
  match ← vfsPathLookup env path (openLookup flags) pwd with
  | .error .enoent =>
    if Flags.has flags oCreat = false then pure none
    else
      match ← kheapAlloc (path.length + 1) with
      | none => pure none
      | some _ =>
        match ← vfsPathLookup env (splitOpen path).1 (openLookup flags) pwd with
        | .error _ => pure none
        | .ok parent => opCreate env parent.dentry (splitOpen path).2 mode
  | _ => pure none

/-- The operation that a call comes to, if it comes to one. -/
def Call.dirOp : Call → K (Option DirOp)
  | .open path flags mode pwd => opOpen env path flags mode pwd
  | .mkdir path mode pwd =>
    opInParent env path pwd fun parent name =>
      opNew env parent.dentry name (lastUncut path) fun dir dentry =>
        .mkdir dir dentry (mode &&& ~~~vfsDefaultUmask)
  | .symlink target linkpath pwd =>
    opInParent env linkpath pwd fun parent name =>
      opNew env parent.dentry name (lastUncut linkpath) fun dir dentry =>
        .symlink dir dentry target
  | .mknod path mode dev pwd =>
    if sIschr mode = false ∧ sIsblk mode = false then pure none
    else
      opInParent env path pwd fun parent name =>
        if env.uid ≠ 0 then pure none
        else
          opNew env parent.dentry name (lastUncut path) fun dir dentry =>
            .mknod dir dentry (mode &&& ~~~vfsDefaultUmask) dev
  | .unlink path pwd => opInParent env path pwd fun parent name => opUnlink env parent.dentry name
  | .rmdir path pwd => opRmdir env path pwd
  | .link oldpath newpath pwd => opLink env oldpath newpath pwd
  | .rename oldpath newpath pwd => opRename env oldpath newpath pwd
  | _ => pure none

end

/-! ## Before the operation -/

variable {env : Env} {s s' : Vfs} {α β : Type} {dir : Ptr}

/-- The check of `vfs_create` on the directory. -/
def MayCreate (env : Env) (s : Vfs) (dir : Ptr) : Prop :=
  ∀ i, s.inodes.get dir = some i → vfsInodePermission env i (mayWrite ||| mayExec) = .ok ()

/-- What comes before the operation leaves the permission. -/
theorem MayCreate.quiet (h : MayCreate env s dir) (hq : Quiet s s') : MayCreate env s' dir := by
  intro i' hi'
  obtain ⟨i, hi, hcore⟩ := hq.inode_before hi'
  rw [vfsInodePermission_core _ hcore]
  exact h i hi

/-- The dentry is there, and the task may change the directory it leads to. -/
def MayEnter (env : Env) (s : Vfs) (d : Ptr) : Prop :=
  ∃ v, s.dentries.get d = some v ∧ ∀ p, v.inode = some p → MayCreate env s p

theorem MayEnter.quiet {d : Ptr} (h : MayEnter env s d) (hq : Quiet s s') : MayEnter env s' d := by
  obtain ⟨v, hv, hmay⟩ := h
  obtain ⟨v', hv', hi, -⟩ := hq.dentry hv
  exact ⟨v', hv', fun p hp => (hmay p (hi.symm.trans hp)).quiet hq⟩

/-- Up to its operation a call only looks things up, and the task may change the directories that
the operation changes. Whether it is a rename is known from the call. -/
def Prepares (env : Env) (renames : Bool) (s : Vfs) (y : K (Option DirOp)) : Prop :=
  Spec y s fun o s' => Quiet s s' ∧
    ∀ op, o = some op → op.renames = renames ∧ ∀ p ∈ op.dirs, MayCreate env s' p

variable {b : Bool}

theorem prepares_none : Prepares env b s (pure none) :=
  spec_pure ⟨.refl s, nofun⟩

theorem prepares_op {op : DirOp} (h : ∀ p ∈ op.dirs, MayCreate env s p) :
    Prepares env op.renames s (pure (some op)) :=
  spec_pure ⟨.refl s, fun _ h' => some.inj h' ▸ ⟨rfl, h⟩⟩

/-- Lookups before the operation. -/
theorem prepares_bind {x : K β} {f : β → K (Option DirOp)} (hx : Keeps Quiet x)
    (hf : ∀ a s', Quiet s s' → Prepares env b s' (f a)) : Prepares env b s (x >>= f) := by
  refine (hx s).bind ?_
  intro a s1 h1
  refine (hf a s1 h1).mono ?_
  intro o s2 h2
  exact ⟨h1.trans h2.1, h2.2⟩

theorem MayEnter.prepares {d : Ptr} {f : Ptr → K (Option DirOp)} (h : MayEnter env s d)
    (hf : ∀ dir, MayCreate env s dir → Prepares env b s (f dir)) :
    Prepares env b s (dentryInode d >>= f) := by
  obtain ⟨v, hv, hmay⟩ := h
  apply spec_dentryInode
  intro v' p hv' hp
  cases hv.symm.trans hv'
  exact hf p (hmay p hp)

theorem prepares_withOps {op : DirOp} {q : Ptr} (h : ∀ p ∈ op.dirs, MayCreate env s p) :
    Prepares env op.renames s (do withOps q; pure (some op)) := by
  refine keeps_withOps.read ?_
  intro _
  exact prepares_op h

theorem prepares_ifAllowed {op : K (Option DirOp)} (h : MayCreate env s dir → Prepares env b s op) :
    Prepares env b s (do
      match vfsInodePermission env (← inodeAt dir) (mayWrite ||| mayExec) with
      | .error _ => pure none
      | .ok () => op) := by
  apply spec_inodeAt
  intro i hi
  cases hperm : vfsInodePermission env i (mayWrite ||| mayExec) with
  | error e => exact prepares_none
  | ok _ =>
    refine h ?_
    intro j hj
    cases hi.symm.trans hj
    exact hperm

theorem prepares_opInParent {path : List Char} {pwd : Path} {op : Path → Name → K (Option DirOp)}
    (h : ∀ parent name s', MayEnter env s' parent.dentry → Prepares env b s' (op parent name)) :
    Prepares env b s (opInParent env path pwd op) := by
  refine prepares_bind (keeps_vfsPathParent env path pwd) ?_
  refine unless_error (fun _ _ _ => prepares_none) ?_
  intro r s1 _
  obtain ⟨parent, name⟩ := r
  apply spec_dentryInode
  intro v p hv hp
  refine prepares_ifAllowed fun hmay => h parent name s1 ⟨v, hv, ?_⟩
  intro q hq
  cases hp.symm.trans hq
  exact hmay

variable {parent : Ptr} {name uncut : Name}

theorem prepares_opNew {op : Ptr → Ptr → DirOp}
    (hop : ∀ dir dentry, (op dir dentry).dirs = [dir] ∧ (op dir dentry).renames = false)
    (h : MayEnter env s parent) : Prepares env false s (opNew env parent name uncut op) := by
  refine prepares_bind (keeps_kheapAlloc _) ?_
  refine unless_none (fun _ _ => prepares_none) ?_
  intro a s1 h1
  refine prepares_bind (keeps_vfsDalloc parent name) ?_
  refine unless_none (fun _ _ => prepares_none) ?_
  intro dentry s2 h2
  refine prepares_bind (keeps_vfsFileExists parent name uncut) ?_
  intro found s3 h3
  cases found with
  | true => exact prepares_none
  | false =>
    refine (h.quiet ((h1.trans h2).trans h3)).prepares ?_
    intro dir hmay
    rw [← (hop dir dentry).2]
    exact prepares_withOps (by simpa [hop] using hmay)

theorem prepares_opUnlink (h : MayEnter env s parent) :
    Prepares env false s (opUnlink env parent name) := by
  refine prepares_bind (keeps_kheapAlloc _) ?_
  refine unless_none (fun _ _ => prepares_none) ?_
  intro a s1 h1
  refine prepares_bind (keeps_vfsDalloc parent name) ?_
  refine unless_none (fun _ _ => prepares_none) ?_
  intro dentry s2 h2
  refine (h.quiet (h1.trans h2)).prepares ?_
  intro dir hmay
  exact prepares_withOps (by simpa [DirOp.dirs] using hmay)

theorem prepares_opRmdir (path : List Char) (pwd : Path) :
    Prepares env false s (opRmdir env path pwd) := by
  refine prepares_bind (keeps_vfsPathLookup env _ _ _) ?_
  refine unless_error (fun _ _ _ => prepares_none) ?_
  intro target s1 _
  refine keeps_dentryInode.read ?_
  intro p
  refine keeps_inodeAt.read ?_
  intro child
  split_ifs
  · exact prepares_none
  · refine keeps_parentInode.read ?_
    intro dir
    refine prepares_ifAllowed fun hmay => ?_
    exact prepares_withOps (by simpa [DirOp.dirs] using hmay)

theorem prepares_opLink (oldpath newpath : List Char) (pwd : Path) :
    Prepares env false s (opLink env oldpath newpath pwd) := by
  refine prepares_bind (keeps_vfsPathLookup env _ _ _) ?_
  refine unless_error (fun _ _ _ => prepares_none) ?_
  intro old s1 _
  refine keeps_dentryInode.read ?_
  intro p
  refine keeps_inodeAt.read ?_
  intro i
  split_ifs
  · exact prepares_none
  · exact prepares_opInParent fun parent name s' h => prepares_opNew (fun _ _ => ⟨rfl, rfl⟩) h

theorem prepares_opRenamePaths (old new : Path) :
    Prepares env true s (opRenamePaths env old new) := by
  refine keeps_parentInode.read ?_
  intro oldDir
  refine prepares_ifAllowed fun hold => ?_
  refine keeps_parentInode.read ?_
  intro newDir
  refine prepares_ifAllowed fun hnew => ?_
  exact prepares_withOps (by simpa [DirOp.dirs] using ⟨hold, hnew⟩)

theorem prepares_opRename (oldpath newpath : List Char) (pwd : Path) :
    Prepares env true s (opRename env oldpath newpath pwd) := by
  refine prepares_bind (keeps_vfsPathLookup env _ _ _) ?_
  refine unless_error (fun _ _ _ => prepares_none) ?_
  intro old s1 _
  refine prepares_bind (keeps_vfsPathLookup env _ _ _) ?_
  intro found s2 _
  have htarget : ∀ (target : Except Errno Path) (s : Vfs), Prepares env true s (do
      match target with
      | .error _ => pure none
      | .ok new => opRenamePaths env old new) := by
    intro target s
    cases target with
    | error e => exact prepares_none
    | ok new => exact prepares_opRenamePaths old new
  cases found with
  | ok new => exact htarget (.ok new) s2
  | error e =>
    cases e with
    | enoent => exact prepares_bind (keeps_renameTarget newpath pwd) fun r s' _ => htarget r s'
    | _ => exact prepares_bind (keeps_pure _) fun r s' _ => htarget r s'

theorem prepares_opOpen (path : List Char) (flags : Flags) (mode : Mode) (pwd : Path) :
    Prepares env false s (opOpen env path flags mode pwd) := by
  refine prepares_bind (keeps_vfsPathLookup env _ _ _) ?_
  intro r s1 _
  cases r with
  | ok ps => exact prepares_none
  | error e =>
    cases e with
    | enoent =>
      by_cases hc : Flags.has flags oCreat = false
      · simp only [if_pos hc]
        exact prepares_none
      · simp only [if_neg hc]
        refine prepares_bind (keeps_kheapAlloc _) ?_
        refine unless_none (fun _ _ => prepares_none) ?_
        intro a s2 _
        refine prepares_bind (keeps_vfsPathLookup env _ _ _) ?_
        refine unless_error (fun _ _ _ => prepares_none) ?_
        intro parent s3 _
        refine prepares_bind (keeps_vfsDalloc _ _) ?_
        refine unless_none (fun _ _ => prepares_none) ?_
        intro dentry s4 _
        refine prepares_bind (keeps_vfsFileExists _ _ _) ?_
        intro found s5 _
        cases found with
        | true => exact prepares_none
        | false =>
          refine keeps_dentryInode.read ?_
          intro dir
          refine prepares_ifAllowed fun hmay => ?_
          exact prepares_withOps (by simpa [DirOp.dirs] using hmay)
    | _ => exact prepares_none

def Call.renames : Call → Bool
  | .rename .. => true
  | _ => false

/-- A call hands over directories that the task may write and search. -/
theorem Call.dirOp_prepares (call : Call) (s : Vfs) :
    Prepares env call.renames s (call.dirOp env) := by
  cases call with
  | «open» path flags mode pwd => exact prepares_opOpen path flags mode pwd
  | mkdir path mode pwd =>
    exact prepares_opInParent fun parent name s' h => prepares_opNew (fun _ _ => ⟨rfl, rfl⟩) h
  | rmdir path pwd => exact prepares_opRmdir path pwd
  | unlink path pwd => exact prepares_opInParent fun parent name s' h => prepares_opUnlink h
  | symlink target linkpath pwd =>
    exact prepares_opInParent fun parent name s' h => prepares_opNew (fun _ _ => ⟨rfl, rfl⟩) h
  | link oldpath newpath pwd => exact prepares_opLink oldpath newpath pwd
  | rename oldpath newpath pwd => exact prepares_opRename oldpath newpath pwd
  | mknod path mode dev pwd =>
    rw [Call.dirOp]
    split_ifs
    · exact prepares_none
    · exact prepares_opInParent fun parent name s' h => prepares_none
    · exact prepares_opInParent fun parent name s' h => prepares_opNew (fun _ _ => ⟨rfl, rfl⟩) h
  | _ => exact prepares_none

/-! ## Calls and their operations -/

section

variable {R : Vfs → Vfs → Prop} {s'' : Vfs} {o : Option DirOp}

/-- What an operation, if there is one, and steps after it that keep `R` leave. -/
def Outcome (R : Vfs → Vfs → Prop) (env : Env) (o : Option DirOp) (s s' : Vfs) : Prop :=
  match o with
  | none => R s s'
  | some op => ∃ r s₁, op.run env s = some (r, s₁) ∧ R s₁ s'

/-- All that `x` does is the operation that `y` gives, and what `R` allows. -/
def Follows (R : Vfs → Vfs → Prop) (env : Env) (x : K α) (y : K (Option DirOp)) : Prop :=
  ∀ s, Spec x s fun _ s' => ∃ o s₁, y s = some (o, s₁) ∧ Outcome R env o s₁ s'

theorem Outcome.mono {R' : Vfs → Vfs → Prop} (hR : ∀ s s', R s s' → R' s s')
    (h : Outcome R env o s s') : Outcome R' env o s s' := by
  cases o with
  | none => exact hR s s' h
  | some op =>
    obtain ⟨r, s1, hrun, hs⟩ := h
    exact ⟨r, s1, hrun, hR s1 s' hs⟩

variable {y : K (Option DirOp)}

theorem Follows.mono {R' : Vfs → Vfs → Prop} {x : K α}
    (h : Follows R env x y) (hR : ∀ s s', R s s' → R' s s') : Follows R' env x y := by
  intro s
  refine (h s).mono ?_
  rintro a s1 ⟨o, s2, hy, ho⟩
  exact ⟨o, s2, hy, ho.mono hR⟩

/-- The call and its model begin with the same program. -/
theorem follows_bind {x : K β} {f : β → K α} {k : β → K (Option DirOp)}
    (h : ∀ b, Follows R env (f b) (k b)) : Follows R env (x >>= f) (x >>= k) := by
  intro s
  apply spec_bind
  intro b s1 hx
  refine (h b s1).mono ?_
  rintro a s2 ⟨o, s3, hk, ho⟩
  exact ⟨o, s3, bind_eq_some.mpr ⟨b, s1, hx, hk⟩, ho⟩

theorem follows_none {x : K α} (h : Keeps R x) : Follows R env x (pure none) := by
  intro s
  refine (h s).mono ?_
  intro a s1 h1
  exact ⟨none, s, rfl, h1⟩

theorem follows_stuck : Follows R env (stuck : K α) y := fun _ => spec_stuck

theorem follows_ifAllowed {x : Errno → K α} {z : K α} (hx : ∀ e, Keeps R (x e))
    (hz : Follows R env z y) :
    Follows R env (do
      match vfsInodePermission env (← inodeAt dir) (mayWrite ||| mayExec) with
      | .error e => x e
      | .ok () => z) (do
      match vfsInodePermission env (← inodeAt dir) (mayWrite ||| mayExec) with
      | .error _ => pure none
      | .ok () => y) := by
  apply follows_bind
  intro i
  cases vfsInodePermission env i (mayWrite ||| mayExec) with
  | error e => exact follows_none (hx e)
  | ok _ => exact hz

/-- After the operation nothing happens but what `R` allows. -/
theorem follows_op (op : DirOp) {f : Except Errno Unit → K α} (h : ∀ r, Keeps R (f r)) :
    Follows R env (op.run env >>= f) (pure (some op)) := by
  intro s
  apply spec_bind
  intro r s1 hr
  refine (h r s1).mono ?_
  intro a s2 h2
  exact ⟨some op, s, rfl, r, s1, hr, h2⟩

variable [IsPreorder Vfs R]

theorem follows_pure (a : α) : Follows R env (pure a) (pure none) := follows_none (keeps_pure a)

theorem Outcome.trans (h : Outcome R env o s s') (h' : R s' s'') : Outcome R env o s s'' := by
  cases o with
  | none => exact trans_of R h h'
  | some op =>
    obtain ⟨r, s1, hrun, hs⟩ := h
    exact ⟨r, s1, hrun, trans_of R hs h'⟩

theorem follows_then {x : K β} {f : β → K α} (hx : Follows R env x y)
    (hf : ∀ b, Keeps R (f b)) : Follows R env (x >>= f) y := by
  intro s
  refine (hx s).bind ?_
  rintro b s1 ⟨o, s2, hy, ho⟩
  refine (hf b s1).mono ?_
  intro a s3 h3
  exact ⟨o, s2, hy, ho.trans h3⟩

theorem follows_run (op : DirOp) : Follows R env (op.run env) (pure (some op)) := by
  have h : Follows R env (op.run env >>= pure) (pure (some op)) :=
    follows_op op fun r => keeps_pure r
  rw [bind_pure] at h
  exact h

theorem follows_replyWith {f : α → Reply} {x : K (Except Errno α)} (h : Follows R env x y) :
    Follows R env (replyWith f x) y := by
  refine follows_then h ?_
  intro r
  cases r with
  | error e => exact keeps_pure _
  | ok a => exact keeps_pure _

end

/-! ## The calls on names -/

theorem follows_withParent {path : List Char} {pwd : Path}
    {op : Path → Name → K (Except Errno Unit)} {reach : Path → Name → K (Option DirOp)}
    (h : ∀ parent name, Follows Calm env (op parent name) (reach parent name)) :
    Follows Calm env (withParent env path pwd op) (opInParent env path pwd reach) := by
  apply follows_bind
  refine unless_error (fun _ => follows_stuck) ?_
  intro r
  obtain ⟨parent, name⟩ := r
  apply follows_bind
  intro p
  refine follows_ifAllowed (fun _ => calm_pathPut parent _) ?_
  exact follows_then (h parent name) fun ret => calm_pathPut parent ret

theorem follows_createEntry (op : Ptr → Ptr → DirOp) :
    Follows Calm env (createEntry env parent name uncut fun dir dentry => (op dir dentry).run env)
      (opNew env parent name uncut op) := by
  apply follows_bind
  refine unless_none (follows_pure _) ?_
  intro a
  apply follows_bind
  refine unless_none (follows_pure _) ?_
  intro dentry
  have hlocked : Follows Calm env
      (createLocked env parent dentry name uncut fun dir => (op dir dentry).run env) (do
      if ← vfsFileExists env parent name uncut then pure none
      else do
        let dir ← dentryInode parent
        withOps dir
        pure (some (op dir dentry))) := by
    apply follows_bind
    intro found
    cases found with
    | true => exact follows_pure _
    | false =>
      apply follows_bind
      intro dir
      apply follows_bind
      intro _
      refine follows_op (op dir dentry) ?_
      intro r
      cases r with
      | error e => exact keeps_pure _
      | ok _ => exact (calm_vfsDcacheAdd dentry).result
  exact follows_then hlocked fun ret =>
    (calm_quiet (keeps_vfsDput dentry)).result

theorem follows_vfsUnlink (path : List Char) (pwd : Path) :
    Follows Calm env (vfsUnlink env path pwd)
      (opInParent env path pwd fun parent name => opUnlink env parent.dentry name) := by
  apply follows_withParent
  intro parent name
  apply follows_bind
  refine unless_none (follows_pure _) ?_
  intro a
  apply follows_bind
  refine unless_none (follows_pure _) ?_
  intro dentry
  apply follows_bind
  intro dir
  apply follows_bind
  intro _
  refine follows_op (.unlink dir dentry) ?_
  intro r
  exact (calm_quiet (keeps_vfsDput dentry)).result

theorem follows_vfsRmdir (path : List Char) (pwd : Path) :
    Follows Calm env (vfsRmdir env path pwd) (opRmdir env path pwd) := by
  apply follows_bind
  refine unless_error (fun _ => follows_stuck) ?_
  intro target
  apply follows_bind
  intro p
  apply follows_bind
  intro child
  split_ifs
  · exact follows_none (calm_pathPut target _)
  · apply follows_bind
    intro dir
    refine follows_ifAllowed (fun _ => calm_pathPut target _) ?_
    apply follows_bind
    intro _
    exact follows_op (.rmdir dir target.dentry) fun ret => calm_pathPut target ret

theorem follows_vfsLink (oldpath newpath : List Char) (pwd : Path) :
    Follows Calm env (vfsLink env oldpath newpath pwd) (opLink env oldpath newpath pwd) := by
  apply follows_bind
  refine unless_error (fun _ => follows_stuck) ?_
  intro old
  apply follows_bind
  intro p
  apply follows_bind
  intro i
  split_ifs
  · exact follows_none (calm_pathPut old _)
  · refine follows_then ?_ fun ret => calm_pathPut old ret
    apply follows_bind
    refine unless_error (fun _ => follows_pure _) ?_
    intro r
    obtain ⟨parent, name⟩ := r
    apply follows_bind
    intro p
    refine follows_ifAllowed (fun _ => calm_pathPut parent _) ?_
    refine follows_then ?_ fun ret => calm_pathPut parent ret
    exact follows_createEntry fun dir dentry => .link old.dentry dir dentry

theorem follows_renamePaths (old new : Path) :
    Follows Calm env (renamePaths env old new) (opRenamePaths env old new) := by
  apply follows_bind
  intro oldDir
  refine follows_ifAllowed (fun _ => keeps_pure _) ?_
  apply follows_bind
  intro newDir
  refine follows_ifAllowed (fun _ => keeps_pure _) ?_
  apply follows_bind
  intro _
  exact follows_run (.rename oldDir old.dentry newDir new.dentry)

theorem follows_vfsRename (oldpath newpath : List Char) (pwd : Path) :
    Follows Calm env (vfsRename env oldpath newpath pwd) (opRename env oldpath newpath pwd) := by
  apply follows_bind
  refine unless_error (fun _ => follows_stuck) ?_
  intro old
  apply follows_bind
  intro found
  refine follows_then ?_ fun ret => calm_pathPut old ret
  have htarget : ∀ target : Except Errno Path, Follows Calm env (do
      match target with
      | .error e => pure (.error e)
      | .ok new => do
        let ret ← renamePaths env old new
        vfsPathPut new
        pure ret : K (Except Errno Unit)) (do
      match target with
      | .error _ => pure none
      | .ok new => opRenamePaths env old new) := by
    intro target
    cases target with
    | error e => exact follows_pure _
    | ok new => exact follows_then (follows_renamePaths old new) fun ret => calm_pathPut new ret
  cases found with
  | ok new => exact htarget (.ok new)
  | error e =>
    cases e with
    | enoent => exact follows_bind htarget
    | _ => exact htarget (.error _)

theorem follows_openCreate (parent : Path) (name : Name) (flags : Flags) (mode : Mode) :
    Follows Calm env (openCreate env parent name flags mode)
      (opCreate env parent.dentry name mode) := by
  apply follows_bind
  refine unless_none (follows_none (calm_pathPut parent _)) ?_
  intro dentry
  have hlocked : Follows Calm env (openLocked env parent.dentry dentry name mode) (do
      if ← vfsFileExists env parent.dentry name name then pure none
      else do
        let dir ← dentryInode parent.dentry
        match vfsInodePermission env (← inodeAt dir) (mayWrite ||| mayExec) with
        | .error _ => pure none
        | .ok () => do
          withOps dir
          pure (some (.create dir dentry (mode &&& ~~~vfsDefaultUmask)))) := by
    apply follows_bind
    intro found
    cases found with
    | true => exact follows_pure _
    | false =>
      apply follows_bind
      intro dir
      have hcreate : Follows Calm env (vfsCreate env dir dentry (mode &&& ~~~vfsDefaultUmask)) (do
          match vfsInodePermission env (← inodeAt dir) (mayWrite ||| mayExec) with
          | .error _ => pure none
          | .ok () => do
            withOps dir
            pure (some (.create dir dentry (mode &&& ~~~vfsDefaultUmask)))) := by
        refine follows_ifAllowed (fun _ => keeps_pure _) ?_
        apply follows_bind
        intro _
        exact follows_run (.create dir dentry (mode &&& ~~~vfsDefaultUmask))
      refine follows_then hcreate ?_
      intro r
      cases r with
      | error e => exact keeps_pure _
      | ok _ => exact (calm_vfsDcacheAdd dentry).result
  refine follows_then hlocked ?_
  intro made
  cases made with
  | failed e =>
    apply keeps_bind (calm_quiet (keeps_vfsDput dentry))
    intro _
    exact calm_pathPut parent _
  | created => exact calm_of_dentries (calmDentries_openChild parent dentry flags)
  | found =>
    apply keeps_bind (calm_quiet (keeps_vfsDput dentry))
    intro _
    split_ifs
    · exact calm_pathPut parent _
    · apply keeps_bind (calm_quiet (keeps_vfsDalloc parent.dentry name))
      refine unless_none (calm_pathPut parent _) ?_
      intro dentry
      exact calm_of_dentries (calmDentries_openChild parent dentry flags)

/-- An open creates at most one entry. -/
theorem follows_vfsOpen (path : List Char) (flags : Flags) (mode : Mode) (pwd : Path) :
    Follows Calm env (vfsOpen env path flags mode pwd) (opOpen env path flags mode pwd) := by
  apply follows_bind
  intro r
  cases r with
  | ok ps =>
    refine follows_none ?_
    simp only [openFound]
    split_ifs
    · exact calm_pathPut ps _
    · exact calm_of_dentries (calmDentries_vfsDoOpen ps flags _)
  | error e =>
    cases e with
    | enoent =>
      simp only [openAbsent]
      by_cases hc : Flags.has flags oCreat = false
      · simp only [if_pos hc]
        exact follows_pure _
      · simp only [if_neg hc]
        apply follows_bind
        refine unless_none (follows_pure _) ?_
        intro a
        apply follows_bind
        refine unless_error (fun _ => follows_pure _) ?_
        intro parent
        exact follows_openCreate parent _ flags mode
    | _ => exact follows_pure _

def Call.OnNames : Call → Prop
  | .open .. | .mkdir .. | .rmdir .. | .unlink .. | .symlink .. | .link .. | .rename .. | .mknod
    .. => True
  | _ => False

/-- Calls on names change the graph by their operation only. -/
theorem Call.follows_onNames {call : Call} (h : call.OnNames) :
    Follows Calm env (call.run env) (call.dirOp env) := by
  cases call with
  | «open» path flags mode pwd => exact follows_replyWith (follows_vfsOpen path flags mode pwd)
  | mkdir path mode pwd =>
    apply follows_replyWith
    apply follows_withParent
    intro parent name
    exact follows_createEntry fun dir dentry => .mkdir dir dentry (mode &&& ~~~vfsDefaultUmask)
  | rmdir path pwd => exact follows_replyWith (follows_vfsRmdir path pwd)
  | unlink path pwd => exact follows_replyWith (follows_vfsUnlink path pwd)
  | symlink target linkpath pwd =>
    apply follows_replyWith
    apply follows_withParent
    intro parent name
    exact follows_createEntry fun dir dentry => .symlink dir dentry target
  | link oldpath newpath pwd => exact follows_replyWith (follows_vfsLink oldpath newpath pwd)
  | rename oldpath newpath pwd => exact follows_replyWith (follows_vfsRename oldpath newpath pwd)
  | mknod path mode dev pwd =>
    apply follows_replyWith
    rw [vfsMknod, Call.dirOp]
    by_cases hm : sIschr mode = false ∧ sIsblk mode = false
    · rw [if_pos hm, if_pos hm]
      exact follows_pure _
    · rw [if_neg hm, if_neg hm]
      apply follows_withParent
      intro parent name
      split_ifs
      · exact follows_pure _
      · exact follows_createEntry fun dir dentry =>
          .mknod dir dentry (mode &&& ~~~vfsDefaultUmask) dev
  | _ => exact h.elim

/-- Every call changes the graph by at most one operation of tmpfs. -/
theorem Call.run_follows (call : Call) : Follows Still env (call.run env) (call.dirOp env) := by
  have honNames : call.OnNames → Follows Still env (call.run env) (call.dirOp env) := fun h =>
    (call.follows_onNames h).mono fun _ _ h => h.still
  cases call with
  | fileGet file => exact follows_none (still_setFile _).result
  | close file => exact follows_none (still_vfsClose file).result
  | read file count pos => exact follows_replyWith (follows_none (still_vfsRead file count pos))
  | write file data pos => exact follows_replyWith (follows_none (still_vfsWrite file data pos))
  | truncate file length => exact follows_replyWith (follows_none (still_vfsTruncate file length))
  | setattr path attr pwd => exact follows_replyWith (follows_none (still_vfsSetattr path attr pwd))
  | _ => exact honNames trivial

end ShiziOS.Fs
