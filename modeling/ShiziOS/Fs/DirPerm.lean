import ShiziOS.Fs.DirOps

/-!
# Permission to change a directory

Every call that makes or removes names checks a directory and later changes one. Here the two
are the same: between the check and the change nothing but quiet steps happen, and those leave
every dentry with its inode. So a task that is not root changes the entries of a directory
only if it may write and search it.
-/

namespace ShiziOS.Fs

open Exec

variable {env : Env} {M : Ptr → Prop} {s0 s s' : Vfs} {p d : Ptr} {Q : Ptr → Prop}

/-! ## Directories that a task may change -/

/-- The bits selected for the task include both write and execute. -/
def MayChange (env : Env) (i : Inode) : Prop := selected env i &&& 2 ≠ 0 ∧ selected env i &&& 1 ≠ 0

theorem SameOwner.mayChange {i i' : Inode} (h : SameOwner i i') (hm : MayChange env i') :
    MayChange env i := by
  simpa only [MayChange, selected, h.mode, h.uid, h.gid] using hm

theorem Kept.mayChangeAt {i : Inode} (h : Kept (MayChange env) M s0 s)
    (hi : s.inodes.get p = some i)
    (hm : MayChange env i) : AllowedAt (MayChange env) s0 p := by
  intro i0 hi0
  obtain ⟨i', hi', ho, -⟩ := h.inodes p i0 hi0
  cases hi'.symm.trans hi
  exact ho.mayChange hm

theorem mayChange_of_permission {i : Inode} (hu : env.uid ≠ 0)
    (h : vfsInodePermission env i (mayWrite ||| mayExec) = .ok ()) : MayChange env i := by
  rw [vfsInodePermission, if_neg hu] at h
  have hw : Flags.has (mayWrite ||| mayExec) mayWrite = true := rfl
  have hx : Flags.has (mayWrite ||| mayExec) mayExec = true := rfl
  simp only [hw, hx, true_and] at h
  split_ifs at h with h1 h2 h3
  exact ⟨h2, h3⟩

/-! ## The inode of a dentry -/

/-- The dentry is there, and if it has an inode, that is in `Q`. -/
def Vfs.Leads (s : Vfs) (d : Ptr) (Q : Ptr → Prop) : Prop :=
  ∃ v, s.dentries.get d = some v ∧ ∀ p, v.inode = some p → Q p

theorem Quiet.leads (h : Quiet s s') (hd : s.Leads d Q) : s'.Leads d Q := by
  obtain ⟨v, hv, hQ⟩ := hd
  obtain ⟨v', hv', hi, -⟩ := h.dentry hv
  exact ⟨v', hv', fun p hp => hQ p (hi.symm.trans hp)⟩

/-- Directories are kept, and the dentry leads to an inode in `Q`. -/
structure KeptAt (A : Inode → Prop) (M : Ptr → Prop) (s₀ : Vfs) (d : Ptr) (Q : Ptr → Prop)
    (s : Vfs) : Prop where
  kept : Kept A M s₀ s
  leads : s.Leads d Q

theorem keptAt_quiet {α : Type} {x : K α} (h : Keeps Quiet x) :
    Preserves (KeptAt (MayChange env) M s0 d Q) x :=
  h.preserves fun _ _ hs hq => ⟨hs.kept.quiet hq, hq.leads hs.leads⟩

/-! ## The operation of a call -/

theorem Kept.mayCreate (h : Kept (MayChange env) M s0 s) (hu : env.uid ≠ 0)
    (hmay : MayCreate env s p) : AllowedAt (MayChange env) s0 p := by
  intro i0 hi0
  obtain ⟨i, hi, -, -⟩ := h.inodes p i0 hi0
  exact h.mayChangeAt hi (mayChange_of_permission hu (hmay i hi)) i0 hi0

theorem DirOp.run_kept {op : DirOp} (hop : op.renames = false)
    (h : ∀ p ∈ op.dirs, AllowedAt (MayChange env) s0 p) :
    Preserves (Kept (MayChange env) M s0) (op.run env) := by
  cases op with
  | create dir dentry mode => exact bears_kept.create kept_setDentry (h dir (.head _))
  | symlink dir dentry target => exact bears_kept.symlink kept_setDentry (h dir (.head _))
  | mknod dir dentry mode dev => exact bears_kept.mknod kept_setDentry (h dir (.head _))
  | mkdir dir dentry mode => exact bears_kept.mkdir kept_setDentry (h dir (.head _))
  | link old dir new => exact bears_kept.link kept_setDentry (h dir (.head _))
  | unlink dir dentry => exact bears_kept.unlink kept_setDentry (h dir (.head _))
  | rmdir dir dentry => exact bears_kept.rmdir kept_setDentry (h dir (.head _))
  | rename oldDir old newDir new => cases hop

/-! ## Renaming -/

/-- What `vfs_rename` has done: only on success the `..` of what `old` led to may be another. -/
def Renamed (env : Env) (s₀ : Vfs) (Q : Ptr → Prop) (r : Except Errno Unit) (s : Vfs) : Prop :=
  Kept (MayChange env) (fun p => r = .ok () ∧ Q p) s₀ s

theorem renamePaths_kept (hu : env.uid ≠ 0) {old new : Path}
    (hs : KeptAt (MayChange env) (fun _ => False) s0 old.dentry Q s) :
    Spec (renamePaths env old new) s (Renamed env s0 Q) := by
  have herror : ∀ {s} (e : Errno), Kept (MayChange env) (fun _ => False) s0 s →
      Renamed env s0 Q (.error e) s :=
    fun e h => h.mono fun _ => False.elim
  refine keeps_parentInode.read ?_
  intro oldDir
  apply spec_inodeAt
  intro i hi
  cases hperm : vfsInodePermission env i (mayWrite ||| mayExec) with
  | error e => exact spec_pure (herror e hs.kept)
  | ok _ =>
    have ho : AllowedAt (MayChange env) s0 oldDir :=
      hs.kept.mayChangeAt hi (mayChange_of_permission hu hperm)
    refine keeps_parentInode.read ?_
    intro newDir
    apply spec_inodeAt
    intro j hj
    cases hperm' : vfsInodePermission env j (mayWrite ||| mayExec) with
    | error e => exact spec_pure (herror e hs.kept)
    | ok _ =>
      have hn : AllowedAt (MayChange env) s0 newDir :=
        hs.kept.mayChangeAt hj (mayChange_of_permission hu hperm')
      refine keeps_withOps.read ?_
      intro _
      obtain ⟨v, hv, hQ⟩ := hs.leads
      refine (tmpfsRename_kept hs.kept ho hn hv).mono ?_
      intro r s4 h4
      exact h4.mono fun p hp => ⟨hp.1, hQ p hp.2⟩

theorem renameTo_kept (hu : env.uid ≠ 0) {old : Path} (target : Except Errno Path)
    (hs : KeptAt (MayChange env) (fun _ => False) s0 old.dentry Q s) : Spec (do
      match target with
      | .error e => pure (.error e)
      | .ok new => do
        let ret ← renamePaths env old new
        vfsPathPut new
        pure ret) s (Renamed env s0 Q) := by
  cases target with
  | error e => exact spec_pure (hs.kept.mono fun _ => False.elim)
  | ok new =>
    refine (renamePaths_kept hu hs).bind ?_
    intro ret s1 h1
    refine (kept_quiet (keeps_vfsPathPut new)).bind h1 ?_
    intro _ s2 h2
    exact spec_pure h2

theorem renameFrom_kept (hu : env.uid ≠ 0) {old : Path} {found : Except Errno Path}
    {newpath : List Char}
    {pwd : Path} (hs : KeptAt (MayChange env) (fun _ => False) s0 old.dentry Q s) :
    Spec (renameFrom env old found newpath pwd) s (Renamed env s0 Q) := by
  cases found with
  | ok new => exact renameTo_kept hu (.ok new) hs
  | error e =>
    cases e with
    | enoent =>
      refine (keptAt_quiet (keeps_renameTarget newpath pwd)).bind hs ?_
      intro target s1 h1
      exact renameTo_kept hu target h1
    | _ => exact renameTo_kept hu (.error _) hs

def Finds (env : Env) (s : Vfs) (path : List Char) (pwd : Path) (p : Ptr) : Prop :=
  ∃ ps s₁ d, vfsPathLookup env path lookupFollow pwd s = some (.ok ps, s₁) ∧
    s₁.dentries.get ps.dentry = some d ∧ d.inode = some p

theorem vfsRename_kept (hu : env.uid ≠ 0) (oldpath newpath : List Char) (pwd : Path) :
    Spec (vfsRename env oldpath newpath pwd) s (Renamed env s (Finds env s oldpath pwd)) := by
  apply spec_bind
  intro r s1 hlookup
  have h1 : Kept (MayChange env) (fun _ => False) s s1 :=
    (Kept.refl s).quiet (keeps_vfsPathLookup env _ _ _ s r s1 hlookup)
  cases r with
  | error e => exact spec_stuck
  | ok old =>
    obtain ⟨v, -, hd, -⟩ := vfsPathLookup_found env _ _ _ _ _ hlookup old rfl
    have hs1 : KeptAt (MayChange env) (fun _ => False) s old.dentry (Finds env s oldpath pwd) s1 :=
      ⟨h1, v, hd, fun p hp => ⟨old, s1, v, hlookup, hd, hp⟩⟩
    refine (keptAt_quiet (keeps_vfsPathLookup env _ _ _)).bind hs1 ?_
    intro found s2 h2
    refine (renameFrom_kept hu h2).bind ?_
    intro ret s3 h3
    refine (kept_quiet (keeps_vfsPathPut old)).bind h3 ?_
    intro _ s4 h4
    exact spec_pure h4

/-! ## Every call -/

/-- The inode is a directory that the call moves: what `vfs_rename` finds under its first path. -/
def Call.Moves (env : Env) (s : Vfs) (call : Call) (p : Ptr) : Prop :=
  match call with
  | .rename oldpath _ pwd => Finds env s oldpath pwd p
  | _ => False

theorem Call.run_kept_of_not_rename {call : Call} (hu : env.uid ≠ 0) (hc : call.OnNames)
    (hr : call.renames = false) :
    Spec (call.run env) s fun _ s' => Kept (MayChange env) (fun _ => False) s s' := by
  refine (call.follows_onNames hc s).mono ?_
  rintro r s' ⟨o, s1, ho, hout⟩
  obtain ⟨hq, hop⟩ := call.dirOp_prepares s o s1 ho
  have h1 : Kept (MayChange env) (fun _ => False) s s1 := (Kept.refl s).quiet hq
  cases o with
  | none => exact h1.kept0 hout.kept
  | some op =>
    obtain ⟨r', s2, hrun, hcalm⟩ := hout
    obtain ⟨hop, hdirs⟩ := hop op rfl
    have hkept := DirOp.run_kept (hop.trans hr) (fun p hp => h1.mayCreate hu (hdirs p hp)) s1 h1
    exact (hkept r' s2 hrun).kept0 hcalm.kept

/-- What a call leaves of the directories: the `..` of what it moves may be another if the
call succeeds. -/
theorem Call.run_kept {call : Call} (hu : env.uid ≠ 0) (hc : call.OnNames) :
    Spec (call.run env) s fun r s' =>
      Kept (MayChange env) (fun p => r.isOk ∧ call.Moves env s p) s s' := by
  cases hr : call.renames with
  | false =>
    refine (Call.run_kept_of_not_rename hu hc hr).mono ?_
    intro r s' h
    exact h.mono fun _ => False.elim
  | true =>
    cases call with
    | rename oldpath newpath pwd =>
      apply spec_replyWith
      refine (vfsRename_kept hu oldpath newpath pwd).mono ?_
      intro r s' h
      refine h.mono ?_
      rintro p ⟨rfl, hp⟩
      exact ⟨rfl, hp⟩
    | _ => cases hr

/-- In every sequence of calls, a call of a task that is not root leaves the entries of every
directory there is as they are, unless the task may write and search that directory at the
call; only the number of `..` in a directory that the call moves may be another. -/
theorem entries_change_only_if_allowed {before after : List (Env × Call)} {call : Call}
    (hrun : runCalls (before ++ (env, call) :: after) s = some ((), s')) (hu : env.uid ≠ 0)
    (hc : call.OnNames) :
    ∃ s₁ r s₂, runCalls before s = some ((), s₁) ∧ call.run env s₁ = some (r, s₂) ∧
      runCalls after s₂ = some ((), s') ∧
      ∀ p i, s₁.inodes.get p = some i → ∃ i', s₂.inodes.get p = some i' ∧
        (i'.dirList = i.dirList ∨
          (r.isOk ∧ call.Moves env s₁ p) ∧ i'.dirList.map hideDotdot = i.dirList.map hideDotdot ∨
          selected env i &&& 2 ≠ 0 ∧ selected env i &&& 1 ≠ 0) := by
  rw [runCalls_append] at hrun
  obtain ⟨_, s₁, hbefore, hrest⟩ := bind_eq_some.mp hrun
  obtain ⟨r, s₂, hcall, hafter⟩ := bind_eq_some.mp hrest
  refine ⟨s₁, r, s₂, hbefore, hcall, hafter, ?_⟩
  intro p i hi
  obtain ⟨i', hi', -, he⟩ := (Call.run_kept hu hc r s₂ hcall).inodes p i hi
  exact ⟨i', hi', he⟩

/-- Root makes a directory that everyone may change. -/
def openDirectory : List (Env × Call) :=
  [(Env.start 0, .mkdir ['/', 'a'] 0o777 ⟨0, 0⟩),
    (Env.start 0, .setattr ['/', 'a'] ⟨none, some 0o777, none, none, none, none⟩ ⟨0, 0⟩)]

/-- Another task makes a directory there. -/
theorem entries_change_mkdir :
    (runCalls (openDirectory ++ [(Env.start 1, .mkdir ['/', 'a', '/', 'b'] 0o755 ⟨0, 0⟩)])
      Vfs.boot).isSome ∧
    ∃ s₁ r s₂, runCalls openDirectory Vfs.boot = some ((), s₁) ∧
      (Call.mkdir ['/', 'a', '/', 'b'] 0o755 ⟨0, 0⟩).run (Env.start 1) s₁ = some (r, s₂) ∧
      ∀ p i, s₁.inodes.get p = some i → ∃ i', s₂.inodes.get p = some i' ∧
        (i'.dirList = i.dirList ∨ selected (Env.start 1) i &&& 2 ≠ 0 ∧
          selected (Env.start 1) i &&& 1 ≠ 0) := by
  have hsome : (runCalls (openDirectory ++
      [(Env.start 1, .mkdir ['/', 'a', '/', 'b'] 0o755 ⟨0, 0⟩)])
      Vfs.boot).isSome := by
    decide +kernel
  refine ⟨hsome, ?_⟩
  obtain ⟨⟨_, s'⟩, hrun⟩ := Option.isSome_iff_exists.mp hsome
  obtain ⟨s₁, r, s₂, hbefore, hcall, -, hkept⟩ :=
    entries_change_only_if_allowed hrun (by decide) trivial
  refine ⟨s₁, r, s₂, hbefore, hcall, ?_⟩
  intro p i hi
  obtain ⟨i', hi', h | ⟨⟨-, hmoves⟩, -⟩ | h⟩ := hkept p i hi
  · exact ⟨i', hi', .inl h⟩
  · exact hmoves.elim
  · exact ⟨i', hi', .inr h⟩

end ShiziOS.Fs
