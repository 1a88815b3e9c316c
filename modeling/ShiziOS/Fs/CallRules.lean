import ShiziOS.Fs.Calls
import ShiziOS.Fs.PathParse

/-!
# The quiet parts of the calls

What the calls do before they change a file system, and their replies.

* `keeps_vfsFileExists`, `keeps_renameTarget`: the checks of a call are quiet.
* `vfsInodePermission_core`: a permission does not depend on the counter of the inode.
-/

namespace ShiziOS.Fs

open Exec

variable {env : Env} {s : Vfs} {S : Vfs → Vfs → Prop} [IsPreorder Vfs S]

theorem spec_replyWith {α : Type} {f : α → Reply} {x : K (Except Errno α)} {R : Except Errno Reply →
    Vfs → Prop}
    (h : Spec x s fun r s' => R (r.map f) s') : Spec (replyWith f x) s R := by
  refine h.bind ?_
  refine unless_error (fun _ _ hr => spec_pure hr) ?_
  intro a s' hr
  exact spec_pure hr

theorem vfsInodePermission_core {i i' : Inode} (mask : Flags) (h : i'.core = i.core) :
    vfsInodePermission env i' mask = vfsInodePermission env i mask := by
  have hmode : i'.mode = i.mode := (congrArg Inode.mode h :)
  have huid : i'.uid = i.uid := (congrArg Inode.uid h :)
  have hgid : i'.gid = i.gid := (congrArg Inode.gid h :)
  have hsel : selected env i' = selected env i := by simp only [selected, hmode, huid, hgid]
  rw [vfsInodePermission, vfsInodePermission, hsel]

theorem keeps_withOps {p : Ptr} : Keeps S (withOps p) := by
  apply keeps_bind keeps_inodeAt
  intro i
  split_ifs
  · exact keeps_pure _
  · exact keeps_stuck

theorem keeps_vfsDalloc (parent : Ptr) (name : Name) : Keeps Quiet (vfsDalloc env parent name) :=
  fun _ => (vfsDalloc_spec parent name).mono fun _ _ h => h.1

theorem keeps_vfsFileExists (parent : Ptr) (name uncut : Name) :
    Keeps Quiet (vfsFileExists env parent name uncut) := by
  intro s
  refine (vfsDcacheFind_spec parent name).bind ?_
  rintro r s1 ⟨h1, -, -⟩
  cases r with
  | some d =>
    apply spec_dentryAt
    intro v _
    refine (keeps_vfsDput d s1).bind ?_
    intro _ s2 h2
    exact spec_pure (h1.trans h2)
  | none =>
    refine (newDentry_spec parent uncut).bind ?_
    refine unless_none (fun _ ⟨h2, _⟩ => spec_pure (h1.trans h2)) ?_
    intro d s2 ⟨h2, hd⟩
    obtain ⟨hnext, hnew⟩ := hd d rfl
    apply spec_dentryInode
    intro v dir _ _
    refine keeps_withOps.read ?_
    intro _
    refine (tmpfsLookup_spec h2 hnext ⟨_, hnew, rfl, rfl⟩).bind ?_
    rintro d' s3 ⟨-, h3, -⟩
    apply spec_dentryAt
    intro v _
    refine (keeps_vfsDput d' s3).bind ?_
    intro _ s4 h4
    exact spec_pure ((h1.trans h3).trans h4)

theorem keeps_parentInode {dentry : Ptr} : Keeps S (parentInode dentry) := by
  apply keeps_bind keeps_dentryAt
  intro v
  apply keeps_bind (keeps_ofOption _)
  intro p
  exact keeps_dentryInode

theorem keeps_renameTarget (newpath : List Char) (pwd : Path) :
    Keeps Quiet (renameTarget env newpath pwd) := by
  apply keeps_bind (keeps_vfsPathParent env newpath pwd)
  refine unless_error (fun _ => keeps_pure _) ?_
  intro r
  obtain ⟨parent, name⟩ := r
  apply keeps_bind keeps_dentryInode
  intro p
  apply keeps_bind keeps_inodeAt
  intro i
  have hput : ∀ e : Errno,
      Keeps Quiet (do vfsPathPut parent; pure (Except.error e : Except Errno Path)) :=
    fun e => (keeps_vfsPathPut parent).result
  cases vfsInodePermission env i (mayWrite ||| mayExec) with
  | error e => exact hput e
  | ok _ =>
    apply keeps_bind (keeps_kheapAlloc _)
    refine unless_none (hput _) ?_
    intro a
    apply keeps_bind (keeps_vfsDalloc parent.dentry name)
    refine unless_none (hput _) ?_
    intro dentry
    apply keeps_bind (keeps_kheapAlloc 1)
    refine unless_none (keeps_bind (keeps_vfsDput dentry) fun _ => hput _) ?_
    intro b
    apply keeps_bind (keeps_vfsMntget parent.mnt)
    intro _
    exact (keeps_vfsPathPut parent).result

end ShiziOS.Fs
