import ShiziOS.Fs.DirTree
import ShiziOS.Fs.LinkCount

/-!
# Runs that keep the tree of the directories

In every run whose operations are edits, make directories only in directories of the tree and move
directories only to where the dentries show the tree, the directories that no `rmdir` has removed
form a tree.

* `DirOp.grows_of_shows`: the check of `tmpfs_rename`, which walks the dentries above the target,
  then keeps a directory from being moved beneath itself.
* `Action.run_tree`, `runActions_tree`: one action, and a run of actions, keeps the tree.
* `directory_tree`: the tree after every run.
* `directory_beneath_itself`: dentries that show another tree.
-/

namespace ShiziOS.Fs

open Exec Relation List Option Bool ShiziOS.Fs.Graph Vfs
open Vfs (empty start)
open Env (start)

variable {env : Env} {s s' : Vfs} {g g' : Graph} {d p q : Ptr} {op : DirOp} {R : Ptr → Prop}

/-! ## The tree as the inodes show it -/

/-- The number that a directory has under a name. -/
def Inode.target (i : Inode) (name : Name) : Option Nat :=
  (tmpfsDirLookup i.dirList name).map DirEntry.ino

namespace Vfs

/-- The inode lists the directory, under a name other than `.` and `..`. -/
def listsDir (s : Vfs) (d p : Ptr) : Bool :=
  (s.inodes.get d).any fun i => (s.inodes.get p).any fun j =>
    sIsdir j.mode && j.sb == i.sb && i.dirList.any (DirEntry.plainly j.ino)

/-- The root of a file system. -/
def isRootDir (s : Vfs) (p sb : Ptr) : Bool :=
  (s.inodes.get p).any fun i => sIsdir i.mode && i.sb == sb && i.target dotdotName == some i.ino

/-- The directory is a root, or is listed. -/
def hangs (s : Vfs) (p : Ptr) : Bool :=
  ((s.inodes.get p).any fun i => s.isRootDir p i.sb) || (range s.inodes.next).any fun d =>
    s.listsDir d p

variable {i : Inode} {sb : Ptr}

theorem edge_iff : s.graph.Edge d p ↔ s.listsDir d p = true := by
  rw [listsDir, Option.any_eq_true]
  constructor
  · rintro ⟨nd, np, hd, hp, hdir, hsb, hpos⟩
    obtain ⟨i, hi, rfl⟩ := map_eq_some_iff.mp hd
    obtain ⟨j, hj, rfl⟩ := map_eq_some_iff.mp hp
    refine ⟨i, hi, ?_⟩
    have hany : i.dirList.any (DirEntry.plainly j.ino) = true :=
      any_eq_true.mpr (countP_pos_iff.mp hpos)
    have hdir : sIsdir j.mode = true := hdir
    have hsb : j.sb = i.sb := hsb
    rw [hj, Option.any_some, hany, hdir, hsb, beq_self_eq_true]
    rfl
  · rintro ⟨i, hi, h⟩
    rw [Option.any_eq_true] at h
    obtain ⟨j, hj, h⟩ := h
    rw [and_eq_true, and_eq_true, beq_iff_eq] at h
    exact ⟨i.vertex, j.vertex, graph_of_get hi, graph_of_get hj, h.1.1, h.1.2,
      countP_pos_iff.mpr (any_eq_true.mp h.2)⟩

theorem isRoot_iff (hi : s.inodes.get p = some i) :
    s.graph.IsRoot p ↔ s.isRootDir p i.sb = true := by
  have hchild : s.graph.child dotdotName p = i.target dotdotName := child_of_some (graph_of_get hi)
  rw [isRootDir, hi, any_some, beq_self_eq_true, Bool.and_true, Bool.and_eq_true, beq_iff_eq]
  constructor
  · rintro ⟨n, hn, hdir, hself⟩
    obtain rfl : i.vertex = n := some.inj ((graph_of_get hi).symm.trans hn)
    exact ⟨hdir, hchild.symm.trans hself⟩
  · rintro ⟨hdir, hself⟩
    exact ⟨i.vertex, graph_of_get hi, hdir, hchild.trans hself⟩

theorem isRootDir_sb (h : s.isRootDir p sb = true) : ∃ i, s.inodes.get p = some i ∧ i.sb = sb := by
  rw [isRootDir, Option.any_eq_true] at h
  obtain ⟨i, hi, h⟩ := h
  rw [and_eq_true, and_eq_true, beq_iff_eq] at h
  exact ⟨i, hi, h.1.2⟩

theorem hangs_iff : s.graph.Hangs p ↔ s.hangs p = true := by
  rw [hangs, or_eq_true, Option.any_eq_true, List.any_eq_true]
  refine or_congr ?_ ?_
  · constructor
    · intro hroot
      obtain ⟨n, hn, -⟩ := id hroot
      obtain ⟨i, hi, -⟩ := map_eq_some_iff.mp hn
      exact ⟨i, hi, (isRoot_iff hi).mp hroot⟩
    · rintro ⟨i, hi, hroot⟩
      exact (isRoot_iff hi).mpr hroot
  · constructor
    · rintro ⟨d, hd⟩
      obtain ⟨n, -, hn, -⟩ := id hd
      obtain ⟨i, hi, -⟩ := map_eq_some_iff.mp hn
      exact ⟨d, List.mem_range.mpr (Store.lt_next hi), edge_iff.mp hd⟩
    · rintro ⟨d, -, hd⟩
      exact ⟨d, edge_iff.mpr hd⟩

end Vfs

/-! ## Operations -/

/-- The dentry is that of the directory, and the dentries above it show where the directory is: the
one next above is that of the directory which lists it, and so on up to a root. -/
def Vfs.showsPath (s : Vfs) : (fuel : Nat) → (dentry dir : Ptr) → Bool
  | 0, _, _ => false
  | fuel + 1, dentry, dir => (s.dentries.get dentry).any fun d => d.inode == some dir &&
    match d.parent with
    | none => (s.inodes.get dir).any fun i => s.isRootDir dir i.sb
    | some parent => (s.inodeOf parent).any fun up =>
      s.listsDir up dir && s.showsPath fuel parent up

/-- A directory is made in a directory of the tree, or moved to one whose dentries show the
tree. -/
def DirOp.shows : DirOp → Vfs → Bool
  | .mkdir dir _ _, s => s.hangs dir
  | .rename oldDir old newDir new, s =>
    oldDir == newDir || (s.inodeOf old).all fun p => !s.isDir p ||
      (s.dentries.get new).any fun d => d.parent.any fun parent =>
        s.showsPath s.dentries.next parent newDir
  | _, _ => true

/-- A directory is made in, or moved to, a directory of the tree that is not beneath it. -/
def DirOp.Grows : DirOp → Vfs → Prop
  | .mkdir dir _ _, s => s.hangs dir = true
  | .rename oldDir old newDir _, s =>
    oldDir ≠ newDir → ∀ p, s.inodeOf old = some p → s.isDir p = true →
      s.hangs newDir = true ∧ ¬ReflTransGen (fun d p => s.listsDir d p = true) p newDir
  | _, _ => True

/-- The checks of `tmpfs_rename` do not let the operation through. -/
def DirOp.Refused : DirOp → Vfs → Prop
  | .rename oldDir old newDir new, s =>
    ∀ p, s.inodeOf old = some p → renameCheck oldDir p newDir new s ≠ some (.ok (), s)
  | _, _ => False

/-- The condition on the operations. -/
def KeepsTree (op : DirOp) (s : Vfs) : Prop :=
  op.Refused s ∨ op.proper s = true ∧ op.shows s = true

/-- The directory that an operation has removed. -/
def DirOp.removed : DirOp → Vfs → Except Errno Unit → Option Ptr
  | .rmdir _ dentry, s, .ok _ => s.inodeOf dentry
  | _, _, _ => none

theorem SameTree.hangs (h : SameTree g g') (p : Ptr) : g'.Hangs p ↔ g.Hangs p :=
  or_congr (h.isRoot p) (exists_congr fun d => h.edge d p)

theorem hangs_of_showsPath {fuel : Nat} {dentry dir : Ptr}
    (h : s.showsPath fuel dentry dir = true) : s.hangs dir = true := by
  cases fuel with
  | zero => cases h
  | succ fuel =>
    rw [showsPath, Option.any_eq_true] at h
    obtain ⟨d, -, h⟩ := h
    have hup := (and_eq_true_iff.mp h).2
    rw [← hangs_iff]
    cases hparent : d.parent with
    | none =>
      rw [hparent, Option.any_eq_true] at hup
      obtain ⟨i, hi, hroot⟩ := hup
      exact .inl ((isRoot_iff hi).mpr hroot)
    | some parent =>
      rw [hparent, Option.any_eq_true] at hup
      obtain ⟨up, -, hup⟩ := hup
      exact .inr ⟨up, edge_iff.mpr (and_eq_true_iff.mp hup).1⟩

theorem renameCheck_isAncestor {oldDir newDir new : Ptr} (hne : oldDir ≠ newDir)
    (hdir : s.isDir p = true) :
    Spec (renameCheck oldDir p newDir new) s fun r _ => r = .ok () →
      ∀ d, s.dentries.get new = some d → isAncestor s p s.dentries.next d.parent = some false := by
  apply spec_inodeAt
  intro i hi
  apply spec_dentryAt
  intro d hd
  have hmode : sIsdir i.mode = true := (isDir_eq (graph_of_get hi)).symm.trans hdir
  refine (targetInode_spec d.inode).bind ?_
  rintro target _ ⟨rfl, -⟩
  split_ifs with _ _ hcond
  · exact spec_pure nofun
  · exact spec_pure nofun
  · apply spec_get
    refine spec_bind (spec_ofOption fun above habove => ?_)
    cases above with
    | true => exact spec_pure nofun
    | false =>
      refine spec_pure fun _ d' hd' => ?_
      cases hd.symm.trans hd'
      exact habove
  · exact absurd ⟨hmode, hne⟩ hcond

section

variable (h : DirTree s.graph R)
include h

/-- The directories above one in the tree are those of the dentries. -/
theorem isAncestor_of_path {inode : Ptr} {fuel n : Nat} {dentry dir : Ptr}
    (hshows : s.showsPath fuel dentry dir = true)
    (hpath : ReflTransGen s.graph.Edge inode dir) :
    isAncestor s inode n (some dentry) ≠ some false := by
  induction fuel generalizing n dentry dir with
  | zero => cases hshows
  | succ fuel ih =>
    rw [showsPath, Option.any_eq_true] at hshows
    obtain ⟨d, hd, hshows⟩ := hshows
    obtain ⟨hinode, hup⟩ := and_eq_true_iff.mp hshows
    rw [beq_iff_eq] at hinode
    cases n with
    | zero => exact nofun
    | succ n =>
      simp only [isAncestor, hd]
      split_ifs with hself
      · exact nofun
      rcases hpath.cases_tail with heq | ⟨x, hpath, hedge⟩
      · exact absurd (hinode.trans (congrArg some heq)) hself
      cases hparent : d.parent with
      | none =>
        rw [hparent, Option.any_eq_true] at hup
        obtain ⟨i, hi, hroot⟩ := hup
        exact absurd hedge (h.sound.not_edge_root ((isRoot_iff hi).mpr hroot))
      | some parent =>
        rw [hparent, Option.any_eq_true] at hup
        obtain ⟨up, -, hup⟩ := hup
        obtain ⟨hlists, hup⟩ := and_eq_true_iff.mp hup
        obtain rfl : x = up := h.sound.edge_unique hedge (edge_iff.mpr hlists)
        exact ih hup hpath

theorem DirOp.grows_of_shows (hshows : op.shows s = true) (hpass : ¬op.Refused s) :
    op.Grows s := by
  cases op with
  | mkdir dir dentry mode => exact hshows
  | rename oldDir old newDir new =>
    intro hne p hp hdir
    have hcheck : renameCheck oldDir p newDir new s = some (.ok (), s) := by
      by_contra hcheck
      refine hpass fun q hq => ?_
      cases hp.symm.trans hq
      exact hcheck
    rw [DirOp.shows, hp, Option.all_some, hdir, Bool.not_true, Bool.false_or, Bool.or_eq_true,
      beq_iff_eq, Option.any_eq_true] at hshows
    obtain ⟨d, hd, hshows⟩ := hshows.resolve_left hne
    rw [Option.any_eq_true] at hshows
    obtain ⟨parent, hparent, hshows⟩ := hshows
    have habove := renameCheck_isAncestor hne hdir _ _ hcheck rfl d hd
    rw [hparent] at habove
    refine ⟨hangs_of_showsPath hshows, fun hpath => isAncestor_of_path h hshows ?_ habove⟩
    exact ReflTransGen.mono (fun _ _ => edge_iff.mpr) _ _ hpath
  | _ => trivial

theorem KeepsTree.grows (hop : KeepsTree op s) :
    op.Refused s ∨ op.proper s = true ∧ op.Grows s := by
  by_cases hrefused : op.Refused s
  · exact .inl hrefused
  · obtain ⟨hproper, hshows⟩ := hop.resolve_left hrefused
    exact .inr ⟨hproper, DirOp.grows_of_shows h hshows hrefused⟩

end

theorem Edit.Fits.grows {e : Edit s.graph} (h : e.Fits op s) (hop : op.Grows s) : e.Grows := by
  cases e with
  | addDir d p nd name n hd hdir hp hfree hname =>
    obtain ⟨dentry, mode, rfl⟩ := h
    exact hangs_iff.mpr hop
  | moveDir d p d' nd np nd' name newName hl hdir hd hd' hdir' hsb hnew hne hself =>
    obtain ⟨old, new, rfl, hinode⟩ := h
    obtain ⟨hhangs, hnot⟩ := hop hne p hinode ((isDir_eq hl.inode).trans hdir)
    exact ⟨hangs_iff.mpr hhangs,
      fun hpath => hnot (ReflTransGen.mono (fun _ _ => edge_iff.mp) _ _ hpath)⟩
  | _ => trivial

theorem Edit.Fits.grows_unlinked {nd nq : Vertex} {name : Name} {h : s.graph.Lists d nd name q nq}
    {hfile : nq.isDir = false} {e : Edit (Edit.unlink d q nd nq name h hfile).graph}
    (he : e.Fits op s)
    (hren : ∃ oldDir old newDir new, op = .rename oldDir old newDir new) (hop : op.Grows s)
    (hsame : SameTree s.graph (Edit.unlink d q nd nq name h hfile).graph) : e.Grows := by
  obtain ⟨oldDir, old, newDir, new, rfl⟩ := hren
  cases e with
  | addDir d p nd name n hd hdir hp hfree hname =>
    obtain ⟨dentry, mode, hmkdir⟩ := he
    cases hmkdir
  | moveDir d1 p d' nd1 np nd' name1 newName hl hdir hd hd' hdir' hsb hnew hne hself =>
    obtain ⟨old, new, hrename, hinode⟩ := he
    cases hrename
    have hkind : s.graph.kinds p = some (np.ino, np.sb, true) := hsame.dirs (by
      rw [kinds_of_some hl.inode, Vertex.kind, hdir])
    obtain ⟨m, hm, hk⟩ := kinds_eq_some.mp hkind
    have hisdir : s.isDir p = true := (isDir_eq hm).trans (Prod.mk.inj (Prod.mk.inj hk).2).2
    obtain ⟨hhangs, hnot⟩ := hop hne p hinode hisdir
    refine ⟨(hsame.hangs newDir).mpr (hangs_iff.mpr hhangs), fun hpath => hnot ?_⟩
    exact ReflTransGen.mono (fun x y hxy => edge_iff.mp ((hsame.edge x y).mp hxy)) _ _ hpath
  | _ => trivial

theorem Edit.Fits.cut {e : Edit g} (h : e.Fits op s) (hp : e.cut = some p) :
    ∃ dir dentry, op = .rmdir dir dentry ∧ s.inodeOf dentry = some p := by
  cases e with
  | rmdir d q nd nq name hl hd hdir hempty =>
    obtain ⟨dentry, hop, hinode⟩ := h
    exact ⟨d, dentry, hop, hinode.trans hp⟩
  | _ => cases hp

theorem DirOp.run_tree {r : Except Errno Unit} (hrun : op.run env s = some (r, s'))
    (hproper : op.proper s = true) (hgrows : op.Grows s) (hs : Numbered s) (h : DirTree s.graph R) :
    DirTree s'.graph fun p => R p ∨ op.removed s r = some p := by
  -- `rmdir` removes nothing when it fails
  by_cases hfailed : ∃ dir dentry e, op = .rmdir dir dentry ∧ r = .error e
  · obtain ⟨dir, dentry, e, rfl, rfl⟩ := hfailed
    have hstill : Still s s' := tmpfsRmdir_graph (.error e) s' hrun
    rw [hstill.graph]
    exact h.mono fun _ => .inl
  have hcut : ∀ dir dentry, op = .rmdir dir dentry → op.removed s r = s.inodeOf dentry := by
    rintro dir dentry rfl
    cases r with
    | error e => exact absurd ⟨dir, dentry, e, rfl, rfl⟩ hfailed
    | ok _ => rfl
  have hedits := op.run_edits hrun hproper hs
  generalize s'.graph = g' at hedits
  cases hedits with
  | same => exact h.mono fun _ => .inl
  | one e hfits =>
    refine (h.edit e (hfits.grows hgrows)).mono ?_
    rintro p (hR | hp)
    · exact .inl hR
    · obtain ⟨dir, dentry, hop, hinode⟩ := hfits.cut hp
      exact .inr ((hcut dir dentry hop).trans hinode)
  | two d q nd nq name hren hl hfile e hfits =>
    have hsame : SameTree s.graph (Edit.unlink d q nd nq name hl hfile).graph :=
      (hl.sameTree_removeFile h.sound.distinct hfile).trans sameTree_countDown
    have hfirst := h.same hsame (h.sound.edit _)
    refine (hfirst.edit e (hfits.grows_unlinked hren hgrows hsame)).mono ?_
    rintro p (hR | hp)
    · exact .inl hR
    · obtain ⟨dir, dentry, rfl, -⟩ := hfits.cut hp
      obtain ⟨oldDir, old, newDir, new, hop⟩ := hren
      cases hop

theorem tmpfsRename_refused {oldDir old newDir new : Ptr}
    (h : DirOp.Refused (.rename oldDir old newDir new) s) :
    Spec (tmpfsRename oldDir old newDir new) s fun _ s' => s' = s := by
  apply spec_dentryAt
  intro dOld hold
  cases hinode : dOld.inode with
  | none => exact spec_pure rfl
  | some p =>
    apply spec_bind
    intro r s1 hcheck
    obtain ⟨rfl, -⟩ := renameCheck_spec r s1 hcheck
    cases r with
    | error e => exact spec_pure rfl
    | ok _ => exact absurd hcheck (h p (by rw [inodeOf_eq hold, hinode]))

theorem DirOp.Refused.run_eq {r : Except Errno Unit} (h : op.Refused s)
    (hrun : op.run env s = some (r, s')) : s' = s := by
  cases op with
  | rename oldDir old newDir new => exact tmpfsRename_refused h r s' hrun
  | _ => cases h

/-! ## Runs -/

def Action.removed (env : Env) (action : Action) (s : Vfs) : Option Ptr :=
  (action.dirOp env s).bind fun o => o.1.bind fun op => (op.run env o.2).bind fun r =>
    op.removed o.2 r.1

/-- The directories that a run has removed. -/
def removedBy : List (Env × Action) → Vfs → List Ptr
  | [], _ => []
  | (env, action) :: actions, s =>
    (action.removed env s).toList ++ (action.run env s).elim [] fun r => removedBy actions r.2

theorem Action.run_tree {action : Action} (hC : action.Meets KeepsTree env s) (hs : Numbered s)
    (h : DirTree s.graph R) :
    Spec (action.run env) s fun _ s' =>
      Numbered s' ∧ DirTree s'.graph fun p => R p ∨ action.removed env s = some p := by
  refine (action.run_effect s).mono ?_
  rintro _ s' (hstill | ⟨hop, h1, hrun, h2⟩ | hmount)
  · rw [hstill.graph]
    exact ⟨hs.still hstill, h.mono fun _ => .inl⟩
  · have hs1 := hs.still h1
    rw [← h1.graph] at h
    rw [h2.graph]
    rcases (hC.of_dirOp hop).grows h with hrefused | ⟨hproper, hgrows⟩
    · rw [hrefused.run_eq hrun] at h2 ⊢
      exact ⟨hs1.still h2, h.mono fun _ => .inl⟩
    · refine ⟨(DirOp.run_numbered hrun hproper hs1).still h2, ?_⟩
      rw [Action.removed, hop, bind_some, bind_some, hrun, bind_some]
      exact DirOp.run_tree hrun hproper hgrows hs1 h
  · refine ⟨hmount.numbered hs, DirTree.mono ?_ fun _ => .inl⟩
    rcases hmount.edit hs with hgraph | ⟨e, ⟨p, sb, n, hp, hfree, rfl⟩, hgraph⟩
    · rw [hgraph]
      exact h
    · rw [hgraph]
      exact h.addRoot hp hfree

theorem runActions_tree {actions : List (Env × Action)} (hC : Within KeepsTree actions s)
    (hs : Numbered s) (h : DirTree s.graph R) :
    Spec (runActions actions) s fun _ s' => DirTree s'.graph fun p =>
      R p ∨ p ∈ removedBy actions s := by
  induction actions generalizing s R with
  | nil => exact spec_pure (h.mono fun _ => .inl)
  | cons a actions ih =>
    apply spec_bind
    intro _ s1 h1
    obtain ⟨hs1, htree⟩ := Action.run_tree hC.1 hs h () s1 h1
    refine (ih (hC.2 s1 h1) hs1 htree).mono ?_
    intro _ s' h'
    refine h'.mono ?_
    rw [removedBy, h1]
    rintro p ((hR | hp) | hp)
    · exact .inl hR
    · exact .inr (mem_append_left _ (mem_toList.mpr hp))
    · exact .inr (mem_append_right _ hp)

theorem DirTree.empty (h : ∀ p, g p = none) : DirTree g R := by
  have hnone : ∀ {p n}, g p ≠ some n := by
    intro p n hp
    rw [h p] at hp
    cases hp
  refine ⟨.empty h, ?_, ?_, ?_, ?_⟩
  · exact fun _ _ _ _ hd => absurd hd hnone
  · rintro d p ⟨nd, np, hd, -⟩
    exact absurd hd hnone
  · exact fun _ _ hp => absurd hp hnone
  · exact fun _ _ _ _ _ _ hp => absurd hp hnone

/-! ## Every run -/

namespace Vfs

/-- The number of entries that name an inode, other than `.` and `..`. -/
def namesOf (s : Vfs) (i : Inode) : Nat :=
  ((range s.inodes.next).map fun q => (s.inodes.get q).elim 0 fun j =>
    if j.sb = i.sb then j.dirList.countP (DirEntry.plainly i.ino) else 0).sum

/-- The directory is the root of its file system, or it has one name, in its parent; a path leads
to it from the root, and none from itself. -/
structure InTree (s : Vfs) (p : Ptr) (i : Inode) : Prop where
  dot : i.target dotName = some i.ino
  place : s.isRootDir p i.sb = true ∧ s.namesOf i = 0 ∨ s.namesOf i = 1 ∧
    ∃ d j, s.inodes.get d = some j ∧ s.listsDir d p = true ∧ i.target dotdotName = some j.ino
  reached : ∃ root, s.isRootDir root i.sb = true ∧ ReflTransGen (fun d p => s.listsDir d p = true)
    root p
  acyclic : ¬TransGen (fun d p => s.listsDir d p = true) p p

theorem namesOf_eq (s : Vfs) (i : Inode) : s.graph.namesOf i.vertex = s.namesOf i := by
  rw [Graph.namesOf, count_eq_sum, namesOf]
  congr 1
  refine map_congr_left ?_
  intro q _
  rw [graph]
  cases s.inodes.get q with
  | none => rfl
  | some j => rfl

end Vfs

theorem Graph.sb_of_path {n m : Vertex} (h : ReflTransGen g.Edge d p) (hd : g d = some n)
    (hp : g p = some m) : m.sb = n.sb := by
  induction h generalizing m with
  | refl =>
    cases hp.symm.trans hd
    rfl
  | tail _ hedge ih =>
    obtain ⟨nx, ny, hx, hy, -, hsb, -⟩ := hedge
    cases hp.symm.trans hy
    exact hsb.trans (ih hx)

theorem DirTree.inTree {i : Inode} (h : DirTree s.graph R) (hi : s.inodes.get p = some i)
    (hdir : sIsdir i.mode = true) (hR : ¬R p) : s.InTree p i := by
  have hp : s.graph p = some i.vertex := graph_of_get hi
  have hchild : ∀ name, s.graph.child name p = i.target name := fun name => child_of_some hp
  have hhangs := h.kept hp hdir hR
  have hedge : ∀ {d p}, s.graph.Edge d p ↔ s.listsDir d p = true := edge_iff
  refine ⟨(hchild _).symm.trans (h.sound.names.dot hp hdir), ?_, ?_, ?_⟩
  · rcases hhangs with hroot | ⟨d, hd⟩
    · refine .inl ⟨(isRoot_iff hi).mp hroot, ?_⟩
      obtain ⟨n, hn, hisdir, hself⟩ := hroot
      cases hp.symm.trans hn
      rw [← namesOf_eq]
      exact h.sound.names.root hp hdir hself
    · obtain ⟨nd, np, hd', hp', -, hsb, hpos⟩ := id hd
      cases hp.symm.trans hp'
      obtain ⟨j, hj, rfl⟩ := map_eq_some_iff.mp hd'
      have hone := h.sound.names.once hp hdir
      have hle := h.sound.countP_le_namesOf hd' hsb
      rw [namesOf_eq] at hone hle
      exact .inr ⟨by omega, d, j, hj, hedge.mp hd, (hchild _).symm.trans (h.parent hd hd')⟩
  · obtain ⟨r, hroot, hpath⟩ := h.hangs_rooted hhangs
    obtain ⟨n, hr, -⟩ := id hroot
    obtain ⟨j, hj, rfl⟩ := map_eq_some_iff.mp hr
    have hsb : i.sb = j.sb := sb_of_path hpath hr hp
    rw [hsb]
    exact ⟨r, (isRoot_iff hj).mp hroot, ReflTransGen.mono (fun _ _ => hedge.mp) _ _ hpath⟩
  · intro hcycle
    refine (h.hangs_rooted hhangs).acyclic (fun _ _ _ => h.sound.edge_unique)
      (fun r hr x => h.sound.not_edge_root hr) ?_
    exact TransGen.mono (fun _ _ => hedge.mpr) _ _ hcycle

/-- In every run that meets the condition the directories that no `rmdir` has removed form a tree
in each file system. -/
theorem directory_tree {heap : Oracle} {actions : List (Env × Action)}
    (hC : Within KeepsTree actions (empty heap))
    (hrun : runActions actions (empty heap) = some ((), s)) :
    (∀ p i, s.inodes.get p = some i → sIsdir i.mode = true →
      p ∉ removedBy actions (empty heap) →
      s.InTree p i) ∧
      ∀ p q sb, s.isRootDir p sb = true → s.isRootDir q sb = true → p = q := by
  have h := runActions_tree (R := fun _ => False) hC (numbered_empty heap) (.empty fun _ => rfl)
    () s hrun
  constructor
  · intro p i hi hdir hnot
    exact h.inTree hi hdir fun hp => hp.elim id hnot
  · intro p q sb hp hq
    obtain ⟨i, hi, hsbi⟩ := isRootDir_sb hp
    obtain ⟨j, hj, hsbj⟩ := isRootDir_sb hq
    subst hsbi
    refine h.oneRoot ((isRoot_iff hi).mpr hp) ?_ (graph_of_get hi)
      (graph_of_get hj) hsbj.symm
    rw [isRoot_iff hj, hsbj]
    exact hq

/-- Two directories in `/a`, of which one is removed; then `/a`, with the other in it, is moved. -/
def pruned : List (Env × Action) :=
  [(start 0, .mountRoot (some 1)), (start 0, .call (.mkdir ['/', 'a'] 0o755 ⟨0, 0⟩)),
    (start 0, .call (.mkdir ['/', 'a', '/', 'b'] 0o755 ⟨0, 0⟩)),
    (start 0, .call (.mkdir ['/', 'a', '/', 'c'] 0o755 ⟨0, 0⟩)),
    (start 0, .call (.rmdir ['/', 'a', '/', 'c'] ⟨0, 0⟩)),
    (start 0, .call (.mkdir ['/', 'd'] 0o755 ⟨0, 0⟩)),
    (start 0, .call (.rename ['/', 'a'] ['/', 'd', '/', 'e'] ⟨0, 0⟩))]

theorem directory_tree_pruned :
    removedBy pruned (empty start.heap) = [3] ∧
      ∃ s i, runActions pruned (empty start.heap) = some ((), s) ∧ s.inodes.get 2 = some i ∧
        s.listsDir 4 1 = true ∧ s.listsDir 1 2 = true ∧ s.InTree 2 i := by
  have hremoved : removedBy pruned (empty start.heap) = [3] := by decide +kernel
  have hfacts : ((runActions pruned (empty start.heap)).bind fun r =>
      (r.2.inodes.get 2).map fun i =>
      (sIsdir i.mode, r.2.listsDir 4 1, r.2.listsDir 1 2)) = some (true, true, true) := by
    decide +kernel
  have hcheck : checkWithin (fun op s => op.proper s && op.shows s) pruned
      (empty start.heap) = true := by
    decide +kernel
  have hC : Within KeepsTree pruned (empty start.heap) :=
    within_of_check (fun _ _ h => .inr (and_eq_true_iff.mp h)) hcheck
  obtain ⟨⟨_, s⟩, hs, hfacts⟩ := bind_eq_some_iff.mp hfacts
  obtain ⟨i, hi, hfacts⟩ := map_eq_some_iff.mp hfacts
  obtain ⟨hdir, hfacts⟩ := Prod.mk.inj hfacts
  obtain ⟨hmoved, hlists⟩ := Prod.mk.inj hfacts
  refine ⟨hremoved, s, i, hs, hi, hmoved, hlists, (directory_tree hC hs).1 2 i hi hdir ?_⟩
  rw [hremoved]
  decide

/-- A task works in `/b/c`, `/b` is moved into `/a`, and then the task moves `/a` to where it is. -/
def movedBeneath : List (Env × Action) :=
  [(start 0, .mountRoot (some 1)), (start 0, .call (.mkdir ['/', 'a'] 0o755 ⟨0, 0⟩)),
    (start 0, .call (.mkdir ['/', 'b'] 0o755 ⟨0, 0⟩)),
    (start 0, .call (.mkdir ['/', 'b', '/', 'c'] 0o755 ⟨0, 0⟩)),
    (start 0, .call (.open ['/', 'b', '/', 'c'] 0 0 ⟨0, 0⟩)),
    (start 0, .call (.rename ['/', 'b'] ['/', 'a', '/', 'b'] ⟨0, 0⟩)),
    (start 0, .call (.rename ['/', 'a'] ['x'] ⟨0, 5⟩))]

/-- The directory `/a` is then in a directory beneath itself, and no directory was removed. -/
theorem directory_beneath_itself :
    removedBy movedBeneath (empty start.heap) = [] ∧
      ∃ s, runActions movedBeneath (empty start.heap) = some ((), s) ∧
        TransGen (fun d p => s.listsDir d p = true) 1 1 := by
  have hbeneath : ((runActions movedBeneath (empty start.heap)).map fun r =>
      (r.2.listsDir 1 2, r.2.listsDir 2 3, r.2.listsDir 3 1)) =
        some (true, true, true) := by decide +kernel
  obtain ⟨⟨_, s⟩, hs, hlists⟩ := map_eq_some_iff.mp hbeneath
  obtain ⟨h12, hlists⟩ := Prod.mk.inj hlists
  obtain ⟨h23, h31⟩ := Prod.mk.inj hlists
  exact ⟨by decide +kernel, s, hs, .head h12 (.head h23 (.single h31))⟩

end ShiziOS.Fs
