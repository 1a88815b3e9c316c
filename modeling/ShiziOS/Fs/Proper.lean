import ShiziOS.Fs.Edit

/-!
# Operations that are edits

The functions of tmpfs are handed an inode of a directory and a dentry. They take the name from
the dentry, find the entry in the directory, and then work on the inode of the dentry without a
look at the number in the entry. When the two agree, and the names are none of `.` and `..`, an
operation is an edit of the graph, or two of them (`DirOp.run_edits`).
-/

namespace ShiziOS.Fs

open Exec Option Bool ShiziOS.Fs.Graph Vertex Vfs

variable {env : Env} {s s' : Vfs} {g : Graph} {dir dentry p q : Ptr} {n nd : Vertex} {name : Name}
    {op : DirOp}

/-! ## Conditions on an operation -/

namespace Vfs

def inodeOf (s : Vfs) (dentry : Ptr) : Option Ptr := (s.dentries.get dentry).bind Dentry.inode

/-- The name of the dentry is neither `.` nor `..`. -/
def plainName (s : Vfs) (dentry : Ptr) : Bool := (s.dentries.get dentry).all fun d => plain d.name

def isDir (s : Vfs) (p : Ptr) : Bool := (s.inodes.get p).any fun i => sIsdir i.mode

def lists (s : Vfs) (dir : Ptr) (name : Name) (q : Ptr) : Bool :=
  (s.inodes.get dir).all fun i => (tmpfsDirLookup i.dirList name).all fun de =>
    (s.inodes.get q).any fun j => j.sb == i.sb && j.ino == de.ino

/-- What the directory lists under the name of the dentry is the inode of the dentry. -/
def agrees (s : Vfs) (dir dentry : Ptr) : Bool :=
  (s.dentries.get dentry).all fun d => d.inode.all fun q => s.lists dir d.name q

end Vfs

/-- The new place of an inode `p` that moves from one directory to another: in its own file
system, and for a directory another directory than itself. -/
def Vfs.takesIn (s : Vfs) (oldDir newDir p : Ptr) : Bool :=
  oldDir == newDir || (s.sbOf p == s.sbOf newDir &&
    (!s.isDir p || (s.isDir oldDir && s.isDir newDir && newDir != p)))

/-- The operation acts on what its directories list, under names other than `.` and `..`, within
one file system, and needs no number that the bitmap would have to grow for. -/
def DirOp.proper : DirOp → Vfs → Bool
  | .create dir dentry _, s => s.hasRoom dir && s.plainName dentry
  | .symlink dir dentry _, s => s.hasRoom dir && s.plainName dentry
  | .mknod dir dentry mode _, s => s.hasRoom dir && s.plainName dentry && !sIsdir mode
  | .mkdir dir dentry _, s => s.hasRoom dir && s.plainName dentry && s.isDir dir
  | .link old dir new, s =>
    s.plainName new && (s.inodeOf old).all fun p => !s.isDir p && s.sbOf p == s.sbOf dir
  | .unlink dir dentry, s =>
    s.plainName dentry && s.agrees dir dentry && (s.inodeOf dentry).all fun q => !s.isDir q
  | .rmdir dir dentry, s =>
    s.plainName dentry && s.agrees dir dentry && s.isDir dir && (s.inodeOf dentry).all fun q =>
      s.isDir q
  | .rename oldDir old newDir new, s =>
    s.plainName old && s.plainName new && s.agrees oldDir old && s.agrees newDir new &&
      ((s.inodeOf new).all fun q => !s.isDir q) && (s.inodeOf old).all fun p =>
        s.takesIn oldDir newDir p

/-! ## What the conditions say of the graph -/

variable {d : Dentry} {r : Except Errno Unit} {oldDir newDir old : Ptr} {oldName newName : Name}
  {np nn : Vertex}

theorem Vfs.plain_of_plainName (h : s.plainName dentry = true)
    (hd : s.dentries.get dentry = some d) : plain d.name = true := by
  rw [plainName, hd, all_some] at h
  exact h

theorem Vfs.inodeOf_eq (hd : s.dentries.get dentry = some d) : s.inodeOf dentry = d.inode := by
  rw [inodeOf, hd, bind_some]

theorem Vfs.isDir_eq (h : s.graph p = some n) : s.isDir p = n.isDir := by
  obtain ⟨i, hi, rfl⟩ := map_eq_some_iff.mp h
  rw [isDir, hi, any_some]
  rfl

theorem Vfs.sbOf_eq (h : s.graph p = some n) : s.sbOf p = some n.sb := by
  obtain ⟨i, hi, rfl⟩ := map_eq_some_iff.mp h
  rw [sbOf, hi, map_some]
  rfl

theorem Vfs.exists_of_sbOf {sb : Ptr} (h : s.sbOf p = some sb) :
    ∃ n, s.graph p = some n ∧ n.sb = sb := by
  obtain ⟨i, hi, hsb⟩ := map_eq_some_iff.mp h
  exact ⟨i.vertex, graph_of_get hi, hsb⟩

theorem Vfs.lists_of_agrees {de : DirEntry} (h : s.agrees dir dentry = true)
    (hname : s.plainName dentry = true) (hd : s.dentries.get dentry = some d)
    (hq : d.inode = some q)
    (hdir : s.graph dir = some nd) (hl : tmpfsDirLookup nd.entries d.name = some de) :
    ∃ nq, s.graph.Lists dir nd d.name q nq := by
  obtain ⟨i, hi, rfl⟩ := map_eq_some_iff.mp hdir
  have hl' : tmpfsDirLookup i.dirList d.name = some de := hl
  rw [agrees, hd, all_some, hq, all_some, lists, hi, all_some, hl', all_some, any_eq_true] at h
  obtain ⟨j, hj, hij⟩ := h
  rw [and_eq_true, beq_iff_eq, beq_iff_eq] at hij
  refine ⟨j.vertex, hdir, graph_of_get hj, hij.1, plain_of_plainName hname hd, ?_⟩
  rw [child_of_some hdir, hl, map_some, ← hij.2]
  rfl

/-! ## From operations to edits -/

def Edit.Fits (op : DirOp) (s : Vfs) : Edit g → Prop
  | .addFile _ _ _ _ _ k .. => k = 1 ∨ ∃ dir dentry mode dev, op = .mknod dir dentry mode dev
  | .addDir d .. => ∃ dentry mode, op = .mkdir d dentry mode
  | .link _ p .. => ∃ old dir new, op = .link old dir new ∧ s.inodeOf old = some p
  | .rmdir d q .. => ∃ dentry, op = .rmdir d dentry ∧ s.inodeOf dentry = some q
  | .moveDir d p d' .. => ∃ old new, op = .rename d old d' new ∧ s.inodeOf old = some p
  | _ => True

/-- What an operation leaves of the graph: nothing is changed, or there is an edit, or a target is
unlinked before. -/
inductive Edits (op : DirOp) (s : Vfs) : Graph → Prop
  | same : Edits op s s.graph
  | one (e : Edit s.graph) (hfits : e.Fits op s) : Edits op s e.graph
  | two (d q : Ptr) (nd nq : Vertex) (name : Name)
    (hop : ∃ oldDir old newDir new, op = .rename oldDir old newDir new)
      (h : s.graph.Lists d nd name q nq)
    (hfile : nq.isDir = false) (e : Edit (Edit.unlink d q nd nq name h hfile).graph)
    (hfits : e.Fits op s) : Edits op s e.graph

theorem Entered.not_has {new : Vertex} {f : Vertex → Vertex} (h : Entered s dir nd f p new s')
    (hroom : s.hasRoom dir = true) (hs : Numbered s) : ¬s.graph.Has nd.sb new.ino :=
  hs.not_has (h.takes (room_of_hasRoom hroom h.parent)).1

theorem Entered.edits_file {n k : Nat}
    (h : Entered s dir nd (Vertex.add ⟨name, n⟩) p ⟨n, nd.sb, false, k, []⟩ s')
    (hroom : s.hasRoom dir = true) (hs : Numbered s) (hname : plain name = true)
    (hk : k = 1 ∨ ∃ dir dentry mode dev, op = .mknod dir dentry mode dev) :
    Edits op s s'.graph := by
  rw [h.graph]
  exact .one (.addFile dir p nd name n k h.parent h.fresh (h.not_has hroom hs) hname) hk

theorem Listed.edits (h : Listed s dir dentry r s') (hroom : s.hasRoom dir = true)
    (hname : s.plainName dentry = true) (hs : Numbered s) : Edits op s s'.graph := by
  cases r with
  | error e =>
    rw [h.graph]
    exact .same
  | ok _ =>
    obtain ⟨nd, d, p, n, hd, -, he⟩ := h
    exact he.edits_file hroom hs (plain_of_plainName hname hd) (.inl rfl)

theorem Listed.numbered (h : Listed s dir dentry r s') (hroom : s.hasRoom dir = true)
    (hs : Numbered s) : Numbered s' := by
  cases r with
  | error e => exact Undone.numbered h (fun _ => room_of_hasRoom hroom) hs
  | ok _ =>
    obtain ⟨nd, d, p, n, -, -, he⟩ := h
    exact he.numbered (fun _ => rfl) (room_of_hasRoom hroom he.parent) hs

/-! ### Renaming -/

theorem Graph.move_congr {np1 nn1 : Vertex} (hp : np1.kind = np.kind) (hn : nn1.kind = nn.kind) :
    g.move oldDir p newDir oldName newName np1 nn1 = g.move oldDir p newDir oldName newName np
      nn := by
  obtain ⟨hino, -, hdir⟩ := kind_eq_iff.mp hp
  rw [move, move, hino, hdir, (kind_eq_iff.mp hn).1]

theorem Graph.Lists.move_edit (new : Ptr) {no : Vertex}
    (h : g.Lists oldDir no oldName p np) (hn : g newDir = some nn) (hnew : plain newName = true)
    (hp : s.inodeOf old = some p)
    (hin : oldDir = newDir ∨ np.sb = nn.sb ∧
      (np.isDir = true → no.isDir = true ∧ nn.isDir = true ∧ newDir ≠ p)) :
    ∃ e : Edit g, e.Fits (.rename oldDir old newDir new) s ∧
      e.graph = g.move oldDir p newDir oldName newName np nn := by
  by_cases hd : oldDir = newDir
  · refine ⟨.rename oldDir p no np oldName newName h hnew, trivial, ?_⟩
    rw [move, if_pos hd, Edit.graph]
  · obtain ⟨hsb, hdirs⟩ := hin.resolve_left hd
    cases hdir : np.isDir with
    | false =>
      refine ⟨.moveFile oldDir p newDir no np nn oldName newName h hdir hn hsb hnew hd, trivial, ?_⟩
      rw [move, if_neg hd, hdir, if_neg Bool.false_ne_true, Edit.graph]
    | true =>
      obtain ⟨hod, hnd, hself⟩ := hdirs hdir
      refine ⟨.moveDir oldDir p newDir no np nn oldName newName h hdir hod hn hnd hsb hnew hd hself,
        ⟨old, new, rfl, hp⟩, ?_⟩
      rw [move, if_neg hd, hdir, if_pos rfl, Edit.graph]
      rfl

theorem Vfs.takesIn_spec {no : Vertex} (h : s.takesIn oldDir newDir p = true)
    (hp : s.graph p = some np) (ho : s.graph oldDir = some no) (hn : s.graph newDir = some nn) :
    oldDir = newDir ∨ np.sb = nn.sb ∧
      (np.isDir = true → no.isDir = true ∧ nn.isDir = true ∧ newDir ≠ p) := by
  rw [takesIn, or_eq_true, beq_iff_eq] at h
  refine h.imp_right ?_
  intro h
  rw [and_eq_true, beq_iff_eq, sbOf_eq hp, sbOf_eq hn, or_eq_true, isDir_eq hp, isDir_eq ho,
    isDir_eq hn] at h
  refine ⟨some.inj h.1, ?_⟩
  intro hdir
  rw [hdir, and_eq_true, and_eq_true, bne_iff_ne] at h
  obtain ⟨⟨hod, hnd⟩, hself⟩ := h.2.resolve_left false_ne_true
  exact ⟨hod, hnd, hself⟩

theorem Graph.child_drop (g : Graph) (q : Ptr) (hne : ¬(oldDir = newDir ∧ oldName = newName)) :
    (g.drop newDir q newName).child oldName oldDir = g.child oldName oldDir := by
  rw [drop, child_countDown]
  by_cases hname : oldName = newName
  · have hd : oldDir ≠ newDir := fun hd => hne ⟨hd, hname⟩
    rw [child, child, edit_of_ne hd]
  · rw [child_remove hname]

theorem RenameEffect.edits {new : Ptr} (h : RenameEffect s oldDir old newDir new g)
    (hproper : DirOp.proper (.rename oldDir old newDir new) s = true) :
    Edits (.rename oldDir old newDir new) s g := by
  rw [DirOp.proper] at hproper
  simp only [and_eq_true] at hproper
  obtain ⟨⟨⟨⟨⟨hplain, hplain'⟩, hagrees⟩, hagrees'⟩, htarget⟩, hin⟩ := hproper
  -- the source as the directory lists it, and where it goes
  have hargs : ∀ {dOld dNew p np no nn de}, RenameArgs s oldDir old newDir new dOld dNew p np no nn
    de →
      s.graph.Lists oldDir no dOld.name p np ∧ s.inodeOf old = some p ∧
        (oldDir = newDir ∨ np.sb = nn.sb ∧
          (np.isDir = true → no.isDir = true ∧ nn.isDir = true ∧ newDir ≠ p)) := by
    intro dOld dNew p np no nn de h
    have hp : s.inodeOf old = some p := by rw [inodeOf_eq h.old, h.inode]
    obtain ⟨nq, hl⟩ := lists_of_agrees hagrees hplain h.old h.inode h.oldDir h.listed
    cases h.source.symm.trans hl.inode
    rw [hp, all_some] at hin
    exact ⟨hl, hp, takesIn_spec hin h.source h.oldDir h.newDir⟩
  have hdrop : ∀ {dOld dNew p np no nn de q nq}, RenameArgs s oldDir old newDir new dOld dNew p np
    no nn de →
      RenameTarget s dNew p np nn q nq → s.graph.Lists newDir nn dNew.name q nq ∧
        nq.isDir = false := by
    intro dOld dNew p np no nn de q nq h ht
    obtain ⟨de', hl⟩ := isSome_iff_exists.mp ht.listed
    obtain ⟨nq', hl⟩ := lists_of_agrees hagrees' hplain' h.new ht.inode h.newDir hl
    cases ht.target.symm.trans hl.inode
    rw [inodeOf_eq h.new, ht.inode, all_some, isDir_eq ht.target, not_eq_true'] at htarget
    exact ⟨hl, htarget⟩
  cases h with
  | same => exact .same
  | moved h hfree =>
    obtain ⟨hl, hp, hin⟩ := hargs h
    obtain ⟨e, hfits, he⟩ := hl.move_edit new h.newDir (plain_of_plainName hplain' h.new) hp hin
    rw [← he]
    exact .one e hfits
  | dropped h ht hne =>
    obtain ⟨hl, hfile⟩ := hdrop h ht
    exact .one (.unlink _ _ _ _ _ hl hfile) trivial
  | @replaced dOld dNew p np no nn de q nq h ht hne =>
    obtain ⟨hl, hp, hin⟩ := hargs h
    obtain ⟨hlq, hfile⟩ := hdrop h ht
    have hkinds := kinds_drop s.graph newDir q dNew.name
    obtain ⟨no1, np1, hko, hkp, hl1⟩ := hl.congr hkinds (child_drop s.graph q hne)
    have hn1 := kinds_of_some h.newDir
    rw [← hkinds] at hn1
    obtain ⟨nn1, hn1, hkn⟩ := kinds_eq_some.mp hn1
    have hin1 : oldDir = newDir ∨ np1.sb = nn1.sb ∧
        (np1.isDir = true → no1.isDir = true ∧ nn1.isDir = true ∧ newDir ≠ p) := by
      obtain ⟨-, hsb, hdir⟩ := kind_eq_iff.mp hkp
      obtain ⟨-, hsb', hdir'⟩ := kind_eq_iff.mp hkn
      rw [hsb, hsb', hdir, hdir', (kind_eq_iff.mp hko).2.2]
      exact hin
    obtain ⟨e, hfits, he⟩ := hl1.move_edit new hn1 (plain_of_plainName hplain' h.new) hp hin1
    rw [← move_congr hkp hkn, ← he]
    exact .two newDir q nn nq dNew.name ⟨oldDir, old, newDir, new, rfl⟩ hlq hfile e hfits

/-! ### All operations -/

theorem DirOp.run_edits (hrun : op.run env s = some (r, s'))
    (hproper : op.proper s = true) (hs : Numbered s) : Edits op s s'.graph := by
  cases op with
  | create dir dentry mode =>
    obtain ⟨hroom, hname⟩ := and_eq_true_iff.mp hproper
    exact Listed.edits (tmpfsCreate_graph mode r s' hrun) hroom hname hs
  | symlink dir dentry target =>
    obtain ⟨hroom, hname⟩ := and_eq_true_iff.mp hproper
    exact Listed.edits (tmpfsSymlink_graph target r s' hrun) hroom hname hs
  | mknod dir dentry mode dev =>
    obtain ⟨hproper, hmode⟩ := and_eq_true_iff.mp hproper
    obtain ⟨hroom, hname⟩ := and_eq_true_iff.mp hproper
    rw [not_eq_true'] at hmode
    have h := tmpfsMknod_graph mode dev r s' hrun
    cases r with
    | error e =>
      rw [h.graph]
      exact .same
    | ok _ =>
      obtain ⟨nd, d, p, n, hd, he⟩ := h
      rw [hmode] at he
      exact he.edits_file hroom hs (plain_of_plainName hname hd)
        (.inr ⟨dir, dentry, mode, dev, rfl⟩)
  | mkdir dir dentry mode =>
    obtain ⟨hproper, hdir⟩ := and_eq_true_iff.mp hproper
    obtain ⟨hroom, hname⟩ := and_eq_true_iff.mp hproper
    have h := tmpfsMkdir_graph mode r s' hrun
    cases r with
    | error e =>
      rw [h.graph]
      exact .same
    | ok _ =>
      obtain ⟨nd, d, p, n, hd, -, he⟩ := h
      rw [isDir_eq he.parent] at hdir
      have hgraph := he.graph
      rw [← edit_edit (k := Vertex.countUp)] at hgraph
      rw [hgraph]
      exact .one (.addDir dir p nd d.name n he.parent hdir he.fresh (he.not_has hroom hs)
        (plain_of_plainName hname hd)) ⟨dentry, mode, rfl⟩
  | link old dir new =>
    obtain ⟨hname, hold⟩ := and_eq_true_iff.mp hproper
    have h := tmpfsLink_graph r s' hrun
    cases r with
    | error e =>
      rw [h.graph]
      exact .same
    | ok _ =>
      obtain ⟨-, d, p, np, d', hd, hp, hnp, hd', hgraph⟩ := h
      have hinode : s.inodeOf old = some p := by rw [inodeOf_eq hd, hp]
      rw [hinode, all_some, and_eq_true, not_eq_true', beq_iff_eq, isDir_eq hnp,
        sbOf_eq hnp] at hold
      obtain ⟨nd, hnd, hsb⟩ := exists_of_sbOf hold.2.symm
      rw [hgraph]
      exact .one (.link dir p nd np d'.name hnd hnp hold.1 hsb.symm (plain_of_plainName hname hd'))
        ⟨old, dir, new, rfl, hinode⟩
  | unlink dir dentry =>
    obtain ⟨hproper, hfile⟩ := and_eq_true_iff.mp hproper
    obtain ⟨hname, hagrees⟩ := and_eq_true_iff.mp hproper
    have h := tmpfsUnlink_graph r s' hrun
    cases r with
    | error e =>
      rw [h.graph]
      exact .same
    | ok _ =>
      obtain ⟨-, nd, d, de, q, hdir, hd, hl, hq, -, hgraph⟩ := h
      obtain ⟨nq, hlists⟩ := lists_of_agrees hagrees hname hd hq hdir hl
      rw [inodeOf_eq hd, hq, all_some, isDir_eq hlists.inode, not_eq_true'] at hfile
      rw [hgraph]
      exact .one (.unlink dir q nd nq d.name hlists hfile) trivial
  | rmdir dir dentry =>
    obtain ⟨hproper, hchild⟩ := and_eq_true_iff.mp hproper
    obtain ⟨hproper, hisdir⟩ := and_eq_true_iff.mp hproper
    obtain ⟨hname, hagrees⟩ := and_eq_true_iff.mp hproper
    have h := tmpfsRmdir_graph r s' hrun
    cases r with
    | error e =>
      rw [h.graph]
      exact .same
    | ok _ =>
      obtain ⟨-, nd, d, de, child, nc, hdir, hd, hl, hc, hnc, hempty, hgraph⟩ := h
      obtain ⟨nq, hlists⟩ := lists_of_agrees hagrees hname hd hc hdir hl
      cases hnc.symm.trans hlists.inode
      have hinode : s.inodeOf dentry = some child := by rw [inodeOf_eq hd, hc]
      rw [hinode, all_some, isDir_eq hnc] at hchild
      rw [isDir_eq hdir] at hisdir
      rw [hgraph]
      exact .one (.rmdir dir child nd nc d.name hlists hisdir hchild hempty) ⟨dentry, rfl, hinode⟩
  | rename oldDir old newDir new => exact (tmpfsRename_graph r s' hrun).2.edits hproper

theorem RenameEffect.kinds {new : Ptr} (h : RenameEffect s oldDir old newDir new g) :
    g.kinds = s.graph.kinds := by
  cases h with
  | same => rfl
  | moved h hfree => rw [kinds_move]
  | dropped h ht hne => rw [kinds_drop]
  | replaced h ht hne => rw [kinds_move, kinds_drop]

theorem DirOp.run_numbered (hrun : op.run env s = some (r, s'))
    (hproper : op.proper s = true) (hs : Numbered s) : Numbered s' := by
  have hsame : s'.graph.kinds = s.graph.kinds → s'.sbs = s.sbs → Numbered s' := by
    intro hk hsbs
    refine hs.mono hk ?_
    intro sb ino hu
    rw [hsbs]
    exact hu
  cases op with
  | create dir dentry mode =>
    exact Listed.numbered (tmpfsCreate_graph mode r s' hrun) (and_eq_true_iff.mp hproper).1 hs
  | symlink dir dentry target =>
    exact Listed.numbered (tmpfsSymlink_graph target r s' hrun) (and_eq_true_iff.mp hproper).1
      hs
  | mknod dir dentry mode dev =>
    have hroom := (and_eq_true_iff.mp (and_eq_true_iff.mp hproper).1).1
    have h := tmpfsMknod_graph mode dev r s' hrun
    cases r with
    | error e => exact Undone.numbered h (fun _ => room_of_hasRoom hroom) hs
    | ok _ =>
      obtain ⟨nd, d, p, n, -, he⟩ := h
      exact he.numbered (fun _ => rfl) (room_of_hasRoom hroom he.parent) hs
  | mkdir dir dentry mode =>
    have hroom := (and_eq_true_iff.mp (and_eq_true_iff.mp hproper).1).1
    have h := tmpfsMkdir_graph mode r s' hrun
    cases r with
    | error e => exact Undone.numbered h (fun _ => room_of_hasRoom hroom) hs
    | ok _ =>
      obtain ⟨nd, d, p, n, -, -, he⟩ := h
      exact he.numbered (fun _ => rfl) (room_of_hasRoom hroom he.parent) hs
  | link old dir new =>
    have h := tmpfsLink_graph r s' hrun
    cases r with
    | error e => exact hs.still h
    | ok _ =>
      obtain ⟨hsbs, d, p, np, d', -, -, -, -, hgraph⟩ := h
      refine hsame ?_ hsbs
      rw [hgraph, kinds_countUp, kinds_add]
  | unlink dir dentry =>
    have h := tmpfsUnlink_graph r s' hrun
    cases r with
    | error e => exact hs.still h
    | ok _ =>
      obtain ⟨hsbs, nd, d, de, q, -, -, -, -, -, hgraph⟩ := h
      refine hsame ?_ hsbs
      rw [hgraph, kinds_countDown, kinds_remove]
  | rmdir dir dentry =>
    have h := tmpfsRmdir_graph r s' hrun
    cases r with
    | error e => exact hs.still h
    | ok _ =>
      obtain ⟨hsbs, nd, d, de, child, nc, -, -, -, -, -, -, hgraph⟩ := h
      refine hsame ?_ hsbs
      rw [hgraph, kinds_countDown, kinds_countDown, kinds_remove]
  | rename oldDir old newDir new =>
    obtain ⟨hsbs, heffect⟩ := tmpfsRename_graph r s' hrun
    exact hsame heffect.kinds hsbs

theorem numbered_empty (heap : Oracle) : Numbered (Vfs.empty heap) := by
  refine ⟨?_, (Sound.empty fun _ => rfl).distinct⟩
  intro p ino sb b hp
  cases hp

theorem MountEffect.edit (h : MountEffect s s') (hs : Numbered s) :
    s'.graph = s.graph ∨ ∃ e : Edit s.graph, (∃ p sb n hp hfree, e = .addRoot p sb n hp hfree) ∧
      s'.graph = e.graph := by
  rcases h.graph with hgraph | ⟨p, n, sb, hfree, hp, -, hgraph⟩
  · exact .inl hgraph
  · have hnone : ∀ k, ¬s.graph.Has sb k := fun k => hs.not_has (hfree k)
    exact .inr ⟨.addRoot p sb n hp hnone, ⟨p, sb, n, hp, hnone, rfl⟩, hgraph⟩

end ShiziOS.Fs
