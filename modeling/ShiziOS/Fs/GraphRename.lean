import ShiziOS.Fs.GraphOps

/-!
# Renaming on the graph

`tmpfs_rename` removes the entry of the target, if there is one, and moves the entry of the
source. It looks at the dentries for what to move and at the directories for the entries, and
the two need not agree: `RenameEffect` lists what it can leave.
-/

namespace ShiziOS.Fs

open Exec Option ShiziOS.Fs.Graph Vertex

variable {s s' : Vfs} {p : Ptr} {g : Graph} {D : Store Dentry} {B : Store SuperBlock}

/-- The entry of a target that is replaced is removed, and its inode has one link less. -/
def Graph.drop (g : Graph) (newDir q : Ptr) (newName : Name) : Graph :=
  (g.edit newDir (remove newName)).edit q countDown

/-- The entry of `p` goes from one directory to the other; a directory has another parent then. -/
def Graph.move (g : Graph) (oldDir p newDir : Ptr) (oldName newName : Name) (np nn : Vertex) :
    Graph :=
  if oldDir = newDir then g.edit oldDir (rename oldName newName)
  else
    let moved := (g.edit newDir (add ⟨newName, np.ino⟩)).edit oldDir (remove oldName)
    if np.isDir then
      ((moved.edit p (point ['.', '.'] nn.ino)).edit oldDir countDown).edit newDir
        countUp
    else moved

theorem Graph.kinds_drop (g : Graph) (newDir q : Ptr) (newName : Name) :
    (g.drop newDir q newName).kinds = g.kinds := by
  rw [drop, kinds_countDown, kinds_remove]

theorem Graph.kinds_move (g : Graph) (oldDir p newDir : Ptr) (oldName newName : Name)
    (np nn : Vertex) : (g.move oldDir p newDir oldName newName np nn).kinds = g.kinds := by
  rw [move]
  by_cases hd : oldDir = newDir
  · rw [if_pos hd, kinds_rename]
  · rw [if_neg hd]
    split_ifs
    · rw [kinds_countUp, kinds_countDown, kinds_point, kinds_remove, kinds_add]
    · rw [kinds_remove, kinds_add]

theorem Graph.kind_eq {n m : Vertex} (h : g.kinds p = some n.kind) (hm : g p = some m) :
    m.kind = n.kind := by
  rw [kinds_of_some hm] at h
  exact some.inj h

variable {oldDir newDir old new : Ptr} {np nn : Vertex} {dOld dNew : Dentry}

theorem moveDotdot_at (h : At g D B s)
    (hp : g.kinds p = some np.kind) (hn : g.kinds newDir = some nn.kind) :
    Spec (moveDotdot oldDir p newDir) s fun _ s' =>
      At (if np.isDir then
        ((g.edit p (point ['.', '.'] nn.ino)).edit oldDir countDown).edit newDir
          countUp
        else g) D B s' := by
  refine h.inodeAt ?_
  intro i hi
  have hdir : sIsdir i.mode = np.isDir := (kind_eq_iff.mp (kind_eq hp hi)).2.2
  rw [hdir]
  cases np.isDir with
  | false => exact spec_pure h
  | true =>
    simp only [if_true]
    by_cases hlock : p = oldDir ∨ p = newDir
    · rw [if_pos hlock]
      exact spec_stuck
    rw [if_neg hlock]
    refine h.inodeAt ?_
    intro j hj
    have hino : j.ino = nn.ino := (kind_eq_iff.mp (kind_eq hn hj)).1
    refine h.setInode (k := point ['.', '.'] j.ino) (fun _ => rfl) ?_
    intro _ s1 _ h1
    refine h1.setInode (k := countDown) (fun _ => rfl) ?_
    intro _ s2 _ h2
    rw [← bind_pure (setInode newDir _)]
    refine h2.setInode (k := countUp) (fun _ => rfl) ?_
    intro _ s3 _ h3
    rw [hino] at h3
    exact spec_pure h3

theorem moveEntry_at {oldName newName : Name} (h : At g D B s)
    (hp : g.kinds p = some np.kind) (hn : ∀ k, g.kinds newDir = some k → k = nn.kind) :
    Spec (moveEntry oldDir p newDir oldName newName) s fun r s' =>
      match r with
      | .error _ => At g D B s'
      | .ok _ =>
        (∃ n, g newDir = some n) ∧ At (g.move oldDir p newDir oldName newName np nn) D B s' := by
  rw [moveEntry, move]
  by_cases hd : oldDir = newDir
  · rw [if_pos hd, if_pos hd]
    refine (at_kheapAlloc _).bind h ?_
    refine unless_none (fun _ h1 => spec_pure h1) ?_
    intro a s1 h1
    refine h1.setInode (k := rename oldName newName) (fun _ => rfl) ?_
    intro n s2 hn h2
    exact spec_pure ⟨⟨n, hd ▸ hn⟩, h2⟩
  · rw [if_neg hd, if_neg hd]
    refine h.inodeAt ?_
    intro i hi
    have hino : i.ino = np.ino := (kind_eq_iff.mp (kind_eq hp hi)).1
    refine (tmpfsDirAdd_at h newName i.ino).bind ?_
    refine unless_error (fun _ _ h1 => spec_pure h1) ?_
    intro _ s1 h1
    obtain ⟨⟨n, hnew⟩, h1⟩ := h1
    refine tmpfsDirRemove_at h1 oldName ?_
    intro s2 h2
    rw [hino] at h2
    have hn := hn n.kind (kinds_of_some hnew) ▸ kinds_of_some hnew
    have hk : ((g.edit newDir (add ⟨newName, np.ino⟩)).edit oldDir (remove oldName)).kinds =
        g.kinds := by rw [kinds_remove, kinds_add]
    rw [← hk] at hp hn
    refine (moveDotdot_at h2 hp hn).bind ?_
    intro _ s3 h3
    exact spec_pure ⟨⟨n, hnew⟩, h3⟩

theorem renameMove_at (h : At g D B s) (hold : D.get old = some dOld) (hnew : D.get new = some dNew)
    (hp : g.kinds p = some np.kind) (hn : ∀ k, g.kinds newDir = some k → k = nn.kind) :
    Spec (renameMove oldDir old p newDir new) s fun r s' => s'.sbs = B ∧
      match r with
      | .error _ => s'.graph = g
      | .ok _ =>
        (∃ n, g newDir = some n) ∧ s'.graph = g.move oldDir p newDir dOld.name dNew.name np nn := by
  refine h.dentryAt ?_
  intro d hd
  cases hold.symm.trans hd
  refine h.dentryAt ?_
  intro d hd
  cases hnew.symm.trans hd
  refine (moveEntry_at h hp hn).bind ?_
  refine unless_error (fun _ _ h1 => spec_pure ⟨h1.sbs, h1.graph⟩) ?_
  intro _ s1 h1
  apply spec_bind
  apply spec_setDentry
  intro _ _
  apply spec_bind
  apply spec_setDentry
  intro _ _
  exact spec_pure ⟨h1.2.sbs, h1.1, h1.2.graph⟩

/-- What `tmpfs_rename` works on: the source at `p`, and the two directories. -/
structure RenameArgs (s : Vfs) (oldDir old newDir new : Ptr) (dOld dNew : Dentry) (p : Ptr)
    (np no nn : Vertex) (de : DirEntry) : Prop where
  old : s.dentries.get old = some dOld
  new : s.dentries.get new = some dNew
  inode : dOld.inode = some p
  source : s.graph p = some np
  oldDir : s.graph oldDir = some no
  newDir : s.graph newDir = some nn
  listed : tmpfsDirLookup no.entries dOld.name = some de

/-- The target that `tmpfs_rename` replaces: a directory only by a directory, and only an empty
one. -/
structure RenameTarget (s : Vfs) (dNew : Dentry) (p : Ptr) (np nn : Vertex) (q : Ptr)
    (nq : Vertex) : Prop where
  inode : dNew.inode = some q
  target : s.graph q = some nq
  listed : (tmpfsDirLookup nn.entries dNew.name).isSome = true
  dir : nq.isDir = true → np.isDir = true
  empty : nq.isDir = true → q ≠ p → dirEmpty nq.entries = true

/-- The graphs that `tmpfs_rename` can leave. If there is no memory for the new name, the target
has been dropped before. -/
inductive RenameEffect (s : Vfs) (oldDir old newDir new : Ptr) : Graph → Prop
  | same : RenameEffect s oldDir old newDir new s.graph
  | moved {dOld dNew p np no nn de} (h : RenameArgs s oldDir old newDir new dOld dNew p np no nn de)
    (hfree : dNew.inode = none ∨ tmpfsDirLookup nn.entries dNew.name = none) :
    RenameEffect s oldDir old newDir new (s.graph.move oldDir p newDir dOld.name dNew.name np nn)
  | dropped {dOld dNew p np no nn de q nq}
      (h : RenameArgs s oldDir old newDir new dOld dNew p np no nn de)
    (ht : RenameTarget s dNew p np nn q nq) (hne : ¬(oldDir = newDir ∧ dOld.name = dNew.name)) :
    RenameEffect s oldDir old newDir new (s.graph.drop newDir q dNew.name)
  | replaced {dOld dNew p np no nn de q nq}
      (h : RenameArgs s oldDir old newDir new dOld dNew p np no nn de)
    (ht : RenameTarget s dNew p np nn q nq) (hne : ¬(oldDir = newDir ∧ dOld.name = dNew.name)) :
    RenameEffect s oldDir old newDir new
      ((s.graph.drop newDir q dNew.name).move oldDir p newDir dOld.name dNew.name np nn)

theorem targetInode_spec (o : Option Ptr) :
    Spec (targetInode o) s fun target s' => s' = s ∧
      ∀ q, o = some q → ∃ i, s.inodes.get q = some i ∧ target = some i := by
  cases o with
  | none => exact spec_pure ⟨rfl, nofun⟩
  | some q =>
    apply spec_inodeAt
    intro i hi
    refine spec_pure ⟨rfl, ?_⟩
    intro q' hq'
    cases hq'
    exact ⟨i, hi, rfl⟩

theorem renameCheck_spec :
    Spec (renameCheck oldDir p newDir new) s fun r s' => s' = s ∧ (r = .ok () →
      ∃ np dNew, s.graph p = some np ∧ s.dentries.get new = some dNew ∧
        ∀ q, dNew.inode = some q → ∃ nq, s.graph q = some nq ∧
          (nq.isDir = true → np.isDir = true) ∧
            (nq.isDir = true → q ≠ p → dirEmpty nq.entries = true)) := by
  refine (At.self s).inodeAt ?_
  intro i hi
  apply spec_dentryAt
  intro dNew hd
  refine (targetInode_spec dNew.inode).bind ?_
  rintro target s1 ⟨rfl, htarget⟩
  by_cases hisdir : target.any (fun v => sIsdir v.mode && !sIsdir i.mode) = true
  · rw [if_pos hisdir]
    exact spec_pure ⟨rfl, nofun⟩
  rw [if_neg hisdir]
  by_cases hempty : target.any (fun v => sIsdir v.mode && decide (dNew.inode ≠ some p) &&
      !dirEmpty v.dirList) = true
  · rw [if_pos hempty]
    exact spec_pure ⟨rfl, nofun⟩
  rw [if_neg hempty]
  have hfacts : ∀ q, dNew.inode = some q → ∃ nq, s1.graph q = some nq ∧
      (nq.isDir = true → i.vertex.isDir = true) ∧
        (nq.isDir = true → q ≠ p → dirEmpty nq.entries = true) := by
    intro q hq
    obtain ⟨j, hj, rfl⟩ := htarget q hq
    rw [any_some] at hisdir hempty
    refine ⟨j.vertex, Vfs.graph_of_get hj, ?_, ?_⟩
    · intro (hdir : sIsdir j.mode = true)
      rw [hdir, Bool.true_and, Bool.not_eq_true', Bool.not_eq_false] at hisdir
      exact hisdir
    · intro (hdir : sIsdir j.mode = true) hne
      have hdec : decide (dNew.inode ≠ some p) = true := by
        rw [decide_eq_true_eq, hq]
        exact fun h => hne (some.inj h)
      rw [hdir, hdec, Bool.true_and, Bool.true_and, Bool.not_eq_true', Bool.not_eq_false] at hempty
      exact hempty
  split_ifs with hmove
  · apply spec_get
    apply spec_bind
    apply spec_ofOption
    intro b _
    cases b with
    | true => exact spec_pure ⟨rfl, nofun⟩
    | false => exact spec_pure ⟨rfl, fun _ => ⟨i.vertex, dNew, hi, hd, hfacts⟩⟩
  · exact spec_pure ⟨rfl, fun _ => ⟨i.vertex, dNew, hi, hd, hfacts⟩⟩

theorem renameMove_effect {no : Vertex} {de : DirEntry}
    (hold : s.dentries.get old = some dOld) (hnew : s.dentries.get new = some dNew)
    (hp : s.graph p = some np)
    (hargs : ∀ nn, s.graph newDir = some nn → RenameArgs s oldDir old newDir new dOld dNew p np no
      nn de)
    (hfree : ∀ nn, s.graph newDir = some nn →
      dNew.inode = none ∨ tmpfsDirLookup nn.entries dNew.name = none) :
    Spec (renameMove oldDir old p newDir new) s fun _ s' =>
      s'.sbs = s.sbs ∧ RenameEffect s oldDir old newDir new s'.graph := by
  -- a rename that succeeds has found the new directory; otherwise any vertex will do
  obtain ⟨nn, hk⟩ : ∃ nn : Vertex, ∀ n, s.graph newDir = some n → n = nn := by
    cases hn : s.graph newDir with
    | none => exact ⟨np, nofun⟩
    | some nn => exact ⟨nn, fun n h => (some.inj h).symm⟩
  have hkind : ∀ k, s.graph.kinds newDir = some k → k = nn.kind := by
    intro k hkind
    obtain ⟨n, hn, rfl⟩ := kinds_eq_some.mp hkind
    rw [hk n hn]
  refine (renameMove_at (At.self s) hold hnew (kinds_of_some hp) hkind).mono ?_
  rintro r s1 ⟨hs, h1⟩
  refine ⟨hs, ?_⟩
  cases r with
  | error e =>
    have hsame : s1.graph = s.graph := h1
    rw [hsame]
    exact .same
  | ok _ =>
    obtain ⟨⟨n, hn⟩, hgraph⟩ := h1
    obtain rfl := hk n hn
    rw [hgraph]
    exact .moved (hargs n hn) (hfree n hn)

theorem renameReplace_effect {q : Ptr} {no nq : Vertex}
    {de : DirEntry} (hargs : RenameArgs s oldDir old newDir new dOld dNew p np no nn de)
    (ht : RenameTarget s dNew p np nn q nq) (hne : ¬(oldDir = newDir ∧ dOld.name = dNew.name)) :
    Spec (do
      tmpfsDirRemove newDir dNew.name
      setInode q fun i => { i with nlink := decr64 i.nlink }
      renameMove oldDir old p newDir new) s fun _ s' =>
      s'.sbs = s.sbs ∧ RenameEffect s oldDir old newDir new s'.graph := by
  refine tmpfsDirRemove_at (At.self s) dNew.name ?_
  intro s1 h1
  refine h1.setInode (k := countDown) (fun _ => rfl) ?_
  intro _ s2 _ h2
  have hp : (s.graph.drop newDir q dNew.name).kinds p = some np.kind := by
    rw [kinds_drop, kinds_of_some hargs.source]
  have hn : ∀ k, (s.graph.drop newDir q dNew.name).kinds newDir = some k → k = nn.kind := by
    intro k hk
    rw [kinds_drop, kinds_of_some hargs.newDir] at hk
    exact (some.inj hk).symm
  refine (renameMove_at h2 hargs.old hargs.new hp hn).mono ?_
  rintro r s3 ⟨hs, h3⟩
  refine ⟨hs, ?_⟩
  cases r with
  | error e =>
    have hgraph : s3.graph = s.graph.drop newDir q dNew.name := h3
    rw [hgraph]
    exact .dropped hargs ht hne
  | ok _ =>
    have hgraph : s3.graph = (s.graph.drop newDir q dNew.name).move _ _ _ _ _ _ _ := h3.2
    rw [hgraph]
    exact .replaced hargs ht hne

theorem tmpfsRename_graph :
    Spec (tmpfsRename oldDir old newDir new) s fun _ s' =>
      s'.sbs = s.sbs ∧ RenameEffect s oldDir old newDir new s'.graph := by
  apply spec_dentryAt
  intro dOld hold
  cases hinode : dOld.inode with
  | none => exact spec_pure ⟨rfl, .same⟩
  | some p =>
    refine renameCheck_spec.bind ?_
    rintro r s1 ⟨rfl, hcheck⟩
    cases r with
    | error e => exact spec_pure ⟨rfl, .same⟩
    | ok _ =>
      obtain ⟨np, dNew, hp, hnew, htarget⟩ := hcheck rfl
      apply spec_dentryAt
      intro d hd
      cases hold.symm.trans hd
      apply spec_dentryAt
      intro d hd
      cases hnew.symm.trans hd
      refine (At.self s1).inodeAt ?_
      intro i hi
      cases hl : tmpfsDirLookup i.dirList dOld.name with
      | none => exact spec_pure ⟨rfl, .same⟩
      | some de =>
        have hargs : ∀ nn, s1.graph newDir = some nn →
            RenameArgs s1 oldDir old newDir new dOld dNew p np i.vertex nn de :=
          fun nn hnn => ⟨hold, hnew, hinode, hp, hi, hnn, hl⟩
        cases hq : dNew.inode with
        | none => exact renameMove_effect hold hnew hp hargs fun _ _ => .inl hq
        | some q =>
          refine (At.self s1).inodeAt ?_
          intro j hj
          cases hl' : tmpfsDirLookup j.dirList dNew.name with
          | none =>
            refine renameMove_effect hold hnew hp hargs ?_
            intro nn hnn
            cases hnn.symm.trans hj
            exact .inr hl'
          | some de' =>
            obtain ⟨nq, hnq, hdir, hempty⟩ := htarget q hq
            split_ifs with hne
            · exact spec_pure ⟨rfl, .same⟩
            · exact renameReplace_effect (hargs j.vertex hj)
                ⟨hq, hnq, isSome_iff_exists.mpr ⟨de', hl'⟩, hdir, hempty⟩ hne

end ShiziOS.Fs
