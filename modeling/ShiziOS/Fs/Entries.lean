import ShiziOS.Fs.Actions

/-!
# Entries and the inodes they name

An entry of a directory holds an inode number, which is looked up in the super block of the
directory. So every entry should name an inode of that super block. `vfs_link` and `vfs_rename`
take the number of the source for an entry in another directory and never compare the super
blocks of the two: entries stay closed in their file system as long as no call links or moves
from one file system to another.
-/

namespace ShiziOS.Fs

open Exec List Option ShiziOS.Fs.Graph Vertex

variable {env : Env} {s s' : Vfs} {g : Graph} {p : Ptr} {f : Vertex → Vertex}

/-! ## Closed graphs -/

/-- There is an inode with the number in the super block. -/
def Graph.Has (g : Graph) (sb : Ptr) (ino : Nat) : Prop := ∃ q b, g.kinds q = some (ino, sb, b)

/-- Every entry names an inode of the super block of its directory. -/
def Graph.Closed (g : Graph) : Prop := ∀ d nd, g d = some nd → ∀ de ∈ nd.entries, g.Has nd.sb de.ino

variable {n new : Vertex} {ino : Nat} {de : DirEntry} {name : Name}

theorem Graph.has_of_some (h : g p = some n) : g.Has n.sb n.ino :=
  ⟨p, n.isDir, kinds_of_some h⟩

theorem Graph.Has.put {sb : Nat} (h : g.Has sb ino) (hp : g p = none) :
    (g.put p new).Has sb ino := by
  obtain ⟨q, b, hq⟩ := h
  exact ⟨q, b, kinds_put hp hq⟩

section

variable (h : g.Closed)
include h

theorem Graph.Closed.put (hp : g p = none)
    (hnew : ∀ de ∈ new.entries, (g.put p new).Has new.sb de.ino) : (g.put p new).Closed := by
  intro d nd hd de hde
  rcases put_eq_some hd with ⟨-, rfl⟩ | ⟨-, hd⟩
  · exact hnew de hde
  · exact (h d nd hd de hde).put hp

theorem Graph.Closed.edit (hk : ∀ n, (f n).kind = n.kind)
    (he : ∀ n, g p = some n → ∀ de ∈ (f n).entries,
      (∃ de' ∈ n.entries, de'.ino = de.ino) ∨ g.Has n.sb de.ino) : (g.edit p f).Closed := by
  have hhas : ∀ sb ino, g.Has sb ino → (g.edit p f).Has sb ino := by
    intro sb ino hh
    rw [Has, kinds_edit hk]
    exact hh
  intro d nd hd de hde
  rcases edit_eq_some hd with ⟨rfl, n, hn, rfl⟩ | ⟨-, hd⟩
  · have hsb : (f n).sb = n.sb := (kind_eq_iff.mp (hk n)).2.1
    rw [hsb]
    apply hhas
    rcases he n hn de hde with ⟨de', hde', hino⟩ | hh
    · rw [← hino]
      exact h d n hn de' hde'
    · exact hh
  · exact hhas _ _ (h d nd hd de hde)

theorem Graph.Closed.countUp : (g.edit p countUp).Closed :=
  h.edit (fun _ => rfl) fun _ _ de hde => .inl ⟨de, hde, rfl⟩

theorem Graph.Closed.countDown : (g.edit p countDown).Closed :=
  h.edit kind_countDown fun n _ de hde => .inl ⟨de, entries_countDown n ▸ hde, rfl⟩

theorem Graph.Closed.remove (name : Name) : (g.edit p (remove name)).Closed :=
  h.edit (fun _ => rfl) fun _ _ de hde => .inl ⟨de, mem_of_mem_eraseP hde, rfl⟩

theorem Graph.Closed.add (hde : ∀ n, g p = some n →
    g.Has n.sb de.ino) : (g.edit p (add de)).Closed := by
  refine h.edit (fun _ => rfl) ?_
  intro n hn de' hde'
  rcases mem_append.mp hde' with hold | hnew
  · exact .inl ⟨de', hold, rfl⟩
  · rw [mem_singleton.mp hnew]
    exact .inr (hde n hn)

omit h in
theorem mem_replaceEntry {f : DirEntry → DirEntry} {l : List DirEntry}
    (h : de ∈ replaceEntry name f l) : de ∈ l ∨ ∃ e ∈ l, de = f e := by
  induction l with
  | nil => cases h
  | cons e l ih =>
    rw [replaceEntry] at h
    split_ifs at h with hn
    · rcases mem_cons.mp h with rfl | hmem
      · exact .inr ⟨e, mem_cons_self, rfl⟩
      · exact .inl (mem_cons_of_mem _ hmem)
    · rcases mem_cons.mp h with rfl | hmem
      · exact .inl mem_cons_self
      · refine (ih hmem).imp (mem_cons_of_mem _) ?_
        rintro ⟨e', he', rfl⟩
        exact ⟨e', mem_cons_of_mem _ he', rfl⟩

theorem Graph.Closed.rename (name newName : Name) :
    (g.edit p (rename name newName)).Closed := by
  refine h.edit (fun _ => rfl) ?_
  intro _ _ de hde
  rcases mem_replaceEntry hde with hold | ⟨e, he, rfl⟩
  · exact .inl ⟨de, hold, rfl⟩
  · exact .inl ⟨e, he, rfl⟩

theorem Graph.Closed.point (name : Name) (hino : ∀ n, g p = some n → g.Has n.sb ino) :
    (g.edit p (point name ino)).Closed := by
  refine h.edit (fun _ => rfl) ?_
  intro n hn de hde
  rcases mem_replaceEntry hde with hold | ⟨-, -, rfl⟩
  · exact .inl ⟨de, hold, rfl⟩
  · exact .inr (hino n hn)

/-! ## Renaming -/

theorem Graph.Closed.drop (newDir q : Ptr) (newName : Name) : (g.drop newDir q newName).Closed :=
  (h.remove newName).countDown

omit h in
theorem Graph.sb_eq {m : Vertex} (hm : g p = some m) (hk : g.kinds p = some n.kind) : m.sb = n.sb :=
  (kind_eq_iff.mp (kind_eq hk hm)).2.1

theorem Graph.Closed.move {oldDir newDir : Ptr} {oldName newName : Name} {np nn : Vertex}
    (hp : g.kinds p = some np.kind) (hn : g.kinds newDir = some nn.kind) (hsb : np.sb = nn.sb) :
    (g.move oldDir p newDir oldName newName np nn).Closed := by
  have hnp : g.Has nn.sb np.ino := ⟨p, np.isDir, by rw [hp, ← hsb]; rfl⟩
  have hnn : g.Has np.sb nn.ino := ⟨newDir, nn.isDir, by rw [hn, hsb]; rfl⟩
  rw [Graph.move]
  by_cases hd : oldDir = newDir
  · rw [if_pos hd]
    exact h.rename oldName newName
  · rw [if_neg hd]
    have hmoved : ((g.edit newDir (Vertex.add ⟨newName, np.ino⟩)).edit oldDir
        (Vertex.remove oldName)).Closed := by
      refine (h.add ?_).remove oldName
      intro n hn'
      rw [sb_eq hn' hn]
      exact hnp
    split_ifs
    · refine Closed.countUp (Closed.countDown (hmoved.point _ ?_))
      intro n hn'
      rw [sb_eq hn' (by rw [kinds_remove, kinds_add, hp]), Has, kinds_remove, kinds_add]
      exact hnn
    · exact hmoved

end

/-! ## Operations within one file system -/

/-- The super block of an inode. -/
def Vfs.sbOf (s : Vfs) (p : Ptr) : Option Ptr := (s.inodes.get p).map Inode.sb

/-- The super block of the inode of a dentry. -/
def Vfs.sbOfDentry (s : Vfs) (d : Ptr) : Option Ptr :=
  ((s.dentries.get d).bind Dentry.inode).bind s.sbOf

/-- A link or a rename leads to a directory of the file system of its source. -/
def DirOp.WithinSb : DirOp → Vfs → Prop
  | .link old dir _, s => s.sbOfDentry old = s.sbOf dir
  | .rename _ old newDir _, s => s.sbOfDentry old = s.sbOf newDir
  | _, _ => True

theorem Vfs.sb_eq {old dir : Ptr} {d : Dentry} {m : Vertex} (h : s.sbOfDentry old = s.sbOf dir)
    (hd : s.dentries.get old = some d) (hp : d.inode = some p) (hn : s.graph p = some n)
    (hm : s.graph dir = some m) : n.sb = m.sb := by
  obtain ⟨i, hi, rfl⟩ := map_eq_some_iff.mp hn
  obtain ⟨j, hj, rfl⟩ := map_eq_some_iff.mp hm
  rw [sbOfDentry, hd, bind_some, hp, bind_some, sbOf, sbOf, hi, hj] at h
  exact some.inj h

theorem Entered.closed {dir : Ptr} {nd : Vertex} {k : Vertex → Vertex}
    (h : Entered s dir nd f p new s') (hf : ∀ m, f m = k (m.add ⟨name, new.ino⟩))
    (hs : s.graph.Closed) (hk : ∀ g p, Graph.Closed g → (g.edit p k).Closed)
    (hnew : ∀ de ∈ new.entries, de.ino = new.ino ∨ de.ino = nd.ino) : s'.graph.Closed := by
  have hhas : (s.graph.put p new).Has new.sb new.ino := has_of_some put_self
  have hput : (s.graph.put p new).Closed := by
    refine hs.put h.fresh ?_
    intro de hde
    rcases hnew de hde with hino | hino
    · rw [hino]
      exact hhas
    · rw [hino, h.sb]
      exact (has_of_some h.parent).put h.fresh
  rw [h.graph, funext hf, ← edit_edit]
  refine hk _ _ (hput.add ?_)
  intro n hn
  rw [put_of_ne h.ne, h.parent] at hn
  cases hn
  rw [← h.sb]
  exact hhas

theorem RenameEffect.closed {oldDir old newDir new : Ptr}
    (h : RenameEffect s oldDir old newDir new g)
    (hsb : DirOp.WithinSb (.rename oldDir old newDir new) s)
    (hs : s.graph.Closed) : g.Closed := by
  cases h with
  | same => exact hs
  | moved h hfree =>
    exact hs.move (kinds_of_some h.source) (kinds_of_some h.newDir)
      (Vfs.sb_eq hsb h.old h.inode h.source h.newDir)
  | dropped h ht hne => exact hs.drop _ _ _
  | replaced h ht hne =>
    refine (hs.drop _ _ _).move ?_ ?_ (Vfs.sb_eq hsb h.old h.inode h.source h.newDir)
    · rw [kinds_drop, kinds_of_some h.source]
    · rw [kinds_drop, kinds_of_some h.newDir]

theorem DirOp.run_closed {op : DirOp} {r : Except Errno Unit} (hrun : op.run env s = some (r, s'))
    (hsb : op.WithinSb s) (hs : s.graph.Closed) : s'.graph.Closed := by
  have hid : ∀ g p, Graph.Closed g → (g.edit p id).Closed := by
    intro g p hg
    exact hg.edit (fun _ => rfl) fun _ _ de hde => .inl ⟨de, hde, rfl⟩
  have hlisted : ∀ dir dentry, Listed s dir dentry r s' → s'.graph.Closed := by
    intro dir dentry h
    cases r with
    | error e =>
      rw [h.graph]
      exact hs
    | ok _ =>
      obtain ⟨nd, d, p, n, -, -, he⟩ := h
      exact he.closed (k := id) (fun _ => rfl) hs hid nofun
  cases op with
  | create dir dentry mode => exact hlisted dir dentry (tmpfsCreate_graph mode r s' hrun)
  | symlink dir dentry target => exact hlisted dir dentry (tmpfsSymlink_graph target r s' hrun)
  | mknod dir dentry mode dev =>
    have h := tmpfsMknod_graph mode dev r s' hrun
    cases r with
    | error e =>
      rw [h.graph]
      exact hs
    | ok _ =>
      obtain ⟨nd, d, p, n, -, he⟩ := h
      exact he.closed (k := id) (fun _ => rfl) hs hid nofun
  | mkdir dir dentry mode =>
    have h := tmpfsMkdir_graph mode r s' hrun
    cases r with
    | error e =>
      rw [h.graph]
      exact hs
    | ok _ =>
      obtain ⟨nd, d, p, n, -, -, he⟩ := h
      refine he.closed (k := Vertex.countUp) (fun _ => rfl) hs (fun _ _ => Graph.Closed.countUp) ?_
      intro de hde
      rcases mem_cons.mp hde with rfl | hde
      · exact .inl rfl
      · rw [mem_singleton.mp hde]
        exact .inr rfl
  | link old dir new =>
    have h := tmpfsLink_graph r s' hrun
    cases r with
    | error e =>
      rw [h.graph]
      exact hs
    | ok _ =>
      obtain ⟨-, d, p, np, d', hd, hp, hnp, -, hgraph⟩ := h
      rw [hgraph]
      refine (hs.add ?_).countUp
      intro n hn
      rw [← Vfs.sb_eq hsb hd hp hnp hn]
      exact has_of_some hnp
  | unlink dir dentry =>
    have h := tmpfsUnlink_graph r s' hrun
    cases r with
    | error e =>
      rw [h.graph]
      exact hs
    | ok _ =>
      obtain ⟨-, nd, d, de, q, -, -, -, -, -, hgraph⟩ := h
      rw [hgraph]
      exact (hs.remove _).countDown
  | rmdir dir dentry =>
    have h := tmpfsRmdir_graph r s' hrun
    cases r with
    | error e =>
      rw [h.graph]
      exact hs
    | ok _ =>
      obtain ⟨-, nd, d, de, child, nc, -, -, -, -, -, -, hgraph⟩ := h
      rw [hgraph]
      exact (hs.remove _).countDown.countDown
  | rename oldDir old newDir new => exact (tmpfsRename_graph r s' hrun).2.closed hsb hs

/-! ## Runs -/

theorem MountEffect.closed (h : MountEffect s s') (hs : s.graph.Closed) : s'.graph.Closed := by
  rcases h.graph with hgraph | ⟨p, n, sb, -, hp, -, hgraph⟩
  · rw [hgraph]
    exact hs
  · rw [hgraph]
    refine hs.put hp ?_
    intro de hde
    have hroot : (s.graph.put p (newDir n sb n)).Has sb n := has_of_some put_self
    rcases mem_cons.mp hde with rfl | hde
    · exact hroot
    · rw [mem_singleton.mp hde]
      exact hroot

/-- In every run in which no link and no rename leads from one file system to another, every
entry of a directory names an inode of the file system of that directory. -/
theorem entries_live {heap : Oracle} {actions : List (Env × Action)}
    (hC : Within DirOp.WithinSb actions (Vfs.empty heap))
    (hrun : runActions actions (Vfs.empty heap) = some ((), s)) :
    ∀ p i, s.inodes.get p = some i → ∀ de ∈ i.dirList,
      ∃ q j, s.inodes.get q = some j ∧ j.sb = i.sb ∧ j.ino = de.ino := by
  have hempty : (Vfs.empty heap).graph.Closed := by
    intro d nd hd
    cases hd
  have hclosed : s.graph.Closed := by
    refine runActions_induct (I := fun s => s.graph.Closed) ?_ ?_ ?_ hC hempty () s hrun
    · intro s s' h hs
      rw [h.graph]
      exact hs
    · intro env op s r s' h hsb hs
      exact op.run_closed h hsb hs
    · intro s s' h hs
      exact h.closed hs
  intro p i hi de hde
  obtain ⟨q, b, hq⟩ := hclosed p i.vertex (Vfs.graph_of_get hi) de hde
  obtain ⟨n, hn, hk⟩ := kinds_eq_some.mp hq
  obtain ⟨j, hj, rfl⟩ := map_eq_some_iff.mp hn
  obtain ⟨hino, hk⟩ := Prod.mk.inj hk
  exact ⟨q, j, hj, (Prod.mk.inj hk).1, hino⟩

instance (op : DirOp) (s : Vfs) : Decidable (op.WithinSb s) :=
  match op with
  | .link old dir _ => inferInstanceAs (Decidable (s.sbOfDentry old = s.sbOf dir))
  | .rename _ old newDir _ => inferInstanceAs (Decidable (s.sbOfDentry old = s.sbOf newDir))
  | .create .. | .symlink .. | .mknod .. | .mkdir .. | .unlink .. | .rmdir .. => isTrue trivial

/-- A tmpfs on the root, a second one on `/a`, and the file `/f`. -/
def twoMounts : List (Env × Action) :=
  [(Env.start 0, .mountRoot (some 1)), (Env.start 0, .call (.mkdir ['/', 'a'] 0o755 ⟨0, 0⟩)),
    (Env.start 0, .mount ['/', 'a'] 0 (some 2) 0 ⟨0, 0⟩),
    (Env.start 0, .call (.open ['/', 'f'] oCreat 0o644 ⟨0, 0⟩))]

/-- A link to the file in its own file system. -/
def linkWithin : List (Env × Action) :=
  twoMounts ++ [(Env.start 0, .call (.link ['/', 'f'] ['/', 'g'] ⟨0, 0⟩))]

/-- A link to the file in the other file system. -/
def linkAcross : List (Env × Action) :=
  twoMounts ++ [(Env.start 0, .call (.link ['/', 'f'] ['/', 'a', '/', 'g'] ⟨0, 0⟩))]

theorem entries_live_linkWithin :
    ∃ s, runActions linkWithin (Vfs.empty Vfs.start.heap) = some ((), s) ∧
      ∀ p i, s.inodes.get p = some i → ∀ de ∈ i.dirList,
        ∃ q j, s.inodes.get q = some j ∧ j.sb = i.sb ∧ j.ino = de.ino := by
  have hsome : (runActions linkWithin (Vfs.empty Vfs.start.heap)).isSome = true := by decide +kernel
  obtain ⟨⟨_, s⟩, hs⟩ := isSome_iff_exists.mp hsome
  have hcheck : checkWithin (fun op s => decide (op.WithinSb s)) linkWithin
      (Vfs.empty Vfs.start.heap) = true := by
    decide +kernel
  exact ⟨s, hs, entries_live (within_of_check (fun _ _ => of_decide_eq_true) hcheck) hs⟩

/-- `vfs_link` from one mount to another succeeds, and the new entry names no inode: in the second
file system there is only its root. -/
theorem link_across_mounts :
    ∃ s i, runActions linkAcross (Vfs.empty Vfs.start.heap) = some ((), s) ∧ s.inodes.get 2 =
      some i ∧
      (⟨['g'], 4⟩ : DirEntry) ∈ i.dirList ∧
      ¬∃ q j, s.inodes.get q = some j ∧ j.sb = i.sb ∧ j.ino = 4 := by
  have hrun : (runActions linkAcross (Vfs.empty Vfs.start.heap)).map (fun r =>
      (r.2.inodes.next, (r.2.inodes.get 2).map fun i => decide ((⟨['g'], 4⟩ : DirEntry) ∈
        i.dirList) &&
        (List.range 4).all fun q => !(r.2.inodes.get q).any fun j => j.sb == i.sb && j.ino == 4)) =
      some (4, some true) := by decide +kernel
  obtain ⟨⟨_, s⟩, hs, hfacts⟩ := map_eq_some_iff.mp hrun
  obtain ⟨hnext, hi⟩ := Prod.mk.inj hfacts
  obtain ⟨i, hi, hb⟩ := map_eq_some_iff.mp hi
  obtain ⟨hmem, hall⟩ := Bool.and_eq_true_iff.mp hb
  refine ⟨s, i, hs, hi, of_decide_eq_true hmem, ?_⟩
  rintro ⟨q, j, hj, hsb, hino⟩
  have hq : q < 4 := hnext ▸ Store.lt_next hj
  have hnone := all_eq_true.mp hall q (mem_range.mpr hq)
  simp only [hj, any_some, hsb, hino, beq_self_eq_true, Bool.and_self, Bool.not_true] at hnone
  cases hnone

end ShiziOS.Fs
