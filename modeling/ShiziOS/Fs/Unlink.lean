import ShiziOS.Fs.Actions
import ShiziOS.Fs.CreateExcl
import ShiziOS.Fs.LookupTree

/-!
# Removing a name

`vfs_unlink` takes a dentry for the name from the cache. A name that is not there gets a new
dentry, which is not filled from the directory: `tmpfs_unlink` then removes the entry and follows
the missing inode of the dentry. So exactly the names whose dentry is in the cache with its inode
can be removed.
-/

namespace ShiziOS.Fs

open Exec Option

variable {env : Env} {s s1 s' : Vfs} {path : List Char} {pwd parent : Path} {name : Name}
    {dir : Ptr} {i : Inode}

/-- A call of `vfs_unlink` reaches a directory that lists the name, and that the task may write
to. There is memory for the copy of the name. -/
structure ReachesListed (env : Env) (path : List Char) (pwd : Path) (s s₁ : Vfs) (parent : Path)
    (name : Name) (dir : Ptr) (i : Inode) : Prop where
  reached : vfsPathParent env path pwd s = some (.ok (parent, name), s₁)
  mount : ∃ m, s₁.mounts.get parent.mnt = some m
  leads : s₁.LeadsTo parent.dentry dir
  inode : s₁.inodes.get dir = some i
  ops : i.hasOps = true
  permission : vfsInodePermission env i (mayWrite ||| mayExec) = .ok ()
  listed : (tmpfsDirLookup i.dirList name).isSome = true
  memory : s₁.heap 0 ((name.length + 1 + pageSize - 1) / pageSize) ≠ none
  short : name.length + 1 ≤ kheapMax

def CachedInode (env : Env) (s : Vfs) (parent : Path) (name : Name) : Prop :=
  ∃ c v q j, s.cached env parent.dentry name = some (some c) ∧ s.dentries.get c = some v ∧
    v.inode = some q ∧ s.inodes.get q = some j

/-- The entry that the directory lists under the name is gone, and no other. -/
def Removes (s s' : Vfs) (dir : Ptr) (name : Name) : Prop :=
  ∀ q, (s'.inodes.get q).map Inode.dirList = (s.inodes.get q).map fun j =>
    if q = dir then j.dirList.eraseP fun de => de.name == name else j.dirList

/-- The tests of `ReachesListed` and `CachedInode`, behind the lookup of the parent. -/
def Vfs.listsCached (env : Env) (s₁ : Vfs) (parent : Path) (name : Name) (dir c q : Ptr) : Bool :=
  (s₁.mounts.get parent.mnt).isSome && (s₁.dentries.get parent.dentry).any (·.inode == some dir) &&
    (s₁.inodes.get dir).any (fun i => i.hasOps && (tmpfsDirLookup i.dirList name).isSome &&
      (vfsInodePermission env i (mayWrite ||| mayExec)).isOk) &&
    (s₁.heap 0 ((name.length + 1 + pageSize - 1) / pageSize)).isSome &&
    decide (name.length + 1 ≤ kheapMax) && s₁.cached env parent.dentry name == some (some c) &&
    (s₁.dentries.get c).any (·.inode == some q) && (s₁.inodes.get q).isSome

theorem Vfs.listsCached_spec {c q : Ptr} (h : s1.listsCached env parent name dir c q = true)
    (hreached : vfsPathParent env path pwd s = some (.ok (parent, name), s1)) :
    (∃ i, ReachesListed env path pwd s s1 parent name dir i) ∧ CachedInode env s1 parent name := by
  simp only [listsCached, Bool.and_eq_true, isSome_iff_exists, Option.any_eq_true, beq_iff_eq,
    decide_eq_true_eq] at h
  obtain ⟨⟨⟨⟨⟨⟨⟨hm, v, hv, hdir⟩, i, hi, ⟨hops, hl⟩, hok⟩, a, ha⟩, hshort⟩, hc⟩,
    w, hw, hq⟩, j, hj⟩ := h
  have hpermission : vfsInodePermission env i (mayWrite ||| mayExec) = .ok () := by
    cases hp : vfsInodePermission env i (mayWrite ||| mayExec) with
    | ok => rfl
    | error => rw [hp] at hok; cases hok
  exact ⟨⟨i, hreached, hm, ⟨v, hv, hdir⟩, hi, hops, hpermission, isSome_iff_exists.mpr hl,
    by rw [ha]; simp, hshort⟩, c, w, q, j, hc, hw, hq, hj⟩

theorem removes_of_graph {q : Ptr}
    (h : s'.graph = (s.graph.edit dir (Vertex.remove name)).edit q Vertex.countDown) :
    Removes s s' dir name := by
  have hentries : ∀ s : Vfs, ∀ r, (s.inodes.get r).map Inode.dirList =
      (s.graph r).map Vertex.entries := by
    intro s r
    rw [Vfs.graph, map_map]
    rfl
  intro r
  rw [hentries, h]
  have hdown : ∀ g : Graph, ((g.edit q Vertex.countDown) r).map Vertex.entries =
      (g r).map Vertex.entries := by
    intro g
    by_cases hr : r = q
    · subst hr
      rw [Graph.edit, Function.update_self]
      cases g r with
      | none => rfl
      | some n => rw [map_some, map_some, map_some, Vertex.entries_countDown]
    · rw [Graph.edit_of_ne hr]
  rw [hdown]
  by_cases hr : r = dir
  · subst hr
    rw [Graph.edit, Function.update_self, Vfs.graph, map_map, map_map]
    congr 1
    funext j
    rw [if_pos rfl]
    rfl
  · rw [Graph.edit_of_ne hr, Vfs.graph, map_map]
    congr 1
    funext j
    rw [if_neg hr]
    rfl

theorem ReachesListed.vfsUnlink_spec (h : ReachesListed env path pwd s s1 parent name dir i) :
    Spec (vfsUnlink env path pwd) s fun r s' =>
      r = .ok () → CachedInode env s1 parent name ∧ Removes s s' dir name := by
  have hs1 : Still s s1 := still_quiet (keeps_vfsPathParent env path pwd) s _ _ h.reached
  apply spec_bind
  intro r s₁' hr
  obtain ⟨rfl, rfl⟩ := Prod.mk.inj (some.inj (h.reached.symm.trans hr))
  refine h.leads.dentryInode ?_
  apply spec_inodeAt
  intro i' hi'
  cases h.inode.symm.trans hi'
  simp only [h.permission]
  apply spec_bind
  apply spec_bind
  apply spec_kheapAlloc
  intro a heap
  cases a with
  | none => exact spec_pure (spec_bind fun _ _ _ => spec_pure fun hr => by cases hr)
  | some a =>
    apply spec_bind
    intro r s3 hr
    obtain ⟨hq, hchild⟩ := vfsDalloc_spec _ _ _ _ hr
    have hnegative := vfsDalloc_negative _ _ _ _ hr
    cases r with
    | none => exact spec_pure (spec_bind fun _ _ _ => spec_pure fun hr => by cases hr)
    | some c =>
      have hleads : s3.LeadsTo parent.dentry dir := DentriesKept.leadsTo hq.dentries h.leads
      refine hleads.dentryInode ?_
      apply spec_bind
      apply spec_inodeAt
      intro i3 _
      split_ifs
      · apply spec_pure
        apply spec_bind
        intro r s4 hr
        have hunlink := tmpfsUnlink_graph r s4 hr
        refine (still_setDentry (p := c) _ s4).bind ?_
        intro _ s5 h5
        apply spec_pure
        refine (still_quiet (keeps_vfsPathPut parent) s5).bind ?_
        intro _ s6 h6
        apply spec_pure
        rintro rfl
        obtain ⟨-, nd, d, de, q, -, hd, -, hdq, ⟨nq, hnq⟩, hgraph⟩ := hunlink
        obtain ⟨⟨d', hd', -, hname⟩, -⟩ := hchild c rfl
        cases hd.symm.trans hd'
        have hs3 : s3.graph = s.graph := by rw [hq.still.graph, ← hs1.graph]; rfl
        refine ⟨?_, ?_⟩
        · rcases hnegative c rfl with hcached | ⟨d', hd', hnone⟩
          · obtain ⟨v, hv, -, -⟩ := Vfs.cached_found hcached
            obtain ⟨v', hv', hinode, -⟩ := hq.dentry hv
            cases hd.symm.trans hv'
            rw [hs3, ← hs1.graph] at hnq
            obtain ⟨j, hj, -⟩ := map_eq_some_iff.mp hnq
            exact ⟨c, v, q, j, hcached, hv, hinode.symm.trans hdq, hj⟩
          · cases hd.symm.trans hd'
            rw [hnone] at hdq
            cases hdq
        · refine removes_of_graph (q := q) ?_
          rw [h6.graph, h5.graph, hgraph, hs3, hname]
      · exact spec_stuck

theorem total_vfsDalloc_cached {c : Ptr} {Q : Option Ptr → Vfs → Prop} {parent : Ptr}
    (hc : s.cached env parent name = some (some c))
    (hQ : Q (some c) { s with dentries := s.dentries.modify c fun v => { v with count :=
  v.count + 1 } }) :
    Total (vfsDalloc env parent name) s Q :=
  total_bind (total_vfsDcacheFind hc (total_pure hQ))

theorem tmpfsUnlink_total {c q : Ptr} {v : Dentry} {j : Inode} {Q : Except Errno Unit → Vfs → Prop}
    (hv : s.dentries.get c = some v) (hi : s.inodes.get dir = some i)
    (hl : (tmpfsDirLookup i.dirList v.name).isSome = true) (hq : v.inode = some q)
    (hj : s.inodes.get q = some j)
    (hQ : ∀ inodes, Q (.ok ()) { s with inodes := inodes, dentries := s.dentries.modify c fun d =>
      { d with inode := none } }) : Total (tmpfsUnlink dir c) s Q := by
  obtain ⟨de, hde⟩ := isSome_iff_exists.mp hl
  apply total_dentryAt hv
  refine total_inodeAt hi ?_
  rw [hde]
  apply total_bind
  refine total_setInode hi ?_
  refine total_dentryInode hv hq ?_
  apply total_bind
  refine total_setInode (Store.get_modify_of_some _ _ hj) ?_
  apply total_bind
  exact total_setDentry hv (total_pure (hQ _))

theorem total_pathPut {Q : Unit → Vfs → Prop} {p : Path} {d : Dentry} {m : Mount}
    (hd : s.dentries.get p.dentry = some d) (hm : s.mounts.get p.mnt = some m)
    (hQ : ∀ s', Q () s') : Total (vfsPathPut p) s Q := by
  apply total_bind
  refine total_setDentry hd ?_
  refine total_mountAt hm ?_
  split_ifs
  · exact total_modify (hQ _)
  · exact total_setMount hm (hQ _)

theorem ReachesListed.vfsUnlink_total (h : ReachesListed env path pwd s s1 parent name dir i)
    (hc : CachedInode env s1 parent name) : Total (vfsUnlink env path pwd) s fun r _ =>
      r = .ok () := by
  obtain ⟨c, v, q, j, hcached, hv, hvq, hj⟩ := hc
  obtain ⟨v', hv', -, hname⟩ := Vfs.cached_found hcached
  cases hv.symm.trans hv'
  obtain ⟨m, hm⟩ := h.mount
  obtain ⟨w, hw, hwdir⟩ := h.leads
  apply total_bind
  refine ⟨_, _, h.reached, ?_⟩
  refine total_dentryInode hw hwdir ?_
  refine total_inodeAt h.inode ?_
  simp only [h.permission]
  apply total_bind
  apply total_bind
  apply total_kheapAlloc h.memory (Nat.succ_pos _) h.short
  intro a
  apply total_bind
  apply total_vfsDalloc_cached (s := { s1 with heap := fun k => s1.heap (k + 1) }) hcached
  -- the dentries have changed in one counter
  have hw1 := Store.get_modify_of_some (fun v : Dentry => { v with count := v.count + 1 }) c hw
  have hv1 := Store.get_modify_of_some (fun v : Dentry => { v with count := v.count + 1 }) c hv
  refine total_dentryInode (i := dir) hw1 ?_ ?_
  · split_ifs
    · exact hwdir
    · exact hwdir
  apply total_bind
  refine total_inodeAt h.inode ?_
  rw [if_pos h.ops]
  apply total_pure
  apply total_bind
  rw [if_pos rfl] at hv1
  refine tmpfsUnlink_total hv1 h.inode (hname ▸ h.listed) hvq hj ?_
  intro inodes
  apply total_bind
  refine total_setDentry (Store.get_modify_of_some _ _ hv1) ?_
  apply total_pure
  apply total_bind
  exact total_pathPut (Store.get_modify_of_some _ _ (Store.get_modify_of_some _ _ hw1)) hm
    fun s' => total_pure rfl

/-- A listed name is removed, and no other entry with it, exactly when the cache has a dentry for
it that has an inode. -/
theorem ReachesListed.unlink_iff (h : ReachesListed env path pwd s s1 parent name dir i) :
    (∃ s', vfsUnlink env path pwd s = some (.ok (), s') ∧ Removes s s' dir name) ↔
      CachedInode env s1 parent name := by
  refine ⟨?_, ?_⟩
  · rintro ⟨s', hrun, -⟩
    exact (h.vfsUnlink_spec _ _ hrun rfl).1
  · intro hc
    obtain ⟨r, s', hrun, rfl⟩ := h.vfsUnlink_total hc
    exact ⟨s', hrun, (h.vfsUnlink_spec _ _ hrun rfl).2⟩

end ShiziOS.Fs
