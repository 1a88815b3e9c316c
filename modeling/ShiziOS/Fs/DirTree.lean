import ShiziOS.Fs.Proper
import ShiziOS.Lib.Forest

/-!
# The tree of the directories

Every directory that was not removed hangs in the tree of its file system: it has one name, `..`
names the directory that lists it, and a path leads to it from the root. Edits keep the tree as
long as directories are made in and moved to directories of the tree, and none is moved beneath
itself.
-/

namespace ShiziOS.Fs

open Exec Relation List Option Function ShiziOS.Fs.Graph Vertex DirEntry

variable {env : Env} {s s' : Vfs} {g g' : Graph} {d d' p q x y : Ptr} {n nd nd' np nq : Vertex}
  {name newName : Name} {f : Vertex → Vertex} {op : DirOp} {R : Ptr → Prop}

/-! ## Edges -/

namespace Graph

/-- The vertex lists the directory, under a name other than `.` and `..`. -/
def Edge (g : Graph) (d p : Ptr) : Prop :=
  ∃ nd np, g d = some nd ∧ g p = some np ∧ np.isDir = true ∧ np.sb = nd.sb ∧
    0 < nd.entries.countP (plainly np.ino)

/-- A directory that is its own parent. -/
def IsRoot (g : Graph) (p : Ptr) : Prop :=
  ∃ n, g p = some n ∧ n.isDir = true ∧ g.child dotdotName p = some n.ino

/-- A path leads to the vertex from a root. -/
def Rooted (g : Graph) (p : Ptr) : Prop := Forest.Rooted g.Edge g.IsRoot p

/-- The vertex is a root, or is listed. -/
def Hangs (g : Graph) (p : Ptr) : Prop := g.IsRoot p ∨ ∃ d, g.Edge d p

end Graph

theorem Sound.countP_le_namesOf (h : Sound g) (hd : g d = some nd) (hsb : np.sb = nd.sb) :
    nd.entries.countP (plainly np.ino) ≤ g.namesOf np := by
  have hle := PartialMap.le_weight (w := hits np.sb (plainly np.ino)) h.finite d
  rw [hd, elim_some, hits_of_sb hsb.symm] at hle
  exact hle

theorem Sound.edge_unique (h : Sound g) (hx : g.Edge x p) (hy : g.Edge y p) : x = y := by
  obtain ⟨nx, np, hnx, hp, hdir, hsb, hpos⟩ := hx
  obtain ⟨ny, np', hny, hp', -, hsb', hpos'⟩ := hy
  cases hp.symm.trans hp'
  by_contra hne
  have hle := PartialMap.add_le_weight (w := hits np.sb (plainly np.ino)) h.finite hne
  rw [hnx, hny, elim_some, elim_some, hits_of_sb hsb.symm, hits_of_sb hsb'.symm] at hle
  have honce : g.namesOf np ≤ 1 := h.names.once hp hdir
  rw [namesOf, Graph.count] at honce
  omega

theorem Sound.not_edge_root (h : Sound g) (hp : g.IsRoot p) : ¬g.Edge d p := by
  rintro ⟨nd, np, hd, hp', -, hsb, hpos⟩
  obtain ⟨n, hn, hdir, hself⟩ := hp
  cases hp'.symm.trans hn
  have hle := h.countP_le_namesOf hd hsb
  have hzero := h.names.root hn hdir hself
  omega

theorem Graph.Lists.countP_eq_one (h : g.Lists d nd name q nq) (hs : Sound g)
    (hdir : nq.isDir = true) : nd.entries.countP (plainly nq.ino) = 1 := by
  obtain ⟨de, hl, hino⟩ := h.lookup
  have hpos : 0 < nd.entries.countP (plainly nq.ino) := by
    refine countP_pos_iff.mpr ⟨de, mem_of_find?_eq_some hl, ?_⟩
    rw [plainly, lookup_name hl, h.isPlain, hino, beq_self_eq_true]
    rfl
  have hle := (hs.countP_le_namesOf h.dir h.sb).trans (hs.names.once h.inode hdir)
  omega

theorem Graph.Lists.edge (h : g.Lists d nd name q nq) (hs : Sound g) (hdir : nq.isDir = true) :
    g.Edge d q := by
  refine ⟨nd, nq, h.dir, h.inode, hdir, h.sb, ?_⟩
  rw [h.countP_eq_one hs hdir]
  exact Nat.one_pos

/-! ### How edges change -/

theorem Graph.edge_iff_kinds : g.Edge x y ↔ ∃ nx ino, g x = some nx ∧
    g.kinds y = some (ino, nx.sb, true) ∧ 0 < nx.entries.countP (plainly ino) := by
  constructor
  · rintro ⟨nx, ny, hx, hy, hdir, hsb, hpos⟩
    exact ⟨nx, ny.ino, hx, by rw [kinds_of_some hy, kind, hdir, hsb], hpos⟩
  · rintro ⟨nx, ino, hx, hy, hpos⟩
    obtain ⟨ny, hny, hk⟩ := kinds_eq_some.mp hy
    rw [kind, Prod.mk.injEq, Prod.mk.injEq] at hk
    obtain ⟨rfl, hsb, hdir⟩ := hk
    exact ⟨nx, ny, hx, hny, hdir, hsb, hpos⟩

theorem Graph.edge_edit (hk : ∀ n, (f n).kind = n.kind) :
    (g.edit d f).Edge x y ↔ ∃ nx ino, g x = some nx ∧ g.kinds y = some (ino, nx.sb, true) ∧
      0 < (if x = d then f nx else nx).entries.countP (plainly ino) := by
  have hsb := fun n => (kind_eq_iff.mp (hk n)).2.1
  rw [edge_iff_kinds, kinds_edit hk]
  by_cases hxd : x = d
  · subst hxd
    simp only [edit, update_self, map_eq_some_iff, if_true]
    constructor
    · rintro ⟨_, ino, ⟨n, hn, rfl⟩, hy, hpos⟩
      exact ⟨n, ino, hn, hsb n ▸ hy, hpos⟩
    · rintro ⟨n, ino, hn, hy, hpos⟩
      exact ⟨f n, ino, ⟨n, hn, rfl⟩, (hsb n).symm ▸ hy, hpos⟩
  · simp only [edit_of_ne hxd, if_neg hxd]

theorem Graph.edge_edit_same (hk : ∀ n, (f n).kind = n.kind)
    (hc : ∀ n ino, g d = some n →
      (f n).entries.countP (plainly ino) = n.entries.countP (plainly ino)) :
    (g.edit d f).Edge x y ↔ g.Edge x y := by
  rw [edge_edit hk, edge_iff_kinds]
  refine exists_congr fun nx => exists_congr fun ino => and_congr_right fun hx => ?_
  by_cases hxd : x = d
  · subst hxd
    rw [if_pos rfl, hc nx ino hx]
  · rw [if_neg hxd]

theorem Graph.edge_countUp : (g.edit d countUp).Edge x y ↔ g.Edge x y :=
  edge_edit_same (fun _ => rfl) fun _ _ _ => rfl

theorem Graph.edge_countDown : (g.edit d countDown).Edge x y ↔ g.Edge x y := by
  refine edge_edit_same kind_countDown ?_
  intro n ino _
  rw [entries_countDown]

theorem Graph.Lists.edge_rename (h : g.Lists d nd name p np) (hnew : plain newName = true) :
    (g.edit d (rename name newName)).Edge x y ↔ g.Edge x y := by
  refine edge_edit_same (fun _ => rfl) ?_
  intro n ino hn
  cases h.dir.symm.trans hn
  obtain ⟨de, hl, -⟩ := h.lookup
  have hc := countP_replaceEntry (P := plainly ino) (fun de => ⟨newName, de.ino⟩) hl
  have hsame : plainly ino ⟨newName, de.ino⟩ = plainly ino de := by
    rw [plainly, plainly, lookup_name hl, h.isPlain, hnew]
  rw [hsame] at hc
  exact Nat.add_right_cancel hc

theorem Graph.edge_point (k : Nat) : (g.edit p (point dotdotName k)).Edge x y ↔
    g.Edge x y := by
  refine edge_edit_same (fun _ => rfl) ?_
  intro n ino _
  change (setEntryIno dotdotName k n.entries).countP _ = _
  cases hl : tmpfsDirLookup n.entries dotdotName with
  | none => rw [setEntryIno_of_none hl]
  | some de =>
    have hc := countP_replaceEntry (P := plainly ino) (fun _ => ⟨dotdotName, k⟩) hl
    have hde : plainly ino de = false := by
      rw [plainly, lookup_name hl]
      rfl
    have hk : plainly ino ⟨dotdotName, k⟩ = false := rfl
    rw [hde, hk] at hc
    exact hc

theorem Graph.Distinct.edge_add (h : g.Distinct) (hd : g d = some nd) (hq : g q = some nq)
    (hsb : nq.sb = nd.sb) (hname : plain name = true) :
    (g.edit d (add ⟨name, nq.ino⟩)).Edge x y ↔
      g.Edge x y ∨ x = d ∧ y = q ∧ nq.isDir = true := by
  have hcount : ∀ (n : Vertex) (ino : Nat), (n.add ⟨name, nq.ino⟩).entries.countP
    (plainly ino) =
      n.entries.countP (plainly ino) + if nq.ino = ino then 1 else 0 := by
    intro n ino
    rw [add, countP_append, countP_singleton, plainly, hname, Bool.true_and]
    simp only [beq_iff_eq]
  have hkq := kinds_of_some hq
  rw [kind, hsb] at hkq
  rw [edge_edit (f := add ⟨name, nq.ino⟩) fun _ => rfl, edge_iff_kinds]
  constructor
  · rintro ⟨nx, ino, hx, hy, hpos⟩
    by_cases hnew : x = d ∧ nq.ino = ino
    · obtain ⟨rfl, rfl⟩ := hnew
      cases hd.symm.trans hx
      cases h hy hkq
      exact .inr ⟨rfl, rfl, (Prod.mk.inj (Prod.mk.inj (some.inj (hkq.symm.trans hy))).2).2⟩
    · refine .inl ⟨nx, ino, hx, hy, ?_⟩
      split_ifs at hpos with hxd
      · rw [hcount, if_neg fun hino => hnew ⟨hxd, hino⟩] at hpos
        exact hpos
      · exact hpos
  · rintro (⟨nx, ino, hx, hy, hpos⟩ | ⟨rfl, rfl, hdir⟩)
    · refine ⟨nx, ino, hx, hy, ?_⟩
      split_ifs
      · rw [hcount]
        omega
      · exact hpos
    · refine ⟨nd, nq.ino, hd, hdir ▸ hkq, ?_⟩
      rw [if_pos rfl, hcount, if_pos rfl]
      exact Nat.succ_pos _

theorem Graph.Lists.edge_remove (h : g.Lists d nd name q nq) (hdist : g.Distinct)
    (hone : nq.isDir = true → nd.entries.countP (plainly nq.ino) = 1) :
    (g.edit d (remove name)).Edge x y ↔ g.Edge x y ∧ ¬(x = d ∧ y = q) := by
  obtain ⟨de, hl, hino⟩ := h.lookup
  have hcount : ∀ ino, (nd.remove name).entries.countP (plainly ino) +
      (if nq.ino = ino then 1 else 0) = nd.entries.countP (plainly ino) := by
    intro ino
    have hc := countP_remove (P := plainly ino) hl
    have hP : plainly ino de = (nq.ino == ino) := by
      rw [plainly, lookup_name hl, h.isPlain, hino, Bool.true_and]
    rw [hP] at hc
    simp only [beq_iff_eq] at hc
    exact hc
  have hkq := kinds_of_some h.inode
  rw [kind, h.sb] at hkq
  rw [edge_edit (f := remove name) fun _ => rfl, edge_iff_kinds]
  constructor
  · rintro ⟨nx, ino, hx, hy, hpos⟩
    by_cases hxd : x = d
    · subst hxd
      cases h.dir.symm.trans hx
      rw [if_pos rfl] at hpos
      have hc := hcount ino
      refine ⟨⟨nd, ino, hx, hy, by omega⟩, ?_⟩
      rintro ⟨-, rfl⟩
      rw [hkq, some.injEq, Prod.mk.injEq, Prod.mk.injEq] at hy
      rw [if_pos hy.1, ← hy.1, hone hy.2.2] at hc
      rw [← hy.1] at hpos
      omega
    · rw [if_neg hxd] at hpos
      exact ⟨⟨nx, ino, hx, hy, hpos⟩, fun hnot => hxd hnot.1⟩
  · rintro ⟨⟨nx, ino, hx, hy, hpos⟩, hnot⟩
    refine ⟨nx, ino, hx, hy, ?_⟩
    split_ifs with hxd
    · subst hxd
      cases h.dir.symm.trans hx
      have hne : nq.ino ≠ ino := by
        rintro rfl
        exact hnot ⟨rfl, hdist hy hkq⟩
      have hc := hcount ino
      rw [if_neg hne] at hc
      omega
    · exact hpos

theorem Graph.Closed.edge_put {new : Vertex} (h : g.Closed) (hp : g p = none)
    (hfree : ¬g.Has new.sb new.ino) (hnew : ∀ de ∈ new.entries, plain de.name = false) :
    (g.put p new).Edge x y ↔ g.Edge x y := by
  rw [edge_iff_kinds, edge_iff_kinds]
  constructor
  · rintro ⟨nx, ino, hx, hy, hpos⟩
    obtain ⟨de, hde, hP⟩ := countP_pos_iff.mp hpos
    rw [plainly, Bool.and_eq_true, beq_iff_eq] at hP
    have hxp : x ≠ p := by
      rintro rfl
      rw [put_self] at hx
      cases hx
      rw [hnew de hde] at hP
      cases hP.1
    rw [put_of_ne hxp] at hx
    refine ⟨nx, ino, hx, ?_, hpos⟩
    rcases kinds_put_cases hy with ⟨-, hino, hsb, -⟩ | ⟨-, hy⟩
    · have hhas := h x nx hx de hde
      rw [hP.2, hino, hsb] at hhas
      exact absurd hhas hfree
    · exact hy
  · rintro ⟨nx, ino, hx, hy, hpos⟩
    exact ⟨nx, ino, put_of_some hp hx, kinds_put hp hy, hpos⟩

/-! ## The tree -/

/-- The directories form a tree. Those in `R` may have lost their name. -/
structure DirTree (g : Graph) (R : Ptr → Prop) : Prop where
  sound : Sound g
  parent : ∀ ⦃d p nd⦄, g.Edge d p → g d = some nd → g.child dotdotName p = some nd.ino
  rooted : ∀ ⦃d p⦄, g.Edge d p → g.Rooted p
  kept : ∀ ⦃p n⦄, g p = some n → n.isDir = true → ¬R p → g.Hangs p
  oneRoot : ∀ ⦃p q n m⦄, g.IsRoot p → g.IsRoot q → g p = some n → g q = some m → n.sb = m.sb → p = q

theorem DirTree.hangs_rooted (h : DirTree g R) (hp : g.Hangs p) : g.Rooted p := by
  rcases hp with hroot | ⟨d, hd⟩
  · exact .of_root hroot
  · exact h.rooted hd

theorem DirTree.mono {R' : Ptr → Prop} (h : DirTree g R) (hR : ∀ p, R p → R' p) : DirTree g R' :=
  ⟨h.sound, h.parent, h.rooted, fun _ _ hp hdir hnot => h.kept hp hdir fun hR' => hnot (hR _ hR'),
    h.oneRoot⟩

/-- The directories, their edges and their parents are as before. -/
structure SameTree (g g' : Graph) : Prop where
  old : ∀ ⦃p k⦄, g.kinds p = some k → g'.kinds p = some k
  dirs : ∀ ⦃p ino sb⦄, g'.kinds p = some (ino, sb, true) → g.kinds p = some (ino, sb, true)
  edge : ∀ d p, g'.Edge d p ↔ g.Edge d p
  dotdot : ∀ ⦃p ino sb⦄, g.kinds p = some (ino, sb, true) → g'.child dotdotName p =
    g.child dotdotName p

theorem SameTree.trans {g'' : Graph} (h : SameTree g g') (h' : SameTree g' g'') :
    SameTree g g'' where
  old _ _ hp := h'.old (h.old hp)
  dirs _ _ _ hp := h.dirs (h'.dirs hp)
  edge d p := (h'.edge d p).trans (h.edge d p)
  dotdot _ _ _ hp := (h'.dotdot (h.old hp)).trans (h.dotdot hp)

theorem SameTree.of_kinds (hk : g'.kinds = g.kinds) (he : ∀ d p, g'.Edge d p ↔ g.Edge d p)
    (hdd : g'.child dotdotName = g.child dotdotName) : SameTree g g' where
  old p k hp := by rw [hk, hp]
  dirs p ino sb hp := by rw [← hk, hp]
  edge := he
  dotdot p _ _ _ := by rw [hdd]

theorem Graph.isRoot_iff : g.IsRoot p ↔ ∃ ino sb, g.kinds p = some (ino, sb, true) ∧
    g.child dotdotName p = some ino := by
  refine ⟨?_, ?_⟩
  · rintro ⟨n, hn, hdir, hself⟩
    exact ⟨n.ino, n.sb, by rw [kinds_of_some hn, kind, hdir], hself⟩
  · rintro ⟨ino, sb, hk, hself⟩
    obtain ⟨n, hn, hkind⟩ := kinds_eq_some.mp hk
    obtain ⟨hino, hrest⟩ := Prod.mk.inj hkind
    refine ⟨n, hn, (Prod.mk.inj hrest).2, ?_⟩
    rw [hself, hino]

theorem SameTree.isRoot (h : SameTree g g') (p : Ptr) : g'.IsRoot p ↔ g.IsRoot p := by
  rw [isRoot_iff, isRoot_iff]
  refine ⟨?_, ?_⟩
  · rintro ⟨ino, sb, hk, hself⟩
    rw [h.dotdot (h.dirs hk)] at hself
    exact ⟨ino, sb, h.dirs hk, hself⟩
  · rintro ⟨ino, sb, hk, hself⟩
    refine ⟨ino, sb, h.old hk, ?_⟩
    rw [h.dotdot hk]
    exact hself

theorem SameTree.kind (h : SameTree g g') (hd : g d = some nd) (hd' : g' d = some nd') :
    nd'.kind = nd.kind :=
  kind_eq (h.old (kinds_of_some hd)) hd'

theorem DirTree.same (h : DirTree g R) (hs : SameTree g g') (hsound : Sound g') : DirTree g' R := by
  have hrooted : ∀ p, g.Rooted p → g'.Rooted p := fun p hp =>
    hp.mono (fun x y => (hs.edge x y).mpr) fun x => (hs.isRoot x).mpr
  have hdir : ∀ p n, g' p = some n → n.isDir = true → ∃ m, g p = some m ∧ m.isDir = true ∧
      m.sb = n.sb := by
    intro p n hp hdir
    obtain ⟨m, hm, hk⟩ := kinds_eq_some.mp (hs.dirs (by rw [kinds_of_some hp, kind, hdir]))
    obtain ⟨-, hk⟩ := Prod.mk.inj hk
    exact ⟨m, hm, (Prod.mk.inj hk).2, (Prod.mk.inj hk).1⟩
  refine ⟨hsound, ?_, ?_, ?_, ?_⟩
  · intro d p nd' hedge hd'
    have hedge0 := (hs.edge d p).mp hedge
    obtain ⟨nd, np, hd, hp, hpdir, -⟩ := id hedge0
    rw [hs.dotdot (by rw [kinds_of_some hp, kind, hpdir]), h.parent hedge0 hd,
      (kind_eq_iff.mp (hs.kind hd hd')).1]
  · intro d p hedge
    exact hrooted p (h.rooted ((hs.edge d p).mp hedge))
  · intro p n hp hisdir hR
    obtain ⟨m, hm, hmdir, -⟩ := hdir p n hp hisdir
    rcases h.kept hm hmdir hR with hroot | ⟨d, hd⟩
    · exact .inl ((hs.isRoot p).mpr hroot)
    · exact .inr ⟨d, (hs.edge d p).mpr hd⟩
  · intro p q n m hp hq hn hm hsb
    obtain ⟨n', hn', hdir', -⟩ := id hp
    obtain ⟨m', hm', hdirm', -⟩ := id hq
    cases hn.symm.trans hn'
    cases hm.symm.trans hm'
    obtain ⟨n0, hn0, -, hsbn⟩ := hdir p n hn hdir'
    obtain ⟨m0, hm0, -, hsbm⟩ := hdir q m hm hdirm'
    exact h.oneRoot ((hs.isRoot p).mp hp) ((hs.isRoot q).mp hq) hn0 hm0
      (hsbn.trans (hsb.trans hsbm.symm))

/-! ### Edits that leave the tree -/

theorem sameTree_countUp : SameTree g (g.edit p countUp) :=
  .of_kinds kinds_countUp (fun _ _ => edge_countUp) child_countUp

theorem sameTree_countDown : SameTree g (g.edit p countDown) :=
  .of_kinds kinds_countDown (fun _ _ => edge_countDown) child_countDown

theorem sameTree_addFile (hdist : g.Distinct) (hd : g d = some nd) (hq : g q = some nq)
    (hfile : nq.isDir = false) (hsb : nq.sb = nd.sb) (hname : plain name = true) :
    SameTree g (g.edit d (add ⟨name, nq.ino⟩)) := by
  refine .of_kinds (kinds_add _) ?_ (child_add (ne_of_plain hname rfl))
  intro x y
  rw [hdist.edge_add hd hq hsb hname, hfile]
  exact or_iff_left fun h => Bool.false_ne_true h.2.2

theorem Graph.Lists.sameTree_removeFile (h : g.Lists d nd name q nq) (hdist : g.Distinct)
    (hfile : nq.isDir = false) : SameTree g (g.edit d (remove name)) := by
  refine .of_kinds (kinds_remove _) ?_ (child_remove (ne_of_plain h.isPlain rfl).symm)
  intro x y
  rw [h.edge_remove hdist fun hdir => by rw [hfile] at hdir; cases hdir]
  refine and_iff_left_of_imp ?_
  rintro ⟨nx, ny, -, hy, hdir, -⟩ ⟨-, rfl⟩
  cases h.inode.symm.trans hy
  rw [hfile] at hdir
  cases hdir

theorem Sound.sameTree_putFile {sb k ino : Nat} (h : Sound g) (hp : g p = none)
    (hfree : ¬g.Has sb ino) : SameTree g (g.put p ⟨ino, sb, false, k, []⟩) := by
  refine ⟨fun _ _ => kinds_put hp, ?_, ?_, ?_⟩
  · intro q ino' sb' hq
    rcases kinds_put_cases hq with ⟨-, -, -, hdir⟩ | ⟨-, hq⟩
    · cases hdir
    · exact hq
  · intro x y
    refine h.closed.edge_put hp hfree ?_
    intro de hde
    cases hde
  · intro q ino' sb' hq
    obtain ⟨n, hn, -⟩ := kinds_eq_some.mp hq
    exact child_put (ne_of_none hn hp)

/-! ### Edits that change it -/

theorem Graph.isRoot_congr (hk : g'.kinds = g.kinds)
    (hdd : g'.child dotdotName = g.child dotdotName) : g'.IsRoot p ↔ g.IsRoot p := by
  rw [isRoot_iff, isRoot_iff, hk, hdd]

section

variable (h : DirTree g R)
include h

theorem DirTree.putDir {ino sb parentIno : Nat} (hp : g p = none) (hfree : ¬g.Has sb ino)
    (hroot : parentIno = ino → ∀ k, ¬g.Has sb k)
    (hsound : Sound (g.put p (newDir ino sb parentIno))) :
    DirTree (g.put p (newDir ino sb parentIno)) fun q => R q ∨ q = p := by
  have hedge : ∀ x y, (g.put p (newDir ino sb parentIno)).Edge x y ↔ g.Edge x y :=
    fun x y => h.sound.closed.edge_put hp hfree (newDir_not_plain ino sb parentIno)
  have hold : ∀ x, g.IsRoot x → (g.put p (newDir ino sb parentIno)).IsRoot x := by
    rintro x ⟨n, hn, hdir, hself⟩
    refine ⟨n, put_of_some hp hn, hdir, ?_⟩
    rw [child_put (ne_of_none hn hp), hself]
  have hcases : ∀ x n, (g.put p (newDir ino sb parentIno)).IsRoot x →
      g.put p (newDir ino sb parentIno) x = some n →
      x = p ∧ n.sb = sb ∧ (∀ k, ¬g.Has sb k) ∨ g.IsRoot x ∧ g x = some n := by
    rintro x n ⟨m, hm, hdir, hself⟩ hn
    cases hm.symm.trans hn
    rcases put_eq_some hn with ⟨rfl, rfl⟩ | ⟨hxp, hn⟩
    · rw [child_of_some put_self] at hself
      exact .inl ⟨rfl, rfl, hroot (some.inj hself)⟩
    · rw [child_put hxp] at hself
      exact .inr ⟨⟨n, hn, hdir, hself⟩, hn⟩
  refine ⟨hsound, ?_, ?_, ?_, ?_⟩
  · intro x y nx hxy hx
    have hxy0 := (hedge x y).mp hxy
    obtain ⟨nx0, ny0, hx0, hy0, -⟩ := id hxy0
    rw [put_of_ne (ne_of_none hx0 hp)] at hx
    rw [child_put (ne_of_none hy0 hp)]
    exact h.parent hxy0 hx
  · intro x y hxy
    exact (h.rooted ((hedge x y).mp hxy)).mono (fun x y => (hedge x y).mpr) hold
  · intro x n hx hdir hnot
    have hxp : x ≠ p := fun hxp => hnot (.inr hxp)
    rw [put_of_ne hxp] at hx
    rcases h.kept hx hdir fun hR => hnot (.inl hR) with hroot | ⟨y, hy⟩
    · exact .inl (hold x hroot)
    · exact .inr ⟨y, (hedge y x).mpr hy⟩
  · intro x y n m hx hy hn hm hsb
    rcases hcases x n hx hn with ⟨rfl, hsbn, hnone⟩ | ⟨hx₀, hn₀⟩
    · rcases hcases y m hy hm with ⟨rfl, -⟩ | ⟨-, hm⟩
      · rfl
      · exact absurd (has_of_some hm) (hsb ▸ hsbn.symm ▸ hnone m.ino)
    · rcases hcases y m hy hm with ⟨rfl, hsbm, hnone⟩ | ⟨hy, hm⟩
      · exact absurd ((hsb.trans hsbm) ▸ has_of_some hn₀) (hnone n.ino)
      · exact h.oneRoot hx₀ hy hn₀ hm hsb

theorem DirTree.change {R' : Ptr → Prop} (hsound : Sound g') (hk : g'.kinds = g.kinds)
    (hroot : ∀ x, g'.IsRoot x → g.IsRoot x)
    (hparent : ∀ x y nx, g'.Edge x y → g x = some nx → g'.child dotdotName y = some nx.ino)
    (hrooted : ∀ x y, g'.Edge x y → g'.Rooted y)
    (hkept : ∀ x n, g x = some n → n.isDir = true → ¬R' x → g'.Hangs x) : DirTree g' R' := by
  refine ⟨hsound, ?_, fun x y => hrooted x y, ?_, ?_⟩
  · intro x y nx hxy hx
    obtain ⟨nx0, hx0, hkind⟩ := exists_of_kinds hk hx
    rw [(kind_eq_iff.mp hkind).1]
    exact hparent x y nx0 hxy hx0
  · intro x n hx hdir
    obtain ⟨n0, hn0, hkind⟩ := exists_of_kinds hk hx
    exact hkept x n0 hn0 ((kind_eq_iff.mp hkind).2.2 ▸ hdir)
  · intro x y n m hx hy hn hm hsb
    obtain ⟨n0, hn0, hkn⟩ := exists_of_kinds hk hn
    obtain ⟨m0, hm0, hkm⟩ := exists_of_kinds hk hm
    rw [(kind_eq_iff.mp hkn).2.1, (kind_eq_iff.mp hkm).2.1] at hsb
    exact h.oneRoot (hroot x hx) (hroot y hy) hn0 hm0 hsb

theorem DirTree.addEdge (hd : g d = some nd) (hq : g q = some nq) (hdir : nq.isDir = true)
    (hsb : nq.sb = nd.sb) (hname : plain name = true) (hhangs : g.Hangs d)
    (hparent : g.child dotdotName q = some nd.ino)
    (hsound : Sound (g.edit d (add ⟨name, nq.ino⟩))) :
    DirTree (g.edit d (add ⟨name, nq.ino⟩)) fun x => R x ∧ x ≠ q := by
  have hedge : ∀ x y, (g.edit d (add ⟨name, nq.ino⟩)).Edge x y ↔ g.Edge x y ∨ x = d ∧
      y = q := by
    intro x y
    rw [h.sound.distinct.edge_add hd hq hsb hname]
    simp only [hdir, and_true]
  have hdd : (g.edit d (add ⟨name, nq.ino⟩)).child dotdotName = g.child dotdotName :=
    child_add (ne_of_plain hname rfl)
  have hroot : ∀ x, (g.edit d (add ⟨name, nq.ino⟩)).IsRoot x ↔ g.IsRoot x :=
    fun x => isRoot_congr (kinds_add _) hdd
  have hmono : ∀ x, g.Rooted x → (g.edit d (add ⟨name, nq.ino⟩)).Rooted x :=
    fun x hx => hx.mono (fun x y hxy => (hedge x y).mpr (.inl hxy)) fun x => (hroot x).mpr
  refine h.change hsound (kinds_add _) (fun x => (hroot x).mp) ?_ ?_ ?_
  · intro x y nx hxy hx
    rw [hdd]
    rcases (hedge x y).mp hxy with hxy | ⟨rfl, rfl⟩
    · exact h.parent hxy hx
    · cases hd.symm.trans hx
      exact hparent
  · intro x y hxy
    rcases (hedge x y).mp hxy with hxy0 | ⟨rfl, rfl⟩
    · exact hmono y (h.rooted hxy0)
    · exact (hmono x (h.hangs_rooted hhangs)).step hxy
  · intro x n hx hisdir hnot
    by_cases hxq : x = q
    · exact .inr ⟨d, (hedge d x).mpr (.inr ⟨rfl, hxq⟩)⟩
    · rcases h.kept hx hisdir fun hR => hnot ⟨hR, hxq⟩ with hr | ⟨y, hy⟩
      · exact .inl ((hroot x).mpr hr)
      · exact .inr ⟨y, (hedge y x).mpr (.inl hy)⟩

theorem DirTree.addDir {n : Nat} (hd : g d = some nd) (hdir : nd.isDir = true) (hp : g p = none)
    (hfree : ¬g.Has nd.sb n) (hname : plain name = true) (hhangs : g.Hangs d) :
    DirTree ((g.put p (newDir n nd.sb nd.ino)).edit d (add ⟨name, n⟩)) R := by
  have hne : nd.ino ≠ n := by
    rintro rfl
    exact hfree (has_of_some hd)
  have hd1 : (g.put p (newDir n nd.sb nd.ino)) d = some nd := put_of_some hp hd
  have hput := h.putDir hp hfree (fun heq => absurd heq hne)
    (h.sound.putDir hp hfree ((hasDir_of_some hd hdir).put hp))
  have hhangs1 : (g.put p (newDir n nd.sb nd.ino)).Hangs d := by
    rcases hhangs with ⟨m, hm, hmdir, hself⟩ | ⟨x, hx⟩
    · refine .inl ⟨m, put_of_some hp hm, hmdir, ?_⟩
      rw [child_put (ne_of_none hd hp), hself]
    · exact .inr ⟨x, (h.sound.closed.edge_put hp hfree (newDir_not_plain n nd.sb nd.ino)).mpr hx⟩
  have hchild : (g.put p (newDir n nd.sb nd.ino)).child dotdotName p = some nd.ino := by
    rw [child_of_some put_self]
    rfl
  refine (hput.addEdge hd1 put_self rfl rfl hname hhangs1 hchild
    (h.sound.addNewDir hd hdir hp hfree hname)).mono ?_
  rintro x ⟨hR | hxp, hne⟩
  · exact hR
  · exact absurd hxp hne

theorem DirTree.addRoot {sb n : Nat} (hp : g p = none) (hfree : ∀ k, ¬g.Has sb k) :
    DirTree (g.put p (newDir n sb n)) R := by
  have hput := h.putDir hp (hfree n) (fun _ => hfree)
    (h.sound.putDir hp (hfree n) (hasDir_of_some put_self rfl))
  refine ⟨hput.sound, hput.parent, hput.rooted, ?_, hput.oneRoot⟩
  intro x m hx hdir hR
  by_cases hxp : x = p
  · subst hxp
    refine .inl ⟨newDir n sb n, put_self, rfl, ?_⟩
    rw [child_of_some put_self]
    rfl
  · exact hput.kept hx hdir fun hR' => hR'.elim hR hxp

theorem DirTree.rmdir (hl : g.Lists d nd name q nq) (hdir : nq.isDir = true)
    (hempty : dirEmpty nq.entries = true) :
    DirTree (g.edit d (remove name)) fun x => R x ∨ x = q := by
  have hedge : ∀ x y, (g.edit d (remove name)).Edge x y ↔ g.Edge x y ∧ y ≠ q := by
    intro x y
    rw [hl.edge_remove h.sound.distinct fun _ => hl.countP_eq_one h.sound hdir]
    refine and_congr_right fun hxy => ?_
    refine ⟨?_, fun hne heq => hne heq.2⟩
    rintro hnot rfl
    exact hnot ⟨h.sound.edge_unique hxy (hl.edge h.sound hdir), rfl⟩
  have hleaf : ∀ y, ¬g.Edge q y := by
    rintro y ⟨nq', ny, hq', -, -, -, hpos⟩
    cases hl.inode.symm.trans hq'
    obtain ⟨de, hde, hP⟩ := countP_pos_iff.mp hpos
    have hdot := all_eq_true.mp hempty de hde
    rw [plainly, plain, Bool.and_eq_true, Bool.and_eq_true, bne_iff_ne, bne_iff_ne] at hP
    rw [Bool.or_eq_true, beq_iff_eq, beq_iff_eq] at hdot
    exact hdot.elim hP.1.1 hP.1.2
  have hdd : (g.edit d (remove name)).child dotdotName = g.child dotdotName :=
    child_remove (ne_of_plain hl.isPlain rfl).symm
  have hroot : ∀ x, (g.edit d (remove name)).IsRoot x ↔ g.IsRoot x :=
    fun x => isRoot_congr (kinds_remove _) hdd
  refine h.change (hl.sound_remove h.sound) (kinds_remove _) (fun x => (hroot x).mp) ?_ ?_ ?_
  · intro x y nx hxy hx
    rw [hdd]
    exact h.parent ((hedge x y).mp hxy).1 hx
  · intro x y hxy
    obtain ⟨hxy, hne⟩ := (hedge x y).mp hxy
    refine ((h.rooted hxy).cut hleaf (fun x y hxy hne => (hedge x y).mpr ⟨hxy, hne⟩) hne).mono ?_ ?_
    · exact fun _ _ hxy => hxy
    · exact fun x => (hroot x).mpr
  · intro x n hx hisdir hnot
    rcases h.kept hx hisdir fun hR => hnot (.inl hR) with hr | ⟨y, hy⟩
    · exact .inl ((hroot x).mpr hr)
    · exact .inr ⟨y, (hedge y x).mpr ⟨hy, fun hxq => hnot (.inr hxq)⟩⟩

omit h in
theorem Graph.Lists.edge_move (h : g.Lists d nd name p np) (hs : Sound g) (hdir : np.isDir = true)
    (hd' : g d' = some nd') (hsb : np.sb = nd'.sb) (hnew : plain newName = true) (hne : d ≠ d')
    (hself : d' ≠ p) :
    ((g.edit d' (add ⟨newName, np.ino⟩)).edit d (remove name)).Edge x y ↔
      g.Edge x y ∧ y ≠ p ∨ x = d' ∧ y = p := by
  have hd1 : (g.edit d' (add ⟨newName, np.ino⟩)) d = some nd := by rw [edit_of_ne hne, h.dir]
  have hl1 : (g.edit d' (add ⟨newName, np.ino⟩)).Lists d nd name p np := by
    refine ⟨hd1, by rw [edit_of_ne hself.symm, h.inode], h.sb, h.isPlain, ?_⟩
    rw [child_of_some hd1, ← child_of_some h.dir]
    exact h.entry
  rw [hl1.edge_remove (hs.distinct.congr (kinds_add _)) fun _ => h.countP_eq_one hs hdir,
    hs.distinct.edge_add hd' h.inode hsb hnew]
  refine ⟨?_, ?_⟩
  · rintro ⟨hxy | ⟨rfl, rfl, -⟩, hnot⟩
    · refine .inl ⟨hxy, ?_⟩
      rintro rfl
      exact hnot ⟨hs.edge_unique hxy (h.edge hs hdir), rfl⟩
    · exact .inr ⟨rfl, rfl⟩
  · rintro (⟨hxy, hyp⟩ | ⟨rfl, rfl⟩)
    · exact ⟨.inl hxy, fun hnot => hyp hnot.2⟩
    · exact ⟨.inr ⟨rfl, rfl, hdir⟩, fun hnot => hne hnot.1.symm⟩

theorem DirTree.moveDir (hl : g.Lists d nd name p np) (hdir : np.isDir = true)
    (hd' : g d' = some nd') (hdir' : nd'.isDir = true) (hsb : np.sb = nd'.sb)
    (hnew : plain newName = true) (hne : d ≠ d') (hself : d' ≠ p) (hhangs : g.Hangs d')
    (hnot : ¬ReflTransGen g.Edge p d') :
    DirTree (((g.edit d' (add ⟨newName, np.ino⟩)).edit d (remove name)).edit p
      (point dotdotName nd'.ino)) R := by
  have hsound := hl.sound_moveDir h.sound hdir hd' hdir' hsb hnew hne hself
  have hmoved := hl.sound_move h.sound hd' hsb hnew hne
  have hedge := fun x y => hl.edge_move (x := x) (y := y) h.sound hdir hd' hsb hnew hne hself
  have hnames := hl.noNewNames_move h.sound.finite hd' hsb hnew hne
  generalize (g.edit d' (add ⟨newName, np.ino⟩)).edit d (remove name) = g1 at *
  obtain ⟨m, hm, hkind⟩ := exists_of_kinds hnames.kinds.symm hl.inode
  have hmdir : m.isDir = true := (kind_eq_iff.mp hkind).2.2.symm.trans hdir
  have hne_ino : nd'.ino ≠ np.ino :=
    fun heq => hself (h.sound.distinct.eq hd' hl.inode hsb.symm heq)
  have hdd : (g1.edit p (point dotdotName nd'.ino)).child dotdotName =
      update (g.child dotdotName) p (some nd'.ino) := by
    rw [hmoved.names.child_point hm hmdir, hnames.dotdot]
  have hkinds : (g1.edit p (point dotdotName nd'.ino)).kinds = g.kinds := by
    rw [kinds_point, hnames.kinds]
  have hedge' : ∀ x y, (g1.edit p (point dotdotName nd'.ino)).Edge x y ↔
      g.Edge x y ∧ y ≠ p ∨ x = d' ∧ y = p := fun x y => (edge_point _).trans (hedge x y)
  -- the directory that is moved was no root and is none
  have hnoroot : ¬g.IsRoot p := fun hroot => h.sound.not_edge_root hroot (hl.edge h.sound hdir)
  have hroot : ∀ x, (g1.edit p (point dotdotName nd'.ino)).IsRoot x ↔ g.IsRoot x := by
    intro x
    by_cases hxp : x = p
    · subst hxp
      refine iff_of_false ?_ hnoroot
      rw [isRoot_iff, hkinds, hdd, kinds_of_some hl.inode, update_self]
      rintro ⟨ino, sb, hk, hself⟩
      exact hne_ino ((some.inj hself).trans (Prod.mk.inj (some.inj hk)).1.symm)
    · rw [isRoot_iff, isRoot_iff, hkinds, hdd, update_of_ne hxp]
  have hrooted : ∀ x, g.Rooted x → (g1.edit p (point dotdotName nd'.ino)).Rooted x := by
    intro x hx
    refine (hx.move (fun x y hxy hyp => (hedge' x y).mpr (.inl ⟨hxy, hyp⟩))
      ((hedge' d' p).mpr (.inr ⟨rfl, rfl⟩))
      (h.hangs_rooted hhangs) hnot).mono (fun _ _ hxy => hxy) fun x => (hroot x).mpr
  refine h.change hsound hkinds (fun x => (hroot x).mp) ?_ ?_ ?_
  · intro x y nx hxy hx
    rw [hdd]
    rcases (hedge' x y).mp hxy with ⟨hxy, hyp⟩ | ⟨rfl, rfl⟩
    · rw [update_of_ne hyp]
      exact h.parent hxy hx
    · cases hd'.symm.trans hx
      exact update_self ..
  · intro x y hxy
    rcases (hedge' x y).mp hxy with ⟨hxy, -⟩ | ⟨-, rfl⟩
    · exact hrooted y (h.rooted hxy)
    · exact hrooted y (h.rooted (hl.edge h.sound hdir))
  · intro x n hx hisdir hR
    rcases h.kept hx hisdir hR with hr | ⟨y, hy⟩
    · exact .inl ((hroot x).mpr hr)
    · by_cases hxp : x = p
      · exact .inr ⟨d', (hedge' d' x).mpr (.inr ⟨rfl, hxp⟩)⟩
      · exact .inr ⟨y, (hedge' y x).mpr (.inl ⟨hy, hxp⟩)⟩

end

/-! ### All edits -/

/-- A new directory is made in, and a directory is moved to, a directory of the tree that is not
beneath it. -/
def Edit.Grows : Edit g → Prop
  | .addDir d .. => g.Hangs d
  | .moveDir _ p d' .. => g.Hangs d' ∧ ¬ReflTransGen g.Edge p d'
  | _ => True

def Edit.cut : Edit g → Option Ptr
  | .rmdir _ q .. => some q
  | _ => none

theorem DirTree.edit (h : DirTree g R) (e : Edit g) (he : e.Grows) :
    DirTree e.graph fun p => R p ∨ e.cut = some p := by
  have hsound := h.sound.edit e
  have hweak : ∀ {g'}, DirTree g' R → DirTree g' fun p => R p ∨ e.cut = some p :=
    fun h => h.mono fun _ => .inl
  cases e with
  | addFile d p nd name n k hd hp hfree hname =>
    have hput := h.sound.sameTree_putFile (k := k) hp hfree
    have hd1 : (g.put p ⟨n, nd.sb, false, k, []⟩) d = some nd := put_of_some hp hd
    have hs := h.sound.putFile (k := k) hp hfree
    exact hweak (h.same (hput.trans (sameTree_addFile hs.distinct hd1 put_self rfl rfl hname))
      hsound)
  | addDir d p nd name n hd hdir hp hfree hname =>
    exact hweak ((h.addDir hd hdir hp hfree hname he).same sameTree_countUp hsound)
  | addRoot p sb n hp hfree => exact hweak (h.addRoot hp hfree)
  | link d p nd np name hd hp hfile hsb hname =>
    have hadd := sameTree_addFile h.sound.distinct hd hp hfile hsb hname
    exact hweak (h.same (hadd.trans sameTree_countUp) hsound)
  | unlink d q nd nq name hl hfile =>
    exact hweak (h.same ((hl.sameTree_removeFile h.sound.distinct hfile).trans sameTree_countDown)
      hsound)
  | rmdir d q nd nq name hl hd hdir hempty =>
    refine ((h.rmdir hl hdir hempty).same (sameTree_countDown.trans sameTree_countDown) hsound).mono
      ?_
    exact fun p hp => hp.imp_right fun hpq => congrArg some hpq.symm
  | rename d p nd np name newName hl hnew =>
    exact hweak (h.same (.of_kinds (kinds_rename _ _) (fun _ _ => hl.edge_rename hnew)
      (child_rename (ne_of_plain hl.isPlain rfl).symm (ne_of_plain hnew rfl).symm)) hsound)
  | moveFile d p d' nd np nd' name newName hl hfile hd' hsb hnew hne =>
    have hchild : (g.edit d' (add ⟨newName, np.ino⟩)).child name d = g.child name d := by
      rw [child, child, edit_of_ne hne]
    obtain ⟨nd1, np1, -, hkp, hl1⟩ := hl.congr (kinds_add ⟨newName, np.ino⟩) hchild
    have hremove := hl1.sameTree_removeFile (h.sound.distinct.congr (kinds_add _))
      ((kind_eq_iff.mp hkp).2.2.trans hfile)
    have hadd := sameTree_addFile h.sound.distinct hd' hl.inode hfile hsb hnew
    exact hweak (h.same (hadd.trans hremove) hsound)
  | moveDir d p d' nd np nd' name newName hl hdir hd hd' hdir' hsb hnew hne hself =>
    exact hweak ((h.moveDir hl hdir hd' hdir' hsb hnew hne hself he.1 he.2).same
      (sameTree_countDown.trans sameTree_countUp) hsound)

end ShiziOS.Fs
