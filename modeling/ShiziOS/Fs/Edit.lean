import ShiziOS.Fs.NameCount

/-!
# Edits of the graph

What the operations of tmpfs do to the graph when each acts on the inode that its directory
lists: `Edit`. An operation that is given a dentry whose inode is another one, or the names `.`
and `..`, does something else. In a graph that only saw edits, a directory has one name at most,
and its entries `.` and `..` name directories (`Sound`).
-/

namespace ShiziOS.Fs

open List Option Function ShiziOS.Fs.Graph Vertex DirEntry

variable {g g' : Graph} {d d' p q : Ptr} {n nd nd' np nq : Vertex} {f : Vertex → Vertex}
  {name newName : Name} {de : DirEntry}

def dotName : Name := ['.']

def dotdotName : Name := ['.', '.']

/-! ## Names of directories -/

/-- The number of names of an inode, other than `.` and `..`. -/
noncomputable def Graph.namesOf (g : Graph) (n : Vertex) : Nat :=
  g.count n.sb (plainly n.ino)

/-- A directory has one name, or none; the root, which is its own parent, has none. -/
structure DirNames (g : Graph) : Prop where
  once : ∀ ⦃p n⦄, g p = some n → n.isDir = true → g.namesOf n ≤ 1
  root : ∀ ⦃p n⦄, g p = some n → n.isDir = true → g.child dotdotName p = some n.ino →
    g.namesOf n = 0
  dot : ∀ ⦃p n⦄, g p = some n → n.isDir = true → g.child dotName p = some n.ino
  dotdot : ∀ ⦃p n⦄, g p = some n → n.isDir = true →
    ∃ k, g.child dotdotName p = some k ∧ g.HasDir n.sb k

/-- No directory has more names than before, and `.` and `..` name what they did. -/
structure NoNewNames (g g' : Graph) : Prop where
  kinds : g'.kinds = g.kinds
  names : ∀ ⦃sb ino⦄, g.HasDir sb ino →
    g'.count sb (plainly ino) ≤ g.count sb (plainly ino)
  dot : g'.child dotName = g.child dotName
  dotdot : g'.child dotdotName = g.child dotdotName

theorem NoNewNames.trans {g'' : Graph} (h : NoNewNames g g') (h' : NoNewNames g' g'') :
    NoNewNames g g'' where
  kinds := h'.kinds.trans h.kinds
  names := by
    intro sb ino hdir
    have hdir' : g'.HasDir sb ino := by
      rw [Graph.HasDir, h.kinds]
      exact hdir
    exact (h'.names hdir').trans (h.names hdir)
  dot := h'.dot.trans h.dot
  dotdot := h'.dotdot.trans h.dotdot

theorem Graph.exists_of_kinds (h : g'.kinds = g.kinds) (hp : g' p = some n) :
    ∃ m, g p = some m ∧ n.kind = m.kind := by
  have hk := kinds_of_some hp
  rw [h] at hk
  obtain ⟨m, hm, hkind⟩ := kinds_eq_some.mp hk
  exact ⟨m, hm, hkind.symm⟩

theorem Graph.namesOf_congr (h : n.kind = nq.kind) : g.namesOf n = g.namesOf nq := by
  obtain ⟨hino, hsb, -⟩ := kind_eq_iff.mp h
  rw [namesOf, namesOf, hino, hsb]

theorem DirNames.change (h : DirNames g) (hk : g'.kinds = g.kinds)
    (hdot : g'.child dotName = g.child dotName)
    (hnew : ∀ p m, g p = some m → m.isDir = true → g'.namesOf m ≤ 1 ∧
      (g'.child dotdotName p = some m.ino → g'.namesOf m = 0) ∧
      ∃ k, g'.child dotdotName p = some k ∧ g.HasDir m.sb k) : DirNames g' := by
  have hold : ∀ p n, g' p = some n → n.isDir = true → ∃ m, g p = some m ∧ m.isDir = true ∧
      n.ino = m.ino ∧ n.sb = m.sb ∧ g'.namesOf n = g'.namesOf m := by
    intro p n hp hdir
    obtain ⟨m, hm, hkind⟩ := exists_of_kinds hk hp
    obtain ⟨hino, hsb, hd⟩ := kind_eq_iff.mp hkind
    exact ⟨m, hm, hd ▸ hdir, hino, hsb, namesOf_congr hkind⟩
  refine ⟨?_, ?_, ?_, ?_⟩
  · intro p n hp hdir
    obtain ⟨m, hm, hd, -, -, hn⟩ := hold p n hp hdir
    rw [hn]
    exact (hnew p m hm hd).1
  · intro p n hp hdir
    obtain ⟨m, hm, hd, hino, -, hn⟩ := hold p n hp hdir
    rw [hn, hino]
    exact (hnew p m hm hd).2.1
  · intro p n hp hdir
    obtain ⟨m, hm, hd, hino, -⟩ := hold p n hp hdir
    rw [hdot, hino]
    exact h.dot hm hd
  · intro p n hp hdir
    obtain ⟨m, hm, hd, -, hsb, -⟩ := hold p n hp hdir
    simp only [Graph.HasDir, hk, hsb]
    exact (hnew p m hm hd).2.2

theorem DirNames.le (h : DirNames g) (hs : NoNewNames g g') : DirNames g' := by
  refine h.change hs.kinds hs.dot ?_
  intro p m hp hdir
  have hle : g'.namesOf m ≤ g.namesOf m := hs.names (hasDir_of_some hp hdir)
  rw [hs.dotdot]
  refine ⟨hle.trans (h.once hp hdir), ?_, h.dotdot hp hdir⟩
  intro hself
  exact Nat.le_zero.mp (hle.trans (h.root hp hdir hself).le)

/-! ## Entries and counters -/

/-- The directory lists an inode of its super block under the name. -/
structure Graph.Lists (g : Graph) (d : Ptr) (nd : Vertex) (name : Name) (q : Ptr) (nq : Vertex) :
    Prop where
  dir : g d = some nd
  inode : g q = some nq
  sb : nq.sb = nd.sb
  isPlain : plain name = true
  entry : g.child name d = some nq.ino

theorem Graph.Lists.lookup (h : g.Lists d nd name q nq) :
    ∃ de, tmpfsDirLookup nd.entries name = some de ∧ de.ino = nq.ino := by
  have he := h.entry
  rw [child_of_some h.dir] at he
  exact map_eq_some_iff.mp he

theorem Graph.Lists.congr (h : g.Lists d nd name q nq) (hk : g'.kinds = g.kinds)
    (hc : g'.child name d = g.child name d) :
    ∃ nd1 nq1, nd1.kind = nd.kind ∧ nq1.kind = nq.kind ∧ g'.Lists d nd1 name q nq1 := by
  have hd := kinds_of_some h.dir
  have hq := kinds_of_some h.inode
  rw [← hk] at hd hq
  obtain ⟨nd1, hd1, hkd⟩ := kinds_eq_some.mp hd
  obtain ⟨nq1, hq1, hkq⟩ := kinds_eq_some.mp hq
  obtain ⟨hino, hsb, -⟩ := kind_eq_iff.mp hkq
  refine ⟨nd1, nq1, hkd, hkq, hd1, hq1, ?_, h.isPlain, ?_⟩
  · rw [hsb, (kind_eq_iff.mp hkd).2.1]
    exact h.sb
  · rw [hc, hino]
    exact h.entry

theorem noNewNames_countUp (hfin : PartialMap.Finite g) :
    NoNewNames g (g.edit p countUp) where
  kinds := kinds_countUp
  names _ _ _ := (count_countUp hfin).le
  dot := child_countUp
  dotdot := child_countUp

theorem noNewNames_countDown (hfin : PartialMap.Finite g) :
    NoNewNames g (g.edit p countDown) where
  kinds := kinds_countDown
  names _ _ _ := (count_countDown hfin).le
  dot := child_countDown
  dotdot := child_countDown

variable {sb ino : Nat} {new : Vertex}

theorem Graph.Distinct.ne_of_file (h : g.Distinct) (hq : g q = some nq)
    (hfile : nq.isDir = false) (hdir : g.HasDir sb ino) (hsb : nq.sb = sb) : nq.ino ≠ ino := by
  rintro rfl
  rw [← hsb, h.hasDir_iff hq, hfile] at hdir
  cases hdir

theorem noNewNames_addFile (hfin : PartialMap.Finite g) (hdist : g.Distinct) (hd : g d = some nd)
    (hq : g q = some nq) (hfile : nq.isDir = false) (hsb : nq.sb = nd.sb)
    (hname : plain name = true) : NoNewNames g (g.edit d (add ⟨name, nq.ino⟩)) where
  kinds := kinds_add _
  names := by
    intro sb ino hdir
    rw [count_add hfin hd, if_neg]
    · exact le_rfl
    rintro ⟨hsb', hP⟩
    rw [plainly, Bool.and_eq_true] at hP
    exact hdist.ne_of_file hq hfile hdir (hsb.trans hsb') (eq_of_beq hP.2)
  dot := child_add (ne_of_plain hname rfl)
  dotdot := child_add (ne_of_plain hname rfl)

theorem Graph.Lists.noNewNames_remove (h : g.Lists d nd name q nq) (hfin : PartialMap.Finite g) :
    NoNewNames g (g.edit d (remove name)) where
  kinds := kinds_remove _
  names := by
    intro sb ino _
    obtain ⟨de, hl, -⟩ := h.lookup
    have hr := count_remove sb (plainly ino) hfin h.dir hl
    omega
  dot := child_remove (ne_of_plain h.isPlain rfl).symm
  dotdot := child_remove (ne_of_plain h.isPlain rfl).symm

theorem Graph.Lists.noNewNames_rename (h : g.Lists d nd name q nq) (hfin : PartialMap.Finite g)
    (hnew : plain newName = true) : NoNewNames g (g.edit d (rename name newName)) where
  kinds := kinds_rename _ _
  names := by
    intro sb ino _
    obtain ⟨de, hl, -⟩ := h.lookup
    refine (count_rename hfin h.dir hl ?_).le
    rw [plainly, plainly, lookup_name hl, h.isPlain, hnew]
  dot := child_rename (ne_of_plain h.isPlain rfl).symm (ne_of_plain hnew rfl).symm
  dotdot := child_rename (ne_of_plain h.isPlain rfl).symm (ne_of_plain hnew rfl).symm

theorem Graph.Lists.noNewNames_move (h : g.Lists d nd name p np) (hfin : PartialMap.Finite g)
    (hd' : g d' = some nd') (hsb : np.sb = nd'.sb) (hnew : plain newName = true) (hne : d ≠ d') :
    NoNewNames g ((g.edit d' (add ⟨newName, np.ino⟩)).edit d (remove name)) where
  kinds := by rw [kinds_remove, kinds_add]
  names := by
    intro sb ino _
    obtain ⟨de, hl, hino⟩ := h.lookup
    have hd : (g.edit d' (add ⟨newName, np.ino⟩)) d = some nd := by
      rw [edit_of_ne hne]
      exact h.dir
    have hr := count_remove sb (plainly ino) (finite_edit hfin _ _) hd hl
    have hP : plainly ino de = plainly ino ⟨newName, np.ino⟩ := by
      rw [plainly, plainly, lookup_name hl, h.isPlain, hnew, hino]
    rw [count_add hfin hd', ← hsb, ← h.sb, hP] at hr
    exact (Nat.add_right_cancel hr).le
  dot := by
    rw [child_remove (ne_of_plain h.isPlain rfl).symm, child_add (ne_of_plain hnew rfl)]
  dotdot := by
    rw [child_remove (ne_of_plain h.isPlain rfl).symm, child_add (ne_of_plain hnew rfl)]

/-! ## New vertices -/

theorem Graph.HasDir.put (h : g.HasDir sb ino) (hp : g p = none) : (g.put p new).HasDir sb ino := by
  obtain ⟨q, hq⟩ := h
  exact ⟨q, kinds_put hp hq⟩

theorem Graph.Closed.count_eq_zero {P : DirEntry → Bool} (h : g.Closed)
    (hfree : ¬g.Has sb ino) (hP : ∀ de, P de = true → de.ino = ino) : g.count sb P = 0 := by
  by_contra hpos
  obtain ⟨d, nd, hd, rfl, de, hde, hPde⟩ := exists_of_count_pos (Nat.pos_of_ne_zero hpos)
  refine hfree ?_
  rw [← hP de hPde]
  exact h d nd hd de hde

theorem Graph.child_put (hq : q ≠ p) : (g.put p new).child name q = g.child name q := by
  rw [child, child, put_of_ne hq]

theorem Graph.Closed.namesOf_put (h : g.Closed) (hfin : PartialMap.Finite g) (hp : g p = none)
    (hfree : ¬g.Has new.sb new.ino) (hnew : ∀ de ∈ new.entries, plain de.name = false)
    (n : Vertex) : (g.put p new).namesOf n = g.namesOf n ∧ (g.put p new).namesOf new = 0 := by
  have hcount : ∀ n : Vertex, (g.put p new).namesOf n = g.namesOf n := by
    intro n
    have hhits : new.hits n.sb (plainly n.ino) = 0 := by
      rw [hits]
      split_ifs
      · refine countP_eq_zero.mpr ?_
        intro de hde
        rw [plainly, hnew de hde, Bool.false_and]
        exact Bool.false_ne_true
      · rfl
    rw [namesOf, count_put hfin hp, hhits, add_zero, namesOf]
  refine ⟨hcount n, ?_⟩
  rw [hcount, namesOf]
  refine h.count_eq_zero hfree ?_
  intro de hde
  rw [plainly, Bool.and_eq_true] at hde
  exact eq_of_beq hde.2

theorem DirNames.put (h : DirNames g) (hclosed : g.Closed) (hfin : PartialMap.Finite g)
    (hp : g p = none) (hfree : ¬g.Has new.sb new.ino) (hnew : ∀ de ∈ new.entries, plain de.name =
      false)
    (hdot : new.isDir = true → (g.put p new).child dotName p = some new.ino)
    (hdotdot : new.isDir = true →
      ∃ k, (g.put p new).child dotdotName p = some k ∧ (g.put p new).HasDir new.sb k) :
    DirNames (g.put p new) := by
  have hnames := hclosed.namesOf_put hfin hp hfree hnew
  refine ⟨?_, ?_, ?_, ?_⟩
  · intro q n hq hdir
    rcases put_eq_some hq with ⟨-, rfl⟩ | ⟨-, hq⟩
    · rw [(hnames n).2]
      exact Nat.zero_le 1
    · rw [(hnames n).1]
      exact h.once hq hdir
  · intro q n hq hdir hself
    rcases put_eq_some hq with ⟨-, rfl⟩ | ⟨hne, hq⟩
    · exact (hnames n).2
    · rw [child_put hne] at hself
      rw [(hnames n).1]
      exact h.root hq hdir hself
  · intro q n hq hdir
    rcases put_eq_some hq with ⟨rfl, rfl⟩ | ⟨hne, hq⟩
    · exact hdot hdir
    · rw [child_put hne]
      exact h.dot hq hdir
  · intro q n hq hdir
    rcases put_eq_some hq with ⟨rfl, rfl⟩ | ⟨hne, hq⟩
    · exact hdotdot hdir
    · obtain ⟨k, hk, hhas⟩ := h.dotdot hq hdir
      refine ⟨k, ?_, hhas.put hp⟩
      rw [child_put hne]
      exact hk

/-! ## Edits -/

/-- What an operation does to the graph when it acts on what its directory lists. -/
inductive Edit (g : Graph) where
  /-- A new file with `k` links is listed. -/
  | addFile (d p : Ptr) (nd : Vertex) (name : Name) (n k : Nat) (hd : g d = some nd)
      (hp : g p = none)
    (hfree : ¬g.Has nd.sb n) (hname : plain name = true)
  /-- A new directory is listed in a directory. -/
  | addDir (d p : Ptr) (nd : Vertex) (name : Name) (n : Nat) (hd : g d = some nd)
    (hdir : nd.isDir = true) (hp : g p = none) (hfree : ¬g.Has nd.sb n) (hname : plain name = true)
  /-- The root of a new file system. -/
  | addRoot (p sb : Ptr) (n : Nat) (hp : g p = none) (hfree : ∀ k, ¬g.Has sb k)
  /-- A file gets another name. -/
  | link (d p : Ptr) (nd np : Vertex) (name : Name) (hd : g d = some nd) (hp : g p = some np)
    (hfile : np.isDir = false) (hsb : np.sb = nd.sb) (hname : plain name = true)
  | unlink (d q : Ptr) (nd nq : Vertex) (name : Name) (h : g.Lists d nd name q nq)
    (hfile : nq.isDir = false)
  | rmdir (d q : Ptr) (nd nq : Vertex) (name : Name) (h : g.Lists d nd name q nq)
    (hd : nd.isDir = true) (hdir : nq.isDir = true) (hempty : dirEmpty nq.entries = true)
  | rename (d p : Ptr) (nd np : Vertex) (name newName : Name) (h : g.Lists d nd name p np)
    (hnew : plain newName = true)
  | moveFile (d p d' : Ptr) (nd np nd' : Vertex) (name newName : Name) (h : g.Lists d nd name p np)
    (hfile : np.isDir = false) (hd' : g d' = some nd') (hsb : np.sb = nd'.sb)
    (hnew : plain newName = true) (hne : d ≠ d')
  | moveDir (d p d' : Ptr) (nd np nd' : Vertex) (name newName : Name) (h : g.Lists d nd name p np)
    (hdir : np.isDir = true) (hd : nd.isDir = true) (hd' : g d' = some nd')
      (hdir' : nd'.isDir = true)
    (hsb : np.sb = nd'.sb) (hnew : plain newName = true) (hne : d ≠ d') (hself : d' ≠ p)

def Edit.graph : Edit g → Graph
  | addFile d p nd name n k .. =>
    (g.put p ⟨n, nd.sb, false, k, []⟩).edit d (add ⟨name, n⟩)
  | addDir d p nd name n .. =>
    ((g.put p (newDir n nd.sb nd.ino)).edit d (add ⟨name, n⟩)).edit d countUp
  | addRoot p sb n .. => g.put p (newDir n sb n)
  | link d p _ np name .. => (g.edit d (add ⟨name, np.ino⟩)).edit p countUp
  | unlink d q _ _ name .. => (g.edit d (remove name)).edit q countDown
  | rmdir d q _ _ name .. =>
    ((g.edit d (remove name)).edit q countDown).edit d countDown
  | rename d _ _ _ name newName .. => g.edit d (Vertex.rename name newName)
  | moveFile d _ d' _ np _ name newName .. =>
    (g.edit d' (add ⟨newName, np.ino⟩)).edit d (remove name)
  | moveDir d p d' _ np nd' name newName .. =>
    ((((g.edit d' (add ⟨newName, np.ino⟩)).edit d (remove name)).edit p
      (point dotdotName nd'.ino)).edit d countDown).edit d' countUp

/-- What edits preserve. -/
structure Sound (g : Graph) : Prop where
  finite : PartialMap.Finite g
  distinct : g.Distinct
  closed : g.Closed
  names : DirNames g

theorem Sound.empty (h : ∀ p, g p = none) : Sound g where
  finite := by
    have hnone : {p | g p ≠ none} = ∅ := Set.eq_empty_of_forall_notMem fun p hp => hp (h p)
    rw [PartialMap.Finite, hnone]
    exact Set.finite_empty
  distinct := by
    intro p q ino sb b b' hp
    rw [kinds, h p] at hp
    cases hp
  closed := by
    intro d nd hd
    rw [h d] at hd
    cases hd
  names := by
    refine ⟨?_, ?_, ?_, ?_⟩
    all_goals
      intro p n hp
      rw [h p] at hp
      cases hp

theorem Graph.Distinct.congr (h : g.Distinct) (hk : g'.kinds = g.kinds) : g'.Distinct := by
  intro p q ino sb b b' hp hq
  rw [hk] at hp hq
  exact h hp hq

theorem Sound.le (h : Sound g) (hs : NoNewNames g g') (hfin : PartialMap.Finite g')
    (hclosed : g'.Closed) : Sound g' :=
  ⟨hfin, h.distinct.congr hs.kinds, hclosed, h.names.le hs⟩

theorem Sound.countUp (h : Sound g) : Sound (g.edit p countUp) :=
  h.le (noNewNames_countUp h.finite) (finite_edit h.finite _ _) h.closed.countUp

theorem Sound.countDown (h : Sound g) : Sound (g.edit p countDown) :=
  h.le (noNewNames_countDown h.finite) (finite_edit h.finite _ _) h.closed.countDown

theorem Graph.Closed.list (h : g.Closed) (hd : g d = some nd) (hq : g q = some nq)
    (hsb : nq.sb = nd.sb) : (g.edit d (Vertex.add ⟨name, nq.ino⟩)).Closed := by
  refine h.add ?_
  intro n hn
  cases hd.symm.trans hn
  rw [← hsb]
  exact has_of_some hq

theorem Sound.addFile (h : Sound g) (hd : g d = some nd) (hq : g q = some nq)
    (hfile : nq.isDir = false) (hsb : nq.sb = nd.sb) (hname : plain name = true) :
    Sound (g.edit d (add ⟨name, nq.ino⟩)) := by
  exact h.le (noNewNames_addFile h.finite h.distinct hd hq hfile hsb hname)
    (finite_edit h.finite _ _) (h.closed.list hd hq hsb)

theorem Graph.Lists.sound_remove (h : g.Lists d nd name q nq) (hs : Sound g) :
    Sound (g.edit d (remove name)) :=
  hs.le (h.noNewNames_remove hs.finite) (finite_edit hs.finite _ _) (hs.closed.remove name)

theorem newDir_not_plain (n sb parentIno : Nat) :
    ∀ de ∈ (newDir n sb parentIno).entries, plain de.name = false := by
  intro de hde
  rcases mem_cons.mp hde with rfl | hde
  · rfl
  · rw [mem_singleton.mp hde]
    rfl

theorem Sound.putDir {n parentIno : Nat} (h : Sound g) (hp : g p = none) (hfree : ¬g.Has sb n)
    (hparent : (g.put p (newDir n sb parentIno)).HasDir sb parentIno) :
    Sound (g.put p (newDir n sb parentIno)) := by
  have hself : (g.put p (Fs.newDir n sb parentIno)).Has sb n := has_of_some put_self
  refine ⟨finite_put h.finite _ _, h.distinct.put hfree, h.closed.put hp ?_, ?_⟩
  · intro de hde
    rcases mem_cons.mp hde with rfl | hde
    · exact hself
    · rw [mem_singleton.mp hde]
      exact hparent.has
  · refine h.names.put h.closed h.finite hp hfree (newDir_not_plain n sb parentIno) ?_ ?_
    · intro _
      rw [child_of_some put_self]
      rfl
    · intro _
      refine ⟨parentIno, ?_, hparent⟩
      rw [child_of_some put_self]
      rfl

theorem Graph.Distinct.namesOf_add (h : g.Distinct) (hfin : PartialMap.Finite g)
    (hd : g d = some nd)
    (hq : g q = some nq) (hsb : nq.sb = nd.sb) (hname : plain name = true) (hp : g p = some n) :
    (g.edit d (add ⟨name, nq.ino⟩)).namesOf n = g.namesOf n + if p = q then 1 else 0 := by
  rw [namesOf, namesOf, count_add hfin hd]
  congr 1
  refine if_congr ?_ rfl rfl
  rw [plainly, hname, Bool.true_and, beq_iff_eq, ← hsb]
  refine ⟨fun hnq => (h.eq hq hp hnq.1 hnq.2).symm, ?_⟩
  rintro rfl
  cases hq.symm.trans hp
  exact ⟨rfl, rfl⟩

theorem Sound.addDir (h : Sound g) (hd : g d = some nd) (hq : g q = some nq) (hsb : nq.sb = nd.sb)
    (hname : plain name = true) (hzero : g.namesOf nq = 0)
    (hroot : g.child dotdotName q ≠ some nq.ino) :
    Sound (g.edit d (add ⟨name, nq.ino⟩)) := by
  refine ⟨finite_edit h.finite _ _, h.distinct.congr (kinds_add _), h.closed.list hd hq hsb,
    h.names.change (kinds_add _) (child_add (ne_of_plain hname rfl)) ?_⟩
  intro p m hp hdir
  -- one more for the directory itself, as many as before for the others
  rw [h.distinct.namesOf_add h.finite hd hq hsb hname hp, child_add (ne_of_plain hname rfl)]
  refine ⟨?_, ?_, h.names.dotdot hp hdir⟩
  · split_ifs with hpq
    · subst hpq
      cases hq.symm.trans hp
      rw [hzero]
    · exact h.names.once hp hdir
  · intro hself
    have hpq : p ≠ q := by
      rintro rfl
      cases hq.symm.trans hp
      exact hroot hself
    rw [if_neg hpq, add_zero]
    exact h.names.root hp hdir hself

theorem Graph.namesOf_point (hfin : PartialMap.Finite g) (hp : g p = some np) (k : Nat)
    (n : Vertex) : (g.edit p (point dotdotName k)).namesOf n = g.namesOf n := by
  refine count_point hfin hp (fun _ de hl => ?_) fun _ => rfl
  rw [plainly, lookup_name hl]
  rfl

theorem DirNames.child_point (h : DirNames g) (hp : g p = some np) (hnp : np.isDir = true)
    (k : Nat) :
    (g.edit p (point dotdotName k)).child dotdotName =
      update (g.child dotdotName) p (some k) := by
  refine Graph.child_point _ _ ?_
  obtain ⟨j, hj, -⟩ := h.dotdot hp hnp
  rw [hj]
  exact some_ne_none j

theorem Sound.point {k : Nat} (h : Sound g) (hp : g p = some np) (hnp : np.isDir = true)
    (hparent : g.HasDir np.sb k) (hself : k ≠ np.ino) :
    Sound (g.edit p (Vertex.point dotdotName k)) := by
  have hclosed : (g.edit p (Vertex.point dotdotName k)).Closed := by
    refine h.closed.point _ ?_
    intro n hn
    cases hp.symm.trans hn
    exact hparent.has
  have hne : dotName ≠ dotdotName := by decide
  have hdot : (g.edit p (Vertex.point dotdotName k)).child dotName = g.child dotName :=
    child_edit fun _ => lookup_replaceEntry hne (fun _ => hne) _
  refine ⟨finite_edit h.finite _ _, h.distinct.congr (kinds_point _ _), hclosed,
    h.names.change (kinds_point _ _) hdot ?_⟩
  intro q m hq hdir
  rw [namesOf_point h.finite hp, h.names.child_point hp hnp]
  by_cases hqp : q = p
  · subst hqp
    cases hp.symm.trans hq
    rw [update_self]
    exact ⟨h.names.once hq hdir, fun hk => absurd (some.inj hk) hself, k, rfl, hparent⟩
  · rw [update_of_ne hqp]
    exact ⟨h.names.once hq hdir, h.names.root hq hdir, h.names.dotdot hq hdir⟩

theorem Graph.Lists.sound_move (h : g.Lists d nd name p np) (hs : Sound g) (hd' : g d' = some nd')
    (hsb : np.sb = nd'.sb) (hnew : plain newName = true) (hne : d ≠ d') :
    Sound ((g.edit d' (add ⟨newName, np.ino⟩)).edit d (remove name)) := by
  exact hs.le (h.noNewNames_move hs.finite hd' hsb hnew hne)
    (finite_edit (finite_edit hs.finite _ _) _ _) ((hs.closed.list hd' h.inode hsb).remove name)

theorem Sound.putFile {k : Nat} (h : Sound g) (hp : g p = none) (hfree : ¬g.Has sb ino) :
    Sound (g.put p ⟨ino, sb, false, k, []⟩) := by
  have hnone : ∀ de ∈ (⟨ino, sb, false, k, []⟩ : Vertex).entries, plain de.name = false := by
    intro de hde
    cases hde
  refine ⟨finite_put h.finite _ _, h.distinct.put hfree, h.closed.put hp ?_, ?_⟩
  · intro de hde
    cases hde
  · refine h.names.put h.closed h.finite hp hfree hnone ?_ ?_
    · intro hdir
      cases hdir
    · intro hdir
      cases hdir

theorem Sound.addNewDir {n : Nat} (h : Sound g) (hd : g d = some nd) (hdir : nd.isDir = true)
    (hp : g p = none) (hfree : ¬g.Has nd.sb n) (hname : plain name = true) :
    Sound ((g.put p (newDir n nd.sb nd.ino)).edit d (add ⟨name, n⟩)) := by
  have hparent : (g.put p (newDir n nd.sb nd.ino)).HasDir nd.sb nd.ino :=
    (hasDir_of_some hd hdir).put hp
  have hd1 : (g.put p (newDir n nd.sb nd.ino)) d = some nd := put_of_some hp hd
  have hzero : (g.put p (newDir n nd.sb nd.ino)).namesOf (newDir n nd.sb nd.ino) = 0 :=
    (h.closed.namesOf_put h.finite hp hfree (newDir_not_plain n nd.sb nd.ino) nd).2
  have hroot : (g.put p (newDir n nd.sb nd.ino)).child dotdotName p ≠ some n := by
    rw [child_of_some put_self]
    intro hino
    refine hfree ?_
    rw [← some.inj hino]
    exact has_of_some hd
  exact (h.putDir hp hfree hparent).addDir hd1 put_self rfl hname hzero hroot

theorem Graph.Lists.sound_moveDir (hl : g.Lists d nd name p np) (h : Sound g)
    (hdir : np.isDir = true) (hd' : g d' = some nd') (hdir' : nd'.isDir = true)
    (hsb : np.sb = nd'.sb) (hnew : plain newName = true) (hne : d ≠ d') (hself : d' ≠ p) :
    Sound (((g.edit d' (add ⟨newName, np.ino⟩)).edit d (remove name)).edit p
      (point dotdotName nd'.ino)) := by
  have hkinds : ((g.edit d' (add ⟨newName, np.ino⟩)).edit d (remove name)).kinds =
      g.kinds := by
    rw [kinds_remove, kinds_add]
  obtain ⟨m, hm, hk⟩ := exists_of_kinds hkinds.symm hl.inode
  obtain ⟨hino, hsb', hisdir⟩ := kind_eq_iff.mp hk
  refine (hl.sound_move h hd' hsb hnew hne).point hm (hisdir.symm.trans hdir) ?_ ?_
  · obtain ⟨r, hr⟩ := hasDir_of_some hd' hdir'
    refine ⟨r, ?_⟩
    rw [hkinds, ← hsb', hsb]
    exact hr
  · intro heq
    exact hself (h.distinct.eq hd' hl.inode hsb.symm (heq.trans hino.symm))

theorem Sound.edit (h : Sound g) (e : Edit g) : Sound e.graph := by
  cases e with
  | addFile d p nd name n k hd hp hfree hname =>
    exact (h.putFile hp hfree).addFile (put_of_some hp hd) put_self rfl rfl hname
  | addDir d p nd name n hd hdir hp hfree hname =>
    exact (h.addNewDir hd hdir hp hfree hname).countUp
  | addRoot p sb n hp hfree =>
    exact h.putDir hp (hfree n) (hasDir_of_some put_self rfl)
  | link d p nd np name hd hp hfile hsb hname => exact (h.addFile hd hp hfile hsb hname).countUp
  | unlink d q nd nq name hl hfile => exact (hl.sound_remove h).countDown
  | rmdir d q nd nq name hl hd hdir hempty => exact (hl.sound_remove h).countDown.countDown
  | rename d p nd np name newName hl hnew =>
    exact h.le (hl.noNewNames_rename h.finite hnew) (finite_edit h.finite _ _)
      (h.closed.rename name newName)
  | moveFile d p d' nd np nd' name newName hl hfile hd' hsb hnew hne =>
    exact hl.sound_move h hd' hsb hnew hne
  | moveDir d p d' nd np nd' name newName hl hdir hd hd' hdir' hsb hnew hne hself =>
    exact (hl.sound_moveDir h hdir hd' hdir' hsb hnew hne hself).countDown.countUp

end ShiziOS.Fs
