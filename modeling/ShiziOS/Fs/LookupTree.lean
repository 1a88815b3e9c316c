import ShiziOS.Fs.Resolve

/-!
# The tree that a state holds

The nodes are the inodes. A directory leads from a name over the number of its entry and
the inode cache to an inode. In a state that holds a tree (`Vfs.IsTree`) the searches in the
caches come to an end and the dentries in the cache agree with the entries.

A lookup keeps all of this, and with a heap that grants every request it finds for each name
the inode that the tree has under it.
-/

namespace ShiziOS.Fs

open Exec Option

/-! ## Nodes -/

def Vfs.entry (s : Vfs) (env : Env) (i : Inode) (name : Name) : Option Ptr :=
  (tmpfsDirLookup i.dirList name).bind fun de =>
    (s.sbs.get i.sb).bind fun b => (s.icached env b.dev de.ino).join

def Vfs.node (s : Vfs) (env : Env) (p : Ptr) : Node Ptr :=
  match s.inodes.get p with
  | none => .file
  | some i =>
    if sIsdir i.mode then .dir (s.entry env i)
    else if sIslnk i.mode then .link (i.symlinkTarget.getD [])
    else .file

/-- An inode of a directory, a file or a link. -/
structure Inode.IsNode (s : Vfs) (i : Inode) : Prop where
  hasOps : i.hasOps = true
  sb : ∃ b, s.sbs.get i.sb = some b
  entries : sIsdir i.mode = true ∨ i.dirList = []
  target : sIslnk i.mode = true → ∃ target, i.symlinkTarget = some target ∧
    i.data.dataSize = target.length ∧ target.length < pathMax

/-- A dentry in the cache lies in a node and agrees with what is under its name. -/
def Vfs.Agrees (s : Vfs) (env : Env) (parent : Ptr) (name : Name) (d : Ptr) : Prop :=
  ∃ v n i w, s.dentries.get parent = some v ∧ v.inode = some n ∧ s.inodes.get n = some i ∧
    s.dentries.get d = some w ∧ w.inode = s.entry env i name

/-- A path on the root mount leads to a directory. -/
structure Vfs.IsDir (s : Vfs) (env : Env) (p : Path) (n : Ptr) : Prop where
  mnt : p.mnt = env.vfsRoot.mnt
  inode : ∃ d, s.dentries.get p.dentry = some d ∧ d.inode = some n
  dir : ∃ i, s.inodes.get n = some i ∧ sIsdir i.mode = true

/-- The state holds one tree of directories, files and links, with `root` as the root. -/
structure Vfs.IsTree (s : Vfs) (env : Env) (root : Ptr) : Prop where
  inodes : ∀ p i, s.inodes.get p = some i → i.IsNode s
  icached : ∀ dev ino, s.icached env dev ino ≠ none
  cached : ∀ parent name, s.cached env parent name ≠ none
  agrees : ∀ parent name d, s.cached env parent name = some (some d) → s.Agrees env parent name d
  unmounted : ∀ p d, s.dentries.get p = some d → d.mounted = false
  root : s.IsDir env env.vfsRoot root
  mount : ∃ m, s.mounts.get env.vfsRoot.mnt = some m ∧ 0 < m.count

def Vfs.tree (s : Vfs) (env : Env) (root : Ptr) : Tree Ptr := ⟨root, s.node env⟩

@[simp] theorem Vfs.tree_root (s : Vfs) (env : Env) (root : Ptr) : (s.tree env root).root = root :=
  rfl

theorem sIsdir_of_sIslnk {mode : Mode} (h : sIslnk mode = true) : sIsdir mode = false := by
  rw [sIslnk, beq_iff_eq] at h
  rw [sIsdir, h]
  rfl

variable {env : Env} {s0 s s' : Vfs}

variable {i : Inode} {name : Name} {p parent root : Ptr} {r : Option Ptr} {d v : Dentry}

theorem Vfs.entry_inode {q : Ptr} (h : s.entry env i name = some q) :
    ∃ v, s.inodes.get q = some v := by
  obtain ⟨de, -, h⟩ := bind_eq_some_iff.mp h
  obtain ⟨b, -, h⟩ := bind_eq_some_iff.mp h
  have hfound := hashWalk_found (join_eq_some_iff.mp h)
  rw [inodeIs] at hfound
  cases hv : s.inodes.get q with
  | none => rw [hv] at hfound; cases hfound
  | some v => exact ⟨v, rfl⟩

theorem Vfs.entry_empty (h : i.dirList = []) (name : Name) : s.entry env i name = none := by
  rw [entry, h]
  rfl

section

variable (hi : s.inodes.get p = some i)
include hi

theorem Vfs.node_dir (hd : sIsdir i.mode = true) : s.node env p = .dir (s.entry env i) := by
  simp only [node, hi, if_pos hd]

theorem Vfs.node_not_dir (hd : ¬sIsdir i.mode = true) (entry : Name → Option Ptr) :
    s.node env p ≠ .dir entry := by
  simp only [node, hi, if_neg hd]
  split_ifs <;> simp

theorem Vfs.node_link (hl : sIslnk i.mode = true) {target : List Char}
    (ht : i.symlinkTarget = some target) : s.node env p = .link target := by
  have hd : ¬sIsdir i.mode = true := by simp [sIsdir_of_sIslnk hl]
  simp only [node, hi, if_neg hd, if_pos hl, ht, Option.getD_some]

theorem Vfs.node_not_link (hl : ¬sIslnk i.mode = true) (target : List Char) :
    s.node env p ≠ .link target := by
  simp only [node, hi, if_neg hl]
  split_ifs <;> simp

end

/-! ## Searches in states that differ in counters -/

theorem hashWalk_none (next : Ptr → Option (Option Ptr)) (eq : Ptr → Bool) (fuel : Nat) :
    hashWalk next eq fuel none = some none := by
  cases fuel <;> rfl

theorem hashWalk_congr {next next' : Ptr → Option (Option Ptr)} {eq eq' : Ptr → Bool}
    (hn : ∀ p n, next p = some n → next' p = some n ∧ eq' p = eq p) {fuel fuel' : Nat}
    (hf : fuel ≤ fuel') {head : Option Ptr} (h : hashWalk next eq fuel head = some r) :
    hashWalk next' eq' fuel' head = some r := by
  induction fuel generalizing head fuel' with
  | zero =>
    cases head with
    | none =>
      rw [hashWalk_none] at h ⊢
      exact h
    | some p => cases h
  | succ fuel ih =>
    cases head with
    | none =>
      rw [hashWalk_none] at h ⊢
      exact h
    | some p =>
      cases fuel' with
      | zero => cases hf
      | succ fuel' =>
        rw [hashWalk] at h ⊢
        cases hp : next p with
        | none => rw [hp] at h; cases h
        | some n =>
          obtain ⟨hn', he⟩ := hn p n hp
          simp only [hp, hn', he] at h ⊢
          split_ifs at h ⊢ with hq
          · exact h
          · exact ih (Nat.le_of_succ_le_succ hf) h

theorem Quiet.cached (h : Quiet s0 s)
    (hc : s0.cached env parent name = some r) : s.cached env parent name = some r := by
  rw [Vfs.cached, h.dentryCache]
  refine hashWalk_congr ?_ h.dentriesNext hc
  intro p n hp
  obtain ⟨d, hd, rfl⟩ := map_eq_some_iff.mp hp
  obtain ⟨d', hd', hcore⟩ := h.dentries p d hd
  have hnext : d'.hashNext = d.hashNext := (congrArg Dentry.hashNext hcore :)
  refine ⟨by rw [hd', map_some, hnext], ?_⟩
  simp only [Vfs.dentryIs, hd, hd', Dentry.parent_eq hcore, Dentry.name_eq hcore]

theorem Quiet.devOf (h : Quiet s0 s) (p : Ptr) : s.devOf p = s0.devOf p := by
  rw [Vfs.devOf, Vfs.devOf, h.sbs]
  cases hi : s0.inodes.get p with
  | none =>
    have hp := h.inodes p
    rw [hi, map_none, map_eq_none_iff] at hp
    rw [hp]
  | some i =>
    obtain ⟨i', hi', hcore⟩ := h.inode hi
    have hsb : i'.sb = i.sb := (congrArg Inode.sb hcore :)
    rw [hi', bind_some, bind_some, hsb]

theorem Quiet.icached {dev ino : Nat} (h : Quiet s0 s)
    (hc : s0.icached env dev ino = some r) : s.icached env dev ino = some r := by
  rw [Vfs.icached, h.inodeCache]
  refine hashWalk_congr ?_ (le_of_eq h.inodesNext.symm) hc
  intro p n hp
  obtain ⟨b, hb, hp⟩ := bind_eq_some_iff.mp hp
  obtain ⟨i, hi, rfl⟩ := map_eq_some_iff.mp hp
  obtain ⟨i', hi', hcore⟩ := h.inode hi
  have hnext : i'.hashNext = i.hashNext := (congrArg Inode.hashNext hcore :)
  have hino : i'.ino = i.ino := (congrArg Inode.ino hcore :)
  refine ⟨by rw [h.devOf, hb, hi', bind_some, map_some, hnext], ?_⟩
  simp only [Vfs.inodeIs, hi, hi', h.devOf, hino]

/-! ## Lookups that get what they ask for -/

def Granting (heap : Oracle) : Prop := ∀ k pages, heap k pages ≠ none

/-- A mount with more than `k` references. -/
def Alive (s : Vfs) (mnt : Ptr) (k : Nat) : Prop :=
  ∃ m, s.mounts.get mnt = some m ∧ (k : Int) < m.count

theorem total_kheapAlloc {size : Nat} {Q : Option Nat → Vfs → Prop}
    (hg : s.heap 0 ((size + pageSize - 1) / pageSize) ≠ none) (hs : 0 < size) (hm : size ≤ kheapMax)
    (h : ∀ a, Q (some a) { s with heap := fun k => s.heap (k + 1) }) :
    Total (kheapAlloc size) s Q := by
  obtain ⟨a, ha⟩ := ne_none_iff_exists'.mp hg
  refine ⟨some a, _, ?_, h a⟩
  rw [kheapAlloc_apply, if_neg (by omega), ha]

theorem Granting.tail {heap : Oracle} (h : Granting heap) : Granting fun k => heap (k + 1) :=
  fun k pages => h (k + 1) pages

theorem vfsDcacheFind_none (h : s.cached env parent name = some none) :
    vfsDcacheFind env parent name s = some (none, s) := by
  apply Total.eq_some
  exact total_get (total_bind (total_ofOption h (total_pure ⟨rfl, rfl⟩)))

theorem total_vfsDcacheFind {d : Ptr} {Q : Option Ptr → Vfs → Prop}
    (h : s.cached env parent name = some (some d))
    (hq : Q (some d) { s with dentries := s.dentries.modify d fun v => { v with count :=
  v.count + 1 } }) :
    Total (vfsDcacheFind env parent name) s Q := by
  obtain ⟨v, hv, -, -⟩ := Vfs.cached_found h
  exact total_get (total_bind (total_ofOption h (total_bind
    (total_setDentry hv (total_pure hq)))))

theorem total_vfsIcacheFind {sb ino : Nat} {b : SuperBlock} {Q : Option Ptr → Vfs →
    Prop}
    (hb : s.sbs.get sb = some b) (h : s.icached env b.dev ino = some r)
    (hnone : r = none → Q none s)
    (hsome : ∀ i, r = some i →
      Q (some i) { s with inodes := s.inodes.modify i fun v => { v with count := v.count + 1 } }) :
    Total (vfsIcacheFind env sb ino) s Q := by
  apply total_bind
  apply total_sbAt hb
  apply total_get
  apply total_bind
  apply total_ofOption h
  cases r with
  | none => exact total_pure (hnone rfl)
  | some i =>
    have hi := hashWalk_found h
    rw [Vfs.inodeIs] at hi
    cases hv : s.inodes.get i with
    | none => rw [hv] at hi; cases hi
    | some v => exact total_bind (total_setInode hv (total_pure (hsome i rfl)))

theorem tmpfsLookup_total {dir dentry : Ptr} (hq : Quiet s0 s)
    (hic : ∀ dev ino, s0.icached env dev ino ≠ none) (hi : s0.inodes.get dir = some i)
    (hsb : ∃ b, s0.sbs.get i.sb = some b) (hd : s.dentries.get dentry = some d)
    (hn : d.inode = none) :
    Total (tmpfsLookup env dir dentry) s fun r s' => r = dentry ∧ s'.mounts = s.mounts ∧
      s'.heap = s.heap ∧ s'.dentries.get dentry = some
        { d with inode := s0.entry env i d.name } := by
  obtain ⟨b, hb⟩ := hsb
  obtain ⟨i', hi', hcore⟩ := hq.inode hi
  have hlist : i'.dirList = i.dirList := (congrArg Inode.dirList hcore :)
  have hsb' : i'.sb = i.sb := (congrArg Inode.sb hcore :)
  have hself : d = { d with inode := none } := by rw [← hn]
  apply total_inodeAt hi'
  apply total_dentryAt hd
  rw [hlist, hsb', Vfs.entry, hb]
  cases hde : tmpfsDirLookup i.dirList d.name with
  | none => exact total_pure ⟨rfl, rfl, rfl, hd.trans (congrArg some hself)⟩
  | some de =>
    obtain ⟨r, hr⟩ := ne_none_iff_exists'.mp (hic b.dev de.ino)
    have hb' : s.sbs.get i.sb = some b := by rw [hq.sbs, hb]
    apply total_bind
    apply total_vfsIcacheFind hb' (hq.icached hr)
    · rintro rfl
      rw [bind_some, bind_some, hr]
      exact total_pure ⟨rfl, rfl, rfl, hd.trans (congrArg some hself)⟩
    · rintro q rfl
      rw [bind_some, bind_some, hr]
      apply total_bind
      refine total_setDentry hd (total_pure ⟨rfl, rfl, rfl, ?_⟩)
      rw [Store.get_modify_self, hd]
      rfl

theorem vfsDalloc_total (hg : Granting s.heap)
    (hl : name.length + 1 ≤ kheapMax) (hc : s.cached env parent name = some none)
    (hp : s.dentries.get parent = some v) :
    Total (vfsDalloc env parent name) s fun r s' => r = some s.dentries.next ∧ s'.mounts =
      s.mounts ∧
      Granting s'.heap ∧ s'.dentries.get s.dentries.next = some ⟨some parent, name, none, 1, false,
        none⟩ := by
  apply total_bind
  refine ⟨none, s, vfsDcacheFind_none hc, ?_⟩
  apply total_bind
  apply total_kheapAlloc (hg _ _) Nat.one_pos (by decide)
  intro a
  apply total_bind
  refine total_setDentry (s := { s with heap := fun k => s.heap (k + 1) }) hp ?_
  apply total_bind
  apply total_kheapAlloc (hg.tail _ _) (Nat.succ_pos _) hl
  intro b
  exact total_get (total_bind (total_modify (total_pure
    ⟨rfl, rfl, hg.tail.tail, Store.get_alloc_self⟩)))

theorem Vfs.IsTree.uncached (ht : s0.IsTree env root) (hq : Quiet s0 s)
    (hp : s.dentries.get parent = some v) (hi : v.inode = none) (name : Name) :
    s.cached env parent name = some none := by
  obtain ⟨r, hr⟩ := ne_none_iff_exists'.mp (ht.cached parent name)
  cases r with
  | none => exact hq.cached hr
  | some d =>
    obtain ⟨v0, n, i, w, hv0, hn, -⟩ := ht.agrees parent name d hr
    obtain ⟨v', hv', hinode, -⟩ := hq.dentry hv0
    have hv : v' = v := some.inj (hv'.symm.trans hp)
    rw [hv, hi, hn] at hinode
    cases hinode

theorem prsDentry_total {n : Ptr} (ht : s0.IsTree env root) (hq : Quiet s0 s) (hg : Granting s.heap)
    (hl : name.length + 1 ≤ kheapMax)
    (hp : s.dentries.get parent = some v) (hn : v.inode = some n) (hi : s0.inodes.get n = some i) :
    Total (prsDentry env parent name) s fun d s' => s'.mounts = s.mounts ∧ Granting s'.heap ∧
      ∃ w, s'.dentries.get d = some w ∧ w.inode = s0.entry env i name ∧ w.mounted = false := by
  obtain ⟨r, hr⟩ := ne_none_iff_exists'.mp (ht.cached parent name)
  have hc := hq.cached hr
  apply total_bind
  cases r with
  | some d =>
    apply total_vfsDcacheFind hc
    obtain ⟨v0, n0, i0, w0, hv0, hn0, hi0, hw0, hw⟩ := ht.agrees parent name d hr
    obtain ⟨v', hv', hinode, -⟩ := hq.dentry hv0
    obtain ⟨w', hw', hwi, hwm⟩ := hq.dentry hw0
    have hv : v' = v := some.inj (hv'.symm.trans hp)
    rw [hv, hn, hn0] at hinode
    have hii : i0 = i := some.inj (hi0.symm.trans (some.inj hinode ▸ hi))
    refine total_pure ⟨rfl, hg, { w' with count := w'.count + 1 }, ?_, ?_, ?_⟩
    · rw [Store.get_modify_self, hw', map_some]
    · rw [← hii, ← hw]
      exact hwi
    · exact hwm.trans (ht.unmounted d w0 hw0)
  | none =>
    obtain ⟨i', hi', hcore⟩ := hq.inode hi
    have hnode := ht.inodes n i hi
    have hops : i'.hasOps = i.hasOps := (congrArg Inode.hasOps hcore :)
    refine ⟨none, s, vfsDcacheFind_none hc, ?_⟩
    apply total_bind
    apply total_kheapAlloc (hg _ _) (Nat.succ_pos _) hl
    intro a
    refine ((vfsDalloc_total (s := { s with heap := fun k => s.heap (k + 1) }) hg.tail hl hc
      hp).and_spec (vfsDalloc_spec parent name)).bind ?_
    rintro r s2 ⟨⟨rfl, hm, hg2, hd⟩, hq2, -⟩
    have hq₁₂ : Quiet s s2 := (quiet_heap _).trans hq2
    obtain ⟨v', hv', hvi, -⟩ := hq₁₂.dentry hp
    obtain ⟨i2, hi2, hcore2⟩ := hq₁₂.inode hi'
    have hops2 : i2.hasOps = i'.hasOps := (congrArg Inode.hasOps hcore2 :)
    apply total_dentryInode hv' (hvi.trans hn)
    apply total_inodeAt hi2
    rw [if_pos (by rw [hops2, hops, hnode.hasOps])]
    refine (tmpfsLookup_total (hq.trans hq₁₂) ht.icached hi hnode.sb hd rfl).mono ?_
    rintro r s3 ⟨rfl, hm3, hh3, hd3⟩
    exact ⟨hm3.trans hm, hh3 ▸ hg2, _, hd3, rfl, rfl⟩

theorem prsDentry_null (ht : s0.IsTree env root)
    (hq : Quiet s0 s) (hg : Granting s.heap) (hl : name.length + 1 ≤ kheapMax)
    (hp : s.dentries.get parent = some v) (hn : v.inode = none) :
    prsDentry env parent name s = none := by
  have hc := ht.uncached hq hp hn name
  apply bind_eq_none
  refine ⟨none, s, vfsDcacheFind_none hc, ?_⟩
  apply bind_eq_none
  apply total_kheapAlloc (hg _ _) (Nat.succ_pos _) hl
  intro a
  apply bind_eq_none
  refine ((vfsDalloc_total (s := { s with heap := fun k => s.heap (k + 1) }) hg.tail hl hc
    hp).and_spec (vfsDalloc_spec parent name)).mono ?_
  rintro r s2 ⟨⟨rfl, -, -, -⟩, hq2, -⟩
  obtain ⟨v', hv', hvi, -⟩ := ((quiet_heap _).trans hq2).dentry hp
  have hnull : dentryInode parent s2 = none := by
    rw [dentryInode, Exec.bind_apply, dentryAt_eq hv', Option.bind_some, hvi, hn]
    rfl
  exact bind_eq_none_left hnull

/-! ## References to the mount -/

variable {mnt : Ptr} {k : Nat}

theorem Alive.mounts (h : Alive s mnt k) (hm : s'.mounts = s.mounts) : Alive s' mnt k := by
  rw [Alive, hm]
  exact h

theorem Alive.mono {j : Nat} (h : Alive s mnt k) (hj : j ≤ k) : Alive s mnt j := by
  obtain ⟨m, hm, hk⟩ := h
  exact ⟨m, hm, by omega⟩

theorem total_vfsMntget (h : Alive s mnt k) :
    Total (vfsMntget mnt) s fun _ s' => Alive s' mnt (k + 1) ∧ s'.heap = s.heap ∧ s'.dentries =
      s.dentries := by
  obtain ⟨m, hm, hk⟩ := h
  refine total_setMount hm ⟨⟨{ m with count := m.count + 1 }, ?_, ?_⟩, rfl, rfl⟩
  · rw [Store.get_modify_self, hm, map_some]
  · push_cast
    omega

theorem total_vfsMntput (h : Alive s mnt (k + 1)) :
    Total (vfsMntput mnt) s fun _ s' => Alive s' mnt k ∧ s'.heap = s.heap ∧ s'.dentries =
      s.dentries := by
  obtain ⟨m, hm, hk⟩ := h
  push_cast at hk
  apply total_mountAt hm
  rw [if_neg (by omega)]
  refine total_setMount hm ⟨⟨{ m with count := m.count - 1 }, ?_, ?_⟩, rfl, rfl⟩
  · rw [Store.get_modify_self, hm, map_some]
  · change (k : Int) < m.count - 1
    omega

theorem total_vfsPathGet {p : Path} (h : Alive s p.mnt k) (hd : s.dentries.get p.dentry = some d) :
    Total (vfsPathGet p) s fun _ s' => Alive s' p.mnt (k + 1) ∧ s'.heap = s.heap := by
  refine (total_vfsMntget h).bind ?_
  rintro _ s1 ⟨ha, hh, hds⟩
  exact total_setDentry (hds ▸ hd) ⟨ha.mounts rfl, hh⟩

theorem total_vfsPathPut {p : Path} (h : Alive s p.mnt (k + 1))
    (hd : s.dentries.get p.dentry = some d) :
    Total (vfsPathPut p) s fun _ s' => Alive s' p.mnt k ∧ s'.heap = s.heap := by
  apply total_bind
  refine total_setDentry hd ?_
  refine (total_vfsMntput (k := k) ?_).mono ?_
  · exact h
  · intro _ s1 h1
    exact ⟨h1.1, h1.2.1⟩

end ShiziOS.Fs
