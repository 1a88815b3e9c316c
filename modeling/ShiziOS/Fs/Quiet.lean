import ShiziOS.Fs.Rules

/-!
# What a lookup leaves as it was

A lookup takes and gives back references, makes dentries for the names it has to ask the
file system for, and asks the heap. Otherwise it changes nothing: `Quiet`.

* `prsStep_spec`: a step of the parser leads to the child of the name.
* `keeps_vfsPathLookup`, `keeps_vfsPathParent`: lookups are quiet.
-/

namespace ShiziOS.Fs

open Exec Option

/-! ## Objects without their counters -/

def Inode.core (i : Inode) : Inode := { i with count := 0 }
def Dentry.core (d : Dentry) : Dentry := { d with count := 0 }
def Mount.core (m : Mount) : Mount := { m with count := 0 }

theorem Dentry.parent_eq {d d' : Dentry} (h : d'.core = d.core) : d'.parent = d.parent :=
  (congrArg Dentry.parent h :)

theorem Dentry.name_eq {d d' : Dentry} (h : d'.core = d.core) : d'.name = d.name :=
  (congrArg Dentry.name h :)

/-- Inodes keep all but their counters, and so do the dentries there are. New dentries are in
no bucket of the cache. Mounts may be freed. -/
structure Quiet (s s' : Vfs) : Prop where
  inodes : ∀ p, (s'.inodes.get p).map Inode.core = (s.inodes.get p).map Inode.core
  inodesNext : s'.inodes.next = s.inodes.next
  dentries : ∀ p d, s.dentries.get p = some d → ∃ d', s'.dentries.get p = some d' ∧ d'.core = d.core
  dentriesNext : s.dentries.next ≤ s'.dentries.next
  mounts : ∀ p m', s'.mounts.get p = some m' → ∃ m, s.mounts.get p = some m ∧ m'.core = m.core
  files : s'.files = s.files
  sbs : s'.sbs = s.sbs
  dentryCache : s'.dentryCache = s.dentryCache
  inodeCache : s'.inodeCache = s.inodeCache
  mountRoot : s'.mountRoot = s.mountRoot

variable {env : Env} {s s' : Vfs}

theorem Quiet.refl (s : Vfs) : Quiet s s where
  inodes _ := rfl
  inodesNext := rfl
  dentries _ d hd := ⟨d, hd, rfl⟩
  dentriesNext := le_rfl
  mounts _ m hm := ⟨m, hm, rfl⟩
  files := rfl
  sbs := rfl
  dentryCache := rfl
  inodeCache := rfl
  mountRoot := rfl

theorem Quiet.trans {s1 s2 s3 : Vfs} (h : Quiet s1 s2) (h' : Quiet s2 s3) : Quiet s1 s3 where
  inodes p := (h'.inodes p).trans (h.inodes p)
  inodesNext := h'.inodesNext.trans h.inodesNext
  dentries p d hd := by
    obtain ⟨d2, hd2, hc2⟩ := h.dentries p d hd
    obtain ⟨d3, hd3, hc3⟩ := h'.dentries p d2 hd2
    exact ⟨d3, hd3, hc3.trans hc2⟩
  dentriesNext := h.dentriesNext.trans h'.dentriesNext
  mounts p m hm := by
    obtain ⟨m2, hm2, hc2⟩ := h'.mounts p m hm
    obtain ⟨m1, hm1, hc1⟩ := h.mounts p m2 hm2
    exact ⟨m1, hm1, hc2.trans hc1⟩
  files := h'.files.trans h.files
  sbs := h'.sbs.trans h.sbs
  dentryCache := h'.dentryCache.trans h.dentryCache
  inodeCache := h'.inodeCache.trans h.inodeCache
  mountRoot := h'.mountRoot.trans h.mountRoot

instance : IsPreorder Vfs Quiet where
  refl := Quiet.refl
  trans _ _ _ := Quiet.trans

theorem Quiet.inode {p : Ptr} {i : Inode} (h : Quiet s s') (hi : s.inodes.get p = some i) :
    ∃ i', s'.inodes.get p = some i' ∧ i'.core = i.core := by
  have hp := h.inodes p
  rw [hi, map_some] at hp
  exact map_eq_some_iff.mp hp

theorem Quiet.dentry {p : Ptr} {d : Dentry} (h : Quiet s s') (hd : s.dentries.get p = some d) :
    ∃ d', s'.dentries.get p = some d' ∧ d'.inode = d.inode ∧ d'.mounted = d.mounted := by
  obtain ⟨d', hd', hcore⟩ := h.dentries p d hd
  exact ⟨d', hd', (congrArg Dentry.inode hcore :), (congrArg Dentry.mounted hcore :)⟩

/-- A lookup makes no inodes. -/
theorem Quiet.inode_before {p : Ptr} {i' : Inode} (h : Quiet s s')
    (hi : s'.inodes.get p = some i') : ∃ i, s.inodes.get p = some i ∧ i'.core = i.core := by
  have hp := (h.inodes p).symm
  rw [hi, map_some] at hp
  obtain ⟨i, hs, hc⟩ := map_eq_some_iff.mp hp
  exact ⟨i, hs, hc.symm⟩

/-! ## Counters -/

theorem quiet_modifyInode {p : Ptr} {f : Inode → Inode} (hf : ∀ i, (f i).core = i.core) :
    Quiet s { s with inodes := s.inodes.modify p f } := by
  refine { Quiet.refl s with inodes := ?_, inodesNext := rfl }
  intro q
  by_cases hq : q = p
  · subst hq
    rw [Store.get_modify_self, map_map]
    congr 1
    funext i
    exact hf i
  · rw [Store.get_modify_of_ne f hq]

theorem quiet_modifyDentry {p : Ptr} {f : Dentry → Dentry} (hf : ∀ d, (f d).core = d.core) :
    Quiet s { s with dentries := s.dentries.modify p f } := by
  refine { Quiet.refl s with dentries := ?_, dentriesNext := le_rfl }
  intro q d hd
  by_cases hq : q = p
  · subst hq
    exact ⟨f d, by rw [Store.get_modify_self, hd, map_some], hf d⟩
  · exact ⟨d, by rw [Store.get_modify_of_ne f hq, hd], rfl⟩

theorem quiet_modifyMount {p : Ptr} {f : Mount → Mount} (hf : ∀ m, (f m).core = m.core) :
    Quiet s { s with mounts := s.mounts.modify p f } := by
  refine { Quiet.refl s with mounts := ?_ }
  intro q m' hm
  by_cases hq : q = p
  · subst hq
    rw [Store.get_modify_self] at hm
    obtain ⟨m, hs, rfl⟩ := map_eq_some_iff.mp hm
    exact ⟨m, hs, hf m⟩
  · rw [Store.get_modify_of_ne f hq] at hm
    exact ⟨m', hm, rfl⟩

theorem quiet_eraseMount (p : Ptr) : Quiet s { s with mounts := s.mounts.erase p } := by
  refine { Quiet.refl s with mounts := ?_ }
  intro q m' hm
  by_cases hq : q = p
  · subst hq
    rw [Store.erase] at hm
    simp at hm
  · rw [Store.get_erase_of_ne hq] at hm
    exact ⟨m', hm, rfl⟩

theorem quiet_heap (heap : Oracle) : Quiet s { s with heap := heap } :=
  { Quiet.refl s with }

theorem keeps_kheapAlloc (size : Nat) : Keeps Quiet (kheapAlloc size) :=
  fun _ => spec_kheapAlloc fun _ _ => quiet_heap _

theorem keeps_vfsMntget (p : Ptr) : Keeps Quiet (vfsMntget p) :=
  fun _ => spec_setMount fun _ _ => quiet_modifyMount fun _ => rfl

theorem keeps_vfsMntput (p : Ptr) : Keeps Quiet (vfsMntput p) := by
  apply keeps_bind keeps_mountAt
  intro m
  split_ifs
  · exact fun s => spec_modify (quiet_eraseMount p)
  · exact fun s => spec_setMount fun _ _ => quiet_modifyMount fun _ => rfl

theorem keeps_vfsDget (p : Ptr) : Keeps Quiet (vfsDget p) :=
  fun _ => spec_setDentry fun _ _ => quiet_modifyDentry fun _ => rfl

theorem keeps_vfsDput (p : Ptr) : Keeps Quiet (vfsDput p) :=
  fun _ => spec_setDentry fun _ _ => quiet_modifyDentry fun _ => rfl

theorem keeps_vfsPathGet (p : Path) : Keeps Quiet (vfsPathGet p) :=
  keeps_bind (keeps_vfsMntget _) fun _ => keeps_vfsDget _

theorem keeps_vfsPathPut (p : Path) : Keeps Quiet (vfsPathPut p) :=
  keeps_bind (keeps_vfsDput _) fun _ => keeps_vfsMntput _

/-! ## The name of a dentry in a directory -/

/-- A dentry for a name in a directory. -/
def Vfs.IsChild (s : Vfs) (parent : Ptr) (name : Name) (d : Ptr) : Prop :=
  ∃ v, s.dentries.get d = some v ∧ v.parent = some parent ∧ v.name = name

theorem Quiet.isChild {parent d : Ptr} {name : Name} (h : Quiet s s')
    (hd : s.IsChild parent name d) : s'.IsChild parent name d := by
  obtain ⟨v, hv, hp, hn⟩ := hd
  obtain ⟨v', hv', hc⟩ := h.dentries d v hv
  exact ⟨v', hv', (Dentry.parent_eq hc).trans hp, (Dentry.name_eq hc).trans hn⟩

/-- A dentry that is found is the child of that name. -/
theorem vfsDcacheFind_spec (parent : Ptr) (name : Name) :
    Spec (vfsDcacheFind env parent name) s fun r s' => Quiet s s' ∧
      (r = none → s' = s ∧ s.cached env parent name = some none) ∧
      ∀ d, r = some d → s'.IsChild parent name d := by
  apply spec_vfsDcacheFind
  · intro h
    exact ⟨.refl s, fun _ => ⟨rfl, h⟩, nofun⟩
  · intro d h
    have hq : Quiet s { s with dentries := s.dentries.modify d fun v => { v with count :=
        v.count + 1 } } :=
      quiet_modifyDentry fun _ => rfl
    refine ⟨hq, nofun, ?_⟩
    intro d' hd
    cases hd
    exact hq.isChild (Vfs.cached_found h)

theorem quiet_allocDentry (d : Dentry) : Quiet s { s with dentries := s.dentries.alloc d } := by
  refine { Quiet.refl s with dentries := ?_, dentriesNext := Nat.le_succ _ }
  intro q v hv
  exact ⟨v, Store.get_alloc_of_some hv, rfl⟩

theorem newDentry_spec (parent : Ptr) (name : Name) :
    Spec (newDentry parent name) s fun r s' => Quiet s s' ∧
      ∀ d, r = some d → s.dentries.next ≤ d ∧
        s'.dentries.get d = some ⟨some parent, name, none, 1, false, none⟩ := by
  refine (keeps_kheapAlloc 1 s).bind ?_
  refine unless_none (fun _ h1 => spec_pure ⟨h1, nofun⟩) ?_
  intro a s1 h1
  refine (keeps_vfsDget parent s1).bind ?_
  intro _ s2 h2
  refine (keeps_kheapAlloc (name.length + 1) s2).bind ?_
  refine unless_none (fun _ _ => spec_stuck) ?_
  intro b s3 h3
  apply spec_get
  apply spec_bind
  apply spec_modify
  apply spec_pure
  have hq : Quiet s s3 := (h1.trans h2).trans h3
  refine ⟨hq.trans (quiet_allocDentry _), ?_⟩
  intro d hd
  cases hd
  exact ⟨hq.dentriesNext, Store.get_alloc_self⟩

/-- The dentry is the child of that name, and new if the cache has none. -/
theorem vfsDalloc_spec (parent : Ptr) (name : Name) :
    Spec (vfsDalloc env parent name) s fun r s' => Quiet s s' ∧
      ∀ d, r = some d → s'.IsChild parent name d ∧
        (s.cached env parent name = some none → s.dentries.next ≤ d) := by
  apply spec_bind
  apply spec_vfsDcacheFind
  · intro _
    refine (newDentry_spec parent name).mono ?_
    rintro r s' ⟨hq, hd⟩
    refine ⟨hq, fun d hr => ?_⟩
    obtain ⟨hnext, hnew⟩ := hd d hr
    exact ⟨⟨_, hnew, rfl, rfl⟩, fun _ => hnext⟩
  · intro d hc
    have hq : Quiet s { s with dentries := s.dentries.modify d fun v => { v with count :=
        v.count + 1 } } :=
      quiet_modifyDentry fun _ => rfl
    apply spec_pure
    refine ⟨hq, ?_⟩
    intro d' hd
    cases hd
    refine ⟨hq.isChild (Vfs.cached_found hc), ?_⟩
    intro hn
    rw [hc] at hn
    cases hn

theorem Quiet.modifyNew {s0 : Vfs} {d : Ptr} (h : Quiet s0 s) (hd : s0.dentries.next ≤ d)
    (f : Dentry → Dentry) : Quiet s0 { s with dentries := s.dentries.modify d f } := by
  refine { h with dentries := ?_, dentriesNext := h.dentriesNext }
  intro q v hv
  have hlt := Store.lt_next hv
  obtain ⟨v', hv', hc⟩ := h.dentries q v hv
  exact ⟨v', by rw [Store.get_modify_of_ne f (by omega), hv'], hc⟩

/-- The dentry may get an inode, which is no change where the dentry is new. -/
theorem tmpfsLookup_spec {s0 : Vfs} {dir dentry parent : Ptr} {name : Name} (hq : Quiet s0 s)
    (hnew : s0.dentries.next ≤ dentry) (hd : s.IsChild parent name dentry) :
    Spec (tmpfsLookup env dir dentry) s fun d s' =>
      d = dentry ∧ Quiet s0 s' ∧ s'.IsChild parent name d := by
  apply spec_inodeAt
  intro tdir _
  apply spec_dentryAt
  intro d _
  cases tmpfsDirLookup tdir.dirList d.name with
  | none => exact spec_pure ⟨rfl, hq, hd⟩
  | some de =>
    apply spec_bind
    apply spec_vfsIcacheFind
    · intro b _ _
      exact spec_pure ⟨rfl, hq, hd⟩
    · intro b i _ _
      apply spec_bind
      apply spec_setDentry
      intro v _
      apply spec_pure
      have hi : Quiet s { s with inodes := s.inodes.modify i fun v => { v with count :=
          v.count + 1 } } :=
        quiet_modifyInode fun _ => rfl
      refine ⟨rfl, (hq.trans hi).modifyNew hnew _, ?_⟩
      obtain ⟨v, hv, hp, hn⟩ := hd
      exact ⟨{ v with inode := some i }, by rw [Store.get_modify_self, hv]; rfl, hp, hn⟩

theorem prsDentry_spec (parent : Ptr) (name : Name) :
    Spec (prsDentry env parent name) s fun d s' => Quiet s s' ∧ s'.IsChild parent name d := by
  refine (vfsDcacheFind_spec parent name).bind ?_
  intro r s1 ⟨hq, hnone, hsome⟩
  cases r with
  | some d => exact spec_pure ⟨hq, hsome d rfl⟩
  | none =>
    obtain ⟨rfl, hc⟩ := hnone rfl
    apply spec_bind
    apply spec_kheapAlloc
    intro a heap
    cases a with
    | none => exact spec_stuck
    | some a =>
      refine (vfsDalloc_spec parent name).bind ?_
      refine unless_none (fun _ _ => spec_stuck) ?_
      intro d s2 ⟨h2, hd⟩
      obtain ⟨hchild, hnew⟩ := hd d rfl
      have hq2 : Quiet s1 s2 := (quiet_heap heap).trans h2
      apply spec_dentryInode
      intro v dir _ _
      apply spec_inodeAt
      intro i _
      split_ifs
      · exact (tmpfsLookup_spec hq2 (hnew hc) hchild).mono fun d' s' h => ⟨h.2.1, h.2.2⟩
      · exact spec_stuck

/-- A step leads to the child of that name, on the same mount. -/
theorem prsStep_spec (p : Path) (name : Name) :
    Spec (prsStep env p name) s fun r s' => Quiet s s' ∧
      ∀ p', r = .ok p' → p'.mnt = p.mnt ∧ s'.IsChild p.dentry name p'.dentry := by
  apply spec_bind_keeps (prsDentry_spec p.dentry name)
  intro d s1 hd
  refine (keeps_kheapAlloc 1 s1).bind ?_
  intro a s2 h2
  cases a with
  | none =>
    refine (keeps_vfsDput d s2).bind ?_
    intro _ s3 h3
    exact spec_pure ⟨h2.trans h3, nofun⟩
  | some a =>
    refine (keeps_vfsMntget p.mnt s2).bind ?_
    intro _ s3 h3
    refine (keeps_vfsPathPut p s3).bind ?_
    intro _ s4 h4
    have hq : Quiet s1 s4 := (h2.trans h3).trans h4
    apply spec_pure
    refine ⟨hq, ?_⟩
    intro p' hp
    cases hp
    exact ⟨rfl, hq.isChild hd⟩

/-! ## The lookup -/

variable (env)

theorem keeps_prsStart (prs : Prs) (pwd : Path) : Keeps Quiet (prsStart env prs pwd) := by
  rw [prsStart]
  cases prs.currPath with
  | some p => exact keeps_pure _
  | none =>
    apply keeps_bind (keeps_kheapAlloc 1)
    refine unless_none (keeps_pure _) ?_
    intro a
    exact (keeps_vfsPathGet _).result

theorem keeps_prsStep (p : Path) (name : Name) : Keeps Quiet (prsStep env p name) :=
  fun _ => (prsStep_spec p name).mono fun _ _ h => h.1

theorem keeps_vfsPathPrsNext (prs : Prs) (pwd : Path) :
    Keeps Quiet (vfsPathPrsNext env prs pwd) := by
  apply keeps_bind (keeps_prsStart env prs pwd)
  refine unless_none (keeps_pure _) ?_
  intro p
  by_cases hn : nameAt prs.path (skipSlashes prs.path prs.offset) = []
  · simp only [if_pos hn]
    exact keeps_pure _
  · simp only [if_neg hn]
    apply keeps_bind (keeps_prsStep env p _)
    intro r
    cases r with
    | error e => exact keeps_pure _
    | ok p' => exact keeps_pure _

theorem keeps_vfsFindMount (dentry : Ptr) : Keeps Quiet (vfsFindMount dentry) := by
  apply keeps_bind (keeps_kheapAlloc _)
  refine unless_none (keeps_pure _) ?_
  intro a
  apply keeps_bind keeps_get
  intro s
  apply keeps_bind (keeps_ofOption _)
  refine unless_none (keeps_pure _) ?_
  intro m
  exact (keeps_vfsMntget m).result

theorem keeps_putStack (stack : List Prs) : Keeps Quiet (putStack stack) := by
  induction stack with
  | nil => exact keeps_pure _
  | cons prs stack ih =>
    rw [putStack]
    cases prs.currPath with
    | none => exact ih
    | some p => exact keeps_bind (keeps_vfsPathPut p) fun _ => ih

theorem keeps_failRound (stack : List Prs) (e : Errno) : Keeps Quiet (failRound stack e) :=
  (keeps_putStack _).result

theorem keeps_lookupEnd (flags : Flags) (prs : Prs) : Keeps Quiet (lookupEnd flags prs) := by
  apply keeps_bind (keeps_ofOption _)
  intro p
  apply keeps_bind keeps_dentryAt
  intro d
  cases d.inode with
  | none => exact keeps_failRound _ _
  | some i =>
    apply keeps_bind keeps_inodeAt
    intro v
    split_ifs with hd
    · exact keeps_failRound _ _
    · exact keeps_pure _

theorem keeps_popLink (prs up : Prs) (below : List Prs) : Keeps Quiet (popLink prs up below) := by
  rw [popLink]
  cases up.currPath with
  | none => exact keeps_pure _
  | some p => exact (keeps_vfsPathPut p).result

theorem keeps_crossMount (prs : Prs) (below : List Prs) (p : Path) :
    Keeps Quiet (crossMount prs below p) := by
  apply keeps_bind (keeps_vfsFindMount p.dentry)
  refine unless_none (keeps_failRound _ _) ?_
  intro m
  apply keeps_bind (keeps_kheapAlloc 1)
  refine unless_none (keeps_failRound _ _) ?_
  intro a
  apply keeps_bind keeps_mountAt
  intro v
  apply keeps_bind (keeps_vfsDget v.root)
  intro _
  exact (keeps_vfsPathPut p).result

theorem keeps_failPut (p : Path) (stack : List Prs) (e : Errno) :
    Keeps Quiet (do vfsPathPut p; failRound stack e) :=
  keeps_bind (keeps_vfsPathPut p) fun _ => keeps_failRound stack e

theorem keeps_followLink (prs : Prs) (below : List Prs) (p : Path) :
    Keeps Quiet (followLink env prs below p) := by
  rw [followLink]
  split_ifs with hl
  · exact keeps_failRound _ _
  apply keeps_bind (keeps_vfsPathGet p)
  intro _
  apply keeps_bind (keeps_vfsReadlink p.dentry _)
  refine unless_error (fun _ => keeps_failPut _ _ _) ?_
  intro target
  apply keeps_bind (keeps_kheapAlloc _)
  refine unless_none (keeps_failPut _ _ _) ?_
  intro a
  apply keeps_bind (keeps_kheapAlloc 1)
  refine unless_none (keeps_failPut _ _ _) ?_
  intro b
  exact (keeps_vfsPathGet _).result

theorem keeps_lookupVisit (flags : Flags) (prs : Prs) (below : List Prs) (p : Path) :
    Keeps Quiet (lookupVisit env flags prs below p) := by
  apply keeps_bind keeps_dentryAt
  intro d
  split_ifs with hm
  · exact keeps_crossMount prs below p
  · apply keeps_bind (keeps_modeOf d)
    intro mode
    split_ifs with hl
    · exact keeps_followLink env prs below p
    · exact keeps_pure _

theorem keeps_lookupRound (flags : Flags) (pwd : Path) (stack : List Prs) :
    Keeps Quiet (lookupRound env flags pwd stack) := by
  cases stack with
  | nil => exact keeps_stuck
  | cons prs below =>
    apply keeps_bind (keeps_vfsPathPrsNext env prs pwd)
    rintro ⟨prs', r⟩
    match r, below with
    | .error e, _ => exact keeps_failRound _ _
    | .ok none, [] => exact keeps_lookupEnd _ _
    | .ok none, up :: below => exact keeps_popLink _ _ _
    | .ok (some p), _ => exact keeps_lookupVisit env _ _ _ _

/-- By induction on the rounds. -/
theorem keeps_lookupLoop (flags : Flags) (pwd : Path) (fuel : Nat) (stack : List Prs) :
    Keeps Quiet (lookupLoop env flags pwd fuel stack) := by
  induction fuel generalizing stack with
  | zero => exact keeps_stuck
  | succ fuel ih =>
    apply keeps_bind (keeps_lookupRound env flags pwd stack)
    intro r
    cases r with
    | done res => exact keeps_pure _
    | next stack => exact ih stack

/-- A lookup is quiet, whether or not it succeeds. -/
theorem keeps_vfsPathLookup (path : List Char) (flags : Flags) (pwd : Path) :
    Keeps Quiet (vfsPathLookup env path flags pwd) := by
  apply keeps_bind (keeps_kheapAlloc _)
  refine unless_none (keeps_pure _) ?_
  intro a
  exact keeps_lookupLoop env _ _ _ _

theorem keeps_lookupNamed (parent : List Char) (pwd : Path) (name : Name) : Keeps Quiet (do
    match ← vfsPathLookup env parent lookupDirectory pwd with
    | .error e => pure (.error e)
    | .ok p => pure (.ok (p, name)) : K (Except Errno (Path × Name))) := by
  apply keeps_bind (keeps_vfsPathLookup env parent _ _)
  refine unless_error (fun _ => keeps_pure _) ?_
  intro p
  exact keeps_pure _

theorem keeps_vfsPathParent (path : List Char) (pwd : Path) :
    Keeps Quiet (vfsPathParent env path pwd) := by
  rw [vfsPathParent]
  split_ifs with hs
  · exact keeps_pure _
  rcases (splitLast path).1 with _ | _ | ⟨c, parent⟩
  · exact keeps_lookupNamed env _ _ _
  · exact keeps_lookupNamed env _ _ _
  · apply keeps_bind (keeps_kheapAlloc _)
    refine unless_none (keeps_pure _) ?_
    intro a
    exact keeps_lookupNamed env _ _ _

end ShiziOS.Fs
