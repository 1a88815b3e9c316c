import ShiziOS.Fs.DirPerm

/-!
# Exclusive creation by many tasks

`vfs_open` with `O_CREAT` and `O_EXCL`, cut where other tasks may run in between: the lookup of
the path, the dentry for the name, the part under the lock of the directory, and the rest. Under
the lock at most one task finds the name absent and creates it. It then opens what it has
created, and that open has checks of its own: it may fail although the entry is there.
-/

namespace ShiziOS.Fs

open Exec Option Function Dentry

variable {env : Env} {s s' : Vfs} {name : Name} {dir parent d : Ptr} {mode : Mode} {flags : Flags}
  {n : Nat}

/-! ## Entries of a name -/

def entryCount (l : List DirEntry) (name : Name) : Nat := l.countP fun de => de.name == name

theorem tmpfsDirLookup_eq_none {l : List DirEntry} : tmpfsDirLookup l name = none ↔
    entryCount l name = 0 := by
  rw [tmpfsDirLookup, entryCount, List.find?_eq_none, List.countP_eq_zero]

theorem entryCount_append (l : List DirEntry) (ino : Nat) :
    entryCount (l ++ [⟨name, ino⟩]) name = entryCount l name + 1 := by
  simp [entryCount, List.countP_append]

def Vfs.Entries (s : Vfs) (dir : Ptr) (name : Name) (n : Nat) : Prop :=
  ∃ i, s.inodes.get dir = some i ∧ entryCount i.dirList name = n

theorem Kept0.entries (h : Kept0 s s') (hn : s.Entries dir name n) : s'.Entries dir name n := by
  obtain ⟨i, hi, hc⟩ := hn
  obtain ⟨i', hi', -, hl⟩ := h.inode hi
  exact ⟨i', hi', by rw [hl, hc]⟩

/-! ## Dentries -/

def Vfs.LeadsTo (s : Vfs) (d p : Ptr) : Prop := ∃ v, s.dentries.get d = some v ∧ v.inode = some p

def Vfs.Negative (s : Vfs) (d : Ptr) : Prop := ∃ v, s.dentries.get d = some v ∧ v.inode = none

theorem DentriesKept.inode {x : Option Ptr} (h : DentriesKept s s')
    (hd : ∃ v, s.dentries.get d = some v ∧ v.inode = x) :
    ∃ v, s'.dentries.get d = some v ∧ v.inode = x := by
  obtain ⟨v, hv, hx⟩ := hd
  obtain ⟨v', hv', hc⟩ := h d v hv
  exact ⟨v', hv', (congrArg Dentry.inode hc :).trans hx⟩

theorem DentriesKept.leadsTo {p : Ptr} (h : DentriesKept s s') (hd : s.LeadsTo d p) :
    s'.LeadsTo d p :=
  h.inode hd

theorem DentriesKept.negative (h : DentriesKept s s') (hd : s.Negative d) : s'.Negative d :=
  h.inode hd

theorem DentriesKept.isChild (h : DentriesKept s s') (hd : s.IsChild parent name d) :
    s'.IsChild parent name d := by
  obtain ⟨v, hv, hp, hn⟩ := hd
  obtain ⟨v', hv', hc⟩ := h d v hv
  exact ⟨v', hv', (parent_eq hc).trans hp, (name_eq hc).trans hn⟩

theorem Vfs.LeadsTo.dentryInode {p : Ptr} (h : s.LeadsTo d p) {β : Type} {f : Ptr → K β}
    {R : β → Vfs → Prop} (hR : Spec (f p) s R) : Spec (dentryInode d >>= f) s R := by
  obtain ⟨v, hv, hp⟩ := h
  apply spec_dentryInode
  intro v' p' hv' hp'
  cases hv.symm.trans hv'
  cases hp.symm.trans hp'
  exact hR

theorem vfsDalloc_negative (parent : Ptr) (name : Name) :
    Spec (vfsDalloc env parent name) s fun r s' => ∀ d, r = some d →
      s.cached env parent name = some (some d) ∨ s'.Negative d := by
  apply spec_bind
  apply spec_vfsDcacheFind
  · intro _
    refine (newDentry_spec parent name).mono ?_
    rintro r s' ⟨-, hd⟩
    exact fun d hr => .inr ⟨_, (hd d hr).2, rfl⟩
  · intro d hc
    refine spec_pure fun d' hd => .inl ?_
    cases hd
    exact hc

/-! ## Under the lock -/

/-- A dentry of the cache for an absent name has no inode. -/
def Coherent (env : Env) (s : Vfs) (dir parent : Ptr) (name : Name) : Prop :=
  s.Entries dir name 0 → ∀ d, s.cached env parent name = some (some d) → s.Negative d

theorem vfsFileExists_absent (hp : s.LeadsTo parent dir) (hn : s.Entries dir name 0)
    (hc : Coherent env s dir parent name) :
    Spec (vfsFileExists env parent name name) s fun r _ => r = false := by
  have hnegative : ∀ {s : Vfs} {d : Ptr}, s.Negative d → Spec (do
      let v ← dentryAt d
      vfsDput d
      pure v.inode.isSome) s fun r _ => r = false := by
    rintro s d ⟨v, hv, hi⟩
    apply spec_dentryAt
    intro v' hv'
    cases hv.symm.trans hv'
    apply spec_bind
    intro _ s1 _
    exact spec_pure (by rw [hi]; rfl)
  apply spec_bind
  apply spec_vfsDcacheFind
  · intro hcached
    refine (newDentry_spec parent name).bind ?_
    rintro r s1 ⟨hq, hnew⟩
    cases r with
    | none => exact spec_pure rfl
    | some d =>
      obtain ⟨-, hv⟩ := hnew d rfl
      have hneg : s1.Negative d := ⟨_, hv, rfl⟩
      have hkept : DentriesKept s s1 := hq.dentries
      refine (hkept.leadsTo hp).dentryInode ?_
      refine keeps_withOps.read ?_
      intro _
      obtain ⟨i, hi, hcount⟩ := (Kept0.entries ((Kept.refl s).quiet hq) hn : s1.Entries dir name 0)
      -- the directory has no such entry, so that the new dentry stays as it is
      have hlookup : Spec (tmpfsLookup env dir d) s1 fun d' s' => d' = d ∧ s' = s1 := by
        apply spec_inodeAt
        intro i' hi'
        cases hi.symm.trans hi'
        apply spec_dentryAt
        intro v' hv'
        cases hv.symm.trans hv'
        rw [tmpfsDirLookup_eq_none.mpr hcount]
        exact spec_pure ⟨rfl, rfl⟩
      refine hlookup.bind ?_
      rintro d' s3 ⟨rfl, rfl⟩
      exact hnegative hneg
  · intro d hcached
    obtain ⟨v, hv, hi⟩ := hc hn d hcached
    apply hnegative
    exact ⟨{ v with count := v.count + 1 }, by rw [Store.get_modify_self, hv, map_some], hi⟩

/-- There was no memory or no inode number left. -/
def Errno.Exhausted (e : Errno) : Prop := e = .enomem ∨ e = .enospc

/-- A result that meets `Q`, or an error of that kind. -/
def OrExhausted {α : Type} (Q : Prop) : Except Errno α → Prop
  | .error e => e.Exhausted
  | .ok _ => Q

theorem tmpfsNewInode_error (sb : Ptr) (mode : Mode) :
    Spec (tmpfsNewInode env sb mode) s fun r _ => OrExhausted True r := by
  apply spec_bind
  refine unless_none (fun _ _ => spec_pure (.inl rfl)) ?_
  intro p s1 _
  have hinit : Spec (tmpfsInodeInit env p sb mode) s1 fun r _ => OrExhausted True r := by
    apply spec_bind
    refine unless_none (fun _ _ => spec_pure (.inr rfl)) ?_
    intro ino s2 _
    apply spec_bind
    intro _ s3 _
    apply spec_bind
    intro _ s4 _
    exact spec_pure trivial
  refine hinit.bind ?_
  intro r s2 hr
  cases r with
  | ok _ => exact spec_pure trivial
  | error e =>
    apply spec_bind
    intro _ s3 _
    exact spec_pure hr

theorem tmpfsDirAdd_spec (ino : Nat) :
    Spec (tmpfsDirAdd dir name ino) s fun r s' => OrExhausted (s'.dentries = s.dentries ∧
      s'.inodes = s.inodes.modify dir fun i =>
        { i with dirList := i.dirList ++ [⟨name, ino⟩] }) r := by
  apply spec_bind
  apply spec_kheapAlloc
  intro a heap
  cases a with
  | none => exact spec_pure (.inl rfl)
  | some a =>
    apply spec_bind
    apply spec_kheapAlloc
    intro b heap'
    cases b with
    | none => exact spec_pure (.inl rfl)
    | some b =>
      apply spec_bind
      apply spec_setInode
      intro _ _
      exact spec_pure ⟨rfl, rfl⟩

/-- The dentry has been given a new inode that can be opened as a file of tmpfs. -/
structure CreatedAt (dir : Ptr) (name : Name) (d : Ptr) (s s' : Vfs) : Prop where
  entries : s'.Entries dir name 1
  others : ∀ q v, q ≠ d → s.dentries.get q = some v → ∃ v', s'.dentries.get q = some v' ∧
    v'.core = v.core
  dentry : ∀ v, s.dentries.get d = some v → ∃ v' p i, s'.dentries.get d = some v' ∧
    v'.name = v.name ∧
    v'.parent = v.parent ∧ v'.inode = some p ∧ s'.inodes.get p = some i ∧ i.fop = some .tmpfs

/-- The entry is added, unless there is no memory for it. -/
theorem tmpfsEnter_absent {p : Ptr} {v : Dentry} {i j : Inode} (hv : s.dentries.get d = some v)
    (hname : v.name = name) (hi : s.inodes.get dir = some i)
    (hcount : entryCount i.dirList name = 0) (hj : s.inodes.get p = some j) (hne : p ≠ dir) :
    Spec (tmpfsEnter dir d p) s fun r s' => OrExhausted (s'.dentries = s.dentries ∧
      s'.Entries dir name 1 ∧ s'.inodes.get p = some j) r := by
  apply spec_dentryAt
  intro v' hv'
  cases hv.symm.trans hv'
  apply spec_inodeAt
  intro i' hi'
  cases hi.symm.trans hi'
  rw [hname, tmpfsDirLookup_eq_none.mpr hcount]
  apply spec_inodeAt
  intro j' _
  refine (tmpfsDirAdd_spec j'.ino).bind ?_
  intro r s2 hr2
  cases r with
  | error e =>
    apply spec_bind
    intro _ s3 _
    exact spec_pure hr2
  | ok _ =>
    obtain ⟨hdentries, hinodes⟩ := hr2
    refine spec_pure ⟨hdentries, ⟨{ i with dirList := i.dirList ++ [⟨name, j'.ino⟩] }, ?_, ?_⟩, ?_⟩
    · rw [hinodes, Store.get_modify_self, hi, map_some]
    · rw [entryCount_append, hcount]
    · rw [hinodes, Store.get_modify_of_ne _ hne, hj]

theorem tmpfsCreate_absent (hn : s.Entries dir name 0) (hd : s.IsChild parent name d) :
    Spec (tmpfsCreate env dir d mode) s fun r s' =>
      OrExhausted (CreatedAt dir name d s s') r := by
  obtain ⟨v, hv, -, hname⟩ := hd
  obtain ⟨i, hi, hcount⟩ := hn
  apply spec_inodeAt
  intro i0 _
  refine ((tmpfsNewInode_error _ _).and ((bears_kept.newInode _ _ (Kept.refl s : Kept0 s s)).and
    (bears_inodesOnly.newInode _ _ (refl_of InodesOnly s)))).bind ?_
  rintro r s1 ⟨herr, ⟨hkept1, hnew⟩, hon1, -⟩
  cases r with
  | error e => exact spec_pure herr
  | ok p =>
    have hnew : s.inodes.next ≤ p := hnew p rfl
    have hne : p ≠ dir := (Nat.lt_of_lt_of_le (Store.lt_next hi) hnew).ne'
    apply spec_bind
    apply spec_setInode
    intro j hj
    obtain ⟨i1, hi1, -, hlist⟩ := Kept0.inode hkept1 hi
    have henter := tmpfsEnter_absent (d := d) (s := { s1 with
      inodes := s1.inodes.modify p fun i =>
        { i with fop := some .tmpfs, nlink := 1, hasOps := true } })
      (by rw [hon1.dentries, hv]) hname (by rw [Store.get_modify_of_ne _ hne.symm, hi1])
      (by rw [hlist, hcount]) (by rw [Store.get_modify_self, hj, map_some]) hne
    refine henter.bind ?_
    refine unless_error (fun _ _ hr2 => spec_pure hr2) ?_
    intro _ s2 hr2
    obtain ⟨hdentries, hentries, hk⟩ := hr2
    rw [hon1.dentries] at hdentries
    apply spec_bind
    apply spec_setDentry
    intro v' hv'
    refine spec_pure ⟨hentries, ?_, ?_⟩
    · intro q w hq hw
      refine ⟨w, ?_, rfl⟩
      rw [Store.get_modify_of_ne _ hq, hdentries, hw]
    · intro w hw
      refine ⟨{ w with inode := some p }, p, _, ?_, rfl, rfl, rfl, hk, rfl⟩
      rw [Store.get_modify_self, hdentries, hw, map_some]

theorem tmpfsCreate_present (hn : s.Entries dir name (n + 1)) (hd : s.IsChild parent name d) :
    Spec (tmpfsCreate env dir d mode) s fun r s' =>
      (∃ e, r = .error e ∧ (e = .eexist ∨ e.Exhausted)) ∧
      Kept0 s s' ∧ s'.dentries = s.dentries := by
  obtain ⟨v, hv, -, hname⟩ := hd
  obtain ⟨i, hi, hcount⟩ := hn
  apply spec_inodeAt
  intro i0 _
  refine ((tmpfsNewInode_error _ _).and ((bears_kept.newInode _ _ (Kept.refl s : Kept0 s s)).and
    (bears_inodesOnly.newInode _ _ (refl_of InodesOnly s)))).bind ?_
  rintro r s1 ⟨herr, ⟨hkept1, hnew⟩, hon1, -⟩
  cases r with
  | error e => exact spec_pure ⟨⟨e, rfl, .inr herr⟩, hkept1, hon1.dentries⟩
  | ok p =>
    have hnew : s.inodes.next ≤ p := hnew p rfl
    refine ((kept_setNew hnew s1 hkept1).and (inodesOnly_setInode _ s1)).bind ?_
    rintro _ s2 ⟨hkept2, hon2⟩
    have hdentries2 : s2.dentries = s.dentries := hon2.dentries.trans hon1.dentries
    obtain ⟨i2, hi2, -, hlist⟩ := Kept0.inode hkept2 hi
    have henter : Spec (tmpfsEnter dir d p) s2 fun r s' => r = .error .eexist ∧ Kept0 s s' ∧
        s'.dentries = s.dentries := by
      apply spec_dentryAt
      intro v' hv'
      rw [hdentries2] at hv'
      cases hv.symm.trans hv'
      apply spec_inodeAt
      intro i' hi'
      cases hi2.symm.trans hi'
      cases hlookup : tmpfsDirLookup i2.dirList v.name with
      | none =>
        rw [hname, tmpfsDirLookup_eq_none, hlist, hcount] at hlookup
        cases hlookup
      | some de =>
        refine ((bears_kept.dropInode hnew s2 hkept2).and
          (bears_inodesOnly.dropInode trivial s2 (refl_of InodesOnly s2))).bind ?_
        rintro _ s3 ⟨hkept3, hon3⟩
        exact spec_pure ⟨rfl, hkept3, hon3.dentries.trans hdentries2⟩
    refine henter.bind ?_
    rintro r s3 ⟨rfl, hkept3, hdentries3⟩
    exact spec_pure ⟨⟨.eexist, rfl, .inl rfl⟩, hkept3, hdentries3⟩

theorem spec_vfsCreate {R : Except Errno Unit → Vfs → Prop} (hperm : MayCreate env s dir)
    (h : Spec (tmpfsCreate env dir d mode) s R) : Spec (vfsCreate env dir d mode) s R := by
  apply spec_inodeAt
  intro i hi
  rw [hperm i hi]
  apply spec_bind
  apply spec_inodeAt
  intro i' _
  split_ifs
  · exact spec_pure h
  · exact spec_stuck

theorem CreatedAt.of_quiet {s1 : Vfs} (hq : Quiet s s1) (h : CreatedAt dir name d s1 s') :
    CreatedAt dir name d s s' where
  entries := h.entries
  others q v hne hv := by
    obtain ⟨v1, hv1, hc1⟩ := hq.dentries q v hv
    obtain ⟨v2, hv2, hc2⟩ := h.others q v1 hne hv1
    exact ⟨v2, hv2, hc2.trans hc1⟩
  dentry v hv := by
    obtain ⟨v1, hv1, hc1⟩ := hq.dentries d v hv
    obtain ⟨v2, p, i, hv2, hn, hp, hrest⟩ := h.dentry v1 hv1
    exact ⟨v2, p, i, hv2, hn.trans (name_eq hc1), hp.trans (parent_eq hc1), hrest⟩

theorem CreatedAt.dcacheAdd (h : CreatedAt dir name d s s') :
    Spec (vfsDcacheAdd env d) s' fun _ s'' => CreatedAt dir name d s s'' := by
  apply spec_dentryAt
  intro w hw
  apply spec_get
  apply spec_bind
  apply spec_setDentry
  intro _ _
  apply spec_modify
  refine ⟨h.entries, ?_, ?_⟩
  · intro q v hne hv
    obtain ⟨v', hv', hc⟩ := h.others q v hne hv
    refine ⟨v', ?_, hc⟩
    rw [Store.get_modify_of_ne _ hne, hv']
  · intro v hv
    obtain ⟨v', p, i, hv', hrest⟩ := h.dentry v hv
    refine ⟨{ v' with hashNext := s'.dentryCache (env.dentryHash w.parent w.name) }, p, i, ?_,
      hrest⟩
    rw [Store.get_modify_self, hv', map_some]

/-- If the name is not found, the task may change the directory. -/
def MayCreateAbsent (env : Env) (s : Vfs) (parent dir : Ptr) (name : Name) : Prop :=
  ∀ s', vfsFileExists env parent name name s = some (false, s') → MayCreate env s dir

theorem openLocked_absent (hp : s.LeadsTo parent dir) (hn : s.Entries dir name 0)
    (hd : s.IsChild parent name d) (hperm : MayCreateAbsent env s parent dir name)
    (hc : Coherent env s dir parent name) :
    Spec (openLocked env parent d name mode) s fun r s' =>
      r = .created ∧ CreatedAt dir name d s s' ∨ ∃ e, r = .failed e ∧ e.Exhausted := by
  apply spec_bind
  intro found s1 hfound
  obtain rfl := vfsFileExists_absent hp hn hc found s1 hfound
  have hperm := hperm s1 hfound
  have hq := keeps_vfsFileExists parent name name s false s1 hfound
  have hkept : DentriesKept s s1 := hq.dentries
  refine (hkept.leadsTo hp).dentryInode ?_
  apply spec_bind
  have hn1 : s1.Entries dir name 0 := Kept0.entries ((Kept.refl s).quiet hq) hn
  refine (spec_vfsCreate (hperm.quiet hq) (tmpfsCreate_absent hn1 (hkept.isChild hd))).mono ?_
  intro r s2 hr
  cases r with
  | error e => exact spec_pure (.inr ⟨e, rfl, hr⟩)
  | ok _ =>
    refine CreatedAt.dcacheAdd hr |>.bind ?_
    intro _ s3 h3
    exact spec_pure (.inl ⟨rfl, h3.of_quiet hq⟩)

theorem openLocked_present (hp : s.LeadsTo parent dir)
    (hn : s.Entries dir name (n + 1)) (hd : s.IsChild parent name d)
    (hperm : MayCreateAbsent env s parent dir name) :
    Spec (openLocked env parent d name mode) s fun r s' =>
      (r = .found ∨ r = .failed .eexist ∨ ∃ e, r = .failed e ∧ e.Exhausted) ∧ Kept0 s s' ∧
        DentriesKept s s' := by
  apply spec_bind
  intro found s1 hfound
  have hq := keeps_vfsFileExists parent name name s found s1 hfound
  have hkept1 : Kept0 s s1 := (Kept.refl s).quiet hq
  have hdentries : DentriesKept s s1 := hq.dentries
  cases found with
  | true => exact spec_pure ⟨.inl rfl, hkept1, hdentries⟩
  | false =>
    refine (hdentries.leadsTo hp).dentryInode ?_
    refine (spec_vfsCreate ((hperm s1 hfound).quiet hq)
      (tmpfsCreate_present (Kept0.entries hkept1 hn) (hdentries.isChild hd))).bind ?_
    rintro r s2 ⟨⟨e, rfl, he⟩, hkept2, hdentries2⟩
    refine spec_pure ⟨?_, hkept1.kept0 hkept2, trans_of DentriesKept hdentries (.of_eq hdentries2)⟩
    rcases he with rfl | he
    · exact .inr (.inl rfl)
    · exact .inr (.inr ⟨e, rfl, he⟩)

/-! ## Opening what was created -/

theorem tmpfsSetSize_zero {sb : SuperBlock} {f : FileData} {heap : Oracle} :
    Spec (tmpfsSetSize sb f 0) heap fun r _ => r.1 = .ok () := by
  rw [tmpfsSetSize]
  by_cases h : 0 < f.size
  · rw [if_pos h]
    cases f.pages with
    | none => exact spec_pure rfl
    | some d =>
      apply spec_bind
      intro d' heap1 _
      exact spec_pure rfl
  · rw [if_neg h, if_neg (by omega)]
    exact spec_pure rfl

theorem vfsTruncate_zero (file : Ptr) : Spec (vfsTruncate env file 0) s fun r _ => r = .ok () := by
  apply spec_bind
  intro f s1 _
  apply spec_bind
  intro p s2 _
  apply spec_bind
  intro _ s3 _
  apply spec_bind
  intro q s4 _
  have hsize : Spec (setattrSize q (some 0)) s4 fun r _ => r = .ok () := by
    apply spec_bind
    intro i s5 _
    apply spec_bind
    intro b s6 _
    apply spec_bind
    apply spec_onHeap
    rintro ⟨ret, sb, data⟩ heap hrun
    have hret : ret = .ok () := tmpfsSetSize_zero _ _ hrun
    apply spec_bind
    intro _ s7 _
    apply spec_bind
    intro _ s8 _
    exact spec_pure hret
  refine hsize.bind ?_
  rintro r s5 rfl
  apply spec_bind
  intro _ s6 _
  exact spec_pure rfl

theorem fileStart_tmpfs {file : Ptr} {i : Inode} (hf : i.fop = some .tmpfs)
    (flags permMask : Flags) :
    Spec (fileStart env file i flags permMask) s fun r _ => r = .ok () := by
  rw [fileStart, fileOpen, hf]
  apply spec_bind
  refine spec_pure ?_
  split_ifs
  · exact vfsTruncate_zero file
  · exact spec_pure rfl

/-- The checks of `vfs_do_open` for the inode of a dentry. -/
def MayOpen (env : Env) (s : Vfs) (mnt d : Ptr) (flags : Flags) : Prop :=
  ∀ v p i m, s.dentries.get d = some v → v.inode = some p → s.inodes.get p = some i →
    s.mounts.get mnt = some m →
    openCheck env i m flags (permMask flags) = .ok ()

theorem MayOpen.quiet {mnt : Ptr} {v : Dentry} (h : MayOpen env s mnt d flags) (hq : Quiet s s')
    (hv : s.dentries.get d = some v) : MayOpen env s' mnt d flags := by
  intro v' p i' m' hv' hp hi' hm'
  obtain ⟨v1, hv1, hinode, -⟩ := hq.dentry hv
  cases hv1.symm.trans hv'
  obtain ⟨i, hi, hci⟩ := hq.inode_before hi'
  obtain ⟨m, hm, hcm⟩ := hq.mounts mnt m' hm'
  have hcheck := h v p i m hv (hinode.symm.trans hp) hi hm
  rw [openCheck, vfsInodePermission_core _ hci] at *
  have hmode : i'.mode = i.mode := (congrArg Inode.mode hci :)
  have hflags : m'.flags = m.flags := (congrArg Mount.flags hcm :)
  rw [hmode, hflags]
  exact hcheck

def Vfs.LeadsToFile (s : Vfs) (d : Ptr) : Prop :=
  ∃ v p i, s.dentries.get d = some v ∧ v.inode = some p ∧ s.inodes.get p = some i ∧
    i.fop = some .tmpfs

theorem Vfs.LeadsToFile.kept (h : s.LeadsToFile d) (hk : Kept0 s s') (hd : DentriesKept s s') :
    s'.LeadsToFile d := by
  obtain ⟨v, p, i, hv, hp, hi, hf⟩ := h
  obtain ⟨v', hv', hc⟩ := hd d v hv
  obtain ⟨i', hi', ho, -⟩ := hk.inode hi
  exact ⟨v', p, i', hv', (congrArg Dentry.inode hc :).trans hp, hi', ho.fop.trans hf⟩

theorem vfsDoOpen_file {mnt : Ptr} (hd : s.LeadsToFile d) (hopen : MayOpen env s mnt d flags) :
    Spec (vfsDoOpen env ⟨mnt, d⟩ flags (permMask flags)) s fun r _ => (∃ f, r = .ok f) ∨
      r = .error .enomem := by
  obtain ⟨v, p, i, hv, hp, hi, hf⟩ := hd
  refine Vfs.LeadsTo.dentryInode ⟨v, hv, hp⟩ ?_
  apply spec_inodeAt
  intro i' hi'
  cases hi.symm.trans hi'
  apply spec_mountAt
  intro m hm
  rw [hopen v p i m hv hp hi hm]
  apply spec_bind
  intro a s1 _
  cases a with
  | none =>
    apply spec_bind
    intro _ s2 _
    exact spec_pure (.inr rfl)
  | some a =>
    apply spec_bind
    intro _ s2 _
    apply spec_bind
    intro s3 s4 _
    apply spec_bind
    intro _ s5 _
    refine (fileStart_tmpfs hf flags (permMask flags)).bind ?_
    rintro r s6 rfl
    exact spec_pure (.inl ⟨_, rfl⟩)

theorem openChild_file {parent : Path} (hd : s.LeadsToFile d)
    (hopen : MayOpen env s parent.mnt d flags) :
    Spec (openChild env parent d flags) s fun r _ => (∃ f, r = .ok f) ∨ r = .error .enomem := by
  have ⟨v, _, _, hv, _⟩ := hd
  refine (keeps_kheapAlloc 1 s).bind ?_
  intro a s1 hq1
  cases a with
  | none =>
    apply spec_bind
    intro _ s2 _
    apply spec_bind
    intro _ s3 _
    exact spec_pure (.inr rfl)
  | some a =>
    refine (keeps_vfsMntget parent.mnt s1).bind ?_
    intro _ s2 hq2
    refine (keeps_vfsPathPut parent s2).bind ?_
    intro _ s3 hq3
    have hq : Quiet s s3 := (hq1.trans hq2).trans hq3
    exact vfsDoOpen_file (hd.kept ((Kept.refl s).quiet hq) hq.dentries) (hopen.quiet hq hv)

/-! ## The tasks -/

theorem createEnd_refused {parent : Path} {r : Created} (hexcl : Flags.has flags oExcl = true)
    (hr : r = .found ∨ r = .failed .eexist) :
    Spec (createEnd env parent name d flags r) s fun ret s' =>
      ret = .error .eexist ∧ Quiet s s' := by
  have hend : createEnd env parent name d flags r =
      (do vfsDput d; vfsPathPut parent; pure (.error .eexist)) := by
    rcases hr with rfl | rfl
    · simp only [createEnd, if_pos hexcl]
    · rfl
  rw [hend]
  refine (keeps_vfsDput d s).bind ?_
  intro _ s1 hq1
  refine (keeps_vfsPathPut parent s1).bind ?_
  intro _ s2 hq2
  exact spec_pure ⟨rfl, hq1.trans hq2⟩

theorem openFound_refused {ps : Path} (hexcl : Flags.has flags oExcl = true) :
    Spec (openFound env ps flags) s fun ret s' => ret = .error .eexist ∧ Quiet s s' := by
  rw [openFound, if_pos hexcl]
  refine (keeps_vfsPathPut ps s).bind ?_
  intro _ s1 hq
  exact spec_pure ⟨rfl, hq⟩

/-- A task that calls `vfs_open` to create the name. -/
structure ExclTask where
  env : Env
  flags : Flags
  mode : Mode
  creat : Flags.has flags oCreat = true
  excl : Flags.has flags oExcl = true

/-- How far a call has come. -/
inductive ExclPhase where
  | calling
  | absent (parent : Path)
  | alloced (parent : Path) (d : Ptr)
  | made (parent : Path) (d : Ptr) (r : Created)
  | returned (r : Except Errno Ptr)

structure Excl (T : Type) where
  vfs : Vfs
  phase : T → ExclPhase

variable {T : Type} [DecidableEq T] {winner : Option T} {c : Excl T} {t : T} {phase : ExclPhase}

/-- A part of the call of one of the tasks. A lookup leaves all but counters as it is
(`keeps_vfsPathLookup`), in as many parts as it may be done; a task that has found the name goes on
with the path, one that has not with the directory. Who finds the name absent under the lock may
change the directory, and who creates may open what it creates; no allocation fails. -/
inductive ExclStep (dir : Ptr) (name : Name) (task : T → ExclTask) : Excl T → Excl T → Prop
  | look {c : Excl T} {s : Vfs} (hq : Quiet c.vfs s) : ExclStep dir name task c ⟨s, c.phase⟩
  | found {c : Excl T} {t : T} {s : Vfs} {n : Nat} {ps : Path} {ret : Except Errno Ptr}
      (ht : c.phase t = .calling) (hn : c.vfs.Entries dir name (n + 1))
      (hrun : openFound (task t).env ps (task t).flags c.vfs = some (ret, s)) :
      ExclStep dir name task c ⟨s, update c.phase t (.returned ret)⟩
  | absent {c : Excl T} {t : T} {s : Vfs} {parent : Path} (ht : c.phase t = .calling)
      (hq : Quiet c.vfs s)
      (hp : s.LeadsTo parent.dentry dir) :
      ExclStep dir name task c ⟨s, update c.phase t (.absent parent)⟩
  | alloc {c : Excl T} {t : T} {s : Vfs} {parent : Path} {d : Ptr} (ht : c.phase t = .absent parent)
      (hc : Coherent (task t).env c.vfs dir parent.dentry name)
      (hrun : vfsDalloc (task t).env parent.dentry name c.vfs = some (some d, s)) :
      ExclStep dir name task c ⟨s, update c.phase t (.alloced parent d)⟩
  | lock {c : Excl T} {t : T} {s : Vfs} {parent : Path} {d : Ptr} {r : Created}
      (ht : c.phase t = .alloced parent d)
      (hperm : MayCreateAbsent (task t).env c.vfs parent.dentry dir name)
      (hc : Coherent (task t).env c.vfs dir parent.dentry name)
      (hrun : openLocked (task t).env parent.dentry d name (task t).mode c.vfs = some (r, s))
      (hmem : ∀ e, r = .failed e → ¬e.Exhausted) :
      ExclStep dir name task c ⟨s, update c.phase t (.made parent d r)⟩
  | finish {c : Excl T} {t : T} {s : Vfs} {parent : Path} {d : Ptr} {r : Created}
      {ret : Except Errno Ptr}
      (ht : c.phase t = .made parent d r)
      (hopen : r = .created → MayOpen (task t).env c.vfs parent.mnt d (task t).flags)
      (hrun : createEnd (task t).env parent name d (task t).flags r c.vfs = some (ret, s))
      (hmem : ret ≠ .error .enomem) :
      ExclStep dir name task c ⟨s, update c.phase t (.returned ret)⟩

/-- What is known of a call when `winner` has created the name. -/
def ExclPhase.Ok (dir : Ptr) (name : Name) (s : Vfs) (winner : Option T) (t : T) : ExclPhase → Prop
  | .calling => winner ≠ some t
  | .absent parent => winner ≠ some t ∧ s.LeadsTo parent.dentry dir
  | .alloced parent d =>
    winner ≠ some t ∧ s.LeadsTo parent.dentry dir ∧ s.IsChild parent.dentry name d ∧
    (winner = none → s.Negative d)
  | .made _ d r => (r = .created ∧ winner = some t ∧ s.LeadsToFile d) ∨
    ((r = .found ∨ r = .failed .eexist) ∧ winner ≠ some t ∧ winner ≠ none)
  | .returned r =>
    ((∃ f, r = .ok f) ∧ winner = some t) ∨ (r = .error .eexist ∧ winner ≠ some t ∧ winner ≠ none)

structure ExclInv (dir : Ptr) (name : Name) (winner : Option T) (c : Excl T) : Prop where
  entries : c.vfs.Entries dir name (if winner.isSome then 1 else 0)
  calls : ∀ t, (c.phase t).Ok dir name c.vfs winner t

omit [DecidableEq T] in
theorem ExclInv.ok (h : ExclInv dir name winner c) (ht : c.phase t = phase) :
    phase.Ok dir name c.vfs winner t :=
  ht ▸ h.calls t

omit [DecidableEq T] in
theorem ExclPhase.Ok.kept (h : phase.Ok dir name s winner t)
    (hk : Kept0 s s') (hd : DentriesKept s s') : phase.Ok dir name s' winner t := by
  cases phase with
  | calling => exact h
  | absent parent => exact ⟨h.1, hd.leadsTo h.2⟩
  | alloced parent d =>
    exact ⟨h.1, hd.leadsTo h.2.1, hd.isChild h.2.2.1, fun hw => hd.negative (h.2.2.2 hw)⟩
  | made parent d r => exact h.imp (fun h => ⟨h.1, h.2.1, h.2.2.kept hk hd⟩) id
  | returned r => exact h

theorem CreatedAt.leadsTo (h : CreatedAt dir name d s s') (hd : s.Negative d)
    (hp : s.LeadsTo parent dir) : s'.LeadsTo parent dir := by
  obtain ⟨v, hv, hi⟩ := hp
  have hne : parent ≠ d := by
    rintro rfl
    obtain ⟨v', hv', hi'⟩ := hd
    cases hv.symm.trans hv'
    rw [hi] at hi'
    cases hi'
  obtain ⟨v', hv', hc⟩ := h.others parent v hne hv
  exact ⟨v', hv', (congrArg Dentry.inode hc :).trans hi⟩

theorem CreatedAt.isChild {q : Ptr} (h : CreatedAt dir name d s s') (hq : s.IsChild parent name q) :
    s'.IsChild parent name q := by
  obtain ⟨v, hv, hp, hn⟩ := hq
  by_cases hne : q = d
  · subst hne
    obtain ⟨v', _, _, hv', hname, hparent, -⟩ := h.dentry v hv
    exact ⟨v', hv', hparent.trans hp, hname.trans hn⟩
  · obtain ⟨v', hv', hc⟩ := h.others q v hne hv
    exact ⟨v', hv', (parent_eq hc).trans hp, (name_eq hc).trans hn⟩

theorem CreatedAt.leadsToFile (h : CreatedAt dir name d s s') (hd : s.Negative d) :
    s'.LeadsToFile d := by
  obtain ⟨v, hv, -⟩ := hd
  obtain ⟨v', p, i, hv', -, -, hp, hi, hf⟩ := h.dentry v hv
  exact ⟨v', p, i, hv', hp, hi, hf⟩

omit [DecidableEq T] in
theorem ExclPhase.Ok.created {t' : T} (h : phase.Ok dir name s none t')
    (hne : t' ≠ t) (hc : CreatedAt dir name d s s') (hd : s.Negative d) :
    phase.Ok dir name s' (some t) t' := by
  have hwinner : some t ≠ some t' := fun h => hne (some.inj h).symm
  cases phase with
  | calling => exact hwinner
  | absent parent => exact ⟨hwinner, hc.leadsTo hd h.2⟩
  | alloced parent q =>
    exact ⟨hwinner, hc.leadsTo hd h.2.1, hc.isChild h.2.2.1, nofun⟩
  | made parent q r =>
    rcases h with ⟨-, hw, -⟩ | ⟨-, -, hw⟩
    · cases hw
    · exact absurd rfl hw
  | returned r =>
    rcases h with ⟨-, hw⟩ | ⟨-, -, hw⟩
    · cases hw
    · exact absurd rfl hw

theorem ExclInv.update
    (h : ExclInv dir name winner c) (hk : Kept0 c.vfs s) (hd : DentriesKept c.vfs s)
    (ht : phase.Ok dir name s winner t) : ExclInv dir name winner ⟨s, update c.phase t phase⟩ where
  entries := hk.entries h.entries
  calls t' := by
    dsimp only
    rw [update_apply]
    split_ifs with hne
    · subst hne
      exact ht
    · exact (h.calls t').kept hk hd

theorem ExclInv.lock {parent : Path} {r : Created}
    (h : ExclInv dir name winner c) (ht : c.phase t = .alloced parent d)
    (hperm : MayCreateAbsent env c.vfs parent.dentry dir name)
    (hc : Coherent env c.vfs dir parent.dentry name)
    (hrun : openLocked env parent.dentry d name mode c.vfs = some (r, s))
    (hmem : ∀ e, r = .failed e → ¬e.Exhausted) :
    ∃ winner', ExclInv dir name winner' ⟨s, Function.update c.phase t (.made parent d r)⟩ := by
  obtain ⟨hw, hp, hchild, hneg⟩ := h.ok ht
  have hentries := h.entries
  cases winner with
  | none =>
    rcases openLocked_absent hp hentries hchild hperm hc _ _ hrun with ⟨rfl, hcreated⟩ | ⟨e, rfl,
      he⟩
    · refine ⟨some t, hcreated.entries, ?_⟩
      intro t'
      dsimp only
      rw [Function.update_apply]
      split_ifs with hne
      · subst hne
        exact .inl ⟨rfl, rfl, hcreated.leadsToFile (hneg rfl)⟩
      · exact (h.calls t').created hne hcreated (hneg rfl)
    · exact absurd he (hmem e rfl)
  | some w =>
    obtain ⟨hr, hk, hd⟩ := openLocked_present (n := 0) hp hentries hchild hperm _ _ hrun
    refine ⟨some w, h.update hk hd (.inr ⟨?_, hw, Option.some_ne_none w⟩)⟩
    rcases hr with hr | hr | ⟨e, rfl, he⟩
    · exact .inl hr
    · exact .inr hr
    · exact absurd he (hmem e rfl)

theorem ExclInv.finish {parent : Path} {r : Created} {ret : Except Errno Ptr}
    (h : ExclInv dir name winner c) (ht : c.phase t = .made parent d r)
    (hexcl : Flags.has flags oExcl = true)
    (hopen : r = .created → MayOpen env c.vfs parent.mnt d flags)
    (hrun : createEnd env parent name d flags r c.vfs = some (ret, s))
    (hmem : ret ≠ .error .enomem) :
    ExclInv dir name winner ⟨s, Function.update c.phase t (.returned ret)⟩ := by
  rcases h.ok ht with ⟨rfl, hw, hd⟩ | ⟨hr, hw, hsome⟩
  · have hcalm := calmDentries_openChild _ _ _ _ _ _ hrun
    refine h.update hcalm.kept hcalm.dentries ?_
    rcases openChild_file hd (hopen rfl) _ _ hrun with hret | hret
    · exact .inl ⟨hret, hw⟩
    · exact absurd hret hmem
  · obtain ⟨rfl, hq⟩ := createEnd_refused hexcl hr _ _ hrun
    exact h.update ((Kept.refl _).quiet hq) hq.dentries (.inr ⟨rfl, hw, hsome⟩)

theorem ExclStep.inv {task : T → ExclTask} {c c' : Excl T} (h : ExclInv dir name winner c)
    (hstep : ExclStep dir name task c c') : ∃ winner', ExclInv dir name winner' c' := by
  cases hstep with
  | look hq =>
    have hk : Kept0 c.vfs _ := (Kept.refl _).quiet hq
    exact ⟨winner, hk.entries h.entries, fun t => (h.calls t).kept hk hq.dentries⟩
  | @found t s n ps ret ht hn hrun =>
    obtain ⟨rfl, hq⟩ := openFound_refused (task t).excl _ _ hrun
    refine ⟨winner, h.update ((Kept.refl _).quiet hq) hq.dentries (.inr ⟨rfl, h.ok ht, ?_⟩)⟩
    -- without a winner the directory has no such entry
    rintro rfl
    obtain ⟨i, hi, hcount⟩ := h.entries
    obtain ⟨i', hi', hcount'⟩ := hn
    cases hi.symm.trans hi'
    rw [hcount] at hcount'
    cases hcount'
  | @absent t s parent ht hq hp =>
    exact ⟨winner, h.update ((Kept.refl _).quiet hq) hq.dentries ⟨h.ok ht, hp⟩⟩
  | @alloc t s parent d ht hc hrun =>
    obtain ⟨hw, hp⟩ := h.ok ht
    obtain ⟨hq, hchild⟩ := vfsDalloc_spec _ _ _ _ hrun
    have hd : DentriesKept c.vfs s := hq.dentries
    refine ⟨winner, h.update ((Kept.refl _).quiet hq) hd ⟨hw, hd.leadsTo hp, (hchild d rfl).1, ?_⟩⟩
    rintro rfl
    rcases vfsDalloc_negative _ _ _ _ hrun d rfl with hcached | hneg
    · exact hd.negative (hc h.entries d hcached)
    · exact hneg
  | lock ht hperm hc hrun hmem => exact h.lock ht hperm hc hrun hmem
  | @finish t s parent d r ret ht hopen hrun hmem =>
    exact ⟨winner, h.finish ht (task t).excl hopen hrun hmem⟩

/-- Tasks that create one name, exclusively and all at once: at most one gets a file, and all
others find that it exists. -/
theorem exclusive_create {task : T → ExclTask} {c₀ c : Excl T} (hn : c₀.vfs.Entries dir name 0)
    (hcalling : ∀ t, c₀.phase t = .calling)
    (hrun : Relation.ReflTransGen (ExclStep dir name task) c₀ c) :
    (∀ t t' f f', c.phase t = .returned (.ok f) → c.phase t' = .returned (.ok f') → t = t') ∧
    (∀ t e, c.phase t = .returned (.error e) → e = .eexist) ∧
    (Nonempty T → (∀ t, ∃ r, c.phase t = .returned r) →
      (∃! t, ∃ f, c.phase t = .returned (.ok f)) ∧ c.vfs.Entries dir name 1) := by
  have hstart : ExclInv dir name none c₀ := by
    refine ⟨hn, ?_⟩
    intro t
    rw [hcalling t]
    exact nofun
  have hinv : ∃ winner, ExclInv dir name winner c := by
    induction hrun with
    | refl => exact ⟨none, hstart⟩
    | tail _ hstep ih =>
      obtain ⟨winner, h⟩ := ih
      exact hstep.inv h
  obtain ⟨winner, h⟩ := hinv
  have hwinner : ∀ t f, c.phase t = .returned (.ok f) → winner = some t := by
    intro t f ht
    rcases h.ok ht with ⟨-, hw⟩ | ⟨hr, -⟩
    · exact hw
    · cases hr
  have hunique : ∀ t t' f f', c.phase t = .returned (.ok f) → c.phase t' = .returned (.ok f') →
      t = t' := by
    intro t t' f f' ht ht'
    exact some.inj ((hwinner t f ht).symm.trans (hwinner t' f' ht'))
  refine ⟨hunique, ?_, ?_⟩
  · intro t e ht
    rcases h.ok ht with ⟨⟨f, hr⟩, -⟩ | ⟨hr, -⟩
    · cases hr
    · cases hr
      rfl
  · rintro ⟨t0⟩ hall
    have hsome : ∃ w, winner = some w := by
      obtain ⟨r, ht⟩ := hall t0
      rcases h.ok ht with ⟨-, hw⟩ | ⟨-, -, hw⟩
      · exact ⟨t0, hw⟩
      · exact ne_none_iff_exists'.mp hw
    obtain ⟨w, rfl⟩ := hsome
    refine ⟨?_, h.entries⟩
    obtain ⟨r, ht⟩ := hall w
    rcases h.ok ht with ⟨⟨f, rfl⟩, -⟩ | ⟨-, hw, -⟩
    · exact ⟨w, ⟨f, ht⟩, fun t' ⟨f', ht'⟩ => hunique t' w f' f ht' ht⟩
    · exact absurd rfl hw

/-! ## A whole call -/

section

variable {task : T → ExclTask} {parent : Path} {s1 s2 s3 : Vfs} {r : Created}
  {ret : Except Errno Ptr}

variable (task) in
/-- The parts of a call after its lookups, one after the other. -/
theorem exclRun_openCreate (ht : c.phase t = .absent parent)
    (hc : Coherent (task t).env c.vfs dir parent.dentry name)
    (halloc : vfsDalloc (task t).env parent.dentry name c.vfs = some (some d, s1))
    (hperm : MayCreateAbsent (task t).env s1 parent.dentry dir name)
    (hc1 : Coherent (task t).env s1 dir parent.dentry name)
    (hlock : openLocked (task t).env parent.dentry d name (task t).mode s1 = some (r, s2))
    (hmem : ∀ e, r = .failed e → ¬e.Exhausted)
    (hopen : r = .created → MayOpen (task t).env s2 parent.mnt d (task t).flags)
    (hend : createEnd (task t).env parent name d (task t).flags r s2 = some (ret, s3))
    (hret : ret ≠ .error .enomem) :
    openCreate (task t).env parent name (task t).flags (task t).mode c.vfs = some (ret, s3) ∧
    Relation.ReflTransGen (ExclStep dir name task) c ⟨s3, update c.phase t (.returned ret)⟩ := by
  constructor
  · exact bind_eq_some.mpr ⟨_, s1, halloc, bind_eq_some.mpr ⟨r, s2, hlock, hend⟩⟩
  · have hstep : ∀ {x y : ExclPhase} {s s' : Vfs}, ExclStep dir name task
        ⟨s, update c.phase t x⟩ ⟨s', update (update c.phase t x) t y⟩ →
        ExclStep dir name task ⟨s, update c.phase t x⟩ ⟨s', update c.phase t y⟩ := by
      intro x y s s' h
      rwa [update_idem] at h
    have h1 : ExclStep dir name task c ⟨s1, update c.phase t (.alloced parent d)⟩ :=
      .alloc ht hc halloc
    have h2 := hstep (.lock (update_self ..) hperm hc1 hlock hmem)
    have h3 := hstep (.finish (update_self ..) hopen hend hret)
    exact ((Relation.ReflTransGen.single h1).tail h2).tail h3

variable (task) in
/-- With the lookups before them they are a call of `vfs_open`. -/
theorem exclRun_vfsOpen {path : List Char} {pwd : Path} {a : Nat} (ht : c.phase t = .calling)
    (hlook : vfsPathLookup (task t).env path (openLookup (task t).flags) pwd c.vfs =
      some (.error .enoent, s1))
    (hcopy : kheapAlloc (path.length + 1) s1 = some (some a, s2))
    (hparent : vfsPathLookup (task t).env (splitOpen path).1 (openLookup (task t).flags) pwd s2 =
      some (.ok parent, s3))
    (hp : s3.LeadsTo parent.dentry dir)
    (hcreate : ∀ c' : Excl T, c'.vfs = s3 → c'.phase t = .absent parent →
      openCreate (task t).env parent (splitOpen path).2 (task t).flags (task t).mode c'.vfs =
        some (ret, s) ∧
      Relation.ReflTransGen (ExclStep dir name task) c' ⟨s, update c'.phase t (.returned ret)⟩) :
    vfsOpen (task t).env path (task t).flags (task t).mode pwd c.vfs = some (ret, s) ∧
    Relation.ReflTransGen (ExclStep dir name task) c ⟨s, update c.phase t (.returned ret)⟩ := by
  obtain ⟨hend, hsteps⟩ := hcreate ⟨s3, update c.phase t (.absent parent)⟩ rfl (update_self ..)
  constructor
  · refine bind_eq_some.mpr ⟨_, s1, hlook, ?_⟩
    simp only [openAbsent, (task t).creat, Bool.true_eq_false, if_false]
    exact bind_eq_some.mpr ⟨_, s2, hcopy, bind_eq_some.mpr ⟨_, s3, hparent, hend⟩⟩
  · have hq : Quiet c.vfs s3 := ((keeps_vfsPathLookup _ _ _ _ _ _ _ hlook).trans
      (keeps_kheapAlloc _ _ _ _ hcopy)).trans (keeps_vfsPathLookup _ _ _ _ _ _ _ hparent)
    rw [update_idem] at hsteps
    exact .head (.absent ht hq hp) hsteps

end

/-- The entries of the name `f` in the directory. -/
def Vfs.countF (s : Vfs) (dir : Ptr) : Option Nat :=
  (s.inodes.get dir).map fun i => entryCount i.dirList ['f']

theorem entries_of_countF (h : s.countF dir = some n) : s.Entries dir ['f'] n := by
  obtain ⟨i, hi, hn⟩ := map_eq_some_iff.mp h
  exact ⟨i, hi, hn⟩

/-- The directory `/a`, inode `1`, is open to all. -/
@[irreducible] def Vfs.openDir : Vfs :=
  ((runCalls openDirectory Vfs.boot).get (by decide +kernel)).2

/-- A task that may write in `/a` creates `/a/f` with mode `0`. There is no other task, and it does
not get a file although the entry is there. -/
theorem exclusive_create_denied :
    Vfs.openDir.Entries 1 ['f'] 0 ∧
    ∃ s, vfsOpen (Env.start 1) ['/', 'a', '/', 'f'] (oCreat ||| oExcl ||| oRdwr) 0 ⟨0, 0⟩
      Vfs.openDir =
        some (.error .eacces, s) ∧ s.Entries 1 ['f'] 1 := by
  refine ⟨entries_of_countF (by decide +kernel), ?_⟩
  have hrun : (vfsOpen (Env.start 1) ['/', 'a', '/', 'f'] (oCreat ||| oExcl ||| oRdwr) 0
      ⟨0, 0⟩ Vfs.openDir).map
      (fun r => (r.1, r.2.countF 1)) = some (.error .eacces, some 1) := by
    decide +kernel
  obtain ⟨⟨r, s⟩, hs, hr⟩ := map_eq_some_iff.mp hrun
  obtain ⟨rfl, hcount⟩ := Prod.mk.inj hr
  exact ⟨s, hs, entries_of_countF hcount⟩

/-- Root, or else the task of user `1`, who may not write in the root directory. -/
def twoTasks (root : Bool) : ExclTask :=
  ⟨Env.start (if root then 0 else 1), oCreat ||| oExcl ||| oRdwr, 0o644, by decide, by decide⟩

/-- Root has looked up the directory of `/f`. -/
@[irreducible] def Vfs.looked : Vfs :=
  after (vfsPathLookup (Env.start 0) [] lookupFollow ⟨0, 0⟩) (after (kheapAlloc 3)
    (after (vfsPathLookup (Env.start 0) ['/', 'f'] lookupFollow ⟨0, 0⟩) Vfs.boot))

/-- Root has a dentry for `/f`, and then the entry and a file. -/
@[irreducible] def Vfs.dalloced : Vfs := after (vfsDalloc (Env.start 0) 0 ['f']) Vfs.looked

@[irreducible] def Vfs.created : Vfs :=
  after (openLocked (Env.start 0) 0 2 ['f'] 0o644) Vfs.dalloced

@[irreducible] def Vfs.opened : Vfs :=
  after (createEnd (Env.start 0) ⟨0, 0⟩ ['f'] 2 (twoTasks true).flags .created) Vfs.created

/-- The other task has the dentry, and has then been under the lock. -/
@[irreducible] def Vfs.waited : Vfs := after (vfsDalloc (Env.start 1) 0 ['f']) Vfs.opened

@[irreducible] def Vfs.late : Vfs := after (openLocked (Env.start 1) 0 2 ['f'] 0o644) Vfs.waited

/-- The pieces of root's call. -/
theorem root_runs :
    vfsPathLookup (Env.start 0) [] lookupFollow ⟨0, 0⟩ (after (kheapAlloc 3)
      (after (vfsPathLookup (Env.start 0) ['/', 'f'] lookupFollow ⟨0, 0⟩) Vfs.boot)) =
        some (.ok ⟨0, 0⟩, Vfs.looked) ∧
    vfsDalloc (Env.start 0) 0 ['f'] Vfs.looked = some (some 2, Vfs.dalloced) ∧
    openLocked (Env.start 0) 0 2 ['f'] 0o644 Vfs.dalloced = some (.created, Vfs.created) ∧
    createEnd (Env.start 0) ⟨0, 0⟩ ['f'] 2 (twoTasks true).flags .created Vfs.created =
      some (.ok 0, Vfs.opened) := by
  refine ⟨?_, ?_, ?_, ?_⟩
  · rw [Vfs.looked]
    exact run_after (by decide +kernel)
  · rw [Vfs.dalloced]
    exact run_after (by decide +kernel)
  · rw [Vfs.created]
    exact run_after (by decide +kernel)
  · rw [Vfs.opened]
    exact run_after (by decide +kernel)

theorem created_mayOpen : MayOpen (Env.start 0) Vfs.created 0 2 (twoTasks true).flags := by
  have h : ∀ v ∈ Vfs.created.dentries.get 2, ∀ p ∈ v.inode, ∀ i ∈ Vfs.created.inodes.get p,
      ∀ m ∈ Vfs.created.mounts.get 0, openCheck (Env.start 0) i m (twoTasks true).flags
        (permMask (twoTasks true).flags) = .ok () := by
    decide +kernel
  intro v p i m hv hp hi hm
  exact h v hv p hp i hi m hm

theorem coherent_of_uncached {uid : Nat} (h : s.cached (Env.start uid) 0 ['f'] = some none) :
    Coherent (Env.start uid) s 0 0 ['f'] := by
  intro _ d hd
  rw [h] at hd
  cases hd

theorem coherent_of_present {uid : Nat} (h : s.countF 0 = some 1) :
    Coherent (Env.start uid) s 0 0 ['f'] := by
  rintro ⟨i, hi, hcount⟩
  rw [Vfs.countF, hi, map_some, hcount] at h
  cases h

theorem leadsTo_of_inode (h : (s.dentries.get 0).map (·.inode) = some (some 0)) : s.LeadsTo 0 0 :=
  map_eq_some_iff.mp h

/-- The whole call of root. -/
theorem root_call (phase : Bool → ExclPhase) (ht : phase true = .calling) :
    vfsOpen (Env.start 0) ['/', 'f'] (twoTasks true).flags 0o644 ⟨0, 0⟩ Vfs.boot =
      some (.ok 0, Vfs.opened) ∧
    Relation.ReflTransGen (ExclStep 0 ['f'] twoTasks) ⟨Vfs.boot, phase⟩
      ⟨Vfs.opened, update phase true (.returned (.ok 0))⟩ := by
  have hlook : vfsPathLookup (Env.start 0) ['/', 'f'] lookupFollow ⟨0, 0⟩ Vfs.boot =
      some (.error .enoent, _) := run_after (by decide +kernel)
  have hcopy : kheapAlloc 3 (after (vfsPathLookup (Env.start 0) ['/', 'f'] lookupFollow ⟨0, 0⟩)
      Vfs.boot) = some (some 21, _) := run_after (by decide +kernel)
  have hperm : ∀ i ∈ Vfs.dalloced.inodes.get 0,
      vfsInodePermission (Env.start 0) i (mayWrite ||| mayExec) = .ok () := by
    decide +kernel
  have huncached : Coherent (Env.start 0) Vfs.looked 0 0 ['f'] :=
    coherent_of_uncached (by decide +kernel)
  obtain ⟨hlooked, hdalloced, hcreated, hopened⟩ := root_runs
  refine exclRun_vfsOpen twoTasks (c := ⟨Vfs.boot, phase⟩) (t := true) ht hlook hcopy hlooked
    (leadsTo_of_inode (by decide +kernel)) ?_
  rintro ⟨_, phase'⟩ rfl ht'
  exact exclRun_openCreate twoTasks (t := true) ht' huncached hdalloced (fun _ _ => hperm)
    (coherent_of_uncached (by decide +kernel)) hcreated nofun (fun _ => created_mayOpen) hopened
    nofun

/-- Both tasks find the name absent. Root creates it and gets it; the other task comes to the lock
later and is told that the name exists, although it may not write in the directory. -/
theorem exclusive_create_twoTasks :
    ∃ c, Relation.ReflTransGen (ExclStep 0 ['f'] twoTasks) ⟨Vfs.boot, fun _ => .calling⟩ c ∧
      c.phase true = .returned (.ok 0) ∧ c.phase false = .returned (.error .eexist) ∧
      (∃! t, ∃ f, c.phase t = .returned (.ok f)) ∧ c.vfs.Entries 0 ['f'] 1 := by
  have hwaited : vfsDalloc (Env.start 1) 0 ['f'] Vfs.opened = some (some 2, Vfs.waited) := by
    rw [Vfs.waited]
    exact run_after (by decide +kernel)
  have hlate : openLocked (Env.start 1) 0 2 ['f'] 0o644 Vfs.waited = some (.found, Vfs.late) := by
    rw [Vfs.late]
    exact run_after (by decide +kernel)
  have hexists : vfsFileExists (Env.start 1) 0 ['f'] ['f'] Vfs.waited = some (true, _) :=
    run_after (by decide +kernel)
  have hend : createEnd (Env.start 1) ⟨0, 0⟩ ['f'] 2 (twoTasks false).flags .found Vfs.late =
      some (.error .eexist, _) := run_after (by decide +kernel)
  have hlook : ExclStep 0 ['f'] twoTasks ⟨Vfs.boot, fun _ => .calling⟩
      ⟨Vfs.boot, update (fun _ => .calling) false (.absent ⟨0, 0⟩)⟩ :=
    .absent rfl (.refl _) (leadsTo_of_inode (by decide +kernel))
  have hroot := (root_call (update (fun _ => .calling) false (.absent ⟨0, 0⟩)) rfl).2
  let c : Excl Bool := ⟨Vfs.opened, update (update (fun _ => .calling) false (.absent ⟨0, 0⟩)) true
    (.returned (.ok 0))⟩
  have hother : Relation.ReflTransGen (ExclStep 0 ['f'] twoTasks) c _ :=
    (exclRun_openCreate twoTasks (show c.phase false = .absent ⟨0, 0⟩ from rfl)
      (coherent_of_present (by decide +kernel)) hwaited
      (fun s hs => by cases hexists.symm.trans hs) (coherent_of_present (by decide +kernel))
      hlate nofun nofun hend nofun).2
  have hrun := (Relation.ReflTransGen.head hlook hroot).trans hother
  have hn : Vfs.boot.Entries 0 ['f'] 0 := entries_of_countF (by decide +kernel)
  refine ⟨_, hrun, rfl, rfl, ?_⟩
  refine (exclusive_create hn (fun _ => rfl) hrun).2.2 ⟨true⟩ fun t => ?_
  cases t
  · exact ⟨.error .eexist, rfl⟩
  · exact ⟨.ok 0, rfl⟩

end ShiziOS.Fs
