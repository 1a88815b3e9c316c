import ShiziOS.Fs.CallRules

/-!
# What a call leaves of the directories

`Kept A M s₀ s` says what a call of a task, begun in `s₀`, may have done to the inodes there were:
their owners, modes and file operations are as before, and so are their entries, unless the task
may write and search the directory; of the inodes in `M` the number of `..` may be another. An
inode that is new since `s₀` may be changed in any way.

One lemma for every function of tmpfs that changes inodes, under the assumption that the directory
it changes is one the task may change (`AllowedAt`).
-/

namespace ShiziOS.Fs

open Exec List

/-! ## Entries that may change -/

/-- An entry without the number of `..`. -/
def hideDotdot (de : DirEntry) : DirEntry := if de.name = ['.', '.'] then ⟨de.name, 0⟩ else de

/-- The owner, the mode and the operations of an open file are the same. -/
structure SameOwner (i i' : Inode) : Prop where
  mode : i'.mode = i.mode
  uid : i'.uid = i.uid
  gid : i'.gid = i.gid
  fop : i'.fop = i.fop

/-- The entries of the inode `p`, `i` before and `i'` now, are what they may be. -/
def EntriesKept (A : Inode → Prop) (M : Ptr → Prop) (p : Ptr) (i i' : Inode) : Prop :=
  i'.dirList = i.dirList ∨ M p ∧ i'.dirList.map hideDotdot = i.dirList.map hideDotdot ∨ A i

structure Kept (A : Inode → Prop) (M : Ptr → Prop) (s₀ s : Vfs) : Prop where
  inodes : ∀ p i, s₀.inodes.get p = some i → ∃ i', s.inodes.get p = some i' ∧ SameOwner i i' ∧
    EntriesKept A M p i i'
  next : s₀.inodes.next ≤ s.inodes.next

/-- If the inode was there, its entries may change. -/
def AllowedAt (A : Inode → Prop) (s₀ : Vfs) (p : Ptr) : Prop := ∀ i, s₀.inodes.get p = some i → A i

variable {env : Env} {A : Inode → Prop} {M : Ptr → Prop} {s0 s s' : Vfs} {p dir : Ptr}

theorem SameOwner.refl (i : Inode) : SameOwner i i := ⟨rfl, rfl, rfl, rfl⟩

variable {i : Inode} {f : Inode → Inode} {mode : Mode} {ino : Nat}
  {dentry old new oldDir oldInode newDir : Ptr}

theorem SameOwner.trans {j k : Inode} (h : SameOwner i j) (h' : SameOwner j k) : SameOwner i k :=
  ⟨h'.mode.trans h.mode, h'.uid.trans h.uid, h'.gid.trans h.gid, h'.fop.trans h.fop⟩

theorem SameOwner.of_core {i' : Inode} (h : i'.core = i.core) : SameOwner i i' :=
  ⟨(congrArg Inode.mode h :), (congrArg Inode.uid h :), (congrArg Inode.gid h :),
    (congrArg Inode.fop h :)⟩

theorem Kept.refl (s : Vfs) : Kept A M s s where
  inodes _ i hi := ⟨i, hi, .refl i, .inl rfl⟩
  next := le_rfl

theorem EntriesKept.of_eq {i' i'' : Inode} (h : EntriesKept A M p i i')
    (he : i''.dirList = i'.dirList) : EntriesKept A M p i i'' := by
  rw [EntriesKept, he]
  exact h

section

variable (h : Kept A M s0 s)
include h

theorem Kept.quiet (hq : Quiet s s') : Kept A M s0 s' where
  inodes p i hi := by
    obtain ⟨i1, hi1, ho, he⟩ := h.inodes p i hi
    obtain ⟨i2, hi2, hcore⟩ := hq.inode hi1
    exact ⟨i2, hi2, ho.trans (.of_core hcore), he.of_eq (congrArg Inode.dirList hcore :)⟩
  next := h.next.trans (le_of_eq hq.inodesNext.symm)

theorem Kept.sameInodes (he : s'.inodes = s.inodes) : Kept A M s0 s' := by
  obtain ⟨hi, hn⟩ := h
  rw [← he] at hi hn
  exact ⟨hi, hn⟩

theorem Kept.mono {M' : Ptr → Prop} (hM : ∀ p, M p → M' p) : Kept A M' s0 s where
  inodes p i hi := by
    obtain ⟨i', hi', ho, he⟩ := h.inodes p i hi
    exact ⟨i', hi', ho, he.imp id (Or.imp (fun h => ⟨hM p h.1, h.2⟩) id)⟩
  next := h.next

theorem Kept.modify (hf : ∀ i0, s0.inodes.get p = some i0 → ∀ i, SameOwner i (f i) ∧
      (EntriesKept A M p i0 i → EntriesKept A M p i0 (f i))) :
    Kept A M s0 { s with inodes := s.inodes.modify p f } where
  inodes q i hi := by
    obtain ⟨i1, hi1, ho, he⟩ := h.inodes q i hi
    by_cases hq : q = p
    · subst hq
      obtain ⟨ho', he'⟩ := hf i hi i1
      exact ⟨f i1, by rw [Store.get_modify_self, hi1, Option.map_some], ho.trans ho', he' he⟩
    · exact ⟨i1, by rw [Store.get_modify_of_ne f hq, hi1], ho, he⟩
  next := h.next

theorem Kept.erase (hp : s0.inodes.next ≤ p) :
    Kept A M s0 { s with inodes := s.inodes.erase p } where
  inodes q i hi := by
    have hlt := Store.lt_next hi
    obtain ⟨i1, hi1, hk⟩ := h.inodes q i hi
    exact ⟨i1, by rw [Store.get_erase_of_ne (by omega), hi1], hk⟩
  next := h.next

theorem Kept.alloc (v : Inode) : Kept A M s0 { s with inodes := s.inodes.alloc v } where
  inodes q i hi := by
    obtain ⟨i1, hi1, hk⟩ := h.inodes q i hi
    exact ⟨i1, Store.get_alloc_of_some hi1, hk⟩
  next := h.next.trans (Nat.le_succ _)

end

/-! ## Programs that keep directories -/

theorem kept_quiet {α : Type} {x : K α} (h : Keeps Quiet x) : Preserves (Kept A M s0) x :=
  h.preserves fun _ _ => Kept.quiet

theorem kept_sameInodes {α : Type} {x : K α} (h : Keeps (fun s s' => s'.inodes = s.inodes) x) :
    Preserves (Kept A M s0) x :=
  h.preserves fun _ _ => Kept.sameInodes

theorem kept_setDentry (p : Ptr) (f : Dentry → Dentry) : Preserves (Kept A M s0) (setDentry p f) :=
  kept_sameInodes fun _ => spec_setDentry fun _ _ => rfl

theorem kept_kheapAlloc (size : Nat) : Preserves (Kept A M s0) (kheapAlloc size) :=
  kept_quiet (keeps_kheapAlloc size)

/-- Neither the owner and the mode of an inode nor its entries change. -/
abbrev Plain (f : Inode → Inode) : Prop :=
  ∀ i, ((f i).mode, (f i).uid, (f i).gid, (f i).fop, (f i).dirList) =
    (i.mode, i.uid, i.gid, i.fop, i.dirList)

theorem kept_setAttr (hf : Plain f) : Preserves (Kept A M s0) (setInode p f) := by
  intro s hs
  refine spec_setInode fun _ _ => hs.modify ?_
  intro i0 _ i
  obtain ⟨hmode, huid, hgid, hfop, hlist⟩ := by simpa only [Prod.mk.injEq] using hf i
  exact ⟨⟨hmode, huid, hgid, hfop⟩, fun he => he.of_eq hlist⟩

theorem kept_setDir (hp : AllowedAt A s0 p) (hf : ∀ i, SameOwner i (f i)) :
    Preserves (Kept A M s0) (setInode p f) := by
  intro s hs
  refine spec_setInode fun _ _ => hs.modify ?_
  intro i0 hi0 i
  exact ⟨hf i, fun _ => .inr (.inr (hp i0 hi0))⟩

theorem kept_setNew (hp : s0.inodes.next ≤ p) : Preserves (Kept A M s0) (setInode p f) := by
  intro s hs
  refine spec_setInode fun _ _ => hs.modify ?_
  intro i0 hi0
  have := Store.lt_next hi0
  omega

theorem allowedAt_new (hp : s0.inodes.next ≤ p) : AllowedAt A s0 p := by
  intro i hi
  have := Store.lt_next hi
  omega

/-! ## What making inodes does to an invariant -/

/-- Inodes, dentries, mounts and open files are the same. -/
structure Beside (s s' : Vfs) : Prop where
  inodes : s'.inodes = s.inodes
  dentries : s'.dentries = s.dentries
  mounts : s'.mounts = s.mounts
  files : s'.files = s.files

/-- An invariant that bears any change of the inodes that are `New`, other entries of the
directories in `Dir`, and what is plain of all inodes. -/
structure Bears (I : Vfs → Prop) (New Dir : Ptr → Prop) : Prop where
  rest : ∀ {s s'}, I s → Beside s s' → I s'
  alloc : ∀ {s} v, I s → New s.inodes.next ∧ I { s with inodes := s.inodes.alloc v }
  erase : ∀ {s p}, New p → I s → I { s with inodes := s.inodes.erase p }
  plain : ∀ {p f}, Plain f → Preserves I (setInode p f)
  dir : ∀ {p f}, Dir p → (∀ i, SameOwner i (f i)) → Preserves I (setInode p f)
  new : ∀ {p f}, New p → Preserves I (setInode p f)
  dir_of_new : ∀ {p}, New p → Dir p

theorem bears_kept : Bears (Kept A M s0) (s0.inodes.next ≤ ·) (AllowedAt A s0) where
  rest h hb := h.sameInodes hb.inodes
  alloc v h := ⟨h.next, h.alloc v⟩
  erase hp h := h.erase hp
  plain := kept_setAttr
  dir := kept_setDir
  new := kept_setNew
  dir_of_new := allowedAt_new

namespace Bears

variable {I : Vfs → Prop} {New Dir : Ptr → Prop} {inode sb : Ptr} {name : Name}
  (h : Bears I New Dir)

include h

theorem setSb (f : SuperBlock → SuperBlock) : Preserves I (Fs.setSb p f) :=
  fun _ hs => spec_setSb fun _ _ => h.rest hs ⟨rfl, rfl, rfl, rfl⟩

theorem heap {α : Type} (x : Exec Oracle α) : Preserves I (onHeap x) :=
  fun _ hs => spec_onHeap fun _ _ _ => h.rest hs ⟨rfl, rfl, rfl, rfl⟩

theorem kheap (size : Nat) : Preserves I (kheapAlloc size) := h.heap _

/-! ### New inodes -/

theorem destroyInode (hp : New p) : Preserves I (tmpfsDestroyInode p) := by
  apply preserves_inodeAt
  intro _ s hs
  exact spec_modify (h.erase hp hs)

theorem dropInode (hp : New p) : Preserves I (tmpfsDropInode p) := by
  apply preserves_inodeAt
  intro i
  apply preserves_bind (h.setSb _)
  intro _
  exact h.destroyInode hp

theorem icacheAdd : Preserves I (vfsIcacheAdd env p) := by
  apply preserves_inodeAt
  intro i
  apply preserves_read keeps_sbAt
  intro b
  apply preserves_read keeps_get
  intro s
  refine preserves_bind (h.plain fun _ => rfl) ?_
  intro _ s hs
  exact spec_modify (h.rest hs ⟨rfl, rfl, rfl, rfl⟩)

theorem allocIno : Preserves I (tmpfsAllocIno p) := by
  apply preserves_read keeps_sbAt
  intro b
  apply preserves_bind (h.heap _)
  refine unless_none (preserves_pure _) ?_
  intro r
  exact (h.setSb _).result

theorem allocInode (sb : Ptr) (hs : I s) :
    Spec (tmpfsAllocInode sb) s fun r s' => I s' ∧ ∀ p, r = some p → New p := by
  refine (h.kheap _).bind hs ?_
  refine unless_none (fun _ h1 => spec_pure ⟨h1, nofun⟩) ?_
  intro a s1 h1
  refine (h.kheap _).bind h1 ?_
  refine unless_none (fun _ h2 => spec_pure ⟨h2, nofun⟩) ?_
  intro b s2 h2
  apply spec_get
  apply spec_bind
  apply spec_modify
  obtain ⟨hnew, h3⟩ := h.alloc _ h2
  refine spec_pure ⟨h3, ?_⟩
  intro p hp
  cases hp
  exact hnew

theorem inodeInit (hp : New p) : Preserves I (tmpfsInodeInit env p sb mode) := by
  apply preserves_bind h.allocIno
  refine unless_none (preserves_pure _) ?_
  intro ino
  apply preserves_bind (h.new hp)
  intro _
  exact h.icacheAdd.result

theorem newInode (sb : Ptr) (mode : Mode) (hs : I s) :
    Spec (tmpfsNewInode env sb mode) s fun r s' => I s' ∧ ∀ p, r = .ok p → New p := by
  refine (h.allocInode sb hs).bind ?_
  refine unless_none (fun _ ⟨h1, _⟩ => spec_pure ⟨h1, nofun⟩) ?_
  intro p s1 ⟨h1, hnew⟩
  refine (h.inodeInit (hnew p rfl)).bind h1 ?_
  intro r s2 h2
  cases r with
  | ok _ =>
    refine spec_pure ⟨h2, ?_⟩
    intro q hq
    cases hq
    exact hnew p rfl
  | error e =>
    refine (h.destroyInode (hnew p rfl)).bind h2 ?_
    intro _ s3 h3
    exact spec_pure ⟨h3, nofun⟩

/-! ### The operations of tmpfs -/

theorem dirAdd (hd : Dir dir) : Preserves I (tmpfsDirAdd dir name ino) := by
  apply preserves_bind (h.kheap _)
  refine unless_none (preserves_pure _) ?_
  intro a
  apply preserves_bind (h.kheap _)
  refine unless_none (preserves_pure _) ?_
  intro b
  exact preserves_bind (h.dir hd fun _ => ⟨rfl, rfl, rfl, rfl⟩) fun _ => preserves_pure _

theorem dirRemove (hd : Dir dir) : Preserves I (tmpfsDirRemove dir name) :=
  h.dir hd fun _ => ⟨rfl, rfl, rfl, rfl⟩

theorem enter (hd : Dir dir) (hi : New inode) : Preserves I (tmpfsEnter dir dentry inode) := by
  apply preserves_dentryAt
  intro d
  apply preserves_inodeAt
  intro tdir
  cases tmpfsDirLookup tdir.dirList d.name with
  | some de => exact (h.dropInode hi).result
  | none =>
    apply preserves_inodeAt
    intro i
    apply preserves_bind (h.dirAdd hd)
    refine unless_error (fun _ => (h.dropInode hi).result) ?_
    intro _
    exact preserves_pure _

theorem dots (hp : New p) : Preserves I (tmpfsDots p ino) := by
  have hd : Dir p := h.dir_of_new hp
  apply preserves_inodeAt
  intro i
  apply preserves_bind (h.dirAdd hd)
  refine unless_error (fun _ => preserves_pure _) ?_
  intro _
  apply preserves_bind (h.dirAdd hd)
  refine unless_error (fun _ => (h.dirRemove hd).result) ?_
  intro _
  exact preserves_pure _

theorem setattrSize (size : Option Nat) : Preserves I (Fs.setattrSize p size) := by
  cases size with
  | none => exact preserves_pure _
  | some size =>
    apply preserves_inodeAt
    intro i
    apply preserves_read keeps_sbAt
    intro b
    apply preserves_bind (h.heap _)
    intro r
    apply preserves_bind (h.setSb _)
    intro _
    exact preserves_bind (h.plain fun _ => rfl) fun _ => preserves_pure _

theorem withInode {rest : Ptr → K (Except Errno Unit)} (hrest : ∀ p, New p → Preserves I (rest p)) :
    Preserves I (do
      match ← tmpfsNewInode env sb mode with
      | .error e => pure (.error e)
      | .ok p => rest p) := by
  intro s hs
  refine (h.newInode sb mode hs).bind ?_
  refine unless_error (fun _ _ ⟨h1, _⟩ => spec_pure h1) ?_
  intro p s1 ⟨h1, hnew⟩
  exact hrest p (hnew p rfl) s1 h1

variable (hdentry : ∀ p f, Preserves I (setDentry p f))

include hdentry

variable (hd : Dir dir)
include hd

theorem create : Preserves I (tmpfsCreate env dir dentry mode) := by
  apply preserves_inodeAt
  intro i
  apply h.withInode
  intro p hp
  apply preserves_bind (h.new hp)
  intro _
  apply preserves_bind (h.enter hd hp)
  refine unless_error (fun _ => preserves_pure _) ?_
  intro _
  exact (hdentry _ _).result

theorem symlink {target : Name} : Preserves I (tmpfsSymlink env dir dentry target) := by
  apply preserves_inodeAt
  intro i
  apply h.withInode
  intro p hp
  apply preserves_bind (h.new hp)
  intro _
  split_ifs with hl
  · exact (h.destroyInode hp).result
  · apply preserves_bind (h.kheap _)
    refine unless_none ((h.destroyInode hp).result) ?_
    intro a
    apply preserves_bind (h.new hp)
    intro _
    apply preserves_bind (h.enter hd hp)
    refine unless_error (fun _ => preserves_pure _) ?_
    intro _
    exact (hdentry _ _).result

theorem mknod {dev : Nat} : Preserves I (tmpfsMknod env dir dentry mode dev) := by
  apply preserves_inodeAt
  intro i
  apply h.withInode
  intro p hp
  apply preserves_bind (h.new hp)
  intro _
  apply preserves_dentryAt
  intro d
  apply preserves_inodeAt
  intro j
  apply preserves_bind (h.dirAdd hd)
  refine unless_error (fun _ => (h.dropInode hp).result) ?_
  intro _
  exact (hdentry _ _).result

theorem link : Preserves I (tmpfsLink old dir new) := by
  apply preserves_dentryInode
  intro p
  apply preserves_dentryAt
  intro d
  apply preserves_inodeAt
  intro i
  apply preserves_bind (h.dirAdd hd)
  refine unless_error (fun _ => preserves_pure _) ?_
  intro _
  refine preserves_bind (h.plain fun _ => rfl) ?_
  intro _
  apply preserves_bind (hdentry _ _)
  intro _
  exact preserves_bind (h.plain fun _ => rfl) fun _ => preserves_pure _

theorem unlink : Preserves I (tmpfsUnlink dir dentry) := by
  apply preserves_dentryAt
  intro d
  apply preserves_inodeAt
  intro i
  cases tmpfsDirLookup i.dirList d.name with
  | none => exact preserves_pure _
  | some de =>
    apply preserves_bind (h.dirRemove hd)
    intro _
    apply preserves_dentryInode
    intro q
    refine preserves_bind (h.plain fun _ => rfl) ?_
    intro _
    exact (hdentry _ _).result

theorem mkdir : Preserves I (tmpfsMkdir env dir dentry mode) := by
  apply preserves_inodeAt
  intro i
  apply h.withInode
  intro p hp
  apply preserves_bind (h.new hp)
  intro _
  apply preserves_bind (h.enter hd hp)
  refine unless_error (fun _ => preserves_pure _) ?_
  intro _
  apply preserves_inodeAt
  intro j
  apply preserves_bind (h.dots hp)
  intro r
  cases r with
  | error e =>
    apply preserves_dentryAt
    intro d
    apply preserves_bind (h.dirRemove hd)
    intro _
    exact (h.dropInode hp).result
  | ok _ =>
    refine preserves_bind (h.plain fun _ => rfl) ?_
    intro _
    exact (hdentry _ _).result

theorem rmdir : Preserves I (tmpfsRmdir dir dentry) := by
  apply preserves_dentryInode
  intro child
  apply preserves_inodeAt
  intro i
  split_ifs with he
  · exact preserves_pure _
  · apply preserves_dentryAt
    intro d
    apply preserves_inodeAt
    intro j
    cases tmpfsDirLookup j.dirList d.name with
    | none => exact preserves_pure _
    | some de =>
      apply preserves_bind (h.dirRemove hd)
      intro _
      refine preserves_bind (h.plain fun _ => rfl) ?_
      intro _
      refine preserves_bind (h.plain fun _ => rfl) ?_
      intro _
      exact (hdentry _ _).result

end Bears

/-! ## Renaming -/

theorem hideDotdot_setEntryIno (ino : Nat) (l : List DirEntry) :
    (setEntryIno ['.', '.'] ino l).map hideDotdot = l.map hideDotdot := by
  induction l with
  | nil => rfl
  | cons de l ih =>
    rw [setEntryIno, replaceEntry]
    split_ifs with hn
    · have hn : de.name = ['.', '.'] := by simpa using hn
      rw [map_cons, map_cons, hideDotdot, hideDotdot, if_pos rfl, if_pos hn, hn]
    · rw [map_cons, map_cons, ← ih]
      rfl

theorem kept_setDotdot (hp : M p) :
    Preserves (Kept A M s0)
      (setInode p fun i => { i with dirList := setEntryIno ['.', '.'] ino i.dirList }) := by
  intro s hs
  refine spec_setInode fun _ _ => hs.modify ?_
  intro i0 _ i
  refine ⟨⟨rfl, rfl, rfl, rfl⟩, ?_⟩
  rintro (he | ⟨-, he⟩ | hm)
  · exact .inr (.inl ⟨hp, (hideDotdot_setEntryIno ino _).trans (congrArg _ he)⟩)
  · exact .inr (.inl ⟨hp, (hideDotdot_setEntryIno ino _).trans he⟩)
  · exact .inr (.inr hm)

theorem kept_moveDotdot (hm : M oldInode) :
    Preserves (Kept A M s0) (moveDotdot oldDir oldInode newDir) := by
  apply preserves_inodeAt
  intro i
  split_ifs
  · exact preserves_stuck
  · apply preserves_inodeAt
    intro j
    refine preserves_bind (kept_setDotdot hm) ?_
    intro _
    refine preserves_bind (kept_setAttr fun _ => rfl) ?_
    intro _
    exact kept_setAttr fun _ => rfl
  · exact preserves_pure _

theorem moveEntry_kept {oldName newName : Name} (hs : Kept A (fun _ => False) s0 s)
    (ho : AllowedAt A s0 oldDir) (hn : AllowedAt A s0 newDir) :
    Spec (moveEntry oldDir oldInode newDir oldName newName) s fun r s' =>
      Kept A (fun p => r = .ok () ∧ p = oldInode) s0 s' := by
  rw [moveEntry]
  split_ifs with hd
  · refine (kept_kheapAlloc _).bind hs ?_
    refine unless_none (fun _ h1 => spec_pure (h1.mono fun _ => False.elim)) ?_
    intro a s1 h1
    refine Preserves.bind (kept_setDir ho fun _ => ⟨rfl, rfl, rfl, rfl⟩) h1 ?_
    intro _ s2 h2
    exact spec_pure (h2.mono fun _ => False.elim)
  · refine keeps_inodeAt.read fun i => ?_
    refine (bears_kept.dirAdd hn).bind hs ?_
    refine unless_error (fun _ _ h2 => spec_pure (h2.mono fun _ => False.elim)) ?_
    intro _ s2 h2
    refine (bears_kept.dirRemove ho).bind h2 ?_
    intro _ s3 h3
    have h4 : Kept A (Eq oldInode) s0 s3 := h3.mono fun _ => False.elim
    refine (kept_moveDotdot rfl).bind h4 ?_
    intro _ s4 h4
    exact spec_pure (h4.mono fun p hp => ⟨rfl, hp.symm⟩)

theorem renameMove_kept (hs : Kept A (fun _ => False) s0 s)
    (ho : AllowedAt A s0 oldDir) (hn : AllowedAt A s0 newDir) :
    Spec (renameMove oldDir old oldInode newDir new) s fun r s' =>
      Kept A (fun p => r = .ok () ∧ p = oldInode) s0 s' := by
  apply spec_dentryAt
  intro d _
  apply spec_dentryAt
  intro d' _
  refine (moveEntry_kept hs ho hn).bind ?_
  refine unless_error (fun _ _ h1 => spec_pure (h1.mono fun _ h => (by cases h.1))) ?_
  intro _ s1 h1
  refine (kept_setDentry _ _).bind h1 ?_
  intro _ s2 h2
  refine (kept_setDentry _ _).bind h2 ?_
  intro _ s3 h3
  exact spec_pure h3

theorem keeps_targetInode (o : Option Ptr) : Keeps Quiet (targetInode o) := by
  cases o with
  | none => exact keeps_pure _
  | some p => exact keeps_inodeAt.result

theorem keeps_renameCheck (oldDir oldInode newDir new : Ptr) :
    Keeps Quiet (renameCheck oldDir oldInode newDir new) := by
  apply keeps_bind keeps_inodeAt
  intro i
  apply keeps_bind keeps_dentryAt
  intro d
  apply keeps_bind (keeps_targetInode _)
  intro target
  split_ifs
  · exact keeps_pure _
  · exact keeps_pure _
  · apply keeps_bind keeps_get
    intro s
    apply keeps_bind (keeps_ofOption _)
    intro b
    split_ifs
    · exact keeps_pure _
    · exact keeps_pure _
  · exact keeps_pure _

/-- `tmpfs_rename` changes its two directories and, if it succeeds, the `..` of what it moves. -/
theorem tmpfsRename_kept {d : Dentry} (hs : Kept A (fun _ => False) s0 s)
    (ho : AllowedAt A s0 oldDir) (hn : AllowedAt A s0 newDir) (hd : s.dentries.get old = some d) :
    Spec (tmpfsRename oldDir old newDir new) s fun r s' =>
      Kept A (fun p => r = .ok () ∧ d.inode = some p) s0 s' := by
  apply spec_dentryAt
  intro d' hd'
  cases hd.symm.trans hd'
  cases d.inode with
  | none => exact spec_pure (hs.mono fun _ => False.elim)
  | some oldInode =>
    have hmove : ∀ s, Kept A (fun _ => False) s0 s →
        Spec (renameMove oldDir old oldInode newDir new) s fun r s' =>
          Kept A (fun p => r = .ok () ∧ some oldInode = some p) s0 s' := by
      intro s hs
      refine (renameMove_kept hs ho hn).mono ?_
      intro r s' h'
      exact h'.mono fun p hp => ⟨hp.1, congrArg some hp.2.symm⟩
    refine (kept_quiet (keeps_renameCheck _ _ _ _)).bind hs ?_
    refine unless_error (fun _ _ h1 => spec_pure (h1.mono fun _ => False.elim)) ?_
    intro _ s1 h1
    apply spec_dentryAt
    intro dOld _
    apply spec_dentryAt
    intro dNew _
    apply spec_inodeAt
    intro iOld _
    cases tmpfsDirLookup iOld.dirList dOld.name with
    | none => exact spec_pure (h1.mono fun _ => False.elim)
    | some _ =>
      cases dNew.inode with
      | none => exact hmove s1 h1
      | some newInode =>
        apply spec_inodeAt
        intro iNew _
        cases tmpfsDirLookup iNew.dirList dNew.name with
        | none => exact hmove s1 h1
        | some _ =>
          split_ifs with he
          · exact spec_pure (h1.mono fun _ => False.elim)
          · refine (bears_kept.dirRemove hn).bind h1 ?_
            intro _ s2 h2
            refine Preserves.bind (kept_setAttr fun _ => rfl) h2 ?_
            intro _ s3 h3
            exact hmove s3 h3

/-! ## Directories that nobody changes -/

/-- The entries and the file operations of all inodes there are stay what they are. -/
abbrev Kept0 (s s' : Vfs) : Prop := Kept (fun _ => False) (fun _ => False) s s'

theorem Kept0.inode (h : Kept0 s s') (hi : s.inodes.get p = some i) :
    ∃ i', s'.inodes.get p = some i' ∧ SameOwner i i' ∧ i'.dirList = i.dirList := by
  obtain ⟨i', hi', ho, he | ⟨hf, -⟩ | hf⟩ := h.inodes p i hi
  · exact ⟨i', hi', ho, he⟩
  · exact hf.elim
  · exact hf.elim

theorem Kept.kept0 (h : Kept A M s0 s) (h' : Kept0 s s') : Kept A M s0 s' where
  inodes p i hi := by
    obtain ⟨i1, hi1, ho1, he⟩ := h.inodes p i hi
    obtain ⟨i2, hi2, ho2, hl⟩ := h'.inode hi1
    exact ⟨i2, hi2, ho1.trans ho2, he.of_eq hl⟩
  next := h.next.trans h'.next

end ShiziOS.Fs
