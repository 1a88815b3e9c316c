import ShiziOS.Fs.GraphOps
import ShiziOS.Fs.Kept

/-!
# Calls on files leave the graph as it is

Opening, reading, writing and truncating a file and setting its attributes change the data of
inodes, the pages of super blocks and files, but no directory and no inode number.
-/

namespace ShiziOS.Fs

open Exec Option

variable {env : Env} {s s' : Vfs} {p : Ptr} {α : Type}

theorem tmpfsAllocPages_bitmap {sb sb' : SuperBlock} {count : Nat}
    (h : tmpfsAllocPages sb count = some sb') : sb'.inodeBitmap = sb.inodeBitmap := by
  rw [tmpfsAllocPages] at h
  split_ifs at h
  · cases h
    rfl
  · cases h
    rfl

theorem tmpfsFreePages_bitmap (sb : SuperBlock) (count : Nat) :
    (tmpfsFreePages sb count).inodeBitmap = sb.inodeBitmap := by rw [tmpfsFreePages]

theorem tmpfsSetSize_bitmap (sb : SuperBlock) (f : FileData) (newSize : Nat) (heap : Oracle) :
    Spec (tmpfsSetSize sb f newSize) heap fun r _ => r.2.1.inodeBitmap = sb.inodeBitmap := by
  rw [tmpfsSetSize]
  split_ifs with hless hmore
  · cases f.pages with
    | none => exact spec_pure (tmpfsFreePages_bitmap _ _)
    | some d =>
      apply spec_bind
      exact spec_ofOption fun _ _ => spec_pure (tmpfsFreePages_bitmap _ _)
  · cases ha : tmpfsAllocPages sb (pagesOf newSize - pagesOf f.size) with
    | none => exact spec_pure rfl
    | some sb' =>
      have hsb := tmpfsAllocPages_bitmap ha
      apply spec_bind
      refine unless_none (fun _ _ => spec_pure ((tmpfsFreePages_bitmap _ _).trans hsb)) ?_
      intro d heap1 _
      apply spec_bind
      rintro ⟨done, d'⟩ heap2 _
      cases done with
      | true => exact spec_pure hsb
      | false => exact spec_pure ((tmpfsFreePages_bitmap _ _).trans hsb)
  · exact spec_pure rfl

theorem tmpfsWrite_bitmap (sb : SuperBlock) (f : FileData) (offset : Nat) (data : List Bytes.Byte)
    (heap : Oracle) :
    Spec (tmpfsWrite sb f offset data) heap fun r _ => r.2.1.inodeBitmap = sb.inodeBitmap := by
  rw [tmpfsWrite]
  cases ha : (if pagesOf f.dataSize < pagesOf (offset + data.length) then
      tmpfsAllocPages sb (pagesOf (offset + data.length) - pagesOf f.dataSize) else some sb) with
  | none => exact spec_pure rfl
  | some sb' =>
    have hsb : sb'.inodeBitmap = sb.inodeBitmap := by
      split_ifs at ha with hp
      · exact tmpfsAllocPages_bitmap ha
      · cases ha
        rfl
    have hback : (if pagesOf f.dataSize < pagesOf (offset + data.length) then
        tmpfsFreePages sb' (pagesOf (offset + data.length) - pagesOf f.dataSize)
          else sb').inodeBitmap =
          sb.inodeBitmap := by
      split_ifs
      · rw [tmpfsFreePages_bitmap, hsb]
      · exact hsb
    apply spec_bind
    refine unless_none (fun _ _ => spec_pure hback) ?_
    intro d heap1 _
    apply spec_bind
    rintro ⟨done, d'⟩ heap2 _
    cases done with
    | true =>
      apply spec_bind
      exact spec_ofOption fun _ _ => spec_pure hsb
    | false => exact spec_pure hback

theorem still_setSb {sb : Ptr} {b b' : SuperBlock} (hb : s.sbs.get sb = some b)
    (h : b'.inodeBitmap = b.inodeBitmap) : Spec (setSb sb fun _ => b') s fun _ s' =>
      Still s s' := by
  refine spec_setSb fun _ _ => ⟨rfl, ?_⟩
  funext sb' k
  change uses (s.sbs.modify sb _) sb' k = _
  rw [uses_modify]
  by_cases hs : sb' = sb
  · subst hs
    rw [if_pos rfl, uses, hb, any_some, any_some, h]
  · rw [if_neg hs]

theorem still_setPages {heap : Oracle} {sb : Ptr} {b b' : SuperBlock} {rest : K α}
    (hb : s.sbs.get sb = some b) (h : b'.inodeBitmap = b.inodeBitmap) (hrest : Keeps Still rest) :
    Spec (do
      setSb sb fun _ => b'
      rest) { s with heap := heap } fun _ s' => Still s s' := by
  have h1 : Still s { s with heap := heap } := ⟨rfl, rfl⟩
  refine (still_setSb (s := { s with heap := heap }) hb h).bind ?_
  intro _ s2 h2
  refine (hrest s2).mono ?_
  intro _ s3 h3
  exact (h1.trans h2).trans h3

theorem still_setattrSize (size : Option Nat) : Keeps Still (setattrSize p size) := by
  cases size with
  | none => exact keeps_pure _
  | some size =>
    intro s
    apply spec_inodeAt
    intro i _
    apply spec_sbAt
    intro b hb
    apply spec_bind
    apply spec_onHeap
    rintro ⟨ret, sb, data⟩ heap hr
    refine still_setPages hb (tmpfsSetSize_bitmap b i.data size _ _ _ hr) ?_
    exact keeps_bind (still_setInode fun _ => rfl) fun _ => keeps_pure _

theorem still_tmpfsSetattr (dentry : Ptr) (attr : Iattr) :
    Keeps Still (tmpfsSetattr env dentry attr) := by
  apply keeps_bind keeps_dentryInode
  intro p
  apply keeps_bind (still_setattrSize attr.size)
  refine unless_error (fun _ => keeps_pure _) ?_
  intro _
  refine keeps_bind (still_setInode ?_) fun _ => keeps_pure _
  intro i
  have hkind : ∀ mode : Mode, sIsdir (i.mode &&& sIfmt ||| mode &&& ~~~sIfmt) =
      sIsdir i.mode := by
    intro mode
    rw [BitVec.or_comm, sIsdir, mode_kind mode (by rw [BitVec.and_assoc, BitVec.and_self]), sIsdir]
  rw [Inode.vertex, Inode.vertex]
  cases attr.mode with
  | none => rfl
  | some mode => simp only [map_some, getD_some, hkind]

/-! ## Opening a file -/

/-- The dentries there are stay, with all but their counters. -/
def DentriesKept (s s' : Vfs) : Prop :=
  ∀ q v, s.dentries.get q = some v → ∃ v', s'.dentries.get q = some v' ∧ v'.core = v.core

instance : IsPreorder Vfs DentriesKept where
  refl _ _ v hv := ⟨v, hv, rfl⟩
  trans _ _ _ h h' q v hv := by
    obtain ⟨v₁, hv₁, hc₁⟩ := h q v hv
    obtain ⟨v₂, hv₂, hc₂⟩ := h' q v₁ hv₁
    exact ⟨v₂, hv₂, hc₂.trans hc₁⟩

theorem DentriesKept.of_eq (h : s'.dentries = s.dentries) : DentriesKept s s' :=
  fun _ v hv => ⟨v, by rw [h, hv], rfl⟩

/-- Mounts, open files and dentries are the same. -/
structure InodesOnly (s s' : Vfs) : Prop where
  mounts : s'.mounts = s.mounts
  files : s'.files = s.files
  dentries : s'.dentries = s.dentries

instance : IsPreorder Vfs InodesOnly where
  refl _ := ⟨rfl, rfl, rfl⟩
  trans _ _ _ h h' :=
    ⟨h'.mounts.trans h.mounts, h'.files.trans h.files, h'.dentries.trans h.dentries⟩

theorem inodesOnly_setInode (f : Inode → Inode) : Keeps InodesOnly (setInode p f) :=
  fun _ => spec_setInode fun _ _ => ⟨rfl, rfl, rfl⟩

theorem bears_inodesOnly : Bears (InodesOnly s) (fun _ => True) fun _ => True := by
  have hset : ∀ s1 l, InodesOnly s s1 → InodesOnly s { s1 with inodes := l } :=
    fun _ _ hs => ⟨hs.mounts, hs.files, hs.dentries⟩
  have hsetInode : ∀ p f, Preserves (InodesOnly s) (setInode p f) := fun p f s1 hs =>
    spec_setInode fun _ _ => hset s1 _ hs
  refine ⟨fun hs hb => ?_, fun v hs => ⟨trivial, hset _ _ hs⟩, fun _ => hset _ _, fun _ =>
    hsetInode _ _, fun _ _ => hsetInode _ _, fun _ => hsetInode _ _, id⟩
  exact trans_of InodesOnly hs ⟨hb.mounts, hb.files, hb.dentries⟩

/-- The graph stays as it is, and so do the owners and the entries of all inodes. -/
structure Calm (s s' : Vfs) : Prop where
  still : Still s s'
  kept : Kept0 s s'

instance : IsPreorder Vfs Calm where
  refl s := ⟨.refl s, .refl s⟩
  trans _ _ _ h h' := ⟨h.still.trans h'.still, h.kept.kept0 h'.kept⟩

/-- Neither do dentries change. -/
structure CalmDentries (s s' : Vfs) : Prop extends Calm s s' where
  dentries : DentriesKept s s'

instance : IsPreorder Vfs CalmDentries where
  refl s := ⟨refl_of Calm s, refl_of DentriesKept s⟩
  trans _ _ _ h h' := ⟨trans_of Calm h.toCalm h'.toCalm,
    trans_of DentriesKept h.dentries h'.dentries⟩

theorem Quiet.calm (h : Quiet s s') : CalmDentries s s' :=
  ⟨⟨h.still, (Kept.refl s).quiet h⟩, h.dentries⟩

theorem calmDentries_quiet {x : K α} (h : Keeps Quiet x) : Keeps CalmDentries x :=
  fun s => (h s).mono fun _ _ hq => hq.calm

theorem calmDentries_pathPut (ps : Path) (a : α) : Keeps CalmDentries (do vfsPathPut ps; pure a) :=
  (calmDentries_quiet (keeps_vfsPathPut ps)).result

theorem calmDentries_of {x : K α} (hstill : Keeps Still x) (hkept : ∀ s, Preserves (Kept0 s) x)
    (honly : Keeps InodesOnly x) : Keeps CalmDentries x := by
  intro s a s' hx
  exact ⟨⟨hstill s a s' hx, hkept s s (.refl s) a s' hx⟩, .of_eq (honly s a s' hx).dentries⟩

theorem calmDentries_modifyFiles (f : Vfs → Store File) :
    Keeps CalmDentries (modify fun s => { s with files := f s }) :=
  fun s => spec_modify ⟨⟨⟨rfl, rfl⟩, (Kept.refl s).sameInodes rfl⟩, .of_eq rfl⟩

theorem calmDentries_vfsTruncate (file length : Nat) :
    Keeps CalmDentries (vfsTruncate env file length) := by
  apply keeps_bind keeps_fileAt
  intro f
  apply keeps_bind keeps_dentryInode
  intro p
  apply keeps_bind keeps_withOps
  intro _
  apply keeps_bind keeps_dentryInode
  intro q
  apply keeps_bind (calmDentries_of (still_setattrSize _) (fun _ => bears_kept.setattrSize _)
    fun s => bears_inodesOnly.setattrSize _ s (refl_of _ s))
  refine unless_error (fun _ => keeps_pure _) ?_
  intro _
  refine keeps_bind (calmDentries_of (still_setInode fun _ => rfl) ?_ (inodesOnly_setInode _))
    fun _ =>
    keeps_pure _
  exact fun _ => kept_setAttr fun _ => rfl

theorem calmDentries_fileStart (file : Ptr) (i : Inode) (flags permMask : Flags) :
    Keeps CalmDentries (fileStart env file i flags permMask) := by
  have hset : ∀ f : File → File, Keeps CalmDentries (setFile file f) := fun f s =>
    spec_setFile fun _ _ => ⟨⟨⟨rfl, rfl⟩, (Kept.refl s).sameInodes rfl⟩, .of_eq rfl⟩
  have hopen : Keeps CalmDentries (fileOpen env file i) := by
    rw [fileOpen]
    cases i.fop with
    | none => exact keeps_pure _
    | some fop =>
      cases fop with
      | tmpfs => exact keeps_pure _
      | dev =>
        cases env.driver i.rdev i.mode with
        | none => exact keeps_pure _
        | some ret => exact (hset _).result
  apply keeps_bind hopen
  refine unless_error (fun _ => keeps_pure _) ?_
  intro _
  split_ifs
  · exact calmDentries_vfsTruncate file 0
  · exact keeps_pure _

theorem calmDentries_vfsDoOpen (ps : Path) (flags permMask : Flags) :
    Keeps CalmDentries (vfsDoOpen env ps flags permMask) := by
  apply keeps_bind keeps_dentryInode
  intro p
  apply keeps_bind keeps_inodeAt
  intro i
  apply keeps_bind keeps_mountAt
  intro m
  cases openCheck env i m flags permMask with
  | error e => exact calmDentries_pathPut ps _
  | ok _ =>
    apply keeps_bind (calmDentries_quiet (keeps_kheapAlloc 1))
    refine unless_none (calmDentries_pathPut ps _) ?_
    intro a
    apply keeps_bind (calmDentries_quiet (keeps_vfsPathGet ps))
    intro _
    apply keeps_bind keeps_get
    intro s
    apply keeps_bind (calmDentries_modifyFiles _)
    intro _
    apply keeps_bind (calmDentries_fileStart _ _ _ _)
    intro r
    cases r with
    | ok _ => exact keeps_pure _
    | error e =>
      apply keeps_bind (calmDentries_quiet (keeps_vfsPathPut ps))
      intro _
      apply keeps_bind (calmDentries_modifyFiles _)
      intro _
      exact calmDentries_pathPut ps _

theorem calmDentries_openChild (parent : Path) (dentry : Ptr) (flags : Flags) :
    Keeps CalmDentries (openChild env parent dentry flags) := by
  apply keeps_bind (calmDentries_quiet (keeps_kheapAlloc 1))
  intro a
  cases a with
  | none =>
    apply keeps_bind (calmDentries_quiet (keeps_vfsDput dentry))
    intro _
    exact calmDentries_pathPut parent _
  | some a =>
    apply keeps_bind (calmDentries_quiet (keeps_vfsMntget parent.mnt))
    intro _
    apply keeps_bind (calmDentries_quiet (keeps_vfsPathPut parent))
    intro _
    exact calmDentries_vfsDoOpen _ flags _

/-! ## After a change of a directory -/

theorem calm_of_dentries {x : K α} (h : Keeps CalmDentries x) : Keeps Calm x :=
  fun s => (h s).mono fun _ _ h => h.toCalm

theorem calm_quiet {x : K α} (h : Keeps Quiet x) : Keeps Calm x :=
  calm_of_dentries (calmDentries_quiet h)

theorem calm_pathPut (ps : Path) (a : α) : Keeps Calm (do vfsPathPut ps; pure a) :=
  calm_of_dentries (calmDentries_pathPut ps a)

theorem calm_vfsDcacheAdd (p : Ptr) : Keeps Calm (vfsDcacheAdd env p) := by
  apply keeps_bind keeps_dentryAt
  intro d
  apply keeps_bind keeps_get
  intro s
  have hset : ∀ f : Dentry → Dentry, Keeps Calm (setDentry p f) := fun f s =>
    spec_setDentry fun _ _ => ⟨⟨rfl, rfl⟩, (Kept.refl s).sameInodes rfl⟩
  apply keeps_bind (hset _)
  intro _ s
  exact spec_modify ⟨⟨rfl, rfl⟩, (Kept.refl s).sameInodes rfl⟩

/-! ## Using a file -/

theorem still_pathPut (ps : Path) (a : α) : Keeps Still (do vfsPathPut ps; pure a) :=
  (still_quiet (keeps_vfsPathPut ps)).result

theorem still_vfsTruncate (file length : Nat) : Keeps Still (vfsTruncate env file length) :=
  fun s => (calmDentries_vfsTruncate file length s).mono fun _ _ h => h.still

theorem still_vfsClose (file : Ptr) : Keeps Still (vfsClose file) := by
  apply keeps_bind keeps_fileAt
  intro f
  have hrest : Keeps Still (do
      if f.count = 1 then do
        vfsPathPut f.path
        modify fun s => { s with files := s.files.erase file }
      else setFile file fun f => { f with count := f.count - 1 }) := by
    split_ifs
    · exact keeps_bind (still_quiet (keeps_vfsPathPut _)) fun _ => still_modify fun _ => ⟨rfl, rfl⟩
    · exact still_setFile _
  cases f.ops with
  | tmpfs =>
    apply keeps_bind keeps_dentryInode
    intro p
    have hput : Keeps Still (vfsIput p) := still_setInode fun _ => rfl
    apply keeps_bind hput
    intro _
    exact hrest
  | default => exact hrest
  | driver => exact hrest

theorem still_vfsRead (file count : Nat) (pos : Option Nat) :
    Keeps Still (vfsRead env file count pos) := by
  apply keeps_bind keeps_fileAt
  intro f
  by_cases hr : Flags.has f.mode mayRead = false
  · rw [if_pos hr]
    exact keeps_pure _
  · rw [if_neg hr]
    cases f.ops with
    | default => exact keeps_pure _
    | driver => exact keeps_stuck
    | tmpfs =>
      apply keeps_bind keeps_dentryInode
      intro p
      apply keeps_bind keeps_inodeAt
      intro i
      apply keeps_bind (keeps_ofOption _)
      rintro ⟨bytes, offset⟩
      refine keeps_bind (still_setInode fun _ => rfl) ?_
      intro _
      cases pos with
      | none => exact (still_setFile _).result
      | some _ => exact keeps_pure _

theorem still_inodeWrite (offset : Nat) (data : List Bytes.Byte) :
    Keeps Still (inodeWrite env p offset data) := by
  intro s
  apply spec_inodeAt
  intro i _
  apply spec_sbAt
  intro b hb
  apply spec_bind
  apply spec_onHeap
  rintro ⟨ret, sb, fileData⟩ heap hr
  refine still_setPages hb (tmpfsWrite_bitmap b i.data offset data _ _ _ hr) ?_
  refine keeps_bind (still_setInode fun _ => rfl) ?_
  intro _
  cases ret with
  | error e => exact keeps_pure _
  | ok n => exact keeps_bind (still_setInode fun _ => rfl) fun _ => keeps_pure _

theorem still_vfsWrite (file : Ptr) (data : List Bytes.Byte) (pos : Option Nat) :
    Keeps Still (vfsWrite env file data pos) := by
  have hbegin : Keeps Still (writeBegin file pos) := by
    apply keeps_bind keeps_fileAt
    intro f
    split_ifs
    · exact keeps_pure _
    · cases f.ops with
      | default | tmpfs => exact keeps_pure _
      | driver => exact keeps_stuck
  have hend : ∀ stop n, Keeps Still (writeEnd file pos stop n) := by
    intro stop n
    rw [writeEnd]
    split_ifs
    · exact still_setFile _
    · exact keeps_pure _
  apply keeps_bind hbegin
  refine unless_error (fun _ => keeps_pure _) ?_
  intro offset
  refine keeps_bind (keeps_bind keeps_fileAt fun f => keeps_bind keeps_dentryInode fun p =>
    keeps_bind keeps_inodeAt fun i => keeps_bind (still_inodeWrite _ data) fun _ =>
      keeps_pure _) ?_
  rintro ⟨start, ret⟩
  cases ret with
  | error e => exact keeps_pure _
  | ok n => exact (hend _ n).result

theorem still_vfsSetattr (path : List Char) (attr : Iattr) (pwd : Path) :
    Keeps Still (vfsSetattr env path attr pwd) := by
  apply keeps_bind (still_quiet (keeps_vfsPathLookup env _ _ _))
  refine unless_error (fun _ => keeps_pure _) ?_
  intro ps
  apply keeps_bind keeps_dentryInode
  intro p
  apply keeps_bind keeps_inodeAt
  intro i
  cases vfsInodePermission env i mayWrite with
  | error e => exact still_pathPut ps _
  | ok _ =>
    apply keeps_bind keeps_withOps
    intro _
    apply keeps_bind (still_tmpfsSetattr _ attr)
    intro ret
    exact still_pathPut ps _

end ShiziOS.Fs
