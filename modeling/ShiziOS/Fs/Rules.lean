import ShiziOS.Fs.Path

/-!
# Rules for the primitive steps

For every step that the calls are made of, what has to be shown of the state before it so
that its outcome meets `Q`.
-/

namespace ShiziOS.Fs

open Exec

variable {env : Env} {s : Vfs} {p : Ptr} {β : Type} {R : β → Vfs → Prop}

/-! ## Objects -/

theorem spec_inodeAt {f : Inode → K β} (h : ∀ i, s.inodes.get p = some i → Spec (f i) s R) :
    Spec (inodeAt p >>= f) s R :=
  spec_bind (spec_get (spec_ofOption h))

theorem spec_dentryAt {f : Dentry → K β} (h : ∀ d, s.dentries.get p = some d → Spec (f d) s R) :
    Spec (dentryAt p >>= f) s R :=
  spec_bind (spec_get (spec_ofOption h))

theorem spec_mountAt {f : Mount → K β} (h : ∀ v, s.mounts.get p = some v → Spec (f v) s R) :
    Spec (mountAt p >>= f) s R :=
  spec_bind (spec_get (spec_ofOption h))

theorem spec_fileAt {f : File → K β} (h : ∀ v, s.files.get p = some v → Spec (f v) s R) :
    Spec (fileAt p >>= f) s R :=
  spec_bind (spec_get (spec_ofOption h))

theorem spec_sbAt {f : SuperBlock → K β} (h : ∀ v, s.sbs.get p = some v → Spec (f v) s R) :
    Spec (sbAt p >>= f) s R :=
  spec_bind (spec_get (spec_ofOption h))

variable {Q : Unit → Vfs → Prop} {d : Dentry}

theorem spec_setInode {f : Inode → Inode}
    (h : ∀ i, s.inodes.get p = some i → Q () { s with inodes := s.inodes.modify p f }) :
    Spec (setInode p f) s Q :=
  spec_inodeAt fun i hi => spec_modify (h i hi)

theorem spec_setDentry {f : Dentry → Dentry}
    (h : ∀ d, s.dentries.get p = some d → Q () { s with dentries := s.dentries.modify p f }) :
    Spec (setDentry p f) s Q :=
  spec_dentryAt fun d hd => spec_modify (h d hd)

theorem spec_setMount {f : Mount → Mount}
    (h : ∀ m, s.mounts.get p = some m → Q () { s with mounts := s.mounts.modify p f }) :
    Spec (setMount p f) s Q :=
  spec_mountAt fun m hm => spec_modify (h m hm)

theorem spec_setFile {f : File → File}
    (h : ∀ v, s.files.get p = some v → Q () { s with files := s.files.modify p f }) :
    Spec (setFile p f) s Q :=
  spec_fileAt fun v hv => spec_modify (h v hv)

theorem spec_setSb {f : SuperBlock → SuperBlock}
    (h : ∀ b, s.sbs.get p = some b → Q () { s with sbs := s.sbs.modify p f }) :
    Spec (setSb p f) s Q :=
  spec_sbAt fun b hb => spec_modify (h b hb)

theorem spec_dentryInode {f : Ptr → K β}
    (h : ∀ d i, s.dentries.get p = some d → d.inode = some i → Spec (f i) s R) :
    Spec (dentryInode p >>= f) s R :=
  spec_bind (spec_dentryAt fun d hd => spec_ofOption fun i hi => h d i hd hi)

theorem dentryAt_eq (hd : s.dentries.get p = some d) : dentryAt p s = some (d, s) := by
  change (ofOption (s.dentries.get p) : K Dentry) s = _
  rw [hd]
  rfl

theorem total_inodeAt {i : Inode} {f : Inode → K β} (hi : s.inodes.get p = some i)
    (h : Total (f i) s R) : Total (inodeAt p >>= f) s R :=
  total_bind (total_get (total_ofOption hi h))

theorem total_dentryAt {f : Dentry → K β} (hd : s.dentries.get p = some d)
    (h : Total (f d) s R) : Total (dentryAt p >>= f) s R :=
  total_bind (total_get (total_ofOption hd h))

theorem total_mountAt {m : Mount} {f : Mount → K β} (hm : s.mounts.get p = some m)
    (h : Total (f m) s R) : Total (mountAt p >>= f) s R :=
  total_bind (total_get (total_ofOption hm h))

theorem total_sbAt {b : SuperBlock} {Q : SuperBlock → Vfs → Prop} (hb : s.sbs.get p = some b)
    (h : Q b s) : Total (sbAt p) s Q :=
  total_get (total_ofOption hb h)

theorem total_setInode {f : Inode → Inode} {i : Inode}
    (hi : s.inodes.get p = some i) (h : Q () { s with inodes := s.inodes.modify p f }) :
    Total (setInode p f) s Q :=
  total_inodeAt hi (total_modify h)

theorem total_setDentry {f : Dentry → Dentry}
    (hd : s.dentries.get p = some d) (h : Q () { s with dentries := s.dentries.modify p f }) :
    Total (setDentry p f) s Q :=
  total_dentryAt hd (total_modify h)

theorem total_setMount {f : Mount → Mount} {m : Mount}
    (hm : s.mounts.get p = some m) (h : Q () { s with mounts := s.mounts.modify p f }) :
    Total (setMount p f) s Q :=
  total_mountAt hm (total_modify h)

theorem total_dentryInode {i : Ptr} {f : Ptr → K β} (hd : s.dentries.get p = some d)
    (hi : d.inode = some i) (h : Total (f i) s R) : Total (dentryInode p >>= f) s R :=
  total_bind (total_dentryAt hd (total_ofOption hi h))

/-! ## Steps that only read -/

section Reads

variable {S : Vfs → Vfs → Prop} [IsPreorder Vfs S]

theorem keeps_inodeAt : Keeps S (inodeAt p) := keeps_bind keeps_get fun _ => keeps_ofOption _

theorem keeps_dentryAt : Keeps S (dentryAt p) := keeps_bind keeps_get fun _ => keeps_ofOption _

theorem keeps_mountAt : Keeps S (mountAt p) := keeps_bind keeps_get fun _ => keeps_ofOption _

theorem keeps_fileAt : Keeps S (fileAt p) := keeps_bind keeps_get fun _ => keeps_ofOption _

theorem keeps_sbAt : Keeps S (sbAt p) := keeps_bind keeps_get fun _ => keeps_ofOption _

theorem keeps_dentryInode : Keeps S (dentryInode p) :=
  keeps_bind keeps_dentryAt fun _ => keeps_ofOption _

theorem keeps_tmpfsReadlink (i : Inode) (bufsiz : Nat) : Keeps S (tmpfsReadlink i bufsiz) := by
  rw [tmpfsReadlink]
  cases i.symlinkTarget with
  | none => exact keeps_pure _
  | some target =>
    by_cases hl : min i.data.dataSize bufsiz ≤ target.length
    · simp only [if_pos hl]
      exact keeps_pure _
    · simp only [if_neg hl]
      exact keeps_stuck

theorem keeps_vfsReadlink (dentry : Ptr) (bufsiz : Nat) : Keeps S (vfsReadlink dentry bufsiz) := by
  apply keeps_bind keeps_dentryAt
  intro d
  cases d.inode with
  | none => exact keeps_pure _
  | some p =>
    apply keeps_bind keeps_inodeAt
    intro i
    split_ifs with hl ho
    · exact keeps_pure _
    · exact keeps_tmpfsReadlink i bufsiz
    · exact keeps_stuck

theorem keeps_modeOf (d : Dentry) : Keeps S (modeOf env d) := by
  rw [modeOf]
  cases d.inode with
  | none => exact keeps_ofOption _
  | some i => exact keeps_inodeAt.result

variable {I : Vfs → Prop}

theorem preserves_inodeAt {f : Inode → K β} (h : ∀ i, Preserves I (f i)) :
    Preserves I (inodeAt p >>= f) :=
  preserves_read keeps_inodeAt h

theorem preserves_dentryAt {f : Dentry → K β} (h : ∀ d, Preserves I (f d)) :
    Preserves I (dentryAt p >>= f) :=
  preserves_read keeps_dentryAt h

theorem preserves_dentryInode {f : Ptr → K β} (h : ∀ i, Preserves I (f i)) :
    Preserves I (dentryInode p >>= f) :=
  preserves_read keeps_dentryInode h

end Reads

/-! ## The heap and the caches -/

theorem spec_onHeap {α : Type} {x : Exec Oracle α} {Q : α → Vfs → Prop}
    (h : ∀ a heap, x s.heap = some (a, heap) → Q a { s with heap := heap }) :
    Spec (onHeap x) s Q := by
  intro a s' hs
  obtain ⟨⟨b, heap⟩, hx, he⟩ := Option.map_eq_some_iff.mp hs
  cases he
  exact h b heap hx

theorem kheapAlloc_apply (size : Nat) (s : Vfs) :
    kheapAlloc size s = if size = 0 ∨ kheapMax < size then some (none, s)
      else some (s.heap 0 ((size + pageSize - 1) / pageSize),
        { s with heap := fun k => s.heap (k + 1) }) := by
  split_ifs with hs
  · rw [kheapAlloc, onHeap, Oracle.alloc, bind_apply]
    change Option.map _ ((if _ then _ else _ : Exec Oracle _) _) = _
    rw [if_pos hs]
    rfl
  · rw [kheapAlloc, onHeap, Oracle.alloc, bind_apply]
    change Option.map _ ((if _ then _ else _ : Exec Oracle _) _) = _
    rw [if_neg hs]
    rfl

theorem spec_kheapAlloc {size : Nat} {Q : Option Nat → Vfs → Prop}
    (h : ∀ a heap, Q a { s with heap := heap }) : Spec (kheapAlloc size) s Q :=
  spec_onHeap fun a heap _ => h a heap

theorem hashWalk_found {next : Ptr → Option (Option Ptr)} {eq : Ptr → Bool} {fuel : Nat}
    {head : Option Ptr} {q : Ptr} (h : hashWalk next eq fuel head = some (some q)) :
    eq q = true := by
  induction fuel generalizing head with
  | zero => cases head <;> cases h
  | succ fuel ih =>
    cases head with
    | none => cases h
    | some r =>
      rw [hashWalk] at h
      cases hn : next r with
      | none => rw [hn] at h; cases h
      | some n =>
        simp only [hn] at h
        split_ifs at h with he
        · cases h
          exact he
        · exact ih h

/-- What the search for a name in the dentry cache gives. -/
def Vfs.cached (s : Vfs) (env : Env) (parent : Ptr) (name : Name) : Option (Option Ptr) :=
  hashWalk (fun p => (s.dentries.get p).map (·.hashNext)) (s.dentryIs (some parent) name)
    s.dentries.next (s.dentryCache (env.dentryHash (some parent) name))

theorem Vfs.cached_found {parent d : Ptr} {name : Name}
    (h : s.cached env parent name = some (some d)) :
    ∃ v, s.dentries.get d = some v ∧ v.parent = some parent ∧ v.name = name := by
  have hd := hashWalk_found h
  rw [dentryIs] at hd
  cases hv : s.dentries.get d with
  | none => rw [hv] at hd; cases hd
  | some v =>
    simp only [hv, Bool.and_eq_true, beq_iff_eq] at hd
    exact ⟨v, rfl, hd⟩

theorem spec_vfsDcacheFind {parent : Ptr} {name : Name} {Q : Option Ptr → Vfs → Prop}
    (hnone : s.cached env parent name = some none → Q none s)
    (hsome : ∀ d, s.cached env parent name = some (some d) →
      Q (some d) { s with dentries := s.dentries.modify d fun v => { v with count := v.count + 1 }
        }) :
    Spec (vfsDcacheFind env parent name) s Q := by
  apply spec_get
  apply spec_bind
  apply spec_ofOption
  intro found hf
  cases found with
  | none => exact spec_pure (hnone hf)
  | some d =>
    apply spec_bind
    apply spec_setDentry
    intro v hv
    exact spec_pure (hsome d hf)

/-- What the search for a number in the inode cache gives. -/
def Vfs.icached (s : Vfs) (env : Env) (dev ino : Nat) : Option (Option Ptr) :=
  hashWalk (fun p => (s.devOf p).bind fun _ => (s.inodes.get p).map (·.hashNext))
    (s.inodeIs dev ino)
    s.inodes.next (s.inodeCache (env.inodeHash dev ino))

theorem spec_vfsIcacheFind {sb : Ptr} {ino : Nat} {Q : Option Ptr → Vfs → Prop}
    (hnone : ∀ b, s.sbs.get sb = some b → s.icached env b.dev ino = some none → Q none s)
    (hsome : ∀ b i, s.sbs.get sb = some b → s.icached env b.dev ino = some (some i) →
      Q (some i) { s with inodes := s.inodes.modify i fun v => { v with count := v.count + 1 } }) :
    Spec (vfsIcacheFind env sb ino) s Q := by
  apply spec_sbAt
  intro b hb
  apply spec_get
  apply spec_bind
  apply spec_ofOption
  intro found hf
  cases found with
  | none => exact spec_pure (hnone b hb hf)
  | some i =>
    apply spec_bind
    apply spec_setInode
    intro v hv
    exact spec_pure (hsome b i hb hf)

end ShiziOS.Fs
