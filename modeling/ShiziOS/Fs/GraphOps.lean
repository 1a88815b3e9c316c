import ShiziOS.Fs.Graph

/-!
# The operations of tmpfs on the graph

What each function of `tmpfs_inode_operations` that makes, moves or removes names does to the
graph, with the inode numbers it takes. One lemma for each function, from `tmpfsCreate_graph` to
`tmpfsMount_graph`; `At` says where the function stands.
-/

namespace ShiziOS.Fs

open Exec List Option ShiziOS.Fs.Graph Vertex

variable {β : Type} {R : β → Vfs → Prop} {env : Env} {s s' : Vfs} {p dir dentry sb : Ptr}
  {g : Graph} {D : Store Dentry}
  {B B' B'' : Store SuperBlock} {n : Nat}

/-! ## Steps -/

/-- What an operation on directories reads and changes. -/
structure At (g : Graph) (D : Store Dentry) (B : Store SuperBlock) (s : Vfs) : Prop where
  graph : s.graph = g
  dentries : s.dentries = D
  sbs : s.sbs = B

theorem At.self (s : Vfs) : At s.graph s.dentries s.sbs s := ⟨rfl, rfl, rfl⟩

theorem at_kheapAlloc (size : Nat) : Preserves (At g D B) (kheapAlloc size) :=
  fun _ h => spec_kheapAlloc fun _ _ => ⟨h.graph, h.dentries, h.sbs⟩

theorem At.inodeAt (h : At g D B s) {f : Inode → K β}
    (hQ : ∀ i, g p = some i.vertex → Spec (f i) s R) : Spec (inodeAt p >>= f) s R := by
  apply spec_inodeAt
  intro i hi
  refine hQ i ?_
  rw [← h.graph]
  exact Vfs.graph_of_get hi

theorem At.dentryAt (h : At g D B s) {f : Dentry → K β}
    (hQ : ∀ d, D.get p = some d → Spec (f d) s R) : Spec (dentryAt p >>= f) s R := by
  apply spec_dentryAt
  intro d hd
  refine hQ d ?_
  rw [← h.dentries, hd]

theorem At.dentryInode (h : At g D B s) {f : Ptr → K β}
    (hQ : ∀ d i, D.get p = some d → d.inode = some i → Spec (f i) s R) :
    Spec (dentryInode p >>= f) s R := by
  apply spec_dentryInode
  intro d i hd hi
  refine hQ d i ?_ hi
  rw [← h.dentries, hd]

theorem At.setInode (h : At g D B s) {f : Inode → Inode} {k : Vertex → Vertex} {c : Unit → K β}
    (hf : ∀ i, (f i).vertex = k i.vertex)
    (hQ : ∀ n s', g p = some n → At (g.edit p k) D B s' → Spec (c ()) s' R) :
    Spec (setInode p f >>= c) s R := by
  apply spec_bind
  apply spec_setInode
  intro i hi
  have hg : g p = some i.vertex := by rw [← h.graph, Vfs.graph_of_get hi]
  refine hQ i.vertex _ hg ⟨?_, h.dentries, h.sbs⟩
  rw [Vfs.graph_modify hf, h.graph]

theorem at_setSame {f : Inode → Inode} (hf : ∀ i, (f i).vertex = i.vertex) :
    Preserves (At g D B) (setInode p f) :=
  fun _ h => spec_setInode fun _ _ => ⟨(Vfs.graph_modify_same hf).trans h.graph, h.dentries, h.sbs⟩

/-! ## Numbers -/

/-- A number that was not in use is taken, if the bitmap did not have to grow. -/
def Takes (B B' : Store SuperBlock) (sb : Ptr) (n : Nat) : Prop :=
  Room B sb → uses B sb n = false ∧ ∀ sb' k, uses B' sb' k =
    (uses B sb' k || decide (sb' = sb ∧ k = n))

def Frees (B B' : Store SuperBlock) (sb : Ptr) (n : Nat) : Prop :=
  ∀ sb' k, uses B' sb' k = (uses B sb' k && !decide (sb' = sb ∧ k = n))

/-- The numbers in use stay so, if the bitmap did not have to grow. -/
def StaysUsed (B B' : Store SuperBlock) (sb : Ptr) : Prop :=
  Room B sb → ∀ sb' k, uses B sb' k = true → uses B' sb' k = true

theorem StaysUsed.refl (B : Store SuperBlock) (sb : Ptr) : StaysUsed B B sb := fun _ _ _ h => h

theorem Takes.staysUsed (h : Takes B B' sb n) : StaysUsed B B' sb := by
  intro hr sb' k hk
  rw [(h hr).2, hk, Bool.true_or]

theorem Takes.used (h : Takes B B' sb n) (hr : Room B sb) : uses B' sb n = true := by
  rw [(h hr).2]
  simp

theorem Takes.frees (h : Takes B B' sb n) (h' : Frees B' B'' sb n) : StaysUsed B B'' sb := by
  intro hr sb' k hk
  obtain ⟨hfree, hall⟩ := h hr
  rw [h', hall, hk, Bool.true_or, Bool.true_and, Bool.not_eq_true', decide_eq_false_iff_not]
  rintro ⟨rfl, rfl⟩
  rw [hfree] at hk
  cases hk

variable {k : Nat} {nd new : Vertex} {s1 : Vfs}

theorem bitmapFind_clear {bits : List Bool} {hint : Nat} (h : bitmapFind bits hint = some k) :
    k < bits.length ∧ bits.getD k false = false := by
  have hk := mem_of_find?_eq_some h
  have hlt : k < bits.length := mem_range.mp (mem_of_mem_drop hk)
  have hbit := find?_some h
  rw [Bool.not_eq_true'] at hbit
  refine ⟨hlt, ?_⟩
  rw [getD_eq_getElem?_getD, getElem?_eq_getElem hlt, getD_some] at hbit ⊢
  exact hbit

theorem bitmapAlloc_of_some {bits : List Bool} {hint : Nat} (h : bitmapFind bits hint = some k)
    (heap : Oracle) : bitmapAlloc bits hint heap = some (some (k, bits.set k true), heap) := by
  rw [bitmapAlloc, h]
  rfl

theorem getD_set (bits : List Bool) (k j : Nat) (v : Bool) (hk : k < bits.length) :
    (bits.set k v).getD j false = if j = k then v else bits.getD j false := by
  by_cases hj : j = k
  · subst hj
    rw [if_pos rfl, getD_eq_getElem?_getD, getElem?_set_self hk, getD_some]
  · rw [if_neg hj, getD_eq_getElem?_getD, getElem?_set_ne (Ne.symm hj), ← getD_eq_getElem?_getD]

theorem uses_modify {f : SuperBlock → SuperBlock} (sb' : Ptr) (k : Nat) :
    uses (B.modify sb f) sb' k =
      if sb' = sb then (B.get sb).any fun b => (f b).inodeBitmap.getD k false
        else uses B sb' k := by
  by_cases hs : sb' = sb
  · subst hs
    rw [if_pos rfl, uses, Store.get_modify_self, Option.any_map]
  · rw [if_neg hs, uses, uses, Store.get_modify_of_ne f hs]

section

variable (h : At g D B s)
include h

/-- The number that is taken was free. -/
theorem tmpfsAllocIno_at : Spec (tmpfsAllocIno sb) s fun r s' =>
      match r with
      | none => At g D B s'
      | some n => ∃ B', At g D B' s' ∧ Takes B B' sb n := by
  apply spec_sbAt
  intro b hb
  rw [h.sbs] at hb
  apply spec_bind
  apply spec_onHeap
  intro r heap hr
  cases r with
  | none => exact spec_pure ⟨h.graph, h.dentries, h.sbs⟩
  | some r =>
    obtain ⟨k, bits⟩ := r
    apply spec_bind
    apply spec_setSb
    intro _ _
    refine spec_pure ⟨_, ⟨h.graph, h.dentries, rfl⟩, ?_⟩
    intro hroom
    obtain ⟨k', hk'⟩ := isSome_iff_exists.mp (hroom b hb)
    rw [bitmapAlloc_of_some hk'] at hr
    obtain ⟨hr, -⟩ := Prod.mk.inj (some.inj hr)
    obtain ⟨rfl, rfl⟩ := Prod.mk.inj (some.inj hr)
    obtain ⟨hlt, hclear⟩ := bitmapFind_clear hk'
    refine ⟨by rw [uses, hb, any_some, hclear], ?_⟩
    intro sb' j
    rw [uses_modify, h.sbs]
    by_cases hs : sb' = sb
    · subst hs
      rw [if_pos rfl, hb, any_some, getD_set _ _ _ _ hlt, uses, hb, any_some]
      by_cases hj : j = k'
      · simp [hj]
      · simp [hj]
    · simp [hs]

theorem setSb_frees (sb : Ptr) (n : Nat) :
    Spec (tmpfsFreeIno sb n) s fun _ s' => ∃ B', At g D B' s' ∧ Frees B B' sb n := by
  apply spec_setSb
  intro b hb
  refine ⟨_, ⟨h.graph, h.dentries, rfl⟩, ?_⟩
  intro sb' j
  rw [uses_modify, h.sbs]
  by_cases hs : sb' = sb
  · subst hs
    rw [h.sbs] at hb
    rw [if_pos rfl, hb, any_some, uses, hb, any_some]
    by_cases hn : n < b.inodeBitmap.length
    · rw [getD_set _ _ _ _ hn]
      by_cases hj : j = n
      · simp [hj]
      · simp [hj]
    · have hset : b.inodeBitmap.set n false = b.inodeBitmap := set_eq_of_length_le (by omega)
      rw [hset]
      by_cases hj : j = n
      · subst hj
        simp [getElem?_eq_none (Nat.le_of_not_lt hn)]
      · simp [hj]
  · simp [hs]

/-! ## New inodes -/

omit h in
theorem at_vfsIcacheAdd : Preserves (At g D B) (vfsIcacheAdd env p) := by
  intro s h
  apply spec_inodeAt
  intro i _
  apply spec_sbAt
  intro b _
  apply spec_get
  refine Preserves.bind (at_setSame fun _ => rfl) h ?_
  intro _ s1 h1
  exact spec_modify ⟨h1.graph, h1.dentries, h1.sbs⟩

theorem at_tmpfsDestroyInode : Spec (tmpfsDestroyInode p) s fun _ s' => At (g.delete p) D B s' := by
  apply spec_inodeAt
  intro i _
  refine spec_modify ⟨?_, h.dentries, h.sbs⟩
  rw [Vfs.graph_erase, h.graph]

/-- A new inode is a vertex without links and entries. -/
theorem tmpfsNewInode_at (sb : Ptr) (mode : Mode) : Spec (tmpfsNewInode env sb mode) s fun r s' =>
      match r with
      | .error _ => At g D B s'
      | .ok p => ∃ n B', g p = none ∧ Takes B B' sb n ∧
        At (g.put p ⟨n, sb, sIsdir mode, 0, []⟩) D B' s' := by
  apply spec_bind
  refine (at_kheapAlloc 1).bind h ?_
  refine unless_none (fun _ h1 => spec_pure (spec_pure h1)) ?_
  intro a s1 h1
  refine (at_kheapAlloc 1).bind h1 ?_
  refine unless_none (fun _ h2 => spec_pure (spec_pure h2)) ?_
  intro a s2 h2
  apply spec_get
  apply spec_bind
  apply spec_modify
  apply spec_pure
  have hnone : g s2.inodes.next = none := by
    rw [← h2.graph, Vfs.graph, s2.inodes.fresh _ le_rfl, map_none]
  have h3 := (Vfs.graph_alloc (s := s2) ⟨0, 0, 0, 0, 0, ⟨0, 0, 0, none⟩, 0, 0, 0, 0, false, none,
    sb, 0, none, [], none⟩)
  rw [h2.graph] at h3
  apply spec_bind
  refine (tmpfsAllocIno_at ⟨h3, h2.dentries, h2.sbs⟩).bind ?_
  intro r s4 h4
  cases r with
  | none =>
    apply spec_pure
    refine (at_tmpfsDestroyInode h4).bind ?_
    intro _ s5 h5
    rw [put_delete hnone] at h5
    exact spec_pure h5
  | some n =>
    obtain ⟨B', h4, ht⟩ := h4
    refine h4.setInode (k := fun m => ⟨n, sb, sIsdir mode, m.nlink, m.entries⟩)
      (fun _ => rfl) ?_
    intro _ s5 _ h5
    refine at_vfsIcacheAdd.bind h5 ?_
    intro _ s6 h6
    refine spec_pure (spec_pure ⟨n, B', hnone, ht, ?_⟩)
    rw [put_edit_self] at h6
    exact h6

theorem at_tmpfsDropInode (hp : g p = some nd) : Spec (tmpfsDropInode p) s fun _ s' =>
      ∃ B', At (g.delete p) D B' s' ∧ Frees B B' nd.sb nd.ino := by
  refine h.inodeAt ?_
  intro i hi
  cases hp.symm.trans hi
  refine (setSb_frees h i.sb i.ino).bind ?_
  intro _ s1 ⟨B', h1, hf⟩
  refine (at_tmpfsDestroyInode h1).mono ?_
  intro _ s2 h2
  exact ⟨B', h2, hf⟩

/-! ## Entries -/

theorem tmpfsDirAdd_at (name : Name) (ino : Nat) : Spec (tmpfsDirAdd dir name ino) s fun r s' =>
      match r with
      | .error _ => At g D B s'
      | .ok _ => (∃ n, g dir = some n) ∧ At (g.edit dir (add ⟨name, ino⟩)) D B s' := by
  refine (at_kheapAlloc 1).bind h ?_
  refine unless_none (fun _ h1 => spec_pure h1) ?_
  intro a s1 h1
  refine (at_kheapAlloc _).bind h1 ?_
  refine unless_none (fun _ h2 => spec_pure h2) ?_
  intro b s2 h2
  refine h2.setInode (k := add ⟨name, ino⟩) (fun _ => rfl) ?_
  intro n s3 hn h3
  exact spec_pure ⟨⟨n, hn⟩, h3⟩

theorem tmpfsDirRemove_at (name : Name) {c : Unit → K β}
    (hQ : ∀ s', At (g.edit dir (remove name)) D B s' → Spec (c ()) s' R) :
    Spec (tmpfsDirRemove dir name >>= c) s R :=
  h.setInode (k := remove name) (fun _ => rfl) fun _ s' _ => hQ s'

/-- The inode gets its entry, or is destroyed. -/
theorem tmpfsEnter_at {ni : Vertex} (hp : g p = some ni) :
    Spec (tmpfsEnter dir dentry p) s fun r s' =>
      match r with
      | .error _ => ∃ B', At (g.delete p) D B' s' ∧ Frees B B' ni.sb ni.ino
      | .ok _ =>
        ∃ nd d, g dir = some nd ∧ D.get dentry = some d ∧ tmpfsDirLookup nd.entries d.name = none ∧
        At (g.edit dir (add ⟨d.name, ni.ino⟩)) D B s' := by
  refine h.dentryAt ?_
  intro d hd
  refine h.inodeAt ?_
  intro tdir hdir
  cases hl : tmpfsDirLookup tdir.dirList d.name with
  | some de =>
    refine (at_tmpfsDropInode h hp).bind ?_
    intro _ s1 h1
    exact spec_pure h1
  | none =>
    refine h.inodeAt ?_
    intro i hi
    cases hp.symm.trans hi
    refine (tmpfsDirAdd_at h d.name i.ino).bind ?_
    intro r s1 h1
    cases r with
    | error e =>
      refine (at_tmpfsDropInode h1 hp).bind ?_
      intro _ s2 h2
      exact spec_pure h2
    | ok _ => exact spec_pure ⟨tdir.vertex, d, hdir, hd, hl, h1.2⟩

end

/-- An operation that failed has left the graph as it was. -/
structure Undone (s : Vfs) (dir : Ptr) (s' : Vfs) : Prop where
  graph : s'.graph = s.graph
  used : ∃ nd, s.graph dir = some nd ∧ StaysUsed s.sbs s'.sbs nd.sb

theorem undone_of_at (hdir : s.graph dir = some nd) (h : At s.graph D B s')
    (hu : StaysUsed s.sbs B nd.sb) : Undone s dir s' := by
  refine ⟨h.graph, nd, hdir, ?_⟩
  rw [h.sbs]
  exact hu

/-- The node `new` is put at `p`, and the directory, which was `nd`, changes by `f`. -/
structure Entered (s : Vfs) (dir : Ptr) (nd : Vertex) (f : Vertex → Vertex) (p : Ptr) (new : Vertex)
    (s' : Vfs) : Prop where
  parent : s.graph dir = some nd
  fresh : s.graph p = none
  sb : new.sb = nd.sb
  graph : s'.graph = (s.graph.put p new).edit dir f
  takes : Takes s.sbs s'.sbs nd.sb new.ino

theorem Entered.ne {f : Vertex → Vertex} (h : Entered s dir nd f p new s') : dir ≠ p :=
  ne_of_none h.parent h.fresh

theorem enterNew_at (hdir : s.graph dir = some nd) (hp : s.graph p = none)
    (h1 : At (s.graph.put p new) s.dentries B' s1) (hsb : new.sb = nd.sb)
    (ht : Takes s.sbs B' nd.sb new.ino) :
    Spec (tmpfsEnter dir dentry p) s1 fun r s' =>
      match r with
      | .error _ => Undone s dir s'
      | .ok _ => ∃ d, s.dentries.get dentry = some d ∧ tmpfsDirLookup nd.entries d.name = none ∧
        At ((s.graph.put p new).edit dir (add ⟨d.name, new.ino⟩)) s.dentries B' s' := by
  refine (tmpfsEnter_at h1 put_self).mono ?_
  intro r s2 h2
  cases r with
  | error e =>
    obtain ⟨B'', h2, hf⟩ := h2
    rw [put_delete hp] at h2
    rw [hsb] at hf
    exact undone_of_at hdir h2 (ht.frees hf)
  | ok _ =>
    obtain ⟨nd', d, hnd', hd, hl, h2⟩ := h2
    cases (put_of_some hp hdir).symm.trans hnd'
    exact ⟨d, hd, hl, h2⟩

/-- The beginning of the functions that make an inode. -/
theorem newInode_spec {mode : Mode} {rest : Ptr → K (Except Errno Unit)} {Q : Except Errno Unit →
    Vfs → Prop}
    (hfail : ∀ e s', Undone s dir s' → Q (.error e) s')
    (hrest : ∀ nd p n B' s1, s.graph dir = some nd → s.graph p = none → Takes s.sbs B' nd.sb n →
      At (s.graph.put p ⟨n, nd.sb, sIsdir mode, 0, []⟩) s.dentries B' s1 →
      Spec (rest p) s1 Q) :
    Spec (do
      match ← tmpfsNewInode env (← inodeAt dir).sb mode with
      | .error e => pure (.error e)
      | .ok p => rest p) s Q := by
  refine (At.self s).inodeAt ?_
  intro i hi
  refine (tmpfsNewInode_at (At.self s) i.sb mode).bind ?_
  intro r s1 h1
  cases r with
  | error e =>
    exact spec_pure (hfail e s1 (undone_of_at hi h1 (.refl _ _)))
  | ok p =>
    obtain ⟨n, B', hp, ht, h1⟩ := h1
    exact hrest i.vertex p n B' s1 hi hp ht h1

theorem mode_kind (mode : Mode) {kind : Mode} (hk : kind &&& sIfmt = kind) :
    (mode &&& ~~~sIfmt ||| kind) &&& sIfmt = kind := by
  have h : (mode &&& ~~~sIfmt ||| kind) &&& sIfmt = (mode &&& (~~~sIfmt &&& sIfmt)) |||
      (kind &&& sIfmt) := by
    ext i hi
    grind
  rw [h, hk, BitVec.and_comm (~~~sIfmt), BitVec.and_not_self]
  simp

/-- `tmpfs_create` and `tmpfs_symlink` list a new inode with one link. -/
def Listed (s : Vfs) (dir dentry : Ptr) (r : Except Errno Unit) (s' : Vfs) : Prop :=
  match r with
  | .error _ => Undone s dir s'
  | .ok _ => ∃ nd d p n, s.dentries.get dentry = some d ∧ tmpfsDirLookup nd.entries d.name = none ∧
    Entered s dir nd (add ⟨d.name, n⟩) p ⟨n, nd.sb, false, 1, []⟩ s'

theorem enterNew_listed (dentry : Ptr) (hdir : s.graph dir = some nd) (hp : s.graph p = none)
    (h1 : At (s.graph.put p ⟨n, nd.sb, false, 1, []⟩) s.dentries B' s1)
    (ht : Takes s.sbs B' nd.sb n) :
    Spec (do
      match ← tmpfsEnter dir dentry p with
      | .error e => pure (.error e)
      | .ok () => do
        setDentryInode dentry (some p)
        pure (.ok ()) : K (Except Errno Unit)) s1 (Listed s dir dentry) := by
  refine (enterNew_at hdir hp h1 rfl ht).bind ?_
  refine unless_error (fun _ _ h2 => spec_pure h2) ?_
  rintro _ s2 ⟨d, hd, hl, h2⟩
  apply spec_bind
  apply spec_setDentry
  intro _ _
  refine spec_pure ⟨nd, d, p, n, hd, hl, hdir, hp, rfl, h2.graph, ?_⟩
  rw [h2.sbs]
  exact ht

/-- A file with one link, listed under the name. -/
theorem tmpfsCreate_graph (mode : Mode) :
    Spec (tmpfsCreate env dir dentry mode) s (Listed s dir dentry) := by
  refine newInode_spec (fun _ _ h => h) ?_
  intro nd p n B' s1 hdir hp ht h1
  refine h1.setInode (k := fun m => { m with nlink := 1 }) (fun _ => rfl) ?_
  intro _ s2 _ h2
  have hmode : sIsdir (mode &&& ~~~sIfmt ||| sIfreg) = false := by
    rw [sIsdir, mode_kind mode rfl]
    rfl
  rw [put_edit_self, hmode] at h2
  exact enterNew_listed dentry hdir hp h2 ht

theorem destroyNew_spec {e : Errno} (hdir : s.graph dir = some nd) (hp : s.graph p = none)
    (ht : Takes s.sbs B' nd.sb n) (h1 : At (s.graph.put p new) s.dentries B' s1) :
    Spec (do
      tmpfsDestroyInode p
      pure (.error e : Except Errno Unit)) s1 (Listed s dir dentry) := by
  refine (at_tmpfsDestroyInode h1).bind ?_
  intro _ s2 h2
  rw [put_delete hp] at h2
  exact spec_pure (undone_of_at hdir h2 ht.staysUsed)

theorem tmpfsSymlink_graph (target : Name) :
    Spec (tmpfsSymlink env dir dentry target) s (Listed s dir dentry) := by
  refine newInode_spec (fun _ _ h => h) ?_
  intro nd p n B' s1 hdir hp ht h1
  refine h1.setInode (k := fun m => { m with nlink := 1 }) (fun _ => rfl) ?_
  intro _ s2 _ h2
  have hmode : sIsdir (sIflnk ||| 0o777) = false := rfl
  rw [put_edit_self, hmode] at h2
  split_ifs with hl
  · exact destroyNew_spec hdir hp ht h2
  · refine (at_kheapAlloc _).bind h2 ?_
    refine unless_none (fun _ h3 => destroyNew_spec hdir hp ht h3) ?_
    intro a s3 h3
    refine Preserves.bind (at_setSame fun _ => rfl) h3 ?_
    intro _ s4 h4
    exact enterNew_listed dentry hdir hp h4 ht

theorem tmpfsMknod_graph (mode : Mode) (dev : Nat) :
    Spec (tmpfsMknod env dir dentry mode dev) s fun r s' =>
      match r with
      | .error _ => Undone s dir s'
      | .ok _ => ∃ nd d p n, s.dentries.get dentry = some d ∧
        Entered s dir nd (add ⟨d.name, n⟩) p ⟨n, nd.sb, sIsdir mode, 0, []⟩ s' := by
  refine newInode_spec (fun _ _ h => h) ?_
  intro nd p n B' s1 hdir hp ht h1
  refine Preserves.bind (at_setSame fun _ => rfl) h1 ?_
  intro _ s2 h2
  refine h2.dentryAt ?_
  intro d hd
  refine h2.inodeAt ?_
  intro i hi
  rw [put_self] at hi
  have hnode := some.inj hi
  refine (tmpfsDirAdd_at h2 d.name i.ino).bind ?_
  intro r s3 h3
  cases r with
  | error e =>
    refine (at_tmpfsDropInode h3 put_self).bind ?_
    intro _ s4 ⟨B'', h4, hf⟩
    rw [put_delete hp] at h4
    exact spec_pure (undone_of_at hdir h4 (ht.frees hf))
  | ok _ =>
    apply spec_bind
    apply spec_setDentry
    intro _ _
    have hino : i.ino = n := (congrArg ino hnode :).symm
    rw [hino] at h3
    refine spec_pure ⟨nd, d, p, n, hd, hdir, hp, rfl, h3.2.graph, ?_⟩
    rw [h3.2.sbs]
    exact ht

/-! ## Directories -/

/-- The node of a new directory. -/
def newDir (ino sb parentIno : Nat) : Vertex :=
  ⟨ino, sb, true, 2, [⟨['.'], ino⟩, ⟨['.', '.'], parentIno⟩]⟩

theorem tmpfsDots_at (h : At (g.put p new) D B s) (hnew : new.entries = []) (parentIno : Nat) :
    Spec (tmpfsDots p parentIno) s fun r s' =>
      match r with
      | .error _ => ∃ m : Vertex, At (g.put p m) D B s' ∧ m.sb = new.sb ∧ m.ino = new.ino
      | .ok _ =>
        At (g.put p { new with entries := [⟨['.'], new.ino⟩, ⟨['.', '.'], parentIno⟩] }) D B
        s' := by
  refine h.inodeAt ?_
  intro i hi
  rw [put_self] at hi
  obtain rfl : new = i.vertex := some.inj hi
  refine (tmpfsDirAdd_at h ['.'] i.ino).bind ?_
  refine unless_error (fun _ _ h1 => spec_pure ⟨i.vertex, h1, rfl, rfl⟩) ?_
  intro _ s1 h1
  replace h1 := h1.2
  rw [put_edit_self] at h1
  refine (tmpfsDirAdd_at h1 ['.', '.'] parentIno).bind ?_
  intro r s2 h2
  cases r with
  | error e =>
    refine tmpfsDirRemove_at h2 ['.'] ?_
    intro s3 h3
    rw [put_edit_self] at h3
    exact spec_pure ⟨_, h3, rfl, rfl⟩
  | ok _ =>
    replace h2 := h2.2
    rw [put_edit_self, add, add, hnew] at h2
    exact spec_pure h2

theorem eraseP_append_new {l : List DirEntry} {name : Name} (h : tmpfsDirLookup l name = none)
    (n : Nat) : (l ++ [(⟨name, n⟩ : DirEntry)]).eraseP (fun de => de.name == name) = l := by
  have hnone : ∀ de ∈ l, ¬ (de.name == name) = true := find?_eq_none.mp h
  rw [eraseP_append_right _ hnone]
  simp

theorem Vertex.remove_add {name : Name} (h : tmpfsDirLookup nd.entries name = none) (n : Nat) :
    (nd.add ⟨name, n⟩).remove name = nd := by
  rw [add, remove, eraseP_append_new h]

theorem dropDir_spec {m : Vertex} {d : Dentry} {e : Errno} (hdir : s.graph dir = some nd)
    (hp : s.graph p = none) (ht : Takes s.sbs B' nd.sb m.ino) (hsb : m.sb = nd.sb)
    (hd : s.dentries.get dentry = some d) (hl : tmpfsDirLookup nd.entries d.name = none)
    (h1 : At ((s.graph.edit dir (add ⟨d.name, m.ino⟩)).put p m) s.dentries B' s1) :
    Spec (do
      tmpfsDirRemove dir (← dentryAt dentry).name
      tmpfsDropInode p
      pure (.error e) : K (Except Errno Unit)) s1 fun r s' => r = .error e ∧ Undone s dir s' := by
  have hne : dir ≠ p := ne_of_none hdir hp
  refine h1.dentryAt ?_
  intro d' hd'
  cases hd.symm.trans hd'
  refine tmpfsDirRemove_at h1 d.name ?_
  intro s2 h2
  rw [put_edit_of_ne hne, edit_edit, edit_eq_self hdir (remove_add hl m.ino)] at h2
  refine (at_tmpfsDropInode h2 put_self).bind ?_
  intro _ s3 ⟨B'', h3, hf⟩
  rw [put_delete hp] at h3
  rw [hsb] at hf
  exact spec_pure ⟨rfl, undone_of_at hdir h3 (ht.frees hf)⟩

/-- A directory with its two entries, and one more link for the parent. -/
theorem tmpfsMkdir_graph (mode : Mode) :
    Spec (tmpfsMkdir env dir dentry mode) s fun r s' =>
      match r with
      | .error _ => Undone s dir s'
      | .ok _ =>
        ∃ nd d p n, s.dentries.get dentry = some d ∧ tmpfsDirLookup nd.entries d.name = none ∧
        Entered s dir nd (fun m => (m.add ⟨d.name, n⟩).countUp) p (newDir n nd.sb nd.ino) s' := by
  refine newInode_spec (fun _ _ h => h) ?_
  intro nd p n B' s1 hdir hp ht h1
  have hne : dir ≠ p := ne_of_none hdir hp
  have hmode : sIsdir (mode &&& ~~~sIfmt ||| sIfdir) = true := by
    rw [sIsdir, mode_kind mode rfl]
    rfl
  refine h1.setInode (k := fun m => { m with nlink := 2 }) (fun _ => rfl) ?_
  intro _ s2 _ h2
  rw [put_edit_self, hmode] at h2
  refine (enterNew_at hdir hp h2 rfl ht).bind ?_
  intro r s3 h3
  cases r with
  | error e => exact spec_pure h3
  | ok _ =>
    obtain ⟨d, hd, hl, h3⟩ := h3
    refine h3.inodeAt ?_
    intro i hi
    rw [edit_self (put_of_some hp hdir)] at hi
    have hino : nd.ino = i.ino := (congrArg ino (some.inj hi) :)
    rw [put_edit_of_ne hne] at h3
    refine (tmpfsDots_at h3 rfl i.ino).bind ?_
    intro r s4 h4
    cases r with
    | error e =>
      obtain ⟨m, h4, hsb, hm⟩ := h4
      subst hm
      refine (dropDir_spec hdir hp ht hsb hd hl h4).mono ?_
      rintro r s5 ⟨rfl, h5⟩
      exact h5
    | ok _ =>
      refine h4.setInode (k := countUp) (fun _ => rfl) ?_
      intro _ s5 _ h5
      rw [put_edit_of_ne hne, edit_edit, ← hino] at h5
      apply spec_bind
      apply spec_setDentry
      intro _ _
      refine spec_pure ⟨nd, d, p, n, hd, hl, hdir, hp, rfl, ?_, ?_⟩
      · rw [put_edit_of_ne hne]
        exact h5.graph
      · rw [h5.sbs]
        exact ht

/-- One more entry, under whatever name, and one more link. -/
theorem tmpfsLink_graph {old new : Ptr} :
    Spec (tmpfsLink old dir new) s fun r s' =>
      match r with
      | .error _ => Still s s'
      | .ok _ => s'.sbs = s.sbs ∧ ∃ d p np d', s.dentries.get old = some d ∧ d.inode = some p ∧
        s.graph p = some np ∧ s.dentries.get new = some d' ∧
        s'.graph = (s.graph.edit dir (add ⟨d'.name, np.ino⟩)).edit p countUp := by
  have h := At.self s
  refine h.dentryInode ?_
  intro d p hd hi
  refine h.dentryAt ?_
  intro d' hd'
  refine h.inodeAt ?_
  intro i hp
  refine (tmpfsDirAdd_at h d'.name i.ino).bind ?_
  refine unless_error (fun _ _ h1 => spec_pure ⟨h1.graph, by rw [h1.sbs]⟩) ?_
  intro _ s1 h1
  refine h1.2.setInode (k := countUp) (fun _ => rfl) ?_
  intro _ s2 _ h2
  apply spec_bind
  apply spec_setDentry
  intro _ _
  apply spec_bind
  apply spec_setInode
  intro _ _
  refine spec_pure ⟨h2.sbs, d, p, i.vertex, d', hd, hi, hp, hd', ?_⟩
  exact (Vfs.graph_modify_same (f := fun i => { i with count := i.count + 1 }) fun _ => rfl).trans
    h2.graph

/-- The entry of the name is gone, and the inode of the dentry has a link less. -/
theorem tmpfsUnlink_graph :
    Spec (tmpfsUnlink dir dentry) s fun r s' =>
      match r with
      | .error _ => Still s s'
      | .ok _ =>
        s'.sbs = s.sbs ∧ ∃ nd d de q, s.graph dir = some nd ∧ s.dentries.get dentry = some d ∧
        tmpfsDirLookup nd.entries d.name = some de ∧ d.inode = some q ∧
          (∃ nq, s.graph q = some nq) ∧
        s'.graph = (s.graph.edit dir (remove d.name)).edit q countDown := by
  have h := At.self s
  refine h.dentryAt ?_
  intro d hd
  refine h.inodeAt ?_
  intro i hdir
  cases hl : tmpfsDirLookup i.dirList d.name with
  | none => exact spec_pure (.refl s)
  | some de =>
    refine tmpfsDirRemove_at h d.name ?_
    intro s1 h1
    refine h1.dentryInode ?_
    intro d' q hd' hq
    cases hd.symm.trans hd'
    refine h1.setInode (k := countDown) (fun _ => rfl) ?_
    intro nq s2 hnq h2
    have hlive : ∃ nq, s.graph q = some nq := by
      rcases edit_eq_some hnq with ⟨rfl, n, hn, -⟩ | ⟨-, hnq⟩
      · exact ⟨n, hn⟩
      · exact ⟨nq, hnq⟩
    apply spec_bind
    apply spec_setDentry
    intro _ _
    exact spec_pure ⟨h2.sbs, i.vertex, d, de, q, hdir, hd, hl, hq, hlive, h2.graph⟩

/-- The entry is gone, and the child and its parent have a link less. -/
theorem tmpfsRmdir_graph :
    Spec (tmpfsRmdir dir dentry) s fun r s' =>
      match r with
      | .error _ => Still s s'
      | .ok _ =>
        s'.sbs = s.sbs ∧ ∃ nd d de child nc, s.graph dir = some nd ∧ s.dentries.get dentry =
        some d ∧
        tmpfsDirLookup nd.entries d.name = some de ∧ d.inode = some child ∧ s.graph child =
          some nc ∧
        dirEmpty nc.entries = true ∧
        s'.graph = ((s.graph.edit dir (remove d.name)).edit child countDown).edit dir
          countDown := by
  have h := At.self s
  refine h.dentryInode ?_
  intro d child hd hc
  refine h.inodeAt ?_
  intro i hchild
  split_ifs with he
  · exact spec_pure (.refl s)
  · refine h.dentryAt ?_
    intro d' hd'
    cases hd.symm.trans hd'
    refine h.inodeAt ?_
    intro j hdir
    cases hl : tmpfsDirLookup j.dirList d.name with
    | none => exact spec_pure (.refl s)
    | some de =>
      refine tmpfsDirRemove_at h d.name ?_
      intro s1 h1
      refine h1.setInode (k := countDown) (fun _ => rfl) ?_
      intro _ s2 _ h2
      refine h2.setInode (k := countDown) (fun _ => rfl) ?_
      intro _ s3 _ h3
      apply spec_bind
      apply spec_setDentry
      intro _ _
      exact spec_pure ⟨h3.sbs, j.vertex, d, de, child, i.vertex, hdir, hd, hl, hc, hchild,
        Bool.not_eq_false _ ▸ he, h3.graph⟩

/-! ## Mounting -/

/-- The numbers in use stay so. -/
def UsesKept (s s' : Vfs) : Prop := ∀ sb k, uses s.sbs sb k = true → uses s'.sbs sb k = true

theorem Still.usesKept (h : Still s s') : UsesKept s s' := by
  intro sb k hk
  rw [h.uses, hk]

theorem UsesKept.trans {s'' : Vfs} (h : UsesKept s s') (h' : UsesKept s' s'') : UsesKept s s'' :=
  fun sb k hk => h' sb k (h sb k hk)

theorem tmpfsMountRoot_at (h : At g D B s) (sb : Ptr) :
    Spec (tmpfsMountRoot env sb) s fun r s' =>
      match r with
      | .error _ => s'.graph = g ∧ (∃ n B', Takes B B' sb n ∧ Frees B' s'.sbs sb n) ∨ At g D B s'
      | .ok _ => ∃ p n, g p = none ∧ Takes B s'.sbs sb n ∧ s'.graph = g.put p (newDir n sb n) := by
  refine (tmpfsNewInode_at h sb _).bind ?_
  refine unless_error (fun _ _ h1 => spec_pure (.inr h1)) ?_
  intro p s1 h1
  obtain ⟨n, B', hp, ht, h1⟩ := h1
  refine h1.setInode (k := fun m => { m with nlink := 2 }) (fun _ => rfl) ?_
  intro _ s2 _ h2
  rw [put_edit_self] at h2
  refine h2.inodeAt ?_
  intro i hi
  rw [put_self] at hi
  have hino : n = i.ino := (congrArg ino (some.inj hi) :)
  -- whatever fails from here on, the root is dropped
  have hdrop : ∀ (e : Errno) (m : Vertex) s3, m.sb = sb → m.ino = n → At (g.put p m) D B' s3 →
      Spec (do
        tmpfsDropInode p
        pure (.error e) : K (Except Errno Ptr)) s3 fun r s' =>
        match r with
        | .error _ =>
          s'.graph = g ∧ (∃ n B', Takes B B' sb n ∧ Frees B' s'.sbs sb n) ∨ At g D B s'
        | .ok _ =>
          ∃ p n, g p = none ∧ Takes B s'.sbs sb n ∧ s'.graph = g.put p (newDir n sb n) := by
    intro e m s3 hsb hm h3
    refine (at_tmpfsDropInode h3 put_self).bind ?_
    intro _ s4 ⟨B'', h4, hf⟩
    rw [put_delete hp] at h4
    rw [hsb, hm, ← h4.sbs] at hf
    exact spec_pure (.inl ⟨h4.graph, n, B', ht, hf⟩)
  refine (tmpfsDots_at h2 rfl i.ino).bind ?_
  intro r s3 h3
  cases r with
  | error e =>
    obtain ⟨m, h3, hsb, hm⟩ := h3
    exact hdrop e m s3 hsb hm h3
  | ok _ =>
    refine (at_kheapAlloc 1).bind h3 ?_
    refine unless_none (fun s4 h4 => hdrop _ _ s4 rfl rfl h4) ?_
    intro a s4 h4
    refine (at_kheapAlloc 2).bind h4 ?_
    refine unless_none (fun s5 h5 => hdrop _ _ s5 rfl rfl h5) ?_
    intro b s5 h5
    apply spec_get
    apply spec_bind
    apply spec_modify
    refine spec_pure ⟨p, n, hp, ?_, ?_⟩
    · rw [h5.sbs]
      exact ht
    · have hgraph := h5.graph
      rw [← hino] at hgraph
      exact hgraph

theorem inoBitmapInit_room {heap : Oracle} :
    Spec inoBitmapInit heap fun r _ => ∀ bits, r = some bits → (bitmapFind bits 1).isSome =
      true := by
  have hfirst : bitmapFind (List.replicate 128 false) 1 = some 1 := by decide +kernel
  apply spec_bind
  refine unless_none (fun _ _ => spec_pure nofun) ?_
  intro d heap1 _
  apply spec_bind
  intro r heap2 hr
  rw [bitmapAlloc_of_some hfirst] at hr
  obtain ⟨rfl, -⟩ := Prod.mk.inj (some.inj hr)
  refine spec_pure ?_
  intro bits h
  cases h
  decide +kernel

theorem uses_alloc_mono (b : SuperBlock) (h : uses B sb k = true) :
    uses (B.alloc b) sb k = true := by
  cases hb : B.get sb with
  | none =>
    rw [uses, hb] at h
    cases h
  | some v =>
    rw [uses, Store.get_alloc_of_some hb, ← hb]
    exact h

theorem uses_lt (h : uses B sb k = true) : sb < B.next := by
  cases hb : B.get sb with
  | none =>
    rw [uses, hb] at h
    cases h
  | some v => exact Store.lt_next hb

/-- A mount adds a root in a file system of its own, or nothing. -/
theorem tmpfsMount_graph (dev : Option Nat) (maxPages : Nat) :
    Spec (tmpfsMount env dev maxPages) s fun r s' => UsesKept s s' ∧
      match r with
      | .error _ => s'.graph = s.graph
      | .ok _ => ∃ p n sb, s.sbs.get sb = none ∧ s.graph p = none ∧ uses s'.sbs sb n = true ∧
        s'.graph = s.graph.put p (newDir n sb n) := by
  have hfail : ∀ s1 : Vfs, At s.graph s.dentries s.sbs s1 → UsesKept s s1 ∧ s1.graph = s.graph := by
    intro s1 h1
    refine ⟨?_, h1.graph⟩
    intro sb k hk
    rw [h1.sbs, hk]
  refine (at_kheapAlloc 1).bind (At.self s) ?_
  refine unless_none (fun s1 h1 => spec_pure (hfail s1 h1)) ?_
  intro a s1 h1
  apply spec_bind
  apply spec_onHeap
  intro r heap hr
  have h2 : At s.graph s.dentries s.sbs { s1 with heap := heap } := ⟨h1.graph, h1.dentries, h1.sbs⟩
  cases r with
  | none => exact spec_pure (hfail _ h2)
  | some bits =>
    have hroom := inoBitmapInit_room _ _ hr bits rfl
    refine (at_kheapAlloc 1).bind h2 ?_
    refine unless_none (fun s3 h3 => spec_pure (hfail s3 h3)) ?_
    intro b s3 h3
    cases dev with
    | none => exact spec_pure (hfail s3 h3)
    | some dev =>
      apply spec_get
      apply spec_bind
      apply spec_modify
      rw [h3.sbs]
      have h4 : At s.graph s.dentries (s.sbs.alloc ⟨dev, bits, maxPages, 0⟩)
          { s3 with sbs := s.sbs.alloc ⟨dev, bits, maxPages, 0⟩ } :=
            ⟨h3.graph, h3.dentries, rfl⟩
      have hnew : Room (s.sbs.alloc ⟨dev, bits, maxPages, 0⟩) s.sbs.next := by
        intro v hv
        rw [Store.get_alloc_self] at hv
        cases hv
        exact hroom
      have hmono : ∀ sb k, uses s.sbs sb k = true →
          uses (s.sbs.alloc ⟨dev, bits, maxPages, 0⟩) sb k = true :=
            fun _ _ h => uses_alloc_mono _ h
      refine (tmpfsMountRoot_at h4 s.sbs.next).bind ?_
      intro r s5 h5
      cases r with
      | ok root =>
        obtain ⟨p, n, hp, ht, hgraph⟩ := h5
        refine spec_pure ⟨?_, p, n, s.sbs.next, s.sbs.fresh _ le_rfl, hp, ht.used hnew, hgraph⟩
        intro sb k hk
        exact ht.staysUsed hnew sb k (hmono sb k hk)
      | error e =>
        apply spec_bind
        apply spec_modify
        have hkept : s5.graph = s.graph ∧ ∀ sb k, uses s.sbs sb k = true → uses s5.sbs sb k =
            true := by
          rcases h5 with ⟨hgraph, n, B', ht, hf⟩ | h5
          · exact ⟨hgraph, fun sb k hk => ht.frees hf hnew sb k (hmono sb k hk)⟩
          · refine ⟨h5.graph, ?_⟩
            intro sb k hk
            rw [h5.sbs, hmono sb k hk]
        refine spec_pure ⟨?_, hkept.1⟩
        intro sb k hk
        have hne : sb ≠ s.sbs.next := Nat.ne_of_lt (uses_lt hk)
        rw [uses, Store.get_erase_of_ne hne]
        exact hkept.2 sb k hk

end ShiziOS.Fs
