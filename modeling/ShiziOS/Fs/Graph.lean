import ShiziOS.Fs.Mount
import ShiziOS.Fs.Quiet

/-!
# The graph of the directories

Of a state, what the operations on directories work on: for every inode its number and super
block, whether it is a directory, its count of links and its entries (`Vfs.graph`), and beside
it the inode numbers that are in use (`uses`). Most of what a call does leaves both as they are:
`Still`.
-/

namespace ShiziOS.Fs

open Exec Option Function

/-! ## Nodes -/

/-- An inode without its attributes, its data and its counter. -/
structure Vertex where
  ino : Nat
  sb : Ptr
  isDir : Bool
  nlink : Nat
  entries : List DirEntry

def Inode.vertex (i : Inode) : Vertex := ⟨i.ino, i.sb, sIsdir i.mode, i.nlink, i.dirList⟩

namespace Vertex

def add (de : DirEntry) (n : Vertex) : Vertex := { n with entries := n.entries ++ [de] }

def remove (name : Name) (n : Vertex) : Vertex :=
  { n with entries := n.entries.eraseP fun de => de.name == name }

def rename (name newName : Name) (n : Vertex) : Vertex :=
  { n with entries := renameEntry name newName n.entries }

def point (name : Name) (ino : Nat) (n : Vertex) : Vertex :=
  { n with entries := setEntryIno name ino n.entries }

def countUp (n : Vertex) : Vertex := { n with nlink := (n.nlink + 1) % 2 ^ 64 }

def countDown (n : Vertex) : Vertex := { n with nlink := decr64 n.nlink }

/-- What of a node never changes: its number, its super block and whether it is a directory. -/
def kind (n : Vertex) : Nat × Ptr × Bool := (n.ino, n.sb, n.isDir)

theorem kind_countDown (n : Vertex) : n.countDown.kind = n.kind := by rw [countDown, kind, kind]

theorem entries_countDown (n : Vertex) : n.countDown.entries = n.entries := by rw [countDown]

theorem kind_eq_iff {n m : Vertex} :
    m.kind = n.kind ↔ m.ino = n.ino ∧ m.sb = n.sb ∧ m.isDir = n.isDir := by
  rw [kind, kind, Prod.mk.injEq, Prod.mk.injEq]

end Vertex

abbrev Graph := Ptr → Option Vertex

namespace Graph

variable {g : Graph} {p q : Ptr} {n : Vertex} {f : Vertex → Vertex}

/-- Change a node; where there is none, nothing changes. -/
def edit (g : Graph) (p : Ptr) (f : Vertex → Vertex) : Graph := update g p ((g p).map f)

def put (g : Graph) (p : Ptr) (n : Vertex) : Graph := update g p (some n)

def delete (g : Graph) (p : Ptr) : Graph := update g p none

@[simp] theorem put_self : g.put p n p = some n := update_self ..

theorem put_of_ne (h : q ≠ p) : g.put p n q = g q := update_of_ne h ..

theorem edit_of_ne (h : q ≠ p) : g.edit p f q = g q := update_of_ne h ..

theorem edit_self (h : g p = some n) : g.edit p f p = some (f n) := by
  rw [edit, update_self, h, map_some]

theorem edit_eq_some {m : Vertex} (h : g.edit p f q = some m) :
    q = p ∧ (∃ n, g p = some n ∧ m = f n) ∨ q ≠ p ∧ g q = some m := by
  by_cases hq : q = p
  · subst hq
    rw [edit, update_self] at h
    obtain ⟨n, hn, rfl⟩ := map_eq_some_iff.mp h
    exact .inl ⟨rfl, n, hn, rfl⟩
  · rw [edit_of_ne hq] at h
    exact .inr ⟨hq, h⟩

theorem put_eq_some {m : Vertex} (h : g.put p n q = some m) :
    q = p ∧ m = n ∨ q ≠ p ∧ g q = some m := by
  by_cases hq : q = p
  · subst hq
    rw [put_self] at h
    exact .inl ⟨rfl, (some.inj h).symm⟩
  · rw [put_of_ne hq] at h
    exact .inr ⟨hq, h⟩

theorem edit_edit (g : Graph) (p : Ptr) (f k : Vertex → Vertex) :
    (g.edit p f).edit p k = g.edit p fun n => k (f n) := by
  rw [edit, edit, edit, update_self, update_idem, map_map]
  rfl

theorem put_edit_self (g : Graph) (p : Ptr) (n : Vertex) (f : Vertex → Vertex) :
    (g.put p n).edit p f = g.put p (f n) := by
  rw [edit, put_self, put, put, update_idem, map_some]

theorem put_edit_of_ne (h : q ≠ p) (n : Vertex) (f : Vertex → Vertex) :
    (g.put p n).edit q f = (g.edit q f).put p n := by
  rw [edit, put_of_ne h, put, put, edit, update_comm h.symm]

theorem edit_eq_self (hp : g p = some n) (hf : f n = n) : g.edit p f = g := by
  rw [edit, hp, map_some, hf, ← hp, update_eq_self]

def kinds (g : Graph) : Ptr → Option (Nat × Ptr × Bool) := fun p => (g p).map Vertex.kind

theorem kinds_of_some (h : g p = some n) : g.kinds p = some n.kind := by
  rw [kinds, h, map_some]

theorem kinds_eq_some {k : Nat × Ptr × Bool} :
    g.kinds p = some k ↔ ∃ n, g p = some n ∧ n.kind = k :=
  map_eq_some_iff

theorem ne_of_none {m : Vertex} (hq : g q = some m) (hp : g p = none) : q ≠ p := by
  rintro rfl
  cases hp.symm.trans hq

theorem put_of_some {m : Vertex} (hp : g p = none) (hq : g q = some m) : g.put p n q = some m := by
  rw [put_of_ne (ne_of_none hq hp), hq]

theorem kinds_put {k : Nat × Ptr × Bool} (hp : g p = none) (hq : g.kinds q = some k) :
    (g.put p n).kinds q = some k := by
  obtain ⟨m, hm, rfl⟩ := kinds_eq_some.mp hq
  exact kinds_of_some (put_of_some hp hm)

theorem kinds_edit (hf : ∀ n, (f n).kind = n.kind) : (g.edit p f).kinds = g.kinds := by
  funext q
  by_cases hq : q = p
  · subst hq
    rw [kinds, kinds, edit, update_self, map_map]
    congr 1
    funext n
    exact hf n
  · rw [kinds, kinds, edit_of_ne hq]

@[simp] theorem kinds_add (de : DirEntry) : (g.edit p (Vertex.add de)).kinds = g.kinds :=
  kinds_edit fun _ => rfl

@[simp] theorem kinds_remove (name : Name) : (g.edit p (Vertex.remove name)).kinds = g.kinds :=
  kinds_edit fun _ => rfl

@[simp] theorem kinds_rename (name newName : Name) :
    (g.edit p (Vertex.rename name newName)).kinds = g.kinds :=
  kinds_edit fun _ => rfl

@[simp] theorem kinds_point (name : Name) (ino : Nat) :
    (g.edit p (Vertex.point name ino)).kinds = g.kinds :=
  kinds_edit fun _ => rfl

@[simp] theorem kinds_countUp : (g.edit p Vertex.countUp).kinds = g.kinds := kinds_edit fun _ => rfl

@[simp] theorem kinds_countDown : (g.edit p Vertex.countDown).kinds = g.kinds :=
  kinds_edit Vertex.kind_countDown

theorem put_delete (h : g p = none) (n : Vertex) : (g.put p n).delete p = g := by
  rw [delete, put, update_idem, ← h, update_eq_self]

end Graph

def Vfs.graph (s : Vfs) : Graph := fun p => (s.inodes.get p).map Inode.vertex

variable {env : Env} {s s' : Vfs} {p : Ptr}

theorem Vfs.graph_of_get {i : Inode} (h : s.inodes.get p = some i) : s.graph p = some i.vertex := by
  rw [Vfs.graph, h, map_some]

theorem Vfs.graph_modify {f : Inode → Inode} {f' : Vertex → Vertex}
    (hf : ∀ i, (f i).vertex = f' i.vertex) :
    Vfs.graph { s with inodes := s.inodes.modify p f } = s.graph.edit p f' := by
  funext q
  by_cases hq : q = p
  · subst hq
    rw [Graph.edit, update_self, Vfs.graph, Vfs.graph, Store.get_modify_self, map_map, map_map]
    congr 1
    funext i
    exact hf i
  · rw [Graph.edit_of_ne hq, Vfs.graph, Vfs.graph, Store.get_modify_of_ne f hq]

theorem Vfs.graph_modify_same {f : Inode → Inode} (hf : ∀ i, (f i).vertex = i.vertex) :
    Vfs.graph { s with inodes := s.inodes.modify p f } = s.graph := by
  have h : Vfs.graph { s with inodes := s.inodes.modify p f } = s.graph.edit p id :=
    Vfs.graph_modify hf
  rw [h, Graph.edit, map_id_fun, id, update_eq_self]

theorem Vfs.graph_alloc (i : Inode) :
    Vfs.graph { s with inodes := s.inodes.alloc i } = s.graph.put s.inodes.next i.vertex := by
  funext q
  by_cases hq : q = s.inodes.next
  · subst hq
    rw [Vfs.graph, Store.get_alloc_self, Graph.put_self, map_some]
  · rw [Vfs.graph, Store.get_alloc_of_ne hq, Graph.put_of_ne hq, Vfs.graph]

theorem Vfs.graph_erase (p : Ptr) :
    Vfs.graph { s with inodes := s.inodes.erase p } = s.graph.delete p := by
  funext q
  by_cases hq : q = p
  · subst hq
    rw [Graph.delete, update_self, Vfs.graph, Store.erase]
    simp
  · rw [Vfs.graph, Store.get_erase_of_ne hq, Graph.delete, update_of_ne hq, Vfs.graph]

/-! ## Inode numbers -/

def uses (sbs : Store SuperBlock) (sb : Ptr) (n : Nat) : Bool :=
  (sbs.get sb).any fun b => b.inodeBitmap.getD n false

/-- The bitmap has a clear bit, so that it does not have to grow. -/
def Room (sbs : Store SuperBlock) (sb : Ptr) : Prop :=
  ∀ b, sbs.get sb = some b → (bitmapFind b.inodeBitmap 1).isSome = true

/-! ## What leaves the graph as it is -/

structure Still (s s' : Vfs) : Prop where
  graph : s'.graph = s.graph
  uses : uses s'.sbs = uses s.sbs

theorem Still.refl (s : Vfs) : Still s s := ⟨rfl, rfl⟩

theorem Still.trans {s1 s2 s3 : Vfs} (h : Still s1 s2) (h' : Still s2 s3) : Still s1 s3 :=
  ⟨h'.graph.trans h.graph, h'.uses.trans h.uses⟩

instance : IsPreorder Vfs Still where
  refl := Still.refl
  trans _ _ _ := Still.trans

theorem Inode.node_eq {i i' : Inode} (h : i'.core = i.core) : i'.vertex = i.vertex :=
  (congrArg Inode.vertex h :)

theorem Quiet.still (h : Quiet s s') : Still s s' where
  graph := by
    funext p
    cases hp : s.inodes.get p with
    | some i =>
      obtain ⟨i', hi', hc⟩ := h.inode hp
      rw [Vfs.graph_of_get hp, Vfs.graph_of_get hi', Inode.node_eq hc]
    | none =>
      have hp' := h.inodes p
      rw [hp, map_none, map_eq_none_iff] at hp'
      rw [Vfs.graph, Vfs.graph, hp, hp']
  uses := by rw [h.sbs]

theorem still_quiet {α : Type} {x : K α} (h : Keeps Quiet x) : Keeps Still x :=
  fun s => (h s).mono fun _ _ => Quiet.still

theorem still_setInode {f : Inode → Inode} (hf : ∀ i, (f i).vertex = i.vertex) :
    Keeps Still (setInode p f) :=
  fun _ => spec_setInode fun _ _ => ⟨Vfs.graph_modify_same hf, rfl⟩

theorem still_setDentry (f : Dentry → Dentry) : Keeps Still (setDentry p f) :=
  fun _ => spec_setDentry fun _ _ => ⟨rfl, rfl⟩

theorem still_setFile (f : File → File) : Keeps Still (setFile p f) :=
  fun _ => spec_setFile fun _ _ => ⟨rfl, rfl⟩

theorem still_setMount (f : Mount → Mount) : Keeps Still (setMount p f) :=
  fun _ => spec_setMount fun _ _ => ⟨rfl, rfl⟩

theorem still_modify {f : Vfs → Vfs} (hf : ∀ s, (f s).inodes = s.inodes ∧ (f s).sbs = s.sbs) :
    Keeps Still (modify f) := by
  intro s
  refine spec_modify ⟨?_, by rw [(hf s).2]⟩
  funext p
  rw [Vfs.graph, Vfs.graph, (hf s).1]

end ShiziOS.Fs
