import ShiziOS.Fs.Entries

/-!
# Inode numbers

An entry names an inode by its number, so two inodes of one super block must not share one. The
bitmap of the super block hands out numbers that are not in use, as long as it has a clear bit:
when it has to grow it starts empty again and hands out the numbers of inodes that exist.
-/

namespace ShiziOS.Fs

open Exec Option

variable {env : Env} {s s' : Vfs} {g : Graph} {p q : Ptr} {n m : Vertex}

/-- No two inodes of one super block have the same number. -/
def Graph.Distinct (g : Graph) : Prop :=
  ∀ ⦃p q ino sb b b'⦄, g.kinds p = some (ino, sb, b) → g.kinds q = some (ino, sb, b') → p = q

theorem Graph.Distinct.eq (h : g.Distinct) (hp : g p = some n) (hq : g q = some m)
    (hsb : n.sb = m.sb)
    (hino : n.ino = m.ino) : p = q := by
  have hk := kinds_of_some hq
  rw [Vertex.kind, ← hsb, ← hino] at hk
  exact h (kinds_of_some hp) hk

/-- There is a directory with the number in the super block. -/
def Graph.HasDir (g : Graph) (sb : Ptr) (ino : Nat) : Prop := ∃ q, g.kinds q = some (ino, sb, true)

theorem Graph.hasDir_of_some (h : g p = some n) (hdir : n.isDir = true) : g.HasDir n.sb n.ino :=
  ⟨p, by rw [kinds_of_some h, Vertex.kind, hdir]⟩

variable {sb ino : Nat} {new : Vertex} {dir : Ptr}

theorem Graph.HasDir.has (h : g.HasDir sb ino) : g.Has sb ino :=
  h.imp fun _ hq => ⟨true, hq⟩

theorem Graph.Distinct.hasDir_iff (h : g.Distinct) (hp : g p = some n) :
    g.HasDir n.sb n.ino ↔ n.isDir = true := by
  refine ⟨?_, hasDir_of_some hp⟩
  rintro ⟨q, hq⟩
  obtain rfl := h (kinds_of_some hp) hq
  rw [kinds_of_some hp, Vertex.kind, some.injEq, Prod.mk.injEq, Prod.mk.injEq] at hq
  exact hq.2.2

/-- The number of every inode is in use, and is that of no other inode. -/
structure Numbered (s : Vfs) : Prop where
  used : ∀ ⦃p ino sb b⦄, s.graph.kinds p = some (ino, sb, b) → uses s.sbs sb ino = true
  distinct : s.graph.Distinct

theorem Numbered.mono (h : Numbered s) (hk : s'.graph.kinds = s.graph.kinds)
    (hu : ∀ sb ino, uses s.sbs sb ino = true → uses s'.sbs sb ino = true) : Numbered s' := by
  refine ⟨?_, ?_⟩
  · intro p ino sb b hp
    rw [hk] at hp
    exact hu sb ino (h.used hp)
  · intro p q ino sb b b' hp hq
    rw [hk] at hp hq
    exact h.distinct hp hq

theorem Numbered.still (h : Numbered s) (hs : Still s s') : Numbered s' := by
  refine h.mono (by rw [hs.graph]) ?_
  intro sb ino hu
  rw [hs.uses]
  exact hu

theorem Numbered.not_has (h : Numbered s) (hu : uses s.sbs sb ino = false) :
    ¬s.graph.Has sb ino := by
  rintro ⟨q, b, hq⟩
  rw [h.used hq] at hu
  cases hu

theorem Graph.kinds_put_cases {b : Bool} (h : (g.put p new).kinds q = some (ino, sb, b)) :
    q = p ∧ ino = new.ino ∧ sb = new.sb ∧ b = new.isDir ∨ q ≠ p ∧ g.kinds q = some
      (ino, sb, b) := by
  by_cases hqp : q = p
  · subst hqp
    rw [kinds_of_some put_self, Vertex.kind, some.injEq, Prod.mk.injEq, Prod.mk.injEq] at h
    exact .inl ⟨rfl, h.1.symm, h.2.1.symm, h.2.2.symm⟩
  · rw [kinds, put_of_ne hqp] at h
    exact .inr ⟨hqp, h⟩

theorem Graph.Distinct.put (h : g.Distinct) (hfree : ¬g.Has new.sb new.ino) :
    (g.put p new).Distinct := by
  intro q q' ino sb b b' hq hq'
  rcases kinds_put_cases hq with ⟨rfl, rfl, rfl, -⟩ | ⟨-, hold⟩
  · rcases kinds_put_cases hq' with ⟨rfl, -⟩ | ⟨-, hold'⟩
    · rfl
    · exact absurd ⟨q', b', hold'⟩ hfree
  · rcases kinds_put_cases hq' with ⟨rfl, rfl, rfl, -⟩ | ⟨-, hold'⟩
    · exact absurd ⟨q, b, hold⟩ hfree
    · exact h hold hold'

theorem Numbered.put (new : Vertex) (h : Numbered s)
    (hk : s'.graph.kinds = (s.graph.put p new).kinds)
    (hfree : uses s.sbs new.sb new.ino = false) (hnew : uses s'.sbs new.sb new.ino = true)
    (hu : ∀ sb ino, uses s.sbs sb ino = true → uses s'.sbs sb ino = true) : Numbered s' := by
  refine ⟨?_, ?_⟩
  · intro q ino sb b hq
    rw [hk] at hq
    rcases Graph.kinds_put_cases hq with ⟨-, rfl, rfl, -⟩ | ⟨-, hq⟩
    · exact hnew
    · exact hu sb ino (h.used hq)
  · intro q q' ino sb b b' hq hq'
    rw [hk] at hq hq'
    exact h.distinct.put (h.not_has hfree) hq hq'

theorem Entered.kinds {nd : Vertex} {f : Vertex → Vertex} (h : Entered s dir nd f p new s')
    (hf : ∀ n, (f n).kind = n.kind) : s'.graph.kinds = (s.graph.put p new).kinds := by
  rw [h.graph, Graph.kinds_edit hf]

theorem Entered.numbered {nd : Vertex} {f : Vertex → Vertex}
    (h : Entered s dir nd f p new s') (hf : ∀ n, (f n).kind = n.kind) (hroom : Room s.sbs nd.sb)
    (hs : Numbered s) : Numbered s' := by
  have hfree : uses s.sbs new.sb new.ino = false := by
    rw [h.sb]
    exact (h.takes hroom).1
  have hnew : uses s'.sbs new.sb new.ino = true := by
    rw [h.sb]
    exact h.takes.used hroom
  exact hs.put new (h.kinds hf) hfree hnew (h.takes.staysUsed hroom)

theorem Undone.numbered (h : Undone s dir s')
    (hroom : ∀ nd, s.graph dir = some nd → Room s.sbs nd.sb) (hs : Numbered s) : Numbered s' := by
  obtain ⟨nd, hdir, hu⟩ := h.used
  exact hs.mono (by rw [h.graph]) (hu (hroom nd hdir))

theorem MountEffect.numbered (h : MountEffect s s') (hs : Numbered s) : Numbered s' := by
  rcases h.graph with hgraph | ⟨p, n, sb, hfree, -, hn, hgraph⟩
  · exact hs.mono (by rw [hgraph]) h.usesKept
  · exact hs.put (newDir n sb n) (by rw [hgraph]) (hfree n) hn h.usesKept

/-! ## Operations -/

/-- The bitmap of the super block of the inode has a clear bit. -/
def Vfs.hasRoom (s : Vfs) (dir : Ptr) : Bool :=
  (s.inodes.get dir).all fun i => (s.sbs.get i.sb).all fun b => (bitmapFind b.inodeBitmap 1).isSome

theorem Vfs.room_of_hasRoom (h : s.hasRoom dir = true) (hdir : s.graph dir = some n) :
    Room s.sbs n.sb := by
  obtain ⟨i, hi, rfl⟩ := map_eq_some_iff.mp hdir
  intro b hb
  rw [hasRoom, hi, all_some] at h
  have hb' : s.sbs.get i.sb = some b := hb
  rw [hb', all_some] at h
  exact h

end ShiziOS.Fs
