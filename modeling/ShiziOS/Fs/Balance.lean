import ShiziOS.Fs.Edit

/-!
# The balance of links

`nlink` of a file is the number of its entries, `nlink` of a directory two more than the number
of the directories in it. An operation changes entries and counters one after the other; by how
much a counter is ahead of the entries on the way is kept in a balance (`Balance`).
-/

namespace ShiziOS.Fs

open Exec List Option ShiziOS.Fs.Graph Vertex DirEntry

variable {env : Env} {s s' : Vfs} {g : Graph} {p q d : Ptr} {n nd nq : Vertex} {f : Vertex → Vertex}
  {name newName : Name} {de : DirEntry} {δ δ' : Ptr → Int} {L : Ptr → Prop}

/-! ## Directories in a directory -/

open Classical in
/-- The entry names a directory, and is neither `.` nor `..`. -/
noncomputable def Graph.listsDir (g : Graph) (sb : Ptr) (de : DirEntry) : Bool :=
  plain de.name && decide (g.HasDir sb de.ino)

/-- The number of directories that the entries of the vertex name, other than `.` and `..`. -/
noncomputable def Graph.subdirs (g : Graph) (n : Vertex) : Nat := n.entries.countP (g.listsDir n.sb)

theorem Graph.listsDir_of_not_plain (sb : Ptr) (de : DirEntry) (h : plain de.name = false) :
    g.listsDir sb de = false := by
  rw [listsDir, h, Bool.false_and]

open Classical in
theorem Graph.listsDir_iff {sb : Ptr} :
    g.listsDir sb de = true ↔ plain de.name = true ∧ g.HasDir sb de.ino := by
  rw [listsDir, Bool.and_eq_true, decide_eq_true_eq]

theorem Graph.Distinct.listsDir (h : g.Distinct) (de : DirEntry) (hq : g q = some nq)
    (hname : plain de.name = true)
    (hino : de.ino = nq.ino) : g.listsDir nq.sb de = nq.isDir := by
  rw [Bool.eq_iff_iff, ← h.hasDir_iff hq, listsDir_iff, hino]
  exact and_iff_right hname

theorem Graph.subdirs_congr {g' : Graph} (h : g'.kinds = g.kinds) : g'.subdirs n = g.subdirs n := by
  unfold subdirs listsDir HasDir
  rw [h]

/-! ## The balance -/

/-- The counters are ahead of the entries by `δ`. Of the directories only those in `L` count. -/
structure Balance (g : Graph) (δ : Ptr → Int) (L : Ptr → Prop) : Prop where
  finite : PartialMap.Finite g
  bound : ∀ p n, g p = some n → n.nlink < 2 ^ 64
  files : ∀ p n, g p = some n → n.isDir = false →
    (n.nlink : Int) = g.count n.sb (names n.ino) + δ p
  dirs : ∀ p n, g p = some n → n.isDir = true → L p → (n.nlink : Int) = 2 + g.subdirs n + δ p

section

variable (h : Balance g δ L)
include h

theorem Balance.mono {L' : Ptr → Prop} (hL : ∀ p n, g p = some n → n.isDir = true → L' p → L p)
    (hδ : ∀ p n, g p = some n → n.isDir = false ∨ L' p → δ' p = δ p) : Balance g δ' L' where
  finite := h.finite
  bound := h.bound
  files := by
    intro p n hp hfile
    rw [hδ p n hp (.inl hfile)]
    exact h.files p n hp hfile
  dirs := by
    intro p n hp hdir hp'
    rw [hδ p n hp (.inr hp')]
    exact h.dirs p n hp hdir (hL p n hp hdir hp')

theorem Balance.entries (hd : g d = some nd) (hk : ∀ n, (f n).kind = n.kind)
    (hn : ∀ n, (f n).nlink = n.nlink) (hfiles : ∀ p n, g p = some n → n.isDir = false →
      ((g.edit d f).count n.sb (names n.ino) : Int) + δ' p =
        g.count n.sb (names n.ino) + δ p)
    (hdirs : ∀ p n, g p = some n → n.isDir = true → p ≠ d → δ' p = δ p)
    (hdir : nd.isDir = true → (g.subdirs (f nd) : Int) + δ' d = g.subdirs nd + δ d) :
    Balance (g.edit d f) δ' L := by
  have hkind := kind_eq_iff.mp (hk nd)
  refine ⟨finite_edit h.finite d f, ?_, ?_, ?_⟩
  · intro p n hp
    rcases edit_eq_some hp with ⟨rfl, n, hn', rfl⟩ | ⟨-, hp⟩
    · rw [hn]
      exact h.bound p n hn'
    · exact h.bound p n hp
  · intro p n hp hfile
    rcases edit_eq_some hp with ⟨rfl, n, hn', rfl⟩ | ⟨-, hp⟩
    · cases hd.symm.trans hn'
      rw [hkind.2.2] at hfile
      rw [hn, hkind.1, hkind.2.1, h.files p nd hd hfile, hfiles p nd hd hfile]
    · rw [h.files p n hp hfile, hfiles p n hp hfile]
  · intro p n hp hisdir hL
    rw [subdirs_congr (kinds_edit hk)]
    rcases edit_eq_some hp with ⟨rfl, n, hn', rfl⟩ | ⟨hne, hp⟩
    · cases hd.symm.trans hn'
      rw [hkind.2.2] at hisdir
      rw [hn, h.dirs p nd hd hisdir hL]
      have := hdir hisdir
      omega
    · rw [h.dirs p n hp hisdir hL, hdirs p n hp hisdir hne]

theorem Balance.counter (hp : g p = some n) (hk : ∀ n, (f n).kind = n.kind)
    (he : ∀ n, (f n).entries = n.entries) {k : Int} (hb : (f n).nlink < 2 ^ 64)
    (hn : n.isDir = false ∨ L p → ((f n).nlink : Int) = n.nlink + k) :
    Balance (g.edit p f) (δ + Pi.single p k) L := by
  have hkind := kind_eq_iff.mp (hk n)
  have hcount : ∀ sb P, (g.edit p f).count sb P = g.count sb P :=
    fun sb P => count_edit_same h.finite hk he
  refine ⟨finite_edit h.finite p f, ?_, ?_, ?_⟩
  · intro q m hq
    rcases edit_eq_some hq with ⟨rfl, m, hm, rfl⟩ | ⟨-, hq⟩
    · cases hp.symm.trans hm
      exact hb
    · exact h.bound q m hq
  · intro q m hq hfile
    rw [hcount, Pi.add_apply]
    rcases edit_eq_some hq with ⟨rfl, m, hm, rfl⟩ | ⟨hne, hq⟩
    · cases hp.symm.trans hm
      rw [hkind.2.2] at hfile
      rw [hn (.inl hfile), hkind.1, hkind.2.1, h.files q n hp hfile, Pi.single_eq_same]
      ring
    · rw [h.files q m hq hfile, Pi.single_eq_of_ne hne, add_zero]
  · intro q m hq hdir hL
    rw [subdirs_congr (kinds_edit hk), Pi.add_apply]
    rcases edit_eq_some hq with ⟨rfl, m, hm, rfl⟩ | ⟨hne, hq⟩
    · cases hp.symm.trans hm
      rw [hkind.2.2] at hdir
      have hsub : g.subdirs (f n) = g.subdirs n := by
        rw [subdirs, subdirs, he, hkind.2.1]
      rw [hn (.inr hL), hsub, h.dirs q n hp hdir hL, Pi.single_eq_same]
      ring
    · rw [h.dirs q m hq hdir hL, Pi.single_eq_of_ne hne, add_zero]

theorem Balance.countUp (hp : g p = some n) (hb : n.nlink + 1 < 2 ^ 64) :
    Balance (g.edit p countUp) (δ + Pi.single p 1) L := by
  have hn : n.countUp.nlink = n.nlink + 1 := by
    rw [Vertex.countUp, Nat.mod_eq_of_lt hb]
  refine h.counter (f := Vertex.countUp) hp (fun _ => rfl) (fun _ => rfl) (by omega) ?_
  intro _
  rw [hn]
  push_cast
  rfl

omit h in
theorem decr64_eq {k : Nat} (hpos : 0 < k) (hb : k < 2 ^ 64) : decr64 k = k - 1 := by
  rw [decr64]
  omega

theorem Balance.countDown (hp : g p = some n) (hpos : n.isDir = false ∨ L p → 0 < n.nlink) :
    Balance (g.edit p countDown) (δ + Pi.single p (-1)) L := by
  refine h.counter hp kind_countDown entries_countDown ?_ ?_
  · rw [Vertex.countDown, decr64]
    exact Nat.mod_lt _ (by decide)
  · intro hL
    have hpos := hpos hL
    have hn : n.countDown.nlink = n.nlink - 1 := by
      rw [Vertex.countDown, decr64_eq hpos (h.bound p n hp)]
    omega

end

/-- The counter that goes with an entry: that of a file, or of the directory that lists a
directory. -/
def counterOf (d q : Ptr) (nq : Vertex) : Ptr := if nq.isDir then d else q

section

variable (h : Balance g δ L)
include h

theorem Balance.shift (hdist : g.Distinct) (hd : g d = some nd) (hq : g q = some nq)
    (hsb : nq.sb = nd.sb) (hdir : nq.isDir = true → nd.isDir = true) (hk : ∀ n, (f n).kind = n.kind)
    (hn : ∀ n, (f n).nlink = n.nlink) {k : Int}
    (hcount : ∀ sb ino, ((g.edit d f).count sb (names ino) : Int) =
      g.count sb (names ino) + if nd.sb = sb ∧ nq.ino = ino then k else 0)
    (hsub : (g.subdirs (f nd) : Int) = g.subdirs nd + if nq.isDir = true then k else 0) :
    Balance (g.edit d f) (δ - Pi.single (counterOf d q nq) k) L := by
  refine h.entries hd hk hn ?_ ?_ ?_
  · intro p n hp hfile
    rw [hcount, Pi.sub_apply]
    by_cases hpq : p = q
    · subst hpq
      cases hp.symm.trans hq
      rw [counterOf, hfile, if_neg Bool.false_ne_true, Pi.single_eq_same, if_pos ⟨hsb.symm, rfl⟩]
      ring
    · have hne : p ≠ counterOf d q nq := by
        rw [counterOf]
        split_ifs with hdq
        · rintro rfl
          cases hp.symm.trans hd
          rw [hdir hdq] at hfile
          cases hfile
        · exact hpq
      have hno : ¬(nd.sb = n.sb ∧ nq.ino = n.ino) :=
        fun h => hpq (hdist.eq hp hq (h.1.symm.trans hsb.symm) h.2.symm)
      rw [if_neg hno, Pi.single_eq_of_ne hne]
      ring
  · intro p n hp hisdir hne
    have hne' : p ≠ counterOf d q nq := by
      rw [counterOf]
      split_ifs with hdq
      · exact hne
      · rintro rfl
        cases hp.symm.trans hq
        exact hdq hisdir
    rw [Pi.sub_apply, Pi.single_eq_of_ne hne', sub_zero]
  · intro hisdir
    rw [hsub, Pi.sub_apply, counterOf]
    split_ifs with hdq
    · rw [Pi.single_eq_same]
      ring
    · have hne : d ≠ q := by
        rintro rfl
        cases hd.symm.trans hq
        exact hdq hisdir
      rw [Pi.single_eq_of_ne hne]
      ring

theorem Balance.add (hdist : g.Distinct) (hd : g d = some nd) (hq : g q = some nq)
    (hsb : nq.sb = nd.sb) (hdir : nq.isDir = true → nd.isDir = true) (hname : plain name = true) :
    Balance (g.edit d (add ⟨name, nq.ino⟩)) (δ - Pi.single (counterOf d q nq) 1) L := by
  refine h.shift (f := Vertex.add ⟨name, nq.ino⟩) hdist hd hq hsb hdir (fun _ => rfl)
    (fun _ => rfl) ?_ ?_
  · intro sb ino
    rw [count_add h.finite hd]
    simp only [names, beq_iff_eq]
    split_ifs <;> simp
  · have hlists := hdist.listsDir ⟨name, nq.ino⟩ hq hname rfl
    rw [hsb] at hlists
    rw [subdirs, subdirs, Vertex.add, countP_append, countP_singleton, hlists]
    push_cast
    rfl

theorem Balance.remove (hdist : g.Distinct) (hd : g d = some nd) (hq : g q = some nq)
    (hsb : nq.sb = nd.sb) (hdir : nq.isDir = true → nd.isDir = true) (hname : plain name = true)
    (hl : tmpfsDirLookup nd.entries name = some de) (hino : de.ino = nq.ino) :
    Balance (g.edit d (remove name)) (δ - Pi.single (counterOf d q nq) (-1)) L := by
  refine h.shift (f := Vertex.remove name) hdist hd hq hsb hdir (fun _ => rfl) (fun _ => rfl) ?_ ?_
  · intro sb ino
    have hc := count_remove sb (names ino) h.finite hd hl
    simp only [names, beq_iff_eq, hino] at hc ⊢
    split_ifs at hc ⊢ <;> omega
  · have hlists := hdist.listsDir de hq (lookup_name hl ▸ hname) hino
    have hc := countP_remove (P := g.listsDir nd.sb) hl
    rw [← hsb, hlists, hsb] at hc
    change ((nd.remove name).entries.countP (g.listsDir nd.sb) : Int) = nd.entries.countP
      (g.listsDir nd.sb) + _
    rw [← hc, Vertex.remove]
    split_ifs <;> push_cast <;> ring

theorem Balance.rename (hd : g d = some nd) (hname : plain name = true)
    (hnew : plain newName = true) (hl : tmpfsDirLookup nd.entries name = some de) :
    Balance (g.edit d (rename name newName)) δ L := by
  refine h.entries hd (fun _ => rfl) (fun _ => rfl) ?_ (fun _ _ _ _ _ => rfl) ?_
  · intro p n hp hfile
    rw [count_rename h.finite hd hl]
    rfl
  · intro hdir
    have hc := countP_replaceEntry (P := g.listsDir nd.sb) (fun de => ⟨newName, de.ino⟩) hl
    have hsame : g.listsDir nd.sb ⟨newName, de.ino⟩ = g.listsDir nd.sb de := by
      rw [listsDir, listsDir, lookup_name hl, hname, hnew]
    rw [hsame] at hc
    change ((renameEntry name newName nd.entries).countP (g.listsDir nd.sb) : Int) + _ = _
    rw [renameEntry, Nat.add_right_cancel hc, subdirs]

theorem Balance.point (hdist : g.Distinct) (hp : g p = some n) {ino : Nat}
    (hold : ∀ de, tmpfsDirLookup n.entries ['.', '.'] = some de → g.HasDir n.sb de.ino)
    (hnew : g.HasDir n.sb ino) : Balance (g.edit p (point ['.', '.'] ino)) δ L := by
  refine h.entries hp (fun _ => rfl) (fun _ => rfl) ?_ (fun _ _ _ _ _ => rfl) ?_
  · intro q m hq hfile
    have hne : ∀ k, n.sb = m.sb → g.HasDir n.sb k → (k == m.ino) = false := by
      intro k hsb hk
      refine beq_eq_false_iff_ne.mpr ?_
      rintro rfl
      rw [hsb, hdist.hasDir_iff hq, hfile] at hk
      cases hk
    rw [count_point h.finite hp]
    · intro hsb de hl
      exact hne de.ino hsb (hold de hl)
    · intro hsb
      exact hne ino hsb hnew
  · intro hdir
    change ((setEntryIno ['.', '.'] ino n.entries).countP (g.listsDir n.sb) : Int) + _ = _
    rw [subdirs]
    congr 2
    cases hl : tmpfsDirLookup n.entries ['.', '.'] with
    | none => rw [setEntryIno_of_none hl]
    | some de =>
      have hs := countP_replaceEntry (P := g.listsDir n.sb) (fun _ => ⟨['.', '.'], ino⟩) hl
      rw [listsDir_of_not_plain _ de (by rw [lookup_name hl]; rfl),
        listsDir_of_not_plain _ ⟨['.', '.'], ino⟩ rfl] at hs
      exact hs

end

theorem Graph.subdirs_eq_zero (h : ∀ de ∈ n.entries, plain de.name = false) : g.subdirs n = 0 := by
  refine countP_eq_zero.mpr ?_
  intro de hde
  rw [listsDir_of_not_plain _ de (h de hde)]
  exact Bool.false_ne_true

theorem Graph.Closed.subdirs_put {new : Vertex} (h : g.Closed) (hp : g p = none)
    (hfree : ¬g.Has new.sb new.ino) (hq : g q = some nq) :
    (g.put p new).subdirs nq = g.subdirs nq := by
  refine countP_congr ?_
  intro de hde
  have hiff : (g.put p new).HasDir nq.sb de.ino ↔ g.HasDir nq.sb de.ino := by
    refine ⟨?_, fun hdir => hdir.put hp⟩
    rintro ⟨r, hr⟩
    rcases kinds_put_cases hr with ⟨-, hino, hsb, -⟩ | ⟨-, hr⟩
    · have hhas := h q nq hq de hde
      rw [hino, hsb] at hhas
      exact absurd hhas hfree
    · exact ⟨r, hr⟩
  rw [listsDir_iff, listsDir_iff, hiff]

theorem Balance.put {new : Vertex} {k : Int} (h : Balance g 0 L) (hdist : g.Distinct)
    (hclosed : g.Closed) (hp : g p = none) (hfree : ¬g.Has new.sb new.ino) (hb : new.nlink < 2 ^ 64)
    (hplain : ∀ de ∈ new.entries, plain de.name = false)
    (hnew : ∀ de ∈ new.entries, new.isDir = true ∧ de.ino = new.ino ∨ g.HasDir new.sb de.ino)
    (hk : (new.nlink : Int) = (if new.isDir then 2 else 0) + k) :
    Balance (g.put p new) (Pi.single p k) fun q => q = p ∨ L q := by
  refine ⟨finite_put h.finite _ _, ?_, ?_, ?_⟩
  · intro q m hq
    rcases put_eq_some hq with ⟨-, rfl⟩ | ⟨-, hq⟩
    · exact hb
    · exact h.bound q m hq
  · intro q m hq hfile
    have hhits : new.hits m.sb (names m.ino) = 0 := by
      rw [hits]
      split_ifs with hsb
      · refine countP_eq_zero.mpr ?_
        intro de hde hino
        rw [names, beq_iff_eq] at hino
        rcases put_eq_some hq with ⟨-, rfl⟩ | ⟨-, hq⟩
        · rcases hnew de hde with ⟨hdir, -⟩ | hdir
          · rw [hdir] at hfile
            cases hfile
          · exact hfree (hino ▸ hdir.has)
        · rcases hnew de hde with ⟨-, hself⟩ | hdir
          · exact hfree (hself ▸ hino ▸ hsb ▸ has_of_some hq)
          · rw [hsb, hino, hdist.hasDir_iff hq, hfile] at hdir
            cases hdir
      · rfl
    rw [count_put h.finite hp, hhits, add_zero]
    rcases put_eq_some hq with ⟨rfl, rfl⟩ | ⟨hne, hq⟩
    · have hzero : g.count m.sb (names m.ino) = 0 := by
        refine hclosed.count_eq_zero hfree ?_
        intro de hde
        exact eq_of_beq hde
      rw [hfile, if_neg Bool.false_ne_true] at hk
      rw [hzero, Pi.single_eq_same, hk]
      rfl
    · rw [Pi.single_eq_of_ne hne, h.files q m hq hfile]
      rfl
  · intro q m hq hdir hL
    rcases put_eq_some hq with ⟨rfl, rfl⟩ | ⟨hne, hq⟩
    · rw [hdir, if_pos rfl] at hk
      rw [subdirs_eq_zero hplain, Pi.single_eq_same, hk]
      rfl
    · rw [hclosed.subdirs_put hp hfree hq, Pi.single_eq_of_ne hne,
        h.dirs q m hq hdir (hL.resolve_left hne)]
      rfl

end ShiziOS.Fs
