import ShiziOS.Fs.Balance
import ShiziOS.Fs.Proper
import ShiziOS.Fs.Unlink

/-!
# Counts of links

In every run of operations that are edits, `nlink` of a file is the number of its entries and
`nlink` of a directory that has a name, or is a root, is two more than the number of directories
in it. `vfs_mknod` is left out: it leaves the counter of the new inode at zero.
-/

namespace ShiziOS.Fs

open Exec List Option ShiziOS.Fs.Graph Vertex Vfs Pi Bool DirEntry
open Vfs (empty start)

variable {env : Env} {s s' : Vfs} {g g' : Graph} {d d' p q : Ptr} {n nd nd' np nq : Vertex}
  {name newName : Name}
  {f : Vertex → Vertex} {op : DirOp}

/-! ## Linked directories -/

/-- The vertex has a name, or is its own parent. -/
def Graph.Linked (g : Graph) (p : Ptr) : Prop :=
  ∃ n, g p = some n ∧ (g.child dotdotName p = some n.ino ∨ 0 < g.namesOf n)

theorem NoNewNames.linked (h : NoNewNames g g') (hp : g' p = some n) (hdir : n.isDir = true)
    (hl : g'.Linked p) : g.Linked p := by
  obtain ⟨n', hn', hl⟩ := hl
  cases hp.symm.trans hn'
  obtain ⟨m, hm, hk⟩ := exists_of_kinds h.kinds hp
  obtain ⟨hino, hsb, hd⟩ := kind_eq_iff.mp hk
  refine ⟨m, hm, ?_⟩
  rw [h.dotdot, hino, namesOf, hino, hsb] at hl
  exact hl.imp id fun hpos => lt_of_lt_of_le hpos (h.names (hasDir_of_some hm (hd ▸ hdir)))

theorem NoNewNames.balance (h : NoNewNames g g') (hb : Balance g' 0 g.Linked) :
    Balance g' 0 g'.Linked :=
  hb.mono (fun _ _ => h.linked) fun _ _ _ _ => rfl

theorem Graph.Closed.linked_put {new : Vertex} (h : g.Closed) (hfin : PartialMap.Finite g)
    (hp : g p = none)
    (hfree : ¬g.Has new.sb new.ino) (hnew : ∀ de ∈ new.entries, plain de.name = false) (hq : q ≠ p)
    (hl : (g.put p new).Linked q) : g.Linked q := by
  obtain ⟨m, hm, hl⟩ := hl
  rw [put_of_ne hq] at hm
  rw [child_put hq, (h.namesOf_put hfin hp hfree hnew m).1] at hl
  exact ⟨m, hm, hl⟩

theorem Graph.exists_edit (hk : ∀ n, (f n).kind = n.kind) (hn : ∀ n, (f n).nlink = n.nlink)
    (hp : g p = some n) : ∃ m, (g.edit d f) p = some m ∧ m.kind = n.kind ∧ m.nlink = n.nlink := by
  by_cases hpd : p = d
  · subst hpd
    exact ⟨f n, edit_self hp, hk n, hn n⟩
  · exact ⟨n, by rw [edit_of_ne hpd, hp], rfl, rfl⟩

theorem Sound.linked_point {k : Nat} (h : Sound g) (hp : g p = some np) (hnp : np.isDir = true)
    (hk : k ≠ np.ino) (hl : (g.edit p (Vertex.point dotdotName k)).Linked q) : g.Linked q := by
  obtain ⟨m, hm, hl⟩ := hl
  obtain ⟨n, hn, hkind⟩ := exists_of_kinds (kinds_point _ _) hm
  rw [h.names.child_point hp hnp, namesOf_point h.finite hp, namesOf_congr hkind,
    (kind_eq_iff.mp hkind).1] at hl
  refine ⟨n, hn, hl.imp_left ?_⟩
  intro hroot
  by_cases hqp : q = p
  · subst hqp
    cases hp.symm.trans hn
    rw [Function.update_self] at hroot
    exact absurd (some.inj hroot) hk
  · rw [Function.update_of_ne hqp] at hroot
    exact hroot

/-! ## Edits -/

structure Counted (g : Graph) : Prop where
  sound : Sound g
  balance : Balance g 0 g.Linked

/-- The counters that an edit raises do not overflow, and a new file has one link. -/
def Edit.Counts : Edit g → Prop
  | .addFile _ _ _ _ _ k .. => k = 1
  | .addDir _ _ nd .. => nd.nlink + 1 < 2 ^ 64
  | .link _ _ _ np .. => np.nlink + 1 < 2 ^ 64
  | .moveDir _ _ _ _ _ nd' .. => nd'.nlink + 1 < 2 ^ 64
  | _ => True

theorem counterOf_file (d : Ptr) (hfile : nq.isDir = false) : counterOf d q nq = q := by
  rw [counterOf, hfile, if_neg Bool.false_ne_true]

theorem counterOf_dir (q : Ptr) (hdir : nq.isDir = true) : counterOf d q nq = d := by
  rw [counterOf, hdir, if_pos rfl]

theorem Graph.Lists.balance_remove {δ : Ptr → Int} {L : Ptr → Prop} (h : g.Lists d nd name q nq)
    (hb : Balance g δ L) (hdist : g.Distinct) (hdir : nq.isDir = true → nd.isDir = true) :
    Balance (g.edit d (remove name)) (δ - single (counterOf d q nq) (-1)) L := by
  obtain ⟨de, hl, hino⟩ := h.lookup
  exact hb.remove hdist h.dir h.inode h.sb hdir h.isPlain hl hino

theorem Balance.countDown_dir {δ : Ptr → Int} {L : Ptr → Prop} (h : Balance g δ L)
    (hp : g p = some n) (hdir : n.isDir = true) (hδ : -1 ≤ δ p) :
    Balance (g.edit p Vertex.countDown) (δ + single p (-1)) L := by
  refine h.countDown hp ?_
  rintro (hfile | hL)
  · rw [hdir] at hfile
    cases hfile
  · have hn := h.dirs p n hp hdir hL
    omega

section

variable (h : Counted g)
include h

theorem Counted.addFile {n : Nat} (hd : g d = some nd) (hp : g p = none) (hfree : ¬g.Has nd.sb n)
    (hname : plain name = true) :
    Balance ((g.put p ⟨n, nd.sb, false, 1, []⟩).edit d (add ⟨name, n⟩)) 0
      ((g.put p ⟨n, nd.sb, false, 1, []⟩).edit d (add ⟨name, n⟩)).Linked := by
  have hno : ∀ de ∈ (⟨n, nd.sb, false, 1, []⟩ : Vertex).entries, plain de.name = false := by
    intro de hde
    cases hde
  have hput : Balance (g.put p ⟨n, nd.sb, false, 1, []⟩) (single p 1) fun q =>
      q = p ∨ g.Linked q := by
    refine h.balance.put h.sound.distinct h.sound.closed hp hfree (by norm_num) hno ?_ rfl
    intro de hde
    cases hde
  have hs : Sound (g.put p ⟨n, nd.sb, false, 1, []⟩) := h.sound.putFile hp hfree
  have hd1 : (g.put p ⟨n, nd.sb, false, 1, []⟩) d = some nd := put_of_some hp hd
  have hadd := hput.add hs.distinct hd1 put_self rfl nofun hname
  rw [counterOf_file d rfl, sub_self] at hadd
  have hnames := noNewNames_addFile hs.finite hs.distinct hd1 put_self rfl rfl hname
  refine hadd.mono ?_ fun _ _ _ _ => rfl
  intro q m hq hdir hl
  by_cases hqp : q = p
  · exact .inl hqp
  · exact .inr (h.sound.closed.linked_put h.sound.finite hp hfree hno hqp
      (hnames.linked hq hdir hl))

theorem Counted.putDir {n sb parentIno : Nat} (hp : g p = none) (hfree : ¬g.Has sb n)
    (hparent : parentIno = n ∨ g.HasDir sb parentIno) :
    Balance (g.put p (newDir n sb parentIno)) 0 fun q => q = p ∨ g.Linked q := by
  have hput := h.balance.put h.sound.distinct h.sound.closed hp (by exact hfree)
    (show 2 < 2 ^ 64 by norm_num) (newDir_not_plain n sb parentIno) ?_ (k := 0) rfl
  · rw [single_zero] at hput
    exact hput
  · intro de hde
    rcases mem_cons.mp hde with rfl | hde
    · exact .inl ⟨rfl, rfl⟩
    · rw [mem_singleton.mp hde]
      exact hparent.imp (fun heq => ⟨rfl, heq⟩) id

theorem Counted.addDir {n : Nat} (hd : g d = some nd) (hdir : nd.isDir = true) (hp : g p = none)
    (hfree : ¬g.Has nd.sb n) (hname : plain name = true) (hb : nd.nlink + 1 < 2 ^ 64) :
    Balance (((g.put p (newDir n nd.sb nd.ino)).edit d (add ⟨name, n⟩)).edit d
      countUp) 0
      (((g.put p (newDir n nd.sb nd.ino)).edit d (add ⟨name, n⟩)).edit d
        countUp).Linked := by
  have hput := h.putDir hp hfree (.inr (hasDir_of_some hd hdir))
  have hs : Sound (g.put p (newDir n nd.sb nd.ino)) :=
    h.sound.putDir hp hfree ((hasDir_of_some hd hdir).put hp)
  have hd1 : (g.put p (newDir n nd.sb nd.ino)) d = some nd := put_of_some hp hd
  have hadd := hput.add hs.distinct hd1 put_self rfl (fun _ => hdir) hname
  have hup := hadd.countUp (edit_self hd1) hb
  rw [counterOf_dir p rfl, sub_add_cancel] at hup
  refine hup.mono ?_ fun _ _ _ _ => rfl
  intro q m hq hisdir hl
  have hl2 := (noNewNames_countUp (finite_edit hs.finite _ _)).linked hq hisdir hl
  by_cases hqp : q = p
  · exact .inl hqp
  · refine .inr (h.sound.closed.linked_put h.sound.finite hp hfree (newDir_not_plain _ _ nd.ino)
      hqp ?_)
    obtain ⟨m2, hm2, hl2⟩ := hl2
    obtain ⟨m1, hm1, hk⟩ := exists_of_kinds (kinds_add _) hm2
    have hnames := hs.distinct.namesOf_add hs.finite hd1 put_self rfl hname hm1
    rw [if_neg hqp, add_zero] at hnames
    rw [namesOf_congr hk, hnames, (kind_eq_iff.mp hk).1, child_add (ne_of_plain hname rfl)] at hl2
    exact ⟨m1, hm1, hl2⟩

theorem Counted.addRoot {n sb : Nat} (hp : g p = none) (hfree : ∀ k, ¬g.Has sb k) :
    Balance (g.put p (newDir n sb n)) 0 (g.put p (newDir n sb n)).Linked := by
  refine (h.putDir hp (hfree n) (.inl rfl)).mono ?_ fun _ _ _ _ => rfl
  intro q m hq hisdir hl
  by_cases hqp : q = p
  · exact .inl hqp
  · exact .inr (h.sound.closed.linked_put h.sound.finite hp (hfree n) (newDir_not_plain _ _ _)
      hqp hl)

theorem Counted.link (hd : g d = some nd) (hp : g p = some np) (hfile : np.isDir = false)
    (hsb : np.sb = nd.sb) (hname : plain name = true) (hb : np.nlink + 1 < 2 ^ 64) :
    Balance ((g.edit d (add ⟨name, np.ino⟩)).edit p countUp) 0
      ((g.edit d (add ⟨name, np.ino⟩)).edit p countUp).Linked := by
  have hadd := h.balance.add h.sound.distinct hd hp hsb
    (fun hdir => by rw [hfile] at hdir; cases hdir) hname
  obtain ⟨m, hm, hk, hn⟩ := exists_edit (f := add ⟨name, np.ino⟩) (d := d) (fun _ => rfl)
    (fun _ => rfl) hp
  have hup := hadd.countUp hm (hn ▸ hb)
  rw [counterOf_file d hfile, sub_add_cancel] at hup
  have hnames := (noNewNames_addFile h.sound.finite h.sound.distinct hd hp hfile hsb hname).trans
    (noNewNames_countUp (p := p) (finite_edit h.sound.finite _ _))
  exact hnames.balance hup

theorem Counted.unlink (hl : g.Lists d nd name q nq) (hfile : nq.isDir = false) :
    Balance ((g.edit d (remove name)).edit q countDown) 0
      ((g.edit d (remove name)).edit q countDown).Linked := by
  have hremove := hl.balance_remove h.balance h.sound.distinct fun hdir => by
    rw [hfile] at hdir; cases hdir
  rw [counterOf_file d hfile] at hremove
  obtain ⟨m, hm, hk, -⟩ := exists_edit (f := remove name) (d := d) (fun _ => rfl)
    (fun _ => rfl) hl.inode
  have hpos : 0 < m.nlink := by
    have hn := hremove.files q m hm ((kind_eq_iff.mp hk).2.2.trans hfile)
    rw [Pi.sub_apply, Pi.single_eq_same, Pi.zero_apply] at hn
    omega
  have hdown := hremove.countDown hm fun _ => hpos
  rw [sub_add_cancel] at hdown
  have hnames := (hl.noNewNames_remove h.sound.finite).trans
    (noNewNames_countDown (p := q) (finite_edit h.sound.finite _ _))
  exact hnames.balance hdown

omit h in
theorem Graph.Lists.not_linked (h : g.Lists d nd name q nq) (hs : Sound g)
    (hdir : nq.isDir = true) : ¬(g.edit d (remove name)).Linked q := by
  obtain ⟨de, hl, hino⟩ := h.lookup
  have hcount := count_remove nq.sb (plainly nq.ino) hs.finite h.dir hl
  have hP : plainly nq.ino de = true := by
    rw [plainly, lookup_name hl, h.isPlain, hino, beq_self_eq_true]
    rfl
  rw [if_pos ⟨h.sb.symm, hP⟩] at hcount
  have honce := hs.names.once h.inode hdir
  rw [namesOf] at honce
  rintro ⟨m, hm, hlinked⟩
  obtain ⟨n, hn, hk⟩ := exists_of_kinds (kinds_remove name) hm
  cases h.inode.symm.trans hn
  rw [namesOf_congr hk, child_remove (ne_of_plain h.isPlain rfl).symm, (kind_eq_iff.mp hk).1,
    namesOf]
    at hlinked
  rcases hlinked with hroot | hpos
  · have hzero := hs.names.root h.inode hdir hroot
    rw [namesOf] at hzero
    omega
  · omega

theorem Counted.rmdir (hl : g.Lists d nd name q nq) (hd : nd.isDir = true)
    (hdir : nq.isDir = true) :
    Balance (((g.edit d (remove name)).edit q countDown).edit d countDown) 0
      (((g.edit d (remove name)).edit q countDown).edit d
        countDown).Linked := by
  -- the counter of the removed directory is not looked at any more
  have h0 : Balance g 0 fun p => p ≠ q ∧ g.Linked p :=
    h.balance.mono (fun _ _ _ _ hp => hp.2) fun _ _ _ _ => rfl
  have hremove := hl.balance_remove h0 h.sound.distinct fun _ => hd
  rw [counterOf_dir q hdir] at hremove
  obtain ⟨m, hm, hk, -⟩ := exists_edit (f := remove name) (d := d) (fun _ => rfl)
    (fun _ => rfl) hl.inode
  have hm_dir : m.isDir = true := (kind_eq_iff.mp hk).2.2.trans hdir
  have hdown := hremove.countDown hm (by
    rintro (hfile | ⟨hne, -⟩)
    · rw [hm_dir] at hfile
      cases hfile
    · exact absurd rfl hne)
  have hdown' : Balance ((g.edit d (remove name)).edit q countDown)
    (0 - Pi.single d (-1))
      fun p => p ≠ q ∧ g.Linked p := by
    refine hdown.mono (fun _ _ _ _ hp => hp) ?_
    intro p n hp hcase
    have hne : p ≠ q := by
      rintro rfl
      rcases hcase with hfile | ⟨hne, -⟩
      · rw [edit_self hm] at hp
        cases hp
        rw [(kind_eq_iff.mp m.kind_countDown).2.2, hm_dir] at hfile
        cases hfile
      · exact hne rfl
    rw [Pi.add_apply, Pi.single_eq_of_ne hne, add_zero]
  have hkinds : ((g.edit d (remove name)).edit q countDown).kinds = g.kinds :=
    kinds_countDown.trans (kinds_remove _)
  obtain ⟨md, hmd, hkd⟩ := exists_of_kinds hkinds.symm hl.dir
  have hdown2 := hdown'.countDown_dir hmd ((kind_eq_iff.mp hkd).2.2.symm.trans hd) (by
    norm_num)
  rw [sub_add_cancel] at hdown2
  refine hdown2.mono ?_ fun _ _ _ _ => rfl
  intro p n hp hisdir hlinked
  have hfin1 := finite_edit h.sound.finite d (remove name)
  have hdowns := (noNewNames_countDown (p := q) hfin1).trans
    (noNewNames_countDown (p := d) (finite_edit hfin1 _ _))
  have hlinked1 := hdowns.linked hp hisdir hlinked
  refine ⟨?_, ((hl.noNewNames_remove h.sound.finite).trans hdowns).linked hp hisdir hlinked⟩
  rintro rfl
  exact hl.not_linked h.sound hdir hlinked1

theorem Counted.rename (hl : g.Lists d nd name p np) (hnew : plain newName = true) :
    Balance (g.edit d (rename name newName)) 0
      (g.edit d (rename name newName)).Linked := by
  obtain ⟨de, hlook, -⟩ := hl.lookup
  have hb := h.balance.rename hl.dir hl.isPlain hnew hlook
  have hnames := hl.noNewNames_rename h.sound.finite hnew
  exact hnames.balance hb

omit h in
theorem Counted.shift {L : Ptr → Prop} (h : Balance g 0 L) (hdist : g.Distinct)
    (hl : g.Lists d nd name p np) (hd' : g d' = some nd') (hsb : np.sb = nd'.sb)
    (hnew : plain newName = true)
    (hne : d ≠ d') (hdirs : np.isDir = true → nd.isDir = true ∧ nd'.isDir = true) :
    Balance ((g.edit d' (add ⟨newName, np.ino⟩)).edit d (remove name))
      (0 - single (counterOf d' p np) 1 - single (counterOf d p np) (-1)) L := by
  have hadd := h.add hdist hd' hl.inode hsb (fun hdir => (hdirs hdir).2) hnew
  have hchild : (g.edit d' (add ⟨newName, np.ino⟩)).child name d = g.child name d := by
    rw [child, child, edit_of_ne hne]
  obtain ⟨nd1, np1, hkd, hkp, hl1⟩ := hl.congr (kinds_add ⟨newName, np.ino⟩) hchild
  have hremove := hl1.balance_remove hadd (hdist.congr (kinds_add _)) (by
    rw [(kind_eq_iff.mp hkp).2.2, (kind_eq_iff.mp hkd).2.2]
    exact fun hdir => (hdirs hdir).1)
  have hcounter : counterOf d p np1 = counterOf d p np := by
    rw [counterOf, counterOf, (kind_eq_iff.mp hkp).2.2]
  rw [hcounter] at hremove
  exact hremove

theorem Counted.moveFile (hl : g.Lists d nd name p np) (hfile : np.isDir = false)
    (hd' : g d' = some nd') (hsb : np.sb = nd'.sb) (hnew : plain newName = true) (hne : d ≠ d') :
    Balance ((g.edit d' (add ⟨newName, np.ino⟩)).edit d (remove name)) 0
      ((g.edit d' (add ⟨newName, np.ino⟩)).edit d (remove name)).Linked := by
  have hshift := Counted.shift h.balance h.sound.distinct hl hd' hsb hnew hne
    fun hdir => by rw [hfile] at hdir; cases hdir
  rw [counterOf_file d' hfile, counterOf_file d hfile, single_neg, sub_neg_eq_add,
    sub_add_cancel] at hshift
  have hnames := hl.noNewNames_move h.sound.finite hd' hsb hnew hne
  exact hnames.balance hshift

theorem Counted.moveDir (hl : g.Lists d nd name p np) (hdir : np.isDir = true)
    (hd : nd.isDir = true) (hd' : g d' = some nd') (hdir' : nd'.isDir = true) (hsb : np.sb = nd'.sb)
    (hnew : plain newName = true) (hne : d ≠ d') (hself : d' ≠ p) (hb : nd'.nlink + 1 < 2 ^ 64) :
    Balance (Edit.moveDir d p d' nd np nd' name newName hl hdir hd hd' hdir' hsb hnew hne
      hself).graph 0
      (Edit.moveDir d p d' nd np nd' name newName hl hdir hd hd' hdir' hsb hnew hne
        hself).graph.Linked := by
  rw [Edit.graph]
  have hshift := Counted.shift h.balance h.sound.distinct hl hd' hsb hnew hne fun _ => ⟨hd, hdir'⟩
  have hs1 := hl.sound_move h.sound hd' hsb hnew hne
  have hnames1 := hl.noNewNames_move h.sound.finite hd' hsb hnew hne
  have hd'₁ : ((g.edit d' (add ⟨newName, np.ino⟩)).edit d (remove name)) d' =
      some (nd'.add ⟨newName, np.ino⟩) := by
    rw [edit_of_ne hne.symm, edit_self hd']
  rw [counterOf_dir p hdir, counterOf_dir p hdir] at hshift
  generalize (g.edit d' (add ⟨newName, np.ino⟩)).edit d (remove name) = g1 at *
  -- the new parent
  obtain ⟨m, hm, hk⟩ := exists_of_kinds hnames1.kinds.symm hl.inode
  obtain ⟨hino, hsb1, hmdir⟩ := kind_eq_iff.mp hk
  have hmdir : m.isDir = true := hmdir.symm.trans hdir
  have hparent : g1.HasDir m.sb nd'.ino := by
    rw [← hsb1, hsb]
    exact hasDir_of_some (n := nd'.add ⟨newName, np.ino⟩) hd'₁ hdir'
  have hne_ino : nd'.ino ≠ m.ino :=
    fun heq => hself (h.sound.distinct.eq hd' hl.inode hsb.symm (heq.trans hino.symm))
  have hpoint := hshift.point hs1.distinct hm (by
    intro de hde
    obtain ⟨k, hchild, hhas⟩ := hs1.names.dotdot hm hmdir
    rw [child_of_some hm, dotdotName, hde, map_some] at hchild
    rw [some.inj hchild]
    exact hhas) hparent
  have hs2 := hs1.point hm hmdir hparent hne_ino
  -- the counters of the two parents
  have hkinds : (g1.edit p (Vertex.point dotdotName nd'.ino)).kinds = g.kinds :=
    (kinds_point _ _).trans hnames1.kinds
  obtain ⟨md, hmd, hkd⟩ := exists_of_kinds hkinds.symm hl.dir
  have hdown := hpoint.countDown_dir hmd ((kind_eq_iff.mp hkd).2.2.symm.trans hd) (by
    rw [Pi.sub_apply, Pi.sub_apply, Pi.single_eq_of_ne hne, Pi.single_eq_same, Pi.zero_apply]
    norm_num)
  have hup := hdown.countUp (p := d') (n := nd'.add ⟨newName, np.ino⟩) (by
    rw [edit_of_ne hne.symm, edit_of_ne hself]
    exact hd'₁) hb
  rw [sub_add_cancel, sub_add_cancel] at hup
  have hnames2 := (noNewNames_countDown (p := d) hs2.finite).trans
    (noNewNames_countUp (p := d') (finite_edit hs2.finite _ _))
  refine hup.mono ?_ fun _ _ _ _ => rfl
  intro q n hq hisdir hlinked
  have hlinked1 := hs1.linked_point hm hmdir hne_ino (hnames2.linked hq hisdir hlinked)
  obtain ⟨n1, hn1, hk1⟩ := exists_of_kinds (hnames2.kinds.trans (kinds_point _ _)) hq
  exact hnames1.linked hn1 ((kind_eq_iff.mp hk1).2.2 ▸ hisdir) hlinked1

theorem Counted.edit (e : Edit g) (he : e.Counts) : Counted e.graph := by
  refine ⟨h.sound.edit e, ?_⟩
  cases e with
  | addFile d p nd name n k hd hp hfree hname =>
    obtain rfl : k = 1 := he
    exact h.addFile hd hp hfree hname
  | addDir d p nd name n hd hdir hp hfree hname => exact h.addDir hd hdir hp hfree hname he
  | addRoot p sb n hp hfree => exact h.addRoot hp hfree
  | link d p nd np name hd hp hfile hsb hname => exact h.link hd hp hfile hsb hname he
  | unlink d q nd nq name hl hfile => exact h.unlink hl hfile
  | rmdir d q nd nq name hl hd hdir hempty => exact h.rmdir hl hd hdir
  | rename d p nd np name newName hl hnew => exact h.rename hl hnew
  | moveFile d p d' nd np nd' name newName hl hfile hd' hsb hnew hne =>
    exact h.moveFile hl hfile hd' hsb hnew hne
  | moveDir d p d' nd np nd' name newName hl hdir hd hd' hdir' hsb hnew hne hself =>
    exact h.moveDir hl hdir hd hd' hdir' hsb hnew hne hself he

end

/-! ## Operations -/

def Vfs.countable (s : Vfs) (p : Ptr) : Bool := (s.inodes.get p).all fun i => i.nlink + 1 < 2 ^ 64

/-- The operation sets the counter of a new inode, and the counters it raises do not overflow. -/
def DirOp.counts : DirOp → Vfs → Bool
  | .mknod .., _ => false
  | .mkdir dir _ _, s => s.countable dir
  | .link old _ _, s => (s.inodeOf old).all s.countable
  | .rename _ _ newDir _, s => s.countable newDir
  | _, _ => true

theorem Vfs.countable_spec (h : s.countable p = true) (hp : s.graph p = some n) :
    n.nlink + 1 < 2 ^ 64 := by
  obtain ⟨i, hi, rfl⟩ := map_eq_some_iff.mp hp
  rw [countable, hi, all_some, decide_eq_true_eq] at h
  exact h

theorem Edit.Fits.counts {e : Edit s.graph} (h : e.Fits op s) (hop : op.counts s = true) :
    e.Counts := by
  cases e with
  | addFile d p nd name n k hd hp hfree hname =>
    rcases h with h | ⟨dir, dentry, mode, dev, rfl⟩
    · exact h
    · cases hop
  | addDir d p nd name n hd hdir hp hfree hname =>
    obtain ⟨dentry, mode, rfl⟩ := h
    exact countable_spec hop hd
  | link d p nd np name hd hp hfile hsb hname =>
    obtain ⟨old, dir, new, rfl, hinode⟩ := h
    rw [DirOp.counts, hinode, all_some] at hop
    exact countable_spec hop hp
  | moveDir d p d' nd np nd' name newName hl hdir hd hd' hdir' hsb hnew hne hself =>
    obtain ⟨old, new, rfl, -⟩ := h
    exact countable_spec hop hd'
  | _ => trivial

theorem Edit.Fits.counts_unlinked {h : s.graph.Lists d nd name q nq} {hfile : nq.isDir = false}
    {e : Edit (Edit.unlink d q nd nq name h hfile).graph} (he : e.Fits op s)
    (hren : ∃ oldDir old newDir new, op = .rename oldDir old newDir new)
    (hop : op.counts s = true) : e.Counts := by
  obtain ⟨oldDir, old, newDir, new, rfl⟩ := hren
  cases e with
  | addFile d p nd name n k hd hp hfree hname =>
    rcases he with he | ⟨dir, dentry, mode, dev, hmknod⟩
    · exact he
    · cases hmknod
  | addDir d p nd name n hd hdir hp hfree hname =>
    obtain ⟨dentry, mode, hmkdir⟩ := he
    cases hmkdir
  | link d p nd np name hd hp hfile hsb hname =>
    obtain ⟨old, dir, new, hlink, -⟩ := he
    cases hlink
  | moveDir d1 p d' nd1 np nd' name1 newName hl hdir hd hd' hdir' hsb hnew hne hself =>
    obtain ⟨old, new, hrename, -⟩ := he
    cases hrename
    have hq : newDir ≠ q := by
      rintro rfl
      obtain ⟨m, hm, hk⟩ := exists_of_kinds (g := s.graph) (by
        rw [Edit.graph, kinds_countDown, kinds_remove]) hd'
      cases h.inode.symm.trans hm
      rw [(kind_eq_iff.mp hk).2.2, hfile] at hdir'
      cases hdir'
    rw [Edit.graph, edit_of_ne hq] at hd'
    rcases edit_eq_some hd' with ⟨rfl, m, hm, rfl⟩ | ⟨-, hd'⟩
    · exact countable_spec (n := m) hop hm
    · exact countable_spec hop hd'
  | _ => trivial

theorem Edits.counted (h : Edits op s g) (hop : op.counts s = true) (hs : Counted s.graph) :
    Counted g := by
  cases h with
  | same => exact hs
  | one e hfits => exact hs.edit e (hfits.counts hop)
  | two d q nd nq name hren h hfile e hfits =>
    have hfirst : Counted (Edit.unlink d q nd nq name h hfile).graph := hs.edit _ trivial
    exact hfirst.edit e (hfits.counts_unlinked hren hop)

/-! ## Runs -/

/-- The number of entries in the super block that have the number. -/
def Vfs.entriesNaming (s : Vfs) (sb ino : Nat) : Nat :=
  ((List.range s.inodes.next).map fun q => (s.inodes.get q).elim 0 fun j =>
    if j.sb = sb then j.dirList.countP (DirEntry.names ino) else 0).sum

/-- There is a directory with the number in the super block. -/
def Vfs.hasDirNumber (s : Vfs) (sb ino : Nat) : Bool :=
  (List.range s.inodes.next).any fun q => (s.inodes.get q).any fun j =>
    j.sb == sb && j.ino == ino && sIsdir j.mode

/-- The number of directories that a directory lists, other than as `.` and `..`. -/
def Vfs.childDirs (s : Vfs) (i : Inode) : Nat :=
  i.dirList.countP fun de => plain de.name && s.hasDirNumber i.sb de.ino

/-- The directory is the root of a file system, or has a name. -/
def Vfs.LinkedDir (s : Vfs) (i : Inode) : Prop :=
  (∃ de, tmpfsDirLookup i.dirList dotdotName = some de ∧ de.ino = i.ino) ∨
    ∃ q j, s.inodes.get q = some j ∧ j.sb = i.sb ∧
      ∃ de ∈ j.dirList, plain de.name = true ∧ de.ino = i.ino

theorem Vfs.finite_graph (s : Vfs) : PartialMap.Finite s.graph := by
  refine (Set.finite_lt_nat s.inodes.next).subset ?_
  intro q hq
  obtain ⟨n, hn⟩ := ne_none_iff_exists'.mp hq
  obtain ⟨i, hi, -⟩ := map_eq_some_iff.mp hn
  exact Store.lt_next hi

theorem Vfs.count_eq_entriesNaming (s : Vfs) (sb ino : Nat) :
    s.graph.count sb (DirEntry.names ino) = s.entriesNaming sb ino := by
  rw [count_eq_sum, entriesNaming]
  congr 1
  refine map_congr_left ?_
  intro q _
  rw [graph]
  cases s.inodes.get q with
  | none => rfl
  | some i => rfl

theorem Vfs.hasDir_iff {sb ino : Nat} : s.graph.HasDir sb ino ↔ s.hasDirNumber sb ino = true := by
  rw [hasDirNumber, List.any_eq_true]
  refine ⟨?_, ?_⟩
  · rintro ⟨q, hq⟩
    obtain ⟨n, hn, hk⟩ := kinds_eq_some.mp hq
    obtain ⟨j, hj, rfl⟩ := Option.map_eq_some_iff.mp hn
    obtain ⟨hino, hk⟩ := Prod.mk.inj hk
    obtain ⟨hsb, hdir⟩ := Prod.mk.inj hk
    have hino : j.ino = ino := hino
    have hsb : j.sb = sb := hsb
    have hdir : sIsdir j.mode = true := hdir
    refine ⟨q, List.mem_range.mpr (Store.lt_next hj), ?_⟩
    rw [hj, Option.any_some, hino, hsb, hdir, beq_self_eq_true, beq_self_eq_true]
    rfl
  · rintro ⟨q, -, hq⟩
    rw [Option.any_eq_true] at hq
    obtain ⟨j, hj, hq⟩ := hq
    rw [and_eq_true, and_eq_true, beq_iff_eq, beq_iff_eq] at hq
    obtain ⟨⟨rfl, rfl⟩, hdir⟩ := hq
    exact hasDir_of_some (n := j.vertex) (graph_of_get hj) hdir

theorem Vfs.subdirs_eq_childDirs (s : Vfs) (i : Inode) :
    s.graph.subdirs i.vertex = s.childDirs i := by
  refine countP_congr ?_
  intro de _
  rw [listsDir_iff, hasDir_iff, and_eq_true]
  rfl

theorem Vfs.linked_of_linkedDir {i : Inode} (hi : s.inodes.get p = some i) (h : s.LinkedDir i) :
    s.graph.Linked p := by
  refine ⟨i.vertex, graph_of_get hi, ?_⟩
  rcases h with ⟨de, hde, hino⟩ | ⟨q, j, hj, hsb, de, hde, hname, hino⟩
  · left
    have hde' : tmpfsDirLookup i.vertex.entries dotdotName = some de := hde
    rw [child_of_some (graph_of_get hi), hde', map_some, hino]
    rfl
  · right
    have hpos := count_pos_of_mem (P := plainly i.ino) s.finite_graph (graph_of_get hj) hde (by
      rw [plainly, hname, hino, beq_self_eq_true]
      rfl)
    have hsb' : j.vertex.sb = i.vertex.sb := hsb
    rw [hsb'] at hpos
    exact hpos

theorem counted_of_run {heap : Oracle} {actions : List (Env × Action)}
    (hC : Within (fun op s => op.proper s = true ∧ op.counts s = true) actions (empty heap))
    (hrun : runActions actions (empty heap) = some ((), s)) : Counted s.graph := by
  have hempty : Counted (empty heap).graph := by
    have hsound : Sound (empty heap).graph := Sound.empty fun _ => rfl
    refine ⟨hsound, hsound.finite, ?_, ?_, ?_⟩
    all_goals
      intro p n hp
      cases hp
  refine (runActions_induct (I := fun s => Numbered s ∧ Counted s.graph) ?_ ?_ ?_ hC
    ⟨numbered_empty heap, hempty⟩ () s hrun).2
  · intro s s' h hs
    rw [h.graph]
    exact ⟨hs.1.still h, hs.2⟩
  · intro env op s r s' h hop hs
    exact ⟨op.run_numbered h hop.1 hs.1, (op.run_edits h hop.1 hs.1).counted hop.2 hs.2⟩
  · intro s s' h hs
    refine ⟨h.numbered hs.1, ?_⟩
    rcases h.edit hs.1 with hgraph | ⟨e, ⟨p, sb, n, hp, hfree, rfl⟩, hgraph⟩
    · rw [hgraph]
      exact hs.2
    · rw [hgraph]
      exact hs.2.edit _ trivial

/-- In every run whose operations act on what the directories list, none of them `vfs_mknod`, and
that do not exhaust numbers and counters, `nlink` of every file is the number of its entries, and
`nlink` of every linked directory is two more than the number of its directories. A name that is
listed can be removed exactly when the cache has a dentry for it that has an inode. -/
theorem link_counts {heap : Oracle} {actions : List (Env × Action)}
    (hC : Within (fun op s => op.proper s = true ∧ op.counts s = true) actions (empty heap))
    (hrun : runActions actions (empty heap) = some ((), s)) :
    (∀ p i, s.inodes.get p = some i → sIsdir i.mode = false →
      i.nlink = s.entriesNaming i.sb i.ino) ∧
      (∀ p i, s.inodes.get p = some i → sIsdir i.mode = true → s.LinkedDir i →
        i.nlink = 2 + s.childDirs i) ∧
      ∀ env path pwd s₁ parent name dir i, ReachesListed env path pwd s s₁ parent name dir i →
        ((∃ s', vfsUnlink env path pwd s = some (.ok (), s') ∧ Removes s s' dir name) ↔
          CachedInode env s₁ parent name) := by
  have h := (counted_of_run hC hrun).balance
  refine ⟨?_, ?_, ?_⟩
  · intro p i hi hfile
    have hn := h.files p i.vertex (Vfs.graph_of_get hi) hfile
    rw [Vfs.count_eq_entriesNaming, Pi.zero_apply, add_zero] at hn
    exact Int.natCast_inj.mp hn
  · intro p i hi hdir hl
    have hn := h.dirs p i.vertex (Vfs.graph_of_get hi) hdir (Vfs.linked_of_linkedDir hi hl)
    rw [Vfs.subdirs_eq_childDirs, Pi.zero_apply, add_zero] at hn
    exact Int.natCast_inj.mp (hn.trans (by push_cast; rfl))
  · intro env path pwd s₁ parent name dir i hreach
    exact hreach.unlink_iff

/-- `/a` with a second name of the file `/f`, and a directory that is moved out of `/a`. -/
def tidyCalls : List (Env × Action) :=
  [(Env.start 0, .mountRoot (some 1)), (Env.start 0, .call (.mkdir ['/', 'a'] 0o755 ⟨0, 0⟩)),
    (Env.start 0, .call (.open ['/', 'f'] oCreat 0o644 ⟨0, 0⟩)),
    (Env.start 0, .call (.link ['/', 'f'] ['/', 'a', '/', 'g'] ⟨0, 0⟩)),
    (Env.start 0, .call (.mkdir ['/', 'a', '/', 'b'] 0o755 ⟨0, 0⟩)),
    (Env.start 0, .call (.rename ['/', 'a', '/', 'b'] ['/', 'c'] ⟨0, 0⟩)),
    (Env.start 0, .call (.unlink ['/', 'f'] ⟨0, 0⟩))]

/-- The file that is left has one name, and it can be removed. -/
theorem link_counts_tidyCalls :
    ∃ s i, runActions tidyCalls (empty start.heap) = some ((), s) ∧ s.inodes.get 2 = some i ∧
      sIsdir i.mode = false ∧ i.nlink = s.entriesNaming i.sb i.ino ∧
      ∃ s', vfsUnlink (Env.start 0) ['/', 'a', '/', 'g'] ⟨0, 0⟩ s = some (.ok (), s') ∧
        Removes s s' 1 ['g'] := by
  have hrun : (runActions tidyCalls (empty start.heap)).any (fun r =>
      (r.2.inodes.get 2).any (fun i => !sIsdir i.mode) &&
        (vfsPathParent (Env.start 0) ['/', 'a', '/', 'g'] ⟨0, 0⟩ r.2).any fun q =>
          q.1.toOption == some (⟨0, 1⟩, ['g']) &&
            q.2.listsCached (Env.start 0) ⟨0, 1⟩ ['g'] 1 6 2) = true := by
    decide +kernel
  have hcheck : checkWithin (fun op s => op.proper s && op.counts s) tidyCalls
      (empty start.heap) = true := by
    decide +kernel
  simp only [Option.any_eq_true, and_eq_true, not_eq_true', beq_iff_eq] at hrun
  obtain ⟨⟨_, s⟩, hs, ⟨i, hi, hfile⟩, ⟨r, s1⟩, hr, hpath, hlists⟩ := hrun
  have hreached : vfsPathParent (Env.start 0) ['/', 'a', '/', 'g'] ⟨0, 0⟩ s =
      some (.ok (⟨0, 1⟩, ['g']), s1) := by
    cases r with
    | ok p => rw [hr, Option.some.inj hpath]
    | error e => cases hpath
  obtain ⟨⟨dir, hlisted⟩, hcached⟩ := listsCached_spec hlists hreached
  have hC := within_of_check (C := fun op s => op.proper s = true ∧ op.counts s = true)
    (fun _ _ => and_eq_true_iff.mp) hcheck
  have hcounts := link_counts hC hs
  exact ⟨s, i, hs, hi, hfile, hcounts.1 2 i hi hfile, (hcounts.2.2 _ _ _ _ _ _ _ _ hlisted).mpr
    hcached⟩

/-- A new node, made by `vfs_mknod`. -/
def newNode : List (Env × Action) :=
  [(Env.start 0, .mountRoot (some 1)), (Env.start 0, .call (.mknod ['/', 'n'] sIfchr 5 ⟨0, 0⟩))]

/-- A file that gets another name. -/
def renamedFile : List (Env × Action) :=
  [(Env.start 0, .mountRoot (some 1)), (Env.start 0, .call (.open ['/', 'f'] oCreat 0o644 ⟨0, 0⟩)),
    (Env.start 0, .call (.rename ['/', 'f'] ['/', 'g'] ⟨0, 0⟩))]

/-- The node of `vfs_mknod` has an entry and no link. The file that was renamed is listed under
its new name, and `vfs_unlink` of that name does not come back. -/
theorem mknod_without_link :
    (∃ s i, runActions newNode (empty start.heap) = some ((), s) ∧ s.inodes.get 1 = some i ∧
      sIsdir i.mode = false ∧ i.nlink = 0 ∧ s.entriesNaming i.sb i.ino = 1) ∧
    ∃ s i, runActions renamedFile (empty start.heap) = some ((), s) ∧ s.inodes.get 0 =
      some i ∧
      (⟨['g'], 3⟩ : DirEntry) ∈ i.dirList ∧ vfsUnlink (Env.start 0) ['/', 'g'] ⟨0, 0⟩ s = none := by
  have hnode : ((runActions newNode (empty start.heap)).bind fun r =>
      (r.2.inodes.get 1).map fun i =>
      (sIsdir i.mode, i.nlink, r.2.entriesNaming i.sb i.ino)) =
        some (false, 0, 1) := by decide +kernel
  have hfile : ((runActions renamedFile (empty start.heap)).bind fun r =>
      (r.2.inodes.get 0).map fun i =>
      (decide ((⟨['g'], 3⟩ : DirEntry) ∈ i.dirList),
        (vfsUnlink (Env.start 0) ['/', 'g'] ⟨0, 0⟩ r.2).isNone)) =
          some (true, true) := by decide +kernel
  obtain ⟨⟨_, s⟩, hs, hn⟩ := bind_eq_some_iff.mp hnode
  obtain ⟨i, hi, hn⟩ := map_eq_some_iff.mp hn
  obtain ⟨hmode, hn⟩ := Prod.mk.inj hn
  obtain ⟨⟨_, s'⟩, hs', hf⟩ := bind_eq_some_iff.mp hfile
  obtain ⟨i', hi', hf⟩ := map_eq_some_iff.mp hf
  obtain ⟨hmem, hnone⟩ := Prod.mk.inj hf
  exact ⟨⟨s, i, hs, hi, hmode, Prod.mk.inj hn⟩,
    s', i', hs', hi', of_decide_eq_true hmem, isNone_iff_eq_none.mp hnone⟩

end ShiziOS.Fs
