import ShiziOS.Fs.Numbers
import ShiziOS.Lib.Weight

/-!
# Counting entries

The number of entries of a super block that satisfy a predicate, and how it changes when a
directory changes.
-/

namespace ShiziOS.Fs

open List Option Function Vertex PartialMap

variable {g : Graph} {p : Ptr} {n : Vertex} {f : Vertex → Vertex} {sb : Ptr} {P : DirEntry → Bool}
  {name newName : Name} {l : List DirEntry} {de : DirEntry}

/-- A name other than `.` and `..`. -/
def plain (name : Name) : Bool := name != ['.'] && name != ['.', '.']

def DirEntry.names (ino : Nat) (de : DirEntry) : Bool := de.ino == ino

/-- The entry has the number, and a name other than `.` and `..`. -/
def DirEntry.plainly (ino : Nat) (de : DirEntry) : Bool := plain de.name && de.ino == ino

/-! ## One directory -/

theorem countP_remove (h : tmpfsDirLookup l name = some de) :
    (l.eraseP fun de => de.name == name).countP P + (if P de then 1 else 0) = l.countP P := by
  induction l with
  | nil => cases h
  | cons e l ih =>
    rw [tmpfsDirLookup, find?_cons] at h
    rw [eraseP_cons, countP_cons]
    cases he : e.name == name with
    | true =>
      rw [he] at h
      cases h
      rfl
    | false =>
      rw [he] at h
      rw [cond_false, countP_cons]
      have := ih h
      omega

theorem countP_replaceEntry (f : DirEntry → DirEntry) (h : tmpfsDirLookup l name = some de) :
    (replaceEntry name f l).countP P + (if P de then 1 else 0) =
      l.countP P + (if P (f de) then 1 else 0) := by
  induction l with
  | nil => cases h
  | cons e l ih =>
    rw [tmpfsDirLookup, find?_cons] at h
    rw [replaceEntry, countP_cons]
    cases he : e.name == name with
    | true =>
      rw [he] at h
      cases h
      rw [if_pos rfl, countP_cons]
      omega
    | false =>
      rw [he] at h
      rw [if_neg Bool.false_ne_true, countP_cons]
      have := ih h
      omega

theorem setEntryIno_of_none (h : tmpfsDirLookup l name = none) (ino : Nat) :
    setEntryIno name ino l = l := by
  induction l with
  | nil => rfl
  | cons e l ih =>
    rw [tmpfsDirLookup, find?_cons] at h
    rw [setEntryIno, replaceEntry]
    cases he : e.name == name with
    | true =>
      rw [he] at h
      cases h
    | false =>
      rw [he] at h
      rw [if_neg Bool.false_ne_true, ← setEntryIno, ih h]

theorem lookup_name (h : tmpfsDirLookup l name = some de) : de.name = name := by
  have hname := find?_some h
  exact eq_of_beq hname

theorem lookup_append (h : de.name ≠ name) :
    tmpfsDirLookup (l ++ [de]) name = tmpfsDirLookup l name := by
  rw [tmpfsDirLookup, find?_append, find?_singleton, if_neg (by rwa [beq_iff_eq]),
    or_none, tmpfsDirLookup]

theorem name_ne_of_beq {e : DirEntry} {dot : Name} (he : (e.name == dot) = true) (h : name ≠ dot) :
    (e.name == name) = false := by
  rw [eq_of_beq he]
  exact beq_eq_false_iff_ne.mpr h.symm

theorem lookup_eraseP (h : name ≠ newName) :
    tmpfsDirLookup (l.eraseP fun de => de.name == newName) name = tmpfsDirLookup l name := by
  induction l with
  | nil => rfl
  | cons e l ih =>
    rw [eraseP_cons]
    cases he : e.name == newName with
    | true =>
      rw [cond_true, tmpfsDirLookup, tmpfsDirLookup, find?_cons, name_ne_of_beq he h]
    | false =>
      rw [cond_false, tmpfsDirLookup, tmpfsDirLookup, find?_cons, find?_cons]
      rw [tmpfsDirLookup, tmpfsDirLookup] at ih
      rw [ih]

theorem lookup_replaceEntry {oldName : Name} {f : DirEntry → DirEntry} (hold : name ≠ oldName)
    (hnew : ∀ de, name ≠ (f de).name) (l : List DirEntry) :
    tmpfsDirLookup (replaceEntry oldName f l) name = tmpfsDirLookup l name := by
  induction l with
  | nil => rfl
  | cons e l ih =>
    rw [replaceEntry]
    cases he : e.name == oldName with
    | true =>
      rw [if_pos rfl, tmpfsDirLookup, tmpfsDirLookup, find?_cons, find?_cons,
        name_ne_of_beq he hold, beq_eq_false_iff_ne.mpr (hnew e).symm]
    | false =>
      rw [tmpfsDirLookup, tmpfsDirLookup] at ih
      rw [if_neg Bool.false_ne_true, tmpfsDirLookup, tmpfsDirLookup, find?_cons, find?_cons, ih]

theorem lookup_setEntryIno (name : Name) (ino : Nat) (l : List DirEntry) :
    tmpfsDirLookup (setEntryIno name ino l) name = (tmpfsDirLookup l name).map fun _ =>
      ⟨name, ino⟩ := by
  induction l with
  | nil => rfl
  | cons e l ih =>
    rw [setEntryIno, replaceEntry]
    cases he : e.name == name with
    | true =>
      rw [if_pos rfl, tmpfsDirLookup, tmpfsDirLookup, find?_cons, find?_cons, he, beq_self_eq_true,
        map_some]
    | false =>
      rw [setEntryIno, tmpfsDirLookup, tmpfsDirLookup] at ih
      rw [if_neg Bool.false_ne_true, tmpfsDirLookup, tmpfsDirLookup, find?_cons, find?_cons, he, ih]

/-! ## What a directory lists under a name -/

namespace Graph

/-- The number that a vertex lists under the name. -/
def child (g : Graph) (name : Name) (p : Ptr) : Option Nat :=
  (g p).bind fun n => (tmpfsDirLookup n.entries name).map DirEntry.ino

theorem child_of_some (h : g p = some n) :
    g.child name p = (tmpfsDirLookup n.entries name).map DirEntry.ino := by
  rw [child, h, bind_some]

theorem child_edit (hf : ∀ n, tmpfsDirLookup (f n).entries name = tmpfsDirLookup n.entries name) :
    (g.edit p f).child name = g.child name := by
  funext q
  by_cases hq : q = p
  · subst hq
    rw [child, child, edit, update_self]
    cases g q with
    | none => rfl
    | some n => rw [map_some, bind_some, bind_some, hf]
  · rw [child, child, edit_of_ne hq]

theorem child_add (h : de.name ≠ name) : (g.edit p (add de)).child name = g.child name :=
  child_edit fun _ => lookup_append h

theorem child_remove (h : name ≠ newName) :
    (g.edit p (remove newName)).child name = g.child name :=
  child_edit fun _ => lookup_eraseP h

theorem child_rename {oldName : Name} (hold : name ≠ oldName) (hnew : name ≠ newName) :
    (g.edit p (rename oldName newName)).child name = g.child name :=
  child_edit fun _ => lookup_replaceEntry hold (fun _ => hnew) _

theorem child_countUp : (g.edit p countUp).child name = g.child name :=
  child_edit fun _ => rfl

theorem child_countDown : (g.edit p countDown).child name = g.child name :=
  child_edit fun n => by rw [entries_countDown]

theorem child_point (name : Name) (ino : Nat) (h : g.child name p ≠ none) :
    (g.edit p (point name ino)).child name = update (g.child name) p
      (some ino) := by
  funext q
  by_cases hq : q = p
  · subst hq
    obtain ⟨n, hn⟩ : ∃ n, g q = some n := by
      cases hq : g q with
      | none =>
        rw [child, hq] at h
        exact absurd rfl h
      | some n => exact ⟨n, rfl⟩
    rw [child_of_some hn] at h
    rw [update_self, child_of_some (edit_self hn), point, lookup_setEntryIno]
    cases hl : tmpfsDirLookup n.entries name with
    | none =>
      rw [hl] at h
      exact absurd rfl h
    | some de => rfl
  · rw [update_of_ne hq, child, child, edit_of_ne hq]

end Graph

theorem ne_of_plain {dot : Name} (h : plain name = true) (hdot : plain dot = false) :
    name ≠ dot := by
  rintro rfl
  rw [h] at hdot
  cases hdot

/-! ## All directories -/

/-- The entries of a vertex that count in a super block. -/
def Vertex.hits (sb : Ptr) (P : DirEntry → Bool) (n : Vertex) : Nat :=
  if n.sb = sb then n.entries.countP P else 0

theorem Vertex.hits_of_sb (h : n.sb = sb) : n.hits sb P = n.entries.countP P := if_pos h

theorem Vertex.hits_of_ne (h : n.sb ≠ sb) : n.hits sb P = 0 := if_neg h

namespace Graph

/-- The number of entries of the super block that satisfy the predicate. -/
noncomputable def count (g : Graph) (sb : Ptr) (P : DirEntry → Bool) : Nat :=
  PartialMap.weight g (hits sb P)

section

variable (h : Finite g)
include h

theorem finite_edit (p : Ptr) (f : Vertex → Vertex) : Finite (g.edit p f) :=
  h.update p _

theorem finite_put (p : Ptr) (n : Vertex) : Finite (g.put p n) :=
  h.update p _

omit h in
theorem count_edit (sb : Ptr) (P : DirEntry → Bool) (f : Vertex → Vertex) (h : PartialMap.Finite g)
    (hp : g p = some n) :
    (g.edit p f).count sb P + n.hits sb P = g.count sb P + (f n).hits sb P := by
  have hw := weight_update (w := hits sb P) h p (some (f n))
  rw [hp] at hw
  rw [count, edit, hp]
  exact hw

theorem count_put (hp : g p = none) : (g.put p n).count sb P = g.count sb P + n.hits sb P := by
  have hw := weight_update (w := hits sb P) h p (some n)
  rw [hp] at hw
  exact hw

theorem count_edit_of_eq (hp : g p = some n) (hk : (f n).kind = n.kind)
    (he : n.sb = sb → (f n).entries.countP P = n.entries.countP P) :
    (g.edit p f).count sb P = g.count sb P := by
  have hc := count_edit sb P f h hp
  have hfsb : (f n).sb = n.sb := (kind_eq_iff.mp hk).2.1
  have hhits : (f n).hits sb P = n.hits sb P := by
    by_cases hsb : n.sb = sb
    · rw [hits_of_sb hsb, hits_of_sb (hfsb.trans hsb), he hsb]
    · rw [hits_of_ne hsb, hits_of_ne (hfsb ▸ hsb)]
  omega

theorem count_edit_same (hk : ∀ n, (f n).kind = n.kind) (he : ∀ n, (f n).entries = n.entries) :
    (g.edit p f).count sb P = g.count sb P := by
  cases hp : g p with
  | none => rw [count, edit, hp, map_none, ← hp, update_eq_self, count]
  | some n =>
    exact count_edit_of_eq h hp (hk n) fun _ => by rw [he]

theorem count_countUp : (g.edit p countUp).count sb P = g.count sb P :=
  count_edit_same h (fun _ => rfl) fun _ => rfl

theorem count_countDown : (g.edit p countDown).count sb P = g.count sb P :=
  count_edit_same h kind_countDown entries_countDown

theorem count_add (hp : g p = some n) (de : DirEntry) : (g.edit p (add de)).count sb P =
      g.count sb P + (if n.sb = sb ∧ P de = true then 1 else 0) := by
  have hc := count_edit sb P (add de) h hp
  by_cases hsb : n.sb = sb
  · have hadd : (n.add de).entries.countP P = n.entries.countP P + if P de = true then 1
        else 0 := by
      rw [add, countP_append, countP_singleton]
    rw [hits_of_sb hsb, hits_of_sb (n := n.add de) hsb, hadd] at hc
    simp only [hsb, true_and]
    omega
  · rw [hits_of_ne hsb, hits_of_ne (n := n.add de) hsb] at hc
    rw [if_neg fun h => hsb h.1]
    exact hc

omit h in
theorem count_remove (sb : Ptr) (P : DirEntry → Bool) (h : Finite g) (hp : g p = some n)
    (hl : tmpfsDirLookup n.entries name = some de) :
    (g.edit p (remove name)).count sb P + (if n.sb = sb ∧ P de = true then 1 else 0) =
      g.count sb P := by
  have hc := count_edit sb P (remove name) h hp
  by_cases hsb : n.sb = sb
  · have hr : (n.remove name).entries.countP P + (if P de then 1 else 0) = n.entries.countP P :=
      countP_remove hl
    rw [hits_of_sb hsb, hits_of_sb (n := n.remove name) hsb] at hc
    simp only [hsb, true_and]
    omega
  · rw [hits_of_ne hsb, hits_of_ne (n := n.remove name) hsb] at hc
    rw [if_neg fun h => hsb h.1]
    exact hc

theorem count_rename (hp : g p = some n) (hl : tmpfsDirLookup n.entries name = some de)
    (hP : P ⟨newName, de.ino⟩ = P de) :
    (g.edit p (rename name newName)).count sb P = g.count sb P := by
  refine count_edit_of_eq h hp rfl fun _ => ?_
  have hr := countP_replaceEntry (P := P) (fun de => ⟨newName, de.ino⟩) hl
  rw [hP] at hr
  exact Nat.add_right_cancel hr

theorem count_point (hp : g p = some n) {ino : Nat}
    (hold : n.sb = sb → ∀ de, tmpfsDirLookup n.entries name = some de → P de = false)
    (hnew : n.sb = sb → P ⟨name, ino⟩ = false) :
    (g.edit p (point name ino)).count sb P = g.count sb P := by
  refine count_edit_of_eq h hp rfl fun hsb => ?_
  change (setEntryIno name ino n.entries).countP P = n.entries.countP P
  cases hl : tmpfsDirLookup n.entries name with
  | none => rw [setEntryIno_of_none hl]
  | some de =>
    have hs := countP_replaceEntry (P := P) (fun _ => ⟨name, ino⟩) hl
    rw [hold hsb de hl, hnew hsb] at hs
    exact hs

omit h in
theorem exists_of_count_pos (h : 0 < g.count sb P) :
    ∃ d nd, g d = some nd ∧ nd.sb = sb ∧ ∃ de ∈ nd.entries, P de = true := by
  obtain ⟨d, nd, hd, hpos⟩ := exists_of_weight_pos h
  rw [hits] at hpos
  split_ifs at hpos with hsb
  · exact ⟨d, nd, hd, hsb, countP_pos_iff.mp hpos⟩
  · cases hpos

theorem count_pos_of_mem (hp : g p = some n) (hmem : de ∈ n.entries) (hP : P de = true) :
    0 < g.count n.sb P := by
  have hle := le_weight (w := hits n.sb P) h p
  rw [hp, elim_some, hits, if_pos rfl] at hle
  exact lt_of_lt_of_le (countP_pos_iff.mpr ⟨de, hmem, hP⟩) hle

end

end Graph

theorem Vfs.count_eq_sum (s : Vfs) (sb : Ptr) (P : DirEntry → Bool) :
    s.graph.count sb P =
      ((List.range s.inodes.next).map fun q => (s.graph q).elim 0 (hits sb P)).sum := by
  rw [Graph.count, weight_eq_sum (S := Finset.range s.inodes.next)]
  · rfl
  · intro q hq
    obtain ⟨n, hn⟩ := ne_none_iff_exists'.mp hq
    obtain ⟨i, hi, -⟩ := map_eq_some_iff.mp hn
    exact Finset.mem_range.mpr (Store.lt_next hi)

end ShiziOS.Fs
