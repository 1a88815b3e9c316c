import ShiziOS.Lib.Runs
import Mathlib.Data.List.Basic
import Mathlib.Order.WellFounded

/-!
# Taking a tree apart

A walk over a tree of nodes that know their parents and their children: it goes down to the first
child as long as there is one, takes the leaf away, and goes on with the first child that its
parent has left, or with the parent. One node has been cut off from its parent before. `Order`
says what the walk takes between two visits: every node once, children before their parents.
-/

namespace TreeWalk

open Relation Runs List Option

structure Tree (ν : Type*) where
  parent : ν → Option ν
  children : ν → List ν
  mem_children : ∀ p c, c ∈ children p ↔ parent c = some p
  nodup : ∀ p, (children p).Nodup
  grounded : WellFounded fun c p => parent c = some p

/-- The nodes taken so far and the node that the walk is at; `none` at its end. -/
structure Walk (ν : Type*) where
  gone : List ν
  curr : Option ν

variable {ν : Type*} [DecidableEq ν] (T : Tree ν) (cut : ν)

/-- The children that a node has left. -/
def Tree.rest (gone : List ν) (p : ν) : List ν :=
  (T.children p).filter fun c => c ≠ cut ∧ c ∉ gone

/-- The first child that a node has left, or the node itself. -/
def Tree.entry (gone : List ν) (p : ν) : ν := ((T.rest cut gone p).head?).getD p

def step (w : Walk ν) (_ : Unit) : Option (Walk ν) :=
  match w.curr with
  | none => none
  | some x =>
    match T.rest cut w.gone x with
    | c :: _ => some { w with curr := some c }
    | [] =>
      let gone := w.gone ++ [x]
      some ⟨gone, (T.parent x).map (T.entry cut gone)⟩

namespace Tree

variable {T} {cut} {x y c c' p : ν} {gone l : List ν}

omit [DecidableEq ν]

/-- One node is beneath another, or the same. -/
def Under (T : Tree ν) (y x : ν) : Prop := ReflTransGen (fun c p => T.parent c = some p) y x

theorem not_cycle (x : ν) : ¬TransGen (fun c p => T.parent c = some p) x x :=
  fun h => T.grounded.transGen.irrefl.irrefl x h

theorem Under.parent (h : T.Under c y) (hc : T.parent c = some p) : c = y ∨ T.Under p y := by
  rcases h.cases_head with rfl | ⟨p', hp', hrest⟩
  · exact .inl rfl
  · obtain rfl := some.inj (hc.symm.trans hp')
    exact .inr hrest

theorem Under.below (h : T.Under p x) (hc : T.parent c = some p) : T.Under c x :=
  ReflTransGen.head hc h

theorem not_under_child (hc : T.parent c = some p) : ¬T.Under p c :=
  fun h => not_cycle c (TransGen.head' hc h)

theorem Under.sibling (h : T.Under y c) (h' : T.Under y c') (hc : T.parent c = some p)
    (hc' : T.parent c' = some p) : c = c' := by
  have hunique : Relator.RightUnique fun c p => T.parent c = some p :=
    fun _ _ _ h h' => some.inj (h.symm.trans h')
  rcases ReflTransGen.total_of_right_unique hunique h h' with hpath | hpath
  · exact (Under.parent hpath hc).resolve_right (not_under_child hc')
  · exact ((Under.parent hpath hc').resolve_right (not_under_child hc)).symm

theorem under_iff : T.Under y x ↔ y = x ∨ ∃ c ∈ T.children x, T.Under y c := by
  constructor
  · intro h
    rcases h.cases_tail with rfl | ⟨c, hyc, hcx⟩
    · exact .inl rfl
    · exact .inr ⟨c, (T.mem_children x c).mpr hcx, hyc⟩
  · rintro (rfl | ⟨c, hc, hyc⟩)
    · exact .refl
    · exact hyc.tail ((T.mem_children x c).mp hc)

/-! ## The order -/

/-- The nodes beneath some others, children before their parents. -/
structure Order (T : Tree ν) (tops : List ν) (l : List ν) : Prop where
  nodup : l.Nodup
  mem_iff : ∀ y, y ∈ l ↔ ∃ c ∈ tops, T.Under y c
  sorted : l.Pairwise fun a b => T.parent b ≠ some a

theorem order_nil : Order T [] [] := ⟨nodup_nil, by simp, List.Pairwise.nil⟩

theorem Order.node (h : Order T (T.children x) l) : Order T [x] (l ++ [x]) where
  nodup := by
    refine nodup_append.mpr ⟨h.nodup, pairwise_singleton _ x, ?_⟩
    rintro a ha b hb rfl
    obtain rfl := mem_singleton.mp hb
    obtain ⟨c, hc, hunder⟩ := (h.mem_iff a).mp ha
    exact not_under_child ((T.mem_children a c).mp hc) hunder
  mem_iff y := by
    simp only [mem_append, mem_singleton, h.mem_iff, exists_eq_left]
    rw [under_iff, or_comm]
  sorted := by
    refine pairwise_append.mpr ⟨h.sorted, pairwise_singleton _ _, ?_⟩
    intro a ha b hb hparent
    obtain rfl := mem_singleton.mp hb
    obtain ⟨c, hc, hunder⟩ := (h.mem_iff a).mp ha
    exact not_under_child ((T.mem_children b c).mp hc) (hunder.below hparent)

theorem Order.append {cs lc : List ν} (h : Order T [c] lc) (h' : Order T cs l)
    (hc : T.parent c = some p) (hcs : ∀ c' ∈ cs, T.parent c' = some p) (hnot : c ∉ cs) :
    Order T (c :: cs) (lc ++ l) where
  nodup := by
    refine nodup_append.mpr ⟨h.nodup, h'.nodup, ?_⟩
    rintro a ha b hb rfl
    obtain ⟨c1, hc1, hunder⟩ := (h.mem_iff a).mp ha
    obtain ⟨c2, hc2, hunder'⟩ := (h'.mem_iff a).mp hb
    obtain rfl := mem_singleton.mp hc1
    exact hnot (hunder.sibling hunder' hc (hcs c2 hc2) ▸ hc2)
  mem_iff y := by
    rw [mem_append, h.mem_iff, h'.mem_iff]
    simp
  sorted := by
    refine pairwise_append.mpr ⟨h.sorted, h'.sorted, ?_⟩
    intro a ha b hb hparent
    obtain ⟨c1, hc1, hunder⟩ := (h.mem_iff a).mp ha
    obtain ⟨c2, hc2, hunder'⟩ := (h'.mem_iff b).mp hb
    obtain rfl := mem_singleton.mp hc1
    exact hnot ((hunder.below hparent).sibling hunder' hc (hcs c2 hc2) ▸ hc2)

end Tree

/-! ## The walk -/

section Walk

variable {T} {cut} {x p : ν} {gone : List ν}

open TreeWalk.Tree

/-- Nothing beneath a node has been taken or cut off, the node itself apart. -/
def Tree.Whole (T : Tree ν) (cut : ν) (gone : List ν) (x : ν) : Prop :=
  ∀ y, T.Under y x → y ∉ gone ∧ (y = cut → y = x)

theorem mem_rest {c : ν} : c ∈ T.rest cut gone p ↔ T.parent c = some p ∧ c ≠ cut ∧ c ∉ gone := by
  simp [Tree.rest, T.mem_children]

theorem rest_append (l : List ν) :
    T.rest cut (gone ++ l) p = (T.rest cut gone p).filter fun c => c ∉ l := by
  simp only [Tree.rest, List.filter_filter]
  refine List.filter_congr fun c _ => ?_
  simp [Bool.and_comm, Bool.and_assoc]

theorem rest_of_cons {c : ν} {cs l : List ν} (hrest : T.rest cut gone p = c :: cs)
    (hl : Order T [c] l) : T.rest cut (gone ++ l) p = cs := by
  have hparent : ∀ c' ∈ c :: cs, T.parent c' = some p := fun c' hc' => (mem_rest.mp (hrest ▸ hc')).1
  have hnodup : (c :: cs).Nodup := hrest ▸ (T.nodup p).filter _
  have hc : c ∈ l := (hl.mem_iff c).mpr ⟨c, mem_cons_self, .refl⟩
  rw [rest_append, hrest, filter_cons_of_neg (by simpa using hc), filter_eq_self]
  intro c' hc'
  simp only [decide_eq_true_eq]
  intro hmem
  obtain ⟨c1, hc1, hunder⟩ := (hl.mem_iff c').mp hmem
  obtain rfl := mem_singleton.mp hc1
  have heq := hunder.sibling .refl (hparent c1 mem_cons_self)
    (hparent c' (mem_cons_of_mem c1 hc'))
  exact (nodup_cons.mp hnodup).1 (heq ▸ hc')

theorem reach_children {cs : List ν} (T : Tree ν) (cut p : ν) (gone : List ν)
    (ih : ∀ c ∈ cs, ∀ gone, T.Whole cut gone c → ∃ l, Order T [c] l ∧
      Reach (step T cut) Any ⟨gone, some c⟩ ⟨gone ++ l, some (T.entry cut (gone ++ l) p)⟩)
    (hrest : T.rest cut gone p = cs) (hwhole : ∀ c ∈ cs, T.Whole cut gone c) :
    ∃ l, Order T cs l ∧ T.rest cut (gone ++ l) p = [] ∧
      Reach (step T cut) Any ⟨gone, some (T.entry cut gone p)⟩ ⟨gone ++ l, some p⟩ := by
  induction cs generalizing gone with
  | nil =>
    refine ⟨[], order_nil, by rw [append_nil, hrest], ?_⟩
    rw [append_nil, Tree.entry, hrest]
    exact .start
  | cons c cs ihcs =>
    have hparent : ∀ c' ∈ c :: cs, T.parent c' = some p :=
      fun c' hc' => (mem_rest.mp (hrest ▸ hc')).1
    have hnodup : (c :: cs).Nodup := hrest ▸ (T.nodup p).filter _
    obtain ⟨lc, horder, hreach⟩ := ih c mem_cons_self gone (hwhole c mem_cons_self)
    have hrest' := rest_of_cons hrest horder
    have hwhole' : ∀ c' ∈ cs, T.Whole cut (gone ++ lc) c' := by
      intro c' hc' y hy
      have hold := hwhole c' (mem_cons_of_mem c hc') y hy
      refine ⟨?_, hold.2⟩
      rw [mem_append, not_or]
      refine ⟨hold.1, fun hmem => ?_⟩
      obtain ⟨c1, hc1, hunder⟩ := (horder.mem_iff y).mp hmem
      obtain rfl := mem_singleton.mp hc1
      have heq := hunder.sibling hy (hparent c1 mem_cons_self)
        (hparent c' (mem_cons_of_mem c1 hc'))
      exact (nodup_cons.mp hnodup).1 (heq ▸ hc')
    obtain ⟨l, horder', hempty, hreach'⟩ := ihcs (gone ++ lc)
      (fun c' hc' => ih c' (mem_cons_of_mem c hc')) hrest' hwhole'
    refine ⟨lc ++ l, ?_, ?_, ?_⟩
    · exact horder.append horder' (hparent c mem_cons_self)
        (fun c' hc' => hparent c' (mem_cons_of_mem c hc')) (nodup_cons.mp hnodup).1
    · rw [← append_assoc]
      exact hempty
    · have hentry : T.entry cut gone p = c := by rw [Tree.entry, hrest]; rfl
      rw [hentry, ← append_assoc]
      exact hreach.trans hreach'

theorem reach_entry : Reach (step T cut) Any ⟨gone, some x⟩ ⟨gone, some (T.entry cut gone x)⟩ := by
  cases hrest : T.rest cut gone x with
  | nil =>
    rw [Tree.entry, hrest]
    exact .start
  | cons c cs =>
    refine .single (a := ()) trivial ?_
    simp only [step, Tree.entry, hrest, head?_cons, getD_some]

theorem step_leaf (hrest : T.rest cut gone x = []) :
    step T cut ⟨gone, some x⟩ () =
      some ⟨gone ++ [x], (T.parent x).map (T.entry cut (gone ++ [x]))⟩ := by
  simp only [step, hrest]

theorem rest_eq_children (h : T.Whole cut gone x) : T.rest cut gone x = T.children x := by
  refine filter_eq_self.mpr fun c hc => ?_
  have hparent := (T.mem_children x c).mp hc
  obtain ⟨hgone, hcut⟩ := h c (.single hparent)
  have hne : c ≠ x := by
    rintro rfl
    exact not_under_child hparent .refl
  simp only [decide_eq_true_eq]
  exact ⟨fun heq => hne (hcut heq), hgone⟩

theorem reach_under (T : Tree ν) (cut : ν) (x : ν) :
    ∀ gone, T.Whole cut gone x → ∃ l, Order T [x] l ∧
    Reach (step T cut) Any ⟨gone, some x⟩
      ⟨gone ++ l, (T.parent x).map (T.entry cut (gone ++ l))⟩ := by
  induction x using T.grounded.induction with
  | _ x ih =>
    intro gone hwhole
    have hrest := rest_eq_children hwhole
    have hchild : ∀ c ∈ T.children x, T.parent c = some x := fun c hc => (T.mem_children x c).mp hc
    obtain ⟨l, horder, hempty, hreach⟩ := reach_children T cut x gone
      (fun c hc gone hw => by
        have := ih c (hchild c hc) gone hw
        rwa [hchild c hc] at this)
      hrest fun c hc y hy => by
        obtain ⟨hgone, hcut⟩ := hwhole y (hy.tail (hchild c hc))
        refine ⟨hgone, fun heq => ?_⟩
        obtain rfl := hcut heq
        exact absurd hy (not_under_child (hchild c hc))
    refine ⟨l ++ [x], horder.node, ?_⟩
    rw [← append_assoc]
    exact (reach_entry.trans hreach).next (a := ()) trivial (step_leaf hempty)

theorem reach_parent (hp : T.parent cut = some p) : ∃ gone curr, p ∈ gone ∧
    Reach (step T cut) Any ⟨[], some cut⟩ ⟨gone, curr⟩ := by
  obtain ⟨l, horder, hreach⟩ := reach_under T cut cut []
    fun y _ => ⟨not_mem_nil, id⟩
  obtain ⟨l', -, hempty, hreach'⟩ := reach_children T cut p l
    (fun c hc gone hw => by
      have := reach_under T cut c gone hw
      rwa [(mem_rest.mp hc).1] at this) rfl
    fun c hc y hy => by
      obtain ⟨hparent, hne, -⟩ := mem_rest.mp hc
      refine ⟨fun hmem => ?_, ?_⟩
      · obtain ⟨c', hc', hunder⟩ := (horder.mem_iff y).mp hmem
        obtain rfl := mem_singleton.mp hc'
        exact hne (hy.sibling hunder hparent hp)
      · rintro rfl
        exact absurd (hy.sibling .refl hparent hp) hne
  rw [hp, nil_append] at hreach
  exact ⟨_, _, by simp, (hreach.trans hreach').next (a := ()) trivial (step_leaf hempty)⟩

/-- The node that the walk is at has not been taken; a node is taken after its children; and the
walk does not leave the node cut off before it has taken it. -/
structure Inv (T : Tree ν) (cut : ν) (w : Walk ν) : Prop where
  fresh : ∀ x, w.curr = some x → x ∉ w.gone
  closed : ∀ y ∈ w.gone, ∀ c ∈ T.children y, c ∈ w.gone
  begun : cut ∈ w.gone ∨ ∃ x, w.curr = some x ∧ T.Under x cut

omit [DecidableEq ν] in
theorem inv_start : Inv T cut ⟨[], some cut⟩ where
  fresh _ _ := not_mem_nil
  closed := by simp
  begun := .inr ⟨cut, rfl, .refl⟩

theorem entry_eq (T : Tree ν) (cut : ν) (gone : List ν) (p : ν) :
    T.entry cut gone p = p ∨ T.entry cut gone p ∈ T.rest cut gone p := by
  unfold Tree.entry
  cases T.rest cut gone p with
  | nil => exact .inl rfl
  | cons c cs => exact .inr mem_cons_self

theorem step_cases {w w' : Walk ν} (h : step T cut w () = some w') : ∃ x, w.curr = some x ∧
    ((∃ c, c ∈ T.rest cut w.gone x ∧ T.entry cut w.gone x = c ∧ w' = ⟨w.gone, some c⟩) ∨
    T.rest cut w.gone x = [] ∧
      w' = ⟨w.gone ++ [x], (T.parent x).map (T.entry cut (w.gone ++ [x]))⟩) := by
  unfold step at h
  split at h
  · cases h
  · rename_i x hcurr
    refine ⟨x, hcurr, ?_⟩
    split at h <;> rename_i hrest <;> obtain rfl := some.inj h
    · exact .inl ⟨_, hrest ▸ mem_cons_self, by rw [Tree.entry, hrest]; rfl, rfl⟩
    · exact .inr ⟨hrest, rfl⟩

omit [DecidableEq ν] in
theorem Inv.parent_fresh {w : Walk ν} (h : Inv T cut w) (hcurr : w.curr = some x)
    (hp : T.parent x = some p) : p ∉ w.gone ++ [x] := by
  rw [mem_append, mem_singleton, not_or]
  refine ⟨fun hgone => h.fresh x hcurr (h.closed p hgone x ((T.mem_children p x).mpr hp)), ?_⟩
  rintro rfl
  exact not_under_child hp .refl

theorem Inv.step {w w' : Walk ν} (h : Inv T cut w) (hs : step T cut w () = some w') :
    Inv T cut w' := by
  obtain ⟨x, hcurr, ⟨c, hc, -, rfl⟩ | ⟨hrest, rfl⟩⟩ := step_cases hs
  · obtain ⟨hparent, -, hfresh⟩ := mem_rest.mp hc
    refine ⟨fun y hy => some.inj hy ▸ hfresh, h.closed, h.begun.imp_right ?_⟩
    rintro ⟨x', hx', hunder⟩
    obtain rfl := some.inj (hcurr.symm.trans hx')
    exact ⟨c, rfl, hunder.below hparent⟩
  · have hchildren : ∀ c ∈ T.children x, c ∈ w.gone := by
      intro c hc
      have hparent := (T.mem_children x c).mp hc
      by_contra hgone
      have hcut : c = cut := by
        by_contra hne
        exact not_mem_nil (hrest ▸ mem_rest.mpr ⟨hparent, hne, hgone⟩)
      subst hcut
      obtain ⟨x', hx', hunder⟩ := h.begun.resolve_left hgone
      obtain rfl := some.inj (hcurr.symm.trans hx')
      exact not_under_child hparent hunder
    refine ⟨?_, ?_, ?_⟩
    · intro y hy
      obtain ⟨q, hq, rfl⟩ := map_eq_some_iff.mp hy
      rcases entry_eq T cut (w.gone ++ [x]) q with heq | hmem
      · rw [heq]
        exact h.parent_fresh hcurr hq
      · exact (mem_rest.mp hmem).2.2
    · intro y hy c hc
      rcases mem_append.mp hy with hold | hnew
      · exact mem_append_left _ (h.closed y hold c hc)
      · obtain rfl := mem_singleton.mp hnew
        exact mem_append_left _ (hchildren c hc)
    · rcases h.begun with hgone | ⟨x', hx', hunder⟩
      · exact .inl (mem_append_left _ hgone)
      · obtain rfl := some.inj (hcurr.symm.trans hx')
        rcases hunder.cases_head with rfl | ⟨q, hq, hrest'⟩
        · exact .inl (by simp)
        · refine .inr ⟨_, by rw [hq]; rfl, ?_⟩
          rcases entry_eq T cut (w.gone ++ [x]) q with heq | hmem
          · rw [heq]
            exact hrest'
          · exact Under.below hrest' (mem_rest.mp hmem).1

end Walk

end TreeWalk
