import ShiziOS.Mm.MmuInv

/-!
# Mapping pages

What `mmu_walk` with `create` set and `mmu_add_map` do to the tables: the walk finds or
makes the three tables of a page and records each once, writing the last entry moves
the translation of that page and of no other, and the page loop adds up these steps.
-/

namespace ShiziOS.Mm

open Radix Machine List Option Function VmProt

variable {H : PageHeap} {m m' : Machine H} {root f g i va : Nat} {p q recs vs : List Nat}
  {kernel : Nat → Prop} {prot : VmProt}

/-! ## The software walk -/

/-- A level of the walk fails for lack of memory, or it ends at the table below the
entry, recorded once more. -/
theorem walkTable_create {w w' : Walk H} {slot : Fin 3} {huge : Bool} {next : WalkState}
    (h : TableInv kernel w.machine root recs) (hs : Slot w.machine root p w.current i)
    (hdepth : p.length ≤ 2) (hhuge : huge = true → p ≠ [])
    (hrefs : ∀ f, reach w.machine.mem root (p ++ [i]) = some f → recs.count f + 1 < H.refLimit)
    (hw : walkTable i slot huge next true prot w = some w') :
    w'.state = .error ∨ ∃ f, f ≠ 0 ∧ w'.state = next ∧ w'.current = f ∧
      w'.outBlocks = update w.outBlocks slot f ∧
      TableInv kernel w'.machine root (f :: recs) ∧ Extends prot root w.machine w'.machine ∧
      Frame root w.machine w'.machine ∧ reach w'.machine.mem root (p ++ [i]) = some f := by
  have hentry : reach w.machine.mem root (p ++ [i]) =
      if pteIsValid (w.machine.mem (512 * w.current + i)) = true then
        some (ptePfn (w.machine.mem (512 * w.current + i))) else none := by
    unfold reach
    rw [follow_concat, show follow _ root p = some w.current from hs.reach, bind_some,
      tableNext_eq hs.index_lt (hs.root_lower h.shape)]
  unfold walkTable at hw
  split_ifs at hentry with hvalid
  · have hsmall : ¬ (huge = true ∧ pteIsHuge (w.machine.mem (512 * w.current + i)) = true) := by
      rintro ⟨hh, hbit⟩
      rw [h.shape.small p _ i (hhuge hh) hs.length_le hs.reach hs.index_lt] at hbit
      simp at hbit
    obtain ⟨h0, m', hadd, hinv, hmem, hframe⟩ := h.kheapAddRefCount
      ⟨p ++ [i], by simp, by simp; omega, hentry⟩ (hrefs _ hentry)
    simp only [hvalid, Bool.true_eq_false, if_false, if_neg hsmall, hadd, map_some,
      some.injEq] at hw
    subst hw
    refine .inr ⟨_, h0, rfl, rfl, rfl, hinv, .of_mem_eq prot root hmem, hframe, ?_⟩
    rw [hmem]
    exact hentry
  · simp only [hvalid, if_true, Bool.true_eq_false, if_false] at hw
    rcases ha : w.machine.allocPageTablePage with ⟨_ | page, m1⟩
    · simp only [ha] at hw
      cases hw
      exact .inl rfl
    · obtain ⟨hal, -⟩ := allocPageTablePage_spec h.heap ha
      obtain ⟨hinv1, -, -, hshrink⟩ := H.alloc_some h.heap hal
      have hslot : ¬ H.avail m1.heap ((512 * w.current + i) / 512) := by
        rw [show (512 * w.current + i) / 512 = w.current by have := hs.index_lt; omega]
        exact fun hav => (h.used hs.length_le hs.reach).1 (hshrink _ hav)
      simp only [ha, mmuSetPte, store_eq hinv1 hslot, map_some] at hw
      cases hw
      refine .inr ⟨page, (fresh_page h ha).1, rfl, rfl, rfl,
        hang_inv prot h hs hdepth hentry ha, hang_extends prot h hs hdepth hentry ha,
        hang_frame prot h hs hdepth hentry ha, ?_⟩
      exact (hang_reach prot h hs hdepth hentry ha (by simp; omega)).mpr (.inr ⟨rfl, rfl⟩)

theorem walkLoop_next {pgd addr fuel : Nat} {create : Bool} {w w' : Walk H} (hne : w.state ≠ .brk)
    (hw : walkLoop pgd addr create prot (fuel + 1) w = some w') :
    ∃ w1, walkStep pgd addr create prot w = some w1 ∧
      walkLoop pgd addr create prot fuel w1 = some w' := by
  rw [walkLoop, if_neg hne] at hw
  exact bind_eq_some_iff.mp hw

theorem walkLoop_error {pgd addr fuel : Nat} {w w' : Walk H} (hstate : w.state = .error)
    (hw : walkLoop pgd addr true prot (fuel + 2) w = some w') : w'.pte = none := by
  obtain ⟨w1, hw1, hw⟩ := walkLoop_next (by simp [hstate]) hw
  simp only [walkStep, hstate, walkError, Bool.true_eq_false, if_false, bind_eq_bind,
    bind_eq_some_iff, some.injEq] at hw1
  obtain ⟨_, _, _, _, _, _, rfl⟩ := hw1
  rw [walkLoop, if_pos rfl, some.injEq] at hw
  rw [← hw]

/-- Few enough references to the tables below one entry of the root. -/
def RefsBelow (m : Machine H) (root : Nat) (recs : List Nat) (a : Nat) : Prop :=
  ∀ q f, q.length ≤ 2 → reach m.mem root (a :: q) = some f → recs.count f + 1 < H.refLimit

theorem TableInv.refs_lt (h : TableInv kernel m root recs) {a : Nat}
    (hrefs : RefsBelow m root recs a) (hext : Extends prot root m m') (hframe : Frame root m m')
    (hshape : Shape m'.mem root) (hq : q.length ≤ 2) (hf : reach m'.mem root (a :: q) = some f) :
    recs.count f + 1 < H.refLimit := by
  rcases hframe.fresh f ⟨a :: q, by simp, by simp; omega, hf⟩ with ⟨p, -, hlen, hp⟩ | hav
  · have hpq := hshape.tree p (a :: q) f hlen (by simp; omega) (hext.reach p f hlen hp) hf
    exact hrefs q f hq (hpq ▸ hp)
  · rw [count_eq_zero_of_not_mem fun hmem => h.rec_used hmem hav]
    exact H.one_lt_refLimit

/-- `mmu_walk` with `create` set returns the entry of the page, after finding or making
its three tables and recording each once. -/
theorem mmuWalk_create (h : TableInv kernel m root recs) (hva : va < 2 ^ 47)
    (hrefs : RefsBelow m root recs (pml4Index va)) {w : Walk H} {pte : Nat}
    (hw : mmuWalk m root va true prot = some w) (hpte : w.pte = some pte) :
    ∃ f3 f2 f1, (f3 ≠ 0 ∧ f2 ≠ 0 ∧ f1 ≠ 0) ∧ w.outBlocks = ![f3, f2, f1] ∧
      TableInv kernel w.machine root (f1 :: f2 :: f3 :: recs) ∧
      Extends (intermediateProt prot) root m w.machine ∧
      Frame root m w.machine ∧
      reach w.machine.mem root [pml4Index va] = some f3 ∧
      reach w.machine.mem root [pml4Index va, pdptIndex va] = some f2 ∧
      reach w.machine.mem root (path3 va) = some f1 ∧ pte = 512 * f1 + ptIndex va := by
  have hnone : ∀ {w1 : Walk H} {fuel : Nat}, w1.state = .error →
      walkLoop root va true (intermediateProt prot) (fuel + 2) w1 = some w → False := by
    intro w1 fuel herr hloop
    rw [walkLoop_error herr hloop] at hpte
    cases hpte
  obtain ⟨w0, hw0, hw⟩ := walkLoop_next (by simp) hw
  simp only [walkStep, if_neg h.root_ne, if_true] at hw0
  cases hw0
  -- the root
  obtain ⟨w1, hw1, hw⟩ := walkLoop_next (by simp) hw
  have hs0 : Slot m root [] root (pml4Index va) :=
    ⟨rfl, by simp, pml4Index_lt va, fun _ => pml4Index_lt_of_user hva⟩
  rcases walkTable_create h hs0 (by simp) (by simp)
      (fun f hf => hrefs [] f (by simp) hf) hw1 with
    herr | ⟨f3, h3, hst1, hcur1, hout1, hinv1, hext1, hfr1, hr3⟩
  · exact (hnone herr hw).elim
  -- the page directory pointer table
  obtain ⟨w2, hw2, hw⟩ := walkLoop_next (by simp [hst1]) hw
  simp only [walkStep, hst1] at hw2
  have hs1 : Slot w1.machine root [pml4Index va] w1.current (pdptIndex va) :=
    ⟨hcur1 ▸ hr3, by simp, pdptIndex_lt va, by simp⟩
  rcases walkTable_create hinv1 hs1 (by simp) (by simp) (fun f hf => by
      have hne : f3 ≠ f := fun he => by
        have := hinv1.shape.tree _ _ f (by simp) (by simp) (he ▸ hr3) hf
        simp at this
      rw [count_cons_of_ne hne]
      exact h.refs_lt hrefs hext1 hfr1 hinv1.shape (by simp) hf) hw2 with
    herr | ⟨f2, h2, hst2, hcur2, hout2, hinv2, hext2, hfr2, hr2⟩
  · exact (hnone herr hw).elim
  -- the page directory
  obtain ⟨w3, hw3, hw⟩ := walkLoop_next (by simp [hst2]) hw
  simp only [walkStep, hst2] at hw3
  have hext₀₂ := hext1.trans hext2
  have hr₃' := hext2.reach _ _ (by simp) hr3
  have hs2 : Slot w2.machine root [pml4Index va, pdptIndex va] w2.current (pdIndex va) :=
    ⟨hcur2 ▸ hr2, by simp, pdIndex_lt va, by simp⟩
  rcases walkTable_create hinv2 hs2 (by simp) (by simp) (fun f hf => by
      have hne3 : f3 ≠ f := fun he => by
        have := hinv2.shape.tree _ _ f (by simp) (by simp) (he ▸ hr₃') hf
        simp at this
      have hne2 : f2 ≠ f := fun he => by
        have := hinv2.shape.tree _ _ f (by simp) (by simp) (he ▸ hr2) hf
        simp at this
      rw [count_cons_of_ne hne2, count_cons_of_ne hne3]
      exact h.refs_lt hrefs hext₀₂ (hfr1.trans hfr2) hinv2.shape (by simp) hf) hw3 with
    herr | ⟨f1, h1, hst3, hcur3, hout3, hinv3, hext3, hfr3, hr1⟩
  · exact (hnone herr hw).elim
  -- the page table, and the end of the loop
  obtain ⟨w4, hw4, hw⟩ := walkLoop_next (by simp [hst3]) hw
  simp only [walkStep, hst3] at hw4
  cases hw4
  obtain ⟨w5, hw5, hw⟩ := walkLoop_next (by simp) hw
  cases hw5
  cases hw
  refine ⟨f3, f2, f1, ⟨h3, h2, h1⟩, ?_, hinv3, hext₀₂.trans hext3, (hfr1.trans hfr2).trans hfr3,
    hext3.reach _ _ (by simp) hr₃', hext3.reach _ _ (by simp) hr2, hr1, ?_⟩
  · funext k
    rw [hout3, hout2, hout1]
    fin_cases k <;> rfl
  · rw [hcur3] at hpte
    exact (some.inj hpte).symm

/-! ## Rights -/

/-- What a page at `paddr` that is mapped with `prot` is translated to: it has the rights of
`prot` that the entries already present above it leave. -/
def mappedTo (mem : Nat → Pte) (root va : Nat) (prot : VmProt) (paddr : Nat) : Translation where
  paddr := paddr
  writable := has prot vmWrite && (upperEntries mem root va).all pteIsWritable
  user := has prot vmUser && (upperEntries mem root va).all pteIsUser
  executable := has prot vmExec && (upperEntries mem root va).all pteIsExecutable

theorem Extends.all_upperEntries (hext : Extends prot root m m') {allow : Pte → Bool}
    (hnew : ∀ pfn, pfn < 2 ^ 40 → allow (pteValue pfn false prot) = true) (va : Nat) :
    (upperEntries m'.mem root va).all allow = (upperEntries m.mem root va).all allow := by
  rw [Bool.eq_iff_iff, List.all_eq_true, List.all_eq_true]
  constructor
  · intro hall e he
    obtain ⟨slot, hslot, g, hg, hv, rfl⟩ := mem_upperEntries.mp he
    obtain ⟨hlen, hi⟩ := upperSlots_spec hslot
    have hkept := hext.kept slot.1 g slot.2 (by omega) hg hi hv
    exact hall _ (mem_upperEntries.mpr
      ⟨slot, hslot, g, hext.reach slot.1 g (by omega) hg, hkept ▸ hv, hkept⟩)
  · intro hall e he
    obtain ⟨slot, hslot, g, hg, hv, rfl⟩ := mem_upperEntries.mp he
    obtain ⟨hlen, hi⟩ := upperSlots_spec hslot
    rcases hext.made slot.1 g slot.2 (by omega) hg hi hv with ⟨hg', he'⟩ | ⟨pfn, hlt, he'⟩
    · exact hall _ (mem_upperEntries.mpr ⟨slot, hslot, g, hg', he' ▸ hv, he'.symm⟩)
    · rw [he']
      exact hnew pfn hlt

theorem has_intermediateProt (prot : VmProt) :
    has (intermediateProt prot) vmWrite = has prot vmWrite ∧
    has (intermediateProt prot) vmUser = has prot vmUser ∧
    has (intermediateProt prot) vmExec = true := by
  have hw : ∀ x : VmProt, has x vmWrite = x.getLsbD 1 := fun x =>
    and_twoPow_bne_zero x (k := 1) (by decide)
  have hu : ∀ x : VmProt, has x vmUser = x.getLsbD 3 := fun x =>
    and_twoPow_bne_zero x (k := 3) (by decide)
  have hx : ∀ x : VmProt, has x vmExec = x.getLsbD 2 := fun x =>
    and_twoPow_bne_zero x (k := 2) (by decide)
  simp only [hw, hu, hx, intermediateProt, BitVec.getLsbD_or, BitVec.getLsbD_and]
  simp [vmWrite, vmUser, vmExec]

theorem Extends.mappedTo_eq (hext : Extends (intermediateProt prot) root m m') (va paddr : Nat) :
    mappedTo m'.mem root va prot paddr = mappedTo m.mem root va prot paddr := by
  obtain ⟨hw, hu, hx⟩ := has_intermediateProt prot
  simp only [mappedTo, Translation.mk.injEq, true_and]
  refine ⟨?_, ?_, ?_⟩
  · cases hp : has prot vmWrite with
    | false => rfl
    | true => rw [hext.all_upperEntries fun pfn _ => by rw [pteIsWritable_pteValue, hw, hp]]
  · cases hp : has prot vmUser with
    | false => rfl
    | true => rw [hext.all_upperEntries fun pfn _ => by rw [pteIsUser_pteValue, hu, hp]]
  · rw [hext.all_upperEntries fun pfn hlt => by rw [pteIsExecutable_pteValue hlt, hx]]

/-! ## Writing the entry of a page -/

/-- The state after an entry of a page table has been written. -/
def setLeaf (m : Machine H) (pte pfn : Nat) (prot : VmProt) : Machine H :=
  { m with mem := update m.mem pte (pteValue pfn false prot) }

section Leaf

variable {pfn : Nat} (pfn) (prot : VmProt) (h : TableInv kernel m root recs)
  (hs : Slot m root p g i) (hdepth : p.length = 3)

omit h in
theorem setLeaf_changedAt : ChangedAt m (setLeaf m (512 * g + i) pfn prot).mem g i :=
  fun _ hw _ => update_of_ne hw _ _

include h hs

theorem setLeaf_other (hq : q.length ≤ 4) (hne : ¬ (p ++ [i]) <+: q) :
    reach (setLeaf m (512 * g + i) pfn prot).mem root q = reach m.mem root q :=
  h.shape.tree.follow_eq hs.reach hs.length_le
    (h.next_eq (setLeaf_changedAt pfn prot) hs.index_lt) hq hne

include hdepth

theorem setLeaf_reach (hq : q.length ≤ 3) :
    reach (setLeaf m (512 * g + i) pfn prot).mem root q = reach m.mem root q := by
  refine setLeaf_other pfn prot h hs (by omega) fun hpre => ?_
  have := hpre.length_le
  simp at this
  omega

theorem setLeaf_shape : Shape (setLeaf m (512 * g + i) pfn prot).mem root := by
  refine ⟨fun q r f hq hr hf hf' => ?_, fun q x j hq hlen hx hj => ?_⟩
  · rw [← reach, setLeaf_reach pfn prot h hs hdepth hq] at hf
    rw [← reach, setLeaf_reach pfn prot h hs hdepth hr] at hf'
    exact h.shape.tree q r f hq hr hf hf'
  · rw [setLeaf_reach pfn prot h hs hdepth hlen] at hx
    by_cases hxg : x = g ∧ j = i
    · simp only [setLeaf, hxg, update_self, pteIsHuge_pteValue]
    · rw [h.entry_eq (setLeaf_changedAt pfn prot) hs.index_lt hlen hx hj (not_and_or.mp hxg)]
      exact h.shape.small q x j hq hlen hx hj

theorem setLeaf_isTable :
    IsTable (setLeaf m (512 * g + i) pfn prot).mem root f ↔ IsTable m.mem root f :=
  exists_congr fun q => and_congr_right fun _ => and_congr_right fun hlen => by
    rw [setLeaf_reach pfn prot h hs hdepth hlen]

theorem setLeaf_inv : TableInv kernel (setLeaf m (512 * g + i) pfn prot) root recs := by
  have hreach := fun {q} => setLeaf_reach (q := q) pfn prot h hs hdepth
  refine ⟨h.heap, h.root_live, h.root_not_mem, h.root_not_kernel,
    setLeaf_shape pfn prot h hs hdepth,
    fun f hf => h.recorded f ((setLeaf_isTable pfn prot h hs hdepth).mp hf), h.live,
    fun q j x y hq hx hy => ?_, h.kernel_used, fun va hva w hw => ?_⟩
  · rw [hreach (by omega)] at hx
    rw [hreach (by simp; omega)] at hy
    exact h.parent q j x y hq hx hy
  · rw [(h.hwWalk_eq hs (setLeaf_changedAt pfn prot) fun huser => by omega).2] at hw
    exact h.kernel_reads va hva w hw

theorem setLeaf_frame : Frame root m (setLeaf m (512 * g + i) pfn prot) := by
  have htable := fun {f} => setLeaf_isTable (f := f) pfn prot h hs hdepth
  refine ⟨fun _ hf => hf, fun f hf => htable.mpr hf, fun f hf => .inl (htable.mp hf),
    fun _ _ => rfl, fun w _ hroot htab => ?_, fun _ _ => rfl, rfl⟩
  refine update_of_ne (fun he => ?_) _ _
  have hg : w / 512 = g := by have := hs.index_lt; omega
  rw [hg] at hroot htab
  exact htab (hs.isTable hroot)

theorem setLeaf_upperEntries : upperEntries (setLeaf m (512 * g + i) pfn prot).mem root va =
    upperEntries m.mem root va := by
  refine filterMap_congr fun slot hslot => ?_
  obtain ⟨hlen, hi⟩ := upperSlots_spec hslot
  rw [setLeaf_reach pfn prot h hs hdepth (by omega)]
  refine bind_congr fun x hx => ?_
  have hne : x ≠ g := by
    rintro rfl
    rw [h.shape.tree slot.1 p x (by omega) hs.length_le hx hs.reach] at hlen
    omega
  rw [h.entry_eq (setLeaf_changedAt pfn prot) hs.index_lt (by omega) hx hi (.inl hne)]

theorem setLeaf_walk (hpfn : pfn < 2 ^ 40) (hva : va < 2 ^ 47) (hpath : path4 va = p ++ [i]) :
    hwWalk (setLeaf m (512 * g + i) pfn prot).mem root va =
      some (mappedTo (setLeaf m (512 * g + i) pfn prot).mem root va prot
        (pfn * 4096 + va % 4096)) := by
  obtain ⟨rfl, rfl⟩ := append_singleton_inj.mp ((path4_eq va).symm.trans hpath)
  have hentry : (setLeaf m (512 * g + ptIndex va) pfn prot).mem (512 * g + ptIndex va) =
      pteValue pfn false prot := update_self ..
  rw [(setLeaf_shape pfn prot h hs hdepth).hwWalk_eq_some hva
    ((setLeaf_reach pfn prot h hs hdepth hs.length_le).trans hs.reach) (by rw [hentry]; simp),
      hentry,
    ptePfn_pteValue hpfn]
  simp only [translation, mappedTo, all_append, all_cons, all_nil, Bool.true_and,
    pteIsWritable_pteValue, pteIsUser_pteValue, pteIsExecutable_pteValue hpfn, Bool.and_comm]

theorem setLeaf_walk_other (hva : va < 2 ^ 47 → path4 va ≠ p ++ [i]) :
    hwWalk (setLeaf m (512 * g + i) pfn prot).mem root va = hwWalk m.mem root va := by
  refine (h.hwWalk_eq hs (setLeaf_changedAt pfn prot) fun huser hpre => hva huser ?_).1
  exact (hpre.eq_of_length (by simp [path4, hdepth])).symm

end Leaf

/-! ## The records of a page -/

/-- The tables `f₃`, `f₂` and `f₁` were made for page `va`: each was hung into the entry
above it that the indices of `va` select. -/
structure PageRec (onPtePtr : Nat → Option Nat) (root va f₃ f₂ f₁ : Nat) : Prop where
  top : onPtePtr f₃ = some (512 * root + pml4Index va)
  middle : onPtePtr f₂ = some (512 * f₃ + pdptIndex va)
  bottom : onPtePtr f₁ = some (512 * f₂ + pdIndex va)

/-- The blocks record the tables of the pages, three for each page. -/
inductive Records (onPtePtr : Nat → Option Nat) (root : Nat) : List Nat → List Nat → Prop
  | nil : Records onPtePtr root [] []
  | cons {va f₃ f₂ f₁ : Nat} {vs blocks : List Nat} : PageRec onPtePtr root va f₃ f₂ f₁ →
      Records onPtePtr root vs blocks → Records onPtePtr root (va :: vs) (f₃ :: f₂ :: f₁ :: blocks)

section Records

variable {onPtePtr onPtePtr' : Nat → Option Nat} {blocks blocks' vs' : List Nat} {f3 f2 f1 : Nat}

theorem Records.append (h : Records onPtePtr root vs blocks)
    (h' : Records onPtePtr root vs' blocks') :
    Records onPtePtr root (vs ++ vs') (blocks ++ blocks') := by
  induction h with
  | nil => exact h'
  | cons hrec _ ih => exact .cons hrec ih

theorem Records.congr (h : Records onPtePtr root vs blocks)
    (heq : ∀ f ∈ blocks, onPtePtr' f = onPtePtr f) : Records onPtePtr' root vs blocks := by
  induction h with
  | nil => exact .nil
  | cons hrec _ ih =>
    refine .cons ⟨?_, ?_, ?_⟩ (ih fun f hf => heq f (by simp [hf]))
    · rw [heq _ (by simp), hrec.top]
    · rw [heq _ (by simp), hrec.middle]
    · rw [heq _ (by simp), hrec.bottom]

theorem TableInv.path_of_onPte (h : TableInv kernel m root recs) (hp : p ≠ []) (hlen : p.length ≤ 3)
    (hf : reach m.mem root p = some f) (hon : m.onPtePtr f = some (512 * g + i)) (hi : i < 512) :
    ∃ r, p = r ++ [i] ∧ reach m.mem root r = some g := by
  obtain rfl | ⟨r, j, rfl⟩ := eq_nil_or_concat' p
  · exact absurd rfl hp
  have hr : r.length ≤ 2 := by
    rw [length_append, length_singleton] at hlen
    omega
  obtain ⟨x, hx, hnext⟩ := follow_concat_eq_some.mp hf
  rw [h.parent r j x f hr hx hf, some.injEq] at hon
  obtain ⟨rfl, rfl⟩ := entry_inj (tableNext_eq_some hnext).1 hi hon
  exact ⟨r, rfl, hx⟩

section PageRec

variable (h : TableInv kernel m root recs) (hrec : PageRec m.onPtePtr root va f3 f2 f1)
include h hrec

theorem PageRec.path_top (hp : p ≠ []) (hlen : p.length ≤ 3) (hf : reach m.mem root p = some f3) :
    p = [pml4Index va] := by
  obtain ⟨r, rfl, hr⟩ := h.path_of_onPte hp hlen hf hrec.top (pml4Index_lt va)
  have hlen' : r.length ≤ 3 := by
    rw [length_append] at hlen
    omega
  rw [h.shape.tree r [] root hlen' (Nat.zero_le _) hr rfl, nil_append]

theorem PageRec.path_middle (h3 : f3 ≠ root) (hp : p ≠ []) (hlen : p.length ≤ 3)
    (hf : reach m.mem root p = some f2) : p = [pml4Index va, pdptIndex va] := by
  obtain ⟨r, rfl, hr⟩ := h.path_of_onPte hp hlen hf hrec.middle (pdptIndex_lt va)
  have hne : r ≠ [] := by
    rintro rfl
    exact h3 (some_inj.mp hr).symm
  rw [hrec.path_top h hne (by rw [length_append] at hlen; omega) hr]
  rfl

theorem PageRec.path_bottom (h3 : f3 ≠ root) (h2 : f2 ≠ root) (hp : p ≠ []) (hlen : p.length ≤ 3)
    (hf : reach m.mem root p = some f1) : p = path3 va := by
  obtain ⟨r, rfl, hr⟩ := h.path_of_onPte hp hlen hf hrec.bottom (pdIndex_lt va)
  have hne : r ≠ [] := by
    rintro rfl
    exact h2 (some_inj.mp hr).symm
  rw [hrec.path_middle h h3 hne (by rw [length_append] at hlen; omega) hr]
  rfl

/-- At most one of the three tables is `f`, and `f` is then below the entry of the root
that the page selects. -/
theorem PageRec.count_le (h3 : f3 ≠ root) (h2 : f2 ≠ root) {a : Nat} (hq : q.length ≤ 2)
    (hf : reach m.mem root (a :: q) = some f) :
    [f3, f2, f1].count f ≤ if pml4Index va = a then 1 else 0 := by
  have hlen : (a :: q).length ≤ 3 := by
    rw [length_cons]
    omega
  have e3 : f3 = f → pml4Index va = a ∧ q = [] := by
    rintro rfl
    obtain ⟨ha, hq'⟩ := List.cons.inj (hrec.path_top h (by simp) hlen hf)
    exact ⟨ha.symm, hq'⟩
  have e2 : f2 = f → pml4Index va = a ∧ q = [pdptIndex va] := by
    rintro rfl
    obtain ⟨ha, hq'⟩ := List.cons.inj (hrec.path_middle h h3 (by simp) hlen hf)
    exact ⟨ha.symm, hq'⟩
  have e1 : f1 = f → pml4Index va = a ∧ q = [pdptIndex va, pdIndex va] := by
    rintro rfl
    obtain ⟨ha, hq'⟩ := List.cons.inj (hrec.path_bottom h h3 h2 (by simp) hlen hf)
    exact ⟨ha.symm, hq'⟩
  simp only [count_cons, count_nil, beq_iff_eq]
  split_ifs with c1 c2 c3 c4 <;> grind

end PageRec

theorem Records.count_le (hrec : Records m.onPtePtr root vs blocks)
    (h : TableInv kernel m root recs) (hsub : ∀ f ∈ blocks, f ∈ recs) {a : Nat}
    (hq : q.length ≤ 2) (hf : reach m.mem root (a :: q) = some f) :
    blocks.count f ≤ vs.countP fun v => pml4Index v = a := by
  induction hrec with
  | nil => simp
  | @cons v f3 f2 f1 vs blocks hpage _ ih =>
    have hne : ∀ x ∈ [f3, f2], x ≠ root := by
      rintro x hx rfl
      exact h.root_not_mem (hsub x (by simp at hx ⊢; tauto))
    have hpage' := hpage.count_le h (hne f3 (by simp)) (hne f2 (by simp)) hq hf
    have hrest := ih fun f hf => hsub f (by simp [hf])
    rw [show f3 :: f2 :: f1 :: blocks = [f3, f2, f1] ++ blocks from rfl, count_append, countP_cons]
    simp only [decide_eq_true_eq]
    omega

end Records

/-! ## The page loop -/

/-- `m'` translates the pages `lo ≤ k < hi` of a range to the frames from `paddr` on, with
the rights of `prot`, and all other pages as `m` does. -/
structure Remapped (root : Nat) (prot : VmProt) (vaddr paddr lo hi : Nat) (m m' : Machine H) :
    Prop where
  range : ∀ k, lo ≤ k → k < hi → ∀ x, x / pageSize = vaddr / pageSize + k →
    hwWalk m'.mem root x = some (mappedTo m.mem root x prot (paddr + k * pageSize + x % pageSize))
  other : ∀ x, (∀ k, lo ≤ k → k < hi → x / pageSize ≠ vaddr / pageSize + k) →
    hwWalk m'.mem root x = hwWalk m.mem root x

/-- The tables of an address space in which the pages `vs` have been mapped. -/
structure Mapped (kernel : Nat → Prop) (m : Machine H) (root : Nat) (vs recs : List Nat) :
    Prop where
  inv : TableInv kernel m root recs
  records : Records m.onPtePtr root vs recs

theorem Mapped.refsBelow (h : Mapped kernel m root vs recs) {a : Nat}
    (hcount : (vs.countP fun v => pml4Index v = a) + 1 < H.refLimit) : RefsBelow m root recs a := by
  intro q f hq hf
  have := h.records.count_le h.inv (fun _ hf => hf) hq hf
  omega

theorem Keeps.mapped (hk : Keeps kernel root recs m m') (h : Mapped kernel m root vs recs) :
    Mapped kernel m' root vs recs :=
  ⟨hk.inv h.inv, h.records.congr hk.onPte⟩

theorem Keeps.mappedTo_eq (hk : Keeps kernel root recs m m') (va paddr : Nat) :
    mappedTo m'.mem root va prot paddr = mappedTo m.mem root va prot paddr := by
  have hupper : upperEntries m'.mem root va = upperEntries m.mem root va := by
    refine filterMap_congr fun slot hslot => ?_
    obtain ⟨hlen, hi⟩ := upperSlots_spec hslot
    rw [hk.reach_eq (by omega)]
    exact bind_congr fun x hx => by rw [hk.mem slot.1 x (by omega) hx slot.2 hi]
  unfold mappedTo
  rw [hupper]

theorem Frame.records (hf : Frame root m m') (h : TableInv kernel m root recs)
    {blocks : List Nat} (hsub : ∀ f ∈ blocks, f ∈ recs)
    (hrec : Records m.onPtePtr root vs blocks) : Records m'.onPtePtr root vs blocks :=
  hrec.congr fun f hmem => hf.onPte f (h.rec_used (hsub f hmem))

theorem Mapped.mapPage (h : Mapped kernel m root vs recs) {v pfn pte : Nat} (hv : v < 2 ^ 47)
    (hpfn : pfn < 2 ^ 40) (hrefs : RefsBelow m root recs (pml4Index v)) {w : Walk H}
    (hw : mmuWalk m root v true prot = some w) (hpte : w.pte = some pte) :
    pteIsHuge (w.machine.mem pte) = false ∧
      w.machine.mmuSetPte pte pfn false prot = some (setLeaf w.machine pte pfn prot) ∧
      Mapped kernel (setLeaf w.machine pte pfn prot) root (vs ++ [v])
        (recs ++ recorded w.outBlocks) ∧
      Frame root m (setLeaf w.machine pte pfn prot) ∧
      Records w.machine.onPtePtr root [v] (recorded w.outBlocks) ∧ (recorded w.outBlocks).Nodup ∧
      (∀ f ∈ recorded w.outBlocks, IsTable (setLeaf w.machine pte pfn prot).mem root f) ∧
      (∀ x paddr, mappedTo (setLeaf w.machine pte pfn prot).mem root x prot paddr =
        mappedTo m.mem root x prot paddr) ∧
      (∀ x, x / pageSize = v / pageSize →
        hwWalk (setLeaf w.machine pte pfn prot).mem root x =
          some (mappedTo m.mem root x prot (pfn * pageSize + x % pageSize))) ∧
      ∀ x, x / pageSize ≠ v / pageSize →
        hwWalk (setLeaf w.machine pte pfn prot).mem root x = hwWalk m.mem root x := by
  obtain ⟨f3, f2, f1, ⟨h3, h2, h1⟩, hout, hinv, hext, hframe, hr3, hr2, hr1, rfl⟩ :=
    mmuWalk_create h.inv hv hrefs hw hpte
  have hlen : (path3 v).length = 3 := rfl
  have hs : Slot w.machine root (path3 v) f1 (ptIndex v) :=
    ⟨hr1, hlen.le, ptIndex_lt v, by simp [path3]⟩
  have hused : ¬ H.avail w.machine.heap ((512 * f1 + ptIndex v) / 512) := by
    rw [show (512 * f1 + ptIndex v) / 512 = f1 by have := ptIndex_lt v; omega]
    exact (hinv.used hlen.le hr1).1
  have hrec : recorded w.outBlocks = [f3, f2, f1] := by
    rw [hout]
    simp [recorded, h3, h2, h1]
  have hpage : Records w.machine.onPtePtr root [v] [f3, f2, f1] :=
    .cons ⟨hinv.parent [] _ root f3 (by simp) rfl hr3, hinv.parent [_] _ f3 f2 (by simp) hr3 hr2,
      hinv.parent [_, _] _ f2 f1 (by simp) hr2 hr1⟩ .nil
  have hswap : ([f3, f2, f1].reverse ++ recs).Perm (recs ++ [f3, f2, f1]) :=
    perm_append_comm.trans ((reverse_perm _).append_left _)
  have hmapped : ∀ x paddr, mappedTo (setLeaf w.machine (512 * f1 + ptIndex v) pfn prot).mem root x
      prot paddr = mappedTo m.mem root x prot paddr := fun x paddr => by
    rw [← hext.mappedTo_eq x paddr]
    unfold mappedTo
    rw [setLeaf_upperEntries pfn prot hinv hs hlen]
  rw [hrec]
  refine ⟨hinv.shape.small _ _ _ (by simp [path3]) hlen.le hr1 (ptIndex_lt v),
    store_eq hinv.heap hused _,
    ⟨(setLeaf_inv pfn prot hinv hs hlen).perm hswap,
      (hframe.records h.inv (fun _ hf => hf) h.records).append hpage⟩,
    hframe.trans (setLeaf_frame pfn prot hinv hs hlen), hpage, ?_, fun f hf => ?_, hmapped,
    fun x hx => ?_, fun x hx => ?_⟩
  · -- the three tables are at the ends of three paths
    have hne := fun {p q x} => hinv.shape.tree p q x
    have h₃₂ : f3 ≠ f2 := by
      rintro rfl
      simpa using hne (by simp) (by simp) hr3 hr2
    have h₃₁ : f3 ≠ f1 := by
      rintro rfl
      simpa [path3] using hne (by simp) hlen.le hr3 hr1
    have h₂₁ : f2 ≠ f1 := by
      rintro rfl
      simpa [path3] using hne (by simp) hlen.le hr2 hr1
    simp [h₃₂, h₃₁, h₂₁]
  · refine (setLeaf_isTable pfn prot hinv hs hlen).mpr ?_
    simp only [mem_cons, not_mem_nil, or_false] at hf
    rcases hf with rfl | rfl | rfl
    · exact ⟨_, by simp, by simp, hr3⟩
    · exact ⟨_, by simp, by simp, hr2⟩
    · exact ⟨_, by simp [path3], hlen.le, hr1⟩
  · have huser : x < 2 ^ 47 := by
      simp only [pageSize] at hx
      omega
    rw [setLeaf_walk pfn prot hinv hs hlen hpfn huser (path4_page hx), hmapped]
    rfl
  · rw [setLeaf_walk_other pfn prot hinv hs hlen fun huser he => hx (page_eq_of_path4 huser hv he),
      hext.walk]

/-- The page numbers `lo ≤ k < lo + n` of a range as addresses. -/
def pagesFrom (vaddr lo n : Nat) : List Nat := (List.range' lo n).map fun k => vaddr + k * pageSize

theorem pagesFrom_succ (vaddr lo n : Nat) : pagesFrom vaddr lo (n + 1) =
    (vaddr + lo * pageSize) :: pagesFrom vaddr (lo + 1) n := by
  simp [pagesFrom, range'_succ]

theorem pagesFrom_add (vaddr lo k n : Nat) : pagesFrom vaddr lo (k + n) =
    pagesFrom vaddr lo k ++ pagesFrom vaddr (lo + k) n := by
  unfold pagesFrom
  rw [← map_append, range'_append_1]

/-- While the next `n` pages of a range are mapped, no counter of a table overflows. -/
def Room (kernel : Nat → Prop) (H : PageHeap) (root : Nat) (vs recs : List Nat)
    (vaddr lo n : Nat) : Prop :=
  ∀ k, k < n → ∀ (m : Machine H) (recs' : List Nat),
    Mapped kernel m root (vs ++ pagesFrom vaddr lo k) recs' →
    (∀ f, recs'.count f ≤ recs.count f + k) →
    RefsBelow m root recs' (pml4Index (vaddr + (lo + k) * pageSize))

theorem room_of_countP {vaddr lo n : Nat}
    (hcount : ∀ a, ((vs ++ pagesFrom vaddr lo n).countP fun v => pml4Index v = a) < H.refLimit) :
    Room kernel H root vs recs vaddr lo n := by
  intro k hk m recs' hm _
  refine hm.refsBelow (Nat.lt_of_le_of_lt ?_ (hcount (pml4Index (vaddr + (lo + k) * pageSize))))
  obtain ⟨j, rfl⟩ := Nat.exists_eq_add_of_lt hk
  rw [Nat.add_assoc k j 1, pagesFrom_add, pagesFrom_succ, ← append_assoc,
    @List.countP_append _ _ (vs ++ _), countP_cons_of_pos (by simp)]
  omega

theorem Mapped.mapPages {vaddr paddr maxBlocks n lo : Nat} {blocks blocks' : List Nat}
    (h : Mapped kernel m root vs recs) (hvaddr : vaddr + (lo + n) * pageSize ≤ 2 ^ 47)
    (hpaddr : paddr + (lo + n) * pageSize ≤ 2 ^ 52) (halign : paddr % pageSize = 0)
    (hroom : Room kernel H root vs recs vaddr lo n)
    (hmap : mapPages root vaddr paddr maxBlocks prot n lo blocks m = some (true, blocks', m')) :
    ∃ fs, blocks' = blocks ++ fs ∧
      Mapped kernel m' root (vs ++ pagesFrom vaddr lo n) (recs ++ fs) ∧ Frame root m m' ∧
      Records m'.onPtePtr root (pagesFrom vaddr lo n) fs ∧ (∀ f ∈ fs, IsTable m'.mem root f) ∧
      Remapped root prot vaddr paddr lo (lo + n) m m' := by
  induction n generalizing lo blocks m vs recs with
  | zero =>
    simp only [Machine.mapPages, some.injEq, Prod.mk.injEq, true_and] at hmap
    obtain ⟨rfl, rfl⟩ := hmap
    refine ⟨[], by simp, by simpa [pagesFrom] using h, Frame.refl root m, .nil, by simp,
      fun k hlo hhi => by omega, fun _ _ => rfl⟩
  | succ n ih =>
    have hbound : vaddr + lo * pageSize < 2 ^ 47 ∧ paddr + lo * pageSize < 2 ^ 52 := by
      simp only [pageSize] at hvaddr hpaddr ⊢
      omega
    have hvs : ∀ k, vs ++ pagesFrom vaddr lo (k + 1) =
        (vs ++ [vaddr + lo * pageSize]) ++ pagesFrom vaddr (lo + 1) k := fun k => by
      rw [pagesFrom_succ, append_assoc, singleton_append]
    have hfirst : RefsBelow m root recs (pml4Index (vaddr + lo * pageSize)) :=
      hroom 0 (Nat.succ_pos n) m recs (by simpa [pagesFrom] using h) fun _ => le_rfl
    simp only [Machine.mapPages, bind_eq_bind, bind_eq_some_iff,
      Nat.mod_eq_of_lt (Nat.lt_trans hbound.1 (by decide : 2 ^ 47 < 2 ^ 64)),
      Nat.mod_eq_of_lt (Nat.lt_trans hbound.2 (by decide : 2 ^ 52 < 2 ^ 64))] at hmap
    obtain ⟨w, hw, hmap⟩ := hmap
    rcases hpte : w.pte with _ | pte
    · simp [hpte] at hmap
    have hpfn : (paddr + lo * pageSize) / pageSize < 2 ^ 40 := by
      simp only [pageSize] at hbound ⊢
      omega
    obtain ⟨hhuge, hset, hmapped, hframe, hrec, hnodup, htab, hto, hwalk, hother⟩ :=
      h.mapPage hbound.1 hpfn hfirst hw hpte
    simp only [hpte, hhuge, Bool.false_eq_true, if_false, hset] at hmap
    split_ifs at hmap with hfull
    have hroom' : Room kernel H root (vs ++ [vaddr + lo * pageSize])
        (recs ++ recorded w.outBlocks) vaddr (lo + 1) n := by
      intro k hk m1 recs1 hm1 hcount
      rw [Nat.add_right_comm lo 1 k]
      refine hroom (k + 1) (by omega) m1 recs1 (hvs k ▸ hm1) fun f => (hcount f).trans ?_
      have := nodup_iff_count_le_one.mp hnodup f
      rw [count_append]
      omega
    obtain ⟨fs, hblocks, hmapped', hframe', hrecs', htab', hre⟩ := ih hmapped
      (by rw [Nat.add_right_comm]; exact hvaddr) (by rw [Nat.add_right_comm]; exact hpaddr)
      hroom' hmap
    have hpage : (vaddr + lo * pageSize) / pageSize = vaddr / pageSize + lo :=
      Nat.add_mul_div_right _ _ (by decide)
    refine ⟨recorded w.outBlocks ++ fs, ?_, ?_, hframe.trans hframe', ?_, fun f hf => ?_, ⟨?_, ?_⟩⟩
    · rw [hblocks, append_assoc]
    · rw [hvs, ← append_assoc recs]
      exact hmapped'
    · refine Records.append (hframe'.records hmapped.inv ?_ hrec) hrecs'
      exact fun f hf => mem_append_right _ hf
    · exact (mem_append.mp hf).elim (fun hf => hframe'.grow f (htab f hf)) (htab' f)
    · intro k hlo hhi x hx
      by_cases hk : k = lo
      · subst hk
        rw [hre.other x fun j hj _ => by omega, hwalk x (hx.trans hpage.symm)]
        congr 2
        simp only [pageSize] at halign ⊢
        omega
      · rw [hre.range k (by omega) (by omega) x hx, hto]
    · intro x hx
      rw [hre.other x fun k hlo hhi => hx k (by omega) (by omega),
        hother x (hpage ▸ hx lo le_rfl (by omega))]

end ShiziOS.Mm
