import ShiziOS.Mm.Vma

/-!
# The set of areas

In order of their starts, each area of an address space ends at or before the next one
begins. From this the two searches of the tree see every overlap, and `vma_add`,
`vma_find` and `as_unmap` treat the areas as a set of disjoint intervals. Behind the last area
`as_alloc_addr` finds room.
-/

namespace ShiziOS.Mm.As

open SearchTree List Function

variable (rb : Ops Nat) {as as' : As} {p q a start stop : Nat}

/-- The area at `p` is a nonempty interval of whole pages. -/
structure AreaOk (as : As) (p : Nat) : Prop where
  start_aligned : pageSize ∣ (as.area p).start
  stop_aligned : pageSize ∣ (as.area p).stop
  nonempty : (as.area p).start < (as.area p).stop

structure Inv (as : As) : Prop where
  ordered : Ordered as.key as.vmaTree
  area_ok : ∀ {p}, p ∈ inorder as.vmaTree → as.AreaOk p
  apart : ∀ {p q}, p ∈ inorder as.vmaTree → q ∈ inorder as.vmaTree → p ≠ q →
    (as.area p).stop ≤ (as.area q).start ∨ (as.area q).stop ≤ (as.area p).start
  perm : as.vmaList.Perm (inorder as.vmaTree)

theorem Inv.mem_iff (h : as.Inv) : p ∈ as.vmaList ↔ p ∈ inorder as.vmaTree := h.perm.mem_iff

theorem Inv.separate (h : as.Inv) :
    (inorder as.vmaTree).Pairwise fun p q => (as.area p).stop ≤ (as.area q).start := by
  refine h.ordered.imp_of_mem fun {p q} hp hq hpq => ?_
  have hne : p ≠ q := fun he => by
    subst he
    exact lt_irrefl _ hpq
  have := h.apart hp hq hne
  have := (h.area_ok hq).nonempty
  simp only [key] at hpq
  omega

theorem stop_le_iff_last {l : List Nat} (hok : ∀ p ∈ l, as.AreaOk p)
    (hsep : l.Pairwise fun p q => (as.area p).stop ≤ (as.area q).start) :
    (∀ p, l.getLast? = some p → (as.area p).stop ≤ a) ↔ ∀ p ∈ l, (as.area p).stop ≤ a := by
  refine ⟨fun h p hp => ?_, fun h p hp => h p (mem_of_getLast? hp)⟩
  obtain ⟨x, hx⟩ : ∃ x, l.getLast? = some x := ⟨_, getLast?_eq_some_getLast (ne_nil_of_mem hp)⟩
  have hxa := h x hx
  obtain ⟨l', rfl⟩ := getLast?_eq_some_iff.mp hx
  rcases mem_append.mp hp with hp | hp
  · have hle := (pairwise_append.mp hsep).2.2 p hp x (mem_singleton_self x)
    have := (hok x (by simp)).nonempty
    omega
  · rwa [mem_singleton.mp hp]

/-- The interval meets no area. -/
def Disjoint (as : As) (start stop : Nat) : Prop :=
  ∀ p ∈ inorder as.vmaTree, stop ≤ (as.area p).start ∨ (as.area p).stop ≤ start

theorem Inv.disjoint_iff_next (h : as.Inv) {next : Nat} {before after : List Nat}
    (he : inorder as.vmaTree = before ++ next :: after) (hlt : start < stop)
    (hbefore : ∀ p ∈ before, as.key p < start) (hnext : start ≤ as.key next) :
    as.Disjoint start stop ↔ stop ≤ (as.area next).start ∧
      ∀ p, before.getLast? = some p → (as.area p).stop ≤ start := by
  have hmem : ∀ p, p ∈ inorder as.vmaTree ↔ p ∈ before ∨ p = next ∨ p ∈ after := by
    intro p
    rw [he, mem_append, mem_cons]
  have hsep := h.separate
  rw [he, pairwise_append, pairwise_cons] at hsep
  rw [stop_le_iff_last (fun p hp => h.area_ok ((hmem p).mpr (.inl hp))) hsep.1]
  have hn := (h.area_ok ((hmem next).mpr (.inr (.inl rfl)))).nonempty
  simp only [key] at hbefore hnext
  constructor
  · intro hd
    refine ⟨?_, fun p hp => ?_⟩
    · have := hd next ((hmem next).mpr (.inr (.inl rfl)))
      omega
    · have := hd p ((hmem p).mpr (.inl hp))
      have := hbefore p hp
      omega
  · rintro ⟨hn', hb⟩ p hp
    rcases (hmem p).mp hp with hp | rfl | hp
    · exact .inr (hb p hp)
    · exact .inl hn'
    · have := hsep.2.1.1 p hp
      omega

theorem Inv.disjoint_iff_last (h : as.Inv) (hlt : start < stop)
    (hall : ∀ p ∈ inorder as.vmaTree, as.key p < start) :
    as.Disjoint start stop ↔
      ∀ p, (inorder as.vmaTree).getLast? = some p → (as.area p).stop ≤ start := by
  rw [stop_le_iff_last (fun p hp => h.area_ok hp) h.separate]
  simp only [key] at hall
  refine forall₂_congr fun p hp => ?_
  have := hall p hp
  omega

theorem Inv.vmaCheck_iff (h : as.Inv) :
    as.vmaCheck start stop = .ok () ↔ start < stop ∧ pageSize ∣ start ∧ pageSize ∣ stop ∧
      as.Disjoint start stop := by
  simp only [vmaCheck, ne_eq, and_pageSize_eq_zero_iff, vmaRbFindGe]
  by_cases hlt : start < stop
  swap
  · simp [hlt, Nat.not_lt.mp hlt]
  by_cases hal : pageSize ∣ start ∧ pageSize ∣ stop
  swap
  · rw [if_neg (Nat.not_le.mpr hlt), if_pos (by tauto)]
    simp only [reduceCtorEq, false_iff]
    tauto
  rw [if_neg (Nat.not_le.mpr hlt), if_neg (by tauto)]
  simp only [hlt, hal, true_and]
  rcases hge : findGe as.key start none as.vmaTree with _ | next
  · rw [h.disjoint_iff_last hlt (findGe_none_eq_none h.ordered hge)]
    simp only [SearchTree.last]
    rcases (inorder as.vmaTree).getLast? with _ | x
    · simp
    · simp
  · obtain ⟨hnext, before, after, he, hbefore⟩ := findGe_none_eq_some h.ordered hge
    rw [h.disjoint_iff_next he hlt hbefore hnext]
    simp only [prev_eq h.ordered he]
    by_cases hov : (as.area next).start < stop
    · simp [hov]
    · rw [if_neg hov]
      simp only [Nat.not_lt.mp hov, true_and]
      rcases before.getLast? with _ | x
      · simp
      · simp

/-! ## Adding an area -/

variable {prot : VmProt} {flags : Nat}

theorem vmaAdd_eq_ok {alloc : Option Nat}
    (hs : as.vmaAdd rb start stop prot flags alloc = .ok as') :
    as.vmaCheck start stop = .ok () ∧
      ∃ vma, alloc = some vma ∧ as.vmaInsert rb vma start stop prot flags = .ok as' := by
  unfold vmaAdd at hs
  rcases hc : as.vmaCheck start stop with _ | _
  · simp [hc] at hs
  · rcases alloc with _ | vma
    · simp [hc] at hs
    · simp only [hc] at hs
      exact ⟨rfl, vma, rfl, hs⟩

theorem area_update {v : Vma} (hp : p ∉ inorder as.vmaTree) (hq : q ∈ inorder as.vmaTree) :
    update as.area p v q = as.area q := by
  refine update_of_ne ?_ v as.area
  rintro rfl
  exact hp hq

theorem Inv.vmaInsert_eq (h : as.Inv) (hp : p ∉ inorder as.vmaTree) (prot : VmProt) (flags : Nat)
    (hlt : start < stop) (hd : as.Disjoint start stop) :
    ∃ as' : As, as.vmaInsert rb p start stop prot flags = .ok as' ∧
      as'.area = update as.area p (newVma start stop prot flags) ∧
      as'.vmaList = as.vmaList ++ [p] ∧
      as'.vmaTree = rb.insert as'.key p as.vmaTree ∧ Ordered as'.key as.vmaTree ∧
      ∀ q ∈ inorder as.vmaTree, as'.key q ≠ as'.key p := by
  have hkey : ∀ q ∈ inorder as.vmaTree,
      (update as.area p (newVma start stop prot flags) q).start = as.key q := by
    intro q hq
    rw [area_update hp hq]
    rfl
  have hfresh : ∀ q ∈ inorder as.vmaTree, as.key q ≠ start := by
    intro q hq
    have := hd q hq
    have := (h.area_ok hq).nonempty
    simp only [key]
    omega
  refine ⟨{ as with
    area := update as.area p (newVma start stop prot flags)
    vmaTree := rb.insert
      (fun q => (update as.area p (newVma start stop prot flags) q).start) p as.vmaTree
    vmaList := as.vmaList ++ [p] }, ?_, rfl, rfl, rfl, ?_, ?_⟩
  · rw [vmaInsert, if_neg]
    · rfl
    · simp only [any_eq_true, beq_iff_eq, not_exists, not_and]
      exact fun q hq he => hfresh q hq ((hkey q hq).symm.trans he)
  · refine h.ordered.imp_of_mem fun {x y} hx hy hxy => ?_
    simp only [key]
    rwa [hkey x hx, hkey y hy]
  · intro q hq
    simp only [key]
    rw [hkey q hq, update_self]
    exact hfresh q hq

theorem Inv.vmaInsert (h : as.Inv) (hp : p ∉ as.vmaList) (hcheck : as.vmaCheck start stop = .ok ())
    (hs : as.vmaInsert rb p start stop prot flags = .ok as') : as'.Inv := by
  obtain ⟨hlt, hal, hal', hd⟩ := h.vmaCheck_iff.mp hcheck
  rw [h.mem_iff] at hp
  obtain ⟨t, ht, harea, hlist, htree, hord, hne⟩ := h.vmaInsert_eq rb hp prot flags hlt hd
  rw [hs] at ht
  cases ht
  have hmem : ∀ q, q ∈ inorder as'.vmaTree ↔ q = p ∨ q ∈ inorder as.vmaTree := by
    intro q
    rw [htree, rb.mem_insert hord hne]
  have hnew : as'.area p = newVma start stop prot flags := by rw [harea, update_self]
  have hold : ∀ q ∈ inorder as.vmaTree, as'.area q = as.area q := by
    intro q hq
    rw [harea, area_update hp hq]
  refine ⟨htree ▸ rb.ordered_insert hord hne, fun {q} hq => ?_, fun {x y} hx hy hxy => ?_, ?_⟩
  · rcases (hmem q).mp hq with rfl | hq
    · exact ⟨by rw [hnew]; exact hal, by rw [hnew]; exact hal', by rw [hnew]; exact hlt⟩
    · have hok := h.area_ok hq
      exact ⟨by rw [hold q hq]; exact hok.start_aligned, by rw [hold q hq]; exact hok.stop_aligned,
        by rw [hold q hq]; exact hok.nonempty⟩
  · rcases (hmem x).mp hx with rfl | hx <;> rcases (hmem y).mp hy with rfl | hy
    · exact absurd rfl hxy
    · rw [hnew, hold y hy]
      exact hd y hy
    · rw [hnew, hold x hx]
      exact (hd x hx).symm
    · rw [hold x hx, hold y hy]
      exact h.apart hx hy hxy
  · rw [hlist, htree, rb.inorder_insert hord hne]
    exact (perm_append_singleton p as.vmaList).trans
      ((h.perm.cons p).trans (perm_orderedInsert _ p _).symm)

theorem Inv.vmaAdd (h : as.Inv) {alloc : Option Nat} (hfresh : ∀ p, alloc = some p → p ∉ as.vmaList)
    (hs : as.vmaAdd rb start stop prot flags alloc = .ok as') : as'.Inv := by
  obtain ⟨hcheck, p, hp, hins⟩ := vmaAdd_eq_ok rb hs
  exact h.vmaInsert rb (hfresh p hp) hcheck hins

/-- With memory for the area, `vma_add` succeeds exactly on the aligned, nonempty
intervals that meet no area. -/
theorem Inv.vmaAdd_isOk_iff (h : as.Inv) (prot : VmProt) (flags : Nat) (hp : p ∉ as.vmaList) :
    (∃ as', as.vmaAdd rb start stop prot flags (some p) = .ok as') ↔
      start < stop ∧ pageSize ∣ start ∧ pageSize ∣ stop ∧ as.Disjoint start stop := by
  rw [← h.vmaCheck_iff]
  constructor
  · rintro ⟨as', hs⟩
    exact (vmaAdd_eq_ok rb hs).1
  · intro hcheck
    obtain ⟨hlt, -, -, hd⟩ := h.vmaCheck_iff.mp hcheck
    rw [h.mem_iff] at hp
    obtain ⟨as', hs, -⟩ := h.vmaInsert_eq rb hp prot flags hlt hd
    refine ⟨as', ?_⟩
    rw [As.vmaAdd, hcheck]
    exact hs

/-! ## Finding and removing -/

theorem Inv.vmaFind_eq_some_iff (h : as.Inv) :
    as.vmaFind a = some p ↔
      p ∈ as.vmaList ∧ (as.area p).start ≤ a ∧ a < (as.area p).stop := by
  rw [h.mem_iff, vmaFind, vmaRbFindLe]
  rcases hle : findLe as.key a none as.vmaTree with _ | x
  · have hall := findLe_none_eq_none h.ordered hle
    simp only [reduceCtorEq, false_iff, not_and]
    intro hp hpa
    exact absurd hpa (Nat.not_le.mpr (hall p hp))
  · obtain ⟨hxa, hx, hmax⟩ := findLe_none_eq_some h.ordered hle
    simp only [key] at hxa hmax
    constructor
    · intro hs
      simp only [Option.ite_none_right_eq_some, Option.some.injEq] at hs
      obtain ⟨ha, rfl⟩ := hs
      exact ⟨hx, hxa, ha⟩
    · rintro ⟨hp, hpa, hap⟩
      -- the area found starts last at or before the address, so it is the one around it
      have hpx : p = x := by
        by_contra hne
        have := h.apart hp hx hne
        have := hmax p hp hpa
        have := (h.area_ok hx).nonempty
        omega
      subst hpx
      simp only [if_pos hap]

theorem Inv.vmaRemove (h : as.Inv) (hp : p ∈ as.vmaList)
    (hs : as.vmaRemove rb p = .ok as') : as'.Inv := by
  have hpt := h.mem_iff.mp hp
  simp only [As.vmaRemove] at hs
  split_ifs at hs
  cases hs
  have hmem : ∀ q, q ∈ inorder (rb.remove as.key p as.vmaTree) → q ∈ inorder as.vmaTree :=
    fun q hq => ((rb.mem_remove h.ordered hpt).mp hq).2
  refine ⟨rb.ordered_remove h.ordered hpt, fun hq => ?_,
    fun hx hy hxy => h.apart (hmem _ hx) (hmem _ hy) hxy, ?_⟩
  · have hok := h.area_ok (hmem _ hq)
    exact ⟨hok.start_aligned, hok.stop_aligned, hok.nonempty⟩
  · show (as.vmaList.erase p).Perm (inorder (rb.remove as.key p as.vmaTree))
    rw [rb.inorder_remove h.ordered hpt]
    exact h.perm.erase p

theorem asCreate_inv (pgd : Nat) : (asCreate pgd).Inv :=
  ⟨List.Pairwise.nil, by simp [asCreate, inorder], by simp [asCreate, inorder], List.Perm.nil⟩

/-! ## Runs -/

/-- A call on the areas of an address space; `alloc` is the outcome of `kheap_alloc`. -/
inductive Call where
  | add (start stop : Nat) (prot : VmProt) (flags : Nat) (alloc : Option Nat)
  | remove (vma : Nat)
  | allocAddr (size : Nat)
  | unmap (addr : Nat)

/-- The heap hands out memory that is not in use, and `vma_remove` is given an area
of the address space or `NULL`. -/
def Ok (as : As) : Call → Prop
  | .add _ _ _ _ alloc => ∀ p, alloc = some p → p ∉ as.vmaList
  | .remove vma => vma = 0 ∨ vma ∈ as.vmaList
  | .allocAddr _ => True
  | .unmap _ => True

/-- The state after a call. A call that returns an error changes nothing. -/
def step (as : As) : Call → As
  | .add start stop prot flags alloc =>
    match as.vmaAdd rb start stop prot flags alloc with
    | .ok as' => as'
    | .error _ => as
  | .remove vma =>
    match as.vmaRemove rb vma with
    | .ok as' => as'
    | .error _ => as
  | .allocAddr _ => as
  | .unmap addr =>
    match as.asUnmap rb addr with
    | .ok as' => as'
    | .error _ => as

/-- The address spaces after any sequence of calls on a fresh one. -/
def Reaches (pgd : Nat) (as : As) : Prop :=
  Relation.ReflTransGen (fun as as' => ∃ c, as.Ok c ∧ as' = as.step rb c) (asCreate pgd) as

theorem Inv.step (h : as.Inv) {c : Call} (hok : as.Ok c) : (as.step rb c).Inv := by
  cases c with
  | add start stop prot flags alloc =>
    rw [As.step]
    rcases hs : as.vmaAdd rb start stop prot flags alloc with _ | as'
    · exact h
    · exact h.vmaAdd rb hok hs
  | remove vma =>
    rw [As.step]
    rcases hs : as.vmaRemove rb vma with _ | as'
    · exact h
    · rcases hok with rfl | hmem
      · simp [As.vmaRemove] at hs
      · exact h.vmaRemove rb hmem hs
  | allocAddr size => exact h
  | unmap addr =>
    rw [As.step, As.asUnmap]
    rcases hf : as.vmaFind addr with _ | vma
    · exact h
    · rcases hs : as.vmaRemove rb vma with _ | as'
      · simpa only [hs] using h
      · simpa only [hs] using h.vmaRemove rb (h.vmaFind_eq_some_iff.mp hf).1 hs

theorem reaches_inv {pgd : Nat} (hreach : Reaches rb pgd as) : as.Inv := by
  induction hreach with
  | refl => exact asCreate_inv pgd
  | tail _ hstep ih =>
    obtain ⟨c, hok, rfl⟩ := hstep
    exact ih.step rb hok

/-- The areas of every reachable address space are aligned, nonempty and pairwise
disjoint, and the list and the tree hold the same ones, each once. `vma_add` succeeds
exactly where a new area fits, and `vma_find` finds exactly the area around an
address. -/
theorem areas_exact {pgd : Nat} (hreach : Reaches rb pgd as) :
    (∀ p ∈ as.vmaList, pageSize ∣ (as.area p).start ∧ pageSize ∣ (as.area p).stop ∧
      (as.area p).start < (as.area p).stop) ∧
    (∀ p ∈ as.vmaList, ∀ q ∈ as.vmaList, p ≠ q →
      (as.area p).stop ≤ (as.area q).start ∨ (as.area q).stop ≤ (as.area p).start) ∧
    (as.vmaList.Nodup ∧ (inorder as.vmaTree).Nodup ∧
      ∀ p, p ∈ as.vmaList ↔ p ∈ inorder as.vmaTree) ∧
    (∀ start stop prot flags p, p ∉ as.vmaList →
      ((∃ as', as.vmaAdd rb start stop prot flags (some p) = .ok as') ↔
        start < stop ∧ pageSize ∣ start ∧ pageSize ∣ stop ∧
          ∀ q ∈ as.vmaList, stop ≤ (as.area q).start ∨ (as.area q).stop ≤ start)) ∧
    ∀ a p, as.vmaFind a = some p ↔
      p ∈ as.vmaList ∧ (as.area p).start ≤ a ∧ a < (as.area p).stop := by
  have h := reaches_inv rb hreach
  refine ⟨fun p hp => ?_, fun p hp q hq hne => ?_, ⟨?_, h.ordered.nodup, fun p => h.mem_iff⟩,
    fun start stop prot flags p hp => ?_, fun a p => h.vmaFind_eq_some_iff⟩
  · have hok := h.area_ok (h.mem_iff.mp hp)
    exact ⟨hok.start_aligned, hok.stop_aligned, hok.nonempty⟩
  · exact h.apart (h.mem_iff.mp hp) (h.mem_iff.mp hq) hne
  · exact h.perm.nodup_iff.mpr h.ordered.nodup
  · rw [h.vmaAdd_isOk_iff rb prot flags hp]
    simp only [Disjoint, h.mem_iff]

/-- Two areas with a hole of one page between them. -/
def twoAreas : As :=
  ((asCreate 1).step spineOps (.add 0x400000 0x402000 vmRead 0 (some 7))).step spineOps
    (.add 0x403000 0x404000 vmWrite 0 (some 9))

theorem twoAreas_reaches : Reaches spineOps 1 twoAreas :=
  (Relation.ReflTransGen.single ⟨.add 0x400000 0x402000 vmRead 0 (some 7),
    fun p hp => not_mem_nil, rfl⟩).tail
    ⟨.add 0x403000 0x404000 vmWrite 0 (some 9), by rintro p ⟨⟩; decide +kernel, rfl⟩

theorem areas_exact_twoAreas : twoAreas.vmaList = [7, 9] ∧
    ∃ as', twoAreas.vmaAdd spineOps 0x402000 0x403000 vmExec 0 (some 11) = .ok as' := by
  have hlist : twoAreas.vmaList = [7, 9] := by decide +kernel
  refine ⟨hlist, ((areas_exact spineOps twoAreas_reaches).2.2.2.1 0x402000 0x403000 vmExec 0 11
    (by rw [hlist]; decide)).mpr ?_⟩
  rw [hlist]
  decide +kernel

/-- While the last area ends in the user half, a new one fits where `as_alloc_addr` places it,
and ends below the top of the stack. -/
theorem alloc_addr_fits {pgd n : Nat} (hreach : Reaches rb pgd as)
    (huser : ∀ p ∈ as.vmaFindEnd, (as.area p).stop ≤ 2 ^ 47) (hn : n ≤ 2 ^ 35)
    (hfound : as.asAllocAddr (n * pageSize) = start) (hne : start ≠ 0) :
    as.vmaCheck start (start + n * pageSize) = .ok () ∧ start + n * pageSize ≤ userStackTop := by
  have h := reaches_inv rb hreach
  rw [h.vmaCheck_iff]
  simp only [asAllocAddr, pageSize, userStart, userStackTop] at hfound ⊢
  have hplace : 0 < n ∧ 4096 ∣ start ∧ start + n * 4096 ≤ 0x7FFFFF000000 ∧
      ∀ p ∈ as.vmaFindEnd, (as.area p).stop ≤ start := by
    cases hlast : as.vmaFindEnd <;> simp only [hlast] at hfound huser ⊢ <;>
      split_ifs at hfound <;> simp_all <;> omega
  have hbelow := (stop_le_iff_last (fun _ => h.area_ok) h.separate).mp hplace.2.2.2
  exact ⟨⟨by omega, hplace.2.1, by omega, fun p hp => .inr (hbelow p hp)⟩, hplace.2.2.1⟩

theorem alloc_addr_fits_twoAreas : twoAreas.asAllocAddr (3 * pageSize) = 0x405000 ∧
    twoAreas.vmaCheck 0x405000 (0x405000 + 3 * pageSize) = .ok () ∧
    0x405000 + 3 * pageSize ≤ userStackTop := by
  have hfound : twoAreas.asAllocAddr (3 * pageSize) = 0x405000 := by decide +kernel
  have hlast : twoAreas.vmaFindEnd = some 9 := by decide +kernel
  refine ⟨hfound, alloc_addr_fits spineOps twoAreas_reaches ?_ (by decide) hfound (by decide)⟩
  rw [hlast]
  rintro p ⟨⟩
  decide +kernel

end ShiziOS.Mm.As
