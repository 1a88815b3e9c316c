import ShiziOS.Mm.MmuUnmap

/-!
# Runs of one address space

Every sequence of successful `mmu_add_map` and `mmu_remove_map` calls on a new address
space. Mapping is exact in every state such a run reaches. Unmapping is not: it also
takes away the pages of other mappings that share an entry of the root with it. Nor are the
rights: a table keeps those of the mapping that it was made for. The kernel's addresses are
translated throughout as in its own tables.
-/

namespace ShiziOS.Mm

open Radix Machine List Option

variable {H : PageHeap} {m₀ m : Machine H} {pgd : Nat} {kernel : Nat → Prop}

namespace Tables

/-- One call. -/
inductive Step (s : Tables H) : Tables H → Prop
  | add {r : MapRequest} {s' : Tables H} : Add s r s' → Step s s'
  | remove {l₁ l₂ : List Mapping} {M : Mapping} {s' : Tables H} : s.maps = l₁ ++ M :: l₂ →
      s.removeMap l₁ M l₂ = some s' → Step s s'

/-- The states that runs from a new address space reach. -/
def Reaches (m : Machine H) (pgd : Nat) (s : Tables H) : Prop :=
  Relation.ReflTransGen Step ⟨m, pgd, []⟩ s

variable {s s' : Tables H} {r : MapRequest}

theorem Inv.step (h : Inv kernel s) (hstep : Step s s') : Inv kernel s' ∧ s'.pgd = s.pgd := by
  cases hstep with
  | add hadd =>
    obtain ⟨ptb, -, hpgd, -⟩ := addMap_eq_some hadd.result
    exact ⟨(h.add hadd).1, hpgd⟩
  | remove hmaps hres =>
    unfold removeMap at hres
    rcases h.mmuRemoveMap hmaps with ⟨-, m', hcall, hinv, -⟩ | ⟨-, hcall⟩
    · simp only [hcall] at hres
      cases hres
      exact ⟨hinv, rfl⟩
    · simp only [hcall] at hres
      cases hres

theorem reaches_inv (hready : Ready m₀) (hpgd : m₀.mmuAddPgd = (.ok pgd, m))
    (hrun : Reaches m pgd s) : Inv (KernelTable m₀) s ∧ s.pgd = pgd := by
  induction hrun with
  | refl => exact ⟨inv_mmuAddPgd hready hpgd (fun _ hf => hf) hready.kernel_used, rfl⟩
  | tail _ hstep ih =>
    obtain ⟨hinv, hroot⟩ := ih
    obtain ⟨hinv', hroot'⟩ := hinv.step hstep
    exact ⟨hinv', hroot'.trans hroot⟩

end Tables

/-! ## Mapping -/

/-- In every state of every run a further `mmu_add_map` translates page `i` of its range
to frame `i` of its frames and no other page differently, and every table page below
the root has as many references as there are records of it. -/
theorem mmu_add_map_exact {s s' : Tables H} {r : MapRequest} (hready : Ready m₀)
    (hpgd : m₀.mmuAddPgd = (.ok pgd, m)) (hrun : Tables.Reaches m pgd s)
    (hadd : Tables.Add s r s') :
    (∀ i, i < r.pages → ∀ o, o < pageSize →
      (hwWalk s'.machine.mem pgd (r.vaddr + i * pageSize + o)).map (·.paddr) =
        some (r.paddr + i * pageSize + o)) ∧
    (∀ va, ¬ r.Covers va → hwWalk s'.machine.mem pgd va = hwWalk s.machine.mem pgd va) ∧
    ∀ f, IsTable s'.machine.mem pgd f → (H.live s'.machine.heap f).map (·.refs) =
      some ((s'.maps.flatMap fun M => M.ptb.blocks).count f) := by
  obtain ⟨hinv, rfl⟩ := Tables.reaches_inv hready hpgd hrun
  obtain ⟨hinv', hre⟩ := hinv.add hadd
  obtain ⟨ptb, hcall, hroot, -⟩ := Tables.addMap_eq_some hadd.result
  obtain ⟨hva, -⟩ := mmuAddMap_ok hcall
  refine ⟨fun i hi o ho => ?_, fun va hva => ?_, fun f hf => ?_⟩
  · have hpage : (r.vaddr + i * pageSize + o) / pageSize = r.vaddr / pageSize + i := by
      simp only [pageSize] at hva ho ⊢
      omega
    have hoff : (r.vaddr + i * pageSize + o) % pageSize = o := by
      simp only [pageSize] at hva ho ⊢
      omega
    rw [hre.range i (Nat.zero_le _) hi _ hpage, hoff]
    rfl
  · exact hre.other va fun k _ hk hx => hva ⟨k, hk, hx⟩
  · rw [← hroot] at hf
    rw [(hinv'.inv.live f (hinv'.inv.recorded f hf)).1]
    rfl

/-- A machine over the simplest heap. Its kernel maps the last gigabyte with one huge page, through
the table in frame `2`. -/
def bareMachine : Machine PageHeap.bump where
  heap := ⟨16, fun _ => none⟩
  mem := fun w =>
    if w = 1023 then pteValue 2 false (vmRead ||| vmWrite)
    else if w = 1535 then pteValue 0x40000 true (vmRead ||| vmWrite) else 0
  onPtePtr := fun _ => none
  kernelPgd := 1

theorem bareMachine_reads {va w : Nat} (hw : w ∈ hwReads bareMachine.mem 1 va) : w / 512 = 2 := by
  have htop : pteIsValid (bareMachine.mem (512 + pml4Index va)) = false ∨
      ptePfn (bareMachine.mem (512 + pml4Index va)) = 2 := by
    have := pml4Index_lt va
    simp only [bareMachine]
    split_ifs
    · exact .inr (by decide)
    · omega
    · exact .inl (by decide)
  have hnext : pteIsValid (bareMachine.mem (1024 + pdptIndex va)) = false ∨
      pteIsHuge (bareMachine.mem (1024 + pdptIndex va)) = true := by
    simp only [bareMachine]
    split_ifs
    · omega
    · exact .inr (by decide)
    · exact .inl (by decide)
  simp only [hwReads, Nat.mul_one] at hw
  by_cases hstop : ¬ CanonicalAddr va ∨ pteIsValid (bareMachine.mem (512 + pml4Index va)) = false
  · rw [if_pos hstop] at hw
    cases hw
  · have hpfn := htop.resolve_left fun hinvalid => hstop (.inr hinvalid)
    have := pdptIndex_lt va
    simp only [if_neg hstop, hpfn, Nat.reduceMul, if_pos hnext, mem_singleton] at hw
    omega

theorem bareMachine_ready : Ready bareMachine := by
  refine ⟨⟨by decide, by decide, fun p b hb => ?_, fun p b p' b' q hb => ?_⟩,
    fun hav => absurd hav.1 (by decide), ?_⟩
  · cases hb
  · cases hb
  · rintro f ⟨va, -, w, hw, rfl⟩ hav
    rw [bareMachine_reads hw] at hav
    exact absurd hav.1 (by decide)

/-- Its first address space. -/
def bareTables : Tables PageHeap.bump := ⟨bareMachine.mmuAddPgd.2, 16, []⟩

theorem bareMachine_addPgd : bareMachine.mmuAddPgd = (.ok 16, bareTables.machine) := rfl

def page0 : MapRequest := ⟨0x400000, 0x100000, 1, vmRead ||| vmWrite ||| vmUser⟩
def page1 : MapRequest := ⟨0x401000, 0x101000, 1, vmRead ||| vmWrite ||| vmUser⟩

theorem countersFit_bump {maps : List Mapping} (h : (Tables.pages maps).length < 2 ^ 32) :
    Tables.CountersFit PageHeap.bump maps :=
  fun _ => Nat.lt_of_le_of_lt countP_le_length h

/-- The address space with the page mapped. -/
def onePage : Tables PageHeap.bump := (bareTables.addMap page0).get (by decide +kernel)

theorem onePage_maps : onePage.maps = [⟨page0, ⟨17, [18, 19, 20]⟩⟩] := by decide +kernel

theorem onePage_add : Tables.Add bareTables page0 onePage :=
  ⟨by decide, some_get _ |>.symm, countersFit_bump (by rw [onePage_maps]; decide)⟩

/-- The address space with the neighbour mapped as well, through the same tables. -/
def twoPages : Tables PageHeap.bump := (onePage.addMap page1).get (by decide +kernel)

theorem twoPages_maps :
    twoPages.maps = [⟨page0, ⟨17, [18, 19, 20]⟩⟩, ⟨page1, ⟨21, [18, 19, 20]⟩⟩] := by
  decide +kernel

theorem twoPages_add : Tables.Add onePage page1 twoPages :=
  ⟨by decide, some_get _ |>.symm, countersFit_bump (by rw [twoPages_maps]; decide)⟩

theorem mmu_add_map_exact_twoPages :
    (hwWalk twoPages.machine.mem 16 0x401010).map (·.paddr) = some 0x101010 ∧
    hwWalk twoPages.machine.mem 16 0x400010 = hwWalk onePage.machine.mem 16 0x400010 ∧
    (PageHeap.bump.live twoPages.machine.heap 20).map (·.refs) = some 2 := by
  obtain ⟨hrange, hother, hrefs⟩ := mmu_add_map_exact bareMachine_ready bareMachine_addPgd
    (.single (.add onePage_add)) twoPages_add
  refine ⟨hrange 0 (by decide) 0x10 (by decide), hother 0x400010 (by decide), ?_⟩
  rw [hrefs 20 ⟨[0, 0, 2], by decide, by decide +kernel⟩, twoPages_maps]
  rfl

/-! ## Unmapping -/

namespace Tables

/-- No two of the mappings have a page in common. -/
def Apart (maps : List Mapping) : Prop :=
  maps.Pairwise fun M N => ∀ va, ¬ (M.Covers va ∧ N.Covers va)

/-- `mmu_remove_map` of `M` returns, leaves the pages of `M` untranslated and every other
page as it was. -/
def RemovesExactly (s : Tables H) (M : Mapping) : Prop :=
  ∃ m', s.machine.mmuRemoveMap M.ptb = some (.ok (), m') ∧
    ∀ va, hwWalk m'.mem s.pgd va = if M.Covers va then none else hwWalk s.machine.mem s.pgd va

end Tables

/-- A page of another entry of the root. -/
def farPage : MapRequest := ⟨0x8000400000, 0x102000, 1, vmRead ||| vmUser⟩

/-- The first page and the far one. -/
def farPages : Tables PageHeap.bump := (onePage.addMap farPage).get (by decide +kernel)

theorem farPages_maps :
    farPages.maps = [⟨page0, ⟨17, [18, 19, 20]⟩⟩, ⟨farPage, ⟨21, [22, 23, 24]⟩⟩] := by
  decide +kernel

theorem farPages_add : Tables.Add onePage farPage farPages :=
  ⟨by decide, some_get _ |>.symm, countersFit_bump (by rw [farPages_maps]; decide)⟩

theorem farPages_root {va v : Nat} (hva : farPage.Covers va) (hv : page0.Covers v) :
    pml4Index va ≠ pml4Index v := by
  obtain ⟨k, hk, hx⟩ := hva
  obtain ⟨k', hk', hx'⟩ := hv
  simp only [farPage, page0, pageSize, pml4Index] at hk hx hk' hx' ⊢
  omega

theorem twoPages_apart : Tables.Apart twoPages.maps := by
  rw [twoPages_maps]
  refine pairwise_pair.mpr ?_
  rintro va ⟨⟨k, hk, hx⟩, k', hk', hx'⟩
  simp only [page0, page1, pageSize] at hk hx hk' hx'
  omega

/-- The rights are those of the protection. -/
def Translation.Grants (t : Translation) (prot : VmProt) : Prop :=
  t.writable = VmProt.has prot vmWrite ∧ t.user = VmProt.has prot vmUser ∧
    t.executable = VmProt.has prot vmExec

/-- The entry takes away none of the rights. -/
def VmProt.LeftBy (prot : VmProt) (e : Pte) : Prop :=
  (VmProt.has prot vmWrite → pteIsWritable e) ∧ (VmProt.has prot vmUser → pteIsUser e) ∧
    (VmProt.has prot vmExec → pteIsExecutable e)

instance (prot : VmProt) (e : Pte) : Decidable (prot.LeftBy e) := by
  unfold VmProt.LeftBy
  infer_instance

theorem mappedTo_grants_iff {mem : Nat → Pte} {root va paddr : Nat} {prot : VmProt} :
    (mappedTo mem root va prot paddr).Grants prot ↔
      ∀ e ∈ upperEntries mem root va, VmProt.LeftBy prot e := by
  simp only [Translation.Grants, VmProt.LeftBy, mappedTo, Bool.and_eq_left_iff_imp,
    List.all_eq_true]
  constructor
  · rintro ⟨hw, hu, hx⟩ e he
    exact ⟨fun hp => hw hp e he, fun hp => hu hp e he, fun hp => hx hp e he⟩
  · intro h
    exact ⟨fun hp e he => (h e he).1 hp, fun hp e he => (h e he).2.1 hp,
      fun hp e he => (h e he).2.2 hp⟩

namespace Tables

/-- The tables that are already there leave the pages of the request the rights it asks for. -/
def Leaves (s : Tables H) (r : MapRequest) : Prop :=
  ∀ va, r.Covers va → ∀ e ∈ upperEntries s.machine.mem s.pgd va, VmProt.LeftBy r.prot e

/-- Every mapped page has the rights of the last mapping that covers it. -/
def RightsExact (s : Tables H) : Prop :=
  ∀ l₁ M l₂ va, s.maps = l₁ ++ M :: l₂ → M.Covers va → (∀ N ∈ l₂, ¬ N.Covers va) →
    ∃ t, hwWalk s.machine.mem s.pgd va = some t ∧ t.Grants M.prot

/-- The states after calls of `mmu_add_map` that all find such tables. -/
def LeavesReaches (m : Machine H) (pgd : Nat) (s : Tables H) : Prop :=
  Relation.ReflTransGen (fun s s' => ∃ r, Add s r s' ∧ s.Leaves r) ⟨m, pgd, []⟩ s

variable {s s' : Tables H} {r : MapRequest}

/-- All pages of one page table have the same tables above them. -/
theorem leaves_of_block {v : Nat} (hblock : ∀ va, r.Covers va → va / 2 ^ 21 = v / 2 ^ 21)
    (hv : (upperEntries s.machine.mem s.pgd v).all fun e => r.prot.LeftBy e) : s.Leaves r := by
  intro va hva e he
  have hva := hblock va hva
  have h4 : pml4Index va = pml4Index v := by
    simp only [pml4Index]
    omega
  have h3 : pdptIndex va = pdptIndex v := by
    simp only [pdptIndex]
    omega
  have h2 : pdIndex va = pdIndex v := by rw [pdIndex, hva, pdIndex]
  rw [upperEntries, upperSlots, h4, h3, h2] at he
  exact of_decide_eq_true (List.all_eq_true.mp hv e he)

theorem Inv.add_grants_iff (h : Inv kernel s) (hadd : Add s r s') :
    (∀ va, r.Covers va → ∃ t, hwWalk s'.machine.mem s'.pgd va = some t ∧ t.Grants r.prot) ↔
      s.Leaves r := by
  obtain ⟨-, hre⟩ := h.add hadd
  obtain ⟨ptb, -, hpgd, -⟩ := addMap_eq_some hadd.result
  refine forall₂_congr fun va hcov => ?_
  obtain ⟨k, hk, hx⟩ := hcov
  rw [hpgd, hre.range k (Nat.zero_le _) hk va hx]
  simp only [some.injEq, exists_eq_left', mappedTo_grants_iff]

theorem Inv.add_rightsExact (h : Inv kernel s) (hs : s.RightsExact) (hadd : Add s r s')
    (hleaves : s.Leaves r) : s'.RightsExact := by
  obtain ⟨-, hre⟩ := h.add hadd
  obtain ⟨ptb, -, hpgd, hmaps⟩ := addMap_eq_some hadd.result
  intro l1 M l2 va hM hcov hlast
  rw [hmaps] at hM
  rcases eq_nil_or_concat' l2 with rfl | ⟨l, N, rfl⟩
  · -- the page belongs to the new mapping
    obtain rfl := (append_singleton_inj.mp hM).2
    exact (h.add_grants_iff hadd).mpr hleaves va hcov
  · rw [← cons_append, ← append_assoc, append_singleton_inj] at hM
    obtain ⟨hmaps', rfl⟩ := hM
    rw [hpgd, hre.other va fun k _ hk hx => hlast ⟨r, ptb⟩ (by simp) ⟨k, hk, hx⟩]
    exact hs l1 M l va hmaps' hcov fun N hN => hlast N (mem_append_left _ hN)

end Tables

/-- In every run of `mmu_add_map` calls that find only tables with the rights they ask for,
every mapped page has the rights of its mapping; and in every state that a run reaches, a
further call gives its pages their rights if and only if it finds such tables. -/
theorem mmu_rights_exact_iff {s : Tables H} (hready : Ready m₀)
    (hpgd : m₀.mmuAddPgd = (.ok pgd, m)) :
    (Tables.LeavesReaches m pgd s → s.RightsExact) ∧
      ∀ r s', Tables.Reaches m pgd s → Tables.Add s r s' →
        ((∀ va, r.Covers va → ∃ t, hwWalk s'.machine.mem s'.pgd va = some t ∧ t.Grants r.prot) ↔
          s.Leaves r) := by
  refine ⟨fun hrun => ?_, fun r s' hrun hadd => ?_⟩
  · suffices h : Tables.Inv (KernelTable m₀) s ∧ s.RightsExact from h.2
    induction hrun with
    | refl =>
      refine ⟨Tables.inv_mmuAddPgd hready hpgd (fun _ hf => hf) hready.kernel_used, ?_⟩
      intro l1 M l2 va hM
      cases l1 <;> cases hM
    | tail _ hstep ih =>
      obtain ⟨hinv, hexact⟩ := ih
      obtain ⟨r, hadd, hleaves⟩ := hstep
      exact ⟨(hinv.add hadd).1, hinv.add_rightsExact hexact hadd hleaves⟩
  · exact (Tables.reaches_inv hready hpgd hrun).1.add_grants_iff hadd

theorem bareTables_leaves : bareTables.Leaves page0 := by
  refine Tables.leaves_of_block (v := 0x400000) (fun va hva => ?_) (by decide +kernel)
  obtain ⟨k, hk, hx⟩ := hva
  simp only [page0, pageSize] at hk hx
  omega

theorem onePage_leaves : onePage.Leaves page1 := by
  refine Tables.leaves_of_block (v := 0x400000) (fun va hva => ?_) (by decide +kernel)
  obtain ⟨k, hk, hx⟩ := hva
  simp only [page1, pageSize] at hk hx
  omega

theorem mmu_rights_exact_iff_twoPages : twoPages.RightsExact ∧
    ∀ va, page1.Covers va → ∃ t, hwWalk twoPages.machine.mem twoPages.pgd va = some t ∧
      t.Grants page1.prot :=
  ⟨(mmu_rights_exact_iff bareMachine_ready bareMachine_addPgd).1
      (.tail (.single ⟨page0, onePage_add, bareTables_leaves⟩)
        ⟨page1, twoPages_add, onePage_leaves⟩),
    ((mmu_rights_exact_iff bareMachine_ready bareMachine_addPgd).2 page1 twoPages
      (.single (.add onePage_add)) twoPages_add).mpr onePage_leaves⟩

def readPage : MapRequest := ⟨0x400000, 0x100000, 1, vmRead ||| vmUser⟩

/-- The neighbour of a page that is not to be written cannot be written. -/
theorem mmu_rights_lost : ((bareTables.addMap readPage).bind fun s => s.addMap page1).map
    (fun s => (hwWalk s.machine.mem 16 0x401000).map (·.writable)) = some (some false) ∧
    VmProt.has page1.prot vmWrite = true := by
  decide +kernel

end ShiziOS.Mm
