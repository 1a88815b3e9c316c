import ShiziOS.Mm.MmuMap

/-!
# Address spaces and their mappings

The tables below one page global directory together with the mappings that are in
place. `mmu_add_pgd` makes an address space without mappings, and a successful
`mmu_add_map` adds one.
-/

namespace ShiziOS.Mm

open Radix Machine List Option Function Nat

/-- The arguments of `mmu_add_map`. -/
structure MapRequest where
  vaddr : Nat
  paddr : Nat
  pages : Nat
  prot : VmProt
deriving DecidableEq

/-- A mapping that is in place, with the array that `mmu_add_map` filled. -/
structure Mapping extends MapRequest where
  ptb : PageTableBlocks
deriving DecidableEq

/-- An address space and its mappings. -/
structure Tables (H : PageHeap) where
  machine : Machine H
  pgd : Nat
  maps : List Mapping

namespace MapRequest

def pageList (r : MapRequest) : List Nat := pagesFrom r.vaddr 0 r.pages

/-- The range lies in the user half, and the frames below `2 ^ 52`. -/
def Fits (r : MapRequest) : Prop :=
  r.vaddr + r.pages * pageSize ≤ 2 ^ 47 ∧ r.paddr + r.pages * pageSize ≤ 2 ^ 52

instance (r : MapRequest) : Decidable r.Fits := by
  unfold Fits
  infer_instance

/-- The address lies in a page of the range. -/
def Covers (r : MapRequest) (va : Nat) : Prop :=
  ∃ k, k < r.pages ∧ va / pageSize = r.vaddr / pageSize + k

instance (r : MapRequest) (va : Nat) : Decidable (r.Covers va) := by
  unfold Covers
  infer_instance

theorem covers_iff (r : MapRequest) (va : Nat) :
    r.Covers va ↔ ∃ v ∈ r.pageList, va / pageSize = v / pageSize := by
  have hpage : ∀ k, (r.vaddr + k * pageSize) / pageSize = r.vaddr / pageSize + k := fun k =>
    add_mul_div_right _ _ (by decide)
  simp only [Covers, pageList, pagesFrom, List.mem_map, List.mem_range'_1, zero_add,
    zero_le, true_and, exists_exists_and_eq_and, hpage]

end MapRequest

variable {H : PageHeap} {m m' : Machine H} {kernel : Nat → Prop}

/-- Blocks that are out with one reference and are not tables: the arrays of the
mappings. -/
structure ArraysOk (kernel : Nat → Prop) (m : Machine H) (root : Nat) (recs arrays : List Nat) :
    Prop where
  live : ∀ a ∈ arrays, ∃ n, H.live m.heap a = some ⟨n, 1⟩ ∧ ∀ q, a ≤ q → q < a + n → ¬ kernel q
  not_table : ∀ a ∈ arrays, a ≠ root ∧ a ∉ recs
  nodup : arrays.Nodup

namespace Tables

def pages (maps : List Mapping) : List Nat := maps.flatMap fun M => M.pageList

/-- Every record in the arrays of the mappings. -/
def recs (maps : List Mapping) : List Nat := maps.flatMap fun M => M.ptb.blocks

/-- No table page is recorded more often than its counter can hold: under each entry of
the root there are fewer pages than that. -/
def CountersFit (H : PageHeap) (maps : List Mapping) : Prop :=
  ∀ a, ((pages maps).countP fun v => pml4Index v = a) < H.refLimit

/-- The state after a call of `mmu_add_map` that returns `0`. -/
def addMap (s : Tables H) (r : MapRequest) : Option (Tables H) :=
  match s.machine.mmuAddMap s.pgd r.vaddr r.paddr r.pages r.prot with
  | some (.ok ptb, m) => some ⟨m, s.pgd, s.maps ++ [⟨r, ptb⟩]⟩
  | _ => none

/-- The state after a call of `mmu_remove_map` for the mapping between `l₁` and `l₂`. -/
def removeMap (s : Tables H) (l₁ : List Mapping) (M : Mapping) (l₂ : List Mapping) :
    Option (Tables H) :=
  match s.machine.mmuRemoveMap M.ptb with
  | some (.ok (), m) => some ⟨m, s.pgd, l₁ ++ l₂⟩
  | _ => none

/-- A successful call of `mmu_add_map` on a range of the user half. -/
structure Add (s : Tables H) (r : MapRequest) (s' : Tables H) : Prop where
  fits : r.Fits
  result : s.addMap r = some s'
  counters : CountersFit H s'.maps

theorem addMap_eq_some {s s' : Tables H} {r : MapRequest} (h : s.addMap r = some s') :
    ∃ ptb, s.machine.mmuAddMap s.pgd r.vaddr r.paddr r.pages r.prot =
      some (.ok ptb, s'.machine) ∧ s'.pgd = s.pgd ∧ s'.maps = s.maps ++ [⟨r, ptb⟩] := by
  unfold addMap at h
  split at h
  · rename_i ptb m hcall
    cases h
    exact ⟨ptb, hcall, rfl, rfl⟩
  · cases h

/-- The tables agree with the mappings: the arrays record the tables of every page, and
what is translated was mapped. -/
structure Inv (kernel : Nat → Prop) (s : Tables H) : Prop where
  inv : TableInv kernel s.machine s.pgd (recs s.maps)
  fits : ∀ M ∈ s.maps, M.Fits
  records : ∀ M ∈ s.maps, Records s.machine.onPtePtr s.pgd M.pageList M.ptb.blocks
  walk : ∀ va t, va < 2 ^ 47 → hwWalk s.machine.mem s.pgd va = some t →
    ∃ M ∈ s.maps, ∃ k, k < M.pages ∧ va / pageSize = M.vaddr / pageSize + k ∧
      t.paddr = M.paddr + k * pageSize + va % pageSize
  arrays : ArraysOk kernel s.machine s.pgd (recs s.maps) (s.maps.map (·.ptb.array))

end Tables

/-! ## A new address space -/

/-- The frames of the tables that the upper half of `kernel_pgd` leads to. -/
def KernelTable (m : Machine H) (f : Nat) : Prop :=
  ∃ va, 2 ^ 47 ≤ va ∧ ∃ w ∈ hwReads m.mem m.kernelPgd va, w / 512 = f

/-- The state after boot: the kernel's tables are not free. -/
structure Ready (m : Machine H) : Prop where
  heap : H.Inv m.heap
  kernelPgd_used : ¬ H.avail m.heap m.kernelPgd
  kernel_used : ∀ f, KernelTable m f → ¬ H.avail m.heap f

theorem mmuAddPgd_ok {pgd : Nat} (h : m.mmuAddPgd = (.ok pgd, m')) :
    ∃ m1, m.kheapAlloc pageSize = (some pgd, m1) ∧ m' = { m1 with mem := m'.mem } ∧
      m'.mem = fun w =>
        if 512 * pgd + 256 ≤ w ∧ w < 512 * pgd + 512 then
          zeroFrames m1.mem pgd 1 (512 * m.kernelPgd + (w - 512 * pgd))
        else zeroFrames m1.mem pgd 1 w := by
  unfold mmuAddPgd at h
  rcases ha : m.kheapAlloc pageSize with ⟨_ | p, m1⟩
  · simp [ha] at h
  · have hk : m1.kernelPgd = m.kernelPgd := by
      unfold kheapAlloc at ha
      split at ha <;> simp only [Prod.mk.injEq] at ha <;> rw [← ha.2]
    simp only [ha] at h
    cases h
    exact ⟨m1, rfl, rfl, by simp only [hk]⟩

section AddPgd

variable {pgd : Nat} (hready : Ready m) (h : m.mmuAddPgd = (.ok pgd, m'))
include hready h

theorem mmuAddPgd_entry {j : Nat} (hj : j < 512) : m'.mem (512 * pgd + j) =
    if j < 256 then 0 else m.mem (512 * m.kernelPgd + j) := by
  obtain ⟨m1, ha, -, hmem⟩ := mmuAddPgd_ok h
  obtain ⟨hal, -, -, hold, -⟩ := kheapAlloc_spec hready.heap ha
  have hfresh : H.avail m.heap pgd := (H.alloc_some hready.heap hal).2.2.1 pgd le_rfl
    (Nat.lt_add_of_pos_right (H.pagesFor_pos _))
  have hne : m.kernelPgd ≠ pgd := fun he => hready.kernelPgd_used (he ▸ hfresh)
  rw [hmem]
  dsimp only
  split_ifs with h1 h2 h2
  · omega
  · rw [show 512 * pgd + j - 512 * pgd = j by omega, zeroFrames, if_neg (by omega)]
    refine hold _ ?_
    rw [show (512 * m.kernelPgd + j) / 512 = m.kernelPgd by omega]
    exact hready.kernelPgd_used
  · rw [zeroFrames, if_pos (by omega)]
  · omega

theorem mmuAddPgd_other {w : Nat} (hw : ¬ H.avail m.heap (w / 512)) : m'.mem w = m.mem w := by
  obtain ⟨m1, ha, -, hmem⟩ := mmuAddPgd_ok h
  obtain ⟨hal, -, -, hold, -⟩ := kheapAlloc_spec hready.heap ha
  have hfresh : H.avail m.heap pgd := (H.alloc_some hready.heap hal).2.2.1 pgd le_rfl
    (Nat.lt_add_of_pos_right (H.pagesFor_pos _))
  have hne : w / 512 ≠ pgd := fun he => hw (he ▸ hfresh)
  rw [hmem]
  dsimp only
  rw [if_neg (by omega), zeroFrames, if_neg (by omega), hold w hw]

theorem mmuAddPgd_reach {q : List Nat} (hq : q ≠ []) : reach m'.mem pgd q = none := by
  cases q with
  | nil => exact absurd rfl hq
  | cons i q =>
    have hnext : tableNext m'.mem pgd pgd i = none := by
      unfold tableNext
      rw [if_neg]
      rintro ⟨hi, hlow, hv⟩
      rw [mmuAddPgd_entry hready h hi, if_pos (by by_contra hge; exact hlow ⟨rfl, by omega⟩)] at hv
      simp at hv
    unfold reach
    rw [follow_cons, hnext]
    rfl

theorem mmuAddPgd_kernel {va : Nat} (hva : 2 ^ 47 ≤ va) :
    hwWalk m'.mem pgd va = hwWalk m.mem m.kernelPgd va ∧
      hwReads m'.mem pgd va = hwReads m.mem m.kernelPgd va := by
  apply hwWalk_congr
  · intro hcanon
    have hidx : ¬ pml4Index va < 256 := by
      unfold CanonicalAddr at hcanon
      unfold pml4Index
      omega
    rw [mmuAddPgd_entry hready h (pml4Index_lt va), if_neg hidx]
  · intro w hw
    exact mmuAddPgd_other hready h (hready.kernel_used _ ⟨va, hva, w, hw, rfl⟩)

theorem mmuAddPgd_inv (hsub : ∀ f, KernelTable m f → kernel f)
    (hused : ∀ f, kernel f → ¬ H.avail m.heap f) : TableInv kernel m' pgd [] := by
  obtain ⟨m1, ha, hm', -⟩ := mmuAddPgd_ok h
  have hheap : m'.heap = m1.heap := congrArg (·.heap) hm'
  obtain ⟨hal, -⟩ := kheapAlloc_spec hready.heap ha
  obtain ⟨hinv, hlive, hblock, hshrink⟩ := H.alloc_some hready.heap hal
  have hfresh : H.avail m.heap pgd := hblock pgd le_rfl (Nat.lt_add_of_pos_right (H.pagesFor_pos _))
  have hroot : H.live m'.heap pgd = some ⟨1, 1⟩ := by
    rw [hheap, hlive, update_self, show H.pagesFor pageSize = 1 from H.pagesFor_page]
  have hnil : ∀ {q f}, reach m'.mem pgd q = some f → q = [] := by
    intro q f hf
    by_contra hq
    rw [mmuAddPgd_reach hready h hq] at hf
    cases hf
  refine ⟨hheap ▸ hinv, hroot, by simp, fun hk => hused _ hk hfresh,
    ⟨fun q r f _ _ hf hf' => ?_, fun q g i hq _ hg _ => ?_⟩, fun f hf => ?_, fun f hf => ?_,
    fun q i g f _ _ hf => ?_, fun f hf hav => ?_, fun va hva w hw => ?_⟩
  · rw [hnil hf, hnil hf']
  · exact absurd (hnil hg) hq
  · obtain ⟨q, hq, -, hf⟩ := hf
    exact absurd (hnil hf) hq
  · cases hf
  · exact absurd (hnil hf) (by simp)
  · rw [hheap] at hav
    exact hused f hf (hshrink f hav)
  · refine hsub _ ⟨va, hva, w, ?_, rfl⟩
    rwa [(mmuAddPgd_kernel hready h hva).2] at hw

theorem Tables.inv_mmuAddPgd (hsub : ∀ f, KernelTable m f → kernel f)
    (hused : ∀ f, kernel f → ¬ H.avail m.heap f) : Tables.Inv kernel ⟨m', pgd, []⟩ := by
  have hinv := mmuAddPgd_inv hready h hsub hused
  refine ⟨hinv, by simp, by simp, fun va t hva ht => ?_, by simp, by simp, by simp⟩
  have hwalk := hinv.shape.hwWalk_paddr hva
  rw [mmuAddPgd_reach hready h (by simp [path4]), map_none, map_eq_none_iff] at hwalk
  rw [hwalk] at ht
  cases ht

end AddPgd

/-! ## A new mapping -/

theorem mmuAddMap_ok {pgd vaddr paddr n : Nat} {prot : VmProt} {ptb : PageTableBlocks}
    (h : m.mmuAddMap pgd vaddr paddr n prot = some (.ok ptb, m')) :
    pageSize ∣ vaddr ∧ pageSize ∣ paddr ∧
      ∃ m1, m.kheapAlloc (n * 3 % 2 ^ 64 * 8 % 2 ^ 64) = (some ptb.array, m1) ∧
        mapPages pgd vaddr paddr (n * 3 % 2 ^ 64) prot n 0 [] m1 = some (true, ptb.blocks, m') := by
  unfold mmuAddMap at h
  split_ifs at h with hpgd hn halign
  · simp at h
  · simp at h
  · simp at h
  rw [not_or, not_not, not_not, and_pageSize_eq_zero_iff, and_pageSize_eq_zero_iff] at halign
  refine ⟨halign.1, halign.2, ?_⟩
  rcases ha : m.kheapAlloc (n * 3 % 2 ^ 64 * 8 % 2 ^ 64) with ⟨_ | array, m1⟩
  · simp only [ha] at h
    cases h
  simp only [ha, bind_eq_bind, bind_eq_some_iff] at h
  obtain ⟨⟨done, blocks, m2⟩, hmap, h⟩ := h
  cases done with
  | false =>
    simp only [Bool.false_eq_true, if_false, bind_eq_some_iff] at h
    obtain ⟨_, _, _, _, h⟩ := h
    simp at h
  | true =>
    simp only [if_true] at h
    cases h
    exact ⟨m1, rfl, hmap⟩

section Arrays

variable {root : Nat} {arrays recs : List Nat}

variable (h : ArraysOk kernel m root recs arrays)
include h

theorem ArraysOk.not_avail (hinv : H.Inv m.heap) {a : Nat} (ha : a ∈ arrays) :
    ¬ H.avail m.heap a := by
  obtain ⟨n, hn, -⟩ := h.live a ha
  obtain ⟨-, hpos, -, -⟩ := H.live_range hinv hn
  exact H.live_not_avail hinv hn le_rfl (Nat.lt_add_of_pos_right hpos)

theorem ArraysOk.kheapAlloc (hinv : TableInv kernel m root recs) {size p : Nat}
    (ha : m.kheapAlloc size = (some p, m')) : ArraysOk kernel m' root recs (arrays ++ [p]) := by
  obtain ⟨hal, -⟩ := kheapAlloc_spec hinv.heap ha
  obtain ⟨-, hlive, hblock, -⟩ := H.alloc_some hinv.heap hal
  have hfresh : H.avail m.heap p := hblock p le_rfl (Nat.lt_add_of_pos_right (H.pagesFor_pos _))
  have hne : ∀ a ∈ arrays, a ≠ p := fun a hmem he => h.not_avail hinv.heap hmem (he ▸ hfresh)
  refine ⟨fun a hmem => ?_, fun a hmem => ?_, ?_⟩
  · rw [hlive]
    rcases mem_append.mp hmem with hmem | hmem
    · rw [update_of_ne (hne a hmem)]
      exact h.live a hmem
    · rw [mem_singleton.mp hmem, update_self]
      exact ⟨_, rfl, fun q hlo hhi hk => hinv.kernel_used q hk (hblock q hlo hhi)⟩
  · rcases mem_append.mp hmem with hmem | hmem
    · exact h.not_table a hmem
    · rw [mem_singleton.mp hmem]
      refine ⟨?_, fun hrec => hinv.rec_used hrec hfresh⟩
      rintro rfl
      exact (hinv.used (p := []) (Nat.zero_le _) rfl).1 hfresh
  · rw [nodup_append]
    refine ⟨h.nodup, nodup_singleton p, fun a hmem b hb => ?_⟩
    rw [mem_singleton.mp hb]
    exact hne a hmem

theorem ArraysOk.frame (hinv : TableInv kernel m root recs) (hf : Frame root m m') {fs : List Nat}
    (hfs : ∀ f ∈ fs, IsTable m'.mem root f) : ArraysOk kernel m' root (recs ++ fs) arrays := by
  have hnot : ∀ a ∈ arrays, ¬ IsTable m'.mem root a := fun a ha ht =>
    (hf.fresh a ht).elim (fun ht => (h.not_table a ha).2 (hinv.recorded a ht))
      (h.not_avail hinv.heap ha)
  refine ⟨fun a ha => ?_, fun a ha => ⟨(h.not_table a ha).1, fun hmem => ?_⟩, h.nodup⟩
  · rw [hf.live a (hnot a ha)]
    exact h.live a ha
  · exact (mem_append.mp hmem).elim (h.not_table a ha).2 fun hmem => hnot a ha (hfs a hmem)

end Arrays

namespace Tables

variable {s s' : Tables H} {r : MapRequest}

theorem recs_append (l l' : List Mapping) : recs (l ++ l') = recs l ++ recs l' :=
  flatMap_append

theorem records_flatMap {onPtePtr : Nat → Option Nat} {root : Nat} {maps : List Mapping}
    (h : ∀ M ∈ maps, Records onPtePtr root M.pageList M.ptb.blocks) :
    Records onPtePtr root (pages maps) (recs maps) := by
  induction maps with
  | nil => exact .nil
  | cons M maps ih =>
    exact (h M mem_cons_self).append (ih fun N hN => h N (mem_cons_of_mem _ hN))

theorem Inv.mapped (h : Inv kernel s) :
    Mapped kernel s.machine s.pgd (pages s.maps) (recs s.maps) :=
  ⟨h.inv, records_flatMap h.records⟩

/-- A successful `mmu_add_map` translates the pages of its range and no other page
differently, and keeps the tables in agreement with the mappings. -/
theorem Inv.mmuAddMap (h : Inv kernel s) (hfits : r.Fits)
    (hroom : Room kernel H s.pgd (pages s.maps) (recs s.maps) r.vaddr 0 r.pages)
    {ptb : PageTableBlocks}
    (hcall : s.machine.mmuAddMap s.pgd r.vaddr r.paddr r.pages r.prot = some (.ok ptb, m')) :
    Inv kernel ⟨m', s.pgd, s.maps ++ [⟨r, ptb⟩]⟩ ∧
      Remapped s.pgd r.prot r.vaddr r.paddr 0 r.pages s.machine m' ∧
      ∃ m1, s.machine.kheapAlloc (r.pages * 3 % 2 ^ 64 * 8 % 2 ^ 64) = (some ptb.array, m1) ∧
        Frame s.pgd m1 m' ∧ ∀ f ∈ ptb.blocks, IsTable m'.mem s.pgd f := by
  obtain ⟨-, hpa, m1, ha, hmap⟩ := mmuAddMap_ok hcall
  have hk := h.inv.keeps_kheapAlloc ha
  obtain ⟨fs, hblocks, hmapped, hframe, hrec, htab, hre⟩ := (hk.mapped h.mapped).mapPages
    (by rw [zero_add]; exact hfits.1) (by rw [zero_add]; exact hfits.2)
    (mod_eq_zero_of_dvd hpa) hroom hmap
  rw [zero_add] at hre
  rw [nil_append] at hblocks
  have hremap : Remapped s.pgd r.prot r.vaddr r.paddr 0 r.pages s.machine m' := by
    refine ⟨fun k hlo hhi x hx => ?_, fun x hx => (hre.other x hx).trans (hk.hwWalk_eq h.inv).1⟩
    rw [hre.range k hlo hhi x hx, hk.mappedTo_eq]
  have hrecs : recs (s.maps ++ [⟨r, ptb⟩]) = recs s.maps ++ fs := by
    rw [recs_append, ← hblocks]
    exact congrArg _ (flatMap_singleton ..)
  refine ⟨⟨?_, fun M hM => ?_, fun M hM => ?_, fun va t hva ht => ?_, ?_⟩, hremap, m1, ha, hframe,
    hblocks ▸ htab⟩
  · rw [hrecs]
    exact hmapped.inv
  · rw [mem_append, mem_singleton] at hM
    rcases hM with hM | rfl
    · exact h.fits M hM
    · exact hfits
  · rw [mem_append, mem_singleton] at hM
    rcases hM with hM | rfl
    · refine hframe.records (hk.inv h.inv) (fun f hf => mem_flatMap.mpr ⟨M, hM, hf⟩) ?_
      exact (h.records M hM).congr fun f hf => hk.onPte f (mem_flatMap.mpr ⟨M, hM, hf⟩)
    · rw [hblocks]
      exact hrec
  · by_cases hcov : r.Covers va
    · obtain ⟨k, hk, hx⟩ := hcov
      have hsome := hremap.range k (zero_le _) hk va hx
      rw [ht, some.injEq] at hsome
      exact ⟨⟨r, ptb⟩, by simp, k, hk, hx, congrArg (·.paddr) hsome⟩
    · rw [hremap.other va fun k _ hk hx => hcov ⟨k, hk, hx⟩] at ht
      obtain ⟨M, hM, hcase⟩ := h.walk va t hva ht
      exact ⟨M, mem_append_left _ hM, hcase⟩
  · rw [map_append, hrecs]
    exact (h.arrays.kheapAlloc h.inv ha).frame (hk.inv h.inv) hframe htab

theorem Inv.add (h : Inv kernel s) (hadd : Add s r s') :
    Inv kernel s' ∧ Remapped s.pgd r.prot r.vaddr r.paddr 0 r.pages s.machine s'.machine := by
  obtain ⟨hfits, hres, hcount⟩ := hadd
  obtain ⟨ptb, hcall, hpgd, hmaps⟩ := addMap_eq_some hres
  have hroom : Room kernel H s.pgd (pages s.maps) (recs s.maps) r.vaddr 0 r.pages := by
    refine room_of_countP fun a => ?_
    have := hcount a
    rwa [hmaps, pages, flatMap_append, flatMap_singleton] at this
  obtain ⟨hinv, hre, -⟩ := h.mmuAddMap hfits hroom hcall
  rw [← hmaps, ← hpgd] at hinv
  exact ⟨hinv, hre⟩

end Tables

end ShiziOS.Mm
