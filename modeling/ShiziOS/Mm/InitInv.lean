import ShiziOS.Mm.Decompose

/-!
# The invariant after initialisation

`mem_block_init` stamps the metadata of every listed block. Since the listed blocks
are disjoint, the stamps do not interfere and the state satisfies `Pmm.Inv` with no
block live.
-/

namespace ShiziOS.Mm

open Dyadic List

/-! ## Linking the blocks -/

variable {l : List (Nat × Nat)} {q z maxPfn : Nat}

theorem Ascending.nodup (h : Ascending l) : l.Nodup := by
  refine List.Pairwise.imp (fun {a b} hab hne => ?_) h
  subst hne
  have := Nat.two_pow_pos a.2
  omega

theorem Ascending.unique (h : Ascending l) {a b : Nat × Nat}
    (ha : a ∈ l) (hb : b ∈ l) (hqa : In a.1 a.2 q) (hqb : In b.1 b.2 q) : a = b := by
  obtain ⟨ha1, ha2⟩ := hqa
  obtain ⟨hb1, hb2⟩ := hqb
  induction l with
  | nil => simp at ha
  | cons c l ih =>
    obtain ⟨hhead, htail⟩ := pairwise_cons.mp h
    rcases mem_cons.mp ha with hac | ha <;> rcases mem_cons.mp hb with hbc | hb
    · rw [hac, hbc]
    · have := hhead b hb
      subst hac
      omega
    · have := hhead a ha
      subst hbc
      omega
    · exact ih htail ha hb

theorem linkBlocks_fields (s : Pmm) (zone : Nat) (l : List (Nat × Nat)) :
    (linkBlocks s zone l).blocks = s.blocks ∧ (linkBlocks s zone l).startPfn = s.startPfn ∧
      (linkBlocks s zone l).endPfn = s.endPfn ∧ (linkBlocks s zone l).maxPfn = s.maxPfn := by
  unfold linkBlocks
  induction l generalizing s with
  | nil => exact ⟨rfl, rfl, rfl, rfl⟩
  | cons b l ih => exact ih (s.addFreeLists b.1 zone b.2)

theorem mem_linkBlocks (s : Pmm) (zone : Nat) (l : List (Nat × Nat)) (z o p : Nat) :
    p ∈ (linkBlocks s zone l).freeAreas z o ↔ p ∈ s.freeAreas z o ∨ z = zone ∧ (p, o) ∈ l := by
  unfold linkBlocks
  induction l generalizing s with
  | nil => simp
  | cons b l ih =>
    rw [foldl_cons, ih, Pmm.addFreeLists_freeAreas, mem_cons, Prod.ext_iff]
    split_ifs with hzo
    · obtain ⟨rfl, rfl⟩ := hzo
      simp only [mem_cons, and_true, true_and]
      tauto
    · constructor
      · tauto
      · rintro (hp | ⟨rfl, ⟨-, rfl⟩ | hp⟩)
        · exact .inl hp
        · exact absurd ⟨rfl, rfl⟩ hzo
        · exact .inr ⟨rfl, hp⟩

theorem linkBlocks_nodup {s : Pmm} {zone : Nat} (hl : l.Nodup)
    (hs : ∀ z o, (s.freeAreas z o).Nodup) (hnew : ∀ b ∈ l, b.1 ∉ s.freeAreas zone b.2) (z o : Nat) :
    ((linkBlocks s zone l).freeAreas z o).Nodup := by
  unfold linkBlocks
  induction l generalizing s with
  | nil => exact hs z o
  | cons b l ih =>
    obtain ⟨hb, hl⟩ := nodup_cons.mp hl
    refine ih hl (fun z o => ?_) (fun c hc => ?_)
    · rw [Pmm.addFreeLists_freeAreas]
      split_ifs with hzo
      · refine nodup_cons.mpr ⟨?_, hs z o⟩
        rw [hzo.1, hzo.2]
        exact hnew b mem_cons_self
      · exact hs z o
    · rw [Pmm.addFreeLists_freeAreas]
      split_ifs with hzo
      · refine not_mem_cons_of_ne_of_not_mem (fun he => hb ?_)
          (hnew c (mem_cons_of_mem _ hc))
        rwa [show b = c from Prod.ext he.symm hzo.2.symm]
      · exact hnew c (mem_cons_of_mem _ hc)

theorem scanZones_spec (alloc : Nat → Bool) (ids : List Nat) (s : Pmm) (hids : ids.Nodup)
    (hs : ∀ z o, (s.freeAreas z o).Nodup) (hempty : ∀ z ∈ ids, ∀ o, s.freeAreas z o = [])
    (hblocks : ∀ z, (zoneBlocks s alloc z).Nodup) :
    let s' := ids.foldl (fun s zone => linkBlocks s zone (zoneBlocks s alloc zone)) s
    (s'.blocks = s.blocks ∧ s'.startPfn = s.startPfn ∧ s'.endPfn = s.endPfn ∧
      s'.maxPfn = s.maxPfn) ∧ (∀ z o, (s'.freeAreas z o).Nodup) ∧
      ∀ z o p, p ∈ s'.freeAreas z o ↔
        p ∈ s.freeAreas z o ∨ z ∈ ids ∧ (p, o) ∈ zoneBlocks s alloc z := by
  induction ids generalizing s with
  | nil => exact ⟨⟨rfl, rfl, rfl, rfl⟩, hs, fun z o p => by simp⟩
  | cons zone ids ih =>
    obtain ⟨hzone, hids⟩ := nodup_cons.mp hids
    obtain ⟨hb, hst, hen, hmx⟩ := linkBlocks_fields s zone (zoneBlocks s alloc zone)
    have hsame : ∀ z, zoneBlocks (linkBlocks s zone (zoneBlocks s alloc zone)) alloc z =
        zoneBlocks s alloc z := by
      intro z
      unfold zoneBlocks at hst hen ⊢
      rw [hst, hen]
    have hnodup := linkBlocks_nodup (hblocks zone) hs
      (fun b _ => by rw [hempty zone mem_cons_self]; exact not_mem_nil)
    have hempty' : ∀ z ∈ ids, ∀ o,
        (linkBlocks s zone (zoneBlocks s alloc zone)).freeAreas z o = [] := by
      intro z hz o
      refine eq_nil_iff_forall_not_mem.mpr fun p hp => ?_
      rcases (mem_linkBlocks _ _ _ _ _ _).mp hp with hp | ⟨rfl, -⟩
      · simp [hempty z (mem_cons_of_mem _ hz)] at hp
      · exact hzone hz
    obtain ⟨hfields, hnodup', hmem⟩ := ih (linkBlocks s zone (zoneBlocks s alloc zone)) hids hnodup
      hempty' (fun z => by rw [hsame]; exact hblocks z)
    refine ⟨⟨hfields.1.trans hb, hfields.2.1.trans hst, hfields.2.2.1.trans hen,
      hfields.2.2.2.trans hmx⟩, hnodup', fun z o p => ?_⟩
    rw [foldl_cons, hmem, mem_linkBlocks, hsame, mem_cons, or_assoc, or_and_right]
    refine or_congr_right (or_congr_left (and_congr_right ?_))
    rintro rfl
    rfl

theorem zoneBlocks_decomposition (s : Pmm) (alloc : Nat → Bool) (zone : Nat) :
    Decomposition alloc (s.startPfn zone) (s.endPfn zone) (zoneBlocks s alloc zone) :=
  scanZone_decomposition alloc _ _ _ (by omega)

theorem mem_zoneIds : z ∈ zoneIds ↔ z ≤ zoneNormal := by
  simp only [zoneIds, zoneDma, zoneDma32, zoneNormal, mem_cons, not_mem_nil, or_false]
  omega

theorem freeListsInit_spec (maxPfn : Nat) (map : Bitmap) :
    let s := freeListsInit (zoneInit maxPfn) map
    (s.blocks = (zoneInit maxPfn).blocks ∧ s.startPfn = (zoneInit maxPfn).startPfn ∧
      s.endPfn = (zoneInit maxPfn).endPfn ∧ s.maxPfn = maxPfn) ∧
      (∀ z o, (s.freeAreas z o).Nodup) ∧
      ∀ z o p, p ∈ s.freeAreas z o ↔
        z ≤ zoneNormal ∧ (p, o) ∈ zoneBlocks (zoneInit maxPfn) (pageIsAlloc map) z := by
  obtain ⟨hfields, hnodup, hmem⟩ := scanZones_spec (pageIsAlloc map) zoneIds (zoneInit maxPfn)
    (by decide) (fun z o => nodup_nil) (fun z _ o => rfl)
    (fun z => (zoneBlocks_decomposition (zoneInit maxPfn) (pageIsAlloc map) z).ascending.nodup)
  have hempty : ∀ z o p, p ∉ (zoneInit maxPfn).freeAreas z o := fun z o p => not_mem_nil
  unfold freeListsInit
  generalize zoneIds.foldl _ (zoneInit maxPfn) = t at hfields hnodup hmem ⊢
  refine ⟨hfields, hnodup, fun z o p => ?_⟩
  rw [hmem, mem_zoneIds, or_iff_right (hempty z o p)]

/-! ## Zones -/

theorem zoneInit_end_le (hmax : 4095 ≤ maxPfn) (z : Nat) :
    (zoneInit maxPfn).endPfn z ≤ maxPfn + 1 := by
  simp only [zoneInit]
  split_ifs <;> omega

/-- The lists `s` cut the clear bits of the zones of `zoneInit maxPfn` into blocks. -/
structure Cut (maxPfn : Nat) (alloc : Nat → Bool) (s : Pmm) : Prop where
  nodup : ∀ z o, (s.freeAreas z o).Nodup
  /-- A listed block is aligned, inside its zone and made of clear pages. -/
  block : ∀ z o p, p ∈ s.freeAreas z o → z ≤ zoneNormal ∧ o < maxOrder ∧ 2 ^ o ∣ p ∧
    ∀ q, In p o q → (zoneInit maxPfn).startPfn z ≤ q ∧ q < (zoneInit maxPfn).endPfn z ∧
      alloc q = false
  /-- A clear page of a zone lies in exactly one listed block of the zone. -/
  cover : ∀ z q, z ≤ zoneNormal → (zoneInit maxPfn).startPfn z ≤ q →
    q < (zoneInit maxPfn).endPfn z → alloc q = false →
    ∃! b : Nat × Nat, b.1 ∈ s.freeAreas z b.2 ∧ In b.1 b.2 q
  /-- No larger aligned block of clear pages of the zone starts at the same frame. -/
  maximal : ∀ z o p k, p ∈ s.freeAreas z o → k < maxOrder → 2 ^ k ∣ p →
    (∀ q, In p k q → q < (zoneInit maxPfn).endPfn z ∧ alloc q = false) → k ≤ o

theorem freeListsInit_cut (maxPfn : Nat) (map : Bitmap) :
    Cut maxPfn (pageIsAlloc map) (freeListsInit (zoneInit maxPfn) map) := by
  obtain ⟨-, hnodup, hmem⟩ := freeListsInit_spec maxPfn map
  have hdec := zoneBlocks_decomposition (zoneInit maxPfn) (pageIsAlloc map)
  refine ⟨hnodup, fun z o p hp => ?_, fun z q hz hlo hhi hq => ?_, fun z o p k hp => ?_⟩
  · obtain ⟨hz, hb⟩ := (hmem z o p).mp hp
    refine ⟨hz, (hdec z).order_lt _ hb, (hdec z).aligned _ hb, fun q hq => ?_⟩
    exact ⟨((hdec z).start_le _ hb).trans hq.1, (hdec z).free _ hb q hq⟩
  · obtain ⟨b, hb, hin⟩ := (hdec z).cover q hlo hhi hq
    refine ⟨b, ⟨(hmem z b.2 b.1).mpr ⟨hz, hb⟩, hin⟩, ?_⟩
    rintro b' ⟨hb', hin'⟩
    exact (hdec z).ascending.unique ((hmem z b'.2 b'.1).mp hb').2 hb hin' hin
  · exact (hdec z).greedy _ ((hmem z o p).mp hp).2 k

/-- A page that two bitmaps tell apart is in the lists of one of them only. -/
theorem Cut.alloc_eq {alloc alloc' : Nat → Bool} {s : Pmm} (h : Cut maxPfn alloc s)
    (h' : Cut maxPfn alloc' s) (hz : z ≤ zoneNormal) (hlo : (zoneInit maxPfn).startPfn z ≤ q)
    (hhi : q < (zoneInit maxPfn).endPfn z) : alloc q = alloc' q := by
  have hclear : ∀ {a a' : Nat → Bool}, Cut maxPfn a s → Cut maxPfn a' s → a q = false →
      a' q = false := by
    intro a a' ha ha' hq
    obtain ⟨b, ⟨hb, hin⟩, -⟩ := ha.cover z q hz hlo hhi hq
    exact ((ha'.block z b.2 b.1 hb).2.2.2 q hin).2.2
  exact Bool.eq_iff_iff.mpr (not_iff_not.mp (by
    simpa only [Bool.not_eq_true] using ⟨hclear h h', hclear h' h⟩))

theorem Cut.congr {alloc alloc' : Nat → Bool} {s : Pmm} (h : Cut maxPfn alloc s)
    (heq : ∀ z q, q < (zoneInit maxPfn).endPfn z → alloc q = alloc' q) : Cut maxPfn alloc' s where
  nodup := h.nodup
  block z o p hp := by
    obtain ⟨hz, ho, hal, hin⟩ := h.block z o p hp
    refine ⟨hz, ho, hal, fun q hq => ?_⟩
    obtain ⟨hlo, hhi, hfree⟩ := hin q hq
    exact ⟨hlo, hhi, heq z q hhi ▸ hfree⟩
  cover z q hz hlo hhi hq := h.cover z q hz hlo hhi ((heq z q hhi).trans hq)
  maximal z o p k hp hk hal hin := h.maximal z o p k hp hk hal fun q hq =>
    ⟨(hin q hq).1, (heq z q (hin q hq).1).trans (hin q hq).2⟩

theorem exists_zone (hq : q ≤ maxPfn) : ∃ z ≤ zoneNormal,
    (zoneInit maxPfn).startPfn z ≤ q ∧ q < (zoneInit maxPfn).endPfn z := by
  rcases lt_or_ge q 4096 with hdma | hdma
  · exact ⟨zoneDma, by decide, Nat.zero_le q, hdma⟩
  rcases lt_or_ge q 1048576 with hlow | hlow
  · have hend : (zoneInit maxPfn).endPfn zoneDma32 =
        if maxPfn < 1048576 then maxPfn + 1 else 1048576 := rfl
    refine ⟨zoneDma32, by decide, hdma, ?_⟩
    rw [hend]
    split_ifs <;> omega
  · refine ⟨zoneNormal, le_rfl, ?_⟩
    simp [zoneInit, zoneDma32, zoneDma, zoneNormal, hlow.trans hq]
    omega

/-- Frame `0` and every third of the first thousand frames are in use. -/
def sparseMap : Bitmap := fun q => decide (q < 1000) && q % 3 == 0

/-- Only page `2 ^ 32` is in use. -/
def highMap : Bitmap := fun q => q == 2 ^ 32

theorem zoneInit_unique {z' : Nat} (hz : z ≤ zoneNormal) (hz' : z' ≤ zoneNormal)
    (h : (zoneInit maxPfn).startPfn z ≤ q) (hq : q < (zoneInit maxPfn).endPfn z)
    (h' : (zoneInit maxPfn).startPfn z' ≤ q) (hq' : q < (zoneInit maxPfn).endPfn z') : z = z' := by
  simp only [zoneInit, zoneDma, zoneDma32, zoneNormal] at *
  interval_cases z <;> interval_cases z' <;> simp at h hq h' hq' ⊢ <;> split_ifs at * <;> omega

/-! ## The metadata -/

/-- The innermost loop of `mem_block_init`. -/
def stamp (blocks : Nat → MemBlock) (t : Nat × Nat × Nat) : Nat → MemBlock :=
  setPages blocks t.2.2 (2 ^ t.2.1) fun i b =>
    { b with isHead := i == 0, isFree := true, order := t.2.1, zone := t.1 }

/-- The listed blocks in the order in which `mem_block_init` visits them. -/
def listedBlocks (s : Pmm) : List (Nat × Nat × Nat) :=
  zoneIds.flatMap fun z => (List.range maxOrder).flatMap fun o =>
    (s.freeAreas z o).map fun p => (z, o, p)

/-- A stamped page carries the metadata of a listed block around it; every other
page is as before. -/
theorem foldl_stamp (l : List (Nat × Nat × Nat)) (blocks : Nat → MemBlock) (q : Nat)
    (h0 : (blocks q).refCount = 0) :
    (∃ t ∈ l, In t.2.2 t.2.1 q ∧ l.foldl stamp blocks q = freeMeta t.1 t.2.1 (q - t.2.2)) ∨
      (∀ t ∈ l, ¬ In t.2.2 t.2.1 q) ∧ l.foldl stamp blocks q = blocks q := by
  induction l generalizing blocks with
  | nil => exact .inr ⟨by simp, rfl⟩
  | cons t l ih =>
    rw [foldl_cons]
    by_cases ht : In t.2.2 t.2.1 q
    · have hq : stamp blocks t q = freeMeta t.1 t.2.1 (q - t.2.2) := by
        rw [stamp, setPages_of_in ht, freeMeta, h0]
      rcases ih (stamp blocks t) (by rw [hq]; rfl) with ⟨t', ht', hin, he⟩ | ⟨-, he⟩
      · exact .inl ⟨t', mem_cons_of_mem _ ht', hin, he⟩
      · exact .inl ⟨t, mem_cons_self, ht, he.trans hq⟩
    · have hq : stamp blocks t q = blocks q := by rw [stamp, setPages_of_not_in ht]
      rcases ih (stamp blocks t) (by rw [hq]; exact h0) with ⟨t', ht', hin, he⟩ | ⟨hnone, he⟩
      · exact .inl ⟨t', mem_cons_of_mem _ ht', hin, he⟩
      · refine .inr ⟨fun t' ht' => ?_, he.trans hq⟩
        rcases mem_cons.mp ht' with rfl | ht'
        · exact ht
        · exact hnone t' ht'

theorem foldl_used (s : Pmm) (alloc : Nat → Bool) (ids : List Nat) (blocks : Nat → MemBlock)
    (q : Nat) (hfree : (blocks q).isFree = false) (hrefs : (blocks q).refCount = 0) :
    let used := ids.foldl (fun blocks zone =>
      setPages blocks (s.startPfn zone) (s.endPfn zone - s.startPfn zone) fun i b =>
        if alloc (s.startPfn zone + i) then
          { b with isHead := true, isFree := false, order := 0, zone := zone }
        else b) blocks
    (used q).isFree = false ∧ (used q).refCount = 0 := by
  induction ids generalizing blocks with
  | nil => exact ⟨hfree, hrefs⟩
  | cons zone ids ih =>
    refine ih _ ?_ ?_
    · simp only [setPages]
      split_ifs <;> first | rfl | exact hfree
    · simp only [setPages]
      split_ifs <;> exact hrefs

theorem mem_listedBlocks {s : Pmm} {o p : Nat} :
    (z, o, p) ∈ listedBlocks s ↔ z ≤ zoneNormal ∧ o < maxOrder ∧ p ∈ s.freeAreas z o := by
  simp only [listedBlocks, mem_flatMap, mem_map, mem_range, Prod.mk.injEq, mem_zoneIds]
  constructor
  · rintro ⟨_, hz, _, ho, _, hp, rfl, rfl, rfl⟩
    exact ⟨hz, ho, hp⟩
  · rintro ⟨hz, ho, hp⟩
    exact ⟨z, hz, o, ho, p, hp, rfl, rfl, rfl⟩

theorem memBlockInit_blocks (s : Pmm) (map : Bitmap) (q : Nat)
    (hfree : (s.blocks q).isFree = false) (hrefs : (s.blocks q).refCount = 0) :
    (∃ z o p, p ∈ s.freeAreas z o ∧ In p o q ∧
        (memBlockInit s map).blocks q = freeMeta z o (q - p)) ∨
      (∀ z o p, z ≤ zoneNormal → o < maxOrder → p ∈ s.freeAreas z o → ¬ In p o q) ∧
        ((memBlockInit s map).blocks q).isFree = false := by
  obtain ⟨hfree', hrefs'⟩ := foldl_used s (pageIsAlloc map) zoneIds s.blocks q hfree hrefs
  simp only [memBlockInit]
  generalize zoneIds.foldl _ s.blocks = used at hfree' hrefs' ⊢
  have hfold : ∀ ids : List Nat, ids.foldl (fun blocks zone =>
      (List.range maxOrder).foldl (fun blocks order =>
        (s.freeAreas zone order).foldl (fun blocks pfn =>
          setPages blocks pfn (2 ^ order) fun i b =>
            { b with isHead := i == 0, isFree := true, order := order, zone := zone })
          blocks) blocks) used =
      (ids.flatMap fun z => (List.range maxOrder).flatMap fun o =>
        (s.freeAreas z o).map fun p => (z, o, p)).foldl stamp used := by
    intro ids
    simp only [foldl_flatMap, foldl_map, stamp]
  rw [hfold zoneIds]
  rcases foldl_stamp (listedBlocks s) used q hrefs' with ⟨⟨z, o, p⟩, hl, hin, he⟩ | ⟨hnone, he⟩
  · exact .inl ⟨z, o, p, (mem_listedBlocks.mp hl).2.2, hin, he⟩
  · refine .inr ⟨fun z o p hz ho hp => hnone (z, o, p) (mem_listedBlocks.mpr ⟨hz, ho, hp⟩), ?_⟩
    exact (congrArg MemBlock.isFree he).trans hfree'

theorem buddyInit_zones (maxPfn : Nat) (map : Bitmap) :
    (buddyInit maxPfn map).startPfn = (zoneInit maxPfn).startPfn ∧
      (buddyInit maxPfn map).endPfn = (zoneInit maxPfn).endPfn ∧
      (buddyInit maxPfn map).maxPfn = maxPfn := by
  obtain ⟨⟨-, hst, hen, hmx⟩, -⟩ := freeListsInit_spec maxPfn map
  unfold buddyInit
  generalize freeListsInit (zoneInit maxPfn) map = t at hst hen hmx ⊢
  exact ⟨hst, hen, hmx⟩

theorem buddyInit_lists (maxPfn : Nat) (map : Bitmap) :
    (∀ z o, ((buddyInit maxPfn map).freeAreas z o).Nodup) ∧
      ∀ z o p, p ∈ (buddyInit maxPfn map).freeAreas z o ↔
        z ≤ zoneNormal ∧ (p, o) ∈ zoneBlocks (zoneInit maxPfn) (pageIsAlloc map) z := by
  obtain ⟨-, hnodup, hmem⟩ := freeListsInit_spec maxPfn map
  unfold buddyInit
  generalize freeListsInit (zoneInit maxPfn) map = t at hnodup hmem ⊢
  exact ⟨hnodup, hmem⟩

theorem buddyInit_blocks (maxPfn : Nat) (map : Bitmap) (q : Nat) :
    (∃ z o p, p ∈ (buddyInit maxPfn map).freeAreas z o ∧ In p o q ∧
        (buddyInit maxPfn map).blocks q = freeMeta z o (q - p)) ∨
      (∀ z o p, z ≤ zoneNormal → o < maxOrder → p ∈ (buddyInit maxPfn map).freeAreas z o →
        ¬ In p o q) ∧ ((buddyInit maxPfn map).blocks q).isFree = false := by
  obtain ⟨⟨hbl, -⟩, -⟩ := freeListsInit_spec maxPfn map
  have hzero : ((zoneInit maxPfn).blocks q).isFree = false ∧
      ((zoneInit maxPfn).blocks q).refCount = 0 := ⟨rfl, rfl⟩
  rw [← hbl] at hzero
  unfold buddyInit
  generalize freeListsInit (zoneInit maxPfn) map = t at hzero ⊢
  exact memBlockInit_blocks t map q hzero.1 hzero.2

theorem buddyInit_extent {map : Bitmap} {o p : Nat}
    (hp : p ∈ (buddyInit maxPfn map).freeAreas z o) : (buddyInit maxPfn map).Extent z o p := by
  obtain ⟨hst, hen, -⟩ := buddyInit_zones maxPfn map
  obtain ⟨hz, hp⟩ := ((buddyInit_lists maxPfn map).2 z o p).mp hp
  have hd := zoneBlocks_decomposition (zoneInit maxPfn) (pageIsAlloc map) z
  have hpos := Nat.two_pow_pos o
  have hlast : p + (2 ^ o - 1) < (zoneInit maxPfn).endPfn z :=
    (hd.free (p, o) hp _ (in_add (show 2 ^ o - 1 < 2 ^ o by omega))).1
  refine ⟨hz, hd.order_lt _ hp, hd.aligned _ hp, ?_, ?_⟩
  · rw [hst]
    exact hd.start_le _ hp
  · rw [hen]
    omega

theorem buddyInit_not_free {map : Bitmap} (hq : pageIsAlloc map q = true) :
    ((buddyInit maxPfn map).blocks q).isFree = false := by
  rcases buddyInit_blocks maxPfn map q with ⟨z, o, p, hp, hin, -⟩ | ⟨-, hfree⟩
  · obtain ⟨-, hp⟩ := ((buddyInit_lists maxPfn map).2 z o p).mp hp
    have := ((zoneBlocks_decomposition _ (pageIsAlloc map) z).free _ hp q hin).2
    simp [hq] at this
  · exact hfree

theorem buddyInit_inv (hmax : 4095 ≤ maxPfn) (map : Bitmap) :
    (buddyInit maxPfn map).Inv fun _ => none := by
  obtain ⟨hnodup, hmem⟩ := buddyInit_lists maxPfn map
  obtain ⟨-, hen, hmx⟩ := buddyInit_zones maxPfn map
  refine ⟨hnodup, ?_, ?_, by simp, ?_⟩
  · intro z o p hp
    refine ⟨buddyInit_extent hp, fun q hq => ?_⟩
    have hext := buddyInit_extent hp
    rcases buddyInit_blocks maxPfn map q with ⟨z', o', p', hp', hq', he⟩ | ⟨hnone, -⟩
    · -- the stamp found on the page is the stamp of this block
      obtain ⟨hz, hb⟩ := (hmem z o p).mp hp
      obtain ⟨hz', hb'⟩ := (hmem z' o' p').mp hp'
      have hd := zoneBlocks_decomposition (zoneInit maxPfn) (pageIsAlloc map) z
      have hd' := zoneBlocks_decomposition (zoneInit maxPfn) (pageIsAlloc map) z'
      obtain rfl : z = z' := zoneInit_unique hz hz' ((hd.start_le _ hb).trans hq.1)
        (hd.free _ hb q hq).1 ((hd'.start_le _ hb').trans hq'.1) (hd'.free _ hb' q hq').1
      have heq := hd.ascending.unique hb hb' hq hq'
      rw [Prod.mk.injEq] at heq
      obtain ⟨rfl, rfl⟩ := heq
      exact he
    · exact absurd hq (hnone z o p hext.zone_le hext.order_lt hp)
  · intro q hq
    rcases buddyInit_blocks maxPfn map q with ⟨z, o, p, hp, hin, -⟩ | ⟨-, hfree⟩
    · exact ⟨z, o, p, hp, hin⟩
    · exact absurd (hq.symm.trans hfree) (by decide)
  · intro z
    rw [hen, hmx]
    exact zoneInit_end_le hmax z

end ShiziOS.Mm
