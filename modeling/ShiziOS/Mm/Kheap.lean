import ShiziOS.Lib.PageHeap
import ShiziOS.Mm.BuddyRun

/-!
# The kernel heap

`kernel/mm/heap.c` over the page allocator: a request in bytes becomes a block of
`2 ^ order` pages of the first zone, from the normal zone down, that has one. The order is
the smallest that covers the bytes unless rounding them up to a page wraps around. With the
blocks that are out as ghost state the allocator is a page heap, so that whatever holds
over every page heap holds over this one.
-/

namespace ShiziOS.Mm

open Dyadic Option Function Sys

/-- The loop of `size_to_order`. -/
def orderLoop : (fuel pageCount order : Nat) → Nat
  | 0, _, order => order
  | fuel + 1, pageCount, order =>
    if 0 < pageCount then orderLoop fuel (pageCount / 2) (order + 1) else order

def sizeToOrder (size : Nat) : Nat :=
  let pageCount := (size + pageSize - 1) % 2 ^ 64 / pageSize
  if pageCount ≤ 1 then 0 else orderLoop 64 (pageCount - 1) 0

theorem orderLoop_spec (fuel n order : Nat) (hn : n < 2 ^ fuel) :
    ∃ k, orderLoop fuel n order = order + k ∧ n < 2 ^ k ∧ ∀ j < k, 2 ^ j ≤ n := by
  induction fuel generalizing n order with
  | zero => exact ⟨0, rfl, hn, fun j hj => absurd hj (Nat.not_lt_zero j)⟩
  | succ fuel ih =>
    unfold orderLoop
    split_ifs with hpos
    · obtain ⟨k, hk, hlt, hle⟩ := ih (n / 2) (order + 1) (by rw [Nat.pow_succ] at hn; omega)
      refine ⟨k + 1, by omega, by rw [Nat.pow_succ]; omega, fun j hj => ?_⟩
      cases j with
      | zero => exact hpos
      | succ j =>
        have := hle j (by omega)
        rw [Nat.pow_succ]
        omega
    · exact ⟨0, rfl, by omega, fun j hj => absurd hj (Nat.not_lt_zero j)⟩

theorem sizeToOrder_spec (size : Nat) (hsize : size + 4095 < 2 ^ 64) :
    size ≤ 4096 * 2 ^ sizeToOrder size ∧ ∀ k < sizeToOrder size, 4096 * 2 ^ k < size := by
  have hcount : (size + pageSize - 1) % 2 ^ 64 / pageSize = (size + 4095) / 4096 := by
    simp only [pageSize]
    omega
  unfold sizeToOrder
  rw [hcount]
  dsimp only
  split_ifs with hone
  · exact ⟨by omega, fun k hk => absurd hk (Nat.not_lt_zero k)⟩
  · obtain ⟨k, hk, hlt, hle⟩ := orderLoop_spec 64 ((size + 4095) / 4096 - 1) 0 (by omega)
    rw [hk, Nat.zero_add]
    refine ⟨by omega, fun j hj => ?_⟩
    have := hle j hj
    omega

namespace Sys

open Pmm

/-- One call of `pmm_alloc_pages`. -/
def allocPages (s : Sys) (order zone : Nat) : Nat × Sys :=
  let r := s.pmm.pmmAllocPages order zone
  (r.1, ⟨r.2, if r.1 = 0 then s.live else update s.live r.1 (some ⟨order, zone, 1⟩)⟩)

/-- The zone loop of `_kheap_alloc` over the zones below `n`, from the top. -/
def allocZones (s : Sys) (order : Nat) : Nat → Nat × Sys
  | 0 => (0, s)
  | n + 1 =>
    let r := s.allocPages order n
    if r.1 ≠ 0 then r else r.2.allocZones order n

def kheapAlloc (s : Sys) (size zone : Nat) : Option Nat × Sys :=
  if size = 0 then (none, s)
  else if maxOrder ≤ sizeToOrder size then (none, s)
  else
    let r := s.allocZones (sizeToOrder size) (zone + 1)
    (if r.1 = 0 then none else some r.1, r.2)

/-- The allocator invariant, and no zone ends above frame `2 ^ 40`. -/
structure HeapInv (s : Sys) : Prop where
  inv : s.pmm.Inv s.live
  end_le : ∀ z, s.pmm.endPfn z ≤ 2 ^ 40

def heapLive (s : Sys) (p : Nat) : Option PageHeap.Block :=
  (s.live p).map fun b => ⟨2 ^ b.order, b.refs⟩

variable {s s' : Sys} {p q : Nat} {b : Live}

theorem heapLive_eq_some {c : PageHeap.Block} (h : s.heapLive p = some c) :
    ∃ b, s.live p = some b ∧ c = ⟨2 ^ b.order, b.refs⟩ := by
  obtain ⟨b, hb, rfl⟩ := map_eq_some_iff.mp h
  exact ⟨b, hb, rfl⟩

theorem heapLive_update {v : Option Live} (h : s'.live = update s.live p v) :
    s'.heapLive = update s.heapLive p (v.map fun b => ⟨2 ^ b.order, b.refs⟩) := by
  funext q
  by_cases hq : q = p
  · subst hq
    simp [heapLive, h]
  · simp [heapLive, h, update_of_ne hq]

theorem allocZones_spec (h : s.pmm.Inv s.live) (order n : Nat) :
    (s.allocZones order n).2.pmm.Inv (s.allocZones order n).2.live ∧
      (s.allocZones order n).2.pmm.endPfn = s.pmm.endPfn ∧
      (∀ q, ((s.allocZones order n).2.pmm.blocks q).isFree = true →
        (s.pmm.blocks q).isFree = true) ∧
      ((s.allocZones order n).1 = 0 → (s.allocZones order n).2.live = s.live) ∧
      ((s.allocZones order n).1 ≠ 0 → ∃ zone, (s.allocZones order n).2.live =
          update s.live (s.allocZones order n).1 (some ⟨order, zone, 1⟩) ∧
        ∀ q, In (s.allocZones order n).1 order q → (s.pmm.blocks q).isFree = true) := by
  induction n generalizing s with
  | zero => exact ⟨h, rfl, fun _ hq => hq, fun _ => rfl, fun h0 => absurd rfl h0⟩
  | succ n ih =>
    obtain ⟨s', hs, hinv, hend, heff⟩ := alloc_effect h order n
    obtain rfl : (s.allocPages order n).2 = s' := some.inj hs
    rcases heff with ⟨h0, hlive, hfree⟩ | ⟨h0, -, hlive, hfree, hblock⟩
    · have he : s.allocZones order (n + 1) = (s.allocPages order n).2.allocZones order n :=
        if_neg (not_not_intro h0)
      obtain ⟨hinv', hend', hfree', hnone', hsome'⟩ := ih hinv
      rw [he, ← hend]
      refine ⟨hinv', hend', fun q hq => hfree q ▸ hfree' q hq, fun hz => (hnone' hz).trans hlive,
        fun hz => ?_⟩
      obtain ⟨zone, hlive', hblock⟩ := hsome' hz
      exact ⟨zone, hlive ▸ hlive', fun q hq => hfree q ▸ hblock q hq⟩
    · have he : s.allocZones order (n + 1) = s.allocPages order n := if_pos h0
      rw [he]
      exact ⟨hinv, hend, fun q hq => ((hfree q).mp hq).1, fun hz => absurd hz h0,
        fun _ => ⟨n, hlive, hblock⟩⟩

theorem kheapAlloc_spec (h : s.pmm.Inv s.live) (size zone : Nat) :
    (s.kheapAlloc size zone).2.pmm.Inv (s.kheapAlloc size zone).2.live ∧
      (s.kheapAlloc size zone).2.pmm.endPfn = s.pmm.endPfn ∧
      (∀ q, ((s.kheapAlloc size zone).2.pmm.blocks q).isFree = true →
        (s.pmm.blocks q).isFree = true) ∧
      ((s.kheapAlloc size zone).1 = none → (s.kheapAlloc size zone).2.live = s.live) ∧
      ∀ p, (s.kheapAlloc size zone).1 = some p → ∃ zone',
        (s.kheapAlloc size zone).2.live =
          update s.live p (some ⟨sizeToOrder size, zone', 1⟩) ∧
        ∀ q, In p (sizeToOrder size) q → (s.pmm.blocks q).isFree = true := by
  unfold kheapAlloc
  split_ifs with hsize horder
  · exact ⟨h, rfl, fun _ hq => hq, fun _ => rfl, fun p hp => nomatch hp⟩
  · exact ⟨h, rfl, fun _ hq => hq, fun _ => rfl, fun p hp => nomatch hp⟩
  obtain ⟨hinv, hend, hfree, hnone, hsome⟩ := allocZones_spec h (sizeToOrder size) (zone + 1)
  dsimp only
  refine ⟨hinv, hend, hfree, fun hz => hnone ?_, fun p hp => ?_⟩
  · by_contra h0
    rw [if_neg h0] at hz
    cases hz
  · by_cases h0 : (s.allocZones (sizeToOrder size) (zone + 1)).1 = 0
    · rw [if_pos h0] at hp
      cases hp
    · rw [if_neg h0] at hp
      cases hp
      exact hsome h0

end Sys

def buddyHeap : PageHeap where
  State := Sys
  Inv := Sys.HeapInv
  live := Sys.heapLive
  avail := fun s q => (s.pmm.blocks q).isFree = true
  -- a free block keeps its list node, `prev` and `next`, in the first two words of its first page
  node := fun s p i => decide (i < 2) && (s.pmm.blocks p).isFree && (s.pmm.blocks p).isHead
  -- from the order of the block up to the one it is merged to, each list gets a node in front
  relinks := fun s p q => (s.step (.free p)).any fun s' =>
    decide ((s.pmm.freeAreas (s.pmm.blocks p).zone (s.pmm.blocks q).order).head? = some q) &&
      decide ((s.pmm.blocks p).order ≤ (s.pmm.blocks q).order) && (s'.pmm.blocks p).isFree &&
      decide ((s.pmm.blocks q).order ≤ (s'.pmm.blocks p).order)
  pagesFor := fun size => 2 ^ sizeToOrder size
  refLimit := 2 ^ 32
  alloc := fun s size => s.kheapAlloc size zoneNormal
  addRef := fun s p => s.step (.addRef p)
  free := fun s p => s.step (.free p)
  pagesFor_pos := fun _ => Nat.two_pow_pos _
  pagesFor_page := rfl
  le_pagesFor := fun size hsize => (sizeToOrder_spec size (by omega)).1
  one_lt_refLimit := by decide
  refLimit_le := le_rfl
  node_avail := fun _ hn => by
    simp only [Bool.and_eq_true] at hn
    exact hn.1.2
  live_range := fun h hb => by
    obtain ⟨b, hl, rfl⟩ := heapLive_eq_some hb
    have hlive := h.inv.live hl
    exact ⟨hlive.ne_zero, Nat.two_pow_pos _, hlive.refs_pos, hlive.le_end.trans (h.end_le _)⟩
  live_not_avail := fun h hb hlo hhi hav => by
    obtain ⟨b, hl, rfl⟩ := heapLive_eq_some hb
    rw [(h.inv.live hl).blocks_eq _ ⟨hlo, hhi⟩] at hav
    cases hav
  live_disjoint := fun h hb hb' h₁ h₂ h₃ h₄ => by
    obtain ⟨b, hl, rfl⟩ := heapLive_eq_some hb
    obtain ⟨b', hl', rfl⟩ := heapLive_eq_some hb'
    exact (h.inv.live hl).unique (h.inv.live hl') ⟨h₁, h₂⟩ ⟨h₃, h₄⟩
  alloc_none := fun {s size s'} h ha => by
    obtain ⟨hinv, hend, hfree, hnone, -⟩ := kheapAlloc_spec h.inv size zoneNormal
    rw [ha] at hinv hend hfree hnone
    refine ⟨⟨hinv, hend ▸ h.end_le⟩, ?_, hfree⟩
    unfold Sys.heapLive
    rw [hnone rfl]
  alloc_some := fun {s size p s'} h ha => by
    obtain ⟨hinv, hend, hfree, -, hsome⟩ := kheapAlloc_spec h.inv size zoneNormal
    rw [ha] at hinv hend hfree hsome
    obtain ⟨zone, hlive, hblock⟩ := hsome p rfl
    refine ⟨⟨hinv, hend ▸ h.end_le⟩, ?_, fun q hlo hhi => hblock q ⟨hlo, hhi⟩, hfree⟩
    exact heapLive_update hlive
  addRef_live := fun h hb hrefs => by
    obtain ⟨b, hl, rfl⟩ := heapLive_eq_some hb
    obtain ⟨s', hs', hinv, hend, hlive, hfree⟩ := addRef_effect h.inv hl hrefs
    exact ⟨s', hs', ⟨hinv, hend ▸ h.end_le⟩, heapLive_update hlive, fun q hq => hfree q ▸ hq⟩
  free_live := fun h hb => by
    obtain ⟨b, hl, rfl⟩ := heapLive_eq_some hb
    obtain ⟨s', hs', hinv, hend, hlive, hfree⟩ := free_effect h.inv hl
    have hone : b.refs ≤ 1 ↔ b.refs = 1 := by
      have := (h.inv.live hl).refs_pos
      omega
    refine ⟨s', hs', ⟨hinv, hend ▸ h.end_le⟩, ?_, fun q hq => ?_⟩
    · simp only [heapLive_update hlive, hone]
      split_ifs <;> rfl
    · exact ((hfree q).mp hq).imp_right fun hin => ⟨hone.mp hin.1, hin.2⟩

/-! ## The size of a block -/

/-- In every state of the heap a request for `size` bytes gets a block of the smallest
order that covers them, and nothing if no order does. -/
def BlockFits (size : Nat) : Prop :=
  ∀ (s : Sys) (zone : Nat), s.pmm.Inv s.live →
    (∀ p, (s.kheapAlloc size zone).1 = some p →
      size ≤ 4096 * 2 ^ ((s.kheapAlloc size zone).2.pmm.blocks p).order ∧
      ∀ k < ((s.kheapAlloc size zone).2.pmm.blocks p).order, 4096 * 2 ^ k < size) ∧
    ((∀ k < maxOrder, 4096 * 2 ^ k < size) → (s.kheapAlloc size zone).1 = none)

theorem blockFits_of_lt {size : Nat} (hsize : size + 4095 < 2 ^ 64) : BlockFits size := by
  intro s zone h
  obtain ⟨hle, hmin⟩ := sizeToOrder_spec size hsize
  refine ⟨fun p hp => ?_, fun hbig => ?_⟩
  · obtain ⟨hinv, -, -, -, hsome⟩ := kheapAlloc_spec h size zone
    obtain ⟨zone', hlive, -⟩ := hsome p hp
    rw [(hinv.live (by rw [hlive]; exact update_self ..)).head]
    exact ⟨hle, hmin⟩
  · have horder : maxOrder ≤ sizeToOrder size := by
      by_contra hlt
      exact absurd hle (Nat.not_le_of_lt (hbig _ (Nat.lt_of_not_le hlt)))
    unfold Sys.kheapAlloc
    split_ifs <;> rfl

theorem sizeToOrder_of_le {size : Nat} (hsize : 2 ^ 64 ≤ size + 4095) (hlt : size < 2 ^ 64) :
    sizeToOrder size = 0 := by
  have hcount : (size + pageSize - 1) % 2 ^ 64 / pageSize ≤ 1 := by
    simp only [pageSize]
    omega
  exact if_pos hcount

theorem smallBoot_page : ((pmmInit smallBoot).map fun pmm =>
    ((Sys.mk pmm fun _ => none).allocZones 0 (zoneNormal + 1)).1) = some 4096 := by
  decide +kernel

theorem smallBoot_huge {size : Nat} (hsize : 2 ^ 64 ≤ size + 4095) (hlt : size < 2 ^ 64) :
    ∃ pmm, pmmInit smallBoot = some pmm ∧
      ((Sys.mk pmm fun _ => none).kheapAlloc size zoneNormal).1 = some 4096 ∧
      (((Sys.mk pmm fun _ => none).kheapAlloc size zoneNormal).2.pmm.blocks 4096).order = 0 := by
  obtain ⟨pmm, hinit, hpage⟩ := map_eq_some_iff.mp smallBoot_page
  have h0 := sizeToOrder_of_le hsize hlt
  have hres : ((Sys.mk pmm fun _ => none).kheapAlloc size zoneNormal).1 = some 4096 := by
    rw [Sys.kheapAlloc, if_neg (by omega), h0, if_neg (by decide)]
    simp only [hpage]
    rfl
  obtain ⟨hinv, -, -, -, hsome⟩ :=
    kheapAlloc_spec (s := ⟨pmm, fun _ => none⟩) (pmmInit_inv hinit) size zoneNormal
  obtain ⟨zone, hlive, -⟩ := hsome 4096 hres
  refine ⟨pmm, hinit, hres, ?_⟩
  rw [(hinv.live (by rw [hlive]; exact update_self ..)).head]
  exact h0

/-- The blocks are of the right size if and only if rounding the size up to a page does
not wrap around. -/
theorem kheap_block_fits_iff (size : Nat) (hpos : 0 < size) (hlt : size < 2 ^ 64) :
    BlockFits size ↔ size + 4095 < 2 ^ 64 := by
  refine ⟨fun hfits => ?_, blockFits_of_lt⟩
  by_contra hsize
  obtain ⟨pmm, hinit, hres, horder⟩ := smallBoot_huge (Nat.le_of_not_lt hsize) hlt
  have hle := ((hfits ⟨pmm, fun _ => none⟩ zoneNormal (pmmInit_inv hinit)).1 4096 hres).1
  rw [horder] at hle
  omega

theorem kheap_block_fits_iff_page : BlockFits 4096 :=
  (kheap_block_fits_iff 4096 (by decide) (by decide)).mpr (by decide)

theorem kheap_alloc_all_bytes : ∃ pmm, pmmInit smallBoot = some pmm ∧
    ((Sys.mk pmm fun _ => none).kheapAlloc (2 ^ 64 - 1) zoneNormal).1 = some 4096 ∧
    (((Sys.mk pmm fun _ => none).kheapAlloc (2 ^ 64 - 1) zoneNormal).2.pmm.blocks 4096).order = 0 :=
  smallBoot_huge (by decide) (by decide)

end ShiziOS.Mm
