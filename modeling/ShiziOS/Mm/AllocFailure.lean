import ShiziOS.Mm.Coalesce

/-!
# Allocations that fail

`pmm_alloc_pages` returns frame `0` for a failure. A block at frame `0` can be free all the same;
the search stops at it, its block is split, and nothing is handed out.
-/

namespace ShiziOS.Mm

open Dyadic List Option Nat

namespace Pmm

variable {s : Pmm} {live : Nat → Option Live} {order zone : Nat}

/-- The search for a block of the order comes upon frame `0`. -/
def ZeroNext (s : Pmm) (order zone : Nat) : Prop :=
  ∃ n, order + n < maxOrder ∧ s.NextFree zone order n 0

/-- A call that returns `0` has found no block, and has changed nothing. -/
structure HonestFailure (s : Pmm) (order zone : Nat) : Prop where
  none_free : (s.pmmAllocPages order zone).1 = 0 →
    ∀ k, order ≤ k → k < maxOrder → s.freeAreas zone k = []
  unchanged : (s.pmmAllocPages order zone).1 = 0 → (s.pmmAllocPages order zone).2 = s

theorem NextFree.unique {n n' p p' : Nat} (h : s.NextFree zone order n p)
    (h' : s.NextFree zone order n' p') : n = n' ∧ p = p' := by
  have hle : ∀ {n n' p p'}, s.NextFree zone order n p → s.NextFree zone order n' p' → n ≤ n' := by
    intro n n' p p' h h'
    by_contra hlt
    have hempty := h.below (order + n') (by omega) (by omega)
    have hhead := h'.head
    rw [hempty] at hhead
    cases hhead
  obtain rfl : n = n' := le_antisymm (hle h h') (hle h' h)
  exact ⟨rfl, some.inj (h.head.symm.trans h'.head)⟩

theorem Inv.freeAreas_of_empty (h : s.Inv live) (hempty : s.endPfn zone ≤ s.startPfn zone)
    (k : Nat) : s.freeAreas zone k = [] := by
  refine eq_nil_iff_forall_not_mem.mpr fun p hp => ?_
  have hb := h.listed hp
  have hstart := hb.start_le
  have hend := hb.le_end
  have hpos := Nat.two_pow_pos k
  omega

theorem Inv.pmmAllocPages_zero {n : Nat} (h : s.Inv live) (hz : zone ≤ zoneNormal)
    (hn : order + n < maxOrder) (hnext : s.NextFree zone order n 0) :
    s.pmmAllocPages order zone = (0, s.splitDown 0 n) := by
  have hlisted : s.freeAreas zone (order + n) ≠ [] := ne_nil_of_mem (mem_of_head? hnext.head)
  rcases h.pmmAllocPages_cases order zone with ⟨-, hwhy⟩ | ⟨n', p, -, hnext', -, he⟩
  · exfalso
    rcases hwhy with hargs | hargs | hempty | hnone
    · omega
    · omega
    · exact hlisted (h.freeAreas_of_empty hempty _)
    · exact hlisted (hnone _ (by omega) hn)
  · obtain ⟨rfl, rfl⟩ := hnext.unique hnext'
    rw [he, if_pos rfl]

theorem Inv.honestFailure_iff (h : s.Inv live) (ho : order < maxOrder) (hz : zone ≤ zoneNormal) :
    s.HonestFailure order zone ↔ ¬s.ZeroNext order zone := by
  constructor
  · rintro hhonest ⟨n, hn, hnext⟩
    have hempty := hhonest.none_free (by rw [h.pmmAllocPages_zero hz hn hnext])
    have hhead := hnext.head
    rw [hempty (order + n) (by omega) hn] at hhead
    cases hhead
  · intro hzero
    rcases h.pmmAllocPages_cases order zone with ⟨he, hwhy⟩ | ⟨n, p, hn, hnext, -, he⟩
    · refine ⟨fun _ => ?_, fun _ => by rw [he]⟩
      rcases hwhy with hargs | hargs | hempty | hnone
      · omega
      · omega
      · exact fun k _ _ => h.freeAreas_of_empty hempty k
      · exact hnone
    · have hp : p ≠ 0 := by
        rintro rfl
        exact hzero ⟨n, hn, hnext⟩
      rw [if_neg hp] at he
      have hne : (s.pmmAllocPages order zone).1 ≠ 0 := by
        rw [he]
        exact hp
      exact ⟨fun hr => absurd hr hne, fun hr => absurd hr hne⟩

end Pmm

/-- In every state that a run on any memory map reaches, a valid call that fails has found no block
and changed nothing if and only if the search does not come upon frame `0`. -/
theorem alloc_honest_iff {boot : Boot} {pmm : Pmm} {s : Sys} (hinit : pmmInit boot = some pmm)
    (hreach : Sys.Reaches pmm s) {order zone : Nat} (ho : order < maxOrder)
    (hz : zone ≤ zoneNormal) : s.pmm.HonestFailure order zone ↔ ¬s.pmm.ZeroNext order zone :=
  (Sys.reaches_inv (pmmInit_inv hinit) hreach).1.honestFailure_iff ho hz

theorem alloc_honest_smallBoot : ∃ pmm, pmmInit smallBoot = some pmm ∧
    pmm.HonestFailure 3 zoneDma := by
  obtain ⟨pmm, hinit⟩ := isSome_iff_exists.mp smallBoot_init.1
  have h0 : (pmm.blocks 0).isFree = false := smallBoot_zero_used hinit
  refine ⟨pmm, hinit, ?_⟩
  refine (alloc_honest_iff hinit (s := ⟨pmm, fun _ => none⟩) .refl (by decide) (by decide)).mpr ?_
  rintro ⟨n, -, hnext⟩
  exact (pmmInit_inv hinit).not_listed_of_not_free h0 (mem_of_head? hnext.head) (in_self 0 _)

/-! ## A free frame `0` -/

theorem Bitmap.check_putRange {map : Bitmap} {start n : Nat} {v : Bool} (h : start + n ≤ 2 ^ 32)
    (bit : Nat) : (map.putRange start v n).check bit =
      if start ≤ bit % 2 ^ 32 ∧ bit % 2 ^ 32 < start + n then v else map.check bit := by
  induction n with
  | zero =>
    rw [if_neg (by omega)]
    rfl
  | succ n ih =>
    have hmod : (start + n) % 2 ^ 32 = start + n := mod_eq_of_lt (by omega)
    have hput : (map.putRange start v (n + 1)).check bit =
        if bit % 2 ^ 32 = start + n then v else (map.putRange start v n).check bit := by
      simp only [Bitmap.putRange, Bitmap.check, Bitmap.put, hmod, Function.update_apply]
    rw [hput, ih (by omega)]
    split_ifs <;> first | rfl | omega

theorem bitmapSearch_congr {map : Bitmap} (map' : Bitmap) {pages : Nat}
    (fuel i consecutive startPfn : Nat)
    (h : ∀ j, i ≤ j → j < i + fuel → map.check j = map'.check j) :
    bitmapSearch map pages fuel i consecutive startPfn =
      bitmapSearch map' pages fuel i consecutive startPfn := by
  induction fuel generalizing i consecutive startPfn with
  | zero => rfl
  | succ fuel ih =>
    have hrest : ∀ j, i + 1 ≤ j → j < i + 1 + fuel → map.check j = map'.check j :=
      fun j hj hj' => h j (by omega) (by omega)
    simp only [bitmapSearch, h i le_rfl (by omega), ih (i + 1) _ _ hrest]

/-- A machine with 65537 frames: frames 2 and 3 are not free, and the boot bitmap is at 2 MiB. -/
def lowBoot : Boot where
  mmap := [⟨0, 2 * 4096 + mmapFree⟩, ⟨4 * 4096, 65533 * 4096 + mmapFree⟩]
  bootBitmap := fun pfn => decide (2 ≤ pfn ∧ pfn < 4 ∨ 512 ≤ pfn ∧ pfn < 520 ∨ 65537 ≤ pfn)
  bootBitmapPhys := 512 * 4096

/-- The frames in use after the page bitmap has got three of them; those of the boot bitmap are
given back. -/
def lowUsed (bit : Nat) : Bool :=
  if 512 ≤ bit ∧ bit < 512 + 8 then false
  else decide (4 ≤ bit ∧ bit < 4 + 3) || lowBoot.bootBitmap bit

theorem lowBoot_bitmap : ∃ map : Bitmap, allocBitmapInit lowBoot 65536 = some map ∧
    ∀ bit, bit < bootAllocMaxPages → map.check bit = lowUsed bit := by
  have hsearch : bootSearch lowBoot.bootBitmap 3 bootAllocMaxPages 0 0 = some 4 := by decide +kernel
  have hboot : bootAlloc lowBoot.bootBitmap 3 = some (4, fun bit =>
      decide (4 ≤ bit ∧ bit < 4 + 3) || lowBoot.bootBitmap bit) := by
    simp only [bootAlloc, hsearch, map_some]
    rfl
  have hpages : ((65536 + 1 + 7) / 8 + pageSize - 1) / pageSize = 3 := by decide +kernel
  have hphys : ¬lowBoot.bootBitmapPhys = 0 := by decide
  have hstart : lowBoot.bootBitmapPhys / pageSize = 512 := by decide +kernel
  have hend : (lowBoot.bootBitmapPhys + bootAllocBitmapSize + pageSize - 1) / pageSize = 520 := by
    decide +kernel
  simp only [allocBitmapInit, hpages, hboot, map_some, if_neg hphys, hstart, hend]
  refine ⟨_, rfl, fun bit hbit => ?_⟩
  have hmod : bit % 2 ^ 32 = bit := mod_eq_of_lt (hbit.trans (by decide))
  rw [Bitmap.check_putRange (by decide), hmod, lowUsed]
  simp only [Bitmap.check, hmod, if_pos hbit]

theorem lowBoot_init : ∃ map, pmmInit lowBoot = some (buddyInit 65536 map) ∧
    ∀ bit, bit < 4096 → (pageIsAlloc map bit = true ↔ 2 ≤ bit ∧ bit < 264) := by
  obtain ⟨map, hmap, hcheck⟩ := lowBoot_bitmap
  have hmax : calculateMaxPfn lowBoot.mmap = 65536 := by decide +kernel
  have hpages : memBlockPages 65536 = 257 := by decide +kernel
  have hzones : zonesInArray (zoneInit 65536) = true := by decide +kernel
  have hsearch : bitmapSearch map 257 (65536 + 1) 0 0 0 = some 7 := by
    rw [bitmapSearch_congr lowUsed _ _ _ _ fun j _ hj => ?_]
    · decide +kernel
    · rw [hcheck j (hj.trans (by decide)), Bitmap.check, mod_eq_of_lt (hj.trans (by decide))]
  refine ⟨map.putRange 7 true 257, ?_, fun bit hbit => ?_⟩
  · simp only [pmmInit, hmax, hmap, hpages, bitmapAlloc, bitmapAllocAt, hsearch, hzones,
      bind_eq_bind, bind_some, map_some, if_true]
  · rw [pageIsAlloc, Bitmap.check_putRange (by decide), mod_eq_of_lt (hbit.trans (by decide)),
      hcheck bit (hbit.trans (by decide)), lowUsed]
    simp only [lowBoot]
    split_ifs <;> simp <;> omega

theorem Decomposition.le_order {alloc : Nat → Bool} {pfn endPfn g k q : Nat}
    {l : List (Nat × Nat)} (h : Decomposition alloc pfn endPfn l) (hg : 2 ^ k ∣ g)
    (hk : k < maxOrder) (hpfn : pfn ≤ g) (hfree : ∀ q, In g k q → q < endPfn ∧ alloc q = false)
    {b : Nat × Nat} (hb : b ∈ l) (hq : In g k q) (hqb : In b.1 b.2 q) : k ≤ b.2 := by
  obtain ⟨hend, halloc⟩ := hfree g (in_self g k)
  obtain ⟨b', hb', hin⟩ := h.cover g hpfn hend halloc
  have hk' : k ≤ b'.2 := by
    by_contra hlt
    have hstart : b'.1 = g := start_unique (h.aligned b' hb')
      ((pow_dvd_pow 2 (by omega)).trans hg) hin (in_self g b'.2)
    exact hlt (h.greedy b' hb' k hk (hstart ▸ hg) (hstart ▸ hfree))
  obtain rfl := h.ascending.unique hb hb' hqb (hin.nest (h.aligned b' hb') hg hk' hq)
  exact hk'

theorem lowBoot_blocks {alloc : Nat → Bool} {p o : Nat}
    (halloc : ∀ bit, bit < 4096 → (alloc bit = true ↔ 2 ≤ bit ∧ bit < 264))
    (hb : (p, o) ∈ zoneBlocks (zoneInit 65536) alloc zoneDma) : p = 0 ∧ o = 1 ∨ 2 ≤ o := by
  have hd := zoneBlocks_decomposition (zoneInit 65536) alloc zoneDma
  have hend : (zoneInit 65536).endPfn zoneDma = 4096 := rfl
  have hfree : ∀ q, q < 4096 → ¬(2 ≤ q ∧ q < 264) → alloc q = false :=
    fun q hq hnot => Bool.eq_false_iff.mpr fun htrue => hnot ((halloc q hq).mp htrue)
  obtain ⟨hp, hpfree⟩ := hd.free (p, o) hb p (in_self p o)
  have hout : ¬(2 ≤ p ∧ p < 264) := fun hin => by
    rw [(halloc p hp).mpr hin] at hpfree
    cases hpfree
  rcases lt_or_ge p 2 with hlow | hhigh
  · have hpos : 1 ≤ o := hd.le_order (g := 0) (k := 1) (q := p) (by simp) (by decide) (zero_le _)
      (fun q hq => by
        obtain ⟨-, hlt⟩ := hq
        rw [hend]
        exact ⟨by omega, hfree q (by omega) (by omega)⟩) hb ⟨zero_le p, by omega⟩ (in_self p o)
    have hstart : p = 0 := by
      have heven := (pow_dvd_pow 2 hpos).trans (hd.aligned (p, o) hb)
      simp only [pow_one] at heven
      omega
    rcases lt_or_ge o 2 with hone | htwo
    · exact .inl ⟨hstart, by omega⟩
    · exact .inr htwo
  · refine .inr (hd.le_order (g := p / 4 * 4) (k := 2) (q := p) (by simp) (by decide)
      (zero_le _)
      (fun q hq => ?_) hb ⟨by omega, by omega⟩ (in_self p o))
    obtain ⟨hle, hlt⟩ := hq
    rw [hend] at hp ⊢
    exact ⟨by omega, hfree q (by omega) (by omega)⟩

/-- The block of frames `0` and `1` is split and nothing is returned, with frame 264 free. -/
theorem alloc_splits_frame_zero : ∃ pmm, pmmInit lowBoot = some pmm ∧
    (pmm.pmmAllocPages 0 zoneDma).1 = 0 ∧ (∃ k p, p ∈ pmm.freeAreas zoneDma k ∧ In p k 264) ∧
    pmm.freeAreas zoneDma 0 = [] ∧ 1 ∈ (pmm.pmmAllocPages 0 zoneDma).2.freeAreas zoneDma 0 := by
  obtain ⟨map, hinit, halloc⟩ := lowBoot_init
  refine ⟨_, hinit, ?_⟩
  have hinv := pmmInit_inv hinit
  have hlists := (buddyInit_lists 65536 map).2
  have hd := zoneBlocks_decomposition (zoneInit 65536) (pageIsAlloc map) zoneDma
  have hfree : ∀ q, q < 4096 → ¬(2 ≤ q ∧ q < 264) → ∃ p o, In p o q ∧
      p ∈ (buddyInit 65536 map).freeAreas zoneDma o := by
    intro q hq hnot
    obtain ⟨⟨p, o⟩, hb, hin⟩ := hd.cover q (Nat.zero_le q) hq
      (Bool.eq_false_iff.mpr fun htrue => hnot ((halloc q hq).mp htrue))
    exact ⟨p, o, hin, (hlists zoneDma o p).mpr ⟨by decide, hb⟩⟩
  have hempty : (buddyInit 65536 map).freeAreas zoneDma 0 = [] := by
    refine eq_nil_iff_forall_not_mem.mpr fun p hp => ?_
    have := lowBoot_blocks halloc ((hlists zoneDma 0 p).mp hp).2
    omega
  have hzero : 0 ∈ (buddyInit 65536 map).freeAreas zoneDma 1 := by
    obtain ⟨p, o, hin, hp⟩ := hfree 0 (by omega) (by omega)
    obtain rfl : p = 0 := Nat.le_zero.mp hin.1
    have hb := ((hlists zoneDma o 0).mp hp).2
    rcases lowBoot_blocks halloc hb with ⟨-, rfl⟩ | htwo
    · exact hp
    · have hpow : 2 ^ 2 ≤ 2 ^ o := Nat.pow_le_pow_right (by decide) htwo
      have hin : In 0 o 2 := ⟨Nat.zero_le 2, by omega⟩
      have := (hd.free (0, o) hb 2 hin).2
      rw [(halloc 2 (by omega)).mpr (by omega)] at this
      cases this
  have hnext : (buddyInit 65536 map).NextFree zoneDma 0 1 0 := by
    refine ⟨fun j _ hj => ?_, ?_⟩
    · obtain rfl : j = 0 := by omega
      exact hempty
    · cases hlist : (buddyInit 65536 map).freeAreas zoneDma 1 with
      | nil => simp [hlist] at hzero
      | cons p rest =>
        have := lowBoot_blocks halloc ((hlists zoneDma 1 p).mp (hlist ▸ mem_cons_self)).2
        obtain rfl : p = 0 := by omega
        rfl
  have hcall := hinv.pmmAllocPages_zero (by decide) (by decide) hnext
  obtain ⟨p, o, hin, hp⟩ := hfree 264 (by omega) (by omega)
  refine ⟨by rw [hcall], ⟨o, p, hp, hin⟩, hempty, ?_⟩
  rw [hcall]
  have hsplit := (hinv.splitDown (z := zoneDma) (o := 0) 1 hzero).2.1
  exact (hsplit zoneDma 0 1).mpr (.inr (.inr ⟨rfl, le_rfl, by omega, rfl⟩))

end ShiziOS.Mm
