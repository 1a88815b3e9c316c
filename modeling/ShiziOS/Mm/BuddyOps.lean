import ShiziOS.Mm.BuddyInv

/-!
# One rewrite at a time

Splitting a listed block, merging two listed buddies, handing a listed block out,
taking a live block back and counting references: each keeps `Pmm.Inv`, and each
comes with the exact effect on the free lists. The loops of allocation and freeing
are iterations of these.
-/

namespace ShiziOS.Mm.Pmm

open Dyadic List Function

variable {s : Pmm} {live : Nat → Option Live} {z o p : Nat} {b : Live}

theorem removeFreeLists_eq (h : (s.blocks p).zone ≠ 0xFF) :
    s.removeFreeLists p = { s with freeAreas := fun z o => (s.freeAreas z o).erase p } := if_neg h

@[simp] theorem addFreeLists_freeAreas (s : Pmm) (pfn zone order z o : Nat) :
    (s.addFreeLists pfn zone order).freeAreas z o =
      if z = zone ∧ o = order then pfn :: s.freeAreas z o else s.freeAreas z o := rfl

@[simp] theorem addFreeLists_blocks (s : Pmm) (pfn zone order : Nat) :
    (s.addFreeLists pfn zone order).blocks = s.blocks := rfl

/-! ## Splitting -/

theorem splitBuddyBlock_eq (h : s.FreeBlock z (o + 1) p) :
    s.splitBuddyBlock p =
      { s with
        freeAreas := fun z' o' =>
          if z' = z ∧ o' = o then (p + 2 ^ o) :: p :: (s.freeAreas z' o').erase p
          else (s.freeAreas z' o').erase p
        blocks := fun q =>
          if In (p + 2 ^ o) o q then freeMeta z o (q - (p + 2 ^ o))
          else if In p o q then freeMeta z o (q - p) else s.blocks q } := by
  have hzone : (s.blocks p).zone = z := by rw [h.head]; rfl
  have horder : (s.blocks p).order = o + 1 := by rw [h.head]; rfl
  have hright : p ^^^ 2 ^ o = p + 2 ^ o := buddy_of_dvd_succ h.aligned
  simp only [splitBuddyBlock, removeFreeLists_eq h.zone_ne, hzone, horder, Nat.add_sub_cancel,
    hright]
  simp only [addFreeLists, Pmm.mk.injEq, true_and]
  constructor
  · funext z' o'
    split_ifs <;> rfl
  · rfl

theorem mem_splitBuddyBlock (h : s.Inv live) (hp : p ∈ s.freeAreas z (o + 1)) (z' o' q : Nat) :
    q ∈ (s.splitBuddyBlock p).freeAreas z' o' ↔
      (q ∈ s.freeAreas z' o' ∧ q ≠ p) ∨ (z' = z ∧ o' = o ∧ (q = p ∨ q = p + 2 ^ o)) := by
  rw [splitBuddyBlock_eq (h.listed hp)]
  dsimp only
  split_ifs with hzo
  · rw [mem_cons, mem_cons, (h.nodup z' o').mem_erase_iff]
    tauto
  · rw [(h.nodup z' o').mem_erase_iff]
    tauto

theorem Inv.splitBuddyBlock (h : s.Inv live) (hp : p ∈ s.freeAreas z (o + 1)) :
    (s.splitBuddyBlock p).Inv live := by
  have hb := h.listed hp
  have hmem := mem_splitBuddyBlock h hp
  have hblocks : ∀ q, (s.splitBuddyBlock p).blocks q =
      if In (p + 2 ^ o) o q then freeMeta z o (q - (p + 2 ^ o))
      else if In p o q then freeMeta z o (q - p) else s.blocks q := by
    intro q
    rw [splitBuddyBlock_eq hb]
  have hfields : (s.splitBuddyBlock p).startPfn = s.startPfn ∧
      (s.splitBuddyBlock p).endPfn = s.endPfn ∧ (s.splitBuddyBlock p).maxPfn = s.maxPfn := by
    rw [splitBuddyBlock_eq hb]
    exact ⟨rfl, rfl, rfl⟩
  have hpos := Nat.two_pow_pos o
  have hend := hb.le_end
  have hstart := hb.start_le
  have horder := hb.order_lt
  have hleft : (s.splitBuddyBlock p).Extent z o p := Extent.congr
    ⟨hb.zone_le, by omega, dvd_of_dvd_succ hb.aligned, hstart, by omega⟩ hfields.1 hfields.2.1
  have hright : (s.splitBuddyBlock p).Extent z o (p + 2 ^ o) := Extent.congr
    ⟨hb.zone_le, by omega, dvd_add_two_pow hb.aligned, by omega, by omega⟩ hfields.1 hfields.2.1
  refine h.retile (In p (o + 1)) hfields.1 hfields.2.1 hfields.2.2 ?_ ?_ ?_ ?_ ?_ ?_
  · intro q hq
    rw [in_split_iff, not_or] at hq
    rw [hblocks, if_neg hq.2, if_neg hq.1]
  · intro z' o'
    rw [splitBuddyBlock_eq hb]
    dsimp only
    split_ifs with hzo
    · -- the halves are new on this list: both lie in the block that was split
      have hnot : ∀ r, In p (o + 1) r → r ∉ s.freeAreas z' o' := by
        intro r hr hr'
        have := (h.mem_iff_of_in hp hr).mp ⟨hr', in_self r o'⟩
        omega
      have hpin : p ∉ s.freeAreas z' o' := hnot p (in_self p _)
      have hrin : p + 2 ^ o ∉ s.freeAreas z' o' := by
        refine hnot _ (in_add ?_)
        rw [pow_succ]
        omega
      rw [erase_of_not_mem hpin, nodup_cons, nodup_cons, mem_cons, not_or]
      exact ⟨⟨by omega, hrin⟩, hpin, h.nodup z' o'⟩
    · exact (h.nodup z' o').erase p
  · intro z' o' q hq
    rcases (hmem z' o' q).mp hq with ⟨hq, hne⟩ | ⟨rfl, rfl, rfl | rfl⟩
    · left
      refine ⟨hq, fun r hr hR => hne ?_⟩
      exact ((h.mem_iff_of_in hp hR).mp ⟨hq, hr⟩).2.2
    · right
      refine ⟨hleft, fun r hr => ?_⟩
      rw [hblocks, if_neg hr.not_in_right, if_pos hr]
    · right
      refine ⟨hright, fun r hr => ?_⟩
      rw [hblocks, if_pos hr]
  · intro z' o' q r hq hin hR
    refine (hmem z' o' q).mpr (.inl ⟨hq, ?_⟩)
    rintro rfl
    obtain ⟨rfl, rfl⟩ := h.listed_once hp hq
    exact hR hin
  · intro q hR _
    rcases in_split_iff.mp hR with hq | hq
    · exact ⟨z, o, p, (hmem z o p).mpr (.inr ⟨rfl, rfl, .inl rfl⟩), hq⟩
    · exact ⟨z, o, p + 2 ^ o, (hmem z o _).mpr (.inr ⟨rfl, rfl, .inr rfl⟩), hq⟩
  · intro p' b' hb'
    exact .inl ⟨hb', fun q hq hR => hb.not_in_live (h.live hb') hR hq⟩

/-! ## Merging -/

/-- The list effect of a merge of `p` with its buddy. -/
def mergeAreas (s : Pmm) (z o p : Nat) : Nat → Nat → List Nat := fun z' o' =>
  if z' = z ∧ o' = o + 1 then
    min p (buddy p o) :: ((s.freeAreas z' o').erase p).erase (buddy p o)
  else ((s.freeAreas z' o').erase p).erase (buddy p o)

theorem min_buddy (p o : Nat) : (if p < buddy p o then p else buddy p o) = min p (buddy p o) := by
  rw [Nat.min_def]
  have := buddy_ne p o
  split_ifs <;> omega

theorem mergeBuddyBlock_eq (h : s.FreeBlock z o p) (h' : s.FreeBlock z o (buddy p o)) :
    s.mergeBuddyBlock p (buddy p o) = some
      { s with
        freeAreas := s.mergeAreas z o p
        blocks := fun q => if In (min p (buddy p o)) (o + 1) q
          then freeMeta z (o + 1) (q - min p (buddy p o)) else s.blocks q } := by
  have hzone : (s.blocks p).zone = z := by rw [h.head]; rfl
  have horder : (s.blocks p).order = o := by rw [h.head]; rfl
  have hzone' : (s.blocks (buddy p o)).zone = z := by rw [h'.head]; rfl
  have horder' : (s.blocks (buddy p o)).order = o := by rw [h'.head]; rfl
  have hxor : p ^^^ buddy p o = 2 ^ o := by
    rw [buddy, ← Nat.xor_assoc, Nat.xor_self, Nat.zero_xor]
  have hff' : (({ s with freeAreas := fun z o => (s.freeAreas z o).erase p } : Pmm).blocks
      (buddy p o)).zone ≠ 0xFF := h'.zone_ne
  simp only [mergeBuddyBlock, hzone, horder, hzone', horder', ne_eq, not_true_eq_false, or_self,
    if_false, hxor, removeFreeLists_eq h.zone_ne, removeFreeLists_eq hff', min_buddy]
  simp only [addFreeLists, Option.some.injEq, Pmm.mk.injEq, true_and]
  refine ⟨rfl, ?_⟩
  funext q
  by_cases hq : In (min p (buddy p o)) (o + 1) q
  · rw [setPages_of_in hq, if_pos hq]
    -- both halves carry the zone and the zero counter of a free block already
    rcases (in_succ_iff h.aligned).mp hq with hin | hin
    · rw [h.blocks_eq q hin]
      rfl
    · rw [h'.blocks_eq q hin]
      rfl
  · rw [setPages_of_not_in hq, if_neg hq]

theorem mem_mergeAreas (h : s.Inv live) (z o p z' o' q : Nat) :
    q ∈ s.mergeAreas z o p z' o' ↔
      (q ∈ s.freeAreas z' o' ∧ q ≠ p ∧ q ≠ buddy p o) ∨
        (z' = z ∧ o' = o + 1 ∧ q = min p (buddy p o)) := by
  have hnd := h.nodup z' o'
  rw [mergeAreas]
  split_ifs with hzo
  · rw [mem_cons, (hnd.erase p).mem_erase_iff, hnd.mem_erase_iff]
    tauto
  · rw [(hnd.erase p).mem_erase_iff, hnd.mem_erase_iff]
    tauto

theorem Inv.mergeBuddyBlock (h : s.Inv live) (hp : p ∈ s.freeAreas z o)
    (hr : buddy p o ∈ s.freeAreas z o) (ho : o + 1 < maxOrder) :
    ∃ s', s.mergeBuddyBlock p (buddy p o) = some s' ∧ s'.Inv live ∧
      s'.freeAreas = s.mergeAreas z o p := by
  have hb := h.listed hp
  have hb' := h.listed hr
  refine ⟨_, mergeBuddyBlock_eq hb hb', ?_, rfl⟩
  have hregion : ∀ q, In (min p (buddy p o)) (o + 1) q ↔ In p o q ∨ In (buddy p o) o q :=
    fun q => in_succ_iff hb.aligned
  -- a listed block that meets the region is one of the two halves
  have hhalf : ∀ {z' o' q r}, q ∈ s.freeAreas z' o' → In q o' r →
      In (min p (buddy p o)) (o + 1) r → z' = z ∧ o' = o ∧ (q = p ∨ q = buddy p o) := by
    intro z' o' q r hq hin hR
    rcases (hregion r).mp hR with hr' | hr'
    · obtain ⟨hz, ho, hq⟩ := (h.mem_iff_of_in hp hr').mp ⟨hq, hin⟩
      exact ⟨hz, ho, .inl hq⟩
    · obtain ⟨hz, ho, hq⟩ := (h.mem_iff_of_in hr hr').mp ⟨hq, hin⟩
      exact ⟨hz, ho, .inr hq⟩
  refine h.retile (In (min p (buddy p o)) (o + 1)) rfl rfl rfl ?_ ?_ ?_ ?_ ?_ ?_
  · intro q hq
    exact if_neg hq
  · intro z' o'
    have hnd := ((h.nodup z' o').erase p).erase (buddy p o)
    show (s.mergeAreas z o p z' o').Nodup
    simp only [mergeAreas]
    split_ifs with hzo
    · refine nodup_cons.mpr ⟨fun hm => ?_, hnd⟩
      -- the merged start is listed at order `o` only
      have hm' := mem_of_mem_erase (mem_of_mem_erase hm)
      have := (hhalf hm' (in_self _ o') (in_self _ (o + 1))).2.1
      omega
    · exact hnd
  · intro z' o' q hq
    rcases (mem_mergeAreas h z o p z' o' q).mp hq with ⟨hq, hne, hne'⟩ | ⟨rfl, rfl, rfl⟩
    · left
      refine ⟨hq, fun r hin hR => ?_⟩
      rcases (hhalf hq hin hR).2.2 with rfl | rfl
      · exact hne rfl
      · exact hne' rfl
    · right
      refine ⟨⟨hb.zone_le, ho, dvd_min_buddy hb.aligned, ?_, ?_⟩, fun q hq => if_pos hq⟩
      · exact le_min hb.start_le hb'.start_le
      · show min p (buddy p o) + 2 ^ (o + 1) ≤ s.endPfn z'
        have := hb.le_end
        have := hb'.le_end
        rcases half_cases hb.aligned with ⟨_, he⟩ | ⟨_, he⟩ <;> omega
  · intro z' o' q r hq hin hR
    refine (mem_mergeAreas h z o p z' o' q).mpr (.inl ⟨hq, ?_, ?_⟩)
    · rintro rfl
      obtain ⟨rfl, rfl⟩ := h.listed_once hp hq
      exact hR ((hregion r).mpr (.inl hin))
    · rintro rfl
      obtain ⟨rfl, rfl⟩ := h.listed_once hr hq
      exact hR ((hregion r).mpr (.inr hin))
  · intro q hR _
    exact ⟨z, o + 1, _, (mem_mergeAreas h z o p z (o + 1) _).mpr (.inr ⟨rfl, rfl, rfl⟩), hR⟩
  · intro p' b' hlive
    refine .inl ⟨hlive, fun q hq hR => ?_⟩
    rcases (hregion q).mp hR with hin | hin
    · exact hb.not_in_live (h.live hlive) hin hq
    · exact hb'.not_in_live (h.live hlive) hin hq

/-! ## Handing out and taking back -/

theorem takeBlock_freeAreas (h : s.FreeBlock z o p) (z' o' : Nat) :
    (s.takeBlock p o).freeAreas z' o' = (s.freeAreas z' o').erase p := by
  simp only [takeBlock, removeFreeLists_eq h.zone_ne]

theorem takeBlock_blocks (h : s.FreeBlock z o p) (q : Nat) :
    (s.takeBlock p o).blocks q =
      if In p o q then liveMeta ⟨o, z, 1⟩ (q - p) else s.blocks q := by
  simp only [takeBlock, removeFreeLists_eq h.zone_ne]
  split_ifs with hq
  · rw [setPages_of_in hq, h.blocks_eq q hq]
    rfl
  · rw [setPages_of_not_in hq]

theorem takeBlock_fields (h : s.FreeBlock z o p) :
    (s.takeBlock p o).startPfn = s.startPfn ∧ (s.takeBlock p o).endPfn = s.endPfn ∧
      (s.takeBlock p o).maxPfn = s.maxPfn := by
  simp only [takeBlock, removeFreeLists_eq h.zone_ne, and_self]

theorem Inv.takeBlock (h : s.Inv live) (hp : p ∈ s.freeAreas z o) (h0 : p ≠ 0) :
    (s.takeBlock p o).Inv (update live p (some ⟨o, z, 1⟩)) := by
  have hb := h.listed hp
  obtain ⟨hs, he, hm⟩ := takeBlock_fields hb
  refine h.retile (In p o) hs he hm ?_ ?_ ?_ ?_ ?_ ?_
  · intro q hq
    rw [takeBlock_blocks hb, if_neg hq]
  · intro z' o'
    rw [takeBlock_freeAreas hb]
    exact (h.nodup z' o').erase p
  · intro z' o' q hq
    rw [takeBlock_freeAreas hb, (h.nodup z' o').mem_erase_iff] at hq
    exact .inl ⟨hq.2, fun r hr hR => hq.1 ((h.mem_iff_of_in hp hR).mp ⟨hq.2, hr⟩).2.2⟩
  · intro z' o' q r hq hin hR
    rw [takeBlock_freeAreas hb, (h.nodup z' o').mem_erase_iff]
    refine ⟨?_, hq⟩
    rintro rfl
    obtain ⟨rfl, rfl⟩ := h.listed_once hp hq
    exact hR hin
  · intro q hR hfree
    rw [takeBlock_blocks hb, if_pos hR] at hfree
    simp [liveMeta] at hfree
  · intro p' b' hp'
    by_cases hpp : p' = p
    · subst hpp
      rw [update_self, Option.some.injEq] at hp'
      subst hp'
      refine .inr ⟨hb.toExtent.congr hs he, h0, Nat.one_pos, Nat.one_lt_two_pow (by decide),
        fun q hq => ?_⟩
      rw [takeBlock_blocks hb, if_pos hq]
    · rw [update_of_ne hpp] at hp'
      exact .inl ⟨hp', fun q hq hR => hb.not_in_live (h.live hp') hR hq⟩

theorem two_pow_lt_uint16 (ho : o < maxOrder) : 2 ^ o % 2 ^ 16 = 2 ^ o := by
  refine Nat.mod_eq_of_lt (Nat.pow_lt_pow_right (by decide) ?_)
  simpa [maxOrder] using ho

theorem dropRefs_blocks (h : s.LiveBlock p b) (q : Nat) :
    (s.dropRefs p b.order).blocks q =
      if In p b.order q then liveMeta { b with refs := b.refs - 1 } (q - p) else s.blocks q := by
  simp only [dropRefs, two_pow_lt_uint16 h.order_lt]
  split_ifs with hq
  · rw [setPages_of_in hq, h.blocks_eq q hq]
    simp [liveMeta, h.refs_pos]
  · rw [setPages_of_not_in hq]

theorem Inv.setRefs {s' : Pmm} {n : Nat} (h : s.Inv live) (hp : live p = some b)
    (hblocks : ∀ q, s'.blocks q =
      if In p b.order q then liveMeta { b with refs := n } (q - p) else s.blocks q)
    (hpos : 0 < n) (hlt : n < 2 ^ 32) (hs : s'.startPfn = s.startPfn) (he : s'.endPfn = s.endPfn)
    (hm : s'.maxPfn = s.maxPfn) (hf : s'.freeAreas = s.freeAreas) :
    s'.Inv (update live p (some { b with refs := n })) ∧
      ∀ q, (s'.blocks q).isFree = (s.blocks q).isFree := by
  have hb := h.live hp
  refine ⟨?_, fun q => ?_⟩
  swap
  · rw [hblocks]
    split_ifs with hq
    · rw [hb.blocks_eq q hq]
      rfl
    · rfl
  refine h.retile (In p b.order) hs he hm ?_ ?_ ?_ ?_ ?_ ?_
  · intro q hq
    rw [hblocks, if_neg hq]
  · intro z' o'
    rw [hf]
    exact h.nodup z' o'
  · intro z' o' q hq
    rw [hf] at hq
    exact .inl ⟨hq, fun r hr hR => (h.listed hq).not_in_live hb hr hR⟩
  · intro z' o' q r hq _ _
    rwa [hf]
  · intro q hR hfree
    rw [hblocks, if_pos hR] at hfree
    simp [liveMeta] at hfree
  · intro p' b' hp'
    by_cases hpp : p' = p
    · subst hpp
      rw [update_self, Option.some.injEq] at hp'
      subst hp'
      refine .inr ⟨hb.toExtent.congr hs he, hb.ne_zero, hpos, hlt, fun q hq => ?_⟩
      rw [hblocks, if_pos hq]
    · rw [update_of_ne hpp] at hp'
      exact .inl ⟨hp', fun q hq hR => hpp ((h.live hp').unique hb hq hR)⟩

theorem Inv.giveBlock (h : s.Inv live) (hp : live p = some b) (hrefs : b.refs = 1) :
    ((s.dropRefs p b.order).giveBlock p b.order b.zone).Inv (update live p none) ∧
      ∀ z o, ((s.dropRefs p b.order).giveBlock p b.order b.zone).freeAreas z o =
        if z = b.zone ∧ o = b.order then p :: s.freeAreas z o else s.freeAreas z o := by
  have hb := h.live hp
  have hblocks : ∀ q, ((s.dropRefs p b.order).giveBlock p b.order b.zone).blocks q =
      if In p b.order q then freeMeta b.zone b.order (q - p) else s.blocks q := by
    intro q
    simp only [Pmm.giveBlock, addFreeLists_blocks]
    split_ifs with hq
    · rw [setPages_of_in hq, dropRefs_blocks hb, if_pos hq]
      simp [liveMeta, freeMeta, hrefs]
    · rw [setPages_of_not_in hq, dropRefs_blocks hb, if_neg hq]
  have hareas : ∀ z o, ((s.dropRefs p b.order).giveBlock p b.order b.zone).freeAreas z o =
      if z = b.zone ∧ o = b.order then p :: s.freeAreas z o else s.freeAreas z o :=
    fun z o => rfl
  refine ⟨?_, hareas⟩
  have hnot : ∀ {z' o' r}, r ∈ s.freeAreas z' o' → ∀ q, In r o' q → ¬ In p b.order q :=
    fun hr q hq hR => (h.listed hr).not_in_live hb hq hR
  refine h.retile (In p b.order) rfl rfl rfl ?_ ?_ ?_ ?_ ?_ ?_
  · intro q hq
    rw [hblocks, if_neg hq]
  · intro z' o'
    rw [hareas]
    split_ifs with hzo
    · refine nodup_cons.mpr ⟨fun hm => ?_, h.nodup z' o'⟩
      exact hnot hm p (in_self p o') (in_self p b.order)
    · exact h.nodup z' o'
  · intro z' o' q hq
    rw [hareas] at hq
    split_ifs at hq with hzo
    · rcases mem_cons.mp hq with rfl | hq
      · rw [hzo.1, hzo.2]
        exact .inr ⟨hb.toExtent.congr rfl rfl, fun r hr => by rw [hblocks, if_pos hr]⟩
      · exact .inl ⟨hq, hnot hq⟩
    · exact .inl ⟨hq, hnot hq⟩
  · intro z' o' q r hq _ _
    rw [hareas]
    split_ifs
    · exact mem_cons_of_mem p hq
    · exact hq
  · intro q hR _
    refine ⟨b.zone, b.order, p, ?_, hR⟩
    rw [hareas, if_pos ⟨rfl, rfl⟩]
    exact mem_cons_self
  · intro p' b' hp'
    have hpp : p' ≠ p := by
      rintro rfl
      simp at hp'
    rw [update_of_ne hpp] at hp'
    exact .inl ⟨hp', fun q hq hR => hpp ((h.live hp').unique hb hq hR)⟩

end ShiziOS.Mm.Pmm
