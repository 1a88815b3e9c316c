import ShiziOS.Mm.BuddyOps

/-!
# Allocation and freeing

The search, split and merge loops, and from them what one call of
`pmm_alloc_pages`, `pmm_free_pages` or `pmm_add_ref_count` does to a state that
satisfies the invariant: the listed blocks, the free pages and the live blocks
afterwards.
-/

namespace ShiziOS.Mm.Pmm

open Dyadic Function

variable {s : Pmm} {live : Nat → Option Live} {z o p q : Nat} {b : Live}

/-! ## Pages that are free -/

theorem splitBuddyBlock_isFree (h : s.FreeBlock z (o + 1) p) (q : Nat) :
    ((s.splitBuddyBlock p).blocks q).isFree = (s.blocks q).isFree := by
  rw [splitBuddyBlock_eq h]
  dsimp only
  split_ifs with hr hl
  · rw [h.blocks_eq q (in_split_iff.mpr (.inr hr))]
    rfl
  · rw [h.blocks_eq q (in_split_iff.mpr (.inl hl))]
    rfl
  · rfl

theorem mergeBuddyBlock_isFree {s' : Pmm} (h : s.FreeBlock z o p) (h' : s.FreeBlock z o (buddy p o))
    (hs : s.mergeBuddyBlock p (buddy p o) = some s') (q : Nat) :
    (s'.blocks q).isFree = (s.blocks q).isFree := by
  rw [mergeBuddyBlock_eq h h'] at hs
  cases hs
  dsimp only
  split_ifs with hq
  · rcases (in_succ_iff h.aligned).mp hq with hin | hin
    · rw [h.blocks_eq q hin]
      rfl
    · rw [h'.blocks_eq q hin]
      rfl
  · rfl

theorem Inv.mem_of_blocks (h : s.Inv live) (hfree : (s.blocks q).isFree = true)
    (horder : (s.blocks q).order = o) (hzone : (s.blocks q).zone = z) (hq : 2 ^ o ∣ q) :
    q ∈ s.freeAreas z o := by
  obtain ⟨z', o', p', hp', hin⟩ := h.free_listed hfree
  have hb := h.listed hp'
  rw [hb.blocks_eq q hin] at horder hzone
  obtain rfl : o' = o := horder
  obtain rfl : z' = z := hzone
  rwa [start_unique hq hb.aligned (in_self q o') hin]

theorem Inv.listed_iff (h : s.Inv live) :
    p ∈ s.freeAreas z o ↔ (s.blocks p).isFree = true ∧ (s.blocks p).order = o ∧
      (s.blocks p).zone = z ∧ 2 ^ o ∣ p := by
  constructor
  · intro hp
    have hb := h.listed hp
    rw [hb.head]
    exact ⟨rfl, rfl, rfl, hb.aligned⟩
  · rintro ⟨hfree, horder, hzone, hp⟩
    exact h.mem_of_blocks hfree horder hzone hp

/-! ## The search loop -/

/-- The first block of the first nonempty list from `order` on, which is `n` orders up. -/
structure NextFree (s : Pmm) (zone order n p : Nat) : Prop where
  below : ∀ j, order ≤ j → j < order + n → s.freeAreas zone j = []
  head : (s.freeAreas zone (order + n)).head? = some p

variable (h : s.Inv live)
include h

/-- Under the invariant no first node is skipped: the search stops at the first
nonempty list. -/
theorem Inv.findFree_cases (zone : Nat) : ∀ fuel cur pfn,
      (s.findFree zone fuel cur pfn = (pfn, none) ∧
        ∀ k, cur ≤ k → k < cur + fuel → s.freeAreas zone k = []) ∨
      ∃ n first, s.findFree zone fuel cur pfn = (first, some (cur + n)) ∧ n < fuel ∧
        s.NextFree zone cur n first := by
  intro fuel
  induction fuel with
  | zero =>
    intro cur pfn
    exact .inl ⟨rfl, fun k hk hk' => by omega⟩
  | succ fuel ih =>
    intro cur pfn
    cases hlist : s.freeAreas zone cur with
    | nil =>
      simp only [findFree, hlist]
      rcases ih (cur + 1) pfn with ⟨he, hempty⟩ | ⟨n, first, he, hn, hnext⟩
      · left
        refine ⟨he, fun k hk hk' => ?_⟩
        rcases Nat.eq_or_lt_of_le hk with rfl | hlt
        · exact hlist
        · exact hempty k hlt (by omega)
      · have horder : cur + 1 + n = cur + (n + 1) := by omega
        refine .inr ⟨n + 1, first, horder ▸ he, by omega, fun j hj hj' => ?_, horder ▸ hnext.head⟩
        rcases Nat.eq_or_lt_of_le hj with rfl | hlt
        · exact hlist
        · exact hnext.below j hlt (by omega)
    | cons first rest =>
      have hb := h.listed (hlist ▸ List.mem_cons_self : first ∈ s.freeAreas zone cur)
      refine .inr ⟨0, first,
        ?_, by omega, fun j hj hj' => by omega, by rw [Nat.add_zero, hlist]; rfl⟩
      simp [findFree, hlist, hb.head, freeMeta]

/-! ## The split loop -/

theorem Inv.splitDown (n : Nat) (hp : p ∈ s.freeAreas z (o + n)) : (s.splitDown p n).Inv live ∧
      (∀ z' o' q, q ∈ (s.splitDown p n).freeAreas z' o' ↔
        (q ∈ s.freeAreas z' o' ∧ q ≠ p) ∨ (z' = z ∧ o' = o ∧ q = p) ∨
          (z' = z ∧ o ≤ o' ∧ o' < o + n ∧ q = p + 2 ^ o')) ∧
      (∀ q, ((s.splitDown p n).blocks q).isFree = (s.blocks q).isFree) ∧
      (s.splitDown p n).endPfn = s.endPfn := by
  induction n generalizing s with
  | zero =>
    refine ⟨h, fun z' o' q => ?_, fun q => rfl, rfl⟩
    simp only [splitDown]
    constructor
    · intro hq
      by_cases hqp : q = p
      · subst hqp
        obtain ⟨rfl, rfl⟩ := h.listed_once hp hq
        exact .inr (.inl ⟨rfl, rfl, rfl⟩)
      · exact .inl ⟨hq, hqp⟩
    · rintro (⟨hq, -⟩ | ⟨rfl, rfl, rfl⟩ | ⟨-, hle, hlt, -⟩)
      · exact hq
      · exact hp
      · omega
  | succ n ih =>
    have hmem := mem_splitBuddyBlock h (o := o + n) hp
    have hp' : p ∈ (s.splitBuddyBlock p).freeAreas z (o + n) :=
      (hmem z (o + n) p).mpr (.inr ⟨rfl, rfl, .inl rfl⟩)
    obtain ⟨hinv, hlist, hfree, he⟩ := ih (h.splitBuddyBlock hp) hp'
    have hb := h.listed (o := o + n + 1) hp
    refine ⟨hinv, fun z' o' q => ?_, fun q => ?_, ?_⟩
    · have hne : q = p + 2 ^ o' → q ≠ p := by
        have := Nat.two_pow_pos o'
        omega
      rw [Pmm.splitDown, hlist, hmem]
      constructor
      · rintro (⟨⟨hq, hqp⟩ | ⟨rfl, rfl, rfl | rfl⟩, hqp'⟩ | hq | ⟨rfl, hle, hlt, rfl⟩)
        · exact .inl ⟨hq, hqp⟩
        · exact absurd rfl hqp'
        · exact .inr (.inr ⟨rfl, by omega, by omega, rfl⟩)
        · exact .inr (.inl hq)
        · exact .inr (.inr ⟨rfl, hle, by omega, rfl⟩)
      · rintro (⟨hq, hqp⟩ | hq | ⟨rfl, hle, hlt, hq⟩)
        · exact .inl ⟨.inl ⟨hq, hqp⟩, hqp⟩
        · exact .inr (.inl hq)
        · rcases Nat.lt_or_ge o' (o + n) with hlt' | hge
          · exact .inr (.inr ⟨rfl, hle, hlt', hq⟩)
          · obtain rfl : o' = o + n := by omega
            exact .inl ⟨.inr ⟨rfl, rfl, .inr hq⟩, hne hq⟩
    · rw [Pmm.splitDown, hfree, splitBuddyBlock_isFree hb]
    · rw [Pmm.splitDown, he, splitBuddyBlock_eq hb]

/-! ## Allocation -/

/-- What a call of `pmm_alloc_pages` does. It finds nothing and changes nothing; or
it finds frame `0`, splits its block and gives nothing out; or it takes the first
block of the first nonempty list, splits it down and hands its left end out. -/
theorem Inv.pmmAllocPages_cases (order zone : Nat) : (s.pmmAllocPages order zone = (0, s) ∧
      (maxOrder ≤ order ∨ zoneNormal < zone ∨ s.endPfn zone ≤ s.startPfn zone ∨
        ∀ k, order ≤ k → k < maxOrder → s.freeAreas zone k = [])) ∨
    ∃ n p, order + n < maxOrder ∧ s.NextFree zone order n p ∧ p ∈ s.freeAreas zone (order + n) ∧
      s.pmmAllocPages order zone =
        if p = 0 then (0, s.splitDown p n) else (p, (s.splitDown p n).takeBlock p order) := by
  unfold pmmAllocPages
  by_cases hargs : maxOrder ≤ order ∨ zoneNormal < zone
  · rw [if_pos hargs]
    exact .inl ⟨rfl, hargs.imp_right .inl⟩
  rw [if_neg hargs]
  rw [not_or, Nat.not_le, Nat.not_lt] at hargs
  by_cases hempty : s.endPfn zone ≤ s.startPfn zone
  · rw [if_pos hempty]
    exact .inl ⟨rfl, .inr (.inr (.inl hempty))⟩
  rw [if_neg hempty]
  have hfuel : order + (maxOrder - order) = maxOrder := by omega
  rcases h.findFree_cases zone (maxOrder - order) order 0 with
    ⟨he, hnone⟩ | ⟨n, p, he, hn, hnext⟩
  · rw [he]
    rw [hfuel] at hnone
    exact .inl ⟨rfl, .inr (.inr (.inr hnone))⟩
  · right
    refine ⟨n, p, by omega, hnext, List.mem_of_head? hnext.head, ?_⟩
    rw [he]
    simp only [Nat.add_sub_cancel_left, ne_eq, ite_not]

/-- The listed blocks after a successful allocation: the found block is gone, and
the right halves cut off on the way down are new. -/
theorem Inv.alloc_taken {order n : Nat} (hp : p ∈ s.freeAreas z (order + n)) (h0 : p ≠ 0) :
    ((s.splitDown p n).takeBlock p order).Inv (update live p (some ⟨order, z, 1⟩)) ∧
      (∀ z' o' q, q ∈ ((s.splitDown p n).takeBlock p order).freeAreas z' o' ↔
        (q ∈ s.freeAreas z' o' ∧ q ≠ p) ∨
          (z' = z ∧ order ≤ o' ∧ o' < order + n ∧ q = p + 2 ^ o')) ∧
      (∀ q, (((s.splitDown p n).takeBlock p order).blocks q).isFree = true ↔
        (s.blocks q).isFree = true ∧ ¬ In p order q) := by
  obtain ⟨hinv, hlist, hfree, -⟩ := h.splitDown (o := order) n hp
  have hp' : p ∈ (s.splitDown p n).freeAreas z order :=
    (hlist z order p).mpr (.inr (.inl ⟨rfl, rfl, rfl⟩))
  have hb := hinv.listed hp'
  refine ⟨hinv.takeBlock hp' h0, fun z' o' q => ?_, fun q => ?_⟩
  · have hne : q = p + 2 ^ o' → q ≠ p := by
      have := Nat.two_pow_pos o'
      omega
    rw [takeBlock_freeAreas hb, (hinv.nodup z' o').mem_erase_iff, hlist]
    tauto
  · rw [takeBlock_blocks hb, ← hfree q]
    split_ifs with hq
    · simp [hq, liveMeta]
    · simp [hq]

/-! ## The merge loop -/

theorem Inv.buddy_listed_iff (hp : p ∈ s.freeAreas z o) : buddy p o ∈ s.freeAreas z o ↔
      buddy p o ≤ s.maxPfn ∧ (s.blocks (buddy p o)).isFree = true ∧
        (s.blocks (buddy p o)).order = o ∧ (s.blocks (buddy p o)).zone = z := by
  constructor
  · intro hr
    obtain ⟨hfree, horder, hzone, -⟩ := h.listed_iff.mp hr
    exact ⟨h.le_maxPfn hr, hfree, horder, hzone⟩
  · rintro ⟨-, hfree, horder, hzone⟩
    exact h.mem_of_blocks hfree horder hzone (dvd_buddy (h.listed hp).aligned)

theorem Inv.mergeUp_succ (hp : p ∈ s.freeAreas z o) (ho : o + 1 < maxOrder) (fuel : Nat) :
    (buddy p o ∉ s.freeAreas z o ∧ s.mergeUp z (fuel + 1) p o = s) ∨
    ∃ s' : Pmm, buddy p o ∈ s.freeAreas z o ∧ s'.Inv live ∧
      s'.freeAreas = s.mergeAreas z o p ∧ (∀ q, (s'.blocks q).isFree = (s.blocks q).isFree) ∧
      s.mergeUp z (fuel + 1) p o = s'.mergeUp z fuel (min p (buddy p o)) (o + 1) := by
  have htest := h.buddy_listed_iff hp
  by_cases hr : buddy p o ∈ s.freeAreas z o
  · right
    obtain ⟨s', hs', hinv, hareas⟩ := h.mergeBuddyBlock hp hr ho
    refine ⟨s', hr, hinv, hareas, mergeBuddyBlock_isFree (h.listed hp) (h.listed hr) hs', ?_⟩
    rw [mergeUp]
    simp only [show p ^^^ 2 ^ o = buddy p o from rfl]
    rw [if_pos (htest.mp hr), hs']
    simp only [min_buddy]
  · left
    refine ⟨hr, ?_⟩
    rw [mergeUp]
    simp only [show p ^^^ 2 ^ o = buddy p o from rfl]
    rw [if_neg (fun ht => hr (htest.mpr ht))]

omit h in
theorem Inv.mergeUp (fuel : Nat) (h : s.Inv live) (hp : p ∈ s.freeAreas z o)
    (ho : o + fuel < maxOrder) :
    (s.mergeUp z fuel p o).Inv live ∧
      ∀ q, ((s.mergeUp z fuel p o).blocks q).isFree = (s.blocks q).isFree := by
  induction fuel generalizing s p o with
  | zero => exact ⟨h, fun q => rfl⟩
  | succ fuel ih =>
    rcases h.mergeUp_succ hp (by omega) fuel with ⟨-, he⟩ | ⟨s', hr, hinv, hareas, hfree, he⟩
    · rw [he]
      exact ⟨h, fun q => rfl⟩
    · have hp' : min p (buddy p o) ∈ s'.freeAreas z (o + 1) := by
        rw [hareas, mem_mergeAreas h]
        exact .inr ⟨rfl, rfl, rfl⟩
      obtain ⟨hinv', hfree'⟩ := ih hinv hp' (by omega)
      rw [he]
      exact ⟨hinv', fun q => (hfree' q).trans (hfree q)⟩

/-! ## Freeing and referencing -/

variable (hp : live p = some b)
include hp

theorem Inv.pmmFreePages_eq : s.pmmFreePages p =
    if 1 < b.refs then some (s.dropRefs p b.order)
    else some (((s.dropRefs p b.order).giveBlock p b.order b.zone).mergeUp b.zone
      (maxOrder - 1 - b.order) p b.order) := by
  have hb := h.live hp
  have hcount : ((s.dropRefs p b.order).blocks p).refCount = b.refs - 1 := by
    rw [dropRefs_blocks hb, if_pos (in_self p b.order)]
    rfl
  simp only [pmmFreePages, if_neg (Nat.not_lt.mpr (h.live_le_maxPfn hp)), hb.head, liveMeta]
  rw [if_neg (by simp), hcount]
  simp only [Nat.sub_pos_iff_lt]

theorem Inv.pmmFreePages_shared (hrefs : 1 < b.refs) : ∃ s', s.pmmFreePages p = some s' ∧
      s'.Inv (update live p (some { b with refs := b.refs - 1 })) ∧
      s'.freeAreas = s.freeAreas ∧ ∀ q, (s'.blocks q).isFree = (s.blocks q).isFree := by
  have hb := h.live hp
  have hlt := hb.refs_lt
  obtain ⟨hinv, hfree⟩ :=
    h.setRefs hp (dropRefs_blocks hb) (by omega) (by omega) rfl rfl rfl rfl
  exact ⟨_, by rw [h.pmmFreePages_eq hp, if_pos hrefs], hinv, rfl, hfree⟩

theorem Inv.pmmFreePages_last (hrefs : b.refs = 1) :
    s.pmmFreePages p = some (((s.dropRefs p b.order).giveBlock p b.order b.zone).mergeUp b.zone
      (maxOrder - 1 - b.order) p b.order) := by
  rw [h.pmmFreePages_eq hp, if_neg (by omega)]

theorem Inv.giveBlock_isFree (q : Nat) :
    (((s.dropRefs p b.order).giveBlock p b.order b.zone).blocks q).isFree = true ↔
      (s.blocks q).isFree = true ∨ In p b.order q := by
  have hb := h.live hp
  simp only [Pmm.giveBlock, addFreeLists_blocks]
  by_cases hq : In p b.order q
  · rw [setPages_of_in hq]
    simp [hq]
  · rw [setPages_of_not_in hq, dropRefs_blocks hb, if_neg hq]
    simp [hq]

theorem Inv.pmmFreePages_last_inv (hrefs : b.refs = 1) :
    ∃ s', s.pmmFreePages p = some s' ∧ s'.Inv (update live p none) ∧
      ∀ q, (s'.blocks q).isFree = true ↔ (s.blocks q).isFree = true ∨ In p b.order q := by
  obtain ⟨hinv, hareas⟩ := h.giveBlock hp hrefs
  have hlt := (h.live hp).order_lt
  have hp' : p ∈ ((s.dropRefs p b.order).giveBlock p b.order b.zone).freeAreas b.zone b.order := by
    rw [hareas, if_pos ⟨rfl, rfl⟩]
    exact List.mem_cons_self
  obtain ⟨hinv', hfree⟩ := hinv.mergeUp (maxOrder - 1 - b.order) hp' (by omega)
  refine ⟨_, h.pmmFreePages_last hp hrefs, hinv', fun q => ?_⟩
  rw [hfree, h.giveBlock_isFree hp]

theorem Inv.pmmAddRefCount (hrefs : b.refs + 1 < 2 ^ 32) : ∃ s', s.pmmAddRefCount p = some s' ∧
      s'.Inv (update live p (some { b with refs := b.refs + 1 })) ∧
      s'.freeAreas = s.freeAreas ∧ ∀ q, (s'.blocks q).isFree = (s.blocks q).isFree := by
  have hb := h.live hp
  have hle := h.live_le_maxPfn hp
  have hblocks : ∀ q, ({ s with blocks := setPages s.blocks p (2 ^ b.order) fun _ m =>
      { m with refCount := (m.refCount + 1) % 2 ^ 32 } } : Pmm).blocks q =
        if In p b.order q then liveMeta { b with refs := b.refs + 1 } (q - p) else s.blocks q := by
    intro q
    dsimp only
    split_ifs with hq
    · rw [setPages_of_in hq, hb.blocks_eq q hq]
      simp only [liveMeta, Nat.mod_eq_of_lt hrefs]
    · rw [setPages_of_not_in hq]
  obtain ⟨hinv, hfree⟩ := h.setRefs hp hblocks (by omega) hrefs rfl rfl rfl rfl
  refine ⟨_, ?_, hinv, rfl, hfree⟩
  simp only [Pmm.pmmAddRefCount, if_neg (Nat.not_lt.mpr hle), hb.head, liveMeta]

end ShiziOS.Mm.Pmm
