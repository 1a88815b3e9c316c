import ShiziOS.Mm.BuddyRun

/-!
# Complete coalescing

A canonical allocator lists no two buddies. The greedy cut at boot is canonical,
splitting a block and taking its left end keeps it so, and the merge loop restores it:
while it runs, the only listed buddies involve the block it is at. In a canonical
state a free therefore undoes an allocation.

Frame `0` spoils this: its block is split and then not handed out, which lists both
halves. The results are for allocators whose frame `0` is not free.
-/

namespace ShiziOS.Mm

open Dyadic Option

namespace Pmm

variable {s s' : Pmm} {live : Nat → Option Live} {z o p q : Nat} {b : Live}

/-- No two listed blocks of an order that can still merge are buddies. -/
def Canonical (s : Pmm) : Prop :=
  ∀ z o p, o < maxOrder - 1 → p ∈ s.freeAreas z o → buddy p o ∉ s.freeAreas z o

/-- The only listed buddies involve the block at `p`. -/
def CanonicalExcept (s : Pmm) (z o p : Nat) : Prop :=
  ∀ z' o' q, o' < maxOrder - 1 → q ∈ s.freeAreas z' o' → buddy q o' ∈ s.freeAreas z' o' →
    z' = z ∧ o' = o ∧ (q = p ∨ buddy q o' = p)

theorem CanonicalExcept.canonical (h : s.CanonicalExcept z o p)
    (hb : o < maxOrder - 1 → buddy p o ∉ s.freeAreas z o) : s.Canonical := by
  intro z' o' q ho hq hq'
  obtain ⟨rfl, rfl, rfl | rfl⟩ := h z' o' q ho hq hq'
  · exact hb ho hq'
  · rw [buddy_buddy] at hb
    exact hb ho hq

/-! ## Allocation -/

theorem buddy_right_half {n k : Nat} (hp : 2 ^ n ∣ p) (hk : k < n) : buddy (p + 2 ^ k) k = p := by
  have hd : 2 ^ (k + 1) ∣ p := (pow_dvd_pow 2 hk).trans hp
  rw [← buddy_of_dvd_succ hd, buddy_buddy]

theorem Canonical.alloc_taken (hc : s.Canonical) (h : s.Inv live) {order n : Nat}
    (hp : p ∈ s.freeAreas z (order + n)) (h0 : p ≠ 0) :
    ((s.splitDown p n).takeBlock p order).Canonical := by
  obtain ⟨-, hlist, -⟩ := h.alloc_taken hp h0
  have haligned := (h.listed hp).aligned
  intro z' o' q ho hq hq'
  rw [hlist] at hq hq'
  rcases hq with ⟨hq, hne⟩ | ⟨rfl, -, hlt, rfl⟩
  · rcases hq' with ⟨hq', -⟩ | ⟨rfl, -, hlt, he⟩
    · exact hc z' o' q ho hq hq'
    · rw [← buddy_buddy q o', he] at hne
      exact hne (buddy_right_half haligned hlt)
  · rw [buddy_right_half haligned hlt] at hq'
    rcases hq' with ⟨-, hne⟩ | ⟨-, -, -, he⟩
    · exact hne rfl
    · have := Nat.two_pow_pos o'
      omega

/-! ## Freeing -/

theorem CanonicalExcept.merge (hc : s.CanonicalExcept z o p) (h : s.Inv live)
    (hs : s'.freeAreas = s.mergeAreas z o p) :
    s'.CanonicalExcept z (o + 1) (min p (buddy p o)) := by
  intro z' o' q ho hq hq'
  rw [hs, mem_mergeAreas h] at hq hq'
  rcases hq with ⟨hq, hne, hne'⟩ | ⟨hz, ho', he⟩
  · rcases hq' with ⟨hq', hne2, -⟩ | ⟨hz, ho', he⟩
    · obtain ⟨-, -, he | he⟩ := hc z' o' q ho hq hq'
      · exact absurd he hne
      · exact absurd he hne2
    · exact ⟨hz, ho', .inr he⟩
  · exact ⟨hz, ho', .inl he⟩

theorem CanonicalExcept.mergeUp (fuel : Nat) (hc : s.CanonicalExcept z o p) (h : s.Inv live)
    (hp : p ∈ s.freeAreas z o) (ho : o + fuel = maxOrder - 1) :
    (s.mergeUp z fuel p o).Canonical := by
  induction fuel generalizing s p o with
  | zero => exact hc.canonical fun hlt => by omega
  | succ fuel ih =>
    have ho' : o + 1 < maxOrder := by simp only [maxOrder] at ho ⊢; omega
    rcases h.mergeUp_succ hp ho' fuel with ⟨hb, he⟩ | ⟨s', -, hinv, hareas, -, he⟩
    · rw [he]
      exact hc.canonical fun _ => hb
    · rw [he]
      refine ih (hc.merge h hareas) hinv ?_ (by omega)
      rw [hareas, mem_mergeAreas h]
      exact .inr ⟨rfl, rfl, rfl⟩

theorem Canonical.pmmFreePages (hc : s.Canonical) (h : s.Inv live) (hp : live p = some b)
    (hs : s.pmmFreePages p = some s') : s'.Canonical := by
  by_cases hrefs : b.refs = 1
  · obtain ⟨hinv, hareas⟩ := h.giveBlock hp hrefs
    have hlt := (h.live hp).order_lt
    rw [h.pmmFreePages_last hp hrefs] at hs
    cases hs
    refine CanonicalExcept.mergeUp _ ?_ hinv (by rw [hareas, if_pos ⟨rfl, rfl⟩]; simp)
      (by simp only [maxOrder] at *; omega)
    -- a listed pair that was not there before involves the block just linked
    intro z' o' q ho hq hq'
    rw [hareas] at hq hq'
    split_ifs at hq hq' with hzo
    · rcases List.mem_cons.mp hq with he | hq
      · exact ⟨hzo.1, hzo.2, .inl he⟩
      · rcases List.mem_cons.mp hq' with he | hq'
        · exact ⟨hzo.1, hzo.2, .inr he⟩
        · exact absurd hq' (hc z' o' q ho hq)
    · exact absurd hq' (hc z' o' q ho hq)
  · obtain ⟨t, ht, -, hareas, -⟩ := h.pmmFreePages_shared hp
      (by have := (h.live hp).refs_pos; omega)
    rw [hs] at ht
    cases ht
    intro z' o' q
    rw [hareas]
    exact hc z' o' q

/-! ## The round trip -/

/-- The lists of `s` with the block at `p` of order `o + n` cut down to order `o`. -/
def CutDown (s t : Pmm) (z o n p : Nat) : Prop :=
  ∀ z' o' q, q ∈ t.freeAreas z' o' ↔ (q ∈ s.freeAreas z' o' ∧ q ≠ p) ∨
    (z' = z ∧ o' = o ∧ q = p) ∨ (z' = z ∧ o ≤ o' ∧ o' < o + n ∧ q = p + 2 ^ o')

theorem Inv.ne_right_half (h : s.Inv live) {n z' o' : Nat} (hp : p ∈ s.freeAreas z (o + (n + 1)))
    (hq : q ∈ s.freeAreas z' o') (hne : q ≠ p) : q ≠ p + 2 ^ o := by
  rintro rfl
  have hin : In p (o + (n + 1)) (p + 2 ^ o) := in_add (Nat.pow_lt_pow_right (by decide) (by omega))
  exact hne ((h.mem_iff_of_in hp hin).mp ⟨hq, in_self _ _⟩).2.2

theorem CutDown.merge {t t' : Pmm} {live' : Nat → Option Live} {n : Nat} (h : s.Inv live)
    (ht : t.Inv live') (hp : p ∈ s.freeAreas z (o + (n + 1))) (hcut : CutDown s t z o (n + 1) p)
    (hb : buddy p o = p + 2 ^ o) (ht' : t'.freeAreas = t.mergeAreas z o p) :
    CutDown s t' z (o + 1) n p := by
  intro z' o' q
  have hmin : min p (buddy p o) = p := Nat.min_eq_left (hb ▸ Nat.le_add_right p _)
  rw [ht', mem_mergeAreas ht, hcut, hmin, hb]
  constructor
  · rintro (⟨⟨hq, -⟩ | ⟨-, -, he⟩ | ⟨rfl, hle, hlt, rfl⟩, hne, hne'⟩ | hnew)
    · exact .inl ⟨hq, hne⟩
    · exact absurd he hne
    · refine .inr (.inr ⟨rfl, ?_, by omega, rfl⟩)
      rcases Nat.eq_or_lt_of_le hle with rfl | hlt'
      · exact absurd rfl hne'
      · exact hlt'
    · exact .inr (.inl hnew)
  · rintro (⟨hq, hne⟩ | hnew | ⟨rfl, hle, hlt, rfl⟩)
    · exact .inl ⟨.inl ⟨hq, hne⟩, hne, h.ne_right_half hp hq hne⟩
    · exact .inr hnew
    · have hpos := Nat.two_pow_pos o'
      have hpow : 2 ^ o < 2 ^ o' := Nat.pow_lt_pow_right (by decide) hle
      exact .inl ⟨.inr (.inr ⟨rfl, by omega, by omega, rfl⟩), by omega, by omega⟩

theorem CutDown.mergeUp (fuel n : Nat) {t : Pmm} {live' : Nat → Option Live} (hc : s.Canonical)
    (h : s.Inv live) (ht : t.Inv live') (hp : p ∈ s.freeAreas z (o + n))
    (hcut : CutDown s t z o n p) (ho : o + fuel = maxOrder - 1) :
    ∀ z' o' q, q ∈ (t.mergeUp z fuel p o).freeAreas z' o' ↔ q ∈ s.freeAreas z' o' := by
  have hpt : p ∈ t.freeAreas z o := (hcut z o p).mpr (.inr (.inl ⟨rfl, rfl, rfl⟩))
  have hlt := (h.listed hp).order_lt
  induction n generalizing t o fuel with
  | zero =>
    have hsame : ∀ z' o' q, q ∈ t.freeAreas z' o' ↔ q ∈ s.freeAreas z' o' := by
      intro z' o' q
      rw [hcut]
      constructor
      · rintro (⟨hq, -⟩ | ⟨rfl, rfl, rfl⟩ | ⟨-, hle, hlt, -⟩)
        · exact hq
        · exact hp
        · omega
      · intro hq
        by_cases hqp : q = p
        · subst hqp
          obtain ⟨rfl, rfl⟩ := h.listed_once hp hq
          exact .inr (.inl ⟨rfl, rfl, rfl⟩)
        · exact .inl ⟨hq, hqp⟩
    cases fuel with
    | zero => exact hsame
    | succ fuel =>
      rcases ht.mergeUp_succ hpt (by simp only [maxOrder] at ho ⊢; omega) fuel with
        ⟨-, he⟩ | ⟨t', hb, -⟩
      · rw [he]
        exact hsame
      · exact absurd ((hsame z o _).mp hb) (hc z o p (by omega) hp)
  | succ n ih =>
    obtain ⟨fuel, rfl⟩ : ∃ k, fuel = k + 1 := by
      refine ⟨fuel - 1, ?_⟩
      simp only [maxOrder] at ho hlt
      omega
    have hb : buddy p o = p + 2 ^ o :=
      buddy_of_dvd_succ ((pow_dvd_pow 2 (by omega)).trans (h.listed hp).aligned)
    have hbt : buddy p o ∈ t.freeAreas z o := by
      rw [hb]
      exact (hcut z o _).mpr (.inr (.inr ⟨rfl, le_rfl, by omega, rfl⟩))
    rcases ht.mergeUp_succ hpt (by simp only [maxOrder] at ho ⊢; omega) fuel with
      ⟨hnot, -⟩ | ⟨t', -, hinv, hareas, -, he⟩
    · exact absurd hbt hnot
    · have hmin : min p (buddy p o) = p := Nat.min_eq_left (hb ▸ Nat.le_add_right p _)
      have hcut' := hcut.merge h ht hp hb hareas
      rw [he, hmin]
      have hn : o + 1 + n = o + (n + 1) := by omega
      exact ih fuel hinv (hn ▸ hp) hcut' (by omega)
        ((hcut' z (o + 1) p).mpr (.inr (.inl ⟨rfl, rfl, rfl⟩))) (hn ▸ hlt)

theorem Canonical.alloc_free (hc : s.Canonical) (h : s.Inv live) {order n : Nat}
    (hp : p ∈ s.freeAreas z (order + n)) (h0 : p ≠ 0) :
    ∃ t, ((s.splitDown p n).takeBlock p order).pmmFreePages p = some t ∧
      ∀ z' o' q, q ∈ t.freeAreas z' o' ↔ q ∈ s.freeAreas z' o' := by
  obtain ⟨hinv, hlist, -⟩ := h.alloc_taken hp h0
  have hlive : Function.update live p (some ⟨order, z, 1⟩) p = some (⟨order, z, 1⟩ : Live) :=
    Function.update_self ..
  refine ⟨_, hinv.pmmFreePages_last hlive rfl, ?_⟩
  obtain ⟨hinv', hareas⟩ := hinv.giveBlock hlive rfl
  have hlt := (h.listed hp).order_lt
  refine CutDown.mergeUp _ n hc h hinv' hp ?_ (by simp only [maxOrder] at *; omega)
  intro z' o' q
  rw [hareas]
  split_ifs with hzo
  · rw [List.mem_cons, hlist]
    tauto
  · rw [hlist]
    tauto

end Pmm

/-! ## Runs -/

theorem buddyInit_canonical (maxPfn : Nat) (map : Bitmap) :
    (buddyInit maxPfn map).Canonical := by
  intro z o p ho hp hb
  rw [(buddyInit_lists maxPfn map).2] at hp hb
  obtain ⟨-, hp⟩ := hp
  obtain ⟨-, hb⟩ := hb
  have hd := zoneBlocks_decomposition (zoneInit maxPfn) (pageIsAlloc map) z
  have haligned : 2 ^ o ∣ p := hd.aligned _ hp
  have hpages : ∀ q, In (min p (buddy p o)) (o + 1) q →
      q < (zoneInit maxPfn).endPfn z ∧ pageIsAlloc map q = false := by
    intro q hq
    rcases (in_succ_iff haligned).mp hq with hq | hq
    · exact hd.free _ hp q hq
    · exact hd.free _ hb q hq
  have hmin : (min p (buddy p o), o) ∈ zoneBlocks (zoneInit maxPfn) (pageIsAlloc map) z := by
    rcases Nat.le_total p (buddy p o) with hle | hle
    · rwa [Nat.min_eq_left hle]
    · rwa [Nat.min_eq_right hle]
  have hgreedy := hd.greedy _ hmin (o + 1) (Nat.lt_pred_iff.mp ho)
    (dvd_min_buddy haligned) hpages
  exact absurd hgreedy (Nat.not_succ_le_self o)

namespace Sys

variable {s s' : Sys} {pmm : Pmm}

theorem step_canonical (h : s.pmm.Inv s.live) (hc : s.pmm.Canonical)
    (h0 : (s.pmm.blocks 0).isFree = false) {c : Call} (hok : s.Ok c)
    (hs : s.step c = some s') : s'.pmm.Canonical := by
  cases c with
  | alloc order zone =>
    simp only [step] at hs
    cases hs
    rcases h.pmmAllocPages_cases order zone with ⟨he, -⟩ | ⟨n, p, -, -, hp, he⟩
    · simpa only [he] using hc
    · have hne : p ≠ 0 := by
        rintro rfl
        exact h.not_listed_of_not_free h0 hp (in_self 0 _)
      simp only [he, if_neg hne]
      exact hc.alloc_taken h hp hne
  | addRef pfn =>
    obtain ⟨b, hb, hrefs⟩ := hok
    obtain ⟨t, ht, -, hareas, -⟩ := h.pmmAddRefCount hb hrefs
    simp only [step, ht, map_some] at hs
    cases hs
    intro z o q
    simp only [hareas]
    exact hc z o q
  | free pfn =>
    obtain ⟨b, hb⟩ := hok
    simp only [step, map_eq_some_iff] at hs
    obtain ⟨t, ht, rfl⟩ := hs
    exact hc.pmmFreePages h hb ht

theorem not_free_zero (hinv : pmm.Inv fun _ => none) (h0 : (pmm.blocks 0).isFree = false)
    (hreach : Reaches pmm s) : (s.pmm.blocks 0).isFree = false := by
  obtain ⟨-, hman⟩ := reaches_inv hinv hreach
  rw [← Bool.not_eq_true] at h0 ⊢
  exact fun hfree => h0 ((hman 0).mp (.inl hfree))

theorem reaches_canonical (hinv : pmm.Inv fun _ => none) (hc : pmm.Canonical)
    (h0 : (pmm.blocks 0).isFree = false) (hreach : Reaches pmm s) : s.pmm.Canonical := by
  induction hreach with
  | refl => exact hc
  | tail hprev hstep ih =>
    obtain ⟨c, hok, hs⟩ := hstep
    exact step_canonical (reaches_inv hinv hprev).1 ih (not_free_zero hinv h0 hprev) hok hs

/-- An allocation that returns no frame changes no list; one that returns a frame is
undone by freeing the frame. -/
theorem alloc_free_lists (h : s.pmm.Inv s.live) (hc : s.pmm.Canonical)
    (h0 : (s.pmm.blocks 0).isFree = false) (order zone : Nat) :
    let r := s.pmm.pmmAllocPages order zone
    (r.1 = 0 → r.2 = s.pmm) ∧
      (r.1 ≠ 0 → ∃ t, r.2.pmmFreePages r.1 = some t ∧
        ∀ z o q, q ∈ t.freeAreas z o ↔ q ∈ s.pmm.freeAreas z o) := by
  intro r
  rcases h.pmmAllocPages_cases order zone with ⟨he, -⟩ | ⟨n, p, -, -, hp, he⟩
  · exact ⟨fun _ => congrArg Prod.snd he, fun hr => absurd (congrArg Prod.fst he) hr⟩
  · have hne : p ≠ 0 := by
      rintro rfl
      exact h.not_listed_of_not_free h0 hp (in_self 0 _)
    rw [if_neg hne] at he
    refine ⟨fun hr => absurd ((congrArg Prod.fst he).symm.trans hr) hne, fun _ => ?_⟩
    simp only [r, he]
    exact hc.alloc_free h hp hne

end Sys

theorem smallBoot_zero_used {pmm : Pmm} (hinit : pmmInit smallBoot = some pmm) :
    (pmm.blocks 0).isFree = false := by
  obtain ⟨-, map, hmap, rfl⟩ := pmmInit_eq hinit
  refine buddyInit_not_free (some_inj.mp ?_)
  rw [show some (pageIsAlloc map 0) = (some map).map (pageIsAlloc · 0) from rfl, ← hmap]
  decide +kernel

/-- On every memory map that leaves frame `0` in use, no run lists two buddies that
could merge, and freeing what an allocation returned restores the free blocks of
every zone and order. -/
theorem pmm_run_canonical {boot : Boot} {pmm : Pmm} {s : Sys} (hinit : pmmInit boot = some pmm)
    (h0 : (pmm.blocks 0).isFree = false) (hreach : Sys.Reaches pmm s) :
    (∀ z o p, o < 15 → p ∈ s.pmm.freeAreas z o → buddy p o ∉ s.pmm.freeAreas z o) ∧
      ∀ order zone, let r := s.pmm.pmmAllocPages order zone
        (r.1 = 0 → r.2 = s.pmm) ∧
          (r.1 ≠ 0 → ∃ t, r.2.pmmFreePages r.1 = some t ∧
            ∀ z o q, q ∈ t.freeAreas z o ↔ q ∈ s.pmm.freeAreas z o) := by
  have hinv := pmmInit_inv hinit
  have hcanon : pmm.Canonical := by
    obtain ⟨-, map, -, rfl⟩ := pmmInit_eq hinit
    exact buddyInit_canonical _ map
  have hc := Sys.reaches_canonical hinv hcanon h0 hreach
  exact ⟨hc, fun order zone => Sys.alloc_free_lists (Sys.reaches_inv hinv hreach).1 hc
    (Sys.not_free_zero hinv h0 hreach) order zone⟩

theorem pmm_run_canonical_smallBoot : ∃ pmm s, pmmInit smallBoot = some pmm ∧
    (pmm.blocks 0).isFree = false ∧
    Sys.step ⟨pmm, fun _ => none⟩ (.alloc 3 zoneDma) = some s ∧
    ∀ z o p, o < 15 → p ∈ s.pmm.freeAreas z o → buddy p o ∉ s.pmm.freeAreas z o := by
  obtain ⟨pmm, hinit⟩ := isSome_iff_exists.mp smallBoot_init.1
  have h0 := smallBoot_zero_used hinit
  refine ⟨pmm, _, hinit, h0, rfl, ?_⟩
  exact (pmm_run_canonical hinit h0
    (Relation.ReflTransGen.single ⟨.alloc 3 zoneDma, trivial, rfl⟩)).1

end ShiziOS.Mm
