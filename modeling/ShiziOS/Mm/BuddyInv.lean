import ShiziOS.Mm.Buddy

/-!
# The allocator invariant

`Pmm.Inv` ties the free lists to the page metadata, and the metadata to the blocks
the callers still hold. The metadata of a page determines the block around it, so
that listed blocks and live blocks are disjoint without a separate clause. Every
operation rewrites the metadata of one dyadic region and the lists of the blocks in
it; `Inv.retile` says once what such a rewrite has to establish.
-/

namespace ShiziOS.Mm

open Dyadic

/-- A block that a caller holds: its order, its zone and its references. -/
structure Live where
  order : Nat
  zone : Nat
  refs : Nat
deriving DecidableEq, Repr

/-- The metadata of page `i` of a free block. -/
def freeMeta (zone order i : Nat) : MemBlock := ⟨i == 0, true, order, zone, 0⟩

/-- The metadata of page `i` of a live block. -/
def liveMeta (b : Live) (i : Nat) : MemBlock := ⟨i == 0, false, b.order, b.zone, b.refs⟩

namespace Pmm

/-- The pages from `p` form an aligned block of order `o` inside zone `z`. -/
structure Extent (s : Pmm) (z o p : Nat) : Prop where
  zone_le : z ≤ zoneNormal
  order_lt : o < maxOrder
  aligned : 2 ^ o ∣ p
  start_le : s.startPfn z ≤ p
  le_end : p + 2 ^ o ≤ s.endPfn z

structure FreeBlock (s : Pmm) (z o p : Nat) : Prop extends s.Extent z o p where
  blocks_eq : ∀ q, In p o q → s.blocks q = freeMeta z o (q - p)

structure LiveBlock (s : Pmm) (p : Nat) (b : Live) : Prop extends s.Extent b.zone b.order p where
  ne_zero : p ≠ 0
  refs_pos : 0 < b.refs
  refs_lt : b.refs < 2 ^ 32
  blocks_eq : ∀ q, In p b.order q → s.blocks q = liveMeta b (q - p)

structure Inv (s : Pmm) (live : Nat → Option Live) : Prop where
  nodup : ∀ z o, (s.freeAreas z o).Nodup
  listed : ∀ {z o p}, p ∈ s.freeAreas z o → s.FreeBlock z o p
  free_listed : ∀ {q}, (s.blocks q).isFree = true → ∃ z o p, p ∈ s.freeAreas z o ∧ In p o q
  live : ∀ {p b}, live p = some b → s.LiveBlock p b
  end_le : ∀ z, s.endPfn z ≤ s.maxPfn + 1

variable {s s' : Pmm} {live live' : Nat → Option Live} {z z' o o' p p' q : Nat} {b b' : Live}

theorem FreeBlock.head (h : s.FreeBlock z o p) : s.blocks p = freeMeta z o 0 := by
  simpa using h.blocks_eq p (in_self p o)

theorem LiveBlock.head (h : s.LiveBlock p b) : s.blocks p = liveMeta b 0 := by
  simpa using h.blocks_eq p (in_self p b.order)

theorem FreeBlock.unique (h : s.FreeBlock z o p) (h' : s.FreeBlock z' o' p')
    (hq : In p o q) (hq' : In p' o' q) : z = z' ∧ o = o' ∧ p = p' := by
  have he := (h.blocks_eq q hq).symm.trans (h'.blocks_eq q hq')
  simp only [freeMeta, MemBlock.mk.injEq] at he
  obtain ⟨_, _, rfl, rfl, _⟩ := he
  exact ⟨rfl, rfl, start_unique h.aligned h'.aligned hq hq'⟩

theorem LiveBlock.unique (h : s.LiveBlock p b) (h' : s.LiveBlock p' b')
    (hq : In p b.order q) (hq' : In p' b'.order q) : p = p' := by
  have he := (h.blocks_eq q hq).symm.trans (h'.blocks_eq q hq')
  simp only [liveMeta, MemBlock.mk.injEq] at he
  have hp' := h'.aligned
  rw [← he.2.2.1] at hp' hq'
  exact start_unique h.aligned hp' hq hq'

theorem FreeBlock.not_in_live (h : s.FreeBlock z o p) (h' : s.LiveBlock p' b)
    (hq : In p o q) : ¬ In p' b.order q := by
  intro hq'
  have he := (h.blocks_eq q hq).symm.trans (h'.blocks_eq q hq')
  simp [freeMeta, liveMeta] at he

theorem Inv.not_listed_of_not_free (h : s.Inv live) (hq : (s.blocks q).isFree = false)
    (hp : p ∈ s.freeAreas z o) : ¬ In p o q := by
  intro hin
  rw [(h.listed hp).blocks_eq q hin] at hq
  simp [freeMeta] at hq

/-- A listed block that meets a region made of whole listed or live blocks avoids
the pages outside its own block. This is the invariant seen from one page. -/
theorem Inv.mem_iff_of_in (h : s.Inv live) (hp : p ∈ s.freeAreas z o) (hq : In p o q) :
    p' ∈ s.freeAreas z' o' ∧ In p' o' q ↔ z' = z ∧ o' = o ∧ p' = p := by
  constructor
  · rintro ⟨hp', hq'⟩
    obtain ⟨rfl, rfl, rfl⟩ := (h.listed hp).unique (h.listed hp') hq hq'
    exact ⟨rfl, rfl, rfl⟩
  · rintro ⟨rfl, rfl, rfl⟩
    exact ⟨hp, hq⟩

theorem Inv.listed_once (h : s.Inv live) (hp : p ∈ s.freeAreas z o)
    (hp' : p ∈ s.freeAreas z' o') : z' = z ∧ o' = o :=
  ((h.mem_iff_of_in hp (in_self p o)).mp ⟨hp', in_self p o'⟩).imp_right And.left

theorem Inv.le_maxPfn (h : s.Inv live) (hp : p ∈ s.freeAreas z o) : p ≤ s.maxPfn := by
  have hb := h.listed hp
  have := h.end_le z
  have := hb.le_end
  have := Nat.two_pow_pos o
  omega

theorem Inv.live_le_maxPfn (h : s.Inv live) (hp : live p = some b) : p ≤ s.maxPfn := by
  have hb := h.live hp
  have := h.end_le b.zone
  have := hb.le_end
  have := Nat.two_pow_pos b.order
  omega

theorem zone_ne_of_le (hz : z ≤ zoneNormal) : z ≠ 0xFF := by
  simp only [zoneNormal] at hz
  omega

theorem FreeBlock.zone_ne (h : s.FreeBlock z o p) : (s.blocks p).zone ≠ 0xFF := by
  rw [h.head]
  exact zone_ne_of_le h.zone_le

theorem Extent.congr (h : s.Extent z o p) (hs : s'.startPfn = s.startPfn)
    (he : s'.endPfn = s.endPfn) : s'.Extent z o p :=
  ⟨h.zone_le, h.order_lt, h.aligned, by rw [hs]; exact h.start_le, by rw [he]; exact h.le_end⟩

/-- What a rewrite of the region `R` has to establish to keep the invariant. The
blocks outside `R` keep their metadata and their place on the lists. -/
theorem Inv.retile (h : s.Inv live) (R : Nat → Prop)
    (hs : s'.startPfn = s.startPfn) (he : s'.endPfn = s.endPfn) (hm : s'.maxPfn = s.maxPfn)
    (hsame : ∀ q, ¬ R q → s'.blocks q = s.blocks q) (hnodup : ∀ z o, (s'.freeAreas z o).Nodup)
    (hnew : ∀ z o p, p ∈ s'.freeAreas z o →
      (p ∈ s.freeAreas z o ∧ ∀ q, In p o q → ¬ R q) ∨ s'.FreeBlock z o p)
    (hold : ∀ z o p q, p ∈ s.freeAreas z o → In p o q → ¬ R q → p ∈ s'.freeAreas z o)
    (hfree : ∀ q, R q → (s'.blocks q).isFree = true →
      ∃ z o p, p ∈ s'.freeAreas z o ∧ In p o q)
    (hlive : ∀ p b, live' p = some b →
      (live p = some b ∧ ∀ q, In p b.order q → ¬ R q) ∨ s'.LiveBlock p b) :
    s'.Inv live' where
  nodup := hnodup
  listed := by
    intro z o p hp
    rcases hnew z o p hp with ⟨hp, hout⟩ | hblock
    · have hb := h.listed hp
      exact ⟨hb.toExtent.congr hs he, fun q hq => (hsame q (hout q hq)).trans (hb.blocks_eq q hq)⟩
    · exact hblock
  free_listed := by
    intro q hq
    by_cases hR : R q
    · exact hfree q hR hq
    · rw [hsame q hR] at hq
      obtain ⟨z, o, p, hp, hin⟩ := h.free_listed hq
      exact ⟨z, o, p, hold z o p q hp hin hR, hin⟩
  live := by
    intro p b hp
    rcases hlive p b hp with ⟨hp, hout⟩ | hblock
    · have hb := h.live hp
      exact ⟨hb.toExtent.congr hs he, hb.ne_zero, hb.refs_pos, hb.refs_lt,
        fun q hq => (hsame q (hout q hq)).trans (hb.blocks_eq q hq)⟩
    · exact hblock
  end_le := by
    intro z
    rw [he, hm]
    exact h.end_le z

end Pmm

theorem setPages_of_in {blocks : Nat → MemBlock} {p o q : Nat} {f : Nat → MemBlock → MemBlock}
    (h : In p o q) : setPages blocks p (2 ^ o) f q = f (q - p) (blocks q) := if_pos h

theorem setPages_of_not_in {blocks : Nat → MemBlock} {p o q : Nat} {f : Nat → MemBlock → MemBlock}
    (h : ¬ In p o q) : setPages blocks p (2 ^ o) f q = blocks q := if_neg h

end ShiziOS.Mm
