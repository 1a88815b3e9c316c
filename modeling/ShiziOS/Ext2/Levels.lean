import Mathlib.Tactic
import Mathlib.Data.Set.Function

/-!
# The levels of a logical block

`ext2_bmap_levels` finds the depth of a block of a file and its index on every level. It is
written once for all types of numbers, so that what `uint32_t` gives can be compared with the same
computation on unbounded numbers.
-/

namespace ShiziOS.Ext2

open UInt32

/-- `depth_out`, and the indices from `levels[depth]` down to `levels[1]`; for depth `0` it is
`levels[0]`. -/
def bmapLevels {α : Type} [LT α] [DecidableLT α] [Add α] [Sub α] [Mul α] [Div α] [Mod α]
    [OfNat α 12] (lb e : α) : Nat × List α :=
  if lb < 12 then (0, [lb])
  else
    let idx := lb - 12
    if idx < e then (1, [idx])
    else if idx < e + e * e then
      let idx := idx - e
      (2, [idx / e, idx % e])
    else
      let idx := idx - (e + e * e)
      let rem := idx % (e * e)
      (3, [idx / (e * e), rem / e, rem % e])

def ext2BmapLevels (lb e : UInt32) : Nat × List UInt32 := bmapLevels lb e

/-- A depth up to `3`, and as many indices below `e`; one below `12` for depth `0`. -/
def Indices {α : Type} [LT α] [OfNat α 12] (e : α) : Set (Nat × List α) :=
  {p | (p.1 = 0 ∧ ∃ i, i < 12 ∧ p.2 = [i]) ∨
    1 ≤ p.1 ∧ p.1 ≤ 3 ∧ p.2.length = p.1 ∧ ∀ i ∈ p.2, i < e}

/-- How many blocks a file can have. -/
def maxBlocks (e : Nat) : Nat := 12 + e + e ^ 2 + e ^ 3

/-! ## Unbounded numbers -/

/-- The logical block at a depth and indices. -/
def logicalBlock (e : Nat) : Nat × List Nat → Nat
  | (0, [i]) => i
  | (1, [i]) => 12 + i
  | (2, [j, i]) => 12 + e + (j * e + i)
  | (3, [k, j, i]) => 12 + e + e * e + (k * (e * e) + (j * e + i))
  | _ => 0

theorem indices_cases {e : Nat} {p : Nat × List Nat} (h : p ∈ Indices e) :
    (∃ i, i < 12 ∧ p = (0, [i])) ∨ (∃ i, i < e ∧ p = (1, [i])) ∨
    (∃ j i, j < e ∧ i < e ∧ p = (2, [j, i])) ∨
    ∃ k j i, k < e ∧ j < e ∧ i < e ∧ p = (3, [k, j, i]) := by
  obtain ⟨d, l⟩ := p
  rcases h with ⟨hd, i, hi, hl⟩ | ⟨h1, h3, hlen, hall⟩
  · exact .inl ⟨i, hi, Prod.ext hd hl⟩
  · match d, l, hlen with
    | 1, [i], _ => exact .inr (.inl ⟨i, hall i (by simp), rfl⟩)
    | 2, [j, i], _ => exact .inr (.inr (.inl ⟨j, i, hall j (by simp), hall i (by simp), rfl⟩))
    | 3, [k, j, i], _ =>
      exact .inr (.inr (.inr ⟨k, j, i, hall k (by simp), hall j (by simp), hall i (by simp), rfl⟩))
    | 0, _, _ => omega
    | _ + 4, _, _ => omega

theorem bmapLevels_bijOn {e : Nat} (he : e = 256 ∨ e = 512 ∨ e = 1024) :
    Set.BijOn (bmapLevels · e) {lb | lb < maxBlocks e} (Indices e) := by
  refine Set.InvOn.bijOn (⟨?_, ?_⟩ : Set.InvOn (logicalBlock e) _ _ _) ?_ ?_
  · intro lb hlb
    simp only [bmapLevels]
    split_ifs <;> simp only [logicalBlock] <;> rcases he with rfl | rfl | rfl <;> omega
  · intro p hp
    simp only [bmapLevels]
    rcases indices_cases hp with ⟨i, hi, rfl⟩ | ⟨i, hi, rfl⟩ | ⟨j, i, hj, hi, rfl⟩ |
      ⟨k, j, i, hk, hj, hi, rfl⟩ <;>
      simp only [logicalBlock] <;> rcases he with rfl | rfl | rfl <;> split_ifs <;>
      simp only [Prod.mk.injEq, List.cons.injEq, and_true, true_and] <;> omega
  · intro lb hlb
    have hlb : lb < maxBlocks e := hlb
    rw [maxBlocks] at hlb
    simp only [bmapLevels]
    split_ifs <;> simp only [Indices, Set.mem_ofPred_eq, List.length_cons, List.length_nil,
      List.forall_mem_cons] <;> rcases he with rfl | rfl | rfl <;> simp <;> omega
  · intro p hp
    rcases indices_cases hp with ⟨i, hi, rfl⟩ | ⟨i, hi, rfl⟩ | ⟨j, i, hj, hi, rfl⟩ |
      ⟨k, j, i, hk, hj, hi, rfl⟩ <;>
      simp only [logicalBlock, Set.mem_ofPred_eq, maxBlocks] <;>
      rcases he with rfl | rfl | rfl <;> omega

/-! ## `uint32_t` -/

def toNats (p : Nat × List UInt32) : Nat × List Nat := (p.1, p.2.map toNat)

theorem toNats_injective : Function.Injective toNats := by
  intro p q h
  obtain ⟨hd, hl⟩ := Prod.mk.inj h
  exact Prod.ext hd (List.map_injective_iff.mpr (fun _ _ => UInt32.toNat_inj.mp) hl)

theorem mem_indices_iff {e : UInt32} {p : Nat × List UInt32} :
    toNats p ∈ Indices e.toNat ↔ p ∈ Indices e := by
  obtain ⟨d, l⟩ := p
  simp only [Indices, toNats, Set.mem_ofPred_eq, List.length_map, List.forall_mem_map,
    lt_iff_toNat_lt]
  refine or_congr (and_congr_right fun _ => ?_) Iff.rfl
  constructor
  · rintro ⟨i, hi, hl⟩
    obtain ⟨j, rfl, rfl⟩ := List.map_eq_singleton_iff.mp hl
    exact ⟨j, hi, rfl⟩
  · rintro ⟨i, hi, rfl⟩
    exact ⟨i.toNat, hi, rfl⟩

variable {e : UInt32}

theorem toNat_sum (he : e = 256 ∨ e = 512 ∨ e = 1024) :
    (e * e).toNat = e.toNat * e.toNat ∧ (e + e * e).toNat = e.toNat + e.toNat * e.toNat := by
  rcases he with rfl | rfl | rfl <;> exact ⟨rfl, rfl⟩

theorem toNats_levels (he : e = 256 ∨ e = 512 ∨ e = 1024) (lb : UInt32) :
    toNats (ext2BmapLevels lb e) = bmapLevels lb.toNat e.toNat := by
  obtain ⟨hprod, hsum⟩ := toNat_sum he
  have hsub : ∀ a b : UInt32, ¬a.toNat < b.toNat → (a - b).toNat = a.toNat - b.toNat :=
    fun a b h => UInt32.toNat_sub_of_le a b (UInt32.le_iff_toNat_le.mpr (not_lt.mp h))
  simp only [ext2BmapLevels, bmapLevels, lt_iff_toNat_lt, hsum,
    show toNat 12 = 12 from rfl]
  by_cases hlow : lb.toNat < 12
  · simp [hlow, toNats]
  rw [if_neg hlow, if_neg hlow, hsub lb 12 hlow, show toNat 12 = 12 from rfl]
  have hidx : (lb - 12).toNat = lb.toNat - 12 := hsub lb 12 hlow
  by_cases h1 : lb.toNat - 12 < e.toNat
  · simp [h1, hidx, toNats]
  rw [if_neg h1, if_neg h1]
  by_cases h2 : lb.toNat - 12 < e.toNat + e.toNat * e.toNat
  · simp [h2, toNats, hsub (lb - 12) e (hidx ▸ h1), hidx]
  · simp [h2, toNats, hsub (lb - 12) (e + e * e) (hidx ▸ hsum ▸ h2), hidx, hsum, hprod]

/-- Depth and indices name the logical blocks of a file, each in one way, and the computation does
not leave the range of `uint32_t`. -/
theorem ext2_bmap_levels_bijective (he : e = 256 ∨ e = 512 ∨ e = 1024) :
    Set.BijOn (ext2BmapLevels · e) {lb | lb.toNat < maxBlocks e.toNat} (Indices e) ∧
    (e + e * e).toNat = e.toNat + e.toNat * e.toNat ∧
    ∀ lb, toNats (ext2BmapLevels lb e) = bmapLevels lb.toNat e.toNat := by
  have hlevels := toNats_levels he
  obtain ⟨hmaps, hinj, hsurj⟩ := bmapLevels_bijOn (e := e.toNat) (by
    rcases he with rfl | rfl | rfl <;> decide)
  refine ⟨⟨?_, ?_, ?_⟩, (toNat_sum he).2, hlevels⟩
  · intro lb hlb
    rw [← mem_indices_iff, hlevels]
    exact hmaps hlb
  · intro lb hlb lb' hlb' heq
    have heq : toNats (ext2BmapLevels lb e) = toNats (ext2BmapLevels lb' e) := congrArg toNats heq
    rw [hlevels, hlevels] at heq
    exact UInt32.toNat_inj.mp (hinj hlb hlb' heq)
  · intro p hp
    obtain ⟨lb, hlb, heq⟩ := hsurj (mem_indices_iff.mpr hp)
    have hlb : lb < maxBlocks e.toNat := hlb
    have hlt : lb < 2 ^ 32 := by
      refine hlb.trans ?_
      rcases he with rfl | rfl | rfl <;> decide
    have hnat : (ofNat lb).toNat = lb := UInt32.toNat_ofNat_of_lt' hlt
    refine ⟨ofNat lb, by rwa [Set.mem_ofPred_eq, hnat], toNats_injective ?_⟩
    show toNats (ext2BmapLevels (ofNat lb) e) = toNats p
    rw [hlevels, hnat, ← heq]

theorem ext2_bmap_levels_last : (1073741824 + 1048576 + 1024 + 12 - 1 : UInt32).toNat <
      maxBlocks 1024 ∧
    ext2BmapLevels (1073741824 + 1048576 + 1024 + 12 - 1) 1024 = (3, [1023, 1023, 1023]) ∧
    ext2BmapLevels (1073741824 + 1048576 + 1024 + 12 - 1) 1024 ∈ Indices (1024 : UInt32) :=
  ⟨by decide, by decide, (ext2_bmap_levels_bijective (.inr (.inr rfl))).1.mapsTo (by decide)⟩

end ShiziOS.Ext2
