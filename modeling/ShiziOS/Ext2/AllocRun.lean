import ShiziOS.Ext2.AllocSpec
import Mathlib.Algebra.Order.BigOperators.Group.Finset

/-!
# Runs of allocations

The numbers of a file system are kept in groups, one bit of a bitmap for each. In a well-formed
image the bits behind the last number of a group are set, and the counters count the clear bits.
A call keeps that, and an allocation gives a number that was free, exactly if all bits that it
needs are in the first sector of a bitmap.
-/

namespace ShiziOS.Ext2

open Bytes Exec Option Function Nat Finset Volume

/-! ## Numbers -/

namespace Pool

def perGroup : Pool → SbInfo → Nat
  | blocks, fs => fs.blocksPerGroup
  | inodes, fs => fs.inodesPerGroup

/-- How many numbers there are. -/
def size : Pool → SbInfo → Volume → Nat
  | blocks, fs, s => s.superBlock.sBlocksCount - fs.firstDataBlock
  | inodes, _, s => s.superBlock.sInodesCount

/-- How many numbers there are in a group; the last one may have fewer. -/
def groupSize (p : Pool) (fs : SbInfo) (s : Volume) (g : Nat) : Nat :=
  min (p.perGroup fs) (p.size fs s - g * p.perGroup fs)

def number : Pool → SbInfo → (g i : Nat) → Nat
  | blocks, fs, g, i => fs.firstDataBlock + g * fs.blocksPerGroup + i
  | inodes, fs, g, i => g * fs.inodesPerGroup + i + 1

def first : Pool → SbInfo → Nat
  | blocks, fs => fs.firstDataBlock
  | inodes, _ => 1

/-- The number lies in the file system. -/
def Inside : Pool → Volume → Nat → Prop
  | blocks, s, n => n < s.superBlock.sBlocksCount
  | inodes, s, n => n ≤ s.superBlock.sInodesCount

/-- The index of a number in its group. -/
def indexOf : Pool → SbInfo → Nat → Nat
  | blocks, fs, n => (n - fs.firstDataBlock) % fs.blocksPerGroup
  | inodes, fs, n => (n - 1) % fs.inodesPerGroup

def alloc : Pool → SbInfo → E Nat
  | blocks, fs => ext2AllocBlock fs
  | inodes, fs => ext2InoAlloc fs

def release : Pool → SbInfo → Nat → E Unit
  | blocks, fs, n => ext2FreeBlock fs n
  | inodes, fs, n => ext2InoFree fs n

end Pool

variable {fs : SbInfo} {p q : Pool} {s s' : Volume} {g h i j n : Nat}

theorem number_lt (hi : i < p.groupSize fs s g) : p.Inside s (p.number fs g i) := by
  rw [Pool.groupSize, lt_min_iff] at hi
  cases p with
  | blocks =>
    have hi : i < fs.blocksPerGroup ∧ i < s.superBlock.sBlocksCount - fs.firstDataBlock -
      g * fs.blocksPerGroup := hi
    show fs.firstDataBlock + g * fs.blocksPerGroup + i < s.superBlock.sBlocksCount
    omega
  | inodes =>
    have hi : i < fs.inodesPerGroup ∧ i < s.superBlock.sInodesCount - g * fs.inodesPerGroup := hi
    show g * fs.inodesPerGroup + i + 1 ≤ s.superBlock.sInodesCount
    omega

theorem number_eq : p.number fs g i = p.first fs + (g * p.perGroup fs + i) := by
  cases p with
  | blocks => exact add_assoc _ _ _
  | inodes => exact add_comm _ _

theorem mul_add_divMod (g : Nat) (hi : i < n) : (g * n + i) / n = g ∧ (g * n + i) % n = i := by
  rw [mul_comm, mul_add_div (by omega), div_eq_of_lt hi, mul_add_mod, mod_eq_of_lt hi]
  exact ⟨rfl, rfl⟩

theorem number_inj {g' i' : Nat} (hi : i < p.perGroup fs) (hi' : i' < p.perGroup fs)
    (hn : p.number fs g i = p.number fs g' i') : g = g' ∧ i = i' := by
  rw [number_eq, number_eq, Nat.add_left_cancel_iff] at hn
  obtain ⟨hdiv, hmod⟩ := mul_add_divMod g hi
  obtain ⟨hdiv', hmod'⟩ := mul_add_divMod g' hi'
  rw [hn] at hdiv hmod
  exact ⟨hdiv.symm.trans hdiv', hmod.symm.trans hmod'⟩

theorem indexOf_number (hi : i < p.perGroup fs) : p.indexOf fs (p.number fs g i) = i := by
  have hindex : ∀ n, p.indexOf fs n = (n - p.first fs) % p.perGroup fs := by
    cases p <;> exact fun _ => rfl
  rw [hindex, number_eq, Nat.add_sub_cancel_left, (mul_add_divMod g hi).2]

theorem sum_groupSize (n : Nat) :
    ∑ g ∈ range n, p.groupSize fs s g = min (n * p.perGroup fs) (p.size fs s) := by
  induction n with
  | zero => simp
  | succ n ih =>
    rw [sum_range_succ, ih, Pool.groupSize, succ_mul]
    omega

/-! ## Well-formed images -/

def Volume.clearBits (s : Volume) (fs : SbInfo) (p : Pool) (g : Nat) : Finset Nat :=
  (range (8 * fs.blockSize)).filter fun i => s.bit fs p g i = false

structure WellFormed (fs : SbInfo) (s : Volume) : Prop where
  blockSize : fs.blockSize = 1024 ∨ fs.blockSize = 2048 ∨ fs.blockSize = 4096
  perGroup : ∀ p : Pool, 0 < p.perGroup fs ∧ p.perGroup fs ≤ 8 * fs.blockSize
  blocks : fs.firstDataBlock ≤ s.superBlock.sBlocksCount ∧ s.superBlock.sBlocksCount < 2 ^ 32
  inodes : s.superBlock.sInodesCount < 2 ^ 32
  /-- Bits without a number are set. -/
  padding : ∀ (p : Pool) g i, g < fs.groupDescCount → p.groupSize fs s g ≤ i →
    i < 8 * fs.blockSize →
    s.bit fs p g i = true
  free : ∀ (p : Pool) g, g < fs.groupDescCount → p.free (s.groupDescTable g) =
    (s.clearBits fs p g).card
  total : ∀ p : Pool, p.total s.superBlock = ∑ g ∈ range fs.groupDescCount,
    (s.clearBits fs p g).card
  /-- Every bitmap has a block of its own. -/
  apart : ∀ (p q : Pool) g h, g < fs.groupDescCount → h < fs.groupDescCount →
    p.bitmap (s.groupDescTable g) = q.bitmap (s.groupDescTable h) → p = q ∧ g = h
  /-- Block `0` holds the super block. -/
  reserved : fs.firstDataBlock = 0 → 0 < fs.groupDescCount → s.bit fs .blocks 0 0 = true

theorem mem_clearBits : i ∈ s.clearBits fs p g ↔ i < 8 * fs.blockSize ∧ s.bit fs p g i = false := by
  rw [clearBits, mem_filter, mem_range]

theorem WellFormed.clear_lt (h : WellFormed fs s) (hg : g < fs.groupDescCount)
    (hi : i ∈ s.clearBits fs p g) : i < p.groupSize fs s g := by
  obtain ⟨hlt, hbit⟩ := mem_clearBits.mp hi
  by_contra hge
  rw [h.padding p g i hg (by omega) hlt] at hbit
  cases hbit

theorem card_le_groupSize {C : Finset Nat} (hC : ∀ i ∈ C, i < p.groupSize fs s g) :
    C.card ≤ p.groupSize fs s g := by
  have hsub : C ⊆ range (p.groupSize fs s g) := fun i hi => mem_range.mpr (hC i hi)
  have hcard := card_le_card hsub
  rwa [card_range] at hcard

theorem WellFormed.size_lt (h : WellFormed fs s) (p : Pool) : p.size fs s < 2 ^ 32 := by
  have hb := h.blocks
  have hi := h.inodes
  cases p with
  | blocks =>
    show s.superBlock.sBlocksCount - fs.firstDataBlock < 2 ^ 32
    omega
  | inodes => exact hi

theorem WellFormed.groupSize_lt (h : WellFormed fs s) (p : Pool) (g : Nat) :
    p.groupSize fs s g ≤ p.perGroup fs ∧ p.perGroup fs ≤ 8 * fs.blockSize ∧ 8 * fs.blockSize <
      2 ^ 16 := by
  refine ⟨min_le_left _ _, (h.perGroup p).2, ?_⟩
  rcases h.blockSize with hb | hb | hb <;> rw [hb] <;> decide

theorem WellFormed.number_lt (h : WellFormed fs s) (hi : i < p.groupSize fs s g) :
    p.number fs g i < 2 ^ 32 := by
  have hin := Ext2.number_lt hi
  have hb := h.blocks
  have hn := h.inodes
  cases p with
  | blocks =>
    have hin : Pool.number .blocks fs g i < s.superBlock.sBlocksCount := hin
    omega
  | inodes =>
    have hin : Pool.number .inodes fs g i ≤ s.superBlock.sInodesCount := hin
    omega

theorem WellFormed.buf (h : WellFormed fs s) (b : Area) : WellFormed fs { s with buf := b } := by
  refine ⟨h.blockSize, h.perGroup, h.blocks, h.inodes, ?_, h.free, h.total, h.apart, h.reserved⟩
  intro p
  cases p with
  | blocks => exact h.padding .blocks
  | inodes => exact h.padding .inodes

/-! ## A change of one bitmap -/

theorem WellFormed.mapStart_eq (h : WellFormed fs s) (p : Pool) (g : Nat) :
    s.mapStart fs p g = p.bitmap (s.groupDescTable g) * fs.blockSize := by
  rw [Volume.mapStart, bitmapSector, ext2BlockToSector]
  rcases h.blockSize with hb | hb | hb <;> rw [hb] <;> omega

theorem WellFormed.bit_other (hw : WellFormed fs s) (hg : g < fs.groupDescCount)
    (hh : h < fs.groupDescCount)
    (hne : ¬(q = p ∧ h = g)) (hi : i < 8 * fs.blockSize) (m : Area → Area) (f : Nat → Nat) :
    (s.changeMap fs p g m f).bit fs q h i = s.bit fs q h i := by
  rw [Volume.bit, Volume.bit, mapStart_changeMap]
  apply bitmapCheck_congr
  apply Area.copy_outside
  have hbitmap : q.bitmap (s.groupDescTable h) ≠ p.bitmap (s.groupDescTable g) :=
    fun he => hne (hw.apart q p h g hh hg he)
  have hblock : 512 ≤ fs.blockSize := by
    rcases hw.blockSize with hb | hb | hb <;> omega
  rw [hw.mapStart_eq, hw.mapStart_eq]
  rcases lt_or_gt_of_ne hbitmap with hlt | hlt
  all_goals
    have := mul_le_mul_right fs.blockSize (succ_le_of_lt hlt)
    rw [succ_mul] at this
    omega

theorem bit_changeMap (m : Area → Area) (f : Nat → Nat) :
    (s.changeMap fs p g m f).bit fs p g i =
      if i < 4096 then bitmapCheck (m (s.buf.copy 0 512 (s.disk.drop (s.mapStart fs p g)))) i
        else s.bit fs p g i := by
  rw [Volume.bit, mapStart_changeMap]
  exact bitmapCheck_drop_copy _ _ _ _

/-- The volume after an allocation has taken bit `i`. -/
abbrev Volume.take (s : Volume) (fs : SbInfo) (p : Pool) (g i : Nat) : Volume :=
  s.changeMap fs p g (fun b => bitmapSet b i) decr

theorem bit_mapped {m : Area → Area} {F : Nat → Bool → Bool}
    (hm : ∀ b i, i < 4096 → bitmapCheck (m b) i = F i (bitmapCheck b i))
    (hF : ∀ i x, 4096 ≤ i → F i x = x) (f : Nat → Nat) :
    (s.changeMap fs p g m f).bit fs p g i = F i (s.bit fs p g i) := by
  rw [bit_changeMap]
  split_ifs with hi
  · rw [hm _ i hi, bitmapCheck_copy, if_pos hi]
    rfl
  · rw [hF i _ (by omega)]

theorem bit_taken (hj : j < 4096) (f : Nat → Nat) :
    (s.changeMap fs p g (fun b => bitmapSet b j) f).bit fs p g i =
      (decide (i = j) || s.bit fs p g i) :=
  bit_mapped (F := fun i x => decide (i = j) || x) (fun b i _ => bitmapCheck_set b j i)
    (fun i x hi => by rw [decide_eq_false (by omega), Bool.false_or]) f

theorem bit_freed (hj : j < 4096) (f : Nat → Nat) :
    (s.changeMap fs p g (fun b => bitmapClear b j) f).bit fs p g i =
      (decide (i ≠ j) && s.bit fs p g i) :=
  bit_mapped (F := fun i x => decide (i ≠ j) && x) (fun b i _ => bitmapCheck_clear b j i)
    (fun i x hi => by rw [decide_eq_true (by omega), Bool.true_and]) f

/-- A bit behind the first sector is set in the buffer only. -/
theorem bit_taken_behind (hj : 4096 ≤ j) (f : Nat → Nat) :
    (s.changeMap fs p g (fun b => bitmapSet b j) f).bit fs p g i = s.bit fs p g i :=
  bit_mapped (F := fun _ x => x)
    (fun b i hi => by rw [bitmapCheck_set, decide_eq_false (by omega), Bool.false_or])
    (fun _ _ _ => rfl) f

theorem clearBits_other (hw : WellFormed fs s) (hg : g < fs.groupDescCount)
    (hh : h < fs.groupDescCount) (hne : ¬(q = p ∧ h = g)) (m : Area → Area) (f : Nat → Nat) :
    (s.changeMap fs p g m f).clearBits fs q h = s.clearBits fs q h := by
  ext i
  rw [mem_clearBits, mem_clearBits]
  exact and_congr_right fun hi => by rw [hw.bit_other hg hh hne hi]

theorem size_changeMap (q : Pool) (m : Area → Area) (f : Nat → Nat) :
    q.size fs (s.changeMap fs p g m f) = q.size fs s := by
  cases p <;> cases q <;> rfl

theorem groupSize_changeMap (q : Pool) (h : Nat) (m : Area → Area) (f : Nat → Nat) :
    q.groupSize fs (s.changeMap fs p g m f) h = q.groupSize fs s h := by
  rw [Pool.groupSize, Pool.groupSize, size_changeMap]

theorem free_changeMap (q : Pool) (h : Nat) (m : Area → Area) (f : Nat → Nat) :
    q.free ((s.changeMap fs p g m f).groupDescTable h) =
      if q = p ∧ h = g then f (p.free (s.groupDescTable g)) % 2 ^ 16
        else q.free (s.groupDescTable h) := by
  show q.free (update s.groupDescTable g _ h) = _
  by_cases hh : h = g
  · subst hh
    rw [update_self, free_setFree]
    by_cases hq : q = p
    · rw [if_pos hq, if_pos ⟨hq, rfl⟩]
    · rw [if_neg hq, if_neg fun h => hq h.1]
  · rw [update_of_ne hh, if_neg fun h => hh h.2]

theorem bitmap_changeMap (q : Pool) (h : Nat) (m : Area → Area) (f : Nat → Nat) :
    q.bitmap ((s.changeMap fs p g m f).groupDescTable h) = q.bitmap (s.groupDescTable h) := by
  show q.bitmap (update s.groupDescTable g _ h) = _
  by_cases hh : h = g
  · rw [hh, update_self, bitmap_setFree]
  · rw [update_of_ne hh]

theorem counts_changeMap (m : Area → Area) (f : Nat → Nat) :
    (s.changeMap fs p g m f).superBlock.sBlocksCount = s.superBlock.sBlocksCount ∧
    (s.changeMap fs p g m f).superBlock.sInodesCount = s.superBlock.sInodesCount := by
  cases p <;> exact ⟨rfl, rfl⟩

section

variable (hw : WellFormed fs s)
include hw

section

variable (hg : g < fs.groupDescCount)
include hg

theorem sum_clearBits (m : Area → Area) (f : Nat → Nat) :
    ∑ h ∈ range fs.groupDescCount, ((s.changeMap fs p g m f).clearBits fs p h).card +
        (s.clearBits fs p g).card =
      p.total s.superBlock + ((s.changeMap fs p g m f).clearBits fs p g).card := by
  rw [hw.total p]
  have hmem : g ∈ range fs.groupDescCount := mem_range.mpr hg
  have hsame : ∑ h ∈ (range fs.groupDescCount).erase g,
    ((s.changeMap fs p g m f).clearBits fs p h).card =
      ∑ h ∈ (range fs.groupDescCount).erase g, (s.clearBits fs p h).card := by
    apply sum_congr rfl
    intro h hh
    obtain ⟨hne, hh⟩ := mem_erase.mp hh
    rw [clearBits_other hw hg (mem_range.mp hh) fun h => hne h.2]
  have hnew := add_sum_erase _ (fun h => ((s.changeMap fs p g m f).clearBits fs p h).card) hmem
  have hold := add_sum_erase _ (fun h => (s.clearBits fs p h).card) hmem
  omega

omit hg in
theorem WellFormed.sum_lt {C : Nat → Finset Nat}
    (hC : ∀ g, g < fs.groupDescCount → ∀ i ∈ C g, i < p.groupSize fs s g) :
    ∑ g ∈ range fs.groupDescCount, (C g).card < 2 ^ 32 := by
  have hle : ∑ g ∈ range fs.groupDescCount, (C g).card ≤
      ∑ g ∈ range fs.groupDescCount, p.groupSize fs s g := by
    apply sum_le_sum
    intro g hg
    exact card_le_groupSize (hC g (mem_range.mp hg))
  rw [sum_groupSize] at hle
  have := hw.size_lt p
  omega

theorem WellFormed.changeMap {m : Area → Area} {f : Nat → Nat}
    (hC : ∀ i ∈ (s.changeMap fs p g m f).clearBits fs p g, i < p.groupSize fs s g)
    (hf : ∀ k k' n, n = 16 ∨ n = 32 → k < 2 ^ n → k' < 2 ^ n →
      k' + (s.clearBits fs p g).card = k + ((s.changeMap fs p g m f).clearBits fs p g).card →
        f k % 2 ^ n = k') (hreserved : fs.firstDataBlock = 0 → 0 < fs.groupDescCount →
      (s.changeMap fs p g m f).bit fs .blocks 0 0 = true) :
    WellFormed fs (s.changeMap fs p g m f) := by
  have hclear : ∀ q h, h < fs.groupDescCount → ∀ i ∈ (s.changeMap fs p g m f).clearBits fs q h,
      i < q.groupSize fs s h := by
    intro q h hh i hi
    by_cases hsame : q = p ∧ h = g
    · obtain ⟨rfl, rfl⟩ := hsame
      exact hC i hi
    · rw [clearBits_other hw hg hh hsame] at hi
      exact hw.clear_lt hh hi
  have hsum := sum_clearBits (p := p) hw hg m f
  have hsumlt : ∑ h ∈ range fs.groupDescCount,
      ((s.changeMap fs p g m f).clearBits fs p h).card < 2 ^ 32 :=
    hw.sum_lt (hclear p)
  have htotal : p.total s.superBlock < 2 ^ 32 := by
    rw [hw.total p]
    exact hw.sum_lt fun g hg i hi => hw.clear_lt hg hi
  have hcard : ∀ C : Finset Nat, (∀ i ∈ C, i < p.groupSize fs s g) → C.card < 2 ^ 16 := by
    intro C hC
    have := card_le_groupSize hC
    have := hw.groupSize_lt p g
    omega
  refine ⟨hw.blockSize, hw.perGroup, ?_, ?_, ?_, ?_, ?_, ?_, hreserved⟩
  · rw [(counts_changeMap m f).1]
    exact hw.blocks
  · rw [(counts_changeMap m f).2]
    exact hw.inodes
  · intro q h i hh hge hi
    rw [groupSize_changeMap] at hge
    by_contra hbit
    rw [Bool.not_eq_true] at hbit
    have := hclear q h hh i (mem_clearBits.mpr ⟨hi, hbit⟩)
    omega
  · intro q h hh
    rw [free_changeMap]
    split_ifs with hsame
    · obtain ⟨rfl, rfl⟩ := hsame
      rw [hw.free q h hh]
      exact hf _ _ 16 (.inl rfl) (hcard _ fun i hi => hw.clear_lt hg hi) (hcard _ hC) (add_comm _ _)
    · rw [clearBits_other hw hg hh hsame]
      exact hw.free q h hh
  · intro q
    show q.total (p.setTotal s.superBlock _) = _
    rw [total_setTotal]
    split_ifs with hq
    · subst hq
      exact hf _ _ 32 (.inr rfl) htotal hsumlt hsum
    · rw [hw.total q]
      apply sum_congr rfl
      intro h hh
      rw [clearBits_other hw hg (mem_range.mp hh) fun h => hq h.1]
  · intro q r h k hh hk
    rw [bitmap_changeMap, bitmap_changeMap]
    exact hw.apart q r h k hh hk

theorem WellFormed.taken (hj : j < 4096) (hclear : j ∈ s.clearBits fs p g) :
    WellFormed fs (s.take fs p g j) := by
  have hbits : (s.take fs p g j).clearBits fs p g =
      (s.clearBits fs p g).erase j := by
    ext i
    rw [mem_erase, mem_clearBits, mem_clearBits, bit_taken hj, Bool.or_eq_false_iff,
      decide_eq_false_iff_not]
    tauto
  have hcard := card_erase_add_one hclear
  apply hw.changeMap hg
  · intro i hi
    rw [hbits] at hi
    exact hw.clear_lt hg (mem_of_mem_erase hi)
  · intro k k' n hn hk hk' hsum
    rw [hbits] at hsum
    rw [decr]
    rcases hn with rfl | rfl <;> omega
  · intro hfirst hcount
    have hreserved := hw.reserved hfirst hcount
    by_cases hsame : Pool.blocks = p ∧ 0 = g
    · obtain ⟨rfl, rfl⟩ := hsame
      rw [bit_taken hj, hreserved, Bool.or_true]
    · rw [hw.bit_other hg hcount hsame (by have := (hw.perGroup .blocks); omega), hreserved]

theorem WellFormed.freed (hj : j < 4096) (hlt : j < p.groupSize fs s g)
    (hset : s.bit fs p g j = true)
    (hreserved : ¬(p = .blocks ∧ fs.firstDataBlock = 0 ∧ g = 0 ∧ j = 0)) :
    WellFormed fs (s.changeMap fs p g (fun b => bitmapClear b j) (· + 1)) := by
  have hbound : j < 8 * fs.blockSize := by
    have := hw.groupSize_lt p g
    omega
  have hbits : (s.changeMap fs p g (fun b => bitmapClear b j) (· + 1)).clearBits fs p g =
      insert j (s.clearBits fs p g) := by
    ext i
    rw [mem_insert, mem_clearBits, mem_clearBits, bit_freed hj, Bool.and_eq_false_iff,
      decide_eq_false_iff_not,
      not_not]
    constructor
    · rintro ⟨hi, heq | hbit⟩
      · exact .inl heq
      · exact .inr ⟨hi, hbit⟩
    · rintro (rfl | ⟨hi, hbit⟩)
      · exact ⟨hbound, .inl rfl⟩
      · exact ⟨hi, .inr hbit⟩
  have hnew : j ∉ s.clearBits fs p g := by
    intro hmem
    rw [(mem_clearBits.mp hmem).2] at hset
    cases hset
  have hcard := card_insert_of_notMem hnew
  apply hw.changeMap hg
  · intro i hi
    rw [hbits, mem_insert] at hi
    rcases hi with rfl | hi
    · exact hlt
    · exact hw.clear_lt hg hi
  · intro k k' n hn hk hk' hsum
    rw [hbits] at hsum
    have hk : k + 1 = k' := by omega
    rw [hk]
    exact mod_eq_of_lt hk'
  · intro hfirst hcount
    have hbit := hw.reserved hfirst hcount
    by_cases hsame : Pool.blocks = p ∧ 0 = g
    · obtain ⟨rfl, rfl⟩ := hsame
      have hne : 0 ≠ j := fun h => hreserved ⟨rfl, hfirst, rfl, h.symm⟩
      rw [bit_freed hj, hbit, decide_eq_true hne]
      rfl
    · rw [hw.bit_other hg hcount hsame (by have := (hw.perGroup .blocks); omega), hbit]

end

end

/-! ## Single calls -/

/-- A bit in the first sector is clear. -/
def LowClear (fs : SbInfo) (p : Pool) (s : Volume) (g : Nat) : Prop :=
  ∃ i, i < 4096 ∧ s.bit fs p g i = false

/-- The buffer shows no clear bit behind its first sector. -/
def TailFull (fs : SbInfo) (s : Volume) : Prop :=
  ∀ i, 4096 ≤ i → i < 8 * fs.blockSize → bitmapCheck s.buf i = true

/-- No counter shows a free number, or a group has one in the first sector of its bitmap; then none
of the groups before it shows a clear bit that is only in the buffer. -/
def AllocOk (fs : SbInfo) (p : Pool) (s : Volume) : Prop :=
  (∀ g, g < fs.groupDescCount → p.free (s.groupDescTable g) = 0) ∨
  ∃ g, g < fs.groupDescCount ∧ LowClear fs p s g ∧
    ∀ h, h < g → p.free (s.groupDescTable h) ≠ 0 → LowClear fs p s h ∨ TailFull fs s

/-- What an allocation is for: it fails only if nothing is free, and else the number was free, is
not free any more and lies in the file system. -/
structure AllocGood (fs : SbInfo) (p : Pool) (s : Volume) (n : Nat) (s' : Volume) : Prop where
  full : n = 0 → ∀ g i, g < fs.groupDescCount → i < p.groupSize fs s g → s.bit fs p g i = true
  fresh : n ≠ 0 → ∃ g i, g < fs.groupDescCount ∧ i < p.groupSize fs s g ∧ n = p.number fs g i ∧
    p.Inside s n ∧
    s.bit fs p g i = false ∧ s'.bit fs p g i = true

def Allocated (fs : SbInfo) (p : Pool) (s : Volume) (n : Nat) : Prop :=
  ∃ g i, g < fs.groupDescCount ∧ i < p.groupSize fs s g ∧ n = p.number fs g i ∧ s.bit fs p g i =
    true

/-- The bit of the number is in the first sector, or nothing is to be done. -/
def FreeOk (fs : SbInfo) (p : Pool) (n : Nat) : Prop := p.indexOf fs n < 4096 ∨ p = .blocks ∧ n = 0

theorem alloc_eq (fs : SbInfo) (p : Pool) : p.alloc fs = (do
    match ← allocLoop fs p fs.groupDescCount 0 with
    | none => pure 0
    | some (g, i) => pure (p.number fs g i % 2 ^ 32)) := by
  cases p <;> rfl

section

variable (hw : WellFormed fs s)
include hw

theorem WellFormed.number_ne_zero (hg : g < fs.groupDescCount) (hbit : s.bit fs p g i = false) :
    p.number fs g i ≠ 0 := by
  cases p with
  | inodes => exact Nat.succ_ne_zero _
  | blocks =>
    intro hzero
    have hzero : fs.firstDataBlock + g * fs.blocksPerGroup + i = 0 := hzero
    have hpos : 0 < fs.blocksPerGroup := (hw.perGroup .blocks).1
    have hgz : g * fs.blocksPerGroup = 0 := by omega
    obtain rfl : g = 0 := (Nat.mul_eq_zero.mp hgz).resolve_right (by omega)
    obtain rfl : i = 0 := by omega
    rw [hw.reserved (by omega) hg] at hbit
    cases hbit

theorem WellFormed.free_ne_zero (hg : g < fs.groupDescCount) (hi : i ∈ s.clearBits fs p g) :
    p.free (s.groupDescTable g) ≠ 0 := by
  rw [hw.free p g hg]
  exact card_ne_zero_of_mem hi

theorem WellFormed.lowClear_mem (hlow : i < 4096) (hbit : s.bit fs p g i = false) :
    i ∈ s.clearBits fs p g := by
  refine mem_clearBits.mpr ⟨?_, hbit⟩
  rcases hw.blockSize with hb | hb | hb <;> omega

omit hw in
theorem seen_low (hi : i < 4096) : s.seen fs p g i = s.bit fs p g i := by
  rw [seen, if_pos hi]

theorem WellFormed.not_lowClear (hg : g < fs.groupDescCount) (hskip : Skipped fs p s g) :
    ¬LowClear fs p s g := by
  rintro ⟨i, hi, hbit⟩
  have hmem := hw.lowClear_mem hi hbit
  rcases hskip with hfree | hseen
  · exact hw.free_ne_zero hg hmem hfree
  · have := hseen i (mem_clearBits.mp hmem).1
    rw [seen_low hi, hbit] at this
    cases this

theorem WellFormed.alloc_none {b : Area} (hskip : ∀ h, h < fs.groupDescCount → Skipped fs p s h) :
    (AllocGood fs p s 0 { s with buf := b } ∧ WellFormed fs { s with buf := b }) ↔
      AllocOk fs p s := by
  constructor
  · rintro ⟨hgood, -⟩
    refine .inl fun g hg => ?_
    rw [hw.free p g hg, Finset.card_eq_zero, eq_empty_iff_forall_notMem]
    intro i hi
    have hbit := hgood.full rfl g i hg (hw.clear_lt hg hi)
    rw [(mem_clearBits.mp hi).2] at hbit
    cases hbit
  · intro hok
    refine ⟨⟨?_, fun h => absurd rfl h⟩, hw.buf b⟩
    intro _ g i hg hi
    rcases hok with hfree | ⟨h, hh, hlow, -⟩
    · by_contra hbit
      rw [Bool.not_eq_true] at hbit
      have hbound := hw.groupSize_lt p g
      exact hw.free_ne_zero hg (mem_clearBits.mpr ⟨by omega, hbit⟩) (hfree g hg)
    · exact absurd hlow (hw.not_lowClear hh (hskip h hh))

theorem WellFormed.alloc_low (hg : g < fs.groupDescCount) (htakes : Takes fs p s g i)
    (hi : i < 4096) (hskip : ∀ h, h < g → Skipped fs p s h) :
    (AllocGood fs p s (p.number fs g i % 2 ^ 32) (s.take fs p g i) ∧
      WellFormed fs (s.take fs p g i)) ∧ AllocOk fs p s := by
  have hbit : s.bit fs p g i = false := by
    rw [← seen_low hi]
    exact htakes.clear
  have hmem : i ∈ s.clearBits fs p g := mem_clearBits.mpr ⟨htakes.bound, hbit⟩
  have hlt := hw.clear_lt hg hmem
  have hnumber : p.number fs g i % 2 ^ 32 = p.number fs g i := mod_eq_of_lt (hw.number_lt hlt)
  refine ⟨⟨⟨?_, ?_⟩, hw.taken hg hi hmem⟩, .inr ⟨g, hg, ⟨i, hi, hbit⟩, ?_⟩⟩
  · intro hzero
    rw [hnumber] at hzero
    exact absurd hzero (hw.number_ne_zero hg hbit)
  · intro _
    rw [hnumber]
    refine ⟨g, i, hg, hlt, rfl, Ext2.number_lt hlt, hbit, ?_⟩
    rw [bit_taken hi, decide_eq_true rfl, Bool.true_or]
  · intro h hh hfree
    rcases hskip h hh with hzero | hseen
    · exact absurd hzero hfree
    · refine .inr fun j hj hjb => ?_
      have := hseen j hjb
      rwa [seen, if_neg (by omega)] at this

theorem WellFormed.alloc_high (hg : g < fs.groupDescCount) (htakes : Takes fs p s g i)
    (hi : 4096 ≤ i) (hskip : ∀ h, h < g → Skipped fs p s h) :
    ¬AllocGood fs p s n (s.take fs p g i) ∧ ¬AllocOk fs p s := by
  have hsame : ∀ h j, h < fs.groupDescCount → j < 8 * fs.blockSize →
      (s.take fs p g i).bit fs p h j = s.bit fs p h j := by
    intro h j hh hj
    by_cases heq : h = g
    · subst heq
      exact bit_taken_behind hi _
    · exact hw.bit_other hg hh (fun h => heq h.2) hj _ _
  have hnotlow : ¬LowClear fs p s g := by
    rintro ⟨j, hj, hbit⟩
    have := htakes.first j (by omega)
    rw [seen_low hj, hbit] at this
    cases this
  refine ⟨fun hgood => ?_, fun hok => ?_⟩
  · by_cases hn : n = 0
    · -- the group has a free number
      have hcard := htakes.free
      rw [hw.free p g hg] at hcard
      obtain ⟨j, hj⟩ := card_ne_zero.mp hcard
      have hbit := hgood.full hn g j hg (hw.clear_lt hg hj)
      rw [(mem_clearBits.mp hj).2] at hbit
      cases hbit
    · obtain ⟨h, j, hh, hj, -, -, hbefore, hafter⟩ := hgood.fresh hn
      have hbound := hw.groupSize_lt p h
      rw [hsame h j hh (by omega), hbefore] at hafter
      cases hafter
  · rcases hok with hfree | ⟨h, hh, hlow, hrest⟩
    · exact htakes.free (hfree g hg)
    · rcases lt_trichotomy h g with hlt | heq | hgt
      · exact hw.not_lowClear hh (hskip h hlt) hlow
      · exact hnotlow (heq ▸ hlow)
      · rcases hrest g hgt htakes.free with hlow | htail
        · exact hnotlow hlow
        · have hclear := htakes.clear
          rw [seen, if_neg (by omega), htail i hi htakes.bound] at hclear
          cases hclear

theorem alloc_good_iff (p : Pool) :
    Total (p.alloc fs) s fun n s' => (AllocGood fs p s n s' ∧ WellFormed fs s') ↔
      AllocOk fs p s := by
  rw [alloc_eq]
  refine (allocLoop_total fs.groupDescCount 0 s (by omega)).bind ?_
  intro r s' h
  rcases r with _ | ⟨g, i⟩
  · obtain ⟨⟨b, rfl, -⟩, hskip⟩ := h
    exact total_pure (hw.alloc_none fun h hh => hskip h (zero_le h) (by omega))
  · obtain ⟨-, hg, htakes, hskip, rfl⟩ := h
    refine total_pure ?_
    have hg : g < fs.groupDescCount := by omega
    by_cases hi : i < 4096
    · obtain ⟨hgood, hok⟩ := hw.alloc_low hg htakes hi fun h hh => hskip h (zero_le h) hh
      exact iff_of_true hgood hok
    · obtain ⟨hgood, hok⟩ := hw.alloc_high hg htakes (by omega) fun h hh => hskip h (zero_le h) hh
      exact iff_of_false (fun h => hgood h.1) hok

theorem WellFormed.release_total (hg : g < fs.groupDescCount) (hi : i < p.groupSize fs s g) :
    Total (p.release fs (p.number fs g i)) s fun _ s' =>
      p = .blocks ∧ p.number fs g i = 0 ∧ s' = s ∨
      ¬(p = .blocks ∧ p.number fs g i = 0) ∧ s' = s.changeMap fs p g (fun b => bitmapClear b i)
        (· + 1) := by
  have hlt := hw.number_lt hi
  have hper : i < p.perGroup fs := hi.trans_le (hw.groupSize_lt p g).1
  obtain ⟨hdiv, hmod⟩ := mul_add_divMod g hper
  have hk : (p.number fs g i + 2 ^ 32 - p.first fs) % 2 ^ 32 = g * p.perGroup fs + i := by
    rw [number_eq] at hlt ⊢
    omega
  cases p with
  | blocks =>
    show Total (ext2FreeBlock fs _) s _
    rw [ext2FreeBlock]
    split_ifs with hzero
    · exact total_pure (.inl ⟨rfl, hzero, rfl⟩)
    · dsimp only
      rw [show fs.firstDataBlock = Pool.first .blocks fs from rfl, hk,
        show fs.blocksPerGroup = Pool.perGroup .blocks fs from rfl, hdiv, hmod]
      refine (freeAt_total hg i).mono ?_
      intro _ s' h
      exact .inr ⟨fun h => hzero h.2, h⟩
  | inodes =>
    show Total (ext2InoFree fs _) s _
    rw [ext2InoFree, show 1 = Pool.first .inodes fs from rfl, hk,
      show fs.inodesPerGroup = Pool.perGroup .inodes fs from rfl, hdiv, hmod]
    refine (freeAt_total hg i).mono ?_
    intro _ s' h
    exact .inr ⟨fun h => (by cases h.1), h⟩

theorem free_good_iff (hn : Allocated fs p s n) :
    Total (p.release fs n) s fun _ s' => WellFormed fs s' ↔ FreeOk fs p n := by
  obtain ⟨g, i, hg, hi, rfl, hbit⟩ := hn
  have hper : i < p.perGroup fs := hi.trans_le (hw.groupSize_lt p g).1
  refine (hw.release_total hg hi).mono ?_
  rintro _ s' (⟨hp, hzero, rfl⟩ | ⟨hne, rfl⟩)
  · exact iff_of_true hw (.inr ⟨hp, hzero⟩)
  · have hok : FreeOk fs p (p.number fs g i) ↔ i < 4096 := by
      rw [FreeOk, indexOf_number hper]
      exact ⟨fun h => h.resolve_right hne, .inl⟩
    rw [hok]
    constructor
    · intro hw'
      by_contra hge
      have hbits : (s.changeMap fs p g (fun b => bitmapClear b i) (· + 1)).clearBits fs p g =
          s.clearBits fs p g := by
        ext j
        rw [mem_clearBits, mem_clearBits, bit_mapped (F := fun _ x => x) _ fun _ _ _ => rfl]
        intro b j hj
        rw [bitmapCheck_clear, decide_eq_true (by omega), Bool.true_and]
      have hcount := hw'.free p g hg
      rw [hbits, free_changeMap, if_pos ⟨rfl, rfl⟩, hw.free p g hg] at hcount
      omega
    · intro hlow
      refine hw.freed hg hlow hi hbit ?_
      rintro ⟨rfl, hfirst, rfl, rfl⟩
      refine hne ⟨rfl, ?_⟩
      show fs.firstDataBlock + 0 * fs.blocksPerGroup + 0 = 0
      omega

end

/-! ## Runs -/

/-- Calls, each with a buffer of its own, where every call has in the first sectors what it needs.
With the state go the numbers that were allocated and are not freed yet. -/
inductive AllocRun (fs : SbInfo) (s₀ : Volume) : Set (Pool × Nat) → Volume → Prop
  | start : AllocRun fs s₀ ∅ s₀
  | alloc {held : Set (Pool × Nat)} {s s' : Volume} {p : Pool} {b : Area} {n : Nat}
      (h : AllocRun fs s₀ held s)
      (hok : AllocOk fs p { s with buf := b }) (hrun : p.alloc fs { s with buf := b } =
        some (n, s')) :
      AllocRun fs s₀ (if n = 0 then held else insert (p, n) held) s'
  | free {held : Set (Pool × Nat)} {s s' : Volume} {p : Pool} {b : Area} {n : Nat}
      (h : AllocRun fs s₀ held s)
      (hn : Allocated fs p { s with buf := b } n) (hok : FreeOk fs p n)
      (hrun : p.release fs n { s with buf := b } = some ((), s')) : AllocRun fs s₀
        (held \ {(p, n)}) s'

theorem Allocated.buf {b : Area} (h : Allocated fs p s n) : Allocated fs p
    { s with buf := b } n := by
  cases p with
  | blocks => exact h
  | inodes => exact h

theorem alloc_change (fs : SbInfo) (p : Pool) (s : Volume) : Spec (p.alloc fs) s fun _ s' =>
    (∃ b : Area, s' = { s with buf := b }) ∨
    ∃ g i, g < fs.groupDescCount ∧ s' = s.take fs p g i := by
  rw [alloc_eq]
  refine (allocLoop_total fs.groupDescCount 0 s (by omega)).spec.bind ?_
  intro r s' hout
  rcases r with _ | ⟨g, i⟩
  · obtain ⟨⟨b, rfl, -⟩, -⟩ := hout
    exact spec_pure (.inl ⟨b, rfl⟩)
  · obtain ⟨-, hg, -, -, rfl⟩ := hout
    exact spec_pure (.inr ⟨g, i, by omega, rfl⟩)

theorem alloc_groupSize (fs : SbInfo) (p : Pool) (s : Volume) : Spec (p.alloc fs) s fun _ s' =>
    ∀ (q : Pool) h, q.groupSize fs s' h = q.groupSize fs s h := by
  refine (alloc_change fs p s).mono ?_
  rintro n s' (⟨b, rfl⟩ | ⟨g, i, -, rfl⟩) q h
  · cases q <;> rfl
  · exact groupSize_changeMap _ _ _ _

theorem Allocated.alloc (hw : WellFormed fs s) {m : Nat} (h : Allocated fs q s m) :
    Spec (p.alloc fs) s fun _ s' => Allocated fs q s' m := by
  refine (alloc_change fs p s).mono ?_
  rintro n s' (⟨b, rfl⟩ | ⟨g, i, hg, rfl⟩)
  · exact h.buf
  · obtain ⟨g', i', hg', hi', rfl, hbit⟩ := h
    have hsize := hw.groupSize_lt q g'
    refine ⟨g', i', hg', by rwa [groupSize_changeMap], rfl, ?_⟩
    by_cases hsame : q = p ∧ g' = g
    · obtain ⟨rfl, rfl⟩ := hsame
      by_cases hlow : i < 4096
      · rw [bit_taken hlow, hbit, Bool.or_true]
      · rw [bit_taken_behind (by omega), hbit]
    · rw [hw.bit_other hg hg' hsame (by omega), hbit]

theorem Allocated.release (hw : WellFormed fs s) {m : Nat} (h : Allocated fs q s m)
    (hn : Allocated fs p s n)
    (hok : FreeOk fs p n) (hne : (q, m) ≠ (p, n)) : Spec (p.release fs n) s fun _ s' =>
      Allocated fs q s' m := by
  obtain ⟨g, i, hg, hi, rfl, -⟩ := hn
  refine (hw.release_total hg hi).spec.mono ?_
  rintro _ s' (⟨-, -, rfl⟩ | ⟨hzero, rfl⟩)
  · exact h
  · obtain ⟨g', i', hg', hi', rfl, hbit⟩ := h
    have hsize := hw.groupSize_lt q g'
    have hper : i < p.perGroup fs := hi.trans_le (hw.groupSize_lt p g).1
    have hlow : i < 4096 := by
      rw [FreeOk, indexOf_number hper] at hok
      exact hok.resolve_right hzero
    refine ⟨g', i', hg', by rwa [groupSize_changeMap], rfl, ?_⟩
    by_cases hsame : q = p ∧ g' = g
    · obtain ⟨rfl, rfl⟩ := hsame
      have hdiff : i' ≠ i := by
        rintro rfl
        exact hne rfl
      rw [bit_freed hlow, hbit, decide_eq_true hdiff]
      rfl
    · rw [hw.bit_other hg hg' hsame (by omega), hbit]

/-- What holds along a run. -/
structure RunInv (fs : SbInfo) (held : Set (Pool × Nat)) (s : Volume) : Prop where
  wellFormed : WellFormed fs s
  allocated : ∀ q ∈ held, q.2 ≠ 0 ∧ Allocated fs q.1 s q.2

variable {held : Set (Pool × Nat)}

theorem AllocGood.not_mem (h : RunInv fs held s) (hgood : AllocGood fs p s n s') :
    (p, n) ∉ held := by
  intro hmem
  obtain ⟨hne, g', i', hg', hi', hn', hbit'⟩ := h.allocated _ hmem
  obtain ⟨g, i, hg, hi, hn, -, hbit, -⟩ := hgood.fresh hne
  have hsize := h.wellFormed.groupSize_lt p g
  have hsize' := h.wellFormed.groupSize_lt p g'
  have hi' : i' < p.groupSize fs s g' := hi'
  obtain ⟨rfl, rfl⟩ := number_inj (by omega) (by omega) (hn.symm.trans hn')
  rw [hbit] at hbit'
  cases hbit'

theorem RunInv.buf (h : RunInv fs held s) (b : Area) : RunInv fs held
    { s with buf := b } :=
  ⟨h.wellFormed.buf b, fun q hq => ⟨(h.allocated q hq).1, (h.allocated q hq).2.buf⟩⟩

theorem AllocRun.inv {s0 : Volume} (h0 : WellFormed fs s0) (hrun : AllocRun fs s0 held s) :
    RunInv fs held s := by
  induction hrun with
  | start => exact ⟨h0, fun q hq => hq.elim⟩
  | @alloc held s s' p b n _ hok hrun ih =>
    have ih := ih.buf b
    obtain ⟨hgood, hw⟩ := ((alloc_good_iff ih.wellFormed p).spec n s' hrun).mpr hok
    have hkeep : ∀ q ∈ held, q.2 ≠ 0 ∧ Allocated fs q.1 s' q.2 := fun q hq =>
      ⟨(ih.allocated q hq).1, (ih.allocated q hq).2.alloc ih.wellFormed _ _ hrun⟩
    refine ⟨hw, ?_⟩
    split_ifs with hn
    · exact hkeep
    · rintro q (rfl | hq)
      · obtain ⟨g, i, hg, hi, hnum, -, -, hbit⟩ := hgood.fresh hn
        rw [← alloc_groupSize fs p _ _ _ hrun p g] at hi
        exact ⟨hn, g, i, hg, hi, hnum, hbit⟩
      · exact hkeep q hq
  | @free held s s' p b n _ hn hok hrun ih =>
    have ih := ih.buf b
    refine ⟨((free_good_iff ih.wellFormed hn).spec _ s' hrun).mpr hok, ?_⟩
    rintro q ⟨hq, hne⟩
    exact ⟨(ih.allocated q hq).1, (ih.allocated q hq).2.release ih.wellFormed hn hok hne _ _ hrun⟩

/-- Blocks and inodes are allocated and freed as they should be, in every state of every run in
which the first sectors of the bitmaps have what the calls need, and in no other. -/
theorem ext2_alloc_runs {held : Set (Pool × Nat)} {s₀ : Volume} (h₀ : WellFormed fs s₀)
    (hrun : AllocRun fs s₀ held s) :
    WellFormed fs s ∧
    (∀ p b, Total (p.alloc fs) { s with buf := b } fun n s' =>
      (AllocGood fs p { s with buf := b } n s' ∧ (p, n) ∉ held ∧ WellFormed fs s') ↔
        AllocOk fs p { s with buf := b }) ∧
    (∀ p b n, Allocated fs p s n → Total (p.release fs n) { s with buf := b } fun _ s' =>
      WellFormed fs s' ↔ FreeOk fs p n) := by
  have hinv := hrun.inv h₀
  refine ⟨hinv.wellFormed, ?_, ?_⟩
  · intro p b
    have hinv := hinv.buf b
    refine (alloc_good_iff hinv.wellFormed p).mono ?_
    intro n s' hiff
    rw [← hiff]
    exact ⟨fun h => ⟨h.1, h.2.2⟩, fun h => ⟨h.1, h.1.not_mem hinv, h.2⟩⟩
  · intro p b n hn
    exact free_good_iff (hinv.wellFormed.buf b) hn.buf

/-! ## An image with two free blocks -/

def imageFs : SbInfo := ⟨1024, 8192, 8192, 1, 1⟩

/-- One group, where only the first two bits of byte `k` of the block bitmap are clear. -/
def image (k : Nat) : Volume where
  disk := fun a => if a = 3072 + k then 0xFC#8 else 0xFF#8
  buf := fun _ => 0
  groupDescTable := fun _ => ⟨3, 4, 5, 2, 0⟩
  superBlock := ⟨8192, 8193, 2, 0⟩

theorem image_bit_blocks (k i : Nat) :
    (image k).bit imageFs .blocks 0 i = true ↔ ¬(i = 8 * k ∨ i = 8 * k + 1) := by
  rw [Volume.bit, bitmapCheck_eq]
  show BitVec.getLsbD (if 3072 + i / 8 = 3072 + k then 0xFC#8 else 0xFF#8) (i % 8) = true ↔ _
  have hlt : i % 8 < 8 := mod_lt _ (by decide)
  have hclear : ∀ j, j < 8 → ((0xFC#8).getLsbD j = true ↔ 2 ≤ j) := by decide
  have hset : ∀ j, j < 8 → (0xFF#8).getLsbD j = true := by decide
  split_ifs with h
  · rw [hclear _ hlt]
    omega
  · rw [hset _ hlt]
    simp only [true_iff]
    omega

theorem image_bit_inodes {k : Nat} (hk : k < 1024) (hi : i < 8192) :
    (image k).bit imageFs .inodes 0 i = true := by
  rw [Volume.bit, bitmapCheck_eq]
  show BitVec.getLsbD (if 4096 + i / 8 = 3072 + k then 0xFC#8 else 0xFF#8) (i % 8) = true
  have hset : ∀ j, j < 8 → (0xFF#8).getLsbD j = true := by decide
  rw [if_neg (by omega), hset _ (mod_lt _ (by decide))]

theorem image_wellFormed {k : Nat} (hk : k < 1024) : WellFormed imageFs (image k) := by
  have hblocks : (image k).clearBits imageFs .blocks 0 = {8 * k, 8 * k + 1} := by
    ext i
    rw [mem_clearBits, ← Bool.not_eq_true, image_bit_blocks, not_not, mem_insert,
      mem_singleton]
    show i < 8 * 1024 ∧ _ ↔ _
    omega
  have hinodes : (image k).clearBits imageFs .inodes 0 = ∅ := by
    rw [eq_empty_iff_forall_notMem]
    intro i hi
    obtain ⟨hlt, hbit⟩ := mem_clearBits.mp hi
    rw [image_bit_inodes hk hlt] at hbit
    cases hbit
  have hcard : ({8 * k, 8 * k + 1} : Finset Nat).card = 2 := card_pair (by omega)
  have hgroup : ∀ {g}, g < imageFs.groupDescCount → g = 0 := fun hg => lt_one_iff.mp hg
  have hcounts : 1 ≤ 8193 ∧ 8193 < 2 ^ 32 ∧ 8192 < 2 ^ 32 := by decide
  refine ⟨.inl rfl, ?_, ⟨hcounts.1, hcounts.2.1⟩, hcounts.2.2, ?_, ?_, ?_, ?_, nofun⟩
  · intro p
    cases p <;> decide
  · intro p g i hg hge hlt
    obtain rfl := hgroup hg
    have hsize : p.groupSize imageFs (image k) 0 = 8192 := by cases p <;> rfl
    have hlt : i < 8 * 1024 := hlt
    omega
  · intro p g hg
    obtain rfl := hgroup hg
    cases p with
    | blocks =>
      rw [hblocks, hcard]
      rfl
    | inodes =>
      rw [hinodes]
      rfl
  · intro p
    rw [show imageFs.groupDescCount = 1 from rfl, sum_range_one]
    cases p with
    | blocks =>
      rw [hblocks, hcard]
      rfl
    | inodes =>
      rw [hinodes]
      rfl
  · intro p q g h hg hh heq
    obtain rfl := hgroup hg
    obtain rfl := hgroup hh
    cases p <;> cases q
    · exact ⟨rfl, rfl⟩
    · exact absurd heq (show (3 : Nat) ≠ 4 by decide)
    · exact absurd heq (show (4 : Nat) ≠ 3 by decide)
    · exact ⟨rfl, rfl⟩

/-- With the clear bits in the first sector, a block is allocated. -/
theorem ext2_alloc_runs_low :
    ∃ n s', ext2AllocBlock imageFs (image 0) = some (n, s') ∧ AllocGood imageFs .blocks
      (image 0) n s' := by
  obtain ⟨-, halloc, -⟩ := ext2_alloc_runs (image_wellFormed (k := 0) (by decide)) .start
  obtain ⟨n, s', hrun, hiff⟩ := halloc .blocks (fun _ => 0)
  have hlow : LowClear imageFs .blocks (image 0) 0 := by
    refine ⟨0, by decide, ?_⟩
    rw [← Bool.not_eq_true, image_bit_blocks]
    omega
  have hok : AllocOk imageFs .blocks (image 0) :=
    .inr ⟨0, by decide, hlow, fun h hh => absurd hh (not_lt_zero h)⟩
  exact ⟨n, s', hrun, (hiff.mpr hok).1⟩

/-- With an empty buffer, and no clear bit in the first sector, the first bit behind it is taken. -/
theorem alloc_behind (hfree : (s.groupDescTable 0).bgFreeBlocksCount ≠ 0)
    (hbuf : s.buf = fun _ => 0) (hlow : ∀ i, i < 4096 → s.bit imageFs .blocks 0 i = true) :
    Total (ext2AllocBlock imageFs) s fun n s' =>
      n = 4097 ∧ s' = s.changeMap imageFs .blocks 0 (fun b => bitmapSet b 4096) decr := by
  have hbehind : s.seen imageFs .blocks 0 4096 = false := by
    rw [seen, if_neg (by decide), hbuf, bitmapCheck_eq]
    rfl
  refine (allocLoop_total 1 0 s (by decide)).bind ?_
  intro r s' h
  rcases r with _ | ⟨g, i⟩
  · rcases h.2 0 le_rfl (by decide) with hzero | hseen
    · exact absurd hzero hfree
    · rw [hseen 4096 (by decide)] at hbehind
      cases hbehind
  · obtain ⟨-, hg, htakes, -, rfl⟩ := h
    obtain rfl : g = 0 := by omega
    have hge : ¬i < 4096 := by
      intro hi
      have hclear := htakes.clear
      rw [seen_low hi, hlow i hi] at hclear
      cases hclear
    have hle : ¬4096 < i := by
      intro hi
      rw [htakes.first 4096 hi] at hbehind
      cases hbehind
    obtain rfl : i = 4096 := by omega
    exact total_pure ⟨rfl, rfl⟩

/-- With the clear bits in the second sector, two allocations give the same block. -/
theorem ext2_alloc_twice :
    WellFormed imageFs (image 512) ∧
    ∃ s s', ext2AllocBlock imageFs (image 512) = some (4097, s) ∧
      ext2AllocBlock imageFs { s with buf := fun _ => 0 } = some (4097, s') := by
  refine ⟨image_wellFormed (by decide), ?_⟩
  have hlow : ∀ i, i < 4096 → (image 512).bit imageFs .blocks 0 i = true := by
    intro i hi
    rw [image_bit_blocks]
    omega
  obtain ⟨_, _, hfirst, rfl, rfl⟩ := alloc_behind (s := image 512) (by decide) rfl hlow
  have hlow' : ∀ i, i < 4096 → Volume.bit { (image 512).changeMap imageFs .blocks 0
      (fun b => bitmapSet b 4096) decr with buf := fun _ => 0 } imageFs .blocks 0 i = true := by
    intro i hi
    have hsame : ((image 512).changeMap imageFs .blocks 0 (fun b => bitmapSet b 4096) decr).bit
        imageFs .blocks 0 i = (image 512).bit imageFs .blocks 0 i := bit_taken_behind le_rfl decr
    rw [hlow i hi] at hsame
    exact hsame
  obtain ⟨_, s', hsecond, rfl, -⟩ := alloc_behind (by decide) rfl hlow'
  exact ⟨_, s', hfirst, hsecond⟩

end ShiziOS.Ext2
