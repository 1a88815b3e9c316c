import ShiziOS.Ext2.Bitmap
import ShiziOS.Util.Dynarr

/-!
# Bitmaps that grow

The bitmaps of `include/dynarr.h`: dynamic arrays of bytes whose `current_count` stays zero. The
first buffer and every later one is clear, since the array layer takes none of the bytes for
elements and copies nothing.
-/

namespace ShiziOS.Util

open Bytes Exec Ext2

/-! ## The functions -/

/-- The limit in bytes that `dynarr_bitmap_create` computes, in `32` bits. -/
def bitmapLimit (maxBits : Nat) : Nat := if maxBits = 0 then 0 else (maxBits + 7) % 2 ^ 32 / 8

def dynarrBitmapCreate (heap : Heap) (maxBits : Nat) : Option Dynarr :=
  let initBytes := if maxBits ≠ 0 ∧ maxBits < 128 then (maxBits + 7) / 8 else 16
  match dynarrCreate heap 1 (bitmapLimit maxBits) with
  | none => none
  | some d =>
    if 0 < initBytes then
      match dynarrExpandTo heap initBytes d with
      | some (true, d) => some d
      | _ => none
    else some d

/-- The bits of the present buffer, as a number of `32` bits. -/
def Dynarr.totalBits (d : Dynarr) : Nat := d.dynarrCount * 8 % 2 ^ 32

/-- The search in `dynarr_bitmap_alloc`, which it makes before and after growing. -/
def searchBit (hint : Nat) : D (Option Nat) := do
  let d ← get
  let found := bitmapFind d.arr.bytes d.totalBits hint false
  if found < d.totalBits then
    set { d with arr := { d.arr with bytes := bitmapSet d.arr.bytes found } }
    pure (some found)
  else pure none

/-- The capacity that `dynarr_bitmap_alloc` asks for. -/
def Dynarr.grown (d : Dynarr) : Nat :=
  let newCapacity := d.dynarrCount * 2 % 2 ^ 64
  let newCapacity := if newCapacity < 16 then 16 else newCapacity
  if d.maxLimit ≠ 0 ∧ d.maxLimit < newCapacity then d.maxLimit else newCapacity

/-- `dynarr_bitmap_alloc`; `none` for `false`. -/
def dynarrBitmapAlloc (heap : Heap) (hint : Nat) : D (Option Nat) := do
  match ← searchBit hint with
  | some found => pure (some found)
  | none =>
    let d ← get
    if d.maxLimit ≠ 0 ∧ d.maxLimit ≤ d.dynarrCount then pure none
    else if ← dynarrExpandTo heap d.grown then searchBit hint
    else pure none

def dynarrBitmapFree (d : Dynarr) (bit : Nat) : Dynarr :=
  if bit < d.dynarrCount * 8 then
    { d with arr := { d.arr with bytes := bitmapClear d.arr.bytes bit } } else d

def dynarrBitmapTest (d : Dynarr) (bit : Nat) : Bool :=
  if d.totalBits ≤ bit then false else bitmapCheck d.arr.bytes bit

/-! ## When an allocation is right -/

/-- The first bit from `hint` on that is clear. -/
structure Dynarr.FirstClear (d : Dynarr) (hint b : Nat) : Prop where
  ge : hint ≤ b
  lt : b < d.dynarrCount * 8
  clear : bitmapCheck d.arr.bytes b = false
  before : ∀ j, hint ≤ j → j < b → bitmapCheck d.arr.bytes j = true

/-- Every bit of the buffer from `hint` on is set. -/
def Dynarr.FullFrom (d : Dynarr) (hint : Nat) : Prop :=
  ∀ j, hint ≤ j → j < d.dynarrCount * 8 → bitmapCheck d.arr.bytes j = true

/-- The first clear bit of the buffer is below `maxBits`. If there is none, the buffer is not
replaced by a larger one, or no bit at all is set and the larger one reaches `hint`. -/
structure AllocRight (maxBits : Nat) (heap : Heap) (hint : Nat) (d : Dynarr) : Prop where
  inside : ∀ b, d.FirstClear hint b → maxBits ≠ 0 → b < maxBits
  full : d.FullFrom hint → (d.maxLimit ≠ 0 ∧ d.maxLimit ≤ d.dynarrCount) ∨
    dynarrMalloc heap d.grown = none ∨
    ((∀ b, b < d.dynarrCount * 8 → bitmapCheck d.arr.bytes b = false) ∧
      (hint < d.grown * 8 ↔ maxBits = 0 ∨ hint < maxBits))

/-- What an allocation may answer: a free index, or nothing if there is none from `hint` on or
no memory. -/
def AllocAnswer (maxBits : Nat) (heap : Heap) (d : Dynarr) (live : Set Nat) (hint : Nat) :
    Option Nat → Prop
  | some b => b ∉ live ∧ (maxBits ≠ 0 → b < maxBits)
  | none => (∀ b, hint ≤ b → b < 2 ^ 32 → (maxBits ≠ 0 → b < maxBits) → b ∈ live) ∨
    dynarrMalloc heap d.grown = none

/-- The indices that are allocated after the call. -/
def liveAfter (live : Set Nat) : Option Nat → Set Nat
  | some b => insert b live
  | none => live

/-- The indices that `dynarr_bitmap_test` reports are those in `live`. -/
def Dynarr.Reports (d : Dynarr) (live : Set Nat) : Prop :=
  ∀ b, dynarrBitmapTest d b = true ↔ b ∈ live

/-- Bitmaps in runs whose allocations are right, with the indices that are allocated. -/
inductive BitmapRun (maxBits : Nat) : Dynarr → Set Nat → Prop
  | create {heap : Heap} {d : Dynarr} (hcreate : dynarrBitmapCreate heap maxBits = some d) :
      BitmapRun maxBits d ∅
  | alloc {heap : Heap} {hint : Nat} {d d' : Dynarr} {live : Set Nat} {r : Option Nat}
      (hrun : BitmapRun maxBits d live) (hhint : hint < 2 ^ 32)
        (hright : AllocRight maxBits heap hint d)
      (hcall : dynarrBitmapAlloc heap hint d = some (r, d')) :
        BitmapRun maxBits d' (liveAfter live r)
  | free {d : Dynarr} {live : Set Nat} (bit : Nat) (hrun : BitmapRun maxBits d live) :
      BitmapRun maxBits (dynarrBitmapFree d bit) (live \ {bit})

/-! ## Bitmaps in runs -/

variable {d d' : Dynarr} {heap : Heap} {live : Set Nat} {maxBits hint : Nat}

/-- An array that is used as a bitmap. -/
structure Dynarr.IsBitmap (d : Dynarr) (maxBits : Nat) : Prop where
  wf : d.Wf
  elementSize : d.elementSize = 1
  currentCount : d.currentCount = 0
  maxLimit : d.maxLimit = bitmapLimit maxBits
  room : 16 ≤ d.dynarrCount ∨ d.maxLimit ≠ 0 ∧ d.maxLimit ≤ d.dynarrCount

section

variable (h : d.IsBitmap maxBits)
include h

theorem Dynarr.IsBitmap.totalBits_eq : d.totalBits = d.dynarrCount * 8 := by
  have hcap := h.wf.capacity_le
  rw [totalBits, Nat.mod_eq_of_lt (by omega)]

theorem Dynarr.IsBitmap.test_eq (b : Nat) :
    dynarrBitmapTest d b = true ↔ b < d.dynarrCount * 8 ∧ bitmapCheck d.arr.bytes b = true := by
  rw [dynarrBitmapTest, h.totalBits_eq]
  split_ifs with hb
  · exact ⟨nofun, fun hf => by omega⟩
  · exact ⟨fun ht => ⟨by omega, ht⟩, fun ht => ht.2⟩

theorem Dynarr.IsBitmap.withBytes (bytes : Area) :
    Dynarr.IsBitmap { d with arr := { d.arr with bytes := bytes } } maxBits :=
  ⟨⟨h.wf.elementSize_pos, h.wf.count_le, h.wf.capacity_pos, h.wf.fits, h.wf.size_le,
    h.wf.maxCount_eq, h.wf.limit⟩,
    h.elementSize, h.currentCount, h.maxLimit, h.room⟩

omit h in
theorem bitmapLimit_spec (hmax : maxBits < 2 ^ 32) :
    (bitmapLimit maxBits ≠ 0 → maxBits ≤ bitmapLimit maxBits * 8) ∧
    (bitmapLimit maxBits = 0 → maxBits ≠ 0 → 2 ^ 31 ≤ maxBits) := by
  rw [bitmapLimit]
  split_ifs <;> omega

omit h in
theorem dynarrBitmapCreate_spec (hmax : maxBits < 2 ^ 32) (h : dynarrBitmapCreate heap maxBits =
    some d) :
    d.IsBitmap maxBits ∧ ∀ k, d.arr.bytes k = 0 := by
  rw [dynarrBitmapCreate] at h
  cases hd : dynarrCreate heap 1 (bitmapLimit maxBits) with
  | none =>
    rw [hd] at h
    cases h
  | some d0 =>
    obtain ⟨hwf, hes, hcount, hlimit, hzero, hcap⟩ := dynarrCreate_spec hd (by decide)
    have hinit : (if maxBits ≠ 0 ∧ maxBits < 128 then (maxBits + 7) / 8 else 16) ≤
        d0.dynarrCount := by
      rw [hcap, bitmapLimit]
      split_ifs <;> omega
    rw [hd] at h
    simp only [dynarrExpandTo_of_le hinit, ite_self] at h
    cases h
    refine ⟨⟨hwf, hes, hcount, hlimit, ?_⟩, hzero⟩
    rw [hcap, hlimit]
    split_ifs <;> omega

theorem searchBit_spec (hint : Nat) : Total (searchBit hint) d fun r d' =>
    (∃ b, r = some b ∧ d.FirstClear hint b ∧
      d' = { d with arr := { d.arr with bytes := bitmapSet d.arr.bytes b } }) ∨
    (r = none ∧ d.FullFrom hint ∧ d' = d) := by
  obtain ⟨hle, hbefore, hfound⟩ := bitmapFind_spec d.arr.bytes d.totalBits hint false
  apply total_get
  dsimp only
  simp only [ne_eq, Bool.not_eq_false] at hbefore
  rw [h.totalBits_eq] at hle hbefore hfound ⊢
  split_ifs with hlt
  · apply total_bind
    refine ⟨(), _, rfl, ?_⟩
    apply total_pure
    obtain ⟨hge, hclear⟩ := hfound hlt
    exact .inl ⟨_, rfl, ⟨hge, hlt, hclear, hbefore⟩, rfl⟩
  · apply total_pure
    exact .inr ⟨rfl, fun j hj hjlt => hbefore j hj (by omega), rfl⟩

section

variable (hlimit : ¬(d.maxLimit ≠ 0 ∧ d.maxLimit ≤ d.dynarrCount))
include hlimit

/-- A bitmap that may grow has a buffer of `16` bytes at least, which is then doubled, up to the
limit. -/
theorem Dynarr.IsBitmap.grown_eq :
    d.grown = (if d.maxLimit ≠ 0 ∧ d.maxLimit < d.dynarrCount * 2 then d.maxLimit
      else d.dynarrCount * 2) ∧
      d.dynarrCount < d.grown ∧ d.grown ≤ d.dynarrCount * 2 := by
  have hcap := h.wf.capacity_le
  have hroom := h.room
  rw [grown, Nat.mod_eq_of_lt (show d.dynarrCount * 2 < 2 ^ 64 by omega),
    if_neg (show ¬d.dynarrCount * 2 < 16 by omega)]
  refine ⟨rfl, ?_⟩
  split_ifs <;> omega

theorem Dynarr.IsBitmap.capacityLoop_eq :
    capacityLoop d.maxLimit d.grown 66 d.dynarrCount = some (some d.grown) := by
  have hcap := h.wf.capacity_le
  obtain ⟨heq, hlt, -⟩ := h.grown_eq hlimit
  rw [capacityLoop, if_pos hlt, Nat.mod_eq_of_lt (by omega)]
  dsimp only
  split_ifs at heq ⊢ with h1 h2
  · omega
  · rw [heq]
  · rw [heq, capacityLoop, if_neg (lt_irrefl _)]

theorem Dynarr.IsBitmap.expandTo_spec : Total (dynarrExpandTo heap d.grown) d fun ok d' =>
      if ok then dynarrMalloc heap d.grown ≠ none ∧ d'.IsBitmap maxBits ∧ d'.dynarrCount = d.grown ∧
        ∀ b, bitmapCheck d'.arr.bytes b = false
      else dynarrMalloc heap d.grown = none ∧ d' = d := by
  have hcap := h.wf.capacity_le
  have hroom := h.room
  obtain ⟨-, hlt, hle⟩ := h.grown_eq hlimit
  have hloop := h.capacityLoop_eq hlimit
  have hcan : d.CanHold heap d.grown ↔ dynarrMalloc heap d.grown ≠ none := by
    rw [CanHold, hloop, h.elementSize]
    simp
  refine (dynarrExpandTo_spec h.wf hlt (by rw [h.elementSize]; omega)).mono ?_
  intro ok d' hok
  cases ok with
  | false => exact ⟨not_not.mp (mt hcan.mpr hok.1), hok.2⟩
  | true =>
    obtain ⟨hm, n, hn, -, hd'⟩ := hok
    rw [hloop] at hn
    cases hn
    refine ⟨hcan.mp hm, ⟨hd'.wf, hd'.elementSize.trans h.elementSize,
      hd'.currentCount.trans h.currentCount,
      hd'.maxLimit.trans h.maxLimit, ?_⟩, hd'.dynarrCount, ?_⟩
    · rw [hd'.dynarrCount]
      omega
    · intro b
      rw [bitmapCheck_eq, hd'.clear _ (by rw [h.currentCount, Nat.zero_mul]; exact Nat.zero_le _)]
      exact BitVec.getLsbD_zero

end

omit h in
theorem Dynarr.FullFrom.not_firstClear (h : d.FullFrom hint) {b : Nat} : ¬d.FirstClear hint b := by
  intro hb
  have htrue := h b hb.ge hb.lt
  rw [hb.clear] at htrue
  cases htrue

theorem alloc_first (hlive : d.Reports live) {b : Nat} (hb : d.FirstClear hint b)
    (hd' : d' = { d with arr := { d.arr with bytes := bitmapSet d.arr.bytes b } }) :
    d'.IsBitmap maxBits ∧
      (AllocAnswer maxBits heap d live hint (some b) ∧ d'.Reports (insert b live) ↔
        AllocRight maxBits heap hint d) := by
  subst hd'
  refine ⟨h.withBytes _, ?_, ?_⟩
  · rintro ⟨⟨-, hin⟩, -⟩
    refine ⟨?_, fun hfull => absurd hb hfull.not_firstClear⟩
    intro b' hb' hne
    -- the first clear bit is unique
    rcases Nat.lt_trichotomy b' b with hlt | rfl | hgt
    · have htrue := hb.before b' hb'.ge hlt
      rw [hb'.clear] at htrue
      cases htrue
    · exact hin hne
    · have htrue := hb'.before b hb.ge hgt
      rw [hb.clear] at htrue
      cases htrue
  · intro hright
    refine ⟨⟨?_, hright.inside b hb⟩, ?_⟩
    · rw [← hlive b, h.test_eq, hb.clear]
      simp
    · intro j
      rw [(h.withBytes _).test_eq, bitmapCheck_set, Set.mem_insert_iff, ← hlive j, h.test_eq,
        Bool.or_eq_true,
        decide_eq_true_iff]
      constructor
      · rintro ⟨hj, rfl | hset⟩
        · exact .inl rfl
        · exact .inr ⟨hj, hset⟩
      · rintro (rfl | ⟨hj, hset⟩)
        · exact ⟨hb.lt, .inl rfl⟩
        · exact ⟨hj, .inr hset⟩

omit h in
theorem alloc_limit (hmax : maxBits < 2 ^ 32) (h : d.IsBitmap maxBits) (hlive : d.Reports live)
    (hfull : d.FullFrom hint) (hlimit : d.maxLimit ≠ 0 ∧ d.maxLimit ≤ d.dynarrCount) :
    AllocAnswer maxBits heap d live hint none ∧ d.Reports live ↔
      AllocRight maxBits heap hint d := by
  refine ⟨fun _ => ⟨fun b hb => absurd hb hfull.not_firstClear, fun _ => .inl hlimit⟩,
    fun _ => ⟨.inl ?_, hlive⟩⟩
  intro b hge _ hb
  have hle := (bitmapLimit_spec hmax).1 (h.maxLimit ▸ hlimit.1)
  have hne : maxBits ≠ 0 := by
    rintro rfl
    exact hlimit.1 h.maxLimit
  have hcap := hlimit.2
  rw [h.maxLimit] at hcap
  rw [← hlive b, h.test_eq]
  have hb8 : b < d.dynarrCount * 8 := by omega
  exact ⟨hb8, hfull b hge hb8⟩

theorem Dynarr.IsBitmap.none_set_iff (hlive : d.Reports live) :
    (∀ b, b < d.dynarrCount * 8 → bitmapCheck d.arr.bytes b = false) ↔ live = ∅ := by
  rw [Set.eq_empty_iff_forall_notMem]
  constructor
  · intro hclear b hb
    rw [← hlive b, h.test_eq] at hb
    have hf := hclear b hb.1
    rw [hb.2] at hf
    cases hf
  · intro hempty b hb
    rw [← Bool.not_eq_true]
    intro hset
    exact hempty b ((hlive b).mp ((h.test_eq b).mpr ⟨hb, hset⟩))

theorem alloc_grown (hlive : d.Reports live) (hhint : hint < 2 ^ 32) (hfull : d.FullFrom hint)
    (hlimit : ¬(d.maxLimit ≠ 0 ∧ d.maxLimit ≤ d.dynarrCount))
    (hmalloc : dynarrMalloc heap d.grown ≠ none) {d1 : Dynarr} (h1 : d1.IsBitmap maxBits)
    (hcap : d1.dynarrCount = d.grown) (hclear : ∀ b, bitmapCheck d1.arr.bytes b = false) :
    Total (searchBit hint) d1 fun r d' => d'.IsBitmap maxBits ∧
      (AllocAnswer maxBits heap d live hint r ∧ d'.Reports (liveAfter live r) ↔
        AllocRight maxBits heap hint d) := by
  -- with the other cases out of the way, two conditions are left
  have hright : AllocRight maxBits heap hint d ↔
      live = ∅ ∧ (hint < d.grown * 8 ↔ maxBits = 0 ∨ hint < maxBits) := by
    rw [← h.none_set_iff hlive]
    constructor
    · intro hr
      rcases hr.full hfull with hl | hm | hc
      · exact absurd hl hlimit
      · exact absurd hm hmalloc
      · exact hc
    · exact fun hc => ⟨fun b hb => absurd hb hfull.not_firstClear, fun _ => .inr (.inr hc)⟩
  refine (searchBit_spec h1 hint).mono ?_
  rintro r d' (⟨b, rfl, hb, rfl⟩ | ⟨rfl, hfull1, rfl⟩)
  · refine ⟨h1.withBytes _, ?_⟩
    have hbhint : b = hint := by
      by_contra hne
      have hge := hb.ge
      have htrue := hb.before hint le_rfl (by omega)
      rw [hclear] at htrue
      cases htrue
    have hblt := hb.lt
    rw [hcap] at hblt
    subst hbhint
    have htest : ∀ j, dynarrBitmapTest
      { d1 with arr := { d1.arr with bytes := bitmapSet d1.arr.bytes b } } j = true ↔
        j = b := by
      intro j
      rw [(h1.withBytes _).test_eq, bitmapCheck_set, hclear, Bool.or_false, decide_eq_true_iff,
        hcap]
      exact ⟨fun hj => hj.2, fun hj => ⟨hj ▸ hblt, hj⟩⟩
    rw [hright]
    constructor
    · rintro ⟨⟨hnot, hin⟩, hrep⟩
      refine ⟨?_, fun _ => ?_, fun _ => hblt⟩
      · rw [Set.eq_empty_iff_forall_notMem]
        intro j hj
        obtain rfl := (htest j).mp ((hrep j).mpr (Set.mem_insert_of_mem b hj))
        exact hnot hj
      · exact or_iff_not_imp_left.mpr hin
    · rintro ⟨rfl, hiff⟩
      refine ⟨⟨Set.notMem_empty b, fun hne => (hiff.mp hblt).resolve_left hne⟩, ?_⟩
      intro j
      rw [htest]
      exact ⟨fun hj => .inl hj, fun hj => hj.resolve_right (Set.notMem_empty j)⟩
  · refine ⟨h1, ?_⟩
    have hge : ¬hint < d.grown * 8 := by
      intro hlt
      have htrue := hfull1 hint le_rfl (hcap ▸ hlt)
      rw [hclear] at htrue
      cases htrue
    have htest : ∀ j, ¬dynarrBitmapTest d' j = true := by
      intro j hj
      rw [h1.test_eq, hclear] at hj
      cases hj.2
    rw [hright]
    constructor
    · rintro ⟨hans, hrep⟩
      have hempty : live = ∅ := by
        rw [Set.eq_empty_iff_forall_notMem]
        exact fun j hj => htest j ((hrep j).mpr hj)
      refine ⟨hempty, fun hlt => absurd hlt hge, ?_⟩
      intro hin
      have hmem := hans.resolve_right hmalloc hint le_rfl hhint fun hne => hin.resolve_left hne
      rw [hempty] at hmem
      exact absurd hmem (Set.notMem_empty hint)
    · rintro ⟨rfl, hiff⟩
      refine ⟨.inl ?_, fun j => ⟨fun hj => absurd hj (htest j),
        fun hj => absurd hj (Set.notMem_empty j)⟩⟩
      intro b hbge _ hb
      exfalso
      apply hge
      rw [hiff, or_iff_not_imp_left]
      exact fun hz => lt_of_le_of_lt hbge (hb hz)

omit h in
theorem dynarrBitmapAlloc_spec (heap : Heap) (hmax : maxBits < 2 ^ 32) (h : d.IsBitmap maxBits)
    (hlive : d.Reports live)
    (hhint : hint < 2 ^ 32) : Total (dynarrBitmapAlloc heap hint) d fun r d' =>
      d'.IsBitmap maxBits ∧
      (AllocAnswer maxBits heap d live hint r ∧ d'.Reports (liveAfter live r) ↔
        AllocRight maxBits heap hint d) := by
  refine (searchBit_spec h hint).bind ?_
  rintro r d0 (⟨b, rfl, hb, hd0⟩ | ⟨rfl, hfull, rfl⟩)
  · exact total_pure (alloc_first h hlive hb hd0)
  · apply total_get
    split_ifs with hlimit
    · exact total_pure ⟨h, alloc_limit hmax h hlive hfull hlimit⟩
    · refine (h.expandTo_spec hlimit).bind ?_
      intro ok d1 hok
      cases ok with
      | false =>
        obtain ⟨hm, rfl⟩ := hok
        refine total_pure ⟨h, fun _ => ?_, fun _ => ⟨.inr hm, hlive⟩⟩
        exact ⟨fun b hb => absurd hb hfull.not_firstClear, fun _ => .inr (.inl hm)⟩
      | true =>
        obtain ⟨hm, h1, hcap, hclear⟩ := hok
        exact alloc_grown h hlive hhint hfull hlimit hm h1 hcap hclear

theorem dynarrBitmapFree_spec (hlive : d.Reports live) (bit : Nat) :
    (dynarrBitmapFree d bit).IsBitmap maxBits ∧ (dynarrBitmapFree d bit).Reports
      (live \ {bit}) := by
  rw [dynarrBitmapFree]
  split_ifs with hbit
  · refine ⟨h.withBytes _, ?_⟩
    intro j
    rw [(h.withBytes _).test_eq, bitmapCheck_clear, Set.mem_sdiff, Set.mem_singleton_iff, ← hlive j,
      h.test_eq,
      Bool.and_eq_true, decide_eq_true_iff]
    exact ⟨fun hj => ⟨⟨hj.1, hj.2.2⟩, hj.2.1⟩, fun hj => ⟨hj.1.1, hj.2, hj.1.2⟩⟩
  · refine ⟨h, ?_⟩
    intro j
    rw [hlive j, Set.mem_sdiff, Set.mem_singleton_iff]
    refine ⟨fun hj => ⟨hj, ?_⟩, fun hj => hj.1⟩
    rintro rfl
    exact hbit ((h.test_eq j).mp ((hlive j).mpr hj)).1

end

theorem BitmapRun.reports (hmax : maxBits < 2 ^ 32) (hrun : BitmapRun maxBits d live) :
    d.IsBitmap maxBits ∧ d.Reports live := by
  induction hrun with
  | create hcreate =>
    obtain ⟨h, hzero⟩ := dynarrBitmapCreate_spec hmax hcreate
    refine ⟨h, ?_⟩
    intro b
    rw [h.test_eq, bitmapCheck_eq, hzero]
    exact ⟨fun hb => by simp at hb, fun hb => absurd hb (Set.notMem_empty b)⟩
  | @alloc heap hint d d' live r hrun hhint hright hcall ih =>
    obtain ⟨h', hiff⟩ := (dynarrBitmapAlloc_spec heap hmax ih.1 ih.2 hhint).spec r d' hcall
    exact ⟨h', (hiff.mpr hright).2⟩
  | free bit hrun ih => exact dynarrBitmapFree_spec ih.1 ih.2 bit

/-- In every run the bitmap reports what is allocated, and the next allocation is right exactly
if the condition holds. -/
theorem bitmap_runs (hmax : maxBits < 2 ^ 32) (hrun : BitmapRun maxBits d live) :
    d.Reports live ∧ ∀ (heap : Heap) (hint : Nat), hint < 2 ^ 32 →
      ((∃ r d', dynarrBitmapAlloc heap hint d = some (r, d') ∧
        AllocAnswer maxBits heap d live hint r ∧
        d'.Reports (liveAfter live r)) ↔ AllocRight maxBits heap hint d) := by
  obtain ⟨h, hlive⟩ := hrun.reports hmax
  refine ⟨hlive, ?_⟩
  intro heap hint hhint
  exact Total.iff_of ((dynarrBitmapAlloc_spec heap hmax h hlive hhint).mono fun _ _ h => h.2)

/-- An allocation is right if a bit at or above the hint and below `maxBits` is clear. -/
theorem allocRight_of_clear {c : Nat} (hge : hint ≤ c) (hlt : c < d.dynarrCount * 8)
    (hinside : maxBits ≠ 0 → c < maxBits) (hclear : bitmapCheck d.arr.bytes c = false) :
    AllocRight maxBits heap hint d where
  inside b hb hne := by
    by_contra hle
    have hset := hb.before c hge (by have := hinside hne; omega)
    rw [hclear] at hset
    cases hset
  full hfull := by
    have hset := hfull c hge hlt
    rw [hclear] at hset
    cases hset

/-- The bitmap after an allocation from a heap with room. -/
def allocBits (hint : Nat) (d : Dynarr) : Dynarr :=
  ((dynarrBitmapAlloc (fun _ => some 4096) hint d).map Prod.snd).getD d

theorem BitmapRun.allocBits {c r : Nat} (hrun : BitmapRun maxBits d live) (hge : hint ≤ c)
    (hlt : c < d.dynarrCount * 8) (hinside : c < maxBits)
    (hclear : bitmapCheck d.arr.bytes c = false)
    (hcall : (dynarrBitmapAlloc (fun _ => some 4096) hint d).map Prod.fst = some (some r))
    (hhint : hint < 2 ^ 32) : BitmapRun maxBits (allocBits hint d) (insert r live) := by
  obtain ⟨⟨r', d'⟩, he, rfl⟩ := Option.map_eq_some_iff.mp hcall
  have hd : Util.allocBits hint d = d' := by
    rw [Util.allocBits, he]
    rfl
  rw [hd]
  exact hrun.alloc hhint (allocRight_of_clear hge hlt (fun _ => hinside) hclear) he

def freshBits : Dynarr := (dynarrBitmapCreate (fun _ => some 4096) 100).get rfl

/-- `0`, `1` and `50` are allocated and `1` is freed again. -/
def usedBits : Dynarr := dynarrBitmapFree (allocBits 50 (allocBits 0 (allocBits 0 freshBits))) 1

theorem usedBits_run : BitmapRun 100 usedBits {0, 50} := by
  have hrun : BitmapRun 100 freshBits ∅ := .create (Option.some_get _).symm
  have h0 := hrun.allocBits (c := 0) (r := 0) (Nat.zero_le 0) (by decide +kernel) (by decide)
    (by decide +kernel) (by decide +kernel) (by decide)
  have h1 := h0.allocBits (c := 1) (r := 1) (Nat.zero_le 1) (by decide +kernel) (by decide)
    (by decide +kernel) (by decide +kernel) (by decide)
  have h50 := h1.allocBits (c := 50) (r := 50) (Nat.le_refl 50) (by decide +kernel) (by decide)
    (by decide +kernel) (by decide +kernel) (by decide)
  have hlive : (insert 50 (insert 1 (insert 0 ∅)) : Set Nat) \ {1} = {0, 50} := by
    ext b
    simp only [Set.mem_sdiff, Set.mem_insert_iff, Set.mem_empty_iff_false, Set.mem_singleton_iff,
      or_false]
    omega
  exact hlive ▸ h50.free 1

theorem bitmap_runs_usedBits : usedBits.Reports {0, 50} ∧
    ∃ r d', dynarrBitmapAlloc (fun _ => some 4096) 0 usedBits = some (r, d') ∧
      AllocAnswer 100 (fun _ => some 4096) usedBits {0, 50} 0 r ∧
      d'.Reports (liveAfter {0, 50} r) := by
  obtain ⟨hreports, hnext⟩ := bitmap_runs (by decide) usedBits_run
  refine ⟨hreports, (hnext (fun _ => some 4096) 0 (by decide)).mpr ?_⟩
  exact allocRight_of_clear (c := 1) (by decide) (by decide +kernel) (fun _ => by decide)
    (by decide +kernel)

/-- An allocation with a hint behind the buffer makes the bitmap grow and forget index `0`, which
is then given out a second time. -/
theorem bitmap_alloc_twice :
    (do ([0, 128, 0].mapM (dynarrBitmapAlloc fun _ => some 4096))
          (← dynarrBitmapCreate (fun _ => some 4096) 0)).map Prod.fst =
            some [some 0, some 128, some 0] := by
  decide +kernel

end ShiziOS.Util
