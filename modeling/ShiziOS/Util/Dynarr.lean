import ShiziOS.Lib.Area
import ShiziOS.Lib.Exec
import ShiziOS.Mm.Kheap

/-!
# Dynamic arrays

`include/dynarr.h` over the kernel heap. A call that writes outside the buffer of the array, or
whose loop does not end, is stuck. The array is there: no call is made with `d` null.
-/

namespace ShiziOS.Util

open Bytes Exec Mm List Option Nat

/-! ## Memory -/

/-- A block of the kernel heap. -/
structure Block where
  addr : Nat
  size : Nat
  bytes : Area

/-- What the page allocator answers: the address of a block of an order, if it has one. -/
abbrev Heap := Nat → Option Nat

/-- `DYNARR_MALLOC`. The page allocator clears the block. -/
def dynarrMalloc (heap : Heap) (size : Nat) : Option Block :=
  if size = 0 ∨ maxOrder ≤ sizeToOrder size then none
  else (heap (sizeToOrder size)).map fun addr => ⟨addr, pageSize * 2 ^ sizeToOrder size, fun _ => 0⟩

/-- `memcpy` and `memset` into a block. -/
def Block.store (b : Block) (off n : Nat) (src : Area) : Option Block :=
  if off + n ≤ b.size then some { b with bytes := b.bytes.copy off n src } else none

def Block.load (b : Block) (off n : Nat) : Option Area :=
  if off + n ≤ b.size then some (b.bytes.drop off) else none

/-! ## The functions -/

/-- `dynarr_t`. -/
structure Dynarr where
  arr : Block
  elementSize : Nat
  currentCount : Nat
  maxCount : Nat
  dynarrCount : Nat
  maxLimit : Nat

abbrev D := Exec Dynarr

def dynarrMaxCount (capacity : Nat) : Nat := capacity * 9 % 2 ^ 64 / 10

def sizeofDynarr : Nat := 48

def dynarrCreate (heap : Heap) (elementSize maxCapacity : Nat) : Option Dynarr :=
  if elementSize = 0 then none
  else
    let initCapacity := if maxCapacity ≠ 0 ∧ maxCapacity < 16 then maxCapacity else 16
    match dynarrMalloc heap sizeofDynarr with
    | none => none
    | some _ =>
      (dynarrMalloc heap (initCapacity * elementSize % 2 ^ 64)).map fun arr =>
        ⟨arr, elementSize, 0, dynarrMaxCount initCapacity, initCapacity, maxCapacity⟩

/-- The loop that copies the elements from `i` on, `n` of them. -/
def copyLoop (src : Block) (elementSize : Nat) : (n i : Nat) → Block → Option Block
  | 0, _, dst => some dst
  | n + 1, i, dst => do
    let off := i * elementSize % 2 ^ 64
    let dst ← dst.store off elementSize (← src.load off elementSize)
    copyLoop src elementSize n (i + 1) dst

/-- The end of the functions that give the array a new buffer: allocate it, copy the elements,
perhaps clear what is behind them, and free the old buffer. -/
def enlarge (heap : Heap) (clear : Bool) (newCapacity : Nat) : D Bool := do
  let d ← get
  match dynarrMalloc heap (newCapacity * d.elementSize % 2 ^ 64) with
  | none => pure false
  | some newArr => do
    let newArr ← ofOption (copyLoop d.arr d.elementSize d.currentCount 0 newArr)
    let clearSize := (newCapacity + 2 ^ 64 - d.currentCount) % 2 ^ 64 * d.elementSize % 2 ^ 64
    let newArr ← ofOption
      (if clear then newArr.store (d.currentCount * d.elementSize % 2 ^ 64) clearSize fun _ => 0
      else some newArr)
    set { d with arr := newArr, dynarrCount := newCapacity, maxCount := dynarrMaxCount newCapacity }
    pure true

def dynarrGrow (heap : Heap) : D Bool := do
  let d ← get
  let newCapacity := d.dynarrCount * 2 % 2 ^ 64
  if d.maxLimit ≠ 0 ∧ d.maxLimit < newCapacity then
    if d.maxLimit ≤ d.dynarrCount then pure false else enlarge heap false d.maxLimit
  else enlarge heap false newCapacity

/-- `dynarr_append`; `none` for `NULL`. -/
def dynarrAppend (heap : Heap) (element : Option Area) : D Bool := do
  match element with
  | none => pure false
  | some element => do
    let d ← get
    if ← (if d.maxCount ≤ d.currentCount then dynarrGrow heap else pure true) then
      let d ← get
      let arr ← ofOption (d.arr.store (d.currentCount * d.elementSize % 2 ^ 64) d.elementSize
        element)
      set { d with arr := arr, currentCount := (d.currentCount + 1) % 2 ^ 64 }
      pure true
    else pure false

/-- `dynarr_get`: the address of an element. -/
def dynarrGet (d : Dynarr) (index : Nat) : Option Nat :=
  if d.currentCount ≤ index then none
  else some (d.arr.addr + index * d.elementSize % 2 ^ 64)

/-- `dynarr_pop`; `out` says that there is a place for the element, which is then returned. -/
def dynarrPop (out : Bool) : D (Bool × Option Area) := do
  let d ← get
  if d.currentCount = 0 then pure (false, none)
  else
    let count := d.currentCount - 1
    set { d with currentCount := count }
    if out then
      pure (true, some (← ofOption (d.arr.load (count * d.elementSize % 2 ^ 64) d.elementSize)))
    else pure (true, none)

/-- The loop of `dynarr_expand_to`: the new capacity, or nothing if the limit does not allow it.
The capacity is zero after `64` steps, if not before, and stays so. -/
def capacityLoop (maxLimit minCapacity : Nat) : (fuel newCapacity : Nat) → Option (Option Nat)
  | 0, _ => none
  | fuel + 1, newCapacity =>
    if newCapacity < minCapacity then
      let newCapacity := newCapacity * 2 % 2 ^ 64
      if maxLimit ≠ 0 ∧ maxLimit < newCapacity then
        if maxLimit < minCapacity then some none else some (some maxLimit)
      else capacityLoop maxLimit minCapacity fuel newCapacity
    else some (some newCapacity)

def dynarrExpandTo (heap : Heap) (minCapacity : Nat) : D Bool := do
  let d ← get
  if minCapacity ≤ d.dynarrCount then pure true
  else
    match ← ofOption (capacityLoop d.maxLimit minCapacity 66 d.dynarrCount) with
    | none => pure false
    | some newCapacity => enlarge heap true newCapacity

/-- `dynarr_set`; `none` for `NULL`. -/
def dynarrSet (heap : Heap) (index : Nat) (element : Option Area) : D Bool := do
  match element with
  | none => pure false
  | some element => do
    let d ← get
    let next := (index + 1) % 2 ^ 64
    if ← (if d.currentCount ≤ index then dynarrExpandTo heap next else pure true) then
      if d.currentCount ≤ index then modify fun d => { d with currentCount := next }
      let d ← get
      let arr ← ofOption (d.arr.store (index * d.elementSize % 2 ^ 64) d.elementSize element)
      set { d with arr := arr }
      pure true
    else pure false

def dynarrReserve (heap : Heap) (newCapacity : Nat) : D Bool := do
  let d ← get
  if newCapacity ≤ d.dynarrCount then pure false
  else if d.maxLimit ≠ 0 ∧ d.maxLimit < newCapacity then pure false
  else enlarge heap false newCapacity

/-! ## Well-formed arrays -/

/-- The elements fit into the buffer, which is not larger than the largest block. -/
structure Dynarr.Wf (d : Dynarr) : Prop where
  elementSize_pos : 0 < d.elementSize
  count_le : d.currentCount ≤ d.dynarrCount
  capacity_pos : 0 < d.dynarrCount
  fits : d.dynarrCount * d.elementSize ≤ d.arr.size
  size_le : d.arr.size ≤ 2 ^ 27
  maxCount_eq : d.maxCount = d.dynarrCount * 9 / 10
  limit : d.maxLimit ≠ 0 → d.dynarrCount ≤ d.maxLimit

def bytesOf (elementSize : Nat) (a : Area) : List Byte := (List.range elementSize).map a

def zeroElement (elementSize : Nat) : List Byte := List.replicate elementSize 0

/-- The bytes in a slot, whether or not it is in use. -/
def Dynarr.slot (d : Dynarr) (i : Nat) : List Byte :=
  bytesOf d.elementSize (d.arr.bytes.drop (i * d.elementSize))

variable {d d' : Dynarr} {heap : Heap}

variable {n i es newCapacity m : Nat} {b : Block}

theorem bytesOf_congr {a b : Area} (h : ∀ k, k < n → a k = b k) : bytesOf n a = bytesOf n b := by
  apply map_congr_left
  intro k hk
  exact h k (mem_range.mp hk)

theorem bytesOf_zero {a : Area} (h : ∀ k, k < n → a k = 0) : bytesOf n a = zeroElement n := by
  rw [bytesOf_congr h, bytesOf, zeroElement, map_const', length_range]

theorem dynarrMalloc_spec {size : Nat} (h : dynarrMalloc heap size = some b)
    (hsize : size + 4095 < 2 ^ 64) : size ≤ b.size ∧ b.size ≤ 2 ^ 27 ∧ b.bytes = fun _ => 0 := by
  rw [dynarrMalloc] at h
  split_ifs at h with hbad
  obtain ⟨addr, -, rfl⟩ := map_eq_some_iff.mp h
  rw [not_or, Nat.not_le] at hbad
  have horder : 2 ^ sizeToOrder size ≤ 2 ^ 15 := by
    apply Nat.pow_le_pow_right (by decide)
    have h16 : sizeToOrder size < 16 := hbad.2
    omega
  refine ⟨(sizeToOrder_spec size hsize).1, ?_, rfl⟩
  show 4096 * 2 ^ sizeToOrder size ≤ 2 ^ 27
  omega

theorem Block.store_of_le {off : Nat} (h : off + n ≤ b.size) (src : Area) :
    b.store off n src = some { b with bytes := b.bytes.copy off n src } := if_pos h

theorem Block.load_of_le {off : Nat} (h : off + n ≤ b.size) :
    b.load off n = some (b.bytes.drop off) := if_pos h

theorem slot_lt {j k : Nat} (hk : k < es) (hij : i < j) : i * es + k < j * es := by
  have h : (i + 1) * es ≤ j * es := mul_le_mul_right es hij
  rw [succ_mul] at h
  omega

theorem slot_end_le {size : Nat} (hi : i < n) (h : n * es ≤ size) : i * es + es ≤ size := by
  have h' : (i + 1) * es ≤ n * es := mul_le_mul_right es hi
  rw [succ_mul] at h'
  omega

theorem Dynarr.Wf.slot_in (h : d.Wf) (hi : i < d.dynarrCount) :
    i * d.elementSize + d.elementSize ≤ d.arr.size ∧ i * d.elementSize % 2 ^ 64 =
      i * d.elementSize := by
  have hend := slot_end_le hi h.fits
  have hsize := h.size_le
  exact ⟨hend, mod_eq_of_lt (by omega)⟩

theorem Dynarr.Wf.capacity_le (h : d.Wf) : d.dynarrCount ≤ 2 ^ 27 :=
  (Nat.le_mul_of_pos_right _ h.elementSize_pos).trans (h.fits.trans h.size_le)

/-! ## A larger buffer -/

/-- The array in a new buffer: the elements are as before, what is behind them is clear. -/
structure Dynarr.Enlarged (d d' : Dynarr) (newCapacity : Nat) : Prop where
  wf : d'.Wf
  elementSize : d'.elementSize = d.elementSize
  currentCount : d'.currentCount = d.currentCount
  dynarrCount : d'.dynarrCount = newCapacity
  maxLimit : d'.maxLimit = d.maxLimit
  kept : ∀ k, k < d.currentCount * d.elementSize → d'.arr.bytes k = d.arr.bytes k
  clear : ∀ k, d.currentCount * d.elementSize ≤ k → d'.arr.bytes k = 0

theorem copyLoop_spec (es : Nat) (src dst : Block) (n i : Nat) (hsrc : (i + n) * es ≤ src.size)
    (hdst : (i + n) * es ≤ dst.size) (hsize : src.size ≤ 2 ^ 27)
    (hdone : ∀ k, dst.bytes k = if k < i * es then src.bytes k else 0) :
    ∃ b, copyLoop src es n i dst = some b ∧ b.size = dst.size ∧
      ∀ k, b.bytes k = if k < (i + n) * es then src.bytes k else 0 := by
  induction n generalizing i dst with
  | zero => exact ⟨dst, rfl, rfl, hdone⟩
  | succ n ih =>
    have hin := slot_end_le (show i < i + (n + 1) by omega) hsrc
    have hin' := slot_end_le (show i < i + (n + 1) by omega) hdst
    rw [show i + (n + 1) = i + 1 + n by omega] at hsrc hdst ⊢
    rw [copyLoop, mod_eq_of_lt (by omega), Block.load_of_le hin]
    simp only [bind_eq_bind, bind_some, Block.store_of_le hin']
    refine ih _ (i + 1) hsrc hdst ?_
    intro k
    rw [succ_mul]
    dsimp only
    by_cases hk : i * es ≤ k ∧ k < i * es + es
    · rw [Area.copy, if_pos hk, if_pos hk.2, Area.drop, Nat.add_sub_cancel' hk.1]
    · rw [Area.copy, if_neg hk, hdone]
      by_cases hlow : k < i * es
      · rw [if_pos hlow, if_pos (by omega)]
      · rw [if_neg hlow, if_neg (by omega)]

theorem enlarge_of_none (hbytes : newCapacity * d.elementSize < 2 ^ 64)
    (hmalloc : dynarrMalloc heap (newCapacity * d.elementSize) = none) (clear : Bool) :
    enlarge heap clear newCapacity d = some (false, d) := by
  rw [← mod_eq_of_lt hbytes] at hmalloc
  refine bind_eq_some.mpr ⟨d, d, rfl, ?_⟩
  rw [hmalloc]
  rfl

theorem enlarge_of_some (h : d.Wf) (hcount : d.dynarrCount ≤ newCapacity)
    (hbytes : newCapacity * d.elementSize + 4095 < 2 ^ 64)
    (hlimit : d.maxLimit ≠ 0 → newCapacity ≤ d.maxLimit)
    (hmalloc : dynarrMalloc heap (newCapacity * d.elementSize) = some b) (clear : Bool) :
    Total (enlarge heap clear newCapacity) d fun ok d' =>
      ok = true ∧ d.Enlarged d' newCapacity := by
  obtain ⟨hle, hsize, hzero⟩ := dynarrMalloc_spec hmalloc hbytes
  have hes := h.elementSize_pos
  have hc := h.count_le
  have hsize' := h.size_le
  have hcap : newCapacity ≤ newCapacity * d.elementSize := Nat.le_mul_of_pos_right _ hes
  have hold : d.currentCount * d.elementSize ≤ d.dynarrCount * d.elementSize :=
    mul_le_mul_right _ hc
  have hnew : d.currentCount * d.elementSize ≤ newCapacity * d.elementSize :=
    mul_le_mul_right _ (hc.trans hcount)
  have hfits := h.fits
  have hloop := copyLoop_spec d.elementSize d.arr b d.currentCount 0
  simp only [zero_add, zero_mul, not_lt_zero, if_false] at hloop
  obtain ⟨b', hcopy, hbsize, hbytes'⟩ :=
    hloop (by omega) (by omega) hsize' fun k => by rw [hzero]
  have hclear : (newCapacity + 2 ^ 64 - d.currentCount) % 2 ^ 64 * d.elementSize % 2 ^ 64 =
      newCapacity * d.elementSize - d.currentCount * d.elementSize := by
    rw [show newCapacity + 2 ^ 64 - d.currentCount = newCapacity - d.currentCount + 2 ^ 64 by omega,
      add_mod_right, mod_eq_of_lt (show newCapacity - d.currentCount < 2 ^ 64 by omega),
      Nat.sub_mul, mod_eq_of_lt (by omega)]
  -- clearing changes nothing: the block was clear
  obtain ⟨b'', hstore, hbsize', hbytes''⟩ : ∃ b'', (if clear then
      b'.store (d.currentCount * d.elementSize % 2 ^ 64)
        ((newCapacity + 2 ^ 64 - d.currentCount) % 2 ^ 64 * d.elementSize % 2 ^ 64) fun _ => 0
      else some b') = some b'' ∧ b''.size = b.size ∧
      ∀ k, b''.bytes k = if k < d.currentCount * d.elementSize then d.arr.bytes k else 0 := by
    cases clear with
    | false => exact ⟨b', rfl, hbsize, hbytes'⟩
    | true =>
      rw [if_pos rfl, hclear, mod_eq_of_lt (by omega), Block.store_of_le (by omega)]
      refine ⟨_, rfl, hbsize, ?_⟩
      intro k
      dsimp only
      by_cases hk : d.currentCount * d.elementSize ≤ k ∧
          k < d.currentCount * d.elementSize +
            (newCapacity * d.elementSize - d.currentCount * d.elementSize)
      · rw [Area.copy, if_pos hk, if_neg (by omega)]
      · rw [Area.copy, if_neg hk, hbytes']
  apply total_get
  rw [mod_eq_of_lt (show newCapacity * d.elementSize < 2 ^ 64 by omega), hmalloc]
  apply total_bind
  refine total_ofOption hcopy ?_
  apply total_bind
  refine total_ofOption hstore ?_
  apply total_bind
  refine ⟨(), _, rfl, ?_⟩
  apply total_pure
  refine ⟨rfl, ?_⟩
  exact {
    wf := {
      elementSize_pos := hes
      count_le := hc.trans hcount
      capacity_pos := h.capacity_pos.trans_le hcount
      fits := hle.trans_eq hbsize'.symm
      size_le := hbsize'.trans_le hsize
      maxCount_eq := by
        rw [dynarrMaxCount, mod_eq_of_lt (by omega)]
      limit := hlimit }
    elementSize := rfl
    currentCount := rfl
    dynarrCount := rfl
    maxLimit := rfl
    kept := fun k hk => by
      rw [hbytes'', if_pos hk]
    clear := fun k hk => by
      rw [hbytes'', if_neg (by omega)] }

theorem enlarge_spec (h : d.Wf) (clear : Bool) (hcount : d.dynarrCount ≤ newCapacity)
    (hbytes : newCapacity * d.elementSize + 4095 < 2 ^ 64)
    (hlimit : d.maxLimit ≠ 0 → newCapacity ≤ d.maxLimit) :
    Total (enlarge heap clear newCapacity) d fun ok d' =>
      if ok then d.Enlarged d' newCapacity else d' = d := by
  cases hmalloc : dynarrMalloc heap (newCapacity * d.elementSize) with
  | none => exact ⟨false, d, enlarge_of_none (by omega) hmalloc clear, rfl⟩
  | some b =>
    refine (enlarge_of_some h hcount hbytes hlimit hmalloc clear).mono ?_
    rintro ok d' ⟨rfl, hd'⟩
    exact hd'

/-! ## The elements -/

/-- The list that the array stands for. -/
def Dynarr.elements (d : Dynarr) : List (List Byte) := (List.range d.currentCount).map d.slot

theorem Dynarr.elements_length (d : Dynarr) : d.elements.length = d.currentCount := by
  rw [elements, length_map, length_range]

theorem Dynarr.elements_eq_nil (h : d.currentCount = 0) : d.elements = [] := by
  rw [elements, h, range_zero, map_nil]

theorem Dynarr.elements_getElem? (d : Dynarr) (i : Nat) :
    d.elements[i]? = if i < d.currentCount then some (d.slot i) else none := by
  rw [elements, getElem?_map]
  split_ifs with h
  · rw [getElem?_range h, map_some]
  · rw [getElem?_eq_none (by rw [length_range]; omega), map_none]

namespace Dynarr.Enlarged

variable {n : Nat}

theorem slot_kept (h : d.Enlarged d' n) {i : Nat} (hi : i < d.currentCount) :
    d'.slot i = d.slot i := by
  rw [slot, slot, h.elementSize]
  exact bytesOf_congr fun k hk => h.kept _ (slot_lt hk hi)

theorem slot_clear (h : d.Enlarged d' n) {i : Nat} (hi : d.currentCount ≤ i) :
    d'.slot i = zeroElement d'.elementSize := by
  apply bytesOf_zero
  intro k _
  rw [h.elementSize]
  have hle := mul_le_mul_right d.elementSize hi
  exact h.clear _ (by omega)

theorem elements_eq (h : d.Enlarged d' n) : d'.elements = d.elements := by
  rw [elements, elements, h.currentCount]
  apply map_congr_left
  intro i hi
  exact h.slot_kept (mem_range.mp hi)

end Dynarr.Enlarged

/-- The array with another element in a slot, and another number of elements. -/
def Dynarr.put (d : Dynarr) (count i : Nat) (e : Area) : Dynarr :=
  { d with
    arr := { d.arr with bytes := d.arr.bytes.copy (i * d.elementSize) d.elementSize e }
    currentCount := count }

@[simp] theorem Dynarr.put_currentCount (d : Dynarr) (count i : Nat) (e : Area) :
    (d.put count i e).currentCount = count := rfl

theorem Dynarr.slot_put (d : Dynarr) (count i j : Nat) (e : Area) :
    (d.put count i e).slot j = if j = i then bytesOf d.elementSize e else d.slot j := by
  split_ifs with h
  · subst h
    exact bytesOf_congr fun k hk => Area.copy_inside hk
  · apply bytesOf_congr
    intro k hk
    apply Area.copy_outside
    rcases lt_or_gt_of_ne h with hlt | hgt
    · exact .inl (slot_lt hk hlt)
    · have hend : (i + 1) * d.elementSize ≤ j * d.elementSize := mul_le_mul_right _ hgt
      rw [succ_mul] at hend
      exact .inr (hend.trans (le_add_right _ k))

theorem Dynarr.Wf.put (h : d.Wf) {count : Nat} (hcount : count ≤ d.dynarrCount) (i : Nat)
    (e : Area) : (d.put count i e).Wf :=
  ⟨h.elementSize_pos, hcount, h.capacity_pos, h.fits, h.size_le, h.maxCount_eq, h.limit⟩

theorem Dynarr.elements_put_lt (hi : i < d.currentCount) (e : Area) :
    (d.put d.currentCount i e).elements = d.elements.set i (bytesOf d.elementSize e) := by
  apply ext_getElem?
  intro j
  rw [getElem?_set, elements_length, elements_getElem?, elements_getElem?, slot_put,
    put_currentCount]
  by_cases hji : i = j
  · subst hji
    rw [if_pos hi, if_pos rfl, if_pos rfl, if_pos hi]
  · rw [if_neg hji, if_neg (Ne.symm hji)]

theorem Dynarr.elements_put_ge (hi : d.currentCount ≤ i) (e : Area)
    (hgap : ∀ j, d.currentCount ≤ j → j < i → d.slot j = zeroElement d.elementSize) :
    (d.put (i + 1) i e).elements =
      (d.elements.rightpad (i + 1) (zeroElement d.elementSize)).set i
        (bytesOf d.elementSize e) := by
  apply ext_getElem?
  intro j
  have hlen : (d.elements.rightpad (i + 1) (zeroElement d.elementSize)).length = i + 1 := by
    rw [List.rightpad, length_append, length_replicate, elements_length]
    omega
  rw [getElem?_set, hlen, elements_getElem?, slot_put, put_currentCount]
  by_cases hji : i = j
  · subst hji
    rw [if_pos (lt_succ_self i), if_pos rfl, if_pos rfl, if_pos (lt_succ_self i)]
  rw [if_neg hji, if_neg (Ne.symm hji), List.rightpad]
  by_cases hlow : j < d.currentCount
  · rw [getElem?_append_left (by rw [elements_length]; exact hlow), elements_getElem?, if_pos hlow,
      if_pos (by omega)]
  · rw [getElem?_append_right (by rw [elements_length]; omega), getElem?_replicate, elements_length]
    by_cases hj : j < i
    · rw [if_pos (by omega), if_pos (by omega), hgap j (by omega) hj]
    · rw [if_neg (by omega), if_neg (by omega)]

/-! ## What each function does -/

theorem dynarrCreate_spec {limit : Nat} (h : dynarrCreate heap es limit = some d)
    (hes : 16 * es + 4095 < 2 ^ 64) :
    d.Wf ∧ d.elementSize = es ∧ d.currentCount = 0 ∧ d.maxLimit = limit ∧ (∀ k, d.arr.bytes k = 0) ∧
      d.dynarrCount = if limit ≠ 0 ∧ limit < 16 then limit else 16 := by
  rw [dynarrCreate] at h
  by_cases hzero : es = 0
  · rw [if_pos hzero] at h
    cases h
  rw [if_neg hzero] at h
  dsimp only at h
  generalize hinit : (if limit ≠ 0 ∧ limit < 16 then limit else 16) = init at h ⊢
  have hinit' : 0 < init ∧ init ≤ 16 ∧ (limit ≠ 0 → init ≤ limit) := by
    rw [← hinit]
    split_ifs <;> omega
  have hle : init * es ≤ 16 * es := mul_le_mul_right es hinit'.2.1
  cases hm : dynarrMalloc heap sizeofDynarr with
  | none =>
    rw [hm] at h
    cases h
  | some b =>
    rw [hm, mod_eq_of_lt (by omega)] at h
    obtain ⟨arr, harr, rfl⟩ := map_eq_some_iff.mp h
    obtain ⟨hfits, hsize, hclear⟩ := dynarrMalloc_spec harr (by omega)
    refine ⟨⟨pos_of_ne_zero hzero, zero_le _, hinit'.1, hfits, hsize, ?_, hinit'.2.2⟩, rfl,
      rfl, rfl, ?_, rfl⟩
    · rw [dynarrMaxCount, mod_eq_of_lt (by omega)]
    · intro k
      rw [hclear]

theorem dynarrGrow_spec (h : d.Wf) : Total (dynarrGrow heap) d fun ok d' =>
    if ok then ∃ n, d.dynarrCount < n ∧ d.Enlarged d' n else d' = d := by
  have hcap := h.capacity_le
  have hpos := h.capacity_pos
  have hfits := h.fits
  have hsize := h.size_le
  -- twice the bytes of the buffer are far from a wrap
  have hbytes : ∀ n, n ≤ d.dynarrCount * 2 → n * d.elementSize + 4095 < 2 ^ 64 := by
    intro n hn
    have hle := mul_le_mul_right d.elementSize hn
    rw [mul_right_comm] at hle
    omega
  have henlarge : ∀ n, d.dynarrCount < n → n ≤ d.dynarrCount * 2 →
    (d.maxLimit ≠ 0 → n ≤ d.maxLimit) →
      Total (enlarge heap false n) d fun ok d' =>
        if ok then ∃ n, d.dynarrCount < n ∧ d.Enlarged d' n else d' = d := by
    intro n hlt hle hlimit
    refine (enlarge_spec h false hlt.le (hbytes n hle) hlimit).mono ?_
    intro ok d' hok
    cases ok with
    | false => exact hok
    | true => exact ⟨n, hlt, hok⟩
  apply total_get
  rw [mod_eq_of_lt (by omega)]
  dsimp only
  split_ifs with hlimit hfull
  · exact total_pure rfl
  · exact henlarge _ (by omega) (by omega) fun _ => le_rfl
  · exact henlarge _ (by omega) le_rfl fun hne => by omega

theorem total_append (h : d.Wf) (hlt : d.currentCount < d.dynarrCount) (e : Area) :
    Total (do
      let d ← get
      let arr ← ofOption (d.arr.store (d.currentCount * d.elementSize % 2 ^ 64) d.elementSize e)
      set { d with arr := arr, currentCount := (d.currentCount + 1) % 2 ^ 64 }
      pure true : D Bool) d fun ok d' =>
        ok = true ∧ d'.Wf ∧ d'.elementSize = d.elementSize ∧ d'.maxLimit = d.maxLimit ∧
          d'.elements = d.elements ++ [bytesOf d.elementSize e] := by
  obtain ⟨hin, hmod⟩ := h.slot_in hlt
  have hcap := h.capacity_le
  apply total_get
  apply total_bind
  refine total_ofOption (by rw [hmod]; exact Block.store_of_le hin e) ?_
  rw [mod_eq_of_lt (by omega)]
  refine ⟨true, d.put (d.currentCount + 1) d.currentCount e, rfl, rfl, h.put hlt _ _, rfl, rfl, ?_⟩
  rw [Dynarr.elements_put_ge le_rfl e (by omega), List.rightpad, Dynarr.elements_length,
    Nat.add_sub_cancel_left, set_append_right _ _ (by rw [Dynarr.elements_length]),
    Dynarr.elements_length, Nat.sub_self]
  rfl

theorem dynarrAppend_spec (h : d.Wf) (e : Area) : Total (dynarrAppend heap (some e)) d fun ok d' =>
    if ok then d'.Wf ∧ d'.elementSize = d.elementSize ∧ d'.maxLimit = d.maxLimit ∧
      d'.elements = d.elements ++ [bytesOf d.elementSize e] else d' = d := by
  apply total_get
  apply total_bind
  split_ifs with hfull
  · refine (dynarrGrow_spec h).mono ?_
    intro ok d1 hok
    cases ok with
    | false => exact total_pure hok
    | true =>
      obtain ⟨n, hn, hd1⟩ := hok
      have hlt : d1.currentCount < d1.dynarrCount := by
        rw [hd1.currentCount, hd1.dynarrCount]
        exact h.count_le.trans_lt hn
      refine (total_append hd1.wf hlt e).mono ?_
      rintro ok d' ⟨rfl, hwf, hes, hlimit, helements⟩
      rw [hd1.elementSize, hd1.elements_eq] at helements
      exact ⟨hwf, hes.trans hd1.elementSize, hlimit.trans hd1.maxLimit, helements⟩
  · have hmax := h.maxCount_eq
    apply total_pure
    refine (total_append h (by omega) e).mono ?_
    rintro ok d' ⟨rfl, hd'⟩
    exact hd'

theorem dynarrPop_spec (h : d.Wf) (out : Bool) : Total (dynarrPop out) d fun r d' =>
    d'.Wf ∧ d'.elementSize = d.elementSize ∧ d'.maxLimit = d.maxLimit ∧ r.1 = !d.elements.isEmpty ∧
      d'.elements = d.elements.dropLast ∧
      r.2.map (bytesOf d.elementSize) = if out then d.elements.getLast? else none := by
  have hlen := d.elements_length
  apply total_get
  by_cases hzero : d.currentCount = 0
  · rw [if_pos hzero]
    apply total_pure
    have hnil : d.elements = [] := length_eq_zero_iff.mp (hlen.trans hzero)
    rw [hnil]
    exact ⟨h, rfl, rfl, rfl, rfl, by simp⟩
  · rw [if_neg hzero]
    apply total_bind
    refine ⟨(), _, rfl, ?_⟩
    have hcount := h.count_le
    obtain ⟨hin, hmod⟩ := h.slot_in (show d.currentCount - 1 < d.dynarrCount by omega)
    have hwf : Dynarr.Wf { d with currentCount := d.currentCount - 1 } :=
      ⟨h.elementSize_pos, (sub_le _ _).trans hcount, h.capacity_pos, h.fits, h.size_le,
        h.maxCount_eq, h.limit⟩
    have hne : (!d.elements.isEmpty) = true := by
      rw [Bool.not_eq_true', isEmpty_eq_false_iff, ← length_pos_iff]
      omega
    have hdrop : Dynarr.elements { d with currentCount := d.currentCount - 1 } =
        d.elements.dropLast := by
      rw [dropLast_eq_take, hlen, Dynarr.elements, Dynarr.elements, ← map_take, take_range]
      show (List.range (d.currentCount - 1)).map d.slot = _
      rw [min_eq_left (sub_le _ _)]
    cases out with
    | false =>
      apply total_pure
      exact ⟨hwf, rfl, rfl, hne.symm, hdrop, rfl⟩
    | true =>
      apply total_bind
      refine total_ofOption (by rw [hmod]; exact Block.load_of_le hin) ?_
      apply total_pure
      refine ⟨hwf, rfl, rfl, hne.symm, hdrop, ?_⟩
      rw [if_pos rfl, getLast?_eq_getElem?, hlen, Dynarr.elements_getElem?, if_pos (by omega)]
      rfl

theorem capacityLoop_spec {limit : Nat} (hm : 2 * m < 2 ^ 64) (fuel c : Nat) (hc : c ≤ 2 * (m - 1))
    (hfuel : m ≤ c * 2 ^ fuel) (hlimit : limit ≠ 0 → c ≤ limit) :
    ∃ r, capacityLoop limit m (fuel + 1) c = some r ∧
      ∀ n, r = some n → m ≤ n ∧ n ≤ 2 * (m - 1) ∧ (limit ≠ 0 → n ≤ limit) := by
  induction fuel generalizing c with
  | zero =>
    rw [pow_zero, mul_one] at hfuel
    refine ⟨some c, ?_, ?_⟩
    · rw [capacityLoop, if_neg (by omega)]
    · rintro n ⟨⟩
      exact ⟨hfuel, hc, hlimit⟩
  | succ fuel ih =>
    rw [capacityLoop]
    by_cases hlt : c < m
    · rw [if_pos hlt, mod_eq_of_lt (by omega)]
      dsimp only
      split_ifs with h1 h2
      · exact ⟨none, rfl, nofun⟩
      · refine ⟨some limit, rfl, ?_⟩
        rintro n ⟨⟩
        exact ⟨by omega, by omega, fun _ => le_rfl⟩
      · refine ih (c * 2) (by omega) ?_ (by omega)
        rw [mul_assoc, ← pow_succ']
        exact hfuel
    · rw [if_neg hlt]
      refine ⟨some c, rfl, ?_⟩
      rintro n ⟨⟩
      exact ⟨by omega, hc, hlimit⟩

theorem dynarrExpandTo_of_le (hm : m ≤ d.dynarrCount) :
    dynarrExpandTo heap m d = some (true, d) := by
  show (if m ≤ d.dynarrCount then pure true else _ : D Bool) d = _
  rw [if_pos hm]
  rfl

/-- The limit allows `m` elements, and there is memory for the new buffer. -/
def Dynarr.CanHold (d : Dynarr) (heap : Heap) (m : Nat) : Prop :=
  ∃ n, capacityLoop d.maxLimit m 66 d.dynarrCount = some (some n) ∧ dynarrMalloc heap
    (n * d.elementSize) ≠ none

theorem dynarrExpandTo_spec (h : d.Wf) (hm : d.dynarrCount < m)
    (hbytes : 2 * m * d.elementSize + 4095 < 2 ^ 64) : Total (dynarrExpandTo heap m) d fun ok d' =>
      if ok then d.CanHold heap m ∧
        ∃ n, capacityLoop d.maxLimit m 66 d.dynarrCount = some (some n) ∧ m ≤ n ∧ d.Enlarged d' n
      else ¬d.CanHold heap m ∧ d' = d := by
  have hes := h.elementSize_pos
  have hle : 2 * m ≤ 2 * m * d.elementSize := Nat.le_mul_of_pos_right _ hes
  have hpos := h.capacity_pos
  obtain ⟨r, hr, hspec⟩ :=
    capacityLoop_spec (show 2 * m < 2 ^ 64 by omega) 65 d.dynarrCount (by omega) (by omega)
    h.limit
  apply total_get
  rw [if_neg (by omega)]
  apply total_bind
  refine total_ofOption hr ?_
  cases r with
  | none =>
    refine total_pure ⟨?_, rfl⟩
    rintro ⟨n, hn, -⟩
    rw [hr] at hn
    cases hn
  | some n =>
    obtain ⟨h1, h2, h3⟩ := hspec n rfl
    have hn : n * d.elementSize ≤ 2 * m * d.elementSize := mul_le_mul_right _ (by omega)
    cases hmalloc : dynarrMalloc heap (n * d.elementSize) with
    | none =>
      refine ⟨false, d, enlarge_of_none (by omega) hmalloc true, ?_, rfl⟩
      rintro ⟨n', hn', hne⟩
      rw [hr] at hn'
      cases hn'
      exact hne hmalloc
    | some b =>
      refine (enlarge_of_some h (by omega) (by omega) h3 hmalloc true).mono ?_
      rintro ok d' ⟨rfl, hd'⟩
      exact ⟨⟨n, hr, by rw [hmalloc]; exact some_ne_none b⟩, n, hr, h1, hd'⟩

/-- The end of `dynarr_set`, on an array with a slot for the element. -/
theorem total_put (h : d.Wf) (hi : i < d.dynarrCount) (count : Nat) {e : Area}
    {Q : Bool → Dynarr → Prop} (hQ : Q true (d.put count i e)) :
    Total (do
      let d ← get
      let arr ← ofOption (d.arr.store (i * d.elementSize % 2 ^ 64) d.elementSize e)
      set { d with arr := arr }
      pure true : D Bool) { d with currentCount := count } Q := by
  obtain ⟨hin, hmod⟩ := h.slot_in hi
  apply total_get
  apply total_bind
  refine total_ofOption (by dsimp only; rw [hmod]; exact Block.store_of_le hin e) ?_
  exact ⟨true, _, rfl, hQ⟩

theorem dynarrSet_spec (h : d.Wf) (index : Nat) (e : Area)
    (hbytes : d.dynarrCount ≤ index → 2 * (index + 1) * d.elementSize + 4095 < 2 ^ 64) :
    Total (dynarrSet heap index (some e)) d fun ok d' =>
      if ok then
        (index < d.dynarrCount ∧ d' = d.put (max d.currentCount (index + 1)) index e) ∨
        ∃ d1 n, d.dynarrCount ≤ index ∧ index < n ∧ d.CanHold heap (index + 1) ∧ d.Enlarged d1 n ∧
          d' = d1.put (index + 1) index e
      else d' = d ∧ d.dynarrCount ≤ index ∧ ¬d.CanHold heap (index + 1) := by
  have hcount := h.count_le
  have hcap := h.capacity_le
  apply total_get
  apply total_bind
  by_cases hlow : index < d.currentCount
  · rw [if_neg (by omega)]
    apply total_pure
    simp only [if_true, if_neg (show ¬d.currentCount ≤ index by omega)]
    refine total_put h (hlow.trans_le hcount) d.currentCount (.inl ⟨by omega, ?_⟩)
    rw [max_eq_left (by omega)]
  have hmod : (index + 1) % 2 ^ 64 = index + 1 := by
    have hle := Nat.le_mul_of_pos_right (2 * (index + 1)) h.elementSize_pos
    exact mod_eq_of_lt (by omega)
  simp only [hmod, if_pos (show d.currentCount ≤ index by omega)]
  by_cases hindex : index < d.dynarrCount
  · refine ⟨true, d, dynarrExpandTo_of_le hindex, ?_⟩
    refine total_bind (total_modify (total_put h hindex (index + 1) (.inl ⟨hindex, ?_⟩)))
    rw [max_eq_right (by omega)]
  · refine (dynarrExpandTo_spec h (by omega) (hbytes (by omega))).mono ?_
    intro ok d1 hok
    cases ok with
    | false => exact total_pure ⟨hok.2, by omega, hok.1⟩
    | true =>
      obtain ⟨hcan, n, -, hn, hd1⟩ := hok
      exact total_bind (total_modify (total_put hd1.wf (by rw [hd1.dynarrCount]; omega) (index + 1)
        (.inr ⟨d1, n, by omega, hn, hcan, hd1, rfl⟩)))

theorem dynarrReserve_spec (h : d.Wf) (newCapacity : Nat)
    (hbytes : newCapacity * d.elementSize + 4095 < 2 ^ 64) :
    Total (dynarrReserve heap newCapacity) d fun ok d' =>
      if ok then d.Enlarged d' newCapacity else d' = d := by
  apply total_get
  split_ifs with hle hlimit
  · exact total_pure rfl
  · exact total_pure rfl
  · exact enlarge_spec h false (by omega) hbytes (by omega)

end ShiziOS.Util
