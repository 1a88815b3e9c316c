import ShiziOS.Lib.Dyadic

/-!
# The physical page allocator

The state and the operations of `kernel/mm/buddy.c` after boot: the three zones
with their free lists, the per-page metadata `mem_block`, and the functions that
allocate, reference and free blocks of `2 ^ order` pages.

A free list is the list of the page frame numbers of its nodes, first node
first; `list_add` puts a node in front and `list_del` takes a node out of
whichever list it is on. The loops `for (i = 0; i < n; i++)` over the metadata of
consecutive pages touch each page once and are the range update `setPages`. Every
call runs under the locks of the allocator, so a call is one step. The clearing of
the memory of a fresh block, `map_count` and `on_pte_ptr` are not part of this
state: no function below reads them.
-/

namespace ShiziOS.Mm

def maxOrder : Nat := 16

def zoneDma : Nat := 0
def zoneDma32 : Nat := 1
def zoneNormal : Nat := 2

/-- `mem_block_t`, the metadata of one page. -/
structure MemBlock where
  isHead : Bool
  isFree : Bool
  order : Nat
  zone : Nat
  refCount : Nat
deriving DecidableEq, Repr

/-- The allocator's global state: `max_pfn`, `zones` and `mem_block`. -/
structure Pmm where
  maxPfn : Nat
  startPfn : Nat → Nat
  endPfn : Nat → Nat
  freeAreas : Nat → Nat → List Nat
  blocks : Nat → MemBlock

/-- The effect of `for (i = 0; i < n; i++)` with `f i` applied to page `pfn + i`. -/
def setPages (blocks : Nat → MemBlock) (pfn n : Nat) (f : Nat → MemBlock → MemBlock) :
    Nat → MemBlock :=
  fun q => if pfn ≤ q ∧ q < pfn + n then f (q - pfn) (blocks q) else blocks q

namespace Pmm

def addFreeLists (s : Pmm) (pfn zone order : Nat) : Pmm :=
  { s with freeAreas := fun z o =>
      if z = zone ∧ o = order then pfn :: s.freeAreas z o else s.freeAreas z o }

def removeFreeLists (s : Pmm) (pfn : Nat) : Pmm :=
  if (s.blocks pfn).zone = 0xFF then s
  else { s with freeAreas := fun z o => (s.freeAreas z o).erase pfn }

/-- `split_buddy_block`; the returned left half is always `pfn` itself. -/
def splitBuddyBlock (s : Pmm) (pfn : Nat) : Pmm :=
  let zone := (s.blocks pfn).zone
  let order := (s.blocks pfn).order
  let buddyPfn := pfn ^^^ 2 ^ (order - 1)
  let blockSize := 2 ^ (order - 1)
  let half : Nat → MemBlock → MemBlock := fun i _ =>
    { isHead := i == 0, isFree := true, order := order - 1, zone := zone, refCount := 0 }
  let s := s.removeFreeLists pfn
  let s := { s with
    blocks := setPages (setPages s.blocks pfn blockSize half) buddyPfn blockSize half }
  (s.addFreeLists pfn zone (order - 1)).addFreeLists buddyPfn zone (order - 1)

/-- `merge_buddy_block`; `none` is the returned `NULL`. -/
def mergeBuddyBlock (s : Pmm) (pfn1 pfn2 : Nat) : Option Pmm :=
  let order1 := (s.blocks pfn1).order
  let zone1 := (s.blocks pfn1).zone
  if order1 ≠ (s.blocks pfn2).order ∨ zone1 ≠ (s.blocks pfn2).zone then none
  else if pfn1 ^^^ pfn2 ≠ 2 ^ order1 then none
  else
    let mergedPfn := if pfn1 < pfn2 then pfn1 else pfn2
    let newOrder := order1 + 1
    let s := (s.removeFreeLists pfn1).removeFreeLists pfn2
    let s := s.addFreeLists mergedPfn zone1 newOrder
    some { s with blocks := setPages s.blocks mergedPfn (2 ^ newOrder) fun i b =>
      { b with isHead := i == 0, order := newOrder, isFree := true } }

/-- The search loop of `pmm_alloc_pages` from `currentOrder` on, `fuel` orders long.
A first node whose metadata does not match is skipped, but its number stays in `pfn`. -/
def findFree (s : Pmm) (zone : Nat) : (fuel currentOrder pfn : Nat) → Nat × Option Nat
  | 0, _, pfn => (pfn, none)
  | fuel + 1, currentOrder, pfn =>
    match s.freeAreas zone currentOrder with
    | [] => s.findFree zone fuel (currentOrder + 1) pfn
    | first :: _ =>
      if (s.blocks first).isFree = false ∨ (s.blocks first).order ≠ currentOrder ∨
          (s.blocks first).zone ≠ zone then
        s.findFree zone fuel (currentOrder + 1) first
      else (first, some currentOrder)

/-- The split loop of `pmm_alloc_pages`, `n` orders down. -/
def splitDown (s : Pmm) (pfn : Nat) : Nat → Pmm
  | 0 => s
  | n + 1 => (s.splitBuddyBlock pfn).splitDown pfn n

/-- The final step of a successful allocation: unlink the block and mark its pages. -/
def takeBlock (s : Pmm) (pfn order : Nat) : Pmm :=
  let s := s.removeFreeLists pfn
  { s with blocks := setPages s.blocks pfn (2 ^ order) fun i b =>
      { b with isHead := i == 0, isFree := false, refCount := 1 } }

/-- `pmm_alloc_pages`: the returned frame, `0` for none, and the new state. -/
def pmmAllocPages (s : Pmm) (order zone : Nat) : Nat × Pmm :=
  if maxOrder ≤ order ∨ zoneNormal < zone then (0, s)
  else if s.endPfn zone ≤ s.startPfn zone then (0, s)
  else
    match s.findFree zone (maxOrder - order) order 0 with
    | (pfn, none) => (pfn, s)
    | (pfn, some findOrder) =>
      let s := s.splitDown pfn (findOrder - order)
      if pfn ≠ 0 then (pfn, s.takeBlock pfn order) else (0, s)

/-- The merge loop of `pmm_free_pages`. -/
def mergeUp (s : Pmm) (zone : Nat) : (fuel currentPfn currentOrder : Nat) → Pmm
  | 0, _, _ => s
  | fuel + 1, currentPfn, currentOrder =>
    let buddyPfn := currentPfn ^^^ 2 ^ currentOrder
    if buddyPfn ≤ s.maxPfn ∧ (s.blocks buddyPfn).isFree = true ∧
        (s.blocks buddyPfn).order = currentOrder ∧ (s.blocks buddyPfn).zone = zone then
      match s.mergeBuddyBlock currentPfn buddyPfn with
      | some s' => s'.mergeUp zone fuel (if currentPfn < buddyPfn then currentPfn else buddyPfn)
          (currentOrder + 1)
      | none => s
    else s

/-- The reference loop of `pmm_free_pages`; its bound is a `uint16_t`. -/
def dropRefs (s : Pmm) (pfn order : Nat) : Pmm :=
  { s with blocks := setPages s.blocks pfn (2 ^ order % 2 ^ 16) fun _ b =>
      if 0 < b.refCount then { b with refCount := b.refCount - 1 } else b }

/-- Mark the pages of a block free and link it. -/
def giveBlock (s : Pmm) (pfn order zone : Nat) : Pmm :=
  { s with blocks := setPages s.blocks pfn (2 ^ order) fun _ b => { b with isFree := true } }
    |>.addFreeLists pfn zone order

/-- `pmm_free_pages`; `none` is the panic of `check_pfn_valid`. -/
def pmmFreePages (s : Pmm) (pfn : Nat) : Option Pmm :=
  if s.maxPfn < pfn then none
  else
    let zone := (s.blocks pfn).zone
    if (s.blocks pfn).isHead = false ∨ (s.blocks pfn).isFree = true then some s
    else
      let order := (s.blocks pfn).order
      let s := s.dropRefs pfn order
      if 0 < (s.blocks pfn).refCount then some s
      else some ((s.giveBlock pfn order zone).mergeUp zone (maxOrder - 1 - order) pfn order)

/-- `pmm_add_ref_count`; the counter has 32 bits. -/
def pmmAddRefCount (s : Pmm) (pfn : Nat) : Option Pmm :=
  if s.maxPfn < pfn then none
  else
    let order := (s.blocks pfn).order
    some { s with blocks := setPages s.blocks pfn (2 ^ order) fun _ b =>
      { b with refCount := (b.refCount + 1) % 2 ^ 32 } }

end Pmm

end ShiziOS.Mm
