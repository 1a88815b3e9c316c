import ShiziOS.Mm.Buddy
import ShiziOS.Mm.Pte

/-!
# Building the allocator from the boot memory map

`pmm_init` of `kernel/mm/buddy.c` with what it calls: the highest frame, the global
allocation bitmap with the run taken for the metadata array, the zones, the greedy
cut of every free run into blocks, and the first page metadata.

A bitmap is the predicate of its set bits. Its index is a `uint32_t` in
`include/bitmap.h`, so the functions reduce page numbers modulo `2 ^ 32`. A panic
is `none`, and so is an access outside the metadata array. The state of the boot
allocator is an input: its bitmap and where that bitmap lies.
-/

namespace ShiziOS.Mm

open Option

def mmapFree : Nat := 1
def bootAllocBitmapSize : Nat := 32 * 1024
def bootAllocMaxPages : Nat := 1024 * 1024 * 1024 / 4096

/-- One entry of the BOOTBOOT memory map; the low four bits of `size` are the type. -/
structure MMapEnt where
  ptr : Nat
  size : Nat
deriving Repr

namespace MMapEnt

def bytes (e : MMapEnt) : Nat := e.size &&& 0xFFFFFFFFFFFFFFF0
def type (e : MMapEnt) : Nat := e.size &&& 0xF
def endAddr (e : MMapEnt) : Nat := (e.ptr + e.bytes) % 2 ^ 64

end MMapEnt

/-- What `pmm_init` is given: the memory map and the boot allocator. -/
structure Boot where
  mmap : List MMapEnt
  bootBitmap : Nat → Bool
  bootBitmapPhys : Nat

abbrev Bitmap := Nat → Bool

namespace Bitmap

def check (map : Bitmap) (bit : Nat) : Bool := map (bit % 2 ^ 32)

def put (map : Bitmap) (bit : Nat) (v : Bool) : Bitmap := Function.update map (bit % 2 ^ 32) v

/-- `n` bits from `start` on, one after the other. -/
def putRange (map : Bitmap) (start : Nat) (v : Bool) : Nat → Bitmap
  | 0 => map
  | n + 1 => (putRange map start v n).put (start + n) v

def fill (bits : Nat) : Bitmap := fun bit => decide (bit < bits % 2 ^ 32)

end Bitmap

def calculateMaxPfn (mmap : List MMapEnt) : Nat :=
  let maxPfn := mmap.foldl (fun maxPfn e =>
    if e.type = mmapFree then max maxPfn (e.endAddr / pageSize) else maxPfn) 0
  if 0 < maxPfn then maxPfn - 1 else maxPfn

/-- The search loop of `boot_alloc`: the first run of `pages` clear bits. -/
def bootSearch (map : Bitmap) (pages : Nat) : (fuel i consecutive : Nat) → Option Nat
  | 0, _, _ => none
  | fuel + 1, i, consecutive =>
    if map i = false then
      if consecutive + 1 = pages then some (i + 1 - pages)
      else bootSearch map pages fuel (i + 1) (consecutive + 1)
    else bootSearch map pages fuel (i + 1) 0

/-- `boot_alloc`: the first frame of the run and the boot bitmap with the run set. -/
def bootAlloc (map : Bitmap) (pages : Nat) : Option (Nat × Bitmap) :=
  if pages = 0 then none
  else
    (bootSearch map pages bootAllocMaxPages 0 0).map fun startPfn =>
      (startPfn, fun bit => decide (startPfn ≤ bit ∧ bit < startPfn + pages) || map bit)

/-- `alloc_bitmap_init`: the global bitmap, set for every page that is not free. -/
def allocBitmapInit (boot : Boot) (maxPfn : Nat) : Option Bitmap :=
  let bytes := (maxPfn + 1 + 7) / 8
  (bootAlloc boot.bootBitmap ((bytes + pageSize - 1) / pageSize)).map fun alloc =>
    let map := boot.mmap.foldl (fun (map : Bitmap) e =>
      if e.type = mmapFree then
        let startPfn := e.ptr / pageSize
        let endPfn := (e.endAddr + pageSize - 1) % 2 ^ 64 / pageSize
        if maxPfn < startPfn then map
        else map.putRange startPfn false (min endPfn (maxPfn + 1) - startPfn)
      else map) (Bitmap.fill (maxPfn + 1))
    if boot.bootBitmapPhys = 0 then map
    else
      let map : Bitmap := fun bit => if bit < bootAllocMaxPages then alloc.2 bit else map bit
      let startPfn := boot.bootBitmapPhys / pageSize
      let endPfn := (boot.bootBitmapPhys + bootAllocBitmapSize + pageSize - 1) / pageSize
      map.putRange startPfn false (endPfn - startPfn)

/-- The search loop of `bitmap_alloc`. -/
def bitmapSearch (map : Bitmap) (pages : Nat) :
    (fuel i consecutive startPfn : Nat) → Option Nat
  | 0, _, _, _ => none
  | fuel + 1, i, consecutive, startPfn =>
    if map.check i = false then
      let startPfn := if consecutive = 0 then i else startPfn
      if consecutive + 1 = pages then some startPfn
      else bitmapSearch map pages fuel (i + 1) (consecutive + 1) startPfn
    else bitmapSearch map pages fuel (i + 1) 0 startPfn

/-- `bitmap_alloc`: the first frame of the run and the bitmap with the run set; `none` is the
panic. -/
def bitmapAllocAt (map : Bitmap) (maxPfn pages : Nat) : Option (Nat × Bitmap) :=
  (bitmapSearch map pages (maxPfn + 1) 0 0 0).map fun startPfn =>
    (startPfn, map.putRange startPfn true pages)

/-- The bitmap that it leaves. -/
def bitmapAlloc (map : Bitmap) (maxPfn pages : Nat) : Option Bitmap :=
  (bitmapAllocAt map maxPfn pages).map (·.2)

/-- The pages that `alloc_mem_block` takes: a header of 128 bytes and 16 bytes a page. -/
def memBlockPages (maxPfn : Nat) : Nat := (128 + (maxPfn + 1) * 16 + pageSize - 1) / pageSize

/-! ## Zones and free lists -/

/-- `zone_init` on an allocator with zeroed metadata and empty lists. -/
def zoneInit (maxPfn : Nat) : Pmm where
  maxPfn := maxPfn
  startPfn := fun z =>
    if z = zoneDma32 then 4096 else if z = zoneNormal ∧ 1048576 ≤ maxPfn then 1048576 else 0
  endPfn := fun z =>
    if z = zoneDma then 4096
    else if z = zoneDma32 then if maxPfn < 1048576 then maxPfn + 1 else 1048576
    else if z = zoneNormal ∧ 1048576 ≤ maxPfn then maxPfn + 1 else 0
  freeAreas := fun _ _ => []
  blocks := fun _ => ⟨false, false, 0, 0, 0⟩

/-- The order loop of `free_lists_init` over the orders below `n`, from the top; it
falls back to order `0`. -/
def bestOrder (current remaining : Nat) : Nat → Nat
  | 0 => 0
  | n + 1 =>
    if 2 ^ n ≤ remaining ∧ current &&& (2 ^ n - 1) = 0 then n else bestOrder current remaining n

/-- The cut loop of `free_lists_init`: the blocks of one free run, in order. -/
def cutRegion : (fuel current remaining : Nat) → List (Nat × Nat)
  | 0, _, _ => []
  | fuel + 1, current, remaining =>
    if remaining = 0 then []
    else
      let order := bestOrder current remaining maxOrder
      (current, order) :: cutRegion fuel (current + 2 ^ order) (remaining - 2 ^ order)

/-- The two inner loops of the zone scan: advance while the bit of the page is `v`. -/
def skipWhile (alloc : Nat → Bool) (v : Bool) (endPfn : Nat) : (fuel pfn : Nat) → Nat
  | 0, pfn => pfn
  | fuel + 1, pfn =>
    if pfn < endPfn ∧ alloc pfn = v then skipWhile alloc v endPfn fuel (pfn + 1) else pfn

/-- The scan of one zone from `pfn` on. -/
def scanZone (alloc : Nat → Bool) (endPfn : Nat) : (fuel pfn : Nat) → List (Nat × Nat)
  | 0, _ => []
  | fuel + 1, pfn =>
    if pfn < endPfn then
      let freeStart := skipWhile alloc true endPfn (endPfn - pfn) pfn
      if endPfn ≤ freeStart then []
      else
        let stop := skipWhile alloc false endPfn (endPfn - freeStart) freeStart
        cutRegion (stop - freeStart) freeStart (stop - freeStart) ++ scanZone alloc endPfn fuel stop
    else []

def zoneBlocks (s : Pmm) (alloc : Nat → Bool) (zone : Nat) : List (Nat × Nat) :=
  scanZone alloc (s.endPfn zone) (s.endPfn zone - s.startPfn zone) (s.startPfn zone)

def zoneIds : List Nat := [zoneDma, zoneDma32, zoneNormal]

def linkBlocks (s : Pmm) (zone : Nat) (blocks : List (Nat × Nat)) : Pmm :=
  blocks.foldl (fun s b => s.addFreeLists b.1 zone b.2) s

/-- The number of the page becomes the 32-bit index of `bitmap_check`. -/
def pageIsAlloc (map : Bitmap) (pfn : Nat) : Bool := map.check pfn

def freeListsInit (s : Pmm) (map : Bitmap) : Pmm :=
  zoneIds.foldl (fun s zone => linkBlocks s zone (zoneBlocks s (pageIsAlloc map) zone)) s

/-- `mem_block_init`: first the pages in use, then the pages of every listed block. -/
def memBlockInit (s : Pmm) (map : Bitmap) : Pmm :=
  let used := zoneIds.foldl (fun blocks zone =>
    setPages blocks (s.startPfn zone) (s.endPfn zone - s.startPfn zone) fun i b =>
      if pageIsAlloc map (s.startPfn zone + i) then
        { b with isHead := true, isFree := false, order := 0, zone := zone }
      else b) s.blocks
  { s with blocks := zoneIds.foldl (fun blocks zone =>
      (List.range maxOrder).foldl (fun blocks order =>
        (s.freeAreas zone order).foldl (fun blocks pfn =>
          setPages blocks pfn (2 ^ order) fun i b =>
            { b with isHead := i == 0, isFree := true, order := order, zone := zone })
          blocks) blocks) used }

/-- The buddy system over a finished bitmap. -/
def buddyInit (maxPfn : Nat) (map : Bitmap) : Pmm :=
  memBlockInit (freeListsInit (zoneInit maxPfn) map) map

/-- `mem_block` has `max_pfn + 1` entries, and `mem_block_init` visits the entry of
every page of every zone. -/
def zonesInArray (s : Pmm) : Bool := zoneIds.all fun zone => s.endPfn zone ≤ s.maxPfn + 1

/-- `pmm_init`. Where `mem_block_init` would leave its array there is no state. -/
def pmmInit (boot : Boot) : Option Pmm := do
  let maxPfn := calculateMaxPfn boot.mmap
  let map ← allocBitmapInit boot maxPfn
  let map ← bitmapAlloc map maxPfn (memBlockPages maxPfn)
  if zonesInArray (zoneInit maxPfn) then some (buddyInit maxPfn map) else none

theorem pmmInit_eq {boot : Boot} {s : Pmm} (h : pmmInit boot = some s) :
    4095 ≤ calculateMaxPfn boot.mmap ∧ ∃ map,
      (allocBitmapInit boot (calculateMaxPfn boot.mmap)).bind (fun map =>
        bitmapAlloc map (calculateMaxPfn boot.mmap)
          (memBlockPages (calculateMaxPfn boot.mmap))) = some map ∧
      s = buddyInit (calculateMaxPfn boot.mmap) map := by
  simp only [pmmInit, bind_eq_bind, bind_eq_some_iff, ite_none_right_eq_some, some.injEq] at h ⊢
  obtain ⟨map, hmap, map', hmap', hzones, rfl⟩ := h
  refine ⟨?_, map', ⟨map, hmap, hmap'⟩, rfl⟩
  have := List.all_eq_true.mp hzones zoneDma List.mem_cons_self
  simp only [zoneInit, if_true, decide_eq_true_eq] at this
  omega

end ShiziOS.Mm
