import ShiziOS.Lib.PageHeap
import ShiziOS.Mm.Pte
import ShiziOS.Mm.Vma

/-!
# Page tables

`arch/x86_64/mm/vmm_mmu.c` over a page heap, and the hardware walk. Physical memory is
a function on 64-bit words; entry `i` of the table in frame `f` is word `512 * f + i`,
and a pointer to an entry is the number of its word. A table page, like every block of
the heap, is named by its frame, and frame `0` stands for the null pointer: the heap
never hands it out.

A panic is `none`. The allocator keeps the nodes of its free lists in the free pages
themselves; their contents are not part of this memory. What follows a store over a node is
not modelled and is `none` as well, unless the store is made good at once
(`PageHeap.spares`). `mmu_walk` is a state machine, and so is its model; the array
`out_blocks` is always given.
-/

namespace ShiziOS.Mm

open Function

/-- The memory manager's state: the heap, physical memory, the field `on_pte_ptr` of
every page, and the kernel's page global directory. -/
structure Machine (H : PageHeap) where
  heap : H.State
  mem : Nat → Pte
  onPtePtr : Nat → Option Nat
  kernelPgd : Nat

namespace Machine

variable {H : PageHeap}

/-! ## The heap -/

/-- Clear the words of `n` frames. -/
def zeroFrames (mem : Nat → Pte) (p n : Nat) : Nat → Pte :=
  fun w => if 512 * p ≤ w ∧ w < 512 * (p + n) then 0 else mem w

/-- `kheap_alloc`; the allocator clears the block. -/
def kheapAlloc (m : Machine H) (size : Nat) : Option Nat × Machine H :=
  match H.alloc m.heap size with
  | (none, heap) => (none, { m with heap := heap })
  | (some p, heap) =>
    (some p, { m with heap := heap, mem := zeroFrames m.mem p (H.pagesFor size) })

def kheapFree (m : Machine H) (p : Nat) : Option (Machine H) :=
  if p = 0 then some m else (H.free m.heap p).map fun heap => { m with heap := heap }

def kheapAddRefCount (m : Machine H) (p : Nat) : Option (Machine H) :=
  if p = 0 then some m else (H.addRef m.heap p).map fun heap => { m with heap := heap }

/-- `kheap_set_on_pte_ptr`, on every page of the block. -/
def kheapSetOnPtePtr (m : Machine H) (p pte : Nat) : Machine H :=
  if p = 0 then m
  else
    let pages := ((H.live m.heap p).map (·.pages)).getD 1
    { m with onPtePtr := fun q => if p ≤ q ∧ q < p + pages then some pte else m.onPtePtr q }

/-! ## Entries -/

def pml4Index (addr : Nat) : Nat := addr / 2 ^ 39 % 512
def pdptIndex (addr : Nat) : Nat := addr / 2 ^ 30 % 512
def pdIndex (addr : Nat) : Nat := addr / 2 ^ 21 % 512
def ptIndex (addr : Nat) : Nat := addr / 2 ^ 12 % 512

def store (m : Machine H) (w : Nat) (value : Pte) : Option (Machine H) :=
  if H.node m.heap (w / 512) (w % 512) then none
  else some { m with mem := update m.mem w value }

def mmuSetPte (m : Machine H) (pte pfn : Nat) (huge : Bool) (prot : VmProt) : Option (Machine H) :=
  m.store pte (pteValue pfn huge prot)

def mmuClearPte (m : Machine H) (pte : Nat) : Machine H := { m with mem := update m.mem pte 0 }

def allocPageTablePage (m : Machine H) : Option Nat × Machine H :=
  match m.kheapAlloc pageSize with
  | (none, m) => (none, m)
  | (some page, m) => (some page, { m with mem := zeroFrames m.mem page 1 })

/-! ## The software walk -/

inductive WalkState where
  | start | pml4 | pdpt | pd | pt | done | error | brk | panic
deriving DecidableEq, Repr

/-- The variables of `mmu_walk`. -/
structure Walk (H : PageHeap) where
  state : WalkState
  machine : Machine H
  current : Nat
  pte : Option Nat
  outBlocks : Fin 3 → Nat

/-- What `walk_pml4`, `walk_pdpt` and `walk_pd` have in common: find or make the table
below entry `index` of the current one, record it in `slot` and go on with `next`. -/
def walkTable (index : Nat) (slot : Fin 3) (huge : Bool) (next : WalkState) (create : Bool)
    (prot : VmProt) (w : Walk H) : Option (Walk H) :=
  let pte := 512 * w.current + index
  let value := w.machine.mem pte
  if pteIsValid value = false then
    if create = false then some { w with state := .error, pte := some pte }
    else
      match w.machine.allocPageTablePage with
      | (none, m) => some { w with state := .error, machine := m, pte := some pte }
      | (some page, m) =>
        (m.mmuSetPte pte page false prot).map fun m =>
          { state := next
            machine := m.kheapSetOnPtePtr page pte
            current := page
            pte := some pte
            outBlocks := update w.outBlocks slot page }
  else if huge = true ∧ pteIsHuge value = true then
    some { w with state := .done, pte := some pte }
  else
    let table := ptePfn value
    if create = false then some { w with state := next, current := table, pte := some pte }
    else
      (w.machine.kheapAddRefCount table).map fun m =>
        { state := next
          machine := m
          current := table
          pte := some pte
          outBlocks := update w.outBlocks slot table }

def walkPml4 (addr : Nat) (create : Bool) (prot : VmProt) (w : Walk H) : Option (Walk H) :=
  walkTable (pml4Index addr) 0 false .pdpt create prot w

def walkPdpt (addr : Nat) (create : Bool) (prot : VmProt) (w : Walk H) : Option (Walk H) :=
  walkTable (pdptIndex addr) 1 true .pd create prot w

def walkPd (addr : Nat) (create : Bool) (prot : VmProt) (w : Walk H) : Option (Walk H) :=
  walkTable (pdIndex addr) 2 true .pt create prot w

/-- `walk_error`: the recorded tables are freed again, the last first. -/
def walkError (create : Bool) (w : Walk H) : Option (Walk H) :=
  if create = false then some { w with state := .brk, pte := none }
  else do
    let m ← w.machine.kheapFree (w.outBlocks 2)
    let m ← m.kheapFree (w.outBlocks 1)
    let m ← m.kheapFree (w.outBlocks 0)
    some { w with state := .brk, machine := m, pte := none }

/-- One round of the loop of `mmu_walk`. -/
def walkStep (pgd addr : Nat) (create : Bool) (prot : VmProt) (w : Walk H) : Option (Walk H) :=
  match w.state with
  | .start =>
    some { w with
      state := if pgd = 0 then .panic else .pml4
      outBlocks := if create then fun _ => 0 else w.outBlocks }
  | .pml4 => walkPml4 addr create prot w
  | .pdpt => walkPdpt addr create prot w
  | .pd => walkPd addr create prot w
  | .pt => some { w with state := .done, pte := some (512 * w.current + ptIndex addr) }
  | .done => some { w with state := .brk }
  | .error => walkError create w
  | .brk => some w
  | .panic => none

def walkLoop (pgd addr : Nat) (create : Bool) (prot : VmProt) : Nat → Walk H → Option (Walk H)
  | 0, w => some w
  | fuel + 1, w =>
    if w.state = .brk then some w
    else (walkStep pgd addr create prot w).bind (walkLoop pgd addr create prot fuel)

/-- The protection of the entries above the last level. -/
def intermediateProt (prot : VmProt) : VmProt := (prot &&& (vmWrite ||| vmUser)) ||| vmExec

/-- `mmu_walk`; every path through the states ends within seven rounds. -/
def mmuWalk (m : Machine H) (pgd addr : Nat) (create : Bool) (prot : VmProt) : Option (Walk H) :=
  walkLoop pgd addr create (intermediateProt prot) 7
    { state := .start, machine := m, current := pgd, pte := none, outBlocks := fun _ => 0 }

/-! ## Mappings -/

/-- The recorded tables of one page, without null pointers. -/
def recorded (outBlocks : Fin 3 → Nat) : List Nat :=
  [outBlocks 0, outBlocks 1, outBlocks 2].filter (· ≠ 0)

/-- The page loop of `mmu_add_map`, with `n` pages to go. The result says whether it
ran to its end; a full array is a panic. -/
def mapPages (pgd vaddrStart paddrStart maxBlocks : Nat) (prot : VmProt) :
    (n i : Nat) → List Nat → Machine H → Option (Bool × List Nat × Machine H)
  | 0, _, blocks, m => some (true, blocks, m)
  | n + 1, i, blocks, m => do
    let vaddr := (vaddrStart + i * pageSize) % 2 ^ 64
    let paddr := (paddrStart + i * pageSize) % 2 ^ 64
    let w ← mmuWalk m pgd vaddr true prot
    match w.pte with
    | none => some (false, blocks, w.machine)
    | some pte =>
      let blocks := blocks ++ recorded w.outBlocks
      if maxBlocks < blocks.length then none
      else
        let m ← if pteIsHuge (w.machine.mem pte) then some w.machine
          else w.machine.mmuSetPte pte (paddr / pageSize) false prot
        mapPages pgd vaddrStart paddrStart maxBlocks prot n (i + 1) blocks m

/-- Clear the parent entry of a recorded table page and drop one reference to it. The parent may
have been freed just before, with a list node where the entry is. -/
def releaseBlock (m : Machine H) (block : Nat) : Option (Machine H) :=
  if block = 0 then some m
  else
    match m.onPtePtr block with
    | some pte =>
      if H.spares m.heap block (pte / 512) (pte % 512) then (m.mmuClearPte pte).kheapFree block
      else none
    | none => m.kheapFree block

def releaseBlocks (m : Machine H) (blocks : List Nat) : Option (Machine H) :=
  blocks.foldlM releaseBlock m

/-- `mmu_add_map`. The argument `flags` of the source is not read. -/
def mmuAddMap (m : Machine H) (pgd vaddrStart paddrStart pageCount : Nat) (prot : VmProt) :
    Option (Except Errno PageTableBlocks × Machine H) :=
  if pgd = 0 then some (.error .einval, m)
  else if pageCount = 0 then some (.error .einval, m)
  else if vaddrStart &&& (pageSize - 1) ≠ 0 ∨ paddrStart &&& (pageSize - 1) ≠ 0 then
    some (.error .efault, m)
  else
    let maxBlocks := pageCount * 3 % 2 ^ 64
    match m.kheapAlloc (maxBlocks * 8 % 2 ^ 64) with
    | (none, m) => some (.error .enomem, m)
    | (some array, m) => do
      let (done, blocks, m) ← mapPages pgd vaddrStart paddrStart maxBlocks prot pageCount 0 [] m
      if done then some (.ok ⟨array, blocks⟩, m)
      else
        let m ← m.releaseBlocks blocks
        let m ← m.kheapFree array
        some (.error .enomem, m)

def mmuRemoveMap (m : Machine H) (ptb : PageTableBlocks) : Option (Except Errno Unit × Machine H) :=
  if ptb.array = 0 then some (.error .einval, m)
  else do
    let m ← m.releaseBlocks ptb.blocks
    let m ← m.kheapFree ptb.array
    some (.ok (), m)

/-- `mmu_add_pgd`: an empty lower half and the kernel's upper half. -/
def mmuAddPgd (m : Machine H) : Except Errno Nat × Machine H :=
  match m.kheapAlloc pageSize with
  | (none, m) => (.error .enomem, m)
  | (some pgd, m) =>
    let pml4 := zeroFrames m.mem pgd 1
    let mem := fun w =>
      if 512 * pgd + 256 ≤ w ∧ w < 512 * pgd + 512 then pml4 (512 * m.kernelPgd + (w - 512 * pgd))
      else pml4 w
    (.ok pgd, { m with mem := mem })

def mmuRemovePgd (m : Machine H) (pgd : Nat) : Option (Except Errno Unit × Machine H) :=
  if pgd = 0 then some (.error .einval, m)
  else (m.kheapFree pgd).map fun m => (.ok (), m)

end Machine

/-! ## The hardware walk -/

/-- What the hardware finds for an address: where it lies and what is allowed there. -/
structure Translation where
  paddr : Nat
  writable : Bool
  user : Bool
  executable : Bool
deriving DecidableEq, Repr

/-- The rights along a path of entries: each level can only take rights away. -/
def translation (paddr : Nat) (entries : List Pte) : Translation where
  paddr := paddr
  writable := entries.all pteIsWritable
  user := entries.all pteIsUser
  executable := entries.all pteIsExecutable

/-- Bits 47 to 63 of an address agree. -/
def CanonicalAddr (va : Nat) : Prop := va < 2 ^ 47 ∨ 2 ^ 64 - 2 ^ 47 ≤ va ∧ va < 2 ^ 64

instance (va : Nat) : Decidable (CanonicalAddr va) := by unfold CanonicalAddr; infer_instance

/-- The walk of the processor from the table in frame `pgd`. -/
def hwWalk (mem : Nat → Pte) (pgd va : Nat) : Option Translation :=
  if ¬ CanonicalAddr va then none
  else
    let pml4e := mem (512 * pgd + Machine.pml4Index va)
    if pteIsValid pml4e = false then none
    else
      let pdpte := mem (512 * ptePfn pml4e + Machine.pdptIndex va)
      if pteIsValid pdpte = false then none
      else if pteIsHuge pdpte = true then
        some (translation (ptePfn pdpte * 4096 / 2 ^ 30 * 2 ^ 30 + va % 2 ^ 30) [pml4e, pdpte])
      else
        let pde := mem (512 * ptePfn pdpte + Machine.pdIndex va)
        if pteIsValid pde = false then none
        else if pteIsHuge pde = true then
          some (translation (ptePfn pde * 4096 / 2 ^ 21 * 2 ^ 21 + va % 2 ^ 21)
            [pml4e, pdpte, pde])
        else
          let pte := mem (512 * ptePfn pde + Machine.ptIndex va)
          if pteIsValid pte = false then none
          else some (translation (ptePfn pte * 4096 + va % 4096) [pml4e, pdpte, pde, pte])

end ShiziOS.Mm
