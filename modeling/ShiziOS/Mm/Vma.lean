import ShiziOS.Lib.SearchTree
import ShiziOS.Mm.Pte

/-!
# The areas of an address space

`kernel/mm/vmm_as.c` without page tables and frames: the list and the tree of the
`vm_area_t` of one address space, how an area is added, found and removed, and how a
free address is chosen. An area is known by its pointer, and `area` is what the
pointer points to. The tree is any search tree (`SearchTree.Ops`); its order is
`vma_rb_cmp`, the start address. The functions take the address space by reference,
and the answer to a null reference, `-EINVAL`, is left out. The outcome of
`kheap_alloc` in `vma_add` is an argument.
-/

namespace ShiziOS.Mm

open SearchTree

/-- `page_table_blocks_struct`: the array by its address and its entries. -/
structure PageTableBlocks where
  array : Nat
  blocks : List Nat
deriving DecidableEq, Repr

/-- `vm_area_t`. The pointers `file` and `anon_vma` are one union and so one field. -/
structure Vma where
  start : Nat
  stop : Nat
  linearAddr : Nat
  prot : VmProt
  flags : Nat
  offsetOrAnon : Int
  fileOrAnonVma : Nat
  filePath : Nat
  pageTableBlocks : PageTableBlocks
deriving DecidableEq, Repr

/-- `as_t`, with the areas its pointers reach. -/
structure As where
  pgd : Nat
  vmaList : List Nat
  vmaTree : BinaryTree Nat
  area : Nat → Vma
  refcount : Int

namespace As

/-- The key of `vma_rb_cmp`. -/
def key (as : As) (vma : Nat) : Nat := (as.area vma).start

def vmaRbFindGe (as : As) (addr : Nat) : Option Nat := findGe as.key addr none as.vmaTree

def vmaRbFindLe (as : As) (addr : Nat) : Option Nat := findLe as.key addr none as.vmaTree

def vmaFindEnd (as : As) : Option Nat := SearchTree.last as.vmaTree

/-- The checks of `vma_add`. -/
def vmaCheck (as : As) (start stop : Nat) : Except Errno Unit :=
  if stop ≤ start then .error .einval
  else if start &&& (pageSize - 1) ≠ 0 ∨ stop &&& (pageSize - 1) ≠ 0 then .error .einval
  else
    match as.vmaRbFindGe start with
    | some next =>
      if (as.area next).start < stop then .error .einval
      else
        match SearchTree.prev as.vmaTree next with
        | some prev => if start < (as.area prev).stop then .error .einval else .ok ()
        | none => .ok ()
    | none =>
      match SearchTree.last as.vmaTree with
      | some last => if start < (as.area last).stop then .error .einval else .ok ()
      | none => .ok ()

/-- The fields of a fresh area; `kheap_alloc` has cleared the rest. -/
def newVma (start stop : Nat) (prot : VmProt) (flags : Nat) : Vma where
  start := start
  stop := stop
  linearAddr := 0
  prot := prot
  flags := flags
  offsetOrAnon := -1
  fileOrAnonVma := 0
  filePath := 0
  pageTableBlocks := ⟨0, []⟩

/-- Fill in the fresh area and link it. `rbtree_insert` refuses a key it holds. -/
def vmaInsert (rb : Ops Nat) (as : As) (vma start stop : Nat) (prot : VmProt) (flags : Nat) :
    Except Errno As :=
  let as := { as with area := Function.update as.area vma (newVma start stop prot flags) }
  if (inorder as.vmaTree).any (fun exist => as.key exist == start) then .error .einval
  else .ok { as with
    vmaTree := rb.insert as.key vma as.vmaTree
    vmaList := as.vmaList ++ [vma] }

/-- `vma_add`; `alloc` is what `kheap_alloc` returns, `none` for `NULL`. -/
def vmaAdd (rb : Ops Nat) (as : As) (start stop : Nat) (prot : VmProt) (flags : Nat)
    (alloc : Option Nat) : Except Errno As :=
  match as.vmaCheck start stop with
  | .error e => .error e
  | .ok () =>
    match alloc with
    | none => .error .enomem
    | some vma => as.vmaInsert rb vma start stop prot flags

def vmaFind (as : As) (addr : Nat) : Option Nat :=
  match as.vmaRbFindLe addr with
  | some candidate => if addr < (as.area candidate).stop then some candidate else none
  | none => none

/-- `vma_remove`; what it closes and frees is not part of this state. -/
def vmaRemove (rb : Ops Nat) (as : As) (vma : Nat) : Except Errno As :=
  if vma = 0 then .error .einval
  else .ok { as with
    vmaList := as.vmaList.erase vma
    vmaTree := rb.remove as.key vma as.vmaTree }

/-- `as_unmap` on the areas. -/
def asUnmap (rb : Ops Nat) (as : As) (addr : Nat) : Except Errno As :=
  match as.vmaFind addr with
  | none => .error .enoent
  | some vma => as.vmaRemove rb vma

/-- `as_alloc_addr`; `0` for failure. -/
def asAllocAddr (as : As) (size : Nat) : Nat :=
  if size = 0 then 0
  else
    let pageCount := (size + pageSize - 1) % 2 ^ 64 / pageSize
    let totalSize := pageCount * pageSize
    let startAddr :=
      match as.vmaFindEnd with
      | none => userStart
      | some last =>
        let startAddr := ((as.area last).stop + 4096) % 2 ^ 64
        (startAddr + pageSize - 1) % 2 ^ 64 / pageSize * pageSize
    if userStackTop < (startAddr + totalSize) % 2 ^ 64 then 0 else startAddr

/-- `as_create`; no area is reachable yet. -/
def asCreate (pgd : Nat) : As where
  pgd := pgd
  vmaList := []
  vmaTree := .nil
  area := fun _ => newVma 0 0 0 0
  refcount := 1

end As

end ShiziOS.Mm
