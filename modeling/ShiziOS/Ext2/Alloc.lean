import ShiziOS.Ext2.State

/-!
# Allocation of blocks and inodes

`ext2_alloc_block`, `ext2_free_block`, `ext2_ino_alloc` and `ext2_ino_free`. The functions for
blocks and inodes differ in the fields of the group descriptor and in the number they make of a
group and an index, so that they are one function of the pool they work on.

A bitmap takes a whole block, but only its first sector is read and written. The search for a
clear bit goes on in what the buffer held before.
-/

namespace ShiziOS.Ext2

open Bytes Exec

/-! ## The functions -/

/-- What is allocated. -/
inductive Pool where
  | blocks
  | inodes
deriving DecidableEq

namespace Pool

def bitmap : Pool → GroupDesc → Nat
  | blocks, d => d.bgBlockBitmap
  | inodes, d => d.bgInodeBitmap

def free : Pool → GroupDesc → Nat
  | blocks, d => d.bgFreeBlocksCount
  | inodes, d => d.bgFreeInodesCount

def setFree : Pool → GroupDesc → Nat → GroupDesc
  | blocks, d, n => { d with bgFreeBlocksCount := n }
  | inodes, d, n => { d with bgFreeInodesCount := n }

/-- The number of free ones in the file system. -/
def total : Pool → SuperBlock → Nat
  | blocks, sb => sb.sFreeBlocksCount
  | inodes, sb => sb.sFreeInodesCount

def setTotal : Pool → SuperBlock → Nat → SuperBlock
  | blocks, sb, n => { sb with sFreeBlocksCount := n }
  | inodes, sb, n => { sb with sFreeInodesCount := n }

end Pool

variable (fs : SbInfo) (p : Pool)

def bitmapSector (d : GroupDesc) : Nat := ext2BlockToSector fs (p.bitmap d)

/-- Set the free counters of the group and of the file system to what `f` makes of them. -/
def countFree (g : Nat) (f : Nat → Nat) (s : Volume) : Volume :=
  let d := s.groupDescTable g
  { s with
    groupDescTable := Function.update s.groupDescTable g (p.setFree d (f (p.free d) % 2 ^ 16))
    superBlock := p.setTotal s.superBlock (f (p.total s.superBlock) % 2 ^ 32) }

/-- `--` on a counter of `16` or `32` bits. -/
def decr (n : Nat) : Nat := n + 2 ^ 32 - 1

/-- The loop over the groups: `n` are left, from `g` on. It gives the group and the index of what
was allocated. -/
def allocLoop : (n g : Nat) → E (Option (Nat × Nat))
  | 0, _ => pure none
  | n + 1, g => do
    let d ← groupDesc fs g
    if p.free d = 0 then allocLoop n (g + 1)
    else do
      blockReadSectors (bitmapSector fs p d) 1
      let index := bitmapFind (← get).buf (fs.blockSize * 8) 0 false
      if fs.blockSize * 8 ≤ index then allocLoop n (g + 1)
      else do
        modify fun s => { s with buf := bitmapSet s.buf index }
        modify (countFree p g decr)
        blockWriteSectors (bitmapSector fs p d) 1
        pure (some (g, index))

def freeAt (g index : Nat) : E Unit := do
  let d ← groupDesc fs g
  blockReadSectors (bitmapSector fs p d) 1
  modify fun s => { s with buf := bitmapClear s.buf index }
  modify (countFree p g (· + 1))
  blockWriteSectors (bitmapSector fs p d) 1

/-- `ext2_alloc_block`; `0` if there is none. -/
def ext2AllocBlock : E Nat := do
  match ← allocLoop fs .blocks fs.groupDescCount 0 with
  | none => pure 0
  | some (g, index) => pure ((fs.firstDataBlock + g * fs.blocksPerGroup + index) % 2 ^ 32)

def ext2FreeBlock (block : Nat) : E Unit :=
  if block = 0 then pure ()
  else
    let k := (block + 2 ^ 32 - fs.firstDataBlock) % 2 ^ 32
    freeAt fs .blocks (k / fs.blocksPerGroup) (k % fs.blocksPerGroup)

/-- `ext2_ino_alloc`; `0` if there is none. -/
def ext2InoAlloc : E Nat := do
  match ← allocLoop fs .inodes fs.groupDescCount 0 with
  | none => pure 0
  | some (g, index) => pure ((g * fs.inodesPerGroup + index + 1) % 2 ^ 32)

def ext2InoFree (ino : Nat) : E Unit :=
  let k := (ino + 2 ^ 32 - 1) % 2 ^ 32
  freeAt fs .inodes (k / fs.inodesPerGroup) (k % fs.inodesPerGroup)

end ShiziOS.Ext2
