import ShiziOS.Ext2.Bitmap
import ShiziOS.Lib.Exec

/-!
# The state of an ext2 file system

What `kernel/fs/ext2/core.c` works on: the device, the cached super block and group descriptors,
and the buffer that a caller passes to all functions of one operation. The device does not fail,
and a read returns what was written last. Bytes behind the end of the buffer are kept like those
in it; no function here reads or writes them.
-/

namespace ShiziOS.Ext2

open Bytes Exec

/-- The part of `struct ext2_sb_info` that does not change. -/
structure SbInfo where
  blockSize : Nat
  blocksPerGroup : Nat
  inodesPerGroup : Nat
  firstDataBlock : Nat
  groupDescCount : Nat

/-- `struct ext2_group_desc`. -/
structure GroupDesc where
  bgBlockBitmap : Nat
  bgInodeBitmap : Nat
  bgInodeTable : Nat
  bgFreeBlocksCount : Nat
  bgFreeInodesCount : Nat

/-- `struct ext2_super_block`. -/
structure SuperBlock where
  sInodesCount : Nat
  sBlocksCount : Nat
  sFreeBlocksCount : Nat
  sFreeInodesCount : Nat

structure Volume where
  disk : Area
  buf : Area
  groupDescTable : Nat → GroupDesc
  superBlock : SuperBlock

abbrev E := Exec Volume

def ext2BlockToSector (fs : SbInfo) (block : Nat) : Nat := block * (fs.blockSize / 512)

/-- `block_read_sectors` into the buffer. -/
def blockReadSectors (sector count : Nat) : E Unit :=
  modify fun s => { s with buf := s.buf.copy 0 (512 * count) (s.disk.drop (512 * sector)) }

/-- `block_write_sectors` from the buffer. -/
def blockWriteSectors (sector count : Nat) : E Unit :=
  modify fun s => { s with disk := s.disk.copy (512 * sector) (512 * count) s.buf }

/-- `group_desc_table[block_group]`. -/
def groupDesc (fs : SbInfo) (g : Nat) : E GroupDesc := do
  if g < fs.groupDescCount then pure ((← get).groupDescTable g) else stuck

end ShiziOS.Ext2
