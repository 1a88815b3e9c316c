import ShiziOS.Ext2.State
import ShiziOS.Fs.State

/-!
# Mounting

`ext2_mount` as far as it depends on the device: what it checks of the super block, and what it
keeps. The calls that fail for other reasons may each fail. A division by zero, a read over the
end of the descriptor table and, unless the page at address `0` is mapped, an access through `NULL`
have no outcome.

* `accepted_iff`: when a mount gets over all its checks.
* `ext2_mount_usable`: when every mount fails or builds a file system that can be used.
* `Accepted.sync_eq`: where `ext2_sync_metadata` writes.
* `ext2_sync_round_trip`: when a mount after it gives the same state.
-/

namespace ShiziOS.Ext2

open Bytes Area

inductive MountErr where
  | einval | enomem | enodev | eio | vfsOpen

/-- The first `n` bytes. -/
def first (a : Area) (n : Nat) : Area := copy (fun _ => 0) 0 n a

def sInodesCount (esb : Area) : Nat := load32 esb 0
def sBlocksCount (esb : Area) : Nat := load32 esb 4
def sLogBlockSize (esb : Area) : Nat := load32 esb 24

/-- What is taken over from the super block. A shift count is taken modulo `32`. -/
def sbInfo (esb : Area) : SbInfo where
  blockSize := 1024 * 2 ^ (sLogBlockSize esb % 32) % 2 ^ 32
  blocksPerGroup := load32 esb 32
  inodesPerGroup := load32 esb 40
  firstDataBlock := load32 esb 20
  groupDescCount := (sBlocksCount esb + load32 esb 32 - 1) % 2 ^ 32 / load32 esb 32

/-- The bytes of the blocks with descriptors. -/
def SbInfo.gdBytes (fs : SbInfo) : Nat :=
  (fs.groupDescCount * 32 + fs.blockSize - 1) / fs.blockSize * fs.blockSize

/-- The first byte of `group_desc_block`. -/
def SbInfo.gdStart (fs : SbInfo) : Nat := (fs.firstDataBlock + 1) % 2 ^ 32 * fs.blockSize

/-- The checks on the super block. -/
def Supported (esb : Area) : Prop :=
  load16 esb 56 = 0xEF53 ∧ 1024 ≤ (sbInfo esb).blockSize ∧ (sbInfo esb).blockSize ≤ 4096 ∧
  load32 esb 28 = sLogBlockSize esb ∧ load32 esb 96 &&& 0xFFFFFFED = 0

instance (esb : Area) : Decidable (Supported esb) := inferInstanceAs (Decidable (_ ∧ _))

/-- `kheap_alloc` does not refuse the size. -/
def Grantable (size : Nat) : Prop := 0 < size ∧ size ≤ Fs.kheapMax

instance (size : Nat) : Decidable (Grantable size) := inferInstanceAs (Decidable (_ ∧ _))

/-- A mounted file system: `sbi`, the bytes of `stat.super_block` and of `stat.group_desc_table`,
and the size of the table. -/
structure Mounted extends SbInfo where
  superBlock : Area
  table : Area
  tableSize : Nat

/-- The file system that is built from a device. -/
def mounted (disk : Area) : Mounted :=
  let esb := first (disk.drop 1024) 1024
  let fs := sbInfo esb
  { fs with
    superBlock := esb
    table := first (disk.drop fs.gdStart) fs.gdBytes
    tableSize := fs.gdBytes % 2 ^ 32 }

/-- `ext2_iget` for the root: no outcome, or whether it returns an inode. A new inode is not in a
list and has no key yet: `vfs_iget` takes it out of a list through its `NULL` pointers, and
`vfs_icache_add` hashes the device of the super block at `NULL`. -/
def igetRoot (low : Bool) (ok : Nat → Bool) (m : Mounted) : Option Bool :=
  -- the root is in the cache
  if ok 11 then some true
  else if !ok 12 then some false
  else if !low then none
  else if m.inodesPerGroup = 0 then none
  else some (ok 13)

/-- `ext2_mount`. The calls that can fail are numbered in their order; `low` says whether the page
at address `0` is mapped. -/
def ext2Mount (low : Bool) (ok : Nat → Bool) (disk : Area) : Option (Except MountErr Mounted) :=
  let m := mounted disk
  if !ok 0 then some (.error .einval)
  else if !ok 1 then some (.error .enomem)
  else if !ok 2 then some (.error .vfsOpen)
  else if !ok 3 then some (.error .enodev)
  else if !ok 4 then some (.error .enomem)
  else if !ok 5 then some (.error .eio)
  else if ¬Supported m.superBlock then some (.error .einval)
  else if !ok 6 then some (.error .enomem)
  else if m.blocksPerGroup = 0 then none
  else if !ok 7 || !ok 8 || !ok 9 then some (.error .enomem)
  else if ¬Grantable m.tableSize then some (.error .enomem)
  else if !ok 10 then some (.error .eio)
  else if m.tableSize < m.gdBytes then none
  else if igetRoot low ok m = none then none
  else if igetRoot low ok m = some false then some (.error .eio)
  else if !ok 14 || !ok 15 then some (.error .enomem)
  else some (.ok m)

/-- There is an outcome, an error or a file system with `P`. -/
def Meets (P : Mounted → Prop) : Option (Except MountErr Mounted) → Prop
  | none => False
  | some (.error _) => True
  | some (.ok m) => P m

section Guards

variable {P : Mounted → Prop} {c : Prop} [Decidable c] {e : MountErr}
  {r : Option (Except MountErr Mounted)} {m : Mounted}

theorem meets_error : Meets P (if c then some (.error e) else r) ↔ (¬c → Meets P r) := by
  by_cases hc : c <;> simp [hc, Meets]

theorem meets_none : Meets P (if c then none else r) ↔ ¬c ∧ Meets P r := by
  by_cases hc : c <;> simp [hc, Meets]

theorem error_eq_ok : (if c then some (.error e) else r) = some (.ok m) ↔
    ¬c ∧ r = some (.ok m) := by
  by_cases hc : c <;> simp [hc]

end Guards

/-- No call fails. -/
structure Succeed (low : Bool) (ok : Nat → Bool) (m : Mounted) : Prop where
  calls : ok 0 ∧ ok 1 ∧ ok 2 ∧ ok 3 ∧ ok 4 ∧ ok 5 ∧ ok 6 ∧ (ok 7 ∧ ok 8 ∧ ok 9) ∧ ok 10 ∧ ok 14 ∧
    ok 15
  root : igetRoot low ok m = some true

/-- The mount gets over all its checks. -/
structure Accepted (disk : Area) (m : Mounted) : Prop where
  eq : m = mounted disk
  supported : Supported m.superBlock
  blocks : m.blocksPerGroup ≠ 0
  grantable : Grantable m.tableSize
  size : m.gdBytes ≤ m.tableSize

variable {low : Bool} {ok : Nat → Bool} {disk d esb : Area} {m m' : Mounted}

theorem accepted_iff : ext2Mount low ok disk = some (.ok m) ↔ Accepted disk m ∧
    Succeed low ok m := by
  have hroot : igetRoot low ok m ≠ none ∧ igetRoot low ok m ≠ some false ↔
      igetRoot low ok m = some true := by
    rcases igetRoot low ok m with _ | _ | _ <;> simp
  simp only [ext2Mount, error_eq_ok, Option.ite_none_left_eq_some, not_not]
  constructor
  · rintro ⟨h0, h1, h2, h3, h4, h5, hsup, h6, hbpg, h7, hgrant, h10, hsize, hnone, hfalse, h14, heq⟩
    cases heq
    refine ⟨⟨rfl, hsup, hbpg, hgrant, not_lt.mp hsize⟩, ⟨?_, hroot.mp ⟨hnone, hfalse⟩⟩⟩
    simp only [Bool.not_eq_true', Bool.or_eq_true, not_or, Bool.not_eq_false] at *
    exact ⟨h0, h1, h2, h3, h4, h5, h6, ⟨h7.1.1, h7.1.2, h7.2⟩, h10, h14⟩
  · rintro ⟨⟨rfl, hsup, hbpg, hgrant, hsize⟩, hcalls, higet⟩
    simp [hsup, hbpg, hgrant, not_lt.mpr hsize, hcalls, higet]

theorem meets_ext2Mount {P : Mounted → Prop} :
    (∀ ok, Meets P (ext2Mount low ok disk)) ↔ (Supported (mounted disk).superBlock →
      (mounted disk).blocksPerGroup ≠ 0 ∧ (Grantable (mounted disk).tableSize →
        (mounted disk).gdBytes ≤ (mounted disk).tableSize ∧ low = true ∧
        (mounted disk).inodesPerGroup ≠ 0 ∧ P (mounted disk))) := by
  simp only [ext2Mount, meets_error, meets_none, not_not, not_lt]
  constructor
  · intro h hsup
    simpa [hsup, Meets, igetRoot, and_assoc] using h (· != 11)
  · intro h ok _ _ _ _ _ _ hsup _
    obtain ⟨hbpg, h⟩ := h hsup
    refine ⟨hbpg, fun _ hgrant _ => ?_⟩
    obtain ⟨hsize, hlow, hipg, hP⟩ := h hgrant
    refine ⟨hsize, ?_, fun _ _ => hP⟩
    rw [igetRoot, hlow]
    split_ifs <;> simp_all

theorem supported_blockSize (h : Supported esb) : (sbInfo esb).blockSize = 1024 ∨
    (sbInfo esb).blockSize = 2048 ∨ (sbInfo esb).blockSize = 4096 := by
  obtain ⟨-, hlow, hhigh, -⟩ := h
  have hlt := Nat.mod_lt (sLogBlockSize esb) (by decide : 0 < 32)
  simp only [sbInfo] at hlow hhigh ⊢
  interval_cases sLogBlockSize esb % 32 <;> revert hlow hhigh <;> decide

theorem gdBytes_spec (h : Supported esb) : (sbInfo esb).groupDescCount * 32 ≤ (sbInfo esb).gdBytes ∧
    (0 < (sbInfo esb).gdBytes → 0 < (sbInfo esb).groupDescCount) := by
  rcases supported_blockSize h with hbs | hbs | hbs <;> rw [SbInfo.gdBytes, hbs] <;> omega

/-! ## Usable file systems -/

/-- Divisions and indices that are computed from the file system are defined. -/
structure Usable (esb : Area) (m : Mounted) : Prop where
  blockSize : m.blockSize = 1024 ∨ m.blockSize = 2048 ∨ m.blockSize = 4096
  log : m.blockSize = 1024 * 2 ^ sLogBlockSize esb
  blocks : 0 < m.blocksPerGroup ∧ m.blocksPerGroup ≤ 8 * m.blockSize
  inodes : 0 < m.inodesPerGroup ∧ m.inodesPerGroup ≤ 8 * m.blockSize
  table : m.groupDescCount * 32 ≤ m.tableSize
  inodeGroup (n : Nat) : 1 ≤ n → n ≤ sInodesCount esb →
    (n - 1) / m.inodesPerGroup < m.groupDescCount
  blockGroup (b : Nat) : 1 ≤ b → b < sBlocksCount esb →
    (b + 2 ^ 32 - m.firstDataBlock) % 2 ^ 32 / m.blocksPerGroup < m.groupDescCount

/-- The blocks that are counted lie in groups. -/
def Covered (count : Nat) (fs : SbInfo) : Prop :=
  count ≤ 1 ∨ fs.firstDataBlock ≤ 1 ∨ count ≤ fs.firstDataBlock ∧
    count + 2 ^ 32 ≤ fs.firstDataBlock + fs.groupDescCount * fs.blocksPerGroup

theorem blockSize_iff (h : Supported esb) :
    (sbInfo esb).blockSize = 1024 * 2 ^ sLogBlockSize esb ↔ sLogBlockSize esb ≤ 2 := by
  constructor
  · intro heq
    have hpow : 2 ^ sLogBlockSize esb ≤ 2 ^ 2 := by have := h.2.2.1; omega
    exact (Nat.pow_le_pow_iff_right (by decide)).mp hpow
  · intro hlog
    rw [sbInfo]
    interval_cases sLogBlockSize esb <;> rfl

/-- If the number of groups wraps, there is none. -/
theorem groups_cover (h : Supported esb) (hgroups : 0 < (sbInfo esb).groupDescCount)
    (hbpg : (sbInfo esb).blocksPerGroup ≤ 8 * (sbInfo esb).blockSize) :
    sBlocksCount esb ≤ (sbInfo esb).groupDescCount * (sbInfo esb).blocksPerGroup ∧
    (sbInfo esb).groupDescCount * (sbInfo esb).blocksPerGroup < 2 ^ 32 := by
  have hbs := h.2.2.1
  have hcount : sBlocksCount esb < 2 ^ 32 := load32_lt _ _
  simp only [sbInfo] at *
  obtain ⟨hpos, hle⟩ := Nat.div_pos_iff.mp hgroups
  have hdiv := Nat.div_add_mod' ((sBlocksCount esb + load32 esb 32 - 1) % 2 ^ 32) (load32 esb 32)
  have hmod := Nat.mod_lt ((sBlocksCount esb + load32 esb 32 - 1) % 2 ^ 32) hpos
  constructor <;> omega

theorem blockGroup_iff {fs : SbInfo} {count : Nat} (h : fs.blocksPerGroup ≠ 0)
    (hfdb : fs.firstDataBlock < 2 ^ 32)
    (hcover : count ≤ fs.groupDescCount * fs.blocksPerGroup ∧
      fs.groupDescCount * fs.blocksPerGroup < 2 ^ 32) :
    (∀ b, 1 ≤ b → b < count →
      (b + 2 ^ 32 - fs.firstDataBlock) % 2 ^ 32 / fs.blocksPerGroup < fs.groupDescCount) ↔
    Covered count fs := by
  simp only [Nat.div_lt_iff_lt_mul (Nat.pos_of_ne_zero h), Covered]
  constructor
  · intro hall
    have hbefore := hall (fs.firstDataBlock - 1)
    have hlast := hall (count - 1)
    omega
  · intro hfirst b _ _
    omega

theorem inodeGroup_iff {fs : SbInfo} {count : Nat} (h : fs.inodesPerGroup ≠ 0) :
    (∀ n, 1 ≤ n → n ≤ count → (n - 1) / fs.inodesPerGroup < fs.groupDescCount) ↔
    count ≤ fs.groupDescCount * fs.inodesPerGroup := by
  simp only [Nat.div_lt_iff_lt_mul (Nat.pos_of_ne_zero h)]
  constructor
  · intro hall
    have := hall count
    omega
  · intro hle n _ _
    omega

/-- The mount checks the block size and little else: what it does not check has to be right on the
device. -/
theorem ext2_mount_usable (low : Bool) (disk : Area) :
    let m := mounted disk
    (∀ ok, Meets (Usable m.superBlock) (ext2Mount low ok disk)) ↔
    (Supported m.superBlock → m.blocksPerGroup ≠ 0 ∧ (Grantable m.tableSize →
      m.gdBytes ≤ m.tableSize ∧ low = true ∧ m.inodesPerGroup ≠ 0 ∧
      sLogBlockSize m.superBlock ≤ 2 ∧
      m.blocksPerGroup ≤ 8 * m.blockSize ∧ m.inodesPerGroup ≤ 8 * m.blockSize ∧
      sInodesCount m.superBlock ≤ m.groupDescCount * m.inodesPerGroup ∧
      Covered (sBlocksCount m.superBlock) m.toSbInfo)) := by
  intro m
  rw [meets_ext2Mount]
  refine imp_congr_right fun hsup => and_congr_right fun hbpg => imp_congr_right fun hgrant =>
    and_congr_right fun hsize => and_congr_right fun _ => and_congr_right fun hipg => ?_
  obtain ⟨htable, hgroups⟩ := gdBytes_spec hsup
  have hgroups := hgroups (hgrant.1.trans_le (Nat.mod_le _ _))
  have hcover := fun h => blockGroup_iff hbpg (load32_lt _ _) (groups_cover hsup hgroups h)
  constructor
  · intro h
    exact ⟨(blockSize_iff hsup).mp h.log, h.blocks.2, h.inodes.2,
      (inodeGroup_iff hipg).mp h.inodeGroup, (hcover h.blocks.2).mp h.blockGroup⟩
  · rintro ⟨hlog, hb, hi, hic, hbc⟩
    exact ⟨supported_blockSize hsup, (blockSize_iff hsup).mpr hlog,
      ⟨Nat.pos_of_ne_zero hbpg, hb⟩, ⟨Nat.pos_of_ne_zero hipg, hi⟩, htable.trans hsize,
      (inodeGroup_iff hipg).mpr hic, (hcover hb).mpr hbc⟩

/-- A device with the given words in its super block. -/
def device (words : List (Nat × Nat)) : Area :=
  words.foldl (fun a w => store32 a (1024 + w.1) w.2) fun _ => 0

/-- No call fails, and the root is not in the cache. -/
def uncached (n : Nat) : Bool := n != 11

theorem Accepted.mount (h : Accepted disk m) (hipg : m.inodesPerGroup ≠ 0) :
    ext2Mount true uncached disk = some (.ok m) :=
  accepted_iff.mpr ⟨h, by decide, if_neg hipg⟩

/-- Groups of `65536` blocks, though a bitmap block has `8192` bits; and a mount of the same device
with the page at `0` not mapped. -/
theorem ext2_mount_wide_groups :
    let disk := device [(0, 16), (4, 64), (20, 1), (32, 65536), (40, 16), (56, 0xEF53)]
    ext2Mount true uncached disk = some (.ok (mounted disk)) ∧
    (mounted disk).blockSize = 1024 ∧ (mounted disk).blocksPerGroup = 65536 ∧
    ¬Meets (Usable (mounted disk).superBlock) (ext2Mount true uncached disk) ∧
    ext2Mount false uncached disk = none := by
  intro disk
  have ha : Accepted disk (mounted disk) := ⟨rfl, by decide, by decide, by decide, by decide⟩
  have hmount := ha.mount (by decide)
  refine ⟨hmount, by decide, by decide, ?_, ?_⟩
  · rw [hmount]
    exact fun h => absurd h.blocks.2 (by decide)
  · simp only [ext2Mount, ha.supported, ha.blocks, ha.grantable, not_lt.mpr ha.size]
    rfl

/-! ## Writing the metadata back -/

def ext2SyncMetadata (m : Mounted) (disk : Area) : Area :=
  let gdPerBlock := m.blockSize / 32
  let gdBlocks := (m.groupDescCount + gdPerBlock - 1) % 2 ^ 32 / gdPerBlock
  let disk := disk.copy (512 * ext2BlockToSector m.toSbInfo m.firstDataBlock) (512 * 2) m.superBlock
  disk.copy (512 * ext2BlockToSector m.toSbInfo ((m.firstDataBlock + 1) % 2 ^ 32))
    (512 * (gdBlocks * ((m.blockSize + 511) / 512))) m.table

/-- A later state: the counters of the super block and of the descriptors have any values. -/
structure Later (m m' : Mounted) : Prop where
  sbi : m'.toSbInfo = m.toSbInfo
  tableSize : m'.tableSize = m.tableSize
  superBlock (k : Nat) : k < 12 ∨ 20 ≤ k → m'.superBlock k = m.superBlock k
  table (k : Nat) : m.groupDescCount ≤ k / 32 ∨ k % 32 < 12 ∨ 16 ≤ k % 32 → m'.table k = m.table k

/-- A mount after the metadata was written gives the same state, and no byte has changed outside
the super block and the descriptor blocks. -/
def RoundTrip (low : Bool) (ok : Nat → Bool) (m : Mounted) (disk : Area) : Prop :=
  ext2Mount low ok (ext2SyncMetadata m disk) = some (.ok m) ∧
  ∀ k, k < 1024 ∨ 2048 ≤ k → k < m.gdStart ∨ m.gdStart + m.gdBytes ≤ k →
    ext2SyncMetadata m disk k = disk k

theorem Accepted.sizes (h : Accepted disk m) :
    (m.blockSize = 1024 ∨ m.blockSize = 2048 ∨ m.blockSize = 4096) ∧ m.gdBytes < 2 ^ 32 := by
  obtain ⟨rfl, hsup, -, -, hsize⟩ := h
  exact ⟨supported_blockSize hsup, hsize.trans_lt (Nat.mod_lt _ (by decide))⟩

theorem Accepted.sync_eq (h : Accepted disk m) (hm : m'.toSbInfo = m.toSbInfo) :
    ext2SyncMetadata m' d = (d.copy (m.firstDataBlock * m.blockSize) 1024 m'.superBlock).copy
      m.gdStart m.gdBytes m'.table := by
  obtain ⟨hbs, hsize⟩ := h.sizes
  have hsector : ∀ b, 512 * ext2BlockToSector m.toSbInfo b = b * m.blockSize := by
    intro b
    rw [ext2BlockToSector]
    rcases hbs with h | h | h <;> rw [h] <;> omega
  rw [ext2SyncMetadata, hm, hsector, hsector, SbInfo.gdStart]
  congr 1
  rw [SbInfo.gdBytes] at hsize ⊢
  rcases hbs with h | h | h <;> rw [h] at hsize ⊢ <;> omega

theorem first_get {a : Area} {n k : Nat} (h : k < n) : first a n k = a k := by
  rw [first, copy, if_pos (by omega), Nat.sub_zero]

theorem first_zero {a : Area} {n k : Nat} (h : n ≤ k) : first a n k = 0 := copy_outside (by omega)

theorem first_eq {a src : Area} {n : Nat} (h : ∀ k < n, a k = src k)
    (hzero : ∀ k, n ≤ k → src k = 0) : first a n = src := by
  funext k
  by_cases hk : k < n
  · rw [first_get hk, h k hk]
  · rw [first_zero (not_lt.mp hk), hzero k (not_lt.mp hk)]

theorem Later.load (h : Later m m') {off : Nat} (hoff : off + 4 ≤ 12 ∨ 20 ≤ off) :
    load32 m'.superBlock off = load32 m.superBlock off :=
  load32_congr fun j hj => h.superBlock _ (by omega)

theorem Later.sbInfo_eq (h : Later m m') : sbInfo m'.superBlock = sbInfo m.superBlock := by
  simp [sbInfo, sBlocksCount, sLogBlockSize, h.load]

theorem Later.supported (h : Later m m') (hsup : Supported m.superBlock) :
    Supported m'.superBlock := by
  have hmagic : load16 m'.superBlock 56 = load16 m.superBlock 56 :=
    load16_congr fun j hj => h.superBlock _ (by omega)
  simpa [Supported, h.sbInfo_eq, sLogBlockSize, h.load, hmagic] using hsup

theorem Later.remounted (hl : Later m m') (h : Accepted disk m)
    (hplace : m.firstDataBlock * m.blockSize = 1024) (hstart : m.gdStart = 2048) :
    mounted (ext2SyncMetadata m' d) = m' := by
  have hsync := h.sync_eq (d := d) hl.sbi
  rw [hplace, hstart] at hsync
  have hesb : first ((ext2SyncMetadata m' d).drop 1024) 1024 = m'.superBlock := by
    refine first_eq (fun k hk => ?_) fun k hk => ?_
    · rw [hsync, drop, copy_outside (by omega), copy_inside hk]
    · rw [hl.superBlock k (by omega), h.eq]
      exact first_zero hk
  have hsbi : sbInfo m'.superBlock = m.toSbInfo := by rw [hl.sbInfo_eq, h.eq]; rfl
  have htable : first ((ext2SyncMetadata m' d).drop 2048) m.gdBytes = m'.table := by
    refine first_eq (fun k hk => ?_) fun k hk => ?_
    · rw [hsync, drop, copy_inside hk]
    · have hle := (gdBytes_spec h.supported).1
      rw [← hl.sbInfo_eq, hsbi] at hle
      rw [hl.table k (by omega)]
      rw [h.eq] at hk ⊢
      exact first_zero hk
  have hsize : m'.tableSize = m.gdBytes % 2 ^ 32 := by rw [hl.tableSize, h.eq]; rfl
  simp only [mounted, hesb, hsbi, hstart, htable]
  rw [← hsize, ← hl.sbi]

theorem Later.succeed (hl : Later m m') (h : Succeed low ok m) : Succeed low ok m' := by
  refine ⟨h.calls, ?_⟩
  have hroot := h.root
  rw [igetRoot] at hroot ⊢
  rwa [hl.sbi]

theorem Later.roundTrip (hl : Later m m') (h : Accepted disk m) (hcalls : Succeed low ok m)
    (hplace : m.firstDataBlock * m.blockSize = 1024) : RoundTrip low ok m' d := by
  have hfirst : m.firstDataBlock = 1 ∧ m.blockSize = 1024 := by
    rcases h.sizes.1 with hbs | hbs | hbs <;> rw [hbs] at hplace ⊢ <;> omega
  have hstart : m.gdStart = 2048 := by simp [SbInfo.gdStart, hfirst]
  refine ⟨accepted_iff.mpr ⟨⟨(hl.remounted h hplace hstart).symm, hl.supported h.supported, ?_, ?_,
    ?_⟩, hl.succeed hcalls⟩, fun k hk hk' => ?_⟩
  · rw [hl.sbi]
    exact h.blocks
  · rw [hl.tableSize]
    exact h.grantable
  · rw [hl.sbi, hl.tableSize]
    exact h.size
  · rw [hl.sbi] at hk'
    rw [h.sync_eq hl.sbi, hplace, copy_outside hk', copy_outside hk]

theorem Accepted.table_get (h : Accepted disk m) {k : Nat} (hk : k < m.gdBytes) :
    m.table k = disk (m.gdStart + k) := by
  obtain ⟨rfl, -⟩ := h
  exact first_get hk

theorem Accepted.sync_keeps (h : Accepted disk m) (hm : m'.toSbInfo = m.toSbInfo)
    (htable : m'.table = m.table) (hplace : m.firstDataBlock * m.blockSize ≠ 1024) :
    ext2SyncMetadata m' disk 1036 = disk 1036 := by
  rw [h.sync_eq hm, htable]
  by_cases hin : m.gdStart ≤ 1036 ∧ 1036 < m.gdStart + m.gdBytes
  · -- the descriptors are those of the device
    rw [copy, if_pos hin, h.table_get (by omega), Nat.add_sub_cancel' hin.1]
  · rw [copy_outside (by omega), copy_outside]
    rcases h.sizes.1 with hbs | hbs | hbs <;> rw [hbs] at hplace ⊢ <;> omega

theorem Accepted.misses (h : Accepted disk m) (hplace : m.firstDataBlock * m.blockSize ≠ 1024) :
    ∃ m', Later m m' ∧ ¬RoundTrip low ok m' disk := by
  have hesb : ∀ d, (mounted d).superBlock 12 = d 1036 := fun d =>
    first_get (a := d.drop 1024) (by decide : 12 < 1024)
  refine ⟨{ m with superBlock := fun k => m.superBlock k + if k = 12 then 1 else 0 },
    ⟨rfl, rfl, fun k hk => ?_, fun _ _ => rfl⟩, fun hround => ?_⟩
  · simp [show k ≠ 12 by omega]
  · have heq := congrArg (fun m : Mounted => m.superBlock 12) (accepted_iff.mp hround.1).1.eq
    simp only [hesb] at heq
    have hsame := heq.trans (h.sync_keeps rfl rfl hplace)
    rw [← hesb disk, ← h.eq] at hsame
    simp at hsame

/-- `ext2_sync_metadata` writes the super block to the first data block, and `ext2_mount` reads it
at byte `1024`. -/
theorem ext2_sync_round_trip (h : ext2Mount low ok disk = some (.ok m)) :
    (∀ m' d, Later m m' → RoundTrip low ok m' d) ↔ m.firstDataBlock * m.blockSize = 1024 := by
  obtain ⟨ha, hcalls⟩ := accepted_iff.mp h
  constructor
  · intro hround
    by_contra hplace
    obtain ⟨m', hl, hno⟩ := ha.misses hplace
    exact hno (hround m' disk hl)
  · exact fun hplace m' d hl => hl.roundTrip ha hcalls hplace

theorem ext2_sync_round_trip_1024 :
    let disk := device [(0, 16), (4, 64), (20, 1), (32, 8192), (40, 16), (56, 0xEF53)]
    ext2Mount true uncached disk = some (.ok (mounted disk)) ∧
    ∀ m' d, Later (mounted disk) m' → RoundTrip true uncached m' d := by
  intro disk
  have ha : Accepted disk (mounted disk) := ⟨rfl, by decide, by decide, by decide, by decide⟩
  have hmount := ha.mount (by decide)
  exact ⟨hmount, (ext2_sync_round_trip hmount).mpr (by decide)⟩

/-- With blocks of `4096` bytes the super block is in block `0`, behind the boot record. -/
theorem ext2_sync_overwrites_boot :
    let disk := device [(0, 16), (4, 64), (24, 2), (28, 2), (32, 8192), (40, 16), (56, 0xEF53)]
    ext2Mount true uncached disk = some (.ok (mounted disk)) ∧
    ∃ m', Later (mounted disk) m' ∧ ¬RoundTrip true uncached m' disk := by
  intro disk
  have ha : Accepted disk (mounted disk) := ⟨rfl, by decide, by decide, by decide, by decide⟩
  exact ⟨ha.mount (by decide), ha.misses (by decide)⟩

end ShiziOS.Ext2
