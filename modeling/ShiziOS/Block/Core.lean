import ShiziOS.Block.Gpt
import ShiziOS.Lib.Runs

/-!
# The block layer

`kernel/block/core.c`: the list of whole disks and partitions, and the calls that hand sectors of
one of them on to its driver. Buffers go to the driver untouched and are left out, as are the
paths of the device nodes. A call records what the driver is asked for; the driver may answer
anything.
-/

namespace ShiziOS.Block

open Bytes Util Runs List Option Area

/-- `block_dev_info`; the device stands for its driver. -/
structure BlockDevInfo where
  dev : Nat
  sectorCount : BitVec 64
  startSector : BitVec 64
  devt : Nat

/-- `block_devt_to_info`. -/
abbrev Registry := List BlockDevInfo

/-- The arguments of `hdr->read` and `hdr->write`. -/
structure Request where
  write : Bool
  dev : Nat
  sector : BitVec 64
  sectorCount : BitVec 64

/-- What a call does: the requests to the driver, the returned number, and the file position. -/
structure Transfer where
  asked : List Request
  ret : BitVec 64
  pos : BitVec 64

def eNomem : Int := 12
def eNodev : Int := 19
def eInval : Int := 22
def eNospc : Int := 28

variable (driver : Request → BitVec 32)

/-! ## Calls -/

/-- `block_read` and `block_write`. The position is signed. -/
def blockTransfer (write : Bool) (info : BlockDevInfo) (count pos : BitVec 64) : Transfer :=
  if pos &&& 511 ≠ 0 ∨ count &&& 511 ≠ 0 then ⟨[], .ofInt 64 (-eInval), pos⟩
  else
    let sector := pos.sshiftRight 9
    let sectorCount := count >>> 9
    let request := ⟨write, info.dev, sector + info.startSector, sectorCount⟩
    let ret := driver request
    if ret = 0 then ⟨[request], count, pos + count⟩ else ⟨[request], ret.signExtend 64, pos⟩

def blockRead : BlockDevInfo → BitVec 64 → BitVec 64 → Transfer := blockTransfer driver false

def blockWrite : BlockDevInfo → BitVec 64 → BitVec 64 → Transfer := blockTransfer driver true

inductive Whence where
  | set
  | cur
  | end

/-- `block_llseek`; `none` for `-EINVAL`. -/
def blockLlseek (info : BlockDevInfo) (offset : BitVec 64) (whence : Whence) : Option (BitVec 64) :=
  let size := info.sectorCount * 512
  let check newPos := if newPos.slt 0 ∨ size.slt newPos then none else some newPos
  match whence with
  | .set => check offset
  | .end => check (size + offset)
  | .cur => none

/-- The entry of a device number; the first one counts. -/
def findDevt (r : Registry) (dev : Nat) : Option BlockDevInfo := r.find? fun info => info.devt = dev

/-- `block_open`: the entry that the file is for. -/
def blockOpen (r : Registry) (rdev : Nat) : Option BlockDevInfo := findDevt r rdev

/-- `block_read_sectors` and `block_write_sectors`; the position is no concern of theirs. -/
def blockSectors (write : Bool) (r : Registry) (dev : Nat) (sector count : BitVec 64) : Transfer :=
  match findDevt r dev with
  | none => ⟨[], .ofInt 64 (-eNodev), 0⟩
  | some info =>
    let request := ⟨write, info.dev, sector + info.startSector, count⟩
    ⟨[request], (driver request).signExtend 64, 0⟩

def blockReadSectors : Registry → Nat → BitVec 64 → BitVec 64 → Transfer :=
  blockSectors driver false

def blockWriteSectors : Registry → Nat → BitVec 64 → BitVec 64 → Transfer :=
  blockSectors driver true

/-! ## The list of devices -/

/-- The answers to the calls that make one entry: the device number, memory, and the device node. -/
structure Answers where
  minor : Option Nat
  alloc : Bool
  mknod : Int

/-- An entry is made, for a whole disk or a partition. If its node cannot be made it is taken out
of the list again. -/
def addInfo (answers : Answers) (dev : Nat) (startSector sectorCount : BitVec 64) (r : Registry) :
    Int × Registry :=
  match answers.minor with
  | none => (-eNospc, r)
  | some devt =>
    if answers.alloc = false then (-eNomem, r)
    else if answers.mknod < 0 then (answers.mknod, r)
    else (0, r ++ [⟨dev, sectorCount, startSector, devt⟩])

/-- The loop over the partitions, from record `i` on. A partition that fails is skipped. -/
def addPartitions (answers : Nat → Answers) (dev : Nat) : (records : List (List Byte)) → (i : Nat) →
    Registry → Registry
  | [], _, r => r
  | record :: records, i, r =>
    let pinfo : Area := fun k => record.getD k 0
    addPartitions answers dev records (i + 1)
      (addInfo (answers i) dev (BitVec.ofNat 64 (pinfo.load64 0))
        (BitVec.ofNat 64 (pinfo.load64 16)) r).2

/-- What the surroundings answer to `block_add_device`. -/
structure Surroundings where
  whole : Answers
  parts : Nat → Answers
  heap : Heap
  heaps : Heaps
  disk : Disk

/-- `block_add_device`; `none` would be an access out of bounds. -/
def blockAddDevice (env : Surroundings) (dev : Nat) (sectorCount : BitVec 64) (r : Registry) :
    Option (Int × Registry) :=
  let (ret, r) := addInfo env.whole dev 0 sectorCount r
  if ret < 0 then some (ret, r)
  else
    match dynarrCreate env.heap sizeofBlockPartitionInfo 0 with
    | none => some (0, r)
    | some partitions =>
      (gptParse env.disk env.heaps partitions).map fun (found, partitions) =>
        (0, if found.2 then addPartitions env.parts dev partitions.elements 0 r else r)

def blockRemoveDevice (dev : Nat) (r : Registry) : Int × Registry :=
  (if r.any fun info => info.dev = dev then 0 else -eNodev, r.filter fun info => info.dev ≠ dev)

inductive Change where
  | add (env : Surroundings) (dev : Nat) (sectorCount : BitVec 64)
  | remove (dev : Nat)

def change (r : Registry) : Change → Option Registry
  | .add env dev sectorCount => (blockAddDevice env dev sectorCount r).map Prod.snd
  | .remove dev => some (blockRemoveDevice dev r).2

/-! ## Ranges -/

/-- The sectors of an entry are 64-bit numbers. -/
def BlockDevInfo.Proper (info : BlockDevInfo) : Prop :=
  info.startSector.toNat + info.sectorCount.toNat ≤ 2 ^ 64

theorem mem_addInfo {answers : Answers} {dev : Nat} {startSector sectorCount : BitVec 64}
    {r : Registry}
    {info : BlockDevInfo} (h : info ∈ (addInfo answers dev startSector sectorCount r).2) :
    info ∈ r ∨ info.startSector = startSector ∧ info.sectorCount = sectorCount := by
  unfold addInfo at h
  split at h
  · exact .inl h
  · split_ifs at h
    · exact .inl h
    · exact .inl h
    · rcases mem_append.mp h with hold | hnew
      · exact .inl hold
      · obtain rfl := mem_singleton.mp hnew
        exact .inr ⟨rfl, rfl⟩

theorem record_area (p : BlockPartitionInfo) (hstart : p.startLba < 2 ^ 64)
    (hsize : p.size < 2 ^ 64) : p.area.load64 0 = p.startLba ∧ p.area.load64 16 = p.size := by
  constructor
  · rw [BlockPartitionInfo.area, load64_copy_outside (by decide),
      load64_store64_outside (by decide),
      load64_copy_outside (by decide), load64_copy_outside (by decide),
      load64_store64_outside (by decide), load64_store64_outside (by decide),
        load64_store64 hstart]
  · rw [BlockPartitionInfo.area, load64_copy_outside (by decide),
      load64_store64_outside (by decide),
      load64_copy_outside (by decide), load64_copy_outside (by decide),
        load64_store64 hsize]

/-- The bytes of a record, as `block_add_device` finds them in the array. -/
def RecordBytes (record : List Byte) : Prop :=
  ∃ header table, ∃ p ∈ recordsOf header table, record = bytesOf sizeofBlockPartitionInfo p.area

theorem RecordBytes.range {record : List Byte} (h : RecordBytes record) {pinfo : Area}
    (hpinfo : pinfo = fun k => record.getD k 0) : pinfo.load64 0 + pinfo.load64 16 ≤ 2 ^ 64 := by
  obtain ⟨header, table, p, hp, rfl⟩ := h
  obtain ⟨hstart, hsize, hrange⟩ := record_range hp
  have hload : ∀ off, off + 8 ≤ 136 → pinfo.load64 off = p.area.load64 off := by
    intro off hoff
    refine load64_congr fun j hj => ?_
    have hk : off + j < 136 := by omega
    simp [hpinfo, bytesOf, sizeofBlockPartitionInfo, getElem?_range hk]
  obtain ⟨hstart', hsize'⟩ := record_area p (by omega) (by omega)
  rw [hload 0 (by decide), hload 16 (by decide), hstart', hsize']
  exact hrange

variable {r r' : Registry} {info : BlockDevInfo}

theorem addPartitions_proper {answers : Nat → Answers} {dev : Nat} {records : List (List Byte)}
    {i : Nat} (hrecords : ∀ record ∈ records, RecordBytes record) (h : ∀ info ∈ r, info.Proper) :
    ∀ info ∈ addPartitions answers dev records i r, info.Proper := by
  induction records generalizing i r with
  | nil => exact h
  | cons record records ih =>
    refine ih (fun other hother => hrecords other (mem_cons_of_mem record hother)) ?_
    intro info hinfo
    rcases mem_addInfo hinfo with hold | ⟨hstart, hcount⟩
    · exact h info hold
    · have hrange := (hrecords record mem_cons_self).range rfl
      rw [BlockDevInfo.Proper, hstart, hcount, BitVec.toNat_ofNat, BitVec.toNat_ofNat,
        Nat.mod_eq_of_lt (load64_lt _ 0), Nat.mod_eq_of_lt (load64_lt _ 16)]
      exact hrange

theorem addInfo_whole_proper {answers : Answers} {dev : Nat} {sectorCount : BitVec 64}
    (h : ∀ info ∈ r, info.Proper) :
    ∀ info ∈ (addInfo answers dev 0 sectorCount r).2, info.Proper := by
  intro info hinfo
  rcases mem_addInfo hinfo with hold | ⟨hstart, -⟩
  · exact h info hold
  · have hlt := info.sectorCount.isLt
    rw [BlockDevInfo.Proper, hstart]
    simp only [BitVec.ofNat_eq_ofNat, BitVec.toNat_ofNat, Nat.zero_mod, Nat.zero_add]
    omega

theorem change_proper {c : Change} (h : ∀ info ∈ r, info.Proper) (hc : change r c = some r') :
    ∀ info ∈ r', info.Proper := by
  cases c with
  | remove dev =>
    cases hc
    exact fun info hinfo => h info (mem_of_mem_filter hinfo)
  | add env dev sectorCount =>
    have hwhole : ∀ info ∈ (addInfo env.whole dev 0 sectorCount r).2, info.Proper :=
      addInfo_whole_proper h
    simp only [change, blockAddDevice] at hc
    split_ifs at hc
    · cases hc
      exact hwhole
    · cases hcreate : dynarrCreate env.heap sizeofBlockPartitionInfo 0 with
      | none =>
        rw [hcreate] at hc
        cases hc
        exact hwhole
      | some partitions =>
        rw [hcreate] at hc
        obtain ⟨hwf, hes, hcount, -⟩ := dynarrCreate_spec hcreate (by decide)
        obtain ⟨found, partitions', hparse, hspec⟩ :=
          gptParse_spec env.disk env.heaps hwf hes hcount
        simp only [hparse, map_some] at hc
        cases hc
        split_ifs with hfound
        · obtain ⟨sector, -, -, -, -, helements⟩ := hspec hfound
          refine addPartitions_proper ?_ hwhole
          intro record hrecord
          rw [helements] at hrecord
          obtain ⟨p, hp, rfl⟩ := mem_map.mp hrecord
          exact ⟨_, _, p, hp, rfl⟩
        · exact hwhole

/-- The range of every whole disk and every partition that is registered lies in the 64-bit
numbers. -/
theorem registered_proper (h : Reach change Any [] r) : ∀ info ∈ r, info.Proper :=
  h.invariant (by simp) fun _ _ _ hr _ hc => change_proper hr hc

/-! ## Isolation -/

/-- A call for a device: through an open file, with a byte count and a position, or by sectors. -/
inductive Call where
  | file (write : Bool) (count pos : BitVec 64)
  | sectors (write : Bool) (sector count : BitVec 64)

def Call.first : Call → Nat
  | .file _ _ pos => (pos.sshiftRight 9).toNat
  | .sectors _ sector _ => sector.toNat

def Call.number : Call → Nat
  | .file _ count _ => (count >>> 9).toNat
  | .sectors _ _ count => count.toNat

/-- A call through a file has to be for whole sectors. -/
def Call.aligned : Call → Bool
  | .file _ count pos => pos &&& 511 = 0 ∧ count &&& 511 = 0
  | .sectors .. => true

/-- The call, after the file has been opened if it is one. -/
def call (r : Registry) (dev : Nat) : Call → Transfer
  | .file write count pos =>
    match blockOpen r dev with
    | none => ⟨[], .ofInt 64 (-eNodev), pos⟩
    | some info =>
      if write then blockWrite driver info count pos else blockRead driver info count pos
  | .sectors write sector count =>
    if write then blockWriteSectors driver r dev sector count
      else blockReadSectors driver r dev sector count

/-- The driver is asked for sectors of the device only, and a call that reaches outside fails
without asking it. -/
def Isolated (info : BlockDevInfo) (c : Call) (t : Transfer) : Prop :=
  (∀ q ∈ t.asked, ∀ i < q.sectorCount.toNat, info.startSector.toNat ≤ q.sector.toNat + i ∧
    q.sector.toNat + i < info.startSector.toNat + info.sectorCount.toNat) ∧
  (0 < c.number → info.sectorCount.toNat < c.first + c.number → t.asked = [] ∧ t.ret.slt 0 = true)

theorem inside_iff (h : info.Proper) {sector n : BitVec 64} :
    (∀ i < n.toNat, info.startSector.toNat ≤ (sector + info.startSector).toNat + i ∧
      (sector + info.startSector).toNat + i < info.startSector.toNat + info.sectorCount.toNat) ↔
      n.toNat = 0 ∨ sector.toNat + n.toNat ≤ info.sectorCount.toNat := by
  have hstart := info.startSector.isLt
  have hsector := sector.isLt
  rw [BlockDevInfo.Proper] at h
  rw [BitVec.toNat_add]
  constructor
  · intro hall
    by_contra hnot
    rw [not_or, Nat.not_le] at hnot
    have hlast := hall (n.toNat - 1) (by omega)
    have hfirst := hall 0 (by omega)
    omega
  · intro hin i hi
    omega

theorem isolated_of_asked (h : info.Proper) {c : Call} {t : Transfer} {q : Request}
    {sector : BitVec 64} (hasked : t.asked = [q]) (hsector : q.sector = sector + info.startSector)
    (hfirst : c.first = sector.toNat) (hnumber : c.number = q.sectorCount.toNat) :
    Isolated info c t ↔ c.number = 0 ∨ c.first + c.number ≤ info.sectorCount.toNat := by
  rw [Isolated, hasked, forall_mem_singleton, hsector, inside_iff h, hfirst, hnumber]
  constructor
  · exact And.left
  · intro hin
    refine ⟨hin, fun hpos hout => ?_⟩
    omega

theorem isolated_of_rejected {c : Call} {t : Transfer} (hasked : t.asked = [])
    (hret : t.ret.slt 0 = true) : Isolated info c t := by
  refine ⟨?_, fun _ _ => ⟨hasked, hret⟩⟩
  rw [hasked]
  exact forall_mem_nil _

theorem blockTransfer_isolated_iff (h : info.Proper) (write : Bool) (count pos : BitVec 64) :
    Isolated info (.file write count pos) (blockTransfer driver write info count pos) ↔
      (Call.file write count pos).aligned = false ∨ (Call.file write count pos).number = 0 ∨
        (Call.file write count pos).first + (Call.file write count pos).number ≤
          info.sectorCount.toNat := by
  unfold blockTransfer
  split_ifs with halign
  · have hfalse : (Call.file write count pos).aligned = false := by
      simp only [Call.aligned, decide_eq_false_iff_not]
      tauto
    simp only [hfalse, true_or, iff_true]
    have hret : (BitVec.ofInt 64 (-eInval)).slt 0 = true := by decide
    exact isolated_of_rejected rfl hret
  · have htrue : (Call.file write count pos).aligned = true := by
      simp only [Call.aligned, decide_eq_true_eq]
      tauto
    rw [htrue]
    simp only [Bool.true_eq_false, false_or]
    split_ifs
    · exact isolated_of_asked h rfl rfl rfl rfl
    · exact isolated_of_asked h rfl rfl rfl rfl

theorem blockSectors_isolated_iff (h : info.Proper) {dev : Nat} (hfind : findDevt r dev = some info)
    (write : Bool) (sector count : BitVec 64) :
    Isolated info (.sectors write sector count) (blockSectors driver write r dev sector count) ↔
      count.toNat = 0 ∨ sector.toNat + count.toNat ≤ info.sectorCount.toNat := by
  unfold blockSectors
  rw [hfind]
  exact isolated_of_asked h rfl rfl rfl rfl

/-- Nothing keeps a call inside its disk or partition: exactly those calls are isolated that are
not for whole sectors, that are empty, or that stay inside by themselves. -/
theorem block_isolated_iff (hr : Reach change Any [] r) {dev : Nat}
    (hfind : findDevt r dev = some info) (c : Call) :
    Isolated info c (call driver r dev c) ↔
      c.aligned = false ∨ c.number = 0 ∨ c.first + c.number ≤ info.sectorCount.toNat := by
  have h : info.Proper := registered_proper hr info (mem_of_find?_eq_some hfind)
  cases c with
  | file write count pos =>
    simp only [call, blockOpen, hfind]
    cases write
    · exact blockTransfer_isolated_iff driver h false count pos
    · exact blockTransfer_isolated_iff driver h true count pos
  | sectors write sector count =>
    simp only [call, Call.aligned, Call.number, Call.first, Bool.true_eq_false, false_or]
    cases write
    · exact blockSectors_isolated_iff driver h hfind false sector count
    · exact blockSectors_isolated_iff driver h hfind true sector count

/-- A disk without a partition table. -/
def blankDisk : Surroundings where
  whole := ⟨some 1, true, 0⟩
  parts _ := ⟨none, true, 0⟩
  heap _ := some 4096
  heaps := ⟨fun _ => none, fun _ _ _ => none, fun _ _ => none⟩
  disk _ := none

/-- Eight sectors, device number `1`. -/
def eightSectors : BlockDevInfo := ⟨7, 8, 0, 1⟩

theorem reach_eightSectors : Reach change Any [] [eightSectors] :=
  .single (a := .add blankDisk 7 8) trivial rfl

/-- A read of the last sector. -/
theorem block_isolated_iff_last : Isolated eightSectors (.file false 512 3584)
    (call (fun _ => 0) [eightSectors] 1 (.file false 512 3584)) :=
  (block_isolated_iff (fun _ => 0) reach_eightSectors rfl _).mpr (.inr (.inr (by decide)))

/-- A write of the sector after the last one, and a read at a negative position, reach the driver
and succeed. -/
theorem block_outside : Reach change Any [] [eightSectors] ∧
    call (fun _ => 0) [eightSectors] 1 (.file true 512 4096) = ⟨[⟨true, 7, 8, 1⟩], 512, 4608⟩ ∧
    call (fun _ => 0) [eightSectors] 1 (.file false 512 (-512)) = ⟨[⟨false, 7, -1, 1⟩], 512, 0⟩ ∧
    ¬ Isolated eightSectors (.file true 512 4096)
      (call (fun _ => 0) [eightSectors] 1 (.file true 512 4096)) := by
  refine ⟨reach_eightSectors, rfl, rfl, fun hisolated => ?_⟩
  have hnone := (hisolated.2 (by decide) (by decide)).1
  cases hnone

end ShiziOS.Block
