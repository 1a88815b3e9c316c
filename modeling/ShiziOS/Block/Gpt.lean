import ShiziOS.Util.Crc32
import ShiziOS.Util.Dynarr

/-!
# GPT partition tables

`kernel/block/gpt.c`. A table is accepted if its header and its entries have the checksums that
the header gives for them; the entries in use are then listed in the order of the table. The
number of entries and their size come from the disk, but no product of them wraps.
-/

namespace ShiziOS.Block

open Bytes Exec Util List Area

/-! ## The formats -/

/-- `block_read_sectors` for one sector; `none` for an error. -/
abbrev Disk := Nat → Option Area

/-- `gpt_header_t`, as far as it is read. -/
structure GptHeader where
  signature : List Byte
  revision : Nat
  headerSize : Nat
  headerCrc32 : Nat
  currentLba : Nat
  partitionEntryLba : Nat
  partitionEntryCount : Nat
  partitionEntrySize : Nat
  partitionTableCrc32 : Nat

def sizeofGptHeader : Nat := 92

def gptHeader (buf : Area) : GptHeader where
  signature := bytesOf 8 buf
  revision := buf.load32 8
  headerSize := buf.load32 12
  headerCrc32 := buf.load32 16
  currentLba := buf.load64 24
  partitionEntryLba := buf.load64 72
  partitionEntryCount := buf.load32 80
  partitionEntrySize := buf.load32 84
  partitionTableCrc32 := buf.load32 88

/-- `EFI PART`. -/
def gptSignature : List Byte := [0x45, 0x46, 0x49, 0x20, 0x50, 0x41, 0x52, 0x54]

/-- `gpt_entry_t`. -/
structure GptEntry where
  partitionTypeGuid : List Byte
  uniqueGuid : List Byte
  startingLba : Nat
  endingLba : Nat
  attributes : Nat
  partitionName : List Byte

def sizeofGptEntry : Nat := 128

def gptEntry (buf : Area) : GptEntry where
  partitionTypeGuid := bytesOf 16 buf
  uniqueGuid := bytesOf 16 (buf.drop 16)
  startingLba := buf.load64 32
  endingLba := buf.load64 40
  attributes := buf.load64 48
  partitionName := bytesOf 72 (buf.drop 56)

structure BlockPartitionInfo where
  startLba : Nat
  endLba : Nat
  size : Nat
  typeGuid : List Byte
  partGuid : List Byte
  attributes : Nat
  name : List Byte

def sizeofBlockPartitionInfo : Nat := 136

/-- The record in memory. -/
def BlockPartitionInfo.area (info : BlockPartitionInfo) : Area :=
  let a : Area := fun _ => 0
  let a := ((a.store64 0 info.startLba).store64 8 info.endLba).store64 16 info.size
  let a := (a.copy 24 16 fun k => info.typeGuid.getD k 0).copy 40 16 fun k => info.partGuid.getD k 0
  (a.store64 56 info.attributes).copy 64 72 fun k => info.name.getD k 0

/-! ## The functions -/

def gptCheckProtectiveMbr (disk : Disk) : Bool :=
  match disk 0 with
  | none => false
  | some mbr => if mbr.load16 0x1FE ≠ 0xAA55 then false else mbr (0x1BE + 4) == 0xEE

def gptCheckHeader (disk : Disk) : Option GptHeader :=
  match disk 1 with
  | none => none
  | some buf =>
    let header := gptHeader buf
    if header.signature ≠ gptSignature then none
    else if header.revision ≠ 0x00010000 then none
    else if header.headerSize < sizeofGptHeader ∨ 512 < header.headerSize then none
    else if header.currentLba ≠ 1 then none
    else if header.partitionEntryLba ≤ 1 then none
    else if header.partitionEntryCount = 0 then none
    else if header.partitionEntrySize < sizeofGptEntry then none
    else
      let buf := buf.copy 16 4 fun _ => 0
      if (crc32 0 (bytesOf header.headerSize buf)).toNat ≠ header.headerCrc32 then none
        else some header

/-- The table's size in bytes, as it is computed. -/
def GptHeader.totalSize (h : GptHeader) : Nat :=
  h.partitionEntryCount * h.partitionEntrySize % 2 ^ 64

def GptHeader.sectors (h : GptHeader) : Nat := (h.totalSize + 511) % 2 ^ 64 / 512

def GptHeader.offset (h : GptHeader) (i : Nat) : Nat := i * h.partitionEntrySize % 2 ^ 64

/-- The loop that appends the bytes of a sector from `j` on, `n` of them; `heaps` has the answers
of the heap, one for each byte. -/
def appendBytes (heaps : Nat → Heap) (sector : Area) : (n j : Nat) → D Bool
  | 0, _ => pure true
  | n + 1, j => do
    if ← dynarrAppend (heaps j) (some fun _ => sector j) then appendBytes heaps sector n (j + 1)
    else pure false

/-- The loop over the sectors of the table from `i` on, `n` of them. -/
def readTable (disk : Disk) (heaps : Nat → Nat → Heap) (lba : Nat) : (n i : Nat) → D Bool
  | 0, _ => pure true
  | n + 1, i =>
    match disk ((lba + i) % 2 ^ 64) with
    | none => pure false
    | some sector => do
      if ← appendBytes (heaps i) sector 512 0 then readTable disk heaps lba n (i + 1)
        else pure false

def gptCheckPartitionTable (disk : Disk) (heaps : Nat → Nat → Heap) (header : GptHeader) : D Bool :=
  do
  if header.totalSize = 0 then pure false
  else if ← readTable disk heaps header.partitionEntryLba header.sectors 0 then
    let raw ← get
    pure ((crc32 0 (bytesOf header.totalSize raw.arr.bytes)).toNat == header.partitionTableCrc32)
  else pure false

/-- The record that is made of an entry. -/
def partitionInfo (entry : GptEntry) : BlockPartitionInfo where
  startLba := entry.startingLba
  endLba := entry.endingLba
  size := (entry.endingLba + 2 ^ 64 - entry.startingLba + 1) % 2 ^ 64
  typeGuid := entry.partitionTypeGuid
  partGuid := entry.uniqueGuid
  attributes := entry.attributes
  name := entry.partitionName

/-- The loop of `gpt_extract_partitions` from entry `i` on, `n` of them. -/
def extractLoop (heaps : Nat → Heap) (header : GptHeader) (raw : Area) : (n i : Nat) → D Bool
  | 0, _ => pure true
  | n + 1, i =>
    let entry := gptEntry (raw.drop (header.offset i))
    if entry.startingLba = 0 then extractLoop heaps header raw n (i + 1)
    else if entry.endingLba < entry.startingLba then extractLoop heaps header raw n (i + 1)
    else do
      if ← dynarrAppend (heaps i) (some (partitionInfo entry).area) then
        extractLoop heaps header raw n (i + 1)
      else pure false

def gptExtractPartitions (heaps : Nat → Heap) (header : GptHeader) (raw : Area) : D Bool :=
  extractLoop heaps header raw header.partitionEntryCount 0

/-- The answers of the heap during a call: for the array of bytes, for the bytes of each sector,
and for the record of each entry. -/
structure Heaps where
  create : Heap
  bytes : Nat → Nat → Heap
  records : Nat → Heap

/-- `gpt_parse`: whether a protective MBR is reported, and the result. -/
def gptParse (disk : Disk) (heaps : Heaps) : D (Bool × Bool) := do
  let protective := gptCheckProtectiveMbr disk
  match gptCheckHeader disk with
  | none => pure (protective, false)
  | some header =>
    match dynarrCreate heaps.create 1 0 with
    | none => pure (protective, false)
    | some raw => do
      let r ← ofOption (gptCheckPartitionTable disk heaps.bytes header raw)
      if r.1 then do
        let ok ← gptExtractPartitions heaps.records header r.2.arr.bytes
        pure (protective, ok)
      else pure (protective, false)

/-! ## What is on the disk -/

/-- A header that passes all checks. -/
structure HeaderOk (sector : Area) : Prop where
  signature : (gptHeader sector).signature = gptSignature
  revision : (gptHeader sector).revision = 0x00010000
  headerSize : sizeofGptHeader ≤ (gptHeader sector).headerSize ∧ (gptHeader sector).headerSize ≤ 512
  currentLba : (gptHeader sector).currentLba = 1
  entryLba : 1 < (gptHeader sector).partitionEntryLba
  entryCount : (gptHeader sector).partitionEntryCount ≠ 0
  entrySize : sizeofGptEntry ≤ (gptHeader sector).partitionEntrySize
  crc : (crc32 0 (bytesOf (gptHeader sector).headerSize (sector.copy 16 4 fun _ => 0))).toNat =
    (gptHeader sector).headerCrc32

def tableOnDisk (disk : Disk) (lba : Nat) : Area := fun k =>
  match disk ((lba + k / 512) % 2 ^ 64) with
  | none => 0
  | some sector => sector (k % 512)

def GptEntry.Used (e : GptEntry) : Prop := e.startingLba ≠ 0 ∧ e.startingLba ≤ e.endingLba

instance (e : GptEntry) : Decidable e.Used := inferInstanceAs (Decidable (_ ∧ _))

def recordOf (e : GptEntry) : BlockPartitionInfo where
  startLba := e.startingLba
  endLba := e.endingLba
  size := e.endingLba - e.startingLba + 1
  typeGuid := e.partitionTypeGuid
  partGuid := e.uniqueGuid
  attributes := e.attributes
  name := e.partitionName

/-- The records of the entries in use, in the order of the table. -/
def recordsOf (header : GptHeader) (table : Area) : List BlockPartitionInfo :=
  (((List.range header.partitionEntryCount).map fun i =>
    gptEntry (table.drop (i * header.partitionEntrySize))).filter fun e => e.Used).map recordOf

/-! ## Numbers do not wrap -/

variable {disk : Disk} {sector : Area}

/-- Whatever the header says, the sizes are those of the table, and an entry that is read lies
inside of it. -/
theorem sizes_exact (sector : Area) :
    (gptHeader sector).totalSize =
      (gptHeader sector).partitionEntryCount * (gptHeader sector).partitionEntrySize ∧
    (gptHeader sector).sectors = ((gptHeader sector).totalSize + 511) / 512 ∧
    ∀ i, i < (gptHeader sector).partitionEntryCount →
      (gptHeader sector).offset i = i * (gptHeader sector).partitionEntrySize ∧
      (sizeofGptEntry ≤ (gptHeader sector).partitionEntrySize →
        (gptHeader sector).offset i + sizeofGptEntry ≤ (gptHeader sector).totalSize) := by
  have hcount : (gptHeader sector).partitionEntryCount < 2 ^ 32 := load32_lt sector 80
  have hsize : (gptHeader sector).partitionEntrySize < 2 ^ 32 := load32_lt sector 84
  generalize gptHeader sector = h at hcount hsize ⊢
  have hmul : h.partitionEntryCount * h.partitionEntrySize ≤ (2 ^ 32 - 1) * (2 ^ 32 - 1) :=
    Nat.mul_le_mul (by omega) (by omega)
  have htotal : h.totalSize = h.partitionEntryCount * h.partitionEntrySize :=
    Nat.mod_eq_of_lt (by omega)
  refine ⟨htotal, ?_, ?_⟩
  · rw [GptHeader.sectors, htotal, Nat.mod_eq_of_lt (by omega)]
  · intro i hi
    have hle : (i + 1) * h.partitionEntrySize ≤ h.partitionEntryCount * h.partitionEntrySize :=
      Nat.mul_le_mul_right _ hi
    rw [Nat.succ_mul] at hle
    have hoff : h.offset i = i * h.partitionEntrySize := Nat.mod_eq_of_lt (by omega)
    refine ⟨hoff, ?_⟩
    intro hentry
    omega

theorem partitionInfo_eq {e : GptEntry} (h : e.Used) (hend : e.endingLba < 2 ^ 64) :
    partitionInfo e = recordOf e := by
  obtain ⟨hzero, hle⟩ := h
  rw [partitionInfo, recordOf]
  congr 1
  omega

theorem gptCheckHeader_eq_some {header : GptHeader} (h : gptCheckHeader disk = some header) :
    ∃ sector, disk 1 = some sector ∧ header = gptHeader sector ∧ HeaderOk sector := by
  rw [gptCheckHeader] at h
  cases hread : disk 1 with
  | none =>
    rw [hread] at h
    cases h
  | some sector =>
    rw [hread] at h
    dsimp only at h
    split_ifs at h with h1 h2 h3 h4 h5 h6 h7 h8
    cases h
    rw [not_or, Nat.not_lt, Nat.not_lt] at h3
    exact ⟨sector, rfl, rfl, not_not.mp h1, not_not.mp h2, h3, not_not.mp h4, Nat.not_le.mp h5, h6,
      Nat.not_lt.mp h7,
      not_not.mp h8⟩

/-! ## The table in memory -/

variable {d : Dynarr}

theorem appendBytes_spec (heaps : Nat → Heap) (sector : Area) (n j : Nat) (h : d.Wf)
    (hes : d.elementSize = 1) :
    Total (appendBytes heaps sector n j) d fun ok d' => d'.Wf ∧ d'.elementSize = 1 ∧
      (ok = true → d'.elements = d.elements ++ (List.range' j n).map fun k => [sector k]) := by
  induction n generalizing d j with
  | zero => exact total_pure ⟨h, hes, fun _ => (append_nil _).symm⟩
  | succ n ih =>
    refine (dynarrAppend_spec h fun _ => sector j).bind ?_
    intro ok d1 hok
    cases ok with
    | false =>
      obtain rfl : d1 = d := hok
      exact total_pure ⟨h, hes, by simp⟩
    | true =>
      obtain ⟨hwf, hes1, -, helements⟩ := hok
      refine (ih (j + 1) hwf (hes1.trans hes)).mono ?_
      rintro ok d' ⟨hwf', hes', hspec⟩
      refine ⟨hwf', hes', fun hok => ?_⟩
      rw [hspec hok, helements, hes, range'_succ, map_cons, append_assoc]
      rfl

theorem sector_bytes {lba i : Nat} (hread : disk ((lba + i) % 2 ^ 64) = some sector) :
    ((List.range' 0 512).map fun k => [sector k]) =
      (List.range' (512 * i) 512).map fun k => [tableOnDisk disk lba k] := by
  rw [← range_eq_range', range'_eq_map_range, map_map]
  apply map_congr_left
  intro k hk
  have hk := mem_range.mp hk
  show _ = [tableOnDisk disk lba (512 * i + k)]
  rw [tableOnDisk, show (512 * i + k) / 512 =
    i by omega, show (512 * i + k) % 512 = k by omega, hread]

theorem readTable_spec (disk : Disk) (heaps : Nat → Nat → Heap) (lba n i : Nat) (h : d.Wf)
    (hes : d.elementSize = 1) :
    Total (readTable disk heaps lba n i) d fun ok d' => d'.Wf ∧ d'.elementSize = 1 ∧ (ok = true →
      (∀ k, i ≤ k → k < i + n → disk ((lba + k) % 2 ^ 64) ≠ none) ∧
      d'.elements = d.elements ++ (List.range' (512 * i) (512 * n)).map fun k =>
        [tableOnDisk disk lba k]) := by
  induction n generalizing d i with
  | zero => exact total_pure ⟨h, hes, fun _ => ⟨fun k _ _ => by omega, (append_nil _).symm⟩⟩
  | succ n ih =>
    rw [readTable]
    cases hread : disk ((lba + i) % 2 ^ 64) with
    | none => exact total_pure ⟨h, hes, by simp⟩
    | some sector =>
      refine (appendBytes_spec (heaps i) sector 512 0 h hes).bind ?_
      rintro ok d1 ⟨hwf, hes1, hbytes⟩
      cases ok with
      | false => exact total_pure ⟨hwf, hes1, by simp⟩
      | true =>
        refine (ih (i + 1) hwf hes1).mono ?_
        rintro ok d' ⟨hwf', hes', hspec⟩
        refine ⟨hwf', hes', fun hok => ?_⟩
        obtain ⟨hreads, helements⟩ := hspec hok
        constructor
        · intro k hge hlt
          by_cases hk : k = i
          · rw [hk, hread]
            exact Option.some_ne_none sector
          · exact hreads k (by omega) (by omega)
        · rw [helements, hbytes rfl, sector_bytes hread, append_assoc, ← map_append,
            show 512 * (i + 1) = 512 * i + 512 by omega, range'_append_1,
            show 512 + 512 * n = 512 * (n + 1) by omega]

theorem bytes_of_elements (hes : d.elementSize = 1) {t : Area} {n : Nat}
    (h : d.elements = (List.range' 0 n).map fun k => [t k]) {k : Nat} (hk : k < n) :
    d.arr.bytes k = t k := by
  rw [← range_eq_range'] at h
  have hcount : d.currentCount = n := by
    rw [← d.elements_length, h, length_map, length_range]
  have hget := d.elements_getElem? k
  rw [h, hcount, if_pos hk, getElem?_map, getElem?_range hk, Dynarr.slot, hes, Nat.mul_one] at hget
  have hlist : [t k] = [d.arr.bytes k] := Option.some.inj hget
  exact (head_eq_of_cons_eq hlist).symm

theorem gptCheckPartitionTable_spec (disk : Disk) (heaps : Nat → Nat → Heap) (sector : Area)
    (h : d.Wf) (hes : d.elementSize = 1) (hempty : d.currentCount = 0) :
    Total (gptCheckPartitionTable disk heaps (gptHeader sector)) d fun ok d' => ok = true →
      (∀ k, k < (gptHeader sector).sectors →
        disk (((gptHeader sector).partitionEntryLba + k) % 2 ^ 64) ≠ none) ∧
      (crc32 0 (bytesOf (gptHeader sector).totalSize
        (tableOnDisk disk (gptHeader sector).partitionEntryLba))).toNat =
        (gptHeader sector).partitionTableCrc32 ∧
      ∀ k, k < (gptHeader sector).totalSize →
        d'.arr.bytes k = tableOnDisk disk (gptHeader sector).partitionEntryLba k := by
  obtain ⟨-, hsectors, -⟩ := sizes_exact sector
  generalize gptHeader sector = header at hsectors ⊢
  rw [gptCheckPartitionTable]
  split_ifs
  · exact total_pure (by simp)
  · refine (readTable_spec disk heaps header.partitionEntryLba header.sectors 0 h hes).bind ?_
    rintro ok d' ⟨-, hes', hspec⟩
    cases ok with
    | false => exact total_pure (by simp)
    | true =>
      obtain ⟨hreads, helements⟩ := hspec rfl
      rw [Dynarr.elements_eq_nil hempty, nil_append, Nat.mul_zero] at helements
      have hbytes : ∀ k, k < header.totalSize → d'.arr.bytes k =
          tableOnDisk disk header.partitionEntryLba k :=
        fun k hk => bytes_of_elements hes' helements (by omega)
      apply total_get
      apply total_pure
      intro hcrc
      rw [beq_iff_eq, bytesOf_congr hbytes] at hcrc
      exact ⟨fun k hk => hreads k (Nat.zero_le k) (by omega), hcrc, hbytes⟩

/-! ## The records -/

theorem gptEntry_congr {a b : Area} (h : ∀ k, k < sizeofGptEntry → a k = b k) :
    gptEntry a = gptEntry b := by
  have h : ∀ k, k < 128 → a k = b k := h
  have hload : ∀ off, off + 8 ≤ 128 → a.load64 off = b.load64 off :=
    fun off hoff => load64_congr fun j hj => h _ (by omega)
  have hbytes : ∀ off n, off + n ≤ 128 → bytesOf n (a.drop off) = bytesOf n (b.drop off) :=
    fun off n hoff => bytesOf_congr fun k hk => h _ (by omega)
  rw [gptEntry, gptEntry, bytesOf_congr fun k hk => h k (by omega), hbytes 16 16 (by decide),
    hload 32 (by decide),
    hload 40 (by decide), hload 48 (by decide), hbytes 56 72 (by decide)]

theorem extractLoop_spec (heaps : Nat → Heap) (header : GptHeader) (raw : Area) (n i : Nat)
    (h : d.Wf) (hes : d.elementSize = sizeofBlockPartitionInfo) :
    Total (extractLoop heaps header raw n i) d fun ok d' => ok = true →
      d'.elements = d.elements ++ ((((List.range' i n).map
        fun i => gptEntry (raw.drop (header.offset i))).filter
        fun e => e.Used).map fun e => bytesOf sizeofBlockPartitionInfo (recordOf e).area) := by
  induction n generalizing d i with
  | zero => exact total_pure fun _ => (append_nil _).symm
  | succ n ih =>
    rw [extractLoop, range'_succ, map_cons]
    have hend : (gptEntry (raw.drop (header.offset i))).endingLba < 2 ^ 64 := load64_lt _ 40
    generalize gptEntry (raw.drop (header.offset i)) = e at hend ⊢
    split_ifs with h1 h2
    · have hunused : ¬e.Used := fun hu => hu.1 h1
      rw [filter_cons, decide_eq_false hunused, if_neg Bool.false_ne_true]
      exact ih (i + 1) h hes
    · have hunused : ¬e.Used := fun hu => Nat.not_lt.mpr hu.2 h2
      rw [filter_cons, decide_eq_false hunused, if_neg Bool.false_ne_true]
      exact ih (i + 1) h hes
    · have hused : e.Used := ⟨h1, Nat.not_lt.mp h2⟩
      rw [filter_cons, decide_eq_true hused, if_pos rfl, partitionInfo_eq hused hend]
      refine (dynarrAppend_spec h (recordOf e).area).bind ?_
      intro ok d1 hok
      cases ok with
      | false => exact total_pure (by simp)
      | true =>
        obtain ⟨hwf, hes1, -, helements⟩ := hok
        refine (ih (i + 1) hwf (hes1.trans hes)).mono ?_
        intro ok d' hspec hok
        rw [hspec hok, helements, hes, append_assoc, map_cons]
        rfl

theorem entries_eq {sector raw table : Area}
    (hentry : sizeofGptEntry ≤ (gptHeader sector).partitionEntrySize)
    (hraw : ∀ k, k < (gptHeader sector).totalSize → raw k = table k) :
    ((List.range (gptHeader sector).partitionEntryCount).map fun i => gptEntry
      (raw.drop ((gptHeader sector).offset i))) =
      (List.range (gptHeader sector).partitionEntryCount).map fun i =>
        gptEntry (table.drop (i * (gptHeader sector).partitionEntrySize)) := by
  obtain ⟨-, -, hoffset⟩ := sizes_exact sector
  apply map_congr_left
  intro i hi
  obtain ⟨hoff, hin⟩ := hoffset i (mem_range.mp hi)
  rw [hoff] at hin ⊢
  apply gptEntry_congr
  intro k hk
  exact hraw _ (by omega)

theorem gptParse_spec (disk : Disk) (heaps : Heaps) (h : d.Wf)
    (hes : d.elementSize = sizeofBlockPartitionInfo)
    (hempty : d.currentCount = 0) : Total (gptParse disk heaps) d fun r d' => r.2 = true →
      ∃ sector, disk 1 = some sector ∧ HeaderOk sector ∧
        let header := gptHeader sector
        let table := tableOnDisk disk header.partitionEntryLba
        (∀ k, k < header.sectors → disk ((header.partitionEntryLba + k) % 2 ^ 64) ≠ none) ∧
        (crc32 0 (bytesOf header.totalSize table)).toNat = header.partitionTableCrc32 ∧
        d'.elements = (recordsOf header table).map fun r =>
          bytesOf sizeofBlockPartitionInfo r.area := by
  have hnil : d.elements = [] := Dynarr.elements_eq_nil hempty
  rw [gptParse]
  cases hheader : gptCheckHeader disk with
  | none => exact total_pure nofun
  | some header =>
    obtain ⟨sector, hread, rfl, hok⟩ := gptCheckHeader_eq_some hheader
    cases hraw : dynarrCreate heaps.create 1 0 with
    | none => exact total_pure nofun
    | some raw =>
      obtain ⟨hwf1, hes1, hcount1, -⟩ := dynarrCreate_spec hraw (by decide)
      obtain ⟨accepted, raw', htable, hspec⟩ :=
        gptCheckPartitionTable_spec disk heaps.bytes sector hwf1 hes1 hcount1
      apply total_bind
      refine total_ofOption htable ?_
      cases accepted with
      | false => exact total_pure nofun
      | true =>
        obtain ⟨hreads, hcrc, hbytes⟩ := hspec rfl
        refine (extractLoop_spec heaps.records (gptHeader sector) raw'.arr.bytes _ 0 h hes).bind ?_
        intro ok partitions' hextract
        apply total_pure
        intro hres
        refine ⟨sector, hread, hok, hreads, hcrc, ?_⟩
        rw [hextract hres, hnil, nil_append, ← range_eq_range',
          entries_eq hok.entrySize hbytes, recordsOf,
          map_map]
        rfl

theorem record_range {header : GptHeader} {table : Area} {r : BlockPartitionInfo}
    (hr : r ∈ recordsOf header table) :
    0 < r.startLba ∧ 0 < r.size ∧ r.startLba + r.size ≤ 2 ^ 64 := by
  obtain ⟨e, he, rfl⟩ := mem_map.mp hr
  obtain ⟨hmem, hused⟩ := mem_filter.mp he
  obtain ⟨i, -, rfl⟩ := mem_map.mp hmem
  have hend : (gptEntry (table.drop (i * header.partitionEntrySize))).endingLba < 2 ^ 64 :=
    load64_lt _ 40
  obtain ⟨hzero, hle⟩ := of_decide_eq_true hused
  simp only [recordOf]
  omega

/-- If `gpt_parse` succeeds, the header and the table have passed their checks, and the array
holds the records of the entries in use. Whatever the header says, no size wraps and an entry
that is read lies in the bytes of the checksum. -/
theorem gpt_parse_exact (disk : Disk) (heaps : Heaps) (heap : Heap) (limit : Nat)
    {partitions : Dynarr}
    (hcreate : dynarrCreate heap sizeofBlockPartitionInfo limit = some partitions) :
    (∃ r partitions', gptParse disk heaps partitions = some (r, partitions') ∧ (r.2 = true →
      ∃ sector, disk 1 = some sector ∧ HeaderOk sector ∧
        let header := gptHeader sector
        let table := tableOnDisk disk header.partitionEntryLba
        (∀ k, k < header.sectors → disk ((header.partitionEntryLba + k) % 2 ^ 64) ≠ none) ∧
        (crc32 0 (bytesOf header.totalSize table)).toNat = header.partitionTableCrc32 ∧
        partitions'.elements = (recordsOf header table).map
          (fun r => bytesOf sizeofBlockPartitionInfo r.area) ∧
        ∀ r, r ∈ recordsOf header table → r.size < 2 ^ 64)) ∧
    ∀ sector : Area, (gptHeader sector).totalSize =
        (gptHeader sector).partitionEntryCount * (gptHeader sector).partitionEntrySize ∧
      (gptHeader sector).sectors = ((gptHeader sector).totalSize + 511) / 512 ∧
      ∀ i, i < (gptHeader sector).partitionEntryCount →
        (gptHeader sector).offset i = i * (gptHeader sector).partitionEntrySize ∧
        (sizeofGptEntry ≤ (gptHeader sector).partitionEntrySize →
          (gptHeader sector).offset i + sizeofGptEntry ≤ (gptHeader sector).totalSize) := by
  refine ⟨?_, sizes_exact⟩
  obtain ⟨hwf, hes, hcount, -⟩ := dynarrCreate_spec hcreate (by decide)
  obtain ⟨r, partitions', hparse, hspec⟩ := gptParse_spec disk heaps hwf hes hcount
  refine ⟨r, partitions', hparse, fun hres => ?_⟩
  obtain ⟨sector, hread, hok, hreads, hcrc, helements⟩ := hspec hres
  refine ⟨sector, hread, hok, hreads, hcrc, helements, fun r hr => ?_⟩
  have hrange := record_range hr
  omega

def oneEntry : Disk := fun lba =>
  let header : List (Nat × Byte) :=
    [(0, 0x45), (1, 0x46), (2, 0x49), (3, 0x20), (4, 0x50), (5, 0x41), (6, 0x52), (7, 0x54),
      (10, 1), (12, 92), (16, 249), (17, 175), (18, 164), (19, 167), (24, 1), (72, 2), (80, 1),
      (84, 128), (88, 188), (89, 210), (90, 96), (91, 100)]
  let entry : List (Nat × Byte) := [(0, 34), (16, 7), (32, 34), (40, 65), (50, 1), (56, 65)]
  if lba = 1 then some fun k => (header.lookup k).getD 0
  else if lba = 2 then some fun k => (entry.lookup k).getD 0
  else none

def freeHeaps : Heaps := ⟨fun _ => some 4096, fun _ _ _ => some 8192, fun _ _ => some 12288⟩

def noPartitions : Dynarr := ⟨⟨16384, 4096, fun _ => 0⟩, 136, 0, 14, 16, 0⟩

theorem gpt_parse_exact_oneEntry : (gptCheckHeader oneEntry).isSome = true ∧
    ∃ r partitions', gptParse oneEntry freeHeaps noPartitions = some (r, partitions') ∧
      r.2 = true ∧ ∃ sector, oneEntry 1 = some sector ∧ HeaderOk sector := by
  refine ⟨by decide +kernel, ?_⟩
  have hcreate : dynarrCreate (fun _ => some 16384) sizeofBlockPartitionInfo 0 =
      some noPartitions := rfl
  have hres : (gptParse oneEntry freeHeaps noPartitions).map (·.1.2) = some true := by
    decide +kernel
  obtain ⟨r, partitions', hparse, hspec⟩ := (gpt_parse_exact oneEntry freeHeaps _ 0 hcreate).1
  rw [hparse, Option.map_some] at hres
  obtain ⟨sector, hread, hok, -⟩ := hspec (Option.some.inj hres)
  exact ⟨r, partitions', hparse, Option.some.inj hres, sector, hread, hok⟩

end ShiziOS.Block
