import ShiziOS.Fs.State

/-!
# The data of a tmpfs file

`tmpfs_read`, `tmpfs_write` and the size part of `tmpfs_setattr` in
`kernel/fs/tmpfs/tmpfs.c`, on top of the array of `include/dynarr.h`.

The pages of a file are kept as pointers in an array, but `dynarr_get` returns the
address of a slot and the callers take it for the page. So byte `o` of page `i` is byte
`8 * i + o` of the memory from the array's buffer on, and freeing a page frees the buffer,
if the slot lies in its first frame. What lies behind the buffer is taken as part of it;
the buffer is not used after it has been freed. Offsets are not negative.
-/

namespace ShiziOS.Fs

open Bytes Exec

/-! ## Arrays -/

namespace DynArr

/-- `dynarr_create(sizeof(void *), 0)`. -/
def create : Exec Oracle (Option DynArr) := do
  match ← Oracle.alloc 1 with
  | none => pure none
  | some _ =>
    match ← Oracle.alloc (16 * 8) with
    | none => pure none
    | some _ => pure (some ⟨fun _ => 0, 0, 16, false⟩)

/-- `DYNARR_MAX_COUNT`. -/
def maxCount (d : DynArr) : Nat := d.capacity * 9 / 10

/-- `dynarr_grow` without a limit. It copies the elements and frees the old buffer. -/
def grow (d : DynArr) : Exec Oracle (Option DynArr) := do
  match ← Oracle.alloc (d.capacity * 2 * 8) with
  | none => pure none
  | some _ =>
    if d.freed then stuck
    else
      let arr := fun k => if k < 8 * d.count then d.arr k else 0
      pure (some ⟨arr, d.count, d.capacity * 2, false⟩)

/-- Store the bytes of a pointer behind the last element. -/
def push (d : DynArr) (element : Nat) : DynArr :=
  let arr := fun k =>
    if 8 * d.count ≤ k ∧ k < 8 * d.count + 8 then byteOf (BitVec.ofNat 64 element) (k - 8 * d.count)
    else d.arr k
  { d with arr := arr, count := d.count + 1 }

/-- `dynarr_append`. -/
def append (d : DynArr) (element : Nat) : Exec Oracle (Option DynArr) := do
  if d.maxCount ≤ d.count then
    match ← d.grow with
    | none => pure none
    | some d => pure (some (d.push element))
  else if d.freed then stuck
  else pure (some (d.push element))

end DynArr

/-! ## Pages of the super block -/

def tmpfsAllocPages (sb : SuperBlock) (count : Nat) : Option SuperBlock :=
  if sb.maxPages = 0 then some sb
  else if sb.maxPages < sb.usedPages + count then none
  else some { sb with usedPages := sb.usedPages + count }

def tmpfsFreePages (sb : SuperBlock) (count : Nat) : SuperBlock :=
  { sb with usedPages := (sb.usedPages + 2 ^ 64 - count) % 2 ^ 64 }

def pagesOf (size : Nat) : Nat := (size + pageSize - 1) / pageSize

def blocksOf (size : Nat) : Nat := (size + 511) / 512

/-- The loop that appends cleared pages; it says whether it came to its end. -/
def appendPages : (n : Nat) → DynArr → Exec Oracle (Bool × DynArr)
  | 0, d => pure (true, d)
  | n + 1, d => do
    match ← Oracle.alloc pageSize with
    | none => pure (false, d)
    | some page =>
      match ← d.append page with
      | none => pure (false, d)
      | some d => appendPages n d

/-! ## Reading and writing -/

/-- Byte `pageOff` of page `pageIdx`; a page that is not there reads as zero. -/
def FileData.byte (f : FileData) (pageIdx pageOff : Nat) : Byte :=
  match f.pages with
  | none => 0
  | some d => if pageIdx < d.count then d.arr (8 * pageIdx + pageOff) else 0

/-- The loop of `tmpfs_read`. -/
def readLoop (f : FileData) : (fuel offset remaining : Nat) → Option (List Byte)
  | _, _, 0 => some []
  | 0, _, _ + 1 => none
  | fuel + 1, offset, remaining + 1 =>
    let pageIdx := offset / pageSize
    let pageOff := offset % pageSize
    let chunk := min (pageSize - pageOff) (remaining + 1)
    if f.pages.any fun d => d.freed && decide (pageIdx < d.count) then none
    else
      (readLoop f fuel (offset + chunk) (remaining + 1 - chunk)).map fun rest =>
        (List.range chunk).map (fun k => f.byte pageIdx (pageOff + k)) ++ rest

/-- `tmpfs_read`: the bytes and the new offset. -/
def tmpfsRead (f : FileData) (offset count : Nat) : Option (List Byte × Nat) :=
  if f.dataSize ≤ offset then some ([], offset)
  else
    let count := if f.dataSize < offset + count then f.dataSize - offset else count
    (readLoop f count offset count).map fun bytes => (bytes, offset + count)

/-- The loop of `tmpfs_write`. -/
def writeLoop : (fuel : Nat) → DynArr → (offset : Nat) → List Byte → Option DynArr
  | _, d, _, [] => some d
  | 0, _, _, _ :: _ => none
  | fuel + 1, d, offset, b :: data =>
    let pageIdx := offset / pageSize
    let pageOff := offset % pageSize
    let chunk := min (pageSize - pageOff) (data.length + 1)
    if d.count ≤ pageIdx ∨ d.freed = true then none
    else
      let base := 8 * pageIdx + pageOff
      let arr := fun k =>
        if base ≤ k ∧ k < base + chunk then (b :: data).getD (k - base) 0 else d.arr k
      writeLoop fuel { d with arr := arr } (offset + chunk) ((b :: data).drop chunk)

/-- The array of a file that is to be written; `none` if there is no memory for it. -/
def pagesFor (f : FileData) : Exec Oracle (Option DynArr) :=
  match f.pages with
  | some d => pure (some d)
  | none => DynArr.create

/-- The size after a write that ends at `stop`. -/
def FileData.extend (f : FileData) (stop : Nat) : FileData :=
  if f.dataSize < stop then { f with dataSize := stop, size := stop, blocks := blocksOf stop }
    else f

def tmpfsWrite (sb : SuperBlock) (f : FileData) (offset : Nat) (data : List Byte) :
    Exec Oracle (Except Errno Nat × SuperBlock × FileData) := do
  let stop := offset + data.length
  let oldPages := pagesOf f.dataSize
  let newPages := pagesOf stop
  match (if oldPages < newPages then tmpfsAllocPages sb (newPages - oldPages) else some sb) with
  | none => pure (.error .enospc, sb, f)
  | some sb' =>
    let giveBack := if oldPages < newPages then tmpfsFreePages sb' (newPages - oldPages) else sb'
    match ← pagesFor f with
    | none => pure (.error .enomem, giveBack, f)
    | some d => do
      let (done, d') ← appendPages (newPages - oldPages) d
      if done then
        let d' ← ofOption (writeLoop data.length d' offset data)
        pure (.ok data.length, sb', { f with pages := some d' }.extend stop)
      else
        -- the pages appended so far are popped again
        let pages := if d.count = 0 then none else some { d' with count := d.count }
        pure (.error .enomem, giveBack, { f with pages := pages })

/-! ## Changing the size -/

/-- The pages from `newPages` on are freed: slot by slot, so that the buffer goes. -/
def freeTail (d : DynArr) (newPages : Nat) : Option DynArr :=
  if newPages < d.count then
    if d.freed then none else some { d with freed := decide (8 * newPages < pageSize) }
  else some d

/-- The part of `tmpfs_setattr` for `ATTR_SIZE`. -/
def tmpfsSetSize (sb : SuperBlock) (f : FileData) (newSize : Nat) :
    Exec Oracle (Except Errno Unit × SuperBlock × FileData) := do
  let oldPages := pagesOf f.size
  let newPages := pagesOf newSize
  let resized (f : FileData) : FileData :=
    { f with size := newSize, dataSize := newSize, blocks := blocksOf newSize }
  if newSize < f.size then
    match f.pages with
    | none => pure (.ok (), tmpfsFreePages sb (oldPages - newPages), resized f)
    | some d => do
      let d ← ofOption (freeTail d newPages)
      pure (.ok (), tmpfsFreePages sb (oldPages - newPages), resized { f with pages := some d })
  else if f.size < newSize ∧ oldPages < newPages then
    match tmpfsAllocPages sb (newPages - oldPages) with
    | none => pure (.error .enospc, sb, f)
    | some sb =>
      match ← pagesFor f with
      | none => pure (.error .enomem, tmpfsFreePages sb (newPages - oldPages), f)
      | some d => do
        let (done, d) ← appendPages (newPages - oldPages) d
        if done then pure (.ok (), sb, resized { f with pages := some d })
        else pure (.error .enomem, tmpfsFreePages sb (newPages - oldPages),
          { f with pages := none })
  else pure (.ok (), sb, resized f)

end ShiziOS.Fs
