import ShiziOS.Virtio.Split
import Mathlib.Data.Nat.Bitwise

/-!
# Packed virtqueues

The packed queue of `kernel/drivers/virtio/core.c`: one ring of descriptors, in which two flags
say whether a descriptor is available or used, each to be read against a counter that changes with
every lap. The driver fills descriptors from `nextAvailIdx` on and looks for used ones at
`lastUsedIdx`; the device writes a used descriptor for every request it is done with, one after
the other, where the request that is next in the ring has its first descriptor. An access outside
of a table or a loop that does not end is a fault.

For the first lap the counters are `1`. A lap ends when `nextAvailIdx`, a number of 16 bits, goes
back.
-/

namespace ShiziOS.Virtio.Packed

open Function Runs List
open Split (Seg Buf fNext fWrite fIndirect queueSize queueSize_pos)
open Nat (mod_eq_of_lt lt_min)

/-- `struct virtio_desc`. -/
structure Desc where
  addr : Nat := 0
  len : Nat := 0
  id : Nat := 0
  flags : Nat := 0
  deriving DecidableEq

def fAvail : Nat := 2 ^ 7
def fUsed : Nat := 2 ^ 15

def Desc.has (d : Desc) (flag : Nat) : Bool := d.flags &&& flag != 0

/-- `struct virtioqueue`, with the features that have been negotiated and the indirect tables that
are allocated. -/
structure Vq (Req : Type) where
  size : Nat
  inorder : Bool
  indirect : Bool
  desc : Nat → Desc
  nextAvailIdx : Nat
  availWrap : Bool
  usedWrap : Bool
  lastUsedIdx : Nat
  callerData : Nat → Option Req
  tables : Nat → Option (List Desc)

variable {Req : Type}

/-! ## The functions -/

/-- The slot `i` places after `nextAvailIdx`. -/
def Vq.slotAt (vq : Vq Req) (i : Nat) : Nat := (vq.nextAvailIdx + i) % 2 ^ 32 % vq.size % 2 ^ 16

/-- `nextAvailIdx` moves on; the counter changes if that makes it less. -/
def Vq.advance (vq : Vq Req) (count : Nat) : Vq Req :=
  { vq with
    availWrap := if vq.slotAt count < vq.nextAvailIdx then !vq.availWrap else vq.availWrap
    nextAvailIdx := vq.slotAt count }

/-- The last of `count` slots. -/
def Vq.lastIdx (vq : Vq Req) (count : Nat) : Nat := vq.slotAt ((count + 2 ^ 32 - 1) % 2 ^ 32)

/-- `packed_alloc_desc_inorder`: the first slot and the last. -/
def packedAllocDescInorder (vq : Vq Req) (count : Nat) : Option (Nat × Nat × Vq Req) :=
  some (vq.nextAvailIdx, vq.lastIdx count, vq.advance count)

/-- The loop of `packed_alloc_desc_noorder`: no slot from number `i` on is marked. -/
def slotsFree (vq : Vq Req) : (left i : Nat) → Bool
  | 0, _ => true
  | left + 1, i => !(vq.desc (vq.slotAt i)).has (fAvail ||| fUsed) && slotsFree vq left (i + 1)

def packedAllocDescNoorder (vq : Vq Req) (count : Nat) : Option (Nat × Nat × Vq Req) :=
  if slotsFree vq count 0 then some (vq.nextAvailIdx, vq.lastIdx count, vq.advance count) else none

/-- `alloc_desc` of the feature table. -/
def allocDesc (vq : Vq Req) (count : Nat) : Option (Nat × Nat × Vq Req) :=
  if vq.inorder then packedAllocDescInorder vq count else packedAllocDescNoorder vq count

/-- `packed_create_indirect_raw`, if the feature is there; `heap` is the answer of the allocator. -/
def packedCreateIndirect (vq : Vq Req) (heap : Option Nat) (count : Nat) : Option (Nat × Vq Req) :=
  if vq.indirect = false then none
  else
    match heap with
    | none => none
    | some table =>
      match allocDesc vq 1 with
      | none => none
      | some (head, _, vq) =>
        let main : Desc := { vq.desc head with
          addr := table, len := count * 16 % 2 ^ 32, flags := fIndirect ||| fAvail }
        some (head, { vq with
          desc := update vq.desc head main
          tables := update vq.tables table (some (List.replicate count {})) })

/-- The descriptor for buffer `i` of a call. -/
def filled (buf : Buf) (wrap : Bool) (i : Nat) : Desc :=
  let seg := buf.sg.getD i ⟨0, 0⟩
  { addr := seg.addr
    len := seg.length
    id := i % 2 ^ 16
    flags := (if i < buf.outs.length then fNext else fWrite ||| fNext) ||| if wrap then fAvail
      else 0 }

/-- The next slot of the ring. -/
def next (size cur : Nat) : Nat := (cur + 1) % size % 2 ^ 16

/-- The loop of `packed_fill_desc` over the ring, from buffer `i` on. -/
def fillRing (size : Nat) (buf : Buf) (wrap : Bool) :
    (left i cur : Nat) → (Nat → Desc) → Nat × (Nat → Desc)
  | 0, _, cur, desc => (cur, desc)
  | left + 1, i, cur, desc =>
    fillRing size buf wrap left (i + 1) (next size cur) (update desc cur (filled buf wrap i))

/-- The loop over an indirect table. -/
def fillTable (buf : Buf) (wrap : Bool) : (left i : Nat) → List Desc → List Desc
  | 0, _, table => table
  | left + 1, i, table => fillTable buf wrap left (i + 1) (table.set i (filled buf wrap i))

/-- The end of a chain is to be marked by a descriptor without `NEXT`. -/
def Desc.unlink (d : Desc) : Desc := { d with flags := d.flags &&& (2 ^ 16 - 1 - fNext) }

/-- `packed_fill_desc`. In the ring the descriptor that loses `NEXT` is the one after the chain. -/
def packedFillDesc (vq : Vq Req) (head : Nat) (buf : Buf) : Option (Vq Req) :=
  if (vq.desc head).has fIndirect then
    match vq.tables (vq.desc head).addr with
    | none => none
    | some table =>
      if buf.total = 0 ∨ table.length < buf.total then none
      else
        let table := (fillTable buf vq.availWrap buf.total 0 table).modify
          (buf.total - 1) Desc.unlink
        some { vq with tables := update vq.tables (vq.desc head).addr (some table) }
  else
    let (cur, desc) := fillRing vq.size buf vq.availWrap buf.total 0 head vq.desc
    some { vq with desc := update desc cur (desc cur).unlink }

/-- `virtioqueue_add_buf`: the first slot of the request, or `none` for `-ENOSPC`. -/
def addBuf (vq : Vq Req) (heap : Option Nat) (buf : Buf) (req : Req) :
    Option (Option Nat × Vq Req) :=
  let alloc :=
    match allocDesc vq buf.total with
    | some (head, _, vq) => some (head, vq)
    | none => packedCreateIndirect vq heap buf.total
  match alloc with
  | none => some (none, vq)
  | some (head, vq) =>
    (packedFillDesc vq head buf).map fun vq =>
      (some head, { vq with callerData := update vq.callerData head (some req) })

/-- The slots from `cur` to the first one without `NEXT`. After `size` steps the loop has seen
every slot that it can come to, and never ends. -/
def recycleWalk (vq : Vq Req) : (steps cur : Nat) → Option (List Nat)
  | 0, _ => none
  | steps + 1, cur =>
    if (vq.desc cur).has fNext then (recycleWalk vq steps (next vq.size cur)).map (cur :: ·)
      else some [cur]

/-- `packed_recycle`: the `caller_data`, or `none` for a null pointer. -/
def packedRecycle (vq : Vq Req) : Option (Option Req × Vq Req) :=
  let idx := vq.lastUsedIdx % vq.size
  if (vq.desc idx).has fUsed != vq.usedWrap then some (none, vq)
  else
    let data := vq.callerData idx
    let vq := { vq with callerData := update vq.callerData idx none }
    if (vq.desc idx).has fIndirect then
      let last := next vq.size vq.lastUsedIdx
      some (data, { vq with
        desc := update vq.desc idx {}
        tables := update vq.tables (vq.desc idx).addr none
        lastUsedIdx := last
        usedWrap := if last = 0 then !vq.usedWrap else vq.usedWrap })
    else
      match recycleWalk vq vq.size idx with
      | none => none
      | some chain =>
        let last := vq.lastUsedIdx + chain.length % 2 ^ 16
        some (data, { vq with
          desc := fun i => if i ∈ chain then {} else vq.desc i
          lastUsedIdx := last % vq.size % 2 ^ 16
          usedWrap := if vq.size ≤ last then !vq.usedWrap else vq.usedWrap })

/-- `packed_init`, with the size it settles on. -/
def packedInit (size : Nat) (inorder indirect : Bool) : Vq Req where
  size := size
  inorder := inorder
  indirect := indirect
  desc _ := {}
  nextAvailIdx := 0
  availWrap := true
  usedWrap := true
  lastUsedIdx := 0
  callerData _ := none
  tables _ := none

/-! ## Driver and device -/

/-- A request that is available to the device, with its slots. -/
structure Published (Req : Type) where
  slots : List Nat
  req : Req
  deriving DecidableEq

/-- The slots of a ring from `cur` on. -/
def ring (size : Nat) : (cur count : Nat) → List Nat
  | _, 0 => []
  | cur, count + 1 => cur :: ring size (next size cur) count

/-- The slots of a request: one if it has a table of its own. -/
def Vq.chain (vq : Vq Req) (head total : Nat) : List Nat :=
  if (vq.desc head).has fIndirect then [head] else ring vq.size head total

/-- The queue; where the device writes the next used descriptor, and its counter; the requests at
the device, those that it is done with, and the data that the driver has got back. -/
structure State (Req : Type) where
  vq : Vq Req
  devPos : Nat := 0
  devWrap : Bool := true
  inFlight : List (Published Req) := []
  returned : List (Published Req) := []
  handed : List Req := []
  faulted : Bool := false

inductive Move (Req : Type) where
  | add (heap : Option Nat) (buf : Buf) (req : Req)
  | complete (i : Nat) (elem : Desc)
  | recycle

def start (size : Nat) (inorder indirect : Bool) : State Req where
  vq := packedInit (queueSize size) inorder indirect

/-- A used descriptor. The device sets the two marks, the rest is up to it. -/
def Desc.mark (elem : Desc) (wrap : Bool) : Desc :=
  { elem with flags := (elem.flags &&& (2 ^ 16 - 1 - fAvail - fUsed)) ||| if wrap then
    fAvail ||| fUsed else 0 }

def step (s : State Req) : Move Req → Option (State Req)
  | .add heap buf req =>
    if s.faulted then none
    else
      match addBuf s.vq heap buf req with
      | none => some { s with faulted := true }
      | some (none, vq) => some { s with vq }
      | some (some head, vq) =>
        let slots := vq.chain head buf.total
        some { s with vq, inFlight := if slots = [] then s.inFlight
          else s.inFlight ++ [⟨slots, req⟩] }
  | .complete i elem =>
    if s.faulted ∨ s.vq.inorder ∧ i ≠ 0 then none
    else
      match s.inFlight[i]? with
      | none => none
      | some p =>
        let pos := s.devPos + p.slots.length
        some { s with
          vq := { s.vq with desc := update s.vq.desc s.devPos (elem.mark s.devWrap) }
          devPos := pos % s.vq.size
          devWrap := if s.vq.size ≤ pos then !s.devWrap else s.devWrap
          inFlight := s.inFlight.eraseIdx i
          returned := s.returned ++ [p] }
  | .recycle =>
    if s.faulted then none
    else
      match packedRecycle s.vq with
      | none => some { s with faulted := true }
      | some (data, vq) => some { s with
          vq
          returned := if data.isSome then s.returned.tail else s.returned
          handed := s.handed ++ data.toList }

/-! ## What the calls are to do -/

/-- The descriptor is available by the driver's counter. -/
def Vq.offered (vq : Vq Req) (i : Nat) : Bool :=
  (vq.desc i).has fAvail == vq.availWrap && (vq.desc i).has fUsed == !vq.availWrap

/-- A new request has descriptors of its own and they are marked as available; nothing of a
request at the device is overwritten. A completion hands back the data of the request that is next
among those that the device is done with, if there is one. -/
def Kept (s : State Req) : Move Req → State Req → Prop
  | .add .., s' =>
    s'.faulted = false ∧ (∀ p ∈ s.inFlight, ∀ i ∈ p.slots, s'.vq.desc i = s.vq.desc i) ∧
      ∀ p ∈ s'.inFlight.drop s.inFlight.length, p.slots.Nodup ∧
        (∀ q ∈ s.inFlight, ∀ i ∈ q.slots, i ∉ p.slots) ∧
        ∀ i ∈ p.slots, s'.vq.offered i
  | .complete .., _ => True
  | .recycle, s' =>
    s'.faulted = false ∧ s'.handed = s.handed ++ (s.returned.take 1).map Published.req ∧
      s'.returned = s.returned.drop 1

instance [DecidableEq Req] (s s' : State Req) (a : Move Req) : Decidable (Kept s a s') := by
  cases a <;> unfold Kept <;> infer_instance

/-- How many slots a call takes. -/
def Vq.takes (vq : Vq Req) (heap : Option Nat) (total : Nat) : Nat :=
  if vq.inorder || slotsFree vq total 0 then total
  else if vq.indirect && heap.isSome && slotsFree vq 1 0 then 1
  else 0

/-- How many slots a lap has. -/
def lap (size : Nat) : Nat := min size (2 ^ 16)

/-- The call stays short of the end of the first lap. The device is done with the requests in
their order, and writes used descriptors that are neither linked nor indirect. The driver looks
for used descriptors where the device has written the next one. -/
def Within (s : State Req) : Move Req → Prop
  | .add heap buf _ => s.vq.nextAvailIdx + s.vq.takes heap buf.total < lap s.vq.size
  | .complete i elem => i = 0 ∧ elem.has fNext = false ∧ elem.has fIndirect = false
  | .recycle => ∀ p ∈ s.returned.head?, p.slots.head? = some s.vq.lastUsedIdx

instance (s : State Req) (a : Move Req) : Decidable (Within s a) := by
  cases a <;> unfold Within <;> infer_instance

/-! ## Flags -/

theorem Desc.has_two_pow (d : Desc) (k : Nat) : d.has (2 ^ k) = d.flags.testBit k := by
  rw [Desc.has, Nat.and_two_pow]
  cases d.flags.testBit k <;> simp

theorem has_fUsed (d : Desc) : d.has fUsed = d.flags.testBit 15 := d.has_two_pow 15

theorem has_fNext (d : Desc) : d.has fNext = d.flags.testBit 0 := d.has_two_pow 0

theorem has_fIndirect (d : Desc) : d.has fIndirect = d.flags.testBit 2 := d.has_two_pow 2

variable {d : Desc} {lo hi : Nat} {l : List (Published Req)} {p : Published Req}

theorem Desc.has_of_flags_zero (h : d.flags = 0) (flag : Nat) : d.has flag = false := by
  rw [Desc.has, h, Nat.zero_and]
  rfl

theorem Desc.unlink_of_flags_zero (h : d.flags = 0) : d.unlink = d := by
  rw [Desc.unlink, h, Nat.zero_and, ← h]

theorem Desc.unlink_used (h : d.has fUsed = false) : d.unlink.has fUsed = false := by
  rw [has_fUsed] at h ⊢
  rw [Desc.unlink, Nat.testBit_and, h, Bool.false_and]

theorem filled_has (buf : Buf) (wrap : Bool) (i : Nat) :
    (filled buf wrap i).has fAvail = wrap ∧ (filled buf wrap i).has fUsed = false ∧
      (filled buf wrap i).has fIndirect = false := by
  cases wrap <;> by_cases h : i < buf.outs.length <;> simp only [filled, h, Desc.has] <;> decide

theorem Desc.mark_has {elem : Desc} (hnext : elem.has fNext = false)
    (hind : elem.has fIndirect = false) :
    (elem.mark true).has fUsed = true ∧ (elem.mark true).has fNext = false ∧
      (elem.mark true).has fIndirect = false := by
  rw [has_fNext] at hnext
  rw [has_fIndirect] at hind
  rw [has_fUsed, has_fNext, has_fIndirect]
  simp only [Desc.mark, if_true, Nat.testBit_or, Nat.testBit_and, hnext, hind, Bool.false_and,
    Bool.false_or]
  refine ⟨?_, by decide, by decide⟩
  rw [show (fAvail.testBit 15 || fUsed.testBit 15) = true by decide, Bool.or_true]

/-! ## The first lap -/

section FirstLap

variable {size cur : Nat}

theorem next_eq (h : cur + 1 < lap size) : next size cur = cur + 1 := by
  rw [lap, lt_min] at h
  rw [next, mod_eq_of_lt h.1, mod_eq_of_lt h.2]

theorem ring_eq {count : Nat} (h : cur + count ≤ lap size) :
    ring size cur count = List.range' cur count := by
  induction count generalizing cur with
  | zero => rfl
  | succ count ih =>
    rw [ring, range'_succ]
    cases count with
    | zero => rfl
    | succ count => rw [next_eq (by omega), ih (by omega)]

theorem slotAt_eq {vq : Vq Req} {i : Nat} (h : vq.nextAvailIdx + i < lap vq.size) :
    vq.slotAt i = vq.nextAvailIdx + i := by
  rw [lap, lt_min] at h
  rw [Vq.slotAt, mod_eq_of_lt (by omega : vq.nextAvailIdx + i < 2 ^ 32), mod_eq_of_lt h.1,
    mod_eq_of_lt h.2]

theorem slotAt_lt {vq : Vq Req} {i : Nat} (hnext : vq.nextAvailIdx < lap vq.size)
    (hi : i < lap vq.size)
    (h : lap vq.size ≤ vq.nextAvailIdx + i) : vq.slotAt i < vq.nextAvailIdx := by
  rw [lap] at hnext hi h
  rw [Vq.slotAt, mod_eq_of_lt (by omega : vq.nextAvailIdx + i < 2 ^ 32)]
  by_cases hsize : vq.nextAvailIdx + i < vq.size
  · rw [mod_eq_of_lt hsize]
    omega
  · have hmod : (vq.nextAvailIdx + i) % vq.size = vq.nextAvailIdx + i - vq.size := by
      rw [Nat.mod_eq_sub_mod (by omega), mod_eq_of_lt (by omega)]
    omega

theorem fillRing_spec (buf : Buf) (wrap : Bool) (left i : Nat) (desc : Nat → Desc)
    (h : cur + left < lap size) :
    (fillRing size buf wrap left i cur desc).1 = cur + left ∧
      (∀ j, cur ≤ j → j < cur + left → ∃ k, (fillRing size buf wrap left i cur desc).2 j =
        filled buf wrap k) ∧
      ∀ j, j < cur ∨ cur + left ≤ j → (fillRing size buf wrap left i cur desc).2 j = desc j := by
  induction left generalizing i cur desc with
  | zero => exact ⟨rfl, fun j hj hlt => absurd hj (by omega), fun j _ => rfl⟩
  | succ left ih =>
    rw [fillRing, next_eq (by omega)]
    obtain ⟨hcur, hin, hout⟩ :=
      ih (i + 1) (update desc cur (filled buf wrap i)) (by omega : cur + 1 + left < lap size)
    refine ⟨by omega, fun j hj hlt => ?_, fun j hj => ?_⟩
    · rcases Nat.eq_or_lt_of_le hj with rfl | hj
      · exact ⟨i, by rw [hout cur (by omega), update_self]⟩
      · exact hin j hj (by omega)
    · rw [hout j (by omega), update_of_ne (by omega)]

/-- What has not been used is not used after the loop, and the descriptors that the loop fills are
not. -/
theorem fillRing_used (size : Nat) (buf : Buf) (wrap : Bool) (left i cur : Nat) {desc : Nat → Desc}
    {j : Nat} (h : (desc j).has fUsed = false ∨ (j = cur ∧ 0 < left)) :
    ((fillRing size buf wrap left i cur desc).2 j).has fUsed = false := by
  induction left generalizing i cur desc with
  | zero =>
    rcases h with h | ⟨-, h⟩
    · exact h
    · cases h
  | succ left ih =>
    refine ih (i + 1) _ (.inl ?_)
    rw [update_apply]
    split_ifs with hj
    · exact (filled_has buf wrap i).2.1
    · exact h.resolve_right fun h => hj h.1

end FirstLap

/-! ## Publication -/

variable {vq : Vq Req} {heap : Option Nat} {buf : Buf} {req : Req}

theorem allocDesc_eq (count : Nat) : allocDesc vq count =
    if vq.inorder || slotsFree vq count 0 then some (vq.nextAvailIdx, vq.lastIdx count,
      vq.advance count) else none := by
  cases h : vq.inorder <;>
    simp [allocDesc, h, packedAllocDescInorder, packedAllocDescNoorder]

theorem mem_chain (vq : Vq Req) (head : Nat) {total : Nat} (h : 0 < total) :
    head ∈ vq.chain head total := by
  rw [Vq.chain]
  split_ifs
  · exact mem_singleton_self head
  · obtain ⟨total, rfl⟩ := Nat.exists_eq_succ_of_ne_zero h.ne'
    exact mem_cons_self

/-- What a call that takes `k` slots does. -/
structure Placed (vq : Vq Req) (k : Nat) (req : Req) (vq' : Vq Req) : Prop where
  size : vq'.size = vq.size
  avail : vq'.availWrap = vq.availWrap
  used : vq'.usedWrap = vq.usedWrap
  last : vq'.lastUsedIdx = vq.lastUsedIdx
  next : vq'.nextAvailIdx = vq.nextAvailIdx + k
  data : vq'.callerData = update vq.callerData vq.nextAvailIdx (some req)
  outside : ∀ i, i < vq.nextAvailIdx ∨ vq.nextAvailIdx + k ≤ i → vq'.desc i = vq.desc i
  inside : ∀ i, vq.nextAvailIdx ≤ i → i < vq.nextAvailIdx + k →
    (vq'.desc i).has fAvail = true ∧ (vq'.desc i).has fUsed = false

theorem advance_eq {k : Nat} (h : vq.nextAvailIdx + k < lap vq.size) :
    vq.advance k = { vq with nextAvailIdx := vq.nextAvailIdx + k } := by
  rw [Vq.advance, slotAt_eq h, if_neg (by omega)]

theorem addBuf_direct (h : (vq.inorder || slotsFree vq buf.total 0) = true)
    (hfresh : (vq.desc vq.nextAvailIdx).flags = 0) :
    addBuf vq heap buf req = some (some vq.nextAvailIdx,
      let filled := fillRing vq.size buf (vq.advance buf.total).availWrap buf.total 0
        vq.nextAvailIdx vq.desc
      { vq.advance buf.total with
        desc := update filled.2 filled.1 (filled.2 filled.1).unlink
        callerData := update vq.callerData vq.nextAvailIdx (some req) }) := by
  have hdirect : ((vq.advance buf.total).desc vq.nextAvailIdx).has fIndirect = false :=
    Desc.has_of_flags_zero hfresh _
  simp only [addBuf, allocDesc_eq, h, if_true, packedFillDesc, hdirect, Bool.false_eq_true,
    if_false,
    Option.map_some]
  rfl

theorem placed_direct (h : (vq.inorder || slotsFree vq buf.total 0) = true)
    (hfresh : ∀ i, vq.nextAvailIdx ≤ i → (vq.desc i).flags = 0) (havail : vq.availWrap = true)
    (hroom : vq.nextAvailIdx + buf.total < lap vq.size) :
    ∃ vq', addBuf vq heap buf req = some (some vq.nextAvailIdx, vq') ∧ Placed vq buf.total req vq' ∧
      vq'.chain vq.nextAvailIdx buf.total = List.range' vq.nextAvailIdx buf.total := by
  obtain ⟨hcur, hin, hout⟩ := fillRing_spec buf true buf.total 0 vq.desc hroom
  have hzero := hfresh (vq.nextAvailIdx + buf.total) (by omega)
  have hdesc : update (fillRing vq.size buf true buf.total 0 vq.nextAvailIdx vq.desc).2
      (vq.nextAvailIdx + buf.total)
      ((fillRing vq.size buf true buf.total 0 vq.nextAvailIdx vq.desc).2
        (vq.nextAvailIdx + buf.total)).unlink =
      (fillRing vq.size buf true buf.total 0 vq.nextAvailIdx vq.desc).2 := by
    rw [hout _ (.inr (Nat.le_refl _)), Desc.unlink_of_flags_zero hzero,
      ← hout _ (.inr (Nat.le_refl _)), update_eq_self]
  refine ⟨_, addBuf_direct h (hfresh _ (Nat.le_refl _)), ?_, ?_⟩
  · simp only [advance_eq hroom, havail, hcur, hdesc]
    exact ⟨rfl, havail.symm, rfl, rfl, rfl, rfl, hout, fun i hi hlt => by
      obtain ⟨k, hk⟩ := hin i hi hlt
      have hhas := filled_has buf true k
      rw [← hk] at hhas
      exact ⟨hhas.1, hhas.2.1⟩⟩
  · simp only [Vq.chain, advance_eq hroom, havail, hcur, hdesc]
    rw [if_neg, ring_eq (by omega)]
    by_cases hpos : 0 < buf.total
    · obtain ⟨k, hk⟩ := hin vq.nextAvailIdx (Nat.le_refl _) (by omega)
      rw [hk, (filled_has buf true k).2.2]
      exact Bool.false_ne_true
    · rw [hout _ (by omega), Desc.has_of_flags_zero (hfresh _ (Nat.le_refl _))]
      exact Bool.false_ne_true

theorem addBuf_indirect {table : Nat} (req : Req) (h : (vq.inorder || slotsFree vq buf.total 0) =
    false)
    (hind : vq.indirect = true) (hfree : slotsFree vq 1 0 = true) :
    ∃ tables, addBuf vq (some table) buf req = some (some vq.nextAvailIdx, { vq.advance 1 with
        desc := update vq.desc vq.nextAvailIdx { vq.desc vq.nextAvailIdx with
          addr := table, len := buf.total * 16 % 2 ^ 32, flags := fIndirect ||| fAvail }
        tables := tables
        callerData := update vq.callerData vq.nextAvailIdx (some req) }) := by
  have hpos : buf.total ≠ 0 := by
    intro hzero
    simp [hzero, slotsFree] at h
  have hmain : ∀ d : Desc, Desc.has { d with
      addr := table, len := buf.total * 16 % 2 ^ 32, flags :=
        fIndirect ||| fAvail } fIndirect = true := by
    intro d
    simp only [Desc.has]
    decide
  simp only [addBuf, allocDesc_eq, h, Bool.false_eq_true, if_false, packedCreateIndirect, hind,
    hfree, Bool.or_true,
    if_true, Bool.true_eq_false, packedFillDesc, update_self, hmain, hpos, length_replicate,
      Nat.lt_irrefl,
    or_self, Option.map_some]
  exact ⟨_, rfl⟩

theorem placed_indirect {table : Nat} (h : (vq.inorder || slotsFree vq buf.total 0) = false)
    (hind : vq.indirect = true) (hfree : slotsFree vq 1 0 = true)
    (hroom : vq.nextAvailIdx + 1 < lap vq.size) :
    ∃ vq', addBuf vq (some table) buf req = some (some vq.nextAvailIdx, vq') ∧ Placed vq 1 req vq' ∧
      vq'.chain vq.nextAvailIdx buf.total = List.range' vq.nextAvailIdx 1 := by
  obtain ⟨tables, hadd⟩ := addBuf_indirect req h hind hfree
  refine ⟨_, hadd, ?_, ?_⟩
  · rw [advance_eq hroom]
    refine ⟨rfl, rfl, rfl, rfl, rfl, rfl, fun i hi => update_of_ne (by omega) _ _,
      fun i hi hlt => ?_⟩
    obtain rfl : i = vq.nextAvailIdx := by omega
    simp only [update_self, Desc.has]
    decide
  · simp only [Vq.chain, update_self, Desc.has]
    rfl

theorem addBuf_refused (h : (vq.inorder || slotsFree vq buf.total 0) = false)
    (hind : (vq.indirect && heap.isSome && slotsFree vq 1 0) = false) :
    addBuf vq heap buf req = some (none, vq) := by
  have hcreate : packedCreateIndirect vq heap buf.total = none := by
    unfold packedCreateIndirect
    split_ifs with hno
    · rfl
    · cases heap with
      | none => rfl
      | some table =>
        have hfree : slotsFree vq 1 0 = false := by simpa [hno] using hind
        have hnoorder : vq.inorder = false := (Bool.or_eq_false_iff.mp h).1
        simp only [allocDesc_eq, hnoorder, hfree, Bool.or_self, Bool.false_eq_true, if_false]
  simp only [addBuf, allocDesc_eq, h, Bool.false_eq_true, if_false, hcreate]

theorem addBuf_within (req : Req) (hfresh : ∀ i, vq.nextAvailIdx ≤ i → (vq.desc i).flags = 0)
    (havail : vq.availWrap = true)
    (hroom : vq.nextAvailIdx + vq.takes heap buf.total < lap vq.size) :
    addBuf vq heap buf req = some (none, vq) ∨
      ∃ vq', addBuf vq heap buf req = some (some vq.nextAvailIdx, vq') ∧
        Placed vq (vq.takes heap buf.total) req vq' ∧
        vq'.chain vq.nextAvailIdx buf.total = List.range' vq.nextAvailIdx
          (vq.takes heap buf.total) := by
  rw [Vq.takes] at *
  split_ifs at * with hdirect hind
  · exact .inr (placed_direct hdirect hfresh havail hroom)
  · rw [Bool.not_eq_true] at hdirect
    simp only [Bool.and_eq_true, Option.isSome_iff_exists] at hind
    obtain ⟨⟨hind, table, rfl⟩, hfree⟩ := hind
    exact .inr (placed_indirect hdirect hind hfree hroom)
  · rw [Bool.not_eq_true] at hdirect hind
    exact .inl (addBuf_refused hdirect hind)

/-- A call over the end of the lap: the counter has changed before the descriptors are filled, and
their `USED` is not set. -/
theorem addBuf_over (req : Req) (hfresh : (vq.desc vq.nextAvailIdx).flags = 0)
    (hnext : vq.nextAvailIdx < lap vq.size) (htakes : vq.takes heap buf.total < lap vq.size)
    (hover : lap vq.size ≤ vq.nextAvailIdx + vq.takes heap buf.total) :
    ∃ vq', addBuf vq heap buf req = some (some vq.nextAvailIdx, vq') ∧ vq'.availWrap =
      !vq.availWrap ∧
      (vq'.desc vq.nextAvailIdx).has fUsed = false ∧ 0 < buf.total := by
  have hwrap : (vq.advance (vq.takes heap buf.total)).availWrap = !vq.availWrap := by
    rw [Vq.advance, if_pos (slotAt_lt hnext htakes hover)]
  rw [Vq.takes] at *
  split_ifs at * with hdirect hind
  · have hpos : 0 < buf.total := by omega
    refine ⟨_, addBuf_direct hdirect hfresh, hwrap, ?_, hpos⟩
    have hhead := fillRing_used vq.size buf (vq.advance buf.total).availWrap buf.total 0
      vq.nextAvailIdx
      (.inr ⟨rfl, hpos⟩ : (vq.desc vq.nextAvailIdx).has fUsed = false ∨ _)
    simp only
    by_cases hcur : vq.nextAvailIdx =
        (fillRing vq.size buf (vq.advance buf.total).availWrap buf.total 0 vq.nextAvailIdx
          vq.desc).1
    · rw [← hcur, update_self]
      exact Desc.unlink_used hhead
    · rw [update_of_ne hcur]
      exact hhead
  · rw [Bool.not_eq_true] at hdirect
    simp only [Bool.and_eq_true, Option.isSome_iff_exists] at hind
    obtain ⟨⟨hind, table, rfl⟩, hfree⟩ := hind
    obtain ⟨tables, hadd⟩ := addBuf_indirect req hdirect hind hfree
    refine ⟨_, hadd, hwrap, ?_, Nat.pos_of_ne_zero fun hzero => ?_⟩
    · simp only [update_self, Desc.has]
      decide
    · simp [hzero, slotsFree] at hdirect
  · omega

/-! ## Runs in the first lap -/

/-- Requests whose slots lie one after the other, from `lo` to `hi`. -/
def Tiles : Nat → List (Published Req) → Nat → Prop
  | lo, [], hi => lo = hi
  | lo, p :: l, hi => ∃ k, p.slots = List.range' lo (k + 1) ∧ Tiles (lo + k + 1) l hi

theorem Tiles.snoc {k : Nat} (h : Tiles lo l hi)
    (hp : p.slots = List.range' hi (k + 1)) : Tiles lo (l ++ [p]) (hi + k + 1) := by
  induction l generalizing lo with
  | nil =>
    obtain rfl : lo = hi := h
    exact ⟨k, hp, rfl⟩
  | cons q l ih =>
    obtain ⟨m, hq, h⟩ := h
    exact ⟨m, hq, ih h⟩

theorem Tiles.le (h : Tiles lo l hi) : lo ≤ hi := by
  induction l generalizing lo with
  | nil => exact Nat.le_of_eq h
  | cons p l ih =>
    obtain ⟨k, -, h⟩ := h
    have := ih h
    omega

theorem Tiles.mem (h : Tiles lo l hi) (hp : p ∈ l) :
    ∃ a k, p.slots = List.range' a (k + 1) ∧ lo ≤ a ∧ a + k < hi := by
  induction l generalizing lo with
  | nil => cases hp
  | cons q l ih =>
    obtain ⟨k, hq, h⟩ := h
    rcases mem_cons.mp hp with rfl | hp
    · exact ⟨lo, k, hq, Nat.le_refl _, h.le⟩
    · obtain ⟨a, m, ha, hlo, hhi⟩ := ih h hp
      exact ⟨a, m, ha, by omega, hhi⟩

theorem Tiles.mem_slots (h : Tiles lo l hi) (hp : p ∈ l)
    {i : Nat} (hi' : i ∈ p.slots) : lo ≤ i ∧ i < hi := by
  obtain ⟨a, k, ha, hlo, hhi⟩ := h.mem hp
  rw [ha, mem_range'_1] at hi'
  omega

/-- The device is done with a request: of its slots the first is marked, the others are not. -/
structure Marked (desc : Nat → Desc) (p : Published Req) : Prop where
  head : ∀ i ∈ p.slots.head?, (desc i).has fUsed = true ∧ (desc i).has fNext = false ∧
    (desc i).has fIndirect = false
  tail : ∀ i ∈ p.slots.tail, (desc i).has fUsed = false

theorem Marked.congr {desc desc' : Nat → Desc} (h : Marked desc p)
    (heq : ∀ i ∈ p.slots, desc' i = desc i) : Marked desc' p where
  head i hi := by
    rw [heq i (mem_of_mem_head? hi)]
    exact h.head i hi
  tail i hi := by
    rw [heq i (mem_of_mem_tail hi)]
    exact h.tail i hi

theorem recycleWalk_end {steps cur : Nat} (hpos : 0 < steps) (h : (vq.desc cur).has fNext = false) :
    recycleWalk vq steps cur = some [cur] := by
  obtain ⟨steps, rfl⟩ := Nat.exists_eq_succ_of_ne_zero hpos.ne'
  rw [recycleWalk, if_neg (by simp [h])]

theorem packedRecycle_marked (hwrap : vq.usedWrap = true)
    (hused : (vq.desc vq.lastUsedIdx).has fUsed = true)
    (hnext : (vq.desc vq.lastUsedIdx).has fNext = false)
    (hind : (vq.desc vq.lastUsedIdx).has fIndirect = false)
    (hsize : vq.lastUsedIdx + 1 < vq.size) (hwidth : vq.lastUsedIdx + 1 < 2 ^ 16) :
    packedRecycle vq = some (vq.callerData vq.lastUsedIdx, { vq with
      desc := fun i => if i ∈ [vq.lastUsedIdx] then {} else vq.desc i
      lastUsedIdx := vq.lastUsedIdx + 1
      callerData := update vq.callerData vq.lastUsedIdx none }) := by
  have hidx : vq.lastUsedIdx % vq.size = vq.lastUsedIdx := mod_eq_of_lt (by omega)
  have hpos : 0 < vq.size := by omega
  have hlast : (vq.lastUsedIdx + 1 % 2 ^ 16) % vq.size % 2 ^ 16 = vq.lastUsedIdx + 1 := by
    rw [mod_eq_of_lt (by omega : vq.lastUsedIdx + 1 % 2 ^ 16 < vq.size)]
    omega
  have hlap : ¬ vq.size ≤ vq.lastUsedIdx + 1 % 2 ^ 16 := by omega
  simp only [packedRecycle, hidx, hused, hwrap, bne_self_eq_false, Bool.false_eq_true, if_false,
    hind,
    recycleWalk_end, hpos, hnext, length_singleton, hlast, hlap]

/-- The first lap. From `lo` on there are the requests that the device is done with, from `devPos`
on those at the device, from `nextAvailIdx` on nothing. The driver looks for used descriptors at
`lo`, or has got stuck before it. -/
structure Inv (s : State Req) (lo : Nat) : Prop where
  sound : s.faulted = false
  avail : s.vq.availWrap = true
  used : s.vq.usedWrap = true
  dev : s.devWrap = true
  lap : s.vq.nextAvailIdx < lap s.vq.size
  fresh : ∀ i, s.vq.nextAvailIdx ≤ i → (s.vq.desc i).flags = 0
  unused : ∀ i, s.devPos ≤ i → (s.vq.desc i).has fUsed = false
  returned : Tiles lo s.returned s.devPos
  inFlight : Tiles s.devPos s.inFlight s.vq.nextAvailIdx
  marked : ∀ p ∈ s.returned, Marked s.vq.desc p
  last : s.vq.lastUsedIdx = lo ∨ (s.vq.lastUsedIdx < lo ∧ (s.vq.desc s.vq.lastUsedIdx).has fUsed =
    false)
  data : ∀ p ∈ s.returned ++ s.inFlight, ∀ i ∈ p.slots.head?, s.vq.callerData i = some p.req

theorem inv_start (size : Nat) (inorder indirect : Bool) :
    Inv (start size inorder indirect : State Req) 0 where
  sound := rfl
  avail := rfl
  used := rfl
  dev := rfl
  lap := lt_min.mpr ⟨queueSize_pos size, Nat.two_pow_pos 16⟩
  fresh _ _ := rfl
  unused _ _ := Desc.has_of_flags_zero rfl _
  returned := rfl
  inFlight := rfl
  marked := by simp [start]
  last := .inl rfl
  data := by simp [start]

namespace Inv

variable {s s' : State Req} {lo : Nat}

variable (h : Inv s lo)
include h

theorem le : lo ≤ s.devPos ∧ s.devPos ≤ s.vq.nextAvailIdx :=
  ⟨h.returned.le, h.inFlight.le⟩

theorem mem_slots_lt {p : Published Req} (hp : p ∈ s.returned ++ s.inFlight) {i : Nat}
    (hi : i ∈ p.slots) : lo ≤ i ∧ i < s.vq.nextAvailIdx := by
  have hle := h.le
  rcases mem_append.mp hp with hp | hp
  · have := h.returned.mem_slots hp hi
    omega
  · have := h.inFlight.mem_slots hp hi
    omega

theorem placed {vq' : Vq Req} {k : Nat} {l : List (Published Req)} (hplaced : Placed s.vq k req vq')
    (hlap : s.vq.nextAvailIdx + k < Packed.lap s.vq.size)
    (hl : Tiles s.devPos l (s.vq.nextAvailIdx + k))
    (hmem : ∀ p ∈ l, p ∈ s.inFlight ∨ (p.req = req ∧ p.slots = List.range' s.vq.nextAvailIdx k)) :
    Inv { s with vq := vq', inFlight := l } lo where
  sound := h.sound
  avail := hplaced.avail.trans h.avail
  used := hplaced.used.trans h.used
  dev := h.dev
  lap := by
    simp only [hplaced.next, hplaced.size]
    exact hlap
  fresh i hi := by
    simp only [hplaced.next] at hi
    simp only [hplaced.outside i (.inr hi)]
    exact h.fresh i (by omega)
  unused i hi := by
    by_cases hin : s.vq.nextAvailIdx ≤ i ∧ i < s.vq.nextAvailIdx + k
    · exact (hplaced.inside i hin.1 hin.2).2
    · simp only [hplaced.outside i (by omega)]
      exact h.unused i hi
  returned := h.returned
  inFlight := by
    simp only [hplaced.next]
    exact hl
  marked p hp := (h.marked p hp).congr fun i hi =>
    hplaced.outside i (.inl (h.mem_slots_lt (mem_append_left _ hp) hi).2)
  last := by
    have hle := h.le
    simp only [hplaced.last]
    refine h.last.imp_right fun hstuck => ⟨hstuck.1, ?_⟩
    rw [hplaced.outside _ (.inl (by omega))]
    exact hstuck.2
  data p hp i hi := by
    simp only [hplaced.data]
    have hold : p ∈ s.returned ++ s.inFlight → update s.vq.callerData s.vq.nextAvailIdx
        (some req) i = some p.req := by
      intro hp
      have := h.mem_slots_lt hp (mem_of_mem_head? hi)
      rw [update_of_ne (by omega)]
      exact h.data p hp i hi
    rcases mem_append.mp hp with hp | hp
    · exact hold (mem_append_left _ hp)
    · rcases hmem p hp with hp | ⟨hreq, hslots⟩
      · exact hold (mem_append_right _ hp)
      · obtain ⟨-, rfl⟩ : k ≠ 0 ∧ s.vq.nextAvailIdx = i := by
          simpa [hslots, head?_range'] using hi
        rw [update_self, hreq]

theorem add (hwithin : Within s (.add heap buf req)) (hs : step s (.add heap buf req) = some s') :
    Kept s (.add heap buf req) s' ∧ Inv s' lo := by
  rw [step, if_neg (by simp [h.sound])] at hs
  rcases addBuf_within req h.fresh h.avail hwithin with hadd | ⟨vq', hadd, hplaced, hchain⟩
  · simp only [hadd] at hs
    cases hs
    exact ⟨⟨h.sound, fun _ _ _ _ => rfl, fun p hp => by simp at hp⟩, h⟩
  · simp only [hadd, hchain] at hs
    cases hs
    have hkept : ∀ p ∈ s.inFlight, ∀ i ∈ p.slots, vq'.desc i = s.vq.desc i := fun p hp i hi =>
      hplaced.outside i (.inl (h.mem_slots_lt (mem_append_right _ hp) hi).2)
    cases hk : s.vq.takes heap buf.total with
    | zero =>
      rw [hk] at hplaced
      exact ⟨⟨h.sound, hkept, fun p hp => by simp at hp⟩, h.placed hplaced h.lap h.inFlight fun p
        hp => .inl hp⟩
    | succ k =>
      rw [hk] at hplaced
      rw [Within, hk] at hwithin
      refine ⟨⟨h.sound, hkept, ?_⟩, h.placed hplaced hwithin (h.inFlight.snoc rfl) ?_⟩
      · intro p hp
        obtain rfl : p = _ := by simpa using hp
        refine ⟨nodup_range', ?_, ?_⟩
        · intro q hq i hi hi'
          have := h.mem_slots_lt (mem_append_right _ hq) hi
          rw [mem_range'_1] at hi'
          omega
        · intro i hi
          rw [mem_range'_1] at hi
          have hbits := hplaced.inside i hi.1 hi.2
          have havail : vq'.availWrap = true := hplaced.avail.trans h.avail
          simp [Vq.offered, hbits, havail]
      · intro p hp
        rcases mem_append.mp hp with hp | hp
        · exact .inl hp
        · obtain rfl := mem_singleton.mp hp
          exact .inr ⟨rfl, rfl⟩

theorem add_over (hover : ¬ Within s (.add heap buf req))
    (htakes : s.vq.takes heap buf.total < Packed.lap s.vq.size)
    (hs : step s (.add heap buf req) = some s') : ¬ Kept s (.add heap buf req) s' := by
  rw [step, if_neg (by simp [h.sound])] at hs
  obtain ⟨vq', hadd, hwrap, hused, hpos⟩ :=
    addBuf_over req (h.fresh _ (Nat.le_refl _)) h.lap htakes (Nat.not_lt.mp hover)
  have hhead := mem_chain vq' s.vq.nextAvailIdx hpos
  simp only [hadd, ne_nil_of_mem hhead, if_false] at hs
  cases hs
  rintro ⟨-, -, hoffered⟩
  have hbits := (hoffered ⟨vq'.chain s.vq.nextAvailIdx buf.total, req⟩ (by simp)).2.2 _ hhead
  simp [Vq.offered, hwrap, h.avail, hused] at hbits

theorem complete {i : Nat} {elem : Desc} (hwithin : Within s (.complete i elem))
    (hs : step s (.complete i elem) = some s') : Inv s' lo := by
  obtain ⟨rfl, hnext, hind⟩ := hwithin
  rw [step, if_neg (by simp [h.sound])] at hs
  cases hl : s.inFlight with
  | nil => simp [hl] at hs
  | cons p l =>
    have htiles := h.inFlight
    rw [hl] at htiles
    obtain ⟨k, hp, htiles⟩ := htiles
    have hle := h.le
    have hend := htiles.le
    have hlap := h.lap
    have hsize : s.devPos + (k + 1) < s.vq.size := by
      rw [Packed.lap, lt_min] at hlap
      omega
    simp only [hl, getElem?_cons_zero, hp, length_range', mod_eq_of_lt hsize,
      if_neg (Nat.not_le.mpr hsize),
      eraseIdx_zero, tail_cons] at hs
    cases hs
    have hother : ∀ i, i ≠ s.devPos → update s.vq.desc s.devPos (elem.mark s.devWrap) i =
        s.vq.desc i := fun i hi => update_of_ne hi _ _
    exact { h with
      fresh := fun i hi => by
        simp only at hi ⊢
        rw [hother i (by omega)]
        exact h.fresh i hi
      unused := fun i hi => by
        simp only at hi ⊢
        rw [hother i (by omega)]
        exact h.unused i (by omega)
      returned := h.returned.snoc hp
      inFlight := htiles
      marked := fun q hq => by
        rcases mem_append.mp hq with hq | hq
        · exact (h.marked q hq).congr fun i hi => hother i (h.returned.mem_slots hq hi).2.ne
        · obtain rfl := mem_singleton.mp hq
          constructor
          · intro i hi
            obtain rfl : s.devPos = i := by simpa [hp, range'_succ] using hi
            simp only [update_self, h.dev]
            exact Desc.mark_has hnext hind
          · intro i hi
            simp only [hp, range'_succ, tail_cons, mem_range'_1] at hi
            simp only [hother i (by omega)]
            exact h.unused i (by omega)
      last := by
        refine h.last.imp_right fun hstuck => ⟨hstuck.1, ?_⟩
        simp only [hother s.vq.lastUsedIdx (by omega)]
        exact hstuck.2
      data := fun q hq => h.data q (by simpa [hl] using hq) }

theorem recycle_none (hlast : (s.vq.desc s.vq.lastUsedIdx).has fUsed = false) :
    step s .recycle = some s := by
  have hle := h.le
  have hlap := h.lap
  have hidx : s.vq.lastUsedIdx % s.vq.size = s.vq.lastUsedIdx := by
    rw [Packed.lap, lt_min] at hlap
    rcases h.last with hlast | hlast <;> exact mod_eq_of_lt (by omega)
  have hnone : packedRecycle s.vq = some (none, s.vq) := by
    simp [packedRecycle, hidx, hlast, h.used]
  rw [step, if_neg (by simp [h.sound]), hnone]
  simp

theorem recycle (hwithin : Within s .recycle) (hs : step s .recycle = some s') :
    Kept s .recycle s' ∧ ∃ lo', Inv s' lo' := by
  cases hret : s.returned with
  | nil =>
    have hlo : lo = s.devPos := by simpa [hret, Tiles] using h.returned
    have hlast : (s.vq.desc s.vq.lastUsedIdx).has fUsed = false := by
      rcases h.last with hlast | hlast
      · exact h.unused _ (by omega)
      · exact hlast.2
    rw [h.recycle_none hlast] at hs
    cases hs
    exact ⟨⟨h.sound, by simp [hret], by simp [hret]⟩, lo, h⟩
  | cons p l =>
    have htiles := h.returned
    rw [hret] at htiles
    obtain ⟨k, hp, htiles⟩ := htiles
    have hlast : lo = s.vq.lastUsedIdx := by
      simpa [Within, hret, hp, range'_succ] using hwithin
    have hmarked := h.marked p (by simp [hret])
    obtain ⟨hused, hnext, hind⟩ := hmarked.head lo (by simp [hp, range'_succ])
    have hdata := h.data p (by simp [hret]) lo (by simp [hp, range'_succ])
    have hle := h.le
    have hend := htiles.le
    have hlap := h.lap
    have hsize : lo + 1 < s.vq.size ∧ lo + 1 < 2 ^ 16 := by
      rw [Packed.lap, lt_min] at hlap
      omega
    have hrecycle := packedRecycle_marked h.used (hlast ▸ hused) (hlast ▸ hnext) (hlast ▸ hind)
      (hlast ▸ hsize.1) (hlast ▸ hsize.2)
    rw [← hlast, hdata] at hrecycle
    rw [step, if_neg (by simp [h.sound]), hrecycle] at hs
    simp only [Option.isSome_some, if_true, hret, tail_cons, Option.toList_some,
      Option.some.injEq] at hs
    subst hs
    have hother : ∀ i, i ≠ lo → (if i ∈ [lo] then ({} : Desc) else s.vq.desc i) = s.vq.desc i :=
      fun i hi => if_neg (by simpa using hi)
    refine ⟨⟨h.sound, by simp [hret], by simp [hret]⟩, lo + k + 1, ?_⟩
    exact { h with
      fresh := fun i hi => by
        simp only at hi ⊢
        rw [hother i (by omega)]
        exact h.fresh i hi
      unused := fun i hi => by
        simp only at hi ⊢
        rw [hother i (by omega)]
        exact h.unused i hi
      returned := htiles
      marked := fun q hq => (h.marked q (by simp [hret, hq])).congr fun i hi => hother i (by
        have := htiles.mem_slots hq hi
        omega)
      last := by
        -- only one slot has been given back
        cases k with
        | zero => exact .inl rfl
        | succ k =>
          refine .inr ⟨by simp only; omega, ?_⟩
          simp only [hother (lo + 1) (by omega)]
          exact hmarked.tail (lo + 1) (by simp [hp, range'_succ])
      data := fun q hq i hi => by
        have hmem : lo + k + 1 ≤ i := by
          rcases mem_append.mp hq with hq | hq
          · exact (htiles.mem_slots hq (mem_of_mem_head? hi)).1
          · exact hend.trans (h.inFlight.mem_slots hq (mem_of_mem_head? hi)).1
        simp only [update_of_ne (show i ≠ lo by omega)]
        exact h.data q (by simpa [hret] using .inr (mem_append.mp hq)) i hi }

theorem recycle_stuck (hstuck : ¬ Within s .recycle) (hs : step s .recycle = some s') :
    ¬ Kept s .recycle s' := by
  cases hret : s.returned with
  | nil => exact absurd (by simp [Within, hret]) hstuck
  | cons p l =>
    have htiles := h.returned
    rw [hret] at htiles
    obtain ⟨k, hp, -⟩ := htiles
    rcases h.last with hlast | ⟨-, hlast⟩
    · exact absurd (by simp [Within, hret, hp, range'_succ, hlast]) hstuck
    · rw [h.recycle_none hlast] at hs
      cases hs
      rintro ⟨-, hhanded, -⟩
      simp [hret] at hhanded

end Inv

theorem exists_inv {size : Nat} {inorder indirect : Bool} {s : State Req}
    (h : Reach step Within (start size inorder indirect) s) : ∃ lo, Inv s lo := by
  refine h.invariant (I := fun s => ∃ lo, Inv s lo) ⟨0, inv_start size inorder indirect⟩ ?_
  rintro s a s' ⟨lo, h⟩ ha hs
  cases a with
  | add heap buf req => exact ⟨lo, (h.add ha hs).2⟩
  | complete i elem => exact ⟨lo, h.complete ha hs⟩
  | recycle => exact (h.recycle ha hs).2

/-- The calls for which the condition is exact. -/
def Sharp (s : State Req) : Move Req → Prop
  | .add heap buf _ => s.vq.takes heap buf.total < lap s.vq.size
  | .complete .. => False
  | .recycle => True

/-- As long as the steps are within the first lap every call does what it is to do. The first call
that is not does not, unless it takes a lap of slots at once. -/
theorem packed_queue_kept_iff (size : Nat) (inorder indirect : Bool) {s s' : State Req}
    {a : Move Req}
    (h : Reach step Within (start size inorder indirect) s) (hs : step s a = some s') :
    (Within s a → Kept s a s') ∧ (Sharp s a → (Kept s a s' ↔ Within s a)) := by
  obtain ⟨lo, h⟩ := exists_inv h
  cases a with
  | add heap buf req =>
    have hkept : Within s (.add heap buf req) → Kept s (.add heap buf req) s' :=
      fun ha => (h.add ha hs).1
    exact ⟨hkept, fun hsharp => ⟨fun hk => by_contra fun hover => h.add_over hover hsharp hs hk,
      hkept⟩⟩
  | complete i elem => exact ⟨fun _ => trivial, fun hsharp => hsharp.elim⟩
  | recycle =>
    have hkept : Within s .recycle → Kept s .recycle s' := fun ha => (h.recycle ha hs).1
    exact ⟨hkept, fun _ => ⟨fun hk => by_contra fun hstuck => h.recycle_stuck hstuck hs hk, hkept⟩⟩

/-- Two requests in a ring of four, of which the first is done. -/
theorem packed_queue_kept_four : ∃ s s' : State Nat, Reach step Within (start 4 false false) s ∧
    s.inFlight.length = 1 ∧ step s .recycle = some s' ∧ s'.handed = [7] ∧ Kept s .recycle s' := by
  obtain ⟨s, hreach, hlen, hstep, hwithin⟩ : ∃ s : State Nat, Reach step Within
    (start 4 false false) s ∧
      (s.inFlight.length = 1 ∧ (step s .recycle).map State.handed = some [7] ∧ Within s .recycle) :=
    exists_reach (fun s a => decide (Within s a)) (fun _ _ => of_decide_eq_true)
      [.add none ⟨[⟨4096, 512⟩], []⟩ 7, .add none ⟨[], [⟨8192, 512⟩]⟩ 8, .complete 0 {}]
        (by decide +kernel)
  obtain ⟨s', hs, hhanded⟩ := Option.map_eq_some_iff.mp hstep
  exact ⟨s, s', hreach, hlen, hs, hhanded, (packed_queue_kept_iff 4 false false hreach hs).1
    hwithin⟩

/-- A ring of two with two requests at the device: the second one is not marked as available, in
whichever lap, and a third one takes the slot of the first. -/
theorem packed_queue_overwritten : ∃ s s' : State Nat, Reach step Any (start 2 true false) s ∧
    s.inFlight.map Published.slots = [[0], [1]] ∧ (s.vq.desc 1).has fAvail = false ∧
    (s.vq.desc 1).has fUsed = false ∧ step s (.add none ⟨[⟨12288, 512⟩], []⟩ 9) = some s' ∧
    s'.inFlight.map Published.slots = [[0], [1], [0]] ∧ ¬ Kept s (.add none ⟨[⟨12288, 512⟩], []⟩ 9)
      s' := by
  obtain ⟨s, hreach, hslots, havail, hused, hstep⟩ : ∃ s : State Nat, Reach step Any
    (start 2 true false) s ∧
      (s.inFlight.map Published.slots = [[0], [1]] ∧ (s.vq.desc 1).has fAvail = false ∧
        (s.vq.desc 1).has fUsed = false ∧ ((step s (.add none ⟨[⟨12288, 512⟩], []⟩ 9)).any fun s' =>
          decide (s'.inFlight.map Published.slots = [[0], [1], [0]] ∧
            ¬ Kept s (.add none ⟨[⟨12288, 512⟩], []⟩ 9) s')) = true) :=
    exists_reach_any [.add none ⟨[⟨4096, 512⟩], []⟩ 7, .add none ⟨[⟨8192, 512⟩], []⟩ 8]
      (by decide +kernel)
  obtain ⟨s', hs, hfails⟩ := (Option.any_eq_true ..).mp hstep
  obtain ⟨hslots', hnot⟩ := of_decide_eq_true hfails
  exact ⟨s, s', hreach, hslots, havail, hused, hs, hslots', hnot⟩

end ShiziOS.Virtio.Packed
