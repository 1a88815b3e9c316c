import ShiziOS.Lib.Runs
import Mathlib.Tactic

/-!
# Split virtqueues

The split queue of `kernel/drivers/virtio/core.c`: descriptors are taken from a free list, linked
through their `next` fields, filled, and published in the available ring; the device returns heads
in the used ring; a completion puts the descriptors back. An access outside of the descriptor
table, to a table that has been freed, or a loop that does not end is a fault.
-/

namespace ShiziOS.Virtio.Split

open Function Runs List Option

/-- `struct scatterlist`. -/
structure Seg where
  addr : Nat
  length : Nat
  deriving DecidableEq

/-- `struct virtio_desc`. -/
structure Desc where
  addr : Nat := 0
  len : Nat := 0
  flags : Nat := 0
  next : Nat := 0
  deriving DecidableEq

def fNext : Nat := 1
def fWrite : Nat := 2
def fIndirect : Nat := 4

def Desc.has (d : Desc) (flag : Nat) : Bool := d.flags &&& flag != 0

/-- The end of the free list. -/
def nil : Nat := 0xFFFF

/-- `struct virtioqueue`, with the rings and the indirect tables that are allocated. -/
structure Vq (Req : Type) where
  size : Nat
  indirect : Bool
  desc : Nat → Desc
  freeDesc : Nat
  availIdx : Nat
  availRing : Nat → Nat
  usedIdx : Nat
  usedRing : Nat → Nat
  lastUsedIdx : Nat
  callerData : Nat → Option Req
  tables : Nat → Option (Nat → Desc)

/-- The buffers of a call: those the device reads, then those it writes. -/
structure Buf where
  outs : List Seg
  ins : List Seg

def Buf.sg (buf : Buf) : List Seg := buf.outs ++ buf.ins

def Buf.total (buf : Buf) : Nat := (buf.outs.length + buf.ins.length) % 2 ^ 32

variable {Req : Type}

/-! ## The functions -/

/-- The loop of `_split_alloc_desc`: `steps` times on to the next free descriptor. -/
def allocWalk (vq : Vq Req) : (steps cur : Nat) → Option (Option Nat)
  | 0, cur => if cur = nil then some none else some (some cur)
  | steps + 1, cur =>
    if cur = nil then some none
    else if cur < vq.size then allocWalk vq steps (vq.desc cur).next
    else none

/-- `_split_alloc_desc`. With `count = 0` the number of steps wraps. -/
def splitAllocDesc (vq : Vq Req) (count : Nat) : Option (Option (Nat × Vq Req)) :=
  if vq.freeDesc = nil then some none
  else
    match allocWalk vq ((count + 2 ^ 32 - 1) % 2 ^ 32) vq.freeDesc with
    | none => none
    | some none => some none
    | some (some last) =>
      if last < vq.size then some (some (vq.freeDesc, { vq with freeDesc := (vq.desc last).next }))
        else none

/-- `split_create_indirect_raw`, if the feature is there; `heap` is the answer of the allocator. -/
def splitCreateIndirect (vq : Vq Req) (heap : Option Nat) (count : Nat) :
    Option (Option (Nat × Vq Req)) :=
  if vq.indirect = false ∨ count = 0 then some none
  else
    match heap with
    | none => some none
    | some table =>
      match splitAllocDesc vq 1 with
      | none => none
      | some none => some none
      | some (some (head, vq)) =>
        let main : Desc :=
          { vq.desc head with addr := table, len := count * 16 % 2 ^ 32, flags := fIndirect }
        some (some (head, { vq with
          desc := update vq.desc head main
          tables := update vq.tables table (some fun _ => {}) }))

def flagsOf (out i : Nat) : Nat := if i < out then fNext else fWrite ||| fNext

/-- A descriptor gets a buffer; its link stays. -/
def Desc.fill (d : Desc) (buf : Buf) (i : Nat) : Desc :=
  let seg := buf.sg.getD i ⟨0, 0⟩
  { d with addr := seg.addr, len := seg.length, flags := flagsOf buf.outs.length i }

/-- The loop of `split_fill_desc` over the descriptor table, from buffer `i` on. -/
def fillDirect (size : Nat) (buf : Buf) :
    (left i cur : Nat) → (Nat → Desc) → Option (Nat × (Nat → Desc))
  | 0, _, cur, desc => some (cur, desc)
  | left + 1, i, cur, desc =>
    if cur < size then fillDirect size buf left (i + 1) (desc cur).next
      (update desc cur ((desc cur).fill buf i))
    else none

/-- The loop over an indirect table. -/
def fillTable (buf : Buf) : (left i : Nat) → (Nat → Desc) → Nat → Desc
  | 0, _, table => table
  | left + 1, i, table => fillTable buf left (i + 1) (update table i ((table i).fill buf i))

/-- The end of a chain is to be marked by a link to `0`. -/
def Desc.unlink (d : Desc) : Desc := { d with next := 0 }

def Vq.publish (vq : Vq Req) (head : Nat) : Vq Req :=
  { vq with
    availRing := update vq.availRing (vq.availIdx % vq.size) head
    availIdx := (vq.availIdx + 1) % 2 ^ 16 }

/-- `split_fill_desc`. In the descriptor table the link that is cleared is that of the descriptor
after the chain. -/
def splitFillDesc (vq : Vq Req) (head : Nat) (buf : Buf) : Option (Vq Req) :=
  if (vq.desc head).has fIndirect then
    match vq.tables (vq.desc head).addr with
    | none => none
    | some table =>
      if buf.total = 0 then none
      else
        let table := fillTable buf buf.total 0 table
        let table := update table (buf.total - 1) (table (buf.total - 1)).unlink
        some (Vq.publish { vq with tables := update vq.tables (vq.desc head).addr (some table) }
          head)
  else
    match fillDirect vq.size buf buf.total 0 head vq.desc with
    | none => none
    | some (cur, desc) =>
      if cur < vq.size then some
        (Vq.publish { vq with desc := update desc cur (desc cur).unlink } head)
      else none

/-- `virtioqueue_add_buf`: the head of the chain, or `none` for `-ENOSPC`. -/
def addBuf (vq : Vq Req) (heap : Option Nat) (buf : Buf) (req : Req) : Option
    (Option Nat × Vq Req) := do
  let direct ← splitAllocDesc vq buf.total
  let alloc ← if direct.isSome then some direct else splitCreateIndirect vq heap buf.total
  match alloc with
  | none => some (none, vq)
  | some (head, vq) =>
    let vq ← splitFillDesc vq head buf
    some (some head, { vq with callerData := update vq.callerData head (some req) })

/-- The loop of `split_recycle` to the end of a chain. There are `2 ^ 16` numbers, so that a
longer walk never ends. -/
def recycleWalk (vq : Vq Req) : (steps cur : Nat) → Option Nat
  | 0, _ => none
  | steps + 1, cur =>
    if cur < vq.size then
      if (vq.desc cur).has fNext then recycleWalk vq steps (vq.desc cur).next else some cur
    else none

/-- `split_recycle`: the `caller_data`, if there is a completion. -/
def splitRecycle (vq : Vq Req) : Option (Option (Option Req) × Vq Req) :=
  if vq.lastUsedIdx = vq.usedIdx then some (none, vq)
  else
    let descId := vq.usedRing (vq.lastUsedIdx % vq.size) % 2 ^ 16
    if vq.size ≤ descId then none
    else
      let data := vq.callerData descId
      let vq := { vq with callerData := update vq.callerData descId none }
      let free (last : Nat) (tables : Nat → Option (Nat → Desc)) : Vq Req :=
        { vq with
          desc := update vq.desc last { vq.desc last with next := vq.freeDesc }
          tables := tables
          freeDesc := descId
          lastUsedIdx := (vq.lastUsedIdx + 1) % 2 ^ 16 }
      if (vq.desc descId).has fIndirect then
        some (some data, free descId (update vq.tables (vq.desc descId).addr none))
      else
        match recycleWalk vq (2 ^ 16 + 1) descId with
        | none => none
        | some last => some (some data, free last vq.tables)

/-- `VIRTIO_MAX_VIRTQUEUE_SIZE`. -/
def maxVirtqueueSize : Nat := 1024

/-- The size a queue is made with: `0` asks for the default. -/
def queueSize (size : Nat) : Nat := if size = 0 then maxVirtqueueSize else size

/-- `split_init`, with the size it settles on. -/
def splitInit (size : Nat) (indirect : Bool) : Vq Req where
  size := size
  indirect := indirect
  desc i := { next := if i + 1 < size then (i + 1) % 2 ^ 16 else nil }
  freeDesc := 0
  availIdx := 0
  availRing _ := 0
  usedIdx := 0
  usedRing _ := 0
  lastUsedIdx := 0
  callerData _ := none
  tables _ := none

/-! ## Driver and device -/

structure Published (Req : Type) where
  head : Nat
  buf : Buf
  req : Req

/-- The queue, the requests at the device, those that it has returned, and what the completions so
far have handed back. -/
structure State (Req : Type) where
  vq : Vq Req
  inFlight : List (Published Req) := []
  returned : List (Published Req) := []
  handed : List (Published Req × Option Req) := []
  faulted : Bool := false

inductive Move (Req : Type) where
  | add (heap : Option Nat) (buf : Buf) (req : Req)
  | complete (i : Nat)
  | recycle

def start (size : Nat) (indirect : Bool) : State Req where
  vq := splitInit (queueSize size) indirect

def step (s : State Req) : Move Req → Option (State Req)
  | .add heap buf req =>
    if s.faulted then none
    else
      match addBuf s.vq heap buf req with
      | none => some { s with faulted := true }
      | some (none, vq) => some { s with vq }
      | some (some head, vq) => some { s with vq, inFlight := s.inFlight ++ [⟨head, buf, req⟩] }
  | .complete i =>
    if s.faulted then none
    else
      match s.inFlight[i]? with
      | none => none
      | some p => some { s with
          vq := { s.vq with
            usedRing := update s.vq.usedRing (s.vq.usedIdx % s.vq.size) p.head
            usedIdx := (s.vq.usedIdx + 1) % 2 ^ 16 }
          inFlight := s.inFlight.eraseIdx i
          returned := s.returned ++ [p] }
  | .recycle =>
    if s.faulted then none
    else
      match splitRecycle s.vq with
      | none => some { s with faulted := true }
      | some (none, _) => some s
      | some (some data, vq) => some { s with
          vq
          returned := s.returned.tail
          handed := s.handed ++ (s.returned.take 1).map fun p => (p, data) }

/-! ## What a queue is to be -/

/-- The buffers of a call, with the ones the device may write marked. -/
def Buf.segs (buf : Buf) : List (Seg × Bool) := buf.outs.map (·, false) ++ buf.ins.map (·, true)

/-- A descriptor holds a buffer; `more` says that the chain goes on. -/
structure Holds (d : Desc) (seg : Seg × Bool) (more : Bool) : Prop where
  addr : d.addr = seg.1.addr
  len : d.len = seg.1.length
  flags : d.flags = (if seg.2 then fWrite else 0) + if more then fNext else 0

/-- The chain of the descriptors `l` carries exactly the given buffers and then ends. -/
def Carries (desc : Nat → Desc) : List (Seg × Bool) → List Nat → Prop
  | [seg], [i] => Holds (desc i) seg false
  | seg :: seg' :: segs, i :: j :: l =>
    Holds (desc i) seg true ∧ (desc i).next = j ∧ Carries desc (seg' :: segs) (j :: l)
  | _, _ => False

/-- The descriptors `l` are those of a published request, directly or through an indirect table. -/
def Chain (vq : Vq Req) (p : Published Req) (l : List Nat) : Prop :=
  (l.head? = some p.head ∧ Carries vq.desc p.buf.segs l) ∨
    (l = [p.head] ∧ (vq.desc p.head).flags = fIndirect ∧ ∃ table, vq.tables (vq.desc p.head).addr =
      some table ∧
      ∃ m, m.head? = some 0 ∧ Carries table p.buf.segs m)

def FreeList (desc : Nat → Desc) : Nat → List Nat → Prop
  | cur, [] => cur = nil
  | cur, i :: l => cur = i ∧ cur ≠ nil ∧ FreeList desc (desc i).next l

/-- Free list and chains share the descriptors out among them, every chain carries its request,
and every completion has handed back the data of its request. -/
structure Good (s : State Req) : Prop where
  sound : s.faulted = false
  partition : ∃ free chains, FreeList s.vq.desc s.vq.freeDesc free ∧
    List.Forall₂ (Chain s.vq) (s.inFlight ++ s.returned) chains ∧
    (free ++ chains.flatten).Perm (List.range s.vq.size)
  handed : ∀ h ∈ s.handed, h.2 = some h.1.req

/-- Calls that do not get a request into an empty queue: there is nothing to publish, or it needs
too many descriptors and there is no indirect table for it. -/
def Refused (size : Nat) (indirect : Bool) (_ : State Req) : Move Req → Prop
  | .add heap buf _ => buf.total = 0 ∨ min size nil < buf.total ∧ (indirect = false ∨ heap = none)
  | _ => True

/-! ## The empty queue -/

variable {n : Nat} {b : Bool}

/-- How many descriptors the free list of an empty queue has. -/
def room (n : Nat) : Nat := min n nil

theorem room_spec : room n ≤ n ∧ room n ≤ 65535 ∧ (room n = n ∨ room n = 65535) := by
  simp only [room, nil]
  omega

variable {i cur : Nat} {desc : Nat → Desc} {segs : List (Seg × Bool)} {l : List Nat}

theorem next_splitInit (hi : i < room n) :
    ((splitInit n b : Vq Req).desc i).next = if i + 1 < room n then i + 1 else nil := by
  obtain ⟨hn, hnil, hroom⟩ := room_spec (n := n)
  simp only [splitInit, nil]
  by_cases hmore : i + 1 < room n
  · rw [if_pos hmore, if_pos (by omega)]
    omega
  · split_ifs <;> omega

theorem allocWalk_splitInit {steps : Nat} (hi : i < room n) :
    allocWalk (splitInit n b : Vq Req) steps i = if i + steps < room n then some (some (i + steps))
      else some none := by
  have hnil : i ≠ nil ∧ i < n := by
    have := room_spec (n := n)
    simp only [nil]
    omega
  induction steps generalizing i with
  | zero => rw [allocWalk, if_neg hnil.1, Nat.add_zero, if_pos hi]
  | succ steps ih =>
    rw [allocWalk, if_neg hnil.1, if_pos (show i < (splitInit n b : Vq Req).size from hnil.2),
      next_splitInit hi]
    by_cases hnext : i + 1 < room n
    · rw [if_pos hnext, ih hnext (by have := room_spec (n := n); simp only [nil]; omega),
        Nat.add_assoc, Nat.add_comm 1]
    · rw [if_neg hnext, if_neg (by omega)]
      cases steps <;> simp [allocWalk]

theorem splitAllocDesc_splitInit (hn : 0 < n) {count : Nat} (hcount : count < 2 ^ 32) :
    splitAllocDesc (splitInit n b : Vq Req) count =
      if count = 0 ∨ room n < count then some none
      else some (some (0, { (splitInit n b : Vq Req) with
        freeDesc := if count < room n then count else nil })) := by
  have hroom : 0 < room n ∧ room n ≤ n ∧ room n ≤ 65535 := by
    have := room_spec (n := n)
    omega
  have hfree : (splitInit n b : Vq Req).freeDesc = 0 := rfl
  rw [splitAllocDesc, hfree, if_neg (show (0 : Nat) ≠ nil by decide), allocWalk_splitInit hroom.1,
    Nat.zero_add]
  by_cases hrefused : count = 0 ∨ room n < count
  · rw [if_pos hrefused, if_neg (by omega)]
  · rw [if_neg hrefused]
    have hsteps : (count + 2 ^ 32 - 1) % 2 ^ 32 = count - 1 := by omega
    have hlast : count - 1 < room n := by omega
    rw [hsteps, if_pos hlast]
    dsimp only
    rw [if_pos (show count - 1 < (splitInit n b : Vq Req).size from hlast.trans_le hroom.2.1),
      next_splitInit hlast,
      Nat.sub_add_cancel (by omega)]

theorem fillDirect_splitInit (buf : Buf) {left : Nat} (desc : Nat → Desc)
    (hleft : i + left ≤ room n)
    (hnext : ∀ j, i ≤ j → j < room n → (desc j).next = if j + 1 < room n then j + 1 else nil)
    (hpos : 0 < left) :
    ∃ desc', fillDirect n buf left i i desc = some (if i + left < room n then i + left
      else nil, desc') ∧
      (∀ j, (desc' j).next = (desc j).next) ∧
      (∀ j, i ≤ j → j < i + left → (desc' j).flags = flagsOf buf.outs.length j) ∧
      ∀ j, j < i ∨ i + left ≤ j → desc' j = desc j := by
  induction left generalizing i desc with
  | zero => cases hpos
  | succ left ih =>
    have hi : i < n := by
      have := room_spec (n := n)
      omega
    have hupdate : ∀ j, (update desc i ((desc i).fill buf i) j).next = (desc j).next := by
      intro j
      by_cases hj : j = i
      · subst hj
        rw [update_self]
        rfl
      · rw [update_of_ne hj]
    rw [fillDirect, if_pos hi, hnext i le_rfl (by omega)]
    cases left with
    | zero =>
      refine ⟨_, rfl, hupdate, ?_, ?_⟩
      · intro j hge hlt
        obtain rfl : j = i := by omega
        rw [update_self]
        rfl
      · intro j hj
        rw [update_of_ne (by omega)]
    | succ left =>
      rw [if_pos (by omega)]
      obtain ⟨desc', hfill, hnext', hflags, hrest⟩ := ih (i := i + 1) _ (by omega)
        (fun j hge hlt => (hupdate j).trans (hnext j (by omega) hlt)) (Nat.succ_pos left)
      refine ⟨desc', ?_, fun j => (hnext' j).trans (hupdate j), ?_, ?_⟩
      · rw [hfill, show i + 1 + (left + 1) = i + (left + 1 + 1) by omega]
      · intro j hge hlt
        by_cases hj : j = i
        · subst hj
          rw [hrest j (by omega), update_self]
          rfl
        · exact hflags j (by omega) (by omega)
      · intro j hj
        rw [hrest j (by omega), update_of_ne (by omega)]

theorem fillTable_spec (buf : Buf) (left i : Nat) (table : Nat → Desc) :
    (∀ j, (fillTable buf left i table j).next = (table j).next) ∧
      (∀ j, i ≤ j → j < i + left → (fillTable buf left i table j).flags =
        flagsOf buf.outs.length j) ∧
      ∀ j, j < i → fillTable buf left i table j = table j := by
  induction left generalizing i table with
  | zero => exact ⟨fun _ => rfl, fun j _ _ => by omega, fun _ _ => rfl⟩
  | succ left ih =>
    obtain ⟨hnext, hflags, hbelow⟩ := ih (i + 1) (update table i ((table i).fill buf i))
    rw [fillTable]
    refine ⟨fun j => (hnext j).trans ?_, fun j hge hlt => ?_, fun j hj => ?_⟩
    · by_cases hj : j = i
      · subst hj
        rw [update_self]
        rfl
      · rw [update_of_ne hj]
    · by_cases hj : j = i
      · subst hj
        rw [hbelow j (by omega), update_self]
        rfl
      · exact hflags j (by omega) (by omega)
    · rw [hbelow j (by omega), update_of_ne (by omega)]

/-! ## Chains do not end -/

theorem flagsOf_odd (out i : Nat) : flagsOf out i % 2 = 1 := by
  unfold flagsOf
  split <;> decide

theorem Holds.parity {d : Desc} {seg : Seg × Bool} {more : Bool} (h : Holds d seg more) :
    d.flags % 2 = more.toNat ∧ d.flags ≠ fIndirect := by
  rw [h.flags]
  cases seg.2 <;> cases more <;> decide

theorem length_of_carries {k j : Nat}
    (hodd : ∀ j < k, (desc j).flags % 2 = 1) (hnext : ∀ j, j + 1 < k → (desc j).next = j + 1)
    (hlast : ∀ j, j + 1 = k → (desc j).next = cur) (hcur : (desc cur).flags = 0)
    (h : Carries desc segs (j :: l)) (hj : j < k) : segs.length = k - j + 1 := by
  induction segs generalizing j l with
  | nil => cases l <;> cases h
  | cons seg segs ih =>
    cases segs with
    | nil =>
      cases l with
      | nil =>
        have hparity := (Holds.parity h).1
        rw [hodd j hj] at hparity
        cases hparity
      | cons _ _ => cases h
    | cons seg' segs =>
      cases l with
      | nil => cases h
      | cons j' l =>
        obtain ⟨-, hlink, hrest⟩ := h
        by_cases hmore : j + 1 < k
        · rw [hnext j hmore] at hlink
          have := ih (hlink ▸ hrest) hmore
          rw [length_cons, this]
          omega
        · have hend : j + 1 = k := by omega
          rw [hlast j hend] at hlink
          subst hlink
          cases segs with
          | nil =>
            simp only [length_cons, length_nil]
            omega
          | cons _ _ =>
            cases l with
            | nil => cases hrest
            | cons _ _ =>
              have hparity := (Holds.parity hrest.1).1
              rw [hcur] at hparity
              cases hparity

theorem Carries.head
    (h : Carries desc segs (i :: l)) : ∃ seg more, Holds (desc i) seg more := by
  match segs, l with
  | [seg], [] => exact ⟨seg, false, h⟩
  | seg :: _ :: _, _ :: _ => exact ⟨seg, true, h.1⟩

theorem not_carries_table {table : Nat → Desc} (hodd : (table 0).flags % 2 = 1)
    (hnext : (table 0).next = 0)
    : ¬ Carries table segs (0 :: l) := by
  induction segs generalizing l with
  | nil => cases l <;> exact id
  | cons seg segs ih =>
    intro h
    cases segs with
    | nil =>
      cases l with
      | nil =>
        have hparity := (Holds.parity h).1
        rw [hodd] at hparity
        cases hparity
      | cons _ _ => cases h
    | cons seg' segs =>
      cases l with
      | nil => cases h
      | cons j l =>
        obtain ⟨-, hlink, hrest⟩ := h
        rw [hnext] at hlink
        exact ih (hlink ▸ hrest)

theorem Buf.length_segs (buf : Buf) : buf.segs.length = buf.outs.length + buf.ins.length := by
  simp [Buf.segs]

theorem Buf.total_lt (buf : Buf) : buf.total < 2 ^ 32 := Nat.mod_lt _ (by decide)

/-! ## The first request -/

variable {buf : Buf} {heap : Option Nat} {req : Req}

/-- The call fails, or its chain is no chain for the request. -/
def Spoiled (buf : Buf) (req : Req) (r : Option (Option Nat × Vq Req)) : Prop :=
  r = none ∨ ∃ vq, r = some (some 0, vq) ∧ ∀ l, ¬ Chain vq ⟨0, buf, req⟩ l

theorem addBuf_refused (hn : 0 < n) (h : buf.total = 0 ∨ room n < buf.total ∧
    (b = false ∨ heap = none)) :
    addBuf (splitInit n b : Vq Req) heap buf req = some (none, splitInit n b) := by
  have hindirect : splitCreateIndirect (splitInit n b : Vq Req) heap buf.total = some none := by
    unfold splitCreateIndirect
    split_ifs with hno
    · rfl
    · have hheap : heap = none := by
        have hb : (splitInit n b : Vq Req).indirect = b := rfl
        tauto
      rw [hheap]
  rw [addBuf, splitAllocDesc_splitInit hn buf.total_lt, if_pos (by tauto)]
  simp [hindirect]

/-- The descriptors of a first request all say that the chain goes on, and the one after them has
no flag. -/
theorem not_chain_direct (hpos : 0 < buf.total) (hroom : buf.total ≤ room n) {desc' : Nat → Desc}
    {vq : Vq Req} (hnext : ∀ j, (desc' j).next = ((splitInit n b : Vq Req).desc j).next)
    (hflags : ∀ j < buf.total, (desc' j).flags = flagsOf buf.outs.length j)
    (hrest : ∀ j, buf.total ≤ j → desc' j = (splitInit n b : Vq Req).desc j)
    (hcur : cur = if buf.total < room n then buf.total else nil)
    (hvq : vq.desc = update desc' cur (desc' cur).unlink) (l : List Nat) :
    ¬ Chain vq ⟨0, buf, req⟩ l := by
  have hle : buf.total ≤ cur := by
    have := room_spec (n := n)
    rw [hcur]
    split
    · exact le_rfl
    · simp only [nil]
      omega
  have hdesc : ∀ j < buf.total, vq.desc j = desc' j := by
    intro j hj
    rw [hvq, update_of_ne (by omega)]
  have hzero : (vq.desc cur).flags = 0 := by
    rw [hvq, update_self, Desc.unlink, hrest cur hle]
    rfl
  have hlink : ∀ j < buf.total, (vq.desc j).next = if j + 1 < room n then j + 1 else nil := by
    intro j hj
    rw [hdesc j hj, hnext, next_splitInit (by omega)]
  rintro (⟨hhead, hcarries⟩ | ⟨-, hflag, -⟩)
  · cases l with
    | nil => cases hhead
    | cons i l =>
      obtain rfl : i = 0 := some.inj hhead
      have hlen : buf.segs.length = buf.total - 0 + 1 :=
        length_of_carries (fun j hj => by rw [hdesc j hj, hflags j hj, flagsOf_odd])
          (fun j hj => by rw [hlink j (by omega), if_pos (by omega)])
          (fun j hj => by rw [hlink j (by omega), hj, hcur]) hzero hcarries hpos
      rw [Buf.length_segs, Buf.total] at hlen
      omega
  · have hodd := flagsOf_odd buf.outs.length 0
    rw [← hflags 0 hpos, ← hdesc 0 hpos, hflag] at hodd
    cases hodd

theorem addBuf_direct (hn : 0 < n) (hpos : 0 < buf.total) (hroom : buf.total ≤ room n) :
    Spoiled buf req (addBuf (splitInit n b : Vq Req) heap buf req) := by
  obtain ⟨desc', hfill, hnext, hflags, hrest⟩ :=
    fillDirect_splitInit buf (splitInit n b : Vq Req).desc (by omega : 0 + buf.total ≤ room n)
      (fun j _ hj => next_splitInit hj) hpos
  rw [Nat.zero_add] at hfill hflags hrest
  rw [addBuf, splitAllocDesc_splitInit hn buf.total_lt, if_neg (by omega)]
  simp only [bind_eq_bind, bind_some, isSome_some, if_true]
  have hdirect : ((splitInit n b : Vq Req).desc 0).has fIndirect = false := by
    simp [splitInit, Desc.has]
  have hsize : (splitInit n b : Vq Req).size = n := rfl
  simp only [splitFillDesc, hdirect, Bool.false_eq_true, if_false, hsize, hfill]
  by_cases hcur : (if buf.total < room n then buf.total else nil) < n
  · rw [if_pos hcur]
    refine .inr ⟨_, rfl, ?_⟩
    exact not_chain_direct hpos hroom hnext (fun j hj => hflags j (Nat.zero_le j) hj)
      (fun j hj => hrest j (.inr hj)) rfl rfl
  · rw [if_neg hcur]
    exact .inl rfl

theorem addBuf_indirect (hn : 0 < n) (hroom : room n < buf.total) {table : Nat} :
    Spoiled buf req (addBuf (splitInit n true : Vq Req) (some table) buf req) := by
  have hspec := room_spec (n := n)
  have hone : splitAllocDesc (splitInit n true : Vq Req) 1 = some
    (some (0, { (splitInit n true : Vq Req) with
      freeDesc := if 1 < room n then 1 else nil })) := by
    rw [splitAllocDesc_splitInit hn (by decide), if_neg (by omega)]
  obtain ⟨hnext, hflags, -⟩ := fillTable_spec buf buf.total 0 fun _ => {}
  rw [addBuf, splitAllocDesc_splitInit hn buf.total_lt, if_pos (.inr hroom)]
  simp only [bind_eq_bind, bind_some, isSome_none, Bool.false_eq_true, if_false]
  have hindirect : (splitInit n true : Vq Req).indirect = true := rfl
  simp only [splitCreateIndirect, hindirect, Bool.true_eq_false, false_or,
    if_neg (by omega : ¬ buf.total = 0), hone,
    bind_some, splitFillDesc, update_self]
  have hhas : ∀ d : Desc, d.flags = fIndirect → d.has fIndirect = true := by
    intro d hd
    rw [Desc.has, hd]
    decide
  rw [if_pos (hhas _ rfl)]
  refine .inr ⟨_, rfl, fun l => ?_⟩
  rintro (⟨hhead, hcarries⟩ | ⟨-, -, t, htable, m, hm, hcarries⟩)
  · cases l with
    | nil => cases hhead
    | cons i l =>
      obtain rfl : i = 0 := some.inj hhead
      obtain ⟨seg, more, hholds⟩ := hcarries.head
      refine hholds.parity.2 ?_
      simp [Vq.publish]
  · cases m with
    | nil => cases hm
    | cons i m =>
      obtain rfl : i = 0 := some.inj hm
      simp only [Vq.publish, update_self] at htable
      cases htable
      refine not_carries_table ?_ ?_ hcarries
      · have hodd := hflags 0 le_rfl (by omega)
        by_cases hlast : 0 = buf.total - 1
        · rw [← hlast, update_self, Desc.unlink, hodd, flagsOf_odd]
        · rw [update_of_ne hlast, hodd, flagsOf_odd]
      · by_cases hlast : 0 = buf.total - 1
        · rw [← hlast, update_self, Desc.unlink]
        · rw [update_of_ne hlast, hnext]

theorem queueSize_pos (size : Nat) : 0 < queueSize size := by
  simp only [queueSize, maxVirtqueueSize]
  split_ifs <;> omega

theorem eq_start_of_reach {s : State Req} (h : Reach step (Refused (queueSize n) b) (start n b) s) :
    s = start n b := by
  refine h.invariant (I := fun s => s = start n b) rfl ?_
  rintro s a s' rfl ha hs
  have hfault : (start n b : State Req).faulted = false := rfl
  cases a with
  | add heap buf req =>
    have hrefused : addBuf (start n b : State Req).vq heap buf req =
        some (none, (start n b : State Req).vq) :=
      addBuf_refused (queueSize_pos n) ha
    simp only [step, hfault, Bool.false_eq_true, if_false, hrefused, some.injEq] at hs
    exact hs.symm
  | complete i => cases hs
  | recycle => exact (some.inj hs).symm

theorem freeList_splitInit (hnil : n ≤ nil) (hi : i ≤ n) :
    FreeList (splitInit n b : Vq Req).desc (if i < n then i else nil) (List.range' i (n - i)) := by
  have hroom : room n = n := Nat.min_eq_left hnil
  induction hk : n - i generalizing i with
  | zero =>
    rw [if_neg (by omega)]
    rfl
  | succ k ih =>
    rw [if_pos (by omega), range'_succ]
    refine ⟨rfl, by omega, ?_⟩
    rw [next_splitInit (by omega), hroom]
    exact ih (by omega) (by omega)

theorem FreeList.ne_nil (h : FreeList desc cur l) : ∀ i ∈ l, i ≠ nil := by
  induction l generalizing cur with
  | nil => simp
  | cons i l ih =>
    obtain ⟨rfl, hcur, h⟩ := h
    exact forall_mem_cons.mpr ⟨hcur, ih h⟩

theorem good_start_iff : Good (start n b : State Req) ↔ queueSize n ≤ nil := by
  constructor
  · rintro ⟨-, ⟨free, chains, hfree, hchains, hperm⟩, -⟩
    by_contra hnil
    cases hchains
    rw [flatten_nil, append_nil] at hperm
    exact hfree.ne_nil nil (hperm.mem_iff.mpr (mem_range.mpr (Nat.not_le.mp hnil))) rfl
  · intro hnil
    have hfree : FreeList (start n b : State Req).vq.desc (if 0 < queueSize n then 0 else nil) _ :=
      freeList_splitInit hnil (Nat.zero_le _)
    rw [if_pos (queueSize_pos n), Nat.sub_zero, ← range_eq_range'] at hfree
    exact ⟨rfl, ⟨List.range (queueSize n), [], hfree, .nil, by simp [start, splitInit]⟩,
      by simp [start]⟩

/-- As long as nothing gets into it a queue is well-formed, if its descriptors can be numbered.
The first request that does leaves a chain that does not end, or writes outside of the table. -/
theorem split_queue_spoiled (n : Nat) (b : Bool) :
    (∀ s, Reach step (Refused (queueSize n) b) (start n b : State Req) s →
      (Good s ↔ queueSize n ≤ nil)) ∧
      ∀ s s' a, Reach step (Refused (queueSize n) b) (start n b : State Req) s →
        step s a = some s' →
        ¬ Refused (queueSize n) b s a → ¬ Good s' := by
  constructor
  · intro s hs
    rw [eq_start_of_reach hs]
    exact good_start_iff
  · intro s s' a hs hstep ha hgood
    obtain rfl := eq_start_of_reach hs
    cases a with
    | complete i => exact ha trivial
    | recycle => exact ha trivial
    | add heap buf req =>
      simp only [Refused, not_or, not_and] at ha
      have hspoiled : Spoiled buf req (addBuf (start n b : State Req).vq heap buf req) := by
        by_cases hroom : buf.total ≤ room (queueSize n)
        · exact addBuf_direct (queueSize_pos n) (Nat.pos_of_ne_zero ha.1) hroom
        · have hno := ha.2 (Nat.not_le.mp hroom)
          cases heap with
          | none => exact absurd rfl hno.2
          | some table =>
            obtain rfl : b = true := by simpa using hno.1
            exact addBuf_indirect (queueSize_pos n) (Nat.not_le.mp hroom)
      have hfault : (start n b : State Req).faulted = false := rfl
      rcases hspoiled with hnone | ⟨vq, hsome, hchain⟩
      · simp only [step, hfault, Bool.false_eq_true, if_false, hnone] at hstep
        cases hstep
        cases hgood.sound
      · simp only [step, hfault, Bool.false_eq_true, if_false, hsome] at hstep
        cases hstep
        obtain ⟨free, chains, -, hchains, -⟩ := hgood.partition
        cases hchains with
        | cons hfirst _ => exact hchain _ hfirst

/-- A request for five of four descriptors is refused; one for a single descriptor is not. -/
theorem split_queue_spoiled_four :
    (∃ s, Reach step (Refused (queueSize 4) false) (start 4 false : State Nat) s ∧ Good s) ∧
      ∃ s', step (start 4 false : State Nat) (.add none ⟨[⟨4096, 512⟩], []⟩ 7) = some s' ∧
        s'.faulted = false ∧
        ¬ Good s' := by
  obtain ⟨hgood, hbad⟩ :
      (∀ s, Reach step (Refused (queueSize 4) false) (start 4 false : State Nat) s →
        (Good s ↔ queueSize 4 ≤ nil)) ∧ _ :=
    split_queue_spoiled 4 false
  have hrefused : Refused (queueSize 4) false (start 4 false : State Nat)
      (.add none ⟨List.replicate 5 ⟨4096, 512⟩, []⟩ 7) := .inr ⟨by decide, .inl rfl⟩
  have htaken : ¬ Refused (queueSize 4) false (start 4 false : State Nat)
      (.add none ⟨[⟨4096, 512⟩], []⟩ 7) := by
    simp [Refused, Buf.total, queueSize, nil]
  have hreach : Reach step (Refused (queueSize 4) false) (start 4 false : State Nat)
      (start 4 false) :=
    .single hrefused rfl
  refine ⟨⟨_, hreach, (hgood _ hreach).mpr (by decide)⟩, ?_⟩
  obtain ⟨s', hs, hfault⟩ : ∃ s', step (start 4 false : State Nat)
    (.add none ⟨[⟨4096, 512⟩], []⟩ 7) = some s' ∧
      s'.faulted = false := ⟨_, rfl, rfl⟩
  exact ⟨s', hs, hfault, hbad _ s' _ .start hs htaken⟩

theorem Chain.head_mem {vq : Vq Req} {p : Published Req} {l : List Nat} (h : Chain vq p l) :
    p.head ∈ l := by
  rcases h with ⟨hhead, -⟩ | ⟨rfl, -⟩
  · exact mem_of_mem_head? hhead
  · exact mem_singleton_self _

theorem nodup_heads {vq : Vq Req} {ps : List (Published Req)} {chains : List (List Nat)}
    (h : List.Forall₂ (Chain vq) ps chains) (hn : chains.flatten.Nodup) :
    (ps.map Published.head).Nodup ∧ ∀ p ∈ ps, p.head ∈ chains.flatten := by
  induction h with
  | nil => simp
  | @cons p l ps chains hchain _ ih =>
    rw [flatten_cons, nodup_append] at hn
    obtain ⟨hnodup, hmem⟩ := ih hn.2.1
    refine ⟨?_, ?_⟩
    · rw [map_cons, nodup_cons, List.mem_map]
      refine ⟨?_, hnodup⟩
      rintro ⟨q, hq, hhead⟩
      exact hn.2.2 _ hchain.head_mem _ (hmem q hq) hhead.symm
    · intro q hq
      rw [flatten_cons, mem_append]
      rcases mem_cons.mp hq with rfl | hq
      · exact .inl hchain.head_mem
      · exact .inr (hmem q hq)

/-- Requests that share no descriptor have different heads. -/
theorem Good.nodup_inFlight {s : State Req} (h : Good s) :
    (s.inFlight.map Published.head).Nodup := by
  obtain ⟨free, chains, -, hchains, hperm⟩ := h.partition
  have hall := (nodup_append.mp (hperm.nodup_iff.mpr nodup_range)).2.1
  have hheads := (nodup_heads hchains hall).1
  rw [map_append, nodup_append] at hheads
  exact hheads.1

/-- Three requests of one buffer each: the descriptor of the first one, still at the device, is
given away again with the third, whose data takes the place of the first one's. -/
theorem split_queue_shared : ∃ s, Reach step Any (start 4 false : State Nat) s ∧
    s.inFlight.map Published.head = [0, 1, 0] ∧ s.vq.callerData 0 = some 9 ∧
      (s.vq.desc 1).has fNext = true ∧ ¬ Good s := by
  have hrun : ∃ s, Reach step Any (start 4 false : State Nat) s ∧
    (s.inFlight.map Published.head = [0, 1, 0] ∧
      s.vq.callerData 0 = some 9 ∧ (s.vq.desc 1).has fNext = true) :=
    exists_reach_any [.add none ⟨[⟨4096, 512⟩], []⟩ 7, .add none ⟨[⟨8192, 512⟩], []⟩ 8,
      .add none ⟨[⟨12288, 512⟩], []⟩ 9] (by decide +kernel)
  obtain ⟨s, hs, hheads, hdata, hnext⟩ := hrun
  refine ⟨s, hs, hheads, hdata, hnext, fun hgood => ?_⟩
  have hnodup := hgood.nodup_inFlight
  rw [hheads] at hnodup
  exact absurd hnodup (by decide)

end ShiziOS.Virtio.Split
