import ShiziOS.Lib.Worklist

/-!
# PCI enumeration

`pci_platform_probe` of `kernel/drivers/bus/pci/pci.c` with the functions it calls, for one
segment: buses are taken from a stack, every function found on a bus becomes a device, and the bus
behind a bridge is put on the stack. The configuration space is arbitrary and does not change.
Base registers and interrupt capabilities of a device are left out.
-/

namespace ShiziOS.Pci

open Runs Relation List Option Worklist

/-- Bus, device and function number. -/
structure Addr where
  bus : Fin 256
  dev : Nat
  func : Nat
  deriving DecidableEq

/-- The buses that the mapped region covers, the words of the configuration space by their offsets,
and whether there is memory to make a device of a function. -/
structure Env where
  startBus : Fin 256
  endBus : Fin 256
  config : Addr → Nat → BitVec 32
  creates : Addr → Bool

/-! ## Reading the configuration space -/

def vendorIdOffset : Nat := 0x00
def deviceIdOffset : Nat := 0x02
def classCodeOffset : Nat := 0x08
def headerTypeOffset : Nat := 0x0E
def secondaryBusOffset : Nat := 0x19
def subsystemVendorOffset : Nat := 0x2C
def subsystemDeviceOffset : Nat := 0x2E

def pciEcamRead (env : Env) (a : Addr) (offset size : Nat) : Option Nat :=
  if env.startBus ≤ a.bus ∧ a.bus ≤ env.endBus then
    let data := (env.config a (offset / 4 * 4)).toNat
    match size with
    | 1 => some (data / 2 ^ (offset % 4 * 8) % 2 ^ 8)
    | 2 =>
      if offset % 2 = 1 then none
      else some (data / 2 ^ (if offset / 2 % 2 = 1 then 16 else 0) % 2 ^ 16)
    | 4 => if offset % 4 ≠ 0 then none else some data
    | _ => none
  else none

def pciDeviceExists (env : Env) (a : Addr) : Bool :=
  match pciEcamRead env a vendorIdOffset 2 with
  | none => false
  | some vendor => vendor != 0xFFFF && vendor != 0

/-- `struct pci_dev_priv`, as `pci_alloc_device_priv` fills it in. -/
structure PciDevPriv where
  addr : Addr
  vendorId : Nat
  deviceId : Nat
  classCode : Nat
  subsystemVendor : Nat
  subsystemDevice : Nat
  headerType : Nat

/-- `pci_alloc_device_priv`, if there is memory. -/
def pciAllocDevicePriv (env : Env) (a : Addr) : Option PciDevPriv := do
  if pciDeviceExists env a then
    let vendorId ← pciEcamRead env a vendorIdOffset 2
    let deviceId ← pciEcamRead env a deviceIdOffset 2
    let classCode ← pciEcamRead env a classCodeOffset 4
    let subsystemVendor ← pciEcamRead env a subsystemVendorOffset 2
    let subsystemDevice ← pciEcamRead env a subsystemDeviceOffset 2
    let headerType ← pciEcamRead env a headerTypeOffset 1
    pure ⟨a, vendorId, deviceId, classCode / 2 ^ 8, subsystemVendor, subsystemDevice, headerType⟩
  else none

/-! ## Scanning -/

/-- `struct scan_entry`; the bridge that leads to the bus is the parent of its devices. -/
structure ScanEntry where
  bus : Fin 256
  parent : Option Addr

structure Device where
  pdev : PciDevPriv
  parent : Option Addr

/-- The stack, its top first, and the devices that have been added. -/
structure State where
  stack : List ScanEntry
  devices : List Device

def scanStackDepth : Nat := 32

def isBridge (headerType : Nat) : Bool := headerType % 2 ^ 7 == 1 || headerType % 2 ^ 7 == 2

def pciHandleBridge (env : Env) (pdev : PciDevPriv) (stack : List ScanEntry) : List ScanEntry :=
  if isBridge pdev.headerType then
    match pciEcamRead env pdev.addr secondaryBusOffset 1 with
    | none => stack
    | some val =>
      let secondaryBus := Fin.ofNat 256 val
      if stack.any fun entry => entry.bus = secondaryBus then stack
      else if scanStackDepth ≤ stack.length then stack
      else ⟨secondaryBus, some pdev.addr⟩ :: stack
  else stack

/-- The body of the loop over functions. -/
def scanFunction (env : Env) (parent : Option Addr) (s : State) (a : Addr) : State :=
  if pciDeviceExists env a then
    match pciAllocDevicePriv env a with
    | none => s
    | some pdev =>
      if env.creates a then ⟨pciHandleBridge env pdev s.stack, s.devices ++ [⟨pdev, parent⟩]⟩ else s
  else s

/-- How many functions of a device are looked at. -/
def functionCount (env : Env) (bus : Fin 256) (dev : Nat) : Nat :=
  match pciEcamRead env ⟨bus, dev, 0⟩ headerTypeOffset 1 with
  | none => 8
  | some headerType => if headerType / 2 ^ 7 % 2 = 1 then 8 else 1

def pciScanBus (env : Env) (entry : ScanEntry) (s : State) : State :=
  (range 32).foldl (fun s dev =>
    (range (functionCount env entry.bus dev)).foldl (fun s func =>
      scanFunction env entry.parent s ⟨entry.bus, dev, func⟩) s) s

/-- One pass of the loop of `pci_platform_probe`. -/
def step (env : Env) (s : State) (_ : Unit) : Option State :=
  match s.stack with
  | [] => none
  | entry :: rest => some (pciScanBus env entry ⟨rest, s.devices⟩)

def start (env : Env) : State := ⟨[⟨env.startBus, none⟩], []⟩

/-! ## What is to be found -/

/-- A function is there if it has a vendor, and, unless it is the first one of its device, the
first one says that the device has several. -/
structure Present (env : Env) (a : Addr) : Prop where
  dev : a.dev < 32
  func : a.func < functionCount env a.bus a.dev
  vendor : pciDeviceExists env a = true

/-- A bridge on a bus leads to the bus with its secondary bus number. -/
def Leads (env : Env) (b t : Fin 256) : Prop :=
  ∃ a, Present env a ∧ a.bus = b ∧ (∃ h, pciEcamRead env a headerTypeOffset 1 = some h ∧
    isBridge h = true) ∧
    ∃ val, pciEcamRead env a secondaryBusOffset 1 = some val ∧ t = Fin.ofNat 256 val

/-- The scan ends, and every function on a bus that bridges lead to has become a device exactly
once. -/
def Complete (env : Env) : Prop :=
  ∃ s, Reach (step env) Any (start env) s ∧ s.stack = [] ∧
    ∀ a, Present env a → ReflTransGen (Leads env) env.startBus a.bus →
      (s.devices.map fun d => d.pdev.addr).count a = 1

/-! ## One bus -/

variable {env : Env} {s s' : State} {a : Addr} {b : Fin 256}

/-- The addresses that are looked at on a bus. -/
def candidates (env : Env) (b : Fin 256) : List Addr :=
  (range 32).flatMap fun dev => (range (functionCount env b dev)).map fun func =>
    ⟨b, dev, func⟩

/-- The functions that become devices. -/
def found (env : Env) (b : Fin 256) : List Addr :=
  (candidates env b).filter fun a => pciDeviceExists env a && env.creates a

/-- The bus that a bridge leads to. -/
def secondary (env : Env) (a : Addr) : Option (Fin 256) :=
  match pciEcamRead env a headerTypeOffset 1, pciEcamRead env a secondaryBusOffset 1 with
  | some headerType, some val => if isBridge headerType then some (Fin.ofNat 256 val) else none
  | _, _ => none

/-- The buses behind the bridges of a bus. -/
def behind (env : Env) (b : Fin 256) : List (Fin 256) := (found env b).filterMap (secondary env)

theorem pciScanBus_eq (entry : ScanEntry) :
    pciScanBus env entry s = (candidates env entry.bus).foldl (scanFunction env entry.parent)
      s := by
  simp only [pciScanBus, candidates, foldl_flatMap, foldl_map]

theorem covered_of_exists (h : pciDeviceExists env a = true) :
    env.startBus ≤ a.bus ∧ a.bus ≤ env.endBus := by
  by_contra hout
  simp [pciDeviceExists, pciEcamRead, hout] at h

theorem pciAllocDevicePriv_of_exists (h : pciDeviceExists env a = true) :
    ∃ pdev, pciAllocDevicePriv env a = some pdev ∧ pdev.addr = a ∧
      pciEcamRead env a headerTypeOffset 1 = some pdev.headerType ∧
      ∃ val, pciEcamRead env a secondaryBusOffset 1 = some val := by
  have hcov := covered_of_exists h
  simp only [pciAllocDevicePriv, h, pciEcamRead, if_pos hcov]
  exact ⟨_, rfl, rfl, rfl, _, rfl⟩

def State.buses (s : State) : List (Fin 256) := s.stack.map ScanEntry.bus

def State.addrs (s : State) : List Addr := s.devices.map fun d => d.pdev.addr

theorem buses_pciHandleBridge {pdev : PciDevPriv} {val : Nat} (stack : List ScanEntry)
    (hhead : pciEcamRead env pdev.addr headerTypeOffset 1 = some pdev.headerType)
    (hval : pciEcamRead env pdev.addr secondaryBusOffset 1 = some val) :
    (pciHandleBridge env pdev stack).map ScanEntry.bus =
      (secondary env pdev.addr).toList.foldl (push scanStackDepth)
      (stack.map ScanEntry.bus) := by
  simp only [pciHandleBridge, secondary, hhead, hval]
  generalize Fin.ofNat 256 val = t
  have hany : (stack.any fun entry => entry.bus = t) = true ↔ t ∈ stack.map ScanEntry.bus := by
    simp [List.any_eq_true]
  split_ifs with hbridge hmem hfull
  · simp only [Option.toList_some, foldl_cons, foldl_nil, push,
      if_pos (hany.mp hmem)]
  · simp only [Option.toList_some, foldl_cons, foldl_nil, push,
      if_neg (mt hany.mpr hmem),
      List.length_map, if_pos hfull]
  · simp only [Option.toList_some, foldl_cons, foldl_nil, push,
      if_neg (mt hany.mpr hmem),
      List.length_map, if_neg hfull, List.map_cons]
  · rfl

theorem scanFunction_spec (env : Env) (s : State) (parent : Option Addr) (a : Addr) :
    let isFound := pciDeviceExists env a && env.creates a
    (scanFunction env parent s a).buses =
        (if isFound then (secondary env a).toList else []).foldl (push scanStackDepth)
          s.buses ∧
      (scanFunction env parent s a).addrs = s.addrs ++ (if isFound then [a] else []) := by
  unfold scanFunction
  by_cases hexists : pciDeviceExists env a = true
  · obtain ⟨pdev, halloc, rfl, hhead, val, hval⟩ := pciAllocDevicePriv_of_exists hexists
    by_cases hcreates : env.creates pdev.addr = true
    · simp only [hexists, halloc, hcreates, Bool.and_self, if_true]
      refine ⟨buses_pciHandleBridge s.stack hhead hval, ?_⟩
      simp [State.addrs]
    · simp [hexists, halloc, hcreates]
  · simp [hexists]

theorem scan_spec (env : Env) (s : State) (parent : Option Addr) (l : List Addr) :
    let isFound := fun a => pciDeviceExists env a && env.creates a
    (l.foldl (scanFunction env parent) s).buses =
        ((l.filter isFound).filterMap (secondary env)).foldl (push scanStackDepth)
          s.buses ∧
      (l.foldl (scanFunction env parent) s).addrs = s.addrs ++ l.filter isFound := by
  induction l generalizing s with
  | nil => simp
  | cons a l ih =>
    obtain ⟨hbuses, haddrs⟩ := ih (scanFunction env parent s a)
    obtain ⟨hbuses1, haddrs1⟩ := scanFunction_spec env s parent a
    simp only [foldl_cons, hbuses, haddrs, hbuses1, haddrs1, filter_cons]
    by_cases hfound : (pciDeviceExists env a && env.creates a) = true
    · simp only [hfound, if_true, append_assoc, singleton_append, and_true]
      cases hsec : secondary env a <;> simp [hsec]
    · simp [hfound]

/-- A pass of the loop takes a bus from the stack, puts the buses behind it there and adds its
functions. -/
theorem step_spec (hs : step env s () = some s') : ∃ b rest, s.buses = b :: rest ∧
    s'.buses = (behind env b).foldl (push scanStackDepth) rest ∧
      s'.addrs = s.addrs ++ found env b := by
  unfold step at hs
  split at hs
  · cases hs
  · rename_i entry rest hstack
    cases hs
    obtain ⟨hbuses, haddrs⟩ :=
      scan_spec env ⟨rest, s.devices⟩ entry.parent (candidates env entry.bus)
    refine ⟨entry.bus, rest.map ScanEntry.bus, by simp [State.buses, hstack], ?_, ?_⟩
    · rw [pciScanBus_eq]
      exact hbuses
    · rw [pciScanBus_eq]
      exact haddrs

/-! ## Functions on a bus -/

theorem mem_candidates : a ∈ candidates env b ↔ a.bus = b ∧ a.dev < 32 ∧
    a.func < functionCount env b a.dev := by
  simp only [candidates, List.mem_flatMap, List.mem_range, List.mem_map]
  constructor
  · rintro ⟨dev, hdev, func, hfunc, rfl⟩
    exact ⟨rfl, hdev, hfunc⟩
  · rintro ⟨rfl, hdev, hfunc⟩
    exact ⟨a.dev, hdev, a.func, hfunc, rfl⟩

theorem nodup_candidates : (candidates env b).Nodup := by
  refine nodup_flatMap.mpr ⟨?_, ?_⟩
  · intro dev _
    refine nodup_range.map ?_
    intro f g h
    exact (Addr.mk.inj h).2.2
  · refine nodup_range.imp ?_
    intro d e hne a ha he
    obtain ⟨f, -, rfl⟩ := mem_map.mp ha
    obtain ⟨g, -, hg⟩ := mem_map.mp he
    exact hne (Addr.mk.inj hg).2.1.symm

theorem bus_of_mem_found (h : a ∈ found env b) : a.bus = b :=
  (mem_candidates.mp (mem_of_mem_filter h)).1

theorem count_found (h : a ∈ found env a.bus) : (found env b).count a = [b].count a.bus := by
  by_cases hb : b = a.bus
  · subst hb
    rw [count_singleton_self]
    exact count_eq_one_of_mem (nodup_candidates.filter _) h
  · rw [count_eq_zero.mpr fun hin => hb (bus_of_mem_found hin).symm,
      count_eq_zero.mpr (by simpa using Ne.symm hb)]

theorem count_flatMap_found (h : a ∈ found env a.bus) (done : List (Fin 256)) :
    (done.flatMap (found env)).count a = done.count a.bus := by
  induction done with
  | nil => rfl
  | cons b done ih =>
    rw [flatMap_cons, count_append, ih, count_found h]
    simp only [count_cons, count_nil]
    omega

theorem mem_found_iff (hmem : ∀ a, env.creates a = true) :
    a ∈ found env b ↔ Present env a ∧ a.bus = b := by
  simp only [found, mem_filter, mem_candidates, hmem, Bool.and_true]
  constructor
  · rintro ⟨⟨rfl, hdev, hfunc⟩, hvendor⟩
    exact ⟨⟨hdev, hfunc, hvendor⟩, rfl⟩
  · rintro ⟨⟨hdev, hfunc, hvendor⟩, rfl⟩
    exact ⟨⟨rfl, hdev, hfunc⟩, hvendor⟩

theorem secondary_eq_some {t : Fin 256} : secondary env a = some t ↔
    (∃ h, pciEcamRead env a headerTypeOffset 1 = some h ∧ isBridge h = true) ∧
      ∃ val, pciEcamRead env a secondaryBusOffset 1 = some val ∧ t = Fin.ofNat 256 val := by
  unfold secondary
  split
  · rename_i headerType val hhead hval
    simp only [ite_none_right_eq_some, some.injEq, hhead, hval, exists_eq_left', @eq_comm _ t]
  · rename_i hnone
    simp only [reduceCtorEq, false_iff, not_and]
    rintro ⟨h, hhead, -⟩ ⟨val, hval, -⟩
    exact hnone h val hhead hval

theorem leads_iff (hmem : ∀ a, env.creates a = true) {b t : Fin 256} :
    Leads env b t ↔ Edge (behind env) b t := by
  simp only [Leads, Edge, behind, mem_filterMap, mem_found_iff hmem,
    secondary_eq_some, and_assoc]

/-! ## The scan as a work list -/

/-- The stack and the scanned buses say which buses are waiting and which devices have been added.
-/
structure Matches (env : Env) (s : State) (w : Worklist.State (Fin 256)) : Prop where
  buses : s.buses = w.stack
  addrs : s.addrs = w.done.flatMap (found env)

variable {w w' : Worklist.State (Fin 256)}

theorem matches_start : Matches env (start env) (Worklist.start env.startBus) := ⟨rfl, rfl⟩

theorem Matches.step (h : Matches env s w) (hs : step env s () = some s') :
    ∃ w', Worklist.step (behind env) scanStackDepth w () = some w' ∧ Matches env s' w' := by
  obtain ⟨b, rest, hbuses, hbuses', haddrs'⟩ := step_spec hs
  have hstack : w.stack = b :: rest := h.buses.symm.trans hbuses
  refine ⟨⟨(behind env b).foldl (push scanStackDepth) rest, w.done ++ [b]⟩, ?_, hbuses',
    ?_⟩
  · simp only [Worklist.step, hstack]
  · rw [haddrs', h.addrs, flatMap_append, flatMap_cons, flatMap_nil, append_nil]

theorem Matches.step_back (h : Matches env s w)
    (hw : Worklist.step (behind env) scanStackDepth w () = some w') :
    ∃ s', Pci.step env s () = some s' ∧ Matches env s' w' := by
  obtain ⟨b, rest, hstack, -⟩ := step_cases hw
  have hbuses : s.stack.map ScanEntry.bus = b :: rest := h.buses.trans hstack
  obtain ⟨s', hs'⟩ : ∃ s', Pci.step env s () = some s' := by
    unfold Pci.step
    split
    · rename_i hnil
      rw [hnil] at hbuses
      cases hbuses
    · exact ⟨_, rfl⟩
  obtain ⟨w1, hw1, hmatch⟩ := h.step hs'
  obtain rfl := some.inj (hw.symm.trans hw1)
  exact ⟨s', hs', hmatch⟩

theorem matches_of_reach (h : Reach (step env) Any (start env) s) :
    ∃ w, Reach (Worklist.step (behind env) scanStackDepth) Any (Worklist.start env.startBus) w ∧
      Matches env s w := by
  induction h with
  | start => exact ⟨_, .start, matches_start⟩
  | next _ _ hs ih =>
    obtain ⟨w, hw, hmatch⟩ := ih
    obtain ⟨w', hw', hmatch'⟩ := hmatch.step hs
    exact ⟨w', hw.next trivial hw', hmatch'⟩

theorem matches_of_reach_back
    (h : Reach (Worklist.step (behind env) scanStackDepth) Any (Worklist.start env.startBus) w) :
    ∃ s, Reach (step env) Any (start env) s ∧ Matches env s w := by
  induction h with
  | start => exact ⟨_, .start, matches_start⟩
  | next _ _ hw ih =>
    obtain ⟨s, hs, hmatch⟩ := ih
    obtain ⟨s', hs', hmatch'⟩ := hmatch.step_back hw
    exact ⟨s', hs.next trivial hs', hmatch'⟩

/-! ## Conditions -/

/-- The stack has room for the buses behind the next bus. -/
def Room (env : Env) (s : State) : Prop :=
  ∀ b rest, s.buses = b :: rest → (rest ++ behind env b).toFinset.card ≤ scanStackDepth

/-- A bus behind the next bus that has functions is waiting, or none of its functions has been
added and it is not the next bus itself. -/
def Fresh (env : Env) (s : State) : Prop :=
  ∀ b rest, s.buses = b :: rest → ∀ t ∈ behind env b, found env t ≠ [] → t ∉ rest →
    (∀ a ∈ s.addrs, a.bus ≠ t) ∧ t ≠ b

theorem Matches.room_iff (h : Matches env s w) :
    Room env s ↔ Worklist.Room (behind env) scanStackDepth w := by
  rw [Room, Worklist.Room, h.buses]

theorem Matches.fresh_iff (h : Matches env s w) :
    Fresh env s ↔ Worklist.Fresh (behind env) (fun b => found env b ≠ []) w := by
  have hscanned : ∀ t, found env t ≠ [] → ((∀ a ∈ s.addrs, a.bus ≠ t) ↔ t ∉ w.done) := by
    intro t ht
    rw [h.addrs]
    constructor
    · intro hall hdone
      obtain ⟨a, ha⟩ := exists_mem_of_ne_nil _ ht
      exact hall a (mem_flatMap.mpr ⟨t, hdone, ha⟩) (bus_of_mem_found ha)
    · intro hnot a ha hbus
      obtain ⟨b, hb, hab⟩ := mem_flatMap.mp ha
      exact hnot (hbus ▸ bus_of_mem_found hab ▸ hb)
  rw [Fresh, Worklist.Fresh, h.buses]
  constructor
  · intro hfresh b rest hstack t ht hlive hrest
    obtain ⟨hnew, hne⟩ := hfresh b rest hstack t ht hlive hrest
    exact ⟨(hscanned t hlive).mp hnew, hne⟩
  · intro hfresh b rest hstack t ht hlive hrest
    obtain ⟨hnew, hne⟩ := hfresh b rest hstack t ht hlive hrest
    exact ⟨(hscanned t hlive).mpr hnew, hne⟩

/-- If memory lasts and the stack has room whenever a bus is scanned, the scan ends and makes
every function that is there a device exactly once if and only if it never meets a bridge to a bus
with functions that it has scanned before or is scanning. -/
theorem scan_complete_iff (env : Env) (hmem : ∀ a, env.creates a = true)
    (hroom : ∀ s, Reach (step env) Any (start env) s → Room env s) :
    Complete env ↔ ∀ s, Reach (step env) Any (start env) s → Fresh env s := by
  have hedge : Leads env = Edge (behind env) := by
    funext b t
    exact propext (leads_iff hmem)
  have hleaf : ∀ b, ¬ found env b ≠ [] → behind env b = [] := by
    intro b hb
    rw [behind, not_not.mp hb, filterMap_nil]
  have hroom' : ∀ w, Reach (Worklist.step (behind env) scanStackDepth) Any
    (Worklist.start env.startBus) w →
      Worklist.Room (behind env) scanStackDepth w := by
    intro w hw
    obtain ⟨s, hs, hmatch⟩ := matches_of_reach_back hw
    exact hmatch.room_iff.mp (hroom s hs)
  have hcomplete := complete_iff hleaf hroom'
  constructor
  · rintro ⟨s, hs, hend, hone⟩ s1 hs1
    obtain ⟨w, hw, hmatch⟩ := matches_of_reach hs
    obtain ⟨w1, hw1, hmatch1⟩ := matches_of_reach hs1
    refine hmatch1.fresh_iff.mpr (hcomplete.mp ⟨w, hw, ?_, ?_⟩ w1 hw1)
    · rw [← hmatch.buses, State.buses, hend, map_nil]
    · intro t hreach hlive
      obtain ⟨a, ha⟩ := exists_mem_of_ne_nil _ hlive
      obtain ⟨hpresent, rfl⟩ := (mem_found_iff hmem).mp ha
      rw [← count_flatMap_found ha, ← hmatch.addrs]
      exact hone a hpresent (hedge ▸ hreach)
  · intro hfresh
    obtain ⟨w, hw, hend, hone⟩ := hcomplete.mpr fun w hw => by
      obtain ⟨s, hs, hmatch⟩ := matches_of_reach_back hw
      exact hmatch.fresh_iff.mp (hfresh s hs)
    obtain ⟨s, hs, hmatch⟩ := matches_of_reach_back hw
    refine ⟨s, hs, ?_, ?_⟩
    · have hnil := hmatch.buses
      rw [hend] at hnil
      exact map_eq_nil_iff.mp hnil
    · intro a hpresent hreach
      have ha : a ∈ found env a.bus := (mem_found_iff hmem).mpr ⟨hpresent, rfl⟩
      show s.addrs.count a = 1
      rw [hmatch.addrs, count_flatMap_found ha]
      exact hone a.bus (hedge ▸ hreach) (ne_nil_of_mem ha)

/-- The configuration space of some bridges, given by their buses and secondary buses, all at
device `0`. -/
def bridges (secondaries : List (Fin 256 × Fin 256)) : Env where
  startBus := 0
  endBus := 255
  config a offset :=
    match secondaries.lookup a.bus with
    | none => 0xFFFFFFFF
    | some t =>
      if a.dev ≠ 0 ∨ a.func ≠ 0 then 0xFFFFFFFF
      else if offset = 0 then 0x00011234
      else if offset = 0x0C then 0x00010000
      else if offset = 0x18 then BitVec.ofNat 32 (t.val * 2 ^ 8)
      else 0
  creates _ := true

theorem behind_chain : behind (bridges [(0, 1), (1, 2)]) 0 = [1] ∧
    behind (bridges [(0, 1), (1, 2)]) 1 = [2] ∧
    behind (bridges [(0, 1), (1, 2)]) 2 = [] ∧ found (bridges [(0, 1), (1, 2)]) 2 = [] := by
  decide +kernel

theorem chain_states {s : State}
    (h : Reach (step (bridges [(0, 1), (1, 2)])) Any (start (bridges [(0, 1), (1, 2)])) s) :
    (s.buses = [0] ∧ s.addrs = []) ∨ s.buses = [1] ∨ s.buses = [2] ∨ s.buses = [] := by
  obtain ⟨h0, h1, h2, -⟩ := behind_chain
  induction h with
  | start => exact .inl ⟨rfl, rfl⟩
  | next _ _ hs ih =>
    obtain ⟨b, rest, hbuses, hbuses', -⟩ := step_spec hs
    rcases ih with ⟨hb, -⟩ | hb | hb | hb
    · obtain ⟨rfl, rfl⟩ := cons.inj (hbuses.symm.trans hb)
      exact .inr (.inl (by rw [hbuses', h0]; rfl))
    · obtain ⟨rfl, rfl⟩ := cons.inj (hbuses.symm.trans hb)
      exact .inr (.inr (.inl (by rw [hbuses', h1]; rfl)))
    · obtain ⟨rfl, rfl⟩ := cons.inj (hbuses.symm.trans hb)
      exact .inr (.inr (.inr (by rw [hbuses', h2]; rfl)))
    · rw [hb] at hbuses
      cases hbuses

theorem scan_complete_iff_chain : Complete (bridges [(0, 1), (1, 2)]) := by
  obtain ⟨h0, h1, h2, hempty⟩ := behind_chain
  refine (scan_complete_iff _ (fun _ => rfl) ?_).mpr ?_
  · intro s hs b rest hbuses
    rcases chain_states hs with ⟨hb, -⟩ | hb | hb | hb <;> rw [hb] at hbuses <;> cases hbuses
    · decide
    · decide
    · decide
  · intro s hs b rest hbuses t ht hlive _
    rcases chain_states hs with ⟨hb, haddrs⟩ | hb | hb | hb <;> rw [hb] at hbuses <;> cases hbuses
    · rw [h0, mem_singleton] at ht
      subst ht
      exact ⟨by simp [haddrs], by decide⟩
    · rw [h1, mem_singleton] at ht
      subst ht
      exact absurd hempty hlive
    · rw [h2] at ht
      cases ht

theorem behind_loop : behind (bridges [(0, 0)]) 0 = [0] := by
  decide +kernel

/-- A bridge that leads back to its own bus keeps the scan going for ever. -/
theorem scan_not_complete : ¬ Complete (bridges [(0, 0)]) := by
  have hloop : ∀ s, Reach (step (bridges [(0, 0)])) Any (start (bridges [(0, 0)])) s →
      s.buses = [0] := by
    intro s hs
    induction hs with
    | start => rfl
    | next _ _ hs ih =>
      obtain ⟨b, rest, hbuses, hbuses', -⟩ := step_spec hs
      obtain ⟨rfl, rfl⟩ := cons.inj (hbuses.symm.trans ih)
      rw [hbuses', behind_loop]
      rfl
  rintro ⟨s, hs, hend, -⟩
  have hbuses := hloop s hs
  rw [State.buses, hend] at hbuses
  cases hbuses

end ShiziOS.Pci
