import ShiziOS.Lib.TreeWalk
import Mathlib.Data.Fintype.Option
import Mathlib.Data.List.Nodup

/-!
# Removing devices

`drivers_remove_device` of `kernel/drivers/base/drivers.c` with the functions it calls. A device
stands in the list of its parent's children and in the list of its bus; a freed device is gone.
The callbacks of drivers and buses are recorded, with the references that are dropped, in the
order in which they happen.
-/

namespace ShiziOS.Drivers

open Runs TreeWalk List Option

variable {ν β δ : Type*} [DecidableEq ν]

structure Device (ν β δ : Type*) where
  bus : Option β
  driver : Option δ
  parent : Option ν
  children : List ν
  refcnt : Int
  deriving DecidableEq

inductive Event (ν : Type*) where
  | remove (x : ν)
  | put (x : ν)
  | freeDevice (x : ν)
  deriving DecidableEq

/-- Which drivers have a `remove` callback, and which buses have `free_device`. -/
structure Callbacks (β δ : Type*) where
  remove : δ → Bool
  freeDevice : β → Bool

@[ext]
structure State (ν β δ : Type*) where
  device : ν → Option (Device ν β δ)
  busDevices : β → List ν
  unmatched : List ν
  log : List (Event ν)

namespace State

def modify (s : State ν β δ) (x : ν) (f : Device ν β δ → Device ν β δ) : State ν β δ :=
  { s with device := fun y => if y = x then (s.device y).map f else s.device y }

/-- `list_del_init(&dev->sibling)`. -/
def unlinkSibling (s : State ν β δ) (dev : Device ν β δ) (x : ν) : State ν β δ :=
  match dev.parent with
  | none => s
  | some p => s.modify p fun pdev => { pdev with children := pdev.children.erase x }

/-- `list_del_init(&dev->node)`. -/
def unlinkBus [DecidableEq β] (s : State ν β δ) (dev : Device ν β δ) (x : ν) : State ν β δ :=
  match dev.bus with
  | none => s
  | some b => { s with busDevices := fun b' =>
      if b' = b then (s.busDevices b').erase x else s.busDevices b' }

def unbind (cb : Callbacks β δ) (s : State ν β δ) (dev : Device ν β δ) (x : ν) : State ν β δ :=
  match dev.driver with
  | none => s
  | some drv =>
    let s := if cb.remove drv then { s with log := s.log ++ [.remove x] } else s
    s.modify x fun dev => { dev with driver := none }

def deviceRelease (cb : Callbacks β δ) (s : State ν β δ) (dev : Device ν β δ) (x : ν) :
    State ν β δ :=
  { s with
    device := fun y => if y = x then none else s.device y
    unmatched := s.unmatched.erase x
    log := s.log ++ if dev.bus.any cb.freeDevice then [.freeDevice x] else [] }

def deviceRefPut (cb : Callbacks β δ) (s : State ν β δ) (dev : Device ν β δ) (x : ν) :
    State ν β δ :=
  let s := { s with log := s.log ++ [Event.put x] }.modify x fun dev =>
    { dev with refcnt := dev.refcnt - 1 }
  if dev.refcnt = 1 then s.deviceRelease cb dev x else s

/-- What is done to a device that has no children. -/
def takeLeaf [DecidableEq β] (cb : Callbacks β δ) (s : State ν β δ) (dev : Device ν β δ) (x : ν) :
    State ν β δ :=
  (((s.unlinkSibling dev x).unbind cb dev x).unlinkBus dev x).deviceRefPut cb dev x

end State

/-- The loop of `drivers_remove_device`, with the device that it is at. -/
structure Removing (ν β δ : Type*) where
  state : State ν β δ
  curr : Option ν

/-- One step down to the first child, or what is done to one leaf. Nothing is done to a device
that has been freed. -/
def removeStep [DecidableEq β] (cb : Callbacks β δ) (r : Removing ν β δ) (_ : Unit) :
    Option (Removing ν β δ) :=
  match r.curr with
  | none => none
  | some x =>
    match r.state.device x with
    | none => none
    | some dev =>
      match dev.children with
      | c :: _ => some ⟨r.state, some c⟩
      | [] =>
        let s := r.state.takeLeaf cb dev x
        match dev.parent with
        | none => some ⟨s, none⟩
        | some p => (s.device p).map fun pdev => ⟨s, some (pdev.children.head?.getD p)⟩

/-- The device is taken off its lists before the loop. -/
def driversRemoveDevice [DecidableEq β] (s : State ν β δ) (dev : Device ν β δ) (x : ν) :
    Removing ν β δ :=
  ⟨(s.unlinkSibling dev x).unlinkBus dev x, some x⟩

/-! ## Device trees -/

def State.parent (s : State ν β δ) (x : ν) : Option ν := (s.device x).bind (·.parent)

def State.children (s : State ν β δ) (x : ν) : List ν := ((s.device x).map (·.children)).getD []

/-- Every device stands in the lists of its parent and of its bus, once, and in no others; a parent
is there, and no device is beneath itself. -/
structure WellFormed (s : State ν β δ) : Prop where
  mem_children : ∀ p c, c ∈ s.children p ↔ s.parent c = some p
  nodup_children : ∀ p, (s.children p).Nodup
  parent_live : ∀ c p, s.parent c = some p → (s.device p).isSome
  grounded : WellFounded fun c p => s.parent c = some p
  mem_busDevices : ∀ b x, x ∈ s.busDevices b ↔ (s.device x).bind (·.bus) = some b
  nodup_busDevices : ∀ b, (s.busDevices b).Nodup
  nodup_unmatched : s.unmatched.Nodup

def WellFormed.tree {s : State ν β δ} (h : WellFormed s) : TreeWalk.Tree ν where
  parent := s.parent
  children := s.children
  mem_children := h.mem_children
  nodup := h.nodup_children
  grounded := h.grounded

/-- The device is in the subtree of another. -/
def State.Under (s : State ν β δ) (y x : ν) : Prop :=
  Relation.ReflTransGen (fun c p => s.parent c = some p) y x

/-- The callbacks and the reference dropped when a device is taken. -/
def State.events (cb : Callbacks β δ) (s : State ν β δ) (x : ν) : List (Event ν) :=
  match s.device x with
  | none => []
  | some dev => (if dev.driver.any cb.remove then [.remove x] else []) ++ [.put x] ++
      if dev.refcnt = 1 ∧ dev.bus.any cb.freeDevice then [.freeDevice x] else []

/-- The subtree of a device is removed, and nothing else. -/
structure RemovesExactly (cb : Callbacks β δ) (s : State ν β δ) (d : ν) (s' : State ν β δ) :
    Prop where
  /-- Every device of the subtree is taken once, children before their parents. -/
  order : ∃ l : List ν, l.Nodup ∧ (∀ x, x ∈ l ↔ s.Under x d) ∧
    (l.Pairwise fun a b => s.parent b ≠ some a) ∧ s'.log = s.log ++ l.flatMap (s.events cb)
  detached : ∀ x, s.Under x d → (∀ p, x ∉ s'.children p) ∧ ∀ b, x ∉ s'.busDevices b
  taken : ∀ x dev, s.Under x d → s.device x = some dev → s'.device x =
    if dev.refcnt = 1 then none
    else some { dev with driver := none, children := [], refcnt := dev.refcnt - 1 }
  kept : ∀ x dev, ¬s.Under x d → s.device x = some dev → s'.device x =
    some { dev with children := dev.children.erase d }
  kept_bus : ∀ x b, ¬s.Under x d → (x ∈ s'.busDevices b ↔ x ∈ s.busDevices b)
  kept_unmatched : ∀ x, ¬s.Under x d → (x ∈ s'.unmatched ↔ x ∈ s.unmatched)

/-! ## What the loop has done -/

/-- The device is freed when the last reference is dropped. -/
def State.last (s : State ν β δ) (x : ν) : Bool := (s.device x).any fun dev => dev.refcnt = 1

/-- The state after one device has been cut off and some have been taken. -/
def State.without (cb : Callbacks β δ) (s : State ν β δ) (cut : ν) (gone : List ν) :
    State ν β δ where
  device y :=
    if y ∈ gone ∧ s.last y then none
    else (s.device y).map fun dev =>
      { dev with
        driver := if y ∈ gone then none else dev.driver
        children := dev.children.filter fun c => c ≠ cut ∧ c ∉ gone
        refcnt := if y ∈ gone then dev.refcnt - 1 else dev.refcnt }
  busDevices b := (s.busDevices b).filter fun y => y ≠ cut ∧ y ∉ gone
  unmatched := s.unmatched.filter fun y => ¬(y ∈ gone ∧ s.last y)
  log := s.log ++ gone.flatMap (s.events cb)

variable {cb : Callbacks β δ} {s : State ν β δ} {dev : Device ν β δ} {x d : ν} {gone : List ν}

namespace State

theorem unlinkSibling_device (y : ν) : (s.unlinkSibling dev x).device y =
    if dev.parent = some y then
      (s.device y).map fun pdev => { pdev with children := pdev.children.erase x }
    else s.device y := by
  unfold unlinkSibling
  cases dev.parent with
  | none => rfl
  | some p => simp only [modify, some.injEq, eq_comm]

theorem unbind_device (hx : ∀ dev', s.device x = some dev' → dev'.driver = dev.driver) (y : ν) :
    (s.unbind cb dev x).device y =
      if y = x then (s.device y).map fun dev => { dev with driver := none } else s.device y := by
  unfold unbind
  cases hdriver : dev.driver with
  | none =>
    split_ifs with hy
    · subst hy
      cases hdev : s.device y with
      | none => rfl
      | some dev' => rw [map_some, ← hdriver, ← hx dev' hdev]
    · rfl
  | some drv =>
    simp only [modify]
    split_ifs <;> rfl

theorem deviceRefPut_device (y : ν) : (s.deviceRefPut cb dev x).device y =
    if y = x then
      if dev.refcnt = 1 then none
      else (s.device y).map fun dev => { dev with refcnt := dev.refcnt - 1 }
    else s.device y := by
  simp only [deviceRefPut, deviceRelease, modify]
  by_cases hone : dev.refcnt = 1 <;> by_cases hy : y = x <;> simp only [hone, hy, if_true, if_false]

theorem unlinkSibling_rest : (s.unlinkSibling dev x).busDevices = s.busDevices ∧
    (s.unlinkSibling dev x).unmatched = s.unmatched ∧ (s.unlinkSibling dev x).log = s.log := by
  unfold unlinkSibling
  split <;> exact ⟨rfl, rfl, rfl⟩

theorem unbind_rest : (s.unbind cb dev x).busDevices = s.busDevices ∧
    (s.unbind cb dev x).unmatched = s.unmatched ∧
    (s.unbind cb dev x).log = s.log ++ if dev.driver.any cb.remove then [.remove x] else [] := by
  unfold unbind
  cases dev.driver with
  | none => simp
  | some drv => by_cases hdrv : cb.remove drv <;> simp [modify, hdrv]

variable [DecidableEq β]

theorem unlinkBus_busDevices (b : β) : (s.unlinkBus dev x).busDevices b =
    if dev.bus = some b then (s.busDevices b).erase x else s.busDevices b := by
  unfold unlinkBus
  cases dev.bus with
  | none => rfl
  | some b' => simp only [some.injEq, eq_comm]

theorem unlinkBus_rest : (s.unlinkBus dev x).device = s.device ∧
    (s.unlinkBus dev x).unmatched = s.unmatched ∧ (s.unlinkBus dev x).log = s.log := by
  unfold unlinkBus
  split <;> exact ⟨rfl, rfl, rfl⟩

theorem takeLeaf_device (hx : s.device x = some dev) (hp : dev.parent ≠ some x) (y : ν) :
    (s.takeLeaf cb dev x).device y =
      if y = x then
        if dev.refcnt = 1 then none
        else some { dev with driver := none, refcnt := dev.refcnt - 1 }
      else if dev.parent = some y then
        (s.device y).map fun pdev => { pdev with children := pdev.children.erase x }
      else s.device y := by
  have hself : (s.unlinkSibling dev x).device x = some dev := by
    rw [unlinkSibling_device, if_neg hp, hx]
  rw [takeLeaf, deviceRefPut_device, unlinkBus_rest.1, unbind_device, unlinkSibling_device]
  · by_cases hy : y = x
    · subst hy
      simp only [if_true, if_neg hp, hx, map_some]
    · simp only [if_neg hy]
  · intro dev' hdev'
    rw [some.inj (hself.symm.trans hdev')]

theorem takeLeaf_busDevices (b : β) : (s.takeLeaf cb dev x).busDevices b =
    if dev.bus = some b then (s.busDevices b).erase x else s.busDevices b := by
  have hput : ∀ s : State ν β δ, (s.deviceRefPut cb dev x).busDevices = s.busDevices := by
    intro s
    simp only [deviceRefPut, deviceRelease, modify]
    split_ifs <;> rfl
  rw [takeLeaf, hput, unlinkBus_busDevices, unbind_rest.1, unlinkSibling_rest.1]

theorem takeLeaf_unmatched : (s.takeLeaf cb dev x).unmatched =
    if dev.refcnt = 1 then s.unmatched.erase x else s.unmatched := by
  have hput : ∀ s : State ν β δ, (s.deviceRefPut cb dev x).unmatched =
      if dev.refcnt = 1 then s.unmatched.erase x else s.unmatched := by
    intro s
    simp only [deviceRefPut, deviceRelease, modify]
    split_ifs <;> rfl
  rw [takeLeaf, hput, unlinkBus_rest.2.1, unbind_rest.2.1, unlinkSibling_rest.2.1]

theorem takeLeaf_log : (s.takeLeaf cb dev x).log =
    s.log ++ ((if dev.driver.any cb.remove then [.remove x] else []) ++ [.put x] ++
      if dev.refcnt = 1 ∧ dev.bus.any cb.freeDevice then [.freeDevice x] else []) := by
  have hput : ∀ s : State ν β δ, (s.deviceRefPut cb dev x).log = s.log ++ [.put x] ++
      if dev.refcnt = 1 ∧ dev.bus.any cb.freeDevice then [.freeDevice x] else [] := by
    intro s
    simp only [deviceRefPut, deviceRelease, modify]
    by_cases hone : dev.refcnt = 1 <;> simp [hone]
  rw [takeLeaf, hput, unlinkBus_rest.2.2, unbind_rest.2.2, unlinkSibling_rest.2.2]
  simp only [append_assoc]

end State

/-! ## The loop is the walk -/

theorem filter_erase {l : List ν} (h : l.Nodup) (x d : ν) (gone : List ν) :
    (l.filter fun c => c ≠ d ∧ c ∉ gone).erase x =
      l.filter fun c => c ≠ d ∧ c ∉ gone ++ [x] := by
  rw [(h.filter _).erase_eq_filter, List.filter_filter]
  refine List.filter_congr fun c _ => ?_
  simp [Bool.and_comm, Bool.and_left_comm, bne, Bool.beq_eq_decide_eq]

theorem filter_append_of_notMem {l : List ν} (h : x ∉ l) (d : ν) (gone : List ν) :
    (l.filter fun c => c ≠ d ∧ c ∉ gone ++ [x]) = l.filter fun c => c ≠ d ∧ c ∉ gone := by
  refine filter_congr fun c hc => ?_
  have hne : c ≠ x := fun heq => h (heq ▸ hc)
  simp [hne]

theorem without_device (hx : s.device x = some dev) (hgone : x ∉ gone) :
    (s.without cb d gone).device x =
      some { dev with children := dev.children.filter fun c => c ≠ d ∧ c ∉ gone } := by
  simp [State.without, hx, hgone]

namespace WellFormed

variable (h : WellFormed s)
include h

omit [DecidableEq ν] in
theorem mem_children_iff {y : ν} {ydev : Device ν β δ} (hx : s.device x = some dev)
    (hy : s.device y = some ydev) : x ∈ ydev.children ↔ dev.parent = some y := by
  have := h.mem_children y x
  simpa only [State.children, State.parent, hx, hy, map_some, getD_some, bind_some] using this

omit [DecidableEq ν] in
theorem parent_ne (hx : s.device x = some dev) : dev.parent ≠ some x := by
  intro hp
  have hparent : h.tree.parent x = some x := by
    show (s.device x).bind _ = _
    rw [hx]
    exact hp
  exact Tree.not_under_child hparent .refl

theorem takeLeaf_without [DecidableEq β] (cb : Callbacks β δ) (d : ν) (hx : s.device x = some dev)
    (hgone : x ∉ gone) :
    (s.without cb d gone).takeLeaf cb
      { dev with children := dev.children.filter fun c => c ≠ d ∧ c ∉ gone } x =
        s.without cb d (gone ++ [x]) := by
  have hlast : s.last x = decide (dev.refcnt = 1) := by simp [State.last, hx]
  refine State.ext ?_ ?_ ?_ ?_
  · funext y
    have hp := h.parent_ne hx
    rw [State.takeLeaf_device (without_device hx hgone) hp]
    by_cases hy : y = x
    · subst hy
      have hnot : y ∉ dev.children := fun hmem => hp ((h.mem_children_iff hx hx).mp hmem)
      simp only [State.without, hlast, hx, Option.map_some, filter_append_of_notMem hnot]
      simp
    · have hmem : y ∈ gone ++ [x] ↔ y ∈ gone := by simp [hy]
      simp only [if_neg hy, State.without, hmem]
      cases hdev : s.device y with
      | none => simp
      | some ydev =>
        simp only [Option.map_some]
        by_cases hparent : dev.parent = some y
        · have hnodup := h.nodup_children y
          simp only [State.children, hdev, Option.map_some, Option.getD_some] at hnodup
          simp only [if_pos hparent, ← filter_erase hnodup]
          split_ifs <;> rfl
        · have hnot : x ∉ ydev.children :=
            fun hmem => hparent ((h.mem_children_iff hx hdev).mp hmem)
          simp only [if_neg hparent, filter_append_of_notMem hnot]
  · funext b
    rw [State.takeLeaf_busDevices]
    split_ifs with hb
    · exact filter_erase (h.nodup_busDevices b) x d gone
    · refine (filter_append_of_notMem (fun hmem => hb ?_) d gone).symm
      have := (h.mem_busDevices b x).mp hmem
      rwa [hx] at this
  · rw [State.takeLeaf_unmatched]
    simp only [State.without]
    split_ifs with hone
    · rw [(h.nodup_unmatched.filter _).erase_eq_filter, List.filter_filter]
      refine filter_congr fun y _ => ?_
      by_cases hy : y = x
      · simp [hy, hlast, hone]
      · simp [hy]
    · refine filter_congr fun y _ => ?_
      by_cases hy : y = x
      · simp [hy, hlast, hone]
      · simp [hy]
  · rw [State.takeLeaf_log]
    simp only [State.without, State.events, flatMap_append, flatMap_cons,
      flatMap_nil, append_nil, hx, append_assoc]

theorem rest_eq (d : ν) (gone : List ν) (hx : s.device x = some dev) :
    h.tree.rest d gone x = dev.children.filter fun c => c ≠ d ∧ c ∉ gone := by
  simp only [Tree.rest, tree, State.children, hx, map_some, getD_some]

theorem driversRemoveDevice_eq [DecidableEq β] (cb : Callbacks β δ) (hd : s.device d = some dev) :
    driversRemoveDevice s dev d = ⟨s.without cb d [], some d⟩ := by
  have hcut : ∀ l : List ν, l.Nodup → (l.filter fun c => c ≠ d ∧ c ∉ []) = l.erase d := by
    intro l hl
    rw [hl.erase_eq_filter]
    exact filter_congr fun c _ => by simp [bne, Bool.beq_eq_decide_eq]
  unfold driversRemoveDevice
  congr 1
  refine State.ext ?_ ?_ ?_ ?_
  · funext y
    rw [State.unlinkBus_rest.1, State.unlinkSibling_device]
    simp only [State.without]
    cases hdev : s.device y with
    | none => simp
    | some ydev =>
      have hnodup := h.nodup_children y
      simp only [State.children, hdev, map_some, getD_some] at hnodup
      rw [map_some, map_some, hcut _ hnodup]
      simp only [not_mem_nil, false_and, if_false]
      split_ifs with hparent
      · rfl
      · rw [erase_of_not_mem fun hmem => hparent ((h.mem_children_iff hd hdev).mp hmem)]
  · funext b
    rw [State.unlinkBus_busDevices, State.unlinkSibling_rest.1]
    simp only [State.without]
    rw [hcut _ (h.nodup_busDevices b)]
    split_ifs with hb
    · rfl
    · refine (erase_of_not_mem fun hmem => hb ?_).symm
      have := (h.mem_busDevices b d).mp hmem
      rwa [hd] at this
  · rw [State.unlinkBus_rest.2.1, State.unlinkSibling_rest.2.1]
    simp [State.without]
  · rw [State.unlinkBus_rest.2.2, State.unlinkSibling_rest.2.2]
    simp [State.without]

theorem removeStep_without [DecidableEq β] {w w' : Walk ν} (hinv : Inv h.tree d w)
    (hlive : ∀ x, w.curr = some x → (s.device x).isSome) (hs : step h.tree d w () = some w') :
    removeStep cb ⟨s.without cb d w.gone, w.curr⟩ () =
      some ⟨s.without cb d w'.gone, w'.curr⟩ := by
  obtain ⟨x, hcurr, hcase⟩ := step_cases hs
  have hgone := hinv.fresh x hcurr
  obtain ⟨dev, hx⟩ := isSome_iff_exists.mp (hlive x hcurr)
  have hrest := h.rest_eq d w.gone hx
  simp only [removeStep, hcurr, without_device hx hgone, ← hrest]
  rcases hcase with ⟨c, hc, hentry, rfl⟩ | ⟨hempty, rfl⟩
  · unfold Tree.entry at hentry
    cases hlist : h.tree.rest d w.gone x with
    | nil => simp [hlist] at hc
    | cons c' cs =>
      rw [hlist] at hentry
      obtain rfl : c' = c := hentry
      rfl
  · have htake := h.takeLeaf_without cb d hx hgone
    rw [← hrest, hempty] at htake
    have hparent : h.tree.parent x = dev.parent := by
      show (s.device x).bind _ = _
      rw [hx]
      rfl
    simp only [hempty, htake, hparent]
    cases hp : dev.parent with
    | none => rfl
    | some p =>
      obtain ⟨pdev, hpdev⟩ := isSome_iff_exists.mp (h.parent_live x p (hparent.trans hp))
      have hfresh := hinv.parent_fresh hcurr (hparent.trans hp)
      simp only [without_device hpdev hfresh, map_some, Tree.entry, h.rest_eq d _ hpdev]

theorem reach_without [DecidableEq β] (cb : Callbacks β δ) (hd : (s.device d).isSome) {w : Walk ν}
    (hw : Reach (step h.tree d) Any ⟨[], some d⟩ w) :
    Reach (removeStep cb) Any ⟨s.without cb d [], some d⟩ ⟨s.without cb d w.gone, w.curr⟩ ∧
      Inv h.tree d w ∧ ∀ x, w.curr = some x → (s.device x).isSome := by
  induction hw with
  | start => exact ⟨.start, inv_start, fun x hx => some.inj hx ▸ hd⟩
  | @next w w' _ _ _ hs ih =>
    obtain ⟨hreach, hinv, hlive⟩ := ih
    refine ⟨hreach.next (a := ()) trivial (h.removeStep_without hinv hlive hs), hinv.step hs, ?_⟩
    have hchild : ∀ {c p : ν}, h.tree.parent c = some p → (s.device c).isSome := by
      intro c p hp
      cases hc : s.device c with
      | none =>
        have : (s.device c).bind (·.parent) = some p := hp
        simp [hc] at this
      | some dev => rfl
    intro y hy
    obtain ⟨x, -, ⟨c, hc, -, rfl⟩ | ⟨-, rfl⟩⟩ := step_cases hs
    · exact some.inj hy ▸ hchild (mem_rest.mp hc).1
    · obtain ⟨p, hp, rfl⟩ := map_eq_some_iff.mp hy
      rcases entry_eq h.tree d (w.gone ++ [x]) p with heq | hmem
      · rw [heq]
        exact h.parent_live x p hp
      · exact hchild (mem_rest.mp hmem).1

theorem removesExactly_without {l : List ν} (hl : Tree.Order h.tree [d] l) :
    RemovesExactly cb s d (s.without cb d l) := by
  have hmem : ∀ x, x ∈ l ↔ s.Under x d := by
    intro x
    rw [hl.mem_iff]
    simp only [mem_singleton, exists_eq_left]
    exact Iff.rfl
  have hself : d ∈ l := (hmem d).mpr .refl
  refine ⟨⟨l, hl.nodup, hmem, hl.sorted, rfl⟩, ?_, ?_, ?_, ?_, ?_⟩
  · intro x hx
    have hxl := (hmem x).mpr hx
    refine ⟨fun p hp => ?_, fun b hb => ?_⟩
    · simp only [State.children, State.without] at hp
      by_cases hlast : p ∈ l ∧ s.last p = true
      · rw [if_pos hlast] at hp
        simp at hp
      · rw [if_neg hlast] at hp
        cases hpdev : s.device p with
        | none => simp [hpdev] at hp
        | some pdev => simp [hpdev, hxl] at hp
    · simp [State.without, hxl] at hb
  · intro x dev hx hdev
    have hxl := (hmem x).mpr hx
    have hchildren : (dev.children.filter fun c => c ≠ d ∧ c ∉ l) = [] := by
      refine filter_eq_nil_iff.mpr fun c hc => ?_
      have hparent : s.parent c = some x := by
        rw [← h.mem_children, State.children, hdev]
        exact hc
      simp [(hmem c).mpr (Relation.ReflTransGen.head hparent hx)]
    simp only [State.without, hdev, hxl, State.last, any_some, map_some, hchildren]
    simp
  · intro x dev hx hdev
    have hxl : x ∉ l := fun hin => hx ((hmem x).mp hin)
    have hnodup : dev.children.Nodup := by
      have := h.nodup_children x
      rwa [State.children, hdev] at this
    rw [without_device hdev hxl, hnodup.erase_eq_filter]
    congr 2
    refine filter_congr fun c hc => ?_
    have hparent : s.parent c = some x := by
      rw [← h.mem_children, State.children, hdev]
      exact hc
    by_cases hcd : c = d
    · simp [hcd]
    · have hcl : c ∉ l := by
        intro hin
        rcases ((hmem c).mp hin).cases_head with heq | ⟨p, hp, hunder⟩
        · exact hcd heq
        · obtain rfl := some.inj (hparent.symm.trans hp)
          exact hx hunder
      simp [hcd, hcl]
  · intro x b hx
    have hxl : x ∉ l := fun hin => hx ((hmem x).mp hin)
    have hne : x ≠ d := fun heq => hxl (heq ▸ hself)
    simp [State.without, hxl, hne]
  · intro x hx
    have hxl : x ∉ l := fun hin => hx ((hmem x).mp hin)
    simp [State.without, hxl]

end WellFormed

/-! ## Exactly the subtree -/

theorem log_prefix_of_reach [DecidableEq β] {r r' : Removing ν β δ}
    (h : Reach (removeStep cb) Any r r') : r.state.log <+: r'.state.log := by
  induction h with
  | start => exact prefix_rfl
  | @next r1 r2 _ _ _ hs ih =>
    refine ih.trans ?_
    simp only [removeStep] at hs
    cases hcurr : r1.curr with
    | none => simp [hcurr] at hs
    | some x =>
      cases hx : r1.state.device x with
      | none => simp [hcurr, hx] at hs
      | some dev =>
        cases hchildren : dev.children with
        | cons c cs =>
          simp only [hcurr, hx, hchildren, some.injEq] at hs
          exact hs ▸ prefix_rfl
        | nil =>
          have htake : r1.state.log <+: (r1.state.takeLeaf cb dev x).log :=
            ⟨_, State.takeLeaf_log.symm⟩
          cases hp : dev.parent with
          | none =>
            simp only [hcurr, hx, hchildren, hp, some.injEq] at hs
            exact hs ▸ htake
          | some p =>
            simp only [hcurr, hx, hchildren, hp] at hs
            obtain ⟨pdev, -, rfl⟩ := map_eq_some_iff.mp hs
            exact htake

omit [DecidableEq ν] in
theorem eq_of_put_mem_events {y : ν} (h : Event.put y ∈ s.events cb x) : x = y := by
  unfold State.events at h
  cases hx : s.device x with
  | none => simp [hx] at h
  | some dev =>
    simp only [hx, mem_append, mem_singleton, Event.put.injEq] at h
    rcases h with (hremove | rfl) | hfree
    · split_ifs at hremove <;> simp at hremove
    · rfl
    · split_ifs at hfree <;> simp at hfree

/-- Removing a device removes exactly its subtree if and only if the device has no parent. -/
theorem remove_device_exactly_iff [DecidableEq β] (h : WellFormed s) (hd : s.device d = some dev) :
    (∃ s', Reach (removeStep cb) Any (driversRemoveDevice s dev d) ⟨s', none⟩ ∧
      RemovesExactly cb s d s') ↔ dev.parent = none := by
  have hlive : (s.device d).isSome := by rw [hd]; rfl
  have hparent : h.tree.parent d = dev.parent := by
    show (s.device d).bind _ = _
    rw [hd]
    rfl
  rw [h.driversRemoveDevice_eq cb hd]
  constructor
  · rintro ⟨s', hend, hexact⟩
    cases hp : dev.parent with
    | none => rfl
    | some p =>
      exfalso
      obtain ⟨gone, curr, hmem, hwalk⟩ := reach_parent (hparent.trans hp)
      have hreach := (h.reach_without cb hlive hwalk).1
      have hprefix := log_prefix_of_reach (hreach.to_end hend rfl)
      obtain ⟨l, -, hl, -, hlog⟩ := hexact.order
      rw [hlog] at hprefix
      have hsub := ((prefix_append_right_inj s.log).mp hprefix).subset
      obtain ⟨pdev, hpdev⟩ := isSome_iff_exists.mp (h.parent_live d p (hparent.trans hp))
      have hput : Event.put p ∈ gone.flatMap (s.events cb) :=
        mem_flatMap.mpr ⟨p, hmem, by simp [State.events, hpdev]⟩
      obtain ⟨x, hx, hput'⟩ := mem_flatMap.mp (hsub hput)
      obtain rfl : x = p := eq_of_put_mem_events hput'
      exact Tree.not_under_child (hparent.trans hp) ((hl x).mp hx)
  · intro hp
    obtain ⟨l, horder, hwalk⟩ := reach_under h.tree d d []
      fun y _ => ⟨not_mem_nil, id⟩
    rw [nil_append, hparent, hp] at hwalk
    exact ⟨_, (h.reach_without cb hlive hwalk).1, h.removesExactly_without horder⟩

/-- A hub, `none`, and the devices behind it, all on one bus. -/
def hub : State (Option (Fin 2)) Unit Unit where
  device x := some
    { bus := some ()
      driver := some ()
      parent := if x = none then none else some none
      children := if x = none then (finRange 2).map some else []
      refcnt := 1 }
  busDevices _ := none :: (finRange 2).map some
  unmatched := []
  log := []

theorem wellFormed_hub : WellFormed hub where
  mem_children := by decide
  nodup_children := by decide
  parent_live := by decide
  grounded := by
    let rank : Option (Fin 2) → Nat := fun x => if x = none then 1 else 0
    have hsub : ∀ c p, hub.parent c = some p → rank c < rank p := by decide
    exact Subrelation.wf (fun {c p} => hsub c p) (measure rank).wf
  mem_busDevices b := by
    cases b
    decide
  nodup_busDevices b := by
    cases b
    decide
  nodup_unmatched := by decide

theorem remove_hub_exactly : ∃ s', Reach (removeStep ⟨fun _ => true, fun _ => true⟩) Any
    (driversRemoveDevice hub ⟨some (), some (), none, [some 0, some 1], 1⟩ none) ⟨s', none⟩ ∧
      RemovesExactly ⟨fun _ => true, fun _ => true⟩ hub none s' :=
  (remove_device_exactly_iff wellFormed_hub
    (rfl : hub.device none = some ⟨some (), some (), none, [some 0, some 1], 1⟩)).mpr rfl

/-- With a device behind it the hub and the other device are taken. -/
theorem remove_behind_hub : WellFormed hub ∧
    ∃ r, Reach (removeStep ⟨fun _ => true, fun _ => true⟩) Any
      (driversRemoveDevice hub ⟨some (), some (), some none, [], 1⟩ (some 0)) r ∧
        r.curr = none ∧ (∀ x, r.state.device x = none) ∧ r.state.busDevices () = [] ∧
        r.state.log = [.remove (some 0), .put (some 0), .freeDevice (some 0), .remove (some 1),
          .put (some 1), .freeDevice (some 1), .remove none, .put none, .freeDevice none] :=
  ⟨wellFormed_hub, exists_reach_any [(), (), ()] (by decide +kernel)⟩

end ShiziOS.Drivers
