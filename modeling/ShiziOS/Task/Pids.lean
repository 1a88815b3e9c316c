import ShiziOS.Lib.Runs
import ShiziOS.Util.Dynarr

/-!
# Process ids

`id_alloc` and `id_free` of `kernel/task/core.c`, with the functions that take ids and give them
back: `task_create_new`, `task_create_kernel_thread`, `task_exit`, `task_wait` and the loop of
`zombie_reclaim`. A task is named by its address. Where a creation fails is arbitrary, and so is
whether the id map can be enlarged. The calls of one task are steps of a run with those of all
others; scheduling, signals and the resources of a task other than its id are left out.
-/

namespace ShiziOS.Task.Pids

open Function Runs Util Option

def taskIdMax : Nat := 2 ^ 22 - 1

/-! ## The id map -/

/-- The entries of `id_map`, how many there are, and how many there is room for. -/
structure IdMap where
  slot : Nat → Option Nat
  count : Nat
  capacity : Nat

/-- Whether `dynarr_set` can write an entry; `granted` says that there is memory to enlarge the
array. -/
def IdMap.canHold (m : IdMap) (granted : Bool) (index : Nat) : Bool :=
  index < m.capacity ||
    granted && ((capacityLoop taskIdMax (index + 1) 66 m.capacity).bind id).isSome

/-- `dynarr_set` with the address of an entry, which it refuses if it is null. -/
def IdMap.set (m : IdMap) (granted : Bool) (index : Nat) (element : Option Nat) : IdMap :=
  match element with
  | none => m
  | some t =>
    if m.canHold granted index then
      { slot := update m.slot index (some t)
        count := max m.count (index + 1)
        capacity := if index < m.capacity then m.capacity
          else ((capacityLoop taskIdMax (index + 1) 66 m.capacity).bind id).getD m.capacity }
    else m

/-! ## Tasks -/

/-- `struct task_struct`, as far as ids are concerned; `zombies` is the list of the children that
have exited and `dead` the state `TASK_ZOMBIE`. -/
structure TaskStruct where
  pid : Nat
  tgid : Nat
  father : Option Nat
  children : List Nat
  zombies : List Nat
  dead : Bool
  deriving DecidableEq

structure State where
  task : Nat → Option TaskStruct
  bitmap : Nat → Bool
  map : IdMap
  zombieQueue : List Nat

/-- After the start of `task_data_init`: ids 0 and 1 are reserved. -/
def start : State where
  task _ := none
  bitmap id := id < 2
  map := ⟨fun _ => none, 0, 16⟩
  zombieQueue := []

/-- `bitmap_find`, for a clear bit from `i` on. -/
def bitmapFind (bitmap : Nat → Bool) : (fuel i : Nat) → Option Nat
  | 0, _ => none
  | fuel + 1, i => if bitmap i then bitmapFind bitmap fuel (i + 1) else some i

namespace State

def idAlloc (s : State) : Option (Nat × State) :=
  (bitmapFind s.bitmap taskIdMax 0).map fun id =>
    (id, { s with bitmap := update s.bitmap id true })

def idFree (s : State) (id : Nat) : State :=
  if taskIdMax ≤ id then s
  else { s with bitmap := update s.bitmap id false, map := s.map.set false id none }

def setTask (s : State) (t : Nat) (task : Option TaskStruct) : State :=
  { s with task := update s.task t task }

def live (s : State) (t : Nat) : Option TaskStruct := (s.task t).filter fun task => !task.dead

end State

/-- Where a creation ends: before it has an id, after that, or with a task; `granted` says that the
id map can be enlarged. -/
inductive Fate where
  | early
  | late
  | done (granted : Bool)
  deriving DecidableEq

/-- `wait_options_t`. -/
structure WaitOptions where
  nohang : Bool
  untraced : Bool
  continued : Bool
  deriving DecidableEq

inductive Move where
  | create (parent addr : Nat) (thread : Bool) (fate : Fate)
  | createKernelThread (addr : Nat) (fate : Fate)
  | exit (t : Nat)
  | wait (t : Nat) (pid : Int) (options : WaitOptions)
  | reclaim
  deriving DecidableEq

/-- A new task under an address that is free, with its entry in the id map. -/
def addTask (s : State) (addr : Nat) (task : TaskStruct) (granted : Bool) : Option State :=
  if (s.task addr).isSome then none
  else some { s.setTask addr (some task) with map := s.map.set granted task.pid (some addr) }

def taskCreateNew (s : State) (parent addr : Nat) (thread : Bool) (fate : Fate) : Option State :=
  match s.live parent with
  | none => none
  | some ptask =>
    if fate = .early then some s
    else
      match s.idAlloc with
      | none => some s
      | some (pid, s) =>
        let tgid := if thread then ptask.tgid else pid
        match fate with
        | .done granted =>
          let s := s.setTask parent (some { ptask with children := ptask.children ++ [addr] })
          addTask s addr ⟨pid, tgid, some parent, [], [], false⟩ granted
        | _ =>
          let s := s.idFree pid
          some (if tgid ≠ pid then s.idFree tgid else s)

/-- `task_create_kernel_thread`, which cannot fail any more when it has an id. -/
def taskCreateKernelThread (s : State) (addr : Nat) (fate : Fate) : Option State :=
  match fate with
  | .early => some s
  | .late => none
  | .done granted =>
    match s.idAlloc with
    | none => some s
    | some (pid, s) => addTask s addr ⟨pid, pid, none, [], [], false⟩ granted

def zombieEnqueue (s : State) (t : Nat) : State := { s with zombieQueue := s.zombieQueue ++ [t] }

/-- `task_exit`. A main thread passes its children on to the init task, for which it takes the
address of a slot of the id map; what becomes of that is not followed. -/
def taskExit (s : State) (t : Nat) : Option State :=
  match s.live t with
  | none => none
  | some task =>
    let s := s.setTask t (some { task with dead := true })
    match task.father with
    | none => some (zombieEnqueue s t)
    | some father =>
      if task.pid ≠ task.tgid then some (zombieEnqueue s t)
      else if s.map.count ≤ 1 then none
      else if task.children ≠ [] ∨ task.zombies ≠ [] then none
      else
        match s.task father with
        | none => none
        | some ftask =>
          some (s.setTask father (some { ftask with zombies := ftask.zombies ++ [t] }))

/-- The end of a task: its id is given back and its memory is freed. -/
def reap (s : State) (t : Nat) (task : TaskStruct) : State := (s.idFree task.pid).setTask t none

/-- The first child that has exited and that the caller waits for. -/
def findZombie (s : State) (pid : Int) (zombies : List Nat) : Option Nat :=
  zombies.find? fun z => (s.task z).any fun task => pid = -1 ∨ task.pid = pid

/-- One pass of the loop of `task_wait`; nothing is stopped. -/
def taskWait (s : State) (t : Nat) (pid : Int) (options : WaitOptions) : Option State :=
  match s.live t with
  | none => none
  | some task =>
    if options.continued ∨ pid = 0 ∨ pid < -1 then some s
    else
      match findZombie s pid task.zombies with
      | none => some s
      | some z =>
        let s := s.setTask t (some { task with zombies := task.zombies.erase z })
        (s.task z).map fun child => reap s z child

/-- One pass of the loop of `zombie_reclaim`. -/
def zombieReclaim (s : State) : Option State :=
  match s.zombieQueue with
  | [] => some s
  | z :: rest => (s.task z).map fun task => reap { s with zombieQueue := rest } z task

def step (s : State) : Move → Option State
  | .create parent addr thread fate => taskCreateNew s parent addr thread fate
  | .createKernelThread addr fate => taskCreateKernelThread s addr fate
  | .exit t => taskExit s t
  | .wait t pid options => taskWait s t pid options
  | .reclaim => zombieReclaim s

/-! ## What ids are for -/

namespace State

def pidOf (s : State) (t : Nat) : Option Nat := (s.task t).map TaskStruct.pid

def tgidOf (s : State) (t : Nat) : Option Nat := (s.task t).map TaskStruct.tgid

/-- Each id belongs to one task, the bitmap says which ids are in use, and the map leads from an id
to its task and is empty elsewhere. -/
structure Identify (s : State) : Prop where
  distinct : ∀ t t' id, s.pidOf t = some id → s.pidOf t' = some id → t = t'
  bitmap_iff : ∀ id, s.bitmap id = true ↔ id < 2 ∨ ∃ t, s.pidOf t = some id
  map_iff : ∀ id t, s.map.slot id = some t ↔ s.pidOf t = some id

/-- The id that an allocation takes. -/
def nextId (s : State) : Option Nat := bitmapFind s.bitmap taskIdMax 0

/-- The id map has room for the next id. -/
def MapFits (s : State) (granted : Bool) : Prop :=
  ∀ id, s.nextId = some id → s.map.canHold granted id = true

end State

/-- Where a creation ends without spoiling the ids: a thread has no id when it fails, and a task
that has been made fits in the id map. -/
def Fate.Sound (s : State) (thread : Bool) : Fate → Prop
  | .early => True
  | .late => thread = true → s.nextId = none
  | .done granted => s.MapFits granted

/-- No id is lost, and no task is reaped. -/
def Sound (s : State) : Move → Prop
  | .create _ _ thread fate => fate.Sound s thread
  | .createKernelThread _ fate => fate.Sound s false
  | .exit _ => True
  | .wait t pid options => options.continued ∨ pid = 0 ∨ pid < -1 ∨
      ∀ task, s.task t = some task → findZombie s pid task.zombies = none
  | .reclaim => s.zombieQueue = []

/-! ## What a step does -/

variable {id addr t g : Nat}

theorem bitmapFind_spec {bitmap : Nat → Bool} {fuel i : Nat}
    (h : bitmapFind bitmap fuel i = some id) : bitmap id = false ∧ id < i + fuel := by
  induction fuel generalizing i with
  | zero => cases h
  | succ fuel ih =>
    rw [bitmapFind] at h
    split_ifs at h with hbit
    · obtain ⟨hid, hlt⟩ := ih h
      exact ⟨hid, by omega⟩
    · cases h
      exact ⟨Bool.eq_false_iff.mpr hbit, by omega⟩

namespace State

variable {s s' : State} {t addr id : Nat} {task new : TaskStruct} {m : Move}

theorem nextId_spec (h : s.nextId = some id) : s.bitmap id = false ∧ id < taskIdMax := by
  simpa only [Nat.zero_add] using bitmapFind_spec h

theorem task_of_live (h : s.live t = some task) : s.task t = some task :=
  (filter_eq_some_iff.mp h).1

theorem pidOf_setTask (s : State) (t : Nat) (new : Option TaskStruct) :
    (s.setTask t new).pidOf = update s.pidOf t (new.map TaskStruct.pid) := by
  funext u
  by_cases hu : u = t
  · subst hu
    simp only [pidOf, setTask, update_self]
  · simp only [pidOf, setTask, update_of_ne hu]

theorem tgidOf_setTask (s : State) (t : Nat) (new : Option TaskStruct) :
    (s.setTask t new).tgidOf = update s.tgidOf t (new.map TaskStruct.tgid) := by
  funext u
  by_cases hu : u = t
  · subst hu
    simp only [tgidOf, setTask, update_self]
  · simp only [tgidOf, setTask, update_of_ne hu]

/-- Nothing that concerns ids is different. -/
structure Same (s s' : State) : Prop where
  pids : s'.pidOf = s.pidOf
  tgids : s'.tgidOf = s.tgidOf
  bitmap : s'.bitmap = s.bitmap
  map : s'.map = s.map

theorem Same.refl (s : State) : Same s s := ⟨rfl, rfl, rfl, rfl⟩

theorem Same.trans {s'' : State} (h : Same s s') (h' : Same s' s'') : Same s s'' :=
  ⟨h'.pids.trans h.pids, h'.tgids.trans h.tgids, h'.bitmap.trans h.bitmap, h'.map.trans h.map⟩

theorem same_setTask (h : s.task t = some task) (hpid : new.pid = task.pid)
    (htgid : new.tgid = task.tgid) : Same s (s.setTask t (some new)) where
  pids := by
    rw [pidOf_setTask, map_some, hpid]
    exact update_eq_self_iff.mpr (by rw [pidOf, h, map_some])
  tgids := by
    rw [tgidOf_setTask, map_some, htgid]
    exact update_eq_self_iff.mpr (by rw [tgidOf, h, map_some])
  bitmap := rfl
  map := rfl

theorem same_zombieEnqueue (s : State) (t : Nat) : Same s (zombieEnqueue s t) :=
  ⟨rfl, rfl, rfl, rfl⟩

/-- A new task, in a group of its own or in one that a task has. -/
structure Added (s s' : State) (addr id g : Nat) (granted : Bool) : Prop where
  next : s.nextId = some id
  free : s.pidOf addr = none
  group : g = id ∨ ∃ u, s.tgidOf u = some g
  pids : s'.pidOf = update s.pidOf addr (some id)
  tgids : s'.tgidOf = update s.tgidOf addr (some g)
  bitmap : s'.bitmap = update s.bitmap id true
  map : s'.map = s.map.set granted id (some addr)

/-- The id of a group that a task has is free. -/
structure Lost (s s' : State) (g : Nat) : Prop where
  group : ∃ u, s.tgidOf u = some g
  pids : s'.pidOf = s.pidOf
  bitmap : g < taskIdMax → s'.bitmap g = false

/-- A task has gone, and the id map is as before. -/
structure Reaped (s s' : State) (t : Nat) : Prop where
  before : ∃ id, s.pidOf t = some id
  after : s'.pidOf t = none
  map : s'.map = s.map

theorem idAlloc_eq (s : State) :
    s.idAlloc = s.nextId.map fun id => (id, { s with bitmap := update s.bitmap id true }) := rfl

theorem reaped_of_reap {s1 : State} (h : Same s s1) (ht : s1.task t = some task) :
    Reaped s (reap s1 t task) t where
  before := ⟨task.pid, by rw [← h.pids, pidOf, ht, map_some]⟩
  after := by rw [reap, pidOf_setTask, update_self, map_none]
  map := by
    rw [← h.map, reap, idFree]
    split_ifs <;> rfl

theorem added_of_addTask {s1 : State} {granted : Bool} (hid : s.nextId = some new.pid)
    (h : Same { s with bitmap := update s.bitmap new.pid true } s1)
    (hg : new.tgid = new.pid ∨ ∃ u, s.tgidOf u = some new.tgid)
    (hs : addTask s1 addr new granted = some s') :
    Added s s' addr new.pid new.tgid granted := by
  rw [addTask] at hs
  split_ifs at hs with hfree
  cases hs
  have hpids : s1.pidOf = s.pidOf := h.pids
  have htgids : s1.tgidOf = s.tgidOf := h.tgids
  refine ⟨hid, ?_, hg, ?_, ?_, h.bitmap, ?_⟩
  · rw [← hpids, pidOf, not_isSome_iff_eq_none.mp hfree, map_none]
  · rw [← hpids]
    exact pidOf_setTask s1 addr (some new)
  · rw [← htgids]
    exact tgidOf_setTask s1 addr (some new)
  · rw [h.map]

theorem idFree_eq_self_iff : s.idFree id = s ↔ taskIdMax ≤ id ∨ s.bitmap id = false := by
  rw [idFree]
  split_ifs with h
  · exact iff_of_true rfl (.inl h)
  · rw [or_iff_right h]
    constructor
    · intro hs
      rw [← hs]
      exact update_self ..
    · intro hbit
      rw [update_eq_self_iff.mpr hbit.symm]
      rfl

theorem idFree_set (hid : s.nextId = some id) :
    idFree { s with bitmap := update s.bitmap id true } id = s := by
  obtain ⟨hbit, hlt⟩ := nextId_spec hid
  rw [idFree, if_neg (by omega)]
  dsimp only
  rw [update_idem, update_eq_self_iff.mpr hbit.symm]
  rfl

theorem idFree_bitmap_self (s : State) (h : id < taskIdMax) : (s.idFree id).bitmap id = false := by
  rw [idFree, if_neg (by omega)]
  exact update_self ..

theorem idFree_pidOf (s : State) (id : Nat) : (s.idFree id).pidOf = s.pidOf := by
  rw [idFree]
  split_ifs <;> rfl

end State

open State

variable {s s' : State} {m : Move}

theorem create_late {parent : Nat} {thread : Bool} {r : Nat × State} (hid : s.idAlloc = some r)
    (h : taskCreateNew s parent addr thread .late = some s') :
    ∃ ptask, s.live parent = some ptask ∧ s' = if thread then s.idFree ptask.tgid else s := by
  rw [taskCreateNew] at h
  rcases hp : s.live parent with _ | ptask
  · rw [hp] at h
    cases h
  refine ⟨ptask, rfl, ?_⟩
  rw [idAlloc_eq] at hid
  obtain ⟨id, hnext, rfl⟩ := map_eq_some_iff.mp hid
  simp only [hp, idAlloc_eq, hnext, map_some, reduceCtorEq, if_false, idFree_set hnext] at h
  cases h
  cases thread with
  | false => simp
  | true =>
    simp only [if_true]
    split_ifs with hg
    · rfl
    · rw [not_not.mp hg, idFree_eq_self_iff.mpr (.inr (nextId_spec hnext).1)]

theorem create_cases {parent : Nat} {thread : Bool} {fate : Fate}
    (h : taskCreateNew s parent addr thread fate = some s') :
    (Same s s' ∧ fate.Sound s thread) ∨
    (∃ id g granted, Added s s' addr id g granted ∧ fate = .done granted) ∨
    (∃ g, Lost s s' g) ∧ ¬ fate.Sound s thread := by
  have hcall := h
  rw [taskCreateNew] at h
  rcases hp : s.live parent with _ | ptask
  · rw [hp] at h
    cases h
  have hptask := task_of_live hp
  simp only [hp, idAlloc_eq] at h
  rcases hid : s.nextId with _ | id
  · simp only [hid, map_none, ite_self] at h
    cases h
    refine .inl ⟨.refl s, ?_⟩
    cases fate with
    | early => trivial
    | late => exact fun _ => hid
    | done granted => exact fun id hid' => absurd (hid.symm.trans hid') (by simp)
  simp only [hid, map_some] at h
  cases fate with
  | early =>
    cases h
    exact .inl ⟨.refl s, trivial⟩
  | late =>
    obtain ⟨ptask, hp, rfl⟩ := create_late (by rw [idAlloc_eq, hid, map_some]) hcall
    cases thread with
    | false => exact .inl ⟨.refl s, by simp [Fate.Sound]⟩
    | true =>
      refine .inr (.inr ⟨⟨ptask.tgid, ⟨parent, ?_⟩, idFree_pidOf _ _, idFree_bitmap_self s⟩, ?_⟩)
      · rw [tgidOf, task_of_live hp, map_some]
      · exact fun h => absurd (hid.symm.trans (h rfl)) (by simp)
  | done granted =>
    refine .inr (.inl ⟨id, _, granted, added_of_addTask hid ?_ ?_ h, rfl⟩)
    · exact same_setTask hptask rfl rfl
    · cases thread with
      | false => exact .inl rfl
      | true => exact .inr ⟨parent, by rw [tgidOf, hptask, map_some]; rfl⟩

theorem createKernelThread_cases {fate : Fate} (h : taskCreateKernelThread s addr fate = some s') :
    (Same s s' ∧ fate.Sound s false) ∨
    ∃ id g granted, Added s s' addr id g granted ∧ fate = .done granted := by
  cases fate with
  | early =>
    cases h
    exact .inl ⟨.refl s, trivial⟩
  | late => cases h
  | done granted =>
    simp only [taskCreateKernelThread, idAlloc_eq] at h
    rcases hid : s.nextId with _ | id
    · simp only [hid, map_none] at h
      cases h
      exact .inl ⟨.refl s, fun id hid' => absurd (hid.symm.trans hid') (by simp)⟩
    · simp only [hid, map_some] at h
      exact .inr ⟨id, id, granted, added_of_addTask hid (.refl _) (.inl rfl) h, rfl⟩

theorem taskExit_same (h : taskExit s t = some s') : Same s s' := by
  rw [taskExit] at h
  rcases hl : s.live t with _ | task
  · rw [hl] at h
    cases h
  simp only [hl] at h
  have hdead : Same s (s.setTask t (some { task with dead := true })) :=
    same_setTask (task_of_live hl) rfl rfl
  split at h
  · cases h
    exact hdead.trans (same_zombieEnqueue _ t)
  · split_ifs at h
    · cases h
      exact hdead.trans (same_zombieEnqueue _ t)
    · split at h
      · cases h
      · rename_i hf
        cases h
        exact hdead.trans (same_setTask hf rfl rfl)

theorem taskWait_cases {pid : Int} {options : WaitOptions}
    (h : taskWait s t pid options = some s') :
    (s' = s ∧ Sound s (.wait t pid options)) ∨
      (∃ z, Reaped s s' z) ∧ ¬ Sound s (.wait t pid options) := by
  rw [taskWait] at h
  rcases hl : s.live t with _ | task
  · rw [hl] at h
    cases h
  have ht := task_of_live hl
  simp only [hl] at h
  split_ifs at h with hopt
  · exact .inl ⟨(some.inj h).symm, by rw [Sound]; tauto⟩
  rcases hz : findZombie s pid task.zombies with _ | z
  · simp only [hz] at h
    refine .inl ⟨(some.inj h).symm, .inr (.inr (.inr fun task' ht' => ?_))⟩
    obtain rfl := some.inj (ht.symm.trans ht')
    exact hz
  · simp only [hz] at h
    obtain ⟨child, hchild, rfl⟩ := map_eq_some_iff.mp h
    refine .inr ⟨⟨z, reaped_of_reap (same_setTask ht rfl rfl) hchild⟩, fun hS => ?_⟩
    rcases hS with h' | h' | h' | h'
    · exact hopt (.inl h')
    · exact hopt (.inr (.inl h'))
    · exact hopt (.inr (.inr h'))
    · exact absurd (hz.symm.trans (h' task ht)) (by simp)

theorem zombieReclaim_cases (h : zombieReclaim s = some s') :
    (s' = s ∧ Sound s .reclaim) ∨ (∃ z, Reaped s s' z) ∧ ¬ Sound s .reclaim := by
  rw [zombieReclaim] at h
  rcases hq : s.zombieQueue with _ | ⟨z, rest⟩
  · simp only [hq] at h
    exact .inl ⟨(some.inj h).symm, hq⟩
  · simp only [hq] at h
    obtain ⟨task, htask, rfl⟩ := map_eq_some_iff.mp h
    refine .inr ⟨⟨z, reaped_of_reap ⟨rfl, rfl, rfl, rfl⟩ htask⟩, fun hS => ?_⟩
    exact absurd (hq.symm.trans hS) (by simp)

theorem step_cases (h : step s m = some s') :
    (Same s s' ∧ Sound s m) ∨
    (∃ addr id g granted, Added s s' addr id g granted ∧
      (Sound s m ↔ s.map.canHold granted id = true)) ∨
    ((∃ g, Lost s s' g) ∨ ∃ t, Reaped s s' t) ∧ ¬ Sound s m := by
  have hmap : ∀ {id granted addr g}, Added s s' addr id g granted →
      (s.MapFits granted ↔ s.map.canHold granted id = true) := by
    intro id granted addr g hadd
    refine ⟨fun hfit => hfit id hadd.next, fun hcan id' hid' => ?_⟩
    obtain rfl := some.inj (hadd.next.symm.trans hid')
    exact hcan
  cases m with
  | create parent addr thread fate =>
    rcases create_cases h with h | ⟨id, g, granted, hadd, rfl⟩ | ⟨hlost, hS⟩
    · exact .inl h
    · exact .inr (.inl ⟨addr, id, g, granted, hadd, hmap hadd⟩)
    · exact .inr (.inr ⟨.inl hlost, hS⟩)
  | createKernelThread addr fate =>
    rcases createKernelThread_cases h with h | ⟨id, g, granted, hadd, rfl⟩
    · exact .inl h
    · exact .inr (.inl ⟨addr, id, g, granted, hadd, hmap hadd⟩)
  | exit t => exact .inl ⟨taskExit_same h, trivial⟩
  | wait t pid options =>
    rcases taskWait_cases h with ⟨rfl, hS⟩ | ⟨hr, hS⟩
    · exact .inl ⟨.refl s', hS⟩
    · exact .inr (.inr ⟨.inr hr, hS⟩)
  | reclaim =>
    rcases zombieReclaim_cases h with ⟨rfl, hS⟩ | ⟨hr, hS⟩
    · exact .inl ⟨.refl s', hS⟩
    · exact .inr (.inr ⟨.inr hr, hS⟩)

/-! ## Runs -/

/-- The main thread of each group is there, and ids are in range. -/
structure Inv (s : State) : Prop extends s.Identify where
  leader : ∀ t g, s.tgidOf t = some g → ∃ u, s.pidOf u = some g
  range : ∀ t id, s.pidOf t = some id → id < taskIdMax

theorem Inv.start : Inv start where
  distinct _ _ _ h := by cases h
  bitmap_iff id := by simp [Pids.start, pidOf]
  map_iff id t := by simp [Pids.start, pidOf]
  leader _ _ h := by cases h
  range _ _ h := by cases h

section

variable (h : Inv s)
include h

theorem Inv.same (hs : Same s s') : Inv s' := by
  constructor
  · constructor
    · rw [hs.pids]
      exact h.distinct
    · rw [hs.pids, hs.bitmap]
      exact h.bitmap_iff
    · rw [hs.pids, hs.map]
      exact h.map_iff
  · rw [hs.pids, hs.tgids]
    exact h.leader
  · rw [hs.pids]
    exact h.range

theorem Inv.fresh (hid : s.nextId = some id) (t : Nat) : s.pidOf t ≠ some id := by
  intro ht
  have hbit := (h.bitmap_iff id).mpr (.inr ⟨t, ht⟩)
  rw [(nextId_spec hid).1] at hbit
  cases hbit

theorem Inv.added {granted : Bool} (ha : Added s s' addr id g granted)
    (hfit : s.map.canHold granted id = true) : Inv s' := by
  have hpid : ∀ t id', s'.pidOf t = some id' ↔
      (t = addr ∧ id' = id) ∨ (t ≠ addr ∧ s.pidOf t = some id') := by
    intro t id'
    rw [ha.pids, update_apply]
    split_ifs with ht
    · simp [ht, eq_comm]
    · simp [ht]
  have hne : ∀ t id', s.pidOf t = some id' → t ≠ addr := by
    rintro t id' ht rfl
    rw [ha.free] at ht
    cases ht
  constructor
  · constructor
    · intro t t' id' ht ht'
      rcases (hpid t id').mp ht with ⟨rfl, rfl⟩ | ⟨-, ht⟩ <;>
        rcases (hpid t' _).mp ht' with ⟨rfl, hid⟩ | ⟨-, ht'⟩
      · rfl
      · exact absurd ht' (h.fresh ha.next t')
      · exact absurd (hid ▸ ht) (h.fresh ha.next t)
      · exact h.distinct t t' id' ht ht'
    · intro id'
      rw [ha.bitmap, update_apply]
      split_ifs with hid
      · exact ⟨fun _ => .inr ⟨addr, (hpid _ _).mpr (.inl ⟨rfl, hid⟩)⟩, fun _ => rfl⟩
      · rw [h.bitmap_iff]
        refine or_congr_right ⟨?_, ?_⟩
        · rintro ⟨t, ht⟩
          exact ⟨t, (hpid t id').mpr (.inr ⟨hne t id' ht, ht⟩)⟩
        · rintro ⟨t, ht⟩
          rcases (hpid t id').mp ht with ⟨-, rfl⟩ | ⟨-, ht⟩
          · exact absurd rfl hid
          · exact ⟨t, ht⟩
    · intro id' t
      have hslot : s'.map.slot = update s.map.slot id (some addr) := by
        rw [ha.map, IdMap.set, if_pos hfit]
      rw [hslot, hpid, update_apply]
      split_ifs with hid
      · subst hid
        constructor
        · intro ht
          exact .inl ⟨(some.inj ht).symm, rfl⟩
        · rintro (⟨rfl, -⟩ | ⟨-, ht⟩)
          · rfl
          · exact absurd ht (h.fresh ha.next t)
      · rw [h.map_iff]
        refine ⟨fun ht => .inr ⟨hne t id' ht, ht⟩, ?_⟩
        rintro (⟨-, rfl⟩ | ⟨-, ht⟩)
        · exact absurd rfl hid
        · exact ht
  · intro t g' ht
    have hold : ∀ u g', s.tgidOf u = some g' → ∃ v, s'.pidOf v = some g' := by
      intro u g' hu
      obtain ⟨v, hv⟩ := h.leader u g' hu
      exact ⟨v, (hpid v g').mpr (.inr ⟨hne v g' hv, hv⟩)⟩
    rw [ha.tgids, update_apply] at ht
    split_ifs at ht with hta
    · cases ht
      rcases ha.group with rfl | ⟨u, hu⟩
      · exact ⟨addr, (hpid _ _).mpr (.inl ⟨rfl, rfl⟩)⟩
      · exact hold u g hu
    · exact hold t g' ht
  · intro t id' ht
    rcases (hpid t id').mp ht with ⟨-, rfl⟩ | ⟨-, ht⟩
    · exact (nextId_spec ha.next).2
    · exact h.range t id' ht

theorem Inv.not_added {granted : Bool} (ha : Added s s' addr id g granted)
    (hfit : ¬ s.map.canHold granted id = true) : ¬ s'.Identify := by
  intro h'
  have hslot := (h'.map_iff id addr).mpr (by rw [ha.pids, update_self])
  rw [ha.map, IdMap.set, if_neg hfit, h.map_iff, ha.free] at hslot
  cases hslot

theorem Inv.not_lost (hl : Lost s s' g) : ¬ s'.Identify := by
  intro h'
  obtain ⟨u, hu⟩ := hl.group
  obtain ⟨v, hv⟩ := h.leader u g hu
  have hbit := (h'.bitmap_iff g).mpr (.inr ⟨v, by rw [hl.pids, hv]⟩)
  rw [hl.bitmap (h.range v g hv)] at hbit
  cases hbit

theorem Inv.not_reaped (hr : Reaped s s' t) : ¬ s'.Identify := by
  intro h'
  obtain ⟨id, hid⟩ := hr.before
  have ht := (h'.map_iff id t).mp (by rw [hr.map, h.map_iff, hid])
  rw [hr.after] at ht
  cases ht

theorem Inv.step (hS : Sound s m) (hs : step s m = some s') : Inv s' := by
  rcases step_cases hs with ⟨hsame, -⟩ | ⟨_, _, _, _, hadd, hiff⟩ | ⟨-, hnot⟩
  · exact h.same hsame
  · exact h.added hadd (hiff.mp hS)
  · exact absurd hS hnot

theorem Inv.identify_iff (hs : Pids.step s m = some s') : s'.Identify ↔ Sound s m := by
  refine ⟨fun h' => ?_, fun hS => (h.step hS hs).toIdentify⟩
  rcases step_cases hs with ⟨-, hS⟩ | ⟨_, _, _, _, hadd, hiff⟩ | ⟨⟨_, hl⟩ | ⟨_, hr⟩, -⟩
  · exact hS
  · rw [hiff]
    by_contra hfit
    exact h.not_added hadd hfit h'
  · exact absurd h' (h.not_lost hl)
  · exact absurd h' (h.not_reaped hr)

end

/-- Ids identify the tasks as long as no creation of a thread fails with an id in its hands, the id
map has room for every new task and no task is reaped; the first step at which this is not so
spoils them. -/
theorem pids_identify_iff (h : Reach step Sound start s) :
    s.Identify ∧ ∀ m s', step s m = some s' → (s'.Identify ↔ Sound s m) := by
  have hinv : Inv s := h.invariant Inv.start fun _ _ _ hI hS hs => hI.step hS hs
  exact ⟨hinv.toIdentify, fun _ _ hs => hinv.identify_iff hs⟩

theorem pids_identify_process : ∃ s, s.pidOf 101 = some 3 ∧ s.Identify ∧
    ∀ m s', step s m = some s' → (s'.Identify ↔ Sound s m) := by
  have hrun : ∃ s, Reach step Sound start s ∧ s.pidOf 101 = some 3 := by
    refine exists_reach (fun s m => match m with
        | .createKernelThread _ (.done granted) | .create _ _ _ (.done granted) =>
          s.nextId.all (s.map.canHold granted)
        | _ => false) (fun s m hm => ?_)
      [.createKernelThread 100 (.done false), .create 100 101 false (.done false)]
      (by decide +kernel)
    split at hm
    · exact (all_eq_true _ _).mp hm
    · exact (all_eq_true _ _).mp hm
    · cases hm
  obtain ⟨s, hs, hpid⟩ := hrun
  exact ⟨s, hpid, pids_identify_iff hs⟩

/-- A process cannot make a thread, and its id is given to a second process. -/
theorem pid_given_twice : ∃ s, Reach step Any start s ∧ ¬ s.Identify := by
  have hrun : ∃ s, Reach step Any start s ∧ s.pidOf 101 = some 3 ∧ s.pidOf 103 = some 3 :=
    exists_reach_any [.createKernelThread 100 (.done false), .create 100 101 false (.done false),
      .create 101 102 true .late, .create 100 103 false (.done false)] (by decide +kernel)
  obtain ⟨s, hs, hfirst, hsecond⟩ := hrun
  exact ⟨s, hs, fun h => absurd (h.distinct 101 103 3 hfirst hsecond) (by decide)⟩

end ShiziOS.Task.Pids
