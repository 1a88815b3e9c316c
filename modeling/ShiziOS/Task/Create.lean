import ShiziOS.Syscall.Spawn
import ShiziOS.Task.Pids

/-!
# Creating a task

`task_create_new` with what it takes for the new task: an id, references to the paths of the parent,
an address space and a file table. Any call in it may fail. An address space or a table of the new
task's own goes with its one reference; the files in such a table are not followed.
-/

namespace ShiziOS.Task.Create

open Function Syscall Pids

/-- The calls that may fail, besides `id_alloc`. -/
inductive Callee where
  | kheapAlloc | kheapAllocStack | threadStructCreate | vheapCreateAs | vheapAlloc | execLoad
  | taskFilesAlloc | taskFilesCopyList | signalCopy
deriving DecidableEq

/-- The tasks with their ids and lists, the reference counts of objects by their addresses, the
threads by the leaders of their groups, and the run queue. -/
structure World where
  pids : Pids.State
  mounts : Nat → Int
  dentries : Nat → Int
  spaces : Nat → Int
  tables : Nat → Int
  threadGroup : Nat → List Nat
  runQueue : List Nat

/-- What the parent has; a path is a mount and a dentry. -/
structure Parent where
  addr : Nat
  groupLeader : Nat
  root : Option (Nat × Nat)
  pwd : Option (Nat × Nat)
  as : Option Nat
  files : Option Nat

/-- The addresses of what is new. -/
structure New where
  task : Nat
  as : Nat
  files : Nat

def addRef (count : Nat → Int) (n : Int) : Option Nat → Nat → Int
  | none => count
  | some p => update count p (count p + n)

/-- `vfs_path_get`, if there is a path. -/
def World.pathGet (s : World) (path : Option (Nat × Nat)) : World :=
  { s with
    mounts := addRef s.mounts 1 (path.map Prod.fst)
    dentries := addRef s.dentries 1 (path.map Prod.snd) }

/-- What becomes of the ids, with the label `err_pid` if the call is late to fail. -/
def World.ids (s : World) (p : Parent) (new : New) (thread : Bool) (fate : Fate) : Option World :=
  (Pids.taskCreateNew s.pids p.addr new.task thread fate).map fun pids => { s with pids := pids }

/-- From the label `err_files` on, with the table and the address space of the parent. -/
def World.errFiles (s : World) (p : Parent) (new : New) : Option World :=
  World.ids { s with
    tables := addRef s.tables (-1) p.files, spaces := addRef s.spaces (-1) p.as } p new true .late

/-- The end of a call that succeeds. -/
def World.finish (s : World) (p : Parent) (new : New) (thread granted : Bool) : Option World :=
  (s.ids p new thread (.done granted)).map fun s => { s with
    threadGroup := if thread then
      update s.threadGroup p.groupLeader (s.threadGroup p.groupLeader ++ [new.task])
      else s.threadGroup
    runQueue := s.runQueue ++ [new.task] }

/-- The checks of the arguments; the words of a program and of an entry point are the same. -/
def argsOk (size : Nat) (a : Attrs) : Bool :=
  attrsSize ≤ size && a.flags / 8 == 0 && a.execPath != 0 && (!a.isThread || a.argv != 0)

section

variable (fail : Callee → Option Int)

def enomemIf (c : Callee) : Option Int := (fail c).map fun _ => -enomem

/-- The first failure before the id is taken. -/
def earlyErr : Option Int :=
  enomemIf fail .kheapAlloc <|> enomemIf fail .kheapAllocStack <|> enomemIf fail .threadStructCreate

/-- The first failure on the way of a process. -/
def processErr (a : Attrs) : Option Int :=
  enomemIf fail .vheapCreateAs <|> enomemIf fail .vheapAlloc <|> fail .execLoad <|>
    enomemIf fail .taskFilesAlloc <|>
    (if 0 < a.fdCount ∧ a.inheritFds ≠ 0 then fail .taskFilesCopyList else none) <|>
    enomemIf fail .signalCopy

/-- `task_create_new`. The address space of a thread's parent is read and must be there. -/
def taskCreateNew (granted : Bool) (attrs : Option Attrs) (size : Nat) (p : Parent) (new : New)
    (s : World) : Option (Except Int Nat × World) :=
  match attrs.filter (argsOk size), earlyErr fail, s.pids.idAlloc with
  | none, _, _ => some (.error (-einval), s)
  | some _, some e, _ => some (.error e, s)
  | some _, none, none => some (.error (-enomem), s)
  | some a, none, some _ =>
    let s := (s.pathGet p.root).pathGet p.pwd
    if a.isThread then
      p.as.bind fun as =>
        let s := { s with
          spaces := addRef s.spaces 1 (some as), tables := addRef s.tables 1 p.files }
        if (fail .signalCopy).isSome then (s.errFiles p new).map (.error (-enomem), ·)
        else (s.finish p new true granted).map (.ok new.task, ·)
    else
      match processErr fail a with
      | some e => (s.ids p new false .late).map (.error e, ·)
      | none =>
        let s := { s with
          spaces := update s.spaces new.as 1, tables := update s.tables new.files 1 }
        (s.finish p new false granted).map (.ok new.task, ·)

end

/-- Ids, lists and the reference counts of what the parent has are as before. -/
structure Undone (p : Parent) (s s' : World) : Prop where
  pids : s'.pids = s.pids
  lists : s'.threadGroup = s.threadGroup ∧ s'.runQueue = s.runQueue
  paths (q : Nat × Nat) : p.root = some q ∨ p.pwd = some q →
    s'.mounts q.1 = s.mounts q.1 ∧ s'.dentries q.2 = s.dentries q.2
  space (a : Nat) : p.as = some a → s'.spaces a = s.spaces a
  table (a : Nat) : p.files = some a → s'.tables a = s.tables a

/-- The call fails before it has an id. -/
def Early (fail : Callee → Option Int) (attrs : Option Attrs) (size : Nat) (s : World) : Prop :=
  attrs.filter (argsOk size) = none ∨ earlyErr fail ≠ none ∨ s.pids.idAlloc = none

/-- A thread would not lose the id of its group. -/
def KeepsGroup (attrs : Option Attrs) (p : Parent) (s : World) : Prop :=
  ∀ a parent, attrs = some a → a.isThread → s.pids.live p.addr = some parent →
    taskIdMax ≤ parent.tgid ∨ s.pids.bitmap parent.tgid = false

variable {fail : Callee → Option Int} {granted : Bool} {attrs : Option Attrs} {size : Nat}
  {p : Parent} {new : New} {s s' : World} {e : Int}

theorem addRef_back (count : Nat → Int) (q : Option Nat) :
    addRef (addRef count 1 q) (-1) q = count := by
  cases q with
  | none => rfl
  | some q => simp [addRef]

theorem le_addRef (count : Nat → Int) (q : Option Nat) (a : Nat) :
    count a ≤ addRef count 1 q a := by
  cases q with
  | none => exact le_rfl
  | some q =>
    rw [addRef, update_apply]
    split_ifs with h
    · subst h
      omega
    · exact le_rfl

theorem lt_addRef (count : Nat → Int) (a : Nat) : count a < addRef count 1 (some a) a := by
  rw [addRef, update_self]
  omega

theorem ids_late {thread : Bool} {r : Nat × Pids.State} (hid : s.pids.idAlloc = some r)
    (h : s.ids p new thread .late = some s') :
    ∃ parent, s.pids.live p.addr = some parent ∧
      s' = { s with pids := if thread then s.pids.idFree parent.tgid else s.pids } := by
  obtain ⟨pids, hpids, rfl⟩ := Option.map_eq_some_iff.mp h
  obtain ⟨parent, hparent, rfl⟩ := create_late hid hpids
  exact ⟨parent, hparent, rfl⟩

/-- A call that fails late has the references to the paths, and a thread's frees the id of its
group. -/
theorem error_cases (h : taskCreateNew fail granted attrs size p new s = some (.error e, s')) :
    Early fail attrs size s ∧ s' = s ∨ ¬Early fail attrs size s ∧
    ∃ a parent, attrs = some a ∧ s.pids.live p.addr = some parent ∧
      s' = { (s.pathGet p.root).pathGet p.pwd with
        pids := if a.isThread then s.pids.idFree parent.tgid else s.pids } := by
  rw [taskCreateNew] at h
  split at h
  case h_1 hattrs =>
    cases h
    exact .inl ⟨.inl hattrs, rfl⟩
  case h_2 he =>
    cases h
    exact .inl ⟨.inr (.inl (by simp [he])), rfl⟩
  case h_3 hid =>
    cases h
    exact .inl ⟨.inr (.inr hid), rfl⟩
  case h_4 a id hattrs he hid =>
    refine .inr ⟨by simp [Early, hattrs, he, hid], a, ?_⟩
    have hsome := (Option.filter_eq_some_iff.mp hattrs).1
    dsimp only at h
    split at h
    case isTrue hthread =>
      obtain ⟨as, has, h⟩ := Option.bind_eq_some_iff.mp h
      split at h
      · obtain ⟨s1, h, hs⟩ := Option.map_eq_some_iff.mp h
        cases hs
        rw [World.errFiles, has, addRef_back, addRef_back] at h
        obtain ⟨parent, hparent, rfl⟩ := ids_late (s := (s.pathGet p.root).pathGet p.pwd) hid h
        refine ⟨parent, hsome, hparent, ?_⟩
        rw [if_pos hthread]
        rfl
      · obtain ⟨s1, -, h⟩ := Option.map_eq_some_iff.mp h
        cases h
    case isFalse hthread =>
      split at h
      · obtain ⟨s1, h, hs⟩ := Option.map_eq_some_iff.mp h
        cases hs
        obtain ⟨parent, hparent, rfl⟩ := ids_late (s := (s.pathGet p.root).pathGet p.pwd) hid h
        refine ⟨parent, hsome, hparent, ?_⟩
        rw [if_neg hthread]
        rfl
      · obtain ⟨s1, -, h⟩ := Option.map_eq_some_iff.mp h
        cases h

theorem not_undone_of_path {pids : Pids.State} {q : Nat × Nat}
    (hq : p.root = some q ∨ p.pwd = some q) :
    ¬Undone p s { (s.pathGet p.root).pathGet p.pwd with pids := pids } := by
  intro h
  have hsame : addRef (addRef s.mounts 1 (p.root.map Prod.fst)) 1 (p.pwd.map Prod.fst) q.1 =
    s.mounts q.1 := (h.paths q hq).1
  rcases hq with hq | hq
  · rw [hq, Option.map_some] at hsame
    have := lt_addRef s.mounts q.1
    have := le_addRef (addRef s.mounts 1 (some q.1)) (p.pwd.map Prod.fst) q.1
    omega
  · rw [hq, Option.map_some] at hsame
    have := le_addRef s.mounts (p.root.map Prod.fst) q.1
    have := lt_addRef (addRef s.mounts 1 (p.root.map Prod.fst)) q.1
    omega

/-- One task, of id 2, at address 100. -/
def oneTask : World where
  pids := { Pids.start with
    task := update (fun _ => none) 100 (some ⟨2, 2, none, [], [], false⟩), bitmap := (· < 3) }
  mounts _ := 1
  dentries _ := 1
  spaces _ := 1
  tables _ := 1
  threadGroup _ := []
  runQueue := []

/-- `signal_copy`, of which there is only a stub, refuses a thread. The root of the parent has a
reference more, and the id of the parent is free. -/
theorem failed_thread_frees_group : ∃ s', taskCreateNew (if · = .signalCopy then some 0 else none)
    true (some ⟨1, 0, 0, 8, 8, 8⟩) 48 ⟨100, 100, some (1, 1), none, some 1, none⟩
      ⟨101, 2, 2⟩ oneTask =
      some (.error (-enomem), s') ∧ s'.mounts 1 = 2 ∧ s'.pids.bitmap 2 = false :=
  ⟨_, rfl, rfl, rfl⟩

theorem task_create_undone (h : taskCreateNew fail granted attrs size p new s =
      some (.error e, s')) :
    Undone p s s' ↔
      Early fail attrs size s ∨ p.root = none ∧ p.pwd = none ∧ KeepsGroup attrs p s := by
  rcases error_cases h with ⟨hearly, rfl⟩ | ⟨hlate, a, parent, rfl, hparent, rfl⟩
  · exact iff_of_true ⟨rfl, ⟨rfl, rfl⟩, fun _ _ => ⟨rfl, rfl⟩, fun _ _ => rfl, fun _ _ => rfl⟩
      (.inl hearly)
  rw [or_iff_right hlate]
  constructor
  · intro h
    refine ⟨?_, ?_, ?_⟩
    · rw [Option.eq_none_iff_forall_ne_some]
      exact fun q hq => not_undone_of_path (.inl hq) h
    · rw [Option.eq_none_iff_forall_ne_some]
      exact fun q hq => not_undone_of_path (.inr hq) h
    · rintro _ _ ⟨⟩ hthread hparent'
      cases hparent.symm.trans hparent'
      have hpids := h.pids
      rw [if_pos hthread] at hpids
      exact State.idFree_eq_self_iff.mp hpids
  · rintro ⟨hroot, hpwd, hgroup⟩
    rw [hroot, hpwd]
    refine ⟨?_, ⟨rfl, rfl⟩, fun _ _ => ⟨rfl, rfl⟩, fun _ _ => rfl, fun _ _ => rfl⟩
    split_ifs with hthread
    · exact State.idFree_eq_self_iff.mpr (hgroup a parent rfl hthread hparent)
    · rfl

theorem task_create_undone_process : ∃ s', taskCreateNew (if · = .execLoad then some (-2) else none)
    true (some ⟨0, 0, 0, 8, 8, 8⟩) 48 ⟨100, 100, none, none, some 1, none⟩ ⟨101, 2, 2⟩ oneTask =
      some (.error (-2), s') ∧ Undone ⟨100, 100, none, none, some 1, none⟩ oneTask s' := by
  refine Exists.imp (fun s' h => ⟨h, (task_create_undone h).mpr (.inr ⟨rfl, rfl, ?_⟩)⟩) ⟨_, rfl⟩
  rintro _ _ ⟨⟩ ⟨⟩

end ShiziOS.Task.Create
