import ShiziOS.Task.RoundRobin
import ShiziOS.Lib.Runs
import ShiziOS.Lib.Census

/-!
# Migration of tasks between CPUs

`task_try_migration` and `task_do_migration` of `kernel/task/core.c`. A CPU that runs out of tasks
claims a busy one by a compare-and-exchange on its word in `infos`, sends it an interrupt and
waits until the word is inactive. The busy CPU moves half of its run queue, through an array of
its own, to the migration list of the requester, which puts the tasks on its run queue.

Each access to shared data and each run-queue operation is a step of its CPU. Both functions run
with interrupts off, so a CPU is in at most one of them. The interrupt may come at any time, with
or without a request.
-/

namespace ShiziOS.Task.Migration

open Function Runs List Nat

def migStatePack (sender : Nat) (active : Bool) : Nat := 2 * sender + active.toNat

/-- `MIG_STATE_SENDER`: the cast to 32 bits comes before the shift. -/
def migStateSender (state : Nat) : Nat := state % 2 ^ 32 / 2

def migStateActive (state : Nat) : Bool := state % 2 = 1

/-- The word of a CPU nobody has claimed. -/
def unclaimed : Nat := migStatePack 0xFFFFFFFF false

/-- Where a CPU is in `task_try_migration` (`read` to `enqueue`) or in `task_do_migration`
(`load` to `clear`), with its local variables. -/
inductive Pc (n : Nat) (Task : Type) where
  | idle
  | read (taskCount : List Nat)
  | request (targets : List (Fin n))
  | wait (target : Fin n)
  | drain
  | enqueue (task : Task)
  | load
  | count (old : Nat)
  | take (old left : Nat) (tasks : List Task)
  | push (old : Nat) (tasks : List Task)
  | clear (old : Nat)
  | fault
  deriving DecidableEq

structure State (n : Nat) (Task : Type) where
  rq : Fin n → RunQueue Task
  infos : Fin n → Nat
  migration : Fin n → List Task
  pc : Fin n → Pc n Task

/-- `go` is the next step of the function a CPU is in. -/
inductive Move where
  | tryMigration
  | doMigration
  | go

/-- The two most loaded CPUs found so far; `none` for `0xFFFFFFFF`. -/
structure Choice (n : Nat) where
  best : Option (Fin n) := none
  bestCount : Nat := 0
  second : Option (Fin n) := none
  secondCount : Nat := 0

variable {n : Nat} {Task : Type}

def Choice.consider (self : Fin n) (taskCount : List Nat) (ch : Choice n) (i : Fin n) : Choice n :=
  let currCount := taskCount.getD i 0 % 2 ^ 32
  if i = self then ch
  else if currCount ≤ 2 then ch
  else if ch.bestCount < currCount then
    { best := some i, bestCount := currCount, second := ch.best, secondCount := ch.bestCount }
  else if ch.secondCount < currCount then { ch with second := some i, secondCount := currCount }
  else ch

/-- The CPUs to ask, in the order they are asked. -/
def targets (self : Fin n) (taskCount : List Nat) : List (Fin n) :=
  let ch := (List.finRange n).foldl (Choice.consider self taskCount) {}
  ch.best.toList ++ ch.second.toList

namespace State

variable (s : State n Task) (c : Fin n)

def setPc (p : Pc n Task) : State n Task := { s with pc := update s.pc c p }

def setRq (q : RunQueue Task) : State n Task := { s with rq := update s.rq c q }

def setInfo (word : Nat) : State n Task := { s with infos := update s.infos c word }

def setMigration (l : List Task) : State n Task := { s with migration := update s.migration c l }

/-- One pass of the loop that fills the local array; a missing task is dereferenced. -/
def takeOne (old left : Nat) (tasks : List Task) : State n Task :=
  match rrDequeueTail (s.rq c) with
  | none => s.setPc c .fault
  | some (t, q) => (s.setRq c q).setPc c (.take old left (tasks ++ [t]))

/-- One pass of the loop that pushes the array to the list of the sender. -/
def pushOne (old : Nat) (t : Task) (tasks : List Task) : State n Task :=
  if h : migStateSender old < n then
    (s.setMigration ⟨_, h⟩ (s.migration ⟨_, h⟩ ++ [t])).setPc c (.push old tasks)
  else s.setPc c .fault

end State

def step (s : State n Task) : Fin n × Move → Option (State n Task)
  | (c, move) =>
    match s.pc c, move with
    | .idle, .tryMigration => some (s.setPc c (.read []))
    | .read taskCount, .go =>
      if h : taskCount.length < n then
        some (s.setPc c (.read (taskCount ++ [(s.rq ⟨_, h⟩).nrRunning])))
      else some (s.setPc c (.request (targets c taskCount)))
    | .request [], .go => some (s.setPc c .idle)
    | .request (b :: rest), .go =>
      if s.infos b = unclaimed then some ((s.setInfo b (migStatePack c true)).setPc c (.wait b))
      else some (s.setPc c (.request rest))
    | .wait b, .go => if migStateActive (s.infos b) then some s else some (s.setPc c .drain)
    | .drain, .go =>
      match s.migration c with
      | [] => some (s.setPc c .idle)
      | t :: rest => some ((s.setMigration c rest).setPc c (.enqueue t))
    | .enqueue t, .go => some ((s.setRq c (rrEnqueue (s.rq c) t)).setPc c .drain)
    | .idle, .doMigration => some (s.setPc c .load)
    | .load, .go =>
      if migStateActive (s.infos c) then some (s.setPc c (.count (s.infos c)))
      else some (s.setPc c .idle)
    | .count old, .go =>
      let nr := (s.rq c).nrRunning % 2 ^ 32
      if nr ≤ 2 then some (s.setPc c (.clear old)) else some (s.setPc c (.take old (nr / 2) []))
    | .take old 0 tasks, .go => some (s.setPc c (.push old tasks))
    | .take old (left + 1) tasks, .go => some (s.takeOne c old left tasks)
    | .push old [], .go => some (s.setPc c (.clear old))
    | .push old (t :: tasks), .go => some (s.pushOne c old t tasks)
    | .clear old, .go =>
      some ((s.setInfo c (if s.infos c = old then unclaimed else s.infos c)).setPc c .idle)
    | _, _ => none

/-! ## The word a CPU is claimed by -/

theorem active_pack {r : Nat} : migStateActive (migStatePack r true) = true := by
  simp [migStateActive, migStatePack]

theorem not_active_unclaimed : migStateActive unclaimed = false := by
  decide

theorem sender_pack {r : Nat} (h : r < 2 ^ 31) : migStateSender (migStatePack r true) = r := by
  simp only [migStateSender, migStatePack, Bool.toNat_true]
  omega

/-! ## Claims and lists -/

/-- The CPU is at work on the claim `old`. -/
def Pc.serves : Pc n Task → Option Nat
  | .count old | .take old _ _ | .push old _ | .clear old => some old
  | _ => none

/-- The CPU has made a claim and has not taken its list in yet. -/
def Pc.requesting : Pc n Task → Bool
  | .wait _ | .drain | .enqueue _ => true
  | _ => false

/-- How many tasks the CPU has still to take from its run queue. -/
def Pc.left : Pc n Task → Nat
  | .take _ left _ => left
  | _ => 0

/-- A claim is held by a CPU that waits for it, a CPU at work finds the claim it read, only a
requester has tasks on its list, and the run queue is as long as its counter says. -/
structure Inv (s : State n Task) : Prop where
  exact : ∀ c, (s.rq c).Exact
  claimed : ∀ b, s.infos b = unclaimed ∨ ∃ r : Fin n, s.infos b = migStatePack r true ∧
    s.pc r = .wait b
  serving : ∀ c old, (s.pc c).serves = some old → s.infos c = old ∧ migStateActive old = true
  listed : ∀ c, s.migration c ≠ [] → (s.pc c).requesting = true
  enough : ∀ c, (s.pc c).left ≤ (s.rq c).tasks.length
  sound : ∀ c, s.pc c ≠ .fault

variable {s s' : State n Task} {c : Fin n} {old : Nat} {p q : Pc n Task}

theorem Inv.sender (h : Inv s) (hc : (s.pc c).serves = some old) :
    ∃ r : Fin n, old = migStatePack r true ∧ s.pc r = .wait c := by
  obtain ⟨rfl, hactive⟩ := h.serving c old hc
  rcases h.claimed c with hword | hr
  · rw [hword, not_active_unclaimed] at hactive
    cases hactive
  · exact hr

theorem Inv.setPc (h : Inv s) (hwait : ∀ b, s.pc c = .wait b → migStateActive (s.infos b) = false)
    (hserves : ∀ old, p.serves = some old → s.infos c = old ∧ migStateActive old = true)
    (hlist : s.migration c ≠ [] → p.requesting = true)
    (hleft : p.left ≤ (s.rq c).tasks.length) (hp : p ≠ .fault) : Inv (s.setPc c p) where
  exact := h.exact
  claimed b := by
    rcases h.claimed b with hword | ⟨r, hword, hr⟩
    · exact .inl hword
    · have hne : r ≠ c := by
        rintro rfl
        have hinactive := hwait b hr
        rw [hword, active_pack] at hinactive
        cases hinactive
      exact .inr ⟨r, hword, (update_of_ne hne ..).trans hr⟩
  serving := (forall_update_iff s.pc fun d p => ∀ old, p.serves = some old →
    s.infos d = old ∧ migStateActive old = true).mpr ⟨hserves, fun d _ => h.serving d⟩
  listed := (forall_update_iff s.pc fun d p => s.migration d ≠ [] → p.requesting = true).mpr
    ⟨hlist, fun d _ => h.listed d⟩
  enough := (forall_update_iff s.pc fun d p => p.left ≤ (s.rq d).tasks.length).mpr
    ⟨hleft, fun d _ => h.enough d⟩
  sound := (forall_update_iff s.pc fun _ p => p ≠ .fault).mpr ⟨hp, fun d _ => h.sound d⟩

theorem Inv.setRq {q : RunQueue Task} (h : Inv s) (hq : q.Exact)
    (hleft : (s.pc c).left ≤ q.tasks.length) : Inv (s.setRq c q) :=
  { h with
    exact := (forall_update_iff s.rq fun _ q => q.Exact).mpr ⟨hq, fun d _ => h.exact d⟩
    enough := (forall_update_iff s.rq fun d q => (s.pc d).left ≤ q.tasks.length).mpr
      ⟨hleft, fun d _ => h.enough d⟩ }

theorem Inv.setMigration {l : List Task} (h : Inv s) (hl : l ≠ [] → (s.pc c).requesting = true) :
    Inv (s.setMigration c l) :=
  { h with
    listed := (forall_update_iff s.migration fun d l => l ≠ [] → (s.pc d).requesting = true).mpr
      ⟨hl, fun d _ => h.listed d⟩ }

theorem Inv.setWord {b : Fin n} {word : Nat} (h : Inv s)
    (hc : ∀ d, s.pc c ≠ .wait d) (hb : ∀ d, d ≠ c → (s.pc d).serves.isSome → d ≠ b)
    (hword : word = unclaimed ∨ word = migStatePack c true ∧ p = .wait b)
    (hserves : p.serves = none) (hlist : s.migration c ≠ [] → p.requesting = true)
    (hleft : p.left = 0) (hp : p ≠ .fault) : Inv ((s.setInfo b word).setPc c p) where
  exact := h.exact
  claimed := by
    refine (forall_update_iff s.infos fun d word => word = unclaimed ∨
      ∃ r : Fin n, word = migStatePack r true ∧ update s.pc c p r = .wait d).mpr ⟨?_, ?_⟩
    · rcases hword with hfree | ⟨hmine, rfl⟩
      · exact .inl hfree
      · exact .inr ⟨c, hmine, update_self ..⟩
    · intro d _
      rcases h.claimed d with hfree | ⟨r, hr, hwait⟩
      · exact .inl hfree
      · have hne : r ≠ c := by
          rintro rfl
          exact hc d hwait
        exact .inr ⟨r, hr, by rw [update_of_ne hne, hwait]⟩
  serving := by
    refine (forall_update_iff s.pc fun d p => ∀ old, p.serves = some old →
      update s.infos b word d = old ∧ migStateActive old = true).mpr ⟨by simp [hserves], ?_⟩
    intro d hd old hold
    rw [update_of_ne (hb d hd (by simp [hold]))]
    exact h.serving d old hold
  listed := (forall_update_iff s.pc fun d p => s.migration d ≠ [] → p.requesting = true).mpr
    ⟨hlist, fun d _ => h.listed d⟩
  enough := (forall_update_iff s.pc fun d p => p.left ≤ (s.rq d).tasks.length).mpr
    ⟨hleft ▸ zero_le _, fun d _ => h.enough d⟩
  sound := (forall_update_iff s.pc fun _ p => p ≠ .fault).mpr ⟨hp, fun d _ => h.sound d⟩

/-! ## Tasks in their places -/

/-- The tasks in the local variables of a CPU. -/
def Pc.held : Pc n Task → List Task
  | .enqueue t => [t]
  | .take _ _ tasks | .push _ tasks => tasks
  | _ => []

variable [DecidableEq Task]

/-- How often a task is in a run queue, on a migration list or in the hands of a CPU. -/
def State.total (s : State n Task) (t : Task) : Nat :=
  census (fun q => q.tasks.count t) s.rq + census (List.count t) s.migration +
    census (fun p => p.held.count t) s.pc

variable {t : Task}

theorem total_setPc (p : Pc n Task) :
    (s.setPc c p).total t + (s.pc c).held.count t = s.total t + p.held.count t := by
  have := census_update (w := fun p : Pc n Task => p.held.count t) (f := s.pc) (i := c) p
  simp only [State.total, State.setPc]
  omega

theorem total_setRq (q : RunQueue Task) :
    (s.setRq c q).total t + (s.rq c).tasks.count t = s.total t + q.tasks.count t := by
  have := census_update (w := fun q : RunQueue Task => q.tasks.count t) (f := s.rq) (i := c) q
  simp only [State.total, State.setRq]
  omega

theorem total_setMigration (l : List Task) :
    (s.setMigration c l).total t + (s.migration c).count t = s.total t + l.count t := by
  have := census_update (w := List.count t) (f := s.migration) (i := c) l
  simp only [State.total, State.setMigration]
  omega

/-- Every task is in one place at most. -/
def Once (s : State n Task) : Prop := ∀ t, s.total t ≤ 1

theorem count_le_total : (s.rq c).tasks.count t + (s.pc c).held.count t ≤ s.total t := by
  have hq := le_census (w := fun q : RunQueue Task => q.tasks.count t) (f := s.rq) c
  have hp := le_census (w := fun p : Pc n Task => p.held.count t) (f := s.pc) c
  simp only [State.total] at *
  omega

section Length

variable [Fintype Task]

theorem Once.length_le (h : Once s) :
    (s.rq c).tasks.length + (s.pc c).held.length ≤ Fintype.card Task := by
  rw [← length_append]
  refine List.Nodup.length_le_card (nodup_iff_count_le_one.mpr fun t => ?_)
  rw [count_append]
  exact count_le_total.trans (h t)

end Length

/-! ## What a step keeps -/

/-- The step keeps the invariant and loses or doubles no task. -/
def Kept (s s' : State n Task) : Prop := Inv s' ∧ ∀ t, s'.total t = s.total t

omit [DecidableEq Task] in
theorem Inv.list_eq_nil (h : Inv s) (hc : (s.pc c).requesting = false) : s.migration c = [] := by
  by_contra hne
  rw [h.listed c hne] at hc
  cases hc

section

variable (h : Inv s)
include h

theorem kept_setPc (hpc : s.pc c = q)
    (hwait : ∀ b, q = .wait b → migStateActive (s.infos b) = false)
    (hserves : ∀ old, p.serves = some old → s.infos c = old ∧ migStateActive old = true)
    (hlist : s.migration c ≠ [] → p.requesting = true) (hleft : p.left ≤ (s.rq c).tasks.length)
    (hp : p ≠ .fault) (hheld : p.held = q.held) : Kept s (s.setPc c p) := by
  subst hpc
  refine ⟨h.setPc hwait hserves hlist hleft hp, fun t => ?_⟩
  have := total_setPc (s := s) (c := c) (t := t) p
  rw [hheld] at this
  omega

theorem kept_free (hpc : s.pc c = q) (hq : q.requesting = false) (hserves : p.serves = none)
    (hleft : p.left = 0) (hp : p ≠ .fault) (hheld : p.held = q.held) : Kept s (s.setPc c p) := by
  refine kept_setPc h hpc ?_ ?_ ?_ ?_ hp hheld
  · rintro b rfl
    cases hq
  · intro old hold
    rw [hserves] at hold
    cases hold
  · intro hne
    exact absurd (h.list_eq_nil (hpc ▸ hq)) hne
  · rw [hleft]
    exact zero_le _

theorem kept_serve (hpc : s.pc c = q) (hq : q.requesting = false) (hserves : p.serves = some old)
    (hold : s.infos c = old ∧ migStateActive old = true) (hleft : p.left ≤ (s.rq c).tasks.length)
    (hp : p ≠ .fault) (hheld : p.held = q.held) : Kept s (s.setPc c p) := by
  refine kept_setPc h hpc ?_ ?_ ?_ hleft hp hheld
  · rintro b rfl
    cases hq
  · intro old' hold'
    rw [hserves] at hold'
    cases hold'
    exact hold
  · intro hne
    exact absurd (h.list_eq_nil (hpc ▸ hq)) hne

theorem kept_claim {b : Fin n} {rest : List (Fin n)} (hc : s.pc c = .request rest)
    (hb : s.infos b = unclaimed) :
    Kept s ((s.setInfo b (migStatePack c true)).setPc c (.wait b)) := by
  refine ⟨h.setWord ?_ ?_ (.inr ⟨rfl, rfl⟩) rfl (fun _ => rfl) rfl (by simp), fun t => ?_⟩
  · intro d hd
    rw [hc] at hd
    cases hd
  · rintro d - hd rfl
    obtain ⟨old, hold⟩ := Option.isSome_iff_exists.mp hd
    obtain ⟨hword, hactive⟩ := h.serving d old hold
    rw [← hword, hb, not_active_unclaimed] at hactive
    cases hactive
  · have := total_setPc (s := s.setInfo b (migStatePack c true)) (c := c) (t := t) (.wait b)
    simp only [Pc.held, State.setInfo, hc] at this
    exact this

theorem kept_clear (hc : s.pc c = .clear old) : Kept s ((s.setInfo c unclaimed).setPc c .idle) := by
  refine ⟨h.setWord ?_ (fun d hd _ => hd) (.inl rfl) rfl ?_ rfl (by simp), fun t => ?_⟩
  · intro d hd
    rw [hc] at hd
    cases hd
  · intro hne
    exact absurd (h.list_eq_nil (by rw [hc]; rfl)) hne
  · have := total_setPc (s := s.setInfo c unclaimed) (c := c) (t := t) .idle
    simp only [Pc.held, State.setInfo, hc] at this
    exact this

theorem kept_drain {rest : List Task} (hc : s.pc c = .drain) (hl : s.migration c = t :: rest) :
    Kept s ((s.setMigration c rest).setPc c (.enqueue t)) := by
  have hreq : (s.pc c).requesting = true := by rw [hc]; rfl
  refine ⟨(h.setMigration fun _ => hreq).setPc ?_ ?_ (fun _ => rfl) (zero_le _) (by simp),
    fun u => ?_⟩
  · intro b hb
    have hb : s.pc c = .wait b := hb
    rw [hc] at hb
    cases hb
  · intro old hold
    cases hold
  · have h1 := total_setPc (s := s.setMigration c rest) (c := c) (t := u) (.enqueue t)
    have h2 := total_setMigration (s := s) (c := c) (t := u) rest
    simp only [State.setMigration, hc, hl, Pc.held, count_nil, count_cons] at *
    omega

theorem kept_enqueue (hc : s.pc c = .enqueue t) (hlt : (s.rq c).tasks.length + 1 < 2 ^ 64) :
    Kept s ((s.setRq c (rrEnqueue (s.rq c) t)).setPc c .drain) := by
  have hleft : (s.pc c).left = 0 := by rw [hc]; rfl
  refine ⟨(h.setRq (exact_enqueue (h.exact c) hlt) (hleft ▸ zero_le _)).setPc ?_ ?_
    (fun _ => rfl) (zero_le _) (by simp), fun u => ?_⟩
  · intro b hb
    have hb : s.pc c = .wait b := hb
    rw [hc] at hb
    cases hb
  · intro old hold
    cases hold
  · have h1 := total_setPc (s := s.setRq c (rrEnqueue (s.rq c) t)) (c := c) (t := u) .drain
    have h2 := total_setRq (s := s) (c := c) (t := u) (rrEnqueue (s.rq c) t)
    simp only [State.setRq, hc, Pc.held, count_nil, rrEnqueue, count_append] at *
    omega

theorem kept_takeOne {left : Nat} {tasks : List Task} (hc : s.pc c = .take old (left + 1) tasks)
    (hlt : (s.rq c).tasks.length < 2 ^ 64) : Kept s (s.takeOne c old left tasks) := by
  have henough : left + 1 ≤ (s.rq c).tasks.length := by simpa [hc, Pc.left] using h.enough c
  have hserv := h.serving c old (by rw [hc]; rfl)
  unfold State.takeOne
  split
  · rename_i hnone
    unfold rrDequeueTail at hnone
    split at hnone
    · rename_i hlast
      rw [getLast?_eq_none_iff] at hlast
      simp [hlast] at henough
    · cases hnone
  · rename_i t q hq
    obtain ⟨hexact, htasks⟩ := exact_dequeueTail (h.exact c) hlt hq
    rw [htasks, length_append, length_singleton] at henough
    have hmid : Inv (s.setPc c (.take old left (tasks ++ [t]))) := by
      refine h.setPc ?_ ?_ ?_ ?_ (by simp)
      · intro b hb
        rw [hc] at hb
        cases hb
      · intro old' hold'
        cases hold'
        exact hserv
      · intro hne
        exact absurd (h.list_eq_nil (by rw [hc]; rfl)) hne
      · rw [htasks, length_append, length_singleton]
        show left ≤ _
        omega
    refine ⟨hmid.setRq hexact ?_, fun u => ?_⟩
    · show (update s.pc c _ c).left ≤ _
      rw [update_self]
      show left ≤ _
      omega
    · have h1 := total_setPc (s := s.setRq c q) (c := c) (t := u) (.take old left (tasks ++ [t]))
      have h2 := total_setRq (s := s) (c := c) (t := u) q
      simp only [State.setRq, hc, Pc.held, htasks, count_append] at *
      omega

end

theorem kept_pushOne (hn : n ≤ 2 ^ 31) {tasks : List Task} (h : Inv s)
    (hc : s.pc c = .push old (t :: tasks)) : Kept s (s.pushOne c old t tasks) := by
  have hserves : (s.pc c).serves = some old := by rw [hc]; rfl
  obtain ⟨r, rfl, hr⟩ := h.sender hserves
  have hsender : migStateSender (migStatePack r true) = r := sender_pack (by omega)
  have hne : c ≠ r := by
    rintro rfl
    rw [hc] at hr
    cases hr
  unfold State.pushOne
  rw [dif_pos (by rw [hsender]; exact r.isLt)]
  simp only [hsender, Fin.eta]
  refine ⟨(h.setMigration fun _ => by rw [hr]; rfl).setPc ?_ ?_ ?_ (zero_le _) (by simp),
    fun u => ?_⟩
  · intro b hb
    have hb : s.pc c = .wait b := hb
    rw [hc] at hb
    cases hb
  · intro old hold
    cases hold
    exact h.serving c _ hserves
  · intro hlist
    have hlist : update s.migration r _ c ≠ [] := hlist
    rw [update_of_ne hne] at hlist
    exact absurd (h.list_eq_nil (by rw [hc]; rfl)) hlist
  · have h1 := total_setPc (s := s.setMigration r (s.migration r ++ [t])) (c := c) (t := u)
      (.push (migStatePack r true) tasks)
    have h2 := total_setMigration (s := s) (c := r) (t := u) (s.migration r ++ [t])
    simp only [State.setMigration, hc, Pc.held, count_append, count_cons, count_nil] at *
    omega

section Steps

variable [Fintype Task]

theorem step_kept (hn : n ≤ 2 ^ 31) (hcard : Fintype.card Task < 2 ^ 64) {a : Fin n × Move}
    (h : Inv s) (honce : Once s) (hs : step s a = some s') : Kept s s' := by
  rcases a with ⟨c, move⟩
  have hlen := honce.length_le (c := c)
  cases hpc : s.pc c <;> cases move <;> simp only [step, hpc, reduceCtorEq, Option.some.injEq] at hs
  case idle.tryMigration | idle.doMigration =>
    subst hs
    exact kept_free h hpc rfl rfl rfl (by simp) rfl
  case read.go taskCount =>
    split at hs <;> cases hs <;>
      exact kept_free h hpc rfl rfl rfl (by simp) rfl
  case request.go targets =>
    cases targets with
    | nil =>
      cases hs
      exact kept_free h hpc rfl rfl rfl (by simp) rfl
    | cons b rest =>
      simp only at hs
      split_ifs at hs with hb <;> cases hs
      · exact kept_claim h hpc hb
      · exact kept_free h hpc rfl rfl rfl (by simp) rfl
  case wait.go b =>
    split_ifs at hs with hactive <;> cases hs
    · exact ⟨h, fun _ => rfl⟩
    · refine kept_setPc h hpc ?_ (by simp [Pc.serves]) (fun _ => rfl) (zero_le _) (by simp) rfl
      intro b' hb'
      cases hb'
      simpa using hactive
  case drain.go =>
    split at hs <;> cases hs
    · rename_i hnil
      exact kept_setPc h hpc (by simp) (by simp [Pc.serves]) (fun hne => absurd hnil hne)
        (zero_le _) (by simp) rfl
    · rename_i hcons
      exact kept_drain h hpc hcons
  case enqueue.go t =>
    subst hs
    simp only [hpc, Pc.held, length_singleton] at hlen
    exact kept_enqueue h hpc (by omega)
  case load.go =>
    split_ifs at hs with hactive <;> cases hs
    · exact kept_serve h hpc rfl rfl ⟨rfl, hactive⟩ (zero_le _) (by simp) rfl
    · exact kept_free h hpc rfl rfl rfl (by simp) rfl
  case count.go old =>
    have hserv := h.serving c old (by rw [hpc]; rfl)
    split_ifs at hs with hnr <;> cases hs
    · exact kept_serve h hpc rfl rfl hserv (zero_le _) (by simp) rfl
    · refine kept_serve h hpc rfl rfl hserv ?_ (by simp) rfl
      have hexact : (s.rq c).nrRunning = (s.rq c).tasks.length := h.exact c
      show (s.rq c).nrRunning % 2 ^ 32 / 2 ≤ _
      omega
  case take.go old left tasks =>
    cases left with
    | zero =>
      cases hs
      exact kept_serve h hpc rfl rfl (h.serving c old (by rw [hpc]; rfl)) (zero_le _)
        (by simp) rfl
    | succ left =>
      cases hs
      exact kept_takeOne h hpc (by omega)
  case push.go old tasks =>
    cases tasks with
    | nil =>
      cases hs
      exact kept_serve h hpc rfl rfl (h.serving c old (by rw [hpc]; rfl)) (zero_le _)
        (by simp) rfl
    | cons t tasks =>
      cases hs
      exact kept_pushOne hn h hpc
  case clear.go old =>
    rw [if_pos (h.serving c old (by rw [hpc]; rfl)).1] at hs
    subst hs
    exact kept_clear h hpc

end Steps

/-! ## Whole runs -/

/-- The places a CPU has for tasks. -/
inductive Kind where
  | runQueue
  | array
  | migration
  | hand
  deriving DecidableEq

instance : Fintype Kind where
  elems := {.runQueue, .array, .migration, .hand}
  complete k := by cases k <;> decide

/-- The local array of `task_do_migration`, without the tasks that are pushed. -/
def Pc.array : Pc n Task → List Task
  | .take _ _ tasks | .push _ tasks => tasks
  | _ => []

/-- The local variable `task` of `task_try_migration`, between `list_del_init` and `enqueue`. -/
def Pc.hand : Pc n Task → List Task
  | .enqueue t => [t]
  | _ => []

/-- How often a task is in a place. -/
def State.countAt (s : State n Task) (t : Task) : Fin n × Kind → Nat
  | (c, .runQueue) => (s.rq c).tasks.count t
  | (c, .array) => (s.pc c).array.count t
  | (c, .migration) => (s.migration c).count t
  | (c, .hand) => (s.pc c).hand.count t

omit [DecidableEq Task] in
theorem held_eq (p : Pc n Task) : p.held = p.hand ++ p.array := by
  cases p <;> rfl

theorem total_eq_census : s.total t = census id (s.countAt t) := by
  have hkind : (Finset.univ : Finset Kind) = {.runQueue, .array, .migration, .hand} := rfl
  simp only [census, Fintype.sum_prod_type, hkind, State.total, held_eq, count_append, id]
  simp only [Finset.mem_insert, Finset.mem_singleton, reduceCtorEq, or_self, not_false_eq_true,
    Finset.sum_insert, Finset.sum_singleton, Finset.sum_add_distrib, State.countAt]
  omega

/-- All run queues together. -/
def State.queued (s : State n Task) : Multiset Task := ∑ c, ((s.rq c).tasks : Multiset Task)

/-- No CPU is migrating. -/
def State.Quiet (s : State n Task) : Prop := ∀ c, s.pc c = .idle

instance : Decidable s.Quiet := inferInstanceAs (Decidable (∀ c, s.pc c = .idle))

/-- No migration has begun, the counters are exact and no task is queued twice. -/
structure Start (s : State n Task) : Prop where
  quiet : s.Quiet
  free : ∀ c, s.infos c = unclaimed
  nil : ∀ c, s.migration c = []
  exact : ∀ c, (s.rq c).Exact
  nodup : s.queued.Nodup

theorem total_of_quiet (hq : s.Quiet) (hl : ∀ c, s.migration c = []) :
    s.total t = s.queued.count t := by
  have hlists : census (List.count t) s.migration = 0 := census_eq_zero.mpr (by simp [hl])
  have hheld : census (fun p : Pc n Task => p.held.count t) s.pc = 0 :=
    census_eq_zero.mpr fun c => by rw [hq c]; rfl
  rw [State.total, hlists, hheld, State.queued, Multiset.count_sum', Nat.add_zero]
  simp only [Multiset.coe_count, census]

omit [DecidableEq Task] in
theorem Start.inv (h : Start s) : Inv s where
  exact := h.exact
  claimed c := .inl (h.free c)
  serving c old hold := by
    rw [h.quiet c] at hold
    cases hold
  listed c hne := absurd (h.nil c) hne
  enough c := by
    rw [h.quiet c]
    exact zero_le _
  sound c := by simp [h.quiet c]

omit [DecidableEq Task] in
theorem Inv.lists_eq_nil (h : Inv s) (hq : s.Quiet) : s.migration c = [] :=
  h.list_eq_nil (by rw [hq c]; rfl)

variable [Fintype Task] {s0 : State n Task}

theorem reach_kept (hn : n ≤ 2 ^ 31) (hcard : Fintype.card Task < 2 ^ 64) (h0 : Start s0)
    (h : Reach step Any s0 s) : Kept s0 s := by
  refine h.invariant (I := Kept s0) ⟨h0.inv, fun _ => rfl⟩ ?_
  intro s a s' hkept _ hstep
  have honce : Once s := by
    intro t
    rw [hkept.2 t, total_of_quiet h0.quiet h0.nil]
    exact Multiset.nodup_iff_count_le_one.mp h0.nodup t
  have hnext := step_kept hn hcard hkept.1 honce hstep
  exact ⟨hnext.1, fun t => (hnext.2 t).trans (hkept.2 t)⟩

/-- In every interleaving of migrations a task that was queued at the start is in exactly one place,
once, and when no CPU is migrating the migration lists are empty and the run queues together hold
what they held. -/
theorem migration_conserves (hn : n ≤ 2 ^ 31) (hcard : Fintype.card Task < 2 ^ 64) (h0 : Start s0)
    (h : Reach step Any s0 s) :
    (∀ t ∈ s0.queued, ∃ p, s.countAt t p = 1 ∧ ∀ p', p' ≠ p → s.countAt t p' = 0) ∧
      (s.Quiet → (∀ c, s.migration c = []) ∧ s.queued = s0.queued) := by
  have hkept := reach_kept hn hcard h0 h
  constructor
  · intro t ht
    refine exists_of_census_eq_one (w := id) (f := s.countAt t) ?_
    rw [← total_eq_census, hkept.2 t, total_of_quiet h0.quiet h0.nil]
    exact Multiset.count_eq_one_of_mem h0.nodup ht
  · intro hquiet
    have hnil : ∀ c, s.migration c = [] := fun c => hkept.1.lists_eq_nil hquiet
    refine ⟨hnil, Multiset.ext.mpr fun t => ?_⟩
    rw [← total_of_quiet hquiet hnil, hkept.2 t, total_of_quiet h0.quiet h0.nil]

/-- Three tasks on the second of two CPUs. -/
def threeQueued : State 2 (Fin 3) where
  rq := ![⟨[], 0⟩, ⟨List.finRange 3, 3⟩]
  infos _ := unclaimed
  migration _ := []
  pc _ := .idle

theorem start_threeQueued : Start threeQueued where
  quiet _ := rfl
  free _ := rfl
  nil _ := rfl
  exact := by decide
  nodup := by decide

/-- The first CPU asks the second one, which moves its last task; a second interrupt finds no
claim. -/
theorem migration_conserves_three :
    ∃ s, Reach step Any threeQueued s ∧ s.Quiet ∧ (s.rq 0).tasks = [2] ∧ s.queued = {0, 1, 2} := by
  have hrun : ∃ s, Reach step Any threeQueued s ∧ s.Quiet ∧ (s.rq 0).tasks = [2] := exists_reach_any
      [(0, .tryMigration), (0, .go), (0, .go), (0, .go), (0, .go), (1, .doMigration), (1, .go),
        (1, .go), (1, .go), (0, .go), (1, .go), (1, .go), (1, .go), (1, .go), (1, .doMigration),
        (0, .go), (1, .go), (0, .go), (0, .go), (0, .go)] (by decide +kernel)
  obtain ⟨s, hreach, hquiet, hfirst⟩ := hrun
  have hall := (migration_conserves (by decide) (by simp) start_threeQueued hreach).2 hquiet
  exact ⟨s, hreach, hquiet, hfirst, hall.2.trans (by decide)⟩

/-- The task on its way from the migration list to the run queue is in no list and in no array. -/
theorem migrating_in_hand : ∃ s, Reach step Any threeQueued s ∧ s.pc 0 = .enqueue 2 ∧
    ∀ c, (s.rq c).tasks.count 2 = 0 ∧ (s.pc c).array.count 2 = 0 ∧ (s.migration c).count 2 = 0 := by
  have hrun : ∃ s, Reach step Any threeQueued s ∧ (s.pc 0 = .enqueue 2 ∧
      ∀ c, (s.rq c).tasks.count 2 = 0 ∧ (s.pc c).array.count 2 = 0 ∧ (s.migration c).count 2 = 0) :=
    exists_reach_any
      [(0, .tryMigration), (0, .go), (0, .go), (0, .go), (0, .go), (1, .doMigration), (1, .go),
        (1, .go), (1, .go), (0, .go), (1, .go), (1, .go), (1, .go), (1, .go), (0, .go), (0, .go)]
      (by decide +kernel)
  exact hrun

end ShiziOS.Task.Migration
