import ShiziOS.Task.Migration

/-!
# Run queues, running tasks and task states

Task creation, `task_sched`, `task_sleep`, `task_wakeup` and `task_exit` of `kernel/task/core.c`,
with the migration that `task_sched` begins when a CPU has nothing to run. A run-queue operation
is one step. `task_wakeup` is two, the test of the state and the rest of the function, and the
task that executes it may be preempted between them and go on on another CPU. `task_sched` and the
migration functions run with interrupts off.
-/

namespace ShiziOS.Task.Sched

open Function Runs List Option
open Migration.State (setRq queued total)

/-- `task_state`; `unused` is a task that has not been created. No function sets `TASK_STOPPED`. -/
inductive TaskState where
  | unused
  | running
  | interruptible
  | uninterruptible
  | zombie
  deriving DecidableEq

def TaskState.asleep : TaskState → Bool
  | .interruptible | .uninterruptible => true
  | _ => false

/-- `switching` CPUs are in `task_sched` and have picked their idle task; `waking` are the calls of
`task_wakeup` that have passed the test of the state. -/
structure State (n : Nat) (Task : Type) where
  mig : Migration.State n Task
  current : Fin n → Task
  switching : Fin n → Bool
  state : Task → TaskState
  waking : List Task

inductive Move (Task : Type) where
  | create (t : Task)
  | sched
  | switchIdle
  | sleep (interruptible : Bool)
  | wakeup (t : Task)
  | wake (t : Task)
  | exit
  | interrupt
  | go

variable {n : Nat} {Task : Type} [DecidableEq Task]

namespace State

variable (s : State n Task) (c : Fin n) (t : Task)

def rq : RunQueue Task := s.mig.rq c

/-- The CPU executes the code of its task, with interrupts on. -/
def Free : Prop := s.mig.pc c = .idle ∧ s.switching c = false

instance : Decidable (s.Free c) :=
  inferInstanceAs (Decidable (s.mig.pc c = .idle ∧ s.switching c = false))

/-- A task becomes runnable and goes to the run queue of a CPU. -/
def put : State n Task :=
  { s with mig := s.mig.setRq c (rrEnqueue (s.mig.rq c) t), state := update s.state t .running }

/-- The run queue after `task_sched` has put the previous task back. -/
def requeue (idle : Fin n → Task) : RunQueue Task :=
  if s.state (s.current c) = .running ∧ s.current c ≠ idle c then
    rrEnqueue (s.mig.rq c) (s.current c)
  else s.mig.rq c

/-- `task_sched`, up to the call of `task_try_migration` when the idle task is next. -/
def taskSched (idle : Fin n → Task) : State n Task :=
  let (next, q) := rrPickNext (s.requeue c idle)
  let next := next.getD (idle c)
  if next = idle c then
    { s with mig := (s.mig.setRq c q).setPc c (.read []), switching := update s.switching c true }
  else { s with mig := s.mig.setRq c q, current := update s.current c next }

def taskSleep (interruptible : Bool) : State n Task :=
  { s with state := update s.state (s.current c) (if interruptible then .interruptible
    else .uninterruptible) }

/-- `rr_dequeue`: the task leaves the queue it is in, whichever that is, and the counter of this
CPU goes down. -/
def dequeue : State n Task :=
  let rq := update s.mig.rq c { s.mig.rq c with nrRunning := (s.mig.rq c).decr }
  { s with mig := { s.mig with
      rq := fun d => { rq d with tasks := (rq d).tasks.erase t }
      migration := fun d => (s.mig.migration d).erase t } }

def taskExit : State n Task :=
  { s.dequeue c (s.current c) with state := update s.state (s.current c) .zombie }

end State

def step (idle : Fin n → Task) (s : State n Task) : Fin n × Move Task → Option (State n Task)
  | (c, .create t) => if s.Free c ∧ s.state t = .unused then some (s.put c t) else none
  | (c, .sched) => if s.Free c then some (s.taskSched c idle) else none
  | (c, .switchIdle) =>
    if s.switching c = true ∧ s.mig.pc c = .idle then
      some { s with current := update s.current c (idle c),
                    switching := update s.switching c false }
    else none
  | (c, .sleep interruptible) =>
    if s.Free c ∧ s.current c ≠ idle c then some (s.taskSleep c interruptible) else none
  | (c, .wakeup t) =>
    if s.Free c then some (if (s.state t).asleep then { s with waking := t :: s.waking } else s)
      else none
  | (c, .wake t) =>
    if s.Free c ∧ t ∈ s.waking then some { s.put c t with waking := s.waking.erase t } else none
  | (c, .exit) => if s.Free c ∧ s.current c ≠ idle c then some (s.taskExit c) else none
  | (c, .interrupt) =>
    if s.Free c then (Migration.step s.mig (c, .doMigration)).map fun mig => { s with mig }
      else none
  | (c, .go) => (Migration.step s.mig (c, .go)).map fun mig => { s with mig }

/-- Counters are exact, a task is queued once at most, and a queued task neither sleeps nor is a
zombie nor runs on a CPU. -/
structure Consistent (s : State n Task) : Prop where
  counted : ∀ c, (s.rq c).nrRunning = (s.rq c).tasks.length
  once : s.mig.queued.Nodup
  awake : ∀ c, ∀ t ∈ (s.rq c).tasks, (s.state t).asleep = false ∧ s.state t ≠ .zombie
  offCpu : ∀ c d, s.current c ∉ (s.rq d).tasks

/-! ## The invariant -/

/-- On how many CPUs a task runs. -/
def State.onCpu (s : State n Task) (t : Task) : Nat := census (fun u => [u].count t) s.current

/-- A task is in one run queue, in one place of a migration or on one CPU. Idle tasks are never
queued and run on their own CPU only. -/
structure Inv (idle : Fin n → Task) (s : State n Task) : Prop where
  mig : Migration.Inv s.mig
  once : ∀ t, s.mig.total t + s.onCpu t ≤ 1
  queued : ∀ t, 0 < s.mig.total t → s.state t = .running
  live : ∀ c, s.state (s.current c) ≠ .unused
  idleRunning : ∀ c, s.state (idle c) = .running
  idleOff : ∀ c, s.mig.total (idle c) = 0
  idleOwn : ∀ c d, s.current d = idle c → d = c
  distinct : Injective idle
  waking : ∀ t ∈ s.waking, ∀ c, t ≠ idle c

variable {idle : Fin n → Task} {s s' : State n Task} {c : Fin n} {t u : Task}

theorem onCpu_pos : 0 < s.onCpu (s.current c) := by
  have := le_census (w := fun u => [u].count (s.current c)) (f := s.current) c
  simp only [count_singleton_self] at this
  exact this

theorem onCpu_eq_zero : s.onCpu t = 0 ↔ ∀ c, s.current c ≠ t := by
  simp [State.onCpu, census_eq_zero, count_singleton]

theorem onCpu_update {current : Fin n → Task} (hcurrent : current = update s.current c u) :
    census (fun v => [v].count t) current + [s.current c].count t = s.onCpu t + [u].count t := by
  subst hcurrent
  exact census_update u

theorem Inv.once_mig (h : Inv idle s) : Migration.Once s.mig := by
  intro t
  have := h.once t
  omega

theorem Inv.total_current (h : Inv idle s) : s.mig.total (s.current c) = 0 := by
  have := h.once (s.current c)
  have := onCpu_pos (s := s) (c := c)
  omega

theorem Inv.ne_idle_of_total_pos (h : Inv idle s) (ht : 0 < s.mig.total t) : t ≠ idle c := by
  rintro rfl
  rw [h.idleOff c] at ht
  cases ht

theorem count_le_total {s : Migration.State n Task} : (s.rq c).tasks.count t ≤ s.total t := by
  have := Migration.count_le_total (s := s) (c := c) (t := t)
  omega

theorem total_pos_of_mem {s : Migration.State n Task} (h : t ∈ (s.rq c).tasks) : 0 < s.total t :=
  (count_pos_iff.mpr h).trans_le count_le_total

theorem count_requeue (s : State n Task) (c : Fin n) (idle : Fin n → Task) (u : Task) :
    (s.requeue c idle).tasks.count u ≤ (s.mig.rq c).tasks.count u + [s.current c].count u := by
  unfold State.requeue
  split
  · simp only [rrEnqueue, count_append, le_refl]
  · exact Nat.le_add_right _ _

theorem mem_requeue (hu : u ∈ (s.requeue c idle).tasks) :
    u ∈ (s.mig.rq c).tasks ∨ u = s.current c ∧ s.state u = .running ∧ u ≠ idle c := by
  unfold State.requeue at hu
  split at hu
  · rename_i hrun
    rcases mem_append.mp hu with hold | hprev
    · exact .inl hold
    · obtain rfl := mem_singleton.mp hprev
      exact .inr ⟨rfl, hrun⟩
  · exact .inl hu

theorem requeue_of_nil (hq : (s.requeue c idle).tasks = []) : s.requeue c idle = s.mig.rq c := by
  unfold State.requeue at hq ⊢
  split at hq
  · simp [rrEnqueue] at hq
  · rename_i hrun
    rw [if_neg hrun]

theorem Inv.ne_idle_of_mem_requeue (h : Inv idle s) (hu : u ∈ (s.requeue c idle).tasks)
    (d : Fin n) : u ≠ idle d := by
  rcases mem_requeue hu with hold | ⟨hprev, -, hne⟩
  · exact h.ne_idle_of_total_pos (total_pos_of_mem hold)
  · rintro rfl
    obtain rfl := h.idleOwn d c hprev.symm
    exact hne rfl

theorem Inv.migrate {mig : Migration.State n Task} {switching : Fin n → Bool} (h : Inv idle s)
    (hkept : Migration.Kept s.mig mig) : Inv idle { s with mig, switching } :=
  { h with
    mig := hkept.1
    once := fun t => by
      rw [hkept.2 t]
      exact h.once t
    queued := fun t ht => h.queued t (hkept.2 t ▸ ht)
    idleOff := fun c => (hkept.2 _).trans (h.idleOff c) }

theorem Inv.switchIdle {switching : Fin n → Bool} (h : Inv idle s) :
    Inv idle { s with current := update s.current c (idle c), switching } := by
  refine { h with once := ?_, live := ?_, idleOwn := ?_ }
  · intro t
    have hcpu := onCpu_update (s := s) (c := c) (u := idle c) (t := t) rfl
    have hone := h.once t
    simp only [State.onCpu] at *
    by_cases ht : t = idle c
    · subst ht
      have hoff := h.idleOff c
      rw [count_singleton_self] at hcpu
      by_cases hprev : s.current c = idle c
      · rw [hprev, count_singleton_self] at hcpu
        omega
      · have hnone : s.onCpu (idle c) = 0 := by
          refine onCpu_eq_zero.mpr fun d hd => ?_
          obtain rfl := h.idleOwn c d hd
          exact hprev hd
        simp only [State.onCpu] at hnone
        omega
    · have hcount : [idle c].count t = 0 := count_eq_zero.mpr (by simpa using ht)
      omega
  · exact (forall_update_iff s.current fun _ u => s.state u ≠ .unused).mpr
      ⟨by simp [h.idleRunning c], fun d _ => h.live d⟩
  · intro d
    exact (forall_update_iff s.current fun e u => u = idle d → e = d).mpr
      ⟨fun heq => h.distinct heq, fun e _ => h.idleOwn d e⟩

theorem Inv.sleep {state : TaskState} (h : Inv idle s) (hstate : state ≠ .unused)
    (hc : s.current c ≠ idle c) :
    Inv idle { s with state := update s.state (s.current c) state } := by
  refine { h with queued := ?_, live := ?_, idleRunning := ?_ }
  · intro t ht
    have hne : t ≠ s.current c := by
      rintro rfl
      rw [h.total_current] at ht
      cases ht
    exact (update_of_ne hne ..).trans (h.queued t ht)
  · intro d
    by_cases hd : s.current d = s.current c
    · simpa [hd] using hstate
    · simpa [hd] using h.live d
  · intro d
    have hne : idle d ≠ s.current c := by
      intro heq
      obtain rfl := h.idleOwn d c heq.symm
      exact hc heq.symm
    exact (update_of_ne hne ..).trans (h.idleRunning d)

section Steps

variable [Fintype Task] (hcard : Fintype.card Task < 2 ^ 64)

include hcard

theorem Inv.length_lt (h : Inv idle s) : (s.rq c).tasks.length < 2 ^ 64 := by
  have := h.once_mig.length_le (c := c)
  simp only [State.rq]
  omega

theorem Inv.put (h : Inv idle s) (hfree : s.mig.pc c = .idle) (ht : s.mig.total t = 0)
    (hcpu : s.onCpu t = 0) (hidle : ∀ d, t ≠ idle d) : Inv idle (s.put c t) := by
  have htotal : ∀ u, (s.put c t).mig.total u = s.mig.total u + [t].count u := by
    intro u
    have := Migration.total_setRq (s := s.mig) (c := c) (t := u) (rrEnqueue (s.mig.rq c) t)
    simp only [rrEnqueue, count_append] at this
    show (s.mig.setRq c (rrEnqueue (s.mig.rq c) t)).total u = _
    simp only [rrEnqueue]
    omega
  have honce : ∀ u, (s.put c t).mig.total u + s.onCpu u ≤ 1 := by
    intro u
    rw [htotal u]
    by_cases hu : u = t
    · subst hu
      simp [ht, hcpu]
    · simpa [count_singleton, Ne.symm hu] using h.once u
  have hlen : (s.mig.rq c).tasks.length + 1 < 2 ^ 64 := by
    have hnew : Migration.Once (s.put c t).mig := fun u => (Nat.le_add_right _ _).trans (honce u)
    have := hnew.length_le (c := c)
    simp only [State.put, setRq, update_self, rrEnqueue, length_append,
      length_singleton] at this
    omega
  refine { h with
    mig := ?_, once := honce, queued := ?_, live := ?_, idleRunning := ?_, idleOff := ?_ }
  · exact h.mig.setRq (exact_enqueue (h.mig.exact c) hlen) (by rw [hfree]; exact Nat.zero_le _)
  · intro u hu
    rw [htotal u] at hu
    by_cases hut : u = t
    · simp [State.put, hut]
    · simp only [count_singleton, beq_iff_eq, Ne.symm hut, if_false, Nat.add_zero] at hu
      simpa [State.put, hut] using h.queued u hu
  · intro d
    by_cases hd : s.current d = t
    · simp [State.put, hd]
    · simpa [State.put, hd] using h.live d
  · intro d
    simpa [State.put, (hidle d).symm] using h.idleRunning d
  · intro d
    rw [htotal]
    simp [h.idleOff d, hidle d]

theorem Inv.exact_requeue (h : Inv idle s) :
    (s.requeue c idle).Exact ∧ (s.requeue c idle).tasks.length < 2 ^ 64 := by
  have hlen : (s.requeue c idle).tasks.length < 2 ^ 64 := by
    have hnodup : (s.requeue c idle).tasks.Nodup := by
      refine nodup_iff_count_le_one.mpr fun u => ?_
      have hcpu := le_census (w := fun v => [v].count u) (f := s.current) c
      have hrq := count_le_total (s := s.mig) (c := c) (t := u)
      have hone := h.once u
      have hboth := count_requeue s c idle u
      simp only [State.onCpu] at hone
      omega
    exact hnodup.length_le_card.trans_lt hcard
  refine ⟨?_, hlen⟩
  unfold State.requeue at hlen ⊢
  split at hlen
  · rename_i hrun
    rw [if_pos hrun]
    refine exact_enqueue (h.mig.exact c) ?_
    simpa [rrEnqueue] using hlen
  · rename_i hrun
    rw [if_neg hrun]
    exact h.mig.exact c

theorem Inv.switch {q : RunQueue Task} (h : Inv idle s) (hfree : s.mig.pc c = .idle)
    (hpick : rrPickNext (s.requeue c idle) = (some t, q)) :
    Inv idle { s with mig := s.mig.setRq c q, current := update s.current c t } := by
  obtain ⟨hexact, hlen⟩ := h.exact_requeue hcard (c := c)
  obtain ⟨hq, htasks⟩ := exact_pickNext hexact hlen hpick
  have hcount : ∀ u, q.tasks.count u + [t].count u ≤
      (s.mig.rq c).tasks.count u + [s.current c].count u := by
    intro u
    have := count_requeue s c idle u
    rw [htasks, ← singleton_append, count_append] at this
    omega
  have hpicked : t ∈ (s.requeue c idle).tasks := by
    rw [htasks]
    exact mem_cons_self
  have hmem : ∀ u ∈ q.tasks, u ∈ (s.requeue c idle).tasks := by
    intro u hu
    rw [htasks]
    exact mem_cons_of_mem t hu
  have htotal := fun u => Migration.total_setRq (s := s.mig) (c := c) (t := u) q
  -- A task that is in some place after the switch was there before, or has just been put back.
  have hplace : ∀ u, 0 < (s.mig.setRq c q).total u → 0 < s.mig.total u ∨
      u ∈ (s.requeue c idle).tasks := by
    intro u hu
    by_cases hmemu : u ∈ q.tasks
    · exact .inr (hmem u hmemu)
    · have := htotal u
      have := count_eq_zero.mpr hmemu
      exact .inl (by omega)
  refine { h with mig := ?_, once := ?_, queued := ?_, live := ?_, idleOff := ?_, idleOwn := ?_ }
  · exact h.mig.setRq hq (by rw [hfree]; exact Nat.zero_le _)
  · intro u
    have hcpu := onCpu_update (s := s) (c := c) (u := t) (t := u) rfl
    have := htotal u
    have := hcount u
    have := h.once u
    simp only [State.onCpu] at *
    omega
  · intro u hu
    rcases hplace u hu with hold | hnew
    · exact h.queued u hold
    · rcases mem_requeue hnew with hrq | ⟨-, hrun, -⟩
      · exact h.queued u (total_pos_of_mem hrq)
      · exact hrun
  · refine (forall_update_iff s.current fun _ u => s.state u ≠ .unused).mpr
      ⟨?_, fun d _ => h.live d⟩
    rcases mem_requeue hpicked with hrq | ⟨-, hrun, -⟩
    · simp [h.queued t (total_pos_of_mem hrq)]
    · simp [hrun]
  · intro d
    by_contra hne
    rcases hplace (idle d) (Nat.pos_of_ne_zero hne) with hold | hnew
    · exact h.ne_idle_of_total_pos hold rfl
    · exact h.ne_idle_of_mem_requeue hnew d rfl
  · intro d
    exact (forall_update_iff s.current fun e u => u = idle d → e = d).mpr
      ⟨fun ht => absurd ht (h.ne_idle_of_mem_requeue hpicked d), fun e _ => h.idleOwn d e⟩

theorem Inv.sched (h : Inv idle s) (hfree : s.mig.pc c = .idle) :
    Inv idle (s.taskSched c idle) := by
  rcases hpick : rrPickNext (s.requeue c idle) with ⟨next, q⟩
  cases next with
  | none =>
    obtain ⟨hnil, rfl⟩ := pickNext_eq_none hpick
    have hsame : s.mig.setRq c (s.requeue c idle) = s.mig := by
      rw [requeue_of_nil hnil, setRq, update_eq_self]
    simp only [State.taskSched, hpick, getD_none, if_true, hsame]
    exact h.migrate (Migration.kept_free (p := .read []) h.mig hfree rfl rfl rfl (by simp) rfl)
  | some t =>
    have ht : t ≠ idle c := by
      obtain ⟨hexact, hlen⟩ := h.exact_requeue hcard (c := c)
      refine h.ne_idle_of_mem_requeue (c := c) ?_ c
      rw [(exact_pickNext hexact hlen hpick).2]
      exact mem_cons_self
    simp only [State.taskSched, hpick, getD_some, if_neg ht]
    exact h.switch hcard hfree hpick

end Steps

/-! ## Runs -/

/-- No task exits, and a task that is woken up is in no place of a migration, in no run queue and
on no CPU. -/
def Orderly (s : State n Task) : Fin n × Move Task → Prop
  | (_, .exit) => False
  | (_, .wake t) => s.mig.total t = 0 ∧ ∀ c, s.current c ≠ t
  | _ => True

theorem queued_count_le {s : Migration.State n Task} : s.queued.count t ≤ s.total t := by
  simp only [queued, Multiset.count_sum', Multiset.coe_count, total,
    census]
  omega

theorem Inv.consistent (h : Inv idle s) : Consistent s where
  counted := h.mig.exact
  once := Multiset.nodup_iff_count_le_one.mpr fun t => queued_count_le.trans (h.once_mig t)
  awake c t ht := by
    rw [h.queued t (total_pos_of_mem ht)]
    simp [TaskState.asleep]
  offCpu c d hmem := by
    have := total_pos_of_mem hmem
    rw [h.total_current] at this
    cases this

/-- A consistent state in which no CPU is in a migration and no wake-up is under way. -/
structure Start (idle : Fin n → Task) (s : State n Task) : Prop where
  consistent : Consistent s
  quiet : s.mig.Quiet
  free : ∀ c, s.mig.infos c = Migration.unclaimed
  nil : ∀ c, s.mig.migration c = []
  noWakeup : s.waking = []
  created : ∀ c, ∀ t ∈ (s.rq c).tasks, s.state t ≠ .unused
  live : ∀ c, s.state (s.current c) ≠ .unused
  alone : Injective s.current
  distinct : Injective idle
  idleRunning : ∀ c, s.state (idle c) = .running
  idleOff : ∀ c d, idle c ∉ (s.rq d).tasks
  idleOwn : ∀ c d, s.current d = idle c → d = c

omit [DecidableEq Task] in
theorem Start.migStart (h : Start idle s) : Migration.Start s.mig where
  quiet := h.quiet
  free := h.free
  nil := h.nil
  exact := h.consistent.counted
  nodup := h.consistent.once

omit [DecidableEq Task] in
theorem mem_queued {s : Migration.State n Task} : t ∈ s.queued ↔ ∃ c, t ∈ (s.rq c).tasks := by
  simp [queued, Multiset.mem_sum]

theorem Start.total_eq (h : Start idle s) : s.mig.total t = s.mig.queued.count t :=
  Migration.total_of_quiet h.quiet h.nil

theorem Start.mem_of_total_pos (h : Start idle s) (ht : 0 < s.mig.total t) :
    ∃ c, t ∈ (s.rq c).tasks := by
  rw [h.total_eq, Multiset.count_pos] at ht
  exact mem_queued.mp ht

theorem Start.inv (h : Start idle s) : Inv idle s where
  mig := h.migStart.inv
  once t := by
    have hone := Multiset.nodup_iff_count_le_one.mp h.consistent.once t
    rw [← h.total_eq] at hone
    by_cases ht : 0 < s.mig.total t
    · obtain ⟨d, hd⟩ := h.mem_of_total_pos ht
      rw [onCpu_eq_zero.mpr]
      · exact hone
      · rintro c rfl
        exact h.consistent.offCpu c d hd
    · have hcpu : s.onCpu t ≤ 1 := by
        refine census_le_one (fun c => by simp [count_singleton]; split <;> omega) ?_
        intro c d hc hd
        simp only [count_pos_iff, mem_singleton] at hc hd
        exact h.alone (hc.symm.trans hd)
      omega
  queued t ht := by
    obtain ⟨c, hc⟩ := h.mem_of_total_pos ht
    have hawake := h.consistent.awake c t hc
    have hcreated := h.created c t hc
    cases hstate : s.state t <;> simp_all [TaskState.asleep]
  live := h.live
  idleRunning := h.idleRunning
  idleOff c := by
    by_contra hne
    obtain ⟨d, hd⟩ := h.mem_of_total_pos (Nat.pos_of_ne_zero hne)
    exact h.idleOff c d hd
  idleOwn := h.idleOwn
  distinct := h.distinct
  waking t ht := by
    rw [h.noWakeup] at ht
    cases ht

variable [Fintype Task]

theorem Inv.step (hn : n ≤ 2 ^ 31) (hcard : Fintype.card Task < 2 ^ 64) {a : Fin n × Move Task}
    (h : Inv idle s) (ha : Orderly s a) (hs : step idle s a = some s') : Inv idle s' := by
  rcases a with ⟨c, move⟩
  cases move <;> simp only [Sched.step, ite_none_right_eq_some, some.injEq, map_eq_some_iff] at hs
  case create t =>
    obtain ⟨⟨hfree, hunused⟩, rfl⟩ := hs
    refine h.put hcard hfree.1 ?_ ?_ ?_
    · by_contra hne
      rw [h.queued t (Nat.pos_of_ne_zero hne)] at hunused
      cases hunused
    · refine onCpu_eq_zero.mpr fun d hd => ?_
      exact h.live d (hd ▸ hunused)
    · rintro d rfl
      rw [h.idleRunning d] at hunused
      cases hunused
  case sched =>
    obtain ⟨hfree, rfl⟩ := hs
    exact h.sched hcard hfree.1
  case switchIdle =>
    obtain ⟨-, rfl⟩ := hs
    exact h.switchIdle
  case sleep interruptible =>
    obtain ⟨⟨-, hc⟩, rfl⟩ := hs
    exact h.sleep (by split <;> simp) hc
  case wakeup t =>
    obtain ⟨-, rfl⟩ := hs
    split
    · rename_i hasleep
      refine { h with waking := ?_ }
      intro u hu c
      rcases mem_cons.mp hu with rfl | hold
      · rintro rfl
        rw [h.idleRunning c] at hasleep
        cases hasleep
      · exact h.waking u hold c
    · exact h
  case wake t =>
    obtain ⟨⟨hfree, hwaking⟩, rfl⟩ := hs
    have hput := h.put hcard hfree.1 ha.1 (onCpu_eq_zero.mpr ha.2) (h.waking t hwaking)
    exact { hput with waking := fun u hu => h.waking u (mem_of_mem_erase hu) }
  case exit => exact ha.elim
  case interrupt =>
    obtain ⟨-, mig, hmig, rfl⟩ := hs
    exact h.migrate (Migration.step_kept hn hcard h.mig h.once_mig hmig)
  case go =>
    obtain ⟨mig, hmig, rfl⟩ := hs
    exact h.migrate (Migration.step_kept hn hcard h.mig h.once_mig hmig)

theorem Inv.not_consistent_exit (hcard : Fintype.card Task < 2 ^ 64) (h : Inv idle s) :
    ¬ Consistent (s.taskExit c) := by
  intro hcons
  have hlen := h.length_lt hcard (c := c)
  have hexact : (s.mig.rq c).nrRunning = (s.mig.rq c).tasks.length := h.mig.exact c
  have hcount := hcons.counted c
  have hmem : s.current c ∉ (s.mig.rq c).tasks := h.consistent.offCpu c c
  simp only [State.taskExit, State.dequeue, State.rq, update_self, erase_of_not_mem hmem,
    RunQueue.decr] at hcount hlen
  omega

omit [Fintype Task] in
theorem not_consistent_wake (ht : (∃ d, s.current d = t) ∨ ∃ d, t ∈ (s.rq d).tasks)
    {waking : List Task} : ¬ Consistent { s.put c t with waking } := by
  intro hcons
  have hnew : t ∈ (update s.mig.rq c (rrEnqueue (s.mig.rq c) t) c).tasks := by
    simp [rrEnqueue]
  rcases ht with ⟨d, rfl⟩ | ⟨d, hd⟩
  · exact hcons.offCpu d c hnew
  · have hone := Multiset.nodup_iff_count_le_one.mp hcons.once t
    have hcount : (s.put c t).mig.queued.count t = s.mig.queued.count t + 1 := by
      have := census_update (w := fun q : RunQueue Task => q.tasks.count t) (f := s.mig.rq) (i := c)
        (rrEnqueue (s.mig.rq c) t)
      simp only [rrEnqueue, count_append, count_singleton_self, census] at this
      simp only [queued, Multiset.count_sum', Multiset.coe_count, State.put,
        setRq, rrEnqueue]
      omega
    have hpos : 0 < s.mig.queued.count t := Multiset.count_pos.mpr (mem_queued.mpr ⟨d, hd⟩)
    have hone : (s.put c t).mig.queued.count t ≤ 1 := hone
    omega

/-- Two CPUs run their idle tasks; three more tasks can be created. -/
def twoIdle : State 2 (Fin 5) where
  mig := { rq := fun _ => ⟨[], 0⟩, infos := fun _ => Migration.unclaimed, migration := fun _ => [],
           pc := fun _ => .idle }
  current := ![0, 1]
  switching _ := false
  state := ![.running, .running, .unused, .unused, .unused]
  waking := []

theorem start_twoIdle : Start ![0, 1] twoIdle where
  consistent :=
    { counted := by decide
      once := by decide
      awake := by decide
      offCpu := by decide }
  quiet _ := rfl
  free _ := rfl
  nil _ := rfl
  noWakeup := rfl
  created := by decide
  live := by decide
  alone := by decide
  distinct := by decide
  idleRunning := by decide
  idleOff := by decide
  idleOwn := by decide

instance : DecidablePred (Orderly s) := fun a =>
  match a with
  | (_, .exit) => inferInstanceAs (Decidable False)
  | (_, .wake t) => inferInstanceAs (Decidable (s.mig.total t = 0 ∧ ∀ c, s.current c ≠ t))
  | (_, .create _) | (_, .sched) | (_, .switchIdle) | (_, .sleep _) | (_, .wakeup _)
  | (_, .interrupt) | (_, .go) => inferInstanceAs (Decidable True)

end ShiziOS.Task.Sched
