import ShiziOS.Lib.Census
import ShiziOS.Sync.WaitQueue

/-!
# The worker pool

`task_worker` and `task_submit_work` of `kernel/task/core.c`, over the wait queue of
`Sync.WaitQueue`. Workers and submitters take one operation after the other, in any order among
them; what is done under `worker_pool.lock` or `work_queue.lock` is one operation. The two workers
are there; a submission whose allocation fails stops the kernel.

* Every item is in one place, so none is executed twice, and `pending_work` is the length of the
  queue but for the items that are between the queue and the counter.
* A worker that is woken and finds nothing to do is lost to the wait queue. When both are, items
  stay in the queue for ever (`workers_lost`). Where that is avoided, an item in the queue has a
  worker that is awake or a submission under way (`worker_pool_runs`).

`worker_pool.shutdown` is set nowhere.
-/

namespace ShiziOS.Task.WorkerPool

open Runs Function Sync List Option
open WaitQueue (frame_of_step step_event step_wakeUp)
open List (replicate)

abbrev workerThreadCount : Nat := 2

abbrev Worker := Fin workerThreadCount

/-! ## Workers and submitters -/

/-- Where a worker is in `task_worker`. -/
inductive WorkerPc where
  /-- Before it becomes idle. -/
  | top
  /-- Before `waitqueue_event`. -/
  | wait
  /-- In `waitqueue_event`. -/
  | waiting
  /-- Before it becomes active. -/
  | leave
  /-- Before `work_dequeue`. -/
  | dequeue
  /-- Before `pending_work` is decremented for the item. -/
  | count (item : Nat)
  /-- Before the function of the item is called. -/
  | call (item : Nat)
  /-- Before `active_workers` is decremented. -/
  | done
  | exited
deriving DecidableEq, Repr

/-- Where a submitter is in `task_submit_work`. -/
inductive SubmitPc where
  | idle
  /-- Before `work_enqueue`. -/
  | enqueue (item : Nat)
  /-- Before `pending_work` is incremented. -/
  | count
  /-- Before the rest of the wake-ups, `n` of them. -/
  | wake (n : Nat)
  /-- In `waitqueue_wake_up`, with `n` more to come. -/
  | waking (n : Nat)
deriving DecidableEq, Repr

/-- The pool, its queues, and where everybody is. Items are numbered as they are submitted;
`executed` lists those whose function has been called. -/
structure State (Sub : Type) where
  workQueue : List Nat
  next : Nat
  idleWorkers : Int
  activeWorkers : Int
  pendingWork : Int
  shutdown : Bool
  waitq : WaitQueue.State (Worker ⊕ Sub)
  worker : Worker → WorkerPc
  submit : Sub → SubmitPc
  executed : List Nat

/-- `worker_calc_expected`, for an `int` that is converted to `uint32_t`. -/
def workerCalcExpected (pending : Int) : Int :=
  let x := (pending % 2 ^ 32).toNat
  if x = 0 then -1
  else if workerThreadCount < x then workerThreadCount
  else if x = 1 then 1
  else Nat.log2 x

/-- The number of wake-ups of a submission, from what it read under the lock. -/
def wakeups (pending active idle : Int) : Nat :=
  let expected := workerCalcExpected pending
  if expected < 0 then 0 else (min (expected - active) idle).toNat

section Model

variable {Sub : Type} [DecidableEq Sub]

def State.condition (s : State Sub) : Bool := decide (0 < s.pendingWork) || s.shutdown

def State.goWorker (s : State Sub) (w : Worker) (pc : WorkerPc) : State Sub :=
  { s with worker := update s.worker w pc }

def State.goSubmit (s : State Sub) (u : Sub) (pc : SubmitPc) : State Sub :=
  { s with submit := update s.submit u pc }

/-- `task_worker_init`. -/
def init : State Sub where
  workQueue := []
  next := 0
  idleWorkers := 0
  activeWorkers := 0
  pendingWork := 0
  shutdown := false
  waitq := WaitQueue.init
  worker _ := .top
  submit _ := .idle
  executed := []

def stepWorker (s : State Sub) (w : Worker) : Option (State Sub) :=
  match s.worker w with
  | .top =>
    if s.shutdown ∧ s.pendingWork = 0 then some (s.goWorker w .exited)
    else some { s.goWorker w .wait with idleWorkers := s.idleWorkers + 1 }
  | .wait =>
    (WaitQueue.step s.waitq (.inl w, .event)).map fun q => { s.goWorker w .waiting with waitq := q }
  | .waiting =>
    (WaitQueue.step s.waitq (.inl w, .go s.condition)).map fun q =>
      { s.goWorker w (if q.pc (.inl w) = .idle then .leave else .waiting) with waitq := q }
  | .leave =>
    some { s.goWorker w .dequeue with
      idleWorkers := s.idleWorkers - 1, activeWorkers := s.activeWorkers + 1 }
  | .dequeue =>
    match s.workQueue with
    | [] => some (s.goWorker w .done)
    | item :: rest => some { s.goWorker w (.count item) with workQueue := rest }
  | .count item =>
    -- an `int` that leaves its range is undefined
    if s.pendingWork = -2 ^ 31 then none
    else some { s.goWorker w (.call item) with pendingWork := s.pendingWork - 1 }
  | .call item => some { s.goWorker w .dequeue with executed := s.executed ++ [item] }
  | .done => some { s.goWorker w .top with activeWorkers := s.activeWorkers - 1 }
  | .exited => none

def stepSubmit (s : State Sub) (u : Sub) : Option (State Sub) :=
  match s.submit u with
  | .idle => some { s.goSubmit u (.enqueue s.next) with next := s.next + 1 }
  | .enqueue item => some { s.goSubmit u .count with workQueue := s.workQueue ++ [item] }
  | .count =>
    if s.pendingWork = 2 ^ 31 - 1 then none
    else
      let pending := s.pendingWork + 1
      some { s.goSubmit u (.wake (wakeups pending s.activeWorkers s.idleWorkers)) with
        pendingWork := pending }
  | .wake 0 => some (s.goSubmit u .idle)
  | .wake (n + 1) =>
    (WaitQueue.step s.waitq (.inr u, .wakeUp)).map fun q =>
      { s.goSubmit u (.waking n) with waitq := q }
  | .waking n =>
    (WaitQueue.step s.waitq (.inr u, .go false)).map fun q =>
      { s.goSubmit u (if q.pc (.inr u) = .idle then .wake n else .waking n) with waitq := q }

/-- One operation of a worker or of a submitter. -/
def step (s : State Sub) : Worker ⊕ Sub → Option (State Sub)
  | .inl w => stepWorker s w
  | .inr u => stepSubmit s u

end Model

/-! ## Items and counters -/

@[simp]
def WorkerPc.holds (i : Nat) : WorkerPc → Nat
  | .count item | .call item => if item = i then 1 else 0
  | _ => 0

@[simp]
def SubmitPc.holds (i : Nat) : SubmitPc → Nat
  | .enqueue item => if item = i then 1 else 0
  | _ => 0

/-- One, where the worker has an item that `pending_work` still counts. -/
@[simp]
def WorkerPc.uncounted : WorkerPc → Nat
  | .count _ => 1
  | _ => 0

/-- One, where the submitter has put an item on the queue that `pending_work` does not count yet. -/
@[simp]
def SubmitPc.uncounted : SubmitPc → Nat
  | .count => 1
  | _ => 0

@[simp]
def WorkerPc.isIdle : WorkerPc → Nat
  | .wait | .waiting | .leave => 1
  | _ => 0

@[simp]
def WorkerPc.isActive : WorkerPc → Nat
  | .dequeue | .count _ | .call _ | .done => 1
  | _ => 0

/-! ## Steps -/

section Steps

variable {Sub : Type} [DecidableEq Sub]

/-- All that an operation of a worker changes; `new` is where the worker is then. It is an operation
of the wait queue in `waitqueue_event` only. -/
structure WorkerStep (s : State Sub) (w : Worker) (new : WorkerPc) (s' : State Sub) : Prop where
  worker : s'.worker = update s.worker w new
  submit : s'.submit = s.submit
  next : s'.next = s.next
  idle : s'.idleWorkers + (s.worker w).isIdle = s.idleWorkers + new.isIdle
  active : s'.activeWorkers + (s.worker w).isActive = s.activeWorkers + new.isActive
  pending : s'.pendingWork + s.workQueue.length + (s.worker w).uncounted =
    s.pendingWork + s'.workQueue.length + new.uncounted
  pending_le : s'.pendingWork ≤ s.pendingWork
  items : ∀ i, s'.workQueue.count i + s'.executed.count i + new.holds i =
    s.workQueue.count i + s.executed.count i + (s.worker w).holds i
  waitq : (s'.waitq = s.waitq ∧ s.worker w ≠ .waiting ∧ new ≠ .waiting) ∨
    (WaitQueue.step s.waitq (.inl w, .event) = some s'.waitq ∧ s.worker w ≠ .waiting ∧
      new = .waiting) ∨
    (WaitQueue.step s.waitq (.inl w, .go s.condition) = some s'.waitq ∧ s.worker w = .waiting ∧
      new = if s'.waitq.pc (.inl w) = .idle then .leave else .waiting)

/-- All that an operation of a submitter changes. It is an operation of the wait queue in
`waitqueue_wake_up` only. -/
structure SubmitStep (s : State Sub) (u : Sub) (new : SubmitPc) (s' : State Sub) : Prop where
  worker : s'.worker = s.worker
  submit : s'.submit = update s.submit u new
  idle : s'.idleWorkers = s.idleWorkers
  active : s'.activeWorkers = s.activeWorkers
  pending : s'.pendingWork + s.workQueue.length + new.uncounted =
    s.pendingWork + s'.workQueue.length + (s.submit u).uncounted
  items : ∀ i, s'.workQueue.count i + s'.executed.count i + new.holds i +
      (if i < s.next then 1 else 0) =
    s.workQueue.count i + s.executed.count i + (s.submit u).holds i + if i < s'.next then 1 else 0
  /-- What is counted is followed by the wake-ups. -/
  counted : s'.pendingWork = s.pendingWork ∨ s.pendingWork ≠ 2 ^ 31 - 1 ∧
    s'.pendingWork = s.pendingWork + 1 ∧
    new = .wake (wakeups s'.pendingWork s.activeWorkers s.idleWorkers)
  waitq : (s'.waitq = s.waitq ∧ (∀ n, s.submit u ≠ .waking n) ∧ (∀ n, s.submit u ≠ .wake (n + 1)) ∧
      ∀ n, new ≠ .waking n) ∨
    (∃ n, WaitQueue.step s.waitq (.inr u, .wakeUp) = some s'.waitq ∧ s.submit u = .wake (n + 1) ∧
      new = .waking n) ∨
    ∃ n, WaitQueue.step s.waitq (.inr u, .go false) = some s'.waitq ∧ s.submit u = .waking n ∧
      new = if s'.waitq.pc (.inr u) = .idle then .wake n else .waking n

variable {s s' : State Sub}

theorem workerStep_of_step {w : Worker} (hs : step s (.inl w) = some s') :
    ∃ new, WorkerStep s w new s' := by
  simp only [step, stepWorker] at hs
  split at hs
  case h_1 hpc =>
    split_ifs at hs <;> cases hs <;> refine ⟨_, rfl, rfl, rfl, ?_, ?_, ?_, le_rfl, ?_, ?_⟩ <;>
      simp [hpc, State.goWorker]
  case h_2 hpc =>
    obtain ⟨q, hq, rfl⟩ := map_eq_some_iff.mp hs
    refine ⟨_, rfl, rfl, rfl, ?_, ?_, ?_, le_rfl, ?_, .inr (.inl ⟨hq, ?_, rfl⟩)⟩ <;>
      simp [hpc, State.goWorker]
  case h_3 hpc =>
    obtain ⟨q, hq, rfl⟩ := map_eq_some_iff.mp hs
    refine ⟨_, rfl, rfl, rfl, ?_, ?_, ?_, le_rfl, ?_, .inr (.inr ⟨hq, hpc, rfl⟩)⟩ <;>
      split_ifs <;> simp [hpc, State.goWorker]
  case h_4 hpc =>
    cases hs
    refine ⟨_, rfl, rfl, rfl, ?_, ?_, ?_, le_rfl, ?_, ?_⟩ <;> simp [hpc, State.goWorker]
  case h_5 hpc =>
    split at hs
    case h_1 hq =>
      cases hs
      refine ⟨_, rfl, rfl, rfl, ?_, ?_, ?_, le_rfl, ?_, ?_⟩ <;> simp [hpc, State.goWorker]
    case h_2 item rest hq =>
      cases hs
      refine ⟨_, rfl, rfl, rfl, ?_, ?_, ?_, le_rfl, fun i => ?_, ?_⟩ <;>
        simp [hpc, hq, State.goWorker, count_cons] <;> omega
  case h_6 item hpc =>
    split_ifs at hs
    cases hs
    refine ⟨_, rfl, rfl, rfl, ?_, ?_, ?_, Int.sub_le_self _ (by decide), ?_, ?_⟩ <;>
      simp [hpc, State.goWorker]
    omega
  case h_7 item hpc =>
    cases hs
    refine ⟨_, rfl, rfl, rfl, ?_, ?_, ?_, le_rfl, fun i => ?_, ?_⟩ <;>
      simp [hpc, State.goWorker, count_append, count_singleton]
    omega
  case h_8 hpc =>
    cases hs
    refine ⟨_, rfl, rfl, rfl, ?_, ?_, ?_, le_rfl, ?_, ?_⟩ <;> simp [hpc, State.goWorker]
  case h_9 => cases hs

theorem submitStep_of_step {u : Sub} (hs : step s (.inr u) = some s') :
    ∃ new, SubmitStep s u new s' := by
  simp only [step, stepSubmit] at hs
  split at hs
  case h_1 hpc =>
    cases hs
    refine ⟨_, rfl, rfl, rfl, rfl, ?_, fun i => ?_, .inl rfl, .inl ⟨rfl, ?_⟩⟩ <;>
      simp [hpc, State.goSubmit]
    grind
  case h_2 item hpc =>
    cases hs
    refine ⟨_, rfl, rfl, rfl, rfl, ?_, fun i => ?_, .inl rfl, .inl ⟨rfl, ?_⟩⟩ <;>
      simp [hpc, State.goSubmit, count_append, count_singleton]
    · omega
    · grind
  case h_3 hpc =>
    split_ifs at hs with hmax
    cases hs
    refine ⟨_, rfl, rfl, rfl, rfl, ?_, fun i => ?_, .inr ⟨hmax, rfl, rfl⟩, .inl ⟨rfl, ?_⟩⟩ <;>
      simp [hpc, State.goSubmit]
    · omega
    · rfl
  case h_4 hpc =>
    cases hs
    refine ⟨_, rfl, rfl, rfl, rfl, ?_, fun i => ?_, .inl rfl, .inl ⟨rfl, ?_⟩⟩ <;>
      simp [hpc, State.goSubmit]
    rfl
  case h_5 n hpc =>
    obtain ⟨q, hq, rfl⟩ := map_eq_some_iff.mp hs
    refine ⟨_, rfl, rfl, rfl, rfl, ?_, fun i => ?_, .inl rfl, .inr (.inl ⟨n, hq, hpc, rfl⟩)⟩ <;>
      simp [hpc, State.goSubmit]
    rfl
  case h_6 n hpc =>
    obtain ⟨q, hq, rfl⟩ := map_eq_some_iff.mp hs
    refine ⟨_, rfl, rfl, rfl, rfl, ?_, fun i => ?_, .inl rfl, .inr (.inr ⟨n, hq, hpc, rfl⟩)⟩
    · rw [hpc]
      split_ifs <;> rfl
    · rw [hpc]
      by_cases hidle : q.pc (.inr u) = .idle
      · simp only [if_pos hidle]
        rfl
      · simp only [if_neg hidle]
        rfl

end Steps

section Counters

variable {Sub : Type} [Fintype Sub]

/-- In how many places an item is. -/
def State.places (s : State Sub) (i : Nat) : Nat :=
  s.workQueue.count i + s.executed.count i + census (WorkerPc.holds i) s.worker +
    census (SubmitPc.holds i) s.submit

structure Counts (s : State Sub) : Prop where
  idle : s.idleWorkers = census WorkerPc.isIdle s.worker
  active : s.activeWorkers = census WorkerPc.isActive s.worker
  pending : s.pendingWork + census SubmitPc.uncounted s.submit =
    s.workQueue.length + census WorkerPc.uncounted s.worker
  /-- Every item that was submitted is in one place. -/
  items : ∀ i, s.places i = if i < s.next then 1 else 0

theorem counts_init : Counts (init : State Sub) where
  idle := by simp [init, census, WorkerPc.isIdle]
  active := by simp [init, census, WorkerPc.isActive]
  pending := by simp [init, census, WorkerPc.uncounted, SubmitPc.uncounted]
  items i := by simp [init, State.places, census, WorkerPc.holds, SubmitPc.holds]

variable {s s' : State Sub}

theorem Counts.pending_eq (h : Counts s) (hu : ∀ u, s.submit u ≠ .count)
    (hw : ∀ w item, s.worker w ≠ .count item) : s.pendingWork = s.workQueue.length := by
  have hsub : census SubmitPc.uncounted s.submit = 0 := by
    refine census_eq_zero.mpr fun u => ?_
    cases hpc : s.submit u <;> simp_all [SubmitPc.uncounted]
  have hwork : census WorkerPc.uncounted s.worker = 0 := by
    refine census_eq_zero.mpr fun w => ?_
    have := hw w
    cases hpc : s.worker w <;> simp_all [WorkerPc.uncounted]
  have := h.pending
  omega

theorem Counts.executed_nodup (h : Counts s) : s.executed.Nodup := by
  rw [nodup_iff_count_le_one]
  intro i
  have := h.items i
  rw [State.places] at this
  split_ifs at this <;> omega

theorem Counts.worker [DecidableEq Sub] {w : Worker} {new : WorkerPc} (h : Counts s)
    (hstep : WorkerStep s w new s') : Counts s' := by
  have hci := census_updated hstep.worker WorkerPc.isIdle
  have hca := census_updated hstep.worker WorkerPc.isActive
  have hcu := census_updated hstep.worker WorkerPc.uncounted
  have hi := h.idle
  have ha := h.active
  have hp := h.pending
  have hidle := hstep.idle
  have hactive := hstep.active
  have hpending := hstep.pending
  refine ⟨by omega, by omega, by rw [hstep.submit]; omega, ?_⟩
  intro i
  have hch := census_updated hstep.worker (WorkerPc.holds i)
  have hold := h.items i
  have hnew := hstep.items i
  rw [State.places] at hold ⊢
  rw [hstep.submit, hstep.next]
  omega

theorem Counts.submit [DecidableEq Sub] {u : Sub} {new : SubmitPc} (h : Counts s)
    (hstep : SubmitStep s u new s') : Counts s' := by
  have hcu := census_updated hstep.submit SubmitPc.uncounted
  have hp := h.pending
  have hpending := hstep.pending
  refine ⟨by rw [hstep.idle, hstep.worker]; exact h.idle,
    by rw [hstep.active, hstep.worker]; exact h.active, by rw [hstep.worker]; omega, ?_⟩
  intro i
  have hch := census_updated hstep.submit (SubmitPc.holds i)
  have hold := h.items i
  have hnew := hstep.items i
  rw [State.places] at hold ⊢
  rw [hstep.worker]
  omega

theorem Counts.step [DecidableEq Sub] {a : Worker ⊕ Sub} (h : Counts s)
    (hs : WorkerPool.step s a = some s') : Counts s' := by
  cases a with
  | inl w =>
    obtain ⟨new, hstep⟩ := workerStep_of_step hs
    exact h.worker hstep
  | inr u =>
    obtain ⟨new, hstep⟩ := submitStep_of_step hs
    exact h.submit hstep

end Counters

/-! ## The wait queue of the pool -/

section Coupling

variable {Sub : Type} {s s' : State Sub}

/-- Who is on the wait queue's side of a call, and who is not. -/
structure Coupled (s : State Sub) : Prop where
  waitq : WaitQueue.Inv s.waitq
  waiting : ∀ w, s.worker w = .waiting → (s.waitq.pc (.inl w)).inEvent = true
  working : ∀ w, s.worker w ≠ .waiting → s.waitq.pc (.inl w) = .idle
  waking : ∀ u n, s.submit u = .waking n → (s.waitq.pc (.inr u)).inWake = true
  quiet : ∀ u, (∀ n, s.submit u ≠ .waking n) → s.waitq.pc (.inr u) = .idle

theorem coupled_init : Coupled (init : State Sub) where
  waitq := WaitQueue.inv_init
  waiting w h := by simp [init] at h
  working w _ := rfl
  waking u n h := by simp [init] at h
  quiet u _ := rfl

variable [DecidableEq Sub]

theorem Coupled.worker {w : Worker} {new : WorkerPc} (h : Coupled s)
    (hstep : WorkerStep s w new s') : Coupled s' := by
  have hq : WaitQueue.Inv s'.waitq ∧ (∀ x, x ≠ .inl w → s'.waitq.pc x = s.waitq.pc x) ∧
      if new = .waiting then (s'.waitq.pc (.inl w)).inEvent = true
      else s'.waitq.pc (.inl w) = .idle := by
    rcases hstep.waitq with ⟨heq, hold, hnew⟩ | ⟨hq, hold, rfl⟩ | ⟨hq, hold, rfl⟩
    · rw [heq, if_neg hnew]
      exact ⟨h.waitq, fun _ _ => rfl, h.working w hold⟩
    · refine ⟨h.waitq.step hq, (frame_of_step hq).pc, ?_⟩
      rw [step_event hq]
      simp [WaitQueue.State.goto, WaitQueue.Pc.inEvent]
    · refine ⟨h.waitq.step hq, (frame_of_step hq).pc, ?_⟩
      rcases (frame_of_step hq).inEvent (h.waiting w hold) with hidle | hin
      · simp [hidle]
      · split_ifs with hidle <;> simp_all
  obtain ⟨hq, hpc, hself⟩ := hq
  have hall : ∀ v, if s'.worker v = .waiting then (s'.waitq.pc (.inl v)).inEvent = true
      else s'.waitq.pc (.inl v) = .idle := by
    intro v
    rw [hstep.worker]
    by_cases hvw : v = w
    · subst hvw
      rwa [update_self]
    · rw [update_of_ne hvw, hpc _ (by simpa using hvw)]
      split_ifs with hv
      · exact h.waiting v hv
      · exact h.working v hv
  refine ⟨hq, fun v hv => (if_pos hv).mp (hall v), fun v hv => (if_neg hv).mp (hall v), ?_, ?_⟩
  · intro u n hn
    rw [hpc _ (by simp)]
    exact h.waking u n (hstep.submit ▸ hn)
  · intro u hn
    rw [hpc _ (by simp)]
    exact h.quiet u (hstep.submit ▸ hn)

theorem Coupled.submit {u : Sub} {new : SubmitPc} (h : Coupled s)
    (hstep : SubmitStep s u new s') : Coupled s' := by
  have hq : WaitQueue.Inv s'.waitq ∧ (∀ x, x ≠ .inr u → s'.waitq.pc x = s.waitq.pc x) ∧
      ((∃ n, new = .waking n) ∧ (s'.waitq.pc (.inr u)).inWake = true ∨
        (∀ n, new ≠ .waking n) ∧ s'.waitq.pc (.inr u) = .idle) := by
    rcases hstep.waitq with ⟨heq, hold, -, hnew⟩ | ⟨n, hq, hold, rfl⟩ | ⟨n, hq, hold, rfl⟩
    · rw [heq]
      exact ⟨h.waitq, fun _ _ => rfl, .inr ⟨hnew, h.quiet u hold⟩⟩
    · refine ⟨h.waitq.step hq, (frame_of_step hq).pc, .inl ⟨⟨n, rfl⟩, ?_⟩⟩
      rw [step_wakeUp hq]
      simp [WaitQueue.State.goto, WaitQueue.Pc.inWake]
    · refine ⟨h.waitq.step hq, (frame_of_step hq).pc, ?_⟩
      rcases (frame_of_step hq).inWake (h.waking u n hold) with hidle | hin
      · exact .inr (by simp [hidle])
      · refine .inl ⟨⟨n, ?_⟩, hin⟩
        rw [if_neg]
        intro hidle
        rw [hidle] at hin
        cases hin
  obtain ⟨hq, hpc, hself⟩ := hq
  refine ⟨hq, ?_, ?_, ?_, ?_⟩
  · intro v hv
    rw [hpc _ (by simp)]
    exact h.waiting v (hstep.worker ▸ hv)
  · intro v hv
    rw [hpc _ (by simp)]
    exact h.working v (hstep.worker ▸ hv)
  · intro v n hv
    rw [hstep.submit, update_apply] at hv
    split_ifs at hv with hvu
    · subst hvu
      rcases hself with ⟨-, hin⟩ | ⟨hnot, -⟩
      · exact hin
      · exact absurd hv (hnot n)
    · rw [hpc _ (by simpa using hvu)]
      exact h.waking v n hv
  · intro v hv
    rw [hstep.submit, update_apply] at hv
    split_ifs at hv with hvu
    · subst hvu
      rcases hself with ⟨⟨n, hn⟩, -⟩ | ⟨-, hidle⟩
      · exact absurd hn (hv n)
      · exact hidle
    · rw [hpc _ (by simpa using hvu)]
      exact h.quiet v hv

theorem Coupled.step {a : Worker ⊕ Sub} (h : Coupled s) (hs : WorkerPool.step s a = some s') :
    Coupled s' := by
  cases a with
  | inl w =>
    obtain ⟨new, hstep⟩ := workerStep_of_step hs
    exact h.worker hstep
  | inr u =>
    obtain ⟨new, hstep⟩ := submitStep_of_step hs
    exact h.submit hstep

theorem step_waitq {a : Worker ⊕ Sub} (hs : step s a = some s') :
    s'.waitq = s.waitq ∨ ∃ move, WaitQueue.step s.waitq (a, move) = some s'.waitq ∧
      ∀ w, a = .inl w → move = .go false → s.condition = false := by
  cases a with
  | inl w =>
    obtain ⟨new, hstep⟩ := workerStep_of_step hs
    rcases hstep.waitq with ⟨heq, -⟩ | ⟨hq, -⟩ | ⟨hq, -⟩
    · exact .inl heq
    · exact .inr ⟨_, hq, by simp⟩
    · exact .inr ⟨_, hq, by simp⟩
  | inr u =>
    obtain ⟨new, hstep⟩ := submitStep_of_step hs
    rcases hstep.waitq with ⟨heq, -⟩ | ⟨n, hq, -⟩ | ⟨n, hq, -⟩
    · exact .inl heq
    · exact .inr ⟨_, hq, by simp⟩
    · exact .inr ⟨_, hq, by simp⟩

end Coupling

/-! ## Who sees to the items -/

section Served

variable {Sub : Type} {s s' : State Sub}

/-- A worker that sleeps, or is about to. -/
def State.Dormant (s : State Sub) (w : Worker) : Prop :=
  s.waitq.pc (.inl w) = .eventSleep ∨ s.waitq.asleep (.inl w) = true

/-- A worker that will look at the queue, or at `pending_work`, before it sleeps; or a submitter
that will take a worker off the wait queue, or has and will wake it. -/
def State.Serves (s : State Sub) : Worker ⊕ Sub → Prop
  | .inl w => ¬s.Dormant w
  | .inr u => (∃ n, s.submit u = .wake (n + 1)) ∨ s.waitq.pc (.inr u) = .wakeLock ∨
      s.waitq.pc (.inr u) = .wakePop ∨ ∃ t, (s.waitq.pc (.inr u)).wakes = some t

theorem wakeups_pos {pending : Int} (h : 0 < pending) (hlt : pending < 2 ^ 31) :
    ∃ n, wakeups pending 0 workerThreadCount = n + 1 := by
  obtain ⟨x, rfl⟩ := Int.eq_ofNat_of_zero_le h.le
  have hx : ((x : Int) % 2 ^ 32).toNat = x := by omega
  simp only [wakeups, workerCalcExpected, hx, workerThreadCount]
  by_cases h2 : 2 < x
  · exact ⟨1, by simp [show x ≠ 0 by omega, h2]⟩
  · have hcases : x = 1 ∨ x = 2 := by omega
    rcases hcases with rfl | rfl
    · exact ⟨0, by decide⟩
    · exact ⟨0, by decide⟩

variable {w : Worker} {u : Sub}

theorem Coupled.not_dormant (h : Coupled s) (hw : s.worker w ≠ .waiting) : ¬s.Dormant w := by
  have hpc := h.working w hw
  rintro (hsleep | hasleep)
  · rw [hpc] at hsleep
    cases hsleep
  · have := h.waitq.asleep _ hasleep
    rw [hpc] at this
    simp at this

theorem Coupled.pc_submit (h : Coupled s) (u : Sub) :
    (s.waitq.pc (.inr u)).inWake = true ∨ s.waitq.pc (.inr u) = .idle := by
  by_cases hu : ∃ n, s.submit u = .waking n
  · obtain ⟨n, hn⟩ := hu
    exact .inl (h.waking u n hn)
  · exact .inr (h.quiet u (by simpa using hu))

theorem Coupled.asleep_waiting (h : Coupled s) (ha : s.waitq.asleep (.inl w) = true) :
    s.worker w = .waiting := by
  by_contra hne
  exact h.not_dormant hne (.inr ha)

theorem serves_of_pop (h : Coupled s) (hr : ∃ w, s.waitq.Reached (.inl w))
    (hpc : s.waitq.pc (.inr u) = .wakePop) (hempty : s.waitq.queue = []) :
    ∃ x, x ≠ .inr u ∧ s.Serves x := by
  obtain ⟨w, hsleep, hasleep⟩ := hr
  by_cases hdormant : s.Dormant w
  · rcases hdormant with hbefore | ha
    · have := hsleep hbefore
      simp [hempty] at this
    · rcases hasleep ha with hmem | ⟨x, hx⟩
      · simp [hempty] at hmem
      · cases x with
        | inl v =>
          by_cases hv : s.worker v = .waiting
          · have := h.waiting v hv
            cases hpcv : s.waitq.pc (.inl v) <;> simp_all [WaitQueue.Pc.inEvent, WaitQueue.Pc.wakes]
          · rw [h.working v hv] at hx
            cases hx
        | inr v =>
          refine ⟨.inr v, ?_, .inr (.inr (.inr ⟨_, hx⟩))⟩
          rintro ⟨rfl⟩
          rw [hpc] at hx
          cases hx
  · exact ⟨.inl w, by simp, hdormant⟩

variable [DecidableEq Sub]

theorem step_submit_of_ne {a : Worker ⊕ Sub} (hs : step s a = some s')
    (hu : .inr u ≠ a) : s'.submit u = s.submit u := by
  cases a with
  | inl w =>
    obtain ⟨new, hstep⟩ := workerStep_of_step hs
    rw [hstep.submit]
  | inr v =>
    obtain ⟨new, hstep⟩ := submitStep_of_step hs
    rw [hstep.submit]
    exact update_of_ne (fun h => hu (congrArg Sum.inr h)) ..

theorem State.Serves.other {a x : Worker ⊕ Sub} (h : s.Serves x) (hx : x ≠ a)
    (hs : step s a = some s') : s'.Serves x := by
  have hpc : s'.waitq.pc x = s.waitq.pc x := by
    rcases step_waitq hs with heq | ⟨move, hq, -⟩
    · rw [heq]
    · exact (frame_of_step hq).pc _ hx
  cases x with
  | inl w =>
    rintro (hsleep | hasleep)
    · rw [hpc] at hsleep
      exact h (.inl hsleep)
    · rcases step_waitq hs with heq | ⟨move, hq, -⟩
      · rw [heq] at hasleep
        exact h (.inr hasleep)
      · rcases (frame_of_step hq).asleep _ hasleep with ha | ⟨heq, -⟩
        · exact h (.inr ha)
        · exact hx heq
  | inr u =>
    rw [State.Serves, hpc, step_submit_of_ne hs hx]
    exact h

theorem WorkerStep.serves {new : WorkerPc} (h : Coupled s)
    (hstep : WorkerStep s w new s') (hserve : ¬s.Dormant w) (hp : 0 < s'.pendingWork) :
    ¬s'.Dormant w := by
  have hworker : s'.worker w = new := by rw [hstep.worker, update_self]
  rcases hstep.waitq with ⟨-, -, hnew⟩ | ⟨hq, -⟩ | ⟨hq, -⟩
  · exact (h.worker hstep).not_dormant (by rwa [hworker])
  · rintro (hsleep | hasleep)
    · simp [step_event hq, WaitQueue.State.goto] at hsleep
    · rw [step_event hq] at hasleep
      exact hserve (.inr hasleep)
  · rintro (hsleep | hasleep)
    · obtain ⟨-, hmove, -⟩ := (frame_of_step hq).sleeps hsleep
      have hcond : s.condition = false := by simpa using hmove
      simp [State.condition, hp.trans_le hstep.pending_le] at hcond
    · rcases (frame_of_step hq).asleep _ hasleep with ha | ⟨-, hpc, -⟩
      · exact hserve (.inr ha)
      · exact hserve (.inl hpc)

theorem SubmitStep.serves {new : SubmitPc} (h : Coupled s)
    (hr : ∃ w, s.waitq.Reached (.inl w)) (hs : step s (.inr u) = some s')
    (hstep : SubmitStep s u new s') (hserve : s.Serves (.inr u)) : ∃ x, s'.Serves x := by
  rcases hstep.waitq with ⟨-, hold, hwake, -⟩ | ⟨n, hq, -⟩ | ⟨n, hq, hold, -⟩
  · have hidle := h.quiet u hold
    simp [State.Serves, hwake, hidle, WaitQueue.Pc.wakes] at hserve
  · refine ⟨.inr u, .inr (.inl ?_)⟩
    simp [step_wakeUp hq, WaitQueue.State.goto]
  · simp only [State.Serves, hold, reduceCtorEq, exists_false, false_or] at hserve
    rcases hserve with hlock | hpop | ⟨t, ht⟩
    · simp only [WaitQueue.step, hlock, WaitQueue.State.acquire] at hq
      split_ifs at hq
      refine ⟨.inr u, .inr (.inr (.inl ?_))⟩
      rw [← some.inj hq]
      exact update_self ..
    · cases hqueue : s.waitq.queue with
      | nil =>
        obtain ⟨x, hx, hserves⟩ := serves_of_pop h hr hpop hqueue
        exact ⟨x, hserves.other hx hs⟩
      | cons t rest =>
        simp only [WaitQueue.step, hpop] at hq
        refine ⟨.inr u, .inr (.inr (.inr ⟨t, ?_⟩))⟩
        rw [← some.inj hq]
        simp [WaitQueue.State.goto, WaitQueue.Pc.wakes, hqueue]
    · rcases (frame_of_step hq).wakes _ ht with hw | hawake
      · exact ⟨.inr u, .inr (.inr (.inr ⟨t, hw⟩))⟩
      · -- the worker is awake, and still in `task_sched`
        obtain ⟨-, hsched, -⟩ := h.waitq.woken _ _ ht
        cases t with
        | inl w =>
          refine ⟨.inl w, ?_⟩
          rintro (hsleep | ha)
          · have hsame := (frame_of_step hq).pc (.inl w) (by simp)
            rw [hsame, hsched] at hsleep
            cases hsleep
          · rw [hawake] at ha
            cases ha
        | inr v => rcases h.pc_submit v with hv | hv <;> rw [hsched] at hv <;> cases hv

/-- Where all workers are dormant they are all idle, and whoever counts an item will wake one. -/
theorem SubmitStep.counts [Fintype Sub] {new : SubmitPc} (h : Coupled s) (hc : Counts s)
    (hs : step s (.inr u) = some s') (hstep : SubmitStep s u new s')
    (hold : s.pendingWork ≤ 0) (hnew : 0 < s'.pendingWork) : ∃ x, s'.Serves x := by
  by_cases hall : ∀ w, s.Dormant w
  · have hwaiting : ∀ w, s.worker w = .waiting := by
      intro w
      by_contra hw
      exact h.not_dormant hw (hall w)
    have hidle : s.idleWorkers = workerThreadCount := by
      rw [hc.idle]
      simp [census, hwaiting, WorkerPc.isIdle]
    have hactive : s.activeWorkers = 0 := by
      rw [hc.active]
      simp [census, hwaiting, WorkerPc.isActive]
    rcases hstep.counted with heq | ⟨hmax, hcount, rfl⟩
    · rw [heq] at hnew
      exact absurd hnew (not_lt.mpr hold)
    · obtain ⟨n, hn⟩ := wakeups_pos hnew (by omega)
      refine ⟨.inr u, .inl ⟨n, ?_⟩⟩
      rw [hstep.submit, update_self, hactive, hidle, hn]
  · push Not at hall
    obtain ⟨w, hw⟩ := hall
    exact ⟨.inl w, State.Serves.other (x := .inl w) hw (by simp) hs⟩

end Served

/-! ## The pool in every run -/

section Pool

variable {Sub : Type}

/-- Items are queued, no submission is under way and every worker is asleep. -/
def Stuck (s : State Sub) : Prop :=
  s.workQueue ≠ [] ∧ (∀ u, s.submit u = .idle) ∧ ∀ w, s.waitq.asleep (.inl w) = true

/-- A worker that finds nothing to do is on the wait queue, or the other one can be reached. -/
def Attended (s : State Sub) (a : Worker ⊕ Sub) : Prop :=
  WaitQueue.Fresh s.waitq (a, .go s.condition) ∨ ∃ w, .inl w ≠ a ∧ s.waitq.Reached (.inl w)

variable [DecidableEq Sub] {s s' : State Sub} {a : Worker ⊕ Sub}

theorem reached_step (h : Coupled s) (hr : ∃ w, s.waitq.Reached (.inl w)) (hC : Attended s a)
    (hs : step s a = some s') : ∃ w, s'.waitq.Reached (.inl w) := by
  rcases step_waitq hs with heq | ⟨move, hq, hmove⟩
  · rw [heq]
    exact hr
  · rcases hC with hfresh | ⟨w, hw, hreached⟩
    · obtain ⟨w, hreached⟩ := hr
      refine ⟨w, hreached.step h.waitq ?_ hq⟩
      intro haw hpc hfalse
      refine hfresh hpc ?_
      rw [hmove w haw hfalse]
    · exact ⟨w, hreached.step h.waitq (fun haw => absurd haw.symm hw) hq⟩

variable {w : Worker}

theorem lost_step (h : Coupled s) (hlost : s.waitq.Lost (.inl w))
    (hs : step s a = some s') : s'.waitq.Lost (.inl w) := by
  rcases step_waitq hs with heq | ⟨move, hq, -⟩
  · rw [heq]
    exact hlost
  · exact hlost.step h.waitq hq

theorem stepWorker_waiting (hw : s.worker w = .waiting)
    (hs : step s (.inl w) = some s') :
    WaitQueue.step s.waitq (.inl w, .go s.condition) = some s'.waitq ∧
      s'.worker w = if s'.waitq.pc (.inl w) = .idle then .leave else .waiting := by
  simp only [step, stepWorker, hw] at hs
  obtain ⟨q, hq, rfl⟩ := map_eq_some_iff.mp hs
  exact ⟨hq, update_self ..⟩

theorem exists_stepWorker_waiting {q : WaitQueue.State (Worker ⊕ Sub)}
    (hw : s.worker w = .waiting) (hq : WaitQueue.step s.waitq (.inl w, .go s.condition) = some q) :
    ∃ s', step s (.inl w) = some s' ∧ s'.waitq = q := by
  simp only [step, stepWorker, hw, hq, map_some]
  exact ⟨_, rfl, rfl⟩

theorem pending_le_of_step (hs : step s (.inl w) = some s') : s'.pendingWork ≤ s.pendingWork := by
  obtain ⟨new, hstep⟩ := workerStep_of_step hs
  exact hstep.pending_le

theorem coupled_of_reach {C : State Sub → Worker ⊕ Sub → Prop}
    (h : Reach step C init s) : Coupled s :=
  h.invariant coupled_init fun _ _ _ hi _ hs => hi.step hs

/-- Every worker is lost, and nobody has the lock of the wait queue. -/
structure Abandoned (s : State Sub) : Prop where
  coupled : Coupled s
  unlocked : s.waitq.lock = false
  lost : ∀ w, s.waitq.Lost (.inl w)

theorem lost_of_reach (h : Coupled s) (hlost : ∀ w, s.waitq.Lost (.inl w))
    (hs : Reach step Any s s') : Coupled s' ∧ ∀ w, s'.waitq.Lost (.inl w) :=
  hs.invariant (I := fun s => Coupled s ∧ ∀ w, s.waitq.Lost (.inl w)) ⟨h, hlost⟩
    fun _ _ _ hi _ hstep => ⟨hi.1.step hstep, fun w => lost_step hi.1 (hi.2 w) hstep⟩

omit [DecidableEq Sub] in
theorem lost_of_not_reached {v : Worker} (h : Coupled s)
    (hcheck : s.waitq.pc (.inl w) = .eventCheck) (hv : v ≠ w)
    (hnot : ¬s.waitq.Reached (.inl v)) : s.waitq.Lost (.inl v) := by
  rw [WaitQueue.State.Reached, not_and_or, Classical.not_imp, Classical.not_imp] at hnot
  rcases hnot with ⟨hpc, -⟩ | ⟨ha, hq⟩
  · -- two threads have the lock
    have := h.waitq.alone (.inl v) (.inl w) (by rw [hpc]; rfl) (by rw [hcheck]; rfl)
    exact absurd (Sum.inl.inj this) hv
  · push Not at hq
    exact ⟨ha, hq⟩

/-- A worker that goes to sleep lets go of the lock. -/
theorem exists_steps_sleep (hw : s.worker w = .waiting)
    (hpc : s.waitq.pc (.inl w) = .eventSleep) :
    ∃ s1 s2, step s (.inl w) = some s1 ∧ step s1 (.inl w) = some s2 ∧ s2.waitq.lock = false := by
  obtain ⟨s1, hs1, hq1⟩ := exists_stepWorker_waiting hw
    (q := { s.waitq.goto (.inl w) .eventUnlock with
      asleep := update s.waitq.asleep (.inl w) true })
    (by simp only [WaitQueue.step, hpc])
  have hpc1 : s1.waitq.pc (.inl w) = .eventUnlock := by
    rw [hq1]
    exact update_self ..
  have hw1 : s1.worker w = .waiting := by
    rw [(stepWorker_waiting hw hs1).2, hpc1, if_neg (by simp)]
  obtain ⟨s2, hs2, hq2⟩ := exists_stepWorker_waiting hw1
    (q := s1.waitq.release (.inl w) .eventSched) (by simp only [WaitQueue.step, hpc1])
  refine ⟨s1, s2, hs1, hs2, ?_⟩
  rw [hq2]
  rfl

theorem abandoned_of_not_attended (h : Coupled s) (hs : step s a = some s')
    (hnot : ¬Attended s a) :
    ∃ s'', Reach step Any s' s'' ∧ Abandoned s'' ∧ s''.pendingWork ≤ 0 := by
  rw [Attended, not_or] at hnot
  obtain ⟨hfresh, hall⟩ := hnot
  push Not at hall
  have hcheck : s.waitq.pc a = .eventCheck := by
    by_contra hne
    exact hfresh fun hpc => absurd hpc hne
  cases a with
  | inr u => rcases h.pc_submit u with hu | hu <;> rw [hcheck] at hu <;> cases hu
  | inl w =>
    have hwaiting : s.worker w = .waiting := by
      by_contra hne
      rw [h.working w hne] at hcheck
      cases hcheck
    have h' := h.step hs
    have hother : ∀ v, v ≠ w → s.waitq.Lost (.inl v) :=
      fun v hv => lost_of_not_reached h hcheck hv (hall v (by simpa using hv))
    obtain ⟨hq, hworker⟩ := stepWorker_waiting hwaiting hs
    obtain ⟨hpc, hoff⟩ := WaitQueue.sleeps_of_not_fresh hq hfresh
    have hwaiting' : s'.worker w = .waiting := by rw [hworker, hpc, if_neg (by simp)]
    obtain ⟨s1, s'', hs1, hs'', hunlocked⟩ := exists_steps_sleep hwaiting' hpc
    have hlost : ∀ v, s1.waitq.Lost (.inl v) := by
      intro v
      by_cases hv : v = w
      · subst hv
        exact WaitQueue.lost_of_sleeps h'.waitq hpc hoff (stepWorker_waiting hwaiting' hs1).1
      · exact lost_step h' (lost_step h (hother v hv) hs) hs1
    obtain ⟨hcoupled, hlost''⟩ := lost_of_reach (h'.step hs1) hlost (.single trivial hs'')
    refine ⟨s'', (Reach.single trivial hs1).next trivial hs'', ⟨hcoupled, hunlocked, hlost''⟩, ?_⟩
    have hfalse : s.condition = false := by
      rw [WaitQueue.Fresh, Classical.not_imp, Classical.not_imp] at hfresh
      simpa using hfresh.2.1
    have hpending : ¬0 < s.pendingWork := by
      intro hpos
      simp [State.condition, hpos] at hfalse
    have hle := (pending_le_of_step hs).trans (not_lt.mp hpending)
    exact (pending_le_of_step hs'').trans ((pending_le_of_step hs1).trans hle)

/-! ## Submissions to an abandoned pool -/

section Abandoned

variable {u : Sub} {n : Nat}

omit [DecidableEq Sub] in
theorem Coupled.awake_submit (h : Coupled s) (u : Sub) : s.waitq.asleep (.inr u) = false := by
  refine h.waitq.awake ?_ ?_ <;> intro hpc <;> rcases h.pc_submit u with hu | hu <;>
    rw [hpc] at hu <;> cases hu

omit [DecidableEq Sub] in
theorem Abandoned.pc_waking (h : Abandoned s) (hu : s.submit u = .waking n) :
    s.waitq.pc (.inr u) = .wakeLock := by
  have hin := h.coupled.waking u n hu
  have hfree := h.coupled.waitq.lock (.inr u)
  cases hpc : s.waitq.pc (.inr u) with
  | wakeLock => rfl
  | wakeTask t =>
    have hwakes : (s.waitq.pc (.inr u)).wakes = some t := by rw [hpc]; rfl
    cases t with
    | inl w => exact absurd hwakes ((h.lost w).2.2 _)
    | inr v =>
      have hasleep := (h.coupled.waitq.woken _ _ hwakes).1
      rw [h.coupled.awake_submit v] at hasleep
      cases hasleep
  | wakePop | wakeUnlock =>
    rw [hpc, h.unlocked] at hfree
    cases hfree rfl
  | _ =>
    rw [hpc] at hin
    cases hin

omit [DecidableEq Sub] in
theorem Abandoned.queue_eq_nil (h : Abandoned s) : s.waitq.queue = [] := by
  rw [eq_nil_iff_forall_not_mem]
  rintro (w | u) hmem
  · exact (h.lost w).2.1 hmem
  · refine h.coupled.waitq.not_queued (h.coupled.awake_submit u) ?_ hmem
    have hpc := h.coupled.pc_submit u
    revert hpc
    generalize s.waitq.pc (.inr u) = pc
    cases pc <;> simp [WaitQueue.Pc.inWake, WaitQueue.Pc.entered]

/-- One, where the submitter has an item that it has yet to count. -/
def SubmitPc.due : SubmitPc → Nat
  | .enqueue _ | .count => 1
  | _ => 0

/-- Steps of the submitter take it to `new`, and do nothing but add to the queue and to
`pending_work`. -/
structure Leads (s : State Sub) (u : Sub) (new : SubmitPc) (s' : State Sub) : Prop where
  reach : Reach step Any s s'
  abandoned : Abandoned s'
  submit : s'.submit = update s.submit u new
  pending : s'.pendingWork + new.due = s.pendingWork + (s.submit u).due
  queue : s.workQueue ≠ [] → s'.workQueue ≠ []

theorem Leads.trans {s'' : State Sub} {mid new : SubmitPc} (h : Leads s u mid s')
    (h' : Leads s' u new s'') : Leads s u new s'' where
  reach := h.reach.trans h'.reach
  abandoned := h'.abandoned
  submit := by rw [h'.submit, h.submit, update_idem]
  pending := by rw [h'.pending, h.submit, update_self, h.pending]
  queue hq := h'.queue (h.queue hq)

theorem Abandoned.reach (h : Abandoned s) (hs : Reach step Any s s')
    (hl : s'.waitq.lock = false) : Abandoned s' := by
  obtain ⟨hcoupled, hlost⟩ := lost_of_reach h.coupled h.lost hs
  exact ⟨hcoupled, hl, hlost⟩

/-- `waitqueue_wake_up` finds nobody. -/
theorem Abandoned.leads_wakeUp (h : Abandoned s) (hu : s.submit u = .waking n) :
    ∃ s', Leads s u (.wake n) s' := by
  have hpc := h.pc_waking hu
  let s1 : State Sub := { s.goSubmit u (.waking n) with
    waitq := { s.waitq.goto (.inr u) .wakePop with lock := true } }
  let s2 : State Sub := { s1.goSubmit u (.waking n) with
    waitq := { s1.waitq.goto (.inr u) (.wakeUnlock none) with queue := [] } }
  let s3 : State Sub := { s2.goSubmit u (.wake n) with waitq := s2.waitq.release (.inr u) .idle }
  have hs1 : step s (.inr u) = some s1 := by
    simp [step, stepSubmit, hu, WaitQueue.step, hpc, WaitQueue.State.acquire, h.unlocked,
      WaitQueue.State.goto, s1]
  have hs2 : step s1 (.inr u) = some s2 := by
    simp [step, stepSubmit, WaitQueue.step, WaitQueue.State.goto, State.goSubmit, h.queue_eq_nil,
      s1, s2]
  have hs3 : step s2 (.inr u) = some s3 := by
    simp [step, stepSubmit, WaitQueue.step, WaitQueue.State.goto, WaitQueue.State.release,
      State.goSubmit, s1, s2, s3]
  have hreach : Reach step Any s s3 :=
    ((Reach.single trivial hs1).next trivial hs2).next trivial hs3
  refine ⟨s3, hreach, h.reach hreach rfl, ?_, ?_, id⟩
  · simp only [State.goSubmit, update_idem, s1, s2, s3]
  · rw [hu]
    rfl

theorem Abandoned.leads_wake (h : Abandoned s) (hu : s.submit u = .wake n) :
    ∃ s', Leads s u .idle s' := by
  induction n generalizing s with
  | zero =>
    have hs : Reach step Any s (s.goSubmit u .idle) := .single (a := .inr u) trivial (by
      simp only [step, stepSubmit, hu])
    exact ⟨_, hs, h.reach hs h.unlocked, rfl, by rw [hu]; rfl, id⟩
  | succ n ih =>
    have hpc := h.coupled.quiet u (by simp [hu])
    have hs : Reach step Any s { s.goSubmit u (.waking n) with
        waitq := s.waitq.goto (.inr u) .wakeLock } := .single (a := .inr u) trivial (by
      simp only [step, stepSubmit, hu, WaitQueue.step, hpc, map_some])
    have hfirst : Leads s u (.waking n) _ :=
      ⟨hs, h.reach hs h.unlocked, rfl, by rw [hu]; rfl, id⟩
    obtain ⟨s2, hsecond⟩ := hfirst.abandoned.leads_wakeUp (u := u) (n := n) (update_self ..)
    have hwake := hfirst.trans hsecond
    obtain ⟨s3, hrest⟩ := ih hwake.abandoned (by rw [hwake.submit, update_self])
    exact ⟨s3, hwake.trans hrest⟩

theorem Abandoned.leads_count (h : Abandoned s) (hu : s.submit u = .count)
    (hmax : s.pendingWork < 2 ^ 31 - 1) : ∃ s', Leads s u .idle s' := by
  have hs : Reach step Any s { s.goSubmit u (.wake _) with pendingWork := s.pendingWork + 1 } :=
    .single (a := .inr u) trivial (by simp only [step, stepSubmit, hu, if_neg hmax.ne]; rfl)
  have hfirst : Leads s u (.wake _) _ :=
    ⟨hs, h.reach hs h.unlocked, rfl, by simp [hu, SubmitPc.due], id⟩
  obtain ⟨s', hrest⟩ := hfirst.abandoned.leads_wake (u := u) (update_self ..)
  exact ⟨s', hfirst.trans hrest⟩

theorem Abandoned.leads_enqueue {item : Nat} (h : Abandoned s) (hu : s.submit u = .enqueue item)
    (hmax : s.pendingWork < 2 ^ 31 - 1) :
    ∃ s', Leads s u .idle s' ∧ s'.workQueue ≠ [] := by
  have hs : Reach step Any s { s.goSubmit u .count with workQueue := s.workQueue ++ [item] } :=
    .single (a := .inr u) trivial (by simp only [step, stepSubmit, hu])
  have hfirst : Leads s u .count _ :=
    ⟨hs, h.reach hs h.unlocked, rfl, by rw [hu]; rfl, fun _ => by simp⟩
  obtain ⟨s', hrest⟩ := hfirst.abandoned.leads_count (u := u) (update_self ..) hmax
  exact ⟨s', hfirst.trans hrest, hrest.queue (by simp)⟩

/-- A submission that is under way comes to its end. -/
theorem Abandoned.leads_idle (h : Abandoned s) (u : Sub) (hmax : s.pendingWork < 2 ^ 31 - 1) :
    ∃ s', Leads s u .idle s' := by
  cases hu : s.submit u with
  | idle => exact ⟨s, .start, h, by rw [← hu, update_eq_self], by rw [hu], id⟩
  | enqueue item =>
    obtain ⟨s', hs', -⟩ := h.leads_enqueue hu hmax
    exact ⟨s', hs'⟩
  | count => exact h.leads_count hu hmax
  | wake n => exact h.leads_wake hu
  | waking n =>
    obtain ⟨s1, hfirst⟩ := h.leads_wakeUp hu
    obtain ⟨s', hrest⟩ := hfirst.abandoned.leads_wake (u := u) (by rw [hfirst.submit, update_self])
    exact ⟨s', hfirst.trans hrest⟩

theorem SubmitPc.due_le (pc : SubmitPc) : pc.due ≤ 1 := by
  cases pc <;> simp [SubmitPc.due]

theorem Abandoned.all_idle (l : List Sub) (h : Abandoned s)
    (hmax : s.pendingWork + l.length < 2 ^ 31 - 1) :
    ∃ s', Reach step Any s s' ∧ Abandoned s' ∧ (∀ u ∈ l, s'.submit u = .idle) ∧
      (∀ u, s.submit u = .idle → s'.submit u = .idle) ∧
      s'.pendingWork ≤ s.pendingWork + l.length := by
  induction l generalizing s with
  | nil => exact ⟨s, .start, h, by simp, fun _ => id, by simp⟩
  | cons u l ih =>
    rw [length_cons, Nat.cast_add_one] at hmax
    obtain ⟨s1, hu⟩ := h.leads_idle u (by omega)
    have hpending : s1.pendingWork + 0 = s.pendingWork + (s.submit u).due := hu.pending
    have hdue := (s.submit u).due_le
    obtain ⟨s', hreach, habandoned, hidle, hkept, hle⟩ := ih hu.abandoned (by omega)
    have hkept1 : ∀ v, v = u ∨ s.submit v = .idle → s'.submit v = .idle := by
      intro v hv
      refine hkept v ?_
      rw [hu.submit, update_apply]
      split_ifs with hvu
      · rfl
      · exact hv.resolve_left hvu
    refine ⟨s', hu.reach.trans hreach, habandoned, ?_, fun v hv => hkept1 v (.inr hv), ?_⟩
    · intro v hv
      rcases mem_cons.mp hv with hv | hv
      · exact hkept1 v (.inl hv)
      · exact hidle v hv
    · rw [length_cons, Nat.cast_add_one]
      omega

/-- When the submissions that are under way have come to their end, one more item is left. -/
theorem Abandoned.stuck [Fintype Sub] (u : Sub) (h : Abandoned s)
    (hmax : s.pendingWork + Fintype.card Sub < 2 ^ 31 - 1) :
    ∃ s', Reach step Any s s' ∧ Stuck s' := by
  have hlen : (Finset.univ : Finset Sub).toList.length = Fintype.card Sub := by
    rw [Finset.length_toList, Finset.card_univ]
  obtain ⟨s1, hreach, h1, hidle, -, hle⟩ := h.all_idle Finset.univ.toList (by rw [hlen]; exact hmax)
  rw [hlen] at hle
  have hall : ∀ v, s1.submit v = .idle := fun v => hidle v (by simp)
  have hs : Reach step Any s1 { s1.goSubmit u (.enqueue s1.next) with next := s1.next + 1 } :=
    .single (a := .inr u) trivial (by simp only [step, stepSubmit, hall])
  obtain ⟨s', hu, hqueue⟩ := (h1.reach hs h1.unlocked).leads_enqueue (u := u) (update_self ..)
    (hle.trans_lt hmax)
  refine ⟨s', (hreach.trans hs).trans hu.reach, hqueue, ?_, fun w => (hu.abandoned.lost w).1⟩
  intro v
  rw [hu.submit, update_apply]
  split_ifs with hvu
  · rfl
  · exact (update_of_ne hvu ..).trans (hall v)

end Abandoned

variable [Fintype Sub]

theorem served_step (h : Coupled s) (hc : Counts s) (hr : ∃ w, s.waitq.Reached (.inl w))
    (hserved : 0 < s.pendingWork → ∃ x, s.Serves x) (hs : step s a = some s')
    (hp : 0 < s'.pendingWork) : ∃ x, s'.Serves x := by
  by_cases hold : 0 < s.pendingWork
  · obtain ⟨x, hx⟩ := hserved hold
    by_cases hxa : x = a
    · subst hxa
      cases x with
      | inl w =>
        obtain ⟨new, hstep⟩ := workerStep_of_step hs
        exact ⟨.inl w, hstep.serves h hx hp⟩
      | inr u =>
        obtain ⟨new, hstep⟩ := submitStep_of_step hs
        exact hstep.serves h hr hs hx
    · exact ⟨x, hx.other hxa hs⟩
  · cases a with
    | inl w =>
      obtain ⟨new, hstep⟩ := workerStep_of_step hs
      exact absurd (hp.trans_le hstep.pending_le) hold
    | inr u =>
      obtain ⟨new, hstep⟩ := submitStep_of_step hs
      exact hstep.counts h hc hs (not_lt.mp hold) hp

/-- The invariant of the runs in which a worker can always be reached. -/
structure Healthy (s : State Sub) : Prop where
  coupled : Coupled s
  counts : Counts s
  reached : ∃ w, s.waitq.Reached (.inl w)
  served : 0 < s.pendingWork → ∃ x, s.Serves x

omit [DecidableEq Sub] in
theorem healthy_init : Healthy (init : State Sub) where
  coupled := coupled_init
  counts := counts_init
  reached := ⟨0, WaitQueue.reached_init _⟩
  served h := by simp [init] at h

theorem Healthy.step (h : Healthy s) (hC : Attended s a) (hs : WorkerPool.step s a = some s') :
    Healthy s' where
  coupled := h.coupled.step hs
  counts := h.counts.step hs
  reached := reached_step h.coupled h.reached hC hs
  served := served_step h.coupled h.counts h.reached h.served hs

omit [DecidableEq Sub] in
theorem Healthy.not_stuck (h : Healthy s) : ¬Stuck s := by
  rintro ⟨hqueue, hidle, hasleep⟩
  have hwaiting := fun w => h.coupled.asleep_waiting (hasleep w)
  have hpending := h.counts.pending_eq (by simp [hidle]) (by simp [hwaiting])
  have hlen := length_pos_iff.mpr hqueue
  obtain ⟨x, hx⟩ := h.served (by omega)
  cases x with
  | inl w => exact hx (.inr (hasleep w))
  | inr u =>
    have hpc := h.coupled.quiet u (by simp [hidle])
    simp [State.Serves, hidle, hpc, WaitQueue.Pc.wakes] at hx

/-- No item is executed twice, and `pending_work` counts the queue. Where a worker can always be
reached, queued items never wait for a submission that is not under way; after a step that leaves
none, every worker is lost, and the submissions of the tasks lead to a state in which an item waits
for ever. -/
theorem worker_pool_runs :
    (∀ s : State Sub, Reach step Any init s → s.executed.Nodup ∧
      ((∀ u, s.submit u ≠ .count) → (∀ w item, s.worker w ≠ .count item) →
        s.pendingWork = s.workQueue.length)) ∧
    (∀ s : State Sub, Reach step Attended init s → ¬Stuck s) ∧
    ∀ (s s' : State Sub) (a : Worker ⊕ Sub), Reach step Any init s →
      step s a = some s' → ¬Attended s a →
      (∃ s'', Reach step Any s' s'' ∧ ∀ w, s''.waitq.Lost (.inl w)) ∧
      (Nonempty Sub → Fintype.card Sub < 2 ^ 31 - 1 →
        ∃ s'', Reach step Any s' s'' ∧ Stuck s'') := by
  refine ⟨?_, ?_, ?_⟩
  · intro s h
    have hcounts : Counts s := h.invariant counts_init fun _ _ _ hi _ hs => hi.step hs
    exact ⟨hcounts.executed_nodup, hcounts.pending_eq⟩
  · intro s h
    have hhealthy : Healthy s := h.invariant healthy_init fun _ _ _ hi hC hs => hi.step hC hs
    exact hhealthy.not_stuck
  · intro s s' a h hs hnot
    obtain ⟨s1, hs1, habandoned, hpending⟩ :=
      abandoned_of_not_attended (coupled_of_reach h) hs hnot
    refine ⟨⟨s1, hs1, habandoned.lost⟩, ?_⟩
    rintro ⟨u⟩ hcard
    obtain ⟨s2, hs2, hstuck⟩ := habandoned.stuck u (by omega)
    exact ⟨s2, hs1.trans hs2, hstuck⟩

/-- One submission after both workers have gone to sleep. -/
theorem worker_pool_runs_one : ∃ s : State (Fin 2), Reach step Attended init s ∧
    s.workQueue = [0] ∧ s.waitq.asleep (.inl 1) = true ∧ ¬Stuck s := by
  have hrun : ∃ s : State (Fin 2), Reach step Attended init s ∧
      s.workQueue = [0] ∧ s.waitq.asleep (.inl 1) = true :=
    exists_reach (fun s a => decide (WaitQueue.Fresh s.waitq (a, .go s.condition)))
      (fun _ _ h => .inl (of_decide_eq_true h))
      (replicate 7 (.inl 0) ++ replicate 7 (.inl 1) ++ replicate 9 (.inr 0))
      (by decide +kernel)
  obtain ⟨s, hs, hqueue, ha⟩ := hrun
  exact ⟨s, hs, hqueue, ha, worker_pool_runs.2.1 s hs⟩

end Pool

/-- Two submissions wake both workers; the first worker takes both items, the second finds nothing
and is lost. A third submission is about to wake the first worker when a fourth does; the worker
takes both items and sleeps, is woken for nothing and lost as well. A fifth item is never taken. -/
def lossyRun : List (Worker ⊕ Fin 2) :=
  flatten [replicate 7 (.inl 0), replicate 7 (.inl 1), replicate 18 (.inr 0),
    replicate 21 (.inl 0), replicate 5 (.inl 1), replicate 3 (.inr 0), replicate 9 (.inr 1),
    replicate 21 (.inl 0), replicate 6 (.inr 0), replicate 5 (.inl 0), replicate 8 (.inr 0)]

theorem workers_lost : ∃ s : State (Fin 2), Reach step Any init s ∧ Stuck s ∧
    ∀ s', Reach step Any s s' → ∀ w, s'.waitq.Lost (.inl w) := by
  have hrun : ∃ s : State (Fin 2), Reach step Any init s ∧ s.workQueue = [4] ∧
      (∀ u, s.submit u = .idle) ∧ ∀ w, s.waitq.Lost (.inl w) :=
    exists_reach_any lossyRun (by decide +kernel)
  obtain ⟨s, hs, hqueue, hidle, hlost⟩ := hrun
  refine ⟨s, hs, ⟨by simp [hqueue], hidle, fun w => (hlost w).1⟩, ?_⟩
  intro s' hreach
  exact (lost_of_reach (coupled_of_reach hs) hlost hreach).2

end ShiziOS.Task.WorkerPool
