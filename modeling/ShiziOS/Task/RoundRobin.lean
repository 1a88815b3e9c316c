import Mathlib.Tactic

/-!
# The round-robin scheduler

The run queue of a CPU and its counter, `kernel/task/scheduler/rr.c`. Time slices are left out.
A task is on at most one queue, so a queue is a list of tasks.
-/

namespace ShiziOS.Task

open List

/-- `run_queue` of `struct per_cpu_sched`, and `nr_running` of the CPU. -/
structure RunQueue (Task : Type) where
  tasks : List Task
  nrRunning : Nat

variable {Task : Type} {q : RunQueue Task} {t : Task}

def rrEnqueue (q : RunQueue Task) (t : Task) : RunQueue Task where
  tasks := q.tasks ++ [t]
  nrRunning := (q.nrRunning + 1) % 2 ^ 64

def RunQueue.decr (q : RunQueue Task) : Nat := (q.nrRunning + 2 ^ 64 - 1) % 2 ^ 64

/-- `rr_pick_next`; `none` stands for the idle task. -/
def rrPickNext (q : RunQueue Task) : Option Task × RunQueue Task :=
  match q.tasks with
  | [] => (none, q)
  | t :: rest => (some t, { tasks := rest, nrRunning := q.decr })

/-- `rr_dequeue_tail`; `none` for an empty queue. -/
def rrDequeueTail (q : RunQueue Task) : Option (Task × RunQueue Task) :=
  match q.tasks.getLast? with
  | none => none
  | some t => some (t, { tasks := q.tasks.dropLast, nrRunning := q.decr })

def RunQueue.Exact (q : RunQueue Task) : Prop := q.nrRunning = q.tasks.length

instance : Decidable q.Exact := inferInstanceAs (Decidable (q.nrRunning = q.tasks.length))

theorem RunQueue.Exact.decr (h : q.Exact) (hpos : 0 < q.tasks.length)
    (hlt : q.tasks.length < 2 ^ 64) : q.decr = q.tasks.length - 1 := by
  have h : q.nrRunning = q.tasks.length := h
  rw [RunQueue.decr]
  omega

theorem exact_enqueue (h : q.Exact) (hlt : q.tasks.length + 1 < 2 ^ 64) :
    (rrEnqueue q t).Exact := by
  have h : q.nrRunning = q.tasks.length := h
  show (q.nrRunning + 1) % 2 ^ 64 = (q.tasks ++ [t]).length
  rw [length_append, length_singleton]
  omega

theorem exact_dequeueTail {q' : RunQueue Task} (h : q.Exact) (hlt : q.tasks.length < 2 ^ 64)
    (hq : rrDequeueTail q = some (t, q')) : q'.Exact ∧ q.tasks = q'.tasks ++ [t] := by
  unfold rrDequeueTail at hq
  split at hq
  · cases hq
  · rename_i last hlast
    obtain ⟨rfl, rfl⟩ := Prod.mk.inj (Option.some.inj hq)
    obtain ⟨front, hfront⟩ := getLast?_eq_some_iff.mp hlast
    have hpos : 0 < q.tasks.length := by simp [hfront]
    refine ⟨?_, by simp [hfront]⟩
    show q.decr = q.tasks.dropLast.length
    rw [h.decr hpos hlt, length_dropLast]

theorem exact_pickNext {q' : RunQueue Task} (h : q.Exact) (hlt : q.tasks.length < 2 ^ 64)
    (hq : rrPickNext q = (some t, q')) : q'.Exact ∧ q.tasks = t :: q'.tasks := by
  unfold rrPickNext at hq
  split at hq
  · cases hq
  · rename_i first rest htasks
    obtain ⟨hfirst, rfl⟩ := Prod.mk.inj hq
    cases hfirst
    refine ⟨?_, htasks⟩
    show q.decr = rest.length
    rw [h.decr (by simp [htasks]) hlt, htasks, length_cons, Nat.add_sub_cancel]

theorem pickNext_eq_none {q' : RunQueue Task} (hq : rrPickNext q = (none, q')) :
    q.tasks = [] ∧ q' = q := by
  unfold rrPickNext at hq
  split at hq
  · rename_i htasks
    exact ⟨htasks, (Prod.mk.inj hq).2.symm⟩
  · cases hq

end ShiziOS.Task
