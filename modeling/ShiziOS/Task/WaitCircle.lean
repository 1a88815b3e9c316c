import ShiziOS.Lib.Forest
import ShiziOS.Task.Migration

/-!
# CPUs that wait for each other

A CPU that spins in `task_try_migration` serves no request. `task_sched` gets there only where
`rr_pick_next` has found no task, and the CPU waits only for one that it has read as loaded; so a
new edge of the graph of waiting leads to a CPU that waits for nobody, and no CPUs wait in a
circle.
-/

namespace ShiziOS.Task.Migration

open Function Runs List Nat

variable {n : Nat} {Task : Type} {s s' s₀ : State n Task} {c j : Fin n}

/-- What a CPU does: its run queue changes outside of a migration, `task_sched` takes the next task
or finds none and looks for another CPU's, the interrupt of a request comes, or the function it is
in goes on. -/
inductive Turn (Task : Type) where
  | own (q : RunQueue Task)
  | sched
  | doMigration
  | go

def turn (s : State n Task) : Fin n × Turn Task → Option (State n Task)
  | (c, .own q) =>
    match s.pc c with
    | .idle => some (s.setRq c q)
    | _ => none
  | (c, .sched) =>
    match s.pc c, rrPickNext (s.rq c) with
    | .idle, (none, _) => step s (c, .tryMigration)
    | .idle, (some _, q) => some (s.setRq c q)
    | _, _ => none
  | (c, .doMigration) => step s (c, .doMigration)
  | (c, .go) => step s (c, .go)

/-- The counters are those of the queues, also after the turn. -/
def Counted (s : State n Task) (a : Fin n × Turn Task) : Prop :=
  ∀ s', turn s a = some s' → ∀ c, (s'.rq c).Exact

/-- The CPU looks for tasks, and has not been served. -/
def Pc.trying : Pc n Task → Bool
  | .read _ | .request _ | .wait _ => true
  | _ => false

/-- The CPU has seen the other one loaded, and waits for it or may do so. -/
def Pc.asks : Pc n Task → Fin n → Prop
  | .read taskCount, j => 2 < taskCount.getD j 0 % 2 ^ 32
  | .request targets, j => j ∈ targets
  | .wait b, j => j = b
  | _, _ => False

theorem loaded_of_mem_targets {taskCount : List Nat} (h : j ∈ targets c taskCount) :
    2 < taskCount.getD j 0 % 2 ^ 32 := by
  refine List.foldlRecOn (motive := fun ch : Choice n => ∀ j ∈ ch.best.toList ++ ch.second.toList,
    2 < taskCount.getD j 0 % 2 ^ 32) (finRange n) (Choice.consider c taskCount) (by simp) ?_ j h
  intro ch hch i _ j hj
  simp only [mem_append, Option.mem_toList] at hch hj
  simp only [Choice.consider] at hj
  split_ifs at hj <;> grind

/-- What a turn of a CPU may change: it looks for tasks with an empty queue only, and sees another
one loaded only where that one has tasks. -/
structure Moved (c : Fin n) (s s' : State n Task) : Prop where
  others : ∀ d, d ≠ c → s'.pc d = s.pc d ∧ s'.rq d = s.rq d
  empty : (s'.pc c).trying = true → s'.rq c = s.rq c ∧
    ((s.pc c).trying = true ∨ (s.rq c).tasks = [])
  asks : ∀ j, (s'.pc c).asks j → (s.pc c).asks j ∨
    (s.pc c).trying = true ∧ 2 < (s.rq j).nrRunning % 2 ^ 32

variable {p : Pc n Task}

theorem Pc.trying_of_asks (h : p.asks j) : p.trying = true := by
  cases p <;> first | rfl | exact h.elim

theorem Moved.away (hpc : s'.pc = update s.pc c p) (hrq : ∀ d, d ≠ c → s'.rq d = s.rq d)
    (hp : p.trying = false) : Moved c s s' := by
  have hfree : (s'.pc c).trying = false := by rw [hpc, update_self, hp]
  refine ⟨fun d hd => ⟨by rw [hpc, update_of_ne hd], hrq d hd⟩, ?_, ?_⟩
  · intro htrying
    rw [hfree] at htrying
    cases htrying
  · intro j hj
    rw [Pc.trying_of_asks hj] at hfree
    cases hfree

theorem Moved.on (hpc : s'.pc = update s.pc c p) (hrq : s'.rq = s.rq)
    (htrying : (s.pc c).trying = true) (hasks : ∀ j, p.asks j → (s.pc c).asks j ∨
      2 < (s.rq j).nrRunning % 2 ^ 32) : Moved c s s' := by
  refine ⟨fun d hd => ⟨by rw [hpc, update_of_ne hd], by rw [hrq]⟩,
    fun _ => ⟨by rw [hrq], .inl htrying⟩, fun j hj => ?_⟩
  rw [hpc, update_self] at hj
  exact (hasks j hj).imp id fun hloaded => ⟨htrying, hloaded⟩

theorem step_moved {move : Move} (hmove : move ≠ .tryMigration) (hs : step s (c, move) = some s') :
    Moved c s s' := by
  cases hpc : s.pc c <;> cases move <;> simp only [step, hpc, reduceCtorEq, Option.some.injEq] at hs
  case idle.tryMigration => exact absurd rfl hmove
  case read.go taskCount =>
    split_ifs at hs with hlen <;> cases hs
    · refine .on rfl rfl (by rw [hpc]; rfl) fun j hj => ?_
      rw [hpc]
      have hj : 2 < (taskCount ++ [_]).getD j 0 % 2 ^ 32 := hj
      by_cases hlt : j < taskCount.length
      · rw [getD_append _ _ _ _ hlt] at hj
        exact .inl hj
      · rw [getD_append_right _ _ _ _ (not_lt.mp hlt)] at hj
        cases hnew : (j : Nat) - taskCount.length with
        | zero =>
          obtain rfl : j = ⟨_, hlen⟩ := Fin.ext (by simp only; omega)
          rw [hnew] at hj
          exact .inr hj
        | succ k => simp [hnew] at hj
    · refine .on rfl rfl (by rw [hpc]; rfl) fun j hj => .inl ?_
      rw [hpc]
      exact loaded_of_mem_targets hj
  case request.go targets =>
    cases targets with
    | nil =>
      cases hs
      exact .away rfl (fun _ _ => rfl) rfl
    | cons b rest =>
      simp only at hs
      split_ifs at hs with hb <;> cases hs
      · refine .on rfl rfl (by rw [hpc]; rfl) fun j hj => .inl ?_
        rw [hpc]
        exact mem_cons.mpr (.inl hj)
      · refine .on rfl rfl (by rw [hpc]; rfl) fun j hj => .inl ?_
        rw [hpc]
        exact mem_cons_of_mem _ hj
  case wait.go b =>
    split_ifs at hs <;> cases hs
    · exact .on (update_eq_self c s.pc).symm rfl (by rw [hpc]; rfl) fun j hj => .inl hj
    · exact .away rfl (fun _ _ => rfl) rfl
  case enqueue.go t =>
    subst hs
    exact .away rfl (fun d hd => update_of_ne hd ..) rfl
  case take.go old left tasks =>
    cases left with
    | zero =>
      cases hs
      exact .away rfl (fun _ _ => rfl) rfl
    | succ left =>
      cases hs
      unfold State.takeOne
      split
      · exact .away rfl (fun _ _ => rfl) rfl
      · exact .away rfl (fun d hd => update_of_ne hd ..) rfl
  case push.go old tasks =>
    cases tasks with
    | nil =>
      cases hs
      exact .away rfl (fun _ _ => rfl) rfl
    | cons t tasks =>
      cases hs
      unfold State.pushOne
      split_ifs <;> exact .away rfl (fun _ _ => rfl) rfl
  all_goals
    first
    | (subst hs; exact .away rfl (fun _ _ => rfl) rfl)
    | (split at hs <;> cases hs <;> exact .away rfl (fun _ _ => rfl) rfl)

theorem Moved.setRq (hpc : s.pc c = .idle) (q : RunQueue Task) : Moved c s (s.setRq c q) :=
  .away (p := .idle) (by rw [← hpc, update_eq_self]; rfl) (fun d hd => update_of_ne hd ..) rfl

theorem turn_moved {a : Turn Task} (hs : turn s (c, a) = some s') : Moved c s s' := by
  cases a with
  | own q =>
    simp only [turn] at hs
    split at hs <;> cases hs
    rename_i hpc
    exact .setRq hpc q
  | sched =>
    simp only [turn] at hs
    split at hs
    · rename_i hpc hpick
      simp only [step, hpc] at hs
      cases hs
      refine ⟨fun d hd => ⟨update_of_ne hd .., rfl⟩,
        fun _ => ⟨rfl, .inr (pickNext_eq_none hpick).1⟩, fun j hj => ?_⟩
      simp [State.setPc, Pc.asks] at hj
    · rename_i hpc _
      cases hs
      exact .setRq hpc _
    · cases hs
  | doMigration => exact step_moved (by simp) hs
  | go => exact step_moved (by simp) hs

/-- A CPU that looks for tasks has none, and what the CPUs ask of each other is no circle. -/
structure Waiting (s : State n Task) : Prop where
  exact : ∀ c, (s.rq c).Exact
  empty : ∀ c, (s.pc c).trying = true → (s.rq c).tasks = []
  acyclic : ∀ c, ¬Relation.TransGen (fun b d => (s.pc b).asks d) c c

theorem Waiting.not_loaded (h : Waiting s) (hc : (s.pc c).trying = true) :
    ¬2 < (s.rq c).nrRunning % 2 ^ 32 := by
  have hexact : (s.rq c).nrRunning = (s.rq c).tasks.length := h.exact c
  simp [hexact, h.empty c hc]

theorem Waiting.moved (h : Waiting s) (hm : Moved c s s') (hexact : ∀ c, (s'.rq c).Exact) :
    Waiting s' where
  exact := hexact
  empty d hd := by
    by_cases hdc : d = c
    · subst hdc
      obtain ⟨hrq, htrying | hnil⟩ := hm.empty hd
      · rw [hrq, h.empty d htrying]
      · rw [hrq, hnil]
    · obtain ⟨hpc, hrq⟩ := hm.others d hdc
      rw [hrq]
      exact h.empty d (hpc ▸ hd)
  acyclic := by
    refine Forest.acyclic_of_ends h.acyclic fun b d hbd => ?_
    by_cases hbc : b = c
    · subst hbc
      refine (hm.asks d hbd).imp id fun ⟨htrying, hloaded⟩ e he => ?_
      have hdb : d ≠ b := by
        rintro rfl
        exact h.not_loaded htrying hloaded
      rw [(hm.others d hdb).1] at he
      exact h.not_loaded (Pc.trying_of_asks he) hloaded
    · rw [(hm.others b hbc).1] at hbd
      exact .inl hbd

/-- A CPU waits only for CPUs that had tasks when it had none, so that no CPUs wait in a circle. -/
theorem migration_no_circle (h₀ : s₀.Quiet) (hexact : ∀ c, (s₀.rq c).Exact)
    (h : Reach turn Counted s₀ s) (c : Fin n) :
    ¬Relation.TransGen (fun b d => s.pc b = .wait d) c c := by
  have hstart : Waiting s₀ := by
    refine ⟨hexact, fun c hc => ?_, fun c hcycle => ?_⟩
    · rw [h₀ c] at hc
      cases hc
    · obtain ⟨d, hd, -⟩ := Relation.TransGen.head'_iff.mp hcycle
      rw [h₀ c] at hd
      exact hd
  have hinv : Waiting s := h.invariant hstart fun s a s' hs hC hturn =>
    hs.moved (turn_moved hturn) (hC s' hturn)
  intro hcycle
  refine hinv.acyclic c (Relation.TransGen.mono (fun b d hbd => ?_) _ _ hcycle)
  rw [hbd]
  rfl

/-- The first CPU waits for the second one. -/
theorem migration_no_circle_three : ∃ s, Reach turn Counted threeQueued s ∧ s.pc 0 = .wait 1 ∧
    ¬Relation.TransGen (fun b d => s.pc b = .wait d) 0 0 := by
  have hrun : ∃ s, Reach turn Counted threeQueued s ∧ s.pc 0 = .wait 1 :=
    exists_reach (fun s a => (turn s a).all fun s' => decide (∀ c, (s'.rq c).Exact))
      (fun s a h s' hs => by simpa [hs] using h)
      [(0, .sched), (0, .go), (0, .go), (0, .go), (0, .go)] (by decide +kernel)
  obtain ⟨s, hreach, hwait⟩ := hrun
  exact ⟨s, hreach, hwait, migration_no_circle (fun _ => rfl) (by decide) hreach 0⟩

end ShiziOS.Task.Migration
