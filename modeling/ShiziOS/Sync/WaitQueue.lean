import Mathlib.Tactic
import ShiziOS.Lib.Runs

/-!
# Wait queues

`waitqueue_event` and `waitqueue_wake_up` of `include/wait.h`, over `task_sleep` and `task_wakeup`.
A thread puts its entry on the queue once, before it looks at the condition for the first time.
`waitqueue_wake_up` takes the first entry off; a thread that is woken so, and then finds the
condition false, goes back to sleep with its entry on no queue (`sleeper_lost`). Where no thread
meets that, every sleeper can be reached (`waitqueue_sleepers`).

Threads take one operation after the other, in any order among them; what the condition gives is
open. An entry stands for the thread whose stack it is on. `task_sched` lets a thread go on that is
not asleep; what it does to the run queues is another matter.
-/

namespace ShiziOS.Sync.WaitQueue

open Runs Function List

/-! ## The threads -/

/-- Where a thread is: outside, or before one of the operations of a call. -/
inductive Pc (Thread : Type) where
  | idle
  /-- `waitqueue_event`: before the first `spin_lock`. -/
  | eventLock
  /-- Before `waitqueue_add`. -/
  | eventAdd
  /-- Before the condition is looked at. -/
  | eventCheck
  /-- Before `task_sleep`. -/
  | eventSleep
  /-- Before the `spin_unlock` of the loop. -/
  | eventUnlock
  /-- In `task_sched`. -/
  | eventSched
  /-- Before the `spin_lock` of the loop. -/
  | eventRelock
  /-- Before `waitqueue_del`. -/
  | eventDel
  /-- Before the last `spin_unlock`. -/
  | eventDone
  /-- `waitqueue_wake_up`: before `spin_lock`. -/
  | wakeLock
  /-- Before the first entry is taken off. -/
  | wakePop
  /-- Before `spin_unlock`, with the entry that was taken off. -/
  | wakeUnlock (entry : Option Thread)
  /-- Before `task_wakeup` of the thread of that entry. -/
  | wakeTask (t : Thread)
deriving DecidableEq, Repr

def Pc.locked {Thread : Type} : Pc Thread → Bool
  | .eventAdd | .eventCheck | .eventSleep | .eventUnlock | .eventDel | .eventDone => true
  | .wakePop | .wakeUnlock _ => true
  | _ => false

/-- The thread that a call of `waitqueue_wake_up` has taken off the queue and is about to wake. -/
def Pc.wakes {Thread : Type} : Pc Thread → Option Thread
  | .wakeUnlock entry => entry
  | .wakeTask t => some t
  | _ => none

/-- The thread has put its entry on the queue, and has the lock. -/
def Pc.entered {Thread : Type} : Pc Thread → Bool
  | .eventCheck | .eventSleep | .eventDel => true
  | _ => false

/-- The thread is in `waitqueue_event`. -/
def Pc.inEvent {Thread : Type} : Pc Thread → Bool
  | .eventLock | .eventAdd | .eventCheck | .eventSleep | .eventUnlock | .eventSched => true
  | .eventRelock | .eventDel | .eventDone => true
  | _ => false

/-- The thread is in `waitqueue_wake_up`. -/
def Pc.inWake {Thread : Type} : Pc Thread → Bool
  | .wakeLock | .wakePop | .wakeUnlock _ | .wakeTask _ => true
  | _ => false

structure State (Thread : Type) where
  /-- The entries of the queue, each as its thread. -/
  queue : List Thread
  /-- The spin lock of the queue. -/
  lock : Bool
  /-- The threads whose state is `TASK_INTERRUPTIBLE`. -/
  asleep : Thread → Bool
  pc : Thread → Pc Thread

/-- A thread begins a call, or goes on with the one it is in; `condition` is what it finds where
it looks at the condition. -/
inductive Move where
  | event
  | wakeUp
  | go (condition : Bool)
deriving DecidableEq, Repr

variable {Thread : Type} [DecidableEq Thread]

def State.goto (s : State Thread) (t : Thread) (pc : Pc Thread) : State Thread :=
  { s with pc := update s.pc t pc }

/-- `waitqueue_head_init`, with every thread outside. -/
def init : State Thread where
  queue := []
  lock := false
  asleep _ := false
  pc _ := .idle

/-- `spin_lock`, with which the thread gets to `pc`. -/
def State.acquire (s : State Thread) (t : Thread) (pc : Pc Thread) : Option (State Thread) :=
  if s.lock then none else some { s.goto t pc with lock := true }

/-- `spin_unlock`. -/
def State.release (s : State Thread) (t : Thread) (pc : Pc Thread) : State Thread :=
  { s.goto t pc with lock := false }

def step (s : State Thread) : Thread × Move → Option (State Thread)
  | (t, move) =>
    match s.pc t, move with
    | .idle, .event => some (s.goto t .eventLock)
    | .idle, .wakeUp => some (s.goto t .wakeLock)
    | .eventLock, .go _ => s.acquire t .eventAdd
    | .eventAdd, .go _ => some { s.goto t .eventCheck with queue := s.queue ++ [t] }
    | .eventCheck, .go condition => some (s.goto t (if condition then .eventDel else .eventSleep))
    | .eventSleep, .go _ => some { s.goto t .eventUnlock with asleep := update s.asleep t true }
    | .eventUnlock, .go _ => some (s.release t .eventSched)
    | .eventSched, .go _ => if s.asleep t then none else some (s.goto t .eventRelock)
    | .eventRelock, .go _ => s.acquire t .eventCheck
    | .eventDel, .go _ => some { s.goto t .eventDone with queue := s.queue.erase t }
    | .eventDone, .go _ => some (s.release t .idle)
    | .wakeLock, .go _ => s.acquire t .wakePop
    | .wakePop, .go _ =>
      some { s.goto t (.wakeUnlock s.queue.head?) with queue := s.queue.tail }
    | .wakeUnlock none, .go _ => some (s.release t .idle)
    | .wakeUnlock (some u), .go _ => some (s.release t (.wakeTask u))
    -- `task_wakeup` leaves a thread alone that does not sleep
    | .wakeTask u, .go _ => some { s.goto t .idle with asleep := update s.asleep u false }
    | _, _ => none

/-! ## What holds in every run -/

/-- Who has the lock, who is asleep, who is on the queue and who is being woken. -/
structure Inv (s : State Thread) : Prop where
  lock : ∀ t, (s.pc t).locked = true → s.lock = true
  alone : ∀ t u, (s.pc t).locked = true → (s.pc u).locked = true → t = u
  asleep : ∀ t, s.asleep t = true → s.pc t = .eventUnlock ∨ s.pc t = .eventSched
  slept : ∀ t, s.pc t = .eventUnlock → s.asleep t = true
  nodup : s.queue.Nodup
  queued : ∀ t, t ∈ s.queue → s.asleep t = true ∨ (s.pc t).entered = true
  /-- A thread that is being woken is asleep still, and off the queue. -/
  woken : ∀ u t, (s.pc u).wakes = some t → s.asleep t = true ∧ s.pc t = .eventSched ∧ t ∉ s.queue
  once : ∀ u v t, (s.pc u).wakes = some t → (s.pc v).wakes = some t → u = v

section Steps

variable {s : State Thread} {t : Thread} {new : Pc Thread}

variable (h : Inv s)
include h

theorem Inv.goto (hl : new.locked = (s.pc t).locked) (ha : s.asleep t = false)
    (hw : new.wakes = none) (hu : new ≠ .eventUnlock) (hq : t ∈ s.queue → new.entered = true) :
    Inv (s.goto t new) := by
  cases h
  constructor <;> simp only [State.goto] <;> grind [update_apply]

theorem Inv.acquire (hl : s.lock = false) (ha : s.asleep t = false) (hw : new.wakes = none)
    (hu : new ≠ .eventUnlock) (hq : t ∈ s.queue → new.entered = true) :
    Inv { s.goto t new with lock := true } := by
  cases h
  constructor <;> simp only [State.goto] <;> grind [update_apply]

theorem Inv.release (hl : (s.pc t).locked = true) (hn : new.locked = false)
    (ha : s.asleep t = true → new = .eventSched) (he : (s.pc t).entered = false)
    (hw : ∀ u, new.wakes = some u → (s.pc t).wakes = some u) (hu : new ≠ .eventUnlock) :
    Inv (s.release t new) := by
  cases h
  constructor <;> simp only [State.release, State.goto] <;> grind [update_apply]

theorem Inv.add (hpc : s.pc t = .eventAdd) :
    Inv { s.goto t .eventCheck with queue := s.queue ++ [t] } := by
  cases h
  constructor <;> simp only [State.goto] <;> grind [update_apply, Pc.locked, Pc.wakes, Pc.entered]

theorem Inv.sleep (hpc : s.pc t = .eventSleep) :
    Inv { s.goto t .eventUnlock with asleep := update s.asleep t true } := by
  cases h
  constructor <;> simp only [State.goto] <;> grind [update_apply, Pc.locked, Pc.wakes, Pc.entered]

theorem Inv.del (hpc : s.pc t = .eventDel) :
    Inv { s.goto t .eventDone with queue := s.queue.erase t } := by
  cases h
  constructor <;> simp only [State.goto] <;> grind [update_apply, Pc.locked, Pc.wakes, Pc.entered]

/-- The thread whose entry is taken off is asleep: if it were awake, it would have the lock. -/
theorem Inv.pop (hpc : s.pc t = .wakePop) :
    Inv { s.goto t (.wakeUnlock s.queue.head?) with queue := s.queue.tail } := by
  have hhead : ∀ u, s.queue.head? = some u →
      s.asleep u = true ∧ s.pc u = .eventSched ∧ u ∉ s.queue.tail := by
    intro u hu
    obtain ⟨rest, hrest⟩ := head?_eq_some_iff.mp hu
    have hmem : u ∈ s.queue := hrest ▸ mem_cons_self
    have hnodup := h.nodup
    rw [hrest, nodup_cons] at hnodup
    have hfree : (s.pc u).locked = false := by
      by_contra hlocked
      have hut := h.alone u t (by simpa using hlocked) (by rw [hpc]; rfl)
      have := h.queued u hmem
      rw [hut, hpc] at this
      have hasleep := h.asleep t (by simpa [Pc.entered] using this)
      rw [hpc] at hasleep
      simp at hasleep
    rcases h.queued u hmem with ha | he
    · rcases h.asleep u ha with hp | hp
      · rw [hp] at hfree
        cases hfree
      · exact ⟨ha, hp, by rw [hrest]; exact hnodup.1⟩
    · cases hp : s.pc u <;> simp_all [Pc.entered, Pc.locked]
  have htail : ∀ u, u ∈ s.queue.tail → u ∈ s.queue := fun u => mem_of_mem_tail
  have hmem : ∀ u, s.queue.head? = some u → u ∈ s.queue := fun u => mem_of_mem_head?
  cases h
  constructor <;> simp only [State.goto] <;> grind [update_apply, Pc.locked, Pc.wakes, Pc.entered]

theorem Inv.wake {u : Thread} (hpc : s.pc t = .wakeTask u) :
    Inv { s.goto t .idle with asleep := update s.asleep u false } := by
  cases h
  constructor <;> simp only [State.goto] <;> grind [update_apply, Pc.locked, Pc.wakes, Pc.entered]

end Steps

omit [DecidableEq Thread] in
theorem inv_init : Inv (init : State Thread) := by
  constructor <;> simp [init, Pc.locked, Pc.wakes]

section Awake

variable {s : State Thread} {t : Thread}

omit [DecidableEq Thread] in
theorem Inv.awake (h : Inv s) (hu : s.pc t ≠ .eventUnlock) (hs : s.pc t ≠ .eventSched) :
    s.asleep t = false := by
  by_contra ha
  rcases h.asleep t (by simpa using ha) with hp | hp
  · exact hu hp
  · exact hs hp

omit [DecidableEq Thread] in
theorem Inv.not_queued (h : Inv s) (ha : s.asleep t = false) (he : (s.pc t).entered = false) :
    t ∉ s.queue := by
  intro hmem
  rcases h.queued t hmem with ha' | he'
  · rw [ha] at ha'
    cases ha'
  · rw [he] at he'
    cases he'

end Awake

variable {s s' : State Thread} {a : Thread × Move} {t : Thread}

theorem Inv.step (h : Inv s)
    (hs : step s a = some s') : Inv s' := by
  obtain ⟨t, move⟩ := a
  have hawake := h.awake (t := t)
  have hoff := h.not_queued (t := t)
  simp only [step, State.acquire] at hs
  split at hs
  case h_1 hpc | h_2 hpc =>
    rw [hpc] at hawake hoff
    cases hs
    have ha := hawake (by simp) (by simp)
    exact h.goto (by rw [hpc]; rfl) ha rfl (by simp) fun hq => absurd hq (hoff ha rfl)
  case h_3 hpc | h_12 hpc =>
    rw [hpc] at hawake hoff
    split_ifs at hs with hl
    cases hs
    have ha := hawake (by simp) (by simp)
    exact h.acquire (by simpa using hl) ha rfl (by simp) fun hq => absurd hq (hoff ha rfl)
  case h_4 hpc => cases hs; exact h.add hpc
  case h_5 condition hpc =>
    rw [hpc] at hawake
    cases hs
    have ha := hawake (by simp) (by simp)
    cases condition
    · exact h.goto (by rw [hpc]; rfl) ha rfl (by simp) fun _ => rfl
    · exact h.goto (by rw [hpc]; rfl) ha rfl (by simp) fun _ => rfl
  case h_6 hpc => cases hs; exact h.sleep hpc
  case h_7 hpc =>
    cases hs
    exact h.release (by rw [hpc]; rfl) rfl (fun _ => rfl) (by rw [hpc]; rfl) (by simp [Pc.wakes])
      (by simp)
  case h_8 hpc =>
    rw [hpc] at hoff
    split_ifs at hs with ha
    cases hs
    have ha : s.asleep t = false := by simpa using ha
    exact h.goto (by rw [hpc]; rfl) ha rfl (by simp) fun hq => absurd hq (hoff ha rfl)
  case h_9 hpc =>
    rw [hpc] at hawake
    split_ifs at hs with hl
    cases hs
    exact h.acquire (by simpa using hl) (hawake (by simp) (by simp)) rfl (by simp) fun _ => rfl
  case h_10 hpc => cases hs; exact h.del hpc
  case h_11 hpc | h_14 hpc =>
    rw [hpc] at hawake
    cases hs
    have ha := hawake (by simp) (by simp)
    exact h.release (by rw [hpc]; rfl) rfl (by simp [ha]) (by rw [hpc]; rfl) (by simp [Pc.wakes])
      (by simp)
  case h_13 hpc => cases hs; exact h.pop hpc
  case h_15 u _ hpc =>
    rw [hpc] at hawake
    cases hs
    have ha := hawake (by simp) (by simp)
    exact h.release (by rw [hpc]; rfl) rfl (by simp [ha]) (by rw [hpc]; rfl)
      (by simp [hpc, Pc.wakes]) (by simp)
  case h_16 u _ hpc => cases hs; exact h.wake hpc
  case h_17 => cases hs

theorem inv_of_reach {C : State Thread → Thread × Move → Prop}
    (h : Reach step C init s) : Inv s :=
  h.invariant inv_init fun _ _ _ hi _ hs => hi.step hs

/-! ## What one step changes -/

section Frame

/-- What one step of a thread leaves, and who goes to sleep, gets on the queue and off it, and is
woken with it. -/
structure Frame (s : State Thread) (t : Thread) (move : Move) (s' : State Thread) : Prop where
  pc : ∀ u, u ≠ t → s'.pc u = s.pc u
  sleeps : s'.pc t = .eventSleep → s.pc t = .eventCheck ∧ move = .go false ∧ s'.queue = s.queue
  asleep : ∀ u, s'.asleep u = true →
    s.asleep u = true ∨ u = t ∧ s.pc t = .eventSleep ∧ s'.queue = s.queue
  awake : ∀ u, s.asleep u = true → s'.asleep u = true ∨ (s.pc t).wakes = some u
  enqueued : ∀ u, u ∈ s'.queue → u ∈ s.queue ∨ u = t ∧ s.pc t = .eventAdd
  dequeued : ∀ u, u ∈ s.queue →
    u ∈ s'.queue ∨ s.pc t = .wakePop ∧ (s'.pc t).wakes = some u ∨ u = t ∧ s.pc t = .eventDel
  woken : ∀ u, (s'.pc t).wakes = some u → (s.pc t).wakes = some u ∨ u ∈ s.queue
  wakes : ∀ u, (s.pc t).wakes = some u → (s'.pc t).wakes = some u ∨ s'.asleep u = false
  inEvent : (s.pc t).inEvent = true → s'.pc t = .idle ∨ (s'.pc t).inEvent = true
  inWake : (s.pc t).inWake = true → s'.pc t = .idle ∨ (s'.pc t).inWake = true

variable {s s' : State Thread} {t : Thread} {move : Move}

theorem frame_of_step (hs : step s (t, move) = some s') : Frame s t move s' := by
  have hhead : ∀ u, u ∈ s.queue → s.queue.head? = some u ∨ u ∈ s.queue.tail := by
    intro u hu
    cases hq : s.queue with
    | nil => simp [hq] at hu
    | cons v rest => simpa [hq, eq_comm] using hu
  simp only [step, State.acquire, State.release, State.goto] at hs
  split at hs <;> (try split_ifs at hs) <;> cases hs <;> constructor <;>
    grind [update_apply, Pc.wakes, Pc.inEvent, Pc.inWake, mem_of_mem_erase,
      mem_of_mem_tail, mem_of_mem_head?]

theorem step_event (hs : step s (t, .event) = some s') : s' = s.goto t .eventLock := by
  simp only [step] at hs
  split at hs <;> simp_all

theorem step_wakeUp (hs : step s (t, .wakeUp) = some s') : s' = s.goto t .wakeLock := by
  simp only [step] at hs
  split at hs <;> simp_all

end Frame

/-! ## Lost sleepers -/

/-- A thread that is asleep while its entry is on no queue and no `waitqueue_wake_up` is about to
wake it. -/
def State.Lost (s : State Thread) (t : Thread) : Prop :=
  s.asleep t = true ∧ t ∉ s.queue ∧ ∀ u, (s.pc u).wakes ≠ some t

/-- A thread that finds its condition false has its entry on the queue. -/
def Fresh (s : State Thread) (a : Thread × Move) : Prop :=
  s.pc a.1 = .eventCheck → a.2 = .go false → a.1 ∈ s.queue

instance [Fintype Thread] (s : State Thread) (t : Thread) : Decidable (s.Lost t) :=
  inferInstanceAs (Decidable (s.asleep t = true ∧ t ∉ s.queue ∧ ∀ u, (s.pc u).wakes ≠ some t))

instance (s : State Thread) (a : Thread × Move) : Decidable (Fresh s a) :=
  inferInstanceAs (Decidable (s.pc a.1 = .eventCheck → a.2 = .go false → a.1 ∈ s.queue))

/-- If the thread sleeps, or is about to, it is on the queue or is being woken. -/
def State.Reached (s : State Thread) (t : Thread) : Prop :=
  (s.pc t = .eventSleep → t ∈ s.queue) ∧
  (s.asleep t = true → t ∈ s.queue ∨ ∃ u, (s.pc u).wakes = some t)

theorem State.Reached.step {u : Thread} (h : s.Reached u)
    (hi : Inv s) (hC : a.1 = u → Fresh s a) (hs : step s a = some s') : s'.Reached u := by
  obtain ⟨t, move⟩ := a
  have hframe := frame_of_step hs
  refine ⟨?_, ?_⟩
  · intro hu
    by_cases hut : u = t
    · subst hut
      obtain ⟨hpc, hmove, hqueue⟩ := hframe.sleeps hu
      rw [hqueue]
      exact hC rfl hpc hmove
    · rw [hframe.pc _ hut] at hu
      rcases hframe.dequeued _ (h.1 hu) with hq | ⟨hpop, -⟩ | ⟨rfl, -⟩
      · exact hq
      · -- the thread that pops has the lock, and so has the one that is about to sleep
        exact absurd (hi.alone u t (by rw [hu]; rfl) (by rw [hpop]; rfl)) hut
      · exact absurd rfl hut
  · intro hu
    rcases hframe.asleep _ hu with ha | ⟨rfl, hpc, hqueue⟩
    · rcases h.2 ha with hq | ⟨v, hv⟩
      · rcases hframe.dequeued _ hq with hq' | ⟨-, hw⟩ | ⟨rfl, hdel⟩
        · exact .inl hq'
        · exact .inr ⟨t, hw⟩
        · have := hi.asleep u ha
          rw [hdel] at this
          simp at this
      · refine .inr ⟨v, ?_⟩
        by_cases hvt : v = t
        · subst hvt
          rcases hframe.wakes _ hv with hw | hw
          · exact hw
          · rw [hu] at hw
            cases hw
        · rw [hframe.pc _ hvt]
          exact hv
    · rw [hqueue]
      exact .inl (h.1 hpc)

omit [DecidableEq Thread] in
theorem reached_init (t : Thread) : (init : State Thread).Reached t :=
  ⟨fun h => by simp [init] at h, fun h => by simp [init] at h⟩

omit [DecidableEq Thread] in
theorem State.Reached.not_lost (h : s.Reached t) : ¬s.Lost t := by
  rintro ⟨ha, hq, hw⟩
  rcases h.2 ha with hmem | ⟨u, hu⟩
  · exact hq hmem
  · exact hw u hu

theorem State.Lost.step (h : s.Lost t)
    (hi : Inv s) (hs : step s a = some s') : s'.Lost t := by
  obtain ⟨v, move⟩ := a
  have hframe := frame_of_step hs
  obtain ⟨ha, hq, hw⟩ := h
  refine ⟨?_, ?_, ?_⟩
  · exact (hframe.awake _ ha).resolve_right (hw v)
  · intro hq'
    rcases hframe.enqueued _ hq' with hmem | ⟨rfl, hadd⟩
    · exact hq hmem
    · have := hi.asleep t ha
      rw [hadd] at this
      simp at this
  · intro u hu
    by_cases huv : u = v
    · subst huv
      rcases hframe.woken _ hu with hw' | hmem
      · exact hw u hw'
      · exact hq hmem
    · rw [hframe.pc _ huv] at hu
      exact hw u hu

theorem sleeps_of_not_fresh {move : Move}
    (hs : step s (t, move) = some s') (hnot : ¬Fresh s (t, move)) :
    s'.pc t = .eventSleep ∧ t ∉ s'.queue := by
  rw [Fresh, Classical.not_imp, Classical.not_imp] at hnot
  obtain ⟨hpc, rfl, hq⟩ := hnot
  simp only [step, hpc] at hs
  cases hs
  exact ⟨update_self .., hq⟩

theorem lost_of_sleeps {move : Move} (h : Inv s)
    (hpc : s.pc t = .eventSleep) (hq : t ∉ s.queue) (hs : step s (t, move) = some s') :
    s'.Lost t := by
  have hwakes : ∀ u, (s.pc u).wakes ≠ some t := by
    intro u hu
    obtain ⟨-, hsched, -⟩ := h.woken u t hu
    rw [hpc] at hsched
    cases hsched
  simp only [step, hpc] at hs
  cases move with
  | event | wakeUp => cases hs
  | go condition =>
    cases hs
    refine ⟨update_self .., hq, ?_⟩
    intro u hu
    by_cases hut : u = t
    · simp [State.goto, hut, Pc.wakes] at hu
    · exact hwakes u (by simpa [State.goto, update_of_ne hut] using hu)

theorem lost_of_not_fresh (h : Inv s) (hs : step s a = some s') (hnot : ¬Fresh s a) :
    ∃ s'', Reach step Any s' s'' ∧ s''.Lost a.1 := by
  obtain ⟨t, move⟩ := a
  obtain ⟨hpc, hq⟩ := sleeps_of_not_fresh hs hnot
  have hstep : step s' (t, .go true) =
      some { s'.goto t .eventUnlock with asleep := update s'.asleep t true } := by
    simp only [step, hpc]
  exact ⟨_, .single trivial hstep, lost_of_sleeps (h.step hs) hpc hq hstep⟩

/-- Where every thread that finds its condition false is on the queue, no sleeper is ever lost;
after any other step of any run one is lost. -/
theorem waitqueue_sleepers :
    (∀ s : State Thread, Reach step Fresh init s → ∀ t, ¬s.Lost t) ∧
    ∀ (s s' : State Thread) (a : Thread × Move), Reach step Any init s →
      step s a = some s' → ¬Fresh s a →
      ∃ s'', Reach step Any s' s'' ∧ s''.Lost a.1 := by
  refine ⟨?_, ?_⟩
  · intro s h t
    have hkept := h.invariant (I := fun s => Inv s ∧ s.Reached t) ⟨inv_init, reached_init t⟩
      fun s a s' hi hC hs => ⟨hi.1.step hs, hi.2.step hi.1 (fun _ => hC) hs⟩
    exact hkept.2.not_lost
  · intro s s' a h hs hnot
    exact lost_of_not_fresh (inv_of_reach h) hs hnot

/-- A thread sleeps, and another has just taken it off the queue. -/
theorem waitqueue_sleepers_two : ∃ s : State (Fin 2), Reach step Fresh init s ∧
    s.asleep 0 = true ∧ s.queue = [] ∧ ∀ t, ¬s.Lost t := by
  have hrun : ∃ s : State (Fin 2), Reach step Fresh init s ∧ s.asleep 0 = true ∧
      s.queue = [] :=
    exists_reach (fun s a => decide (Fresh s a)) (fun _ _ h => of_decide_eq_true h)
      [(0, .event), (0, .go false), (0, .go false), (0, .go false), (0, .go false), (0, .go false),
        (1, .wakeUp), (1, .go false), (1, .go false)]
      (by decide +kernel)
  obtain ⟨s, hs, ha, hq⟩ := hrun
  exact ⟨s, hs, ha, hq, waitqueue_sleepers.1 s hs⟩

/-- A thread is woken, finds its condition false and sleeps again. It is lost from then on. -/
theorem sleeper_lost : ∃ s : State (Fin 2), Reach step Any init s ∧
    ∀ s', Reach step Any s s' → s'.Lost 0 := by
  have hrun : ∃ s : State (Fin 2), Reach step Any init s ∧ s.Lost 0 := exists_reach_any
      [(0, .event), (0, .go false), (0, .go false), (0, .go false), (0, .go false), (0, .go false),
        (1, .wakeUp), (1, .go false), (1, .go false), (1, .go false), (1, .go false),
        (0, .go false), (0, .go false), (0, .go false), (0, .go false)]
      (by decide +kernel)
  obtain ⟨s, hs, hlost⟩ := hrun
  refine ⟨s, hs, ?_⟩
  intro s' hreach
  have hkept := hreach.invariant (I := fun s => Inv s ∧ s.Lost 0) ⟨inv_of_reach hs, hlost⟩
    fun s a s' hi _ hstep => ⟨hi.1.step hstep, hi.2.step hi.1 hstep⟩
  exact hkept.2

end ShiziOS.Sync.WaitQueue
