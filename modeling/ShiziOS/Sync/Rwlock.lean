import Mathlib.Tactic
import ShiziOS.Lib.Census
import ShiziOS.Lib.Runs

/-!
# Reader-writer locks

`include/rwlock.h`. The lock is one word: the number of readers in the low 30 bits, a bit for a
writer that holds the lock and a bit for a writer that waits. Tasks take one atomic operation
after the other, in any order among them; a weak compare-and-exchange may fail for no reason.

* A writer is alone with the lock (`rwlock_exclusion`), however many tasks there are: when 2 ^ 30
  readers hold it, no other gets in.
* The waiting bit is cleared by `rwlock_write_unlock` only. Set while readers hold the lock, or
  after the last holder is gone, it stays, and nobody gets the lock again
  (`waiting_writer_wedges`); `rwlock_not_wedged` says when that does not happen.
-/

namespace ShiziOS.Sync.Rwlock

open Runs Function

/-- `RWLOCK_WRITE_LOCKED`. -/
def writeLocked : BitVec 32 := 1#32 <<< 30

/-- `RWLOCK_WRITE_WAITING`. -/
def writeWaiting : BitVec 32 := 1#32 <<< 31

/-! ## The tasks -/

/-- Where a task is: outside, before one of the atomic operations of a call, or with the lock. -/
inductive Pc where
  | idle
  /-- `rwlock_read_lock`: before the load. -/
  | readLoad
  /-- Before the exchange of the value that was loaded for one more. -/
  | readCas (s : BitVec 32)
  | reading
  /-- `rwlock_write_lock`: before the load. -/
  | writeLoad
  /-- Before the exchange of zero for `RWLOCK_WRITE_LOCKED`. -/
  | writeCas
  /-- Before `RWLOCK_WRITE_WAITING` is set. -/
  | writeMark
  | writing
deriving DecidableEq, Repr

/-- The task holds the lock. -/
def Pc.holds : Pc → Bool
  | .reading | .writing => true
  | _ => false

/-- The task is inside `rwlock_read_lock` or `rwlock_write_lock`. -/
def Pc.waits : Pc → Bool
  | .readLoad | .readCas _ | .writeLoad | .writeCas | .writeMark => true
  | _ => false

theorem Pc.holds_of_waits {pc : Pc} (h : pc.waits = true) : pc.holds = false := by
  cases pc with
  | idle | reading | writing => cases h
  | readLoad | readCas | writeLoad | writeCas | writeMark => rfl

structure State (Task : Type) where
  state : BitVec 32
  pc : Task → Pc

/-- A task begins a call, or goes on with the one it is in; with the lock, it releases it. -/
inductive Move where
  | readLock
  | writeLock
  | go (spurious : Bool)
deriving DecidableEq, Repr

section Model

variable {Task : Type} [DecidableEq Task]

def State.goto (s : State Task) (t : Task) (pc : Pc) : State Task :=
  { s with pc := update s.pc t pc }

/-- `rwlock_init`, with every task outside. -/
def init : State Task where
  state := 0
  pc _ := .idle

def step (s : State Task) : Task × Move → Option (State Task)
  | (t, move) =>
    match s.pc t, move with
    | .idle, .readLock => some (s.goto t .readLoad)
    | .idle, .writeLock => some (s.goto t .writeLoad)
    | .readLoad, .go _ =>
      if s.state &&& (writeLocked ||| writeWaiting) = 0 then some (s.goto t (.readCas s.state))
      else some (s.goto t .readLoad)
    | .readCas v, .go spurious =>
      if s.state = v ∧ spurious = false then some { s.goto t .reading with state := v + 1 }
      else some (s.goto t .readLoad)
    -- `rwlock_read_unlock`
    | .reading, .go _ => some { s.goto t .idle with state := s.state - 1 }
    | .writeLoad, .go _ =>
      if s.state = 0 then some (s.goto t .writeCas)
      else if s.state &&& writeWaiting = 0 then some (s.goto t .writeMark)
      else some (s.goto t .writeLoad)
    | .writeCas, .go spurious =>
      if s.state = 0 ∧ spurious = false then some { s.goto t .writing with state := writeLocked }
      else some (s.goto t .writeLoad)
    | .writeMark, .go _ => some { s.goto t .writeLoad with state := s.state ||| writeWaiting }
    -- `rwlock_write_unlock`
    | .writing, .go _ => some { s.goto t .idle with state := 0 }
    | _, _ => none

@[simp] theorem goto_state (s : State Task) (t : Task) (pc : Pc) : (s.goto t pc).state = s.state :=
  rfl

@[simp] theorem goto_pc (s : State Task) (t : Task) (pc : Pc) : (s.goto t pc).pc =
    update s.pc t pc := rfl

/-- What one operation of a task does: the word before and after it, and where it leaves the
task. -/
inductive Moves : BitVec 32 → Pc → BitVec 32 → Pc → Prop where
  | readLock (w : BitVec 32) : Moves w .idle w .readLoad
  | writeLock (w : BitVec 32) : Moves w .idle w .writeLoad
  | readLoad (w : BitVec 32) (h : w &&& (writeLocked ||| writeWaiting) = 0) :
    Moves w .readLoad w (.readCas w)
  | readSpin (w : BitVec 32) : Moves w .readLoad w .readLoad
  | readCas (w : BitVec 32) : Moves w (.readCas w) (w + 1) .reading
  | readRetry (w v : BitVec 32) : Moves w (.readCas v) w .readLoad
  | readUnlock (w : BitVec 32) : Moves w .reading (w - 1) .idle
  | writeLoad : Moves 0 .writeLoad 0 .writeCas
  | writeFull (w : BitVec 32) (h : w ≠ 0) (hm : w &&& writeWaiting = 0) :
    Moves w .writeLoad w .writeMark
  | writeSpin (w : BitVec 32) (h : w ≠ 0) : Moves w .writeLoad w .writeLoad
  | writeCas : Moves 0 .writeCas writeLocked .writing
  | writeRetry (w : BitVec 32) : Moves w .writeCas w .writeLoad
  | writeMark (w : BitVec 32) : Moves w .writeMark (w ||| writeWaiting) .writeLoad
  | writeUnlock (w : BitVec 32) : Moves w .writing 0 .idle

theorem step_moves {s s' : State Task} {t : Task} {move : Move} (h : step s (t, move) = some s') :
    ∃ pc', Moves s.state (s.pc t) s'.state pc' ∧ s'.pc = update s.pc t pc' := by
  obtain ⟨w, pc⟩ := s
  simp only [step] at h ⊢
  split at h
  case h_1 hpc => cases h; rw [hpc]; exact ⟨_, .readLock w, rfl⟩
  case h_2 hpc => cases h; rw [hpc]; exact ⟨_, .writeLock w, rfl⟩
  case h_3 hpc =>
    rw [hpc]
    split_ifs at h with hw
    · cases h; exact ⟨_, .readLoad w hw, rfl⟩
    · cases h; exact ⟨_, .readSpin w, rfl⟩
  case h_4 v spurious hpc =>
    rw [hpc]
    split_ifs at h with hw
    · obtain ⟨rfl, -⟩ := hw
      cases h; exact ⟨_, .readCas _, rfl⟩
    · cases h; exact ⟨_, .readRetry w v, rfl⟩
  case h_5 hpc => cases h; rw [hpc]; exact ⟨_, .readUnlock w, rfl⟩
  case h_6 hpc =>
    rw [hpc]
    split_ifs at h with hw hm
    · obtain rfl : w = 0 := hw
      cases h; exact ⟨_, .writeLoad, rfl⟩
    · cases h; exact ⟨_, .writeFull w hw hm, rfl⟩
    · cases h; exact ⟨_, .writeSpin w hw, rfl⟩
  case h_7 hpc =>
    rw [hpc]
    split_ifs at h with hw
    · obtain ⟨rfl, -⟩ : w = 0 ∧ _ := hw
      cases h; exact ⟨_, .writeCas, rfl⟩
    · cases h; exact ⟨_, .writeRetry w, rfl⟩
  case h_8 hpc => cases h; rw [hpc]; exact ⟨_, .writeMark w, rfl⟩
  case h_9 hpc => cases h; rw [hpc]; exact ⟨_, .writeUnlock w, rfl⟩
  case h_10 => cases h

end Model

/-! ## The word -/

variable {w : BitVec 32}

theorem lt_of_and_eq_zero {m : BitVec 32} {k : Nat} (h : w &&& m = 0)
    (hm : ∀ i < 32, k ≤ i → m.getLsbD i = true) : w.toNat < 2 ^ k := by
  apply Nat.lt_pow_two_of_testBit
  intro i hi
  rcases Nat.lt_or_ge i 32 with hlt | hge
  · have hbit := congrArg (fun x : BitVec 32 => x.getLsbD i) h
    rw [BitVec.testBit_toNat]
    simpa [hm i hlt hi] using hbit
  · exact Nat.testBit_lt_two_pow (w.isLt.trans_le (Nat.pow_le_pow_right (by decide) hge))

theorem and_flags_eq_zero (h : w &&& (writeLocked ||| writeWaiting) = 0) : w.toNat < 2 ^ 30 :=
  lt_of_and_eq_zero h (by decide)

theorem and_waiting_eq_zero (h : w &&& writeWaiting = 0) : w.toNat < 2 ^ 31 :=
  lt_of_and_eq_zero h (by decide)

theorem or_waiting_mod (w : BitVec 32) :
    (w ||| writeWaiting).toNat % 2 ^ 31 = w.toNat % 2 ^ 31 := by
  apply Nat.eq_of_testBit_eq
  intro i
  have hw : writeWaiting.toNat = 2 ^ 31 := by decide
  rw [BitVec.toNat_or, Nat.testBit_mod_two_pow, Nat.testBit_mod_two_pow, Nat.testBit_or, hw]
  by_cases hi : i < 31
  · rw [Nat.testBit_two_pow_of_ne (by omega), Bool.or_false]
  · simp [hi]

theorem le_or_waiting (w : BitVec 32) : 2 ^ 31 ≤ (w ||| writeWaiting).toNat := by
  exact Nat.right_le_or

/-! ## Exclusion -/

def Pc.readers (pc : Pc) : Nat := if pc = .reading then 1 else 0

def Pc.writers (pc : Pc) : Nat := if pc = .writing then 1 else 0

section Exclusion

variable {Task : Type} [Fintype Task]

/-- The number of tasks that hold the lock for reading. -/
def State.readers (s : State Task) : Nat := census Pc.readers s.pc

def State.writers (s : State Task) : Nat := census Pc.writers s.pc

/-- The word counts the holders, whether or not a writer waits. -/
structure Inv (s : State Task) : Prop where
  word : s.state.toNat % 2 ^ 31 = s.readers + 2 ^ 30 * s.writers
  alone : s.writers = 0 ∨ s.writers = 1 ∧ s.readers = 0
  /-- What is to be exchanged for one reader more has no flags. -/
  plain : ∀ t v, s.pc t = .readCas v → v.toNat < 2 ^ 30

variable {s : State Task}

theorem Inv.exclusive (h : Inv s) {t u : Task} (ht : s.pc t = .writing) (hut : u ≠ t) :
    (s.pc u).holds = false := by
  have hw : (s.pc t).writers ≤ s.writers := le_census t
  have halone := h.alone
  have hr : (s.pc u).readers ≤ s.readers := le_census u
  have hww : (s.pc u).writers + (s.pc t).writers ≤ s.writers := add_le_census hut
  rw [ht] at hw hww
  cases hu : s.pc u with
  | reading =>
    rw [hu] at hr
    simp only [Pc.readers, Pc.writers, if_true] at hr hw
    omega
  | writing =>
    rw [hu] at hww
    simp only [Pc.writers, if_true] at hww
    omega
  | idle | readLoad | readCas | writeLoad | writeCas | writeMark => rfl

theorem inv_init : Inv (init : State Task) where
  word := by simp [init, State.readers, State.writers, census, Pc.readers, Pc.writers]
  alone := .inl (by simp [init, State.writers, census, Pc.writers])
  plain t v h := by simp [init] at h

variable [DecidableEq Task]

theorem Inv.of_moves {s' : State Task} {t : Task} {pc' : Pc} (h : Inv s)
    (hpc : s'.pc = update s.pc t pc') (hv : ∀ v, pc' = .readCas v → v.toNat < 2 ^ 30)
    (hword : ∀ r w, r + (s.pc t).readers = s.readers + pc'.readers →
      w + (s.pc t).writers = s.writers + pc'.writers →
      s'.state.toNat % 2 ^ 31 = r + 2 ^ 30 * w ∧ (w = 0 ∨ w = 1 ∧ r = 0)) : Inv s' := by
  obtain ⟨h1, h2⟩ := hword _ _ (census_updated hpc Pc.readers) (census_updated hpc Pc.writers)
  refine ⟨h1, h2, ?_⟩
  intro u v hu
  rw [hpc, update_apply] at hu
  split_ifs at hu
  · exact hv v hu
  · exact h.plain u v hu

theorem Inv.step {s' : State Task} {a : Task × Move} (h : Inv s) (hs : step s a = some s') :
    Inv s' := by
  obtain ⟨t, move⟩ := a
  obtain ⟨pc', hmove, hpc⟩ := step_moves hs
  have hword := h.word
  have halone := h.alone
  have hplain := h.plain t
  refine h.of_moves hpc ?_ ?_
  · rintro v rfl
    generalize s.state = w, s'.state = w', s.pc t = pc at hmove
    cases hmove with
    | readLoad _ hw => exact and_flags_eq_zero hw
  · intro r w hr hw
    generalize hw0 : s.state = word, hw1 :
      s'.state = word', s.pc t = pc at hmove hword hr hw hplain ⊢
    cases hmove
    all_goals simp only [Pc.readers, Pc.writers, reduceCtorEq, if_false, if_true, add_zero] at hr hw
    case readCas =>
      have hv := hplain word rfl
      have hadd : (word + 1).toNat = word.toNat + 1 := by bv_omega
      omega
    case readUnlock =>
      have hsub : (word - 1).toNat = word.toNat - 1 := by bv_omega
      omega
    case writeCas =>
      have hlocked : writeLocked.toNat = 2 ^ 30 := by decide
      have hzero : (0 : BitVec 32).toNat = 0 := rfl
      omega
    case writeMark =>
      rw [or_waiting_mod]
      omega
    case writeUnlock =>
      have hzero : (0 : BitVec 32).toNat = 0 := rfl
      omega
    all_goals omega

theorem inv_of_reach {C : State Task → Task × Move → Prop}
    (h : Reach step C init s) : Inv s :=
  h.invariant inv_init fun _ _ _ hi _ hs => hi.step hs

/-- While a writer holds the lock, no other task holds it. -/
theorem rwlock_exclusion {s : State Task} (h : Reach step Any init s) {t u : Task}
    (ht : s.pc t = .writing) (hut : u ≠ t) : s.pc u ≠ .reading ∧ s.pc u ≠ .writing := by
  have hu := (inv_of_reach h).exclusive ht hut
  refine ⟨?_, ?_⟩
  · intro heq
    rw [heq] at hu
    cases hu
  · intro heq
    rw [heq] at hu
    cases hu

/-- Two tasks: the one writes, the other is about to set the waiting bit. -/
theorem rwlock_exclusion_two : ∃ s : State (Fin 2), Reach step Any init s ∧
    s.pc 0 = .writing ∧ s.pc 1 = .writeMark ∧ s.pc 1 ≠ .reading ∧ s.pc 1 ≠ .writing := by
  have hrun : ∃ s : State (Fin 2), Reach step Any init s ∧
      s.pc 0 = .writing ∧ s.pc 1 = .writeMark :=
    exists_reach_any
      [(0, .writeLock), (0, .go false), (0, .go false), (1, .writeLock), (1, .go false)]
      (by decide +kernel)
  obtain ⟨s, hs, h0, h1⟩ := hrun
  exact ⟨s, hs, h0, h1, rwlock_exclusion hs h0 (by decide)⟩

end Exclusion

/-! ## Waiting -/

section Wedge

variable {Task : Type}

/-- Nobody holds the lock. -/
def State.Free (s : State Task) : Prop := ∀ t, (s.pc t).holds = false

/-- The task is inside `rwlock_read_lock` or `rwlock_write_lock`. -/
def State.Waiting (s : State Task) (t : Task) : Prop := (s.pc t).waits = true

/-- The task holds the lock, and no other does. -/
def State.Last (s : State Task) (t : Task) : Prop :=
  (s.pc t).holds = true ∧ ∀ u, u ≠ t → (s.pc u).holds = false

def Inside (s : State Task) (a : Task × Move) : Prop := s.Waiting a.1

/-- The waiting bit is set while a writer holds the lock, and the last holder goes while no task
waits or one of them is not about to set the bit. -/
def Timely (s : State Task) (a : Task × Move) : Prop :=
  (s.pc a.1 = .writeMark → ∃ u, s.pc u = .writing) ∧
  (s.Last a.1 → (∃ u, s.Waiting u) → ∃ u, s.Waiting u ∧ s.pc u ≠ .writeMark)

variable [DecidableEq Task]

/-- Nobody holds the lock, some wait for it, and whatever they do none of them gets it. -/
def Wedged (s : State Task) : Prop :=
  s.Free ∧ (∃ t, s.Waiting t) ∧ ∀ s', Reach step Inside s s' → s'.Free

instance [Fintype Task] (s : State Task) (a : Task × Move) : Decidable (Timely s a) :=
  inferInstanceAs (Decidable ((s.pc a.1 = .writeMark → ∃ u, s.pc u = .writing) ∧
    ((s.pc a.1).holds = true ∧ (∀ u, u ≠ a.1 → (s.pc u).holds = false) →
      (∃ u, (s.pc u).waits = true) → ∃ u, (s.pc u).waits = true ∧ s.pc u ≠ .writeMark)))

variable {s s' : State Task} {t : Task} {pc' pc : Pc} {w w' : BitVec 32}

theorem State.Free.update (h : s.Free)
    (hpc : s'.pc = Function.update s.pc t pc') (h' : pc'.holds = false) : s'.Free := by
  intro u
  rw [hpc, update_apply]
  split_ifs
  · exact h'
  · exact h u

/-! ### Taking a free lock -/

omit [DecidableEq Task] in
theorem inside_of {move : Move} (h : s.Waiting t) : Inside s
    (t, move) := h

theorem acquires_readCas (hw : s.state = 0) (ht : s.pc t = .readCas 0) :
    ∃ s', Reach step Inside s s' ∧ (s'.pc t).holds = true := by
  refine ⟨{ s.goto t .reading with state := 0 + 1 }, .single (a := (t, .go false)) ?_ ?_, ?_⟩
  · rw [Inside, State.Waiting, ht]
    rfl
  · simp only [step, ht, hw, and_self, if_true]
  · simp [Pc.holds]

theorem acquires_readLoad (hw : s.state = 0) (ht : s.pc t = .readLoad) :
    ∃ s', Reach step Inside s s' ∧ (s'.pc t).holds = true := by
  have hstep : step s (t, .go false) = some (s.goto t (.readCas 0)) := by
    simp [step, ht, hw]
  obtain ⟨s', hreach, hholds⟩ := acquires_readCas (s := s.goto t (.readCas 0)) (t := t) hw (by simp)
  refine ⟨s', (Reach.single ?_ hstep).trans hreach, hholds⟩
  rw [Inside, State.Waiting, ht]
  rfl

theorem acquires_writeCas (hw : s.state = 0) (ht : s.pc t = .writeCas) :
    ∃ s', Reach step Inside s s' ∧ (s'.pc t).holds = true := by
  refine ⟨{ s.goto t .writing with state := writeLocked }, .single (a := (t, .go false)) ?_ ?_, ?_⟩
  · rw [Inside, State.Waiting, ht]
    rfl
  · simp only [step, ht, hw, and_self, if_true]
  · simp [Pc.holds]

theorem acquires (hw : s.state = 0) (ht : s.Waiting t)
    (hne : s.pc t ≠ .writeMark) : ∃ s', Reach step Inside s s' ∧ (s'.pc t).holds = true := by
  cases hpc : s.pc t with
  | idle | reading | writing =>
    rw [State.Waiting, hpc] at ht
    cases ht
  | writeMark => exact absurd hpc hne
  | readLoad => exact acquires_readLoad hw hpc
  | writeCas => exact acquires_writeCas hw hpc
  | readCas v =>
    by_cases hv : v = 0
    · exact acquires_readCas hw (hv ▸ hpc)
    · have hstep : step s (t, .go false) = some (s.goto t .readLoad) := by
        simp only [step, hpc, hw, and_true, if_neg (Ne.symm hv)]
      obtain ⟨s', hreach, hholds⟩ :=
        acquires_readLoad (s := s.goto t .readLoad) (t := t) hw (by simp)
      exact ⟨s', (Reach.single (inside_of ht) hstep).trans hreach, hholds⟩
  | writeLoad =>
    have hstep : step s (t, .go false) = some (s.goto t .writeCas) := by
      simp [step, hpc, hw]
    obtain ⟨s', hreach, hholds⟩ := acquires_writeCas (s := s.goto t .writeCas) (t := t) hw (by simp)
    exact ⟨s', (Reach.single (inside_of ht) hstep).trans hreach, hholds⟩

/-! ### Where the lock is lost -/

theorem Moves.waits (h : Moves w pc w' pc') (hpc : pc.waits = true)
    (hplain : ∀ v, pc = .readCas v → v.toNat < 2 ^ 30)
    (hw : 2 ^ 31 ≤ w.toNat ∨ pc = .writeMark) : pc'.holds = false ∧ 2 ^ 31 ≤ w'.toNat := by
  cases h with
  | readLock | writeLock | readUnlock | writeUnlock => cases hpc
  | readLoad _ hflags =>
    have := and_flags_eq_zero hflags
    simp only [reduceCtorEq, or_false] at hw
    omega
  | readCas =>
    have := hplain w rfl
    simp only [reduceCtorEq, or_false] at hw
    omega
  | writeLoad | writeCas => simp at hw
  | writeFull _ _ hwait =>
    have := and_waiting_eq_zero hwait
    simp only [reduceCtorEq, or_false] at hw
    omega
  | readSpin | readRetry | writeSpin | writeRetry =>
    simp only [reduceCtorEq, or_false] at hw
    exact ⟨rfl, hw⟩
  | writeMark => exact ⟨rfl, le_or_waiting w⟩

variable [Fintype Task]

theorem wedged_of_marked (h : Inv s) (hfree : s.Free) (hwait : ∃ t, s.Waiting t)
    (hw : 2 ^ 31 ≤ s.state.toNat ∨ ∀ t, s.Waiting t → s.pc t = .writeMark) : Wedged s := by
  refine ⟨hfree, hwait, ?_⟩
  intro s' hreach
  have hkept := hreach.invariant (I := fun s => Inv s ∧ s.Free ∧
      (2 ^ 31 ≤ s.state.toNat ∨ ∀ t, s.Waiting t → s.pc t = .writeMark)) ⟨h, hfree, hw⟩ (by
    rintro s ⟨t, move⟩ s' ⟨hi, hf, hm⟩ hin hs
    obtain ⟨pc', hmove, hpc⟩ := step_moves hs
    have hboth := hmove.waits hin (hi.plain t) (hm.imp_right fun hall => hall t hin)
    exact ⟨hi.step hs, hf.update hpc hboth.1, .inl hboth.2⟩)
  exact hkept.2.1

theorem exists_free_of_marked (n : Nat) (h : Inv s) (hn : s.readers = n)
    (hmarked : 2 ^ 31 ≤ s.state.toNat) (hnone : ∀ u, s.pc u ≠ .writing) (ht : s.Waiting t) :
    ∃ s', Reach step Any s s' ∧ Wedged s' := by
  induction n generalizing s with
  | zero =>
    have hread := census_eq_zero.mp hn
    refine ⟨s, .start, wedged_of_marked h ?_ ⟨t, ht⟩ (.inl hmarked)⟩
    intro u
    cases hu : s.pc u with
    | reading =>
      have := hread u
      rw [hu] at this
      cases this
    | writing => exact absurd hu (hnone u)
    | idle | readLoad | readCas | writeLoad | writeCas | writeMark => rfl
  | succ n ih =>
    obtain ⟨u, hu⟩ := exists_of_census_pos (w := Pc.readers) (f := s.pc) (by
      rw [← State.readers, hn]
      omega)
    have hpc : s.pc u = .reading := by
      by_contra hne
      simp [Pc.readers, hne] at hu
    have hut : t ≠ u := by
      rintro rfl
      rw [State.Waiting, hpc] at ht
      cases ht
    have hstep : step s (u, .go false) = some { s.goto u .idle with state :=
        s.state - 1 } := by
      simp only [step, hpc]
    have hword := h.word
    have hcount : census Pc.readers (update s.pc u .idle) + (s.pc u).readers =
        s.readers + Pc.readers .idle :=
      census_update Pc.idle
    rw [hpc] at hcount
    simp only [Pc.readers, if_true, reduceCtorEq, if_false, add_zero] at hcount
    have hsub : (s.state - 1).toNat = s.state.toNat - 1 := by bv_omega
    obtain ⟨s', hreach, hwedged⟩ := ih (s := { s.goto u .idle with state := s.state - 1 })
      (h.step hstep) (by
        show census Pc.readers (update s.pc u .idle) = n
        omega)
      (by
        show 2 ^ 31 ≤ (s.state - 1).toNat
        omega)
      (by
        intro v
        show update s.pc u .idle v ≠ .writing
        rw [update_apply]
        split_ifs
        · decide
        · exact hnone v)
      (by
        show (update s.pc u .idle t).waits = true
        rw [update_of_ne hut]
        exact ht)
    exact ⟨s', (Reach.single trivial hstep).trans hreach, hwedged⟩

theorem wedges_of_not_timely {a : Task × Move} (h : Inv s)
    (hs : step s a = some s') (hnot : ¬Timely s a) :
    ∃ s'', Reach step Any s' s'' ∧ Wedged s'' := by
  obtain ⟨t, move⟩ := a
  obtain ⟨pc', hmove, hpc⟩ := step_moves hs
  rw [Timely, not_and_or, Classical.not_imp, Classical.not_imp, Classical.not_imp] at hnot
  generalize hold : s.pc t = pc, hw : s.state = w, hw' : s'.state = w' at hmove
  rcases hnot with ⟨hmark, hnone⟩ | ⟨hlast, ⟨u, hu⟩, hall⟩
  · push Not at hnone
    obtain rfl : pc = .writeMark := hold.symm.trans hmark
    cases hmove with
    | writeMark =>
      refine exists_free_of_marked _ (h.step hs) rfl (t := t) ?_ ?_ ?_
      · rw [hw']
        exact le_or_waiting w
      · intro v
        rw [hpc, update_apply]
        split_ifs
        · decide
        · exact hnone v
      · rw [State.Waiting, hpc, update_self]
        rfl
  · push Not at hall
    have hidle : pc' = .idle := by
      have hholds := hlast.1
      rw [hold] at hholds
      cases hmove with
      | readUnlock | writeUnlock => rfl
      | readLock | writeLock | readLoad | readSpin | readCas | readRetry | writeLoad | writeFull
      | writeSpin | writeCas | writeRetry | writeMark => cases hholds
    subst hidle
    have hwait : ∀ v, s'.Waiting v → s.Waiting v ∧ s'.pc v = s.pc v := by
      intro v hv
      rw [State.Waiting, hpc, update_apply] at hv
      split_ifs at hv with hvt
      · cases hv
      · exact ⟨hv, by rw [hpc, update_of_ne hvt]⟩
    have hut : u ≠ t := by
      rintro rfl
      have hholds := hlast.1
      rw [hall u hu] at hholds
      cases hholds
    refine ⟨s', .start, wedged_of_marked (h.step hs) ?_ ⟨u, ?_⟩ (.inr ?_)⟩
    · intro v
      rw [hpc, update_apply]
      split_ifs with hvt
      · rfl
      · exact hlast.2 v hvt
    · rw [State.Waiting, hpc, update_of_ne hut]
      exact hu
    · intro v hv
      rw [(hwait v hv).2]
      exact hall v (hwait v hv).1

/-! ### Where it is not -/

/-- The waiting bit is set under a writer only, and whoever may take a free lock is there. -/
structure Orderly (s : State Task) : Prop extends Inv s where
  marked : 2 ^ 31 ≤ s.state.toNat → ∃ u, s.pc u = .writing
  ready : s.Free → (∃ t, s.Waiting t) → ∃ t, s.Waiting t ∧ s.pc t ≠ .writeMark

omit [DecidableEq Task] in
theorem Orderly.state_eq_zero (h : Orderly s) (hfree : s.Free) : s.state = 0 := by
  have hr : s.readers = 0 := by
    refine census_eq_zero.mpr fun t => ?_
    have := hfree t
    cases ht : s.pc t <;> simp_all [Pc.holds, Pc.readers]
  have hw : s.writers = 0 := by
    refine census_eq_zero.mpr fun t => ?_
    have := hfree t
    cases ht : s.pc t <;> simp_all [Pc.holds, Pc.writers]
  have hnot : s.state.toNat < 2 ^ 31 := by
    by_contra hge
    obtain ⟨u, hu⟩ := h.marked (by omega)
    have := hfree u
    rw [hu] at this
    cases this
  have hword := h.word
  apply BitVec.eq_of_toNat_eq
  show s.state.toNat = 0
  omega

omit [DecidableEq Task] in
theorem orderly_init : Orderly (init : State Task) where
  toInv := inv_init
  marked h := by
    have hzero : (init : State Task).state.toNat = 0 := rfl
    omega
  ready _ h := by
    obtain ⟨t, ht⟩ := h
    cases ht

theorem Orderly.not_wedged (h : Orderly s) : ¬Wedged s := by
  rintro ⟨hfree, hwait, hstuck⟩
  obtain ⟨t, ht, hne⟩ := h.ready hfree hwait
  obtain ⟨s', hreach, hholds⟩ := acquires (h.state_eq_zero hfree) ht hne
  have := hstuck s' hreach t
  rw [hholds] at this
  cases this

theorem Moves.marked (h : Moves w pc w' pc') (hw' : 2 ^ 31 ≤ w'.toNat)
    (hplain : ∀ v, pc = .readCas v → v.toNat < 2 ^ 30) (hread : pc = .reading → 0 < w.toNat) :
    pc = .writeMark ∨ 2 ^ 31 ≤ w.toNat ∧ pc ≠ .writing := by
  cases h with
  | readLock | writeLock | readLoad | readSpin | readRetry | writeLoad | writeFull | writeSpin
  | writeRetry => exact .inr ⟨hw', by simp⟩
  | readCas =>
    have hv := hplain w rfl
    have hadd : (w + 1).toNat = w.toNat + 1 := by bv_omega
    omega
  | readUnlock =>
    have hpos := hread rfl
    have hsub : (w - 1).toNat = w.toNat - 1 := by bv_omega
    exact .inr ⟨by omega, by simp⟩
  | writeCas =>
    have hlocked : writeLocked.toNat = 2 ^ 30 := by decide
    omega
  | writeMark => exact .inl rfl
  | writeUnlock =>
    have hzero : (0 : BitVec 32).toNat = 0 := rfl
    omega

theorem Moves.ready (h : Moves w pc w' pc') :
    pc'.holds = true ∨ pc'.waits = true ∧ pc' ≠ .writeMark ∨ pc.holds = true ∧ pc' = .idle ∨
      pc.holds = false ∧ w ≠ 0 := by
  cases h with
  | readCas | writeCas => exact .inl rfl
  | readLock | writeLock | readLoad | readSpin | readRetry | writeLoad | writeSpin | writeRetry
  | writeMark => exact .inr (.inl ⟨rfl, by simp⟩)
  | readUnlock | writeUnlock => exact .inr (.inr (.inl ⟨rfl, rfl⟩))
  | writeFull _ hne => exact .inr (.inr (.inr ⟨rfl, hne⟩))

omit [DecidableEq Task] in
theorem Inv.pos_of_reading (h : Inv s) (ht : s.pc t = .reading) : 0 < s.state.toNat := by
  have hle : (s.pc t).readers ≤ s.readers := le_census t
  have hword := h.word
  rw [ht] at hle
  simp only [Pc.readers, if_true] at hle
  omega

theorem Orderly.step {a : Task × Move} (h : Orderly s) (hC : Timely s a)
    (hs : step s a = some s') : Orderly s' := by
  obtain ⟨t, move⟩ := a
  obtain ⟨pc', hmove, hpc⟩ := step_moves hs
  have hself : s'.pc t = pc' := by rw [hpc, update_self]
  have hother : ∀ u, u ≠ t → s'.pc u = s.pc u := fun u hu => by rw [hpc, update_of_ne hu]
  refine ⟨h.toInv.step hs, ?_, ?_⟩
  · intro hm
    have hkeep : (∃ u, s.pc u = .writing) → s.pc t ≠ .writing → ∃ u, s'.pc u = .writing := by
      rintro ⟨u, hu⟩ hne
      refine ⟨u, ?_⟩
      rw [hother u fun hut => hne (hut ▸ hu), hu]
    rcases hmove.marked hm (h.plain t) h.toInv.pos_of_reading with hmark | ⟨hw, hne⟩
    · exact hkeep (hC.1 hmark) (by rw [hmark]; decide)
    · exact hkeep (h.marked hw) hne
  · rintro hfree ⟨v, hv⟩
    have hfreet := hfree t
    rw [hself] at hfreet
    rcases hmove.ready with hholds | ⟨hwait, hne⟩ | ⟨hheld, rfl⟩ | ⟨hnot, hne⟩
    · rw [hholds] at hfreet
      cases hfreet
    · exact ⟨t, by rw [State.Waiting, hself]; exact hwait, by rw [hself]; exact hne⟩
    · -- the last holder goes
      have hvt : v ≠ t := by
        rintro rfl
        rw [State.Waiting, hself] at hv
        cases hv
      rw [State.Waiting, hother v hvt] at hv
      have hlast : s.Last t := ⟨hheld, fun u hu => by rw [← hother u hu]; exact hfree u⟩
      obtain ⟨u, hu, hne⟩ := hC.2 hlast ⟨v, hv⟩
      have hut : u ≠ t := by
        rintro rfl
        rw [Pc.holds_of_waits hu] at hheld
        cases hheld
      exact ⟨u, by rw [State.Waiting, hother u hut]; exact hu, by rw [hother u hut]; exact hne⟩
    · refine absurd (h.state_eq_zero ?_) hne
      intro u
      by_cases hut : u = t
      · rw [hut]
        exact hnot
      · rw [← hother u hut]
        exact hfree u

/-- In a run whose steps are all timely the lock is never lost; after any other step of any run
it may be. -/
theorem rwlock_not_wedged :
    (∀ s : State Task, Reach step Timely init s → ¬Wedged s) ∧
    ∀ (s s' : State Task) (a : Task × Move), Reach step Any init s →
      step s a = some s' → ¬Timely s a → ∃ s'', Reach step Any s' s'' ∧
        Wedged s'' := by
  refine ⟨?_, ?_⟩
  · intro s h
    have horderly : Orderly s := h.invariant orderly_init fun _ _ _ hi ha hs => hi.step ha hs
    exact horderly.not_wedged
  · intro s s' a h hs hnot
    exact wedges_of_not_timely (inv_of_reach h) hs hnot

/-- A writer waits while another writes, and is waiting still when the lock is free. -/
theorem rwlock_not_wedged_two : ∃ s : State (Fin 2), Reach step Timely init s ∧
    s.pc 0 = .idle ∧ s.pc 1 = .writeLoad ∧ ¬Wedged s := by
  have hrun : ∃ s : State (Fin 2), Reach step Timely init s ∧
      s.pc 0 = .idle ∧ s.pc 1 = .writeLoad :=
    exists_reach (fun s a => decide (Timely s a)) (fun _ _ h => of_decide_eq_true h)
      [(0, .writeLock), (0, .go false), (0, .go false), (1, .writeLock), (1, .go false),
        (1, .go false), (0, .go false)]
      (by decide +kernel)
  obtain ⟨s, hs, h0, h1⟩ := hrun
  exact ⟨s, hs, h0, h1, rwlock_not_wedged.1 s hs⟩

/-- A writer comes while a task reads. When the reader goes, the waiting bit is left. -/
theorem waiting_writer_wedges : ∃ s : State (Fin 2), Reach step Any init s ∧ Wedged s := by
  have hrun : ∃ s : State (Fin 2), Reach step Any init s ∧
      s.pc 0 = .idle ∧ s.pc 1 = .writeLoad ∧ s.state = writeWaiting :=
    exists_reach_any
      [(0, .readLock), (0, .go false), (0, .go false), (1, .writeLock), (1, .go false),
        (1, .go false), (0, .go false)]
      (by decide +kernel)
  obtain ⟨s, hs, h0, h1, hw⟩ := hrun
  refine ⟨s, hs, wedged_of_marked (inv_of_reach hs) ?_ ⟨1, ?_⟩ (.inl ?_)⟩
  · intro t
    match t with
    | 0 => rw [h0]; rfl
    | 1 => rw [h1]; rfl
  · rw [State.Waiting, h1]
    rfl
  · rw [hw]
    decide

end Wedge

end ShiziOS.Sync.Rwlock
