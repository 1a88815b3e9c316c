import Mathlib.Tactic

/-!
# Programs that change a state and may get stuck

A program takes a state to a value and a new state, or to nothing: it has crashed or does
not come back. `Spec x s Q` says that whatever `x` gives from `s` meets `Q`. The rules
take a program apart; a loop or a function is used through its own `Spec`.
-/

abbrev Exec (σ : Type) : Type → Type := StateT σ Option

namespace Exec

open Option

variable {σ α β : Type} {x : Exec σ α} {f : α → Exec σ β} {s s' s1 : σ} {a : α} {b : β}
  {Q Q' : α → σ → Prop}

def stuck : Exec σ α := fun _ => none

def ofOption : Option α → Exec σ α
  | some a => pure a
  | none => stuck

def Spec (x : Exec σ α) (s : σ) (Q : α → σ → Prop) : Prop :=
  ∀ a s', x s = some (a, s') → Q a s'

theorem bind_apply (x : Exec σ α) (f : α → Exec σ β) (s : σ) :
    (x >>= f) s = (x s).bind fun r => f r.1 r.2 := rfl

theorem bind_eq_some {r : β × σ} :
    (x >>= f) s = some r ↔ ∃ a s', x s = some (a, s') ∧ f a s' = some r := by
  rw [bind_apply, bind_eq_some_iff]
  exact ⟨fun ⟨⟨a, s'⟩, h, h'⟩ => ⟨a, s', h, h'⟩, fun ⟨a, s', h, h'⟩ => ⟨(a, s'), h, h'⟩⟩

/-- The state that a run leaves. -/
def after (x : Exec σ α) (s : σ) : σ := ((x s).map Prod.snd).getD s

theorem run_after (ha : (x s).map Prod.fst = some a) : x s = some (a, after x s) := by
  obtain ⟨⟨b, s'⟩, hx, rfl⟩ := map_eq_some_iff.mp ha
  simp only [after, hx, map_some, getD_some]

theorem Spec.mono (h : Spec x s Q) (hQ : ∀ a s', Q a s' → Q' a s') : Spec x s Q' :=
  fun a s' hx => hQ a s' (h a s' hx)

theorem Spec.and (h : Spec x s Q) (h' : Spec x s Q') : Spec x s fun a s' => Q a s' ∧ Q' a s' :=
  fun a s' hx => ⟨h a s' hx, h' a s' hx⟩

theorem spec_pure (h : Q a s) : Spec (pure a) s Q := by
  intro b s' hb
  obtain ⟨rfl, rfl⟩ := Prod.mk.inj (some.inj hb)
  exact h

/-- The rule for `do`: the rest is looked at from where the first program leads. -/
theorem spec_bind {Q : β → σ → Prop} (h : Spec x s fun a s' => Spec (f a) s' Q) :
    Spec (x >>= f) s Q := by
  intro b s'' hb
  obtain ⟨a, s', hx, hf⟩ := bind_eq_some.mp hb
  exact h a s' hx b s'' hf

theorem Spec.bind {R : β → σ → Prop} (h : Spec x s Q) (hf : ∀ a s', Q a s' → Spec (f a) s' R) :
    Spec (x >>= f) s R :=
  spec_bind (h.mono hf)

theorem spec_get {f : σ → Exec σ β} {Q : β → σ → Prop} (h : Spec (f s) s Q) :
    Spec (get >>= f) s Q :=
  h

theorem spec_modify {Q : Unit → σ → Prop} {g : σ → σ} (h : Q () (g s)) : Spec (modify g) s Q := by
  intro a s' ha
  obtain ⟨-, rfl⟩ := Prod.mk.inj (some.inj ha)
  exact h

theorem spec_stuck : Spec (stuck : Exec σ α) s Q := by
  intro a s' ha
  cases ha

theorem spec_ofOption {o : Option α} (h : ∀ a, o = some a → Q a s) : Spec (ofOption o) s Q := by
  cases o with
  | none => exact spec_stuck
  | some a => exact spec_pure (h a rfl)

/-- The two cases of a call that may give nothing. -/
theorem unless_none {P : Option α → Prop} (hnone : P none) (hsome : ∀ a, P (some a)) : ∀ o, P o
  | none => hnone
  | some a => hsome a

theorem unless_error {ε : Type} {P : Except ε α → Prop} (herror : ∀ e, P (.error e))
    (hok : ∀ a, P (.ok a)) : ∀ r, P r
  | .error e => herror e
  | .ok a => hok a

/-! ## What a program leaves as it was -/

/-- The state at the end is related to the one at the start. -/
def Keeps (R : σ → σ → Prop) (x : Exec σ α) : Prop := ∀ s, Spec x s fun _ s' => R s s'

theorem keeps_stuck {R : σ → σ → Prop} : Keeps R (stuck : Exec σ α) := fun _ => spec_stuck

section Keeps

variable {R : σ → σ → Prop} [IsPreorder σ R]

theorem keeps_pure (a : α) : Keeps R (pure a) := fun s => spec_pure (refl_of R s)

theorem keeps_get : Keeps R (get : Exec σ σ) := fun s => spec_pure (a := s) (refl_of R s)

theorem keeps_ofOption (o : Option α) : Keeps R (ofOption o) :=
  fun s => spec_ofOption fun _ _ => refl_of R s

/-- What each step keeps, their sequence keeps. -/
theorem keeps_bind (hx : Keeps R x) (hf : ∀ a, Keeps R (f a)) : Keeps R (x >>= f) := by
  intro s
  refine (hx s).bind ?_
  intro a s' h
  exact (hf a s').mono fun _ s'' h' => trans_of R h h'

theorem Keeps.result {g : α → β} (h : Keeps R x) : Keeps R (x >>= fun a => pure (g a)) :=
  keeps_bind h fun _ => keeps_pure _

theorem Keeps.read {Q : β → σ → Prop} (h : Keeps Eq x) (hf : ∀ a, Spec (f a) s Q) :
    Spec (x >>= f) s Q :=
  (h s).bind fun a _ he => he ▸ hf a

theorem spec_bind_keeps {P : α → σ → Prop} {Q : β → σ → Prop} (hx : Spec x s fun a s' => R s s' ∧
    P a s')
    (hf : ∀ a s', P a s' → Spec (f a) s' fun b s'' => R s' s'' ∧ Q b s'') :
    Spec (x >>= f) s fun b s'' => R s s'' ∧ Q b s'' := by
  refine hx.bind ?_
  intro a s' h
  refine (hf a s' h.2).mono ?_
  intro b s'' h'
  exact ⟨trans_of R h.1 h'.1, h'.2⟩

end Keeps

/-! ## What a program preserves -/

def Preserves (I : σ → Prop) (x : Exec σ α) : Prop := ∀ s, I s → Spec x s fun _ s' => I s'

section Preserves

variable {I : σ → Prop}

theorem preserves_pure (a : α) : Preserves I (pure a) := fun _ h => spec_pure h

theorem preserves_stuck : Preserves I (stuck : Exec σ α) := fun _ _ => spec_stuck

theorem Preserves.bind {R : β → σ → Prop} (h : Preserves I x) (hs : I s)
    (hf : ∀ a s', I s' → Spec (f a) s' R) : Spec (x >>= f) s R :=
  (h s hs).bind hf

/-- An invariant of each step is one of their sequence. -/
theorem preserves_bind (hx : Preserves I x) (hf : ∀ a, Preserves I (f a)) :
    Preserves I (x >>= f) := by
  intro s hs
  apply spec_bind
  exact (hx s hs).mono fun a s' h => hf a s' h

theorem preserves_read (hx : Keeps Eq x) (hf : ∀ a, Preserves I (f a)) : Preserves I (x >>= f) :=
  fun s hs => hx.read fun a => hf a s hs

theorem Preserves.result {g : α → β} (h : Preserves I x) :
    Preserves I (x >>= fun a => pure (g a)) :=
  preserves_bind h fun _ => preserves_pure _

theorem Keeps.preserves {R : σ → σ → Prop} (h : Keeps R x) (hI : ∀ s s', I s → R s s' → I s') :
    Preserves I x :=
  fun s hs => (h s).mono fun _ s' hr => hI s s' hs hr

end Preserves

/-! ## Programs that come to an end -/

/-- The program ends, and what it gives meets `Q`. -/
def Total (x : Exec σ α) (s : σ) (Q : α → σ → Prop) : Prop := ∃ a s', x s = some (a, s') ∧ Q a s'

theorem Total.mono (h : Total x s Q) (hQ : ∀ a s', Q a s' → Q' a s') : Total x s Q' := by
  obtain ⟨a, s', hx, hq⟩ := h
  exact ⟨a, s', hx, hQ a s' hq⟩

theorem Total.spec (h : Total x s Q) : Spec x s Q := by
  obtain ⟨a, s', hx, hq⟩ := h
  intro b s'' hb
  cases hx.symm.trans hb
  exact hq

/-- What comes back also meets every `Spec`. -/
theorem Total.and_spec (h : Total x s Q) (hs : Spec x s Q') :
    Total x s fun a s' => Q a s' ∧ Q' a s' := by
  obtain ⟨a, s', hx, hq⟩ := h
  exact ⟨a, s', hx, hq, hs a s' hx⟩

theorem Total.iff_of {p : Prop} (h : Total x s fun a s' => Q a s' ↔ p) : Total x s Q ↔ p := by
  obtain ⟨a, s', hx, hq⟩ := h
  rw [← hq]
  exact ⟨fun h => h.spec a s' hx, fun h => ⟨a, s', hx, h⟩⟩

theorem Total.eq_some (h : Total x s fun r s' => r = a ∧ s' = s1) : x s = some (a, s1) := by
  obtain ⟨_, _, hx, rfl, rfl⟩ := h
  exact hx

theorem total_pure (h : Q a s) : Total (pure a) s Q := ⟨a, s, rfl, h⟩

theorem total_get {f : σ → Exec σ β} {Q : β → σ → Prop} (h : Total (f s) s Q) :
    Total (get >>= f) s Q :=
  h

theorem total_modify {Q : Unit → σ → Prop} {g : σ → σ} (h : Q () (g s)) : Total (modify g) s Q :=
  ⟨(), g s, rfl, h⟩

theorem total_ofOption {o : Option α} (ho : o = some a) (h : Q a s) : Total (ofOption o) s Q := by
  subst ho
  exact total_pure h

/-- A sequence comes back if each step does. -/
theorem total_bind {Q : β → σ → Prop} (h : Total x s fun a s' => Total (f a) s' Q) :
    Total (x >>= f) s Q := by
  obtain ⟨a, s', hx, b, s'', hf, hq⟩ := h
  exact ⟨b, s'', bind_eq_some.mpr ⟨a, s', hx, hf⟩, hq⟩

theorem Total.bind {R : β → σ → Prop} (h : Total x s Q) (hf : ∀ a s', Q a s' → Total (f a) s' R) :
    Total (x >>= f) s R :=
  total_bind (h.mono hf)

theorem bind_eq_none (h : Total x s fun a s' => f a s' = none) : (x >>= f) s = none := by
  obtain ⟨a, s', hx, hf⟩ := h
  rw [bind_apply, hx]
  exact hf

theorem bind_eq_none_left (h : x s = none) : (x >>= f) s = none := by
  rw [bind_apply, h]
  rfl

/-! ## Programs that run alike -/

/-- From every state both get stuck, or both end in one state with values that `R` relates. -/
def Sim (R : α → β → Prop) (x : Exec σ α) (y : Exec σ β) : Prop :=
  ∀ s, Option.Rel (fun r r' => R r.1 r'.1 ∧ r.2 = r'.2) (x s) (y s)

theorem sim_pure {R : α → β → Prop} (h : R a b) : Sim (σ := σ) R (pure a) (pure b) :=
  fun _ => .some ⟨h, rfl⟩

theorem sim_self {R : α → α → Prop} (h : ∀ a, R a a) : Sim R x x := by
  intro s
  cases hx : x s with
  | none => exact .none
  | some r => exact .some ⟨h r.1, rfl⟩

/-- Programs whose steps give related values give related values. -/
theorem sim_bind {γ δ : Type} {R : α → β → Prop} {S : γ → δ → Prop} {y : Exec σ β}
    {f : α → Exec σ γ} {g : β → Exec σ δ} (h : Sim R x y) (hf : ∀ a b, R a b → Sim S (f a) (g b)) :
    Sim S (x >>= f) (y >>= g) := by
  intro s
  rw [bind_apply, bind_apply]
  have hs := h s
  generalize x s = r at hs ⊢
  generalize y s = r' at hs ⊢
  cases hs with
  | none => exact .none
  | @some r r' hr =>
    obtain ⟨a, s1⟩ := r
    obtain ⟨b, s2⟩ := r'
    obtain ⟨hr, rfl⟩ := hr
    exact hf a b hr s1

theorem sim_next {γ : Type} {S : β → γ → Prop} {g : α → Exec σ γ} (h : ∀ a, Sim S (f a) (g a)) :
    Sim S (x >>= f) (x >>= g) :=
  sim_bind (sim_self fun _ => rfl) fun a _ he => he ▸ h a

/-- Programs that give the same values are equal. -/
theorem eq_of_sim {y : Exec σ α} (h : Sim Eq x y) : x = y := by
  funext s
  have hs := h s
  generalize x s = r at hs ⊢
  generalize y s = r' at hs ⊢
  cases hs with
  | none => rfl
  | some hr => rw [Prod.ext hr.1 hr.2]

end Exec
