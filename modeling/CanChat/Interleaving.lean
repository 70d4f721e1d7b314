/-
CanChat/Interleaving.lean

Programs whose atomic actions interleave, and what a thread may conclude about
a state the others keep changing.

Design.  A `Program` is a tree: an action on the shared state, the rest
depending on the state the action found, and the operations on mutexes
between.  `exec` is its meaning without interference; `system` lets any number
of threads take turns.  Rely and guarantee are one `Contract`: what the others
leave alone depends on the mutexes a thread holds (`Rely`), and an action may
be taken in the state `s` by a thread that left the state as `s₀` with its
previous one (`Allowed`).  A program that `Meets` the contract on its own
keeps to it in every interleaving (`sound`).

Nothing here mentions the program; the chat server's threads are an instance.
-/
import CanChat.Transition
import Mathlib

namespace Interleaving

/-- A thread's program over actions `ι`, mutexes `μ` and shared states `σ`. -/
inductive Program (ι μ σ α : Type)
  | pure (a : α)
  /-- the rest depends on the state the action finds -/
  | act (i : ι) (next : σ → Program ι μ σ α)
  | lock (m : μ) (next : Program ι μ σ α)
  | unlock (m : μ) (next : Program ι μ σ α)

namespace Program

variable {ι μ σ α β : Type}

/-- One program after another. -/
protected def bind (k : α → Program ι μ σ β) : Program ι μ σ α → Program ι μ σ β
  | .pure a => k a
  | .act i next => .act i fun s => (next s).bind k
  | .lock m next => .lock m (next.bind k)
  | .unlock m next => .unlock m (next.bind k)

instance : Monad (Program ι μ σ) where
  pure := .pure
  bind x k := x.bind k

/-- A `lock_guard` around `x`. -/
def guarded (m : μ) (x : Program ι μ σ α) : Program ι μ σ α :=
  .lock m (x.bind fun a => .unlock m (.pure a))

/-! ### Without interference -/

/-- The program run alone; mutexes do not matter then. -/
def exec (perform : ι → σ → σ) : Program ι μ σ α → σ → α × σ
  | .pure a, s => (a, s)
  | .act i next, s => (next s).exec perform (perform i s)
  | .lock _ next, s => next.exec perform s
  | .unlock _ next, s => next.exec perform s

/-- Run alone, the second program starts where the first one ended. -/
theorem exec_bind (perform : ι → σ → σ) (x : Program ι μ σ α) (k : α → Program ι μ σ β) (s : σ) :
    (x.bind k).exec perform s = (k (x.exec perform s).1).exec perform (x.exec perform s).2 := by
  induction x generalizing s with
  | pure a => rfl
  | act i next ih => exact ih s (perform i s)
  | lock m next ih => exact ih s
  | unlock m next ih => exact ih s

/-- Run alone, a guarded program does what it does without its mutex. -/
theorem exec_guarded (perform : ι → σ → σ) (m : μ) (x : Program ι μ σ α) (s : σ) :
    (guarded m x).exec perform s = x.exec perform s :=
  exec_bind perform x _ s

end Program

/-! ### Threads -/

/-- What a scheduler can do: let an idle thread start an operation, or let a
thread take its next step. -/
inductive Act (τ ω : Type)
  | start (t : τ) (o : ω)
  | run (t : τ)

/-- The shared state, what is left of each thread's program, and the owners of
the mutexes. -/
structure State (ι μ σ τ : Type) where
  shared : σ
  threads : τ → Program ι μ σ Unit := fun _ => .pure ()
  owner : μ → Option τ := fun _ => none

section Step

variable {ι μ σ τ ω : Type} [DecidableEq μ] [DecidableEq τ] (perform : ι → σ → σ)
  (program : ω → Program ι μ σ Unit)

/-- A thread that is idle starts a program; a running one makes its next access,
or takes or releases a mutex. -/
def step (s : State ι μ σ τ) : Act τ ω → Option (State ι μ σ τ)
  | .start t o =>
      match s.threads t with
      | .pure _ => some { s with threads := Function.update s.threads t (program o) }
      | _ => none
  | .run t =>
      match s.threads t with
      | .pure _ => none
      | .act i next => some { s with
          shared := perform i s.shared
          threads := Function.update s.threads t (next s.shared) }
      | .lock m next =>
          if s.owner m = none then
            some { s with
              threads := Function.update s.threads t next
              owner := Function.update s.owner m (some t) }
          else
            none
      | .unlock m next =>
          if s.owner m = some t then
            some { s with
              threads := Function.update s.threads t next
              owner := Function.update s.owner m none }
          else
            none

/-- All threads idle, all mutexes free. -/
def system (init : σ → Prop) : Transition.System (State ι μ σ τ) (Act τ ω) where
  init s := ∃ shared, init shared ∧ s = { shared }
  step := step perform program

variable {perform program} {s s' : State ι μ σ τ} {t : τ}

theorem step_start {o : ω} (h : step perform program s (.start t o) = some s') :
    s' = { s with threads := Function.update s.threads t (program o) } := by
  unfold step at h
  dsimp only at h
  split at h
  · exact (Option.some.inj h).symm
  · cases h

/-- What a thread's step can be. -/
theorem step_run (h : step perform program s (.run t) = some s') :
    (∃ i next, s.threads t = .act i next ∧ s' = { s with
      shared := perform i s.shared
      threads := Function.update s.threads t (next s.shared) }) ∨
    (∃ m next, s.threads t = .lock m next ∧ s.owner m = none ∧ s' = { s with
      threads := Function.update s.threads t next
      owner := Function.update s.owner m (some t) }) ∨
    ∃ m next, s.threads t = .unlock m next ∧ s.owner m = some t ∧ s' = { s with
      threads := Function.update s.threads t next
      owner := Function.update s.owner m none } := by
  unfold step at h
  dsimp only at h
  split at h
  · cases h
  · next i next ht => exact .inl ⟨i, next, ht, (Option.some.inj h).symm⟩
  · next m next ht =>
    split at h
    · next hm => exact .inr (.inl ⟨m, next, ht, hm, (Option.some.inj h).symm⟩)
    · cases h
  · next m next ht =>
    split at h
    · next hm => exact .inr (.inr ⟨m, next, ht, hm, (Option.some.inj h).symm⟩)
    · cases h

end Step

/-! ### Mutual exclusion -/

namespace State

variable {ι μ σ τ : Type}

/-- The mutexes `t` holds. -/
def held (s : State ι μ σ τ) (t : τ) : Set μ := {m | s.owner m = some t}

/-- Two threads hold no mutex together. -/
theorem disjoint_held (s : State ι μ σ τ) {t u : τ} (h : t ≠ u) : Disjoint (s.held t) (s.held u) :=
  Set.disjoint_left.mpr fun _ ht hu => h (Option.some.inj (ht.symm.trans hu))

variable [DecidableEq μ] {s : State ι μ σ τ} {t u : τ} {m : μ}

/-- The thread that locks holds one mutex more, -/
theorem held_lock_self (threads : τ → Program ι μ σ Unit) :
    held { s with threads, owner := Function.update s.owner m (some t) } t =
      insert m (s.held t) := by
  ext k
  rcases eq_or_ne k m with rfl | hk
  · simp [held]
  · simp [held, hk]

/-- and the others hold what they held. -/
theorem held_lock_of_ne (hm : s.owner m = none) (h : u ≠ t) (threads : τ → Program ι μ σ Unit) :
    held { s with threads, owner := Function.update s.owner m (some t) } u = s.held u := by
  ext k
  rcases eq_or_ne k m with rfl | hk
  · simp [held, hm, h.symm]
  · simp [held, hk]

/-- The thread that unlocks holds one mutex less, -/
theorem held_unlock_self (threads : τ → Program ι μ σ Unit) :
    held { s with threads, owner := Function.update s.owner m none } t = s.held t \ {m} := by
  ext k
  rcases eq_or_ne k m with rfl | hk
  · simp [held]
  · simp [held, hk]

/-- and the others hold what they held. -/
theorem held_unlock_of_ne (hm : s.owner m = some t) (h : u ≠ t)
    (threads : τ → Program ι μ σ Unit) :
    held { s with threads, owner := Function.update s.owner m none } u = s.held u := by
  ext k
  rcases eq_or_ne k m with rfl | hk
  · simp [held, hm, h.symm]
  · simp [held, hk]

end State

/-! ### Rely and guarantee -/

/-- An invariant of the shared state, what a thread may rely on while it holds
mutexes, and what it may do to the shared state in return. -/
structure Contract (ι μ σ : Type) where
  perform : ι → σ → σ
  /-- holds of the shared state at all times -/
  Invariant : σ → Prop
  /-- what the others may make of a state while a thread holds these mutexes -/
  Rely : Set μ → σ → σ → Prop
  /-- a thread holding these mutexes may take the action in the second state,
  having left the first -/
  Allowed : Set μ → ι → σ → σ → Prop
  rely_refl : ∀ H s, Rely H s s
  rely_trans : ∀ H s t u, Rely H s t → Rely H t u → Rely H s u
  invariant_of_allowed : ∀ H i s₀ s, Invariant s → Allowed H i s₀ s → Invariant (perform i s)
  rely_of_allowed : ∀ H K i s₀ s, Disjoint H K → Allowed H i s₀ s → Rely K s (perform i s)

namespace Contract

variable {ι μ σ α β : Type} (C : Contract ι μ σ)

/-- Started with these mutexes in a thread that left the state as `s₀`, the
program takes allowed actions only, and what it returns satisfies `Q`. -/
def Meets : Set μ → σ → Program ι μ σ α → (Set μ → σ → α → Prop) → Prop
  | H, s₀, .pure a, Q => Q H s₀ a
  | H, s₀, .act i next, Q => ∀ s, C.Invariant s → C.Rely H s₀ s →
      C.Allowed H i s₀ s ∧ Meets H (C.perform i s) (next s) Q
  | H, s₀, .lock m next, Q => ∀ s, C.Invariant s → C.Rely H s₀ s → Meets (insert m H) s next Q
  | H, s₀, .unlock m next, Q => ∀ s, C.Invariant s → C.Rely H s₀ s → Meets (H \ {m}) s next Q

variable {C} {Q : Set μ → σ → α → Prop} {R : Set μ → σ → β → Prop}

/-- The second program may start wherever the first one may end. -/
theorem Meets.bind {x : Program ι μ σ α} {k : α → Program ι μ σ β} {H : Set μ} {s₀ : σ}
    (hx : C.Meets H s₀ x Q) (hk : ∀ H s a, Q H s a → C.Meets H s (k a) R) :
    C.Meets H s₀ (x.bind k) R := by
  induction x generalizing H s₀ with
  | pure a => exact hk H s₀ a hx
  | act i next ih => exact fun s hs hrely => ⟨(hx s hs hrely).1, ih s (hx s hs hrely).2⟩
  | lock m next ih => exact fun s hs hrely => ih (hx s hs hrely)
  | unlock m next ih => exact fun s hs hrely => ih (hx s hs hrely)

/-- Under a mutex the invariant holds at the start. -/
theorem Meets.guarded {x : Program ι μ σ α} {m : μ} {H : Set μ} {s₀ : σ}
    (hx : ∀ s, C.Invariant s → C.Meets (insert m H) s x fun _ _ _ => True) :
    C.Meets H s₀ (x.guarded m) fun _ _ _ => True :=
  fun s hs _ => (hx s hs).bind fun _ _ _ _ _ _ _ => trivial

/-! ### In every interleaving -/

variable {τ ω : Type} (C)

/-- Every thread has met its contract so far and will go on to: `s₀` is the
state as the thread left it. -/
structure Sound (s : State ι μ σ τ) : Prop where
  invariant : C.Invariant s.shared
  threads : ∀ t, ∃ s₀, C.Rely (s.held t) s₀ s.shared ∧
    C.Meets (s.held t) s₀ (s.threads t) fun _ _ _ => True

variable {C} [DecidableEq μ] [DecidableEq τ] {program : ω → Program ι μ σ Unit}
  {s s' : State ι μ σ τ} {t : τ}

omit [DecidableEq μ] [DecidableEq τ] in
/-- The next action of a thread is allowed where it will be taken. -/
theorem Sound.allowed (h : C.Sound s) {i : ι} {next : σ → Program ι μ σ Unit}
    (ht : s.threads t = .act i next) :
    ∃ s₀, C.Rely (s.held t) s₀ s.shared ∧ C.Allowed (s.held t) i s₀ s.shared := by
  obtain ⟨s₀, hrely, hmeets⟩ := h.threads t
  rw [ht] at hmeets
  exact ⟨s₀, hrely, (hmeets s.shared h.invariant hrely).1⟩

/-- Starting a program that meets the contract. -/
theorem Sound.start (h : C.Sound s) {o : ω}
    (hprogram : ∀ H s, C.Meets H s (program o) fun _ _ _ => True)
    (hstep : step C.perform program s (.start t o) = some s') : C.Sound s' := by
  obtain rfl := step_start hstep
  refine ⟨h.invariant, fun u => ?_⟩
  rcases eq_or_ne u t with rfl | hne
  · refine ⟨s.shared, C.rely_refl _ _, ?_⟩
    show C.Meets _ _ (Function.update s.threads u (program o) u) _
    rw [Function.update_self]
    exact hprogram _ _
  · show ∃ s₀, _ ∧ C.Meets _ _ (Function.update s.threads t (program o) u) _
    rw [Function.update_of_ne hne]
    exact h.threads u

/-- A thread knows the state it leaves. -/
theorem Sound.meets_run (h : C.Sound s) (hstep : step C.perform program s (.run t) = some s') :
    C.Meets (s'.held t) s'.shared (s'.threads t) fun _ _ _ => True := by
  obtain ⟨s₀, hrely, hmeets⟩ := h.threads t
  rcases step_run hstep with
    ⟨i, next, ht, rfl⟩ | ⟨m, next, ht, -, rfl⟩ | ⟨m, next, ht, -, rfl⟩
  · rw [ht] at hmeets
    dsimp only
    rw [Function.update_self]
    exact (hmeets s.shared h.invariant hrely).2
  · rw [ht] at hmeets
    rw [State.held_lock_self]
    dsimp only
    rw [Function.update_self]
    exact hmeets s.shared h.invariant hrely
  · rw [ht] at hmeets
    rw [State.held_unlock_self]
    dsimp only
    rw [Function.update_self]
    exact hmeets s.shared h.invariant hrely

/-- What the other threads see of a step. -/
theorem Sound.others_run (h : C.Sound s) (hstep : step C.perform program s (.run t) = some s')
    {u : τ} (hu : u ≠ t) : s'.threads u = s.threads u ∧ s'.held u = s.held u ∧
      C.Rely (s.held u) s.shared s'.shared := by
  rcases step_run hstep with
    ⟨i, next, ht, rfl⟩ | ⟨m, next, -, hm, rfl⟩ | ⟨m, next, -, hm, rfl⟩
  · obtain ⟨s₀, -, hallowed⟩ := h.allowed ht
    exact ⟨Function.update_of_ne hu _ _, rfl,
      C.rely_of_allowed _ _ i s₀ _ (s.disjoint_held hu.symm) hallowed⟩
  · exact ⟨Function.update_of_ne hu _ _, State.held_lock_of_ne hm hu _, C.rely_refl _ _⟩
  · exact ⟨Function.update_of_ne hu _ _, State.held_unlock_of_ne hm hu _, C.rely_refl _ _⟩

/-- One step of a thread; the others' reliance survives it. -/
theorem Sound.run (h : C.Sound s) (hstep : step C.perform program s (.run t) = some s') :
    C.Sound s' := by
  refine ⟨?_, fun u => ?_⟩
  · rcases step_run hstep with ⟨i, next, ht, rfl⟩ | ⟨m, next, -, -, rfl⟩ | ⟨m, next, -, -, rfl⟩
    · obtain ⟨s₀, -, hallowed⟩ := h.allowed ht
      exact C.invariant_of_allowed _ i s₀ _ h.invariant hallowed
    · exact h.invariant
    · exact h.invariant
  · rcases eq_or_ne u t with rfl | hne
    · exact ⟨s'.shared, C.rely_refl _ _, h.meets_run hstep⟩
    · obtain ⟨hthreads, hheld, hstable⟩ := h.others_run hstep hne
      obtain ⟨s₀, hrely, hmeets⟩ := h.threads u
      rw [hthreads, hheld]
      exact ⟨s₀, C.rely_trans _ _ _ _ hrely hstable, hmeets⟩

/-- **Programs that meet the contract keep to it in every interleaving.** -/
theorem sound {init : σ → Prop} (hinit : ∀ s, init s → C.Invariant s)
    (hprogram : ∀ o H s, C.Meets H s (program o) fun _ _ _ => True)
    (hs : (system C.perform program init).Reachable s) : C.Sound s := by
  refine hs.invariant ?_ ?_
  · rintro _ ⟨shared, hshared, rfl⟩
    exact ⟨hinit shared hshared, fun t => ⟨shared, C.rely_refl _ _, trivial⟩⟩
  · rintro s (⟨t, o⟩ | t) s' h hstep
    · exact h.start (hprogram o) hstep
    · have hrun : step C.perform program s (.run t) = some s' := hstep
      exact h.run hrun

end Contract

end Interleaving
