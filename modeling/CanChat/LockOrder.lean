/-
CanChat/LockOrder.lean

Threads that acquire and release mutexes, and the lock-order argument for the
absence of deadlock.

Design.  A thread is the list of mutexes it holds and the list of operations
it has still to perform; an idle thread may start any of the given programs.
A *discipline* `P held m` says which mutex may be acquired while which are
held; `Follows P` checks it along a program, together with proper bracketing.
What the programs follow, the threads of every reachable state follow
(`Reachable.follows`).

The deadlock argument is stated for one state and one cycle
(`not_deadlocked_of_ordered`): it asks for the order only of the threads on a
cycle.  A system with a few acquisitions against the order can thus still use
it, by showing that no thread on a cycle is about to make one.
-/
import CanChat.Transition
import Mathlib.Order.Basic
import Mathlib.Data.List.Nodup
import Mathlib.Logic.Function.Basic

namespace LockOrder

/-- One operation on a mutex. -/
inductive LockOp (M : Type*)
  | acquire (m : M)
  | release (m : M)
  deriving DecidableEq

structure Thread (M : Type*) where
  held : List M := []
  todo : List (LockOp M) := []
  deriving DecidableEq

structure State (M τ : Type*) where
  threads : τ → Thread M
  owner : M → Option τ

/-- What a scheduler can do: let an idle thread start a program, or let a
thread perform its next operation. -/
inductive Act (τ O : Type*)
  | start (t : τ) (o : O)
  | run (t : τ)

variable {M τ O : Type*}

/-! ### Waiting -/

/-- The next operation of the thread acquires `m`. -/
def Thread.Wants (t : Thread M) (m : M) : Prop := ∃ rest, t.todo = .acquire m :: rest

theorem Thread.Wants.unique {t : Thread M} {m m' : M} (h : t.Wants m) (h' : t.Wants m') :
    m = m' := by
  obtain ⟨rest, e⟩ := h
  obtain ⟨rest', e'⟩ := h'
  rw [e] at e'
  simp only [List.cons.injEq, LockOp.acquire.injEq] at e'
  exact e'.1

/-- `t` waits for a mutex that `u` holds. -/
def WaitsFor (s : State M τ) (t u : τ) : Prop :=
  ∃ m, (s.threads t).Wants m ∧ s.owner m = some u

/-- Some threads wait for each other in a cycle. -/
def Deadlocked (s : State M τ) : Prop := ∃ t, Relation.TransGen (WaitsFor s) t t

/-! ### Steps -/

section Step

variable [DecidableEq M] [DecidableEq τ] (program : O → List (LockOp M))

/-- The thread after its next operation. -/
def Thread.next (t : Thread M) : Thread M :=
  match t.todo with
  | [] => t
  | .acquire m :: rest => ⟨m :: t.held, rest⟩
  | .release m :: rest => ⟨t.held.erase m, rest⟩

def step (s : State M τ) : Act τ O → Option (State M τ)
  | .start t o =>
      if (s.threads t).todo = [] then
        some { s with threads := Function.update s.threads t ⟨(s.threads t).held, program o⟩ }
      else
        none
  | .run t =>
      match (s.threads t).todo with
      | [] => none
      | .acquire m :: _ =>
          if s.owner m = none then
            some ⟨Function.update s.threads t (s.threads t).next,
              Function.update s.owner m (some t)⟩
          else
            none
      | .release m :: _ =>
          some ⟨Function.update s.threads t (s.threads t).next, Function.update s.owner m none⟩

/-- All threads idle, all mutexes free. -/
def system : Transition.System (State M τ) (Act τ O) where
  init s := s = ⟨fun _ => {}, fun _ => none⟩
  step := step program

end Step

section StepCases

variable [DecidableEq M] [DecidableEq τ] {program : O → List (LockOp M)}

/-- All a start can do. -/
theorem step_start {s s' : State M τ} {t : τ} {o : O}
    (h : (system program).step s (.start t o) = some s') :
    (s.threads t).todo = [] ∧ s'.owner = s.owner ∧
      s'.threads = Function.update s.threads t ⟨(s.threads t).held, program o⟩ := by
  simp only [system, step, Option.ite_none_right_eq_some, Option.some.injEq] at h
  obtain ⟨hidle, rfl⟩ := h
  exact ⟨hidle, rfl, rfl⟩

/-- All a run can do: the thread takes a free mutex, or gives one back. -/
theorem step_run {s s' : State M τ} {t : τ} (h : (system program).step s (.run t) = some s') :
    s'.threads = Function.update s.threads t (s.threads t).next ∧
      ((∃ m rest, (s.threads t).todo = .acquire m :: rest ∧ s.owner m = none ∧
          s'.owner = Function.update s.owner m (some t)) ∨
        ∃ m rest, (s.threads t).todo = .release m :: rest ∧
          s'.owner = Function.update s.owner m none) := by
  simp only [system, step] at h
  split at h
  · cases h
  · next m rest htodo =>
    split at h
    · next hfree =>
      obtain rfl := Option.some.inj h
      exact ⟨rfl, .inl ⟨m, rest, htodo, hfree, rfl⟩⟩
    · cases h
  · next m rest htodo =>
    obtain rfl := Option.some.inj h
    exact ⟨rfl, .inr ⟨m, rest, htodo, rfl⟩⟩

end StepCases

/-! ### Disciplines -/

/-- Along `todo`, started with `held`, every acquisition meets `P`, every
release is of a mutex held, and nothing is held at the end. -/
def Follows [DecidableEq M] (P : List M → M → Prop) (held : List M) : List (LockOp M) → Prop
  | [] => held = []
  | .acquire m :: rest => P held m ∧ Follows P (m :: held) rest
  | .release m :: rest => m ∈ held ∧ Follows P (held.erase m) rest

/-- `std::lock_guard`: hold `m` while performing `body`. -/
def lockGuard (m : M) (body : List (LockOp M)) : List (LockOp M) :=
  .acquire m :: (body ++ [.release m])

/-- Started with `held`, `ops` follows `P` and gives back all it takes. -/
def Neutral [DecidableEq M] (P : List M → M → Prop) (held : List M) (ops : List (LockOp M)) :
    Prop :=
  ∀ rest, Follows P held rest → Follows P held (ops ++ rest)

section Neutral

variable [DecidableEq M] {P : List M → M → Prop} {held : List M}

theorem neutral_nil : Neutral P held [] := fun _ h => h

theorem Neutral.append {ops ops' : List (LockOp M)} (h : Neutral P held ops)
    (h' : Neutral P held ops') : Neutral P held (ops ++ ops') := by
  intro rest hrest
  rw [List.append_assoc]
  exact h _ (h' _ hrest)

theorem neutral_flatMap {α : Type*} {f : α → List (LockOp M)} {l : List α}
    (h : ∀ a ∈ l, Neutral P held (f a)) : Neutral P held (l.flatMap f) := by
  induction l with
  | nil => exact neutral_nil
  | cons a l ih =>
      rw [List.flatMap_cons]
      exact (h a List.mem_cons_self).append (ih fun b hb => h b (List.mem_cons_of_mem a hb))

theorem neutral_lockGuard {m : M} {body : List (LockOp M)} (hm : P held m)
    (hbody : Neutral P (m :: held) body) : Neutral P held (lockGuard m body) := by
  intro rest hrest
  have hrelease : Follows P (m :: held) (.release m :: rest) :=
    ⟨List.mem_cons_self, by rwa [List.erase_cons_head]⟩
  have happend : lockGuard m body ++ rest = .acquire m :: (body ++ .release m :: rest) := by
    simp [lockGuard]
  rw [happend]
  exact ⟨hm, hbody _ hrelease⟩

theorem Neutral.follows {ops : List (LockOp M)} (h : Neutral P [] ops) : Follows P [] ops := by
  simpa using h [] rfl

end Neutral

/-- The threads follow `P`, and `owner` and the lists of mutexes held agree. -/
structure Disciplined [DecidableEq M] (P : List M → M → Prop) (s : State M τ) : Prop where
  follows : ∀ t, Follows P (s.threads t).held (s.threads t).todo
  nodup : ∀ t, (s.threads t).held.Nodup
  owner_iff : ∀ t m, s.owner m = some t ↔ m ∈ (s.threads t).held

theorem disciplined_init [DecidableEq M] (P : List M → M → Prop) :
    Disciplined P (⟨fun _ => {}, fun _ => none⟩ : State M τ) where
  follows _ := rfl
  nodup _ := List.nodup_nil
  owner_iff t m := by simp

section Discipline

variable [DecidableEq M] [DecidableEq τ] {program : O → List (LockOp M)}
variable {P : List M → M → Prop}

theorem Disciplined.start {s s' : State M τ} (h : Disciplined P s) {t : τ} {o : O}
    (hprogram : Follows P [] (program o))
    (hstep : (system program).step s (.start t o) = some s') : Disciplined P s' := by
  obtain ⟨hidle, howner, hthreads⟩ := step_start hstep
  have hheld : (s.threads t).held = [] := by
    have := h.follows t
    rwa [hidle] at this
  refine ⟨fun u => ?_, fun u => ?_, fun u m => ?_⟩
  · by_cases hu : u = t
    · subst hu; simpa [hthreads, hheld] using hprogram
    · simpa [hthreads, hu] using h.follows u
  · by_cases hu : u = t
    · subst hu; simp [hthreads, hheld]
    · simpa [hthreads, hu] using h.nodup u
  · by_cases hu : u = t
    · subst hu; simpa [hthreads, howner] using h.owner_iff u m
    · simpa [hthreads, howner, hu] using h.owner_iff u m

theorem Disciplined.acquire {s s' : State M τ} (h : Disciplined P s) {t : τ} {m : M}
    {rest : List (LockOp M)} (htodo : (s.threads t).todo = .acquire m :: rest)
    (hfree : s.owner m = none) (howner : s'.owner = Function.update s.owner m (some t))
    (hthreads : s'.threads = Function.update s.threads t (s.threads t).next) :
    Disciplined P s' := by
  have hnext : (s.threads t).next = ⟨m :: (s.threads t).held, rest⟩ := by
    simp [Thread.next, htodo]
  have hnone : ∀ u, m ∉ (s.threads u).held := fun u hm => by
    have := (h.owner_iff u m).mpr hm
    rw [hfree] at this
    cases this
  have hf := h.follows t
  rw [htodo] at hf
  refine ⟨fun u => ?_, fun u => ?_, fun u k => ?_⟩
  · by_cases hu : u = t
    · subst hu; simpa [hthreads, hnext] using hf.2
    · simpa [hthreads, hu] using h.follows u
  · by_cases hu : u = t
    · subst hu; simpa [hthreads, hnext] using ⟨hnone u, h.nodup u⟩
    · simpa [hthreads, hu] using h.nodup u
  · by_cases hk : k = m
    · subst hk
      by_cases hu : u = t
      · subst hu; simp [hthreads, howner, hnext]
      · simp [hthreads, howner, hu, Ne.symm hu, hnone u]
    · by_cases hu : u = t
      · subst hu; simpa [hthreads, howner, hk, hnext] using h.owner_iff u k
      · simpa [hthreads, howner, hk, hu] using h.owner_iff u k

theorem Disciplined.release {s s' : State M τ} (h : Disciplined P s) {t : τ} {m : M}
    {rest : List (LockOp M)} (htodo : (s.threads t).todo = .release m :: rest)
    (howner : s'.owner = Function.update s.owner m none)
    (hthreads : s'.threads = Function.update s.threads t (s.threads t).next) :
    Disciplined P s' := by
  have hnext : (s.threads t).next = ⟨(s.threads t).held.erase m, rest⟩ := by
    simp [Thread.next, htodo]
  have hf := h.follows t
  rw [htodo] at hf
  have ht : s.owner m = some t := (h.owner_iff t m).mpr hf.1
  refine ⟨fun u => ?_, fun u => ?_, fun u k => ?_⟩
  · by_cases hu : u = t
    · subst hu; simpa [hthreads, hnext] using hf.2
    · simpa [hthreads, hu] using h.follows u
  · by_cases hu : u = t
    · subst hu; simpa [hthreads, hnext] using (h.nodup u).erase m
    · simpa [hthreads, hu] using h.nodup u
  · by_cases hk : k = m
    · subst hk
      by_cases hu : u = t
      · subst hu; simp [hthreads, howner, hnext, (h.nodup u).mem_erase_iff]
      · have hnot : k ∉ (s.threads u).held := fun hm => by
          have := (h.owner_iff u k).mpr hm
          rw [ht] at this
          exact hu (Option.some.inj this).symm
        simp [hthreads, howner, hu, hnot]
    · by_cases hu : u = t
      · subst hu
        simpa [hthreads, howner, hk, hnext, (h.nodup u).mem_erase_iff] using h.owner_iff u k
      · simpa [hthreads, howner, hk, hu] using h.owner_iff u k

/-- **Threads follow the discipline their programs follow**, in every
reachable state. -/
theorem Reachable.disciplined (hprogram : ∀ o, Follows P [] (program o)) {s : State M τ}
    (hs : (system program).Reachable s) : Disciplined P s := by
  refine hs.invariant ?_ ?_
  · rintro _ rfl
    exact disciplined_init P
  · intro s a s' h hstep
    cases a with
    | start t o => exact h.start (hprogram o) hstep
    | run t =>
        obtain ⟨hthreads, ⟨m, rest, htodo, hfree, howner⟩ | ⟨m, rest, htodo, howner⟩⟩ :=
          step_run hstep
        · exact h.acquire htodo hfree howner hthreads
        · exact h.release htodo howner hthreads

end Discipline

/-! ### Cycles -/

/-- Whatever `t` wants next ranks above all it holds. -/
def Ordered {R : Type*} [LT R] (rank : M → R) (t : Thread M) : Prop :=
  ∀ m, t.Wants m → ∀ k ∈ t.held, rank k < rank m

theorem WaitsFor.exists_wants {s : State M τ} {t u : τ} (h : Relation.TransGen (WaitsFor s) t u) :
    ∃ m, (s.threads t).Wants m := by
  obtain ⟨v, ⟨m, hm, -⟩, -⟩ := Relation.TransGen.head'_iff.mp h
  exact ⟨m, hm⟩

/-- A thread on a cycle is waited for by a thread on the cycle. -/
theorem exists_waiter_on_cycle {s : State M τ} {u : τ}
    (h : Relation.TransGen (WaitsFor s) u u) :
    ∃ t, Relation.TransGen (WaitsFor s) t t ∧ WaitsFor s t u := by
  obtain ⟨t, hut, htu⟩ := Relation.TransGen.tail'_iff.mp h
  exact ⟨t, Relation.TransGen.head' htu hut, htu⟩

/-- Around a cycle of ordered threads, what is wanted rises. -/
theorem rank_lt_around_cycle {R : Type*} [Preorder R] {rank : M → R} {P : List M → M → Prop}
    [DecidableEq M] {s : State M τ} (hs : Disciplined P s)
    (hord : ∀ u, Relation.TransGen (WaitsFor s) u u → Ordered rank (s.threads u)) {t u : τ}
    (hto : Relation.TransGen (WaitsFor s) u t) (hfrom : Relation.ReflTransGen (WaitsFor s) t u)
    {m m' : M} (hm : (s.threads u).Wants m) (hm' : (s.threads t).Wants m') :
    rank m < rank m' := by
  induction hto using Relation.TransGen.head_induction_on generalizing m with
  | single hw =>
      have hcycle : Relation.TransGen (WaitsFor s) t t := .tail' hfrom hw
      obtain ⟨k, hk, howner⟩ := hw
      obtain rfl := hm.unique hk
      exact hord t hcycle m' hm' m ((hs.owner_iff t m).mp howner)
  | @head u v hw hrest ih =>
      have hcycle : Relation.TransGen (WaitsFor s) v v := hrest.trans_left (hfrom.tail hw)
      obtain ⟨k, hk⟩ := WaitsFor.exists_wants hrest
      have hlt : rank k < rank m' := ih (hfrom.tail hw) hk
      obtain ⟨j, hj, howner⟩ := hw
      obtain rfl := hm.unique hj
      exact (hord v hcycle k hk m ((hs.owner_iff v m).mp howner)).trans hlt

/-- **The lock-order argument.**  If every thread on a cycle wants a mutex
that ranks above those it holds, there is no cycle. -/
theorem not_deadlocked_of_ordered {R : Type*} [Preorder R] (rank : M → R)
    {P : List M → M → Prop} [DecidableEq M] {s : State M τ} (hs : Disciplined P s)
    (hord : ∀ u, Relation.TransGen (WaitsFor s) u u → Ordered rank (s.threads u)) :
    ¬ Deadlocked s := by
  rintro ⟨t, ht⟩
  obtain ⟨m, hm⟩ := WaitsFor.exists_wants ht
  exact lt_irrefl _ (rank_lt_around_cycle hs hord ht .refl hm hm)

end LockOrder
