/-
CanChat/Transition.lean

Transition systems whose steps are partial functions of an action, the runs
they allow, and the one induction every invariant of this development goes
through.

Design.  A step is `step s a : Option σ`, so a run is a list of actions and a
concrete run can be evaluated.  Reachability is parametrised by a predicate
`P s a` on the steps taken: `ReachableVia P` are the states reached by runs
all of whose steps meet `P`, and `Reachable` is the unconditional case.  A
safety property that holds only while some branch is avoided is then a
statement about `ReachableVia P`, with `P` the condition on the state before
each step.

Nothing here mentions the program; the chat server's systems are instances.
-/
import Mathlib.Logic.Relation

namespace Transition

/-- A transition system over states `σ` and actions `α`: the initial states,
and the state an action leads to where it is enabled. -/
structure System (σ α : Type*) where
  init : σ → Prop
  step : σ → α → Option σ

namespace System

variable {σ α : Type*} (S : System σ α)

/-! ### Runs -/

/-- Perform the actions of a list in order. -/
def run (s : σ) : List α → Option σ
  | [] => some s
  | a :: as => (S.step s a).bind fun t => run t as

@[simp] theorem run_nil (s : σ) : S.run s [] = some s := rfl

@[simp] theorem run_cons (s : σ) (a : α) (as : List α) :
    S.run s (a :: as) = (S.step s a).bind fun t => S.run t as := rfl

theorem run_append (s : σ) (as bs : List α) :
    S.run s (as ++ bs) = (S.run s as).bind fun t => S.run t bs := by
  induction as generalizing s with
  | nil => rfl
  | cons a as ih =>
      simp only [List.cons_append, run_cons, Option.bind_assoc]
      congr 1
      funext t
      exact ih t

/-! ### Reachable states -/

/-- `ReachableVia P s`: a run from an initial state, each step of which meets
`P`, ends in `s`. -/
inductive ReachableVia (P : σ → α → Prop) : σ → Prop
  | init {s} (h : S.init s) : ReachableVia P s
  | step {s a t} (hs : ReachableVia P s) (hp : P s a)
      (hstep : S.step s a = some t) : ReachableVia P t

/-- The states some run reaches. -/
def Reachable : σ → Prop := S.ReachableVia fun _ _ => True

variable {S} {P Q : σ → α → Prop}

theorem ReachableVia.mono (hPQ : ∀ s a, P s a → Q s a) {s : σ}
    (h : S.ReachableVia P s) : S.ReachableVia Q s := by
  induction h with
  | init h => exact .init h
  | step _ hp hstep ih => exact .step ih (hPQ _ _ hp) hstep

theorem ReachableVia.mono_of_reachable (hPQ : ∀ s a, S.Reachable s → P s a → Q s a) {s : σ}
    (h : S.ReachableVia P s) : S.ReachableVia Q s := by
  induction h with
  | init h => exact .init h
  | step hs hp hstep ih => exact .step ih (hPQ _ _ (hs.mono fun _ _ _ => trivial) hp) hstep

theorem ReachableVia.reachable {s : σ} (h : S.ReachableVia P s) : S.Reachable s :=
  h.mono fun _ _ _ => trivial

theorem Reachable.step {s t : σ} {a : α} (hs : S.Reachable s)
    (hstep : S.step s a = some t) : S.Reachable t :=
  ReachableVia.step hs trivial hstep

/-- A run started in a reachable state ends in one. -/
theorem Reachable.run {s t : σ} (hs : S.Reachable s) {as : List α}
    (hr : S.run s as = some t) : S.Reachable t := by
  induction as generalizing s with
  | nil =>
      obtain rfl : s = t := by simpa using hr
      exact hs
  | cons a as ih =>
      obtain ⟨u, hu, hr'⟩ := Option.bind_eq_some_iff.mp hr
      exact ih (hs.step hu) hr'

/-- The run of a list of actions exists, and each of its steps meets `P`. -/
def RunsVia (S : System σ α) (P : σ → α → Prop) (s : σ) : List α → Prop
  | [] => True
  | a :: as => P s a ∧ match S.step s a with
      | some t => RunsVia S P t as
      | none => False

instance RunsVia.decidable [∀ s a, Decidable (P s a)] (s : σ) (as : List α) :
    Decidable (S.RunsVia P s as) :=
  match as with
  | [] => .isTrue trivial
  | a :: as =>
      match h : S.step s a with
      | some t =>
          have : Decidable (S.RunsVia P t as) := RunsVia.decidable t as
          decidable_of_iff (P s a ∧ S.RunsVia P t as) (by simp [RunsVia, h])
      | none => .isFalse (by simp [RunsVia, h])

theorem ReachableVia.run {s t : σ} (hs : S.ReachableVia P s) {as : List α}
    (hvia : S.RunsVia P s as) (hr : S.run s as = some t) : S.ReachableVia P t := by
  induction as generalizing s with
  | nil =>
      obtain rfl : s = t := by simpa using hr
      exact hs
  | cons a as ih =>
      obtain ⟨u, hu, hr'⟩ := Option.bind_eq_some_iff.mp hr
      rw [RunsVia, hu] at hvia
      exact ih (.step hs hvia.1 hu) hvia.2 hr'

/-! ### The invariant rule -/

/-- **The invariant rule.**  What holds initially and is preserved by every
step that meets `P` holds in every state reached by such steps.  The step
case may use that the state stepped from is itself reached that way. -/
theorem ReachableVia.invariant {I : σ → Prop} (hinit : ∀ s, S.init s → I s)
    (hstep : ∀ s a t, S.ReachableVia P s → I s → P s a → S.step s a = some t → I t)
    {s : σ} (h : S.ReachableVia P s) : I s := by
  induction h with
  | init h => exact hinit _ h
  | step hs hp hst ih => exact hstep _ _ _ hs ih hp hst

/-- The invariant rule for unconditional runs. -/
theorem Reachable.invariant {I : σ → Prop} (hinit : ∀ s, S.init s → I s)
    (hstep : ∀ s a t, I s → S.step s a = some t → I t)
    {s : σ} (h : S.Reachable s) : I s :=
  ReachableVia.invariant hinit (fun s a t _ hI _ hst => hstep s a t hI hst) h

/-! ### The rule for exact conditions -/

/-- Every state of a run satisfies `P`, from the first to the last. -/
def Throughout (S : System σ α) (P : σ → Prop) (s : σ) (as : List α) : Prop :=
  ∀ bs, bs <+: as → ∀ u, S.run s bs = some u → P u

/-- **The rule for exact conditions.**  If a step from a state of the invariant
keeps it where the condition is met, and spoils `P` where it is not, the
condition is that of the runs that satisfy `P` throughout. -/
theorem throughout_iff_runsVia {I P : σ → Prop} {Q : σ → α → Prop} (hsound : ∀ s, I s → P s)
    (hkeep : ∀ s a t, I s → Q s a → S.step s a = some t → I t)
    (hspoil : ∀ s a t, I s → S.step s a = some t → P t → Q s a) {s t : σ} (hs : I s)
    {as : List α} (hrun : S.run s as = some t) : S.Throughout P s as ↔ S.RunsVia Q s as := by
  induction as generalizing s with
  | nil =>
      refine iff_of_true ?_ trivial
      rintro bs ⟨cs, hbs⟩ u hu
      obtain ⟨rfl, -⟩ := List.append_eq_nil_iff.mp hbs
      obtain rfl : s = u := by simpa using hu
      exact hsound s hs
  | cons a as ih =>
      obtain ⟨u, hstep, hrest⟩ := Option.bind_eq_some_iff.mp hrun
      have hrunFrom : ∀ bs, S.run s (a :: bs) = S.run u bs := fun bs => by rw [run_cons, hstep]; rfl
      rw [RunsVia, hstep]
      constructor
      · intro hall
        have hq : Q s a := by
          refine hspoil s a u hs hstep (hall [a] ⟨as, rfl⟩ u ?_)
          rw [hrunFrom]
          rfl
        refine ⟨hq, (ih (hkeep s a u hs hq hstep) hrest).mp fun bs hbs v hv => ?_⟩
        exact hall (a :: bs) ((List.prefix_cons_inj a).mpr hbs) v ((hrunFrom bs).trans hv)
      · rintro ⟨hq, hvia⟩ bs hbs v hv
        rcases bs with - | ⟨b, bs⟩
        · obtain rfl : s = v := by simpa using hv
          exact hsound s hs
        · obtain ⟨rfl, hprefix⟩ := List.cons_prefix_cons.mp hbs
          exact (ih (hkeep s b u hs hq hstep) hrest).mpr hvia bs hprefix v
            ((hrunFrom bs).symm.trans hv)

end System

end Transition
