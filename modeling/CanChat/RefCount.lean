/-
CanChat/RefCount.lean

Objects that hold counted pointers to one another.

An object lives until its count, the number of pointers to it from outside and
from live objects, is zero.  `release` frees every object whose count is zero
and goes on with those that lose their last pointer by it.  What survives is
the largest set of live objects in which each is pointed to from outside or by
another one of the set (`mem_release_iff`): a cycle keeps itself alive.
-/
import Mathlib

namespace RefCount

/-- The objects that live, and the pointers they and the outside hold. -/
@[ext] structure Heap (ν : Type) where
  roots : List ν
  fields : ν → List ν
  live : List ν

namespace Heap

/-! ### Counts -/

section Pointers

variable {ν : Type} (h : Heap ν)

/-- The number of pointers to `n`. -/
def count [DecidableEq ν] (n : ν) : ℕ :=
  h.roots.count n + (h.live.map fun m => (h.fields m).count n).sum

/-- Something points to the object. -/
def Owned (n : ν) : Prop := n ∈ h.roots ∨ ∃ m ∈ h.live, n ∈ h.fields m

/-- No pointer dangles. -/
def Closed : Prop := ∀ n, h.Owned n → n ∈ h.live

/-- Nothing is left to be freed. -/
def Settled : Prop := ∀ n ∈ h.live, h.Owned n

end Pointers

variable {ν : Type} [DecidableEq ν] {h : Heap ν}

/-- The count is zero exactly if nothing points to the object. -/
theorem count_eq_zero {n : ν} : h.count n = 0 ↔ ¬ h.Owned n := by
  have hsum : (h.live.map fun m => (h.fields m).count n).sum = 0 ↔
      ∀ m ∈ h.live, n ∉ h.fields m := by
    simp [List.sum_eq_zero_iff_forall_eq_nat, List.count_eq_zero]
  rw [count, Nat.add_eq_zero_iff, List.count_eq_zero, hsum, Owned, not_or]
  simp

/-! ### Freeing -/

/-- Free the objects whose count is zero. -/
def sweep (h : Heap ν) : Heap ν :=
  { h with live := h.live.filter fun n => h.count n != 0 }

/-- So many sweeps in a row. -/
def sweeps : ℕ → Heap ν → Heap ν
  | 0, h => h
  | k + 1, h => sweeps k h.sweep

/-- As many rounds as there are objects are enough. -/
def release (h : Heap ν) : Heap ν := sweeps h.live.length h

/-- A sweep keeps what something points to. -/
theorem mem_sweep {n : ν} : n ∈ h.sweep.live ↔ n ∈ h.live ∧ h.Owned n := by
  simp [sweep, List.mem_filter, count_eq_zero]

theorem sweep_sublist : h.sweep.live.Sublist h.live := List.filter_sublist

theorem owned_of_sweep {n : ν} (hn : h.sweep.Owned n) : h.Owned n :=
  hn.imp_right fun ⟨m, hm, hn⟩ => ⟨m, (mem_sweep.mp hm).1, hn⟩

/-- A sweep leaves no dangling pointer. -/
theorem Closed.sweep (hc : h.Closed) : h.sweep.Closed := by
  intro n hn
  have hn := owned_of_sweep hn
  exact mem_sweep.mpr ⟨hc n hn, hn⟩

/-- A sweep of a settled heap frees nothing. -/
theorem Settled.sweep_eq (hs : h.Settled) : h.sweep = h := by
  have hlive : (h.live.filter fun n => h.count n != 0) = h.live := by
    apply List.filter_eq_self.mpr
    intro n hn
    simpa [count_eq_zero] using hs n hn
  rw [Heap.sweep, hlive]

/-- A round that frees nothing finds nothing to free. -/
theorem settled_of_length (hlength : h.live.length ≤ h.sweep.live.length) : h.Settled := by
  intro n hn
  have heq := sweep_sublist.eq_of_length_le hlength
  rw [← heq] at hn
  exact (mem_sweep.mp hn).2

@[simp] theorem sweeps_roots (k : ℕ) (h : Heap ν) : (sweeps k h).roots = h.roots := by
  induction k generalizing h with
  | zero => rfl
  | succ k ih => exact ih h.sweep

@[simp] theorem sweeps_fields (k : ℕ) (h : Heap ν) : (sweeps k h).fields = h.fields := by
  induction k generalizing h with
  | zero => rfl
  | succ k ih => exact ih h.sweep

theorem sweeps_sublist (k : ℕ) (h : Heap ν) : (sweeps k h).live.Sublist h.live := by
  induction k generalizing h with
  | zero => exact .refl _
  | succ k ih => exact (ih h.sweep).trans sweep_sublist

theorem Closed.sweeps (hc : h.Closed) (k : ℕ) : (sweeps k h).Closed := by
  induction k generalizing h with
  | zero => exact hc
  | succ k ih => exact ih hc.sweep

theorem Settled.sweeps (hs : h.Settled) (k : ℕ) : (sweeps k h).Settled := by
  induction k with
  | zero => exact hs
  | succ k ih =>
      rw [Heap.sweeps, hs.sweep_eq]
      exact ih

/-- As many sweeps as there are objects leave nothing to be freed. -/
theorem settled_sweeps {k : ℕ} (hk : h.live.length ≤ k) : (sweeps k h).Settled := by
  induction k generalizing h with
  | zero =>
      intro n hn
      rw [Heap.sweeps, List.length_eq_zero_iff.mp (Nat.le_zero.mp hk)] at hn
      cases hn
  | succ k ih =>
      rcases Nat.lt_or_ge h.sweep.live.length h.live.length with hlt | hge
      · apply ih
        omega
      · have hs := settled_of_length hge
        rw [Heap.sweeps, hs.sweep_eq]
        exact hs.sweeps k

/-- Objects that own one another are not freed. -/
theorem mem_sweeps_of_owned {S : ν → Prop} (hlive : ∀ n, S n → n ∈ h.live)
    (howned : ∀ n, S n → n ∈ h.roots ∨ ∃ m, S m ∧ n ∈ h.fields m) (k : ℕ) :
    ∀ n, S n → n ∈ (sweeps k h).live := by
  induction k generalizing h with
  | zero => exact hlive
  | succ k ih =>
      refine ih (fun n hn => mem_sweep.mpr ⟨hlive n hn, ?_⟩) howned
      exact (howned n hn).imp_right fun ⟨m, hm, hmem⟩ => ⟨m, hlive m hm, hmem⟩

/-! ### What survives -/

@[simp] theorem release_roots (h : Heap ν) : h.release.roots = h.roots := sweeps_roots _ h

@[simp] theorem release_fields (h : Heap ν) : h.release.fields = h.fields := sweeps_fields _ h

theorem release_sublist (h : Heap ν) : h.release.live.Sublist h.live := sweeps_sublist _ h

/-- Releasing leaves no dangling pointer. -/
theorem Closed.release (hc : h.Closed) : h.release.Closed := hc.sweeps _

/-- Releasing leaves nothing to be freed. -/
theorem settled_release (h : Heap ν) : h.release.Settled := settled_sweeps (Nat.le_refl _)

/-- **The survivors** are the largest set of live objects in which each is
owned from outside or by another. -/
theorem mem_release_iff {n : ν} : n ∈ h.release.live ↔ ∃ S : ν → Prop, S n ∧
    (∀ m, S m → m ∈ h.live) ∧ ∀ m, S m → m ∈ h.roots ∨ ∃ o, S o ∧ m ∈ h.fields o := by
  constructor
  · intro hn
    refine ⟨fun m => m ∈ h.release.live, hn, fun m hm => h.release_sublist.subset hm, ?_⟩
    intro m hm
    simpa [Owned] using h.settled_release m hm
  · rintro ⟨S, hn, hlive, howned⟩
    exact mem_sweeps_of_owned hlive howned _ n hn

end Heap

end RefCount
