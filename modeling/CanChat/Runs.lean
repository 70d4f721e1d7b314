/-
CanChat/Runs.lean

A list split into its runs, one element after the other.
-/
import Mathlib.Data.List.SplitBy

namespace CanChat

variable {α : Type*} {r : α → α → Bool}

/-- One more element: it goes on with the last run, or starts a new one. -/
theorem splitBy_concat {l : List α} {runs : List (List α)} {run : List α} {last : α}
    (h : l.splitBy r = runs ++ [run ++ [last]]) (a : α) :
    (l ++ [a]).splitBy r =
      if r last a then runs ++ [run ++ [last] ++ [a]] else runs ++ [run ++ [last]] ++ [[a]] := by
  obtain ⟨hl, hnil, hchain, hbreak⟩ := List.splitBy_eq_iff.mp h
  have hlast : ∀ x ∈ l.getLast?, x = last := by
    intro x hx
    rw [hl, List.flatten_append, List.flatten_singleton, ← List.append_assoc,
      List.getLast?_concat] at hx
    exact (Option.some.inj hx).symm
  split
  -- the new element continues the last run
  · next hr =>
    refine List.splitBy_eq_iff.mpr ⟨?_, ?_, fun m hm => ?_, ?_⟩
    · rw [hl]
      simp
    · simp [List.mem_append] at hnil ⊢
      exact hnil
    · rcases List.mem_append.mp hm with hm | hm
      · exact hchain m (List.mem_append_left _ hm)
      · obtain rfl := List.mem_singleton.mp hm
        have hrun := hchain (run ++ [last]) (List.mem_append_right _ (List.mem_singleton_self _))
        refine List.isChain_append.mpr ⟨hrun, List.isChain_singleton _, fun x hx y hy => ?_⟩
        rw [List.getLast?_concat] at hx
        obtain rfl := Option.some.inj hx
        obtain rfl := Option.some.inj hy
        exact hr
    · obtain ⟨hruns, -, hjoin⟩ := List.isChain_append.mp hbreak
      refine List.isChain_append.mpr ⟨hruns, List.isChain_singleton _, fun x hx y hy => ?_⟩
      obtain rfl := Option.some.inj hy
      obtain ⟨hne, hne', hfalse⟩ := hjoin x hx (run ++ [last]) rfl
      refine ⟨hne, by simp, ?_⟩
      rw [← hfalse]
      congr 1
      exact List.head_append_of_ne_nil hne'
  -- the new element starts a run of its own
  · next hr =>
    have hsingle : [a].splitBy r = [[a]] := rfl
    rw [List.splitBy_append, h, hsingle]
    intro x hx y hy
    obtain rfl := hlast x hx
    obtain rfl := Option.some.inj hy
    exact Bool.eq_false_iff.mpr hr

end CanChat
