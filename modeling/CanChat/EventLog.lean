/-
CanChat/EventLog.lean

Logs that grow at the head, read as evidence of what happened before what.

Design.  The past of an event in a log is the part of the log below it, so
`e :: past <:+ log` says that `e` is an event of `log` with this past.  A log
is `Justified` when every event of it satisfies a given relation to its past;
since a past never changes, a step only has to justify the events it adds.

Nothing here mentions the program; the chat's log is an instance.
-/
import Mathlib

namespace EventLog

variable {ε : Type*} {P : ε → List ε → Prop} {e a b : ε} {past log : List ε}

/-- Every event of the log is justified by its past. -/
def Justified (P : ε → List ε → Prop) (log : List ε) : Prop :=
  ∀ e past, e :: past <:+ log → P e past

theorem justified_nil : Justified P [] := by
  intro e past h
  simp at h

theorem Justified.cons (h : Justified P log) (he : P e log) : Justified P (e :: log) := by
  intro a past ha
  rcases List.suffix_cons_iff.mp ha with heq | ha
  · obtain ⟨rfl, rfl⟩ := List.cons.inj heq
    exact he
  · exact h a past ha

/-- Events that need no justification. -/
theorem Justified.append (h : Justified P log) {events : List ε}
    (hevents : ∀ e ∈ events, ∀ past, P e past) : Justified P (events ++ log) := by
  induction events with
  | nil => exact h
  | cons e events ih =>
      have ih := ih fun a ha => hevents a (List.mem_cons_of_mem _ ha)
      exact ih.cons (hevents e List.mem_cons_self _)

theorem exists_past (h : e ∈ log) : ∃ past, e :: past <:+ log := by
  obtain ⟨newer, past, rfl⟩ := List.append_of_mem h
  exact ⟨past, List.suffix_append newer _⟩

/-- An event at a known place. -/
theorem past_of_getElem? {i : ℕ} (h : log[i]? = some e) : e :: log.drop (i + 1) <:+ log := by
  obtain ⟨hlt, rfl⟩ := List.getElem?_eq_some_iff.mp h
  rw [← List.drop_eq_getElem_cons hlt]
  exact List.drop_suffix i log

theorem mem_drop_of_getElem? {i j : ℕ} (hlt : i < j) (h : log[j]? = some a) :
    a ∈ log.drop (i + 1) := by
  have hdrop : (log.drop (i + 1))[j - (i + 1)]? = some a := by
    rw [List.getElem?_drop, Nat.add_sub_cancel' hlt, h]
  exact List.mem_of_getElem? hdrop

/-- An event of the past is an event of the log. -/
theorem mem_of_past (h : e :: past <:+ log) (ha : a ∈ past) : a ∈ log :=
  h.subset (List.mem_cons_of_mem _ ha)

/-- An event that is not among the new ones has its past in the old log. -/
theorem past_of_append {events : List ε} (h : e :: past <:+ events ++ log) (he : e ∉ events) :
    e :: past <:+ log := by
  induction events with
  | nil => exact h
  | cons a events ih =>
      rcases List.suffix_cons_iff.mp h with heq | h
      · obtain rfl := (List.cons.inj heq).1
        exact absurd List.mem_cons_self he
      · exact ih h fun hmem => he (List.mem_cons_of_mem _ hmem)

/-- Two events of a log are the same, or one is in the past of the other. -/
theorem eq_or_past (ha : a :: past <:+ log) {past' : List ε} (hb : b :: past' <:+ log) :
    (a = b ∧ past = past') ∨ b :: past' <:+ past ∨ a :: past <:+ past' := by
  rcases List.suffix_or_suffix_of_suffix ha hb with h | h
  · rcases List.suffix_cons_iff.mp h with heq | h
    · exact .inl (List.cons.inj heq)
    · exact .inr (.inr h)
  · rcases List.suffix_cons_iff.mp h with heq | h
    · exact .inl ((List.cons.inj heq).imp Eq.symm Eq.symm)
    · exact .inr (.inl h)

/-- An event is in the past of another, or that one is in its past. -/
theorem past_or_past (ha : a :: past <:+ log) {past' : List ε} (hb : b :: past' <:+ log)
    (hne : a ≠ b) : b :: past' <:+ past ∨ a :: past <:+ past' :=
  (eq_or_past ha hb).resolve_left fun h => hne h.1

theorem Justified.of_past (h : Justified P log) (hlog : e :: past <:+ log) : Justified P past :=
  fun a past' ha => h a past' (ha.trans ((List.suffix_cons e past).trans hlog))

/-- If at most one event counts, and for one, the count is at most one. -/
theorem sum_le_one {f : ε → ℕ}
    (h : Justified (fun e past => f e ≠ 0 → f e = 1 ∧ ∀ a ∈ past, f a = 0) log) :
    (log.map f).sum ≤ 1 := by
  induction log with
  | nil => simp
  | cons e log ih =>
      rw [List.map_cons, List.sum_cons]
      rcases eq_or_ne (f e) 0 with hzero | hne
      · rw [hzero, Nat.zero_add]
        exact ih (h.of_past List.suffix_rfl)
      · obtain ⟨hone, hpast⟩ := h e log List.suffix_rfl hne
        have hsum : (log.map f).sum = 0 := List.sum_eq_zero (by simpa using hpast)
        rw [hone, hsum]

end EventLog
