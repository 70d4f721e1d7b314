/-
CanChat/StableSort.lean

Sorting a list so that equal elements keep their order.

Design.  `sort` inserts the elements one after the other, each behind those that
are not greater, so what is appended to a list is inserted into the sorted list
(`sort_concat`) and what is removed from it is removed from the sorted list
(`sort_filter`).  The order is a Boolean `lt` that need not tell all elements
apart; it has to be transitive across incomparable elements (`Weak`).

Nothing here mentions the program; the page sorts its participants this way.
-/
import Mathlib.Data.List.Induction

namespace StableSort

variable {α : Type*}

/-- Insert an element behind those that are not greater. -/
def insert (lt : α → α → Bool) (a : α) : List α → List α
  | [] => [a]
  | b :: l => if lt a b then a :: b :: l else b :: insert lt a l

/-- Insert the elements one after the other, from the first on. -/
def sort (lt : α → α → Bool) (l : List α) : List α :=
  l.foldl (fun sorted a => insert lt a sorted) []

/-- A strict weak order. -/
structure Weak (lt : α → α → Bool) : Prop where
  asymm : ∀ a b, lt a b = true → lt b a = false
  /-- what is less than an element is less than whatever is not less than that -/
  trans : ∀ a b c, lt a b = true → lt c b = false → lt a c = true

/-- No element is less than one before it. -/
def Sorted (lt : α → α → Bool) (l : List α) : Prop := l.Pairwise fun a b => lt b a = false

variable {lt : α → α → Bool} {a b : α} {l : List α}

@[simp] theorem sort_nil : sort lt [] = [] := rfl

/-- What is appended is inserted last. -/
theorem sort_concat (l : List α) (a : α) : sort lt (l ++ [a]) = insert lt a (sort lt l) := by
  unfold sort
  rw [List.foldl_append, List.foldl_cons, List.foldl_nil]

/-- Insertion adds the element and loses none. -/
theorem insert_perm (a : α) (l : List α) : (insert lt a l).Perm (a :: l) := by
  induction l with
  | nil => exact .refl _
  | cons b l ih =>
      unfold insert
      split
      · exact .refl _
      · exact (ih.cons b).trans (.swap a b l)

@[simp] theorem mem_insert : b ∈ insert lt a l ↔ b = a ∨ b ∈ l := by
  rw [(insert_perm a l).mem_iff, List.mem_cons]

/-- Sorting rearranges. -/
theorem sort_perm (l : List α) : (sort lt l).Perm l := by
  induction l using List.reverseRecOn with
  | nil => exact .refl _
  | append_singleton l a ih =>
      rw [sort_concat]
      exact (insert_perm a _).trans ((ih.cons a).trans (List.perm_append_singleton a l).symm)

@[simp] theorem mem_sort : a ∈ sort lt l ↔ a ∈ l := (sort_perm l).mem_iff

/-- Insertion leaves the others in their order. -/
theorem sublist_insert (a : α) (l : List α) : l.Sublist (insert lt a l) := by
  induction l with
  | nil => exact List.nil_sublist _
  | cons b l ih =>
      unfold insert
      split
      · exact List.sublist_cons_self a _
      · exact ih.cons_cons b

/-- Insertion keeps a sorted list sorted. -/
theorem sorted_insert (hlt : Weak lt) (a : α) (h : Sorted lt l) : Sorted lt (insert lt a l) := by
  induction l with
  | nil => exact List.pairwise_singleton _ _
  | cons b l ih =>
      obtain ⟨hb, hl⟩ := List.pairwise_cons.mp h
      unfold insert
      split
      · next hab =>
        refine List.pairwise_cons.mpr ⟨fun c hc => hlt.asymm a c ?_, h⟩
        rcases List.mem_cons.mp hc with rfl | hc
        · exact hab
        · exact hlt.trans a b c hab (hb c hc)
      · next hab =>
        refine List.pairwise_cons.mpr ⟨fun c hc => ?_, ih hl⟩
        rcases mem_insert.mp hc with rfl | hc
        · simpa using hab
        · exact hb c hc

/-- Sorting gives a sorted list. -/
theorem sorted_sort (hlt : Weak lt) (l : List α) : Sorted lt (sort lt l) := by
  induction l using List.reverseRecOn with
  | nil => exact List.Pairwise.nil
  | append_singleton l a ih =>
      rw [sort_concat]
      exact sorted_insert hlt a ih

/-- An element less than all of a list goes to its front. -/
theorem insert_of_forall_lt (h : ∀ b ∈ l, lt a b = true) : insert lt a l = a :: l := by
  rcases l with - | ⟨b, l⟩
  · rfl
  · exact if_pos (h b List.mem_cons_self)

/-- Filtering after an insertion is inserting, if at all, after filtering. -/
theorem filter_insert (hlt : Weak lt) (h : Sorted lt l) (p : α → Bool) :
    (insert lt a l).filter p = if p a then insert lt a (l.filter p) else l.filter p := by
  induction l with
  | nil => cases hp : p a <;> simp [insert, hp]
  | cons b l ih =>
      obtain ⟨hb, hl⟩ := List.pairwise_cons.mp h
      have ih := ih hl
      rcases hab : lt a b with - | -
      · -- `a` goes behind `b`, whether `b` stays or not
        have hinsert : insert lt a (b :: l) = b :: insert lt a l := if_neg (by simp [hab])
        rw [hinsert, List.filter_cons, List.filter_cons, ih]
        cases hpa : p a <;> cases hpb : p b <;> simp [insert, hab]
      · have hinsert : insert lt a (b :: l) = a :: b :: l := if_pos hab
        have hless : ∀ c ∈ (b :: l).filter p, lt a c = true := by
          intro c hc
          rcases List.mem_cons.mp (List.mem_filter.mp hc).1 with rfl | hc
          · exact hab
          · exact hlt.trans a b c hab (hb c hc)
        rw [hinsert, List.filter_cons, insert_of_forall_lt hless]

/-- What is removed from a list is removed from the sorted list. -/
theorem sort_filter (hlt : Weak lt) (l : List α) (p : α → Bool) :
    sort lt (l.filter p) = (sort lt l).filter p := by
  induction l using List.reverseRecOn with
  | nil => rfl
  | append_singleton l a ih =>
      rw [sort_concat, filter_insert hlt (sorted_sort hlt l), ← ih, List.filter_append]
      cases hp : p a
      · simp [hp]
      · simp [hp, sort_concat]

end StableSort
