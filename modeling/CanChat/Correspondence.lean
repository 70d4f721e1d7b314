/-
CanChat/Correspondence.lean

Two systems that allocate in step with each other.

Each system numbers what it allocates, one of them with gaps.  A `Matching`
pairs the numbers of the two; since both only go up, it keeps the order, and so
it is one-to-one.  A pair is added with each allocation and none is taken away.

Tables are compared regardless of their order: `UnorderedMap.Rel` pairs the
entries of two maps one by one.
-/
import CanChat.UnorderedMap
import Mathlib

namespace Correspondence

/-! ### Matchings -/

/-- A one-to-one relation that keeps the order. -/
structure Matching (α : Type*) [LinearOrder α] where
  rel : α → α → Prop
  lt_iff : ∀ {a a' b b'}, rel a a' → rel b b' → (a < b ↔ a' < b')

namespace Matching

variable {α : Type*} [LinearOrder α] {m m' m'' : Matching α} {a a' b b' : α}

instance : CoeFun (Matching α) fun _ => α → α → Prop := ⟨rel⟩

instance : Preorder (Matching α) where
  le m m' := ∀ a a', m a a' → m' a a'
  le_refl _ _ _ h := h
  le_trans _ _ _ h h' a a' ha := h' a a' (h a a' ha)

/-- Nothing is paired. -/
def empty : Matching α where
  rel _ _ := False
  lt_iff h := h.elim

/-- A matching is injective both ways. -/
theorem eq_iff (ha : m a a') (hb : m b b') : a = b ↔ a' = b' := by
  have hlt := m.lt_iff ha hb
  have hgt := m.lt_iff hb ha
  constructor
  · rintro rfl
    exact le_antisymm (not_lt.mp fun h => lt_irrefl a (hgt.mpr h))
      (not_lt.mp fun h => lt_irrefl a (hlt.mpr h))
  · rintro rfl
    exact le_antisymm (not_lt.mp fun h => lt_irrefl a' (hgt.mp h))
      (not_lt.mp fun h => lt_irrefl a' (hlt.mp h))

/-- Paired on the left. -/
def Dom (m : Matching α) (a : α) : Prop := ∃ a', m a a'

theorem Dom.mono (hle : m ≤ m') (h : m.Dom a) : m'.Dom a := h.imp fun a' => hle a a'

/-- What is matched differs from what is not. -/
theorem ne_of_not_dom (ha : m.Dom a) (hb : ¬ m.Dom b) : b ≠ a := by
  rintro rfl
  exact hb ha

/-- All numbers used so far are below `a` and `a'`. -/
def Below (m : Matching α) (a a' : α) : Prop := ∀ b b', m b b' → b < a ∧ b' < a'

/-- The bounds may be raised. -/
theorem Below.mono (h : m.Below a a') (ha : a ≤ b) (ha' : a' ≤ b') : m.Below b b' :=
  fun c c' hc => ⟨(h c c' hc).1.trans_le ha, (h c c' hc).2.trans_le ha'⟩

/-- Two new numbers are paired. -/
def add (m : Matching α) (a a' : α) (h : m.Below a a') : Matching α where
  rel b b' := m b b' ∨ b = a ∧ b' = a'
  lt_iff {b b' c c'} hb hc := by
    rcases hb with hb | ⟨rfl, rfl⟩ <;> rcases hc with hc | ⟨rfl, rfl⟩
    · exact m.lt_iff hb hc
    · exact iff_of_true (h b b' hb).1 (h b b' hb).2
    · exact iff_of_false (h c c' hc).1.not_gt (h c c' hc).2.not_gt
    · exact iff_of_false (lt_irrefl _) (lt_irrefl _)

/-- Adding a pair loses none. -/
theorem le_add (h : m.Below a a') : m ≤ m.add a a' h := fun _ _ hb => .inl hb

theorem add_self (h : m.Below a a') : m.add a a' h a a' := .inr ⟨rfl, rfl⟩

end Matching

/-! ### Objects -/

/-- One object on each side is replaced. -/
theorem related_update {κ κ' α α' : Type*} [DecidableEq κ] [DecidableEq κ'] {Q : α → α' → Prop}
    {f : κ → α} {f' : κ' → α'} {a b : κ} {a' b' : κ'} {v : α} {v' : α'} (heq : b = a ↔ b' = a')
    (hnew : Q v v') (hold : Q (f b) (f' b')) :
    Q (Function.update f a v b) (Function.update f' a' v' b') := by
  by_cases h : b = a
  · obtain rfl := h
    obtain rfl := heq.mp rfl
    rwa [Function.update_self, Function.update_self]
  · rwa [Function.update_of_ne h, Function.update_of_ne fun h' => h (heq.mpr h')]

/-- What is put at two new numbers changes no pair. -/
theorem Matching.Below.update {α β β' : Type*} [LinearOrder α] {m : Matching α} {a a' b b' : α}
    (h : m.Below a a') (hb : m b b') {Q : β → β' → Prop} {f : α → β} {f' : α → β'} {v : β} {v' : β'}
    (hold : Q (f b) (f' b')) : Q (Function.update f a v b) (Function.update f' a' v' b') := by
  obtain ⟨hlt, hlt'⟩ := h b b' hb
  rwa [Function.update_of_ne hlt.ne, Function.update_of_ne hlt'.ne]

/-- The relation between the values may be weakened. -/
theorem optionRel_mono {α β : Type*} {R S : α → β → Prop} {o : Option α} {o' : Option β}
    (h : Option.Rel R o o') (hRS : ∀ a b, R a b → S a b) : Option.Rel S o o' := by
  cases h with
  | none => exact .none
  | some hab => exact .some (hRS _ _ hab)

/-- Related values have related images. -/
theorem optionRel_map {α α' β β' : Type*} {R : α → α' → Prop} {S : β → β' → Prop} {o : Option α}
    {o' : Option α'} {f : α → β} {f' : α' → β'} (h : Option.Rel R o o')
    (hRS : ∀ a a', R a a' → S (f a) (f' a')) : Option.Rel S (o.map f) (o'.map f') := by
  cases h with
  | none => exact .none
  | some hab => exact .some (hRS _ _ hab)

/-! ### Lists in any order -/

/-- Related one by one, after one of them has been put in another order. -/
def Paired {α β : Type*} (R : α → β → Prop) (l : List α) (l' : List β) : Prop :=
  ∃ k, List.Forall₂ R l k ∧ k.Perm l'

namespace Paired

variable {α β γ δ : Type*} {R S : α → β → Prop} {T : γ → δ → Prop} {l : List α} {l' : List β}
  {a : α} {b : β}

theorem nil : Paired R [] [] := ⟨[], .nil, .nil⟩

theorem cons (hab : R a b) (h : Paired R l l') : Paired R (a :: l) (b :: l') := by
  obtain ⟨k, hk, hperm⟩ := h
  exact ⟨b :: k, .cons hab hk, hperm.cons b⟩

/-- The relation between the elements may be weakened. -/
theorem mono (h : Paired R l l') (hRS : ∀ a b, R a b → S a b) : Paired S l l' := by
  obtain ⟨k, hk, hperm⟩ := h
  exact ⟨k, hk.imp hRS, hperm⟩

/-- Related elements have related images. -/
theorem map {f : α → γ} {g : β → δ} (h : Paired R l l') (hmap : ∀ a b, R a b → T (f a) (g b)) :
    Paired T (l.map f) (l'.map g) := by
  obtain ⟨k, hk, hperm⟩ := h
  exact ⟨k.map g, List.forall₂_map_left_iff.mpr (List.forall₂_map_right_iff.mpr (hk.imp hmap)),
    hperm.map g⟩

theorem length_eq (h : Paired R l l') : l.length = l'.length := by
  obtain ⟨k, hk, hperm⟩ := h
  exact hk.length_eq.trans hperm.length_eq

end Paired

end Correspondence

/-! ### Tables -/

namespace UnorderedMap

open Correspondence

variable {κ κ' ν ν' : Type*} {K : κ → κ' → Prop} {V W : ν → ν' → Prop} {k : κ} {k' : κ'} {v : ν}
  {v' : ν'} {m : UnorderedMap κ ν} {m' : UnorderedMap κ' ν'}

/-- The entries are related one by one, in some order. -/
def Rel (K : κ → κ' → Prop) (V : ν → ν' → Prop) (m : UnorderedMap κ ν) (m' : UnorderedMap κ' ν') :
    Prop :=
  Paired (fun (e : Σ _ : κ, ν) (e' : Σ _ : κ', ν') => K e.1 e'.1 ∧ V e.2 e'.2) m.entries m'.entries

theorem rel_empty : Rel K V ∅ ∅ := .nil

/-- The relations between keys and between values may be weakened. -/
theorem Rel.mono {K' : κ → κ' → Prop} (h : m.Rel K V m') (hK : ∀ k k', K k k' → K' k k')
    (hV : ∀ v v', V v v' → W v v') : m.Rel K' W m' :=
  Paired.mono h fun _ _ => And.imp (hK _ _) (hV _ _)

theorem Rel.values (h : m.Rel K V m') : Paired V m.values m'.values :=
  Paired.map h fun _ _ => And.right

theorem Rel.size_eq (h : m.Rel K V m') : m.size = m'.size := Paired.length_eq h

/-- Keys that are one-to-one. -/
def Injective (K : κ → κ' → Prop) : Prop :=
  ∀ k k' j j', K k k' → K j j' → (k = j ↔ k' = j')

theorem injective_eq : Injective (@Eq κ) := by
  rintro k _ j _ rfl rfl
  rfl

variable [DecidableEq κ] [DecidableEq κ']

/-- Related keys find related values. -/
theorem Rel.lookup (h : m.Rel K V m') (hK : Injective K) (hk : K k k') :
    Option.Rel V (m.lookup k) (m'.lookup k') := by
  obtain ⟨l, hl, hperm⟩ := h
  have hnodup : l.NodupKeys := (List.perm_nodupKeys hperm).mpr m'.nodupKeys
  have hlookup : m'.lookup k' = List.dlookup k' l := (List.perm_dlookup k' hnodup hperm).symm
  rw [hlookup]
  show Option.Rel V (List.dlookup k m.entries) _
  generalize m.entries = entries at hl
  clear hperm hnodup hlookup
  induction hl with
  | nil => exact .none
  | @cons e e' l l' he _ ih =>
      obtain ⟨key, value⟩ := e
      obtain ⟨key', value'⟩ := e'
      by_cases heq : k = key
      · obtain rfl := heq
        obtain rfl := (hK _ _ _ _ hk he.1).mp rfl
        rw [List.dlookup_cons_eq, List.dlookup_cons_eq]
        exact .some he.2
      · have hne : k' ≠ key' := fun heq' => heq ((hK _ _ _ _ hk he.1).mpr heq')
        rw [List.dlookup_cons_ne _ _ heq, List.dlookup_cons_ne _ _ hne]
        exact ih

/-- Erasing related keys keeps maps related. -/
theorem Rel.erase (h : m.Rel K V m') (hK : Injective K) (hk : K k k') :
    (m.erase k).Rel K V (m'.erase k') := by
  obtain ⟨l, hl, hperm⟩ := h
  have hnodup : l.NodupKeys := (List.perm_nodupKeys hperm).mpr m'.nodupKeys
  refine ⟨List.kerase k' l, ?_, hperm.kerase hnodup⟩
  show List.Forall₂ _ (List.kerase k m.entries) _
  generalize m.entries = entries at hl
  clear hperm hnodup
  induction hl with
  | nil => exact .nil
  | @cons e e' l l' he hl ih =>
      by_cases heq : k = e.1
      · rw [List.kerase_cons_eq heq, List.kerase_cons_eq ((hK _ _ _ _ hk he.1).mp heq)]
        exact hl
      · have hne : k' ≠ e'.1 := fun heq' => heq ((hK _ _ _ _ hk he.1).mpr heq')
        rw [List.kerase_cons_ne heq, List.kerase_cons_ne hne]
        exact .cons he ih

/-- Inserting related entries keeps maps related. -/
theorem Rel.insert (h : m.Rel K V m') (hK : Injective K) (hk : K k k') (hv : V v v') :
    (m.insert k v).Rel K V (m'.insert k' v') :=
  (h.erase hK hk).cons ⟨hk, hv⟩

/-- A map with one key. -/
theorem values_of_single {m : UnorderedMap κ ν} {k : κ}
    (h : ∀ j v, m.lookup j = some v → j = k) : m.values = (m.lookup k).toList := by
  rcases hk : m.lookup k with - | v
  · have hempty : m.size = 0 := size_eq_zero_iff.mpr fun j => by
      rcases hj : m.lookup j with - | w
      · rfl
      · rw [h j w hj, hk] at hj
        cases hj
    rw [values, List.length_eq_zero_iff.mp hempty]
    rfl
  · have hentry : ∀ e ∈ m.entries, e = ⟨k, v⟩ := by
      rintro ⟨j, w⟩ he
      have hj : m.lookup j = some w := AList.mem_lookup_iff.mpr he
      obtain rfl := h j w hj
      rw [Option.some.inj (hj.symm.trans hk)]
    have hmem : (⟨k, v⟩ : Σ _ : κ, ν) ∈ m.entries := AList.mem_lookup_iff.mp hk
    have hnodup : m.entries.Nodup := List.NodupKeys.nodup m.nodupKeys
    have hsingle : m.entries = [⟨k, v⟩] :=
      List.perm_singleton.mp ((List.perm_ext_iff_of_nodup hnodup (List.nodup_singleton _)).mpr
        fun e => ⟨fun he => List.mem_singleton.mpr (hentry e he),
          fun he => (List.mem_singleton.mp he) ▸ hmem⟩)
    rw [values, hsingle]
    rfl

end UnorderedMap
