/-
CanChat/Scanner.lean

Texts read from left to right up to a delimiter.

A scanner looks at one symbol and at what follows it.  It closes, it fails, or
it puts out some symbols for this one and for as many of the next as it takes
along.  Attribute values, string literals and quoted strings are read like this:
most symbols stand for themselves, and an escape takes more than it puts out.

`Reads` is the same reading as a relation, with what was consumed.  A scanner
that is `Shrinking` puts out what it consumed only if every symbol stood for
itself (`Reads.verbatim`).
-/
import Mathlib.Data.List.Basic

namespace Scanner

variable {α : Type}

/-- What one step reads: the delimiter, nothing valid, or a value. -/
inductive Step (α : Type)
  | close
  | fail
  /-- `value` for this symbol and the next `more` -/
  | emit (value : List α) (more : ℕ)

variable {step : α → List α → Step α} {text rest consumed value tail : List α} {u close : α}

/-- What is put out up to the delimiter, and the text behind it; the first
`skip` symbols are taken along. -/
def scan (step : α → List α → Step α) : ℕ → List α → Option (List α × List α)
  | _, [] => none
  | skip + 1, _ :: text => scan step skip text
  | 0, u :: text =>
      match step u text with
      | .close => some ([], text)
      | .fail => none
      | .emit value more => (scan step more text).map fun read => (value ++ read.1, read.2)

/-- A skipped token is passed over. -/
theorem scan_skip {skip : ℕ} {read : List α × List α} (h : scan step skip text = some read) :
    ∃ token later, text = token ++ later ∧ token.length = skip ∧ scan step 0 later = some read := by
  induction skip generalizing text with
  | zero => exact ⟨[], text, rfl, rfl, h⟩
  | succ skip ih =>
      rcases text with - | ⟨u, text⟩
      · cases h
      · rw [scan] at h
        obtain ⟨token, later, rfl, rfl, hlater⟩ := ih h
        exact ⟨u :: token, later, rfl, rfl, hlater⟩

/-! ### Reading as a relation -/

/-- `consumed` is put out as `value` when `tail`, which begins with the
delimiter, comes after it. -/
inductive Reads (step : α → List α → Step α) (tail : List α) : List α → List α → Prop
  | nil : Reads step tail [] []
  | cons {u : α} {token consumed value read : List α}
      (hstep : step u (token ++ consumed ++ tail) = .emit value token.length)
      (hread : Reads step tail consumed read) :
      Reads step tail (u :: token ++ consumed) (value ++ read)

/-- A text that is read is a sequence of steps up to the one that closes it. -/
theorem reads_of_scan (h : scan step 0 text = some (value, rest)) :
    ∃ consumed close, text = consumed ++ close :: rest ∧ step close rest = .close ∧
      Reads step (close :: rest) consumed value := by
  induction hn : text.length using Nat.strongRecOn generalizing text value with
  | _ n ih =>
    rcases text with - | ⟨u, text⟩
    · cases h
    rw [scan] at h
    split at h
    · next hclose =>
      obtain ⟨rfl, rfl⟩ := Prod.mk.inj (Option.some.inj h)
      exact ⟨[], u, rfl, hclose, .nil⟩
    · cases h
    · next emitted more hstep =>
      obtain ⟨⟨read, rest'⟩, hscan, heq⟩ := Option.map_eq_some_iff.mp h
      obtain ⟨rfl, rfl⟩ := Prod.mk.inj heq
      obtain ⟨token, later, rfl, rfl, hlater⟩ := scan_skip hscan
      have hlt : later.length < n := by
        rw [← hn, List.length_cons, List.length_append]
        omega
      obtain ⟨consumed, close, rfl, hclose, hread⟩ := ih _ hlt hlater rfl
      refine ⟨u :: token ++ consumed, close, by simp, hclose, .cons ?_ hread⟩
      rw [List.append_assoc]
      exact hstep

/-! ### Verbatim -/

/-- Every symbol of the text stands for itself. -/
def Verbatim (step : α → List α → Step α) (text tail : List α) : Prop :=
  ∀ before u after, text = before ++ u :: after → step u (after ++ tail) = .emit [u] 0

theorem Verbatim.of_cons (h : Verbatim step (u :: text) tail) : Verbatim step text tail :=
  fun before v after heq => h (u :: before) v after (by rw [heq, List.cons_append])

/-- A text is read as itself exactly if its parts are. -/
theorem verbatim_append {text' : List α} : Verbatim step (text ++ text') tail ↔
    Verbatim step text (text' ++ tail) ∧ Verbatim step text' tail := by
  constructor
  · refine fun h => ⟨fun before u after heq => ?_, fun before u after heq => ?_⟩
    · rw [← List.append_assoc]
      exact h before u (after ++ text') (by simp [heq])
    · exact h (text ++ before) u after (by simp [heq])
  · rintro ⟨h, h'⟩ before u after heq
    rcases List.append_eq_append_iff.mp heq with ⟨before', rfl, heq'⟩ | ⟨later, rfl, heq'⟩
    · exact h' before' u after heq'
    · rcases later with - | ⟨v, later⟩
      · exact h' [] u after heq'.symm
      · obtain ⟨rfl, hafter⟩ := List.cons.inj heq'
        have hafter : after ++ tail = later ++ (text' ++ tail) := by
          rw [hafter]
          exact List.append_assoc later text' tail
        rw [hafter]
        exact h before u later rfl

/-- A text read as itself is the value. -/
theorem scan_verbatim (h : Verbatim step text (close :: tail))
    (hclose : step close tail = .close) :
    scan step 0 (text ++ close :: tail) = some (text, tail) := by
  induction text with
  | nil =>
      rw [List.nil_append, scan, hclose]
  | cons u text ih =>
      rw [List.cons_append, scan, h [] u text rfl]
      dsimp only
      rw [ih h.of_cons]
      rfl

/-- An escape takes more symbols than it puts out. -/
def Shrinking (step : α → List α → Step α) : Prop :=
  ∀ u text value more, step u text = .emit value more →
    (value.length = 1 ∧ more = 0) ∨ value.length ≤ more

/-- Where no step expands, the value is no longer than the text. -/
theorem Reads.length_le (h : Reads step tail consumed value) (hstep : Shrinking step) :
    value.length ≤ consumed.length := by
  induction h with
  | nil => exact Nat.le_refl _
  | cons hemit _ ih =>
      rw [List.length_append, List.length_append, List.length_cons]
      rcases hstep _ _ _ _ hemit with ⟨hone, -⟩ | hle
      · omega
      · omega

/-- What is put out as it was consumed was not escaped. -/
theorem Reads.verbatim (h : Reads step tail consumed value) (hstep : Shrinking step)
    (heq : value = consumed) : Verbatim step consumed tail := by
  induction h with
  | nil =>
      intro before u after hnil
      simp at hnil
  | @cons u token consumed emitted read hemit hread ih =>
      have hle := hread.length_le hstep
      have hlength := congrArg List.length heq
      rw [List.length_append, List.length_append, List.length_cons] at hlength
      rcases hstep _ _ _ _ hemit with ⟨hone, htoken⟩ | hlong
      · obtain rfl := List.length_eq_zero_iff.mp htoken
        obtain ⟨v, rfl⟩ := List.length_eq_one_iff.mp hone
        obtain ⟨rfl, rfl⟩ := List.cons.inj heq
        intro before w after hsplit
        rcases before with - | ⟨first, before⟩
        · obtain ⟨rfl, rfl⟩ := List.cons.inj hsplit
          exact hemit
        · exact ih rfl before w after (List.cons.inj hsplit).2
      · omega

end Scanner
