/-
CanChat/JsonText.lean

The text of a JSON value, and how many bytes it takes on the wire.

A JavaScript string is a sequence of UTF-16 code units, any of which may be a
lone half of a surrogate pair.  `JSON.stringify` escapes quotes, backslashes,
control characters and lone halves; a websocket then sends the text as UTF-8.
So a unit of a string takes from one byte to six, and a pair takes four:
`escapedSize` adds this up, and `size_quote` is the length it leads to.

The text of a value is built from pieces that do not end in an open half of a
pair (`Whole`); the sizes of such pieces add up.
-/
import Mathlib.Data.Bool.AllAny
import Mathlib.Data.Nat.Digits.Lemmas
import Mathlib.Algebra.BigOperators.Group.List.Basic

namespace JsonText

/-- A JavaScript string. -/
abbrev JsString := List UInt16

/-- The first unit of a surrogate pair. -/
def isHigh (u : UInt16) : Bool := 0xD800 ≤ u && u < 0xDC00

/-- The second unit of a surrogate pair. -/
def isLow (u : UInt16) : Bool := 0xDC00 ≤ u && u < 0xE000

/-! ### UTF-8 -/

/-- A code unit on its own; a lone half of a pair is sent as U+FFFD. -/
def utf8Unit (u : UInt16) : List UInt8 :=
  let n := u.toNat
  if n < 0x80 then
    [.ofNat n]
  else if n < 0x800 then
    [.ofNat (0xC0 + n / 64), .ofNat (0x80 + n % 64)]
  else if isHigh u || isLow u then
    [0xEF, 0xBF, 0xBD]
  else
    [.ofNat (0xE0 + n / 4096), .ofNat (0x80 + n / 64 % 64), .ofNat (0x80 + n % 64)]

/-- The four bytes of a surrogate pair. -/
def utf8Pair (u v : UInt16) : List UInt8 :=
  let n := 0x10000 + (u.toNat - 0xD800) * 1024 + (v.toNat - 0xDC00)
  [.ofNat (0xF0 + n / 262144), .ofNat (0x80 + n / 4096 % 64), .ofNat (0x80 + n / 64 % 64),
    .ofNat (0x80 + n % 64)]

/-- The bytes of a string as `WebSocket.send` encodes it; a unit without its
partner becomes U+FFFD. -/
def utf8 : JsString → List UInt8
  | [] => []
  | [u] => utf8Unit u
  | u :: v :: rest =>
      if isHigh u && isLow v then utf8Pair u v ++ utf8 rest else utf8Unit u ++ utf8 (v :: rest)

/-- The number of bytes of the text on the wire. -/
def size (s : JsString) : ℕ := (utf8 s).length

/-! ### Strings -/

/-- The escapes of one letter. -/
def shortEscape (u : UInt16) : Option UInt16 :=
  match u.toNat with
  | 0x22 => some 0x22
  | 0x5C => some 0x5C
  | 0x08 => some 0x62
  | 0x09 => some 0x74
  | 0x0A => some 0x6E
  | 0x0C => some 0x66
  | 0x0D => some 0x72
  | _ => none

/-- The digit of four bits, in lower case. -/
def hexDigit (n : ℕ) : UInt16 := .ofNat (if n < 10 then 0x30 + n else 0x57 + n)

/-- The escape `\u` with four digits. -/
def unicodeEscape (u : UInt16) : JsString :=
  let n := u.toNat
  [0x5C, 0x75, hexDigit (n / 4096), hexDigit (n / 256 % 16), hexDigit (n / 16 % 16),
    hexDigit (n % 16)]

/-- What `JSON.stringify` writes for one unit. -/
def escapeUnit (u : UInt16) : JsString :=
  match shortEscape u with
  | some letter => [0x5C, letter]
  | none => if u < 0x20 || isHigh u || isLow u then unicodeEscape u else [u]

/-- What `JSON.stringify` writes for the units of a string. -/
def escape : JsString → JsString
  | [] => []
  | [u] => escapeUnit u
  | u :: v :: rest =>
      if isHigh u && isLow v then u :: v :: escape rest else escapeUnit u ++ escape (v :: rest)

/-- A string as a JSON value. -/
def quote (s : JsString) : JsString := 0x22 :: (escape s ++ [0x22])

/-- The bytes an escaped unit takes. -/
def width (u : UInt16) : ℕ :=
  if (shortEscape u).isSome then 2
  else if u < 0x20 || isHigh u || isLow u then 6
  else if u < 0x80 then 1
  else if u < 0x800 then 2
  else 3

/-- The bytes an escaped string takes. -/
def escapedSize : JsString → ℕ
  | [] => 0
  | [u] => width u
  | u :: v :: rest =>
      if isHigh u && isLow v then 4 + escapedSize rest else width u + escapedSize (v :: rest)

/-! ### Values -/

/-- Text in ASCII. -/
def ascii (text : String) : JsString := text.toList.map fun c => .ofNat c.toNat

/-- A number that is a natural, printed in full. -/
def decimal (n : ℕ) : JsString :=
  if n = 0 then ascii "0" else (Nat.digits 10 n).reverse.map fun d => .ofNat (0x30 + d)

/-- The values with a comma between any two. -/
def commas (values : List JsString) : JsString := (ascii ",").intercalate values

/-- The text of an array, from the texts of its values. -/
def array (values : List JsString) : JsString := ascii "[" ++ (commas values ++ ascii "]")

/-- A member of an object. -/
def member (key : String) (value : JsString) : JsString := quote (ascii key) ++ (ascii ":" ++ value)

/-- The text of an object, from the texts of its members. -/
def object (members : List JsString) : JsString := ascii "\x7b" ++ (commas members ++ ascii "\x7d")

/-! ### Sizes -/

/-- The text ends between characters. -/
def Whole (s : JsString) : Prop := ∀ t, size (s ++ t) = size s + size t

theorem size_cons {u : UInt16} (h : isHigh u = false) (t : JsString) :
    size (u :: t) = (utf8Unit u).length + size t := by
  cases t with
  | nil => simp [size, utf8]
  | cons v rest => simp [size, utf8, h]

/-- A unit below the surrogates. -/
theorem size_cons_of_lt {u : UInt16} (h : u < 0x80) (t : JsString) :
    size (u :: t) = 1 + size t := by
  have hlt : u.toNat < 128 := h
  have hhigh : isHigh u = false := by
    simp only [isHigh, Bool.and_eq_false_iff, decide_eq_false_iff_not]
    exact .inl fun hge => absurd (show (0xD800 : ℕ) ≤ u.toNat from hge) (by omega)
  rw [size_cons hhigh, utf8Unit, if_pos hlt, List.length_singleton]

/-- An ASCII string has one byte a unit, whatever follows. -/
theorem size_append_of_ascii {s : JsString} (h : ∀ u ∈ s, u < 0x80) (t : JsString) :
    size (s ++ t) = s.length + size t := by
  induction s with
  | nil => simp
  | cons u s ih =>
      rw [List.cons_append, size_cons_of_lt (h u List.mem_cons_self),
        ih fun v hv => h v (List.mem_cons_of_mem u hv), List.length_cons]
      omega

theorem size_of_ascii {s : JsString} (h : ∀ u ∈ s, u < 0x80) : size s = s.length := by
  simpa [size, utf8] using size_append_of_ascii h []

theorem whole_of_ascii {s : JsString} (h : ∀ u ∈ s, u < 0x80) : Whole s := by
  intro t
  rw [size_append_of_ascii h, size_of_ascii h]

/-- Two strings that end between characters make one that does. -/
theorem Whole.append {s t : JsString} (hs : Whole s) (ht : Whole t) : Whole (s ++ t) := by
  intro r
  rw [List.append_assoc, hs, ht, hs, Nat.add_assoc]

theorem shortEscape_lt {u letter : UInt16} (h : shortEscape u = some letter) : letter < 0x80 := by
  unfold shortEscape at h
  split at h <;> cases h <;> decide

theorem hexDigit_lt : ∀ n < 16, hexDigit n < 0x80 := by
  decide

theorem ascii_unicodeEscape (u : UInt16) : ∀ v ∈ unicodeEscape u, v < 0x80 := by
  have hlt := u.toNat_lt
  intro v hv
  simp only [unicodeEscape, List.mem_cons, List.not_mem_nil, or_false] at hv
  rcases hv with rfl | rfl | rfl | rfl | rfl | rfl
  · decide
  · decide
  · exact hexDigit_lt _ (by omega)
  · exact hexDigit_lt _ (by omega)
  · exact hexDigit_lt _ (by omega)
  · exact hexDigit_lt _ (by omega)

/-- A unit that is no half of a pair takes `width` bytes. -/
theorem size_escapeUnit_append (u : UInt16) (t : JsString) :
    size (escapeUnit u ++ t) = width u + size t := by
  unfold escapeUnit width
  rcases hshort : shortEscape u with - | letter
  · dsimp only [Option.isSome_none]
    by_cases hunicode : (u < 0x20 || isHigh u || isLow u) = true
    · rw [if_pos hunicode, if_neg Bool.false_ne_true, if_pos hunicode,
        size_append_of_ascii (ascii_unicodeEscape u)]
      rfl
    · rw [if_neg hunicode, if_neg Bool.false_ne_true, if_neg hunicode, List.singleton_append]
      simp only [Bool.or_eq_true, not_or, Bool.not_eq_true] at hunicode
      obtain ⟨⟨-, hhigh⟩, hlow⟩ := hunicode
      rw [size_cons hhigh, utf8Unit]
      have h80 : u < 0x80 ↔ u.toNat < 0x80 := Iff.rfl
      have h800 : u < 0x800 ↔ u.toNat < 0x800 := Iff.rfl
      simp only [h80, h800, hhigh, hlow, Bool.or_self, Bool.false_eq_true, if_false]
      split
      · rfl
      · split
        · rfl
        · rfl
  · have hletter : ∀ v ∈ [0x5C, letter], v < 0x80 := by
      intro v hv
      rcases List.mem_pair.mp hv with rfl | rfl
      · decide
      · exact shortEscape_lt hshort
    exact size_append_of_ascii hletter t

/-- The size of an escaped string, whatever follows. -/
theorem size_escape_append (s t : JsString) : size (escape s ++ t) = escapedSize s + size t := by
  induction s using escape.induct with
  | case1 => simp [escape, escapedSize]
  | case2 u => exact size_escapeUnit_append u t
  | case3 u v rest hpair ih =>
      have hcons : size (u :: v :: (escape rest ++ t)) = 4 + size (escape rest ++ t) := by
        simp only [size, utf8, hpair, if_true, List.length_append]
        rfl
      rw [escape, if_pos hpair, escapedSize, if_pos hpair]
      show size (u :: v :: (escape rest ++ t)) = _
      rw [hcons, ih, Nat.add_assoc]
  | case4 u v rest hpair ih =>
      rw [escape, if_neg hpair, escapedSize, if_neg hpair, List.append_assoc,
        size_escapeUnit_append, ih, Nat.add_assoc]

/-- **The size of a string** as a JSON value. -/
theorem size_quote_append (s t : JsString) : size (quote s ++ t) = escapedSize s + 2 + size t := by
  have hquote : (0x22 : UInt16) < 0x80 := by decide
  rw [quote, List.cons_append, size_cons_of_lt hquote, List.append_assoc, size_escape_append,
    List.singleton_append, size_cons_of_lt hquote]
  omega

/-- A string literal has two bytes more than its escaped text. -/
theorem size_quote (s : JsString) : size (quote s) = escapedSize s + 2 := by
  simpa [size, utf8] using size_quote_append s []

theorem whole_quote (s : JsString) : Whole (quote s) := by
  intro t
  rw [size_quote_append, size_quote]

theorem ascii_decimal (n : ℕ) : ∀ u ∈ decimal n, u < 0x80 := by
  unfold decimal
  split
  · exact List.all_iff_forall_prop.mp (by decide)
  · intro u hu
    obtain ⟨d, hd, rfl⟩ := List.mem_map.mp hu
    have hdigit : ∀ d < 10, UInt16.ofNat (0x30 + d) < 0x80 := by decide
    exact hdigit d (Nat.digits_lt_base (by decide) (List.mem_reverse.mp hd))

theorem whole_decimal (n : ℕ) : Whole (decimal n) := whole_of_ascii (ascii_decimal n)

/-- The number of digits. -/
theorem size_decimal (n : ℕ) : size (decimal n) = (decimal n).length :=
  size_of_ascii (ascii_decimal n)

/-- A number below `10 ^ k` has `k` digits at most. -/
theorem size_decimal_le {n k : ℕ} (hk : 0 < k) (h : n < 10 ^ k) : size (decimal n) ≤ k := by
  rw [size_decimal, decimal]
  split
  · exact hk
  · rw [List.length_map, List.length_reverse]
    exact (Nat.digits_length_le_iff (by decide) n).mpr h

/-- The sizes of the values and one byte for each comma. -/
theorem size_commas_append {values : List JsString} (h : ∀ v ∈ values, Whole v) (t : JsString) :
    size (commas values ++ t) = (values.map size).sum + (values.length - 1) + size t := by
  have hcomma : ∀ s, size (ascii "," ++ s) = 1 + size s := size_cons_of_lt (by decide)
  induction values with
  | nil => simp [commas]
  | cons v values ih =>
      rcases values with - | ⟨w, values⟩
      · simp [commas, h v List.mem_cons_self t]
      · have ih := ih fun x hx => h x (List.mem_cons_of_mem v hx)
        rw [commas] at ih ⊢
        rw [List.intercalate_cons_cons, List.append_assoc, List.append_assoc,
          h v List.mem_cons_self, hcomma, ih]
        simp only [List.map_cons, List.sum_cons, List.length_cons]
        omega

/-- A list of values between brackets. -/
theorem size_brackets {values : List JsString} (h : ∀ v ∈ values, Whole v) {left right : JsString}
    (hleft : ∀ t, size (left ++ t) = 1 + size t) (hright : size right = 1) :
    size (left ++ (commas values ++ right)) =
      2 + (values.map size).sum + (values.length - 1) := by
  rw [hleft, size_commas_append h, hright]
  omega

/-- The sizes of the values, the commas and the brackets. -/
theorem size_array {values : List JsString} (h : ∀ v ∈ values, Whole v) :
    size (array values) = 2 + (values.map size).sum + (values.length - 1) :=
  size_brackets h (size_cons_of_lt (by decide)) (by decide)

/-- The sizes of the members, the commas and the braces. -/
theorem size_object {members : List JsString} (h : ∀ m ∈ members, Whole m) :
    size (object members) = 2 + (members.map size).sum + (members.length - 1) :=
  size_brackets h (size_cons_of_lt (by decide)) (by decide)

theorem size_brackets_append {values : List JsString} (h : ∀ v ∈ values, Whole v)
    {left right : JsString} (hleft : ∀ t, size (left ++ t) = 1 + size t)
    (hright : ∀ t, size (right ++ t) = 1 + size t) : Whole (left ++ (commas values ++ right)) := by
  intro t
  have hright' : size right = 1 := by simpa [size, utf8] using hright []
  rw [size_brackets h hleft hright', List.append_assoc, List.append_assoc, hleft,
    size_commas_append h, hright]
  omega

theorem whole_array {values : List JsString} (h : ∀ v ∈ values, Whole v) : Whole (array values) :=
  size_brackets_append h (size_cons_of_lt (by decide)) (size_cons_of_lt (by decide))

theorem whole_object {members : List JsString} (h : ∀ m ∈ members, Whole m) :
    Whole (object members) :=
  size_brackets_append h (size_cons_of_lt (by decide)) (size_cons_of_lt (by decide))

/-- A member has its key in quotation marks, a colon and its value. -/
theorem size_member (key : String) (value : JsString) :
    size (member key value) = escapedSize (ascii key) + 3 + size value := by
  have hcolon : size (ascii ":" ++ value) = 1 + size value := size_cons_of_lt (by decide) value
  rw [member, size_quote_append, hcolon]
  omega

theorem whole_member (key : String) {value : JsString} (h : Whole value) :
    Whole (member key value) :=
  (whole_quote _).append ((whole_of_ascii (List.all_iff_forall_prop.mp (by decide))).append h)

end JsonText
