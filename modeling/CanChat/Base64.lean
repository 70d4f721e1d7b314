/-
CanChat/Base64.lean

Base64: three bytes as four digits, padded with `=`.

A chunk of a file travels as Base64 text.  The encoder is the browser's and
the decoder the web framework's; where a result needs to know of them only
that decoding inverts encoding, these two do as well.
-/
import Mathlib.Data.List.Basic

namespace Base64

/-- The character of six bits. -/
def digit (i : ℕ) : Char :=
  if i < 26 then Char.ofNat (65 + i)
  else if i < 52 then Char.ofNat (71 + i)
  else if i < 62 then Char.ofNat (i - 4)
  else if i = 62 then '+'
  else '/'

/-- The six bits of a character, none for a character outside the alphabet. -/
def value (c : Char) : Option ℕ :=
  (List.range 64).find? fun i => digit i = c

/-- Every six bits are read back. -/
theorem value_digit : ∀ i < 64, value (digit i) = some i := by
  decide

theorem value_pad : value '=' = none := by
  decide

/-- The pad is no digit, so the end of a text is not taken for data. -/
theorem digit_ne_pad {i : ℕ} (hi : i < 64) : digit i ≠ '=' := by
  intro heq
  have hvalue := value_digit i hi
  rw [heq, value_pad] at hvalue
  cases hvalue

/-- Three bytes give four characters; the last group is padded. -/
def encodeChars : List UInt8 → List Char
  | [] => []
  | [a] => [digit (a.toNat / 4), digit (a.toNat % 4 * 16), '=', '=']
  | [a, b] =>
      [digit (a.toNat / 4), digit (a.toNat % 4 * 16 + b.toNat / 16), digit (b.toNat % 16 * 4), '=']
  | a :: b :: c :: rest =>
      digit (a.toNat / 4) :: digit (a.toNat % 4 * 16 + b.toNat / 16) ::
        digit (b.toNat % 16 * 4 + c.toNat / 64) :: digit (c.toNat % 64) :: encodeChars rest

/-- Four characters give three bytes; at a pad the data ends. -/
def decodeChars : List Char → Option (List UInt8)
  | [] => some []
  | w :: x :: y :: z :: rest => do
      let w ← value w
      let x ← value x
      let a := UInt8.ofNat (w * 4 + x / 16)
      if y = '=' then
        return [a]
      else
        let y ← value y
        let b := UInt8.ofNat (x % 16 * 16 + y / 4)
        if z = '=' then
          return [a, b]
        else
          let z ← value z
          return a :: b :: UInt8.ofNat (y % 4 * 64 + z) :: (← decodeChars rest)
  | _ => none

/-- The base64 text of `data`. -/
def encode (data : List UInt8) : String := String.ofList (encodeChars data)

/-- The bytes of a base64 text. -/
def decode (text : String) : Option (List UInt8) := decodeChars text.toList

theorem ofNat_eq {a : UInt8} {n : ℕ} (h : n = a.toNat) : UInt8.ofNat n = a := by
  rw [h, UInt8.ofNat_toNat]

/-- Decoding undoes encoding, by induction on groups of three bytes. -/
theorem decodeChars_encodeChars (data : List UInt8) :
    decodeChars (encodeChars data) = some data := by
  induction data using encodeChars.induct with
  | case1 => rfl
  | case2 a =>
      have ha := a.toNat_lt
      have h₁ := value_digit (a.toNat / 4) (by omega)
      have h₂ := value_digit (a.toNat % 4 * 16) (by omega)
      have hfirst : UInt8.ofNat (a.toNat / 4 * 4 + a.toNat % 4 * 16 / 16) = a := ofNat_eq (by omega)
      simp only [encodeChars, decodeChars, h₁, h₂, Option.bind_eq_bind, Option.bind_some, if_true,
        hfirst, Option.pure_def]
  | case3 a b =>
      have ha := a.toNat_lt
      have hb := b.toNat_lt
      have h₁ := value_digit (a.toNat / 4) (by omega)
      have h₂ := value_digit (a.toNat % 4 * 16 + b.toNat / 16) (by omega)
      have h₃ := value_digit (b.toNat % 16 * 4) (by omega)
      have hpad := digit_ne_pad (i := b.toNat % 16 * 4) (by omega)
      have hfirst : UInt8.ofNat (a.toNat / 4 * 4 + (a.toNat % 4 * 16 + b.toNat / 16) / 16) = a :=
        ofNat_eq (by omega)
      have hsecond : UInt8.ofNat ((a.toNat % 4 * 16 + b.toNat / 16) % 16 * 16 +
          b.toNat % 16 * 4 / 4) = b := ofNat_eq (by omega)
      simp only [encodeChars, decodeChars, h₁, h₂, h₃, Option.bind_eq_bind, Option.bind_some, hpad,
        if_false, if_true, hfirst, hsecond, Option.pure_def]
  | case4 a b c rest ih =>
      have ha := a.toNat_lt
      have hb := b.toNat_lt
      have hc := c.toNat_lt
      have h₁ := value_digit (a.toNat / 4) (by omega)
      have h₂ := value_digit (a.toNat % 4 * 16 + b.toNat / 16) (by omega)
      have h₃ := value_digit (b.toNat % 16 * 4 + c.toNat / 64) (by omega)
      have h₄ := value_digit (c.toNat % 64) (by omega)
      have hpad₃ := digit_ne_pad (i := b.toNat % 16 * 4 + c.toNat / 64) (by omega)
      have hpad₄ := digit_ne_pad (i := c.toNat % 64) (by omega)
      have hfirst : UInt8.ofNat (a.toNat / 4 * 4 + (a.toNat % 4 * 16 + b.toNat / 16) / 16) = a :=
        ofNat_eq (by omega)
      have hsecond : UInt8.ofNat ((a.toNat % 4 * 16 + b.toNat / 16) % 16 * 16 +
          (b.toNat % 16 * 4 + c.toNat / 64) / 4) = b := ofNat_eq (by omega)
      have hthird : UInt8.ofNat ((b.toNat % 16 * 4 + c.toNat / 64) % 4 * 64 + c.toNat % 64) = c :=
        ofNat_eq (by omega)
      simp only [encodeChars, decodeChars, h₁, h₂, h₃, h₄, Option.bind_eq_bind, Option.bind_some,
        hpad₃, hpad₄, if_false, ih, hfirst, hsecond, hthird, Option.pure_def]

/-- **Decoding inverts encoding.** -/
theorem decode_encode (data : List UInt8) : decode (encode data) = some data := by
  rw [decode, encode, String.toList_ofList, decodeChars_encodeChars]

example : encode [77, 97, 110] = "TWFu" := by decide

end Base64
