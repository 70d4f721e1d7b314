/-
CanChat/RoomPage.lean

The page of a room and its script (server/src/controller/StaticController.hpp,
front/chat/index.html), and how a browser reads them.

Texts are sequences of UTF-16 code units; every symbol that means something to
the regular expression, to HTML or to JavaScript is one unit.

Design.  The browser's table of character references is a parameter, with what
holds of all of them.  A URL is requested as it is written, and the router
binds a path variable to the text between two slashes.
-/
import Mathlib.Data.List.TakeWhile
import CanChat.JsonText
import CanChat.Scanner

namespace CanChat

open JsonText Scanner

namespace RoomPage

/-! ### Rooms in paths -/

/-- An id that the router can bind. -/
@[ext] structure RoomId where
  text : JsString
  nonempty : text ≠ []
  bare : ∀ u ∈ text, u ≠ 0x2F ∧ u ≠ 0x3F
  deriving DecidableEq

/-- What the router binds `{roomId}` to; a slash at the end of a pattern makes
no difference. -/
def pathVariable (before after path : JsString) : Option RoomId :=
  (before.isPrefixOf? path).bind fun rest =>
    let value := rest.takeWhile fun u => u != 0x2F && u != 0x3F
    if h : value ≠ [] ∧ rest.drop value.length = after then
      some ⟨value, h.1, fun u hu => by simpa using List.mem_takeWhile_imp hu⟩
    else
      none

/-! ### `std::regex_replace` -/

/-- The regular expression of `ChatHTML`, which matches itself. -/
def marker : JsString := ascii "%%%ROOM_ID%%%"

def isDigit (u : UInt16) : Bool := 0x30 ≤ u && u ≤ 0x39

def digitValue (u : UInt16) : ℕ := u.toNat - 0x30

inductive Piece
  | unit (u : UInt16)
  /-- `$&` -/
  | whole
  /-- a dollar sign and a backtick -/
  | before
  /-- a dollar sign and an apostrophe -/
  | after
  /-- `$n` or `$nn` -/
  | capture (n : ℕ)

/-- A replacement by the format rules of ECMAScript. -/
def pieces : JsString → List Piece
  | [] => []
  | u :: fmt =>
      if u = 0x24 then
        match fmt with
        | [] => [.unit 0x24]
        | v :: fmt =>
            if v = 0x24 then .unit 0x24 :: pieces fmt
            else if v = 0x26 then .whole :: pieces fmt
            else if v = 0x60 then .before :: pieces fmt
            else if v = 0x27 then .after :: pieces fmt
            else if isDigit v then
              match fmt with
              | [] => [.capture (digitValue v)]
              | w :: fmt =>
                  if isDigit w then .capture (10 * digitValue v + digitValue w) :: pieces fmt
                  else .capture (digitValue v) :: pieces (w :: fmt)
            else .unit 0x24 :: pieces (v :: fmt)
      else .unit u :: pieces fmt

/-- The expression has no groups: `$0` is the match, any other group is empty. -/
def Piece.expand (before after : JsString) : Piece → JsString
  | .unit u => [u]
  | .whole => marker
  | .before => before
  | .after => after
  | .capture n => if n = 0 then marker else []

/-- `format` of a match between `before` and `after`. -/
def format (fmt before after : JsString) : JsString :=
  (pieces fmt).flatMap (Piece.expand before after)

/-- `since` is the text since the last match, of which `skip` units are still
to come. -/
def regexReplace (fmt : JsString) : ℕ → JsString → JsString → JsString
  | _, _, [] => []
  | skip + 1, since, _ :: text => regexReplace fmt skip since text
  | 0, since, u :: text =>
      if marker.isPrefixOf (u :: text) then
        format fmt since ((u :: text).drop marker.length) ++
          regexReplace fmt (marker.length - 1) [] text
      else
        u :: regexReplace fmt 0 (since ++ [u]) text

/-! ### What the server sends -/

def pageStart : JsString := ascii "<!DOCTYPE html>\n<html lang=\""

def pageEnd : JsString := ascii "/chat.js\"></script>\n\n</html>"

/-- `front/chat/index.html`: the marker is there once, in the address of the
script at its end. -/
structure Template where
  /-- from the language of the page to the tag of the script -/
  middle : JsString
  unmarked : ¬ marker <:+: pageStart ++ middle ++ ascii "<script src=\"/room/"

namespace Template

def before (t : Template) : JsString := pageStart ++ t.middle ++ ascii "<script src=\"/room/"

def text (t : Template) : JsString := t.before ++ marker ++ pageEnd

end Template

/-- `StaticController::ChatHTML` -/
def chatHTML (t : Template) (id : RoomId) : JsString := regexReplace id.text 0 [] t.text

/-- `StaticController::ChatJS`; `baseUrl` is `getWebsocketBaseUrl`, and
`fileCache` the file `chat.js`. -/
def chatJS (baseUrl fileCache : JsString) (id : RoomId) : JsString :=
  ascii "let urlWebsocket = \"" ++ baseUrl ++ ascii "/api/ws/room/" ++ id.text ++ ascii "\";\n" ++
    ascii "let urlRoom = \"/room/" ++ id.text ++ ascii "\";\n" ++ ascii "\n" ++ fileCache

/-! ### Attribute values -/

/-- A symbol that both the format and HTML give a meaning. -/
def isSign (u : UInt16) : Bool := u == 0x24 || u == 0x26

/-- How a browser replaces character references in an attribute value: by what,
and how many units behind the ampersand belong to one. -/
structure References where
  decode : JsString → Option (JsString × ℕ)
  /-- a name is no shorter than what it stands for -/
  length_le : ∀ {text value n}, decode text = some (value, n) → value.length ≤ n
  /-- it stands for one symbol, or for two that are no signs -/
  signs_le : ∀ {text value n}, decode text = some (value, n) → value.countP isSign ≤ 1
  unquoted : ∀ {text value n}, decode text = some (value, n) → 0x22 ∉ text.take n

/-- The newlines of the input stream of HTML. -/
def normalizeNewlines : Bool → JsString → JsString
  | _, [] => []
  | afterReturn, u :: text =>
      if afterReturn && u == 0x0A then normalizeNewlines false text
      else if u = 0x0D then 0x0A :: normalizeNewlines true text
      else u :: normalizeNewlines false text

/-- The double-quoted attribute value state. -/
def attributeStep (refs : References) (u : UInt16) (text : JsString) : Step UInt16 :=
  if u = 0x22 then .close
  else if u = 0x26 then
    match refs.decode text with
    | none => .emit [u] 0
    | some (value, n) => .emit value n
  else if u = 0 then .emit [0xFFFD] 0
  else .emit [u] 0

/-- The address of the script. -/
def scriptSrc (refs : References) (t : Template) (html : JsString) : Option JsString :=
  ((pageStart ++ t.middle ++ ascii "<script src=\"").isPrefixOf? html).bind fun text =>
    (scan (attributeStep refs) 0 (normalizeNewlines false text)).map Prod.fst

/-! ### String literals -/

def hexValue (u : UInt16) : Option ℕ :=
  if 0x30 ≤ u && u ≤ 0x39 then some (u.toNat - 0x30)
  else if 0x41 ≤ u && u ≤ 0x46 then some (u.toNat - 0x37)
  else if 0x61 ≤ u && u ≤ 0x66 then some (u.toNat - 0x57)
  else none

/-- A number of exactly `n` hexadecimal digits. -/
def readHex : ℕ → ℕ → JsString → Option ℕ
  | 0, value, _ => some value
  | _ + 1, _, [] => none
  | n + 1, value, u :: text => (hexValue u).bind fun digit => readHex n (16 * value + digit) text

/-- The digits up to a closing brace, and how many there are. -/
def readCodePoint : ℕ → ℕ → JsString → Option (ℕ × ℕ)
  | _, _, [] => none
  | value, count, u :: text =>
      if u = 0x7D then
        if count = 0 then none else some (value, count)
      else
        (hexValue u).bind fun digit =>
          if 16 * value + digit > 0x10FFFF then none
          else readCodePoint (16 * value + digit) (count + 1) text

def codePointUnits (c : ℕ) : JsString :=
  if c < 0x10000 then [.ofNat c]
  else [.ofNat (0xD800 + (c - 0x10000) / 1024), .ofNat (0xDC00 + (c - 0x10000) % 1024)]

def octalValue (u : UInt16) : Option ℕ :=
  if 0x30 ≤ u && u ≤ 0x37 then some (u.toNat - 0x30) else none

/-- Up to three octal digits, as long as they make one byte. -/
def legacyOctal (first : ℕ) (text : JsString) : JsString × ℕ :=
  match text.head?.bind octalValue with
  | none => ([.ofNat first], 1)
  | some second =>
      match text.tail.head?.bind octalValue with
      | none => ([.ofNat (8 * first + second)], 2)
      | some third =>
          if first ≤ 3 then ([.ofNat (64 * first + 8 * second + third)], 3)
          else ([.ofNat (8 * first + second)], 2)

/-- The escapes of one letter, and the symbols that stand for themselves. -/
def singleEscape (u : UInt16) : UInt16 :=
  match u.toNat with
  | 0x62 => 0x08
  | 0x74 => 0x09
  | 0x6E => 0x0A
  | 0x76 => 0x0B
  | 0x66 => 0x0C
  | 0x72 => 0x0D
  | _ => u

/-- What is behind a backslash: its value, and how many units belong to it. -/
def escapeSequence : JsString → Option (JsString × ℕ)
  | [] => none
  | u :: text =>
      if u = 0x0D then some ([], if text.head? = some 0x0A then 2 else 1)
      else if u = 0x0A ∨ u = 0x2028 ∨ u = 0x2029 then some ([], 1)
      else if u = 0x78 then (readHex 2 0 text).map fun value => ([.ofNat value], 3)
      else if u = 0x75 then
        if text.head? = some 0x7B then
          (readCodePoint 0 0 text.tail).map fun point => (codePointUnits point.1, point.2 + 3)
        else
          (readHex 4 0 text).map fun value => ([.ofNat value], 5)
      else
        match octalValue u with
        | some first => some (legacyOctal first text)
        | none => some ([singleEscape u], 1)

def literalStep (u : UInt16) (text : JsString) : Step UInt16 :=
  if u = 0x22 then .close
  else if u = 0x0A ∨ u = 0x0D then .fail
  else if u = 0x5C then
    match escapeSequence text with
    | none => .fail
    | some (value, n) => .emit value n
  else .emit [u] 0

/-- The values of `urlWebsocket` and `urlRoom`, if the script begins with two
literals that have any. -/
def declarations (script : JsString) : Option (JsString × JsString) :=
  ((ascii "let urlWebsocket = \"").isPrefixOf? script).bind fun text =>
    (scan literalStep 0 text).bind fun urlWebsocket =>
      ((ascii ";\nlet urlRoom = \"").isPrefixOf? urlWebsocket.2).bind fun text =>
        (scan literalStep 0 text).map fun urlRoom => (urlWebsocket.1, urlRoom.1)

/-! ### The room of a page -/

/-- The room that the browser joins when it opens the page of an id. -/
def joined (refs : References) (t : Template) (baseUrl fileCache : JsString) (id : RoomId) :
    Option RoomId :=
  (scriptSrc refs t (chatHTML t id)).bind fun src =>
    (pathVariable (ascii "/room/") (ascii "/chat.js") src).bind fun loaded =>
      (declarations (chatJS baseUrl fileCache loaded)).bind fun urls =>
        (baseUrl.isPrefixOf? urls.1).bind (pathVariable (ascii "/api/ws/room/") [])

end RoomPage

end CanChat
