/-
CanChat/Disposition.lean

The name of a file in the response of a download
(server/src/controller/FileController.hpp).

`GetFile` puts the name between quotes in a header and escapes nothing.  A line
break in it ends the header, a quote ends the name, and a backslash is an
escape; any other name arrives as it is.

Design.  The other headers come from the web framework, in any order and
number.  A recipient reads lines up to an empty one; it refuses a value with a
line break in it, and unquotes the file name as a quoted string.
-/
import CanChat.Handlers
import CanChat.Scanner
import Mathlib.Data.Bool.AllAny
import Mathlib.Data.List.Chain

namespace CanChat

namespace FileController

open Scanner

/-! ### What `GetFile` sends -/

structure Header where
  name : List Char
  value : List Char
  deriving DecidableEq, Repr

def dispositionName : List Char := "content-disposition".toList

def attachment : List Char := "attachment; filename=\"".toList

/-- The header that `GetFile::act` puts. -/
def contentDisposition (fileName : String) : Header where
  name := dispositionName
  value := attachment ++ fileName.toList ++ ['"']

/-- The header of a download, for a file with a name. -/
def getFileHeader (f : FileRef) (s : Server) : Option Header :=
  (s.files f).fileName.map contentDisposition

/-- The host's name for a file goes into the header as it is. -/
theorem getFileHeader_shareFile {s t : Server} {ρ : RoomRef}
    {hostPeerId clientFileId fileSize : Int}
    {fileName : String} {f : FileRef}
    (h : (Room.shareFile ρ hostPeerId clientFileId (some fileName) fileSize).exec s = (.ok f, t)) :
    Room.getFileById ρ (t.files f).serverFileId t = some f ∧
      getFileHeader f t = some (contentDisposition fileName) := by
  unfold Room.shareFile at h
  simp only [Handler.exec_bind, Handler.exec_get] at h
  split at h
  · cases h
  · rw [Handler.exec_modifyGet] at h
    cases h
    constructor
    · simp [Room.getFileById, Room.registerFile, Peer.addFile]
    · simp [getFileHeader, Room.registerFile, Peer.addFile]

def Header.line (h : Header) : List Char := h.name ++ ": ".toList ++ h.value

def writeHeaders : List Header → List Char
  | [] => ['\r', '\n']
  | h :: headers => h.line ++ '\r' :: '\n' :: writeHeaders headers

/-! ### What a recipient reads -/

/-- `tchar` -/
def isTokenChar (c : Char) : Bool :=
  c.isAlphanum || c ∈ "!#$%&'*+-.^_`|~".toList

def isBlank (c : Char) : Bool := c == ' ' || c == '\t'

def trim (text : List Char) : List Char :=
  ((text.dropWhile isBlank).reverse.dropWhile isBlank).reverse

/-- Not allowed in the value of a header. -/
def isInvalid (c : Char) : Bool := c == '\r' || c == '\n' || c == '\x00'

def parseHeader (line : List Char) : Option Header :=
  let name := line.takeWhile (· != ':')
  let value := trim (line.drop (name.length + 1))
  if name ≠ [] ∧ name.all isTokenChar ∧ name.length < line.length ∧ ¬ value.any isInvalid then
    some { name, value }
  else
    none

/-- The lines of a block up to an empty one; `line` is the one that has begun. -/
def parseHeaders : List Char → List Char → Option (List Header)
  | _, [] => none
  | line, '\r' :: '\n' :: text =>
      if line = [] then some []
      else (parseHeader line).bind fun h => (parseHeaders [] text).map (h :: ·)
  | line, c :: text => parseHeaders (line ++ [c]) text

/-- A quoted string up to its quote. -/
def quotedStep (c : Char) (text : List Char) : Step Char :=
  if c = '"' then .close
  else if c = '\\' then
    match text with
    | [] => .fail
    | d :: _ => .emit [d] 1
  else .emit [c] 0

/-- The quoted `filename` of a disposition. -/
def filename (value : List Char) : Option (List Char) :=
  (attachment.isPrefixOf? value).bind fun text => (scan quotedStep 0 text).map Prod.fst

def Header.isDisposition (h : Header) : Bool :=
  h.name.map Char.toLower == dispositionName

/-! ### Headers -/

/-- A header of the web framework. -/
structure Header.Ordinary (h : Header) : Prop where
  name : h.name ≠ [] ∧ h.name.all isTokenChar
  value : h.value.all fun c => !isInvalid c
  other : h.isDisposition = false

/-- Among the others there is one disposition, of this file name. -/
def Intact (before after : List Header) (fileName : String) : Prop :=
  ∃ headers, parseHeaders [] (writeHeaders (before ++ contentDisposition fileName :: after)) =
      some headers ∧ headers.length = before.length + 1 + after.length ∧
    ∃ h, headers.filter Header.isDisposition = [h] ∧ filename h.value = some fileName.toList

def isPlain (c : Char) : Bool := c != '"' && c != '\\' && !isInvalid c

variable {h : Header} {line text p q : List Char} {before after headers : List Header}

/-! ### Lines -/

/-- No line feed behind a carriage return. -/
def NoBreak (line : List Char) : Prop := line.IsChain fun c d => c = '\r' → d ≠ '\n'

theorem noBreak_of_not_mem (h : '\r' ∉ line) : NoBreak line := by
  unfold NoBreak
  induction line with
  | nil => exact .nil
  | cons c line ih =>
      rw [List.mem_cons, not_or] at h
      exact List.isChain_cons.mpr ⟨fun d _ hc => absurd hc.symm h.1, ih h.2⟩

theorem NoBreak.append {l l' : List Char} (h : NoBreak l) (h' : NoBreak l')
    (hjoin : '\r' ∉ l ∨ l'.head? ≠ some '\n') : NoBreak (l ++ l') := by
  refine List.isChain_append.mpr ⟨h, h', fun c hc d hd hreturn hfeed => ?_⟩
  rcases hjoin with hnone | hhead
  · exact hnone (hreturn ▸ List.mem_of_mem_getLast? hc)
  · exact hhead (hfeed ▸ hd)

/-- A text has no line break, or a first one. -/
theorem noBreak_or_split (text : List Char) :
    NoBreak text ∨ ∃ p q, text = p ++ '\r' :: '\n' :: q ∧ NoBreak p := by
  induction text with
  | nil => exact .inl .nil
  | cons c text ih =>
      by_cases hbreak : c = '\r' ∧ text.head? = some '\n'
      · obtain ⟨rfl, hfeed⟩ := hbreak
        exact .inr ⟨[], text.tail, by rw [List.nil_append, List.cons_head?_tail hfeed], .nil⟩
      · rcases ih with hnone | ⟨p, q, rfl, hp⟩
        · refine .inl (List.isChain_cons.mpr ⟨fun d hd hc hfeed => hbreak ⟨hc, ?_⟩, hnone⟩)
          rw [← hfeed]
          exact hd
        · refine .inr ⟨c :: p, q, rfl, List.isChain_cons.mpr ⟨fun d hd hc hfeed => ?_, hp⟩⟩
          refine hbreak ⟨hc, ?_⟩
          rw [← List.cons_head?_tail hd, ← hfeed]
          rfl

theorem parseHeaders_cons {c : Char} (h : c = '\r' → text.head? ≠ some '\n') (line : List Char) :
    parseHeaders line (c :: text) = parseHeaders (line ++ [c]) text := by
  rw [parseHeaders]
  intro later hc htext
  exact h hc (by rw [htext]; rfl)

theorem parseHeaders_line (h : NoBreak text) (line rest : List Char) :
    parseHeaders line (text ++ '\r' :: '\n' :: rest) =
      if line ++ text = [] then some []
      else (parseHeader (line ++ text)).bind fun h => (parseHeaders [] rest).map (h :: ·) := by
  induction text generalizing line with
  | nil => rw [List.nil_append, List.append_nil, parseHeaders]
  | cons c text ih =>
      obtain ⟨hhead, htail⟩ := List.isChain_cons.mp h
      have hnext : c = '\r' → (text ++ '\r' :: '\n' :: rest).head? ≠ some '\n' := by
        intro hc
        rcases text with - | ⟨d, text⟩
        · exact fun heq => absurd (Option.some.inj heq) (by decide)
        · intro heq
          exact hhead d rfl hc (Option.some.inj heq)
      rw [List.cons_append, parseHeaders_cons hnext, ih htail, List.append_assoc]
      rfl

/-! ### One header -/

theorem parseHeader_line {name value : List Char} (hname : name ≠ [] ∧ name.all isTokenChar) :
    parseHeader (name ++ ": ".toList ++ value) =
      if (trim (' ' :: value)).any isInvalid then none
      else some { name, value := trim (' ' :: value) } := by
  have hcolon : isTokenChar ':' = false := by decide
  have hseparator : ": ".toList = [':', ' '] := by decide
  have htoken : ∀ c ∈ name, (c != ':') = true := by
    intro c hc
    rw [bne_iff_ne]
    rintro rfl
    exact absurd (List.all_eq_true.mp hname.2 ':' hc) (by rw [hcolon]; decide)
  have htake : (name ++ ": ".toList ++ value).takeWhile (· != ':') = name := by
    rw [hseparator, List.append_assoc, List.takeWhile_append_of_pos htoken]
    simp
  have hdrop : (name ++ ": ".toList ++ value).drop (name.length + 1) = ' ' :: value := by
    rw [hseparator, List.append_assoc, ← List.drop_drop, List.drop_left]
    rfl
  have hlength : name.length < (name ++ ": ".toList ++ value).length := by
    rw [hseparator]
    simp
  unfold parseHeader
  simp only [htake, hdrop]
  by_cases hvalid : (trim (' ' :: value)).any isInvalid = true
  · rw [if_pos hvalid, if_neg fun h => h.2.2.2 hvalid]
  · rw [if_neg hvalid, if_pos ⟨hname.1, hname.2, hlength, hvalid⟩]

theorem mem_of_mem_trim {c : Char} (h : c ∈ trim text) : c ∈ text := by
  unfold trim at h
  have hdrop := (List.dropWhile_suffix isBlank).subset (List.mem_reverse.mp h)
  exact (List.dropWhile_suffix isBlank).subset (List.mem_reverse.mp hdrop)

/-- The quote in front of the name keeps its blanks. -/
theorem trim_attachment (text : List Char) :
    trim (' ' :: (attachment ++ text)) =
      attachment ++ (text.reverse.dropWhile isBlank).reverse := by
  have hattachment : attachment = 'a' :: attachment.tail := by decide
  have hstart : (' ' :: (attachment ++ text)).dropWhile isBlank = attachment ++ text := by
    rw [hattachment]
    rfl
  have hquote : attachment.reverse.dropWhile isBlank = attachment.reverse := by decide
  unfold trim
  rw [hstart, List.reverse_append, List.dropWhile_append]
  split
  · next hempty =>
    rw [List.isEmpty_iff.mp hempty, hquote, List.reverse_reverse, List.reverse_nil,
      List.append_nil]
  · rw [List.reverse_append, List.reverse_reverse]

/-! ### The others -/

/-- What the recipient makes of a header of the framework. -/
def Header.trimmed (h : Header) : Header := { h with value := trim (' ' :: h.value) }

theorem Header.Ordinary.noBreak {header : Header} (h : header.Ordinary) : NoBreak header.line := by
  refine noBreak_of_not_mem fun hmem => ?_
  have hseparator : '\r' ∉ ": ".toList := by decide
  rcases List.mem_append.mp hmem with hmem | hmem
  · rcases List.mem_append.mp hmem with hmem | hmem
    · exact absurd (List.all_eq_true.mp h.name.2 _ hmem) (by decide)
    · exact hseparator hmem
  · exact absurd (List.all_eq_true.mp h.value _ hmem) (by decide)

theorem Header.Ordinary.parseHeader_line {header : Header} (h : header.Ordinary) :
    parseHeader header.line = some header.trimmed := by
  have hvalid : ¬ (trim (' ' :: header.value)).any isInvalid = true := by
    intro hany
    obtain ⟨c, hc, hinvalid⟩ := List.any_eq_true.mp hany
    rcases List.mem_cons.mp (mem_of_mem_trim hc) with rfl | hc
    · exact absurd hinvalid (by decide)
    · have hnot := List.all_eq_true.mp h.value c hc
      rw [hinvalid] at hnot
      cases hnot
  exact (FileController.parseHeader_line h.name).trans (if_neg hvalid)

theorem parseHeaders_ordinary (h : ∀ h ∈ before, Header.Ordinary h) (headers : List Header) :
    parseHeaders [] (writeHeaders (before ++ headers)) =
      (parseHeaders [] (writeHeaders headers)).map (before.map Header.trimmed ++ ·) := by
  induction before with
  | nil => exact (congrFun Option.map_id _).symm
  | cons header before ih =>
      obtain ⟨hheader, hbefore⟩ := List.forall_mem_cons.mp h
      have hline : header.line ≠ [] := by
        unfold Header.line
        simp [hheader.name.1]
      rw [List.cons_append, writeHeaders, parseHeaders_line hheader.noBreak, List.nil_append,
        if_neg hline, hheader.parseHeader_line, Option.bind_some, ih hbefore, Option.map_map]
      rfl

theorem filter_ordinary (h : ∀ h ∈ before, Header.Ordinary h) :
    (before.map Header.trimmed).filter Header.isDisposition = [] := by
  rw [List.filter_eq_nil_iff]
  intro header hmem
  obtain ⟨header, hheader, rfl⟩ := List.mem_map.mp hmem
  exact Bool.eq_false_iff.mp (h header hheader).other

/-! ### The file name -/

theorem shrinking_quotedStep : Shrinking quotedStep := by
  intro c text value more h
  unfold quotedStep at h
  split at h
  · cases h
  · split at h
    · split at h
      · cases h
      · cases h
        exact .inr le_rfl
    · cases h
      exact .inl ⟨rfl, rfl⟩

theorem quotedStep_emit_self (c : Char) (text : List Char) :
    quotedStep c text = .emit [c] 0 ↔ c ≠ '"' ∧ c ≠ '\\' := by
  unfold quotedStep
  constructor
  · intro h
    split at h
    · cases h
    next hquote =>
    split at h
    · split at h
      · cases h
      · cases h
    · next hescape => exact ⟨hquote, hescape⟩
  · rintro ⟨hquote, hescape⟩
    rw [if_neg hquote, if_neg hescape]

theorem filename_attachment (text : List Char) :
    filename (attachment ++ text) = (scan quotedStep 0 text).map Prod.fst := by
  have hstart : attachment.isPrefixOf? (attachment ++ text) = some text :=
    List.isPrefixOf?_eq_some_iff_append_eq.mpr rfl
  rw [filename, hstart]
  rfl

/-- What is read from a text is shorter than it. -/
theorem length_lt_of_filename {value : List Char} (h : filename (attachment ++ text) = some value) :
    value.length < text.length := by
  rw [filename_attachment] at h
  obtain ⟨⟨_, rest⟩, hscan, rfl⟩ := Option.map_eq_some_iff.mp h
  obtain ⟨consumed, close, rfl, -, hread⟩ := reads_of_scan hscan
  have hle := hread.length_le shrinking_quotedStep
  rw [List.length_append, List.length_cons]
  dsimp only
  omega

/-- The name between the quotes is read as it is exactly when it has no quote and
no backslash. -/
theorem filename_iff (name : List Char) :
    filename (attachment ++ name ++ ['"']) = some name ↔ ∀ c ∈ name, c ≠ '"' ∧ c ≠ '\\' := by
  rw [List.append_assoc, filename_attachment]
  constructor
  · intro h c hc
    obtain ⟨⟨value, rest⟩, hscan, hvalue⟩ := Option.map_eq_some_iff.mp h
    obtain rfl : value = name := hvalue
    obtain ⟨consumed, close, htext, -, hread⟩ := reads_of_scan hscan
    have hge := hread.length_le shrinking_quotedStep
    have hlength := congrArg List.length htext
    simp only [List.length_append, List.length_cons, List.length_nil] at hlength
    -- the quote that closes it is the last character
    obtain ⟨rfl, -⟩ := List.append_inj htext (by omega)
    have hverbatim := hread.verbatim shrinking_quotedStep rfl
    obtain ⟨before, after, rfl⟩ := List.append_of_mem hc
    exact (quotedStep_emit_self c _).mp (hverbatim before c after rfl)
  · intro h
    have hverbatim : Verbatim quotedStep name ['"'] := by
      intro before c after heq
      refine (quotedStep_emit_self c _).mpr (h c ?_)
      rw [heq]
      exact List.mem_append_right _ List.mem_cons_self
    rw [scan_verbatim hverbatim rfl]
    rfl

/-! ### The response -/

theorem dispositionName_token : dispositionName ≠ [] ∧ dispositionName.all isTokenChar := by
  decide

theorem disposition_ne_nil (text : List Char) :
    dispositionName ++ ": ".toList ++ text ≠ [] := by
  rw [List.append_assoc]
  exact List.append_ne_nil_of_left_ne_nil dispositionName_token.1 _

theorem isDisposition_of_name (hname : h.name = dispositionName) : h.isDisposition = true := by
  rw [Header.isDisposition, hname]
  decide

theorem noBreak_disposition {text : List Char} (h : NoBreak text) :
    NoBreak (dispositionName ++ ": ".toList ++ (attachment ++ text)) := by
  have hstart : '\r' ∉ dispositionName ++ ": ".toList ++ attachment := by decide
  rw [← List.append_assoc]
  exact (noBreak_of_not_mem hstart).append h (.inl hstart)

theorem parseHeaders_after (hafter : ∀ h ∈ after, Header.Ordinary h) :
    parseHeaders [] (writeHeaders after) = some (after.map Header.trimmed) := by
  have hall := parseHeaders_ordinary hafter []
  rw [List.append_nil] at hall
  rw [hall]
  exact congrArg some (List.append_nil _)

/-- The disposition, and the headers behind it. -/
theorem parseHeaders_disposition (hafter : ∀ h ∈ after, Header.Ordinary h) {fileName : String}
    (hbreak : NoBreak fileName.toList) :
    parseHeaders [] (writeHeaders (contentDisposition fileName :: after)) =
      if fileName.toList.any isInvalid then none
      else some (contentDisposition fileName :: after.map Header.trimmed) := by
  have hquoted : NoBreak (fileName.toList ++ ['"']) :=
    hbreak.append (.singleton _) (.inr (by decide))
  have htrim : trim (' ' :: (attachment ++ (fileName.toList ++ ['"']))) =
      attachment ++ (fileName.toList ++ ['"']) := by
    rw [trim_attachment, List.reverse_append]
    simp [isBlank]
  have hinvalid : (attachment ++ (fileName.toList ++ ['"'])).any isInvalid =
      fileName.toList.any isInvalid := by
    have hattachment : attachment.any isInvalid = false := by decide
    have hquote : ['"'].any isInvalid = false := by decide
    rw [List.any_append, List.any_append, hattachment, hquote, Bool.false_or, Bool.or_false]
  have hline : (contentDisposition fileName).line = dispositionName ++ ": ".toList ++
      (attachment ++ (fileName.toList ++ ['"'])) := by
    rw [← List.append_assoc attachment]
    rfl
  rw [writeHeaders, hline, parseHeaders_line (noBreak_disposition hquoted), List.nil_append,
    if_neg (disposition_ne_nil _), parseHeader_line dispositionName_token, htrim, hinvalid,
    parseHeaders_after hafter]
  split
  · rfl
  · rw [← List.append_assoc]
    rfl

/-- A line break cuts the name. -/
theorem not_intact_of_break (hbefore : ∀ h ∈ before, Header.Ordinary h) {fileName : String}
    (hsplit : fileName.toList = p ++ '\r' :: '\n' :: q) (hp : NoBreak p) :
    ¬ Intact before after fileName := by
  rintro ⟨headers, hparse, -, h, hfilter, hname⟩
  have htext : writeHeaders (contentDisposition fileName :: after) =
      dispositionName ++ ": ".toList ++ (attachment ++ p) ++
        '\r' :: '\n' :: (q ++ '"' :: '\r' :: '\n' :: writeHeaders after) := by
    rw [writeHeaders, Header.line, contentDisposition, hsplit]
    simp
  rw [parseHeaders_ordinary hbefore, htext, parseHeaders_line (noBreak_disposition hp),
    List.nil_append, if_neg (disposition_ne_nil _)] at hparse
  obtain ⟨later, hlater, rfl⟩ := Option.map_eq_some_iff.mp hparse
  obtain ⟨header, hheader, hrest⟩ := Option.bind_eq_some_iff.mp hlater
  obtain ⟨rest, -, rfl⟩ := Option.map_eq_some_iff.mp hrest
  rw [parseHeader_line dispositionName_token, trim_attachment] at hheader
  split at hheader
  · cases hheader
  obtain rfl := Option.some.inj hheader
  rw [List.filter_append, filter_ordinary hbefore, List.nil_append,
    List.filter_cons_of_pos (isDisposition_of_name rfl)] at hfilter
  obtain ⟨rfl, -⟩ := List.cons.inj hfilter
  have hshort : fileName.toList.length < p.length :=
    (length_lt_of_filename hname).trans_le (by
      rw [List.length_reverse]
      exact (List.dropWhile_suffix isBlank).length_le.trans_eq List.length_reverse)
  rw [hsplit, List.length_append] at hshort
  omega

/-- **The name arrives exactly when it has no quote, no backslash and no line
break** (nor the null character). -/
theorem intact_iff_plain (hbefore : ∀ h ∈ before, Header.Ordinary h)
    (hafter : ∀ h ∈ after, Header.Ordinary h) (fileName : String) :
    Intact before after fileName ↔ ∀ c ∈ fileName.toList, isPlain c = true := by
  have hplain : (∀ c ∈ fileName.toList, isPlain c = true) ↔
      (∀ c ∈ fileName.toList, c ≠ '"' ∧ c ≠ '\\') ∧ fileName.toList.any isInvalid = false := by
    simp only [isPlain, Bool.and_eq_true, bne_iff_ne, Bool.not_eq_true', List.any_eq_false,
      Bool.not_eq_true]
    exact forall₂_and
  have hdisposition : (contentDisposition fileName).isDisposition = true :=
    isDisposition_of_name rfl
  rcases noBreak_or_split fileName.toList with hbreak | ⟨p, q, hsplit, hp⟩
  · rw [hplain, ← filename_iff, Intact, parseHeaders_ordinary hbefore,
      parseHeaders_disposition hafter hbreak]
    have hfilter : (before.map Header.trimmed ++ contentDisposition fileName ::
        after.map Header.trimmed).filter Header.isDisposition = [contentDisposition fileName] := by
      rw [List.filter_append, filter_ordinary hbefore, List.filter_cons_of_pos hdisposition,
        filter_ordinary hafter, List.nil_append]
    constructor
    · rintro ⟨headers, hparse, -, h, hh, hname⟩
      split at hparse
      · cases hparse
      · next hvalid =>
        obtain rfl := Option.some.inj hparse
        obtain rfl : contentDisposition fileName = h := (List.cons.inj (hfilter.symm.trans hh)).1
        exact ⟨hname, Bool.eq_false_iff.mpr hvalid⟩
    · rintro ⟨hname, hvalid⟩
      rw [if_neg (Bool.eq_false_iff.mp hvalid)]
      refine ⟨_, rfl, ?_, _, hfilter, hname⟩
      simp only [List.length_append, List.length_cons, List.length_map]
      omega
  · refine iff_of_false (not_intact_of_break hbefore hsplit hp) fun h => ?_
    have hreturn : '\r' ∈ fileName.toList := by
      rw [hsplit]
      simp
    exact absurd (h _ hreturn) (by decide)

/-- The header of the server's name, and the one of a chunked body. -/
theorem intact_iff_plain_cat :
    Intact [⟨"server".toList, "oatpp/1.4.0".toList⟩]
      [⟨"transfer-encoding".toList, "chunked".toList⟩] "cat.txt" := by
  have hbefore : ∀ h ∈ [(⟨"server".toList, "oatpp/1.4.0".toList⟩ : Header)], h.Ordinary :=
    List.forall_mem_singleton.mpr ⟨by decide, by decide, by decide⟩
  have hafter : ∀ h ∈ [(⟨"transfer-encoding".toList, "chunked".toList⟩ : Header)], h.Ordinary :=
    List.forall_mem_singleton.mpr ⟨by decide, by decide, by decide⟩
  exact (intact_iff_plain hbefore hafter "cat.txt").mpr (List.all_iff_forall_prop.mp (by decide))

/-- A name that ends its header and adds two of its own. -/
def cookieName : String := "cat.txt\"\r\nset-cookie: sid=1\r\nx: \""

def cookieFile : FileDto where
  clientFileId := some 1
  name := some cookieName
  size := some 1

/-- A peer offers a file of that name, and the response of its download has
three headers for one. -/
theorem name_adds_headers :
    ∃ f header headers,
      let s := ((Peer.handleFilesMessage {} 0 { files := some [some cookieFile] }).exec
        soloServer).2
      Room.getFileById 0 1 s = some f ∧ getFileHeader f s = some header ∧
        header = contentDisposition cookieName ∧
        parseHeaders [] (writeHeaders [header]) = some headers ∧
        headers.map Header.name = ["content-disposition".toList, "set-cookie".toList, "x".toList] ∧
        ¬ Intact [] [] cookieName := by
  have hparse : parseHeaders [] (writeHeaders [contentDisposition cookieName]) =
      some [⟨dispositionName, attachment ++ "cat.txt\"".toList⟩,
        ⟨"set-cookie".toList, "sid=1".toList⟩, ⟨"x".toList, "\"\"".toList⟩] := by
    decide +kernel
  refine ⟨0, _, _, rfl, rfl, rfl, hparse, rfl, ?_⟩
  rintro ⟨headers, hheaders, hlength, -⟩
  obtain rfl := Option.some.inj (hparse.symm.trans hheaders)
  cases hlength

end FileController

end CanChat
