/-
CanChat/MessageSize.lean

Which of its own page's messages the server accepts.

The page limits a chat text to 4096 UTF-16 code units (front/chat/index.html);
the server limits a message to `maxMessageSizeBytes` bytes of JSON.  A unit can
take six bytes, and a selection of files can be of any length, so the page can
emit messages the server refuses.  `Action.Fits` adds up the bytes of each kind
of message: a chat text and a selection of files must be small enough, a chunk
and a typing notice always are (`accepted_iff_fits`).
-/
import CanChat.Base64
import CanChat.Handlers
import CanChat.JsonText
import CanChat.Page

namespace CanChat

open JsonText

namespace MessageSize

/-! ### What the page emits -/

/-- The variables of the page the messages are made from. -/
structure PageState where
  peerId : ℕ
  peerName : JsString
  filesIdCounter : ℕ := 1

/-- `\s` of a regular expression. -/
def isSpace (u : UInt16) : Bool :=
  (9 ≤ u && u ≤ 13) || (0x2000 ≤ u && u ≤ 0x200A) ||
    u ∈ [0x20, 0xA0, 0x1680, 0x2028, 0x2029, 0x202F, 0x205F, 0x3000, 0xFEFF]

/-- `document.forms.publish.onsubmit` -/
def publishOnsubmit (page : PageState) (outgoingMessage : JsString) : Option JsString :=
  if outgoingMessage.filter (fun u => !isSpace u) ≠ [] then
    some (object
      [member "peerId" (decimal page.peerId), member "peerName" (quote page.peerName),
        member "code" (decimal 3), member "message" (quote outgoingMessage)])
  else
    none

/-- The listener of `chat_input`. -/
def typingMessage : JsString := object [member "code" (decimal 5)]

/-- The loop of `handleFiles`, for names and sizes. -/
def filesJson (fileId : ℕ) : List (JsString × ℕ) → List JsString
  | [] => []
  | (name, size) :: files =>
      object [member "name" (quote name), member "clientFileId" (decimal fileId),
        member "size" (decimal size)] :: filesJson (fileId + 1) files

def handleFiles (page : PageState) (files : List (JsString × ℕ)) : JsString :=
  object [member "code" (decimal 6),
    member "files" (array (filesJson page.filesIdCounter files))]

/-- The body of the loop in `sendFileChunks`, for a file that is there. -/
def sendFileChunk (page : PageState) (file : Bytes)
    (serverFileId subscriberId chunkPosition chunkSize : ℕ) : JsString :=
  let posEnd := min (chunkPosition + chunkSize : Int) file.length
  let data := Base64.encode (Blob.slice file chunkPosition posEnd)
  object [member "peerId" (decimal page.peerId), member "code" (decimal 8),
    member "files" (array [object [member "serverFileId" (decimal serverFileId),
      member "subscriberId" (decimal subscriberId), member "data" (quote (ascii data))]])]

inductive Action
  | submit (outgoingMessage : JsString)
  | input
  | handleFiles (files : List (JsString × ℕ))
  | sendFileChunk (file : Bytes) (serverFileId subscriberId chunkPosition chunkSize : ℕ)

/-- The text the page sends. -/
def Action.text (page : PageState) : Action → Option JsString
  | .submit outgoingMessage => publishOnsubmit page outgoingMessage
  | .input => some typingMessage
  | .handleFiles files => some (MessageSize.handleFiles page files)
  | .sendFileChunk file serverFileId subscriberId chunkPosition chunkSize =>
      some (MessageSize.sendFileChunk page file serverFileId subscriberId chunkPosition chunkSize)

/-- The limit of the input, the transfer buffer of the framework that requests
a chunk, and the 63 bits of an id. -/
def Action.Admitted (page : PageState) : Action → Prop
  | .submit outgoingMessage => outgoingMessage.length ≤ 4096
  | .input | .handleFiles _ => True
  | .sendFileChunk _ serverFileId subscriberId _ chunkSize =>
      chunkSize ≤ 4096 ∧ page.peerId < 2 ^ 63 ∧ serverFileId < 2 ^ 63 ∧ subscriberId < 2 ^ 63

/-! ### When it is small enough -/

/-- The bytes of the entries of a selection. -/
def filesSize (fileId : ℕ) : List (JsString × ℕ) → ℕ
  | [] => 0
  | (name, size) :: files =>
      35 + escapedSize name + (decimal fileId).length + (decimal size).length +
        filesSize (fileId + 1) files

/-- A chat text with the nickname, or the names of a selection, leave room for
the rest of the message. -/
def Action.Fits (page : PageState) : Action → Prop
  | .submit outgoingMessage =>
      escapedSize outgoingMessage + escapedSize page.peerName + (decimal page.peerId).length ≤ 8145
  | .handleFiles files =>
      filesSize page.filesIdCounter files + (files.length - 1) ≤ 8171
  | .input | .sendFileChunk _ _ _ _ _ => True

/-! ### Sizes -/

section Sizes

variable (page : PageState)

theorem size_publishOnsubmit {outgoingMessage text : JsString}
    (h : publishOnsubmit page outgoingMessage = some text) :
    size text =
      47 + (decimal page.peerId).length + escapedSize page.peerName
        + escapedSize outgoingMessage := by
  obtain ⟨-, htext⟩ := Option.ite_none_right_eq_some.mp h
  obtain rfl := Option.some.inj htext
  have hwhole :
      ∀ m ∈ [member "peerId" (decimal page.peerId), member "peerName" (quote page.peerName),
      member "code" (decimal 3), member "message" (quote outgoingMessage)], Whole m := by
    simp only [List.forall_mem_cons, List.not_mem_nil, false_implies, implies_true, and_true]
    exact ⟨whole_member _ (whole_decimal _), whole_member _ (whole_quote _),
      whole_member _ (whole_decimal _), whole_member _ (whole_quote _)⟩
  have hkeys : escapedSize (ascii "peerId") = 6 ∧ escapedSize (ascii "peerName") = 8 ∧
      escapedSize (ascii "code") = 4 ∧ escapedSize (ascii "message") = 7 := by decide
  have hcode : (decimal 3).length = 1 := by simp [decimal]
  obtain ⟨hid, hname, hkey, hmessage⟩ := hkeys
  rw [size_object hwhole]
  simp only [List.map_cons, List.map_nil, List.sum_cons, List.sum_nil, size_member, size_quote,
    size_decimal, List.length_cons, List.length_nil, hid, hname, hkey, hmessage, hcode]
  omega

theorem whole_filesJson (fileId : ℕ) (files : List (JsString × ℕ)) :
    ∀ v ∈ filesJson fileId files, Whole v := by
  induction files generalizing fileId with
  | nil => simp [filesJson]
  | cons file files ih =>
      obtain ⟨name, size⟩ := file
      refine List.forall_mem_cons.mpr ⟨whole_object ?_, ih (fileId + 1)⟩
      simp only [List.forall_mem_cons, List.not_mem_nil, false_implies, implies_true, and_true]
      exact ⟨whole_member _ (whole_quote _), whole_member _ (whole_decimal _),
        whole_member _ (whole_decimal _)⟩

theorem size_filesJson (fileId : ℕ) (files : List (JsString × ℕ)) :
    ((filesJson fileId files).map size).sum = filesSize fileId files ∧
      (filesJson fileId files).length = files.length := by
  induction files generalizing fileId with
  | nil => exact ⟨rfl, rfl⟩
  | cons file files ih =>
      obtain ⟨name, fileSize⟩ := file
      obtain ⟨hsum, hlength⟩ := ih (fileId + 1)
      have hwhole : ∀ m ∈ [member "name" (quote name), member "clientFileId" (decimal fileId),
          member "size" (decimal fileSize)], Whole m := by
        simp only [List.forall_mem_cons, List.not_mem_nil, false_implies, implies_true, and_true]
        exact ⟨whole_member _ (whole_quote _), whole_member _ (whole_decimal _),
          whole_member _ (whole_decimal _)⟩
      have hkeys : escapedSize (ascii "name") = 4 ∧ escapedSize (ascii "clientFileId") = 12 ∧
          escapedSize (ascii "size") = 4 := by decide
      obtain ⟨hname, hid, hsize⟩ := hkeys
      refine ⟨?_, congrArg (· + 1) hlength⟩
      rw [filesJson, filesSize, List.map_cons, List.sum_cons, hsum, size_object hwhole]
      simp only [List.map_cons, List.map_nil, List.sum_cons, List.sum_nil, size_member, size_quote,
        size_decimal, List.length_cons, List.length_nil, hname, hid, hsize]
      omega

theorem size_handleFiles (files : List (JsString × ℕ)) :
    size (handleFiles page files) =
      21 + filesSize page.filesIdCounter files + (files.length - 1) := by
  have hentries := whole_filesJson page.filesIdCounter files
  obtain ⟨hsum, hlength⟩ := size_filesJson page.filesIdCounter files
  have hwhole : ∀ m ∈ [member "code" (decimal 6),
      member "files" (array (filesJson page.filesIdCounter files))], Whole m := by
    simp only [List.forall_mem_cons, List.not_mem_nil, false_implies, implies_true, and_true]
    exact ⟨whole_member _ (whole_decimal _), whole_member _ (whole_array hentries)⟩
  have hkeys : escapedSize (ascii "code") = 4 ∧ escapedSize (ascii "files") = 5 := by decide
  have hcode : (decimal 6).length = 1 := by simp [decimal]
  obtain ⟨hkey, hfiles⟩ := hkeys
  rw [handleFiles, size_object hwhole]
  simp only [List.map_cons, List.map_nil, List.sum_cons, List.sum_nil, size_member, size_decimal,
    List.length_cons, List.length_nil, size_array hentries, hsum, hlength, hkey, hfiles, hcode]
  omega

/-- Base64 text needs no escapes. -/
theorem escapedSize_encodeChars (data : List UInt8) :
    escapedSize ((Base64.encodeChars data).map fun c => .ofNat c.toNat) =
      (data.length + 2) / 3 * 4 := by
  have hdigit : ∀ i < 64, width (.ofNat (Base64.digit i).toNat) = 1 ∧
      isHigh (.ofNat (Base64.digit i).toNat) = false := by decide
  have hpad : width (.ofNat ('=' : Char).toNat) = 1 ∧
      isHigh (.ofNat ('=' : Char).toNat) = false := by decide
  -- no unit opens a pair
  have hcons : ∀ c : Char, (width (.ofNat c.toNat) = 1 ∧ isHigh (.ofNat c.toNat) = false) →
      ∀ s, escapedSize (UInt16.ofNat c.toNat :: s) = 1 + escapedSize s := by
    rintro c ⟨hwidth, hhigh⟩ s
    cases s with
    | nil => simp [escapedSize, hwidth]
    | cons v rest => simp [escapedSize, hwidth, hhigh]
  induction data using Base64.encodeChars.induct with
  | case1 => rfl
  | case2 a =>
      have ha := a.toNat_lt
      simp only [Base64.encodeChars, List.map_cons, List.map_nil]
      rw [hcons _ (hdigit _ (by omega)), hcons _ (hdigit _ (by omega)), hcons _ hpad, hcons _ hpad]
      simp [escapedSize]
  | case3 a b =>
      have ha := a.toNat_lt
      have hb := b.toNat_lt
      simp only [Base64.encodeChars, List.map_cons, List.map_nil]
      rw [hcons _ (hdigit _ (by omega)), hcons _ (hdigit _ (by omega)),
        hcons _ (hdigit _ (by omega)), hcons _ hpad]
      simp [escapedSize]
  | case4 a b c rest ih =>
      have ha := a.toNat_lt
      have hb := b.toNat_lt
      have hc := c.toNat_lt
      simp only [Base64.encodeChars, List.map_cons]
      rw [hcons _ (hdigit _ (by omega)), hcons _ (hdigit _ (by omega)),
        hcons _ (hdigit _ (by omega)), hcons _ (hdigit _ (by omega)), ih]
      simp only [List.length_cons]
      omega

/-- A slice is as long as it was asked for, at most. -/
theorem length_slice_le (file : Bytes) (start count : ℕ) :
    (Blob.slice file start (min (start + count : Int) file.length)).length ≤ count := by
  rw [Blob.slice, List.length_drop, List.length_take]
  simp only [Blob.clamp]
  omega

/-- A chunk reply has room for more than the transfer buffer. -/
theorem size_sendFileChunk_le (file : Bytes)
    {serverFileId subscriberId chunkPosition chunkSize : ℕ} (hchunk : chunkSize ≤ 4096)
    (hpeer : page.peerId < 2 ^ 63) (hfile : serverFileId < 2 ^ 63)
    (hsubscriber : subscriberId < 2 ^ 63) :
    size (sendFileChunk page file serverFileId subscriberId chunkPosition chunkSize) ≤ 5595 := by
  let data := Blob.slice file chunkPosition (min (chunkPosition + chunkSize : Int) file.length)
  -- the only part whose size depends on the file: four characters for three bytes
  have hdata : escapedSize (ascii (Base64.encode data)) ≤ 5464 := by
    have hlength : data.length ≤ chunkSize := length_slice_le file chunkPosition chunkSize
    rw [ascii, Base64.encode, String.toList_ofList, escapedSize_encodeChars]
    omega
  -- an id has 19 digits at most
  have hdigits : ∀ n < 2 ^ 63, (decimal n).length ≤ 19 := by
    intro n hn
    rw [← size_decimal]
    exact size_decimal_le (by decide) (hn.trans (by decide))
  have hentry : ∀ m ∈ [member "serverFileId" (decimal serverFileId),
      member "subscriberId" (decimal subscriberId),
      member "data" (quote (ascii (Base64.encode data)))], Whole m := by
    simp only [List.forall_mem_cons, List.not_mem_nil, false_implies, implies_true, and_true]
    exact ⟨whole_member _ (whole_decimal _), whole_member _ (whole_decimal _),
      whole_member _ (whole_quote _)⟩
  have hentries : ∀ m ∈ [object [member "serverFileId" (decimal serverFileId),
      member "subscriberId" (decimal subscriberId),
      member "data" (quote (ascii (Base64.encode data)))]], Whole m := by
    simp only [List.forall_mem_cons, List.not_mem_nil, false_implies, implies_true, and_true]
    exact whole_object hentry
  -- each part ends between characters, so the sizes add up
  have hwhole : ∀ m ∈ [member "peerId" (decimal page.peerId), member "code" (decimal 8),
      member "files" (array [object [member "serverFileId" (decimal serverFileId),
        member "subscriberId" (decimal subscriberId),
        member "data" (quote (ascii (Base64.encode data)))]])], Whole m := by
    simp only [List.forall_mem_cons, List.not_mem_nil, false_implies, implies_true, and_true]
    exact ⟨whole_member _ (whole_decimal _), whole_member _ (whole_decimal _),
      whole_member _ (whole_array hentries)⟩
  -- the sizes of the keys are those of the source's literals
  have hkeys : escapedSize (ascii "peerId") = 6 ∧ escapedSize (ascii "code") = 4 ∧
      escapedSize (ascii "files") = 5 ∧ escapedSize (ascii "serverFileId") = 12 ∧
      escapedSize (ascii "subscriberId") = 12 ∧ escapedSize (ascii "data") = 4 := by decide
  have hcode : (decimal 8).length = 1 := by simp [decimal]
  obtain ⟨hid, hkey, hfiles, hserver, hsub, hd⟩ := hkeys
  have h₁ := hdigits _ hpeer
  have h₂ := hdigits _ hfile
  have h₃ := hdigits _ hsubscriber
  show size (object [member "peerId" (decimal page.peerId), member "code" (decimal 8),
    member "files" (array [object [member "serverFileId" (decimal serverFileId),
      member "subscriberId" (decimal subscriberId),
      member "data" (quote (ascii (Base64.encode data)))]])]) ≤ _
  rw [size_object hwhole]
  simp only [List.map_cons, List.map_nil, List.sum_cons, List.sum_nil, size_member, size_decimal,
    size_quote, List.length_cons, List.length_nil, size_array hentries, size_object hentry, hid,
    hkey, hfiles, hserver, hsub, hd, hcode]
  omega

/-- **The size of what the page emits.** -/
theorem size_le_iff_fits {a : Action} {text : JsString} (ha : a.Admitted page)
    (htext : a.text page = some text) : size text ≤ 8192 ↔ a.Fits page := by
  cases a with
  | submit outgoingMessage =>
      rw [size_publishOnsubmit page htext]
      show _ ↔ _ ≤ _
      omega
  | input =>
      obtain rfl := Option.some.inj htext
      refine iff_of_true ?_ trivial
      decide
  | handleFiles files =>
      obtain rfl := Option.some.inj htext
      rw [size_handleFiles]
      show _ ↔ _ ≤ _
      omega
  | sendFileChunk file serverFileId subscriberId chunkPosition chunkSize =>
      obtain rfl := Option.some.inj htext
      obtain ⟨hchunk, hpeer, hfile, hsubscriber⟩ := ha
      refine iff_of_true ?_ trivial
      exact (size_sendFileChunk_le page file hchunk hpeer hfile hsubscriber).trans (by decide)

end Sizes

/-! ### What the server answers -/

section Server

variable (fw : Framework) (config : ConfigDto) (p : PeerRef)

/-- One of the frames of a message is answered with the size error. -/
def Refused (s : Server) : List Bytes → Prop
  | [] => False
  | frame :: frames =>
      (Peer.readMessage fw config p frame).exec s =
          (Peer.onApiError p "Message size exceeds max allowed size.").exec s ∨
        Refused ((Peer.readMessage fw config p frame).exec s).2 frames

variable {fw config p}

theorem refused_iff {s : Server} {frames : List Bytes} (hframes : ∀ frame ∈ frames, frame ≠ [])
    (hbuffer : (s.peers p).messageBuffer.length ≤ config.maxMessageSizeBytes) :
    Refused fw config p s frames ↔
      config.maxMessageSizeBytes < (s.peers p).messageBuffer.length + frames.flatten.length := by
  induction frames generalizing s with
  | nil => simpa [Refused] using hbuffer
  | cons frame frames ih =>
      obtain ⟨hframe, hframes⟩ := List.forall_mem_cons.mp hframes
      rw [Refused, List.flatten_cons, List.length_append]
      by_cases hsize :
          (s.peers p).messageBuffer.length + frame.length > config.maxMessageSizeBytes
      · have hexec : (Peer.readMessage fw config p frame).exec s =
            (Peer.onApiError p "Message size exceeds max allowed size.").exec s := by
          simp only [Peer.readMessage, Handler.exec_bind, Handler.exec_get]
          rw [if_pos hsize]
        refine iff_of_true (.inl hexec) ?_
        omega
      · -- the frame goes to the buffer
        have hempty : ¬ (frame.length == 0) = true := by
          simpa using hframe
        have hexec : (Peer.readMessage fw config p frame).exec s = (.ok none, s.modifyPeer p
            fun peer => { peer with messageBuffer := peer.messageBuffer ++ frame }) := by
          simp only [Peer.readMessage, Handler.exec_bind, Handler.exec_get]
          rw [if_neg hsize, if_neg hempty]
          rfl
        have hlength : ((s.modifyPeer p fun peer =>
            { peer with messageBuffer := peer.messageBuffer ++ frame }).peers
              p).messageBuffer.length =
              (s.peers p).messageBuffer.length + frame.length := by
          simp
        have hle : (s.peers p).messageBuffer.length + frame.length ≤ config.maxMessageSizeBytes :=
          not_lt.mp hsize
        rw [hexec, ih hframes (hlength.trans_le hle), hlength, Nat.add_assoc, or_iff_right]
        intro heq
        cases congrArg Prod.fst heq

/-- **The server accepts a message of its own page exactly when it fits**, in
whatever frames the message arrives. -/
theorem accepted_iff_fits {page : PageState} {a : Action} {text : JsString} {s : Server}
    {frames : List Bytes} (ha : a.Admitted page) (htext : a.text page = some text)
    (hbuffer : (s.peers p).messageBuffer = []) (hframes : ∀ frame ∈ frames, frame ≠ [])
    (hflatten : frames.flatten = utf8 text) : ¬ Refused fw {} p s frames ↔ a.Fits page := by
  have hempty : (s.peers p).messageBuffer.length = 0 := by
    rw [hbuffer, List.length_nil]
  have hmax : (ConfigDto.maxMessageSizeBytes {}) = 8192 := rfl
  rw [refused_iff hframes (hempty.trans_le (Nat.zero_le _)), hempty, hflatten, Nat.zero_add, hmax,
    not_lt]
  exact size_le_iff_fits page ha htext

end Server

/-! ### Two texts -/

/-- Ann, the first peer of the server. -/
def ann : PageState where
  peerId := 1
  peerName := ascii "Ann"

/-- A framework that reads nothing. -/
def silent : Framework where
  readFromString _ := none
  base64Decode _ := none

theorem accepted_iff_fits_hello :
    ¬ Refused silent {} 0 soloServer [utf8 (object [member "peerId" (decimal 1),
      member "peerName" (quote (ascii "Ann")), member "code" (decimal 3),
      member "message" (quote (ascii "Hello"))])] ↔ (Action.submit (ascii "Hello")).Fits ann := by
  have hlength : (ascii "Hello").length ≤ 4096 := by decide
  have hadmitted : (Action.submit (ascii "Hello")).Admitted ann := hlength
  refine accepted_iff_fits hadmitted rfl rfl ?_ List.flatten_singleton
  intro frame hframe
  rw [List.mem_singleton.mp hframe]
  decide

/-- The euro sign, as often as the input admits. -/
def euros : JsString := List.replicate 4096 0x20AC

theorem escapedSize_euros : escapedSize euros = 12288 := by
  have hreplicate : ∀ n, escapedSize (List.replicate n 0x20AC) = n * 3 := by
    intro n
    induction n with
    | zero => rfl
    | succ n ih =>
        have hwidth : width 0x20AC = 3 := by decide
        have hhigh : isHigh 0x20AC = false := by decide
        cases n with
        | zero => rfl
        | succ n =>
            rw [List.replicate_succ] at ih ⊢
            rw [List.replicate_succ, escapedSize, hhigh, Bool.false_and, if_neg Bool.false_ne_true,
              hwidth, ih]
            omega
  exact hreplicate 4096

/-- Ann's message has 4096 code units, and the server refuses it. -/
theorem euros_refused : ∃ text, (Action.submit euros).Admitted ann ∧
    (Action.submit euros).text ann = some text ∧ Refused silent {} 0 soloServer [utf8 text] := by
  have hspace : isSpace 0x20AC = false := by decide
  have hsome : euros.filter (fun u => !isSpace u) ≠ [] := by
    have hmem : (0x20AC : UInt16) ∈ euros.filter (fun u => !isSpace u) :=
      List.mem_filter.mpr ⟨List.mem_replicate.mpr ⟨by decide, rfl⟩, by simp [hspace]⟩
    exact List.ne_nil_of_mem hmem
  have hlength : euros.length ≤ 4096 := List.length_replicate.le
  obtain ⟨text, htext⟩ : ∃ text, publishOnsubmit ann euros = some text := ⟨_, if_pos hsome⟩
  refine ⟨text, hlength, htext, ?_⟩
  have hsize := size_publishOnsubmit ann htext
  rw [escapedSize_euros] at hsize
  refine (refused_iff ?_ (Nat.zero_le _)).mpr ?_
  · intro frame hframe hnil
    rw [List.mem_singleton.mp hframe] at hnil
    rw [size, hnil] at hsize
    simp at hsize
  · rw [List.flatten_singleton]
    have hmax : (ConfigDto.maxMessageSizeBytes {}) = 8192 := rfl
    rw [hmax]
    rw [size] at hsize
    omega

end MessageSize

end CanChat
