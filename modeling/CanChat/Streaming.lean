/-
CanChat/Streaming.lean

Downloads: the server, the chat pages that host the files, the messages in
transit between them, and the readers of the HTTP responses.

Design.  A handler is one step, and so is one call of `ReadCallback::read`,
which runs under the subscriber's lock.  Messages may be overtaken: the server
handles any of `inbound`, and a page gets any of the messages its `outbox`
still holds.  A message travels parsed, so the JSON mapper and the size limit
of `readMessage` are out of sight (`Peer.readMessage_end`).

The framework calls `read` with a positive count; after `RETRY_READ` it waits
and repeats the call.  A file is read off the pages, and hosts stay: only a
peer that has shared nothing leaves.  A handler that fails closes its
connection.
-/
import CanChat.Catalogue
import CanChat.Transition

namespace CanChat

namespace Streaming

/-! ### The system -/

/-- What the framework is doing with a response. -/
inductive Reader
  | idle
  /-- will repeat a read of `count` bytes -/
  | waiting (count : Int)
  | failed (fault : Fault)
  deriving DecidableEq, Repr

/-- A download, with the bytes its response has been given. -/
structure Download where
  file : FileRef := 0
  reader : Reader := .idle
  /-- the bytes returned so far -/
  delivered : Bytes := []
  deriving DecidableEq

/-- The server, the pages of its peers, the messages in transit, and the downloads. -/
structure State where
  server : Server := {}
  pages : PeerRef → Page := fun _ => {}
  /-- Messages on their way to the server, with their senders. -/
  inbound : List (PeerRef × MessageDto) := []
  downloads : SubscriberRef → Download := fun _ => {}

/-- What the server, the pages and the clients of downloads do. -/
inductive Act
  | join (socket : SocketRef) (roomName nickname : String)
  | leave (p : PeerRef)
  /-- the user of a page writes something -/
  | post (p : PeerRef) (message : MessageDto)
  | handleFiles (p : PeerRef) (files : List (String × Bytes))
  /-- the server gets the `i`-th message of `inbound` -/
  | readMessage (i : ℕ)
  /-- a page gets the `i`-th message of its `outbox` -/
  | onMessage (p : PeerRef) (i : ℕ)
  /-- `FileController::GetFile` -/
  | getFile (roomId : String) (fileId : Int)
  | read (σ : SubscriberRef) (count : Int)
  | repeatRead (σ : SubscriberRef)
  | drop (σ : SubscriberRef)

/-- The codes of what a user writes. -/
def isPost (message : MessageDto) : Bool :=
  message.code == some .codePeerMessage || message.code == some .codePeerIsTyping

namespace State

/-- The peer is a member of its room. -/
def isPresent (p : PeerRef) (s : State) : Bool :=
  Room.getPeerById (s.server.peers p).room (s.server.peers p).peerId s.server == some p

/-- The peer's connection is gone, and what it has sent with it. -/
def close (config : ConfigDto) (p : PeerRef) (s : State) : State :=
  { s with
    server := Lobby.onBeforeDestroyNonBlocking config p s.server
    inbound := s.inbound.filter fun message => message.1 != p }

/-- The server handles the `i`th message in transit. -/
def readMessage (fw : Framework) (config : ConfigDto) (i : ℕ) (s : State) : Option State :=
  match s.inbound[i]? with
  | none => none
  | some (p, message) =>
      let inbound := s.inbound.eraseIdx i
      match (Peer.readParsed fw config p message).exec s.server with
      | (.ok none, server) => some { s with server, inbound }
      | (_, server) => some (close config p { s with server, inbound })

/-- The page of `p` handles the `i`th message in its outbox. -/
def onMessage (btoa : Bytes → String) (p : PeerRef) (i : ℕ) (s : State) : Option State :=
  match (s.server.outbox p)[i]? with
  | none => none
  | some message =>
      let (answers, page) := (s.pages p).onMessage btoa message.val
      some { s with
        server := { s.server with
          outbox := Function.update s.server.outbox p ((s.server.outbox p).eraseIdx i) }
        pages := Function.update s.pages p page
        inbound := s.inbound ++ answers.map fun answer => (p, answer) }

/-- A request for a download: `getRoom`, `getFileById` and `subscribe`. -/
def getFile (roomId : String) (fileId : Int) (s : State) : Option State := do
  let ρ ← Lobby.getRoom roomId s.server
  let f ← Room.getFileById ρ fileId s.server
  let (σ, server) := File.subscribe f s.server
  some { s with server, downloads := Function.update s.downloads σ { file := f } }

/-- One call of `ReadCallback::read`. -/
def read (σ : SubscriberRef) (count : Int) (s : State) : State :=
  let download := s.downloads σ
  match (Subscriber.read σ count).exec s.server with
  | (.ok (.bytes data), server) => { s with
      server := server
      downloads := Function.update s.downloads σ
        { download with reader := .idle, delivered := download.delivered ++ data } }
  | (.ok .retryRead, server) => { s with
      server := server
      downloads := Function.update s.downloads σ { download with reader := .waiting count } }
  | (.error fault, server) => { s with
      server := server
      downloads := Function.update s.downloads σ { download with reader := .failed fault } }

/-- The framework may call `read` with this count. -/
def MayRead (s : State) (σ : SubscriberRef) (count : Int) : Prop :=
  ∃ subscriber, s.server.subscribers σ = some subscriber ∧ 0 < count ∧
    ((s.downloads σ).reader = .idle ∨
      (s.downloads σ).reader = .waiting count ∧ subscriber.waitIsOver = true)

/-- One action. -/
def step (fw : Framework) (btoa : Bytes → String) (config : ConfigDto) (s : State) :
    Act → Option State
  | .join socket roomName nickname =>
      let (p, server) := Lobby.onAfterCreateNonBlocking config socket roomName nickname s.server
      some { s with server, pages := Function.update s.pages p {} }
  | .leave p =>
      if s.isPresent p && (s.server.peers p).files.isEmpty then some (close config p s) else none
  | .post p message =>
      if s.isPresent p && isPost message then
        some { s with inbound := s.inbound ++ [(p, message)] }
      else none
  | .handleFiles p files =>
      if s.isPresent p then
        let (message, page) := (s.pages p).handleFiles files
        some { s with
          pages := Function.update s.pages p page
          inbound := s.inbound ++ [(p, message)] }
      else none
  | .readMessage i => s.readMessage fw config i
  | .onMessage p i => if s.isPresent p then s.onMessage btoa p i else none
  | .getFile roomId fileId => s.getFile roomId fileId
  | .read σ count =>
      if (s.server.subscribers σ).isSome && (s.downloads σ).reader == .idle && 0 < count then
        some (s.read σ count)
      else none
  | .repeatRead σ =>
      match s.server.subscribers σ, (s.downloads σ).reader with
      | some subscriber, .waiting count =>
          if subscriber.waitIsOver then some (s.read σ count) else none
      | _, _ => none
  | .drop σ =>
      if (s.server.subscribers σ).isSome then
        some { s with server := Subscriber.destroy σ s.server }
      else none

end State

/-- Downloads, from an empty server. -/
def system (fw : Framework) (btoa : Bytes → String) (config : ConfigDto) :
    Transition.System State Act where
  init s := ∃ clock, s = { server := { clock } }
  step := State.step fw btoa config

end Streaming

end CanChat
