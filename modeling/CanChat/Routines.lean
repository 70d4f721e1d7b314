/-
CanChat/Routines.lean

The server's functions around a peer's websocket as programs of threads: what
the ping loop, the handling of a peer's own messages, broadcasts and downloads
do one access to the shared objects at a time, with the mutexes they take.

Design.  A `Routine` may fail like a `Handler`; the sections the source runs
without reading `m_socket` are handlers taken in one step (`Routine.atomic`).
Every test of `m_socket` is a step, and so is every place that hands `m_socket`
to a coroutine: `started` lists those coroutines with the websocket they got.
The result of `validateFilesList` is dropped in the source, so its coroutine is
never started.

`Amounts` connects the two models: without interference a routine has the result
of its handler and leaves the server as the handler does.
-/
import CanChat.Handlers
import CanChat.Interleaving
import CanChat.Mutexes

namespace CanChat

open Interleaving

/-! ### Actions -/

/-- The coroutines of `Peer` that write to a websocket. -/
inductive Coroutine
  | sendMessage
  | sendPing
  | sendError
  deriving DecidableEq, Repr

/-- A coroutine that was started for `peer`, and its `m_websocket`. -/
structure Started where
  coroutine : Coroutine
  peer : PeerRef
  websocket : Option SocketRef
  deriving DecidableEq, Repr

/-- The server, and what has been started so far, newest first. -/
structure Shared where
  server : Server
  started : List Started := []

/-- What a thread does in one step. -/
inductive Action
  | access (f : Server → Server)
  /-- `execute<SendMessageCoroutine>(&m_writeLock, m_socket, ...)` -/
  | startMessage (p : PeerRef) (message : Object MessageDto)
  /-- `execute<SendPingCoroutine>(&m_writeLock, m_socket)` -/
  | startPing (p : PeerRef)
  /-- `SendErrorCoroutine::start(&m_writeLock, m_socket, ...)` -/
  | startError (p : PeerRef)
  /-- `m_socket.reset()` -/
  | invalidateSocket (p : PeerRef)

namespace Shared

/-- The coroutine gets `m_socket` as it is at this moment, null or not. -/
def start (coroutine : Coroutine) (p : PeerRef) (s : Shared) : Shared :=
  { s with started := ⟨coroutine, p, (s.server.peers p).socket⟩ :: s.started }

/-- Starting a coroutine for a message also fills the outbox, as the handler does. -/
def perform (i : Action) (s : Shared) : Shared :=
  match i with
  | .access f => { s with server := f s.server }
  | .startMessage p message =>
      { s.start .sendMessage p with server := Peer.sendMessageAsync p message s.server }
  | .startPing p => s.start .sendPing p
  | .startError p => s.start .sendError p
  | .invalidateSocket p => { s with server := Peer.invalidateSocket p s.server }

end Shared

/-! ### Routines -/

/-- A program of a thread that may fail. -/
abbrev Routine := ExceptT Fault (Program Action Mutex Shared)

namespace Routine

variable {α β : Type}

/-- Take one action; the result is the state it found. -/
def act (i : Action) : Routine Shared :=
  ExceptT.mk (.act i fun s => .pure (.ok s))

/-- A handler as one action. -/
def atomic (h : Handler α) : Routine α :=
  ExceptT.mk (.act (.access fun s => (h.exec s).2) fun s => .pure (h.exec s.server).1)

instance : MonadLift Handler Routine := ⟨atomic⟩

/-- `std::lock_guard` over `x`; the mutex is released also where `x` throws. -/
def lockGuard (m : Mutex) (x : Routine α) : Routine α :=
  ExceptT.mk (x.run.guarded m)

/-- The routine without interference. -/
def exec (x : Routine α) (s : Shared) : Except Fault α × Shared :=
  x.run.exec Shared.perform s

/-- A routine that fails does not go on. -/
theorem exec_bind (x : Routine α) (k : α → Routine β) (s : Shared) :
    (x >>= k).exec s = match x.exec s with
      | (.ok a, t) => (k a).exec t
      | (.error e, t) => (.error e, t) := by
  show (x.run.bind _).exec Shared.perform s = _
  rw [Program.exec_bind]
  unfold exec
  rcases x.run.exec Shared.perform s with ⟨_ | a, t⟩ <;> rfl

@[simp] theorem exec_pure (a : α) (s : Shared) : exec (pure a) s = (.ok a, s) := rfl

@[simp] theorem exec_get (s : Shared) : exec get s = (.ok s.server, s) := rfl

@[simp] theorem exec_modify (f : Server → Server) (s : Shared) :
    exec (modify f) s = (.ok ⟨⟩, { s with server := f s.server }) := rfl

@[simp] theorem exec_modifyGet (f : Server → α × Server) (s : Shared) :
    exec (modifyGet f) s = (.ok (f s.server).1, { s with server := (f s.server).2 }) := rfl

@[simp] theorem exec_throw (e : Fault) (s : Shared) :
    exec (throw e : Routine α) s = (.error e, s) := rfl

@[simp] theorem exec_liftM (h : Handler α) (s : Shared) : exec (liftM h) s =
    ((h.exec s.server).1, { s with server := (h.exec s.server).2 }) := rfl

@[simp] theorem exec_act (i : Action) (s : Shared) : exec (act i) s = (.ok s, s.perform i) := rfl

/-- Without interference a mutex is always free. -/
@[simp] theorem exec_lockGuard (m : Mutex) (x : Routine α) (s : Shared) :
    exec (lockGuard m x) s = x.exec s :=
  Program.exec_guarded _ m x.run s

/-- Without interference `x` does what `h` does. -/
def Amounts (x : Routine α) (h : Handler α) : Prop :=
  ∀ s, (x.exec s).1 = (h.exec s.server).1 ∧ (x.exec s).2.server = (h.exec s.server).2

namespace Amounts

variable {x : Routine α} {h : Handler α}

/-- Returning a value, as a routine and as a handler. -/
theorem pure (a : α) : Amounts (pure a) (pure a) := fun _ => ⟨rfl, rfl⟩

/-- A handler taken in one step amounts to itself. -/
theorem atomic (h : Handler α) : Amounts (atomic h) h := fun _ => ⟨rfl, rfl⟩

/-- A mutex does not change what a routine amounts to. -/
theorem lockGuard (m : Mutex) (hx : Amounts x h) : Amounts (lockGuard m x) h := by
  intro s
  rw [exec_lockGuard]
  exact hx s

/-- Amounts are put together as handlers are. -/
theorem bind {k : α → Routine β} {l : α → Handler β} (hx : Amounts x h)
    (hk : ∀ a, Amounts (k a) (l a)) : Amounts (x >>= k) (h >>= l) := by
  intro s
  obtain ⟨hresult, hserver⟩ := hx s
  rw [exec_bind, Handler.exec_bind]
  rcases hxs : x.exec s with ⟨r, t⟩
  rcases hhs : h.exec s.server with ⟨r', t'⟩
  rw [hxs, hhs] at hresult hserver
  -- result and server agree, so both go on in the same way
  obtain rfl : r = r' := hresult
  obtain rfl : t.server = t' := hserver
  rcases r with e | a
  · exact ⟨rfl, rfl⟩
  · exact hk a t

/-- Two procedures in a row. -/
theorem andThen {x y : Routine PUnit} {f g : Server → Server} (hx : Amounts x (modify f))
    (hy : Amounts y (modify g)) : Amounts (do x; y) (modify fun s => g (f s)) :=
  hx.bind fun _ => hy

/-- A handler may be replaced by one with the same runs. -/
theorem congr {h' : Handler α} (hx : Amounts x h) (heq : ∀ s, h.exec s = h'.exec s) :
    Amounts x h' := by
  intro s
  rw [← heq]
  exact hx s

end Amounts

end Routine

namespace Threads

open Routine

/-! ### Sending -/

namespace Peer

/-- `Peer::sendMessageAsync`: the test of `m_socket` is one step, its use another. -/
def sendMessageAsync (p : PeerRef) (message : Object MessageDto) : Routine Unit := do
  if ((← get).peers p).socket.isSome then
    let _ ← act (.startMessage p message)

/-- Alone, the socket that was tested is the one that is used. -/
theorem amounts_sendMessageAsync (p : PeerRef) (message : Object MessageDto) :
    Amounts (sendMessageAsync p message) (modify (CanChat.Peer.sendMessageAsync p message)) := by
  intro s
  unfold sendMessageAsync
  rw [exec_bind, exec_get, Handler.exec_modify]
  dsimp only
  by_cases h : (s.server.peers p).socket.isSome
  · rw [if_pos h]
    exact ⟨rfl, rfl⟩
  · rw [if_neg h, CanChat.Peer.sendMessageAsync, if_neg h]
    exact ⟨rfl, rfl⟩

/-- `Peer::sendPingAsync`: the counter is raised, then read together with
`m_socket`, then `m_socket` is used. -/
def sendPingAsync (p : PeerRef) : Routine Bool := do
  modify (Server.modifyPeer p fun peer =>
    { peer with pingPoingCounter := peer.pingPoingCounter + 1 })
  let peer := (← get).peers p
  if peer.socket.isSome && peer.pingPoingCounter == 1 then
    let _ ← act (.startPing p)
    pure true
  else
    pure false

/-- Alone, the coroutine gets the socket that was tested. -/
theorem amounts_sendPingAsync (p : PeerRef) :
    Amounts (sendPingAsync p) (modifyGet (CanChat.Peer.sendPingAsync p)) := by
  intro s
  unfold sendPingAsync
  simp only [exec_bind, exec_modify, exec_get]
  rw [Handler.exec_modifyGet, CanChat.Peer.sendPingAsync]
  dsimp only
  split
  · next h =>
    rw [h]
    exact ⟨rfl, rfl⟩
  · next h =>
    -- the handler returns the test itself, the routine one of two constants
    rw [Bool.eq_false_iff.mpr h]
    exact ⟨rfl, rfl⟩

/-- `Peer::onApiError`: `m_socket` is handed over without a test. -/
def onApiError (p : PeerRef) (errorMessage : String) : Routine CoroutineStarter := do
  let message ← modifyGet (Server.createShared
    { code := some .codeApiError, message := some errorMessage })
  let s ← act (.startError p)
  pure (some { websocket := (s.server.peers p).socket, message := message.val })

/-- Alone, the coroutine gets the socket the handler sees. -/
theorem amounts_onApiError (p : PeerRef) (errorMessage : String) :
    Amounts (onApiError p errorMessage) (CanChat.Peer.onApiError p errorMessage) :=
  fun _ => ⟨rfl, rfl⟩

end Peer

namespace Room

/-! ### Rooms -/

/-- The loop of `sendMessageAsync`. -/
def sendToPeers (message : Object MessageDto) : List PeerRef → Routine Unit
  | [] => pure ()
  | p :: ps => do
      Peer.sendMessageAsync p message
      sendToPeers message ps

/-- Member by member, as the loop of the handler. -/
theorem amounts_sendToPeers (message : Object MessageDto) (ps : List PeerRef) :
    Amounts (sendToPeers message ps) (modify fun s =>
      ps.foldl (fun s p => CanChat.Peer.sendMessageAsync p message s) s) := by
  induction ps with
  | nil => exact fun _ => ⟨rfl, rfl⟩
  | cons p ps ih => exact (Peer.amounts_sendMessageAsync p message).andThen ih

/-- `Room::sendMessageAsync`, with `m_peerByIdLock` held for the whole loop. -/
def sendMessageAsync (ρ : RoomRef) (message : Object MessageDto) : Routine Unit :=
  lockGuard (.peerById ρ) do
    sendToPeers message (Room.members ρ (← get))

/-- Alone, the members that are read are those that are sent to. -/
theorem amounts_sendMessageAsync (ρ : RoomRef) (message : Object MessageDto) :
    Amounts (sendMessageAsync ρ message) (modify (CanChat.Room.sendMessageAsync ρ message)) := by
  refine .lockGuard _ (.congr (.bind (.atomic get) fun s => amounts_sendToPeers message _) ?_)
  intro s
  rw [Handler.exec_bind]
  rfl

/-- `Room::addHistoryMessage`; no lock is taken where the history is disabled. -/
def addHistoryMessage (config : ConfigDto) (ρ : RoomRef) (message : Object MessageDto) :
    Routine Unit := do
  if !CanChat.Room.historyDisabled config then
    lockGuard (.history ρ) (modify (CanChat.Room.addHistoryMessage config ρ message))

/-- Both skip a disabled history. -/
theorem amounts_addHistoryMessage (config : ConfigDto) (ρ : RoomRef)
    (message : Object MessageDto) : Amounts (addHistoryMessage config ρ message)
      (modify (CanChat.Room.addHistoryMessage config ρ message)) := by
  unfold addHistoryMessage
  split
  · exact .lockGuard _ (.atomic _)
  · next h =>
    refine .congr (.pure ()) fun s => ?_
    have hdisabled : CanChat.Room.historyDisabled config = true := by simpa using h
    rw [Handler.exec_modify, CanChat.Room.addHistoryMessage, if_pos hdisabled]
    rfl

/-- `Room::getHistory`, with the same test. -/
def getHistory (config : ConfigDto) (ρ : RoomRef) :
    Routine (Option (List (Option (Object MessageDto)))) := do
  if CanChat.Room.historyDisabled config then
    pure none
  else
    lockGuard (.history ρ) do
      pure (CanChat.Room.getHistory config ρ (← get))

/-- Reading under the lock, or null. -/
theorem amounts_getHistory (config : ConfigDto) (ρ : RoomRef) :
    Amounts (getHistory config ρ) (do pure (CanChat.Room.getHistory config ρ (← get))) := by
  unfold getHistory
  split
  · next h =>
    refine .congr (.pure none) fun s => ?_
    rw [Handler.exec_bind, Handler.exec_get]
    dsimp only
    rw [CanChat.Room.getHistory, if_pos h]
  · exact .lockGuard _ (.bind (.atomic get) fun _ => .pure _)

/-- The message goes to the peer with no mutex held. -/
def onboardPeer (config : ConfigDto) (ρ : RoomRef) (p : PeerRef) : Routine Unit := do
  let peers ← lockGuard (.peerById ρ) do
    pure (CanChat.Room.peersSnapshot ρ (← get))
  let history ← getHistory config ρ
  let message ← modifyGet fun s =>
    s.createShared (CanChat.Room.infoMessage p peers history s)
  Peer.sendMessageAsync p message

/-- Alone, the two snapshots are of one moment. -/
theorem amounts_onboardPeer (config : ConfigDto) (ρ : RoomRef) (p : PeerRef) :
    Amounts (onboardPeer config ρ p) (modify (CanChat.Room.onboardPeer config ρ p)) := by
  refine .congr (.bind (.lockGuard _ (.bind (.atomic get) fun _ => .pure _)) fun peers =>
    .bind (amounts_getHistory config ρ) fun history =>
      .bind (.atomic _) fun message => Peer.amounts_sendMessageAsync p message) fun s => ?_
  simp only [Handler.exec_bind, Handler.exec_get, Handler.exec_pure]
  rfl

/-- `Room::getPeerById`, under `m_peerByIdLock`. -/
def getPeerById (ρ : RoomRef) (peerId : Int) : Routine (Option PeerRef) :=
  lockGuard (.peerById ρ) do
    pure (CanChat.Room.getPeerById ρ peerId (← get))

/-- `Room::shareFile` holds `m_fileByIdLock` while it takes `m_peerByIdLock`. -/
def shareFile (ρ : RoomRef) (hostPeerId clientFileId : Int) (fileName : Option String)
    (fileSize : Int) : Routine FileRef :=
  lockGuard (.fileById ρ) do
    match ← getPeerById ρ hostPeerId with
    | none => throw (.exception "File host not found.")
    | some host => modifyGet (CanChat.Room.registerFile ρ host clientFileId fileName fileSize)

/-- Alone, the host that is found is the one that shares. -/
theorem amounts_shareFile (ρ : RoomRef) (hostPeerId clientFileId : Int)
    (fileName : Option String) (fileSize : Int) :
    Amounts (shareFile ρ hostPeerId clientFileId fileName fileSize)
      (CanChat.Room.shareFile ρ hostPeerId clientFileId fileName fileSize) := by
  intro s
  unfold shareFile CanChat.Room.shareFile getPeerById
  simp only [exec_lockGuard, exec_bind, exec_get, exec_pure, Handler.exec_bind, Handler.exec_get]
  rcases CanChat.Room.getPeerById ρ hostPeerId s.server with - | host
  · exact ⟨rfl, rfl⟩
  · exact ⟨rfl, rfl⟩

/-- `Room::getFileById`, under `m_fileByIdLock`. -/
def getFileById (ρ : RoomRef) (fileId : Int) : Routine (Option FileRef) :=
  lockGuard (.fileById ρ) do
    pure (CanChat.Room.getFileById ρ fileId (← get))

/-- The body of the loop in `pingAllPeers`. -/
def pingPeer (p : PeerRef) : Routine Unit := do
  if !(← Peer.sendPingAsync p) then
    let _ ← act (.invalidateSocket p)
    modify (Server.modifyStatistics fun st =>
      { st with eventPeerZombieDropped := st.eventPeerZombieDropped + 1 })

/-- The peer is dropped after the answer of `sendPingAsync`, on both sides. -/
theorem amounts_pingPeer (p : PeerRef) :
    Amounts (pingPeer p) (modify fun s => CanChat.Room.pingPeer s p) := by
  intro s
  obtain ⟨hsent, hserver⟩ := Peer.amounts_sendPingAsync p s
  rw [Handler.exec_modifyGet] at hsent hserver
  unfold pingPeer
  rw [exec_bind, Handler.exec_modify, CanChat.Room.pingPeer]
  rcases hping : (Peer.sendPingAsync p).exec s with ⟨r, t⟩
  rw [hping] at hsent hserver
  obtain rfl : r = .ok (CanChat.Peer.sendPingAsync p s.server).1 := hsent
  obtain hserver : t.server = (CanChat.Peer.sendPingAsync p s.server).2 := hserver
  dsimp only
  rw [← hserver]
  cases (CanChat.Peer.sendPingAsync p s.server).1 with
  | true => exact ⟨rfl, rfl⟩
  | false => exact ⟨rfl, rfl⟩

/-- The loop of `pingAllPeers`. -/
def pingPeers : List PeerRef → Routine Unit
  | [] => pure ()
  | p :: ps => do
      pingPeer p
      pingPeers ps

/-- Peer by peer, as the loop of the handler. -/
theorem amounts_pingPeers (ps : List PeerRef) :
    Amounts (pingPeers ps) (modify fun s => ps.foldl CanChat.Room.pingPeer s) := by
  induction ps with
  | nil => exact fun _ => ⟨rfl, rfl⟩
  | cons p ps ih => exact (amounts_pingPeer p).andThen ih

/-- `Room::pingAllPeers`, with `m_peerByIdLock` held for the whole loop. -/
def pingAllPeers (ρ : RoomRef) : Routine Unit :=
  lockGuard (.peerById ρ) do
    pingPeers (CanChat.Room.members ρ (← get))

/-- Alone, a round of a room is one step. -/
theorem amounts_pingAllPeers (ρ : RoomRef) :
    Amounts (pingAllPeers ρ) (modify (CanChat.Room.pingAllPeers ρ)) := by
  refine .lockGuard _ (.congr (.bind (.atomic get) fun s => amounts_pingPeers _) ?_)
  intro s
  rw [Handler.exec_bind]
  rfl

end Room

namespace Lobby

/-- The loop of `runPingLoop` over the rooms. -/
def pingRooms : List RoomRef → Routine Unit
  | [] => pure ()
  | ρ :: ρs => do
      Room.pingAllPeers ρ
      pingRooms ρs

/-- Room by room, as the loop of the handler. -/
theorem amounts_pingRooms (ρs : List RoomRef) :
    Amounts (pingRooms ρs) (modify fun s =>
      ρs.foldl (fun s ρ => CanChat.Room.pingAllPeers ρ s) s) := by
  induction ρs with
  | nil => exact fun _ => ⟨rfl, rfl⟩
  | cons ρ ρs ih => exact (Room.amounts_pingAllPeers ρ).andThen ih

/-- One round of `runPingLoop`. -/
def pingRound : Routine Unit :=
  lockGuard .rooms do
    pingRooms (← get).lobbyRooms.values

/-- Alone, a round of the lobby is one step. -/
theorem amounts_pingRound : Amounts pingRound (modify CanChat.Lobby.pingRound) := by
  refine .lockGuard _ (.congr (.bind (.atomic get) fun s => amounts_pingRooms _) ?_)
  intro s
  rw [Handler.exec_bind]
  rfl

end Lobby

/-! ### Downloads -/

namespace Subscriber

/-- `Subscriber::requestChunk`: the host's file is read, and the host is sent a
message. -/
def requestChunk (subscriber : CanChat.Subscriber) (size : Int) : Routine Unit := do
  if subscriber.valid then
    let file := (← get).files subscriber.file
    let message ← modifyGet (Server.createShared
      (subscriber.requestChunkMessage file.clientFileId file.serverFileId size))
    Peer.sendMessageAsync file.host message

/-- An invalid subscriber asks for nothing, on both sides. -/
theorem amounts_requestChunk (subscriber : CanChat.Subscriber) (size : Int) :
    Amounts (requestChunk subscriber size) (modify (subscriber.requestChunk size)) := by
  unfold requestChunk
  split
  · next hvalid =>
    refine .congr (.bind (.atomic get) fun s => .bind (.atomic _) fun message =>
      Peer.amounts_sendMessageAsync (s.files subscriber.file).host message) fun s => ?_
    simp only [Handler.exec_bind, Handler.exec_get]
    rw [Handler.exec_modify (subscriber.requestChunk size), CanChat.Subscriber.requestChunk,
      if_pos hvalid]
    rfl
  · next hvalid =>
    refine .congr (.pure ()) fun s => ?_
    rw [Handler.exec_modify, CanChat.Subscriber.requestChunk, if_neg hvalid]
    rfl

/-- `ReadCallback::read`: the host is asked with `m_chunkLock` held. -/
def read (σ : SubscriberRef) (count : Int) : Routine ReadResult := do
  let r : ReadResult ← lockGuard (.chunk σ) do
    let s ← get
    let subscriber ← deref (s.subscribers σ)
    match subscriber.readChunk (s.files subscriber.file).fileSize count with
    | .error fault => throw fault
    | .ok (.retryRead, subscriber') =>
        requestChunk subscriber' count
        pure .retryRead
    | .ok (.bytes data, subscriber') =>
        modify (Server.modifySubscriber σ fun _ => subscriber')
        pure (.bytes data)
  match r with
  | .retryRead => pure .retryRead
  | .bytes data =>
      modify (Server.modifyStatistics fun st =>
        { st with fileServedBytes := st.fileServedBytes + data.length })
      pure (.bytes data)

/-- Alone, the chunk that is looked at is the one that is taken. -/
theorem amounts_read (σ : SubscriberRef) (count : Int) :
    Amounts (read σ count) (CanChat.Subscriber.read σ count) := by
  intro s
  unfold read
  simp only [exec_bind, exec_lockGuard, exec_get, exec_liftM]
  rcases hσ : s.server.subscribers σ with - | subscriber
  · rw [CanChat.Subscriber.read_exec_none hσ]
    exact ⟨rfl, rfl⟩
  · rw [CanChat.Subscriber.read_exec hσ, Handler.exec_deref_some]
    dsimp only
    rcases subscriber.readChunk (s.server.files subscriber.file).fileSize count with
      fault | ⟨data | -, subscriber'⟩
    · exact ⟨rfl, rfl⟩
    · exact ⟨rfl, rfl⟩
    -- the reader asks for a chunk while it holds its lock
    · obtain ⟨hresult, hserver⟩ := amounts_requestChunk subscriber' count s
      simp only [exec_bind]
      rcases hrequest : (requestChunk subscriber' count).exec s with ⟨r, t⟩
      rw [hrequest] at hresult hserver
      obtain rfl : r = .ok () := hresult
      exact ⟨rfl, hserver⟩

end Subscriber

/-! ### The messages of a peer -/

namespace File

/-- `File::provideFileChunk`, under `m_subscribersLock`. -/
def provideFileChunk (f : FileRef) (subscriberId : Int) (data : Bytes) : Routine Unit :=
  lockGuard (.subscribers f) (atomic (CanChat.File.provideFileChunk f subscriberId data))

end File

namespace Peer

/-- The loop of `handleFilesMessage`. -/
def shareFiles (p : PeerRef) : List (Option FileDto) → Routine (List (Option FileDto))
  | [] => pure []
  | currFile :: rest => do
      let fileDto ← deref currFile
      let clientFileId ← deref fileDto.clientFileId
      let size ← deref fileDto.size
      let peer := (← get).peers p
      let f ← Room.shareFile peer.room peer.peerId clientFileId fileDto.name size
      let file := (← get).files f
      let sharedFile : FileDto :=
        { serverFileId := some file.serverFileId, name := file.fileName,
          size := some file.fileSize }
      let shared ← shareFiles p rest
      pure (some sharedFile :: shared)

/-- Entry by entry; where a field is null both loops stop. -/
theorem amounts_shareFiles (p : PeerRef) (files : List (Option FileDto)) :
    Amounts (shareFiles p files) (CanChat.Peer.shareFiles p files) := by
  induction files with
  | nil => exact .pure []
  | cons currFile rest ih =>
      refine .bind (.atomic _) fun fileDto => .bind (.atomic _) fun clientFileId =>
        .bind (.atomic _) fun size => .bind (.atomic get) fun s => ?_
      exact .bind (Room.amounts_shareFile _ _ _ _ _) fun f => .bind (.atomic get) fun s =>
        .bind ih fun shared => .pure _

/-- `Peer::handleFilesMessage`: each file is registered under its own pair of locks. -/
def handleFilesMessage (config : ConfigDto) (p : PeerRef) (message : MessageDto) :
    Routine CoroutineStarter := do
  let _ ← atomic (CanChat.Peer.validateFilesList p message.files)
  let peer := (← get).peers p
  let timestamp ← modifyGet Server.getMicroTickCount
  let shared ← shareFiles p (← deref message.files)
  let fileMessage ← modifyGet (Server.createShared
    { code := some .codePeerMessageFile
      peerId := some peer.peerId
      peerName := some peer.nickname
      timestamp := some timestamp
      files := some shared })
  Room.addHistoryMessage config peer.room fileMessage
  Room.sendMessageAsync peer.room fileMessage
  pure none

/-- Call by call, in the order of the source. -/
theorem amounts_handleFilesMessage (config : ConfigDto) (p : PeerRef) (message : MessageDto) :
    Amounts (handleFilesMessage config p message)
      (CanChat.Peer.handleFilesMessage config p message) := by
  refine .bind (.atomic _) fun _ => .bind (.atomic get) fun s => .bind (.atomic _) fun timestamp =>
    .bind (.atomic _) fun files => .bind (amounts_shareFiles p files) fun shared => ?_
  exact .bind (.atomic _) fun fileMessage => .bind (Room.amounts_addHistoryMessage _ _ _) fun _ =>
    .bind (Room.amounts_sendMessageAsync _ _) fun _ => .pure none

/-- The end of `handleFileChunkMessage`: look the file up, compare the hosts,
decode, hand over. -/
def provideChunk (fw : Framework) (p : PeerRef) (serverFileId subscriberId : Int)
    (data : String) : Routine CoroutineStarter := do
  match ← Room.getFileById ((← get).peers p).room serverFileId with
  | none => pure none
  | some f => do
      let s ← get
      if (s.peers (s.files f).host).peerId ≠ (s.peers p).peerId then
        onApiError p "Wrong file host."
      else
        match fw.base64Decode data with
        | none => throw (.exception "Base64::decode")
        | some bytes => do
            File.provideFileChunk f subscriberId bytes
            pure none

/-- Alone, the file that is looked up still has its host. -/
theorem amounts_provideChunk (fw : Framework) (p : PeerRef) (serverFileId subscriberId : Int)
    (data : String) : Amounts (provideChunk fw p serverFileId subscriberId data)
      (CanChat.Peer.provideChunk fw p serverFileId subscriberId data) := by
  intro s
  unfold provideChunk CanChat.Peer.provideChunk Room.getFileById
  simp only [exec_bind, exec_get, exec_lockGuard, exec_pure, Handler.exec_bind, Handler.exec_get]
  rcases CanChat.Room.getFileById (s.server.peers p).room serverFileId s.server with - | f
  · exact ⟨rfl, rfl⟩
  · simp only [exec_bind, exec_get]
    split
    · exact amounts_onApiError p "Wrong file host." s
    · rcases fw.base64Decode data with - | bytes
      · exact ⟨rfl, rfl⟩
      · exact Amounts.bind (.lockGuard _ (.atomic _)) (fun _ => .pure none) s

/-- `Peer::handleFileChunkMessage`; its tests touch nothing shared. -/
def handleFileChunkMessage (fw : Framework) (p : PeerRef) (message : MessageDto) :
    Routine CoroutineStarter := do
  match message.files with
  | none => onApiError p "No file provided."
  | some filesList =>
      if filesList.length > 1 then
        onApiError p "Invalid files count. Expected - 1."
      else
        match ← CanChat.Peer.front filesList with
        | none => onApiError p "File structure is not provided."
        | some fileDto =>
            match fileDto.serverFileId, fileDto.subscriberId, fileDto.data with
            | none, _, _ => onApiError p "File clientId is not provided."
            | some _, none, _ => onApiError p "File subscriberId is not provided."
            | some _, some _, none => onApiError p "File chunk data is not provided."
            | some serverFileId, some subscriberId, some data =>
                provideChunk fw p serverFileId subscriberId data

/-- Test by test; every error is answered by `onApiError`. -/
theorem amounts_handleFileChunkMessage (fw : Framework) (p : PeerRef) (message : MessageDto) :
    Amounts (handleFileChunkMessage fw p message)
      (CanChat.Peer.handleFileChunkMessage fw p message) := by
  unfold handleFileChunkMessage CanChat.Peer.handleFileChunkMessage
  rcases message.files with - | filesList
  · exact amounts_onApiError p _
  · dsimp only
    split
    · exact amounts_onApiError p _
    · refine .bind (.atomic _) fun fileDto? => ?_
      rcases fileDto? with - | fileDto
      · exact amounts_onApiError p _
      · dsimp only
        rcases fileDto.serverFileId with - | serverFileId
        · exact amounts_onApiError p _
        · rcases fileDto.subscriberId with - | subscriberId
          · exact amounts_onApiError p _
          · rcases fileDto.data with - | data
            · exact amounts_onApiError p _
            · exact amounts_provideChunk fw p serverFileId subscriberId data

/-- `Peer::handleMessage`: the room is read once, then the code decides. -/
def handleMessage (fw : Framework) (config : ConfigDto) (p : PeerRef)
    (message : Object MessageDto) : Routine CoroutineStarter := do
  let room := ((← get).peers p).room
  match message.val.code with
  | none => onApiError p "No message code provided."
  | some .codePeerMessage => do
      Room.addHistoryMessage config room message
      Room.sendMessageAsync room message
      modify (Server.modifyStatistics fun st =>
        { st with eventPeerSendMessage := st.eventPeerSendMessage + 1 })
      pure none
  | some .codePeerIsTyping => do
      Room.sendMessageAsync room message
      pure none
  | some .codeFileShare => handleFilesMessage config p message.val
  | some .codeFileChunkData => handleFileChunkMessage fw p message.val
  | some _ => onApiError p "Invalid client message code."

/-- Code by code. -/
theorem amounts_handleMessage (fw : Framework) (config : ConfigDto) (p : PeerRef)
    (message : Object MessageDto) : Amounts (handleMessage fw config p message)
      (CanChat.Peer.handleMessage fw config p message) := by
  refine .bind (.atomic get) fun s => ?_
  rcases message.val.code with - | code
  · exact amounts_onApiError p _
  · cases code with
    | codePeerMessage =>
        exact .bind (Room.amounts_addHistoryMessage _ _ _) fun _ =>
          .bind (Room.amounts_sendMessageAsync _ _) fun _ => .bind (.atomic _) fun _ => .pure none
    | codePeerIsTyping => exact .bind (Room.amounts_sendMessageAsync _ _) fun _ => .pure none
    | codeFileShare => exact amounts_handleFilesMessage config p message.val
    | codeFileChunkData => exact amounts_handleFileChunkMessage fw p message.val
    | _ => exact amounts_onApiError p _

/-- `Peer::readMessage` for one frame. -/
def readMessage (fw : Framework) (config : ConfigDto) (p : PeerRef) (data : Bytes) :
    Routine CoroutineStarter := do
  let peer := (← get).peers p
  if peer.messageBuffer.length + data.length > config.maxMessageSizeBytes then
    onApiError p "Message size exceeds max allowed size."
  else if data.length == 0 then
    modify (Server.modifyPeer p fun peer => { peer with messageBuffer := [] })
    match fw.readFromString peer.messageBuffer with
    | none => onApiError p "Can't parse message"
    | some parsed => do
        let message ← deref parsed
        let timestamp ← modifyGet Server.getMicroTickCount
        let message ← modifyGet (Server.createShared
          (CanChat.Peer.stampMessage peer timestamp message))
        handleMessage fw config p message
  else do
    modify (Server.modifyPeer p fun peer =>
      { peer with messageBuffer := peer.messageBuffer ++ data })
    pure none

/-- **Without interference a frame is handled as the handlers say.** -/
theorem amounts_readMessage (fw : Framework) (config : ConfigDto) (p : PeerRef) (data : Bytes) :
    Amounts (readMessage fw config p data) (CanChat.Peer.readMessage fw config p data) := by
  refine .bind (.atomic get) fun s => ?_
  dsimp only
  split
  · exact amounts_onApiError p _
  · split
    · refine .bind (.atomic _) fun _ => ?_
      rcases fw.readFromString (s.peers p).messageBuffer with - | parsed
      · exact amounts_onApiError p _
      · exact .bind (.atomic _) fun message => .bind (.atomic _) fun timestamp =>
          .bind (.atomic _) fun message => amounts_handleMessage fw config p message
    · exact .bind (.atomic _) fun _ => .pure none

end Peer

end Threads

end CanChat
