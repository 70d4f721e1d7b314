/-
CanChat/Chat.lean

The chat as a whole: any number of sockets that join rooms, post messages and
leave, with the steps of their handlers interleaved in any order.

Design.  The handlers of one socket run one after the other, so a socket is a
`Stage`: the next call its handler makes.  Every call that takes a lock is one
step, and calls the function of the room or the lobby that the source calls
there; what a handler does between two such calls goes with the step before.
`record` and `broadcast` are the two calls by which every message, notice or
post gets to the room, and `Purpose` says which handler makes them.

The log is a ghost, newest event first.  It has what the results about
messages are about: what was added to a history, who joined and left, which
history a newcomer was given, and each call of `Peer::sendMessageAsync`.  No
step reads it.  Its `sent` events are written beside the calls; that the
outboxes fill up accordingly is a theorem about every run (`Traffic.handed`).
-/
import CanChat.Directory
import CanChat.Transition

namespace CanChat

namespace Chat

/-! ### The sockets -/

/-- The handler on whose behalf a message is recorded and broadcast. -/
inductive Purpose
  /-- `welcomePeer` -/
  | joining
  /-- `handleMessage` -/
  | posting
  /-- `goodbyePeer` -/
  | leaving
  deriving DecidableEq, Repr

/-- The next call of a socket's handler. -/
inductive Stage
  | closed
  | getOrCreateRoom
  | createPeer (ρ : RoomRef)
  /-- `addHistoryMessage`, with the message about to be allocated -/
  | record (purpose : Purpose) (p : PeerRef) (dto : MessageDto)
  /-- `Room::sendMessageAsync` -/
  | broadcast (purpose : Purpose) (p : PeerRef) (message : Object MessageDto)
  | addPeer (p : PeerRef)
  /-- `onboardPeer`: read the members -/
  | onboardPeer (p : PeerRef)
  | getHistory (p : PeerRef) (peers : List (Option PeerDto))
  | sendInfo (p : PeerRef) (info : Object MessageDto)
  /-- between two incoming messages -/
  | joined (p : PeerRef)
  | shareFiles (p : PeerRef) (timestamp : Int) (todo shared : List (Option FileDto))
  | removePeerById (p : PeerRef)
  | invalidateSocket (p : PeerRef)
  | isEmpty (p : PeerRef)
  | deleteRoom (p : PeerRef)
  | gone

structure Connection where
  roomName : String := ""
  nickname : String := ""
  stage : Stage := .closed

inductive Event
  | recorded (ρ : RoomRef) (message : Object MessageDto)
  /-- a call of `Peer::sendMessageAsync` -/
  | sent (p : PeerRef) (message : Object MessageDto)
  /-- the end of `Room::sendMessageAsync` -/
  | broadcast (ρ : RoomRef) (message : Object MessageDto)
  | added (ρ : RoomRef) (p : PeerRef)
  | removed (p : PeerRef)
  /-- `getHistory` on behalf of a newcomer, and what it returned -/
  | snapshot (ρ : RoomRef) (p : PeerRef) (history : Option (List (Option (Object MessageDto))))
  /-- the end of `onAfterCreate_NonBlocking` -/
  | joined (ρ : RoomRef) (p : PeerRef)

structure State where
  server : Server := {}
  sockets : SocketRef → Connection := fun _ => {}
  log : List Event := []

inductive Act
  | connect (k : SocketRef) (roomName nickname : String)
  /-- the next call of the handler of `k` -/
  | run (k : SocketRef)
  /-- a message of the client, as parsed -/
  | receive (k : SocketRef) (message : MessageDto)
  | close (k : SocketRef)
  | pingAllPeers (ρ : RoomRef)
  | onPong (p : PeerRef)

namespace State

/-- The handler of `k` has made a call: the server and the log after it, and
the next call. -/
def goto (k : SocketRef) (stage : Stage) (server : Server) (events : List Event) (s : State) :
    State where
  server := server
  sockets := Function.update s.sockets k { s.sockets k with stage }
  log := events ++ s.log

/-- What follows the broadcast of a message. -/
def afterBroadcast (purpose : Purpose) (p : PeerRef) : Stage :=
  match purpose with
  | .joining => .addPeer p
  | .posting => .joined p
  | .leaving => .invalidateSocket p

/-- `EVENT_PEER_SEND_MESSAGE` counts the chat messages. -/
def countMessage (message : MessageDto) (s : Server) : Server :=
  match message.code with
  | some .codePeerMessage => s.modifyStatistics fun st =>
      { st with eventPeerSendMessage := st.eventPeerSendMessage + 1 }
  | _ => s

def run (config : ConfigDto) (k : SocketRef) (s : State) : Option State :=
  let connection := s.sockets k
  match connection.stage with
  | .closed => none
  | .getOrCreateRoom =>
      let (ρ, server) := Lobby.getOrCreateRoom connection.roomName s.server
      some (s.goto k (.createPeer ρ) server [])
  | .createPeer ρ =>
      let (p, server) := Lobby.createPeer k ρ connection.nickname s.server
      some (s.goto k (.record .joining p (Room.joinedMessage p server)) server [])
  | .record purpose p dto =>
      let ρ := (s.server.peers p).room
      let (message, server) := s.server.createShared dto
      some (s.goto k (.broadcast purpose p message) (Room.addHistoryMessage config ρ message server)
        [.recorded ρ message])
  | .broadcast purpose p message =>
      let ρ := (s.server.peers p).room
      some (s.goto k (afterBroadcast purpose p)
        (countMessage message.val (Room.sendMessageAsync ρ message s.server))
        (.broadcast ρ message :: (Room.members ρ s.server).map fun q => .sent q message))
  | .addPeer p =>
      let ρ := (s.server.peers p).room
      some (s.goto k (.onboardPeer p) (Room.addPeer ρ p s.server) [.added ρ p])
  | .onboardPeer p =>
      let peers := Room.peersSnapshot (s.server.peers p).room s.server
      some (s.goto k (.getHistory p peers) s.server [])
  | .getHistory p peers =>
      let ρ := (s.server.peers p).room
      let history := Room.getHistory config ρ s.server
      let (info, server) := s.server.createShared (Room.infoMessage p peers history s.server)
      some (s.goto k (.sendInfo p info) server [.snapshot ρ p history])
  | .sendInfo p info =>
      some (s.goto k (.joined p) (Peer.sendMessageAsync p info s.server)
        [.joined (s.server.peers p).room p, .sent p info])
  | .joined _ => none
  | .shareFiles p timestamp [] shared =>
      some (s.goto k (.record .posting p
        { code := some .codePeerMessageFile
          peerId := some (s.server.peers p).peerId
          peerName := some (s.server.peers p).nickname
          timestamp := some timestamp
          files := some shared }) s.server [])
  | .shareFiles p timestamp (currFile :: todo) shared =>
      match (Peer.shareFiles p [currFile]).exec s.server with
      | (.ok files, server) =>
          some (s.goto k (.shareFiles p timestamp todo (shared ++ files)) server [])
      -- a handler that fails takes the connection with it
      | (.error _, server) => some (s.goto k (.removePeerById p) server [])
  | .removePeerById p =>
      let peer := s.server.peers p
      some (s.goto k (.record .leaving p (Room.leftMessage p s.server))
        (Room.removePeerById peer.room peer.peerId (Lobby.countDisconnected s.server)) [.removed p])
  | .invalidateSocket p =>
      some (s.goto k (.isEmpty p) (Peer.invalidateSocket p s.server) [])
  | .isEmpty p =>
      some (s.goto k
        (if Room.isEmpty (s.server.peers p).room s.server then .deleteRoom p else .gone)
        s.server [])
  | .deleteRoom p =>
      let room := s.server.rooms (s.server.peers p).room
      some (s.goto k .gone (Lobby.deleteRoom room.name s.server) [])
  | .gone => none

/-- `readMessage` once the message is parsed, up to its first call with a lock. -/
def receive (fw : Framework) (config : ConfigDto) (k : SocketRef) (message : MessageDto)
    (s : State) : Option State :=
  match (s.sockets k).stage with
  | .joined p =>
      let (timestamp, server) := s.server.getMicroTickCount
      let message := Peer.stampMessage (s.server.peers p) timestamp message
      match message.code with
      | some .codePeerMessage => some (s.goto k (.record .posting p message) server [])
      | some .codePeerIsTyping =>
          let (message, server) := server.createShared message
          some (s.goto k (.broadcast .posting p message) server [])
      | some .codeFileShare =>
          match (Peer.validateFilesList p message.files).exec server with
          | (.error _, server) => some (s.goto k (.removePeerById p) server [])
          | (.ok _, server) =>
              let (timestamp, server) := server.getMicroTickCount
              some (s.goto k (.shareFiles p timestamp (message.files.getD []) []) server [])
      | _ =>
          let (message, server) := server.createShared message
          match (Peer.handleMessage fw config p message).exec server with
          | (.ok none, server) => some (s.goto k (.joined p) server [])
          -- the connection is closed after an API error
          | (_, server) => some (s.goto k (.removePeerById p) server [])
  | _ => none

def step (fw : Framework) (config : ConfigDto) (s : State) : Act → Option State
  | .connect k roomName nickname =>
      match (s.sockets k).stage with
      | .closed => some { s with
          server := Lobby.countConnected s.server
          sockets := Function.update s.sockets k { roomName, nickname, stage := .getOrCreateRoom } }
      | _ => none
  | .run k => s.run config k
  | .receive k message => s.receive fw config k message
  | .close k =>
      match (s.sockets k).stage with
      | .joined p => some (s.goto k (.removePeerById p) s.server [])
      | _ => none
  | .pingAllPeers ρ => some { s with server := Room.pingAllPeers ρ s.server }
  | .onPong p => some { s with server := Peer.onPong p s.server }

end State

/-- A fresh server. -/
def system (fw : Framework) (config : ConfigDto) : Transition.System State Act where
  init s := ∃ clock, s = { server := { clock } }
  step := State.step fw config

/-! ### A socket on its own -/

section Alone

variable (fw : Framework) (config : ConfigDto) {s : State} {k : SocketRef}

/-- Without interference the calls made for a new socket amount to
`onAfterCreate_NonBlocking`. -/
theorem run_onAfterCreate (h : (s.sockets k).stage = .closed) (roomName nickname : String) :
    ∃ s', (system fw config).run s (.connect k roomName nickname :: List.replicate 8 (.run k)) =
        some s' ∧
      s'.server = (Lobby.onAfterCreateNonBlocking config k roomName nickname s.server).2 ∧
      (s'.sockets k).stage =
        .joined (Lobby.onAfterCreateNonBlocking config k roomName nickname s.server).1 := by
  simp [List.replicate, system, State.step, State.run, State.goto, h, State.afterBroadcast,
    State.countMessage, Server.createShared, Room.joinedMessage, Lobby.createPeer, Room.addPeer,
    Lobby.onAfterCreateNonBlocking, Room.welcomePeer, Room.onboardPeer]

/-- Likewise those made for a socket that closes, to
`onBeforeDestroy_NonBlocking`. -/
theorem run_onBeforeDestroy {p : PeerRef} (h : (s.sockets k).stage = .removePeerById p) :
    ∃ n s', (system fw config).run s (List.replicate n (.run k)) = some s' ∧
      s'.server = Lobby.onBeforeDestroyNonBlocking config p s.server ∧
      (s'.sockets k).stage = .gone := by
  let ρ := (s.server.peers p).room
  let left := Room.goodbyePeer config ρ p
    (Room.removePeerById ρ (s.server.peers p).peerId (Lobby.countDisconnected s.server))
  rcases hempty : Room.isEmpty ρ (Peer.invalidateSocket p left) <;>
    simp [ρ, left, Room.goodbyePeer, Room.leftMessage, Server.createShared] at hempty
  · refine ⟨5, ?_⟩
    simp [List.replicate, system, State.step, State.run, State.goto, h, State.afterBroadcast,
      State.countMessage, Server.createShared, Room.leftMessage, Room.goodbyePeer,
      Lobby.onBeforeDestroyNonBlocking, hempty]
  · refine ⟨6, ?_⟩
    simp [List.replicate, system, State.step, State.run, State.goto, h, State.afterBroadcast,
      State.countMessage, Server.createShared, Room.leftMessage, Room.goodbyePeer,
      Lobby.onBeforeDestroyNonBlocking, hempty]

end Alone

/-! ### Two sockets -/

/-- A framework whose parser accepts nothing; no message is read in the examples. -/
def silent : Framework where
  readFromString _ := none
  base64Decode _ := none

def fresh : State := {}

/-- Ann and Bob join one after the other. -/
def joinBoth : List Act :=
  .connect 0 "lounge" "Ann" :: List.replicate 8 (.run 0) ++
    .connect 1 "lounge" "Bob" :: List.replicate 8 (.run 1)

end Chat

end CanChat
