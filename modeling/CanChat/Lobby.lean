/-
CanChat/Lobby.lean

`Lobby` (server/src/rooms/Lobby.cpp): the rooms by name, and the two socket
events, as whole handlers.  The systems in which handlers interleave take the
parts of these handlers one step at a time.
-/
import CanChat.Room

namespace CanChat

namespace Lobby

/-! ### Rooms -/

/-- The room of that name, made if there is none. -/
def getOrCreateRoom (roomName : String) (s : Server) : RoomRef × Server :=
  match s.lobbyRooms.lookup roomName with
  | some ρ => (ρ, s)
  | none =>
      let ρ := s.roomCount
      let s := { s with
        rooms := Function.update s.rooms ρ { name := roomName }
        roomCount := s.roomCount + 1
        lobbyRooms := s.lobbyRooms.insert roomName ρ }
      (ρ, s.modifyStatistics fun st => { st with eventRoomCreated := st.eventRoomCreated + 1 })

/-- The room of that name, if there is one. -/
def getRoom (roomName : String) (s : Server) : Option RoomRef :=
  s.lobbyRooms.lookup roomName

theorem getOrCreateRoom_some {roomName : String} {s : Server} {ρ : RoomRef}
    (h : getRoom roomName s = some ρ) : getOrCreateRoom roomName s = (ρ, s) := by
  simp only [getRoom] at h
  simp only [getOrCreateRoom, h]

theorem getOrCreateRoom_none {roomName : String} {s : Server} (h : getRoom roomName s = none) :
    ∃ statistics rooms roomCount lobbyRooms, getOrCreateRoom roomName s =
      (s.roomCount, { s with statistics, rooms, roomCount, lobbyRooms }) := by
  simp only [getRoom] at h
  simp only [getOrCreateRoom, h]
  exact ⟨_, _, _, _, rfl⟩

/-- Whether or not the room is there, only rooms, their names and the statistics
are touched. -/
theorem getOrCreateRoom_frame (roomName : String) (s : Server) :
    ∃ statistics rooms roomCount lobbyRooms, (getOrCreateRoom roomName s).2 =
      { s with statistics, rooms, roomCount, lobbyRooms } := by
  rcases hroom : getRoom roomName s with - | ρ
  · obtain ⟨_, _, _, _, hcreate⟩ := getOrCreateRoom_none hroom
    rw [hcreate]
    exact ⟨_, _, _, _, rfl⟩
  · rw [getOrCreateRoom_some hroom]
    exact ⟨s.statistics, s.rooms, s.roomCount, s.lobbyRooms, rfl⟩

/-- The name leaves the map; the object may live on. -/
def deleteRoom (roomName : String) (s : Server) : Server :=
  { s with lobbyRooms := s.lobbyRooms.erase roomName }

/-- One round of `runPingLoop`. -/
def pingRound (s : Server) : Server :=
  s.lobbyRooms.values.foldl (fun s ρ => Room.pingAllPeers ρ s) s

/-! ### Socket events -/

/-- `make_shared<Peer>(socket, room, nickname, obtainNewPeerId())`. -/
def createPeer (socket : SocketRef) (ρ : RoomRef) (nickname : String) (s : Server) :
    PeerRef × Server :=
  let p := s.peerCount
  (p, { s with
    peers := Function.update s.peers p
      { socket := some socket, room := ρ, nickname, peerId := s.peerIdCounter }
    peerCount := s.peerCount + 1
    peerIdCounter := s.peerIdCounter + 1 })

/-- One more peer has connected. -/
def countConnected : Server → Server :=
  Server.modifyStatistics fun st => { st with eventPeerConnected := st.eventPeerConnected + 1 }

/-- One more peer has disconnected. -/
def countDisconnected : Server → Server :=
  Server.modifyStatistics fun st =>
    { st with eventPeerDisconnected := st.eventPeerDisconnected + 1 }

@[simp] theorem countDisconnected_peers (s : Server) :
    (countDisconnected s).peers = s.peers := rfl

/-- `onAfterCreate_NonBlocking`; the peer becomes the socket's listener. -/
def onAfterCreateNonBlocking (config : ConfigDto) (socket : SocketRef)
    (roomName nickname : String) (s : Server) : PeerRef × Server :=
  let s := countConnected s
  let (room, s) := getOrCreateRoom roomName s
  let (peer, s) := createPeer socket room nickname s
  let s := Room.welcomePeer config room peer s
  let s := Room.addPeer room peer s
  (peer, Room.onboardPeer config room peer s)

/-- `onBeforeDestroy_NonBlocking` for a socket whose listener is `p`. -/
def onBeforeDestroyNonBlocking (config : ConfigDto) (p : PeerRef) (s : Server) : Server :=
  let s := countDisconnected s
  let room := (s.peers p).room
  let s := Room.removePeerById room (s.peers p).peerId s
  let s := Room.goodbyePeer config room p s
  let s := Peer.invalidateSocket p s
  if Room.isEmpty room s then deleteRoom (s.rooms room).name s else s

end Lobby

/-- One peer has joined one room of a fresh server. -/
def soloServer : Server := (Lobby.onAfterCreateNonBlocking {} 0 "lounge" "Ann" {}).2

end CanChat
