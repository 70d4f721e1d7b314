/-
CanChat/Bookkeeping.lean

What the lobby knows between two socket events.

When joins and leaves do not interleave, the lobby's books are exact.  A room
is registered under a name exactly while somebody joined under it is there;
the members of the room are these peers, under distinct ids; the counters
agree with them; and the history of a room has nothing from before the name
was last without a member (`books_balance`).

Design.  A `Session` is a socket between its two events.  The sessions and the
messages of a name's present life are ghosts, kept by the events themselves
and never read by the server.  `Consistent` is the invariant, stated over the
directory; the totals follow from it by counting.
-/
import CanChat.Directory
import CanChat.Transition

namespace CanChat

namespace Bookkeeping

/-! ### Runs of socket events and ping rounds -/

/-- A socket that has been created and not yet destroyed, with its listener. -/
structure Session where
  socket : SocketRef
  roomName : String
  peer : PeerRef
  deriving DecidableEq, Repr

/-- The server with books of its own: the sessions, the lives of the room names,
and how often such a life began. -/
structure State where
  server : Server := {}
  sessions : List Session := []
  /-- How often a room name went from no member to one. -/
  revivals : ℕ := 0
  /-- The joins and leaves announced under a name since it last had no member,
  newest first. -/
  life : String → List (Object MessageDto) := fun _ => []

/-- The events: a socket opens or closes, a round of pings. -/
inductive Act
  | onAfterCreate (k : SocketRef) (roomName nickname : String)
  | onBeforeDestroy (k : SocketRef)
  | pingRound

namespace State

/-- A session has entered the room of that name. -/
def isEntered (roomName : String) (s : State) : Bool :=
  s.sessions.any fun session => session.roomName == roomName

def onAfterCreate (config : ConfigDto) (k : SocketRef) (roomName nickname : String) (s : State) :
    State :=
  let (peer, server) := Lobby.onAfterCreateNonBlocking config k roomName nickname s.server
  let joined : Object MessageDto := ⟨s.server.objectCount, Room.joinedMessage peer server⟩
  { server
    sessions := ⟨k, roomName, peer⟩ :: s.sessions
    revivals := if s.isEntered roomName then s.revivals else s.revivals + 1
    life := Function.update s.life roomName
      (joined :: if s.isEntered roomName then s.life roomName else []) }

def onBeforeDestroy (config : ConfigDto) (session : Session) (s : State) : State :=
  let left : Object MessageDto := ⟨s.server.objectCount, Room.leftMessage session.peer s.server⟩
  { s with
    server := Lobby.onBeforeDestroyNonBlocking config session.peer s.server
    sessions := s.sessions.erase session
    life := Function.update s.life session.roomName (left :: s.life session.roomName) }

/-- A socket is created while it has no session, and destroyed while it has. -/
def step (config : ConfigDto) (s : State) : Act → Option State
  | .onAfterCreate k roomName nickname =>
      match s.sessions.find? fun session => session.socket == k with
      | none => some (s.onAfterCreate config k roomName nickname)
      | some _ => none
  | .onBeforeDestroy k =>
      match s.sessions.find? fun session => session.socket == k with
      | none => none
      | some session => some (s.onBeforeDestroy config session)
  | .pingRound => some { s with server := Lobby.pingRound s.server }

/-- The members of all registered rooms together. -/
def memberTotal (s : State) : ℕ :=
  (s.server.lobbyRooms.values.map fun ρ => (Room.members ρ s.server).length).sum

end State

/-- A fresh server. -/
def system (config : ConfigDto) : Transition.System State Act where
  init s := ∃ clock, s = { server := { clock } }
  step := State.step config

/-- The books of the lobby are in order. -/
structure Balanced (config : ConfigDto) (s : State) : Prop where
  /-- a room is registered under a name exactly while a peer is joined under it -/
  registered : ∀ name, (∃ ρ, Lobby.getRoom name s.server = some ρ) ↔
    ∃ session ∈ s.sessions, session.roomName = name
  /-- and it is the room of exactly these peers -/
  room : ∀ name ρ, Lobby.getRoom name s.server = some ρ → ∀ session ∈ s.sessions,
    (s.server.peers session.peer).room = ρ ↔ session.roomName = name
  members : ∀ name ρ, Lobby.getRoom name s.server = some ρ → ∀ id p,
    Room.getPeerById ρ id s.server = some p ↔
      ∃ session ∈ s.sessions, session.roomName = name ∧ session.peer = p ∧
        (s.server.peers p).peerId = id
  ids : (s.sessions.map fun session => (s.server.peers session.peer).peerId).Nodup
  connected : s.server.statistics.eventPeerConnected =
    s.server.statistics.eventPeerDisconnected + s.memberTotal
  created : s.server.statistics.eventRoomCreated = s.revivals
  history : ∀ name ρ, Lobby.getRoom name s.server = some ρ → (s.server.rooms ρ).history =
    ((s.life name).take (config.maxRoomHistoryMessages.getD 0)).reverse

/-! ### The directory and the sessions -/

/-- The members of the rooms are the peers of the sessions, each in the room it
was created for, under an id of its own. -/
structure Consistent (d : Directory) (sessions : List Session) : Prop where
  peer_lt : ∀ session ∈ sessions, session.peer < d.peerCount
  nodup : (sessions.map Session.peer).Nodup
  peerId_lt : ∀ p < d.peerCount, d.peerId p < d.peerIdCounter
  peerId_inj : ∀ p < d.peerCount, ∀ q < d.peerCount, d.peerId p = d.peerId q → p = q
  lobby : ∀ name ρ, d.lobby name = some ρ → ρ < d.roomCount ∧ d.roomName ρ = name
  entered : ∀ session ∈ sessions, d.lobby session.roomName = some (d.peerRoom session.peer)
  member : ∀ ρ id p, d.member ρ id = some p ↔
    ∃ session ∈ sessions, session.peer = p ∧ d.peerRoom p = ρ ∧ d.peerId p = id

/-- No room is registered without a session. -/
def Occupied (d : Directory) (sessions : List Session) : Prop :=
  ∀ name ρ, d.lobby name = some ρ → ∃ session ∈ sessions, session.roomName = name

/-- The history of a registered room is what is left of its name's present life. -/
def Remembers (config : ConfigDto) (d : Directory) (life : String → List (Object MessageDto)) :
    Prop :=
  ∀ name ρ, d.lobby name = some ρ →
    d.history ρ = ((life name).take (config.maxRoomHistoryMessages.getD 0)).reverse

namespace Consistent

variable {config : ConfigDto} {d : Directory} {sessions : List Session} {session : Session}

/-- A registered room belongs to one name only. -/
theorem name_inj (h : Consistent d sessions) {name name' : String} {ρ : RoomRef}
    (hname : d.lobby name = some ρ) (hname' : d.lobby name' = some ρ) : name = name' :=
  (h.lobby name ρ hname).2.symm.trans (h.lobby name' ρ hname').2

/-- A room is created under a name nobody has joined under. -/
theorem createRoom (h : Consistent d sessions) {name : String} (hnone : d.lobby name = none) :
    Consistent (d.createRoom name) sessions := by
  have hne : ∀ x ∈ sessions, x.roomName ≠ name := by
    rintro x hx rfl
    rw [h.entered x hx] at hnone
    cases hnone
  have hroom_lt : ∀ x ∈ sessions, d.peerRoom x.peer < d.roomCount := fun x hx =>
    (h.lobby _ _ (h.entered x hx)).1
  refine { h with lobby := ?_, entered := ?_, member := ?_ }
  · intro name' ρ hρ
    simp only [Directory.createRoom_lobby] at hρ
    split at hρ
    · next heq =>
      obtain rfl := Option.some.inj hρ
      exact ⟨Nat.lt_succ_self _, by simp [heq]⟩
    · obtain ⟨hlt, hname⟩ := h.lobby name' ρ hρ
      refine ⟨Nat.lt_succ_of_lt hlt, ?_⟩
      rw [Directory.createRoom_roomName, Function.update_of_ne hlt.ne]
      exact hname
  · intro x hx
    rw [Directory.createRoom_lobby, if_neg (hne x hx)]
    exact h.entered x hx
  · intro ρ id p
    rw [Directory.createRoom_member]
    rcases eq_or_ne ρ d.roomCount with rfl | hρ
    · -- nobody is in the new room
      rw [Function.update_self]
      constructor
      · intro hnone
        cases hnone
      · rintro ⟨x, hx, rfl, hroom, -⟩
        exact absurd hroom (hroom_lt x hx).ne
    · rw [Function.update_of_ne hρ]
      exact h.member ρ id p

/-- A peer is created in the registered room and added to it. -/
theorem join (h : Consistent d sessions) {name : String} {ρ : RoomRef}
    (hρ : d.lobby name = some ρ) (k : SocketRef) (message : Object MessageDto) :
    Consistent (((d.createPeer ρ).createShared.addHistoryMessage config ρ message).addPeer ρ
      d.peerCount).createShared (⟨k, name, d.peerCount⟩ :: sessions) := by
  -- the new session has a peer, an id and a room entry that no other session has
  have hnew : ∀ x ∈ sessions, x.peer ≠ d.peerCount := fun x hx => (h.peer_lt x hx).ne
  have hroom : ∀ x ∈ sessions, (d.createPeer ρ).peerRoom x.peer = d.peerRoom x.peer :=
    fun x hx => Function.update_of_ne (hnew x hx) _ _
  have hid : ∀ p < d.peerCount, (d.createPeer ρ).peerId p = d.peerId p :=
    fun p hp => Function.update_of_ne hp.ne _ _
  have hroomNew : (d.createPeer ρ).peerRoom d.peerCount = ρ := Function.update_self _ _ _
  have hidNew : (d.createPeer ρ).peerId d.peerCount = d.peerIdCounter :=
    Function.update_self _ _ _
  constructor
  case peer_lt =>
    intro x hx
    rcases List.mem_cons.mp hx with rfl | hx
    · exact Nat.lt_succ_self _
    · exact Nat.lt_succ_of_lt (h.peer_lt x hx)
  case nodup =>
    refine List.nodup_cons.mpr ⟨?_, h.nodup⟩
    intro hmem
    obtain ⟨x, hx, heq⟩ := List.mem_map.mp hmem
    exact hnew x hx heq
  case peerId_lt =>
    intro p hp
    show (d.createPeer ρ).peerId p < d.peerIdCounter + 1
    rcases Nat.lt_succ_iff_lt_or_eq.mp hp with hp | rfl
    · rw [hid p hp]
      exact (h.peerId_lt p hp).trans (Int.lt_succ _)
    · rw [hidNew]
      exact Int.lt_succ _
  case peerId_inj =>
    intro p hp q hq heq
    replace heq : (d.createPeer ρ).peerId p = (d.createPeer ρ).peerId q := heq
    rcases Nat.lt_succ_iff_lt_or_eq.mp hp with hp | rfl <;>
      rcases Nat.lt_succ_iff_lt_or_eq.mp hq with hq | rfl
    · rw [hid p hp, hid q hq] at heq
      exact h.peerId_inj p hp q hq heq
    · rw [hid p hp, hidNew] at heq
      exact absurd heq (h.peerId_lt p hp).ne
    · rw [hid q hq, hidNew] at heq
      exact absurd heq.symm (h.peerId_lt q hq).ne
    · rfl
  case lobby => exact h.lobby
  case entered =>
    intro x hx
    show d.lobby x.roomName = some ((d.createPeer ρ).peerRoom x.peer)
    rcases List.mem_cons.mp hx with rfl | hx
    · rw [hroomNew]
      exact hρ
    · rw [hroom x hx]
      exact h.entered x hx
  case member =>
    intro ρ' id p
    have hmember : (((d.createPeer ρ).createShared.addHistoryMessage config ρ message).addPeer ρ
        d.peerCount).createShared.member ρ' id =
          if ρ' = ρ ∧ id = d.peerIdCounter then some d.peerCount else d.member ρ' id := by
      show Function.update d.member ρ (fun id => if id = (d.createPeer ρ).peerId d.peerCount then
        some d.peerCount else d.member ρ id) ρ' id = _
      rw [hidNew]
      rcases eq_or_ne ρ' ρ with rfl | hne
      · simp
      · simp [hne]
    rw [hmember]
    show _ ↔ ∃ x ∈ (⟨k, name, d.peerCount⟩ :: sessions : List Session), x.peer = p ∧
      (d.createPeer ρ).peerRoom p = ρ' ∧ (d.createPeer ρ).peerId p = id
    split
    · next heq =>
      obtain ⟨rfl, rfl⟩ := heq
      constructor
      · intro hp
        -- the new member is the peer of the new session
        obtain rfl := Option.some.inj hp
        exact ⟨_, List.mem_cons_self, rfl, hroomNew, hidNew⟩
      · rintro ⟨x, hx, rfl, -, hxid⟩
        -- no older session has the new id
        rcases List.mem_cons.mp hx with rfl | hx
        · rfl
        · have hlt := h.peer_lt x hx
          rw [hid _ hlt] at hxid
          exact absurd hxid (h.peerId_lt _ hlt).ne
    -- the other entries of the member table are as before
    · next hne =>
      rw [h.member]
      constructor
      · rintro ⟨x, hx, rfl, rfl, rfl⟩
        exact ⟨x, List.mem_cons_of_mem _ hx, rfl, hroom x hx, hid _ (h.peer_lt x hx)⟩
      · rintro ⟨x, hx, rfl, hxroom, hxid⟩
        rcases List.mem_cons.mp hx with rfl | hx
        · exact absurd ⟨hxroom.symm.trans hroomNew, hxid.symm.trans hidNew⟩ hne
        · exact ⟨x, hx, rfl, (hroom x hx).symm.trans hxroom,
            (hid _ (h.peer_lt x hx)).symm.trans hxid⟩

/-- A peer is removed from its room. -/
theorem leave (h : Consistent d sessions) (hsession : session ∈ sessions)
    (message : Object MessageDto) :
    Consistent ((d.removePeer (d.peerRoom session.peer)
      (d.peerId session.peer)).createShared.addHistoryMessage config (d.peerRoom session.peer)
        message) (sessions.erase session) := by
  have hnodup : sessions.Nodup := List.Nodup.of_map _ h.nodup
  have hsub : ∀ x ∈ sessions.erase session, x ∈ sessions := fun x hx => List.mem_of_mem_erase hx
  have hmember : ∀ ρ id, (d.removePeer (d.peerRoom session.peer) (d.peerId session.peer)).member
      ρ id = if ρ = d.peerRoom session.peer ∧ id = d.peerId session.peer then none
        else d.member ρ id := by
    intro ρ id
    rw [Directory.removePeer_member]
    rcases eq_or_ne ρ (d.peerRoom session.peer) with rfl | hne
    · simp
    · simp [hne]
  refine ⟨fun x hx => h.peer_lt x (hsub x hx), ?_, h.peerId_lt, h.peerId_inj, h.lobby,
    fun x hx => h.entered x (hsub x hx), ?_⟩
  · exact h.nodup.sublist (List.erase_sublist.map _)
  · intro ρ id p
    show (d.removePeer (d.peerRoom session.peer) (d.peerId session.peer)).member ρ id = some p ↔ _
    rw [hmember]
    split
    · next heq =>
      obtain ⟨rfl, rfl⟩ := heq
      constructor
      · intro hp
        cases hp
      · rintro ⟨x, hx, rfl, -, hxid⟩
        -- a peer with the leaver's id is the leaver
        have hpeer : x.peer = session.peer := h.peerId_inj _ (h.peer_lt x (hsub x hx)) _
          (h.peer_lt session hsession) hxid
        have heq : x = session :=
          List.inj_on_of_nodup_map h.nodup (hsub x hx) hsession hpeer
        exact absurd heq (hnodup.mem_erase_iff.mp hx).1
    · next hne =>
      rw [h.member]
      constructor
      · rintro ⟨x, hx, rfl, rfl, rfl⟩
        refine ⟨x, hnodup.mem_erase_iff.mpr ⟨?_, hx⟩, rfl, rfl, rfl⟩
        rintro rfl
        exact hne ⟨rfl, rfl⟩
      · rintro ⟨x, hx, hrest⟩
        exact ⟨x, hsub x hx, hrest⟩

/-- A room without members is taken off the books. -/
theorem deleteRoom (h : Consistent d sessions) {name : String}
    (hname : ∀ x ∈ sessions, x.roomName ≠ name) : Consistent (d.deleteRoom name) sessions := by
  refine { h with lobby := ?_, entered := ?_ }
  · intro name' ρ hρ
    rw [Directory.deleteRoom_lobby] at hρ
    split at hρ
    · cases hρ
    · exact h.lobby name' ρ hρ
  · intro x hx
    rw [Directory.deleteRoom_lobby, if_neg (hname x hx)]
    exact h.entered x hx

end Consistent

/-! ### What the events do to the directory -/

section Events

variable (config : ConfigDto) (k : SocketRef) (roomName nickname : String) (p : PeerRef)
  (s : Server)

/-- The directory once the room of the name is there. -/
def opened : Directory :=
  match Lobby.getRoom roomName s with
  | some _ => s.directory
  | none => s.directory.createRoom roomName

/-- The room that `getOrCreateRoom` gives. -/
def openedRoom : RoomRef := (Lobby.getRoom roomName s).getD s.roomCount

theorem opened_lobby : (opened roomName s).lobby roomName = some (openedRoom roomName s) := by
  unfold opened openedRoom
  split
  · next ρ hρ =>
    rw [hρ]
    exact hρ
  · next hnone =>
    rw [hnone, Directory.createRoom_lobby, if_pos rfl]
    rfl

/-- `getOrCreateRoom`, as the directory sees it. -/
theorem getOrCreateRoom_eq : (Lobby.getOrCreateRoom roomName s).1 = openedRoom roomName s ∧
    (Lobby.getOrCreateRoom roomName s).2.directory = opened roomName s ∧
    (Lobby.getOrCreateRoom roomName s).2.peerCount = s.peerCount ∧
    (Lobby.getOrCreateRoom roomName s).2.objectCount = s.objectCount := by
  refine ⟨?_, directory_getOrCreateRoom s roomName, ?_⟩
  · unfold openedRoom Lobby.getOrCreateRoom Lobby.getRoom
    rcases s.lobbyRooms.lookup roomName with - | ρ <;> rfl
  · obtain ⟨_, _, _, _, hframe⟩ := Lobby.getOrCreateRoom_frame roomName s
    rw [hframe]
    exact ⟨rfl, rfl⟩

theorem opened_peerCount : (opened roomName s).peerCount = s.peerCount := by
  unfold opened
  split <;> rfl

/-- The whole handler of an opening socket, as the directory sees it. -/
theorem directory_onAfterCreate :
    (Lobby.onAfterCreateNonBlocking config k roomName nickname s).1 = s.peerCount ∧
    (Lobby.onAfterCreateNonBlocking config k roomName nickname s).2.directory =
      ((((opened roomName s).createPeer (openedRoom roomName s)).createShared.addHistoryMessage
        config (openedRoom roomName s) ⟨s.objectCount, Room.joinedMessage s.peerCount
          (Lobby.onAfterCreateNonBlocking config k roomName nickname s).2⟩).addPeer
            (openedRoom roomName s) s.peerCount).createShared := by
  obtain ⟨hroom, hopened, hpeerCount, hobjectCount⟩ :=
    getOrCreateRoom_eq roomName (Lobby.countConnected s)
  let room := (Lobby.getOrCreateRoom roomName (Lobby.countConnected s)).1
  let created := Lobby.createPeer k room nickname
    (Lobby.getOrCreateRoom roomName (Lobby.countConnected s)).2
  have hroom : room = openedRoom roomName s := hroom
  have hpeer : created.1 = s.peerCount := hpeerCount
  have hevent : Lobby.onAfterCreateNonBlocking config k roomName nickname s =
      (created.1, Room.onboardPeer config room created.1 (Room.addPeer room created.1
        (Room.welcomePeer config room created.1 created.2))) := rfl
  -- the peer's id and name stay as they were when it was announced
  have hjoined : Room.joinedMessage created.1 (Room.onboardPeer config room created.1
      (Room.addPeer room created.1 (Room.welcomePeer config room created.1 created.2))) =
        Room.joinedMessage created.1 created.2 := by
    unfold Room.joinedMessage
    simp [Room.addPeer]
  rw [hevent]
  refine ⟨hpeer, ?_⟩
  dsimp only
  rw [← hpeer, hjoined, directory_onboardPeer, directory_addPeer, directory_welcomePeer]
  have hcreated : created.2.directory = (opened roomName s).createPeer (openedRoom roomName s) := by
    rw [directory_createPeer, hopened]
    exact congrArg (fun ρ => (opened roomName s).createPeer ρ) hroom
  have hobject : created.2.objectCount = s.objectCount := hobjectCount
  rw [hcreated, hobject, hroom]

/-- The directory when the leaver is gone from its room, whether or not the
room is deleted then. -/
def vacated : Directory :=
  ((s.directory.removePeer (s.peers p).room (s.peers p).peerId).createShared.addHistoryMessage
    config (s.peers p).room ⟨s.objectCount, Room.leftMessage p s⟩)

theorem directory_onBeforeDestroy :
    (∀ id, (vacated config p s).member (s.peers p).room id = none) ∧
        (Lobby.onBeforeDestroyNonBlocking config p s).directory =
          (vacated config p s).deleteRoom (s.directory.roomName (s.peers p).room) ∨
      (∃ id q, (vacated config p s).member (s.peers p).room id = some q) ∧
        (Lobby.onBeforeDestroyNonBlocking config p s).directory = vacated config p s := by
  let room := (s.peers p).room
  let removed := Room.removePeerById room (s.peers p).peerId (Lobby.countDisconnected s)
  let left := Peer.invalidateSocket p (Room.goodbyePeer config room p removed)
  have hevent : Lobby.onBeforeDestroyNonBlocking config p s =
      if Room.isEmpty room left then Lobby.deleteRoom (left.rooms room).name left else left := rfl
  have hremoved : removed.directory = s.directory.removePeer room (s.peers p).peerId :=
    directory_removePeerById _ _ _
  have hpeers : removed.peers = s.peers := Room.removePeerById_peers _ _ _
  -- the notice is made after the removal, which does not touch the peer objects
  have hmessage : Room.leftMessage p removed = Room.leftMessage p s := by
    unfold Room.leftMessage
    rw [hpeers]
  have hobject : removed.objectCount = s.objectCount := congrArg Directory.objectCount hremoved
  have hleft : left.directory = vacated config p s := by
    rw [directory_invalidateSocket, directory_goodbyePeer, hremoved, hmessage, hobject]
    rfl
  -- `isEmpty` is asked when the peer is out of the map
  have hempty : Room.isEmpty room left = true ↔
      ∀ id, (vacated config p s).member room id = none := by
    rw [← hleft]
    exact beq_iff_eq.trans UnorderedMap.size_eq_zero_iff
  have hname : (left.rooms room).name = s.directory.roomName room :=
    congrFun (congrArg Directory.roomName hleft) room
  rw [hevent]
  split
  · next h =>
    rw [directory_deleteRoom, hleft, hname]
    exact .inl ⟨hempty.mp h, rfl⟩
  · next h =>
    refine .inr ⟨?_, hleft⟩
    obtain ⟨id, hid⟩ := not_forall.mp (mt hempty.mpr h)
    exact ⟨id, Option.ne_none_iff_exists'.mp hid⟩

/-! ### What they do to the counters -/

@[simp] theorem statistics_addHistoryMessage (ρ : RoomRef) (message : Object MessageDto) :
    (Room.addHistoryMessage config ρ message s).statistics = s.statistics := by
  unfold Room.addHistoryMessage
  split <;> rfl

@[simp] theorem statistics_broadcast (ρ : RoomRef) (message : Object MessageDto) :
    (Room.sendMessageAsync ρ message s).statistics = s.statistics := by
  obtain ⟨_, h⟩ := Room.sendMessageAsync_frame ρ message s
  rw [h]

@[simp] theorem statistics_sendMessageAsync (message : Object MessageDto) :
    (Peer.sendMessageAsync p message s).statistics = s.statistics := by
  obtain ⟨_, h⟩ := Peer.sendMessageAsync_frame p message s
  rw [h]

@[simp] theorem statistics_removePeerById (ρ : RoomRef) (peerId : Int) :
    (Room.removePeerById ρ peerId s).statistics = s.statistics := by
  obtain ⟨_, _, _, h⟩ := Room.removePeerById_frame ρ peerId s
  rw [h]

/-- The handler counts one connection, and a room if it is new. -/
theorem statistics_onAfterCreate :
    (Lobby.onAfterCreateNonBlocking config k roomName nickname s).2.statistics =
      { s.statistics with
        eventPeerConnected := s.statistics.eventPeerConnected + 1
        eventRoomCreated := match Lobby.getRoom roomName s with
          | some _ => s.statistics.eventRoomCreated
          | none => s.statistics.eventRoomCreated + 1 } := by
  have hopen : (Lobby.getOrCreateRoom roomName (Lobby.countConnected s)).2.statistics =
      { s.statistics with
        eventPeerConnected := s.statistics.eventPeerConnected + 1
        eventRoomCreated := match Lobby.getRoom roomName s with
          | some _ => s.statistics.eventRoomCreated
          | none => s.statistics.eventRoomCreated + 1 } := by
    have hlookup : (Lobby.countConnected s).lobbyRooms = s.lobbyRooms := rfl
    unfold Lobby.getOrCreateRoom Lobby.getRoom
    rw [hlookup]
    rcases s.lobbyRooms.lookup roomName with - | ρ <;> rfl
  unfold Lobby.onAfterCreateNonBlocking Room.onboardPeer Room.addPeer Room.welcomePeer
    Lobby.createPeer Server.createShared
  simp only [statistics_sendMessageAsync, Server.modifyRoom_statistics, statistics_broadcast,
    statistics_addHistoryMessage, hopen]

/-- The handler counts one disconnection. -/
theorem statistics_onBeforeDestroy :
    (Lobby.onBeforeDestroyNonBlocking config p s).statistics = { s.statistics with
      eventPeerDisconnected := s.statistics.eventPeerDisconnected + 1 } := by
  have hleft : ∀ ρ, (Peer.invalidateSocket p (Room.goodbyePeer config ρ p (Room.removePeerById ρ
      (s.peers p).peerId (Lobby.countDisconnected s)))).statistics = { s.statistics with
        eventPeerDisconnected := s.statistics.eventPeerDisconnected + 1 } := by
    intro ρ
    unfold Peer.invalidateSocket Room.goodbyePeer Server.createShared
    simp only [Server.modifyPeer_statistics, statistics_broadcast, statistics_addHistoryMessage,
      statistics_removePeerById]
    rfl
  unfold Lobby.onBeforeDestroyNonBlocking
  dsimp only
  split
  · exact hleft _
  · exact hleft _

/-- A ping round counts the peers it drops, and nothing else. -/
theorem statistics_pingRound : ∃ n, (Lobby.pingRound s).statistics =
    { s.statistics with eventPeerZombieDropped := n } := by
  have hpeer : ∀ (s : Server) p, ∃ n, (Room.pingPeer s p).statistics =
      { s.statistics with eventPeerZombieDropped := n } := by
    intro s p
    unfold Room.pingPeer
    dsimp only
    split
    · exact ⟨s.statistics.eventPeerZombieDropped, rfl⟩
    · exact ⟨s.statistics.eventPeerZombieDropped + 1, rfl⟩
  have hpeers : ∀ (ps : List PeerRef) (s : Server), ∃ n, (ps.foldl Room.pingPeer s).statistics =
      { s.statistics with eventPeerZombieDropped := n } := by
    intro ps
    induction ps with
    | nil => exact fun s => ⟨s.statistics.eventPeerZombieDropped, rfl⟩
    | cons p ps ih =>
        intro s
        obtain ⟨_, hp⟩ := hpeer s p
        obtain ⟨n, hps⟩ := ih (Room.pingPeer s p)
        rw [hp] at hps
        exact ⟨n, hps⟩
  unfold Lobby.pingRound
  generalize s.lobbyRooms.values = ρs
  induction ρs generalizing s with
  | nil => exact ⟨s.statistics.eventPeerZombieDropped, rfl⟩
  | cons ρ ρs ih =>
      obtain ⟨_, hρ⟩ := hpeers (Room.members ρ s) s
      obtain ⟨n, hρs⟩ := ih (Room.pingAllPeers ρ s)
      unfold Room.pingAllPeers at hρs
      rw [hρ] at hρs
      exact ⟨n, hρs⟩

/-- Rounds leave the directory. -/
theorem directory_pingRound : (Lobby.pingRound s).directory = s.directory := by
  unfold Lobby.pingRound
  generalize s.lobbyRooms.values = ρs
  induction ρs generalizing s with
  | nil => rfl
  | cons ρ ρs ih => exact (ih _).trans (directory_pingAllPeers s ρ)

end Events

/-! ### The invariant -/

/-- One more message is announced under a name. -/
theorem Remembers.record {config : ConfigDto} {d : Directory}
    {life : String → List (Object MessageDto)} {name : String} {ρ : RoomRef}
    {old : List (Object MessageDto)}
    (hlobby : ∀ name ρ, d.lobby name = some ρ → d.roomName ρ = name)
    (hname : d.lobby name = some ρ)
    (hold : d.history ρ = (old.take (config.maxRoomHistoryMessages.getD 0)).reverse)
    (hother : ∀ name' ρ', name' ≠ name → d.lobby name' = some ρ' →
      d.history ρ' = ((life name').take (config.maxRoomHistoryMessages.getD 0)).reverse)
    (message : Object MessageDto) :
    Remembers config (d.addHistoryMessage config ρ message)
      (Function.update life name (message :: old)) := by
  intro name' ρ' hρ'
  have hρ' : d.lobby name' = some ρ' := hρ'
  rw [Directory.addHistoryMessage_history]
  rcases eq_or_ne name' name with rfl | hne
  · obtain rfl : ρ = ρ' := Option.some.inj (hname.symm.trans hρ')
    rw [Function.update_self, hold]
    split
    · next hdisabled =>
      have hbound : config.maxRoomHistoryMessages.getD 0 = 0 := by
        simpa [Room.historyDisabled] using hdisabled
      rw [hold, hbound, List.take_zero, List.take_zero]
    · next hdisabled =>
      have hbound : config.maxRoomHistoryMessages.getD 0 ≠ 0 := by
        simpa [Room.historyDisabled] using hdisabled
      rw [Function.update_self]
      exact Room.popFront_take_reverse _ hbound _ _
  · have hρne : ρ' ≠ ρ := by
      rintro rfl
      exact hne ((hlobby _ _ hρ').symm.trans (hlobby _ _ hname))
    rw [Function.update_of_ne hne]
    split
    · exact hother name' ρ' hne hρ'
    · rw [Function.update_of_ne hρne]
      exact hother name' ρ' hne hρ'

/-- The server agrees with the books: directory, histories and counters. -/
structure Kept (config : ConfigDto) (s : State) : Prop where
  consistent : Consistent s.server.directory s.sessions
  occupied : Occupied s.server.directory s.sessions
  remembers : Remembers config s.server.directory s.life
  connected : s.server.statistics.eventPeerConnected =
    s.server.statistics.eventPeerDisconnected + s.sessions.length
  created : s.server.statistics.eventRoomCreated = s.revivals

namespace Kept

variable {config : ConfigDto} {s : State}

/-- A name is registered while it has a session. -/
theorem registered (h : Kept config s) (name : String) :
    (∃ ρ, Lobby.getRoom name s.server = some ρ) ↔
      ∃ session ∈ s.sessions, session.roomName = name := by
  constructor
  · rintro ⟨ρ, hρ⟩
    exact h.occupied name ρ hρ
  · rintro ⟨session, hsession, rfl⟩
    exact ⟨_, h.consistent.entered session hsession⟩

theorem isEntered_iff (h : Kept config s) (name : String) :
    s.isEntered name = true ↔ ∃ ρ, Lobby.getRoom name s.server = some ρ := by
  rw [h.registered]
  simp [State.isEntered]

theorem onAfterCreate (h : Kept config s) (k : SocketRef) (roomName nickname : String) :
    Kept config (s.onAfterCreate config k roomName nickname) := by
  obtain ⟨hpeer, hdirectory⟩ := directory_onAfterCreate config k roomName nickname s.server
  have hstatistics := statistics_onAfterCreate config k roomName nickname s.server
  have hname := opened_lobby roomName s.server
  have hopened : Consistent (opened roomName s.server) s.sessions := by
    unfold opened
    split
    · exact h.consistent
    · next hnone => exact h.consistent.createRoom hnone
  have hlobby : ∀ name ρ, name ≠ roomName → (opened roomName s.server).lobby name = some ρ →
      s.server.directory.lobby name = some ρ ∧
        (opened roomName s.server).history ρ = s.server.directory.history ρ := by
    intro name ρ hne hρ
    unfold opened at hρ ⊢
    split at hρ
    · exact ⟨hρ, rfl⟩
    · rw [Directory.createRoom_lobby, if_neg hne] at hρ
      refine ⟨hρ, ?_⟩
      rw [Directory.createRoom_history, Function.update_of_ne (h.consistent.lobby _ _ hρ).1.ne]
  constructor
  case consistent =>
    show Consistent (Lobby.onAfterCreateNonBlocking config k roomName nickname s.server).2.directory
      (⟨k, roomName, (Lobby.onAfterCreateNonBlocking config k roomName nickname s.server).1⟩ ::
        s.sessions)
    rw [hdirectory, hpeer, ← opened_peerCount roomName s.server]
    exact hopened.join hname k _
  case occupied =>
    intro name ρ hρ
    rcases eq_or_ne name roomName with rfl | hne
    · exact ⟨_, List.mem_cons_self, rfl⟩
    · have hρ : (Lobby.onAfterCreateNonBlocking config k roomName nickname
        s.server).2.directory.lobby
          name = some ρ := hρ
      rw [hdirectory] at hρ
      obtain ⟨session, hsession, heq⟩ := h.occupied name ρ (hlobby name ρ hne hρ).1
      exact ⟨session, List.mem_cons_of_mem _ hsession, heq⟩
  case remembers =>
    have hold : (opened roomName s.server).history (openedRoom roomName s.server) =
        ((if s.isEntered roomName then s.life roomName else []).take
          (config.maxRoomHistoryMessages.getD 0)).reverse := by
      rcases hroom : Lobby.getRoom roomName s.server with - | ρ
      · -- nobody was there: the room is new
        have hentered : ¬ s.isEntered roomName = true := by
          rw [h.isEntered_iff, hroom]
          simp
        have hopened : opened roomName s.server = s.server.directory.createRoom roomName := by
          rw [opened, hroom]
        have hnew : openedRoom roomName s.server = s.server.directory.roomCount := by
          rw [openedRoom, hroom]
          rfl
        rw [if_neg hentered, hopened, hnew, Directory.createRoom_history, Function.update_self,
          List.take_nil, List.reverse_nil]
      · have hentered : s.isEntered roomName = true := (h.isEntered_iff roomName).mpr ⟨ρ, hroom⟩
        rw [if_pos hentered]
        simp only [opened, openedRoom, hroom]
        exact h.remembers roomName ρ hroom
    show Remembers config
      (Lobby.onAfterCreateNonBlocking config k roomName nickname s.server).2.directory _
    rw [hdirectory, ← hpeer]
    exact Remembers.record (fun name ρ hρ => (hopened.lobby name ρ hρ).2) hname hold
      (fun name ρ hne hρ => (hlobby name ρ hne hρ).2.trans
        (h.remembers name ρ (hlobby name ρ hne hρ).1)) _
  case connected =>
    show (Lobby.onAfterCreateNonBlocking config k roomName nickname
      s.server).2.statistics.eventPeerConnected = (Lobby.onAfterCreateNonBlocking config k roomName
        nickname s.server).2.statistics.eventPeerDisconnected + (s.sessions.length + 1)
    rw [hstatistics]
    show s.server.statistics.eventPeerConnected + 1 =
      s.server.statistics.eventPeerDisconnected + (s.sessions.length + 1)
    rw [h.connected]
    rfl
  case created =>
    show (Lobby.onAfterCreateNonBlocking config k roomName nickname
      s.server).2.statistics.eventRoomCreated = if s.isEntered roomName then s.revivals
        else s.revivals + 1
    rw [hstatistics]
    dsimp only
    rcases hroom : Lobby.getRoom roomName s.server with - | ρ
    · have hentered : ¬ s.isEntered roomName = true := by
        rw [h.isEntered_iff, hroom]
        simp
      rw [if_neg hentered, h.created]
    · rw [if_pos ((h.isEntered_iff roomName).mpr ⟨ρ, hroom⟩), h.created]

theorem onBeforeDestroy (h : Kept config s) {session : Session} (hsession : session ∈ s.sessions) :
    Kept config (s.onBeforeDestroy config session) := by
  let p := session.peer
  let room := (s.server.peers p).room
  have hstatistics := statistics_onBeforeDestroy config p s.server
  have hroom : s.server.directory.lobby session.roomName = some room :=
    h.consistent.entered session hsession
  have hname : s.server.directory.roomName room = session.roomName :=
    (h.consistent.lobby _ _ hroom).2
  have hvacated : Consistent (vacated config p s.server) (s.sessions.erase session) :=
    h.consistent.leave hsession _
  have hremembers : Remembers config (vacated config p s.server)
      (s.onBeforeDestroy config session).life :=
    Remembers.record (fun name ρ hρ => (h.consistent.lobby name ρ hρ).2) hroom
      (h.remembers _ _ hroom) (fun name ρ _ hρ => h.remembers name ρ hρ) _
  -- whoever is still joined under the name is a member of the room
  have hstay : ∀ x ∈ s.sessions.erase session, x.roomName = session.roomName →
      (vacated config p s.server).member room ((vacated config p s.server).peerId x.peer) =
        some x.peer := by
    intro x hx hxname
    have hxroom := h.consistent.entered x (List.mem_of_mem_erase hx)
    rw [hxname] at hxroom
    exact (hvacated.member _ _ _).mpr
      ⟨x, hx, rfl, (Option.some.inj (hroom.symm.trans hxroom)).symm, rfl⟩
  have hoccupied : ∀ name ρ, name ≠ session.roomName → s.server.directory.lobby name = some ρ →
      ∃ x ∈ s.sessions.erase session, x.roomName = name := by
    intro name ρ hne hρ
    obtain ⟨x, hx, rfl⟩ := h.occupied name ρ hρ
    refine ⟨x, (List.mem_erase_of_ne ?_).mpr hx, rfl⟩
    rintro rfl
    exact hne rfl
  have hconnected : (s.onBeforeDestroy config session).server.statistics.eventPeerConnected =
      (s.onBeforeDestroy config session).server.statistics.eventPeerDisconnected +
        (s.sessions.erase session).length := by
    show (Lobby.onBeforeDestroyNonBlocking config p s.server).statistics.eventPeerConnected =
      (Lobby.onBeforeDestroyNonBlocking config p s.server).statistics.eventPeerDisconnected + _
    have hlength := List.length_erase_add_one hsession
    have hcount := h.connected
    rw [hstatistics]
    dsimp only
    omega
  have hcreated : (s.onBeforeDestroy config session).server.statistics.eventRoomCreated =
      s.revivals := by
    show (Lobby.onBeforeDestroyNonBlocking config p s.server).statistics.eventRoomCreated = _
    rw [hstatistics]
    exact h.created
  rcases directory_onBeforeDestroy config p s.server with
    ⟨hempty, hdirectory⟩ | ⟨⟨id, q, hmember⟩, hdirectory⟩
  · rw [show s.server.directory.roomName (s.server.peers p).room = session.roomName from hname]
      at hdirectory
    have hnone : ∀ x ∈ s.sessions.erase session, x.roomName ≠ session.roomName := by
      intro x hx hxname
      have hsome := hstay x hx hxname
      rw [hempty] at hsome
      cases hsome
    refine ⟨?_, ?_, ?_, hconnected, hcreated⟩
    · show Consistent (Lobby.onBeforeDestroyNonBlocking config p s.server).directory _
      rw [hdirectory]
      exact hvacated.deleteRoom hnone
    · intro name ρ hρ
      have hρ : (Lobby.onBeforeDestroyNonBlocking config p s.server).directory.lobby name =
        some ρ := hρ
      rw [hdirectory, Directory.deleteRoom_lobby] at hρ
      split at hρ
      · cases hρ
      · next hne => exact hoccupied name ρ hne hρ
    · intro name ρ hρ
      have hρ : (Lobby.onBeforeDestroyNonBlocking config p s.server).directory.lobby name =
        some ρ := hρ
      show (Lobby.onBeforeDestroyNonBlocking config p s.server).directory.history ρ = _
      rw [hdirectory, Directory.deleteRoom_lobby] at hρ
      rw [hdirectory]
      split at hρ
      · cases hρ
      · exact hremembers name ρ hρ
  · refine ⟨?_, ?_, ?_, hconnected, hcreated⟩
    · show Consistent (Lobby.onBeforeDestroyNonBlocking config p s.server).directory _
      rw [hdirectory]
      exact hvacated
    · intro name ρ hρ
      have hρ : (Lobby.onBeforeDestroyNonBlocking config p s.server).directory.lobby name =
        some ρ := hρ
      rw [hdirectory] at hρ
      rcases eq_or_ne name session.roomName with rfl | hne
      · obtain ⟨x, hx, rfl, hxroom, -⟩ := (hvacated.member _ _ _).mp hmember
        have hxname := h.consistent.entered x (List.mem_of_mem_erase hx)
        rw [show s.server.directory.peerRoom x.peer = room from hxroom] at hxname
        exact ⟨x, hx, h.consistent.name_inj hxname hroom⟩
      · exact hoccupied name ρ hne hρ
    · show Remembers config (Lobby.onBeforeDestroyNonBlocking config p s.server).directory _
      rw [hdirectory]
      exact hremembers

theorem pingRound (h : Kept config s) :
    Kept config { s with server := Lobby.pingRound s.server } := by
  have hdirectory := directory_pingRound s.server
  obtain ⟨_, hstatistics⟩ := statistics_pingRound s.server
  refine ⟨?_, ?_, ?_, ?_, ?_⟩ <;> dsimp only
  · rw [hdirectory]
    exact h.consistent
  · rw [hdirectory]
    exact h.occupied
  · rw [hdirectory]
    exact h.remembers
  · rw [hstatistics]
    exact h.connected
  · rw [hstatistics]
    exact h.created

/-- The members of the registered rooms are the peers of the sessions. -/
theorem members_perm (h : Kept config s) :
    (s.server.lobbyRooms.values.flatMap fun ρ => Room.members ρ s.server).Perm
      (s.sessions.map Session.peer) := by
  -- the members of a room are the peers of the sessions in it
  have hmem : ∀ ρ p, p ∈ Room.members ρ s.server ↔
      ∃ session ∈ s.sessions, session.peer = p ∧ (s.server.peers p).room = ρ := by
    intro ρ p
    constructor
    · intro hp
      obtain ⟨id, hid⟩ := UnorderedMap.mem_values.mp hp
      obtain ⟨session, hsession, hpeer, hroom, -⟩ := (h.consistent.member ρ id p).mp hid
      exact ⟨session, hsession, hpeer, hroom⟩
    · rintro ⟨session, hsession, hpeer, hroom⟩
      exact UnorderedMap.mem_values.mpr
        ⟨_, (h.consistent.member ρ _ p).mpr ⟨session, hsession, hpeer, hroom, rfl⟩⟩
  have hmembers : ∀ ρ, (Room.members ρ s.server).Nodup := by
    intro ρ
    refine UnorderedMap.nodup_values fun id id' p hid hid' => ?_
    obtain ⟨-, -, -, -, rfl⟩ := (h.consistent.member ρ id p).mp hid
    obtain ⟨-, -, -, -, rfl⟩ := (h.consistent.member ρ id' p).mp hid'
    rfl
  have hrooms : s.server.lobbyRooms.values.Nodup :=
    UnorderedMap.nodup_values fun _ _ _ hname hname' => h.consistent.name_inj hname hname'
  -- a peer is in the one room that it was created for
  have hdisjoint : ∀ ρ ∈ s.server.lobbyRooms.values, ∀ ρ' ∈ s.server.lobbyRooms.values, ρ ≠ ρ' →
      List.Disjoint (Room.members ρ s.server) (Room.members ρ' s.server) := by
    intro ρ _ ρ' _ hne p hp hp'
    obtain ⟨-, -, -, hroom⟩ := (hmem ρ p).mp hp
    obtain ⟨-, -, -, hroom'⟩ := (hmem ρ' p).mp hp'
    exact hne (hroom.symm.trans hroom')
  have hnodup : (s.server.lobbyRooms.values.flatMap fun ρ => Room.members ρ s.server).Nodup :=
    List.nodup_flatMap.mpr
      ⟨fun ρ _ => hmembers ρ, hrooms.pairwise_of_forall_ne hdisjoint⟩
  -- both lists are free of duplicates, so it is enough that their elements agree
  refine (List.perm_ext_iff_of_nodup hnodup h.consistent.nodup).mpr fun p => ?_
  rw [List.mem_flatMap, List.mem_map]
  constructor
  · rintro ⟨ρ, -, hp⟩
    obtain ⟨session, hsession, hpeer, -⟩ := (hmem ρ p).mp hp
    exact ⟨session, hsession, hpeer⟩
  · rintro ⟨session, hsession, rfl⟩
    exact ⟨_, UnorderedMap.mem_values.mpr ⟨_, h.consistent.entered session hsession⟩,
      (hmem _ _).mpr ⟨session, hsession, rfl, rfl⟩⟩

/-- The registered rooms have one member for each session. -/
theorem memberTotal (h : Kept config s) : s.memberTotal = s.sessions.length := by
  rw [State.memberTotal, ← List.length_flatMap, h.members_perm.length_eq, List.length_map]

theorem balanced (h : Kept config s) : Balanced config s := by
  have hid : ∀ x ∈ s.sessions, ∀ y ∈ s.sessions,
      (s.server.peers x.peer).peerId = (s.server.peers y.peer).peerId → x.peer = y.peer :=
    fun x hx y hy => h.consistent.peerId_inj _ (h.consistent.peer_lt x hx) _
      (h.consistent.peer_lt y hy)
  constructor
  case registered => exact h.registered
  case room =>
    intro name ρ hρ session hsession
    have hentered := h.consistent.entered session hsession
    constructor
    · rintro rfl
      exact h.consistent.name_inj hentered hρ
    · rintro rfl
      exact Option.some.inj (hentered.symm.trans hρ)
  case members =>
    intro name ρ hρ id p
    refine (h.consistent.member ρ id p).trans (exists_congr fun session => ?_)
    refine and_congr_right fun hsession => ?_
    have hentered := h.consistent.entered session hsession
    constructor
    · rintro ⟨rfl, rfl, hpid⟩
      exact ⟨h.consistent.name_inj hentered hρ, rfl, hpid⟩
    · rintro ⟨rfl, rfl, hpid⟩
      exact ⟨rfl, Option.some.inj (hentered.symm.trans hρ), hpid⟩
  case ids =>
    have hnodup : s.sessions.Nodup := List.Nodup.of_map _ h.consistent.nodup
    refine (List.nodup_map_iff_inj_on hnodup).mpr fun x hx y hy heq => ?_
    exact List.inj_on_of_nodup_map h.consistent.nodup hx hy (hid x hx y hy heq)
  case connected =>
    rw [h.memberTotal]
    exact h.connected
  case created => exact h.created
  case history => exact h.remembers

end Kept

theorem kept {config : ConfigDto} {s : State} (hs : (system config).Reachable s) :
    Kept config s := by
  refine hs.invariant (I := Kept config) ?_ ?_
  · rintro _ ⟨clock, rfl⟩
    -- at the start there is no room, no member and no session
    have hlobby : ∀ name ρ, Lobby.getRoom name { clock } ≠ some ρ := by
      intro name ρ hρ
      rw [Lobby.getRoom, UnorderedMap.lookup_empty] at hρ
      cases hρ
    have hmember : ∀ ρ id p, Room.getPeerById ρ id { clock } ≠ some p := by
      intro ρ id p hp
      have hempty : Room.getPeerById ρ id { clock } = none := UnorderedMap.lookup_empty id
      rw [hempty] at hp
      cases hp
    refine ⟨⟨by simp, List.nodup_nil, ?_, ?_, ?_, by simp, ?_⟩, ?_, ?_, rfl, rfl⟩
    · exact fun p hp => absurd hp (Nat.not_lt_zero p)
    · exact fun p hp => absurd hp (Nat.not_lt_zero p)
    · exact fun name ρ hρ => absurd hρ (hlobby name ρ)
    · intro ρ id p
      constructor
      · exact fun hp => absurd hp (hmember ρ id p)
      · rintro ⟨session, hsession, -⟩
        cases hsession
    · exact fun name ρ hρ => absurd hρ (hlobby name ρ)
    · exact fun name ρ hρ => absurd hρ (hlobby name ρ)
  · intro s a t h hstep
    -- one lemma for each of the three events
    cases a with
    | onAfterCreate k roomName nickname =>
        simp only [system, State.step] at hstep
        split at hstep
        · obtain rfl := Option.some.inj hstep
          exact h.onAfterCreate k roomName nickname
        · cases hstep
    | onBeforeDestroy k =>
        simp only [system, State.step] at hstep
        split at hstep
        · cases hstep
        · next session hfind =>
          obtain rfl := Option.some.inj hstep
          exact h.onBeforeDestroy (List.mem_of_find?_eq_some hfind)
    | pingRound =>
        obtain rfl := Option.some.inj hstep
        exact h.pingRound

/-- **The lobby's books balance**, whatever joins, leaves and ping rounds came
one after the other. -/
theorem books_balance {config : ConfigDto} {s : State} (hs : (system config).Reachable s) :
    Balanced config s :=
  (kept hs).balanced

/-- Ann joins a room, loses her connection and leaves; Bob joins it. -/
theorem books_balance_revived : ∃ s, (system {}).run {} [.onAfterCreate 0 "lounge" "Ann",
    .pingRound, .pingRound, .onBeforeDestroy 0, .onAfterCreate 1 "lounge" "Bob"] = some s ∧
      s.revivals = 2 ∧ (s.life "lounge").length = 1 ∧ Balanced {} s := by
  obtain ⟨s, hrun, hrevivals, hlife⟩ : ∃ s, (system {}).run {} [.onAfterCreate 0 "lounge" "Ann",
      .pingRound, .pingRound, .onBeforeDestroy 0, .onAfterCreate 1 "lounge" "Bob"] = some s ∧
        s.revivals = 2 ∧ (s.life "lounge").length = 1 := ⟨_, rfl, rfl, rfl⟩
  exact ⟨s, hrun, hrevivals, hlife, books_balance (.run (.init ⟨_, rfl⟩) hrun)⟩

end Bookkeeping

end CanChat
