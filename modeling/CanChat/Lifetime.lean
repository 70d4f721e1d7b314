/-
CanChat/Lifetime.lean

When the server's objects are deleted.

Design.  The server of this development forgets nothing it has created;
`State.live` are the objects that have not been deleted.  Handlers are not
interleaved: when one returns, its own pointers are gone, and `collect` deletes
what nothing points to any more.  The destructor of a room counts.

The pointers are the `shared_ptr` members of the lobby, the rooms, the peers,
the files and the subscribers.  A socket belongs to the framework: it points to
its listener, and the framework points to it until some time after
`onBeforeDestroy_NonBlocking`.  A subscriber is held by its HTTP response.  A
handler that fails keeps the changes made so far; the peer's `leave` is a step
of its own.
-/
import CanChat.Ledger
import CanChat.RefCount
import CanChat.Transition

namespace CanChat

namespace Lifetime

/-! ### Objects and pointers -/

inductive Node
  | room (ρ : RoomRef)
  | peer (p : PeerRef)
  | file (f : FileRef)
  | subscriber (σ : SubscriberRef)
  | socket (k : SocketRef)
  deriving DecidableEq, Repr

def Node.isRoom : Node → Bool
  | .room _ => true
  | _ => false

structure State where
  server : Server := {}
  /-- `AsyncWebSocket::m_listener`. -/
  listener : SocketRef → Option PeerRef := fun _ => none
  socketCount : ℕ := 0
  connected : List SocketRef := []
  /-- The sockets that have been closed and not yet dropped. -/
  closing : List SocketRef := []
  live : List Node := []

namespace State

def heap (s : State) : RefCount.Heap Node where
  roots := s.server.lobbyRooms.values.map .room ++ (s.connected ++ s.closing).map .socket ++
    ((List.range s.server.subscriberCount).filter fun σ =>
      (s.server.subscribers σ).isSome).map .subscriber
  fields
    | .room ρ => (s.server.rooms ρ).peerById.values.map .peer ++
        (s.server.rooms ρ).fileById.values.map .file
    | .peer p => .room (s.server.peers p).room ::
        ((s.server.peers p).socket.toList.map .socket ++ (s.server.peers p).files.map .file)
    | .file f => [.peer (s.server.files f).host]
    | .subscriber σ => (s.server.subscribers σ).toList.map fun subscriber => .file subscriber.file
    | .socket k => (s.listener k).toList.map .peer
  live := s.live

/-- What has been created between `s` and `t`. -/
def created (s t : State) : List Node :=
  let new (start stop : ℕ) := List.range' start (stop - start)
  (new s.server.roomCount t.server.roomCount).map .room ++
    (new s.server.peerCount t.server.peerCount).map .peer ++
    (new s.server.fileCount t.server.fileCount).map .file ++
    (new s.server.subscriberCount t.server.subscriberCount).map .subscriber ++
    (new s.socketCount t.socketCount).map .socket

/-- What nothing points to is deleted; `~Room` counts. -/
def collect (s : State) : State :=
  let heap := s.heap.release
  let deleted := s.live.countP Node.isRoom - heap.live.countP Node.isRoom
  { s with
    server := s.server.modifyStatistics fun st =>
      { st with eventRoomDeleted := st.eventRoomDeleted + deleted }
    live := heap.live }

end State

/-! ### The system -/

inductive Act
  | join (roomName nickname : String)
  | readMessage (k : SocketRef) (message : MessageDto)
  | pingAllPeers (ρ : RoomRef)
  | onPong (k : SocketRef)
  /-- `onBeforeDestroy_NonBlocking` -/
  | leave (k : SocketRef)
  /-- the framework drops its pointer to the socket -/
  | dropSocket (k : SocketRef)
  /-- `FileController::GetFile` -/
  | getFile (roomId : String) (fileId : Int)
  | read (σ : SubscriberRef) (count : Int)
  /-- the response is dropped, and the subscriber with it -/
  | drop (σ : SubscriberRef)

namespace State

/-- The listener of a connected socket. -/
def peerOf (s : State) (k : SocketRef) : Option PeerRef :=
  if k ∈ s.connected then s.listener k else none

def handle (fw : Framework) (config : ConfigDto) (s : State) : Act → Option State
  | .join roomName nickname =>
      let k := s.socketCount
      let (p, server) := Lobby.onAfterCreateNonBlocking config k roomName nickname s.server
      some { s with
        server := server
        listener := Function.update s.listener k (some p)
        socketCount := s.socketCount + 1
        connected := s.connected ++ [k] }
  | .readMessage k message => do
      let p ← s.peerOf k
      some { s with server := ((Peer.readParsed fw config p message).exec s.server).2 }
  | .pingAllPeers ρ => some { s with server := Room.pingAllPeers ρ s.server }
  | .onPong k => do
      let p ← s.peerOf k
      some { s with server := Peer.onPong p s.server }
  | .leave k => do
      let p ← s.peerOf k
      some { s with
        server := Lobby.onBeforeDestroyNonBlocking config p s.server
        connected := s.connected.filter (· ≠ k)
        closing := s.closing ++ [k] }
  | .dropSocket k => some { s with closing := s.closing.filter (· ≠ k) }
  | .getFile roomId fileId => do
      let ρ ← Lobby.getRoom roomId s.server
      let f ← Room.getFileById ρ fileId s.server
      some { s with server := (File.subscribe f s.server).2 }
  | .read σ count =>
      if (s.server.subscribers σ).isSome then
        some { s with server := ((Subscriber.read σ count).exec s.server).2 }
      else none
  | .drop σ =>
      if (s.server.subscribers σ).isSome then
        some { s with server := Subscriber.destroy σ s.server }
      else none

/-- What the handler has created lives until `collect` looks at it. -/
def enter (s t : State) : State := { t with live := s.live ++ s.created t }

def step (fw : Framework) (config : ConfigDto) (s : State) (a : Act) : Option State :=
  (s.handle fw config a).map fun t => (s.enter t).collect

/-- Everybody has left, and the framework has dropped all it held. -/
structure Quiescent (s : State) : Prop where
  connected : s.connected = []
  closing : s.closing = []
  subscribers : ∀ σ < s.server.subscriberCount, s.server.subscribers σ = none

/-- Every room, peer and file has been deleted, and the rooms' histories with
them. -/
structure AllDeleted (s : State) : Prop where
  room : ∀ ρ < s.server.roomCount, s.heap.count (.room ρ) = 0
  peer : ∀ p < s.server.peerCount, s.heap.count (.peer p) = 0
  file : ∀ f < s.server.fileCount, s.heap.count (.file f) = 0
  counted : s.server.statistics.eventRoomDeleted = s.server.statistics.eventRoomCreated
  history : ∀ ρ, .room ρ ∈ s.live → (s.server.rooms ρ).history = []

end State

def system (fw : Framework) (config : ConfigDto) : Transition.System State Act where
  init s := ∃ clock, s = { server := { clock } }
  step := State.step fw config

/-- The first entry has the fields without which it cannot be registered. -/
def firstRegistered : List (Option FileDto) → Bool
  | some fileDto :: _ => fileDto.clientFileId.isSome && fileDto.size.isSome
  | _ => false

/-- The message makes the server register a file.  Validation stops nothing:
the entries before the first incomplete one are registered. -/
def sharesFile (message : MessageDto) : Bool :=
  message.code == some .codeFileShare && firstRegistered (message.files.getD [])

def Act.sharesFile : Act → Bool
  | .readMessage _ message => Lifetime.sharesFile message
  | _ => false

/-! ### The pointers, read off the catalogue -/

/-- What the pointers depend on, and the counters. -/
@[ext] structure View where
  catalogue : Catalogue
  ledger : Ledger
  listener : SocketRef → Option PeerRef
  socketCount : ℕ
  connected : List SocketRef
  closing : List SocketRef
  live : List Node

def State.view (s : State) : View where
  catalogue := s.server.catalogue
  ledger := s.server.ledger
  listener := s.listener
  socketCount := s.socketCount
  connected := s.connected
  closing := s.closing
  live := s.live

/-- The pointers from outside. -/
inductive Rooted (v : View) : Node → Prop
  | lobby {name : String} {ρ : RoomRef} (h : v.catalogue.lobby name = some ρ) :
      Rooted v (.room ρ)
  | connected {k : SocketRef} (h : k ∈ v.connected) : Rooted v (.socket k)
  | closing {k : SocketRef} (h : k ∈ v.closing) : Rooted v (.socket k)
  | response {σ : SubscriberRef} {f : FileRef} (hσ : σ < v.ledger.subscriberCount)
      (h : v.ledger.subscriberFile σ = some f) : Rooted v (.subscriber σ)

/-- The pointers of the objects. -/
inductive Owns (v : View) : Node → Node → Prop
  | member {ρ : RoomRef} {id : Int} {p : PeerRef} (h : v.catalogue.member ρ id = some p) :
      Owns v (.room ρ) (.peer p)
  | registered {ρ : RoomRef} {id : Int} {f : FileRef} (h : v.catalogue.fileById ρ id = some f) :
      Owns v (.room ρ) (.file f)
  | room (p : PeerRef) : Owns v (.peer p) (.room (v.catalogue.room p))
  | socket {p : PeerRef} {k : SocketRef} (h : v.catalogue.socket p = some k) :
      Owns v (.peer p) (.socket k)
  | hosted {p : PeerRef} {f : FileRef} (h : f ∈ v.catalogue.hosted p) : Owns v (.peer p) (.file f)
  | host (f : FileRef) : Owns v (.file f) (.peer (v.catalogue.host f))
  | download {σ : SubscriberRef} {f : FileRef} (h : v.ledger.subscriberFile σ = some f) :
      Owns v (.subscriber σ) (.file f)
  | listener {k : SocketRef} {p : PeerRef} (h : v.listener k = some p) :
      Owns v (.socket k) (.peer p)

theorem mem_roots {s : State} {n : Node} : n ∈ s.heap.roots ↔ Rooted s.view n := by
  simp only [State.heap, List.mem_append, List.mem_map, UnorderedMap.mem_values, List.mem_filter,
    List.mem_range, Option.isSome_iff_exists]
  constructor
  · rintro ((⟨ρ, ⟨name, h⟩, rfl⟩ | ⟨k, h | h, rfl⟩) | ⟨σ, ⟨hσ, subscriber, h⟩, rfl⟩)
    · exact .lobby h
    · exact .connected h
    · exact .closing h
    · exact .response hσ (congrArg (Option.map Subscriber.file) h)
  · rintro (h | h | h | ⟨hσ, h⟩)
    · exact .inl (.inl ⟨_, ⟨_, h⟩, rfl⟩)
    · exact .inl (.inr ⟨_, .inl h, rfl⟩)
    · exact .inl (.inr ⟨_, .inr h, rfl⟩)
    · obtain ⟨subscriber, h, -⟩ := Option.map_eq_some_iff.mp h
      exact .inr ⟨_, ⟨hσ, subscriber, h⟩, rfl⟩

theorem mem_fields {s : State} {m n : Node} : n ∈ s.heap.fields m ↔ Owns s.view m n := by
  constructor
  · intro h
    -- from left to right, by the kind of the owner
    cases m with
    | room ρ =>
        rcases List.mem_append.mp h with h | h
        · obtain ⟨p, hp, rfl⟩ := List.mem_map.mp h
          obtain ⟨id, hp⟩ := UnorderedMap.mem_values.mp hp
          exact .member hp
        · obtain ⟨f, hf, rfl⟩ := List.mem_map.mp h
          obtain ⟨id, hf⟩ := UnorderedMap.mem_values.mp hf
          exact .registered hf
    | peer p =>
        rcases List.mem_cons.mp h with rfl | h
        · exact .room p
        rcases List.mem_append.mp h with h | h
        · obtain ⟨k, hk, rfl⟩ := List.mem_map.mp h
          exact .socket (Option.mem_toList.mp hk)
        · obtain ⟨f, hf, rfl⟩ := List.mem_map.mp h
          exact .hosted hf
    | file f =>
        obtain rfl := List.mem_singleton.mp h
        exact .host f
    | subscriber σ =>
        obtain ⟨subscriber, hσ, rfl⟩ := List.mem_map.mp h
        exact .download (congrArg (Option.map Subscriber.file) (Option.mem_toList.mp hσ))
    | socket k =>
        obtain ⟨p, hp, rfl⟩ := List.mem_map.mp h
        exact .listener (Option.mem_toList.mp hp)
  · intro h
    -- from right to left, by the kind of the reference
    cases h with
    | member h =>
        exact List.mem_append_left _ (List.mem_map_of_mem (UnorderedMap.mem_values.mpr ⟨_, h⟩))
    | registered h =>
        exact List.mem_append_right _ (List.mem_map_of_mem (UnorderedMap.mem_values.mpr ⟨_, h⟩))
    | room p => exact List.mem_cons_self
    | socket h =>
        refine List.mem_cons_of_mem _ (List.mem_append_left _ ?_)
        exact List.mem_map_of_mem (Option.mem_toList.mpr h)
    | hosted h => exact List.mem_cons_of_mem _ (List.mem_append_right _ (List.mem_map_of_mem h))
    | host f => exact List.mem_singleton_self _
    | download h =>
        obtain ⟨subscriber, hσ, rfl⟩ := Option.map_eq_some_iff.mp h
        exact List.mem_map.mpr ⟨subscriber, Option.mem_toList.mpr hσ, rfl⟩
    | listener h => exact List.mem_map_of_mem (Option.mem_toList.mpr h)

theorem owned_iff {s : State} {n : Node} :
    s.heap.Owned n ↔ Rooted s.view n ∨ ∃ m ∈ s.live, Owns s.view m n := by
  simp only [RefCount.Heap.Owned, mem_roots, mem_fields]
  rfl

end Lifetime

end CanChat
