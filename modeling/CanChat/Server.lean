/-
CanChat/Server.lean

The objects of the running server and the state that holds them.

Design.  The source's objects point at each other through shared pointers, so
the state is a heap: a total function from references to objects for each
class, with the number of objects allocated so far.  Only references handed
out by an allocation are ever followed, so the value of a heap outside its
allocated part does not matter.  Subscribers are the exception: theirs is the
only destructor that acts on another object, hence the `Option`.

A field keeps the source's name without its `m_`.  `outbox p` is what the
server has handed to the websocket of `p`.

Assumption.  No 64-bit counter wraps around.  `m_peerIdCounter`,
`m_fileIdCounter` and `m_subscriberIdCounter` are `std::atomic<v_int64>` and
start at 1, the events of `Statistics` are `std::atomic<v_uint64>`, and all are
unbounded numbers here: a run of the model is a run of the server as long as
fewer than 2^63 - 1 ids of each kind are handed out and fewer than 2^64 events
of each kind (or bytes served) are counted.  A client may send any `v_int64` as
an id, so ids are `Int`.  The one counter that may wrap in a run of the server
is the 32-bit `pingPoingCounter`, which is an `Int32`.

Handlers that can throw, or can follow a null pointer, run in `Handler`: the
state changes made before the failure stay.
-/
import CanChat.Subscriber
import Mathlib.Logic.Function.Basic
import Mathlib.Tactic.Simps.Basic

namespace CanChat

/-! ### The objects -/

structure File where
  host : PeerRef
  clientFileId : Int
  serverFileId : Int
  fileName : Option String
  fileSize : Int
  subscriberIdCounter : Int := 1
  subscribers : UnorderedMap Int SubscriberRef := ∅
  deriving Inhabited

structure Peer where
  socket : Option SocketRef
  room : RoomRef
  nickname : String
  peerId : Int
  messageBuffer : Bytes := []
  /-- An `std::atomic<v_int32>`: increments and decrements wrap. -/
  pingPoingCounter : Int32 := 0
  files : List FileRef := []
  deriving Inhabited

structure Room where
  name : String
  fileIdCounter : Int := 1
  fileById : UnorderedMap Int FileRef := ∅
  peerById : UnorderedMap Int PeerRef := ∅
  history : List (Object MessageDto) := []
  deriving Inhabited

/-- The event counters of `Statistics`. -/
structure Statistics where
  eventPeerConnected : ℕ := 0
  eventPeerDisconnected : ℕ := 0
  eventPeerZombieDropped : ℕ := 0
  eventPeerSendMessage : ℕ := 0
  eventPeerShareFile : ℕ := 0
  eventRoomCreated : ℕ := 0
  eventRoomDeleted : ℕ := 0
  fileServedBytes : ℕ := 0

/-! ### The state -/

structure Server where
  statistics : Statistics := {}
  /-- The successive readings of `Environment::getMicroTickCount`. -/
  clock : ℕ → Int := fun _ => 0
  clockReads : ℕ := 0
  /-- The number of message objects allocated. -/
  objectCount : ℕ := 0
  peerIdCounter : Int := 1
  /-- `Lobby::m_rooms`. -/
  lobbyRooms : UnorderedMap String RoomRef := ∅
  rooms : RoomRef → Room := fun _ => default
  roomCount : ℕ := 0
  peers : PeerRef → Peer := fun _ => default
  peerCount : ℕ := 0
  files : FileRef → File := fun _ => default
  fileCount : ℕ := 0
  subscribers : SubscriberRef → Option Subscriber := fun _ => none
  subscriberCount : ℕ := 0
  outbox : PeerRef → List (Object MessageDto) := fun _ => []

namespace Server

/-- Replace the room `ρ` by what `f` makes of it. -/
@[simps] def modifyRoom (ρ : RoomRef) (f : Room → Room) (s : Server) : Server :=
  { s with rooms := Function.update s.rooms ρ (f (s.rooms ρ)) }

/-- Replace the peer `p` by what `f` makes of it. -/
@[simps] def modifyPeer (p : PeerRef) (f : Peer → Peer) (s : Server) : Server :=
  { s with peers := Function.update s.peers p (f (s.peers p)) }

/-- Replace the file `f` by what `g` makes of it. -/
@[simps] def modifyFile (f : FileRef) (g : File → File) (s : Server) : Server :=
  { s with files := Function.update s.files f (g (s.files f)) }

/-- Replace the subscriber `σ`, if it is still there. -/
@[simps] def modifySubscriber (σ : SubscriberRef) (f : Subscriber → Subscriber) (s : Server) :
    Server :=
  { s with subscribers := Function.update s.subscribers σ ((s.subscribers σ).map f) }

/-- Replace the statistics by what `f` makes of them. -/
@[simps] def modifyStatistics (f : Statistics → Statistics) (s : Server) : Server :=
  { s with statistics := f s.statistics }

/-- `MessageDto::createShared`, with the fields assigned afterwards. -/
def createShared (dto : MessageDto) (s : Server) : Object MessageDto × Server :=
  (⟨s.objectCount, dto⟩, { s with objectCount := s.objectCount + 1 })

/-- One reading of the clock. -/
def getMicroTickCount (s : Server) : Int × Server :=
  (s.clock s.clockReads, { s with clockReads := s.clockReads + 1 })

end Server

/-! ### Handlers -/

/-- Code that may fail half way, keeping the changes made so far. -/
abbrev Handler := ExceptT Fault (StateM Server)

/-- Dereference a pointer or a DTO field. -/
def deref {α : Type} : Option α → Handler α
  | some a => pure a
  | none => throw .nullPointer

/-- `handler.exec s` is the outcome of a handler started in `s` and the state
it leaves. -/
def Handler.exec {α : Type} (h : Handler α) (s : Server) : Except Fault α × Server :=
  (h.run).run s

namespace Handler

variable {α β : Type}

@[simp] theorem exec_pure (a : α) (s : Server) : exec (pure a) s = (.ok a, s) := rfl

@[simp] theorem exec_throw (e : Fault) (s : Server) :
    exec (throw e : Handler α) s = (.error e, s) := rfl

@[simp] theorem exec_get (s : Server) : exec get s = (.ok s, s) := rfl

@[simp] theorem exec_modify (f : Server → Server) (s : Server) :
    exec (modify f) s = (.ok ⟨⟩, f s) := rfl

@[simp] theorem exec_modifyGet (f : Server → α × Server) (s : Server) :
    exec (modifyGet f) s = (.ok (f s).1, (f s).2) := rfl

@[simp] theorem exec_deref_some (a : α) (s : Server) :
    exec (deref (some a)) s = (.ok a, s) := rfl

@[simp] theorem exec_deref_none (s : Server) :
    exec (deref (none : Option α)) s = (.error .nullPointer, s) := rfl

/-- A fault in the first handler is the fault of the whole, in the state where
it occurred. -/
theorem exec_bind (h : Handler α) (k : α → Handler β) (s : Server) :
    exec (h >>= k) s = match exec h s with
      | (.ok a, t) => exec (k a) t
      | (.error e, t) => (.error e, t) := by
  show (h >>= k).run.run s = _
  simp only [ExceptT.run_bind, StateT.run_bind, exec]
  rcases e : h.run.run s with ⟨_ | _, t⟩ <;> simp_all <;> rfl

/-- A dereference that succeeds leaves the server alone. -/
theorem exec_deref_ok {o : Option α} {a : α} {s t : Server}
    (hexec : exec (deref o) s = (.ok a, t)) : o = some a ∧ t = s := by
  rcases o with - | b
  · cases hexec
  · cases hexec
    exact ⟨rfl, rfl⟩

/-- A handler that succeeds has passed through its first part. -/
theorem exec_bind_ok {h : Handler α} {k : α → Handler β} {s t : Server} {b : β}
    (hexec : exec (h >>= k) s = (.ok b, t)) :
    ∃ a u, exec h s = (.ok a, u) ∧ exec (k a) u = (.ok b, t) := by
  rw [exec_bind] at hexec
  rcases hh : exec h s with ⟨_ | a, u⟩ <;> rw [hh] at hexec
  · cases hexec
  · exact ⟨a, u, rfl, hexec⟩

@[simp] theorem exec_map (f : α → β) (h : Handler α) (s : Server) :
    exec (f <$> h) s = ((exec h s).1.map f, (exec h s).2) := by
  rw [← bind_pure_comp, exec_bind]
  rcases exec h s with ⟨_ | _, t⟩ <;> rfl

end Handler

end CanChat
