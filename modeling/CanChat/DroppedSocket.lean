/-
CanChat/DroppedSocket.lean

`m_socket` against the ping loop: the ping loop drops the socket of a peer
while other threads handle the peer's messages, broadcast to it, or ask it for
a chunk.

Design.  The ping loop drops a socket with `m_peerByIdLock` of the peer's room
held, so a thread that holds it too may rely on a test of `m_socket`
(`contract`).  Pings and broadcasts do.  The rest does not: `onApiError` makes
no test, and a `Peer::sendMessageAsync` from `requestChunk` or `onboardPeer`
holds no mutex that keeps the ping loop away between its test and its use.
`Careful` is the condition under which neither of these goes wrong.
-/
import CanChat.Bookkeeping
import CanChat.Routines

namespace CanChat

namespace DroppedSocket

open Interleaving Routine

/-! ### The threads -/

/-- What a thread may run. -/
inductive Operation
  /-- one pass of `runPingLoop` -/
  | pingRound
  /-- a frame from `p` -/
  | readMessage (p : PeerRef) (data : Bytes)
  | onPong (p : PeerRef)
  | sendMessageAsync (ρ : RoomRef) (message : Object MessageDto)
  | onboardPeer (ρ : RoomRef) (p : PeerRef)
  /-- a read of a download, which may send a chunk request -/
  | read (σ : SubscriberRef) (count : Int)

/-- The framework takes the result. -/
def finish {α : Type} (x : Routine α) : Program Action Mutex Shared Unit :=
  x.run.bind fun _ => .pure ()

/-- The program of an operation. -/
def program (fw : Framework) (config : ConfigDto) :
    Operation → Program Action Mutex Shared Unit
  | .pingRound => finish Threads.Lobby.pingRound
  | .readMessage p data => finish (Threads.Peer.readMessage fw config p data)
  | .onPong p => finish (atomic (modify (Peer.onPong p)))
  | .sendMessageAsync ρ message => finish (Threads.Room.sendMessageAsync ρ message)
  | .onboardPeer ρ p => finish (Threads.Room.onboardPeer config ρ p)
  | .read σ count => finish (Threads.Subscriber.read σ count)

/-- A peer is only in the map of its own room. -/
def Roomed (s : Server) : Prop :=
  ∀ ρ, ∀ p ∈ Room.members ρ s, (s.peers p).room = ρ

/-- Threads that run the operations on one server. -/
abbrev State (τ : Type) := Interleaving.State Action Mutex Shared τ

/-- Any number of threads on any server. -/
def system (fw : Framework) (config : ConfigDto) (τ : Type) [DecidableEq τ] :
    Transition.System (State τ) (Act τ Operation) :=
  Interleaving.system Shared.perform (program fw config) fun s => Roomed s.server ∧ s.started = []

/-! ### The contract -/

/-- The member tables, and the room and socket of each peer, are unchanged. -/
structure SameMembers (s t : Server) : Prop where
  peerById : ∀ ρ, (t.rooms ρ).peerById = (s.rooms ρ).peerById
  room : ∀ p, (t.peers p).room = (s.peers p).room
  socket : ∀ p, (t.peers p).socket = (s.peers p).socket

theorem SameMembers.of_eq {s t : Server} (hrooms : t.rooms = s.rooms) (hpeers : t.peers = s.peers) :
    SameMembers s t := by
  refine ⟨fun ρ => ?_, fun p => ?_, fun p => ?_⟩
  · rw [hrooms]
  · rw [hpeers]
  · rw [hpeers]

/-- Members that stay are in the rooms they were in. -/
theorem SameMembers.roomed {s t : Server} (h : SameMembers s t) (hs : Roomed s) : Roomed t := by
  intro ρ p hp
  rw [Room.members, h.peerById ρ] at hp
  rw [h.room]
  exact hs ρ p hp

/-- Other threads drop no socket of a room whose `m_peerByIdLock` is in `H`. -/
structure Rely (H : Set Mutex) (s t : Shared) : Prop where
  room : ∀ p, (t.server.peers p).room = (s.server.peers p).room
  socket : ∀ p, Mutex.peerById (s.server.peers p).room ∈ H →
    (s.server.peers p).socket.isSome → (t.server.peers p).socket.isSome

theorem Rely.of_sameMembers {s t : Shared} (h : SameMembers s.server t.server) (H : Set Mutex) :
    Rely H s t := by
  refine ⟨h.room, fun p _ hp => ?_⟩
  rw [h.socket]
  exact hp

/-- A send follows a test of `m_socket`; a ping is sent, and a socket dropped,
with the mutex of the room. -/
def Allowed (H : Set Mutex) (i : Action) (s₀ s : Shared) : Prop :=
  match i with
  | .access f => SameMembers s.server (f s.server)
  | .startMessage p _ => (s₀.server.peers p).socket.isSome
  | .startPing p =>
      Mutex.peerById (s₀.server.peers p).room ∈ H ∧ (s₀.server.peers p).socket.isSome
  | .startError _ => True
  | .invalidateSocket p => Mutex.peerById (s.server.peers p).room ∈ H

/-- Only `invalidateSocket` changes a socket. -/
theorem sameMembers_perform {H : Set Mutex} {i : Action} {s₀ s : Shared} (h : Allowed H i s₀ s)
    (hdrop : ∀ p, i ≠ .invalidateSocket p) : SameMembers s.server (s.perform i).server := by
  cases i with
  | access f => exact h
  | startMessage p message =>
      obtain ⟨outbox, hsend⟩ := Peer.sendMessageAsync_frame p message s.server
      refine .of_eq ?_ ?_
      · show (Peer.sendMessageAsync p message s.server).rooms = s.server.rooms
        rw [hsend]
      · show (Peer.sendMessageAsync p message s.server).peers = s.server.peers
        rw [hsend]
  | startPing p => exact .of_eq rfl rfl
  | startError p => exact .of_eq rfl rfl
  | invalidateSocket p => exact absurd rfl (hdrop p)

theorem invalidateSocket_peer (p q : PeerRef) (s : Server) :
    ((Peer.invalidateSocket p s).peers q).room = (s.peers q).room ∧
      (q ≠ p → ((Peer.invalidateSocket p s).peers q).socket = (s.peers q).socket) := by
  rcases eq_or_ne q p with rfl | hne
  · exact ⟨Peer.invalidateSocket_room q s, fun h => absurd rfl h⟩
  · simp [Peer.invalidateSocket, Function.update_of_ne hne]

/-- An access drops a socket or does not. -/
theorem drops_or_not (i : Action) :
    (∃ p, i = .invalidateSocket p) ∨ ∀ p, i ≠ .invalidateSocket p := by
  cases i with
  | invalidateSocket p => exact .inl ⟨p, rfl⟩
  | _ => exact .inr fun _ => by simp

/-- What a thread may rely on while it holds mutexes, and what it guarantees. -/
def contract : Contract Action Mutex Shared where
  perform := Shared.perform
  Invariant s := Roomed s.server
  Rely := Rely
  Allowed := Allowed
  rely_refl H s := .of_sameMembers (.of_eq rfl rfl) H
  rely_trans H s t u hst htu := by
    refine ⟨fun p => (htu.room p).trans (hst.room p), fun p hp hs => ?_⟩
    refine htu.socket p ?_ (hst.socket p hp hs)
    rw [hst.room]
    exact hp
  invariant_of_allowed H i s₀ s hs hallowed := by
    rcases drops_or_not i with ⟨p, rfl⟩ | hdrop
    · exact fun ρ q hq => (invalidateSocket_peer p q s.server).1.trans (hs ρ q hq)
    · exact (sameMembers_perform hallowed hdrop).roomed hs
  rely_of_allowed H K i s₀ s hdisjoint hallowed := by
    rcases drops_or_not i with ⟨p, rfl⟩ | hdrop
    · refine ⟨fun q => (invalidateSocket_peer p q s.server).1, fun q hq hsocket => ?_⟩
      -- the mutex of the room of `p` is held by the thread that drops
      have hne : q ≠ p := by
        rintro rfl
        exact Set.disjoint_left.mp hdisjoint hallowed hq
      show ((Peer.invalidateSocket p s.server).peers q).socket.isSome
      rw [(invalidateSocket_peer p q s.server).2 hne]
      exact hsocket
    · exact .of_sameMembers (sameMembers_perform hallowed hdrop) K

/-! ### Routines that hold no mutex over a test -/

/-- The routine meets the contract wherever it is called. -/
def Harmless {α : Type} (x : Routine α) : Prop :=
  ∀ H s₀, contract.Meets H s₀ x.run fun _ _ _ => True

namespace Harmless

variable {α β : Type}

/-- Returning a value accesses nothing. -/
theorem pure (a : α) : Harmless (pure a) := fun _ _ => trivial

/-- Nor does throwing. -/
theorem throw (e : Fault) : Harmless (throw e : Routine α) := fun _ _ => trivial

/-- A handler that leaves members and sockets alone, taken in one step. -/
theorem atomic {h : Handler α} (hsameMembers : ∀ s, SameMembers s (h.exec s).2) :
    Harmless (atomic h) :=
  fun _ _ s _ _ => ⟨hsameMembers s.server, trivial⟩

/-- A handler that does not reach the rooms and the peers. -/
theorem atomic_of_eq {h : Handler α}
    (heq : ∀ s, (h.exec s).2.rooms = s.rooms ∧ (h.exec s).2.peers = s.peers) :
    Harmless (Routine.atomic h) :=
  .atomic fun s => .of_eq (heq s).1 (heq s).2

/-- One harmless routine after another. -/
theorem bind {x : Routine α} {k : α → Routine β} (hx : Harmless x) (hk : ∀ a, Harmless (k a)) :
    Harmless (x >>= k) := fun H s₀ => (hx H s₀).bind fun H s r _ =>
  match r with
  | .ok a => hk a H s
  | .error _ => trivial

/-- A harmless routine under a mutex. -/
theorem lockGuard {x : Routine α} (m : Mutex) (hx : Harmless x) : Harmless (lockGuard m x) :=
  fun _ _ => .guarded fun s _ => hx _ s

/-- A read under a mutex. -/
theorem read (m : Mutex) (f : Server → α) :
    Harmless (Routine.lockGuard m do Pure.pure (f (← get))) :=
  lockGuard m (bind (atomic_of_eq fun _ => ⟨rfl, rfl⟩) fun _ => pure _)

theorem finish {x : Routine α} (hx : Harmless x) (H : Set Mutex) (s₀ : Shared) :
    contract.Meets H s₀ (DroppedSocket.finish x) fun _ _ _ => True :=
  (hx H s₀).bind fun _ _ _ _ => trivial

end Harmless

/-! Sending: the test comes first. -/

theorem harmless_sendMessageAsync (p : PeerRef) (message : Object MessageDto) :
    Harmless (Threads.Peer.sendMessageAsync p message) := by
  intro H s₀ s hs hrely
  refine ⟨.of_eq rfl rfl, ?_⟩
  show contract.Meets H s (ite _ _ _ : Routine Unit).run _
  split
  · next hsocket => exact fun t _ _ => ⟨hsocket, trivial⟩
  · trivial

theorem harmless_onApiError (p : PeerRef) (errorMessage : String) :
    Harmless (Threads.Peer.onApiError p errorMessage) := by
  refine .bind (.atomic_of_eq fun _ => ⟨rfl, rfl⟩) fun message => ?_
  exact .bind (fun _ _ _ _ _ => ⟨trivial, trivial⟩) fun s => .pure _

/-! Rooms and downloads. -/

theorem harmless_sendToPeers (message : Object MessageDto) (ps : List PeerRef) :
    Harmless (Threads.Room.sendToPeers message ps) := by
  induction ps with
  | nil => exact .pure ()
  | cons p ps ih => exact .bind (harmless_sendMessageAsync p message) fun _ => ih

theorem harmless_roomSendMessageAsync (ρ : RoomRef) (message : Object MessageDto) :
    Harmless (Threads.Room.sendMessageAsync ρ message) :=
  .lockGuard _ (.bind (.atomic_of_eq fun _ => ⟨rfl, rfl⟩) fun _ => harmless_sendToPeers message _)

/-- The history is no part of the members. -/
theorem sameMembers_addHistoryMessage (config : ConfigDto) (ρ : RoomRef)
    (message : Object MessageDto)
    (s : Server) : SameMembers s (Room.addHistoryMessage config ρ message s) := by
  unfold Room.addHistoryMessage
  split
  · exact .of_eq rfl rfl
  · refine ⟨fun ρ' => ?_, fun _ => rfl, fun _ => rfl⟩
    rcases eq_or_ne ρ' ρ with rfl | hne
    · simp
    · simp [Function.update_of_ne hne]

theorem harmless_addHistoryMessage (config : ConfigDto) (ρ : RoomRef)
    (message : Object MessageDto) :
    Harmless (Threads.Room.addHistoryMessage config ρ message) := by
  unfold Threads.Room.addHistoryMessage
  split
  · exact .lockGuard _ (.atomic fun s => sameMembers_addHistoryMessage config ρ message s)
  · exact .pure ()

theorem harmless_getHistory (config : ConfigDto) (ρ : RoomRef) :
    Harmless (Threads.Room.getHistory config ρ) := by
  unfold Threads.Room.getHistory
  split
  · exact .pure none
  · exact .read _ _

theorem harmless_onboardPeer (config : ConfigDto) (ρ : RoomRef) (p : PeerRef) :
    Harmless (Threads.Room.onboardPeer config ρ p) :=
  .bind (.read _ _) fun _ => .bind (harmless_getHistory config ρ) fun _ =>
    .bind (.atomic_of_eq fun _ => ⟨rfl, rfl⟩) fun message => harmless_sendMessageAsync p message

theorem sameMembers_modifyPeer (p : PeerRef) (f : Peer → Peer)
    (hroom : ∀ peer, (f peer).room = peer.room)
    (hsocket : ∀ peer, (f peer).socket = peer.socket) (s : Server) :
    SameMembers s (s.modifyPeer p f) := by
  refine ⟨fun _ => rfl, fun q => ?_, fun q => ?_⟩
  · rcases eq_or_ne q p with rfl | hne
    · simp [hroom]
    · simp [Function.update_of_ne hne]
  · rcases eq_or_ne q p with rfl | hne
    · simp [hsocket]
    · simp [Function.update_of_ne hne]

/-- Nor are the files. -/
theorem sameMembers_registerFile (ρ : RoomRef) (host : PeerRef) (clientFileId : Int)
    (fileName : Option String) (fileSize : Int) (s : Server) :
    SameMembers s (Room.registerFile ρ host clientFileId fileName fileSize s).2 := by
  obtain ⟨-, hroom, hsocket⟩ :=
    sameMembers_modifyPeer host (fun peer => { peer with files := peer.files ++ [s.fileCount] })
      (fun _ => rfl) (fun _ => rfl) s
  refine ⟨fun ρ' => ?_, hroom, hsocket⟩
  rcases eq_or_ne ρ' ρ with rfl | hne
  · simp [Room.registerFile, Peer.addFile]
  · simp [Room.registerFile, Peer.addFile, Function.update_of_ne hne]

theorem harmless_shareFile (ρ : RoomRef) (hostPeerId clientFileId : Int)
    (fileName : Option String) (fileSize : Int) :
    Harmless (Threads.Room.shareFile ρ hostPeerId clientFileId fileName fileSize) := by
  refine .lockGuard _ (.bind (.read _ _) fun host? => ?_)
  cases host? with
  | none => exact .throw _
  | some host => exact .atomic fun s =>
      sameMembers_registerFile ρ host clientFileId fileName fileSize s

theorem harmless_requestChunk (subscriber : Subscriber) (size : Int) :
    Harmless (Threads.Subscriber.requestChunk subscriber size) := by
  unfold Threads.Subscriber.requestChunk
  split
  · exact .bind (.atomic_of_eq fun _ => ⟨rfl, rfl⟩) fun s =>
      .bind (.atomic_of_eq fun _ => ⟨rfl, rfl⟩) fun message => harmless_sendMessageAsync _ message
  · exact .pure ()

theorem harmless_deref {α : Type} (a : Option α) : Harmless (atomic (deref a)) := by
  cases a with
  | none => exact .atomic_of_eq fun _ => ⟨rfl, rfl⟩
  | some a => exact .atomic_of_eq fun _ => ⟨rfl, rfl⟩

theorem harmless_read (σ : SubscriberRef) (count : Int) :
    Harmless (Threads.Subscriber.read σ count) := by
  refine .bind (.lockGuard _ (.bind (.atomic_of_eq fun _ => ⟨rfl, rfl⟩) fun s =>
    .bind (harmless_deref _) fun subscriber => ?_)) fun r => ?_
  · rcases subscriber.readChunk (s.files subscriber.file).fileSize count with
      fault | ⟨data | -, subscriber'⟩
    · exact .throw fault
    · exact .bind (.atomic_of_eq fun _ => ⟨rfl, rfl⟩) fun _ => .pure _
    · exact .bind (harmless_requestChunk subscriber' count) fun _ => .pure _
  · rcases r with data | -
    · exact .bind (.atomic_of_eq fun _ => ⟨rfl, rfl⟩) fun _ => .pure _
    · exact .pure _

/-! The messages of a peer. -/

theorem harmless_validateFilesList (p : PeerRef) (filesList : Option (List (Option FileDto))) :
    Harmless (atomic (Peer.validateFilesList p filesList)) := by
  refine .atomic_of_eq fun s => ?_
  cases filesList with
  | none => exact ⟨rfl, rfl⟩
  | some files =>
      obtain ⟨c, n, h⟩ := Peer.exec_validateFilesList_some p files s
      rw [h]
      exact ⟨rfl, rfl⟩

theorem harmless_shareFiles (p : PeerRef) (files : List (Option FileDto)) :
    Harmless (Threads.Peer.shareFiles p files) := by
  induction files with
  | nil => exact .pure []
  | cons currFile rest ih =>
      refine .bind (harmless_deref _) fun fileDto => .bind (harmless_deref _) fun clientFileId =>
        .bind (harmless_deref _) fun size => .bind (.atomic_of_eq fun _ => ⟨rfl, rfl⟩) fun s => ?_
      exact .bind (harmless_shareFile _ _ _ _ _) fun f =>
        .bind (.atomic_of_eq fun _ => ⟨rfl, rfl⟩) fun s => .bind ih fun shared => .pure _

theorem harmless_handleFilesMessage (config : ConfigDto) (p : PeerRef) (message : MessageDto) :
    Harmless (Threads.Peer.handleFilesMessage config p message) := by
  refine .bind (harmless_validateFilesList p message.files) fun _ =>
    .bind (.atomic_of_eq fun _ => ⟨rfl, rfl⟩) fun s =>
    .bind (.atomic_of_eq fun _ => ⟨rfl, rfl⟩) fun timestamp => .bind (harmless_deref _) fun files =>
    .bind (harmless_shareFiles p files) fun shared => ?_
  exact .bind (.atomic_of_eq fun _ => ⟨rfl, rfl⟩) fun fileMessage =>
    .bind (harmless_addHistoryMessage _ _ _) fun _ =>
    .bind (harmless_roomSendMessageAsync _ _) fun _ => .pure none

theorem harmless_provideChunk (fw : Framework) (p : PeerRef) (serverFileId subscriberId : Int)
    (data : String) : Harmless (Threads.Peer.provideChunk fw p serverFileId subscriberId data) := by
  refine .bind (.atomic_of_eq fun _ => ⟨rfl, rfl⟩) fun s => .bind (.read _ _) fun f? => ?_
  cases f? with
  | none => exact .pure none
  | some f =>
      refine .bind (.atomic_of_eq fun _ => ⟨rfl, rfl⟩) fun s => ?_
      split
      · exact harmless_onApiError p _
      · rcases fw.base64Decode data with - | bytes
        · exact .throw _
        · refine .bind (.lockGuard _ (.atomic_of_eq fun s => ?_)) fun _ => .pure none
          obtain ⟨subscribers, h⟩ := File.provideFileChunk_frame f subscriberId bytes s
          rw [h]
          exact ⟨rfl, rfl⟩

theorem harmless_handleFileChunkMessage (fw : Framework) (p : PeerRef) (message : MessageDto) :
    Harmless (Threads.Peer.handleFileChunkMessage fw p message) := by
  unfold Threads.Peer.handleFileChunkMessage
  rcases message.files with - | filesList
  · exact harmless_onApiError p _
  · dsimp only
    split
    · exact harmless_onApiError p _
    · refine .bind (.atomic_of_eq fun s => ?_) fun fileDto? => ?_
      · cases filesList with
        | nil => exact ⟨rfl, rfl⟩
        | cons a l => exact ⟨rfl, rfl⟩
      · rcases fileDto? with - | fileDto
        · exact harmless_onApiError p _
        · dsimp only
          rcases fileDto.serverFileId with - | serverFileId
          · exact harmless_onApiError p _
          · rcases fileDto.subscriberId with - | subscriberId
            · exact harmless_onApiError p _
            · rcases fileDto.data with - | data
              · exact harmless_onApiError p _
              · exact harmless_provideChunk fw p serverFileId subscriberId data

theorem harmless_handleMessage (fw : Framework) (config : ConfigDto) (p : PeerRef)
    (message : Object MessageDto) :
    Harmless (Threads.Peer.handleMessage fw config p message) := by
  refine .bind (.atomic_of_eq fun _ => ⟨rfl, rfl⟩) fun s => ?_
  dsimp only
  rcases message.val.code with - | code
  · exact harmless_onApiError p _
  · cases code with
    | codePeerMessage =>
        exact .bind (harmless_addHistoryMessage _ _ _) fun _ =>
          .bind (harmless_roomSendMessageAsync _ _) fun _ =>
          .bind (.atomic_of_eq fun _ => ⟨rfl, rfl⟩) fun _ => .pure none
    | codePeerIsTyping => exact .bind (harmless_roomSendMessageAsync _ _) fun _ => .pure none
    | codeFileShare => exact harmless_handleFilesMessage config p message.val
    | codeFileChunkData => exact harmless_handleFileChunkMessage fw p message.val
    | _ => exact harmless_onApiError p _

/-- All that a frame can lead to is harmless. -/
theorem harmless_readMessage (fw : Framework) (config : ConfigDto) (p : PeerRef) (data : Bytes) :
    Harmless (Threads.Peer.readMessage fw config p data) := by
  have hbuffer : ∀ buffer : Bytes → Bytes, Harmless (atomic (modify (Server.modifyPeer p
      fun peer => { peer with messageBuffer := buffer peer.messageBuffer }))) := fun buffer =>
    .atomic fun s => sameMembers_modifyPeer p
      (fun peer => { peer with messageBuffer := buffer peer.messageBuffer })
      (fun _ => rfl) (fun _ => rfl) s
  refine .bind (.atomic_of_eq fun _ => ⟨rfl, rfl⟩) fun s => ?_
  dsimp only
  split
  · exact harmless_onApiError p _
  · split
    · refine .bind (hbuffer fun _ => []) fun _ => ?_
      rcases fw.readFromString (s.peers p).messageBuffer with - | parsed
      · exact harmless_onApiError p _
      · exact .bind (harmless_deref parsed) fun message =>
          .bind (.atomic_of_eq fun _ => ⟨rfl, rfl⟩) fun timestamp =>
          .bind (.atomic_of_eq fun _ => ⟨rfl, rfl⟩) fun message =>
          harmless_handleMessage fw config p message
    · exact .bind (hbuffer fun buffer => buffer ++ data) fun _ => .pure none

/-! ### The ping loop -/

/-- In the loop over the members of `ρ`, with its mutex. -/
def Inside (ρ : RoomRef) (ps : List PeerRef) (H : Set Mutex) (s : Shared) : Prop :=
  .peerById ρ ∈ H ∧ ∀ p ∈ ps, (s.server.peers p).room = ρ

/-- What others do while the mutex is held leaves the members of the room. -/
theorem Inside.rely {ρ : RoomRef} {ps : List PeerRef} {H : Set Mutex} {s t : Shared}
    (h : Inside ρ ps H s) (hrely : Rely H s t) : Inside ρ ps H t :=
  ⟨h.1, fun p hp => (hrely.room p).trans (h.2 p hp)⟩

theorem Inside.sameMembers {ρ : RoomRef} {ps : List PeerRef} {H : Set Mutex} {s t : Shared}
    (h : Inside ρ ps H s) (hsameMembers : SameMembers s.server t.server) : Inside ρ ps H t :=
  h.rely (.of_sameMembers hsameMembers H)

/-- A ping drops the socket of a member only. -/
theorem meets_sendPingAsync {ρ : RoomRef} {ps : List PeerRef} {p : PeerRef} (hp : p ∈ ps)
    {H : Set Mutex} {s₀ : Shared} (h : Inside ρ ps H s₀) :
    contract.Meets H s₀ (Threads.Peer.sendPingAsync p).run fun H s _ => Inside ρ ps H s := by
  intro s _ hs
  have hcount : SameMembers s.server (s.server.modifyPeer p fun peer =>
      { peer with pingPoingCounter := peer.pingPoingCounter + 1 }) :=
    sameMembers_modifyPeer p
      (fun peer => { peer with pingPoingCounter := peer.pingPoingCounter + 1 })
      (fun _ => rfl) (fun _ => rfl) s.server
  refine ⟨hcount, fun t _ ht => ⟨.of_eq rfl rfl, ?_⟩⟩
  have hinside : Inside ρ ps H t := ((h.rely hs).sameMembers hcount).rely ht
  show contract.Meets H t (ite _ _ _ : Routine Bool).run _
  split
  · next hsocket =>
    rw [Bool.and_eq_true] at hsocket
    refine fun u _ hu => ⟨⟨?_, hsocket.1⟩, (hinside.rely hu).sameMembers (.of_eq rfl rfl)⟩
    rw [hinside.2 p hp]
    exact hinside.1
  · exact hinside

theorem meets_pingPeer {ρ : RoomRef} {ps : List PeerRef} {p : PeerRef} (hp : p ∈ ps)
    {H : Set Mutex} {s₀ : Shared} (h : Inside ρ ps H s₀) :
    contract.Meets H s₀ (Threads.Room.pingPeer p).run fun H s _ => Inside ρ ps H s := by
  refine (meets_sendPingAsync hp h).bind fun H s r hs => ?_
  rcases r with e | sent
  · exact hs
  · cases sent with
    | true => exact hs
    | false =>
        intro t _ ht
        have hinside := hs.rely ht
        refine ⟨?_, fun u _ hu => ⟨.of_eq rfl rfl, ?_⟩⟩
        · show Mutex.peerById (t.server.peers p).room ∈ H
          rw [hinside.2 p hp]
          exact hinside.1
        · have hdropped : Inside ρ ps H (t.perform (.invalidateSocket p)) := by
            refine ⟨hinside.1, fun q hq => ?_⟩
            exact (invalidateSocket_peer p q t.server).1.trans (hinside.2 q hq)
          exact (hdropped.rely hu).sameMembers (.of_eq rfl rfl)

/-- The loop over the members, by induction on those that are left. -/
theorem meets_pingPeers {ρ : RoomRef} (ps : List PeerRef) {H : Set Mutex} {s₀ : Shared}
    (h : Inside ρ ps H s₀) :
    contract.Meets H s₀ (Threads.Room.pingPeers ps).run fun _ _ _ => True := by
  induction ps generalizing H s₀ with
  | nil => trivial
  | cons p ps ih =>
      refine (meets_pingPeer List.mem_cons_self h).bind fun H s r hs => ?_
      rcases r with e | -
      · trivial
      · exact ih ⟨hs.1, fun q hq => hs.2 q (List.mem_cons_of_mem p hq)⟩

/-- A round of one room, under its mutex. -/
theorem harmless_pingAllPeers (ρ : RoomRef) : Harmless (Threads.Room.pingAllPeers ρ) := by
  refine fun H s₀ => .guarded fun s _ t ht hst => ⟨.of_eq rfl rfl, ?_⟩
  exact meets_pingPeers _ ⟨Set.mem_insert _ H, ht ρ⟩

/-- A pass of `runPingLoop` through all rooms. -/
theorem harmless_pingRound : Harmless Threads.Lobby.pingRound := by
  refine .lockGuard _ (.bind (.atomic_of_eq fun _ => ⟨rfl, rfl⟩) fun s => ?_)
  induction s.lobbyRooms.values with
  | nil => exact .pure ()
  | cons ρ ρs ih => exact .bind (harmless_pingAllPeers ρ) fun _ => ih

/-- **Every operation meets the contract.** -/
theorem meets_program (fw : Framework) (config : ConfigDto) (o : Operation) (H : Set Mutex)
    (s₀ : Shared) : contract.Meets H s₀ (program fw config o) fun _ _ _ => True := by
  cases o with
  | pingRound => exact harmless_pingRound.finish H s₀
  | readMessage p data => exact (harmless_readMessage fw config p data).finish H s₀
  | onPong p =>
      have hpong : Harmless (atomic (modify (Peer.onPong p))) :=
        .atomic fun s => sameMembers_modifyPeer p
          (fun peer => { peer with pingPoingCounter := peer.pingPoingCounter - 1 })
          (fun _ => rfl) (fun _ => rfl) s
      exact hpong.finish H s₀
  | sendMessageAsync ρ message => exact (harmless_roomSendMessageAsync ρ message).finish H s₀
  | onboardPeer ρ p => exact (harmless_onboardPeer config ρ p).finish H s₀
  | read σ count => exact (harmless_read σ count).finish H s₀

/-! ### Starts with a dropped socket -/

variable {τ : Type}

/-- No coroutine got a null websocket. -/
def NoNullStart (s : State τ) : Prop :=
  ∀ c ∈ s.shared.started, c.websocket.isSome

/-- `t` is between the test and the use of `m_socket` in
`Peer::sendMessageAsync`. -/
def Sending (s : State τ) (t : τ) (p : PeerRef) : Prop :=
  ∃ message next, s.threads t = .act (.startMessage p message) next

/-- Nobody is about to start a `SendMessageCoroutine` with a null websocket. -/
def Ready (s : State τ) : Prop :=
  ∀ t p, Sending s t p → (s.shared.server.peers p).socket.isSome

/-- The ping loop does not drop a socket that another thread has tested and is
about to use without the mutex of the room; and `onApiError` is not called
after the socket has been dropped. -/
def Careful (s : State τ) : Act τ Operation → Prop
  | .start _ _ => True
  | .run t => match s.threads t with
    | .act (.invalidateSocket p) _ => ∀ u, Sending s u p →
        s.owner (.peerById (s.shared.server.peers p).room) = some u
    | .act (.startError p) _ => (s.shared.server.peers p).socket.isSome
    | _ => True

variable [DecidableEq τ] {fw : Framework} {config : ConfigDto} {s s' : State τ}

/-- Every reachable state meets the contract. -/
theorem sound (hs : (system fw config τ).Reachable s) : contract.Sound s := by
  refine Contract.sound (C := contract) (fun _ h => h.1) ?_ hs
  exact meets_program fw config

abbrev step (fw : Framework) (config : ConfigDto) :
    State τ → Act τ Operation → Option (State τ) :=
  Interleaving.step Shared.perform (program fw config)

/-- Between the test and the use a thread knows that the socket was there. -/
theorem isSome_of_meets {H : Set Mutex} {s₀ : Shared} {p : PeerRef} {message : Object MessageDto}
    {next : Shared → Program Action Mutex Shared Unit} (hs : Roomed s₀.server)
    (h : contract.Meets H s₀ (.act (.startMessage p message) next) fun _ _ _ => True) :
    (s₀.server.peers p).socket.isSome :=
  (h s₀ hs (contract.rely_refl H s₀)).1

/-- The thread that takes the step has made its test just now. -/
theorem ready_run_iff (h : contract.Sound s) {t : τ} (hstep : step fw config s (.run t) = some s') :
    Ready s' ↔ ∀ u p, u ≠ t → Sending s u p → (s'.shared.server.peers p).socket.isSome := by
  have hothers := fun u (hu : u ≠ t) => (h.others_run hstep hu).1
  constructor
  · rintro hready u p hu ⟨message, next, hnext⟩
    refine hready u p ⟨message, next, ?_⟩
    rw [hothers u hu, hnext]
  · rintro hready u p ⟨message, next, hnext⟩
    rcases eq_or_ne u t with rfl | hu
    · have hmeets := h.meets_run hstep
      rw [hnext] at hmeets
      exact isSome_of_meets (h.run hstep).invariant hmeets
    · rw [hothers u hu] at hnext
      exact hready u p hu ⟨message, next, hnext⟩

/-- A step that drops no socket. -/
theorem ready_of_sameMembers (h : contract.Sound s) (hready : Ready s) {t : τ}
    (hstep : step fw config s (.run t) = some s')
    (hsameMembers : SameMembers s.shared.server s'.shared.server) : Ready s' := by
  refine (ready_run_iff h hstep).mpr fun u p _ hu => ?_
  rw [hsameMembers.socket]
  exact hready u p hu

theorem noNullStart_start_iff {s : Shared} {coroutine : Coroutine} {p : PeerRef}
    (h : ∀ c ∈ s.started, c.websocket.isSome) :
    (∀ c ∈ (s.start coroutine p).started, c.websocket.isSome) ↔
      (s.server.peers p).socket.isSome := by
  simp only [Shared.start, List.forall_mem_cons]
  exact and_iff_left h

/-- **A step goes wrong exactly when it is not careful.** -/
theorem safe_step_iff (h : contract.Sound s) (hstarted : NoNullStart s) (hready : Ready s)
    {a : Act τ Operation} (hstep : step fw config s a = some s') :
    NoNullStart s' ∧ Ready s' ↔ Careful s a := by
  rcases a with ⟨t, o⟩ | t
  · refine iff_of_true ⟨?_, ?_⟩ trivial
    · obtain rfl := step_start hstep
      exact hstarted
    · obtain rfl := step_start hstep
      rintro u p ⟨message, next, hnext⟩
      rcases eq_or_ne u t with rfl | hu
      · have hmeets := meets_program fw config o ∅ s.shared
        have hprogram : program fw config o = .act (.startMessage p message) next := by
          simpa using hnext
        rw [hprogram] at hmeets
        exact isSome_of_meets h.invariant hmeets
      · refine hready u p ⟨message, next, ?_⟩
        simpa [Function.update_of_ne hu] using hnext
  · rcases step_run hstep with
      ⟨i, next, ht, heq⟩ | ⟨m, next, ht, -, heq⟩ | ⟨m, next, ht, -, heq⟩
    · have hshared : s'.shared = s.shared.perform i := by rw [heq]
      obtain ⟨s₀, hrely, hallowed⟩ := h.allowed ht
      have hkeep : (∀ p, i ≠ .invalidateSocket p) → Ready s' := fun hdrop =>
        ready_of_sameMembers h hready hstep (hshared ▸ sameMembers_perform hallowed hdrop)
      simp only [Careful, ht]
      cases i with
      | access f =>
          refine iff_of_true ⟨?_, hkeep (by simp)⟩ trivial
          rw [NoNullStart, hshared]
          exact hstarted
      | startMessage p message =>
          refine iff_of_true ⟨?_, hkeep (by simp)⟩ trivial
          rw [NoNullStart, hshared]
          exact (noNullStart_start_iff hstarted).mpr (hready t p ⟨message, next, ht⟩)
      | startPing p =>
          -- the test was made with the mutex of the room, and it is still held
          refine iff_of_true ⟨?_, hkeep (by simp)⟩ trivial
          rw [NoNullStart, hshared]
          exact (noNullStart_start_iff hstarted).mpr (hrely.socket p hallowed.1 hallowed.2)
      | startError p =>
          rw [and_iff_left (hkeep (by simp)), NoNullStart, hshared]
          exact noNullStart_start_iff hstarted
      | invalidateSocket p =>
          have hnone : (s'.shared.server.peers p).socket = none := by
            rw [hshared]
            simp [Shared.perform, Peer.invalidateSocket]
          have hstarted' : NoNullStart s' := by
            rw [NoNullStart, hshared]
            exact hstarted
          rw [and_iff_right hstarted', ready_run_iff h hstep]
          constructor
          · intro hothers u hu
            have hut : u ≠ t := by
              rintro rfl
              obtain ⟨message, next', hnext⟩ := hu
              rw [ht] at hnext
              cases hnext
            have hsocket := hothers u p hut hu
            rw [hnone] at hsocket
            cases hsocket
          · intro hcareful u q hut hu
            have hqp : q ≠ p := by
              rintro rfl
              -- then `u` holds the mutex that `t` holds
              have howner := (hcareful u hu).symm.trans hallowed
              exact hut (Option.some.inj howner)
            rw [hshared]
            show ((Peer.invalidateSocket p s.shared.server).peers q).socket.isSome
            rw [(invalidateSocket_peer p q s.shared.server).2 hqp]
            exact hready u q hu
    · simp only [Careful, ht, iff_true]
      have hshared : s'.shared = s.shared := by rw [heq]
      refine ⟨?_, ready_of_sameMembers h hready hstep (hshared ▸ .of_eq rfl rfl)⟩
      rw [NoNullStart, hshared]
      exact hstarted
    · simp only [Careful, ht, iff_true]
      have hshared : s'.shared = s.shared := by rw [heq]
      refine ⟨?_, ready_of_sameMembers h hready hstep (hshared ▸ .of_eq rfl rfl)⟩
      rw [NoNullStart, hshared]
      exact hstarted

/-- A careful run starts no coroutine on a missing socket. -/
theorem safe (hs : (system fw config τ).ReachableVia Careful s) : NoNullStart s ∧ Ready s := by
  refine hs.invariant (I := fun s => NoNullStart s ∧ Ready s) ?_ ?_
  · rintro _ ⟨shared, ⟨-, hstarted⟩, rfl⟩
    refine ⟨fun c hc => ?_, ?_⟩
    · rw [hstarted] at hc
      cases hc
    · rintro t p ⟨message, next, hnext⟩
      cases hnext
  · intro s a s' hs h hcareful hstep
    exact (safe_step_iff (sound hs.reachable) h.1 h.2 hstep).mpr hcareful

/-- **No coroutine is started with a dropped socket in a careful run**, and in
such a run a step that is not careful starts one, or leaves a thread about to
start one. -/
theorem noNullStart_iff_careful (hs : (system fw config τ).ReachableVia Careful s) :
    NoNullStart s ∧ ∀ a s', (system fw config τ).step s a = some s' →
      (NoNullStart s' ∧ Ready s' ↔ Careful s a) := by
  obtain ⟨hstarted, hready⟩ := safe hs
  exact ⟨hstarted, fun a s' hstep => safe_step_iff (sound hs.reachable) hstarted hready hstep⟩

/-- The states that joins, leaves and ping rounds lead to may be started in. -/
theorem roomed_of_reachable {s : Bookkeeping.State}
    (hs : (Bookkeeping.system config).Reachable s) : Roomed s.server := by
  intro ρ p hp
  obtain ⟨id, hid⟩ := UnorderedMap.mem_values.mp hp
  obtain ⟨session, -, -, hroom, -⟩ := ((Bookkeeping.kept hs).consistent.member ρ id p).mp hid
  exact hroom

theorem roomed_soloServer : Roomed soloServer := by
  have hjoin : (Bookkeeping.system {}).run {} [.onAfterCreate 0 "lounge" "Ann"] =
      some (Bookkeeping.State.onAfterCreate {} 0 "lounge" "Ann" {}) := rfl
  exact roomed_of_reachable (.run (.init ⟨_, rfl⟩) hjoin)

/-- A size limit of one byte, and a parser that takes nothing. -/
def narrow : ConfigDto := { maxMessageSizeBytes := 1 }

def deaf : Framework := ⟨fun _ => none, fun _ => none⟩

/-- The peer's own room hears a message. -/
def broadcast : List (Act ℕ Operation) :=
  .start 0 (.sendMessageAsync 0 ⟨7, {}⟩) :: List.replicate 4 (.run 0)

theorem noNullStart_iff_careful_broadcast :
    ∃ s : State ℕ,
      (system deaf narrow ℕ).run { shared := { server := soloServer } } broadcast = some s ∧
      s.shared.started = [⟨.sendMessage, 0, some 0⟩] ∧ NoNullStart s ∧
      ∀ a s', (system deaf narrow ℕ).step s a = some s' →
        (NoNullStart s' ∧ Ready s' ↔ Careful s a) := by
  -- none of the steps is of the kind the condition is about
  have hvia : (system deaf narrow ℕ).RunsVia Careful { shared := { server := soloServer } }
      broadcast :=
    (⟨trivial, trivial, trivial, trivial, trivial, trivial⟩ :
      True ∧ True ∧ True ∧ True ∧ True ∧ True)
  refine ⟨_, rfl, rfl, noNullStart_iff_careful ?_⟩
  exact Transition.System.ReachableVia.run (.init ⟨_, ⟨roomed_soloServer, rfl⟩, rfl⟩) hvia rfl

/-- The ping loop comes round twice without a pong, the second time while a
frame that is too long is being refused. -/
theorem dropped_while_refusing : ¬ ∀ (fw : Framework) (config : ConfigDto) (s : State ℕ),
    (system fw config ℕ).Reachable s → NoNullStart s := by
  intro h
  let acts : List (Act ℕ Operation) :=
    .start 0 .pingRound :: List.replicate 9 (.run 0) ++
    .start 1 (.readMessage 0 [123, 125]) :: .run 1 ::
    .start 0 .pingRound :: List.replicate 7 (.run 0) ++ [.run 1, .run 1]
  obtain ⟨s, hrun, hstarted⟩ : ∃ s : State ℕ, (system deaf narrow ℕ).run
      { shared := { server := soloServer } } acts = some s ∧
        (⟨.sendError, 0, none⟩ : Started) ∈ s.shared.started :=
    ⟨_, rfl, by decide⟩
  have hs : (system deaf narrow ℕ).Reachable s :=
    Transition.System.Reachable.run (.init ⟨_, ⟨roomed_soloServer, rfl⟩, rfl⟩) hrun
  exact absurd (h deaf narrow s hs _ hstarted) (by simp)

end DroppedSocket

end CanChat
