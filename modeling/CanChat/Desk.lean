/-
CanChat/Desk.lean

Frame lemmas for the fields of peers.

Design.  `Server.desk g` is the number of peers and the value of `g` at each: its
message buffer, or its socket and counter.  Each lemma gives the effect of an
operation on it, for every `g` or for those that do not depend on the fields that
the operation changes.
-/
import CanChat.Conversation
import CanChat.Zombies

namespace CanChat

open Conversation

variable {β : Type}

/-- The number of peers, and the value of `g` at each. -/
def Server.desk (g : Peer → β) (s : Server) : ℕ × (PeerRef → β) :=
  (s.peerCount, fun p => g (s.peers p))

section Desk

variable {g : Peer → β} {s t : Server}

theorem desk_of_peers (hpeers : t.peers = s.peers) (hcount : t.peerCount = s.peerCount) :
    t.desk g = s.desk g := by
  unfold Server.desk
  rw [hpeers, hcount]

/-- Modifying one peer. -/
theorem desk_modifyPeer (s : Server) (p : PeerRef) (f : Peer → Peer) :
    (s.modifyPeer p f).desk g =
      (s.peerCount, Function.update (s.desk g).2 p (g (f (s.peers p)))) := by
  refine Prod.ext rfl ?_
  funext q
  show g (Function.update s.peers p (f (s.peers p)) q) =
    Function.update (s.desk g).2 p (g (f (s.peers p))) q
  rcases eq_or_ne q p with rfl | hne
  · rw [Function.update_self, Function.update_self]
  · rw [Function.update_of_ne hne, Function.update_of_ne hne]
    rfl

theorem desk_modifyPeer_of_eq (s : Server) (p : PeerRef) {f : Peer → Peer}
    (hf : ∀ peer, g (f peer) = g peer) : (s.modifyPeer p f).desk g = s.desk g := by
  rw [desk_modifyPeer, hf]
  exact Prod.ext rfl (Function.update_eq_self p (s.desk g).2)

theorem desk_addHistoryMessage (config : ConfigDto) (ρ : RoomRef) (message : Object MessageDto)
    (s : Server) : (Room.addHistoryMessage config ρ message s).desk g = s.desk g := by
  unfold Room.addHistoryMessage
  split
  · rfl
  · rfl

theorem desk_broadcast (ρ : RoomRef) (message : Object MessageDto) (s : Server) :
    (Room.sendMessageAsync ρ message s).desk g = s.desk g := by
  obtain ⟨outbox, h⟩ := Room.sendMessageAsync_frame ρ message s
  rw [h]
  rfl

theorem desk_sendMessageAsync (p : PeerRef) (message : Object MessageDto) (s : Server) :
    (Peer.sendMessageAsync p message s).desk g = s.desk g := by
  obtain ⟨outbox, h⟩ := Peer.sendMessageAsync_frame p message s
  rw [h]
  rfl

/-- `registerFile` changes the list of files of the host only. -/
theorem desk_registerFile (hfiles : ∀ (peer : Peer) files, g { peer with files } = g peer)
    (ρ : RoomRef) (host : PeerRef) (clientFileId : Int) (fileName : Option String) (fileSize : Int)
    (s : Server) :
    (Room.registerFile ρ host clientFileId fileName fileSize s).2.desk g = s.desk g := by
  let file : File :=
    { host, clientFileId, serverFileId := (s.rooms ρ).fileIdCounter, fileName, fileSize }
  let s' : Server :=
    { s with files := Function.update s.files s.fileCount file, fileCount := s.fileCount + 1 }
  have hhost : (Peer.addFile host s.fileCount s').desk g = s'.desk g :=
    desk_modifyPeer_of_eq s' host fun peer => hfiles peer _
  exact hhost

/-- The primitive operations of the handlers leave `g`. -/
theorem desk_operations : Handler.Operations fun s t => t.desk g = s.desk g where
  refl _ := rfl
  trans h h' := h'.trans h
  createShared _ _ := rfl
  getMicroTickCount _ := rfl
  countMessage _ := rfl
  addHistoryMessage := desk_addHistoryMessage
  sendMessageAsync := desk_broadcast
  provideFileChunk f subscriberId data := by
    intro s
    obtain ⟨_, h⟩ := File.provideFileChunk_frame f subscriberId data s
    show ((File.provideFileChunk f subscriberId data).exec s).2.desk g = s.desk g
    rw [h]
    rfl

theorem desk_sendError (p : PeerRef) (coroutine : SendErrorCoroutine) (s : Server) :
    (Isolation.sendError p coroutine s).desk g = s.desk g := by
  unfold Isolation.sendError
  dsimp only
  split
  · exact desk_sendMessageAsync p _ _
  · rfl

/-- A ping round leaves `g` if pinging a peer does. -/
theorem desk_pingRound (hpinged : ∀ peer : Peer, g peer.pinged = g peer) (s : Server) :
    (Lobby.pingRound s).desk g = s.desk g := by
  have hcount : (Lobby.pingRound s).peerCount = s.peerCount :=
    congrArg Directory.peerCount (Bookkeeping.directory_pingRound s)
  refine Prod.ext hcount ?_
  funext p
  show g ((Lobby.pingRound s).peers p) = g (s.peers p)
  rw [Zombies.pingRound_eq, foldl_pingPeer_peers]
  generalize (Zombies.pinged s).count p = n
  induction n with
  | zero => rfl
  | succ n ih => rw [Function.iterate_succ_apply', hpinged, ih]

/-- A leave changes the socket of the leaver only. -/
theorem desk_onBeforeDestroyNonBlocking (config : ConfigDto) (p : PeerRef) (s : Server) :
    (Lobby.onBeforeDestroyNonBlocking config p s).desk g =
      (s.peerCount, Function.update (s.desk g).2 p (g { s.peers p with socket := none })) := by
  let ρ := (s.peers p).room
  let removed := Room.removePeerById ρ (s.peers p).peerId (Lobby.countDisconnected s)
  let lines := Room.goodbyePeer config ρ p removed
  let gone := Peer.invalidateSocket p lines
  obtain ⟨_, _, _, hremoved⟩ :=
    Room.removePeerById_frame ρ (s.peers p).peerId (Lobby.countDisconnected s)
  have hbroadcast : lines.desk id = s.desk id := by
    have hremoved' : removed.desk id = s.desk id := by
      show (Room.removePeerById ρ (s.peers p).peerId (Lobby.countDisconnected s)).desk id = _
      rw [hremoved]
      rfl
    have hleft : lines.desk id = removed.desk id :=
      (desk_broadcast ρ _ _).trans (desk_addHistoryMessage config ρ _ _)
    exact hleft.trans hremoved'
  have hcount : lines.peerCount = s.peerCount := congrArg Prod.fst hbroadcast
  have hpeers : lines.peers = s.peers := congrArg Prod.snd hbroadcast
  have hgone : gone.desk g =
      (s.peerCount, Function.update (s.desk g).2 p (g { s.peers p with socket := none })) := by
    show (lines.modifyPeer p fun peer => { peer with socket := none }).desk g = _
    have hsame : lines.desk g = s.desk g := desk_of_peers hpeers hcount
    rw [desk_modifyPeer, hsame, hpeers, hcount]
  show (if Room.isEmpty ρ gone then Lobby.deleteRoom (gone.rooms ρ).name gone else gone).desk g = _
  split
  · exact hgone
  · exact hgone

/-- A join adds a peer with its socket and default fields. -/
theorem desk_onAfterCreateNonBlocking (config : ConfigDto) (k : SocketRef)
    (roomName nickname : String) (s : Server) :
    (Lobby.onAfterCreateNonBlocking config k roomName nickname s).1 = s.peerCount ∧
      ∃ newcomer : Peer, newcomer.socket = some k ∧ newcomer.messageBuffer = [] ∧
        newcomer.pingPoingCounter = 0 ∧
        (Lobby.onAfterCreateNonBlocking config k roomName nickname s).2.desk g =
          (s.peerCount + 1, Function.update (s.desk g).2 s.peerCount (g newcomer)) := by
  let entered := Lobby.getOrCreateRoom roomName (Lobby.countConnected s)
  -- `getOrCreateRoom` may add a room and leaves the peers alone
  have hentered : entered.2.peers = s.peers ∧ entered.2.peerCount = s.peerCount := by
    obtain ⟨_, _, _, _, hframe⟩ := Lobby.getOrCreateRoom_frame roomName (Lobby.countConnected s)
    show (Lobby.getOrCreateRoom roomName (Lobby.countConnected s)).2.peers = s.peers ∧
      (Lobby.getOrCreateRoom roomName (Lobby.countConnected s)).2.peerCount = s.peerCount
    rw [hframe]
    exact ⟨rfl, rfl⟩
  let newcomer : Peer :=
    { socket := some k, room := entered.1, nickname, peerId := entered.2.peerIdCounter }
  let created := (Lobby.createPeer k entered.1 nickname entered.2).2
  have hcreated : created.desk g =
      (s.peerCount + 1, Function.update (s.desk g).2 s.peerCount (g newcomer)) := by
    refine Prod.ext (congrArg Nat.succ hentered.2) ?_
    funext q
    show g (Function.update entered.2.peers entered.2.peerCount newcomer q) =
      Function.update (s.desk g).2 s.peerCount (g newcomer) q
    rw [hentered.1, hentered.2]
    rcases eq_or_ne q s.peerCount with rfl | hne
    · rw [Function.update_self, Function.update_self]
    · rw [Function.update_of_ne hne, Function.update_of_ne hne]
      rfl
  refine ⟨hentered.2, newcomer, rfl, rfl, rfl, ?_⟩
  let p := entered.2.peerCount
  let welcomed := Room.welcomePeer config entered.1 p created
  -- welcoming broadcasts and records, neither of which touches a counter or a buffer
  have hwelcomed : welcomed.desk g = created.desk g :=
    (desk_broadcast entered.1 _ _).trans (desk_addHistoryMessage config entered.1 _ _)
  exact (desk_sendMessageAsync p _ _).trans (hwelcomed.trans hcreated)

theorem desk_read (σ : SubscriberRef) (count : Int) (s : Server) :
    ((Subscriber.read σ count).exec s).2.desk g = s.desk g := by
  obtain ⟨_, _, _, _, hread⟩ := Subscriber.read_frame σ count s
  rw [hread]
  rfl

theorem desk_destroy (σ : SubscriberRef) (s : Server) :
    (Subscriber.destroy σ s).desk g = s.desk g := by
  unfold Subscriber.destroy
  split
  · rfl
  · rfl

end Desk

end CanChat
