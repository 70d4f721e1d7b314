/-
CanChat/Conversation.lean

The server refines a transcript.

Over runs of the whole server of CanChat/Isolation.lean (handlers not
interleaved) with all rooms, messages, downloads, pings and failures, the
broadcasts of a room form one list; the history of the room is the end of that
list; and the outbox of a peer is its `CODE_INFO`, made when the list ended with
its own `CODE_PEER_JOINED`, followed by the list from there on in order and
without gaps, up to now or until the peer left or its socket was dropped.

Design.  The effect of each handler on the scene is one of four: no broadcast
(`Scene.Quiet`), one broadcast (`Scene.announce`), a join (`Scene.join`) or a
leave (`Scene.leave`).  `Held` is the invariant of runs, with `Held.step` as its
simulation step and `Held.run` for whole runs.
-/
import CanChat.Isolation
import CanChat.Submissions

namespace CanChat

open Conversation

/-! ### The scene of a server -/

def Server.scene (s : Server) : Scene where
  directory := s.directory
  nickname p := (s.peers p).nickname
  online p := (s.peers p).socket.isSome
  outbox := s.outbox

section Refinement

variable (s : Server) (ρ : RoomRef) (p : PeerRef)

/-- A step that leaves the peers leaves their part of the scene. -/
theorem scene_of_peers {s t : Server} (hpeers : t.peers = s.peers) :
    t.scene = { s.scene with directory := t.directory, outbox := t.outbox } := by
  refine Scene.ext rfl ?_ ?_ rfl
  · show (fun p => (t.peers p).nickname) = fun p => (s.peers p).nickname
    rw [hpeers]
  · show (fun p => (t.peers p).socket.isSome) = fun p => (s.peers p).socket.isSome
    rw [hpeers]

/-- `Room.members` lists exactly the members of the directory. -/
theorem mem_members (h : Indexed s.directory) :
    (∀ q, q ∈ Room.members ρ s ↔ s.directory.member ρ (s.directory.peerId q) = some q) ∧
      (Room.members ρ s).Nodup := by
  constructor
  · intro q
    refine UnorderedMap.mem_values.trans ⟨?_, fun hq => ⟨_, hq⟩⟩
    rintro ⟨id, hq⟩
    obtain ⟨-, -, rfl⟩ := h.member ρ id q hq
    exact hq
  · refine UnorderedMap.nodup_values fun id id' q hq hq' => ?_
    exact (h.member ρ id q hq).2.2.symm.trans (h.member ρ id' q hq').2.2

theorem scene_broadcast (h : Indexed s.directory) (message : Object MessageDto) :
    (Room.sendMessageAsync ρ message s).scene =
      { s.scene with
        outbox := fun q => s.outbox q ++ if s.scene.receives ρ q then [message] else [] } := by
  obtain ⟨hmem, hnodup⟩ := mem_members s ρ h
  rw [scene_of_peers (Room.sendMessageAsync_peers ρ message s), directory_broadcast]
  refine Scene.ext rfl rfl rfl (funext fun q => ?_)
  refine (Room.sendMessageAsync_outbox hnodup message q).trans ?_
  refine congrArg (s.outbox q ++ ·) (if_congr ?_ rfl rfl)
  rw [hmem, Scene.receives, Bool.and_eq_true, beq_iff_eq]
  rfl

/-- Creating a message, recording it and sending it to the room is `announce`. -/
theorem scene_announce (h : Indexed s.directory) (config : ConfigDto) {dto : MessageDto}
    (hkept : isKept dto = true) :
    (Room.sendMessageAsync ρ (s.createShared dto).1
      (Room.addHistoryMessage config ρ (s.createShared dto).1 (s.createShared dto).2)).scene =
        s.scene.announce config ρ dto := by
  let message : Object MessageDto := ⟨s.objectCount, dto⟩
  let created : Server := { s with objectCount := s.objectCount + 1 }
  have hdirectory : (Room.addHistoryMessage config ρ message created).directory =
      s.directory.createShared.addHistoryMessage config ρ message :=
    directory_addHistoryMessage created ρ config message
  have hpeers : (Room.addHistoryMessage config ρ message created).peers = s.peers :=
    Room.addHistoryMessage_peers config ρ message created
  have houtbox : (Room.addHistoryMessage config ρ message created).outbox = s.outbox := by
    unfold Room.addHistoryMessage
    split
    · rfl
    · rfl
  have hindexed : Indexed (Room.addHistoryMessage config ρ message created).directory := by
    rw [hdirectory]
    exact (h.allocates s.directory.allocates_createShared).addHistoryMessage config ρ message
  have hscene : (Room.addHistoryMessage config ρ message created).scene =
      { s.scene with
        directory := s.directory.createShared.addHistoryMessage config ρ message } := by
    rw [scene_of_peers hpeers, hdirectory, houtbox]
    rfl
  refine (scene_broadcast _ ρ hindexed message).trans ?_
  rw [hscene, houtbox]
  exact Scene.ext (if_pos hkept).symm rfl rfl rfl

/-- The same for a typing notice, which is not recorded. -/
theorem scene_announce_typing (h : Indexed s.directory) (config : ConfigDto) {dto : MessageDto}
    (hkept : isKept dto = false) :
    (Room.sendMessageAsync ρ (s.createShared dto).1 (s.createShared dto).2).scene =
      s.scene.announce config ρ dto := by
  let created : Server := { s with objectCount := s.objectCount + 1 }
  have hindexed : Indexed created.directory := h.allocates s.directory.allocates_createShared
  refine (scene_broadcast created ρ hindexed ⟨s.objectCount, dto⟩).trans ?_
  exact Scene.ext (if_neg (Bool.eq_false_iff.mp hkept)).symm rfl rfl rfl

theorem scene_sendTo (dto : MessageDto) :
    (Peer.sendMessageAsync p (s.createShared dto).1 (s.createShared dto).2).scene =
      s.scene.sendTo p dto := by
  rw [scene_of_peers (Peer.sendMessageAsync_peers p _ _), directory_sendMessageAsync]
  refine Scene.ext rfl rfl rfl ?_
  show (Peer.sendMessageAsync p _ _).outbox = Function.update s.outbox p _
  unfold Peer.sendMessageAsync
  split
  · next hsocket =>
    have honline : s.scene.online p = true := hsocket
    rw [if_pos honline]
    rfl
  · next hsocket =>
    have honline : s.scene.online p ≠ true := hsocket
    rw [if_neg honline, List.append_nil]
    exact (Function.update_eq_self p s.outbox).symm

theorem scene_createPeer (socket : SocketRef) (nickname : String) :
    (Lobby.createPeer socket ρ nickname s).2.scene = s.scene.createPeer ρ nickname := by
  let peer : Peer := { socket := some socket, room := ρ, nickname, peerId := s.peerIdCounter }
  refine Scene.ext (directory_createPeer s ρ socket nickname) ?_ ?_ rfl
  · funext q
    exact Function.apply_update (fun _ peer => Peer.nickname peer) s.peers s.peerCount peer q
  · funext q
    exact Function.apply_update (fun _ peer => (Peer.socket peer).isSome) s.peers s.peerCount peer q

theorem scene_addPeer : (Room.addPeer ρ p s).scene =
    { s.scene with directory := s.directory.addPeer ρ p } := by
  have hpeers : (Room.addPeer ρ p s).peers = s.peers := rfl
  rw [scene_of_peers hpeers, directory_addPeer]
  rfl

theorem scene_getOrCreateRoom (name : String) :
    (Lobby.getOrCreateRoom name s).2.scene = { s.scene with
      directory := (Lobby.getOrCreateRoom name s).2.directory } := by
  obtain ⟨_, _, _, _, hframe⟩ := Lobby.getOrCreateRoom_frame name s
  rw [hframe]
  rfl

theorem scene_removePeerById (peerId : Int) : (Room.removePeerById ρ peerId s).scene =
    { s.scene with directory := s.directory.removePeer ρ peerId } := by
  have houtbox : (Room.removePeerById ρ peerId s).outbox = s.outbox := by
    obtain ⟨_, _, _, h⟩ := Room.removePeerById_frame ρ peerId s
    rw [h]
  rw [scene_of_peers (Room.removePeerById_peers ρ peerId s), directory_removePeerById, houtbox]
  rfl

theorem scene_deleteRoom (name : String) : (Lobby.deleteRoom name s).scene =
    { s.scene with directory := s.directory.deleteRoom name } := by
  have hpeers : (Lobby.deleteRoom name s).peers = s.peers := rfl
  rw [scene_of_peers hpeers, directory_deleteRoom]
  rfl

theorem scene_invalidateSocket : (Peer.invalidateSocket p s).scene = s.scene.drop p := by
  refine Scene.ext (directory_invalidateSocket s p) ?_ ?_ rfl
  · funext q
    rcases eq_or_ne q p with rfl | hne
    · simp [Server.scene, Scene.drop, Peer.invalidateSocket]
    · simp [Server.scene, Scene.drop, Peer.invalidateSocket, hne]
  · funext q
    exact Function.apply_update (fun _ peer => (Peer.socket peer).isSome) s.peers p _ q

end Refinement

/-! ### Joining and leaving -/

section Lobby

variable {config : ConfigDto} {T : Transcript} {P : PeerRef → List Submission} {s : Server}

theorem getOrCreateRoom_lt (h : Indexed s.directory) (name : String) :
    (Lobby.getOrCreateRoom name s).1 < (Lobby.getOrCreateRoom name s).2.roomCount := by
  rcases hname : Lobby.getRoom name s with - | ρ
  · have hroom := directory_getOrCreateRoom s name
    rw [hname] at hroom
    obtain ⟨_, _, _, _, heq⟩ := Lobby.getOrCreateRoom_none hname
    have hcount : (Lobby.getOrCreateRoom name s).2.roomCount = s.roomCount + 1 :=
      congrArg Directory.roomCount hroom
    rw [hcount, heq]
    exact Nat.lt_succ_self _
  · rw [Lobby.getOrCreateRoom_some hname]
    exact h.lobby name ρ hname

theorem indexed_getOrCreateRoom (h : Indexed s.directory) (name : String) :
    Indexed (Lobby.getOrCreateRoom name s).2.directory := by
  have hroom := directory_getOrCreateRoom s name
  rcases hname : Lobby.getRoom name s with - | ρ
  · rw [hname] at hroom
    rw [hroom]
    exact h.createRoom name
  · rw [Lobby.getOrCreateRoom_some hname]
    exact h

theorem getOrCreateRoom_advances (h : Refines config T s.scene) (name : String) :
    Advances config T P P none s.scene (Lobby.getOrCreateRoom name s).2.scene := by
  rcases hname : Lobby.getRoom name s with - | ρ
  · have hroom := directory_getOrCreateRoom s name
    rw [hname] at hroom
    rw [scene_getOrCreateRoom, hroom]
    exact .createRoom h name
  · rw [Lobby.getOrCreateRoom_some hname]
    exact .refl h

/-- The list of peers in `onboardPeer` is that of the members. -/
theorem lists_peersSnapshot (h : Indexed s.directory) (ρ : RoomRef) :
    Lists s.scene ρ (Room.peersSnapshot ρ s) := by
  obtain ⟨hmem, -⟩ := mem_members s ρ h
  intro entry
  unfold Room.peersSnapshot
  rw [List.mem_map]
  constructor
  · rintro ⟨q, hq, rfl⟩
    exact ⟨q, (hmem q).mp hq, rfl⟩
  · rintro ⟨q, hq, rfl⟩
    exact ⟨q, (hmem q).mpr hq, rfl⟩

/-- `onAfterCreateNonBlocking` is a join, in the room found or created by name. -/
theorem scene_onAfterCreateNonBlocking (h : Indexed s.directory) (config : ConfigDto)
    (k : SocketRef)
    (roomName nickname : String) :
    let entered := Lobby.getOrCreateRoom roomName (Lobby.countConnected s)
    let joined := Lobby.onAfterCreateNonBlocking config k roomName nickname s
    ∃ peers, joined.2.scene = entered.2.scene.join config entered.1 nickname peers ∧
      joined.1 = entered.2.peerCount ∧
      (Indexed joined.2.directory → Lists joined.2.scene entered.1 peers) := by
  intro entered _
  -- the server after each call of the handler, under the name of that call
  let ρ := entered.1
  let p := entered.2.peerCount
  let created := (Lobby.createPeer k ρ nickname entered.2).2
  let welcomed := Room.welcomePeer config ρ p created
  let added := Room.addPeer ρ p welcomed
  let onboarded := Room.onboardPeer config ρ p added
  have hcounted : Indexed (Lobby.countConnected s).directory := h
  have hρ : ρ < entered.2.roomCount := getOrCreateRoom_lt hcounted roomName
  have hcreated : created.scene = entered.2.scene.createPeer ρ nickname := scene_createPeer _ _ _ _
  have hindexed : Indexed created.scene.directory := by
    rw [hcreated]
    exact (indexed_getOrCreateRoom hcounted roomName).createPeer hρ
  have hwelcomed : welcomed.scene = created.scene.announce config ρ (joined created.scene p) :=
    scene_announce created ρ hindexed config rfl
  have hadded : added.scene =
      { welcomed.scene with directory := welcomed.scene.directory.addPeer ρ p } :=
    scene_addPeer welcomed ρ p
  have honboarded : onboarded.scene =
      added.scene.sendTo p (added.scene.greeting config ρ p (Room.peersSnapshot ρ added)) :=
    scene_sendTo added p _
  refine ⟨Room.peersSnapshot ρ added, ?_, rfl, fun hindexed => ?_⟩
  · show onboarded.scene = _
    rw [honboarded, hadded, hwelcomed, hcreated]
    rfl
  · have hdirectory : onboarded.directory = added.directory.createShared :=
      congrArg Scene.directory honboarded
    have hindexed' : Indexed added.directory.createShared := hdirectory ▸ hindexed
    -- the snapshot is taken when all members, the newcomer included, are in the map
    have hlists :=
      lists_peersSnapshot (s := added) ⟨hindexed'.member, hindexed'.room, hindexed'.lobby⟩ ρ
    show Lists onboarded.scene ρ _
    rw [honboarded]
    exact hlists

theorem onAfterCreate_advances (h : Refines config T s.scene) (k : SocketRef)
    (roomName nickname : String) :
    let joined := Lobby.onAfterCreateNonBlocking config k roomName nickname s
    Advances config T P P none s.scene joined.2.scene ∧ joined.2.scene.IsMember joined.1 ∧
      s.peerCount ≤ joined.1 := by
  intro joined
  let entered := Lobby.getOrCreateRoom roomName (Lobby.countConnected s)
  have hconnected : Refines config T (Lobby.countConnected s).scene := h
  have hentered : Advances config T P P none s.scene entered.2.scene :=
    getOrCreateRoom_advances hconnected roomName
  obtain ⟨T₁, -, hrefines, -⟩ := hentered.transcript
  have hρ : entered.1 < entered.2.roomCount :=
    getOrCreateRoom_lt hconnected.realizes.indexed roomName
  obtain ⟨peers, hjoin, hnew, hlists⟩ :=
    scene_onAfterCreateNonBlocking h.realizes.indexed config k roomName nickname
  have hindexed : Indexed joined.2.directory := by
    obtain ⟨-, hrealizes⟩ := hrefines.realizes.join hρ nickname peers
    rw [← hjoin] at hrealizes
    exact hrealizes.indexed
  have hlisted := hlists hindexed
  rw [hjoin] at hlisted
  obtain ⟨-, hisMember⟩ := Advances.join (P := P) hrefines hρ nickname hlisted
  have hadvances : Advances config T P P none s.scene joined.2.scene := by
    rw [hjoin]
    exact hentered.trans fun T' hrefines => (Advances.join hrefines hρ nickname hlisted).1
  rw [← hjoin] at hisMember
  rw [hnew]
  exact ⟨hadvances, hisMember, hentered.extendsPeers.peerCount⟩

/-- `onBeforeDestroyNonBlocking` is a leave; the room is deleted if it is empty. -/
theorem scene_onBeforeDestroyNonBlocking (h : Indexed s.directory) (config : ConfigDto)
    (p : PeerRef) :
    (Lobby.onBeforeDestroyNonBlocking config p s).scene = s.scene.leave config p ∨
      ∃ name, (Lobby.onBeforeDestroyNonBlocking config p s).scene =
        { s.scene.leave config p with
          directory := (s.scene.leave config p).directory.deleteRoom name } := by
  let ρ := (s.peers p).room
  let removed := Room.removePeerById ρ (s.peers p).peerId (Lobby.countDisconnected s)
  let gone := Peer.invalidateSocket p (Room.goodbyePeer config ρ p removed)
  have hremoved : removed.scene = { s.scene with
      directory := s.directory.removePeer ρ (s.peers p).peerId } :=
    scene_removePeerById (Lobby.countDisconnected s) ρ _
  have hindexed : Indexed removed.scene.directory := by
    rw [hremoved]
    exact h.removePeer ρ _
  have hgone : gone.scene = s.scene.leave config p := by
    have hbroadcast : (Room.goodbyePeer config ρ p removed).scene =
        removed.scene.announce config ρ (left removed.scene p) :=
      scene_announce removed ρ hindexed config rfl
    rw [scene_invalidateSocket, hbroadcast, hremoved]
    rfl
  have hleft : Lobby.onBeforeDestroyNonBlocking config p s =
      if Room.isEmpty ρ gone then Lobby.deleteRoom (gone.rooms ρ).name gone else gone := rfl
  rw [hleft]
  split
  · refine .inr ⟨(gone.rooms ρ).name, ?_⟩
    rw [scene_deleteRoom, show gone.directory = gone.scene.directory from rfl, hgone]
  · exact .inl hgone

theorem onBeforeDestroy_advances (h : Refines config T s.scene) {p : PeerRef}
    (hp : s.scene.IsMember p) :
    Advances config T P P (some p) s.scene (Lobby.onBeforeDestroyNonBlocking config p s).scene := by
  have hleave : Advances config T P P (some p) s.scene (s.scene.leave config p) := .leave h hp
  rcases scene_onBeforeDestroyNonBlocking h.realizes.indexed config p with hleft | ⟨name, hleft⟩
  · rw [hleft]
    exact hleave
  · rw [hleft]
    exact hleave.trans fun T' hrefines => .deleteRoom hrefines name

end Lobby

/-! ### Steps without broadcasts -/

section Quiet

variable (s : Server) (ρ : RoomRef) (p : PeerRef)

theorem quiet_of_eq {s t : Server} (h : t.scene = s.scene) : s.scene.Quiet t.scene :=
  h ▸ .refl s.scene

/-- Modifying a peer without changing its room, id or nickname, and without giving
it a new socket. -/
theorem quiet_modifyPeer {g : Peer → Peer} (hroom : ∀ peer, (g peer).room = peer.room)
    (hid : ∀ peer, (g peer).peerId = peer.peerId)
    (hnickname : ∀ peer, (g peer).nickname = peer.nickname)
    (hsocket : ∀ peer, (g peer).socket = peer.socket) :
    s.scene.Quiet (s.modifyPeer p g).scene := by
  refine quiet_of_eq (Scene.ext (directory_modifyPeer s p hroom hid) ?_ ?_ rfl)
  · funext q
    rcases eq_or_ne q p with rfl | hne
    · simp [Server.scene, hnickname]
    · simp [Server.scene, hne]
  · funext q
    rcases eq_or_ne q p with rfl | hne
    · simp [Server.scene, hsocket]
    · simp [Server.scene, hne]

theorem quiet_pingPeer : s.scene.Quiet (Room.pingPeer s p).scene := by
  have hping : s.scene.Quiet (Peer.sendPingAsync p s).2.scene :=
    quiet_modifyPeer s p (fun _ => rfl) (fun _ => rfl) (fun _ => rfl) fun _ => rfl
  unfold Room.pingPeer
  dsimp only
  split
  · exact hping
  · refine hping.trans ?_
    show (Peer.sendPingAsync p s).2.scene.Quiet
      (Peer.invalidateSocket p (Peer.sendPingAsync p s).2).scene
    rw [scene_invalidateSocket]
    exact Scene.quiet_drop _ p

theorem quiet_pingAllPeers : s.scene.Quiet (Room.pingAllPeers ρ s).scene := by
  unfold Room.pingAllPeers
  generalize Room.members ρ s = ps
  induction ps generalizing s with
  | nil => exact .refl _
  | cons p ps ih => exact (quiet_pingPeer s p).trans (ih _)

theorem quiet_pingRound : s.scene.Quiet (Lobby.pingRound s).scene := by
  unfold Lobby.pingRound
  generalize s.lobbyRooms.values = ρs
  induction ρs generalizing s with
  | nil => exact .refl _
  | cons ρ ρs ih => exact (quiet_pingAllPeers s ρ).trans (ih _)

theorem quiet_registerFile (host : PeerRef) (clientFileId : Int) (fileName : Option String)
    (fileSize : Int) :
    s.scene.Quiet (Room.registerFile ρ host clientFileId fileName fileSize s).2.scene := by
  let file : File :=
    { host, clientFileId, serverFileId := (s.rooms ρ).fileIdCounter, fileName, fileSize }
  let s' : Server :=
    { s with files := Function.update s.files s.fileCount file, fileCount := s.fileCount + 1 }
  have hhost : s.scene.Quiet (Peer.addFile host s.fileCount s').scene :=
    quiet_modifyPeer s' host (fun _ => rfl) (fun _ => rfl) (fun _ => rfl) fun _ => rfl
  refine .of_outbox (.of_eq (directory_registerFile s ρ host clientFileId fileName fileSize)) ?_ ?_
    rfl
  · exact hhost.nickname
  · exact hhost.online

/-- `sendError` sends a direct message. -/
theorem quiet_sendError (coroutine : SendErrorCoroutine)
    (hcode : coroutine.message.code = some .codeApiError) :
    s.scene.Quiet (Isolation.sendError p coroutine s).scene := by
  have hcreated : s.scene.Quiet (s.createShared coroutine.message).2.scene :=
    .of_outbox s.directory.allocates_createShared rfl (fun _ => id) rfl
  have hdirect : isDirect coroutine.message = true := by
    unfold isDirect
    rw [hcode]
  unfold Isolation.sendError
  dsimp only
  split
  · rw [scene_sendTo]
    exact Scene.quiet_sendTo _ p hdirect
  · exact hcreated

theorem quiet_read (σ : SubscriberRef) (count : Int) :
    s.scene.Quiet ((Subscriber.read σ count).exec s).2.scene := by
  rcases hσ : s.subscribers σ with - | subscriber
  · rw [Subscriber.read_exec_none hσ]
    exact .refl _
  · rw [Subscriber.read_exec hσ]
    split
    · exact .refl _
    · next subscriber' _ =>
      show s.scene.Quiet (subscriber'.requestChunk count s).scene
      unfold Subscriber.requestChunk
      dsimp only
      split
      · rw [scene_sendTo]
        exact Scene.quiet_sendTo _ _ rfl
      · exact .refl _
    · exact quiet_of_eq rfl

theorem quiet_destroy (σ : SubscriberRef) : s.scene.Quiet (Subscriber.destroy σ s).scene := by
  unfold Subscriber.destroy
  split
  · exact .refl _
  · exact quiet_of_eq rfl

end Quiet

/-! ### Handlers -/

namespace Handler

variable {α β : Type}

/-- The handler makes no broadcast, also where it throws. -/
def Hushed (h : Handler α) : Prop := Within (fun s t => s.scene.Quiet t.scene) h

namespace Hushed

theorem bind {h : Handler α} {k : α → Handler β} (hh : Hushed h) (hk : ∀ a, Hushed (k a)) :
    Hushed (h >>= k) := by
  intro s
  rw [exec_bind]
  have hs := hh s
  rcases e : exec h s with ⟨_ | a, t⟩ <;> rw [e] at hs
  · exact hs
  · exact hs.trans (hk a t)

theorem pure (a : α) : Hushed (pure a) := fun s => .refl s.scene

theorem throw (fault : Fault) : Hushed (throw fault : Handler α) := fun s => .refl s.scene

theorem get : Hushed get := fun s => .refl s.scene

theorem deref (a : Option α) : Hushed (deref a) := by
  cases a
  · exact throw _
  · exact pure _

theorem createShared (dto : MessageDto) : Hushed (modifyGet (Server.createShared dto)) := fun s =>
  .of_outbox s.directory.allocates_createShared rfl (fun _ => id) rfl

variable (fw : Framework) (p : PeerRef)

theorem onApiError (text : String) : Hushed (Peer.onApiError p text) :=
  bind (createShared _) fun _ => bind get fun _ => pure _

theorem validateEntries (files : List (Option FileDto)) :
    Hushed (Peer.validateEntries p files) := by
  induction files with
  | nil => exact pure _
  | cons entry rest ih =>
      rcases entry with - | fileDto
      · exact onApiError p _
      · unfold Peer.validateEntries
        split
        · exact onApiError p _
        · split
          · exact onApiError p _
          · split
            · exact onApiError p _
            · exact ih

theorem validateFilesList (files : Option (List (Option FileDto))) :
    Hushed (Peer.validateFilesList p files) := by
  refine bind (deref files) fun files => ?_
  split
  · exact onApiError p _
  · exact validateEntries p files

theorem provideFileChunk (f : FileRef) (subscriberId : Int) (data : Bytes) :
    Hushed (File.provideFileChunk f subscriberId data) := by
  intro s
  obtain ⟨_, h⟩ := File.provideFileChunk_frame f subscriberId data s
  refine quiet_of_eq ?_
  rw [h]
  rfl

theorem provideChunk (serverFileId subscriberId : Int) (data : String) :
    Hushed (Peer.provideChunk fw p serverFileId subscriberId data) := by
  refine bind get fun s => ?_
  split
  · exact pure _
  · split
    · exact onApiError p _
    · split
      · exact throw _
      · exact bind (provideFileChunk _ _ _) fun _ => pure _

theorem handleFileChunkMessage (message : MessageDto) :
    Hushed (Peer.handleFileChunkMessage fw p message) := by
  unfold Peer.handleFileChunkMessage
  split
  · exact onApiError p _
  · next filesList _ =>
    split
    · exact onApiError p _
    · have hfront : Hushed (Peer.front filesList) := by
        cases filesList
        · exact throw _
        · exact pure _
      refine bind hfront fun fileDto => ?_
      split
      · exact onApiError p _
      · split
        · exact onApiError p _
        · exact onApiError p _
        · exact onApiError p _
        · exact provideChunk fw p _ _ _

end Hushed

/-- The `FileDto` in the announcement of a file. -/
def listing (file : File) : FileDto where
  serverFileId := some file.serverFileId
  name := file.fileName
  size := some file.fileSize

/-- The entries of a `CODE_PEER_MESSAGE_FILE` are registered files of `p`. -/
def Offers (s : Server) (p : PeerRef) (dto : MessageDto) : Prop :=
  dto.code = some .codePeerMessageFile → ∃ files, dto.files = some files ∧
    ∀ entry ∈ files, ∃ f < s.fileCount, (s.files f).host = p ∧ entry = some (listing (s.files f))

/-- The step from `s` to `t` makes the broadcast that renders the submission of
`p`, or none if there is no submission. -/
inductive Speaks (config : ConfigDto) (p : PeerRef) (s t : Server) : Option Submission → Prop
  | quiet (h : s.scene.Quiet t.scene) : Speaks config p s t none
  | once (sent : Submission) (u w : Server) (dto : MessageDto)
      (before : s.scene.Quiet u.scene) (renders : Renders s.scene p sent dto)
      (announced : w.scene = u.scene.announce config (s.peers p).room dto)
      (after : w.scene.Quiet t.scene) (offers : Offers t p dto) : Speaks config p s t (some sent)

theorem same_of_quiet {v w : Scene} (h : v.Quiet w) (p : PeerRef) : SamePeer v w p := by
  obtain ⟨_, -, hd⟩ := h.allocates
  exact ⟨by rw [hd], by rw [hd], congrFun h.nickname p⟩

theorem quiet_registerFiles (ρ : RoomRef) (host : PeerRef) (files : List SharedFile) (s : Server) :
    s.scene.Quiet (Room.registerFiles ρ host files s).scene := by
  unfold Room.registerFiles
  induction files generalizing s with
  | nil => exact .refl _
  | cons file files ih => exact (quiet_registerFile s ρ host _ _ _).trans (ih _)

/-- The entries of the announcement are those of the request, with the assigned
ids. -/
theorem announces_announced {files : List (Option FileDto)}
    (hall : (registrable files).length = files.length) (first : Int) :
    List.Forall₂ Peer.Announces files (announced first (registrable files)) := by
  induction files generalizing first with
  | nil => exact .nil
  | cons entry files ih =>
      rcases hentry : SharedFile.ofEntry entry with - | file
      · simp [registrable, hentry] at hall
      · simp only [registrable, hentry, List.length_cons, Nat.add_right_cancel_iff] at hall ⊢
        obtain ⟨fileDto, rfl, -, hname, hsize⟩ := SharedFile.ofEntry_eq_some.mp hentry
        refine .cons ⟨fileDto, first, rfl, ?_⟩ (ih hall (first + 1))
        rw [hname, hsize]

/-- `registerFiles` leaves the files allocated before. -/
theorem files_registerFiles (ρ : RoomRef) (host : PeerRef) (files : List SharedFile) (s : Server) :
    s.fileCount ≤ (Room.registerFiles ρ host files s).fileCount ∧
      ∀ f < s.fileCount, (Room.registerFiles ρ host files s).files f = s.files f := by
  unfold Room.registerFiles
  induction files generalizing s with
  | nil => exact ⟨le_rfl, fun _ _ => rfl⟩
  | cons file files ih =>
      let registered := (Room.registerFile ρ host file.clientFileId file.name file.size s).2
      obtain ⟨hcount, hfiles⟩ := ih registered
      refine ⟨(Nat.le_succ _).trans hcount, fun f hf => ?_⟩
      have hkept : registered.files f = s.files f := Function.update_of_ne hf.ne _ _
      exact (hfiles f (Nat.lt_succ_of_lt hf)).trans hkept

theorem files_announce (config : ConfigDto) (ρ : RoomRef) (dto : MessageDto) (s : Server) :
    let shared := s.createShared dto
    let announced := Room.sendMessageAsync ρ shared.1
      (Room.addHistoryMessage config ρ shared.1 shared.2)
    announced.fileCount = s.fileCount ∧ announced.files = s.files := by
  intro shared announced
  obtain ⟨outbox, hsent⟩ := Room.sendMessageAsync_frame ρ shared.1
    (Room.addHistoryMessage config ρ shared.1 shared.2)
  have hkept : (Room.addHistoryMessage config ρ shared.1 shared.2).fileCount = s.fileCount ∧
      (Room.addHistoryMessage config ρ shared.1 shared.2).files = s.files := by
    unfold Room.addHistoryMessage
    split
    · exact ⟨rfl, rfl⟩
    · exact ⟨rfl, rfl⟩
  have hannounced : announced = _ := hsent
  rw [hannounced]
  exact hkept

/-- The entries of the announcement are the files registered. -/
theorem offers_announced (ρ : RoomRef) (host : PeerRef) (files : List SharedFile) (s : Server) :
    let registered := Room.registerFiles ρ host files s
    ∀ entry ∈ announced (s.rooms ρ).fileIdCounter files, ∃ f < registered.fileCount,
      (registered.files f).host = host ∧ entry = some (listing (registered.files f)) := by
  induction files generalizing s with
  | nil =>
      intro _ entry hentry
      cases hentry
  | cons file files ih =>
      intro _ entry hentry
      let first := (Room.registerFile ρ host file.clientFileId file.name file.size s).2
      obtain ⟨hcount, hfiles⟩ := files_registerFiles ρ host files first
      have hnew : first.files s.fileCount =
          { host, clientFileId := file.clientFileId, serverFileId := (s.rooms ρ).fileIdCounter,
            fileName := file.name, fileSize := file.size } := Function.update_self _ _ _
      have hlt : s.fileCount < first.fileCount := Nat.lt_succ_self _
      have hcounter : (first.rooms ρ).fileIdCounter = (s.rooms ρ).fileIdCounter + 1 := by
        show (Function.update s.rooms ρ _ ρ).fileIdCounter = _
        rw [Function.update_self]
        rfl
      rcases List.mem_cons.mp hentry with rfl | hentry
      · refine ⟨s.fileCount, hlt.trans_le hcount, ?_⟩
        have hfile : (Room.registerFiles ρ host (file :: files) s).files s.fileCount = _ :=
          (hfiles s.fileCount hlt).trans hnew
        rw [hfile]
        exact ⟨rfl, rfl⟩
      · rw [← hcounter] at hentry
        exact ih first entry hentry

section Speaks

variable {config : ConfigDto} {s : Server} {p : PeerRef}

/-- A step without broadcasts may precede. -/
theorem Speaks.of_quiet {r t : Server} {sent : Option Submission} (hquiet : r.scene.Quiet s.scene)
    (h : Speaks config p s t sent) : Speaks config p r t sent := by
  have hsame := same_of_quiet hquiet p
  cases h with
  | quiet h => exact .quiet (hquiet.trans h)
  | once message u w dto before renders announced after offers =>
      have hroom : (s.peers p).room = (r.peers p).room := hsame.room
      rw [hroom] at announced
      exact .once message u w dto (hquiet.trans before)
        (renders.same ⟨hsame.room.symm, hsame.peerId.symm, hsame.nickname.symm⟩) announced after
        offers

/-- `handleFilesMessage` registers the registrable entries, and announces them if
these are all entries. -/
theorem exec_handleFilesMessage (config : ConfigDto) (hp : s.scene.IsMember p)
    {message : MessageDto}
    {files : List (Option FileDto)} (hfiles : message.files = some files) :
    ∃ u : Server, s.scene.Quiet u.scene ∧ u.rooms = s.rooms ∧
      let r := Room.registerFiles (s.peers p).room p (registrable files) u
      let shared := r.createShared
        { code := some .codePeerMessageFile
          peerId := some (s.peers p).peerId
          peerName := some (s.peers p).nickname
          timestamp := some (s.clock s.clockReads)
          files := some (announced (s.rooms (s.peers p).room).fileIdCounter (registrable files)) }
      ((Peer.handleFilesMessage config p message).exec s).2 =
        if (registrable files).length = files.length then
          Room.sendMessageAsync (s.peers p).room shared.1
            (Room.addHistoryMessage config (s.peers p).room shared.1 shared.2)
        else r := by
  obtain ⟨c, n, hvalidate⟩ := Peer.exec_validateFilesList_some p files s
  have hquiet := Hushed.validateFilesList p (some files) s
  rw [hvalidate] at hquiet
  let validated : Server := { s with objectCount := n }
  let u : Server := { validated with clockReads := s.clockReads + 1 }
  have hclock : validated.getMicroTickCount = (s.clock s.clockReads, u) := rfl
  have hpresent : u.catalogue.Present p := hp
  have hshare := Peer.exec_shareFiles hpresent files
  refine ⟨u, hquiet, rfl, ?_⟩
  simp only [Peer.handleFilesMessage, hfiles, exec_bind, hvalidate, exec_get, exec_modifyGet,
    exec_deref_some, exec_modify, exec_pure]
  rw [hclock]
  dsimp only
  rw [hshare]
  by_cases hall : (registrable files).length = files.length
  · rw [if_pos hall, if_pos hall]
  · rw [if_neg hall, if_neg hall]

theorem handleFilesMessage_speaks (hindexed : Indexed s.directory) (hp : s.scene.IsMember p)
    {sent : Submission} {message : MessageDto} (hcode : sent.message.code = some .codeFileShare)
    (hfiles : message.files = sent.message.files) (hclock : sent.clock 1 = s.clock s.clockReads) :
    Speaks config p s ((Peer.handleFilesMessage config p message).exec s).2
      (if accepts sent.message then some sent else none) := by
  have haccepts : accepts sent.message = sent.message.files.any fun files =>
      (registrable files).length == files.length := by
    unfold accepts
    rw [hcode]
  rcases hlist : sent.message.files with - | files
  · -- the handler dereferences a null pointer
    rw [hlist] at haccepts hfiles
    rw [haccepts]
    unfold Peer.handleFilesMessage Peer.validateFilesList
    rw [hfiles]
    exact .quiet (.refl _)
  obtain ⟨u, hquiet, hrooms, hexec⟩ :=
    exec_handleFilesMessage config hp (hfiles.trans hlist)
  have hregistered := hquiet.trans
    (quiet_registerFiles (s.peers p).room p (registrable files) u)
  rw [hlist, Option.any_some] at haccepts
  rw [hexec, haccepts]
  by_cases hall : (registrable files).length = files.length
  · rw [if_pos hall, if_pos (beq_iff_eq.mpr hall)]
    refine .once sent _ _ _ hregistered ?_
      (scene_announce _ _ (hindexed.allocates hregistered.allocates) config rfl)
      (.refl _) fun _ => ?_
    · unfold Renders
      rw [hcode, hclock]
      exact ⟨files, _, hlist, announces_announced hall _, rfl⟩
    · have hoffers := offers_announced (s.peers p).room p (registrable files) u
      rw [hrooms] at hoffers
      obtain ⟨hcount, hfiles⟩ := files_announce config (s.peers p).room _
        (Room.registerFiles (s.peers p).room p (registrable files) u)
      refine ⟨_, rfl, ?_⟩
      rw [hcount, hfiles]
      exact hoffers
  · rw [if_neg hall, if_neg fun h => hall (beq_iff_eq.mp h)]
    exact .quiet hregistered

theorem renders_stampMessage {sent : Submission}
    (hcode : sent.message.code = some .codePeerMessage ∨
      sent.message.code = some .codePeerIsTyping) :
    Renders s.scene p sent (Peer.stampMessage (s.peers p) (sent.clock 0) sent.message) := by
  unfold Renders
  rcases hcode with hcode | hcode
  · rw [hcode]
    rfl
  · rw [hcode]
    rfl

/-- A parsed message, from `getMicroTickCount` on. -/
theorem handleMessage_speaks (fw : Framework) (hindexed : Indexed s.directory)
    (hp : s.scene.IsMember p)
    (sent : Submission) (hclock : sent.clock 1 = s.clock s.clockReads) :
    let received := s.createShared (Peer.stampMessage (s.peers p) (sent.clock 0) sent.message)
    Speaks config p s ((Peer.handleMessage fw config p received.1).exec received.2).2
      (if accepts sent.message then some sent else none) := by
  intro received
  let dto := Peer.stampMessage (s.peers p) (sent.clock 0) sent.message
  have hcreated : s.scene.Quiet received.2.scene := Hushed.createShared dto s
  unfold Peer.handleMessage
  rw [exec_bind, exec_get]
  dsimp only
  -- `stampMessage` keeps the code, on which the handler branches
  have hcode : received.1.val.code = sent.message.code := rfl
  rw [hcode]
  unfold accepts
  rcases hmessage : sent.message.code with - | code
  · exact .quiet (hcreated.trans (Hushed.onApiError p _ _))
  cases code with
  -- a text message is recorded and broadcast
  | codePeerMessage =>
      have hdto : dto.code = some .codePeerMessage := hmessage
      have hkept : isKept dto = true := by simp [isKept, hdto]
      exact .once sent s _ dto (.refl _) (renders_stampMessage (.inl hmessage))
        (scene_announce s _ hindexed config hkept) (quiet_of_eq rfl)
        fun hfile => absurd (hdto.symm.trans hfile) (by simp)
  -- a typing notice is broadcast and not recorded
  | codePeerIsTyping =>
      have hdto : dto.code = some .codePeerIsTyping := hmessage
      have hkept : isKept dto = false := by simp [isKept, hdto]
      exact .once sent s _ dto (.refl _) (renders_stampMessage (.inr hmessage))
        (scene_announce_typing s _ hindexed config hkept) (quiet_of_eq rfl)
        fun hfile => absurd (hdto.symm.trans hfile) (by simp)
  -- one message of links, made from the files of the message received
  | codeFileShare =>
      have hspeaks : Speaks config p received.2
          ((Peer.handleFilesMessage config p dto).exec received.2).2
          (if accepts sent.message then some sent else none) :=
        handleFilesMessage_speaks (hindexed.allocates hcreated.allocates) hp hmessage rfl hclock
      unfold accepts at hspeaks
      rw [hmessage] at hspeaks
      exact .of_quiet hcreated hspeaks
  | codeFileChunkData => exact .quiet (hcreated.trans (Hushed.handleFileChunkMessage fw p _ _))
  | _ => exact .quiet (hcreated.trans (Hushed.onApiError p _ _))

/-- The message completed by the frame `data` after `buffer`, if `readMessage`
accepts it. -/
def accepted (fw : Framework) (config : ConfigDto) (buffer data : Bytes) : Option MessageDto :=
  if buffer.length + data.length > config.maxMessageSizeBytes then none
  else if data.length == 0 then (fw.readFromString buffer).join.filter accepts
  else none

/-- The clock readings not consumed yet. -/
def readings (s : Server) (n : ℕ) : Int := s.clock (s.clockReads + n)

theorem readMessage_speaks (fw : Framework) (hindexed : Indexed s.directory)
    (hp : s.scene.IsMember p)
    (data : Bytes) : Speaks config p s ((Peer.readMessage fw config p data).exec s).2
      ((accepted fw config (s.peers p).messageBuffer data).map fun message =>
        { message, clock := readings s }) := by
  have hbuffer : ∀ buffer : Peer → Bytes, s.scene.Quiet (s.modifyPeer p fun peer =>
      { peer with messageBuffer := buffer peer }).scene := fun buffer =>
    quiet_modifyPeer s p (fun _ => rfl) (fun _ => rfl) (fun _ => rfl) fun _ => rfl
  unfold Peer.readMessage accepted
  rw [exec_bind, exec_get]
  dsimp only
  split
  · exact .quiet (Hushed.onApiError p _ s)
  · split
    · rw [exec_bind, exec_modify]
      dsimp only
      have hrewound := hbuffer fun _ => []
      rcases hparsed : fw.readFromString (s.peers p).messageBuffer with - | parsed
      · exact .quiet (hrewound.trans (Hushed.onApiError p _ _))
      rcases parsed with - | message
      · -- the JSON value null
        exact .quiet hrewound
      · let rewound := s.modifyPeer p fun peer => { peer with messageBuffer := [] }
        let timed := rewound.getMicroTickCount
        have hpeer : timed.2.peers p = { s.peers p with messageBuffer := [] } :=
          Function.update_self _ _ _
        let sent : Submission := { message, clock := readings s }
        have hstamp : Peer.stampMessage (timed.2.peers p) (sent.clock 0) sent.message =
            Peer.stampMessage (s.peers p) timed.1 message := by
          rw [hpeer]
          rfl
        have htimed : timed.2.scene = rewound.scene := rfl
        have hquiet : s.scene.Quiet timed.2.scene := htimed ▸ hrewound
        have hspeaks : Speaks config p timed.2 _ _ := handleMessage_speaks fw
          (hindexed.allocates hquiet.allocates) (hp.quiet hquiet) sent rfl
        have htaken : (if accepts message then some sent else none) =
            ((some message).filter accepts).map fun message =>
              { message, clock := readings s } := by
          rw [Option.filter_some]
          split <;> rfl
        rw [hstamp, htaken] at hspeaks
        exact .of_quiet hquiet hspeaks
    · exact .quiet (hbuffer _)

end Speaks

/-- The coroutine returned by the handler sends an error message, if any. -/
def Answers (h : Handler CoroutineStarter) : Prop := ∀ s coroutine t,
  h.exec s = (.ok (some coroutine), t) → coroutine.message.code = some .codeApiError

namespace Answers

theorem bind {h : Handler α} {k : α → Handler CoroutineStarter} (hk : ∀ a, Answers (k a)) :
    Answers (h >>= k) := by
  intro s coroutine t hexec
  obtain ⟨a, u, -, hexec⟩ := exec_bind_ok hexec
  exact hk a u coroutine t hexec

theorem pure : Answers (pure none) := nofun

theorem throw (fault : Fault) : Answers (throw fault) := nofun

theorem onApiError (p : PeerRef) (text : String) : Answers (Peer.onApiError p text) := by
  intro s coroutine t hexec
  rw [Peer.exec_onApiError] at hexec
  obtain ⟨hcoroutine, -⟩ := Prod.mk.inj hexec
  rw [← Option.some.inj (Except.ok.inj hcoroutine)]

variable (fw : Framework) (config : ConfigDto) (p : PeerRef)

theorem provideChunk (serverFileId subscriberId : Int) (data : String) :
    Answers (Peer.provideChunk fw p serverFileId subscriberId data) := by
  refine bind fun s => ?_
  split
  · exact pure
  · split
    · exact onApiError p _
    · split
      · exact throw _
      · exact bind fun _ => pure

theorem handleFileChunkMessage (message : MessageDto) :
    Answers (Peer.handleFileChunkMessage fw p message) := by
  unfold Peer.handleFileChunkMessage
  split
  · exact onApiError p _
  · split
    · exact onApiError p _
    · refine bind fun fileDto => ?_
      split
      · exact onApiError p _
      · split
        · exact onApiError p _
        · exact onApiError p _
        · exact onApiError p _
        · exact provideChunk fw p _ _ _

theorem handleFilesMessage (message : MessageDto) :
    Answers (Peer.handleFilesMessage config p message) := by
  refine bind fun _ => bind fun s => bind fun timestamp => bind fun files => bind fun shared => ?_
  exact bind fun fileMessage => bind fun _ => bind fun _ => pure

theorem handleMessage (message : Object MessageDto) :
    Answers (Peer.handleMessage fw config p message) := by
  refine bind fun s => ?_
  dsimp only
  split
  · exact onApiError p _
  · exact bind fun _ => bind fun _ => bind fun _ => pure
  · exact bind fun _ => pure
  · exact handleFilesMessage config p _
  · exact handleFileChunkMessage fw p _
  · exact onApiError p _

theorem readMessage (data : Bytes) : Answers (Peer.readMessage fw config p data) := by
  refine bind fun s => ?_
  dsimp only
  split
  · exact onApiError p _
  · split
    · refine bind fun _ => ?_
      split
      · exact onApiError p _
      · exact bind fun message => bind fun timestamp => bind fun message =>
          handleMessage fw config p message
    · exact bind fun _ => pure

end Answers

end Handler

/-! ### Runs -/

namespace Conversation

open Isolation

variable (fw : Framework) (config : ConfigDto) {requests : Requests} {T : Transcript}
  {P P' : PeerRef → List Submission}

/-- The peer of an open connection. -/
def connected : Link → Option PeerRef
  | .live p | .failed p => some p
  | _ => none

/-- A connection that ends had the peer or subscriber `ref`. -/
theorem connected_of_ending {link : Link} {ref : ℕ} (h : link = .live ref ∨ link = .failed ref) :
    connected link = some ref := by
  rcases h with rfl | rfl
  · rfl
  · rfl

theorem Advances.speaks {s t : Server} (h : Refines config T s.scene) {p : PeerRef}
    (hp : s.scene.IsMember p) {sent : Option Submission}
    (hspeaks : Handler.Speaks config p s t sent) :
    Advances config T P (sent.elim P fun sent => submit p sent P) none s.scene t.scene := by
  cases hspeaks with
  | quiet hquiet => exact .of_quiet h hquiet
  | once sent u w dto before renders announced after _ =>
      have hbefore : Advances config T P P none s.scene u.scene := .of_quiet h before
      have hsame := Handler.same_of_quiet before p
      refine hbefore.trans fun T₁ hrefines => ?_
      have hisMember : u.scene.IsMember p := hbefore.isMember p nofun hp
      have hpost : Advances config T₁ P (submit p sent P) none u.scene _ :=
        Advances.post hrefines hisMember hsame.room (renders.same hsame)
      have hroom : s.scene.directory.peerRoom p = (s.peers p).room := rfl
      rw [hroom, ← announced] at hpost
      exact hpost.trans fun T₂ hrefines => .of_quiet hrefines after

/-- The submissions after an event of a socket. -/
def submitted (P : PeerRef → List Submission) (link : Link) (s : Server) :
    SocketEvent → PeerRef → List Submission
  | .receive data =>
      match link with
      | .live p => (Handler.accepted fw config (s.peers p).messageBuffer data).elim P fun message =>
          submit p { message, clock := Handler.readings s } P
      | _ => P
  | _ => P

/-- The simulation step for an event of a socket.  Only the peer of the socket may
lose its membership, and then the connection is closed. -/
structure Follows (config : ConfigDto) (T : Transcript) (P P' : PeerRef → List Submission)
    (s : Server) (link : Link) (result : Link × Server) : Prop where
  advances : ∃ leaver, (leaver = none ∨ leaver = connected link ∧ connected result.1 = none) ∧
    Advances config T P P' leaver s.scene result.2.scene
  link : ∀ p, connected result.1 = some p →
    result.2.scene.IsMember p ∧ (connected link = some p ∨ s.peerCount ≤ p)

theorem Follows.of_advances {s t : Server} (h : Advances config T P P' none s.scene t.scene)
    {p : PeerRef} (hp : s.scene.IsMember p) {link link' : Link} (hlink : connected link = some p)
    (hlink' : connected link' = some p) : Follows config T P P' s link (link', t) := by
  refine ⟨⟨none, .inl rfl, h⟩, fun q hq => ?_⟩
  obtain rfl := Option.some.inj (hlink'.symm.trans hq)
  exact ⟨h.isMember p nofun hp, .inl hlink⟩

theorem receive_follows {s : Server} (h : Refines config T s.scene) {k : SocketRef} {p : PeerRef}
    (hp : s.scene.IsMember p) (data : Bytes) {result : Link × Server}
    (hstep : socketStep fw config requests k (.receive data) (.live p) s = some result) :
    Follows config T P (submitted fw config P (.live p) s (.receive data)) s (.live p) result := by
  have hspeaks : Handler.Speaks config p s _ _ :=
    Handler.readMessage_speaks fw h.realizes.indexed hp data
  have hanswers := Handler.Answers.readMessage fw config p data s
  have hadvances :
      Advances config T P (submitted fw config P (.live p) s (.receive data)) none s.scene
        ((Peer.readMessage fw config p data).exec s).2.scene := by
    have hspoken := Advances.speaks config (P := P) h hp hspeaks
    rwa [Option.elim_map] at hspoken
  unfold socketStep at hstep
  dsimp only at hstep
  rcases hexec : (Peer.readMessage fw config p data).exec s with ⟨outcome, t⟩
  rw [hexec] at hstep hadvances hanswers
  rcases outcome with fault | starter
  · obtain rfl := Option.some.inj hstep
    exact .of_advances config hadvances hp rfl rfl
  · rcases starter with - | coroutine
    · obtain rfl := Option.some.inj hstep
      exact .of_advances config hadvances hp rfl rfl
    · obtain rfl := Option.some.inj hstep
      have hsent := hadvances.trans fun T' hrefines => Advances.of_quiet hrefines
        (quiet_sendError t p coroutine (hanswers coroutine t rfl))
      exact .of_advances config hsent hp rfl rfl

theorem socketStep_follows {s : Server} (h : Refines config T s.scene) {k : SocketRef} {link : Link}
    (hlink : ∀ p, connected link = some p → s.scene.IsMember p) {event : SocketEvent}
    {result : Link × Server}
    (hstep : socketStep fw config requests k event link s = some result) :
    Follows config T P (submitted fw config P link s event) s link result := by
  cases event with
  | join =>
      cases link with
      | idle =>
          obtain ⟨hadvances, hisMember, hnew⟩ :=
            onAfterCreate_advances h k (requests.roomName k) (requests.nickname k)
          obtain rfl := Option.some.inj hstep
          refine ⟨⟨none, .inl rfl, hadvances⟩, fun q hq => ?_⟩
          obtain rfl := Option.some.inj hq
          exact ⟨hisMember, .inr hnew⟩
      | _ => cases hstep
  | receive data =>
      cases link with
      | live p => exact receive_follows fw config h (hlink p rfl) data hstep
      | _ => cases hstep
  | pong =>
      cases link with
      | live p =>
          obtain rfl := Option.some.inj hstep
          have hquiet : s.scene.Quiet (Peer.onPong p s).scene :=
            quiet_modifyPeer s p (fun _ => rfl) (fun _ => rfl) (fun _ => rfl) fun _ => rfl
          exact .of_advances config (.of_quiet h hquiet) (hlink p rfl) rfl rfl
      | _ => cases hstep
  | leave =>
      cases link with
      | live p =>
          obtain rfl := Option.some.inj hstep
          exact ⟨⟨some p, .inr ⟨rfl, rfl⟩, onBeforeDestroy_advances h (hlink p rfl)⟩, nofun⟩
      | failed p =>
          obtain rfl := Option.some.inj hstep
          exact ⟨⟨some p, .inr ⟨rfl, rfl⟩, onBeforeDestroy_advances h (hlink p rfl)⟩, nofun⟩
      | _ => cases hstep

/-- An event of a download makes no broadcast. -/
theorem downloadStep_quiet {s : Server} {i : ℕ} {event : DownloadEvent} {link : Link}
    {result : Link × Server} (hstep : downloadStep requests i event link s = some result) :
    s.scene.Quiet result.2.scene := by
  cases event with
  | getFile =>
      cases link with
      | idle =>
          -- a request that finds its file makes a subscriber and nothing else
          unfold downloadStep at hstep
          dsimp only at hstep
          split at hstep
          · obtain rfl := Option.some.inj hstep
            exact .refl _
          · split at hstep
            · obtain rfl := Option.some.inj hstep
              exact .refl _
            · obtain rfl := Option.some.inj hstep
              exact quiet_of_eq rfl
      | _ => cases hstep
  | read count =>
      cases link with
      | live σ =>
          have hread := quiet_read s σ count
          unfold downloadStep at hstep
          dsimp only at hstep
          -- whether `read` returns bytes or throws, it has not touched the scene
          rcases hexec : (Subscriber.read σ count).exec s with ⟨outcome, t⟩
          rw [hexec] at hstep hread
          rcases outcome with fault | bytes
          · obtain rfl := Option.some.inj hstep
            exact hread
          · obtain rfl := Option.some.inj hstep
            exact hread
      | _ => cases hstep
  | drop =>
      cases link with
      | live σ =>
          obtain rfl := Option.some.inj hstep
          exact quiet_destroy s σ
      | failed σ =>
          obtain rfl := Option.some.inj hstep
          exact quiet_destroy s σ
      | _ => cases hstep

/-- The invariant of runs: the server refines the transcript, and open connections
have distinct members. -/
structure Held (config : ConfigDto) (T : Transcript) (s : State) : Prop where
  refines : Refines config T s.server.scene
  link : ∀ k p, connected (s.socket k) = some p → s.server.scene.IsMember p
  apart : ∀ j k p, connected (s.socket j) = some p → connected (s.socket k) = some p → j = k

/-- A simulation step that leaves all connections. -/
theorem Held.of_advances {s t : State} (h : Held config T s) (hsocket : t.socket = s.socket)
    (hadvances : Advances config T P P none s.server.scene t.server.scene) :
    ∃ T', T.Continues s.server.peerCount T' ∧ s.server.scene.ExtendsPeers t.server.scene ∧
      Held config T' t ∧ (PostsMatch P T s.server.scene → PostsMatch P T' t.server.scene) := by
  obtain ⟨⟨T', hcontinues, hrefines, hpostsMatch⟩, hextends, hisMember⟩ := hadvances
  refine ⟨T', hcontinues, hextends, ⟨hrefines, fun k p hp => ?_, ?_⟩, hpostsMatch⟩
  · rw [hsocket] at hp
    exact hisMember p nofun (h.link k p hp)
  · rw [hsocket]
    exact h.apart

/-- The submissions after the occurrence `a` in the state `s`. -/
def postsAfter (P : PeerRef → List Submission) (s : State) (a : Occurrence) :
    PeerRef → List Submission :=
  match a.event with
  | .socket k event => submitted fw config P (s.socket k) (setClock a.clock s.server) event
  | _ => P

/-- One step of the server is simulated by the transcript. -/
theorem Held.step {s t : State} {a : Occurrence} (h : Held config T s)
    (hstep : s.step fw config requests a = some t) :
    ∃ T', T.Continues s.server.peerCount T' ∧ s.server.scene.ExtendsPeers t.server.scene ∧
      Held config T' t ∧ (PostsMatch P T s.server.scene →
        PostsMatch (postsAfter fw config P s a) T' t.server.scene) := by
  obtain ⟨event, clock⟩ := a
  have hclock : Refines config T (setClock clock s.server).scene := h.refines
  unfold State.step at hstep
  dsimp only at hstep
  cases event with
  | socket k event =>
      obtain ⟨⟨link, server⟩, hsocket, rfl⟩ := Option.map_eq_some_iff.mp hstep
      obtain ⟨⟨leaver, hleaver, ⟨T', hcontinues, hrefines, hpostsMatch⟩, hextends, hisMember⟩,
          hlink⟩ :=
        socketStep_follows fw config (P := P) hclock (h.link k) hsocket
      have hnew : ∀ j p, connected (Function.update s.socket k link j) = some p → j ≠ k →
          connected (s.socket j) = some p := by
        intro j p hp hne
        rwa [Function.update_of_ne hne] at hp
      -- the peer of another connection is not the one that `k` has afterwards
      have hother : ∀ j p, j ≠ k → connected (s.socket j) = some p →
          connected (Function.update s.socket k link k) ≠ some p := by
        intro j p hne hj hk
        rw [Function.update_self] at hk
        rcases (hlink p hk).2 with hold | hfresh
        · exact hne (h.apart j k p hj hold)
        · exact absurd (h.refines.lt_of_isMember (h.link j p hj)) (not_lt.mpr hfresh)
      have hpostsMatch' : PostsMatch P T s.server.scene →
          PostsMatch (submitted fw config P (s.socket k) (setClock clock s.server) event) T'
            server.scene :=
        hpostsMatch
      refine ⟨T', hcontinues, hextends, ⟨hrefines, fun j p hp => ?_,
        fun i j p hi hj => ?_⟩, hpostsMatch'⟩
      · change connected (Function.update s.socket k link j) = some p at hp
        rcases eq_or_ne j k with rfl | hne
        · rw [Function.update_self] at hp
          exact (hlink p hp).1
        · have hold := hnew j p hp hne
          refine hisMember p (fun hp' => ?_) (h.link j p hold)
          rcases hleaver with rfl | ⟨rfl, -⟩
          · cases hp'
          · exact hne (h.apart j k p hold hp')
      · change connected (Function.update s.socket k link i) = some p at hi
        change connected (Function.update s.socket k link j) = some p at hj
        rcases eq_or_ne i k with rfl | hik
        · rcases eq_or_ne j i with rfl | hji
          · rfl
          · exact absurd hi (hother j p hji (hnew j p hj hji))
        · rcases eq_or_ne j k with rfl | hjk
          · exact absurd hj (hother i p hik (hnew i p hi hik))
          · exact h.apart i j p (hnew i p hi hik) (hnew j p hj hjk)
  | download i event =>
      obtain ⟨⟨link, server⟩, hdownload, rfl⟩ := Option.map_eq_some_iff.mp hstep
      exact h.of_advances config rfl (.of_quiet hclock (downloadStep_quiet hdownload))
  | pingRound =>
      obtain rfl := Option.some.inj hstep
      exact h.of_advances config rfl (.of_quiet hclock (quiet_pingRound (setClock clock s.server)))

theorem Held.run {s t : State} {acts : List Occurrence} (h : Held config T s)
    (hrun : (system fw config requests).run s acts = some t) :
    ∃ T', T.Continues s.server.peerCount T' ∧ s.server.peerCount ≤ t.server.peerCount ∧
      Held config T' t := by
  induction acts generalizing s T with
  | nil =>
      cases hrun
      exact ⟨T, .refl _ T, le_rfl, h⟩
  | cons a acts ih =>
      obtain ⟨u, hstep, hrest⟩ := Option.bind_eq_some_iff.mp hrun
      obtain ⟨T₁, hfirst, hextends, hheld, -⟩ := h.step fw config (P := fun _ => []) hstep
      have hcount : s.server.peerCount ≤ u.server.peerCount := hextends.peerCount
      obtain ⟨T₂, hsecond, hcount', hheld'⟩ := ih hheld hrest
      exact ⟨T₂, hfirst.trans hsecond hcount, hcount.trans hcount', hheld'⟩

/-- The initial state refines the empty transcript. -/
theorem Held.init : Held config {} ({} : State) := by
  have hnobody : (default : Room).peerById = ∅ := rfl
  have hnone : ∀ p : PeerRef, ¬ p < ({} : Server).peerCount := Nat.not_lt_zero
  refine ⟨⟨?_, ?_, fun p hp => absurd hp (hnone p), fun _ => .nil⟩, fun k p h => ?_,
    fun j k p h => ?_⟩
  · exact
      { indexed := ⟨fun _ _ _ h => absurd h (by simp [Server.scene, Server.directory,
          Room.getPeerById, hnobody]), fun p hp => absurd hp (hnone p), fun _ _ h => by cases h⟩
        history := fun _ => (kept_nil config).symm
        lines := fun _ _ h => absurd h List.not_mem_nil
        inOrder := fun _ => .nil
        silent := fun _ _ => rfl
        peers_le := le_rfl
        sentSegment := fun p hp => absurd hp (hnone p)
        fresh := fun _ _ => rfl
        offline := fun _ _ => rfl }
  · exact ⟨fun p hp => absurd hp (hnone p), fun p _ hp => absurd hp (hnone p), fun _ => .nil,
      fun p hp => absurd hp (hnone p), fun p hp => absurd hp (hnone p)⟩
  · cases h
  · cases h

/-- **The server refines a transcript.**  Handlers not interleaved.  At any two
moments of a run there is for each room a list of broadcasts, which only grows,
such that its history is the end of the list, and every peer has been sent its
`CODE_INFO`, with the history at its join, followed by the list from there on in
order and without gaps: all of it, if it is still a member with an open socket.
The notices in the list are those of the joins and leaves, all other messages
identify a peer of the room, and a peer is a member iff it joined and did not
leave. -/
theorem conversation {acts more : List Occurrence} {s t : State}
    (hs : (system fw config requests).run {} acts = some s)
    (ht : (system fw config requests).run s more = some t) :
    ∃ T T' : Transcript, T.Continues s.server.peerCount T' ∧ Refines config T s.server.scene ∧
      Refines config T' t.server.scene := by
  obtain ⟨T, -, -, hheld⟩ := (Held.init config).run fw config hs
  obtain ⟨T', hcontinues, -, hheld'⟩ := hheld.run fw config ht
  exact ⟨T, T', hcontinues, hheld.refines, hheld'.refines⟩

/-- Both have joined and Bob has posted; then Ann posts, and Bob leaves. -/
theorem conversation_twoPosts :
    ∃ s t, (system chatter {} twoRooms).run {} (twoPosts.take 4) = some s ∧
      (system chatter {} twoRooms).run s (twoPosts.drop 4) = some t ∧
      ∃ T T' : Transcript, T.Continues s.server.peerCount T' ∧ Refines {} T s.server.scene ∧
        Refines {} T' t.server.scene := by
  have hruns : (((system chatter {} twoRooms).run {} (twoPosts.take 4)).bind fun s =>
      (system chatter {} twoRooms).run s (twoPosts.drop 4)).isSome = true := by decide +kernel
  obtain ⟨t, hrun⟩ := Option.isSome_iff_exists.mp hruns
  obtain ⟨s, hs, ht⟩ := Option.bind_eq_some_iff.mp hrun
  exact ⟨s, t, hs, ht, conversation chatter {} hs ht⟩

end Conversation

end CanChat
