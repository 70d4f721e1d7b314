/-
CanChat/Directory.lean

The directory of the lobby: which room is registered under a name, who is a
member of a room, and what its history is.

Design.  As `Registry` does for the files of one room, `Directory` is the part
of the server's state that the results about joining, leaving and posting are
about, with one operation for every change the lobby and its rooms make to it,
and `Server.directory` reads it off the server.  What a function does to the
directory is stated as an equation; pings, files, chunks and sockets leave it
alone.
-/
import CanChat.Registry
import CanChat.Handlers
import Mathlib.Data.List.TakeDrop

namespace CanChat

/-- What joining, leaving and posting read and write of the server. -/
@[ext] structure Directory where
  /-- `Lobby::m_rooms`, as a lookup. -/
  lobby : String → Option RoomRef
  roomName : RoomRef → String
  /-- `Room::m_peerById`, as a lookup. -/
  member : RoomRef → Int → Option PeerRef
  history : RoomRef → List (Object MessageDto)
  peerRoom : PeerRef → RoomRef
  peerId : PeerRef → Int
  roomCount : ℕ
  peerCount : ℕ
  objectCount : ℕ
  peerIdCounter : Int

def Server.directory (s : Server) : Directory where
  lobby name := Lobby.getRoom name s
  roomName ρ := (s.rooms ρ).name
  member ρ id := Room.getPeerById ρ id s
  history ρ := (s.rooms ρ).history
  peerRoom p := (s.peers p).room
  peerId p := (s.peers p).peerId
  roomCount := s.roomCount
  peerCount := s.peerCount
  objectCount := s.objectCount
  peerIdCounter := s.peerIdCounter

namespace Directory

/-! ### Operations -/

/-- A room is created and registered under a name. -/
@[simps] def createRoom (name : String) (d : Directory) : Directory :=
  { d with
    lobby := fun n => if n = name then some d.roomCount else d.lobby n
    roomName := Function.update d.roomName d.roomCount name
    member := Function.update d.member d.roomCount fun _ => none
    history := Function.update d.history d.roomCount []
    roomCount := d.roomCount + 1 }

/-- A name is no longer registered; the room stays where it is. -/
@[simps] def deleteRoom (name : String) (d : Directory) : Directory :=
  { d with lobby := fun n => if n = name then none else d.lobby n }

/-- A peer is created for a room, under the next id; it is no member yet. -/
@[simps] def createPeer (ρ : RoomRef) (d : Directory) : Directory :=
  { d with
    peerRoom := Function.update d.peerRoom d.peerCount ρ
    peerId := Function.update d.peerId d.peerCount d.peerIdCounter
    peerCount := d.peerCount + 1
    peerIdCounter := d.peerIdCounter + 1 }

/-- A peer becomes a member under its own id. -/
@[simps] def addPeer (ρ : RoomRef) (p : PeerRef) (d : Directory) : Directory :=
  { d with
    member := Function.update d.member ρ fun id =>
      if id = d.peerId p then some p else d.member ρ id }

/-- Nobody is a member under that id any more. -/
@[simps] def removePeer (ρ : RoomRef) (peerId : Int) (d : Directory) : Directory :=
  { d with
    member := Function.update d.member ρ fun id => if id = peerId then none else d.member ρ id }

/-- A message is allocated. -/
@[simps] def createShared (d : Directory) : Directory :=
  { d with objectCount := d.objectCount + 1 }

/-- `Room::addHistoryMessage`: the oldest messages give way to the new one. -/
@[simps] def addHistoryMessage (config : ConfigDto) (ρ : RoomRef) (message : Object MessageDto)
    (d : Directory) : Directory :=
  { d with
    history := if Room.historyDisabled config then d.history else
      Function.update d.history ρ
        (Room.popFront (config.maxRoomHistoryMessages.getD 0) (d.history ρ ++ [message])) }

/-- `Room::getHistory`, which is null where the history is disabled. -/
def getHistory (config : ConfigDto) (ρ : RoomRef) (d : Directory) :
    Option (List (Option (Object MessageDto))) :=
  if Room.historyDisabled config then none else some ((d.history ρ).map some)

/-- Only messages are allocated on the way from `d` to `d'`. -/
def Allocates (d d' : Directory) : Prop :=
  ∃ n, d.objectCount ≤ n ∧ d' = { d with objectCount := n }

theorem Allocates.refl (d : Directory) : d.Allocates d := ⟨d.objectCount, le_rfl, rfl⟩

theorem Allocates.of_eq {d d' : Directory} (h : d' = d) : d.Allocates d' := h ▸ .refl d

theorem Allocates.trans {d d' d'' : Directory} (h : d.Allocates d') (h' : d'.Allocates d'') :
    d.Allocates d'' := by
  obtain ⟨n, hn, rfl⟩ := h
  obtain ⟨n', hn', rfl⟩ := h'
  exact ⟨n', hn.trans hn', rfl⟩

theorem allocates_createShared (d : Directory) : d.Allocates d.createShared :=
  ⟨d.objectCount + 1, Nat.le_succ _, rfl⟩

end Directory

/-! ### The server's functions on the directory -/

section Refinement

variable (s : Server) (ρ : RoomRef) (p : PeerRef)

/-- A peer's room and id never change. -/
theorem directory_modifyPeer {g : Peer → Peer} (hroom : ∀ peer, (g peer).room = peer.room)
    (hid : ∀ peer, (g peer).peerId = peer.peerId) :
    (s.modifyPeer p g).directory = s.directory := by
  have hp : ∀ q, ((s.modifyPeer p g).peers q).room = (s.peers q).room ∧
      ((s.modifyPeer p g).peers q).peerId = (s.peers q).peerId := by
    intro q
    rcases eq_or_ne q p with rfl | hne
    · simp [hroom, hid]
    · simp [hne]
  simp only [Server.directory, hp]
  rfl

/-- The files of a room are no part of the directory. -/
theorem directory_modifyRoom {g : Room → Room} (hname : ∀ room, (g room).name = room.name)
    (hpeers : ∀ room, (g room).peerById = room.peerById)
    (hhistory : ∀ room, (g room).history = room.history) :
    (s.modifyRoom ρ g).directory = s.directory := by
  have hr : ∀ ρ', ((s.modifyRoom ρ g).rooms ρ').name = (s.rooms ρ').name ∧
      ((s.modifyRoom ρ g).rooms ρ').peerById = (s.rooms ρ').peerById ∧
      ((s.modifyRoom ρ g).rooms ρ').history = (s.rooms ρ').history := by
    intro ρ'
    rcases eq_or_ne ρ' ρ with rfl | hne
    · simp [hname, hpeers, hhistory]
    · simp [hne]
  simp only [Server.directory, Room.getPeerById, hr]
  rfl

/-- A room is created exactly when the name is not registered. -/
theorem directory_getOrCreateRoom (name : String) :
    (Lobby.getOrCreateRoom name s).2.directory =
      match Lobby.getRoom name s with
      | some _ => s.directory
      | none => s.directory.createRoom name := by
  unfold Lobby.getOrCreateRoom Lobby.getRoom
  rcases hname : s.lobbyRooms.lookup name with - | ρ
  · have hlobby : ∀ n, (s.lobbyRooms.insert name s.roomCount).lookup n =
        (s.directory.createRoom name).lobby n := by
      intro n
      rw [UnorderedMap.lookup_insert]
      rfl
    have hname : ∀ ρ, (Function.update s.rooms s.roomCount { name } ρ).name =
        (s.directory.createRoom name).roomName ρ := by
      intro ρ
      exact Function.apply_update (fun _ room => Room.name room) s.rooms s.roomCount { name } ρ
    have hmember : ∀ ρ, (Function.update s.rooms s.roomCount { name } ρ).peerById.lookup =
        (s.directory.createRoom name).member ρ := by
      intro ρ
      rcases eq_or_ne ρ s.roomCount with rfl | hne
      · funext id
        simp [Server.directory]
      · funext id
        simp [Server.directory, Room.getPeerById, hne]
    have hhistory : ∀ ρ, (Function.update s.rooms s.roomCount { name } ρ).history =
        (s.directory.createRoom name).history ρ := by
      intro ρ
      exact Function.apply_update (fun _ room => Room.history room) s.rooms s.roomCount { name } ρ
    simp only [Server.directory, Lobby.getRoom, Room.getPeerById, Server.modifyStatistics, hlobby,
      hname, hmember, hhistory]
    rfl
  · rfl

theorem directory_deleteRoom (name : String) :
    (Lobby.deleteRoom name s).directory = s.directory.deleteRoom name := by
  simp only [Server.directory, Lobby.getRoom, Lobby.deleteRoom, UnorderedMap.lookup_erase]
  rfl

/-- The socket and the nickname of the new peer are no part of the directory. -/
theorem directory_createPeer (socket : SocketRef) (nickname : String) :
    (Lobby.createPeer socket ρ nickname s).2.directory = s.directory.createPeer ρ := by
  let peer : Peer := { socket := some socket, room := ρ, nickname, peerId := s.peerIdCounter }
  refine Directory.ext rfl rfl rfl rfl ?_ ?_ rfl rfl rfl rfl
  · funext q
    exact Function.apply_update (fun _ peer => Peer.room peer) s.peers s.peerCount peer q
  · funext q
    exact Function.apply_update (fun _ peer => Peer.peerId peer) s.peers s.peerCount peer q

/-- The members of one room change. -/
theorem directory_modifyRoom_peerById {g : Room → Room} (hname : ∀ room, (g room).name = room.name)
    (hhistory : ∀ room, (g room).history = room.history) :
    (s.modifyRoom ρ g).directory =
      { s.directory with
        member := Function.update s.directory.member ρ (g (s.rooms ρ)).peerById.lookup } := by
  refine Directory.ext rfl ?_ ?_ ?_ rfl rfl rfl rfl rfl rfl
  · funext ρ'
    rcases eq_or_ne ρ' ρ with rfl | hne
    · simp [Server.directory, hname]
    · simp [Server.directory, hne]
  · funext ρ' id
    rcases eq_or_ne ρ' ρ with rfl | hne
    · simp [Server.directory, Room.getPeerById]
    · simp [Server.directory, Room.getPeerById, hne]
  · funext ρ'
    rcases eq_or_ne ρ' ρ with rfl | hne
    · simp [Server.directory, hhistory]
    · simp [Server.directory, hne]

/-- A peer enters the map of its room under its own id. -/
theorem directory_addPeer : (Room.addPeer ρ p s).directory = s.directory.addPeer ρ p := by
  refine (directory_modifyRoom_peerById s ρ ?_ ?_).trans ?_
  · exact fun room => rfl
  · exact fun room => rfl
  · have hlookup : ((s.rooms ρ).peerById.insert (s.peers p).peerId p).lookup =
        fun id => if id = (s.peers p).peerId then some p else (s.rooms ρ).peerById.lookup id := by
      funext id
      exact UnorderedMap.lookup_insert _ _ _ _
    rw [hlookup]
    rfl

/-- The second half of `Room::removePeerById`. -/
theorem directory_erasePeer (peerId : Int) :
    (Room.erasePeer ρ peerId s).directory = s.directory.removePeer ρ peerId := by
  refine (directory_modifyRoom_peerById s ρ ?_ ?_).trans ?_
  · exact fun room => rfl
  · exact fun room => rfl
  · have hlookup : ((s.rooms ρ).peerById.erase peerId).lookup =
        fun id => if id = peerId then none else (s.rooms ρ).peerById.lookup id := by
      funext id
      exact UnorderedMap.lookup_erase _ _ _
    rw [hlookup]
    rfl

/-- Cancelling a file leaves the directory alone. -/
theorem directory_cancelFile (f : FileRef) :
    (Room.cancelFile ρ s f).directory = s.directory := by
  unfold Room.cancelFile Room.eraseFile
  rw [File.clearSubscribers_eq]
  -- what is left is the erasure of the file's own entry
  exact directory_modifyRoom _ _ (fun _ => rfl) (fun _ => rfl) (fun _ => rfl)

/-- Only the entry of the id is erased; cancelled files are no part of the
directory. -/
theorem directory_removePeerById (peerId : Int) :
    (Room.removePeerById ρ peerId s).directory = s.directory.removePeer ρ peerId := by
  have hloop : ∀ (fs : List FileRef) (s : Server),
      (fs.foldl (Room.cancelFile ρ) s).directory = s.directory := by
    intro fs
    induction fs with
    | nil => exact fun s => rfl
    | cons f fs ih => exact fun s => (ih _).trans (directory_cancelFile s ρ f)
  unfold Room.removePeerById
  split
  · next hnone =>
    -- there was nobody to erase
    refine Directory.ext rfl rfl ?_ rfl rfl rfl rfl rfl rfl rfl
    funext ρ' id
    rcases eq_or_ne ρ' ρ with rfl | hne
    · simp only [Directory.removePeer_member, Function.update_self]
      split
      · next hid => rw [hid]; exact hnone
      · rfl
    · simp [hne]
  -- the loop over the files first, then the entry of the peer
  · rw [directory_erasePeer, hloop]

/-- The history of one room changes. -/
theorem directory_modifyRoom_history {g : Room → Room} (hname : ∀ room, (g room).name = room.name)
    (hpeers : ∀ room, (g room).peerById = room.peerById) :
    (s.modifyRoom ρ g).directory =
      { s.directory with
        history := Function.update s.directory.history ρ (g (s.rooms ρ)).history } := by
  refine Directory.ext rfl ?_ ?_ ?_ rfl rfl rfl rfl rfl rfl
  · funext ρ'
    rcases eq_or_ne ρ' ρ with rfl | hne
    · simp [Server.directory, hname]
    · simp [Server.directory, hne]
  · funext ρ' id
    rcases eq_or_ne ρ' ρ with rfl | hne
    · simp [Server.directory, Room.getPeerById, hpeers]
    · simp [Server.directory, Room.getPeerById, hne]
  · funext ρ'
    exact Function.apply_update (fun _ room => Room.history room) s.rooms ρ _ ρ'

/-- Recording a message is the operation of that name, disabled or not. -/
theorem directory_addHistoryMessage (config : ConfigDto) (message : Object MessageDto) :
    (Room.addHistoryMessage config ρ message s).directory =
      s.directory.addHistoryMessage config ρ message := by
  unfold Room.addHistoryMessage Directory.addHistoryMessage
  split
  · rfl
  · refine (directory_modifyRoom_history s ρ ?_ ?_).trans ?_
    · exact fun room => rfl
    · exact fun room => rfl
    · rfl

/-! What handlers do besides touches no room, no member and no history. -/

/-- A broadcast changes only outboxes. -/
theorem directory_broadcast (message : Object MessageDto) :
    (Room.sendMessageAsync ρ message s).directory = s.directory := by
  obtain ⟨_, h⟩ := Room.sendMessageAsync_frame ρ message s
  rw [h]
  rfl

/-- A newcomer is announced: one message, and one entry of the history. -/
theorem directory_welcomePeer (config : ConfigDto) : (Room.welcomePeer config ρ p s).directory =
    s.directory.createShared.addHistoryMessage config ρ
      ⟨s.objectCount, Room.joinedMessage p s⟩ := by
  unfold Room.welcomePeer
  dsimp only
  rw [directory_broadcast, directory_addHistoryMessage]
  rfl

/-- A leave is announced likewise: one message, one entry of the history. -/
theorem directory_goodbyePeer (config : ConfigDto) : (Room.goodbyePeer config ρ p s).directory =
    s.directory.createShared.addHistoryMessage config ρ ⟨s.objectCount, Room.leftMessage p s⟩ := by
  unfold Room.goodbyePeer
  dsimp only
  rw [directory_broadcast, directory_addHistoryMessage]
  rfl

/-- A message to one peer changes only its outbox. -/
theorem directory_sendMessageAsync (message : Object MessageDto) :
    (Peer.sendMessageAsync p message s).directory = s.directory := by
  obtain ⟨_, h⟩ := Peer.sendMessageAsync_frame p message s
  rw [h]
  rfl

/-- A `CODE_INFO` is one message, and no entry of the history. -/
theorem directory_onboardPeer (config : ConfigDto) :
    (Room.onboardPeer config ρ p s).directory = s.directory.createShared := by
  unfold Room.onboardPeer
  dsimp only
  rw [directory_sendMessageAsync]
  rfl

/-- Losing the socket changes no membership. -/
theorem directory_invalidateSocket : (Peer.invalidateSocket p s).directory = s.directory :=
  directory_modifyPeer s p (fun _ => rfl) (fun _ => rfl)

/-- A pong changes only the ping counter of its peer. -/
theorem directory_onPong : (Peer.onPong p s).directory = s.directory :=
  directory_modifyPeer s p (fun _ => rfl) (fun _ => rfl)

/-- Whether the peer is dropped or not, it stays a member. -/
theorem directory_pingPeer : (Room.pingPeer s p).directory = s.directory := by
  have hping : (Peer.sendPingAsync p s).2.directory = s.directory :=
    directory_modifyPeer s p (fun _ => rfl) (fun _ => rfl)
  unfold Room.pingPeer
  dsimp only
  split
  · exact hping
  · exact (directory_invalidateSocket _ p).trans hping

/-- A round of pings removes nobody from its room. -/
theorem directory_pingAllPeers : (Room.pingAllPeers ρ s).directory = s.directory := by
  unfold Room.pingAllPeers
  generalize Room.members ρ s = ps
  induction ps generalizing s with
  | nil => rfl
  | cons p ps ih => exact (ih _).trans (directory_pingPeer s p)

/-- A shared file is an entry of its room and of its host, not of the directory. -/
theorem directory_registerFile (host : PeerRef) (clientFileId : Int) (fileName : Option String)
    (fileSize : Int) :
    (Room.registerFile ρ host clientFileId fileName fileSize s).2.directory = s.directory := by
  let file : File :=
    { host, clientFileId, serverFileId := (s.rooms ρ).fileIdCounter, fileName, fileSize }
  let s' : Server :=
    { s with files := Function.update s.files s.fileCount file, fileCount := s.fileCount + 1 }
  have hhost : (Peer.addFile host s.fileCount s').directory = s.directory :=
    directory_modifyPeer s' host (fun _ => rfl) (fun _ => rfl)
  show ((Peer.addFile host s.fileCount s').modifyRoom ρ fun room =>
    { room with
      fileIdCounter := room.fileIdCounter + 1
      fileById := room.fileById.insert (s.rooms ρ).fileIdCounter s.fileCount }).directory = _
  -- the room gets an entry in its table of files, and counts up
  refine (directory_modifyRoom _ ρ ?_ ?_ ?_).trans hhost
  · exact fun room => rfl
  · exact fun room => rfl
  · exact fun room => rfl

end Refinement

/-! ### Handlers that only allocate messages -/

/-- Whatever its outcome, the handler leaves the directory alone but for the
messages it allocates. -/
def Handler.Allocates {α : Type} (h : Handler α) : Prop :=
  ∀ s : Server, s.directory.Allocates (h.exec s).2.directory

namespace Handler

variable {α β : Type}

/-- A handler that allocates may go on with one that does. -/
theorem Allocates.bind {h : Handler α} {k : α → Handler β} (hh : Allocates h)
    (hk : ∀ a, Allocates (k a)) : Allocates (h >>= k) := by
  intro s
  rw [exec_bind]
  have hs := hh s
  rcases e : exec h s with ⟨_ | a, t⟩ <;> rw [e] at hs
  · exact hs
  -- the rest of the handler runs from the state the first part left
  · exact hs.trans (hk a t)

theorem allocates_pure (a : α) : Allocates (pure a) :=
  fun s => Directory.Allocates.refl s.directory

theorem allocates_throw (fault : Fault) : Allocates (throw fault : Handler α) :=
  fun s => Directory.Allocates.refl s.directory

theorem allocates_get : Allocates get :=
  fun s => Directory.Allocates.refl s.directory

theorem allocates_deref (a : Option α) : Allocates (deref a) := by
  cases a
  · exact allocates_throw _
  · exact allocates_pure _

/-- An operation that leaves the directory alone. -/
theorem allocates_modifyGet {f : Server → α × Server} (hf : ∀ s, (f s).2.directory = s.directory) :
    Allocates (modifyGet f) :=
  fun s => Directory.Allocates.of_eq (hf s)

end Handler

namespace Peer

open Handler

/-- Every error answer is one message. -/
theorem allocates_onApiError (p : PeerRef) (text : String) : Allocates (onApiError p text) :=
  fun s => s.directory.allocates_createShared

/-- At most one error answer comes of a list. -/
theorem allocates_validateEntries (p : PeerRef) (files : List (Option FileDto)) :
    Allocates (validateEntries p files) := by
  induction files with
  | nil => exact allocates_pure _
  | cons entry rest ih =>
      rcases entry with - | fileDto
      · exact allocates_onApiError p _
      · unfold validateEntries
        repeat' split
        · exact allocates_onApiError p _
        · exact allocates_onApiError p _
        · exact allocates_onApiError p _
        · exact ih

theorem allocates_validateFilesList (p : PeerRef) (files : Option (List (Option FileDto))) :
    Allocates (validateFilesList p files) := by
  refine (allocates_deref files).bind fun files => ?_
  split
  · exact allocates_onApiError p _
  · exact allocates_validateEntries p files

/-- Sharing fails where the host is not found, and never touches a member. -/
theorem allocates_shareFile (ρ : RoomRef) (hostPeerId clientFileId : Int) (fileName : Option String)
    (fileSize : Int) : Allocates (Room.shareFile ρ hostPeerId clientFileId fileName fileSize) := by
  refine allocates_get.bind fun s => ?_
  split
  · exact allocates_throw _
  · exact allocates_modifyGet fun s => directory_registerFile s ρ _ _ _ _

/-- The loop of `handleFilesMessage`, up to the entry at which it fails. -/
theorem allocates_shareFiles (p : PeerRef) (files : List (Option FileDto)) :
    Allocates (shareFiles p files) := by
  induction files with
  | nil => exact allocates_pure _
  | cons currFile rest ih =>
      refine (allocates_deref _).bind fun fileDto => ?_
      refine (allocates_deref _).bind fun clientFileId => ?_
      refine (allocates_deref _).bind fun size => ?_
      refine allocates_get.bind fun s => ?_
      refine (allocates_shareFile _ _ _ _ _).bind fun f => ?_
      refine allocates_get.bind fun s => ?_
      exact ih.bind fun shared => allocates_pure _

theorem allocates_provideFileChunk (f : FileRef) (subscriberId : Int) (data : Bytes) :
    Allocates (File.provideFileChunk f subscriberId data) := by
  intro s
  obtain ⟨_, h⟩ := File.provideFileChunk_frame f subscriberId data s
  rw [h]
  -- a chunk changes one subscriber
  exact .refl s.directory

/-- A chunk reaches a subscriber, or is answered with an error. -/
theorem allocates_provideChunk (fw : Framework) (p : PeerRef) (serverFileId subscriberId : Int)
    (data : String) : Allocates (provideChunk fw p serverFileId subscriberId data) := by
  refine allocates_get.bind fun s => ?_
  split
  · exact allocates_pure _
  · split
    · exact allocates_onApiError p _
    · split
      · exact allocates_throw _
      · exact (allocates_provideFileChunk _ _ _).bind fun _ => allocates_pure _

theorem allocates_handleFileChunkMessage (fw : Framework) (p : PeerRef) (message : MessageDto) :
    Allocates (handleFileChunkMessage fw p message) := by
  unfold handleFileChunkMessage
  split
  · exact allocates_onApiError p _
  · next filesList _ =>
    split
    · exact allocates_onApiError p _
    · have hfront : Allocates (front filesList) := by
        cases filesList
        · exact allocates_throw _
        · exact allocates_pure _
      refine hfront.bind fun fileDto => ?_
      split
      · exact allocates_onApiError p _
      · split
        · exact allocates_onApiError p _
        · exact allocates_onApiError p _
        · exact allocates_onApiError p _
        · exact allocates_provideChunk fw p _ _ _

/-- The messages that are answered at once: a chunk, or a code no client may
send. -/
theorem allocates_handleMessage (fw : Framework) (config : ConfigDto) (p : PeerRef)
    {message : Object MessageDto} (hmessage : message.val.code ≠ some .codePeerMessage)
    (htyping : message.val.code ≠ some .codePeerIsTyping)
    (hshare : message.val.code ≠ some .codeFileShare) :
    Allocates (handleMessage fw config p message) := by
  refine allocates_get.bind fun s => ?_
  split
  · exact allocates_onApiError p _
  · contradiction
  · contradiction
  · contradiction
  · exact allocates_handleFileChunkMessage fw p _
  · exact allocates_onApiError p _

end Peer

end CanChat
