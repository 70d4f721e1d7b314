/-
CanChat/LiveLinks.lean

The file links that clients receive, and what `GetFile` finds under them.

A `CODE_PEER_MESSAGE_FILE`, broadcast or part of a history, refers to files by
room and server id.  While its author is a member the link leads to the file it
was announced with, and afterwards to no file.

Design.  `Scene.Spreads L` states that the predicate `L` holds of all file
messages in outboxes and histories; a handler preserves it if `L` holds of the
messages it sends.  `Listed` is the instance that ties the entries of a message
to registered files, and `PreservesLinks` is the relation on servers under which
`Listed` is monotone: files keep their hosts, ids, names and sizes.
-/
import CanChat.Moves
import CanChat.Roster
import CanChat.Shelf

namespace CanChat

namespace Handler

/-- `Operations` for a whole frame: buffering, parsing and the handlers. -/
theorem Operations.readMessage {R : Server → Server → Prop} (h : Operations R)
    (hbuffer : ∀ s p (buffer : Peer → Bytes),
      R s (s.modifyPeer p fun peer => { peer with messageBuffer := buffer peer }))
    (hregister : Registers R) (fw : Framework) (config : ConfigDto) (p : PeerRef) (data : Bytes) :
    Within R (Peer.readMessage fw config p data) := by
  refine h.bind h.get fun s => ?_
  dsimp only
  split
  · exact h.onApiError p _
  · split
    · refine h.bind (fun s => hbuffer s p fun _ => []) fun _ => ?_
      split
      · exact h.onApiError p _
      · refine h.bind (h.deref _) fun message => ?_
        refine h.bind h.getMicroTickCount fun timestamp => ?_
        refine h.bind (h.allocate _) fun message => ?_
        exact h.handleMessage fw config p fun _ => hregister
    · exact h.bind (fun s => hbuffer s p fun peer => peer.messageBuffer ++ data) fun _ => h.pure _

end Handler

namespace Conversation

open Isolation Handler
open Participants (replayed)

/-! ### File messages in outboxes and histories -/

/-- The message itself, or for a `CODE_INFO` the messages of its history. -/
def carried (message : MessageDto) : List MessageDto :=
  if message.code = some .codeInfo then replayed message else [message]

theorem carried_of_ne {message : MessageDto} (hcode : message.code ≠ some .codeInfo) :
    carried message = [message] := if_neg hcode

/-- `L` holds of all file messages sent to the peers of a room or recorded there. -/
structure Scene.Spreads (L : RoomRef → MessageDto → Prop) (v : Scene) : Prop where
  history : ∀ ρ, ∀ m ∈ v.directory.history ρ, m.val.code = some .codePeerMessageFile → L ρ m.val
  outbox : ∀ p, ∀ m ∈ v.outbox p, ∀ dto ∈ carried m.val, dto.code = some .codePeerMessageFile →
    L (v.directory.peerRoom p) dto

section Spreads

variable {L L' : RoomRef → MessageDto → Prop} {v w : Scene} {config : ConfigDto} {ρ : RoomRef}
  {p : PeerRef} {dto : MessageDto}

/-- The property of the links may be weakened. -/
theorem Scene.Spreads.mono (h : v.Spreads L) (hL : ∀ ρ dto, L ρ dto → L' ρ dto) : v.Spreads L' :=
  ⟨fun ρ m hm hcode => hL _ _ (h.history ρ m hm hcode),
    fun p m hm dto hdto hcode => hL _ _ (h.outbox p m hm dto hdto hcode)⟩

/-- Direct messages are neither `CODE_INFO` nor `CODE_PEER_MESSAGE_FILE`. -/
theorem code_of_isDirect (hdirect : isDirect dto = true) :
    dto.code ≠ some .codeInfo ∧ dto.code ≠ some .codePeerMessageFile := by
  unfold isDirect at hdirect
  split at hdirect
  · next hcode => exact ⟨by simp [hcode], by simp [hcode]⟩
  · next hcode => exact ⟨by simp [hcode], by simp [hcode]⟩
  · cases hdirect

/-- A step that says nothing spreads nothing. -/
theorem Scene.Spreads.quiet (h : v.Spreads L) (hquiet : v.Quiet w) : w.Spreads L := by
  obtain ⟨n, -, hd⟩ := hquiet.allocates
  constructor
  · rw [hd]
    exact h.history
  · intro p m hm dto hdto hcode
    obtain ⟨direct, hdirects, hall, -⟩ := hquiet.outbox p
    rw [hdirects] at hm
    rw [hd]
    rcases List.mem_append.mp hm with hm | hm
    · exact h.outbox p m hm dto hdto hcode
    · obtain ⟨hinfo, hfile⟩ := code_of_isDirect (hall m hm)
      rw [carried_of_ne hinfo, List.mem_singleton] at hdto
      exact absurd (hdto ▸ hcode) hfile

/-- A broadcast spreads what the message carries. -/
theorem Scene.Spreads.announce (h : v.Spreads L) (hindexed : Indexed v.directory)
    (hinfo : dto.code ≠ some .codeInfo) (hdto : dto.code = some .codePeerMessageFile → L ρ dto) :
    (v.announce config ρ dto).Spreads L := by
  obtain ⟨history, hd⟩ := v.announce_directory config ρ dto
  constructor
  · intro ρ' m hm hcode
    rw [announce_history] at hm
    split at hm
    · exact h.history ρ' m hm hcode
    · rcases eq_or_ne ρ' ρ with rfl | hne
      · rw [Function.update_self, Room.popFront_eq_drop] at hm
        rcases List.mem_append.mp (List.mem_of_mem_drop hm) with hm | hm
        · exact h.history ρ' m hm hcode
        · obtain rfl := List.mem_singleton.mp hm
          exact hdto hcode
      · rw [Function.update_of_ne hne] at hm
        exact h.history ρ' m hm hcode
  · intro p m hm dto' hdto' hcode
    rw [hd]
    change m ∈ v.outbox p ++ (if v.receives ρ p then _ else []) at hm
    rcases List.mem_append.mp hm with hm | hm
    · exact h.outbox p m hm dto' hdto' hcode
    · split at hm
      · next hreceives =>
        obtain rfl := List.mem_singleton.mp hm
        rw [carried_of_ne hinfo, List.mem_singleton] at hdto'
        subst hdto'
        have hroom : v.directory.peerRoom p = ρ := (Scene.receives_room hindexed hreceives).2
        show L (v.directory.peerRoom p) _
        rw [hroom]
        exact hdto hcode
      · cases hm

/-- A new room has nothing to spread. -/
theorem Scene.Spreads.createRoom (h : v.Spreads L) (name : String) :
    ({ v with directory := v.directory.createRoom name } : Scene).Spreads L := by
  refine ⟨fun ρ m hm hcode => ?_, h.outbox⟩
  change m ∈ Function.update v.directory.history v.directory.roomCount [] ρ at hm
  rcases eq_or_ne ρ v.directory.roomCount with rfl | hne
  · rw [Function.update_self] at hm
    cases hm
  · rw [Function.update_of_ne hne] at hm
    exact h.history ρ m hm hcode

/-- A file message in a `CODE_INFO` is in the history of the room. -/
theorem carried_greeting {peers : List (Option PeerDto)}
    (hdto : dto ∈ carried (v.greeting config ρ p peers)) :
    ∃ m ∈ v.directory.history ρ, m.val = dto := by
  have hcode : (v.greeting config ρ p peers).code = some .codeInfo := rfl
  unfold carried at hdto
  rw [if_pos hcode] at hdto
  obtain ⟨entry, hentry, heq⟩ := List.mem_filterMap.mp hdto
  change entry ∈ (Directory.getHistory config ρ v.directory).getD [] at hentry
  unfold Directory.getHistory at hentry
  split at hentry
  · cases hentry
  · obtain ⟨m, hm, rfl⟩ := List.mem_map.mp hentry
    exact ⟨m, hm, Option.some.inj heq⟩

/-- A join sends the new peer the file messages of the history only. -/
theorem Scene.Spreads.join (h : v.Spreads L) (hindexed : Indexed v.directory)
    (hρ : ρ < v.directory.roomCount) (hfresh : v.outbox v.directory.peerCount = [])
    (nickname : String) (peers : List (Option PeerDto)) :
    (v.join config ρ nickname peers).Spreads L := by
  let n := v.directory.peerCount
  let created := v.createPeer ρ nickname
  -- the new peer has no mail yet
  have hcreated : created.Spreads L := by
    refine ⟨h.history, fun p m hm dto hdto hcode => ?_⟩
    change m ∈ v.outbox p at hm
    have hne : p ≠ n := by
      rintro rfl
      rw [hfresh] at hm
      cases hm
    show L (Function.update v.directory.peerRoom n ρ p) dto
    rw [Function.update_of_ne hne]
    exact h.outbox p m hm dto hdto hcode
  -- the notice of the arrival carries no link
  have hannounced : (created.announce config ρ (joined created n)).Spreads L :=
    hcreated.announce (hindexed.createPeer hρ) (by simp [joined]) (by simp [joined])
  have hroom : created.directory.peerRoom n = ρ := Function.update_self _ _ _
  obtain ⟨history, hd⟩ := created.announce_directory config ρ (joined created n)
  let welcomed := created.announce config ρ (joined created n)
  let added : Scene := { welcomed with directory := welcomed.directory.addPeer ρ n }
  have hjoin : v.join config ρ nickname peers =
      added.sendTo n (added.greeting config ρ n peers) := rfl
  rw [hjoin]
  refine ⟨hannounced.history, fun p m hm dto hdto hcode => ?_⟩
  change m ∈ Function.update welcomed.outbox n (welcomed.outbox n ++ _) p at hm
  show L (welcomed.directory.peerRoom p) dto
  rcases eq_or_ne p n with rfl | hne
  · rw [Function.update_self] at hm
    -- what the newcomer gets is either the notice or CODE_INFO with the history
    rcases List.mem_append.mp hm with hm | hm
    · exact hannounced.outbox n m hm dto hdto hcode
    · split at hm
      · obtain rfl := List.mem_singleton.mp hm
        obtain ⟨m, hm, rfl⟩ := carried_greeting hdto
        have hpeerRoom : welcomed.directory.peerRoom n = ρ := by
          show (created.announce config ρ (joined created n)).directory.peerRoom n = ρ
          rw [hd]
          exact hroom
        rw [hpeerRoom]
        exact hannounced.history ρ m hm hcode
      · cases hm
  · rw [Function.update_of_ne hne] at hm
    exact hannounced.outbox p m hm dto hdto hcode

/-- A departure spreads a notice without links. -/
theorem Scene.Spreads.leave (h : v.Spreads L) (hindexed : Indexed v.directory) (p : PeerRef) :
    (v.leave config p).Spreads L := by
  let removed : Scene := { v with
    directory := v.directory.removePeer (v.directory.peerRoom p) (v.directory.peerId p) }
  have hremoved : removed.Spreads L := ⟨h.history, h.outbox⟩
  have hannounced : (removed.announce config (v.directory.peerRoom p) (left removed p)).Spreads L :=
    hremoved.announce (hindexed.removePeer _ _) (by simp [left]) (by simp [left])
  exact ⟨hannounced.history, hannounced.outbox⟩

end Spreads

/-! ### Registered files do not change -/

/-- The number of files, and for each its host and its public fields. -/
def labels (s : Server) : ℕ × (FileRef → PeerRef × FileDto) :=
  (s.fileCount, fun f => ((s.files f).host, listing (s.files f)))

/-- The files of `s` keep their hosts and public fields in `t`, the invariants
`Shelved` and `Housed` are preserved, and rooms keep their names. -/
structure PreservesLinks (s t : Server) : Prop where
  fileCount : s.fileCount ≤ t.fileCount
  label : ∀ f < s.fileCount, (labels t).2 f = (labels s).2 f
  shelved : s.catalogue.Shelved → t.catalogue.Shelved
  housed : s.directory.Housed → t.directory.Housed
  keepsRoomNames : s.directory.KeepsRoomNames t.directory

section PreservesLinks

variable {s t u : Server}

theorem PreservesLinks.trans (h : PreservesLinks s t) (h' : PreservesLinks t u) :
    PreservesLinks s u where
  fileCount := h.fileCount.trans h'.fileCount
  label f hf := (h'.label f (hf.trans_le h.fileCount)).trans (h.label f hf)
  shelved hs := h'.shelved (h.shelved hs)
  housed hs := h'.housed (h.housed hs)
  keepsRoomNames := h.keepsRoomNames.trans h'.keepsRoomNames

/-- The labels, the shelves and the names of the rooms are all that the links
depend on. -/
theorem PreservesLinks.of_labels (hlabels : labels t = labels s)
    (hshelved : s.catalogue.Shelved → t.catalogue.Shelved)
    (hhoused : s.directory.Housed → t.directory.Housed)
    (hroomNames : s.directory.KeepsRoomNames t.directory) : PreservesLinks s t :=
  ⟨(congrArg Prod.fst hlabels).ge, fun _ _ => congrFun (congrArg Prod.snd hlabels) _, hshelved,
    hhoused, hroomNames⟩

/-- The catalogue, the directory and the file fields are unchanged. -/
theorem PreservesLinks.of_eq (hlabels : labels t = labels s)
    (hcatalogue : t.catalogue = s.catalogue)
    (hdirectory : s.directory.Allocates t.directory) : PreservesLinks s t := by
  obtain ⟨n, -, hd⟩ := hdirectory
  refine .of_labels hlabels (fun h => hcatalogue ▸ h) (fun h => ?_) ?_
  · rw [hd]
    exact h.of_eq rfl rfl rfl rfl
  · rw [hd]
    exact .of_eq rfl rfl

theorem labels_modifyFile (s : Server) (f : FileRef) {g : File → File}
    (hhost : ∀ file, (g file).host = file.host)
    (hlisting : ∀ file, listing (g file) = listing file) :
    labels (s.modifyFile f g) = labels s := by
  refine Prod.ext rfl (funext fun k => ?_)
  show ((Function.update s.files f (g (s.files f)) k).host,
    listing (Function.update s.files f (g (s.files f)) k)) = ((s.files k).host, listing (s.files k))
  rcases eq_or_ne k f with rfl | hne
  · rw [Function.update_self, hhost, hlisting]
  · rw [Function.update_of_ne hne]

theorem labels_addHistoryMessage (config : ConfigDto) (ρ : RoomRef) (message : Object MessageDto)
    (s : Server) : labels (Room.addHistoryMessage config ρ message s) = labels s := by
  unfold Room.addHistoryMessage
  split
  · rfl
  · rfl

theorem labels_broadcast (ρ : RoomRef) (message : Object MessageDto) (s : Server) :
    labels (Room.sendMessageAsync ρ message s) = labels s := by
  obtain ⟨_, h⟩ := Room.sendMessageAsync_frame ρ message s
  rw [h]
  rfl

theorem labels_sendMessageAsync (p : PeerRef) (message : Object MessageDto) (s : Server) :
    labels (Peer.sendMessageAsync p message s) = labels s := by
  obtain ⟨_, h⟩ := Peer.sendMessageAsync_frame p message s
  rw [h]
  rfl

/-- `cancelFile` leaves the hosts and the public fields of all files. -/
theorem labels_cancelFiles (ρ : RoomRef) (fs : List FileRef) (s : Server) :
    labels (fs.foldl (Room.cancelFile ρ) s) = labels s := by
  induction fs generalizing s with
  | nil => rfl
  | cons f fs ih =>
      have hcleared : labels (Room.cancelFile ρ s f) = labels s := by
        show labels (File.clearSubscribers f s) = labels s
        rw [File.clearSubscribers_eq]
        exact labels_modifyFile _ f (g := fun file => { file with subscribers := ∅ })
          (fun _ => rfl) fun _ => rfl
      exact (ih _).trans hcleared

theorem labels_removePeerById (ρ : RoomRef) (peerId : Int) (s : Server) :
    labels (Room.removePeerById ρ peerId s) = labels s := by
  unfold Room.removePeerById
  split
  · rfl
  · next p _ => exact labels_cancelFiles ρ (s.peers p).files s

theorem labels_pingRound (s : Server) : labels (Lobby.pingRound s) = labels s := by
  unfold Lobby.pingRound
  generalize s.lobbyRooms.values = ρs
  induction ρs generalizing s with
  | nil => rfl
  | cons ρ ρs ih =>
      obtain ⟨_, _, hpinged, -⟩ := Room.pingAllPeers_frame ρ s
      have hlabels : labels (Room.pingAllPeers ρ s) = labels s := by
        rw [hpinged]
        rfl
      exact (ih _).trans hlabels

theorem labels_onAfterCreate (config : ConfigDto) (k : SocketRef) (roomName nickname : String)
    (s : Server) :
    labels (Lobby.onAfterCreateNonBlocking config k roomName nickname s).2 = labels s := by
  let entered := Lobby.getOrCreateRoom roomName (Lobby.countConnected s)
  let created := Lobby.createPeer k entered.1 nickname entered.2
  have hentered : labels entered.2 = labels s := by
    obtain ⟨_, _, _, _, hframe⟩ := Lobby.getOrCreateRoom_frame roomName (Lobby.countConnected s)
    show labels (Lobby.getOrCreateRoom roomName (Lobby.countConnected s)).2 = labels s
    rw [hframe]
    rfl
  have hwelcomed : labels (Room.welcomePeer config entered.1 created.1 created.2) = labels s :=
    (labels_broadcast entered.1 _ _).trans ((labels_addHistoryMessage config entered.1 _ _).trans
      hentered)
  exact (labels_sendMessageAsync created.1 _ _).trans hwelcomed

theorem labels_onBeforeDestroy (config : ConfigDto) (p : PeerRef) (s : Server) :
    labels (Lobby.onBeforeDestroyNonBlocking config p s) = labels s := by
  let ρ := (s.peers p).room
  let removed := Room.removePeerById ρ (s.peers p).peerId (Lobby.countDisconnected s)
  let gone := Peer.invalidateSocket p (Room.goodbyePeer config ρ p removed)
  have hgone : labels gone = labels s :=
    (labels_broadcast ρ _ _).trans ((labels_addHistoryMessage config ρ _ _).trans
      (labels_removePeerById ρ _ (Lobby.countDisconnected s)))
  show labels (if Room.isEmpty ρ gone then Lobby.deleteRoom (gone.rooms ρ).name gone else gone) = _
  split
  · exact hgone
  · exact hgone

/-- The primitive operations of the handlers preserve links. -/
theorem preservesLinks_operations : Handler.Operations PreservesLinks where
  refl _ := .of_eq rfl rfl (.refl _)
  trans := .trans
  createShared _ s := .of_eq rfl rfl s.directory.allocates_createShared
  getMicroTickCount _ := .of_eq rfl rfl (.refl _)
  countMessage _ := .of_eq rfl rfl (.refl _)
  addHistoryMessage config ρ message s := by
    refine .of_labels (labels_addHistoryMessage config ρ message s)
      (fun h => catalogue_addHistoryMessage s ρ config message ▸ h) (fun h => ?_) ?_
    · rw [directory_addHistoryMessage]
      exact h.of_eq rfl rfl rfl rfl
    · rw [directory_addHistoryMessage]
      exact .of_eq rfl rfl
  sendMessageAsync ρ message s :=
    .of_eq (labels_broadcast ρ message s) (catalogue_broadcast s ρ message)
      (.of_eq (directory_broadcast s ρ message))
  provideFileChunk f subscriberId data := by
    intro s
    obtain ⟨_, h⟩ := File.provideFileChunk_frame f subscriberId data s
    show PreservesLinks s ((File.provideFileChunk f subscriberId data).exec s).2
    rw [h]
    exact .of_eq rfl rfl (.refl _)

theorem preservesLinks_registers : Handler.Registers PreservesLinks := by
  intro ρ peerId host clientFileId fileName fileSize s hhost
  constructor
  · exact Nat.le_succ _
  · intro f hf
    have hold : (Room.registerFile ρ host clientFileId fileName fileSize s).2.files f = s.files f :=
      Function.update_of_ne hf.ne _ _
    show ((Server.files _ f).host, listing (Server.files _ f)) = _
    rw [hold]
    rfl
  · intro h
    obtain ⟨-, rfl, rfl⟩ := h.member ρ peerId host hhost
    rw [catalogue_registerFile]
    exact h.registerFile hhost clientFileId fileSize
  · intro h
    rw [directory_registerFile]
    exact h
  · rw [directory_registerFile]
    exact .of_eq rfl rfl

theorem preservesLinks_modifyPeer (s : Server) (p : PeerRef) {g : Peer → Peer}
    (hroom : ∀ peer, (g peer).room = peer.room) (hid : ∀ peer, (g peer).peerId = peer.peerId)
    (hsocket : ∀ peer, (g peer).socket = peer.socket)
    (hfiles : ∀ peer, (g peer).files = peer.files) : PreservesLinks s (s.modifyPeer p g) :=
  .of_eq rfl (catalogue_modifyPeer s p hroom hid hsocket hfiles)
    (.of_eq (directory_modifyPeer s p hroom hid))

/-- A frame preserves the links made before it. -/
theorem preservesLinks_readMessage (fw : Framework) (config : ConfigDto) (p : PeerRef)
    (data : Bytes)
    (s : Server) : PreservesLinks s ((Peer.readMessage fw config p data).exec s).2 :=
  preservesLinks_operations.readMessage
    (fun s p _ => preservesLinks_modifyPeer s p (fun _ => rfl) (fun _ => rfl) (fun _ => rfl)
      fun _ => rfl)
    preservesLinks_registers fw config p data s

theorem preservesLinks_sendError (p : PeerRef) (coroutine : SendErrorCoroutine) (s : Server) :
    PreservesLinks s (Isolation.sendError p coroutine s) := by
  have hcreated : PreservesLinks s (s.createShared coroutine.message).2 :=
    preservesLinks_operations.createShared coroutine.message s
  unfold Isolation.sendError
  dsimp only
  split
  · exact hcreated.trans (.of_eq (labels_sendMessageAsync p _ _) (catalogue_sendMessageAsync _ p _)
      (.of_eq (directory_sendMessageAsync _ p _)))
  · exact hcreated

theorem preservesLinks_pingRound (s : Server) : PreservesLinks s (Lobby.pingRound s) := by
  have hdirectory : (Lobby.pingRound s).directory = s.directory := Bookkeeping.directory_pingRound s
  refine .of_labels (labels_pingRound s) shelved_pingRound (fun h => ?_) ?_
  · rwa [hdirectory]
  · rw [hdirectory]
    exact .of_eq rfl rfl

/-- So does a newcomer, -/
theorem preservesLinks_onAfterCreate (hindexed : Indexed s.directory) (config : ConfigDto)
    (k : SocketRef)
    (roomName nickname : String) :
    PreservesLinks s (Lobby.onAfterCreateNonBlocking config k roomName nickname s).2 :=
  .of_labels (labels_onAfterCreate config k roomName nickname s)
    (fun h => shelved_onAfterCreate h hindexed.lobby config k roomName nickname)
    (fun h => housed_onAfterCreate h config k roomName nickname)
    (keepsRoomNames_onAfterCreate config k roomName nickname)

/-- and so does a departure. -/
theorem preservesLinks_onBeforeDestroy {p : PeerRef} (hp : s.scene.IsMember p)
    (config : ConfigDto) :
    PreservesLinks s (Lobby.onBeforeDestroyNonBlocking config p s) :=
  .of_labels (labels_onBeforeDestroy config p s) (fun h => shelved_onBeforeDestroy h hp config)
    (fun h => housed_onBeforeDestroy h hp config) (keepsRoomNames_onBeforeDestroy p config)

/-- `subscribe` leaves the public fields of all files. -/
theorem preservesLinks_subscribe (f : FileRef) (s : Server) :
    PreservesLinks s (File.subscribe f s).2 := by
  refine .of_eq ?_ (catalogue_subscribe s f) (.refl _)
  exact labels_modifyFile _ f
    (g := fun file => { file with
      subscriberIdCounter := file.subscriberIdCounter + 1
      subscribers := file.subscribers.insert file.subscriberIdCounter s.subscriberCount })
    (fun _ => rfl) fun _ => rfl

theorem preservesLinks_read (σ : SubscriberRef) (count : Int) (s : Server) :
    PreservesLinks s ((Subscriber.read σ count).exec s).2 := by
  obtain ⟨_, _, _, _, hframe⟩ := Subscriber.read_frame σ count s
  refine .of_labels ?_ (fun h => catalogue_read s σ count ▸ h) (fun h => ?_) ?_
  · rw [hframe]
    rfl
  · rw [hframe]
    exact h.of_eq rfl rfl rfl rfl
  · rw [hframe]
    exact .of_eq rfl rfl

theorem preservesLinks_destroy (σ : SubscriberRef) (s : Server) :
    PreservesLinks s (Subscriber.destroy σ s) := by
  refine .of_eq ?_ (catalogue_destroy s σ) ?_
  · unfold Subscriber.destroy
    split
    · rfl
    · next subscriber _ =>
      exact labels_modifyFile s subscriber.file
        (g := fun file => { file with subscribers := file.subscribers.erase subscriber.id })
        (fun _ => rfl) fun _ => rfl
  · unfold Subscriber.destroy
    split
    · exact .refl _
    · exact .refl _

end PreservesLinks

/-! ### Runs -/

/-- `dto` is from a peer of `ρ`, and its entries are files registered by that peer. -/
def Listed (s : Server) (ρ : RoomRef) (dto : MessageDto) : Prop :=
  ∃ p < s.peerCount, (s.peers p).room = ρ ∧ dto.peerId = some (s.peers p).peerId ∧ Offers s p dto

/-- The invariant of runs: the catalogue and the directory are well formed, and
all file messages are `Listed`. -/
structure Linked (s : Server) : Prop where
  shelved : s.catalogue.Shelved
  housed : s.directory.Housed
  spreads : s.scene.Spreads (Listed s)

section Linked

variable {fw : Framework} {config : ConfigDto} {requests : Requests} {T : Transcript} {s t : Server}

/-- A message that is listed stays listed. -/
theorem Listed.mono {ρ : RoomRef} {dto : MessageDto} (h : Listed s ρ dto)
    (hpreserves : PreservesLinks s t)
    (hextends : s.scene.ExtendsPeers t.scene) : Listed t ρ dto := by
  obtain ⟨p, hp, hroom, hid, hoffers⟩ := h
  have hsame := hextends.same p hp
  refine ⟨p, hp.trans_le hextends.peerCount, hsame.room.trans hroom, ?_, fun hcode => ?_⟩
  · rw [hid]
    exact congrArg some hsame.peerId.symm
  · obtain ⟨files, hfiles, hall⟩ := hoffers hcode
    refine ⟨files, hfiles, fun entry hentry => ?_⟩
    obtain ⟨f, hf, hhost, hlisting⟩ := hall entry hentry
    have hlabel := hpreserves.label f hf
    refine ⟨f, hf.trans_le hpreserves.fileCount, (congrArg Prod.fst hlabel).trans hhost, ?_⟩
    exact hlisting.trans (congrArg some (congrArg Prod.snd hlabel).symm)

/-- The invariant is preserved if the links are, and the new file messages are
`Listed` afterwards. -/
theorem Linked.of_spreads (h : Linked s) (hpreserves : PreservesLinks s t)
    (hextends : s.scene.ExtendsPeers t.scene) (hspreads : t.scene.Spreads (Listed s)) : Linked t :=
  ⟨hpreserves.shelved h.shelved, hpreserves.housed h.housed,
    hspreads.mono fun _ _ hlisted => Listed.mono hlisted hpreserves hextends⟩

/-- A step that says nothing keeps the links. -/
theorem Linked.quiet (h : Linked s) (hpreserves : PreservesLinks s t)
    (hquiet : s.scene.Quiet t.scene) :
    Linked t :=
  h.of_spreads hpreserves hquiet.extendsPeers (h.spreads.quiet hquiet)

/-- Entering makes a room at most, which has nothing to spread. -/
theorem Scene.Spreads.getOrCreateRoom {L : RoomRef → MessageDto → Prop} (h : s.scene.Spreads L)
    (name : String) : (Lobby.getOrCreateRoom name s).2.scene.Spreads L := by
  rw [scene_getOrCreateRoom, directory_getOrCreateRoom]
  rcases Lobby.getRoom name s with - | ρ
  · exact h.createRoom name
  · exact h

/-- A newcomer is sent the links of the history. -/
theorem Linked.join (h : Linked s) (hrefines : Refines config T s.scene) (k : SocketRef)
    (roomName nickname : String)
    (hextends : s.scene.ExtendsPeers
      (Lobby.onAfterCreateNonBlocking config k roomName nickname s).2.scene) :
    Linked (Lobby.onAfterCreateNonBlocking config k roomName nickname s).2 := by
  let counted := Lobby.countConnected s
  have hindexed : Indexed counted.directory := hrefines.realizes.indexed
  have hspreads : counted.scene.Spreads (Listed s) := h.spreads
  have hfresh : (Lobby.getOrCreateRoom roomName counted).2.scene.outbox
      (Lobby.getOrCreateRoom roomName counted).2.peerCount = [] := by
    obtain ⟨_, _, _, _, hframe⟩ := Lobby.getOrCreateRoom_frame roomName counted
    rw [hframe]
    exact hrefines.realizes.fresh _ le_rfl
  have hpreserves :
      PreservesLinks s (Lobby.onAfterCreateNonBlocking config k roomName nickname s).2 :=
    preservesLinks_onAfterCreate hrefines.realizes.indexed config k roomName nickname
  obtain ⟨peers, hjoin, -, -⟩ :=
    scene_onAfterCreateNonBlocking hrefines.realizes.indexed config k roomName nickname
  refine h.of_spreads hpreserves hextends ?_
  rw [hjoin]
  exact (hspreads.getOrCreateRoom roomName).join (indexed_getOrCreateRoom hindexed roomName)
    (getOrCreateRoom_lt hindexed roomName) hfresh nickname peers

/-- Whoever leaves takes no link from the others. -/
theorem Linked.leave (h : Linked s) (hindexed : Indexed s.directory) {p : PeerRef}
    (hp : s.scene.IsMember p)
    (hextends : s.scene.ExtendsPeers (Lobby.onBeforeDestroyNonBlocking config p s).scene) :
    Linked (Lobby.onBeforeDestroyNonBlocking config p s) := by
  have hpreserves : PreservesLinks s (Lobby.onBeforeDestroyNonBlocking config p s) :=
    preservesLinks_onBeforeDestroy hp config
  have hleft : (s.scene.leave config p).Spreads (Listed s) := h.spreads.leave hindexed p
  refine h.of_spreads hpreserves hextends ?_
  rcases scene_onBeforeDestroyNonBlocking hindexed config p with heq | ⟨name, heq⟩
  · rw [heq]
    exact hleft
  · rw [heq]
    exact ⟨hleft.history, hleft.outbox⟩

/-- A handler of `p` announces files registered by `p`. -/
theorem Linked.speaks (h : Linked s) (hindexed : Indexed s.directory) {p : PeerRef}
    (hp : s.scene.IsMember p) (hpreserves : PreservesLinks s t)
    (hextends : s.scene.ExtendsPeers t.scene)
    {sent : Option Submission} (hspeaks : Speaks config p s t sent) : Linked t := by
  cases hspeaks with
  | quiet hquiet => exact h.quiet hpreserves hquiet
  | once message u w dto before renders announced after offers =>
      have hspreads : u.scene.Spreads (Listed t) :=
        (h.spreads.quiet before).mono fun _ _ hlisted => Listed.mono hlisted hpreserves hextends
      have hposted := renders.posted
      have hinfo : dto.code ≠ some .codeInfo := fun hcode => by simp [Posted, hcode] at hposted
      obtain ⟨hid, -⟩ := hposted.signed
      obtain ⟨hlt, -⟩ := hindexed.member _ _ p hp
      have hsame := hextends.same p hlt
      have hlisted : Listed t (s.peers p).room dto := by
        refine ⟨p, hlt.trans_le hextends.peerCount, hsame.room, ?_, offers⟩
        rw [hid]
        exact congrArg some hsame.peerId.symm
      have hannounced : w.scene.Spreads (Listed t) := by
        rw [announced]
        exact hspreads.announce (hindexed.allocates before.allocates) hinfo fun _ => hlisted
      exact ⟨hpreserves.shelved h.shelved, hpreserves.housed h.housed, hannounced.quiet after⟩

variable (fw) in
/-- A frame adds links to files it registers. -/
theorem Linked.readMessage (h : Linked s) (hrefines : Refines config T s.scene) {p : PeerRef}
    (hp : s.scene.IsMember p) (data : Bytes) :
    Linked ((Peer.readMessage fw config p data).exec s).2 := by
  have hspeaks : Speaks config p s ((Peer.readMessage fw config p data).exec s).2 _ :=
    readMessage_speaks fw hrefines.realizes.indexed hp data
  have hextends := (Advances.speaks config (P := fun _ => []) hrefines hp hspeaks).extendsPeers
  exact h.speaks hrefines.realizes.indexed hp
    (preservesLinks_readMessage fw config p data s) hextends hspeaks

/-- Every event keeps the links. -/
theorem Linked.step {s t : State} {a : Occurrence} (h : Linked s.server) (hheld : Held config T s)
    (hstep : s.step fw config requests a = some t) : Linked t.server := by
  obtain ⟨-, -, hextends, -⟩ := hheld.step fw config (P := fun _ => []) hstep
  -- setting the clock leaves all that the invariant is about
  have hserver : ∀ clock, Linked (setClock clock s.server) :=
    fun _ => ⟨h.shelved, h.housed, h.spreads⟩
  have hrefines : ∀ clock, Refines config T (setClock clock s.server).scene :=
    fun _ => hheld.refines
  -- a frame for a member, whatever becomes of it
  have hreads : ∀ {k p}, s.socket k = .live p → ∀ clock data,
      Linked ((Peer.readMessage fw config p data).exec (setClock clock s.server)).2 := by
    intro k p hlive clock data
    have hisMember : (setClock clock s.server).scene.IsMember p :=
      hheld.link k p (by rw [hlive]; rfl)
    exact (hserver clock).readMessage fw (hrefines clock) hisMember data
  -- joins, leaves and frames send file messages; the other events send none
  cases moves_of_step hstep with
  | @join k clock joined idle handled =>
      subst handled
      exact (hserver clock).join (hrefines clock) k _ _ hextends
  | @taken k clock data p server live handled =>
      have hread := hreads live clock data
      rw [handled] at hread
      exact hread
  | @answered k clock data p server coroutine live handled =>
      have hread := hreads live clock data
      have hanswers :=
        Answers.readMessage fw config p data (setClock clock s.server) coroutine server
      rw [handled] at hread hanswers
      exact hread.quiet (preservesLinks_sendError p coroutine server)
        (quiet_sendError server p coroutine (hanswers rfl))
  | @raised k clock data p server fault live handled =>
      have hread := hreads live clock data
      rw [handled] at hread
      exact hread
  | @pong k clock p live =>
      have hpreserves :
          PreservesLinks (setClock clock s.server) (Peer.onPong p (setClock clock s.server)) :=
        preservesLinks_modifyPeer _ p (fun _ => rfl) (fun _ => rfl) (fun _ => rfl) fun _ => rfl
      exact (hserver clock).quiet hpreserves
        (quiet_modifyPeer _ p (fun _ => rfl) (fun _ => rfl) (fun _ => rfl) fun _ => rfl)
  | @leave k clock p ending =>
      have hisMember : (setClock clock s.server).scene.IsMember p :=
        hheld.link k p (connected_of_ending ending)
      exact (hserver clock).leave (hrefines clock).realizes.indexed hisMember hextends
  | @refused i clock idle missing => exact hserver clock
  | @subscribed i clock ρ f idle room file =>
      exact (hserver clock).quiet (preservesLinks_subscribe f _) (quiet_of_eq rfl)
  | @read i clock count σ server result live handled =>
      have hread := (hserver clock).quiet (preservesLinks_read σ count _) (quiet_read _ σ count)
      rw [handled] at hread
      exact hread
  | @broken i clock count σ server fault live handled =>
      have hread := (hserver clock).quiet (preservesLinks_read σ count _) (quiet_read _ σ count)
      rw [handled] at hread
      exact hread
  | @drop i clock σ ending =>
      exact (hserver clock).quiet (preservesLinks_destroy σ _) (quiet_destroy _ σ)
  | @pingRound clock => exact (hserver clock).quiet (preservesLinks_pingRound _) (quiet_pingRound _)

/-- At the start there are no links. -/
theorem Linked.init : Linked {} := by
  refine ⟨.init, .init, fun _ _ hm => ?_, fun _ _ hm => ?_⟩
  · cases hm
  · cases hm

/-- A run keeps the links. -/
theorem Linked.run {s t : State} {acts : List Occurrence} (h : Linked s.server)
    (hheld : Held config T s) (hrun : (system fw config requests).run s acts = some t) :
    Linked t.server ∧ ∃ T', Held config T' t := by
  induction acts generalizing s T with
  | nil =>
      cases hrun
      exact ⟨h, T, hheld⟩
  | cons a acts ih =>
      obtain ⟨u, hstep, hrest⟩ := Option.bind_eq_some_iff.mp hrun
      obtain ⟨T₁, -, -, hheld', -⟩ := hheld.step fw config (P := fun _ => []) hstep
      exact ih (h.step hheld hstep) hheld' hrest

/-- Looking up the link of a file of `p` yields the file iff `p` is a member. -/
theorem Linked.lookUp (h : Linked s) {roomId : String} {p : PeerRef} {f : FileRef}
    (hroom : Lobby.getRoom roomId s = some (s.peers p).room) (hf : f < s.fileCount)
    (hhost : (s.files f).host = p) :
    Links.lookUp (roomId, (s.files f).serverFileId) s =
      if s.scene.IsMember p then some f else none := by
  have hfound : Links.lookUp (roomId, (s.files f).serverFileId) s =
      s.catalogue.fileById (s.catalogue.room (s.catalogue.host f))
        (s.catalogue.serverFileId f) := by
    have hhost' : s.catalogue.host f = p := hhost
    unfold Links.lookUp
    rw [hroom, hhost']
    rfl
  subst hhost
  rw [hfound]
  split
  · next hisMember => exact h.shelved.registered f hf hisMember
  · next hgone => exact h.shelved.fileById_eq_none hf hgone

variable (fw) (config) in
/-- **File links lead to their file while its host is a member.**  Handlers not
interleaved.  Every file entry sent to a client, broadcast or as part of a history,
is a registered file of the peer of the room that the message identifies.  Under
any name that the lobby has for the room, the link leads to this file if its author
is a member, and to no file otherwise; and the lobby has the room of every member. -/
theorem links_live {acts : List Occurrence} {s : State}
    (hrun : (system fw config requests).run {} acts = some s) :
    (∀ q, s.server.scene.IsMember q →
      Lobby.getRoom (s.server.rooms (s.server.peers q).room).name s.server =
        some (s.server.peers q).room) ∧
    ∀ q, ∀ m ∈ s.server.outbox q, ∀ dto ∈ carried m.val, dto.code = some .codePeerMessageFile →
      ∃ p files, (s.server.peers p).room = (s.server.peers q).room ∧
        dto.peerId = some (s.server.peers p).peerId ∧ dto.files = some files ∧
        ∀ entry ∈ files, ∃ f, (s.server.files f).host = p ∧
          entry = some (listing (s.server.files f)) ∧
          ∀ roomId, Lobby.getRoom roomId s.server = some (s.server.peers q).room →
            Links.lookUp (roomId, (s.server.files f).serverFileId) s.server =
              if s.server.scene.IsMember p then some f else none := by
  obtain ⟨hlinked, -⟩ := Linked.init.run (Held.init config) hrun
  refine ⟨fun q hq => hlinked.housed.member _ _ q hq, fun q m hm dto hdto hcode => ?_⟩
  obtain ⟨p, -, hpeerRoom, hid, hoffers⟩ := hlinked.spreads.outbox q m hm dto hdto hcode
  obtain ⟨files, hfiles, hall⟩ := hoffers hcode
  have hpeerRoom : (s.server.peers p).room = (s.server.peers q).room := hpeerRoom
  refine ⟨p, files, hpeerRoom, hid, hfiles, fun entry hentry => ?_⟩
  obtain ⟨f, hf, hhost, hlisting⟩ := hall entry hentry
  refine ⟨f, hhost, hlisting, fun roomId hroom => ?_⟩
  rw [← hpeerRoom] at hroom
  exact hlinked.lookUp hroom hf hhost

/-- Every message of the clients shares a picture. -/
def photographer : Framework := { chatter with readFromString _ := some (some Links.catPhoto) }

/-- Bob shares a picture, then Ann does; he leaves, and his is gone. -/
theorem links_live_oneRoom : ∃ s, (system photographer {} oneRoom).run {} twoPosts = some s ∧
    [1, 2].map (fun id => Links.lookUp ("lounge", id) s.server) = [none, some 1] ∧
    ∀ q, ∀ m ∈ s.server.outbox q, ∀ dto ∈ carried m.val, dto.code = some .codePeerMessageFile →
      ∃ p files, (s.server.peers p).room = (s.server.peers q).room ∧
        dto.peerId = some (s.server.peers p).peerId ∧ dto.files = some files ∧
        ∀ entry ∈ files, ∃ f, (s.server.files f).host = p ∧
          entry = some (listing (s.server.files f)) ∧
          ∀ roomId, Lobby.getRoom roomId s.server = some (s.server.peers q).room →
            Links.lookUp (roomId, (s.server.files f).serverFileId) s.server =
              if s.server.scene.IsMember p then some f else none := by
  have hends : ((system photographer {} oneRoom).run {} twoPosts).map (fun s =>
      [1, 2].map fun id => Links.lookUp ("lounge", id) s.server) = some [none, some 1] := by
    decide +kernel
  obtain ⟨s, hrun, hlinks⟩ := Option.map_eq_some_iff.mp hends
  exact ⟨s, hrun, hlinks, (links_live photographer {} hrun).2⟩

end Linked

end Conversation

end CanChat
