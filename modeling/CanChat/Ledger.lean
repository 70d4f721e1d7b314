/-
CanChat/Ledger.lean

What the handlers of messages are made of, and what they leave alone.

Design.  `Handler.Operations R` lists the operations a message handler is put
together from, sharing a file apart: a preorder `R` between servers that
contains them contains every handler (`Operations.readParsed`), whatever its
outcome.  The ledger is one use of it: the names of the rooms, the files of the
subscribers and the rooms counted, none of which a message changes.
-/
import CanChat.Catalogue
import Mathlib.Logic.Relation

namespace CanChat

namespace Handler

variable {α β : Type} {R : Server → Server → Prop}

/-! ### The rule for handlers -/

/-- Whatever its outcome, `R` holds between the server and what the handler
leaves of it. -/
def Within (R : Server → Server → Prop) (h : Handler α) : Prop := ∀ s, R s (h.exec s).2

/-- `R` is a preorder that contains the operations a message handler is made of. -/
structure Operations (R : Server → Server → Prop) : Prop where
  refl : ∀ s, R s s
  trans : ∀ {s t u}, R s t → R t u → R s u
  createShared : ∀ dto s, R s (Server.createShared dto s).2
  getMicroTickCount : ∀ s, R s (Server.getMicroTickCount s).2
  countMessage : ∀ s, R s (Server.modifyStatistics (fun st =>
    { st with eventPeerSendMessage := st.eventPeerSendMessage + 1 }) s)
  addHistoryMessage : ∀ config ρ message s, R s (Room.addHistoryMessage config ρ message s)
  sendMessageAsync : ∀ ρ message s, R s (Room.sendMessageAsync ρ message s)
  provideFileChunk : ∀ f subscriberId data, Within R (File.provideFileChunk f subscriberId data)

/-- `R` contains the sharing of a file by a member of a room. -/
def Registers (R : Server → Server → Prop) : Prop :=
  ∀ ρ peerId host clientFileId fileName fileSize s, Room.getPeerById ρ peerId s = some host →
    R s (Room.registerFile ρ host clientFileId fileName fileSize s).2

namespace Operations

section Rules

/-- Sequencing stays within `R`, also where the first part fails. -/
theorem bind (h : Operations R) {m : Handler α} {k : α → Handler β} (hm : Within R m)
    (hk : ∀ a, Within R (k a)) : Within R (m >>= k) := by
  intro s
  rw [exec_bind]
  have hs := hm s
  rcases e : exec m s with ⟨_ | a, t⟩ <;> rw [e] at hs
  · exact hs
  · exact h.trans hs (hk a t)

theorem pure (h : Operations R) (a : α) : Within R (pure a) := h.refl

theorem throw (h : Operations R) (fault : Fault) : Within R (throw fault : Handler α) := h.refl

theorem get (h : Operations R) : Within R get := h.refl

theorem deref (h : Operations R) (a : Option α) : Within R (CanChat.deref a) := by
  cases a
  · exact h.throw _
  · exact h.pure _

/-- A message is allocated. -/
theorem allocate (h : Operations R) (dto : MessageDto) :
    Within R (modifyGet (Server.createShared dto)) := h.createShared dto

end Rules

variable (h : Operations R) (fw : Framework) (config : ConfigDto) (p : PeerRef)

include h

/-- An error answer is allocated, and the peer's socket is read. -/
theorem onApiError (text : String) : Within R (Peer.onApiError p text) :=
  h.bind (h.allocate _) fun _ => h.bind h.get fun _ => h.pure _

/-- One answer, for the first entry that lacks something. -/
theorem validateEntries (files : List (Option FileDto)) :
    Within R (Peer.validateEntries p files) := by
  induction files with
  | nil => exact h.pure _
  | cons entry rest ih =>
      rcases entry with - | fileDto
      · exact h.onApiError p _
      · unfold Peer.validateEntries
        repeat' split
        · exact h.onApiError p _
        · exact h.onApiError p _
        · exact h.onApiError p _
        · exact ih

theorem validateFilesList (files : Option (List (Option FileDto))) :
    Within R (Peer.validateFilesList p files) := by
  refine h.bind (h.deref files) fun files => ?_
  split
  · exact h.onApiError p _
  · exact h.validateEntries p files

/-- The only step that is not among the operations: a member registers a file. -/
theorem shareFile (hregister : Registers R) (ρ : RoomRef) (hostPeerId clientFileId : Int)
    (fileName : Option String) (fileSize : Int) :
    Within R (Room.shareFile ρ hostPeerId clientFileId fileName fileSize) := by
  intro s
  unfold Room.shareFile
  rw [exec_bind, exec_get]
  dsimp only
  split
  · exact h.refl s
  -- the host is looked up first, so `R` need only contain what members share
  · next host hhost => exact hregister ρ hostPeerId host clientFileId fileName fileSize s hhost

/-- Files are registered one by one; a missing field ends the loop. -/
theorem shareFiles (hregister : Registers R) (files : List (Option FileDto)) :
    Within R (Peer.shareFiles p files) := by
  induction files with
  | nil => exact h.pure _
  | cons currFile rest ih =>
      refine h.bind (h.deref _) fun fileDto => ?_
      refine h.bind (h.deref _) fun clientFileId => ?_
      refine h.bind (h.deref _) fun size => ?_
      refine h.bind h.get fun s => ?_
      refine h.bind (h.shareFile hregister _ _ _ _ _) fun f => ?_
      refine h.bind h.get fun s => ?_
      exact h.bind ih fun shared => h.pure _

/-- Validation, the loop, and then one message to the room. -/
theorem handleFilesMessage (hregister : Registers R) (message : MessageDto) :
    Within R (Peer.handleFilesMessage config p message) := by
  refine h.bind (h.validateFilesList p _) fun _ => ?_
  refine h.bind h.get fun s => ?_
  refine h.bind h.getMicroTickCount fun timestamp => ?_
  refine h.bind (h.deref _) fun files => ?_
  refine h.bind (h.shareFiles p hregister files) fun shared => ?_
  refine h.bind (h.allocate _) fun fileMessage => ?_
  refine h.bind (h.addHistoryMessage config _ fileMessage) fun _ => ?_
  exact h.bind (h.sendMessageAsync _ fileMessage) fun _ => h.pure _

/-- At most one chunk is handed over. -/
theorem provideChunk (serverFileId subscriberId : Int) (data : String) :
    Within R (Peer.provideChunk fw p serverFileId subscriberId data) := by
  refine h.bind h.get fun s => ?_
  split
  · exact h.pure _
  · split
    · exact h.onApiError p _
    · split
      · exact h.throw _
      · exact h.bind (h.provideFileChunk _ _ _) fun _ => h.pure _

/-- Every test before the chunk is looked at has its own answer, or throws. -/
theorem handleFileChunkMessage (message : MessageDto) :
    Within R (Peer.handleFileChunkMessage fw p message) := by
  unfold Peer.handleFileChunkMessage
  split
  · exact h.onApiError p _
  · next filesList _ =>
    split
    · exact h.onApiError p _
    · have hfront : Within R (Peer.front filesList) := by
        cases filesList
        · exact h.throw _
        · exact h.pure _
      refine h.bind hfront fun fileDto => ?_
      split
      · exact h.onApiError p _
      · split
        · exact h.onApiError p _
        · exact h.onApiError p _
        · exact h.onApiError p _
        · exact h.provideChunk fw p _ _ _

/-- Sharing is among what `R` must contain only where the message asks for it. -/
theorem handleMessage {message : Object MessageDto}
    (hregister : message.val.code = some .codeFileShare → Registers R) :
    Within R (Peer.handleMessage fw config p message) := by
  refine h.bind h.get fun s => ?_
  split
  · exact h.onApiError p _
  · refine h.bind (h.addHistoryMessage config _ message) fun _ => ?_
    refine h.bind (h.sendMessageAsync _ message) fun _ => ?_
    exact h.bind h.countMessage fun _ => h.pure _
  · exact h.bind (h.sendMessageAsync _ message) fun _ => h.pure _
  · next hcode => exact h.handleFilesMessage config p (hregister hcode) message.val
  · exact h.handleFileChunkMessage fw p message.val
  · exact h.onApiError p _

/-- **The rule for handlers.**  A preorder that contains the operations
contains the handling of any message. -/
theorem readParsed {message : MessageDto}
    (hregister : message.code = some .codeFileShare → Registers R) :
    Within R (Peer.readParsed fw config p message) := by
  refine h.bind h.get fun s => ?_
  refine h.bind h.getMicroTickCount fun timestamp => ?_
  intro s'
  rw [exec_bind, exec_modifyGet]
  -- the stamp leaves the code as it is
  let stamped := Peer.stampMessage (s.peers p) timestamp message
  have hhandled : Within R (Peer.handleMessage fw config p (Server.createShared stamped s').1) :=
    h.handleMessage fw config p hregister
  exact h.trans (h.createShared stamped s') (hhandled _)

end Operations

end Handler

/-! ### The ledger -/

/-- What no message changes. -/
@[ext] structure Ledger where
  roomName : RoomRef → String
  /-- The file of each subscriber there is. -/
  subscriberFile : SubscriberRef → Option FileRef
  subscriberCount : ℕ
  eventRoomCreated : ℕ
  eventRoomDeleted : ℕ

/-- The part of a server that the ledger is. -/
def Server.ledger (s : Server) : Ledger where
  roomName ρ := (s.rooms ρ).name
  subscriberFile σ := (s.subscribers σ).map Subscriber.file
  subscriberCount := s.subscriberCount
  eventRoomCreated := s.statistics.eventRoomCreated
  eventRoomDeleted := s.statistics.eventRoomDeleted

section Ledger

variable (s : Server) (ρ : RoomRef) (p : PeerRef)

/-- A room keeps its name. -/
theorem ledger_modifyRoom {g : Room → Room} (hname : ∀ room, (g room).name = room.name) :
    (s.modifyRoom ρ g).ledger = s.ledger := by
  refine Ledger.ext ?_ rfl rfl rfl rfl
  funext ρ'
  rcases eq_or_ne ρ' ρ with rfl | hne
  · simp [Server.ledger, hname]
  · simp [Server.ledger, hne]

/-- A subscriber keeps its file. -/
theorem ledger_modifySubscriber {σ : SubscriberRef} {g : Subscriber → Subscriber}
    (hfile : ∀ subscriber, s.subscribers σ = some subscriber →
      (g subscriber).file = subscriber.file) :
    (s.modifySubscriber σ g).ledger = s.ledger := by
  refine Ledger.ext rfl ?_ rfl rfl rfl
  funext τ
  rcases eq_or_ne τ σ with rfl | hne
  · rcases hσ : s.subscribers τ with - | subscriber
    · simp [Server.ledger, hσ]
    · simp [Server.ledger, hσ, hfile subscriber hσ]
  · simp [Server.ledger, hne]

theorem ledger_addHistoryMessage (config : ConfigDto) (message : Object MessageDto) :
    (Room.addHistoryMessage config ρ message s).ledger = s.ledger := by
  unfold Room.addHistoryMessage
  split
  · rfl
  · exact ledger_modifyRoom s ρ fun room => rfl

theorem ledger_broadcast (message : Object MessageDto) :
    (Room.sendMessageAsync ρ message s).ledger = s.ledger := by
  obtain ⟨_, h⟩ := Room.sendMessageAsync_frame ρ message s
  rw [h]
  rfl

theorem ledger_sendMessageAsync (message : Object MessageDto) :
    (Peer.sendMessageAsync p message s).ledger = s.ledger := by
  obtain ⟨_, h⟩ := Peer.sendMessageAsync_frame p message s
  rw [h]
  rfl

/-- A file is registered in a room that keeps its name. -/
theorem ledger_registerFile (host : PeerRef) (clientFileId : Int) (fileName : Option String)
    (fileSize : Int) :
    (Room.registerFile ρ host clientFileId fileName fileSize s).2.ledger = s.ledger := by
  refine Ledger.ext ?_ rfl rfl rfl rfl
  funext ρ'
  rcases eq_or_ne ρ' ρ with rfl | hne
  · simp [Server.ledger, Room.registerFile, Peer.addFile]
  · simp [Server.ledger, Room.registerFile, Peer.addFile, hne]

/-- A chunk is put into a subscriber, which keeps its file. -/
theorem ledger_provideFileChunk (f : FileRef) (subscriberId : Int) (data : Bytes) :
    ((File.provideFileChunk f subscriberId data).exec s).2.ledger = s.ledger := by
  rw [File.provideFileChunk_exec]
  split
  · rfl
  · split
    · rfl
    · next subscriber hσ =>
      split
      · next subscriber' hok =>
        obtain ⟨-, rfl⟩ := Subscriber.provideFileChunk_eq_ok.mp hok
        refine ledger_modifySubscriber s fun sub hsub => ?_
        -- the subscriber that is handed the chunk is the one looked up
        obtain rfl := Option.some.inj (hσ.symm.trans hsub)
        rfl
      · rfl

/-- A read changes the progress and the chunk of its subscriber, not its file. -/
theorem ledger_read (σ : SubscriberRef) (count : Int) :
    ((Subscriber.read σ count).exec s).2.ledger = s.ledger := by
  rcases hσ : s.subscribers σ with - | subscriber
  · rw [Subscriber.read_exec_none hσ]
  · rw [Subscriber.read_exec hσ]
    split
    · rfl
    · next subscriber' _ =>
      obtain ⟨_, _, heq⟩ := subscriber'.requestChunk_frame count s
      rw [heq]
      rfl
    · next data subscriber' hok =>
      have hfile : subscriber'.file = subscriber.file := by
        obtain ⟨-, ⟨_, -, -, -, -, rfl⟩ | ⟨-, -, -, rfl⟩ | ⟨-, -, rfl⟩⟩ :=
          Subscriber.readChunk_eq_ok hok
        · rfl
        · rfl
        · rfl
      refine (ledger_modifySubscriber s fun sub hsub => ?_ :
        (s.modifySubscriber σ fun _ => subscriber').ledger = s.ledger)
      obtain rfl := Option.some.inj (hσ.symm.trans hsub)
      exact hfile

/-- `File::subscribe` adds one subscriber. -/
theorem ledger_subscribe (f : FileRef) : (File.subscribe f s).2.ledger =
    { s.ledger with
      subscriberFile := Function.update s.ledger.subscriberFile s.ledger.subscriberCount (some f)
      subscriberCount := s.ledger.subscriberCount + 1 } := by
  refine Ledger.ext rfl ?_ rfl rfl rfl
  funext σ
  exact Function.apply_update (fun _ => Option.map Subscriber.file) s.subscribers s.subscriberCount
    _ σ

/-- The destructor removes one subscriber. -/
theorem ledger_destroy (σ : SubscriberRef) : (Subscriber.destroy σ s).ledger =
    { s.ledger with subscriberFile := Function.update s.ledger.subscriberFile σ none } := by
  unfold Subscriber.destroy
  split
  · next hσ =>
    refine Ledger.ext rfl ?_ rfl rfl rfl
    have hnone : s.ledger.subscriberFile σ = none := congrArg (Option.map Subscriber.file) hσ
    -- a subscriber that is not there is not removed
    rw [← hnone, Function.update_eq_self]
  · refine Ledger.ext rfl ?_ rfl rfl rfl
    funext τ
    exact Function.apply_update (fun _ => Option.map Subscriber.file) s.subscribers σ none τ

/-- Cancelling invalidates subscribers and deletes none. -/
theorem ledger_cancelFile (f : FileRef) : (Room.cancelFile ρ s f).ledger = s.ledger := by
  unfold Room.cancelFile Room.eraseFile
  refine (ledger_modifyRoom _ ρ ?_).trans ?_
  · exact fun room => rfl
  rw [File.clearSubscribers_eq]
  refine Ledger.ext rfl ?_ rfl rfl rfl
  funext σ
  simp only [Server.ledger]
  split
  · rcases s.subscribers σ with - | subscriber
    · rfl
    · rfl
  · rfl

/-- The leave of a host deletes no subscriber. -/
theorem ledger_removePeerById (peerId : Int) :
    (Room.removePeerById ρ peerId s).ledger = s.ledger := by
  have hloop : ∀ (fs : List FileRef) (s : Server),
      (fs.foldl (Room.cancelFile ρ) s).ledger = s.ledger := by
    intro fs
    induction fs with
    | nil => exact fun s => rfl
    | cons f fs ih => exact fun s => (ih _).trans (ledger_cancelFile s ρ f)
  unfold Room.removePeerById
  split
  · rfl
  · refine (ledger_modifyRoom _ ρ ?_).trans (hloop _ s)
    exact fun room => rfl

/-- The notice of a leave is a message. -/
theorem ledger_goodbyePeer (config : ConfigDto) :
    (Room.goodbyePeer config ρ p s).ledger = s.ledger :=
  (ledger_broadcast _ ρ _).trans (ledger_addHistoryMessage _ ρ config _)

/-- A round of pings counts dropped peers, which the ledger does not. -/
theorem ledger_pingAllPeers : (Room.pingAllPeers ρ s).ledger = s.ledger := by
  unfold Room.pingAllPeers
  generalize Room.members ρ s = ps
  induction ps generalizing s with
  | nil => rfl
  | cons p ps ih =>
      refine (ih _).trans ?_
      unfold Room.pingPeer
      dsimp only
      split
      · rfl
      · rfl

/-- The room gets its name when it is created, and is counted. -/
theorem ledger_getOrCreateRoom (name : String) :
    (Lobby.getOrCreateRoom name s).2.ledger =
      match Lobby.getRoom name s with
      | some _ => s.ledger
      | none => { s.ledger with
          roomName := Function.update s.ledger.roomName s.roomCount name
          eventRoomCreated := s.ledger.eventRoomCreated + 1 } := by
  unfold Lobby.getOrCreateRoom Lobby.getRoom
  rcases s.lobbyRooms.lookup name with - | ρ
  · refine Ledger.ext ?_ rfl rfl rfl rfl
    funext ρ
    exact Function.apply_update (fun _ room => Room.name room) s.rooms s.roomCount { name } ρ
  · rfl

/-- Nothing of the ledger changes once the room is there. -/
theorem ledger_onAfterCreateNonBlocking (config : ConfigDto) (socket : SocketRef)
    (roomName nickname : String) :
    (Lobby.onAfterCreateNonBlocking config socket roomName nickname s).2.ledger =
      (Lobby.getOrCreateRoom roomName (Lobby.countConnected s)).2.ledger := by
  let entered := Lobby.getOrCreateRoom roomName (Lobby.countConnected s)
  let created := Lobby.createPeer socket entered.1 nickname entered.2
  let welcomed := Room.welcomePeer config entered.1 created.1 created.2
  have hwelcomed : welcomed.ledger = entered.2.ledger :=
    (ledger_broadcast _ _ _).trans (ledger_addHistoryMessage _ _ _ _)
  have hadded : (Room.addPeer entered.1 created.1 welcomed).ledger = welcomed.ledger := by
    apply ledger_modifyRoom
    exact fun room => rfl
  -- the `CODE_INFO` comes last
  exact (ledger_sendMessageAsync _ _ _).trans (hadded.trans hwelcomed)

end Ledger

/-! ### What a message does -/

namespace Catalogue

/-- A member shares a file. -/
def Shares (c d : Catalogue) : Prop :=
  ∃ ρ peerId host clientFileId fileSize, c.member ρ peerId = some host ∧
    d = c.registerFile ρ host clientFileId fileSize

end Catalogue

/-- Only files are shared between `s` and `t`. -/
def Sharing (s t : Server) : Prop :=
  t.ledger = s.ledger ∧ Relation.ReflTransGen Catalogue.Shares s.catalogue t.catalogue

/-- Equal ledgers and catalogues: no file has been shared. -/
theorem Sharing.of_eq {s t : Server} (hledger : t.ledger = s.ledger)
    (hcatalogue : t.catalogue = s.catalogue) : Sharing s t :=
  ⟨hledger, hcatalogue ▸ .refl⟩

/-- The operations of a handler share no file. -/
theorem sharing_operations : Handler.Operations Sharing where
  refl _ := .of_eq rfl rfl
  trans h h' := ⟨h'.1.trans h.1, h.2.trans h'.2⟩
  createShared _ _ := .of_eq rfl rfl
  getMicroTickCount _ := .of_eq rfl rfl
  countMessage _ := .of_eq rfl rfl
  addHistoryMessage config ρ message s :=
    .of_eq (ledger_addHistoryMessage s ρ config message)
      (catalogue_addHistoryMessage s ρ config message)
  sendMessageAsync ρ message s :=
    .of_eq (ledger_broadcast s ρ message) (catalogue_broadcast s ρ message)
  provideFileChunk f subscriberId data s :=
    .of_eq (ledger_provideFileChunk s f subscriberId data)
      (catalogue_provideFileChunk s f subscriberId data)

/-- Registering a file is one step of `Catalogue.Shares`. -/
theorem sharing_registers : Handler.Registers Sharing := by
  intro ρ peerId host clientFileId fileName fileSize s hhost
  refine ⟨ledger_registerFile s ρ host clientFileId fileName fileSize, .single ?_⟩
  exact ⟨ρ, peerId, host, clientFileId, fileSize, hhost,
    catalogue_registerFile s ρ host clientFileId fileName fileSize⟩

/-- A message at most shares files. -/
theorem sharing_readParsed (fw : Framework) (config : ConfigDto) (p : PeerRef)
    (message : MessageDto) (s : Server) :
    Sharing s ((Peer.readParsed fw config p message).exec s).2 :=
  sharing_operations.readParsed fw config p (fun _ => sharing_registers) s

/-- The number of files never falls. -/
theorem Sharing.fileCount_le {s t : Server} (h : Sharing s t) : s.fileCount ≤ t.fileCount := by
  have hle : ∀ {c d}, Relation.ReflTransGen Catalogue.Shares c d → c.fileCount ≤ d.fileCount := by
    intro c d h
    induction h with
    | refl => exact le_rfl
    | tail _ hshares ih =>
        obtain ⟨_, _, _, _, _, -, rfl⟩ := hshares
        exact Nat.le_succ_of_le ih
  exact hle h.2

/-- Without a file the catalogue stays as it is. -/
theorem catalogue_operations : Handler.Operations fun s t => t.catalogue = s.catalogue where
  refl _ := rfl
  trans h h' := h'.trans h
  createShared _ _ := rfl
  getMicroTickCount _ := rfl
  countMessage _ := rfl
  addHistoryMessage config ρ message s := catalogue_addHistoryMessage s ρ config message
  sendMessageAsync ρ message s := catalogue_broadcast s ρ message
  provideFileChunk f subscriberId data s := catalogue_provideFileChunk s f subscriberId data

end CanChat
