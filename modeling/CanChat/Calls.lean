/-
CanChat/Calls.lean

What a step of the chat does, said once.

`Calls` has one case for each call a handler can make, with everything the
call does to the scene: who is a member of what, the histories, the sockets
and the log, the nicknames and the clock.  `step_calls` is the inversion lemma
of `State.step`; no later proof unfolds a step.  `Moves` is the same without
the contents of the messages, for the results that do not look inside them.
-/
import CanChat.Chat
import CanChat.Ledger

namespace CanChat

namespace Chat

/-- Where a socket's peer stands. -/
inductive Phase
  /-- created, not yet a member -/
  | arriving
  /-- a member that has not been sent its `CODE_INFO` -/
  | onboarding
  | staying
  /-- still a member, about to be removed -/
  | leaving
  /-- removed -/
  | left
  deriving DecidableEq, Repr

/-- The phase a stage belongs to, and the peer it is about. -/
def Stage.phase : Stage → Option (Phase × PeerRef)
  | .record .joining p _ | .broadcast .joining p _ | .addPeer p => some (.arriving, p)
  | .onboardPeer p | .getHistory p _ | .sendInfo p _ => some (.onboarding, p)
  | .joined p | .shareFiles p _ _ _ | .record .posting p _ | .broadcast .posting p _ =>
      some (.staying, p)
  | .removePeerById p => some (.leaving, p)
  | .record .leaving p _ | .broadcast .leaving p _ | .invalidateSocket p | .isEmpty p
  | .deleteRoom p => some (.left, p)
  | .closed | .getOrCreateRoom | .createPeer _ | .gone => none

/-- The part of a state the results are about. -/
structure View where
  directory : Directory
  sockets : SocketRef → Connection
  log : List Event

/-- Directory, sockets and log of a state. -/
def State.view (s : State) : View := ⟨s.server.directory, s.sockets, s.log⟩

/-- Socket `k` moves on to `stage`, and `events` are logged. -/
@[simps] def View.goto (k : SocketRef) (stage : Stage) (directory : Directory)
    (events : List Event) (v : View) : View where
  directory := directory
  sockets := Function.update v.sockets k { v.sockets k with stage }
  log := events ++ v.log

/-- A view with what messages are made of. -/
structure Scene extends View where
  nickname : PeerRef → String
  clock : ℕ → Int
  clockReads : ℕ

/-- The view with what the calls read beside it: nicknames and the clock. -/
def State.scene (s : State) : Scene where
  toView := s.view
  nickname p := (s.server.peers p).nickname
  clock := s.server.clock
  clockReads := s.server.clockReads

/-- The handler of `k` has made a call, as in `View.goto`. -/
@[simps! toView nickname clock clockReads]
def Scene.goto (k : SocketRef) (stage : Stage) (directory : Directory) (events : List Event)
    (v : Scene) : Scene :=
  { v with toView := v.toView.goto k stage directory events }

/-- `n` more readings of the clock. -/
def Scene.readClock (n : ℕ) (v : Scene) : Scene := { v with clockReads := v.clockReads + n }

/-- What `readMessage` makes of a client's message, in a scene. -/
def Scene.stamp (p : PeerRef) (message : MessageDto) (v : Scene) : MessageDto :=
  { message with
    peerName := some (v.nickname p)
    peerId := some (v.directory.peerId p)
    timestamp := some (v.clock v.clockReads) }

/-! ### The calls -/

/-- What one step does to the scene, call by call. -/
inductive Calls (config : ConfigDto) (v : Scene) : Act → Scene → Prop
  | connect {k roomName nickname} (h : (v.sockets k).stage = .closed) :
      Calls config v (.connect k roomName nickname) { v with
        sockets := Function.update v.sockets k { roomName, nickname, stage := .getOrCreateRoom } }
  | enter {k ρ} (h : (v.sockets k).stage = .getOrCreateRoom)
      (hρ : v.directory.lobby (v.sockets k).roomName = some ρ) :
      Calls config v (.run k) (v.goto k (.createPeer ρ) v.directory [])
  | createRoom {k} (h : (v.sockets k).stage = .getOrCreateRoom)
      (hnone : v.directory.lobby (v.sockets k).roomName = none) :
      Calls config v (.run k) (v.goto k (.createPeer v.directory.roomCount)
        (v.directory.createRoom (v.sockets k).roomName) [])
  | createPeer {k ρ dto} (h : (v.sockets k).stage = .createPeer ρ)
      (hdto : dto =
        { code := some .codePeerJoined
          peerId := some v.directory.peerIdCounter
          peerName := some (v.sockets k).nickname
          message := some ((v.sockets k).nickname ++ " - joined room") }) :
      Calls config v (.run k)
        { v.goto k (.record .joining v.directory.peerCount dto) (v.directory.createPeer ρ) [] with
          nickname := Function.update v.nickname v.directory.peerCount (v.sockets k).nickname }
  | record {k purpose p dto} (h : (v.sockets k).stage = .record purpose p dto) :
      Calls config v (.run k) (v.goto k (.broadcast purpose p ⟨v.directory.objectCount, dto⟩)
        (v.directory.createShared.addHistoryMessage config (v.directory.peerRoom p)
          ⟨v.directory.objectCount, dto⟩)
        [.recorded (v.directory.peerRoom p) ⟨v.directory.objectCount, dto⟩])
  | broadcast {k purpose p message} {qs : List PeerRef}
      (h : (v.sockets k).stage = .broadcast purpose p message)
      (hqs : ∀ q, q ∈ qs ↔ ∃ id, v.directory.member (v.directory.peerRoom p) id = some q)
      (hnodup : (∀ id id' q, v.directory.member (v.directory.peerRoom p) id = some q →
        v.directory.member (v.directory.peerRoom p) id' = some q → id = id') → qs.Nodup) :
      Calls config v (.run k) (v.goto k (State.afterBroadcast purpose p) v.directory
        (.broadcast (v.directory.peerRoom p) message :: qs.map fun q => .sent q message))
  | addPeer {k p} (h : (v.sockets k).stage = .addPeer p) :
      Calls config v (.run k) (v.goto k (.onboardPeer p)
        (v.directory.addPeer (v.directory.peerRoom p) p) [.added (v.directory.peerRoom p) p])
  | onboardPeer {k p peers} (h : (v.sockets k).stage = .onboardPeer p)
      (hpeers : ∀ entry, entry ∈ peers ↔ ∃ id q,
        v.directory.member (v.directory.peerRoom p) id = some q ∧
          entry = some { peerId := some (v.directory.peerId q), peerName := some (v.nickname q) }) :
      Calls config v (.run k) (v.goto k (.getHistory p peers) v.directory [])
  | getHistory {k p peers info} (h : (v.sockets k).stage = .getHistory p peers)
      (hinfo : info = ⟨v.directory.objectCount,
        { code := some .codeInfo
          peerId := some (v.directory.peerId p)
          peerName := some (v.nickname p)
          peers := some peers
          history := v.directory.getHistory config (v.directory.peerRoom p) }⟩) :
      Calls config v (.run k) (v.goto k (.sendInfo p info) v.directory.createShared
        [.snapshot (v.directory.peerRoom p) p
          (v.directory.getHistory config (v.directory.peerRoom p))])
  | sendInfo {k p info} (h : (v.sockets k).stage = .sendInfo p info) :
      Calls config v (.run k) (v.goto k (.joined p) v.directory
        [.joined (v.directory.peerRoom p) p, .sent p info])
  | post {k p message} (h : (v.sockets k).stage = .joined p)
      (hcode : message.code = some .codePeerMessage) :
      Calls config v (.receive k message)
        ((v.goto k (.record .posting p (v.stamp p message)) v.directory []).readClock 1)
  | typing {k p message} (h : (v.sockets k).stage = .joined p)
      (hcode : message.code = some .codePeerIsTyping) :
      Calls config v (.receive k message)
        ((v.goto k (.broadcast .posting p ⟨v.directory.objectCount, v.stamp p message⟩)
          v.directory.createShared []).readClock 1)
  | share {k p message files d n} (h : (v.sockets k).stage = .joined p)
      (hcode : message.code = some .codeFileShare) (hfiles : message.files = some files)
      (hd : v.directory.Allocates d) :
      Calls config v (.receive k message)
        ((v.goto k (.shareFiles p (v.clock (v.clockReads + n)) files []) d []).readClock (n + 1))
  /-- a message that is answered at once, or a chunk that is handed over -/
  | answer {a k p d n} (ha : ∀ j, a ≠ .run j) (h : (v.sockets k).stage = .joined p)
      (hd : v.directory.Allocates d) :
      Calls config v a ((v.goto k (.joined p) d []).readClock n)
  | shareFile {k p timestamp currFile todo shared sharedFile d n}
      (h : (v.sockets k).stage = .shareFiles p timestamp (currFile :: todo) shared)
      (hd : v.directory.Allocates d) (hfile : Peer.Announces currFile sharedFile) :
      Calls config v (.run k)
        ((v.goto k (.shareFiles p timestamp todo (shared ++ [sharedFile])) d []).readClock n)
  | shared {k p timestamp shared} (h : (v.sockets k).stage = .shareFiles p timestamp [] shared) :
      Calls config v (.run k) (v.goto k (.record .posting p
        { code := some .codePeerMessageFile
          peerId := some (v.directory.peerId p)
          peerName := some (v.nickname p)
          timestamp := some timestamp
          files := some shared }) v.directory [])
  /-- the connection is closed, by the client or because a handler failed -/
  | close {a k p d n} (ha : ∀ j, a = .run j → j = k)
      (h : (v.sockets k).stage.phase = some (.staying, p)) (hd : v.directory.Allocates d) :
      Calls config v a ((v.goto k (.removePeerById p) d []).readClock n)
  | removePeerById {k p dto} (h : (v.sockets k).stage = .removePeerById p)
      (hdto : dto =
        { code := some .codePeerLeft
          peerId := some (v.directory.peerId p)
          message := some (v.nickname p ++ " - left room") }) :
      Calls config v (.run k) (v.goto k (.record .leaving p dto)
        (v.directory.removePeer (v.directory.peerRoom p) (v.directory.peerId p)) [.removed p])
  | invalidateSocket {k p} (h : (v.sockets k).stage = .invalidateSocket p) :
      Calls config v (.run k) (v.goto k (.isEmpty p) v.directory [])
  | isEmpty {k p stage} (h : (v.sockets k).stage = .isEmpty p)
      (hstage : stage = .deleteRoom p ∨ stage = .gone) :
      Calls config v (.run k) (v.goto k stage v.directory [])
  | deleteRoom {k p} (h : (v.sockets k).stage = .deleteRoom p) :
      Calls config v (.run k) (v.goto k .gone
        (v.directory.deleteRoom (v.directory.roomName (v.directory.peerRoom p))) [])
  /-- a ping round, or a pong -/
  | other {a} (ha : ∀ k, a ≠ .run k) : Calls config v a v

/-! ### What the server's functions do to names and the clock -/

/-- Nobody is renamed, and the clock goes on. -/
structure KeepsNames (s t : Server) : Prop where
  nickname : ∀ p, (t.peers p).nickname = (s.peers p).nickname
  clock : t.clock = s.clock
  clockReads : s.clockReads ≤ t.clockReads

/-- No operation of a handler renames a peer. -/
theorem keepsNames_operations : Handler.Operations KeepsNames where
  refl s := ⟨fun _ => rfl, rfl, le_rfl⟩
  trans h h' := ⟨fun p => (h'.nickname p).trans (h.nickname p), h'.clock.trans h.clock,
    h.clockReads.trans h'.clockReads⟩
  createShared _ _ := ⟨fun _ => rfl, rfl, le_rfl⟩
  getMicroTickCount _ := ⟨fun _ => rfl, rfl, Nat.le_succ _⟩
  countMessage _ := ⟨fun _ => rfl, rfl, le_rfl⟩
  addHistoryMessage config ρ message s := by
    unfold Room.addHistoryMessage
    split
    · exact ⟨fun _ => rfl, rfl, le_rfl⟩
    · exact ⟨fun _ => rfl, rfl, le_rfl⟩
  sendMessageAsync ρ message s := by
    obtain ⟨_, h⟩ := Room.sendMessageAsync_frame ρ message s
    rw [h]
    exact ⟨fun _ => rfl, rfl, le_rfl⟩
  provideFileChunk f subscriberId data s := by
    obtain ⟨_, h⟩ := File.provideFileChunk_frame f subscriberId data s
    rw [h]
    exact ⟨fun _ => rfl, rfl, le_rfl⟩

theorem keepsNames_modifyPeer (s : Server) (p : PeerRef) {g : Peer → Peer}
    (hname : ∀ peer, (g peer).nickname = peer.nickname) : KeepsNames s (s.modifyPeer p g) where
  nickname q := by
    rcases eq_or_ne q p with rfl | hne
    · simp [hname]
    · simp [hne]
  clock := rfl
  clockReads := le_rfl

/-- Nor does registering files. -/
theorem keepsNames_registers : Handler.Registers KeepsNames := by
  intro ρ peerId host clientFileId fileName fileSize s _
  have hhost : KeepsNames s (Peer.addFile host s.fileCount s) :=
    keepsNames_modifyPeer s host fun _ => rfl
  exact ⟨hhost.nickname, rfl, le_rfl⟩

/-! ### The inversion lemma -/

theorem State.scene_goto {s : State} {server : Server} {n : ℕ}
    (hname : ∀ p, (server.peers p).nickname = (s.server.peers p).nickname)
    (hclock : server.clock = s.server.clock) (hreads : server.clockReads = s.server.clockReads + n)
    (k : SocketRef) (stage : Stage) (events : List Event) :
    (s.goto k stage server events).scene =
      (s.scene.goto k stage server.directory events).readClock n := by
  have hnickname : (fun p => (server.peers p).nickname) = fun p => (s.server.peers p).nickname :=
    funext hname
  show Scene.mk _ (fun p => (server.peers p).nickname) server.clock server.clockReads = _
  rw [hnickname, hclock, hreads]
  rfl

/-- A step that names nobody. -/
theorem Calls.reading {config : ConfigDto} {s : State} {a : Act} {server : Server} {k : SocketRef}
    {stage : Stage} {events : List Event} {n : ℕ}
    (h : Calls config s.scene a ((s.scene.goto k stage server.directory events).readClock n))
    (hname : ∀ p, (server.peers p).nickname = (s.server.peers p).nickname)
    (hclock : server.clock = s.server.clock)
    (hreads : server.clockReads = s.server.clockReads + n) :
    Calls config s.scene a (s.goto k stage server events).scene := by
  rw [State.scene_goto hname hclock hreads]
  exact h

/-- A step that names nobody and does not read the clock. -/
theorem Calls.quiet {config : ConfigDto} {s : State} {a : Act} {server : Server} {k : SocketRef}
    {stage : Stage} {events : List Event}
    (h : Calls config s.scene a (s.scene.goto k stage server.directory events))
    (hname : ∀ p, (server.peers p).nickname = (s.server.peers p).nickname)
    (hclock : server.clock = s.server.clock) (hreads : server.clockReads = s.server.clockReads) :
    Calls config s.scene a (s.goto k stage server events).scene :=
  .reading (n := 0) h hname hclock hreads

theorem State.scene_goto_keeps {s : State} {server : Server} (h : KeepsNames s.server server)
    (k : SocketRef) (stage : Stage) (events : List Event) :
    (s.goto k stage server events).scene = (s.scene.goto k stage server.directory events).readClock
      (server.clockReads - s.server.clockReads) :=
  State.scene_goto h.nickname h.clock (Nat.add_sub_cancel' h.clockReads).symm k stage events

section Run

variable {config : ConfigDto} {s s' : State} {k : SocketRef} {p : PeerRef}

/-- `Lobby::getOrCreateRoom`, in both branches. -/
theorem getOrCreateRoom_calls (h : (s.sockets k).stage = .getOrCreateRoom) :
    Calls config s.scene (.run k)
      (s.goto k (.createPeer (Lobby.getOrCreateRoom (s.sockets k).roomName s.server).1)
        (Lobby.getOrCreateRoom (s.sockets k).roomName s.server).2 []).scene := by
  have hdirectory := directory_getOrCreateRoom s.server (s.sockets k).roomName
  rcases hroom : Lobby.getRoom (s.sockets k).roomName s.server with - | ρ
  · obtain ⟨_, _, _, _, hcreate⟩ := Lobby.getOrCreateRoom_none hroom
    rw [hcreate, hroom] at hdirectory
    rw [hcreate]
    refine .quiet ?_ (fun _ => rfl) rfl rfl
    rw [hdirectory]
    exact .createRoom h hroom
  · rw [Lobby.getOrCreateRoom_some hroom]
    exact .enter h hroom

/-- `Lobby::onAfterCreate_NonBlocking` creates the peer and makes its notice. -/
theorem createPeer_calls {ρ : RoomRef} (h : (s.sockets k).stage = .createPeer ρ) :
    Calls config s.scene (.run k)
      (s.goto k (.record .joining s.server.peerCount (Room.joinedMessage s.server.peerCount
          (Lobby.createPeer k ρ (s.sockets k).nickname s.server).2))
        (Lobby.createPeer k ρ (s.sockets k).nickname s.server).2 []).scene := by
  have hname :
      (fun q => ((Lobby.createPeer k ρ (s.sockets k).nickname s.server).2.peers q).nickname) =
        Function.update s.scene.nickname s.server.peerCount (s.sockets k).nickname := by
    funext q
    exact Function.apply_update (fun _ peer => Peer.nickname peer) s.server.peers _ _ q
  have hscene : (s.goto k (.record .joining s.server.peerCount (Room.joinedMessage
      s.server.peerCount (Lobby.createPeer k ρ (s.sockets k).nickname s.server).2))
        (Lobby.createPeer k ρ (s.sockets k).nickname s.server).2 []).scene =
      { s.scene.goto k (.record .joining s.server.peerCount (Room.joinedMessage
          s.server.peerCount (Lobby.createPeer k ρ (s.sockets k).nickname s.server).2))
            (s.server.directory.createPeer ρ) [] with
        nickname := Function.update s.scene.nickname s.server.peerCount
          (s.sockets k).nickname } := by
    rw [← directory_createPeer s.server ρ k (s.sockets k).nickname, ← hname]
    rfl
  refine (congrArg (Calls config s.scene (.run k)) hscene).mpr (.createPeer h ?_)
  simp [Room.joinedMessage, Lobby.createPeer]
  exact ⟨rfl, rfl⟩

/-- `Room::addHistoryMessage`. -/
theorem record_calls {purpose : Purpose} {dto : MessageDto}
    (h : (s.sockets k).stage = .record purpose p dto) :
    Calls config s.scene (.run k)
      (s.goto k (.broadcast purpose p (s.server.createShared dto).1)
        (Room.addHistoryMessage config (s.server.peers p).room (s.server.createShared dto).1
          (s.server.createShared dto).2)
        [.recorded (s.server.peers p).room (s.server.createShared dto).1]).scene := by
  refine .quiet ?_ ?_ ?_ ?_
  · rw [directory_addHistoryMessage]
    exact .record h
  · simp [Server.createShared]
  all_goals
    unfold Room.addHistoryMessage
    split <;> rfl

theorem countMessage_frame (message : MessageDto) (t : Server) :
    ∃ statistics, State.countMessage message t = { t with statistics } := by
  unfold State.countMessage
  split
  · exact ⟨_, rfl⟩
  · exact ⟨_, rfl⟩

/-- `Room::sendMessageAsync`, to all members at once. -/
theorem broadcast_calls {purpose : Purpose} {message : Object MessageDto}
    (h : (s.sockets k).stage = .broadcast purpose p message) :
    Calls config s.scene (.run k)
      (s.goto k (State.afterBroadcast purpose p)
        (State.countMessage message.val
          (Room.sendMessageAsync (s.server.peers p).room message s.server))
        (.broadcast (s.server.peers p).room message ::
          (Room.members (s.server.peers p).room s.server).map fun q => .sent q message)).scene := by
  obtain ⟨_, hsend⟩ := Room.sendMessageAsync_frame (s.server.peers p).room message s.server
  have hdirectory := directory_broadcast s.server (s.server.peers p).room message
  obtain ⟨_, hcount⟩ := countMessage_frame message.val
    (Room.sendMessageAsync (s.server.peers p).room message s.server)
  rw [hcount]
  rw [hsend] at hdirectory ⊢
  refine .quiet ?_ (fun _ => rfl) rfl rfl
  refine (congrArg (fun d => Calls config s.scene (.run k) (s.scene.goto k _ d _))
    hdirectory).mpr ?_
  exact .broadcast h (fun q => UnorderedMap.mem_values) UnorderedMap.nodup_values

/-- `Room::onboardPeer` collects the peers. -/
theorem onboardPeer_calls (h : (s.sockets k).stage = .onboardPeer p) :
    Calls config s.scene (.run k) (s.goto k
      (.getHistory p (Room.peersSnapshot (s.server.peers p).room s.server)) s.server []).scene := by
  refine .onboardPeer h fun entry => ?_
  unfold Room.peersSnapshot Room.members
  simp only [List.mem_map, UnorderedMap.mem_values]
  constructor
  · rintro ⟨q, ⟨id, hq⟩, rfl⟩
    exact ⟨id, q, hq, rfl⟩
  · rintro ⟨id, q, hq, rfl⟩
    exact ⟨q, ⟨id, hq⟩, rfl⟩

/-- `Room::onboardPeer` sends CODE_INFO. -/
theorem sendInfo_calls {info : Object MessageDto} (h : (s.sockets k).stage = .sendInfo p info) :
    Calls config s.scene (.run k) (s.goto k (.joined p) (Peer.sendMessageAsync p info s.server)
      [.joined (s.server.peers p).room p, .sent p info]).scene := by
  obtain ⟨_, hsend⟩ := Peer.sendMessageAsync_frame p info s.server
  have hdirectory := directory_sendMessageAsync s.server p info
  rw [hsend] at hdirectory ⊢
  refine .quiet ?_ (fun _ => rfl) rfl rfl
  rw [hdirectory]
  exact .sendInfo h

/-- One turn of the loop in `Peer::handleFilesMessage`. -/
theorem shareFile_calls {timestamp : Int} {currFile : Option FileDto}
    {todo shared files : List (Option FileDto)} {server : Server}
    (h : (s.sockets k).stage = .shareFiles p timestamp (currFile :: todo) shared)
    (hexec : (Peer.shareFiles p [currFile]).exec s.server = (.ok files, server)) :
    Calls config s.scene (.run k)
      (s.goto k (.shareFiles p timestamp todo (shared ++ files)) server []).scene := by
  have hd := Peer.allocates_shareFiles p [currFile] s.server
  have hnames := keepsNames_operations.shareFiles p keepsNames_registers [currFile] s.server
  obtain ⟨sharedFile, _, hfile, hrest, rfl⟩ :=
    List.forall₂_cons_left_iff.mp (Peer.shareFiles_announces hexec)
  obtain rfl := List.forall₂_nil_left_iff.mp hrest
  rw [hexec] at hd hnames
  rw [State.scene_goto_keeps hnames]
  exact .shareFile h hd hfile

/-- A file that cannot be registered: the handler fails, and the connection is
closed. -/
theorem shareFile_fails_calls {timestamp : Int} {currFile : Option FileDto}
    {todo shared : List (Option FileDto)} {e : Fault} {server : Server}
    (h : (s.sockets k).stage = .shareFiles p timestamp (currFile :: todo) shared)
    (hexec : (Peer.shareFiles p [currFile]).exec s.server = (.error e, server)) :
    Calls config s.scene (.run k) (s.goto k (.removePeerById p) server []).scene := by
  have hd := Peer.allocates_shareFiles p [currFile] s.server
  have hnames := keepsNames_operations.shareFiles p keepsNames_registers [currFile] s.server
  rw [hexec] at hd hnames
  rw [State.scene_goto_keeps hnames]
  exact .close (by simp) (congrArg Stage.phase h) hd

/-- `Room::removePeerById`, as the directory sees it. -/
theorem removePeerById_calls (h : (s.sockets k).stage = .removePeerById p) :
    Calls config s.scene (.run k)
      (s.goto k (.record .leaving p (Room.leftMessage p s.server))
        (Room.removePeerById (s.server.peers p).room (s.server.peers p).peerId
          (Lobby.countDisconnected s.server)) [.removed p]).scene := by
  obtain ⟨_, _, _, hremove⟩ := Room.removePeerById_frame (s.server.peers p).room
    (s.server.peers p).peerId (Lobby.countDisconnected s.server)
  have hdirectory := directory_removePeerById (Lobby.countDisconnected s.server)
    (s.server.peers p).room (s.server.peers p).peerId
  rw [hremove] at hdirectory ⊢
  refine .quiet ?_ (fun _ => rfl) rfl rfl
  rw [hdirectory]
  exact .removePeerById h rfl

/-- `Peer::invalidateSocket`. -/
theorem invalidateSocket_calls (h : (s.sockets k).stage = .invalidateSocket p) :
    Calls config s.scene (.run k)
      (s.goto k (.isEmpty p) (Peer.invalidateSocket p s.server) []).scene := by
  have hname := (keepsNames_modifyPeer s.server p
    (g := fun peer => { peer with socket := none }) fun _ => rfl).nickname
  refine .quiet ?_ hname rfl rfl
  rw [directory_invalidateSocket]
  exact .invalidateSocket h

/-- The next call of a handler, by the stage it has reached. -/
theorem run_calls (hs : s.run config k = some s') : Calls config s.scene (.run k) s'.scene := by
  unfold State.run at hs
  rcases hstage : (s.sockets k).stage with - | - | ρ | ⟨purpose, p, dto⟩ | ⟨purpose, p, message⟩ |
    p | p | ⟨p, peers⟩ | ⟨p, info⟩ | p | ⟨p, timestamp, - | ⟨currFile, todo⟩, shared⟩ | p | p | p |
    p | - <;> simp only [hstage, Option.some.injEq, reduceCtorEq] at hs
  case shareFiles.cons =>
    split at hs <;> obtain rfl := Option.some.inj hs
    · next hexec => exact shareFile_calls hstage hexec
    · next hexec => exact shareFile_fails_calls hstage hexec
  all_goals subst hs
  case getOrCreateRoom => exact getOrCreateRoom_calls hstage
  case createPeer => exact createPeer_calls hstage
  case record => exact record_calls hstage
  case broadcast => exact broadcast_calls hstage
  case addPeer =>
    refine .quiet ?_ (fun _ => rfl) rfl rfl
    rw [directory_addPeer]
    exact .addPeer hstage
  case onboardPeer => exact onboardPeer_calls hstage
  case getHistory => exact .getHistory hstage rfl
  case sendInfo => exact sendInfo_calls hstage
  case shareFiles.nil => exact .shared hstage
  case removePeerById => exact removePeerById_calls hstage
  case invalidateSocket => exact invalidateSocket_calls hstage
  case isEmpty =>
    refine .isEmpty hstage ?_
    split
    · exact .inl rfl
    · exact .inr rfl
  case deleteRoom =>
    refine .quiet ?_ (fun _ => rfl) rfl rfl
    rw [directory_deleteRoom]
    exact .deleteRoom hstage

end Run

/-- `Peer::handleMessage`, up to its first call of the room. -/
theorem receive_calls {fw : Framework} {config : ConfigDto} {s s' : State} {k : SocketRef}
    {message : MessageDto} (hs : s.receive fw config k message = some s') :
    Calls config s.scene (.receive k message) s'.scene := by
  unfold State.receive at hs
  split at hs
  · next p hstage =>
    have hphase : (s.scene.sockets k).stage.phase = some (.staying, p) := by
      show (s.sockets k).stage.phase = _
      rw [hstage]
      rfl
    let read := s.server.getMicroTickCount.2
    have hread := keepsNames_operations.getMicroTickCount s.server
    have hcreate := s.server.directory.allocates_createShared
    dsimp only at hs
    -- by the code: a chat message, a typing notice, a list of files, anything else
    split at hs
    · next hcode =>
      obtain rfl := Option.some.inj hs
      rw [State.scene_goto (n := 1) hread.nickname hread.clock rfl]
      exact .post hstage hcode
    · next hcode =>
      obtain rfl := Option.some.inj hs
      have hnames := keepsNames_operations.trans hread (keepsNames_operations.createShared
        (Peer.stampMessage (s.server.peers p) s.server.getMicroTickCount.1 message) read)
      rw [State.scene_goto (n := 1) hnames.nickname hnames.clock rfl]
      exact .typing hstage hcode
    · next hcode =>
      have hvalidate := Peer.allocates_validateFilesList p message.files read
      have hnames := keepsNames_operations.trans hread
        (keepsNames_operations.validateFilesList p message.files read)
      -- validation returns `none`, or the loop over the entries begins
      split at hs <;> obtain rfl := Option.some.inj hs
      · next hexec =>
        rw [Peer.stampMessage] at hexec
        rw [hexec] at hvalidate hnames
        rw [State.scene_goto_keeps hnames]
        exact .close (by simp) hphase hvalidate
      · next server hexec =>
        rw [Peer.stampMessage] at hexec
        rw [hexec] at hvalidate hnames
        -- the announcement is stamped with the reading after those of the validation
        have hreads : server.getMicroTickCount.2.clockReads =
            s.server.clockReads + (server.clockReads - s.server.clockReads + 1) := by
          rw [← Nat.add_assoc, Nat.add_sub_cancel' hnames.clockReads]
          rfl
        have htime : server.getMicroTickCount.1 =
            s.scene.clock (s.scene.clockReads + (server.clockReads - s.server.clockReads)) := by
          show server.clock server.clockReads =
            s.server.clock (s.server.clockReads + (server.clockReads - s.server.clockReads))
          rw [hnames.clock, Nat.add_sub_cancel' hnames.clockReads]
        obtain ⟨files, hfiles⟩ := Peer.validateFilesList_some hexec
        have htodo : (Peer.stampMessage (s.server.peers p) s.server.getMicroTickCount.1
            message).files.getD [] = files := congrArg (Option.getD · []) hfiles
        refine .reading ?_ hnames.nickname hnames.clock hreads
        rw [htime, htodo]
        exact .share hstage hcode hfiles hvalidate
    · next hmessage htyping hshare =>
      let stamped := Peer.stampMessage (s.server.peers p) s.server.getMicroTickCount.1 message
      let created := read.createShared stamped
      have hhandle := hcreate.trans
        ((Peer.allocates_handleMessage fw config p hmessage htyping hshare :
          Handler.Allocates (Peer.handleMessage fw config p created.1)) created.2)
      have hnames := keepsNames_operations.trans
        (keepsNames_operations.trans hread (keepsNames_operations.createShared stamped read))
        (keepsNames_operations.handleMessage fw config p
          (fun h : created.1.val.code = some .codeFileShare => absurd h hshare) created.2)
      -- the other handlers broadcast nothing: they return or throw
      split at hs <;> obtain rfl := Option.some.inj hs
      · next hexec =>
        rw [hexec] at hhandle hnames
        rw [State.scene_goto_keeps hnames]
        exact .answer (by simp) hstage hhandle
      · next hexec =>
        rw [hexec] at hhandle hnames
        rw [State.scene_goto_keeps hnames]
        exact .close (by simp) hphase hhandle
  · cases hs

/-- Every step is one of the calls. -/
theorem step_calls {fw : Framework} {config : ConfigDto} {s s' : State} {a : Act}
    (hs : s.step fw config a = some s') : Calls config s.scene a s'.scene := by
  cases a with
  | connect k roomName nickname =>
      simp only [State.step] at hs
      split at hs
      · next hclosed =>
        obtain rfl := Option.some.inj hs
        exact .connect hclosed
      · cases hs
  | run k => exact run_calls hs
  | receive k message => exact receive_calls hs
  | close k =>
      simp only [State.step] at hs
      split at hs
      · next p hstage =>
        obtain rfl := Option.some.inj hs
        refine .close (p := p) (n := 0) (by simp) ?_ (.refl _)
        show (s.sockets k).stage.phase = _
        rw [hstage]
        rfl
      · cases hs
  -- pings and pongs change counters only, which the scene does not have
  | pingAllPeers ρ =>
      obtain rfl := Option.some.inj hs
      have hscene : (State.scene { s with server := Room.pingAllPeers ρ s.server }) = s.scene := by
        have hdirectory := directory_pingAllPeers s.server ρ
        obtain ⟨_, _, hping, hname⟩ := Room.pingAllPeers_frame ρ s.server
        rw [hping] at hdirectory ⊢
        simp only [State.scene, State.view, hdirectory, hname]
      rw [hscene]
      exact .other (by simp)
  | onPong p =>
      obtain rfl := Option.some.inj hs
      have hscene : (State.scene { s with server := Peer.onPong p s.server }) = s.scene := by
        have hpong : KeepsNames s.server (Peer.onPong p s.server) :=
          keepsNames_modifyPeer s.server p fun _ => rfl
        simp only [State.scene, State.view, directory_onPong, hpong.nickname]
        rfl
      rw [hscene]
      exact .other (by simp)

/-! ### What no call undoes -/

/-- What has been assigned stays assigned, and what has happened has happened. -/
structure Scene.Grows (v v' : Scene) : Prop where
  peerCount : v.directory.peerCount ≤ v'.directory.peerCount
  objectCount : v.directory.objectCount ≤ v'.directory.objectCount
  peerRoom : ∀ p < v.directory.peerCount, v'.directory.peerRoom p = v.directory.peerRoom p
  peerId : ∀ p < v.directory.peerCount, v'.directory.peerId p = v.directory.peerId p
  nickname : ∀ p < v.directory.peerCount, v'.nickname p = v.nickname p
  clock : v'.clock = v.clock
  clockReads : v.clockReads ≤ v'.clockReads
  connection : ∀ k, (v.sockets k).stage ≠ .closed → (v'.sockets k).stage ≠ .closed ∧
    (v'.sockets k).nickname = (v.sockets k).nickname
  log : v.log <:+ v'.log

namespace Scene.Grows

variable {v v' v'' : Scene}

theorem refl (v : Scene) : v.Grows v where
  peerCount := le_rfl
  objectCount := le_rfl
  peerRoom _ _ := rfl
  peerId _ _ := rfl
  nickname _ _ := rfl
  clock := rfl
  clockReads := le_rfl
  connection _ h := ⟨h, rfl⟩
  log := List.suffix_rfl

/-- A handler that creates no peer has made a call. -/
theorem goto {k : SocketRef} {stage : Stage} {d : Directory} {n : ℕ} (events : List Event)
    (hstage : stage ≠ .closed) (hcount : d.peerCount = v.directory.peerCount)
    (hobjects : v.directory.objectCount ≤ d.objectCount)
    (hroom : d.peerRoom = v.directory.peerRoom) (hid : d.peerId = v.directory.peerId) :
    v.Grows ((v.goto k stage d events).readClock n) where
  peerCount := hcount.ge
  objectCount := hobjects
  peerRoom p _ := congrFun hroom p
  peerId p _ := congrFun hid p
  nickname _ _ := rfl
  clock := rfl
  clockReads := Nat.le_add_right _ _
  connection j hj := by
    rcases eq_or_ne j k with rfl | hne
    · simp [Scene.readClock, hstage]
    · simpa [Scene.readClock, hne] using hj
  log := List.suffix_append events v.log

theorem allocates {k : SocketRef} {stage : Stage} {d : Directory} {n : ℕ} (events : List Event)
    (hstage : stage ≠ .closed) (hd : v.directory.Allocates d) :
    v.Grows ((v.goto k stage d events).readClock n) := by
  obtain ⟨m, hm, rfl⟩ := hd
  exact goto events hstage rfl hm rfl rfl

end Scene.Grows

/-- Every call keeps what has been assigned and logged. -/
theorem Calls.grows {config : ConfigDto} {v v' : Scene} {a : Act} (h : Calls config v a v') :
    v.Grows v' := by
  cases h with
  -- the connection of another thread, or the one that was closed
  | @connect k roomName nickname hk =>
      refine { Scene.Grows.refl v with connection := fun j hj => ?_ }
      rcases eq_or_ne j k with rfl | hne
      · exact absurd hk hj
      · simpa [hne] using hj
  -- the maps change at the new index only
  | createPeer hk hdto =>
      let d := v.directory.createPeer
      refine
        { Scene.Grows.goto (n := 0) [] (by simp) rfl le_rfl rfl rfl with
          peerCount := Nat.le_succ _
          peerRoom := fun p hp => Function.update_of_ne hp.ne _ _
          peerId := fun p hp => Function.update_of_ne hp.ne _ _
          nickname := fun p hp => Function.update_of_ne hp.ne _ _ }
  | enter => exact .goto (n := 0) [] (by simp) rfl le_rfl rfl rfl
  | createRoom => exact .goto (n := 0) [] (by simp) rfl le_rfl rfl rfl
  | record => exact .goto (n := 0) _ (by simp) rfl (Nat.le_succ _) rfl rfl
  | @broadcast k purpose =>
      refine .goto (n := 0) _ ?_ rfl le_rfl rfl rfl
      cases purpose <;> simp [State.afterBroadcast]
  | addPeer => exact .goto (n := 0) _ (by simp) rfl le_rfl rfl rfl
  | onboardPeer => exact .goto (n := 0) _ (by simp) rfl le_rfl rfl rfl
  | getHistory => exact .goto (n := 0) _ (by simp) rfl (Nat.le_succ _) rfl rfl
  | sendInfo => exact .goto (n := 0) _ (by simp) rfl le_rfl rfl rfl
  | post => exact .goto _ (by simp) rfl le_rfl rfl rfl
  | typing => exact .goto _ (by simp) rfl (Nat.le_succ _) rfl rfl
  | share _ _ _ hd => exact .allocates _ (by simp) hd
  | answer _ _ hd => exact .allocates _ (by simp) hd
  | shareFile _ hd => exact .allocates _ (by simp) hd
  | shared => exact .goto (n := 0) _ (by simp) rfl le_rfl rfl rfl
  | close _ _ hd => exact .allocates _ (by simp) hd
  | removePeerById => exact .goto (n := 0) _ (by simp) rfl le_rfl rfl rfl
  | invalidateSocket => exact .goto (n := 0) _ (by simp) rfl le_rfl rfl rfl
  | isEmpty _ hstage =>
      refine .goto (n := 0) _ ?_ rfl le_rfl rfl rfl
      rcases hstage with rfl | rfl <;> simp
  | deleteRoom => exact .goto (n := 0) _ (by simp) rfl le_rfl rfl rfl
  | other _ => exact .refl v

/-! ### What a call sends -/

/-- The events of a call, by what it sends. -/
inductive Sends (v : Scene) : Act → List Event → Prop
  | nothing {a events} (h : ∀ q message, .sent q message ∉ events) : Sends v a events
  | broadcast {k purpose p message} {qs : List PeerRef}
      (h : (v.sockets k).stage = .broadcast purpose p message)
      (hqs : ∀ q, q ∈ qs ↔ ∃ id, v.directory.member (v.directory.peerRoom p) id = some q) :
      Sends v (.run k) (.broadcast (v.directory.peerRoom p) message ::
        qs.map fun q => .sent q message)
  | info {k p info} (h : (v.sockets k).stage = .sendInfo p info) :
      Sends v (.run k) [.joined (v.directory.peerRoom p) p, .sent p info]

/-- What a call adds to the log. -/
theorem Calls.sends {config : ConfigDto} {v v' : Scene} {a : Act} (h : Calls config v a v') :
    ∃ events, v'.log = events ++ v.log ∧ Sends v a events := by
  cases h with
  | broadcast h hqs _ => exact ⟨_, rfl, .broadcast h hqs⟩
  | sendInfo h => exact ⟨_, rfl, .info h⟩
  | connect | other => exact ⟨[], rfl, .nothing (by simp)⟩
  | _ => exact ⟨_, rfl, .nothing (by simp)⟩

/-! ### What holds of every stage and every event -/

/-- `P` holds of the stage of every socket, and `E` of every event. -/
structure View.Everywhere (P : SocketRef → Stage → Prop) (E : Event → Prop) (v : View) : Prop where
  stage : ∀ k, P k (v.sockets k).stage
  event : ∀ e ∈ v.log, E e

section Update

variable {P P' : SocketRef → Stage → Prop} {E E' : Event → Prop} {v v' : View}
  {k : SocketRef} {connection : Connection} {events : List Event}

/-- A step of `k`, where the other sockets stay where they were. -/
theorem View.Everywhere.update_of_stages (h : v.Everywhere P E)
    (hstages : ∀ j, P' j (v.sockets j).stage) (hE : ∀ e, E e → E' e)
    (hsockets : v'.sockets = Function.update v.sockets k connection)
    (hlog : v'.log = events ++ v.log) (hstage : P' k connection.stage)
    (hevents : ∀ e ∈ events, E' e) : v'.Everywhere P' E' where
  stage j := by
    rw [hsockets]
    rcases eq_or_ne j k with rfl | hne
    · simpa using hstage
    · simpa [hne] using hstages j
  event e he := by
    rw [hlog] at he
    rcases List.mem_append.mp he with he | he
    · exact hevents e he
    · exact hE e (h.event e he)

theorem View.Everywhere.update (h : v.Everywhere P E) (hP : ∀ k stage, P k stage → P' k stage)
    (hE : ∀ e, E e → E' e)
    (hsockets : v'.sockets = Function.update v.sockets k connection)
    (hlog : v'.log = events ++ v.log) (hstage : P' k connection.stage)
    (hevents : ∀ e ∈ events, E' e) : v'.Everywhere P' E' :=
  h.update_of_stages (fun j => hP j _ (h.stage j)) hE hsockets hlog hstage hevents

end Update

/-! ### The moves -/

/-- Everything a step can do, but for the contents of the messages. -/
inductive Moves (config : ConfigDto) (v : View) : Act → View → Prop
  | connect {k roomName nickname} (h : (v.sockets k).stage = .closed) :
      Moves config v (.connect k roomName nickname) { v with
        sockets := Function.update v.sockets k { roomName, nickname, stage := .getOrCreateRoom } }
  | enter {k ρ} (h : (v.sockets k).stage = .getOrCreateRoom)
      (hρ : v.directory.lobby (v.sockets k).roomName = some ρ) :
      Moves config v (.run k) (v.goto k (.createPeer ρ) v.directory [])
  | createRoom {k} (h : (v.sockets k).stage = .getOrCreateRoom)
      (hnone : v.directory.lobby (v.sockets k).roomName = none) :
      Moves config v (.run k) (v.goto k (.createPeer v.directory.roomCount)
        (v.directory.createRoom (v.sockets k).roomName) [])
  | createPeer {k ρ} (h : (v.sockets k).stage = .createPeer ρ) (dto : MessageDto) :
      Moves config v (.run k) (v.goto k (.record .joining v.directory.peerCount dto)
        (v.directory.createPeer ρ) [])
  | record {k purpose p dto} (h : (v.sockets k).stage = .record purpose p dto) :
      Moves config v (.run k) (v.goto k (.broadcast purpose p ⟨v.directory.objectCount, dto⟩)
        (v.directory.createShared.addHistoryMessage config (v.directory.peerRoom p)
          ⟨v.directory.objectCount, dto⟩)
        [.recorded (v.directory.peerRoom p) ⟨v.directory.objectCount, dto⟩])
  | broadcast {k purpose p message} {qs : List PeerRef}
      (h : (v.sockets k).stage = .broadcast purpose p message)
      (hqs : ∀ id q, v.directory.member (v.directory.peerRoom p) id = some q → q ∈ qs) :
      Moves config v (.run k) (v.goto k (State.afterBroadcast purpose p) v.directory
        (.broadcast (v.directory.peerRoom p) message :: qs.map fun q => .sent q message))
  | addPeer {k p} (h : (v.sockets k).stage = .addPeer p) :
      Moves config v (.run k) (v.goto k (.onboardPeer p)
        (v.directory.addPeer (v.directory.peerRoom p) p) [.added (v.directory.peerRoom p) p])
  | onboardPeer {k p} (h : (v.sockets k).stage = .onboardPeer p) (peers : List (Option PeerDto)) :
      Moves config v (.run k) (v.goto k (.getHistory p peers) v.directory [])
  | getHistory {k p peers info} (h : (v.sockets k).stage = .getHistory p peers)
      (hcode : info.val.code = some .codeInfo)
      (hinfo : info.val.history = v.directory.getHistory config (v.directory.peerRoom p)) :
      Moves config v (.run k) (v.goto k (.sendInfo p info) v.directory.createShared
        [.snapshot (v.directory.peerRoom p) p
          (v.directory.getHistory config (v.directory.peerRoom p))])
  | sendInfo {k p info} (h : (v.sockets k).stage = .sendInfo p info) :
      Moves config v (.run k) (v.goto k (.joined p) v.directory
        [.joined (v.directory.peerRoom p) p, .sent p info])
  | stay {a k p stage d} (h : (v.sockets k).stage.phase = some (.staying, p))
      (hstage : stage.phase = some (.staying, p) ∨ stage.phase = some (.leaving, p))
      (hd : v.directory.Allocates d)
      (hnew : ∀ purpose q message, stage = .broadcast purpose q message →
        message.ptr < d.objectCount) :
      Moves config v a (v.goto k stage d [])
  | removePeerById {k p} (h : (v.sockets k).stage = .removePeerById p) (dto : MessageDto) :
      Moves config v (.run k) (v.goto k (.record .leaving p dto)
        (v.directory.removePeer (v.directory.peerRoom p) (v.directory.peerId p)) [.removed p])
  | invalidateSocket {k p} (h : (v.sockets k).stage = .invalidateSocket p) :
      Moves config v (.run k) (v.goto k (.isEmpty p) v.directory [])
  | isEmpty {k p stage} (h : (v.sockets k).stage = .isEmpty p)
      (hstage : stage = .deleteRoom p ∨ stage = .gone) :
      Moves config v (.run k) (v.goto k stage v.directory [])
  | deleteRoom {k p} (h : (v.sockets k).stage = .deleteRoom p) :
      Moves config v (.run k) (v.goto k .gone
        (v.directory.deleteRoom (v.directory.roomName (v.directory.peerRoom p))) [])
  | other {a} : Moves config v a v

/-- Of the view, every call is one of the moves. -/
theorem Calls.moves {config : ConfigDto} {v v' : Scene} {a : Act} (h : Calls config v a v') :
    Moves config v.toView a v'.toView := by
  cases h with
  | connect h => exact .connect h
  | enter h hρ => exact .enter h hρ
  | createRoom h hnone => exact .createRoom h hnone
  | createPeer h _ => exact .createPeer h _
  | record h => exact .record h
  -- the view records only that the recipients were members
  | broadcast h hqs _ => exact .broadcast h fun id q hq => (hqs q).mpr ⟨id, hq⟩
  | addPeer h => exact .addPeer h
  | onboardPeer h _ => exact .onboardPeer h _
  | getHistory h hinfo =>
      subst hinfo
      exact .getHistory h rfl rfl
  | sendInfo h => exact .sendInfo h
  -- the handlers of a message: the connection stays in the phase `.staying`
  | @post k p message h _ =>
      refine .stay (p := p) ?_ (.inl rfl) (.refl _) (by simp)
      rw [h]
      rfl
  | @typing k p message h _ =>
      refine .stay (p := p) ?_ (.inl rfl) v.directory.allocates_createShared ?_
      · rw [h]
        rfl
      · rintro _ _ _ ⟨⟩
        exact Nat.lt_succ_self _
  | @share k p message files d n h _ _ hd =>
      refine .stay (p := p) ?_ (.inl rfl) hd (by simp)
      rw [h]
      rfl
  | @answer a k p d n _ h hd =>
      refine .stay (p := p) ?_ (.inl rfl) hd (by simp)
      rw [h]
      rfl
  | @shareFile k p timestamp currFile todo shared sharedFile d n h hd =>
      refine .stay (p := p) ?_ (.inl rfl) hd (by simp)
      rw [h]
      rfl
  | @shared k p timestamp shared h =>
      refine .stay (p := p) ?_ (.inl rfl) (.refl _) (by simp)
      rw [h]
      rfl
  | close _ h hd => exact .stay h (.inr rfl) hd (by simp)
  | removePeerById h _ => exact .removePeerById h _
  | invalidateSocket h => exact .invalidateSocket h
  | isEmpty h hstage => exact .isEmpty h hstage
  | deleteRoom h => exact .deleteRoom h
  | other _ => exact .other

/-- Every step is one of the moves. -/
theorem step_moves {fw : Framework} {config : ConfigDto} {s s' : State} {a : Act}
    (hs : s.step fw config a = some s') : Moves config s.view a s'.view :=
  (step_calls hs).moves

end Chat

end CanChat
