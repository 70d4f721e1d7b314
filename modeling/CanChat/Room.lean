/-
CanChat/Room.lean

`Room` (server/src/rooms/Room.cpp): members, history and shared files of one
room.  Each function that the source runs under one lock is one definition
here, so that the systems built over them can take it as one step.
-/
import CanChat.File

namespace CanChat

namespace Room

/-- The members of a room, in the order the map is iterated. -/
def members (ρ : RoomRef) (s : Server) : List PeerRef :=
  (s.rooms ρ).peerById.values

/-! ### Members -/

def addPeer (ρ : RoomRef) (p : PeerRef) (s : Server) : Server :=
  s.modifyRoom ρ fun room => { room with peerById := room.peerById.insert (s.peers p).peerId p }

def getPeerById (ρ : RoomRef) (peerId : Int) (s : Server) : Option PeerRef :=
  (s.rooms ρ).peerById.lookup peerId

def eraseFile (ρ : RoomRef) (f : FileRef) (s : Server) : Server :=
  s.modifyRoom ρ fun room => { room with fileById := room.fileById.erase (s.files f).serverFileId }

/-- The body of the loop in `removePeerById`: cancel one file of the leaver.
`clearSubscribers` has released the lock of the subscribers when the file is erased. -/
def cancelFile (ρ : RoomRef) (s : Server) (f : FileRef) : Server :=
  eraseFile ρ f (File.clearSubscribers f s)

def erasePeer (ρ : RoomRef) (peerId : Int) : Server → Server :=
  Server.modifyRoom ρ fun room => { room with peerById := room.peerById.erase peerId }

def removePeerById (ρ : RoomRef) (peerId : Int) (s : Server) : Server :=
  match getPeerById ρ peerId s with
  | none => s
  | some p => erasePeer ρ peerId ((s.peers p).files.foldl (cancelFile ρ) s)

/-- Rooms, files and subscribers change, nothing else. -/
theorem removePeerById_frame (ρ : RoomRef) (peerId : Int) (s : Server) :
    ∃ rooms files subscribers,
      removePeerById ρ peerId s = { s with rooms, files, subscribers } := by
  have hloop : ∀ (fs : List FileRef) (s : Server), ∃ rooms files subscribers,
      fs.foldl (cancelFile ρ) s = { s with rooms, files, subscribers } := by
    intro fs
    induction fs with
    | nil => exact fun s => ⟨_, _, _, rfl⟩
    | cons f fs ih =>
        intro s
        obtain ⟨rooms, files, subscribers, h⟩ := ih (cancelFile ρ s f)
        refine ⟨rooms, files, subscribers, ?_⟩
        rw [List.foldl_cons, h]
        unfold cancelFile eraseFile
        rw [File.clearSubscribers_eq]
        rfl
  unfold removePeerById
  split
  · exact ⟨_, _, _, rfl⟩
  · next p _ =>
    obtain ⟨_, _, _, h⟩ := hloop (s.peers p).files s
    rw [h]
    exact ⟨_, _, _, rfl⟩

@[simp] theorem removePeerById_peers (ρ : RoomRef) (peerId : Int) (s : Server) :
    (removePeerById ρ peerId s).peers = s.peers := by
  obtain ⟨_, _, _, h⟩ := removePeerById_frame ρ peerId s
  rw [h]

/-- `isEmpty` looks at the size of the map without taking a lock. -/
def isEmpty (ρ : RoomRef) (s : Server) : Bool :=
  (s.rooms ρ).peerById.size == 0

/-! ### History -/

/-- `maxRoomHistoryMessages` is null or zero. -/
def historyDisabled (config : ConfigDto) : Bool :=
  config.maxRoomHistoryMessages.getD 0 == 0

/-- The loop of `addHistoryMessage`: drop from the front while over the bound. -/
def popFront {α : Type} (bound : ℕ) : List α → List α
  | [] => []
  | m :: ms => if (m :: ms).length > bound then popFront bound ms else m :: ms

/-- The loop of `addHistoryMessage` keeps the end of the list. -/
theorem popFront_eq_drop {α : Type} (bound : ℕ) (l : List α) :
    popFront bound l = l.drop (l.length - bound) := by
  induction l with
  | nil => simp [popFront]
  | cons a l ih =>
      rw [popFront]
      split
      · next hlt =>
        have hsub : (a :: l).length - bound = l.length - bound + 1 := by
          simp only [List.length_cons] at hlt ⊢
          omega
        rw [ih, hsub, List.drop_succ_cons]
      · next hle =>
        rw [Nat.sub_eq_zero_of_le (not_lt.mp hle), List.drop_zero]

/-- One more message pushes out the oldest one. -/
theorem popFront_take_reverse {α : Type} (bound : ℕ) (hbound : bound ≠ 0) (a : α) (l : List α) :
    popFront bound ((l.take bound).reverse ++ [a]) = ((a :: l).take bound).reverse := by
  obtain ⟨n, rfl⟩ := Nat.exists_eq_succ_of_ne_zero hbound
  have hreverse : (l.take (n + 1)).reverse ++ [a] = (a :: l.take (n + 1)).reverse :=
    List.reverse_cons.symm
  rw [popFront_eq_drop, hreverse, List.drop_reverse, List.take_succ_cons, List.length_reverse]
  congr 1
  have hlength : (a :: l.take (n + 1)).length = min (n + 1) l.length + 1 := by
    rw [List.length_cons, List.length_take]
  have hkept : (a :: l.take (n + 1)).length - ((a :: l.take (n + 1)).length - (n + 1)) =
      min n l.length + 1 := by
    omega
  rw [hkept, List.take_succ_cons, List.take_take]
  congr 1
  rcases le_total n l.length with hle | hle
  · rw [min_eq_left hle, min_eq_left (Nat.le_succ n)]
  · rw [min_eq_right hle, List.take_of_length_le hle, min_eq_left (Nat.le_succ_of_le hle),
      List.take_length]

def addHistoryMessage (config : ConfigDto) (ρ : RoomRef) (message : Object MessageDto)
    (s : Server) : Server :=
  if historyDisabled config then
    s
  else
    s.modifyRoom ρ fun room =>
      { room with
        history := popFront (config.maxRoomHistoryMessages.getD 0) (room.history ++ [message]) }

@[simp] theorem addHistoryMessage_peers (config : ConfigDto) (ρ : RoomRef)
    (message : Object MessageDto) (s : Server) :
    (addHistoryMessage config ρ message s).peers = s.peers := by
  unfold addHistoryMessage
  split
  · rfl
  · rfl

def getHistory (config : ConfigDto) (ρ : RoomRef) (s : Server) :
    Option (List (Option (Object MessageDto))) :=
  if historyDisabled config then
    none
  else
    some ((s.rooms ρ).history.map some)

/-! ### Broadcasts -/

def sendMessageAsync (ρ : RoomRef) (message : Object MessageDto) (s : Server) : Server :=
  (members ρ s).foldl (fun s p => Peer.sendMessageAsync p message s) s

theorem sendMessageAsync_frame (ρ : RoomRef) (message : Object MessageDto) (s : Server) :
    ∃ outbox, sendMessageAsync ρ message s = { s with outbox } := by
  unfold sendMessageAsync
  generalize members ρ s = ps
  induction ps generalizing s with
  | nil => exact ⟨s.outbox, rfl⟩
  | cons p ps ih =>
      obtain ⟨outbox, h⟩ := Peer.sendMessageAsync_frame p message s
      rw [List.foldl_cons, h]
      exact ih { s with outbox }

@[simp] theorem sendMessageAsync_peers (ρ : RoomRef) (message : Object MessageDto) (s : Server) :
    (sendMessageAsync ρ message s).peers = s.peers := by
  obtain ⟨_, h⟩ := sendMessageAsync_frame ρ message s
  rw [h]

/-- Every member that has a socket gets the message, once. -/
theorem sendMessageAsync_outbox {ρ : RoomRef} {s : Server} (hmembers : (members ρ s).Nodup)
    (message : Object MessageDto) (p : PeerRef) :
    (sendMessageAsync ρ message s).outbox p = s.outbox p ++
      if p ∈ members ρ s ∧ (s.peers p).socket.isSome then [message] else [] := by
  unfold sendMessageAsync
  generalize members ρ s = ps at hmembers ⊢
  induction ps generalizing s with
  | nil => simp
  | cons q ps ih =>
      obtain ⟨hq, hps⟩ := List.nodup_cons.mp hmembers
      have hsent : (Peer.sendMessageAsync q message s).outbox p = s.outbox p ++
          if p = q ∧ (s.peers p).socket.isSome then [message] else [] := by
        unfold Peer.sendMessageAsync
        rcases eq_or_ne p q with rfl | hne
        · split
          · next hsocket => simp [hsocket]
          · next hsocket => simp [hsocket]
        · split
          · simp [hne]
          · simp [hne]
      rw [List.foldl_cons, ih hps, Peer.sendMessageAsync_peers, hsent, List.append_assoc]
      congr 1
      rcases eq_or_ne p q with rfl | hne
      · simp [hq]
      · simp [hne]

/-- The message of `welcomePeer`. -/
def joinedMessage (p : PeerRef) (s : Server) : MessageDto where
  code := some .codePeerJoined
  peerId := some (s.peers p).peerId
  peerName := some (s.peers p).nickname
  message := some ((s.peers p).nickname ++ " - joined room")

def welcomePeer (config : ConfigDto) (ρ : RoomRef) (p : PeerRef) (s : Server) : Server :=
  let (message, s) := s.createShared (joinedMessage p s)
  sendMessageAsync ρ message (addHistoryMessage config ρ message s)

@[simp] theorem welcomePeer_peers (config : ConfigDto) (ρ : RoomRef) (p : PeerRef) (s : Server) :
    (welcomePeer config ρ p s).peers = s.peers := by
  simp [welcomePeer, Server.createShared]

/-- The list `onboardPeer` reads under `m_peerByIdLock`. -/
def peersSnapshot (ρ : RoomRef) (s : Server) : List (Option PeerDto) :=
  (members ρ s).map fun p =>
    some { peerId := some (s.peers p).peerId, peerName := some (s.peers p).nickname }

/-- The message of `onboardPeer`, from the two snapshots it takes. -/
def infoMessage (p : PeerRef) (peers : List (Option PeerDto))
    (history : Option (List (Option (Object MessageDto)))) (s : Server) : MessageDto where
  code := some .codeInfo
  peerId := some (s.peers p).peerId
  peerName := some (s.peers p).nickname
  peers := some peers
  history := history

def onboardPeer (config : ConfigDto) (ρ : RoomRef) (p : PeerRef) (s : Server) : Server :=
  let (message, s) := s.createShared
    (infoMessage p (peersSnapshot ρ s) (getHistory config ρ s) s)
  Peer.sendMessageAsync p message s

@[simp] theorem onboardPeer_peers (config : ConfigDto) (ρ : RoomRef) (p : PeerRef) (s : Server) :
    (onboardPeer config ρ p s).peers = s.peers := by
  unfold onboardPeer
  dsimp only
  rw [Peer.sendMessageAsync_peers]
  rfl

/-- The message of `goodbyePeer`. -/
def leftMessage (p : PeerRef) (s : Server) : MessageDto where
  code := some .codePeerLeft
  peerId := some (s.peers p).peerId
  message := some ((s.peers p).nickname ++ " - left room")

def goodbyePeer (config : ConfigDto) (ρ : RoomRef) (p : PeerRef) (s : Server) : Server :=
  let (message, s) := s.createShared (leftMessage p s)
  sendMessageAsync ρ message (addHistoryMessage config ρ message s)

@[simp] theorem goodbyePeer_peers (config : ConfigDto) (ρ : RoomRef) (p : PeerRef) (s : Server) :
    (goodbyePeer config ρ p s).peers = s.peers := by
  simp [goodbyePeer, Server.createShared]

/-! ### Files -/

/-- `shareFile` once the host is found: create the file and register it. -/
def registerFile (ρ : RoomRef) (host : PeerRef) (clientFileId : Int) (fileName : Option String)
    (fileSize : Int) (s : Server) : FileRef × Server :=
  let f := s.fileCount
  let serverFileId := (s.rooms ρ).fileIdCounter
  let file : File := { host, clientFileId, serverFileId, fileName, fileSize }
  let s := { s with files := Function.update s.files f file, fileCount := s.fileCount + 1 }
  let s := Peer.addFile host f s
  let s := s.modifyRoom ρ fun room =>
    { room with
      fileIdCounter := room.fileIdCounter + 1
      fileById := room.fileById.insert serverFileId f }
  (f, s.modifyStatistics fun st => { st with eventPeerShareFile := st.eventPeerShareFile + 1 })

def shareFile (ρ : RoomRef) (hostPeerId clientFileId : Int) (fileName : Option String)
    (fileSize : Int) : Handler FileRef := do
  match getPeerById ρ hostPeerId (← get) with
  | none => throw (.exception "File host not found.")
  | some host => modifyGet (registerFile ρ host clientFileId fileName fileSize)

/-- The new file is described as its host describes it. -/
theorem file_of_shareFile {ρ : RoomRef} {hostPeerId clientFileId fileSize : Int}
    {fileName : Option String} {f : FileRef} {s t : Server}
    (h : (shareFile ρ hostPeerId clientFileId fileName fileSize).exec s = (.ok f, t)) :
    (t.files f).fileName = fileName ∧ (t.files f).fileSize = fileSize := by
  unfold shareFile at h
  rw [Handler.exec_bind, Handler.exec_get] at h
  dsimp only at h
  split at h
  · cases h
  · cases h
    simp [Peer.addFile]

def getFileById (ρ : RoomRef) (fileId : Int) (s : Server) : Option FileRef :=
  (s.rooms ρ).fileById.lookup fileId

/-! ### Heartbeat -/

/-- The body of the loop in `pingAllPeers`. -/
def pingPeer (s : Server) (p : PeerRef) : Server :=
  let (sent, s) := Peer.sendPingAsync p s
  if sent then
    s
  else
    (Peer.invalidateSocket p s).modifyStatistics fun st =>
      { st with eventPeerZombieDropped := st.eventPeerZombieDropped + 1 }

def pingAllPeers (ρ : RoomRef) (s : Server) : Server :=
  (members ρ s).foldl pingPeer s

/-- Counters and sockets of peers change, nothing else. -/
theorem pingAllPeers_frame (ρ : RoomRef) (s : Server) :
    ∃ statistics peers, pingAllPeers ρ s = { s with statistics, peers } ∧
      ∀ p, (peers p).nickname = (s.peers p).nickname := by
  have hpeer : ∀ (s : Server) q, ∃ statistics peers, pingPeer s q = { s with statistics, peers } ∧
      ∀ p, (peers p).nickname = (s.peers p).nickname := by
    intro s q
    have hupdate : ∀ (peers : PeerRef → Peer) (peer : Peer), peer.nickname = (peers q).nickname →
        ∀ p, (Function.update peers q peer p).nickname = (peers p).nickname := by
      intro peers peer hpeer p
      rcases eq_or_ne p q with rfl | hne
      · rw [Function.update_self, hpeer]
      · rw [Function.update_of_ne hne]
    let pinged := (Peer.sendPingAsync q s).2
    have hpinged : ∀ p, (pinged.peers p).nickname = (s.peers p).nickname :=
      hupdate s.peers { s.peers q with
        pingPoingCounter := (s.peers q).pingPoingCounter + 1 } rfl
    have hdropped : ∀ p, ((Peer.invalidateSocket q pinged).peers p).nickname =
        (pinged.peers p).nickname :=
      hupdate pinged.peers { pinged.peers q with socket := none } rfl
    unfold pingPeer
    dsimp only
    split
    · exact ⟨_, _, rfl, hpinged⟩
    · exact ⟨_, _, rfl, fun p => (hdropped p).trans (hpinged p)⟩
  unfold pingAllPeers
  generalize members ρ s = ps
  induction ps generalizing s with
  | nil => exact ⟨_, _, rfl, fun _ => rfl⟩
  | cons q ps ih =>
      obtain ⟨_, _, hq, hname⟩ := hpeer s q
      obtain ⟨_, _, hps, hnames⟩ := ih (pingPeer s q)
      rw [List.foldl_cons, hps, hq]
      refine ⟨_, _, rfl, fun p => ?_⟩
      rw [hnames, hq]
      exact hname p

end Room

end CanChat
