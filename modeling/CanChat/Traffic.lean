/-
CanChat/Traffic.lean

The chat with its downloads: HTTP requests for shared files, the readers of
their responses, and the chunks that hosts send.

Design.  The sockets are those of `Chat`, and their calls are its steps.
`FileController::GetFile` and the reader of its response make one call with a
lock a step, and so does a chunk message, which looks its file up and then
hands the chunk over.  The listener of a socket, what arrived on which socket,
and who shared which file are recorded as it happens.

A step does to the scene of the chat what a call of the chat does, or sends a
host a request for a chunk (`step_calls`).  Invariants of the scene therefore
need no case for downloads beyond the request (`scene_invariant`).
-/
import CanChat.Delivery

namespace CanChat

/-! ### A chunk message in two parts -/

/-- What `handleFileChunkMessage` passes to `File::provideFileChunk`. -/
structure Chunk where
  file : FileRef
  subscriberId : Int
  data : Bytes
  deriving DecidableEq, Repr

namespace Peer

/-- `provideChunk` up to `File::provideFileChunk`. -/
def lookUpFile (fw : Framework) (p : PeerRef) (serverFileId subscriberId : Int) (data : String) :
    Handler (CoroutineStarter × Option Chunk) := do
  let s ← get
  match Room.getFileById (s.peers p).room serverFileId s with
  | none => pure (none, none)
  | some f =>
      if (s.peers (s.files f).host).peerId ≠ (s.peers p).peerId then do
        pure (← onApiError p "Wrong file host.", none)
      else
        match fw.base64Decode data with
        | none => throw (.exception "Base64::decode")
        | some data => pure (none, some { file := f, subscriberId, data })

/-- `handleFileChunkMessage` up to `File::provideFileChunk`. -/
def lookUpChunk (fw : Framework) (p : PeerRef) (message : MessageDto) :
    Handler (CoroutineStarter × Option Chunk) := do
  match message.files with
  | none => pure (← onApiError p "No file provided.", none)
  | some filesList =>
      if filesList.length > 1 then
        pure (← onApiError p "Invalid files count. Expected - 1.", none)
      else
        match ← front filesList with
        | none => pure (← onApiError p "File structure is not provided.", none)
        | some fileDto =>
            match fileDto.serverFileId, fileDto.subscriberId, fileDto.data with
            | none, _, _ => pure (← onApiError p "File clientId is not provided.", none)
            | some _, none, _ => pure (← onApiError p "File subscriberId is not provided.", none)
            | some _, some _, none => pure (← onApiError p "File chunk data is not provided.", none)
            | some serverFileId, some subscriberId, some data =>
                lookUpFile fw p serverFileId subscriberId data

def provide (found : CoroutineStarter × Option Chunk) : Handler CoroutineStarter :=
  match found with
  | (answer, none) => pure answer
  | (answer, some chunk) => do
      File.provideFileChunk chunk.file chunk.subscriberId chunk.data
      pure answer

/-- The two parts are the handler. -/
theorem handleFileChunkMessage_eq (fw : Framework) (p : PeerRef) (message : MessageDto) :
    handleFileChunkMessage fw p message = lookUpChunk fw p message >>= provide := by
  -- an answer from `onApiError` ends both sides
  have hanswer : ∀ text, onApiError p text =
      (do pure (← onApiError p text, none)) >>= provide := fun text => rfl
  -- the part that looks up the file and decodes the data
  have hfile : ∀ serverFileId subscriberId data, provideChunk fw p serverFileId subscriberId data =
      lookUpFile fw p serverFileId subscriberId data >>= provide := by
    intro serverFileId subscriberId data
    unfold provideChunk lookUpFile
    rw [bind_assoc]
    congr 1
    funext s
    rcases Room.getFileById (s.peers p).room serverFileId s with - | f
    · rfl
    · dsimp only
      split
      · exact hanswer _
      · rcases fw.base64Decode data with - | bytes
        · rfl
        · rfl
  -- the checks of the message are the same on both sides
  unfold handleFileChunkMessage lookUpChunk
  rcases message.files with - | filesList
  · exact hanswer _
  · dsimp only
    split
    · exact hanswer _
    · rw [bind_assoc]
      congr 1
      funext fileDto
      rcases fileDto with - | fileDto
      · exact hanswer _
      · dsimp only
        rcases fileDto.serverFileId with - | serverFileId
        · exact hanswer _
        · rcases fileDto.subscriberId with - | subscriberId
          · exact hanswer _
          · rcases fileDto.data with - | data
            · exact hanswer _
            · exact hfile _ _ _

/-- Only an error answer is allocated. -/
theorem lookUpChunk_frame (fw : Framework) (p : PeerRef) (message : MessageDto) (s : Server) :
    ∃ n, s.objectCount ≤ n ∧
    ((lookUpChunk fw p message).exec s).2 = { s with objectCount := n } := by
  have hsame : ∃ n, s.objectCount ≤ n ∧ s = { s with objectCount := n } :=
    ⟨s.objectCount, le_rfl, rfl⟩
  have hanswer : ∀ text, ∃ n, s.objectCount ≤ n ∧
      (((do pure (← onApiError p text, none)) :
        Handler (CoroutineStarter × Option Chunk)).exec s).2 =
        { s with objectCount := n } := fun text => ⟨s.objectCount + 1, Nat.le_succ _, rfl⟩
  unfold lookUpChunk
  split
  · exact hanswer _
  · split
    · exact hanswer _
    · next filesList _ _ =>
      rw [Handler.exec_bind]
      rcases filesList with - | ⟨fileDto, rest⟩
      · exact hsame
      · show ∃ n, _ ∧ (Handler.exec (match fileDto with | none => _ | some fileDto => _) s).2 = _
        split
        · exact hanswer _
        · split
          · exact hanswer _
          · exact hanswer _
          · exact hanswer _
          · unfold lookUpFile
            rw [Handler.exec_bind, Handler.exec_get]
            dsimp only
            split
            · exact hsame
            · split
              · exact hanswer _
              · split
                · exact hsame
                · exact hsame

end Peer

namespace Traffic

/-! ### The system -/

/-- The next call made for an HTTP request. -/
inductive Download
  | idle
  | getFileById (ρ : RoomRef) (fileId : Int)
  | subscribe (f : FileRef)
  | streaming (σ : SubscriberRef)
  /-- a read has failed; the response is about to be dropped -/
  | failed (σ : SubscriberRef)
  | finished
  deriving DecidableEq, Repr

structure Arrival where
  socket : SocketRef
  peer : PeerRef
  message : MessageDto

structure State where
  chat : Chat.State := {}
  /-- The chunk a socket's handler is about to hand over. -/
  chunks : SocketRef → Option Chunk := fun _ => none
  downloads : ℕ → Download := fun _ => .idle
  /-- `AsyncWebSocket::getListener`. -/
  listener : SocketRef → Option PeerRef := fun _ => none
  /-- The messages handled so far, newest first. -/
  arrivals : List Arrival := []
  /-- Who has shared which file. -/
  shared : List (FileRef × PeerRef) := []

inductive Act
  | chat (a : Chat.Act)
  /-- `File::provideFileChunk`, on behalf of `k` -/
  | provide (k : SocketRef)
  /-- `GetFile::act`, up to `getRoom` -/
  | getRoom (i : ℕ) (roomId : String) (fileId : Int)
  /-- its next call -/
  | getFile (i : ℕ)
  /-- `ReadCallback::read` -/
  | read (i : ℕ) (count : Int)
  | drop (i : ℕ)

namespace State

def server (s : State) : Server := s.chat.server

def withServer (server : Server) (s : State) : State :=
  { s with chat := { s.chat with server } }

/-- The files registered in a call, with the peer that shares them. -/
def sharedBy (p : PeerRef) (s t : Server) : List (FileRef × PeerRef) :=
  (List.range' s.fileCount (t.fileCount - s.fileCount)).map fun f => (f, p)

def run (config : ConfigDto) (k : SocketRef) (s : State) : Option State :=
  match s.chat.run config k with
  | none => none
  | some chat =>
      some { s with
        chat := chat
        listener := match (s.chat.sockets k).stage with
          | .createPeer _ => Function.update s.listener k (some s.server.peerCount)
          | _ => s.listener
        shared := match (s.chat.sockets k).stage with
          | .shareFiles p _ _ _ => sharedBy p s.server chat.server ++ s.shared
          | _ => s.shared }

/-- The message as `handleMessage` gets it. -/
def stamp (p : PeerRef) (message : MessageDto) (s : Server) : Object MessageDto × Server :=
  let (timestamp, s) := s.getMicroTickCount
  s.createShared (Peer.stampMessage (s.peers p) timestamp message)

/-- `readMessage` for a chunk message, up to `File::provideFileChunk`. -/
def receiveChunk (fw : Framework) (k : SocketRef) (p : PeerRef) (message : MessageDto) (s : State) :
    State :=
  let (message, server) := stamp p message s.server
  match (Peer.lookUpChunk fw p message.val).exec server with
  | (.ok (none, chunk), server) => { s with
      chat := s.chat.goto k (.joined p) server []
      chunks := Function.update s.chunks k chunk }
  -- the connection is closed after an API error
  | (_, server) => { s with chat := s.chat.goto k (.removePeerById p) server [] }

def receive (fw : Framework) (config : ConfigDto) (k : SocketRef) (message : MessageDto)
    (s : State) : Option State :=
  match (s.chat.sockets k).stage, s.chunks k with
  | .joined p, none =>
      let s := { s with arrivals := ⟨k, p, message⟩ :: s.arrivals }
      match message.code with
      | some .codeFileChunkData => some (s.receiveChunk fw k p message)
      | _ => (s.chat.receive fw config k message).map fun chat => { s with chat }
  | _, _ => none

/-- A handler that fails takes the connection with it. -/
def provide (k : SocketRef) (s : State) : Option State :=
  match (s.chat.sockets k).stage, s.chunks k with
  | .joined p, some chunk =>
      let s := { s with chunks := Function.update s.chunks k none }
      match (File.provideFileChunk chunk.file chunk.subscriberId chunk.data).exec s.server with
      | (.ok _, server) => some { s with chat := s.chat.goto k (.joined p) server [] }
      | (.error _, server) => some { s with chat := s.chat.goto k (.removePeerById p) server [] }
  | _, _ => none

def getFile (i : ℕ) (s : State) : Option State :=
  match s.downloads i with
  | .getFileById ρ fileId =>
      let download := match Room.getFileById ρ fileId s.server with
        | some f => .subscribe f
        | none => .finished
      some { s with downloads := Function.update s.downloads i download }
  | .subscribe f =>
      let (σ, server) := File.subscribe f s.server
      some { s.withServer server with
        downloads := Function.update s.downloads i (.streaming σ) }
  | _ => none

/-- The request a read sends to the host, if it sends one. -/
def requests (σ : SubscriberRef) (count : Int) (s : Server) : List Chat.Event :=
  match s.subscribers σ with
  | none => []
  | some subscriber =>
      match subscriber.readChunk (s.files subscriber.file).fileSize count with
      | .ok (.retryRead, subscriber) =>
          let file := s.files subscriber.file
          [.sent file.host ⟨s.objectCount, subscriber.requestChunkMessage file.clientFileId
            file.serverFileId count⟩]
      | _ => []

def read (i : ℕ) (count : Int) (s : State) : Option State :=
  match s.downloads i with
  | .streaming σ =>
      let (result, server) := (Subscriber.read σ count).exec s.server
      let download := match result with
        | .ok _ => .streaming σ
        | .error _ => .failed σ
      some { s with
        chat := { s.chat with server, log := requests σ count s.server ++ s.chat.log }
        downloads := Function.update s.downloads i download }
  | _ => none

def drop (i : ℕ) (s : State) : Option State :=
  match s.downloads i with
  | .streaming σ | .failed σ => some { s.withServer (Subscriber.destroy σ s.server) with
      downloads := Function.update s.downloads i .finished }
  | _ => none

def step (fw : Framework) (config : ConfigDto) (s : State) : Act → Option State
  | .chat (.run k) => s.run config k
  | .chat (.receive k message) => s.receive fw config k message
  | .chat (.close k) =>
      match s.chunks k with
      | none => (s.chat.step fw config (.close k)).map fun chat => { s with chat }
      | some _ => none
  | .chat a => (s.chat.step fw config a).map fun chat => { s with chat }
  | .provide k => s.provide k
  | .getRoom i roomId fileId =>
      match s.downloads i with
      | .idle =>
          let download := match Lobby.getRoom roomId s.server with
            | some ρ => .getFileById ρ fileId
            | none => .finished
          some { s with downloads := Function.update s.downloads i download }
      | _ => none
  | .getFile i => s.getFile i
  | .read i count => s.read i count
  | .drop i => s.drop i

end State

/-- A fresh server. -/
def system (fw : Framework) (config : ConfigDto) : Transition.System State Act where
  init s := ∃ clock, s = { chat := { server := { clock } } }
  step := State.step fw config

/-! ### What a step does to the scene -/

open Chat (Scene Calls KeepsNames)

/-- A host is sent a request. -/
def request (host : PeerRef) (dto : MessageDto) (v : Scene) : Scene :=
  { v with
    directory := v.directory.createShared
    log := .sent host ⟨v.directory.objectCount, dto⟩ :: v.log }

variable {fw : Framework} {config : ConfigDto} {s s' : State}

theorem receiveChunk_arrivals (k : SocketRef) (p : PeerRef) (message : MessageDto) :
    (s.receiveChunk fw k p message).arrivals = s.arrivals := by
  unfold State.receiveChunk
  dsimp only
  split
  · rfl
  · rfl

theorem receiveChunk_listener (k : SocketRef) (p : PeerRef) (message : MessageDto) :
    (s.receiveChunk fw k p message).listener = s.listener := by
  unfold State.receiveChunk
  dsimp only
  split
  · rfl
  · rfl

theorem receiveChunk_calls {k : SocketRef} {p : PeerRef} {message : MessageDto}
    (hstage : (s.chat.sockets k).stage = .joined p) :
    Calls config s.chat.scene (.receive k message) (s.receiveChunk fw k p message).chat.scene := by
  let stamped := State.stamp p message s.server
  obtain ⟨n, hn, hframe⟩ := Peer.lookUpChunk_frame fw p stamped.1.val stamped.2
  have hd : s.chat.scene.directory.Allocates
      { s.chat.scene.directory with objectCount := n } :=
    ⟨n, (Nat.le_succ _).trans hn, rfl⟩
  unfold State.receiveChunk
  dsimp only
  split
  · next hexec =>
    rw [hexec] at hframe
    dsimp only at hframe ⊢
    subst hframe
    exact .reading (n := 1) (.answer (by simp) hstage hd) (fun _ => rfl) rfl rfl
  · next hexec =>
    rw [hexec] at hframe
    dsimp only at hframe ⊢
    subst hframe
    have hphase : (s.chat.scene.sockets k).stage.phase = some (.staying, p) := by
      show (s.chat.sockets k).stage.phase = _
      rw [hstage]
      rfl
    exact .reading (n := 1) (.close (by simp) hphase hd) (fun _ => rfl) rfl rfl

theorem provide_calls {k : SocketRef} (hs : s.provide k = some s') :
    ∃ b, Calls config s.chat.scene b s'.chat.scene ∧ (∀ j, b ≠ .run j) ∧
      ∀ j message, b ≠ .receive j message := by
  unfold State.provide at hs
  split at hs
  · next p chunk hstage _ =>
    have hphase : (s.chat.scene.sockets k).stage.phase = some (.staying, p) := by
      show (s.chat.sockets k).stage.phase = _
      rw [hstage]
      rfl
    obtain ⟨_, hframe⟩ :=
      File.provideFileChunk_frame chunk.file chunk.subscriberId chunk.data s.chat.server
    dsimp only [State.server] at hs
    split at hs <;> obtain rfl := Option.some.inj hs
    · next hexec =>
      rw [hexec] at hframe
      subst hframe
      refine ⟨.onPong 0, ?_, by simp, by simp⟩
      exact .reading (n := 0) (.answer (by simp) hstage (.refl _)) (fun _ => rfl) rfl rfl
    · next hexec =>
      rw [hexec] at hframe
      subst hframe
      refine ⟨.close k, ?_, by simp, by simp⟩
      exact .reading (n := 0) (.close (by simp) hphase (.refl _)) (fun _ => rfl) rfl rfl
  · cases hs

/-- A read changes nothing of the scene, unless it sends a request. -/
theorem scene_read (σ : SubscriberRef) (count : Int) (t : Chat.State) :
    Chat.State.scene { t with
        server := ((Subscriber.read σ count).exec t.server).2
        log := State.requests σ count t.server ++ t.log } = t.scene ∨
      ∃ subscriber dto, t.server.subscribers σ = some subscriber ∧
        dto.code = some .codeFileRequestChunk ∧
          Chat.State.scene { t with
            server := ((Subscriber.read σ count).exec t.server).2
            log := State.requests σ count t.server ++ t.log } =
              request (t.server.files subscriber.file).host dto t.scene := by
  rcases hsub : t.server.subscribers σ with - | subscriber
  · left
    rw [Subscriber.read_exec_none hsub]
    simp only [State.requests, hsub, List.nil_append]
  · rw [Subscriber.read_exec hsub]
    rcases hread : subscriber.readChunk (t.server.files subscriber.file).fileSize count with
      fault | ⟨data | -, subscriber'⟩
    · left
      simp only [State.requests, hsub, hread, List.nil_append]
    · left
      simp only [State.requests, hsub, hread, List.nil_append]
      rfl
    · right
      -- a subscriber that waits is valid, so the request is sent
      obtain ⟨hvalid, ⟨_, -, -, -, h, -⟩ | ⟨-, -, -, rfl⟩ | ⟨-, h, -⟩⟩ :=
        Subscriber.readChunk_eq_ok hread
      · cases h
      · let file := t.server.files subscriber'.file
        let dto := subscriber'.requestChunkMessage file.clientFileId file.serverFileId count
        refine ⟨subscriber', dto, rfl, rfl, ?_⟩
        have hrequest : subscriber'.requestChunk count t.server =
            Peer.sendMessageAsync file.host ⟨t.server.objectCount, dto⟩
              { t.server with objectCount := t.server.objectCount + 1 } := if_pos hvalid
        obtain ⟨_, hsend⟩ := Peer.sendMessageAsync_frame file.host ⟨t.server.objectCount, dto⟩
          { t.server with objectCount := t.server.objectCount + 1 }
        simp only [State.requests, hsub, hread, hrequest, hsend]
        rfl
      · cases h

theorem read_calls {i : ℕ} {count : Int} (hs : s.read i count = some s') :
    s'.chat.scene = s.chat.scene ∨
      ∃ σ subscriber dto, s.server.subscribers σ = some subscriber ∧
        dto.code = some .codeFileRequestChunk ∧
          s'.chat.scene = request (s.server.files subscriber.file).host dto s.chat.scene := by
  unfold State.read at hs
  split at hs
  · next σ hstreaming =>
    obtain rfl := Option.some.inj hs
    exact (scene_read σ count s.chat).imp_right fun h => ⟨σ, h⟩
  · cases hs

/-! ### Who listens to a socket -/

/-- A message arrives, a listener is set, or neither. -/
theorem step_listener {a : Act} (hs : s.step fw config a = some s') :
    ((∀ k ρ, a = .chat (.run k) → (s.chat.sockets k).stage ≠ .createPeer ρ) ∧
        s'.arrivals = s.arrivals ∧ s'.listener = s.listener) ∨
      (∃ k p message, a = .chat (.receive k message) ∧ (s.chat.sockets k).stage = .joined p ∧
        s'.arrivals = ⟨k, p, message⟩ :: s.arrivals ∧ s'.listener = s.listener) ∨
      ∃ k ρ, a = .chat (.run k) ∧ (s.chat.sockets k).stage = .createPeer ρ ∧
        s'.arrivals = s.arrivals ∧
          s'.listener = Function.update s.listener k (some s.server.peerCount) := by
  -- a step of the chat alone leaves both
  have hlift : ∀ b, (s.chat.step fw config b).map (fun chat => { s with chat }) = some s' →
      s'.arrivals = s.arrivals ∧ s'.listener = s.listener := by
    intro b hb
    obtain ⟨chat, -, rfl⟩ := Option.map_eq_some_iff.mp hb
    exact ⟨rfl, rfl⟩
  cases a with
  | chat b =>
      cases b with
      | run k =>
          simp only [State.step, State.run] at hs
          split at hs
          · cases hs
          · obtain rfl := Option.some.inj hs
            dsimp only
            split
            · next ρ hstage => exact .inr (.inr ⟨k, ρ, rfl, hstage, rfl, rfl⟩)
            · next hstage =>
              refine .inl ⟨?_, rfl, rfl⟩
              rintro j ρ ⟨⟩
              exact hstage ρ
      | receive k message =>
          right
          left
          simp only [State.step, State.receive] at hs
          -- `setListener` is part of the step that creates the peer
          split at hs
          · next p hstage _ =>
            -- a chunk message is looked up at once, the others take the socket's turn; both
            -- are logged
            split at hs
            · obtain rfl := Option.some.inj hs
              refine ⟨k, p, message, rfl, hstage, receiveChunk_arrivals k p message, ?_⟩
              exact receiveChunk_listener k p message
            · obtain ⟨chat, -, rfl⟩ := Option.map_eq_some_iff.mp hs
              exact ⟨k, p, message, rfl, hstage, rfl, rfl⟩
          · cases hs
      | close k =>
          simp only [State.step] at hs
          split at hs
          · exact .inl ⟨by simp, hlift (.close k) hs⟩
          · cases hs
      | connect k roomName nickname => exact .inl ⟨by simp, hlift (.connect k roomName nickname) hs⟩
      | pingAllPeers ρ => exact .inl ⟨by simp, hlift (.pingAllPeers ρ) hs⟩
      | onPong p => exact .inl ⟨by simp, hlift (.onPong p) hs⟩
  | provide k =>
      simp only [State.step, State.provide] at hs
      split at hs
      · split at hs <;> obtain rfl := Option.some.inj hs
        · exact .inl ⟨by simp, rfl, rfl⟩
        · exact .inl ⟨by simp, rfl, rfl⟩
      · cases hs
  | getRoom i roomId fileId =>
      simp only [State.step] at hs
      split at hs
      · obtain rfl := Option.some.inj hs
        exact .inl ⟨by simp, rfl, rfl⟩
      · cases hs
  | getFile i =>
      simp only [State.step, State.getFile] at hs
      split at hs
      · obtain rfl := Option.some.inj hs
        exact .inl ⟨by simp, rfl, rfl⟩
      · obtain rfl := Option.some.inj hs
        exact .inl ⟨by simp, rfl, rfl⟩
      · cases hs
  | read i count =>
      simp only [State.step, State.read] at hs
      split at hs
      · obtain rfl := Option.some.inj hs
        exact .inl ⟨by simp, rfl, rfl⟩
      · cases hs
  | drop i =>
      simp only [State.step, State.drop] at hs
      split at hs
      · obtain rfl := Option.some.inj hs
        exact .inl ⟨by simp, rfl, rfl⟩
      · obtain rfl := Option.some.inj hs
        exact .inl ⟨by simp, rfl, rfl⟩
      · cases hs

/-! ### The calls of a step -/

/-- The call of a step: a handler that runs goes on by its own step, what is
received arrives, and nothing else does. -/
structure CallOf (s : State) (a : Act) (s' : State) (b : Chat.Act) : Prop where
  run : ∀ k, b = .run k ↔ a = .chat (.run k)
  receive : ∀ k message, b = .receive k message →
    ∃ p, (s.chat.sockets k).stage = .joined p ∧ s'.arrivals = ⟨k, p, message⟩ :: s.arrivals
  quiet : (∀ k message, b ≠ .receive k message) → s'.arrivals = s.arrivals

/-- What is not received does not arrive. -/
theorem step_arrivals_of_ne {a : Act} (hs : s.step fw config a = some s')
    (ha : ∀ k message, a ≠ .chat (.receive k message)) : s'.arrivals = s.arrivals := by
  rcases step_listener hs with ⟨-, h, -⟩ | ⟨k, _, message, hreceive, -⟩ | ⟨_, _, -, -, h, -⟩
  · exact h
  · exact absurd hreceive (ha k message)
  · exact h

/-- A step is a call of the chat, or a request to a host. -/
theorem step_calls {a : Act} (hs : s.step fw config a = some s') :
    (∃ b, Calls config s.chat.scene b s'.chat.scene ∧ CallOf s a s' b) ∨
      ∃ i count σ subscriber dto, a = .read i count ∧
        s.server.subscribers σ = some subscriber ∧
          dto.code = some .codeFileRequestChunk ∧
            s'.chat.scene = request (s.server.files subscriber.file).host dto s.chat.scene := by
  have hcall : ∀ b : Chat.Act, (∀ k, b ≠ .run k) → (∀ k message, b ≠ .receive k message) →
      (∀ k, a ≠ .chat (.run k)) → (∀ k message, a ≠ .chat (.receive k message)) →
        CallOf s a s' b := fun b hrun hreceive ha ha' =>
    ⟨fun k => iff_of_false (hrun k) (ha k), fun k message hb => absurd hb (hreceive k message),
      fun _ => step_arrivals_of_ne hs ha'⟩
  -- a step that is no call leaves the scene as it is
  have hother : (∀ k, a ≠ .chat (.run k)) → (∀ k message, a ≠ .chat (.receive k message)) →
      s'.chat.scene = s.chat.scene →
        ∃ b, Calls config s.chat.scene b s'.chat.scene ∧ CallOf s a s' b := by
    intro ha ha' hscene
    rw [hscene]
    exact ⟨.onPong 0, .other (by simp), hcall _ (by simp) (by simp) ha ha'⟩
  have hlift : ∀ b, (s.chat.step fw config b).map (fun chat => { s with chat }) = some s' →
      Calls config s.chat.scene b s'.chat.scene := by
    intro b hb
    obtain ⟨chat, hchat, rfl⟩ := Option.map_eq_some_iff.mp hb
    exact Chat.step_calls hchat
  cases a with
  | chat b =>
      left
      cases b with
      | run k =>
          simp only [State.step, State.run] at hs
          split at hs
          · cases hs
          · next chat hchat =>
            obtain rfl := Option.some.inj hs
            refine ⟨.run k, Chat.run_calls hchat, fun j => by simp, by simp, fun _ => rfl⟩
      | receive k message =>
          simp only [State.step, State.receive] at hs
          split at hs
          · next p hstage _ =>
            have hreceive : ∀ t : State, t.arrivals = ⟨k, p, message⟩ :: s.arrivals →
                CallOf s (.chat (.receive k message)) t (.receive k message) := by
              intro t ht
              refine ⟨by simp, ?_, fun hne => absurd rfl (hne k message)⟩
              rintro _ _ ⟨⟩
              exact ⟨p, hstage, ht⟩
            let s₁ : State := { s with arrivals := ⟨k, p, message⟩ :: s.arrivals }
            split at hs
            · obtain rfl := Option.some.inj hs
              exact ⟨_, receiveChunk_calls (s := s₁) hstage,
                hreceive _ (receiveChunk_arrivals k p message)⟩
            · obtain ⟨chat, hchat, rfl⟩ := Option.map_eq_some_iff.mp hs
              exact ⟨_, Chat.receive_calls hchat, hreceive _ rfl⟩
          · cases hs
      | close k =>
          simp only [State.step] at hs
          split at hs
          · exact ⟨.close k, hlift _ hs, hcall _ (by simp) (by simp) (by simp) (by simp)⟩
          · cases hs
      | connect k roomName nickname =>
          exact ⟨.connect k roomName nickname, hlift _ hs,
            hcall _ (by simp) (by simp) (by simp) (by simp)⟩
      | pingAllPeers ρ =>
          exact ⟨.pingAllPeers ρ, hlift _ hs, hcall _ (by simp) (by simp) (by simp) (by simp)⟩
      | onPong p => exact ⟨.onPong p, hlift _ hs, hcall _ (by simp) (by simp) (by simp) (by simp)⟩
  | provide k =>
      obtain ⟨b, hb, hrun, hreceive⟩ := @provide_calls config s s' k hs
      exact .inl ⟨b, hb, hcall b hrun hreceive (by simp) (by simp)⟩
  | getRoom i roomId fileId =>
      simp only [State.step] at hs
      split at hs
      · obtain rfl := Option.some.inj hs
        exact .inl (hother (by simp) (by simp) rfl)
      · cases hs
  | getFile i =>
      simp only [State.step, State.getFile] at hs
      split at hs
      · obtain rfl := Option.some.inj hs
        exact .inl (hother (by simp) (by simp) rfl)
      · obtain rfl := Option.some.inj hs
        exact .inl (hother (by simp) (by simp) rfl)
      · cases hs
  | read i count =>
      exact (read_calls hs).imp (hother (by simp) (by simp)) fun h => ⟨i, count, by simpa using h⟩
  | drop i =>
      have hdestroy : ∀ σ, (s.withServer (Subscriber.destroy σ s.server)).chat.scene =
          s.chat.scene := by
        intro σ
        unfold Subscriber.destroy
        split
        · rfl
        · rfl
      simp only [State.step, State.drop] at hs
      split at hs
      · obtain rfl := Option.some.inj hs
        exact .inl (hother (by simp) (by simp) (hdestroy _))
      · obtain rfl := Option.some.inj hs
        exact .inl (hother (by simp) (by simp) (hdestroy _))
      · cases hs

theorem request_grows (host : PeerRef) (dto : MessageDto) (v : Scene) :
    v.Grows (request host dto v) :=
  { Scene.Grows.refl v with
    objectCount := Nat.le_succ _
    log := List.suffix_cons _ _ }

theorem step_grows {a : Act} (hs : s.step fw config a = some s') :
    s.chat.scene.Grows s'.chat.scene := by
  rcases step_calls hs with ⟨b, hb, -⟩ | ⟨_, _, σ, subscriber, dto, -, -, -, hscene⟩
  · exact hb.grows
  · rw [hscene]
    exact request_grows _ _ _

/-! ### Invariants of the scene -/

/-- The calls of the chat's handlers are made only where `Cond` allows. -/
def Via (Cond : Scene → SocketRef → Prop) (s : State) (a : Act) : Prop :=
  ∀ k, a = .chat (.run k) → Cond s.chat.scene k

/-- **The rule for scenes**: what the calls of the chat preserve, and the
requests to hosts, holds along every run of the traffic. -/
theorem scene_invariant {Cond : Scene → SocketRef → Prop} {I : Scene → Prop}
    (hinit : ∀ clock, I (Chat.State.scene { server := { clock } }))
    (hcalls : ∀ s b v, (system fw config).Reachable s → I s.chat.scene →
      (∀ k, b = .run k → Cond s.chat.scene k) → Calls config s.chat.scene b v → I v)
    (hrequest : ∀ s σ subscriber dto, (system fw config).Reachable s → I s.chat.scene →
      s.server.subscribers σ = some subscriber → dto.code = some .codeFileRequestChunk →
        I (request (s.server.files subscriber.file).host dto s.chat.scene))
    (hs : (system fw config).ReachableVia (Via Cond) s) : I s.chat.scene := by
  refine Transition.System.ReachableVia.invariant (I := fun s => I s.chat.scene) ?_ ?_ hs
  · rintro _ ⟨clock, rfl⟩
    exact hinit clock
  · intro s a t hreach h hvia hstep
    rcases step_calls hstep with ⟨b, hb, ha⟩ | ⟨_, _, σ, subscriber, dto, -, hsub, hcode, hscene⟩
    · exact hcalls s b _ hreach.reachable h (fun k hk => hvia k ((ha.run k).mp hk)) hb
    · rw [hscene]
      exact hrequest s σ subscriber dto hreach.reachable h hsub hcode

/-- The rule for runs without conditions. -/
theorem scene_invariant_all {I : Scene → Prop}
    (hinit : ∀ clock, I (Chat.State.scene { server := { clock } }))
    (hcalls : ∀ s b v, (system fw config).Reachable s → I s.chat.scene →
      Calls config s.chat.scene b v → I v)
    (hrequest : ∀ s σ subscriber dto, (system fw config).Reachable s → I s.chat.scene →
      s.server.subscribers σ = some subscriber → dto.code = some .codeFileRequestChunk →
        I (request (s.server.files subscriber.file).host dto s.chat.scene))
    (hs : (system fw config).Reachable s) : I s.chat.scene :=
  have hvia : (system fw config).ReachableVia (Via fun _ _ => True) s :=
    hs.mono fun _ _ _ _ _ => trivial
  scene_invariant hinit (fun s b v hs h _ => hcalls s b v hs h) hrequest hvia

/-- `Via` for a condition that can be computed. -/
def Checked (check : Scene → SocketRef → Bool) (s : State) : Act → Prop
  | .chat (.run k) => check s.chat.scene k = true
  | _ => True

instance (check : Scene → SocketRef → Bool) (s : State) (a : Act) :
    Decidable (Checked check s a) := by
  unfold Checked
  split <;> infer_instance

theorem via_of_checked {Cond : Scene → SocketRef → Prop} {check : Scene → SocketRef → Bool}
    (hcheck : ∀ s k, (system fw config).Reachable s → check s.chat.scene k = true →
      Cond s.chat.scene k)
    (hs : (system fw config).ReachableVia (Checked check) s) :
    (system fw config).ReachableVia (Via Cond) s := by
  refine hs.mono_of_reachable fun s a hreach ha k hk => ?_
  subst hk
  exact hcheck s k hreach ha

theorem request_sound {v : Scene} (h : Chat.Sound v.toView) (host : PeerRef) (dto : MessageDto) :
    Chat.Sound (request host dto v).toView := by
  refine { h with phase := ?_, added := ?_, removed := ?_ }
  · intro k φ p hp
    obtain ⟨hlt, hname, hremoved, hadded⟩ := h.phase k φ p hp
    refine ⟨hlt, hname, fun hφ => ?_, fun hφ => List.mem_cons_of_mem _ (hadded hφ)⟩
    simpa [request] using hremoved hφ
  · intro ρ p hp
    obtain ⟨hlt, hroom, hrest⟩ := h.added ρ p (by simpa [request] using hp)
    exact ⟨hlt, hroom, hrest.imp_left (List.mem_cons_of_mem _)⟩
  · intro p hp
    exact h.removed p (by simpa [request] using hp)

theorem sound (hs : (system fw config).Reachable s) : Chat.Sound s.chat.view :=
  scene_invariant_all (I := fun v => Chat.Sound v.toView)
    (fun clock => @Chat.sound fw config _ (.init ⟨clock, rfl⟩))
    (fun _ _ _ _ h hb => h.moves hb.moves)
    (fun _ _ _ dto _ h _ _ => request_sound h _ dto) hs

theorem accounted (hs : (system fw config).Reachable s) : Chat.Accounted config s.chat.view := by
  refine scene_invariant_all (I := fun v => Chat.Accounted config v.toView) (fun clock => ?_)
    (fun s b v hs h hb => h.moves (sound hs) hb.moves) (fun s σ subscriber dto _ h _ _ => ?_) hs
  · exact @Chat.accounted fw config _ (.init ⟨clock, rfl⟩)
  · constructor
    case history =>
      intro ρ
      have hrecorded : Chat.recordedIn ρ
            ([.sent (s.server.files subscriber.file).host
              ⟨s.chat.scene.directory.objectCount, dto⟩] ++
          s.chat.scene.log) = Chat.recordedIn ρ s.chat.scene.log :=
        Chat.recordedIn_append ρ (by simp)
      rw [Chat.historyAfter]
      show _ = (List.take _ (Chat.recordedIn ρ
        ([.sent (s.server.files subscriber.file).host ⟨s.chat.scene.directory.objectCount, dto⟩] ++
        s.chat.scene.log))).reverse
      rw [hrecorded]
      exact h.history ρ
    case recorded => exact fun ρ m hm => h.recorded ρ m (by simpa [request] using hm)
    case broadcasting =>
      exact fun k purpose p m hk => (h.broadcasting k purpose p m hk).trans (Nat.lt_succ_self _)
    case broadcast =>
      intro ρ m hm
      exact (h.broadcast ρ m (by simpa [request] using hm)).trans (Nat.lt_succ_self _)
    case informed =>
      intro k p info hk
      obtain ⟨hcode, hsnapshot⟩ := h.informed k p info hk
      exact ⟨hcode, List.mem_cons_of_mem _ hsnapshot⟩
    case justified => exact h.justified.cons trivial

end Traffic

end CanChat
