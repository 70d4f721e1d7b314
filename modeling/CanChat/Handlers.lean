/-
CanChat/Handlers.lean

The handlers of a peer's incoming messages: `Peer::readMessage` and what it
calls (server/src/rooms/Peer.cpp).

The JSON mapper and the Base64 decoder belong to the web framework and are
parameters: `readFromString` is `none` on a parse error, `some none` on the
JSON value `null`, and `base64Decode` is `none` where the decoder throws.
-/
import CanChat.Lobby

namespace CanChat

/-- The parts of the web framework the handlers call. -/
structure Framework where
  readFromString : Bytes → Option (Option MessageDto)
  base64Decode : String → Option Bytes

/-- The coroutine of `onApiError`: write `message` to `websocket`, then close. -/
structure SendErrorCoroutine where
  websocket : Option SocketRef
  message : MessageDto

/-- `nullptr`, or a coroutine for the framework to run. -/
abbrev CoroutineStarter := Option SendErrorCoroutine

namespace Peer

/-! ### Errors and validation -/

def onApiError (p : PeerRef) (errorMessage : String) : Handler CoroutineStarter := do
  let message ← modifyGet (Server.createShared
    { code := some .codeApiError, message := some errorMessage })
  pure (some { websocket := ((← get).peers p).socket, message := message.val })

/-- The loop of `validateFilesList`. -/
def validateEntries (p : PeerRef) : List (Option FileDto) → Handler CoroutineStarter
  | [] => pure none
  | none :: _ => onApiError p "File structure is not provided."
  | some fileDto :: rest =>
      if fileDto.clientFileId.isNone then
        onApiError p "File clientId is not provided."
      else if fileDto.name.isNone then
        onApiError p "File name is not provided."
      else if fileDto.size.isNone then
        onApiError p "File size is not provided."
      else
        validateEntries p rest

def validateFilesList (p : PeerRef) (filesList : Option (List (Option FileDto))) :
    Handler CoroutineStarter := do
  let files ← deref filesList
  if files.length == 0 then
    onApiError p "Files list is empty."
  else
    validateEntries p files

@[simp] theorem exec_onApiError (p : PeerRef) (text : String) (s : Server) :
    (onApiError p text).exec s =
      (.ok (some ⟨(s.peers p).socket, { code := some .codeApiError, message := some text }⟩),
        { s with objectCount := s.objectCount + 1 }) := rfl

/-- Validation allocates at most one error message; nothing else changes. -/
theorem exec_validateEntries (p : PeerRef) (files : List (Option FileDto)) (s : Server) :
    ∃ c n, (validateEntries p files).exec s = (.ok c, { s with objectCount := n }) := by
  induction files with
  | nil => exact ⟨none, s.objectCount, rfl⟩
  | cons entry rest ih =>
      rcases entry with - | fileDto
      · exact ⟨_, _, exec_onApiError p _ s⟩
      · unfold validateEntries
        split
        · exact ⟨_, _, exec_onApiError p _ s⟩
        · split
          · exact ⟨_, _, exec_onApiError p _ s⟩
          · split
            · exact ⟨_, _, exec_onApiError p _ s⟩
            · exact ih

theorem exec_validateFilesList_some (p : PeerRef) (files : List (Option FileDto)) (s : Server) :
    ∃ c n, (validateFilesList p (some files)).exec s = (.ok c, { s with objectCount := n }) := by
  simp only [validateFilesList, Handler.exec_bind, Handler.exec_deref_some]
  split
  · exact ⟨_, _, exec_onApiError p _ s⟩
  · exact exec_validateEntries p files s

/-! ### Sharing files -/

/-- The loop of `handleFilesMessage`: register each file, and list what the
room is told about it. -/
def shareFiles (p : PeerRef) : List (Option FileDto) → Handler (List (Option FileDto))
  | [] => pure []
  | currFile :: rest => do
      let fileDto ← deref currFile
      let clientFileId ← deref fileDto.clientFileId
      let size ← deref fileDto.size
      let peer := (← get).peers p
      let f ← Room.shareFile peer.room peer.peerId clientFileId fileDto.name size
      let file := (← get).files f
      let sharedFile : FileDto :=
        { serverFileId := some file.serverFileId, name := file.fileName,
          size := some file.fileSize }
      let shared ← shareFiles p rest
      pure (some sharedFile :: shared)

/-- What the room is told of an entry of the client's list: the name and the
size the client gave, and an id the server gave. -/
def Announces (currFile sharedFile : Option FileDto) : Prop :=
  ∃ fileDto serverFileId, currFile = some fileDto ∧
    sharedFile =
      some { serverFileId := some serverFileId, name := fileDto.name, size := fileDto.size }

theorem Announces.ne_none {currFile sharedFile : Option FileDto}
    (h : Announces currFile sharedFile) :
    sharedFile ≠ none := by
  obtain ⟨_, _, -, rfl⟩ := h
  simp

/-- Entry by entry, the room is told what the client listed. -/
theorem shareFiles_announces {p : PeerRef} {files : List (Option FileDto)} {s t : Server}
    {shared : List (Option FileDto)} (h : (shareFiles p files).exec s = (.ok shared, t)) :
    List.Forall₂ Announces files shared := by
  induction files generalizing s t shared with
  | nil =>
      cases h
      exact .nil
  | cons currFile rest ih =>
      obtain ⟨fileDto, _, hentry, h⟩ := Handler.exec_bind_ok h
      obtain ⟨clientFileId, _, -, h⟩ := Handler.exec_bind_ok h
      obtain ⟨size, _, hsize, h⟩ := Handler.exec_bind_ok h
      obtain ⟨_, _, -, h⟩ := Handler.exec_bind_ok h
      obtain ⟨f, u, hfile, h⟩ := Handler.exec_bind_ok h
      obtain ⟨_, _, hget, h⟩ := Handler.exec_bind_ok h
      obtain ⟨shared', _, hrest, h⟩ := Handler.exec_bind_ok h
      cases h
      cases hget
      obtain ⟨hfileName, hfileSize⟩ := Room.file_of_shareFile hfile
      refine .cons ⟨fileDto, (u.files f).serverFileId, (Handler.exec_deref_ok hentry).1, ?_⟩
        (ih hrest)
      rw [(Handler.exec_deref_ok hsize).1, hfileName, hfileSize]

/-- No entry of the list is null. -/
theorem announces_ne_none {files shared : List (Option FileDto)}
    (h : List.Forall₂ Announces files shared) : none ∉ shared := by
  intro hmem
  induction h with
  | nil => cases hmem
  | cons hentry _ ih =>
      rcases List.mem_cons.mp hmem with hnone | hmem
      · exact hentry.ne_none hnone.symm
      · exact ih hmem

/-- Validation of a null list dereferences it. -/
theorem validateFilesList_some {p : PeerRef} {filesList : Option (List (Option FileDto))}
    {starter : CoroutineStarter} {s t : Server}
    (h : (validateFilesList p filesList).exec s = (.ok starter, t)) :
    ∃ files, filesList = some files := by
  obtain ⟨files, _, hfiles, -⟩ := Handler.exec_bind_ok h
  exact ⟨files, (Handler.exec_deref_ok hfiles).1⟩

/-- `handleFilesMessage` drops the result of the validation. -/
def handleFilesMessage (config : ConfigDto) (p : PeerRef) (message : MessageDto) :
    Handler CoroutineStarter := do
  let _ ← validateFilesList p message.files
  let peer := (← get).peers p
  let timestamp ← modifyGet Server.getMicroTickCount
  let shared ← shareFiles p (← deref message.files)
  let fileMessage ← modifyGet (Server.createShared
    { code := some .codePeerMessageFile
      peerId := some peer.peerId
      peerName := some peer.nickname
      timestamp := some timestamp
      files := some shared })
  modify (Room.addHistoryMessage config peer.room fileMessage)
  modify (Room.sendMessageAsync peer.room fileMessage)
  pure none

/-! ### File chunks -/

/-- `filesList->front()`. -/
def front {α : Type} : List α → Handler α
  | [] => throw .emptyFront
  | a :: _ => pure a

/-- `handleFileChunkMessage` once the fields are known to be there. -/
def provideChunk (fw : Framework) (p : PeerRef) (serverFileId subscriberId : Int)
    (data : String) : Handler CoroutineStarter := do
  let s ← get
  match Room.getFileById (s.peers p).room serverFileId s with
  | none => pure none
  | some f =>
      if (s.peers (s.files f).host).peerId ≠ (s.peers p).peerId then
        onApiError p "Wrong file host."
      else
        match fw.base64Decode data with
        | none => throw (.exception "Base64::decode")
        | some bytes => do
            File.provideFileChunk f subscriberId bytes
            pure none

def handleFileChunkMessage (fw : Framework) (p : PeerRef) (message : MessageDto) :
    Handler CoroutineStarter := do
  match message.files with
  | none => onApiError p "No file provided."
  | some filesList =>
      if filesList.length > 1 then
        onApiError p "Invalid files count. Expected - 1."
      else
        match ← front filesList with
        | none => onApiError p "File structure is not provided."
        | some fileDto =>
            match fileDto.serverFileId, fileDto.subscriberId, fileDto.data with
            | none, _, _ => onApiError p "File clientId is not provided."
            | some _, none, _ => onApiError p "File subscriberId is not provided."
            | some _, some _, none => onApiError p "File chunk data is not provided."
            | some serverFileId, some subscriberId, some data =>
                provideChunk fw p serverFileId subscriberId data

/-! ### The entry points -/

def handleMessage (fw : Framework) (config : ConfigDto) (p : PeerRef)
    (message : Object MessageDto) : Handler CoroutineStarter := do
  let room := ((← get).peers p).room
  match message.val.code with
  | none => onApiError p "No message code provided."
  | some .codePeerMessage => do
      modify (Room.addHistoryMessage config room message)
      modify (Room.sendMessageAsync room message)
      modify (Server.modifyStatistics fun st =>
        { st with eventPeerSendMessage := st.eventPeerSendMessage + 1 })
      pure none
  | some .codePeerIsTyping => do
      modify (Room.sendMessageAsync room message)
      pure none
  | some .codeFileShare => handleFilesMessage config p message.val
  | some .codeFileChunkData => handleFileChunkMessage fw p message.val
  | some _ => onApiError p "Invalid client message code."

theorem exec_handleMessage_share (fw : Framework) (config : ConfigDto) (p : PeerRef)
    {message : Object MessageDto} (hcode : message.val.code = some .codeFileShare) (s : Server) :
    (handleMessage fw config p message).exec s =
    (handleFilesMessage config p message.val).exec s := by
  unfold handleMessage
  rw [Handler.exec_bind, Handler.exec_get]
  dsimp only
  rw [hcode]

theorem exec_handleMessage_chunk (fw : Framework) (config : ConfigDto) (p : PeerRef)
    {message : Object MessageDto} (hcode : message.val.code = some .codeFileChunkData)
    (s : Server) :
    (handleMessage fw config p message).exec s =
      (handleFileChunkMessage fw p message.val).exec s := by
  unfold handleMessage
  rw [Handler.exec_bind, Handler.exec_get]
  dsimp only
  rw [hcode]

/-- What `readMessage` makes of a parsed message before it is handled. -/
def stampMessage (peer : Peer) (timestamp : Int) (message : MessageDto) : MessageDto :=
  { message with
    peerName := some peer.nickname
    peerId := some peer.peerId
    timestamp := some timestamp }

/-- `readMessage` for one frame; an empty one ends the message. -/
def readMessage (fw : Framework) (config : ConfigDto) (p : PeerRef) (data : Bytes) :
    Handler CoroutineStarter := do
  let peer := (← get).peers p
  if peer.messageBuffer.length + data.length > config.maxMessageSizeBytes then
    onApiError p "Message size exceeds max allowed size."
  else if data.length == 0 then
    modify (Server.modifyPeer p fun peer => { peer with messageBuffer := [] })
    match fw.readFromString peer.messageBuffer with
    | none => onApiError p "Can't parse message"
    | some parsed => do
        let message ← deref parsed
        let timestamp ← modifyGet Server.getMicroTickCount
        let message ← modifyGet (Server.createShared (stampMessage peer timestamp message))
        handleMessage fw config p message
  else do
    modify (Server.modifyPeer p fun peer =>
      { peer with messageBuffer := peer.messageBuffer ++ data })
    pure none

/-- `readMessage` from the parsed message on. -/
def readParsed (fw : Framework) (config : ConfigDto) (p : PeerRef) (message : MessageDto) :
    Handler CoroutineStarter := do
  let peer := (← get).peers p
  let timestamp ← modifyGet Server.getMicroTickCount
  let message ← modifyGet (Server.createShared (stampMessage peer timestamp message))
  handleMessage fw config p message

theorem exec_readParsed (fw : Framework) (config : ConfigDto) (p : PeerRef) (message : MessageDto)
    (s : Server) :
    let clock := s.getMicroTickCount
    let received := clock.2.createShared (stampMessage (s.peers p) clock.1 message)
    (readParsed fw config p message).exec s =
    (handleMessage fw config p received.1).exec received.2 := by
  unfold readParsed
  simp only [Handler.exec_bind, Handler.exec_get, Handler.exec_modifyGet]

/-- The empty frame that ends a message within the size limit. -/
theorem readMessage_end (fw : Framework) (config : ConfigDto) (p : PeerRef) (s : Server)
    {message : MessageDto} (hsize : (s.peers p).messageBuffer.length ≤ config.maxMessageSizeBytes)
    (hparse : fw.readFromString (s.peers p).messageBuffer = some (some message)) :
    (readMessage fw config p []).exec s = (readParsed fw config p message).exec
      (s.modifyPeer p fun peer => { peer with messageBuffer := [] }) := by
  have hle : ¬ (s.peers p).messageBuffer.length + 0 > config.maxMessageSizeBytes :=
    Nat.not_lt.mpr hsize
  unfold readMessage readParsed
  simp only [Handler.exec_bind, Handler.exec_get, List.length_nil, if_neg hle, beq_self_eq_true,
    if_true, hparse, deref, Handler.exec_pure, Handler.exec_modify, Handler.exec_modifyGet,
    Server.modifyPeer_peers, Function.update_self]
  rfl

end Peer

end CanChat
