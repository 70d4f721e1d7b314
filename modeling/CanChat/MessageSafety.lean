/-
CanChat/MessageSafety.lean

Which incoming messages the server survives.

A client chooses every field of a message, so each handler meets null lists,
empty lists, null entries and missing fields in any combination.  `EndsWell`
is what the framework can go on from: the handler returned nothing, or the
coroutine of `onApiError` with a websocket to write to.  `Survivable` is the
exact condition on the parsed message, in the state before it is handled,
under which `readMessage` ends well (`readMessage_endsWell_iff`).  What falls
outside it:

* the JSON value `null`;
* a share whose file list is null, or has a null entry or an entry without
  `clientFileId` or `size` (the verdict of `validateFilesList` is dropped);
* a chunk message whose file list is empty;
* a chunk of the right host whose data is not Base64, or whose subscriber
  still has an unread chunk (the exceptions are caught by no handler).
-/
import CanChat.Handlers

namespace CanChat

/-- The handler returned, with nothing to run or with an error coroutine that
has a websocket to write to. -/
def EndsWell : Except Fault CoroutineStarter → Prop
  | .ok none => True
  | .ok (some coroutine) => coroutine.websocket.isSome
  | .error _ => False

/-- An entry `handleFilesMessage` can share: the two fields it reads as
integers are there. -/
def Shareable (entry : Option FileDto) : Prop :=
  ∃ fileDto, entry = some fileDto ∧ fileDto.clientFileId.isSome ∧ fileDto.size.isSome

/-- The subscriber can take a chunk now. -/
def HasRoom (σ : SubscriberRef) (s : Server) : Prop :=
  ∃ subscriber, s.subscribers σ = some subscriber ∧ subscriber.chunk = none

/-- A chunk of `p` for an existing file of `p` is Base64 and meets no unread
chunk. -/
def ChunkFits (fw : Framework) (p : PeerRef) (serverFileId subscriberId : Int) (data : String)
    (s : Server) : Prop :=
  ∀ f, Room.getFileById (s.peers p).room serverFileId s = some f →
    (s.peers (s.files f).host).peerId = (s.peers p).peerId →
    (fw.base64Decode data).isSome ∧
      ∀ σ, (s.files f).subscribers.lookup subscriberId = some σ → HasRoom σ s

/-- The condition on a `CODE_FILE_CHUNK_DATA` message. -/
def ChunkMessageFits (fw : Framework) (p : PeerRef) (message : MessageDto) (s : Server) : Prop :=
  ∀ files, message.files = some files → files ≠ [] ∧
    ∀ fileDto, files = [some fileDto] → ∀ serverFileId subscriberId data,
      fileDto.serverFileId = some serverFileId → fileDto.subscriberId = some subscriberId →
      fileDto.data = some data → ChunkFits fw p serverFileId subscriberId data s

/-- The messages of `p` the server survives in state `s`. -/
def Survivable (fw : Framework) (p : PeerRef) (s : Server) : Option MessageDto → Prop
  | none => False
  | some message =>
      match message.code with
      | some .codeFileShare => ∃ files, message.files = some files ∧ ∀ f ∈ files, Shareable f
      | some .codeFileChunkData => ChunkMessageFits fw p message s
      | _ => True

/-- `p` is registered in its room under its own id. -/
def IsMember (p : PeerRef) (s : Server) : Prop :=
  Room.getPeerById (s.peers p).room (s.peers p).peerId s = some p

instance (p : PeerRef) (s : Server) : Decidable (IsMember p s) :=
  inferInstanceAs (Decidable (Room.getPeerById _ _ s = some p))

/-- `Survivable` reads the rooms, the files, the subscribers, and of the peers
their rooms and ids. -/
theorem survivable_congr {fw : Framework} {p : PeerRef} {s t : Server}
    (hrooms : t.rooms = s.rooms) (hfiles : t.files = s.files)
    (hsubscribers : t.subscribers = s.subscribers)
    (hroom : (t.peers p).room = (s.peers p).room)
    (hid : ∀ q, (t.peers q).peerId = (s.peers q).peerId) (parsed : Option MessageDto) :
    Survivable fw p t parsed ↔ Survivable fw p s parsed := by
  rcases parsed with - | message
  · rfl
  · simp only [Survivable, ChunkMessageFits, ChunkFits, HasRoom, Room.getFileById, hrooms, hfiles,
      hsubscribers, hroom, hid]

namespace Peer

open Handler

variable {fw : Framework} {config : ConfigDto} {p : PeerRef} {s : Server}

/-! ### Errors never fail -/

theorem onApiError_endsWell (hsocket : (s.peers p).socket.isSome) (text : String) :
    EndsWell ((onApiError p text).exec s).1 := hsocket

/-! ### Sharing -/

/-- Registering a file leaves the members and the peers' ids as they are. -/
theorem registerFile_isMember (ρ : RoomRef) (host : PeerRef) (cid : Int)
    (name : Option String) (size : Int) (hmember : IsMember p s) :
    IsMember p (Room.registerFile ρ host cid name size s).2 := by
  unfold IsMember Room.getPeerById Room.registerFile Peer.addFile at *
  by_cases hp : p = host <;> by_cases hρ : (s.peers p).room = ρ <;>
    simp_all

/-- For a member, the sharing loop fails exactly at an entry it cannot read. -/
theorem shareFiles_isOk_iff (files : List (Option FileDto)) (hmember : IsMember p s) :
    (∃ shared t, (shareFiles p files).exec s = (.ok shared, t)) ↔ ∀ f ∈ files, Shareable f := by
  induction files generalizing s with
  | nil => simp [shareFiles]
  | cons entry rest ih =>
      rcases entry with - | fileDto
      · simp [shareFiles, exec_bind, Shareable]
      · rcases hcid : fileDto.clientFileId with - | cid
        · simp [shareFiles, exec_bind, Shareable, hcid]
        rcases hsize : fileDto.size with - | size
        · simp [shareFiles, exec_bind, Shareable, hcid, hsize]
        have hhost : Room.getPeerById (s.peers p).room (s.peers p).peerId s = some p := hmember
        have ih' := ih (registerFile_isMember (s.peers p).room p cid fileDto.name size hmember)
        simp only [shareFiles, Room.shareFile, exec_bind, exec_deref_some, exec_get, hhost, hcid,
          hsize, exec_modifyGet, List.forall_mem_cons]
        rw [← ih']
        have hentry : Shareable (some fileDto) := ⟨fileDto, rfl, by simp [hcid], by simp [hsize]⟩
        generalize (shareFiles p rest).exec _ = r
        rcases r with ⟨_ | shared, t⟩ <;> simp [hentry]

theorem handleFilesMessage_endsWell_iff (message : MessageDto) (hmember : IsMember p s) :
    EndsWell ((handleFilesMessage config p message).exec s).1 ↔
      ∃ files, message.files = some files ∧ ∀ f ∈ files, Shareable f := by
  rcases hfiles : message.files with - | files
  · simp [handleFilesMessage, validateFilesList, exec_bind, hfiles, EndsWell]
  · obtain ⟨c, n, hv⟩ := exec_validateFilesList_some p files s
    simp only [handleFilesMessage, exec_bind, hfiles, hv, exec_get, exec_modifyGet,
      exec_deref_some, exec_modify, exec_pure, Option.some.injEq, exists_eq_left']
    set t : Server := (Server.getMicroTickCount { s with objectCount := n }).2
    have ht : IsMember p t := hmember
    rw [← shareFiles_isOk_iff files ht]
    generalize (shareFiles p files).exec t = r
    rcases r with ⟨_ | shared, u⟩ <;> simp [EndsWell]

/-! ### Chunks -/

theorem provideFileChunk_isOk_iff (f : FileRef) (sid : Int) (data : Bytes) :
    (∃ t, (File.provideFileChunk f sid data).exec s = (.ok (), t)) ↔
      ∀ σ, (s.files f).subscribers.lookup sid = some σ → HasRoom σ s := by
  rcases hσ : (s.files f).subscribers.lookup sid with - | σ
  · simp [File.provideFileChunk, exec_bind, hσ]
  rcases hsub : s.subscribers σ with - | subscriber
  · simp [File.provideFileChunk, exec_bind, hσ, hsub, HasRoom]
  rcases hchunk : subscriber.chunk with - | chunk
  · simp [File.provideFileChunk, exec_bind, hσ, hsub, HasRoom, hchunk,
      Subscriber.provideFileChunk]
  · simp [File.provideFileChunk, exec_bind, hσ, hsub, HasRoom, hchunk,
      Subscriber.provideFileChunk]

theorem provideChunk_endsWell_iff (hsocket : (s.peers p).socket.isSome) (fid sid : Int)
    (data : String) :
    EndsWell ((provideChunk fw p fid sid data).exec s).1 ↔ ChunkFits fw p fid sid data s := by
  rcases hf : Room.getFileById (s.peers p).room fid s with - | f
  · simp [provideChunk, ChunkFits, exec_bind, hf, EndsWell]
  by_cases hhost : (s.peers (s.files f).host).peerId = (s.peers p).peerId
  · rcases hdata : fw.base64Decode data with - | bytes
    · simp [provideChunk, ChunkFits, exec_bind, hf, hhost, hdata, EndsWell]
    · have key := provideFileChunk_isOk_iff (s := s) f sid bytes
      simp only [provideChunk, ChunkFits, exec_bind, exec_get, hf, hhost, hdata,
        Option.some.injEq, forall_eq', Option.isSome_some, true_and, not_true_eq_false, if_false,
        ne_eq, forall_const]
      rw [← key]
      rcases (File.provideFileChunk f sid bytes).exec s with ⟨_ | _, t⟩ <;> simp [EndsWell]
  · simp [provideChunk, ChunkFits, exec_bind, hf, hhost, EndsWell, hsocket]

theorem handleFileChunkMessage_endsWell_iff (message : MessageDto)
    (hsocket : (s.peers p).socket.isSome) :
    EndsWell ((handleFileChunkMessage fw p message).exec s).1 ↔
      ChunkMessageFits fw p message s := by
  have herr : ∀ text, EndsWell ((onApiError p text).exec s).1 := onApiError_endsWell hsocket
  rcases hfiles : message.files with - | files
  · simpa [handleFileChunkMessage, ChunkMessageFits, hfiles] using herr _
  match files with
  | [] => simp [handleFileChunkMessage, ChunkMessageFits, hfiles, front, EndsWell]
  | _ :: _ :: _ => simpa [handleFileChunkMessage, ChunkMessageFits, hfiles] using herr _
  | [none] =>
      simpa [handleFileChunkMessage, ChunkMessageFits, hfiles, exec_bind, front] using herr _
  | [some fileDto] =>
      have hlen : ¬ [some fileDto].length > 1 := by simp
      simp only [handleFileChunkMessage, ChunkMessageFits, hfiles, hlen, if_false, exec_bind,
        front, exec_pure, Option.some.injEq, forall_eq', ne_eq, List.cons_ne_self,
        not_false_eq_true, true_and, List.cons.injEq, and_true]
      rcases fileDto.serverFileId with - | fid
      · simpa using herr _
      rcases fileDto.subscriberId with - | sid
      · simpa using herr _
      rcases fileDto.data with - | data
      · simpa using herr _
      · simpa using provideChunk_endsWell_iff hsocket fid sid data

/-! ### The entry points -/

theorem handleMessage_endsWell_iff (message : Object MessageDto)
    (hsocket : (s.peers p).socket.isSome) (hmember : IsMember p s) :
    EndsWell ((handleMessage fw config p message).exec s).1 ↔
      Survivable fw p s (some message.val) := by
  have herr : ∀ text, EndsWell ((onApiError p text).exec s).1 := onApiError_endsWell hsocket
  rcases hcode : message.val.code with - | code
  · simpa [handleMessage, Survivable, hcode, exec_bind] using herr _
  cases code with
  | codePeerMessage => simp [handleMessage, Survivable, hcode, exec_bind, EndsWell, Except.map]
  | codePeerIsTyping => simp [handleMessage, Survivable, hcode, exec_bind, EndsWell, Except.map]
  | codeFileShare =>
      simpa [handleMessage, Survivable, hcode, exec_bind] using
        handleFilesMessage_endsWell_iff message.val hmember
  | codeFileChunkData =>
      simpa [handleMessage, Survivable, hcode, exec_bind] using
        handleFileChunkMessage_endsWell_iff message.val hsocket
  | _ => simpa [handleMessage, Survivable, hcode, exec_bind] using herr _

/-- **`readMessage` and everything it calls end without a fault exactly when**
the frame is refused or only buffered, or the completed text does not parse,
or the parsed message is `Survivable`. -/
theorem readMessage_endsWell_iff (fw : Framework) (config : ConfigDto) (p : PeerRef)
    (data : Bytes) (s : Server) (hsocket : (s.peers p).socket.isSome) (hmember : IsMember p s) :
    EndsWell ((readMessage fw config p data).exec s).1 ↔
      ((s.peers p).messageBuffer.length ≤ config.maxMessageSizeBytes → data = [] →
        ∀ parsed, fw.readFromString (s.peers p).messageBuffer = some parsed →
          Survivable fw p s parsed) := by
  have herr : ∀ text, EndsWell ((onApiError p text).exec s).1 := onApiError_endsWell hsocket
  simp only [readMessage, exec_bind, exec_get]
  by_cases hsize : (s.peers p).messageBuffer.length + data.length > config.maxMessageSizeBytes
  · rw [if_pos hsize]
    refine iff_of_true (herr _) fun hle hdata => ?_
    subst hdata
    exact absurd hsize (by simpa using hle)
  rw [if_neg hsize]
  rcases data with - | ⟨b, bs⟩
  · have hle : (s.peers p).messageBuffer.length ≤ config.maxMessageSizeBytes := by
      simpa using hsize
    simp only [List.length_nil, beq_self_eq_true, if_true, exec_bind, exec_modify, hle,
      forall_const]
    set t := s.modifyPeer p fun peer => { peer with messageBuffer := [] } with ht
    have hpeers : ∀ q, (t.peers q).room = (s.peers q).room ∧
        (t.peers q).peerId = (s.peers q).peerId ∧ (t.peers q).socket = (s.peers q).socket := by
      intro q
      by_cases hq : q = p
      · subst hq; simp [ht]
      · simp [ht, hq]
    rcases hparse : fw.readFromString (s.peers p).messageBuffer with - | parsed
    · simpa [EndsWell, (hpeers p).2.2] using hsocket
    rcases parsed with - | message
    · simp [exec_bind, EndsWell, Survivable]
    · simp only [exec_bind, exec_deref_some, exec_modifyGet, Option.some.injEq, forall_eq']
      have hsocket' : (t.peers p).socket.isSome := by rwa [(hpeers p).2.2]
      have hmember' : IsMember p t := by
        unfold IsMember Room.getPeerById at hmember ⊢
        rwa [(hpeers p).1, (hpeers p).2.1]
      -- stamping the message and allocating it change nothing `Survivable` reads
      have hsurvivable : Survivable fw p t (some message) ↔ Survivable fw p s (some message) :=
        survivable_congr (s := s) (t := t) rfl rfl rfl (hpeers p).1 (fun q => (hpeers q).2.1) _
      rw [← hsurvivable]
      exact handleMessage_endsWell_iff _ hsocket' hmember'
  · simp [EndsWell, Except.map]

/-! ### A room with one member -/

/-- The text `null`. -/
def nullText : Bytes := [110, 117, 108, 108]

/-- A mapper that reads the text `null` as the JSON value, and no other text. -/
def nullFramework : Framework where
  readFromString text := if text = nullText then some none else none
  base64Decode _ := none

/-- A file with all its fields, and one without a size. -/
def sharedCat (size : Option Int) : MessageDto where
  code := some .codeFileShare
  files := some [some { clientFileId := some 1, name := some "cat.png", size }]

/-- A mapper that reads every text as a message that shares a cat. -/
def catFramework (size : Option Int) : Framework where
  readFromString _ := some (some (sharedCat size))
  base64Decode _ := none

/-- The empty frame that completes a message: the cat with its size is shared,
and the one without brings the handler down. -/
theorem readMessage_endsWell_iff_solo :
    EndsWell ((readMessage (catFramework (some 7)) {} 0 []).exec soloServer).1 ∧
      ¬ EndsWell ((readMessage (catFramework none) {} 0 []).exec soloServer).1 := by
  constructor
  · refine (readMessage_endsWell_iff _ {} 0 [] soloServer (by decide) (by decide)).mpr
      fun _ _ parsed hparsed => ?_
    obtain rfl := Option.some.inj hparsed
    exact ⟨_, rfl, by simp [Shareable]⟩
  · intro h
    obtain ⟨files, hfiles, hall⟩ :=
      (readMessage_endsWell_iff _ {} 0 [] soloServer (by decide) (by decide)).mp h
      (by decide) rfl _ rfl
    obtain rfl := Option.some.inj hfiles
    obtain ⟨fileDto, hentry, -, hsize⟩ := hall _ List.mem_cons_self
    obtain rfl := Option.some.inj hentry
    cases hsize

/-- A member with an open socket sends the text `null`; the empty frame that
completes it brings the handler down. -/
theorem readMessage_null_faults :
    let s := ((readMessage nullFramework {} 0 nullText).exec soloServer).2
    (s.peers 0).socket.isSome ∧ IsMember 0 s ∧
      ¬ EndsWell ((readMessage nullFramework {} 0 []).exec s).1 :=
  ⟨by decide, by decide, fun h => h⟩

end Peer

end CanChat
