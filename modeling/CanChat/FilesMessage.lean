/-
CanChat/FilesMessage.lean

What comes of a message that shares files.

A valid list is registered as a whole and announced.  `handleFilesMessage`
drops what `validateFilesList` returns, so no list is refused: one that is not
valid is announced all the same, or the handler follows a null pointer after it
has registered the entries before it.

Design.  `Announced` and `Rejected` say what is to become of the tables of the
room, of its history and of the websockets.  Neither depends on the clock nor
on the number of objects, which change before the handler is called.
-/
import CanChat.Links

namespace CanChat

namespace FilesMessage

/-! ### Valid lists -/

def validEntry (entry : Option FileDto) : Bool :=
  entry.any fun fileDto =>
    fileDto.clientFileId.isSome && fileDto.name.isSome && fileDto.size.isSome

/-- A list with entries, all of them with their fields. -/
def validFiles (files : Option (List (Option FileDto))) : Bool :=
  files.any fun entries => !entries.isEmpty && entries.all validEntry

theorem validateEntries_iff (p : PeerRef) (entries : List (Option FileDto)) (s : Server) :
    ((Peer.validateEntries p entries).exec s).1 = .ok none ↔ entries.all validEntry = true := by
  induction entries with
  | nil => exact iff_of_true rfl rfl
  | cons entry rest ih =>
      rw [List.all_cons, Bool.and_eq_true, ← ih]
      rcases entry with - | fileDto
      · exact iff_of_false (fun h => nomatch h) fun h => Bool.false_ne_true h.1
      rcases hid : fileDto.clientFileId with - | _
      · simp [Peer.validateEntries, validEntry, hid]
      rcases hname : fileDto.name with - | _
      · simp [Peer.validateEntries, validEntry, hid, hname]
      rcases hsize : fileDto.size with - | _
      · simp [Peer.validateEntries, validEntry, hid, hname, hsize]
      · rw [Peer.validateEntries.eq_def]
        simp [validEntry, hid, hname, hsize]

/-- The validation lets through the valid lists. -/
theorem validateFilesList_iff (p : PeerRef) (files : Option (List (Option FileDto))) (s : Server) :
    ((Peer.validateFilesList p files).exec s).1 = .ok none ↔ validFiles files = true := by
  rcases files with - | entries
  · exact iff_of_false (fun h => nomatch h) Bool.false_ne_true
  rcases entries with - | ⟨entry, rest⟩
  · exact iff_of_false (fun h => nomatch h) Bool.false_ne_true
  · exact validateEntries_iff p (entry :: rest) s

theorem isSome_ofEntry {entry : Option FileDto} (h : validEntry entry = true) :
    (SharedFile.ofEntry entry).isSome = true := by
  rcases entry with - | fileDto
  · cases h
  rcases hid : fileDto.clientFileId with - | _
  · simp [validEntry, hid] at h
  rcases hsize : fileDto.size with - | _
  · simp [validEntry, hsize] at h
  · simp [SharedFile.ofEntry, hid, hsize]

theorem length_registrable {entries : List (Option FileDto)}
    (h : entries.all validEntry = true) : (registrable entries).length = entries.length := by
  induction entries with
  | nil => rfl
  | cons entry rest ih =>
      rw [List.all_cons, Bool.and_eq_true] at h
      obtain ⟨file, hentry⟩ := Option.isSome_iff_exists.mp (isSome_ofEntry h.1)
      rw [registrable, hentry]
      exact congrArg Nat.succ (ih h.2)

theorem getElem?_registrable {entries : List (Option FileDto)}
    (hall : (registrable entries).length = entries.length) {i : ℕ} {entry : Option FileDto}
    (hi : entries[i]? = some entry) :
    ∃ file, SharedFile.ofEntry entry = some file ∧ (registrable entries)[i]? = some file := by
  induction entries generalizing i with
  | nil => simp at hi
  | cons head rest ih =>
      rcases hhead : SharedFile.ofEntry head with - | file
      · simp [registrable, hhead] at hall
      · simp only [registrable, hhead, List.length_cons, Nat.add_right_cancel_iff] at hall ⊢
        cases i with
        | zero =>
            obtain rfl : head = entry := by simpa using hi
            exact ⟨file, hhead, rfl⟩
        | succ i => exact ih hall (by simpa using hi)

/-! ### What is to come of a list -/

section Outcome

variable (config : ConfigDto) (p : PeerRef) (s : Server)

/-- Nothing has happened to the room of `p`, and nobody has been told. -/
structure Untouched (t : Server) : Prop where
  fileById : (t.rooms (s.peers p).room).fileById = (s.rooms (s.peers p).room).fileById
  fileIdCounter :
    (t.rooms (s.peers p).room).fileIdCounter = (s.rooms (s.peers p).room).fileIdCounter
  hosted : (t.peers p).files = (s.peers p).files
  history : (t.rooms (s.peers p).room).history = (s.rooms (s.peers p).room).history
  counted : t.statistics.eventPeerShareFile = s.statistics.eventPeerShareFile
  outbox : t.outbox = s.outbox

/-- An API error, and nothing else. -/
structure Rejected (outcome : Except Fault CoroutineStarter × Server) : Prop where
  error : ∃ coroutine, outcome.1 = .ok (some coroutine) ∧
    coroutine.message.code = some .codeApiError
  untouched : Untouched p s outcome.2

/-- The files are registered under `ids`, and `announcement` lists them as
`shared`. -/
structure Announced (files : List (Option FileDto)) (ids : List Int)
    (shared : List (Option FileDto)) (announcement : Object MessageDto)
    (outcome : Except Fault CoroutineStarter × Server) : Prop where
  returns : outcome.1 = .ok none
  length : ids.length = files.length ∧ shared.length = files.length
  nodup : ids.Nodup
  /-- no file of the room has or ever had one of the ids -/
  fresh : ∀ id ∈ ids, Room.getFileById (s.peers p).room id s = none ∧
    ∀ f < s.fileCount, (s.peers (s.files f).host).room = (s.peers p).room →
      (s.files f).serverFileId ≠ id
  fileCount : outcome.2.fileCount = s.fileCount + files.length
  hosted : (outcome.2.peers p).files =
    (s.peers p).files ++ List.range' s.fileCount files.length
  counted : outcome.2.statistics.eventPeerShareFile =
    s.statistics.eventPeerShareFile + files.length
  /-- the files the room had are as they were -/
  old : ∀ id ∉ ids, Room.getFileById (s.peers p).room id outcome.2 =
    Room.getFileById (s.peers p).room id s
  entry : ∀ (i : ℕ) (fileDto : FileDto), files[i]? = some (some fileDto) →
    ∃ id f, ids[i]? = some id ∧
    shared[i]? = some (some
      { serverFileId := some id, name := fileDto.name, size := fileDto.size }) ∧
    Room.getFileById (s.peers p).room id outcome.2 = some f ∧
    (outcome.2.files f).host = p ∧ fileDto.clientFileId = some (outcome.2.files f).clientFileId ∧
    fileDto.name = (outcome.2.files f).fileName ∧ fileDto.size = some (outcome.2.files f).fileSize
  message : ∃ timestamp, announcement.val =
    { code := some .codePeerMessageFile, peerId := some (s.peers p).peerId,
      peerName := some (s.peers p).nickname, timestamp := some timestamp, files := some shared }
  history : (outcome.2.rooms (s.peers p).room).history =
    if Room.historyDisabled config then (s.rooms (s.peers p).room).history
    else Room.popFront (config.maxRoomHistoryMessages.getD 0)
      ((s.rooms (s.peers p).room).history ++ [announcement])
  outbox : ∀ q, outcome.2.outbox q = s.outbox q ++
    if q ∈ Room.members (s.peers p).room s ∧ (s.peers q).socket.isSome then [announcement] else []

/-- All or nothing. -/
def AllOrNothing (files : Option (List (Option FileDto)))
    (outcome : Except Fault CoroutineStarter × Server) : Prop :=
  if validFiles files then
    ∃ ids shared announcement, Announced config p s (files.getD []) ids shared announcement outcome
  else
    Rejected p s outcome

end Outcome

/-! ### Registering the files -/

variable {config : ConfigDto} {p : PeerRef} {s : Server}

theorem announced_length (first : Int) (files : List SharedFile) :
    (announced first files).length = files.length := by
  induction files generalizing first with
  | nil => rfl
  | cons file files ih => exact congrArg Nat.succ (ih (first + 1))

theorem announced_getElem? {files : List SharedFile} {i : ℕ} {file : SharedFile}
    (hi : files[i]? = some file) (first : Int) : (announced first files)[i]? = some (some
      { serverFileId := some (first + i), name := file.name, size := some file.size }) := by
  induction files generalizing first i with
  | nil => simp at hi
  | cons head files ih =>
      cases i with
      | zero =>
          obtain rfl : head = file := by simpa using hi
          simp [announced]
      | succ i =>
          have hnext := ih (i := i) (by simpa using hi) (first + 1)
          have hid : first + 1 + (i : Int) = first + (i + 1 : ℕ) := by
            omega
          rw [announced, List.getElem?_cons_succ, hnext, hid]

/-- What registering leaves alone, and the files it creates. -/
structure Registers (ρ : RoomRef) (files : List SharedFile) (s t : Server) : Prop where
  outbox : t.outbox = s.outbox
  counted : t.statistics.eventPeerShareFile = s.statistics.eventPeerShareFile + files.length
  room : ∀ ρ', (t.rooms ρ').history = (s.rooms ρ').history ∧
    (t.rooms ρ').peerById = (s.rooms ρ').peerById
  fileIdCounter : (t.rooms ρ).fileIdCounter = (s.rooms ρ).fileIdCounter + files.length
  peer : ∀ q, (t.peers q).socket = (s.peers q).socket ∧ (t.peers q).room = (s.peers q).room
  hosted : (t.peers p).files = (s.peers p).files ++ List.range' s.fileCount files.length
  fileCount : t.fileCount = s.fileCount + files.length
  old : ∀ f < s.fileCount, t.files f = s.files f
  file : ∀ i file, files[i]? = some file → t.files (s.fileCount + i) =
    { host := p, clientFileId := file.clientFileId,
      serverFileId := (s.rooms ρ).fileIdCounter + i, fileName := file.name, fileSize := file.size }

theorem registers (ρ : RoomRef) (files : List SharedFile) (s : Server) :
    Registers (p := p) ρ files s (Room.registerFiles ρ p files s) := by
  -- the first entry is registered in `u`, and the induction hypothesis is about `u`
  induction files generalizing s with
  | nil =>
      exact ⟨rfl, rfl, fun _ => ⟨rfl, rfl⟩, (Int.add_zero _).symm, fun _ => ⟨rfl, rfl⟩,
        (List.append_nil _).symm, rfl, fun _ _ => rfl, fun i file hi => by simp at hi⟩
  | cons file files ih =>
      let u := (Room.registerFile ρ p file.clientFileId file.name file.size s).2
      obtain ⟨outbox, counted, room, fileIdCounter, peer, hosted, fileCount, old, hfile⟩ :=
        ih u
      have hcount : u.fileCount = s.fileCount + 1 := rfl
      -- `registerFile` adds to the file table of one room and to the list of one host
      have hrooms : ∀ ρ', (u.rooms ρ').history = (s.rooms ρ').history ∧
          (u.rooms ρ').peerById = (s.rooms ρ').peerById := by
        intro ρ'
        rcases eq_or_ne ρ' ρ with rfl | hne
        · simp [u, Room.registerFile, Peer.addFile]
        · simp [u, Room.registerFile, Peer.addFile, hne]
      have hcounter : (u.rooms ρ).fileIdCounter = (s.rooms ρ).fileIdCounter + 1 := by
        simp [u, Room.registerFile, Peer.addFile]
      have hpeers : ∀ q, (u.peers q).socket = (s.peers q).socket ∧
          (u.peers q).room = (s.peers q).room := by
        intro q
        rcases eq_or_ne q p with rfl | hne
        · simp [u, Room.registerFile, Peer.addFile]
        · simp [u, Room.registerFile, Peer.addFile, hne]
      have hhosted : (u.peers p).files = (s.peers p).files ++ [s.fileCount] := by
        simp [u, Room.registerFile, Peer.addFile]
      have hnew : u.files s.fileCount =
          { host := p, clientFileId := file.clientFileId,
            serverFileId := (s.rooms ρ).fileIdCounter, fileName := file.name,
            fileSize := file.size } :=
        Function.update_self s.fileCount _ s.files
      have hold : ∀ f < s.fileCount, u.files f = s.files f := fun f hf =>
        Function.update_of_ne hf.ne _ s.files
      refine ⟨outbox, ?_, fun ρ' => ?_, ?_, fun q => ?_, ?_, ?_, fun f hf => ?_,
        fun i file' hi => ?_⟩
      · refine counted.trans ?_
        rw [List.length_cons, Nat.add_comm files.length 1, ← Nat.add_assoc]
        rfl
      · exact ⟨(room ρ').1.trans (hrooms ρ').1, (room ρ').2.trans (hrooms ρ').2⟩
      · refine fileIdCounter.trans ?_
        rw [hcounter, List.length_cons, Nat.cast_succ]
        omega
      · exact ⟨(peer q).1.trans (hpeers q).1, (peer q).2.trans (hpeers q).2⟩
      · refine hosted.trans ?_
        rw [hhosted, hcount, List.append_assoc, List.length_cons, List.range'_succ]
        rfl
      · refine fileCount.trans ?_
        rw [hcount, List.length_cons]
        omega
      · exact (old f (Nat.lt_succ_of_lt hf)).trans (hold f hf)
      · cases i with
        -- the entry registered first is older than all that the loop registers after it
        | zero =>
            obtain rfl : file = file' := by simpa using hi
            refine (old s.fileCount (Nat.lt_succ_self _)).trans ?_
            rw [hnew]
            simp
        | succ i =>
            have hnext := hfile i file' (by simpa using hi)
            have hid : (s.rooms ρ).fileIdCounter + 1 + (i : Int) =
                (s.rooms ρ).fileIdCounter + (i + 1 : ℕ) := by
              omega
            rw [hcount, hcounter, hid, Nat.add_assoc, Nat.add_comm 1 i] at hnext
            exact hnext

/-! ### The handler -/

/-- No error is ever returned. -/
theorem handleFilesMessage_ne_error (config : ConfigDto) (p : PeerRef) (message : MessageDto)
    (s : Server) (coroutine : SendErrorCoroutine) :
    ((Peer.handleFilesMessage config p message).exec s).1 ≠ .ok (some coroutine) := by
  intro h
  have hexec : (Peer.handleFilesMessage config p message).exec s = (.ok (some coroutine), _) :=
    Prod.ext h rfl
  obtain ⟨_, _, -, hexec⟩ := Handler.exec_bind_ok hexec
  obtain ⟨_, _, -, hexec⟩ := Handler.exec_bind_ok hexec
  obtain ⟨_, _, -, hexec⟩ := Handler.exec_bind_ok hexec
  obtain ⟨_, _, -, hexec⟩ := Handler.exec_bind_ok hexec
  obtain ⟨_, _, -, hexec⟩ := Handler.exec_bind_ok hexec
  obtain ⟨_, _, -, hexec⟩ := Handler.exec_bind_ok hexec
  obtain ⟨_, _, -, hexec⟩ := Handler.exec_bind_ok hexec
  obtain ⟨_, _, -, hexec⟩ := Handler.exec_bind_ok hexec
  cases hexec

/-- A list all of whose entries can be registered. -/
theorem exec_handleFilesMessage (config : ConfigDto) (hp : s.catalogue.Present p)
    {message : MessageDto} {files : List (Option FileDto)} (hfiles : message.files = some files)
    (hall : (registrable files).length = files.length) :
    ∃ clockReads objectCount timestamp,
      let r := Room.registerFiles (s.peers p).room p (registrable files)
        { s with clockReads, objectCount }
      let announcement : Object MessageDto := ⟨r.objectCount,
        { code := some .codePeerMessageFile, peerId := some (s.peers p).peerId,
          peerName := some (s.peers p).nickname, timestamp := some timestamp,
          files := some (announced (s.rooms (s.peers p).room).fileIdCounter (registrable files)) }⟩
      (Peer.handleFilesMessage config p message).exec s =
        (.ok none, Room.sendMessageAsync (s.peers p).room announcement
          (Room.addHistoryMessage config (s.peers p).room announcement
            { r with objectCount := r.objectCount + 1 })) := by
  obtain ⟨_, n, hvalidate⟩ := Peer.exec_validateFilesList_some p files s
  have hp' :
      ({ s with clockReads := s.clockReads + 1, objectCount := n } : Server).catalogue.Present
      p := hp
  have hshare := Peer.exec_shareFiles hp' files
  rw [if_pos hall] at hshare
  refine ⟨s.clockReads + 1, n, s.clock s.clockReads, ?_⟩
  simp only [Peer.handleFilesMessage, hfiles, Handler.exec_bind, hvalidate, Handler.exec_get,
    Handler.exec_modifyGet, Handler.exec_deref_some, Handler.exec_modify, Handler.exec_pure]
  rw [show ({ s with objectCount := n } : Server).getMicroTickCount =
    (s.clock s.clockReads, { s with clockReads := s.clockReads + 1, objectCount := n }) from rfl]
  dsimp only
  rw [hshare]
  rfl

theorem addHistoryMessage_eq (config : ConfigDto) (ρ : RoomRef) (message : Object MessageDto)
    (s : Server) : Room.addHistoryMessage config ρ message s =
      { s with rooms := Function.update s.rooms ρ { s.rooms ρ with
          history := if Room.historyDisabled config then (s.rooms ρ).history
            else Room.popFront (config.maxRoomHistoryMessages.getD 0)
              ((s.rooms ρ).history ++ [message]) } } := by
  unfold Room.addHistoryMessage
  split
  · rw [Function.update_eq_self]
  · rfl

/-- The ids that a room hands out from `first` on. -/
def idsFrom (first : Int) (count : ℕ) : List Int := (List.range count).map fun i : ℕ => first + i

theorem mem_idsFrom {first id : Int} {count : ℕ} :
    id ∈ idsFrom first count ↔ ∃ i < count, id = first + (i : ℕ) := by
  simp only [idsFrom, List.mem_map, List.mem_range, eq_comm]

theorem nodup_idsFrom (first : Int) (count : ℕ) : (idsFrom first count).Nodup := by
  refine List.nodup_range.map fun i j heq => ?_
  have hij : first + (i : Int) = first + j := heq
  omega

theorem getElem?_idsFrom (first : Int) {count i : ℕ} (hi : i < count) :
    (idsFrom first count)[i]? = some (first + i) := by
  rw [idsFrom, List.getElem?_map, List.getElem?_range hi]
  rfl

/-- An id that the counter of a room has not reached has never been used there. -/
theorem fresh_of_numbered (hnumbered : s.catalogue.Numbered) {ρ : RoomRef} {id : Int}
    (hid : (s.rooms ρ).fileIdCounter ≤ id) :
    Room.getFileById ρ id s = none ∧ ∀ f < s.fileCount, (s.peers (s.files f).host).room = ρ →
      (s.files f).serverFileId ≠ id := by
  have hnever : ∀ f < s.fileCount, (s.peers (s.files f).host).room = ρ →
      (s.files f).serverFileId ≠ id := by
    intro f hf hfroom
    have hlt := hnumbered.id_lt f hf
    rw [show s.catalogue.room (s.catalogue.host f) = ρ from hfroom] at hlt
    have hlt : (s.files f).serverFileId < (s.rooms ρ).fileIdCounter := hlt
    omega
  refine ⟨Option.eq_none_iff_forall_ne_some.mpr fun f hf => ?_, hnever⟩
  obtain ⟨hlt, hfroom, hfid⟩ := hnumbered.fileById ρ _ f hf
  exact hnever f hlt hfroom hfid

/-! ### Announcing the files -/

/-- The end of `handleFilesMessage`: the announcement is allocated, recorded and broadcast. -/
def announce (config : ConfigDto) (ρ : RoomRef) (announcement : Object MessageDto) (s : Server) :
    Server :=
  Room.sendMessageAsync ρ announcement
    (Room.addHistoryMessage config ρ announcement { s with objectCount := s.objectCount + 1 })

section Announce

variable (config : ConfigDto) (ρ : RoomRef) (announcement : Object MessageDto) (s : Server)

/-- Announcing touches the history and the websockets. -/
theorem announce_frame : ∃ outbox, announce config ρ announcement s =
    { s with
      objectCount := s.objectCount + 1
      rooms := Function.update s.rooms ρ { s.rooms ρ with
        history := if Room.historyDisabled config then (s.rooms ρ).history
          else Room.popFront (config.maxRoomHistoryMessages.getD 0)
            ((s.rooms ρ).history ++ [announcement]) }
      outbox } := by
  obtain ⟨outbox, hsend⟩ := Room.sendMessageAsync_frame ρ announcement
    (Room.addHistoryMessage config ρ announcement { s with objectCount := s.objectCount + 1 })
  refine ⟨outbox, ?_⟩
  rw [announce, hsend, addHistoryMessage_eq]

theorem announce_room : (announce config ρ announcement s).rooms ρ = { s.rooms ρ with
    history := if Room.historyDisabled config then (s.rooms ρ).history
      else Room.popFront (config.maxRoomHistoryMessages.getD 0)
        ((s.rooms ρ).history ++ [announcement]) } := by
  obtain ⟨_, h⟩ := announce_frame config ρ announcement s
  rw [h]
  exact Function.update_self ρ _ s.rooms

/-- Every member with a socket gets the announcement. -/
theorem announce_outbox (hmembers : (Room.members ρ s).Nodup) (q : PeerRef) :
    (announce config ρ announcement s).outbox q = s.outbox q ++
      if q ∈ Room.members ρ s ∧ (s.peers q).socket.isSome then [announcement] else [] := by
  let w := Room.addHistoryMessage config ρ announcement { s with objectCount := s.objectCount + 1 }
  have hw : w = _ := addHistoryMessage_eq config ρ announcement _
  have hpeers : w.peers = s.peers := by rw [hw]
  have houtbox : w.outbox = s.outbox := by rw [hw]
  have hsame : Room.members ρ w = Room.members ρ s := by
    have hpeerById : (w.rooms ρ).peerById = (s.rooms ρ).peerById := by
      rw [hw]
      show (Function.update s.rooms ρ _ ρ).peerById = _
      rw [Function.update_self]
    rw [Room.members, hpeerById]
    rfl
  show (Room.sendMessageAsync ρ announcement w).outbox q = _
  rw [Room.sendMessageAsync_outbox (hsame ▸ hmembers), hsame, hpeers, houtbox]

end Announce

/-- The `i`-th entry has become the `i`-th of the new files. -/
theorem entry_of_registers {ρ : RoomRef} {files : List (Option FileDto)} {r : Server}
    (hall : (registrable files).length = files.length)
    (hr : Registers (p := p) ρ (registrable files) s r) {i : ℕ} {fileDto : FileDto}
    (hi : files[i]? = some (some fileDto)) :
    (announced (s.rooms ρ).fileIdCounter (registrable files))[i]? = some (some
      { serverFileId := some ((s.rooms ρ).fileIdCounter + (i : ℕ))
        name := fileDto.name, size := fileDto.size }) ∧
      (r.files (s.fileCount + i)).host = p ∧
        fileDto.clientFileId = some (r.files (s.fileCount + i)).clientFileId ∧
          fileDto.name = (r.files (s.fileCount + i)).fileName ∧
            fileDto.size = some (r.files (s.fileCount + i)).fileSize := by
  obtain ⟨file, hfile, hregistrable⟩ : ∃ file, SharedFile.ofEntry (some fileDto) = some file ∧
      (registrable files)[i]? = some file := getElem?_registrable hall hi
  obtain ⟨_, heq, hid, hname, hsize⟩ := SharedFile.ofEntry_eq_some.mp hfile
  obtain rfl := Option.some.inj heq
  have hshared := announced_getElem? hregistrable (s.rooms ρ).fileIdCounter
  rw [← hname, ← hsize] at hshared
  refine ⟨hshared, ?_⟩
  rw [hr.file i file hregistrable]
  exact ⟨rfl, hid, hname, hsize⟩

/-- The whole list is registered and announced. -/
theorem announced_of_valid (config : ConfigDto) (hnumbered : s.catalogue.Numbered)
    (hp : s.catalogue.Present p) (hlt : p < s.peerCount)
    (hmembers : (Room.members (s.peers p).room s).Nodup) {message : MessageDto}
    {files : List (Option FileDto)} (hfiles : message.files = some files)
    (hvalid : files.all validEntry = true) :
    ∃ ids shared announcement, Announced config p s files ids shared announcement
      ((Peer.handleFilesMessage config p message).exec s) := by
  -- with valid entries the loop registers all of them
  have hall := length_registrable hvalid
  obtain ⟨clockReads, objectCount, timestamp, hexec⟩ :=
    exec_handleFilesMessage config hp hfiles hall
  -- validation and the clock reading come first, then the registrations, then the announcement
  let u : Server := { s with clockReads, objectCount }
  let ρ := (s.peers p).room
  let r := Room.registerFiles ρ p (registrable files) u
  have hr : Registers ρ (registrable files) u r := registers ρ (registrable files) u
  have hcatalogue : Catalogue.Registered s.catalogue r.catalogue p files.length := by
    have hfiles := hnumbered.registerFiles hlt (registrable files)
    rw [hall] at hfiles
    rw [catalogue_registerFiles]
    exact hfiles
  let first := (s.rooms ρ).fileIdCounter
  let announcement : Object MessageDto := ⟨r.objectCount,
    { code := some .codePeerMessageFile, peerId := some (s.peers p).peerId,
      peerName := some (s.peers p).nickname, timestamp := some timestamp,
      files := some (announced first (registrable files)) }⟩
  let t := announce config ρ announcement r
  replace hexec : (Peer.handleFilesMessage config p message).exec s = (.ok none, t) := hexec
  -- the announcement changes the history and the outboxes, and no file
  have hroom := announce_room config ρ announcement r
  obtain ⟨_, ht⟩ : ∃ outbox, t = _ := announce_frame config ρ announcement r
  have htfiles : t.files = r.files := by rw [ht]
  have hfound : ∀ id, Room.getFileById ρ id t = r.catalogue.fileById ρ id := by
    intro id
    show (t.rooms ρ).fileById.lookup id = _
    rw [hroom]
    rfl
  rw [hexec]
  refine ⟨idsFrom first files.length, announced first (registrable files), announcement, ?_⟩
  constructor
  case returns => rfl
  case length =>
    refine ⟨?_, (announced_length first _).trans hall⟩
    rw [idsFrom, List.length_map, List.length_range]
  case nodup => exact nodup_idsFrom first files.length
  -- the counter of the room is above all ids in use
  case fresh =>
    intro id hid
    obtain ⟨i, -, rfl⟩ := mem_idsFrom.mp hid
    exact fresh_of_numbered hnumbered (Int.le_add_of_nonneg_right (Int.natCast_nonneg i))
  case fileCount =>
    rw [ht]
    exact hcatalogue.fileCount
  case hosted =>
    rw [ht]
    show (r.peers p).files = _
    rw [hr.hosted, hall]
  case counted =>
    rw [ht]
    show r.statistics.eventPeerShareFile = _
    rw [hr.counted, hall]
  -- other ids lead where they led
  case old =>
    intro id hid
    show Room.getFileById ρ id t = Room.getFileById ρ id s
    rw [hfound]
    exact hcatalogue.other id fun i hi heq => hid (mem_idsFrom.mpr ⟨i, hi, heq⟩)
  case entry =>
    intro i fileDto hi
    have hlt : i < files.length := (List.getElem?_eq_some_iff.mp hi).1
    obtain ⟨hshared, hfile⟩ := entry_of_registers hall hr hi
    refine ⟨first + i, s.fileCount + i, getElem?_idsFrom first hlt, hshared, ?_, ?_⟩
    · exact (hfound _).trans (hcatalogue.file i hlt).2.2
    · show (t.files (s.fileCount + i)).host = p ∧ _
      rw [htfiles]
      exact hfile
  case message => exact ⟨timestamp, rfl⟩
  case history =>
    show (t.rooms ρ).history = _
    rw [hroom, (hr.room ρ).1]
  -- the loop leaves the members, so the announcement goes to those of before
  case outbox =>
    intro q
    have hsame : Room.members ρ r = Room.members ρ s := by
      rw [Room.members, (hr.room ρ).2]
      rfl
    show t.outbox q = _
    rw [announce_outbox config ρ announcement r (hsame ▸ hmembers), hsame, (hr.peer q).1, hr.outbox]

theorem allOrNothing_handleFilesMessage (config : ConfigDto) (hnumbered : s.catalogue.Numbered)
    (hp : s.catalogue.Present p) (hlt : p < s.peerCount)
    (hmembers : (Room.members (s.peers p).room s).Nodup) (message : MessageDto)
    (clockReads objectCount : ℕ) :
    AllOrNothing config p s message.files ((Peer.handleFilesMessage config p message).exec
      { s with clockReads, objectCount }) ↔ validFiles message.files = true := by
  unfold AllOrNothing
  constructor
  · intro h
    by_contra hvalid
    rw [if_neg hvalid] at h
    obtain ⟨coroutine, herror, -⟩ := h.error
    exact handleFilesMessage_ne_error config p message _ coroutine herror
  · intro hvalid
    rw [if_pos hvalid]
    rcases hfiles : message.files with - | files
    · rw [hfiles] at hvalid
      cases hvalid
    · rw [hfiles] at hvalid
      have hall : files.all validEntry = true := (Bool.and_eq_true_iff.mp hvalid).2
      let u : Server := { s with clockReads, objectCount }
      have hu : u.catalogue.Numbered := hnumbered
      obtain ⟨ids, shared, announcement, h⟩ :=
        announced_of_valid config hu hp hlt hmembers hfiles hall
      exact ⟨ids, shared, announcement, h.returns, h.length, h.nodup, h.fresh, h.fileCount,
        h.hosted, h.counted, h.old, h.entry, h.message, h.history, h.outbox⟩

/-- **A message that shares files is all or nothing** for the valid lists, and
for no others. -/
theorem allOrNothing_iff_valid {fw : Framework} {s : Lifetime.State}
    (hs : (Lifetime.system fw config).Reachable s) {k : SocketRef} (hp : s.peerOf k = some p)
    {message : MessageDto} (hcode : message.code = some .codeFileShare) :
    AllOrNothing config p s.server message.files
      ((Peer.readParsed fw config p message).exec s.server) ↔ validFiles message.files = true := by
  have hkept := Lifetime.kept hs
  have hpresent := (Lifetime.present_of_peerOf hkept.sound hp).2.2
  have hlt := (hkept.sound.orderly.member _ _ p hpresent).1
  have hmembers : (Room.members (s.server.peers p).room s.server).Nodup := by
    refine UnorderedMap.nodup_values fun id id' q hq hq' => ?_
    obtain ⟨-, -, hid, -⟩ := hkept.sound.orderly.member _ id q hq
    obtain ⟨-, -, hid', -⟩ := hkept.sound.orderly.member _ id' q hq'
    exact hid.symm.trans hid'
  rw [Peer.exec_readParsed, Peer.exec_handleMessage_share fw config p hcode]
  exact allOrNothing_handleFilesMessage config (Links.numbered hs) hpresent hlt hmembers _ _ _

def twoFiles : MessageDto where
  code := some .codeFileShare
  files := some [some { clientFileId := some 1, name := some "cat.png", size := some 3 },
    some { clientFileId := some 2, name := some "dog.png", size := some 4 }]

theorem allOrNothing_iff_valid_two : ∃ s, (Lifetime.system Lifetime.silent {}).run {}
    [.join "lounge" "Ann"] = some s ∧ AllOrNothing {} 0 s.server twoFiles.files
      ((Peer.readParsed Lifetime.silent {} 0 twoFiles).exec s.server) := by
  have hrun : ((Lifetime.system Lifetime.silent {}).run {} [.join "lounge" "Ann"]).map
      (fun s => s.peerOf 0) = some (some 0) := by
    decide +kernel
  obtain ⟨s, hrun, hp⟩ := Option.map_eq_some_iff.mp hrun
  exact ⟨s, hrun, (allOrNothing_iff_valid (.run (.init ⟨_, rfl⟩) hrun) hp rfl).mpr (by decide)⟩

/-- The second file has no size. -/
def incomplete : MessageDto where
  code := some .codeFileShare
  files := some [some { clientFileId := some 1, name := some "cat.png", size := some 3 },
    some { clientFileId := some 2, name := some "dog.png" }]

/-- The first file is registered and the handler fails. -/
theorem half_shared : ¬ ∀ s, (Lifetime.system Lifetime.silent {}).Reachable s → ∀ k p,
    s.peerOf k = some p → ∀ message : MessageDto, message.code = some .codeFileShare →
      AllOrNothing {} p s.server message.files
        ((Peer.readParsed Lifetime.silent {} p message).exec s.server) := by
  intro h
  have hrun : ((Lifetime.system Lifetime.silent {}).run {} [.join "lounge" "Ann"]).map (fun s =>
      (s.peerOf 0, match ((Peer.readParsed Lifetime.silent {} 0 incomplete).exec s.server).1 with
        | .ok _ => false
        | .error _ => true)) = some (some 0, true) := by
    decide +kernel
  obtain ⟨s, hrun, houtcome⟩ := Option.map_eq_some_iff.mp hrun
  obtain ⟨hp, hfails⟩ := Prod.mk.inj houtcome
  have hall := h s (.run (.init ⟨_, rfl⟩) hrun) 0 0 hp incomplete rfl
  rw [AllOrNothing, if_neg (by decide)] at hall
  obtain ⟨coroutine, herror, -⟩ := hall.error
  rw [herror] at hfails
  cases hfails

end FilesMessage

end CanChat
