/-
CanChat/SharedFiles.lean

What a message that shares files does.

The loop of `handleFilesMessage` registers one entry after the other and
follows the null pointers of the first entry that has no client id or no size.
`registrable` are the entries before that one; they stay registered whatever
comes after (`exec_shareFiles`).  Whether the loop gets to the end decides
only about the announcement.
-/
import CanChat.Ledger

namespace CanChat

/-- What an entry is registered with. -/
structure SharedFile where
  clientFileId : Int
  name : Option String
  size : Int
  deriving DecidableEq, Repr

/-- An entry that has all the loop asks for. -/
def SharedFile.ofEntry (entry : Option FileDto) : Option SharedFile :=
  entry.bind fun fileDto => fileDto.clientFileId.bind fun clientFileId =>
    fileDto.size.map fun size => { clientFileId, name := fileDto.name, size }

theorem SharedFile.ofEntry_eq_some {entry : Option FileDto} {file : SharedFile} :
    ofEntry entry = some file ↔ ∃ fileDto, entry = some fileDto ∧
      fileDto.clientFileId = some file.clientFileId ∧ fileDto.name = file.name ∧
        fileDto.size = some file.size := by
  rcases entry with - | fileDto
  · simp [ofEntry]
  rcases file with ⟨clientFileId, name, size⟩
  rcases hid : fileDto.clientFileId with - | _
  · simp [ofEntry, hid]
  rcases hsize : fileDto.size with - | _
  · simp [ofEntry, hid, hsize]
  · simp [ofEntry, hid, hsize]

/-- The entries before the first one that cannot be registered. -/
def registrable : List (Option FileDto) → List SharedFile
  | [] => []
  | entry :: rest =>
      match SharedFile.ofEntry entry with
      | none => []
      | some file => file :: registrable rest

/-- What the room is told about files that got successive ids. -/
def announced : Int → List SharedFile → List (Option FileDto)
  | _, [] => []
  | id, file :: rest =>
      some { serverFileId := some id, name := file.name, size := some file.size } ::
        announced (id + 1) rest

def Room.registerFiles (ρ : RoomRef) (host : PeerRef) (files : List SharedFile) (s : Server) :
    Server :=
  files.foldl (fun s file =>
    (registerFile ρ host file.clientFileId file.name file.size s).2) s

def Catalogue.registerFiles (ρ : RoomRef) (host : PeerRef) (files : List SharedFile)
    (c : Catalogue) : Catalogue :=
  files.foldl (fun c file => c.registerFile ρ host file.clientFileId file.size) c

theorem catalogue_registerFiles (ρ : RoomRef) (host : PeerRef) (files : List SharedFile)
    (s : Server) :
    (Room.registerFiles ρ host files s).catalogue = s.catalogue.registerFiles ρ host files := by
  induction files generalizing s with
  | nil => rfl
  | cons file files ih =>
      refine (ih _).trans ?_
      rw [catalogue_registerFile]
      rfl

/-! ### The loop -/

namespace Peer

variable {s : Server} {p : PeerRef}

/-- One round: the entry is registered, and the host is still a member. -/
theorem exec_shareFiles_cons (hp : s.catalogue.Present p) {entry : Option FileDto}
    {file : SharedFile} (hentry : SharedFile.ofEntry entry = some file)
    (rest : List (Option FileDto)) :
    let registered :=
      (Room.registerFile (s.peers p).room p file.clientFileId file.name file.size s).2
    (shareFiles p (entry :: rest)).exec s =
      (((shareFiles p rest).exec registered).1.map fun shared =>
        some { serverFileId := some (s.rooms (s.peers p).room).fileIdCounter
               name := file.name
               size := some file.size } :: shared,
        ((shareFiles p rest).exec registered).2) := by
  obtain ⟨clientFileId, name, size⟩ := file
  obtain ⟨fileDto, rfl, hid, rfl, hsize⟩ := SharedFile.ofEntry_eq_some.mp hentry
  intro registered
  have hlookup : Room.getPeerById (s.peers p).room (s.peers p).peerId s = some p := hp
  have hfile : registered.files s.fileCount =
      { host := p, clientFileId, serverFileId := (s.rooms (s.peers p).room).fileIdCounter,
        fileName := fileDto.name, fileSize := size } :=
    Function.update_self s.fileCount _ s.files
  have hnew : (Room.registerFile (s.peers p).room p clientFileId fileDto.name size s).1 =
      s.fileCount := rfl
  simp only [shareFiles, Handler.exec_bind, Handler.exec_deref_some, hid, hsize,
    Handler.exec_get, Room.shareFile, hlookup, Handler.exec_modifyGet]
  rw [hnew]
  dsimp only [registered] at hfile ⊢
  rw [hfile]
  rcases (shareFiles p rest).exec _ with ⟨_ | shared, t⟩
  · rfl
  · rfl

theorem exec_shareFiles_stuck {entry : Option FileDto} (hentry : SharedFile.ofEntry entry = none)
    (rest : List (Option FileDto)) :
    (shareFiles p (entry :: rest)).exec s = (.error .nullPointer, s) := by
  rcases entry with - | fileDto
  · simp [shareFiles, Handler.exec_bind]
  rcases hid : fileDto.clientFileId with - | clientFileId
  · simp [shareFiles, Handler.exec_bind, hid]
  rcases hsize : fileDto.size with - | size
  · simp [shareFiles, Handler.exec_bind, hid, hsize]
  · simp [SharedFile.ofEntry, hid, hsize] at hentry

/-- The registrable entries are registered, and the loop gets to the end if
that is all of them. -/
theorem exec_shareFiles (hp : s.catalogue.Present p) (files : List (Option FileDto)) :
    (shareFiles p files).exec s =
      (if (registrable files).length = files.length then
        .ok (announced (s.rooms (s.peers p).room).fileIdCounter (registrable files))
      else .error .nullPointer,
      Room.registerFiles (s.peers p).room p (registrable files) s) := by
  induction files generalizing s with
  | nil => rfl
  | cons entry rest ih =>
      rcases hentry : SharedFile.ofEntry entry with - | file
      · rw [exec_shareFiles_stuck hentry, registrable, hentry]
        rfl
      · let registered :=
          (Room.registerFile (s.peers p).room p file.clientFileId file.name file.size s).2
        have hcatalogue := catalogue_registerFile s (s.peers p).room p file.clientFileId file.name
          file.size
        have hp' : registered.catalogue.Present p := by
          rw [hcatalogue]
          exact hp
        have hroom : (registered.peers p).room = (s.peers p).room :=
          congrFun (congrArg Catalogue.room hcatalogue) p
        have hcounter : (registered.rooms (s.peers p).room).fileIdCounter =
            (s.rooms (s.peers p).room).fileIdCounter + 1 := by
          have hcounters := congrFun (congrArg Catalogue.fileIdCounter hcatalogue) (s.peers p).room
          rw [Catalogue.registerFile_fileIdCounter, Function.update_self] at hcounters
          exact hcounters
        have hrest := ih hp'
        rw [hroom, hcounter] at hrest
        rw [exec_shareFiles_cons hp hentry, hrest, registrable, hentry]
        refine Prod.ext ?_ rfl
        simp only [List.length_cons, Nat.add_right_cancel_iff]
        split
        · rfl
        · rfl

/-- Validation stops nothing. -/
theorem catalogue_handleFilesMessage (config : ConfigDto) (hp : s.catalogue.Present p)
    (message : MessageDto) :
    ((handleFilesMessage config p message).exec s).2.catalogue =
      s.catalogue.registerFiles (s.peers p).room p (registrable (message.files.getD [])) := by
  rcases hfiles : message.files with - | files
  · simp [handleFilesMessage, validateFilesList, Handler.exec_bind, hfiles, registrable,
      Catalogue.registerFiles]
  obtain ⟨_, n, hvalidate⟩ := exec_validateFilesList_some p files s
  let validated : Server := ({ s with objectCount := n } : Server).getMicroTickCount.2
  have hp' : validated.catalogue.Present p := hp
  have hshare := exec_shareFiles hp' files
  have hmessage : ((handleFilesMessage config p message).exec s).2.catalogue =
      ((shareFiles p files).exec validated).2.catalogue := by
    simp only [handleFilesMessage, hfiles, Handler.exec_bind, hvalidate, Handler.exec_get,
      Handler.exec_modifyGet, Handler.exec_deref_some]
    dsimp only [validated]
    rcases (shareFiles p files).exec _ with ⟨_ | shared, t⟩
    · rfl
    · exact (catalogue_broadcast _ _ _).trans (catalogue_addHistoryMessage _ _ _ _)
  rw [hmessage, hshare]
  exact catalogue_registerFiles _ _ _ _

/-- The files a message gets registered. -/
def sharedFiles (message : MessageDto) : List SharedFile :=
  if message.code = some .codeFileShare then registrable (message.files.getD []) else []

theorem catalogue_readParsed (fw : Framework) (config : ConfigDto) (hp : s.catalogue.Present p)
    (message : MessageDto) :
    ((readParsed fw config p message).exec s).2.catalogue =
      s.catalogue.registerFiles (s.peers p).room p (sharedFiles message) := by
  by_cases hcode : message.code = some .codeFileShare
  · let clock := s.getMicroTickCount
    let received := clock.2.createShared (stampMessage (s.peers p) clock.1 message)
    have hexec : (readParsed fw config p message).exec s =
        (handleFilesMessage config p received.1.val).exec received.2 :=
      (exec_readParsed fw config p message s).trans
        (exec_handleMessage_share fw config p hcode _)
    have hp' : received.2.catalogue.Present p := hp
    rw [hexec, sharedFiles, if_pos hcode]
    exact catalogue_handleFilesMessage config hp' received.1.val
  · rw [sharedFiles, if_neg hcode]
    exact catalogue_operations.readParsed fw config p (fun h => absurd h hcode) s

end Peer

end CanChat
