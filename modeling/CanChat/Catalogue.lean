/-
CanChat/Catalogue.lean

The catalogue of all rooms: their members and files, and which peer hosts what.

Design.  As `Directory` does for messages, `Catalogue` is the part of the
server's state that downloads depend on, with one operation for every change
made to it, and `Server.catalogue` reads it off the server.  While no host
leaves, the catalogue is `Complete`: every file shared so far can be found
under its id, and its host has a socket to be asked on.
-/
import CanChat.Handlers
import CanChat.Page

namespace CanChat

/-- What downloads read and write of the rooms, the peers and the files. -/
@[ext] structure Catalogue where
  /-- `Lobby::m_rooms`, as a lookup. -/
  lobby : String → Option RoomRef
  /-- `Room::m_peerById`, as a lookup. -/
  member : RoomRef → Int → Option PeerRef
  /-- `Room::m_fileById`, as a lookup. -/
  fileById : RoomRef → Int → Option FileRef
  fileIdCounter : RoomRef → Int
  room : PeerRef → RoomRef
  peerId : PeerRef → Int
  socket : PeerRef → Option SocketRef
  /-- `Peer::m_files`. -/
  hosted : PeerRef → List FileRef
  host : FileRef → PeerRef
  clientFileId : FileRef → Int
  serverFileId : FileRef → Int
  fileSize : FileRef → Int
  roomCount : ℕ
  peerCount : ℕ
  fileCount : ℕ
  peerIdCounter : Int

def Server.catalogue (s : Server) : Catalogue where
  lobby name := Lobby.getRoom name s
  member ρ id := Room.getPeerById ρ id s
  fileById ρ id := Room.getFileById ρ id s
  fileIdCounter ρ := (s.rooms ρ).fileIdCounter
  room p := (s.peers p).room
  peerId p := (s.peers p).peerId
  socket p := (s.peers p).socket
  hosted p := (s.peers p).files
  host f := (s.files f).host
  clientFileId f := (s.files f).clientFileId
  serverFileId f := (s.files f).serverFileId
  fileSize f := (s.files f).fileSize
  roomCount := s.roomCount
  peerCount := s.peerCount
  fileCount := s.fileCount
  peerIdCounter := s.peerIdCounter

namespace Catalogue

/-! ### Operations -/

/-- A room is created and registered under a name, without members or files. -/
@[simps] def createRoom (name : String) (c : Catalogue) : Catalogue :=
  { c with
    lobby := fun n => if n = name then some c.roomCount else c.lobby n
    member := Function.update c.member c.roomCount fun _ => none
    fileById := Function.update c.fileById c.roomCount fun _ => none
    fileIdCounter := Function.update c.fileIdCounter c.roomCount 1
    roomCount := c.roomCount + 1 }

/-- A name is no longer registered. -/
@[simps] def deleteRoom (name : String) (c : Catalogue) : Catalogue :=
  { c with lobby := fun n => if n = name then none else c.lobby n }

/-- A peer is created with its socket, under the next id. -/
@[simps] def createPeer (socket : SocketRef) (ρ : RoomRef) (c : Catalogue) : Catalogue :=
  { c with
    room := Function.update c.room c.peerCount ρ
    peerId := Function.update c.peerId c.peerCount c.peerIdCounter
    socket := Function.update c.socket c.peerCount (some socket)
    hosted := Function.update c.hosted c.peerCount []
    peerCount := c.peerCount + 1
    peerIdCounter := c.peerIdCounter + 1 }

/-- A peer becomes a member under its own id. -/
@[simps] def addPeer (ρ : RoomRef) (p : PeerRef) (c : Catalogue) : Catalogue :=
  { c with
    member := Function.update c.member ρ fun id =>
      if id = c.peerId p then some p else c.member ρ id }

/-- Nobody is a member under that id any more. -/
@[simps] def erasePeer (ρ : RoomRef) (peerId : Int) (c : Catalogue) : Catalogue :=
  { c with
    member := Function.update c.member ρ fun id => if id = peerId then none else c.member ρ id }

/-- The file is no longer found under its id; everything else it had stays. -/
@[simps] def cancelFile (ρ : RoomRef) (f : FileRef) (c : Catalogue) : Catalogue :=
  { c with
    fileById := Function.update c.fileById ρ fun id =>
      if id = c.serverFileId f then none else c.fileById ρ id }

/-- The socket of a peer is invalidated. -/
@[simps] def disconnect (p : PeerRef) (c : Catalogue) : Catalogue :=
  { c with socket := Function.update c.socket p none }

/-- A file is created, registered under the next id of the room, and listed by
its host. -/
@[simps] def registerFile (ρ : RoomRef) (host : PeerRef) (clientFileId fileSize : Int)
    (c : Catalogue) : Catalogue :=
  { c with
    fileById := Function.update c.fileById ρ fun id =>
      if id = c.fileIdCounter ρ then some c.fileCount else c.fileById ρ id
    fileIdCounter := Function.update c.fileIdCounter ρ (c.fileIdCounter ρ + 1)
    hosted := Function.update c.hosted host (c.hosted host ++ [c.fileCount])
    host := Function.update c.host c.fileCount host
    clientFileId := Function.update c.clientFileId c.fileCount clientFileId
    serverFileId := Function.update c.serverFileId c.fileCount (c.fileIdCounter ρ)
    fileSize := Function.update c.fileSize c.fileCount fileSize
    fileCount := c.fileCount + 1 }

/-- The peer is in the map of its room under its own id. -/
def Present (c : Catalogue) (p : PeerRef) : Prop := c.member (c.room p) (c.peerId p) = some p

/-! ### No host has left -/

/-- Members are connected, and every file shared so far is registered and its
host a member. -/
structure Complete (c : Catalogue) : Prop where
  peerId_lt : ∀ p < c.peerCount, c.peerId p < c.peerIdCounter
  peerId_inj : ∀ p < c.peerCount, ∀ q < c.peerCount, c.peerId p = c.peerId q → p = q
  room_lt : ∀ p < c.peerCount, c.room p < c.roomCount
  lobby : ∀ name ρ, c.lobby name = some ρ → ρ < c.roomCount
  member : ∀ ρ id p, c.member ρ id = some p →
    p < c.peerCount ∧ c.room p = ρ ∧ c.peerId p = id ∧ (c.socket p).isSome
  host : ∀ f < c.fileCount, c.Present (c.host f) ∧ f ∈ c.hosted (c.host f)
  registered : ∀ f < c.fileCount, c.fileById (c.room (c.host f)) (c.serverFileId f) = some f
  file : ∀ ρ id f, c.fileById ρ id = some f → f < c.fileCount ∧ c.room (c.host f) = ρ ∧
    c.serverFileId f = id ∧ id < c.fileIdCounter ρ

namespace Complete

variable {c : Catalogue} {ρ : RoomRef} {p q : PeerRef} {f g : FileRef}

/-- A present peer has been created. -/
theorem lt_of_present (h : c.Complete) (hp : c.Present p) : p < c.peerCount :=
  (h.member _ _ p hp).1

/-- Hosts are members, so they have been created. -/
theorem host_lt (h : c.Complete) (hf : f < c.fileCount) : c.host f < c.peerCount :=
  h.lt_of_present (h.host f hf).1

/-- One host has no two files of one id. -/
theorem file_inj (h : c.Complete) (hf : f < c.fileCount) (hg : g < c.fileCount)
    (hhost : c.host f = c.host g) (hid : c.serverFileId f = c.serverFileId g) : f = g := by
  have hreg := h.registered f hf
  rw [hhost, hid, h.registered g hg] at hreg
  exact (Option.some.inj hreg).symm

/-- Creating a room keeps every peer present. -/
theorem present_createRoom (h : c.Complete) (hp : c.Present p) (name : String) :
    (c.createRoom name).Present p := by
  have hne := (h.room_lt p (h.lt_of_present hp)).ne
  simpa [Present, Function.update_of_ne hne] using hp

/-- Creating a room keeps the catalogue complete. -/
theorem createRoom (h : c.Complete) (name : String) : (c.createRoom name).Complete where
  peerId_lt := h.peerId_lt
  peerId_inj := h.peerId_inj
  room_lt p hp := Nat.lt_succ_of_lt (h.room_lt p hp)
  lobby n ρ hn := by
    simp only [createRoom_lobby] at hn
    split at hn
    · obtain rfl := Option.some.inj hn
      exact Nat.lt_succ_self _
    · exact Nat.lt_succ_of_lt (h.lobby n ρ hn)
  member ρ id p hp := by
    simp only [createRoom_member] at hp
    rcases eq_or_ne ρ c.roomCount with rfl | hne
    · simp at hp
    · rw [Function.update_of_ne hne] at hp
      exact h.member ρ id p hp
  host f hf := by
    obtain ⟨hpresent, hhosted⟩ := h.host f hf
    exact ⟨h.present_createRoom hpresent name, hhosted⟩
  registered f hf := by
    have hne := (h.room_lt _ (h.host_lt hf)).ne
    simpa [Function.update_of_ne hne] using h.registered f hf
  file ρ id f hf := by
    simp only [createRoom_fileById] at hf
    rcases eq_or_ne ρ c.roomCount with rfl | hne
    · simp at hf
    · rw [Function.update_of_ne hne] at hf
      simpa [Function.update_of_ne hne] using h.file ρ id f hf

/-- So does deleting one: members and files do not depend on the names. -/
theorem deleteRoom (h : c.Complete) (name : String) : (c.deleteRoom name).Complete :=
  { h with
    lobby := fun n ρ hn => by
      simp only [deleteRoom_lobby] at hn
      split at hn
      · cases hn
      · exact h.lobby n ρ hn }

/-- Creating a peer keeps every other peer present. -/
theorem present_createPeer (h : c.Complete) (hp : c.Present p) (socket : SocketRef) (ρ : RoomRef) :
    (c.createPeer socket ρ).Present p := by
  have hne := (h.lt_of_present hp).ne
  simpa [Present, Function.update_of_ne hne] using hp

/-- Creating a peer keeps the catalogue complete: its id is new, and it hosts
nothing. -/
theorem createPeer (h : c.Complete) (socket : SocketRef) (hρ : ρ < c.roomCount) :
    (c.createPeer socket ρ).Complete := by
  have hold : ∀ p < c.peerCount, (c.createPeer socket ρ).room p = c.room p ∧
      (c.createPeer socket ρ).peerId p = c.peerId p ∧
      (c.createPeer socket ρ).socket p = c.socket p ∧
      (c.createPeer socket ρ).hosted p = c.hosted p := by
    intro p hp
    simp [Function.update_of_ne hp.ne]
  refine ⟨?_, ?_, ?_, h.lobby, ?_, ?_, ?_, ?_⟩
  · intro p hp
    rcases Nat.lt_succ_iff_lt_or_eq.mp hp with hp | rfl
    · rw [(hold p hp).2.1]
      -- ids are handed out in order
      exact (h.peerId_lt p hp).trans (Int.lt_succ _)
    · simp
  · intro p hp q hq heq
    rcases Nat.lt_succ_iff_lt_or_eq.mp hp with hp | rfl <;>
      rcases Nat.lt_succ_iff_lt_or_eq.mp hq with hq | rfl
    · rw [(hold p hp).2.1, (hold q hq).2.1] at heq
      exact h.peerId_inj p hp q hq heq
    · rw [(hold p hp).2.1, createPeer_peerId, Function.update_self] at heq
      -- an old id is below the counter, the new one is the counter
      exact absurd heq (h.peerId_lt p hp).ne
    · rw [(hold q hq).2.1, createPeer_peerId, Function.update_self] at heq
      exact absurd heq.symm (h.peerId_lt q hq).ne
    · rfl
  · intro p hp
    rcases Nat.lt_succ_iff_lt_or_eq.mp hp with hp | rfl
    · rw [(hold p hp).1]
      exact h.room_lt p hp
    · simpa using hρ
  · intro ρ' id p hp
    obtain ⟨hlt, hroom, hid, hsocket⟩ := h.member ρ' id p hp
    obtain ⟨hroom', hid', hsocket', -⟩ := hold p hlt
    exact ⟨Nat.lt_succ_of_lt hlt, hroom'.trans hroom, hid'.trans hid, by rwa [hsocket']⟩
  · intro f hf
    obtain ⟨hpresent, hhosted⟩ := h.host f hf
    refine ⟨h.present_createPeer hpresent socket ρ, ?_⟩
    rw [createPeer_host, (hold _ (h.lt_of_present hpresent)).2.2.2]
    exact hhosted
  · intro f hf
    rw [createPeer_host, (hold _ (h.host_lt hf)).1]
    exact h.registered f hf
  · intro ρ' id f hf
    obtain ⟨hlt, hroom, hid, hcounter⟩ := h.file ρ' id f hf
    refine ⟨hlt, ?_, hid, hcounter⟩
    rw [createPeer_host, (hold _ (h.host_lt hlt)).1]
    exact hroom

/-- Adding a peer keeps the others present, since ids are distinct. -/
theorem present_addPeer (h : c.Complete) (hp : p < c.peerCount) (hq : c.Present q) :
    (c.addPeer (c.room p) p).Present q := by
  simp only [Present, addPeer_member, addPeer_room, addPeer_peerId]
  rcases eq_or_ne (c.room q) (c.room p) with heq | hne
  · rw [heq, Function.update_self]
    split
    · next hid => rw [h.peerId_inj q (h.lt_of_present hq) p hp hid]
    · rw [← heq]
      exact hq
  · rw [Function.update_of_ne hne]
    exact hq

/-- Adding a connected peer to its room keeps the catalogue complete. -/
theorem addPeer (h : c.Complete) (hp : p < c.peerCount) (hsocket : (c.socket p).isSome) :
    (c.addPeer (c.room p) p).Complete := by
  refine { h with member := fun ρ id q hq => ?_, host := fun f hf => ?_ }
  · simp only [addPeer_member] at hq
    rcases eq_or_ne ρ (c.room p) with rfl | hne
    · rw [Function.update_self] at hq
      split at hq
      · next hid =>
        obtain rfl := Option.some.inj hq
        exact ⟨hp, rfl, hid.symm, hsocket⟩
      · exact h.member _ id q hq
    · rw [Function.update_of_ne hne] at hq
      exact h.member ρ id q hq
  · obtain ⟨hpresent, hhosted⟩ := h.host f hf
    exact ⟨h.present_addPeer hp hpresent, hhosted⟩

/-- After a leave every other peer is still present. -/
theorem present_leave (h : c.Complete) (hp : p < c.peerCount) (hq : c.Present q) (hne : q ≠ p) :
    ((c.erasePeer (c.room p) (c.peerId p)).disconnect p).Present q := by
  simp only [Present, disconnect_member, erasePeer_member, disconnect_room, erasePeer_room,
    disconnect_peerId, erasePeer_peerId]
  rcases eq_or_ne (c.room q) (c.room p) with heq | hroom
  · have hid : c.peerId q ≠ c.peerId p := fun hid =>
      hne (h.peerId_inj q (h.lt_of_present hq) p hp hid)
    rw [heq, Function.update_self, if_neg hid, ← heq]
    exact hq
  · rw [Function.update_of_ne hroom]
    exact hq

/-- A peer that hosts nothing leaves. -/
theorem leave (h : c.Complete) (hp : p < c.peerCount) (hhosted : c.hosted p = []) :
    ((c.erasePeer (c.room p) (c.peerId p)).disconnect p).Complete := by
  refine { h with member := fun ρ id q hq => ?_, host := fun f hf => ?_ }
  · simp only [disconnect_member, erasePeer_member] at hq
    have hold : c.member ρ id = some q ∧ (ρ = c.room p → id ≠ c.peerId p) := by
      rcases eq_or_ne ρ (c.room p) with rfl | hne
      · rw [Function.update_self] at hq
        split at hq
        · cases hq
        · next hid => exact ⟨hq, fun _ => hid⟩
      · rw [Function.update_of_ne hne] at hq
        exact ⟨hq, fun heq => absurd heq hne⟩
    obtain ⟨hlt, rfl, rfl, hsocket⟩ := h.member ρ id q hold.1
    have hne : q ≠ p := by
      rintro rfl
      -- the entry under that id has just been erased
      exact hold.2 rfl rfl
    exact ⟨hlt, rfl, rfl, by simpa [Function.update_of_ne hne] using hsocket⟩
  · obtain ⟨hpresent, hmem⟩ := h.host f hf
    have hne : c.host f ≠ p := by
      rintro rfl
      rw [hhosted] at hmem
      cases hmem
    exact ⟨h.present_leave hp hpresent hne, hmem⟩

/-- Registering a file of a member keeps the catalogue complete. -/
theorem registerFile (h : c.Complete) (hp : c.Present p) (clientFileId fileSize : Int) :
    (c.registerFile (c.room p) p clientFileId fileSize).Complete := by
  have hold : ∀ f < c.fileCount,
      (c.registerFile (c.room p) p clientFileId fileSize).host f = c.host f ∧
      (c.registerFile (c.room p) p clientFileId fileSize).serverFileId f = c.serverFileId f := by
    intro f hf
    simp [Function.update_of_ne hf.ne]
  refine { h with
    host := fun f hf => ?_, registered := fun f hf => ?_, file := fun ρ id f hf => ?_ }
  · rcases Nat.lt_succ_iff_lt_or_eq.mp hf with hf | rfl
    · obtain ⟨hpresent, hmem⟩ := h.host f hf
      rw [(hold f hf).1]
      refine ⟨hpresent, ?_⟩
      rw [registerFile_hosted]
      rcases eq_or_ne (c.host f) p with heq | hne
      · rw [heq, Function.update_self, ← heq]
        exact List.mem_append_left _ hmem
      · rwa [Function.update_of_ne hne]
    · rw [registerFile_host, Function.update_self]
      exact ⟨hp, by simp⟩
  · rcases Nat.lt_succ_iff_lt_or_eq.mp hf with hf | rfl
    · rw [(hold f hf).1, (hold f hf).2, registerFile_fileById, registerFile_room]
      have hreg := h.registered f hf
      have hlt := (h.file _ _ f hreg).2.2.2
      rcases eq_or_ne (c.room (c.host f)) (c.room p) with heq | hne
      · rw [heq] at hlt hreg ⊢
        -- the new id is above all ids of the room
        rwa [Function.update_self, if_neg hlt.ne]
      · rwa [Function.update_of_ne hne]
    · simp
  · simp only [registerFile_fileById] at hf
    rcases eq_or_ne ρ (c.room p) with rfl | hne
    · rw [Function.update_self] at hf
      split at hf
      · next hid =>
        obtain rfl := Option.some.inj hf
        exact ⟨Nat.lt_succ_self _, by simp, by simp [hid], by simp [hid]⟩
      · obtain ⟨hlt, hroom, hid, hcounter⟩ := h.file _ id f hf
        refine ⟨Nat.lt_succ_of_lt hlt, ?_, (hold f hlt).2.trans hid, ?_⟩
        · rw [(hold f hlt).1]
          exact hroom
        · rw [registerFile_fileIdCounter, Function.update_self]
          exact hcounter.trans (Int.lt_succ _)
    · rw [Function.update_of_ne hne] at hf
      obtain ⟨hlt, hroom, hid, hcounter⟩ := h.file _ id f hf
      refine ⟨Nat.lt_succ_of_lt hlt, ?_, (hold f hlt).2.trans hid, ?_⟩
      · rw [(hold f hlt).1]
        exact hroom
      · rwa [registerFile_fileIdCounter, Function.update_of_ne hne]

end Complete

end Catalogue

/-! ### The server's functions on the catalogue -/

section Refinement

variable (s : Server) (ρ : RoomRef) (p : PeerRef) (f : FileRef)

/-- The subscribers of a file are no part of the catalogue. -/
theorem catalogue_modifyFile {g : File → File} (hhost : ∀ file, (g file).host = file.host)
    (hclient : ∀ file, (g file).clientFileId = file.clientFileId)
    (hserver : ∀ file, (g file).serverFileId = file.serverFileId)
    (hsize : ∀ file, (g file).fileSize = file.fileSize) :
    (s.modifyFile f g).catalogue = s.catalogue := by
  have hf : ∀ k, ((s.modifyFile f g).files k).host = (s.files k).host ∧
      ((s.modifyFile f g).files k).clientFileId = (s.files k).clientFileId ∧
      ((s.modifyFile f g).files k).serverFileId = (s.files k).serverFileId ∧
      ((s.modifyFile f g).files k).fileSize = (s.files k).fileSize := by
    intro k
    rcases eq_or_ne k f with rfl | hne
    · simp [hhost, hclient, hserver, hsize]
    · simp [hne]
  simp only [Server.catalogue, hf]
  rfl

/-- The counter and the buffer of a peer are no part of the catalogue. -/
theorem catalogue_modifyPeer {g : Peer → Peer} (hroom : ∀ peer, (g peer).room = peer.room)
    (hid : ∀ peer, (g peer).peerId = peer.peerId) (hsocket : ∀ peer, (g peer).socket = peer.socket)
    (hfiles : ∀ peer, (g peer).files = peer.files) :
    (s.modifyPeer p g).catalogue = s.catalogue := by
  have hp : ∀ q, ((s.modifyPeer p g).peers q).room = (s.peers q).room ∧
      ((s.modifyPeer p g).peers q).peerId = (s.peers q).peerId ∧
      ((s.modifyPeer p g).peers q).socket = (s.peers q).socket ∧
      ((s.modifyPeer p g).peers q).files = (s.peers q).files := by
    intro q
    rcases eq_or_ne q p with rfl | hne
    · simp [hroom, hid, hsocket, hfiles]
    · simp [hne]
  simp only [Server.catalogue, hp]
  rfl

theorem catalogue_getOrCreateRoom (name : String) :
    (Lobby.getOrCreateRoom name s).2.catalogue =
      match Lobby.getRoom name s with
      | some _ => s.catalogue
      | none => s.catalogue.createRoom name := by
  unfold Lobby.getOrCreateRoom Lobby.getRoom
  rcases s.lobbyRooms.lookup name with - | ρ
  · refine Catalogue.ext ?_ ?_ ?_ ?_ rfl rfl rfl rfl rfl rfl rfl rfl rfl rfl rfl rfl
    · funext n
      exact UnorderedMap.lookup_insert _ _ _ _
    · funext ρ id
      rcases eq_or_ne ρ s.roomCount with rfl | hne
      · simp [Server.catalogue, Room.getPeerById]
      · simp [Server.catalogue, Room.getPeerById, hne]
    · funext ρ id
      rcases eq_or_ne ρ s.roomCount with rfl | hne
      · simp [Server.catalogue, Room.getFileById]
      · simp [Server.catalogue, Room.getFileById, hne]
    · funext ρ
      exact Function.apply_update (fun _ room => Room.fileIdCounter room) s.rooms s.roomCount
        { name } ρ
  · rfl

theorem catalogue_deleteRoom (name : String) :
    (Lobby.deleteRoom name s).catalogue = s.catalogue.deleteRoom name := by
  refine Catalogue.ext ?_ rfl rfl rfl rfl rfl rfl rfl rfl rfl rfl rfl rfl rfl rfl rfl
  funext n
  exact UnorderedMap.lookup_erase _ _ _

theorem catalogue_createPeer (socket : SocketRef) (nickname : String) :
    (Lobby.createPeer socket ρ nickname s).2.catalogue = s.catalogue.createPeer socket ρ := by
  let peer : Peer := { socket := some socket, room := ρ, nickname, peerId := s.peerIdCounter }
  refine Catalogue.ext rfl rfl rfl rfl ?_ ?_ ?_ ?_ rfl rfl rfl rfl rfl rfl rfl rfl
  · funext q
    exact Function.apply_update (fun _ peer => Peer.room peer) s.peers s.peerCount peer q
  · funext q
    exact Function.apply_update (fun _ peer => Peer.peerId peer) s.peers s.peerCount peer q
  · funext q
    exact Function.apply_update (fun _ peer => Peer.socket peer) s.peers s.peerCount peer q
  · funext q
    exact Function.apply_update (fun _ peer => Peer.files peer) s.peers s.peerCount peer q

/-- One room changes, in its members or its files. -/
theorem catalogue_modifyRoom {g : Room → Room}
    (hcounter : ∀ room, (g room).fileIdCounter = room.fileIdCounter) :
    (s.modifyRoom ρ g).catalogue =
      { s.catalogue with
        member := Function.update s.catalogue.member ρ (g (s.rooms ρ)).peerById.lookup
        fileById := Function.update s.catalogue.fileById ρ (g (s.rooms ρ)).fileById.lookup } := by
  refine Catalogue.ext rfl ?_ ?_ ?_ rfl rfl rfl rfl rfl rfl rfl rfl rfl rfl rfl rfl
  · funext ρ' id
    rcases eq_or_ne ρ' ρ with rfl | hne
    · simp [Server.catalogue, Room.getPeerById]
    · simp [Server.catalogue, Room.getPeerById, hne]
  · funext ρ' id
    rcases eq_or_ne ρ' ρ with rfl | hne
    · simp [Server.catalogue, Room.getFileById]
    · simp [Server.catalogue, Room.getFileById, hne]
  · funext ρ'
    rcases eq_or_ne ρ' ρ with rfl | hne
    · simp [Server.catalogue, hcounter]
    · simp [Server.catalogue, hne]

theorem catalogue_addPeer : (Room.addPeer ρ p s).catalogue = s.catalogue.addPeer ρ p := by
  refine (catalogue_modifyRoom s ρ ?_).trans ?_
  · exact fun room => rfl
  have hmember : ((s.rooms ρ).peerById.insert (s.peers p).peerId p).lookup =
      fun id => if id = s.catalogue.peerId p then some p else s.catalogue.member ρ id := by
    funext id
    exact UnorderedMap.lookup_insert _ _ _ _
  have hfile : Function.update s.catalogue.fileById ρ (s.rooms ρ).fileById.lookup =
      s.catalogue.fileById := Function.update_eq_self ρ _
  simp only [hmember, hfile]
  rfl

theorem catalogue_erasePeer (peerId : Int) :
    (Room.erasePeer ρ peerId s).catalogue = s.catalogue.erasePeer ρ peerId := by
  refine (catalogue_modifyRoom s ρ ?_).trans ?_
  · exact fun room => rfl
  have hmember : ((s.rooms ρ).peerById.erase peerId).lookup =
      fun id => if id = peerId then none else s.catalogue.member ρ id := by
    funext id
    exact UnorderedMap.lookup_erase _ _ _
  have hfile : Function.update s.catalogue.fileById ρ (s.rooms ρ).fileById.lookup =
      s.catalogue.fileById := Function.update_eq_self ρ _
  simp only [hmember, hfile]
  rfl

/-- Invalidating subscribers takes no file out of a room. -/
theorem catalogue_clearSubscribers :
    (File.clearSubscribers f s).catalogue = s.catalogue := by
  rw [File.clearSubscribers_eq]
  refine catalogue_modifyFile { s with subscribers := _ } f
    (g := fun file => { file with subscribers := ∅ }) ?_ ?_ ?_ ?_
  · exact fun file => rfl
  · exact fun file => rfl
  · exact fun file => rfl
  · exact fun file => rfl

/-- `Catalogue.cancelFile` is what the loop of `removePeerById` does to the
catalogue. -/
theorem catalogue_cancelFile :
    (Room.cancelFile ρ s f).catalogue = s.catalogue.cancelFile ρ f := by
  rw [← catalogue_clearSubscribers s f]
  unfold Room.cancelFile Room.eraseFile
  generalize File.clearSubscribers f s = s
  refine (catalogue_modifyRoom s ρ ?_).trans ?_
  · exact fun room => rfl
  have hmember : Function.update s.catalogue.member ρ (s.rooms ρ).peerById.lookup =
      s.catalogue.member := Function.update_eq_self ρ _
  have hfile : ((s.rooms ρ).fileById.erase (s.files f).serverFileId).lookup =
      fun id => if id = s.catalogue.serverFileId f then none else s.catalogue.fileById ρ id := by
    funext id
    exact UnorderedMap.lookup_erase _ _ _
  simp only [hmember, hfile]
  rfl

/-- The files of the leaver are cancelled in the order they were shared, then
its entry goes. -/
theorem catalogue_removePeerById (peerId : Int) :
    (Room.removePeerById ρ peerId s).catalogue =
      match s.catalogue.member ρ peerId with
      | none => s.catalogue
      | some p => ((s.catalogue.hosted p).foldl (fun c f => c.cancelFile ρ f) s.catalogue).erasePeer
          ρ peerId := by
  have hloop : ∀ (fs : List FileRef) (s : Server), (fs.foldl (Room.cancelFile ρ) s).catalogue =
      fs.foldl (fun c f => c.cancelFile ρ f) s.catalogue := by
    intro fs
    induction fs with
    | nil => exact fun s => rfl
    | cons f fs ih =>
        intro s
        rw [List.foldl_cons, List.foldl_cons, ih, catalogue_cancelFile]
  unfold Room.removePeerById
  rcases hp : Room.getPeerById ρ peerId s with - | p
  · rw [show s.catalogue.member ρ peerId = none from hp]
  · rw [show s.catalogue.member ρ peerId = some p from hp]
    dsimp only
    rw [catalogue_erasePeer, hloop]
    rfl

/-- One peer loses its socket. -/
theorem catalogue_invalidateSocket :
    (Peer.invalidateSocket p s).catalogue = s.catalogue.disconnect p := by
  refine Catalogue.ext rfl rfl rfl rfl ?_ ?_ ?_ ?_ rfl rfl rfl rfl rfl rfl rfl rfl
  · funext q
    rcases eq_or_ne q p with rfl | hne
    · simp [Server.catalogue, Peer.invalidateSocket]
    · simp [Server.catalogue, Peer.invalidateSocket, hne]
  · funext q
    rcases eq_or_ne q p with rfl | hne
    · simp [Server.catalogue, Peer.invalidateSocket]
    · simp [Server.catalogue, Peer.invalidateSocket, hne]
  · funext q
    rcases eq_or_ne q p with rfl | hne
    · simp [Server.catalogue, Peer.invalidateSocket]
    · simp [Server.catalogue, Peer.invalidateSocket, hne]
  · funext q
    rcases eq_or_ne q p with rfl | hne
    · simp [Server.catalogue, Peer.invalidateSocket]
    · simp [Server.catalogue, Peer.invalidateSocket, hne]

/-- `shareFile` is the operation of that name; the counter of events is no part
of it. -/
theorem catalogue_registerFile (host : PeerRef) (clientFileId : Int) (fileName : Option String)
    (fileSize : Int) :
    (Room.registerFile ρ host clientFileId fileName fileSize s).2.catalogue =
      s.catalogue.registerFile ρ host clientFileId fileSize := by
  let file : File :=
    { host, clientFileId, serverFileId := (s.rooms ρ).fileIdCounter, fileName, fileSize }
  -- of the peers only the host changes, and of the host only `m_files`
  have hpeer : ∀ q, ((Room.registerFile ρ host clientFileId fileName fileSize s).2.peers q) =
      { s.peers q with
        files := (s.catalogue.registerFile ρ host clientFileId fileSize).hosted q } := by
    intro q
    rcases eq_or_ne q host with rfl | hne
    · simp [Room.registerFile, Peer.addFile, Server.catalogue]
    · simp [Room.registerFile, Peer.addFile, Server.catalogue, hne]
  refine Catalogue.ext rfl ?_ ?_ ?_ ?_ ?_ ?_ ?_ ?_ ?_ ?_ ?_ rfl rfl rfl rfl
  · funext ρ' id
    rcases eq_or_ne ρ' ρ with rfl | hne
    · simp [Server.catalogue, Room.getPeerById, Room.registerFile, Peer.addFile]
    · simp [Server.catalogue, Room.getPeerById, Room.registerFile, Peer.addFile, hne]
  · funext ρ' id
    rcases eq_or_ne ρ' ρ with rfl | hne
    · simp [Server.catalogue, Room.getFileById, Room.registerFile, Peer.addFile,
        UnorderedMap.lookup_insert]
    · simp [Server.catalogue, Room.getFileById, Room.registerFile, Peer.addFile, hne]
  · funext ρ'
    rcases eq_or_ne ρ' ρ with rfl | hne
    · simp [Server.catalogue, Room.registerFile, Peer.addFile]
    · simp [Server.catalogue, Room.registerFile, Peer.addFile, hne]
  · funext q
    exact (congrArg Peer.room (hpeer q)).trans rfl
  · funext q
    exact (congrArg Peer.peerId (hpeer q)).trans rfl
  · funext q
    exact (congrArg Peer.socket (hpeer q)).trans rfl
  · funext q
    exact (congrArg Peer.files (hpeer q)).trans rfl
  · funext g
    exact Function.apply_update (fun _ file => File.host file) s.files s.fileCount file g
  · funext g
    exact Function.apply_update (fun _ file => File.clientFileId file) s.files s.fileCount file g
  · funext g
    exact Function.apply_update (fun _ file => File.serverFileId file) s.files s.fileCount file g
  · funext g
    exact Function.apply_update (fun _ file => File.fileSize file) s.files s.fileCount file g

/-- The history is no part of the catalogue. -/
theorem catalogue_addHistoryMessage (config : ConfigDto) (message : Object MessageDto) :
    (Room.addHistoryMessage config ρ message s).catalogue = s.catalogue := by
  unfold Room.addHistoryMessage
  split
  · rfl
  · refine (catalogue_modifyRoom s ρ ?_).trans ?_
    · exact fun room => rfl
    have hmember : Function.update s.catalogue.member ρ (s.rooms ρ).peerById.lookup =
        s.catalogue.member := Function.update_eq_self ρ _
    have hfile : Function.update s.catalogue.fileById ρ (s.rooms ρ).fileById.lookup =
        s.catalogue.fileById := Function.update_eq_self ρ _
    simp only [hmember, hfile]

/-- The outboxes are no part of the catalogue. -/
theorem catalogue_broadcast (message : Object MessageDto) :
    (Room.sendMessageAsync ρ message s).catalogue = s.catalogue := by
  obtain ⟨_, h⟩ := Room.sendMessageAsync_frame ρ message s
  rw [h]
  rfl

/-- Sending to one peer changes only its outbox. -/
theorem catalogue_sendMessageAsync (message : Object MessageDto) :
    (Peer.sendMessageAsync p message s).catalogue = s.catalogue := by
  obtain ⟨_, h⟩ := Peer.sendMessageAsync_frame p message s
  rw [h]
  rfl

/-- The table of subscribers is the file's own. -/
theorem catalogue_subscribe : (File.subscribe f s).2.catalogue = s.catalogue := by
  unfold File.subscribe
  refine catalogue_modifyFile { s with
    subscribers := Function.update s.subscribers s.subscriberCount
      (some { id := (s.files f).subscriberIdCounter, file := f })
    subscriberCount := s.subscriberCount + 1 } f
    (g := fun file => { file with
      subscriberIdCounter := file.subscriberIdCounter + 1
      subscribers := file.subscribers.insert (s.files f).subscriberIdCounter s.subscriberCount })
    ?_ ?_ ?_ ?_
  · exact fun file => rfl
  · exact fun file => rfl
  · exact fun file => rfl
  · exact fun file => rfl

/-- The destructor of a subscriber changes only the table of its file. -/
theorem catalogue_destroy (σ : SubscriberRef) :
    (Subscriber.destroy σ s).catalogue = s.catalogue := by
  unfold Subscriber.destroy
  split
  · rfl
  · next subscriber _ =>
    refine catalogue_modifyFile s subscriber.file
      (g := fun file => { file with subscribers := file.subscribers.erase subscriber.id })
      ?_ ?_ ?_ ?_
    · exact fun file => rfl
    · exact fun file => rfl
    · exact fun file => rfl
    · exact fun file => rfl

/-- A chunk changes only a subscriber, whatever the outcome. -/
theorem catalogue_provideFileChunk (subscriberId : Int) (data : Bytes) :
    ((File.provideFileChunk f subscriberId data).exec s).2.catalogue = s.catalogue := by
  obtain ⟨_, h⟩ := File.provideFileChunk_frame f subscriberId data s
  rw [h]
  rfl

/-- A read changes its subscriber, and may send a request. -/
theorem catalogue_read (σ : SubscriberRef) (count : Int) :
    ((Subscriber.read σ count).exec s).2.catalogue = s.catalogue := by
  obtain ⟨_, _, _, _, h⟩ := Subscriber.read_frame σ count s
  rw [h]
  rfl

/-! Whole handlers. -/

/-- Once the room is there, the newcomer is created and added to it. -/
theorem catalogue_entered (config : ConfigDto) (socket : SocketRef) (roomName nickname : String) :
    let entered := Lobby.getOrCreateRoom roomName (Lobby.countConnected s)
    let c := entered.2.catalogue
    c.lobby roomName = some entered.1 ∧
      (Lobby.onAfterCreateNonBlocking config socket roomName nickname s).1 = c.peerCount ∧
      (Lobby.onAfterCreateNonBlocking config socket roomName nickname s).2.catalogue =
        (c.createPeer socket entered.1).addPeer entered.1 c.peerCount := by
  intro entered c
  let created := Lobby.createPeer socket entered.1 nickname entered.2
  refine ⟨?_, rfl, ?_⟩
  · simp only [c, entered, Server.catalogue, Lobby.getRoom, Lobby.getOrCreateRoom]
    split
    · next hname => exact hname
    · simp [Server.modifyStatistics]
  · have hshared :
        ∀ (s : Server) (dto : MessageDto), (s.createShared dto).2.catalogue = s.catalogue :=
      fun s dto => rfl
    show (Room.onboardPeer config entered.1 created.1 (Room.addPeer entered.1 created.1
      (Room.welcomePeer config entered.1 created.1 created.2))).catalogue = _
    unfold Room.onboardPeer Room.welcomePeer
    dsimp only
    -- from the last call to the first
    rw [catalogue_sendMessageAsync, hshared, catalogue_addPeer, catalogue_broadcast,
      catalogue_addHistoryMessage, hshared, catalogue_createPeer]
    rfl

/-- Whoever joins enters the room of that name, which may have been created for it. -/
theorem catalogue_onAfterCreateNonBlocking (config : ConfigDto) (socket : SocketRef)
    (roomName nickname : String) :
    ∃ c ρ, (c = s.catalogue ∨ c = s.catalogue.createRoom roomName) ∧ c.lobby roomName = some ρ ∧
      (Lobby.onAfterCreateNonBlocking config socket roomName nickname s).1 = c.peerCount ∧
      (Lobby.onAfterCreateNonBlocking config socket roomName nickname s).2.catalogue =
        (c.createPeer socket ρ).addPeer ρ c.peerCount := by
  refine ⟨_, _, ?_, catalogue_entered s config socket roomName nickname⟩
  have hroom := catalogue_getOrCreateRoom (Lobby.countConnected s) roomName
  split at hroom
  · exact .inl hroom
  · exact .inr hroom

/-- A round of pings takes sockets away and gives none. -/
theorem catalogue_pingAllPeers : ∃ socket, (Room.pingAllPeers ρ s).catalogue =
    { s.catalogue with socket } ∧ ∀ p k, socket p = some k → s.catalogue.socket p = some k := by
  unfold Room.pingAllPeers
  generalize Room.members ρ s = ps
  induction ps generalizing s with
  | nil => exact ⟨_, rfl, fun _ _ h => h⟩
  | cons p ps ih =>
      obtain ⟨socket, hcatalogue, hsocket⟩ := ih (Room.pingPeer s p)
      -- a peer is pinged, or dropped
      obtain hpinged | hpinged : (Room.pingPeer s p).catalogue = s.catalogue ∨
          (Room.pingPeer s p).catalogue = s.catalogue.disconnect p := by
        have hping : (Peer.sendPingAsync p s).2.catalogue = s.catalogue :=
          catalogue_modifyPeer s p (fun _ => rfl) (fun _ => rfl) (fun _ => rfl) (fun _ => rfl)
        unfold Room.pingPeer
        dsimp only
        split
        · exact .inl hping
        · refine .inr ?_
          rw [← hping]
          exact catalogue_invalidateSocket (Peer.sendPingAsync p s).2 p
      · rw [hpinged] at hcatalogue hsocket
        exact ⟨socket, hcatalogue, hsocket⟩
      · rw [hpinged] at hcatalogue hsocket
        refine ⟨socket, hcatalogue, fun q k hk => ?_⟩
        have hk := hsocket q k hk
        rcases eq_or_ne q p with rfl | hne
        · simp at hk
        · simpa [hne] using hk

/-- A member leaves, with the files it has shared. -/
theorem catalogue_goodbyePeer (config : ConfigDto) (hp : s.catalogue.Present p) :
    (Peer.invalidateSocket p (Room.goodbyePeer config (s.peers p).room p
      (Room.removePeerById (s.peers p).room (s.peers p).peerId
        (Lobby.countDisconnected s)))).catalogue =
      (((s.catalogue.hosted p).foldl (fun c f => c.cancelFile (s.catalogue.room p) f)
        s.catalogue).erasePeer (s.catalogue.room p) (s.catalogue.peerId p)).disconnect p := by
  have hshared :
      ∀ (s : Server) (dto : MessageDto), (s.createShared dto).2.catalogue = s.catalogue :=
    fun s dto => rfl
  have hcount : (Lobby.countDisconnected s).catalogue = s.catalogue := rfl
  have hlookup : s.catalogue.member (s.peers p).room (s.peers p).peerId = some p := hp
  unfold Room.goodbyePeer
  dsimp only
  rw [catalogue_invalidateSocket, catalogue_broadcast, catalogue_addHistoryMessage, hshared,
    catalogue_removePeerById, hcount, hlookup]
  rfl

/-- The test of `Room::isEmpty` is that nobody is found under any id. -/
theorem isEmpty_iff : Room.isEmpty ρ s = true ↔ ∀ id, s.catalogue.member ρ id = none := by
  rw [Room.isEmpty, beq_iff_eq, UnorderedMap.size_eq_zero_iff]
  rfl

/-- A member that has shared no file leaves. -/
theorem catalogue_onBeforeDestroyNonBlocking (config : ConfigDto)
    (hp : s.catalogue.Present p) (hfiles : s.catalogue.hosted p = []) :
    ∃ c, c = (s.catalogue.erasePeer (s.catalogue.room p) (s.catalogue.peerId p)).disconnect p ∧
      ((Lobby.onBeforeDestroyNonBlocking config p s).catalogue = c ∨
        ∃ name, (Lobby.onBeforeDestroyNonBlocking config p s).catalogue = c.deleteRoom name) := by
  have hleft := catalogue_goodbyePeer s p config hp
  rw [hfiles] at hleft
  refine ⟨_, rfl, ?_⟩
  unfold Lobby.onBeforeDestroyNonBlocking
  dsimp only
  split
  · exact .inr ⟨_, (catalogue_deleteRoom _ _).trans (congrArg (Catalogue.deleteRoom _) hleft)⟩
  · exact .inl hleft

end Refinement

namespace Catalogue

variable {c : Catalogue} {p q : PeerRef}

/-- Files are cancelled, and nothing else happens. -/
theorem foldl_cancelFile (ρ : RoomRef) (fs : List FileRef) (c : Catalogue) :
    ∃ fileById, fs.foldl (fun c f => c.cancelFile ρ f) c = { c with fileById } ∧
      ∀ ρ' id f, fileById ρ' id = some f → c.fileById ρ' id = some f := by
  induction fs generalizing c with
  | nil => exact ⟨_, rfl, fun _ _ _ h => h⟩
  | cons f fs ih =>
      obtain ⟨fileById, heq, hfile⟩ := ih (c.cancelFile ρ f)
      refine ⟨fileById, heq, fun ρ' id g hg => ?_⟩
      have hg := hfile ρ' id g hg
      rcases eq_or_ne ρ' ρ with rfl | hne
      · rw [cancelFile_fileById, Function.update_self] at hg
        split at hg
        · cases hg
        · exact hg
      · rwa [cancelFile_fileById, Function.update_of_ne hne] at hg

/-- A fresh server has neither peers nor files. -/
theorem Complete.new (clock : ℕ → Int) : ({ clock } : Server).catalogue.Complete where
  peerId_lt p hp := absurd hp (Nat.not_lt_zero p)
  peerId_inj p hp := absurd hp (Nat.not_lt_zero p)
  room_lt p hp := absurd hp (Nat.not_lt_zero p)
  lobby _ _ hρ := nomatch (show none = some _ from hρ)
  member _ _ _ hp := nomatch (show none = some _ from hp)
  host f hf := absurd hf (Nat.not_lt_zero f)
  registered f hf := absurd hf (Nat.not_lt_zero f)
  file _ _ _ hf := nomatch (show none = some _ from hf)

/-- A join keeps the catalogue complete, and every peer present. -/
theorem Complete.join (h : c.Complete) {ρ : RoomRef} (hρ : ρ < c.roomCount) (socket : SocketRef) :
    ((c.createPeer socket ρ).addPeer ρ c.peerCount).Complete ∧
      ∀ q, c.Present q → ((c.createPeer socket ρ).addPeer ρ c.peerCount).Present q := by
  have hcreated := h.createPeer socket hρ
  have hlt : c.peerCount < (c.createPeer socket ρ).peerCount := Nat.lt_succ_self _
  have hroom : (c.createPeer socket ρ).room c.peerCount = ρ := by simp
  have hsocket : ((c.createPeer socket ρ).socket c.peerCount).isSome := by simp
  have hadded := hcreated.addPeer hlt hsocket
  rw [hroom] at hadded
  refine ⟨hadded, fun q hq => ?_⟩
  have hpresent := hcreated.present_addPeer hlt (h.present_createPeer hq socket ρ)
  rwa [hroom] at hpresent

end Catalogue

end CanChat
