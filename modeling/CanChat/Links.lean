/-
CanChat/Links.lean

Links to files: `room/{roomId}/file/{fileId}`.

A room numbers its files by itself, and a room that is created again under an
old name starts over.  Within one room an id is given out once and for all; a
link keeps its meaning in the runs in which a room never gives out an id that
an earlier room of its name has given out (`links_stable_iff`).

Design.  No file is forgotten by the state, so `url` says for every file that
was ever shared what its link is; it never changes.  A file can be found under
its link when the message that shares it has been handled.
-/
import CanChat.SharedFiles
import CanChat.Survivors
import Mathlib.Data.List.Induction

namespace CanChat

/-! ### Ids within a room -/

namespace Catalogue

/-- The rooms number their files by counters that only go up. -/
structure Numbered (c : Catalogue) : Prop where
  fileById : ∀ ρ id f, c.fileById ρ id = some f →
    f < c.fileCount ∧ c.room (c.host f) = ρ ∧ c.serverFileId f = id
  host_lt : ∀ f < c.fileCount, c.host f < c.peerCount
  room_lt : ∀ p < c.peerCount, c.room p < c.roomCount
  id_lt : ∀ f < c.fileCount, c.serverFileId f < c.fileIdCounter (c.room (c.host f))
  inj : ∀ f < c.fileCount, ∀ g < c.fileCount, c.room (c.host f) = c.room (c.host g) →
    c.serverFileId f = c.serverFileId g → f = g

/-- The files of `c` are where they were. -/
structure Preserves (c d : Catalogue) : Prop where
  roomCount : c.roomCount ≤ d.roomCount
  fileCount : c.fileCount ≤ d.fileCount
  room : ∀ f < c.fileCount, d.room (d.host f) = c.room (c.host f)
  serverFileId : ∀ f < c.fileCount, d.serverFileId f = c.serverFileId f

theorem Preserves.refl (c : Catalogue) : c.Preserves c :=
  ⟨le_rfl, le_rfl, fun _ _ => rfl, fun _ _ => rfl⟩

theorem Preserves.trans {c d e : Catalogue} (h : c.Preserves d) (h' : d.Preserves e) :
    c.Preserves e where
  roomCount := h.roomCount.trans h'.roomCount
  fileCount := h.fileCount.trans h'.fileCount
  room f hf := (h'.room f (hf.trans_le h.fileCount)).trans (h.room f hf)
  serverFileId f hf := (h'.serverFileId f (hf.trans_le h.fileCount)).trans (h.serverFileId f hf)

/-- Files may be cancelled; nothing is shared and nobody joins. -/
structure Shrinks (c d : Catalogue) : Prop where
  fileById : ∀ ρ id f, d.fileById ρ id = some f → c.fileById ρ id = some f
  fileIdCounter : d.fileIdCounter = c.fileIdCounter
  room : d.room = c.room
  host : d.host = c.host
  serverFileId : d.serverFileId = c.serverFileId
  roomCount : d.roomCount = c.roomCount
  peerCount : d.peerCount = c.peerCount
  fileCount : d.fileCount = c.fileCount

theorem Shrinks.of_eq {c d : Catalogue} (h : d = c) : c.Shrinks d := by
  subst h
  exact ⟨fun _ _ _ h => h, rfl, rfl, rfl, rfl, rfl, rfl, rfl⟩

section Numbered

variable {c d : Catalogue} {ρ : RoomRef} {host : PeerRef}

theorem Shrinks.preserves (h : c.Shrinks d) : c.Preserves d where
  roomCount := h.roomCount.ge
  fileCount := h.fileCount.ge
  room f _ := by rw [h.room, h.host]
  serverFileId f _ := by rw [h.serverFileId]

theorem Numbered.shrinks (h : c.Numbered) (hd : c.Shrinks d) : d.Numbered where
  fileById ρ id f hf := by
    rw [hd.fileCount, hd.room, hd.host, hd.serverFileId]
    exact h.fileById ρ id f (hd.fileById ρ id f hf)
  host_lt := by
    rw [hd.fileCount, hd.host, hd.peerCount]
    exact h.host_lt
  room_lt := by
    rw [hd.peerCount, hd.room, hd.roomCount]
    exact h.room_lt
  id_lt := by
    rw [hd.fileCount, hd.serverFileId, hd.fileIdCounter, hd.room, hd.host]
    exact h.id_lt
  inj := by
    rw [hd.fileCount, hd.room, hd.host, hd.serverFileId]
    exact h.inj

/-- A new room has no files. -/
theorem Numbered.createRoom (h : c.Numbered) (name : String) :
    (c.createRoom name).Numbered ∧ c.Preserves (c.createRoom name) := by
  have hne : ∀ f < c.fileCount, c.room (c.host f) ≠ c.roomCount := fun f hf =>
    (h.room_lt _ (h.host_lt f hf)).ne
  refine ⟨⟨fun ρ id f hf => ?_, h.host_lt, fun p hp => Nat.lt_succ_of_lt (h.room_lt p hp),
    fun f hf => ?_, h.inj⟩, ⟨Nat.le_succ _, le_rfl, fun _ _ => rfl, fun _ _ => rfl⟩⟩
  · rcases eq_or_ne ρ c.roomCount with rfl | hρ
    · rw [createRoom_fileById, Function.update_self] at hf
      cases hf
    · rw [createRoom_fileById, Function.update_of_ne hρ] at hf
      exact h.fileById ρ id f hf
  · rw [createRoom_fileIdCounter, createRoom_room, createRoom_host,
      Function.update_of_ne (hne f hf)]
    exact h.id_lt f hf

/-- A newcomer hosts no files. -/
theorem Numbered.createPeer (h : c.Numbered) (socket : SocketRef) (hρ : ρ < c.roomCount) :
    (c.createPeer socket ρ).Numbered ∧ c.Preserves (c.createPeer socket ρ) := by
  have hroom : ∀ f < c.fileCount, (c.createPeer socket ρ).room (c.host f) = c.room (c.host f) :=
    fun f hf => Function.update_of_ne (h.host_lt f hf).ne _ _
  refine ⟨⟨fun ρ' id f hf => ?_, fun f hf => Nat.lt_succ_of_lt (h.host_lt f hf), fun p hp => ?_,
    fun f hf => ?_, fun f hf g hg heq hid => ?_⟩, ⟨le_rfl, le_rfl, hroom, fun _ _ => rfl⟩⟩
  · obtain ⟨hlt, heq, hid⟩ := h.fileById ρ' id f hf
    exact ⟨hlt, (hroom f hlt).trans heq, hid⟩
  · rw [createPeer_room]
    rcases Nat.lt_succ_iff_lt_or_eq.mp hp with hp | rfl
    · rw [Function.update_of_ne hp.ne]
      exact h.room_lt p hp
    · rw [Function.update_self]
      exact hρ
  · show c.serverFileId f < c.fileIdCounter ((c.createPeer socket ρ).room (c.host f))
    rw [hroom f hf]
    exact h.id_lt f hf
  · refine h.inj f hf g hg ?_ hid
    rw [← hroom f hf, ← hroom g hg]
    exact heq

/-- The newcomer is added to the room. -/
theorem Numbered.join (h : c.Numbered) (socket : SocketRef) (hρ : ρ < c.roomCount) :
    ((c.createPeer socket ρ).addPeer ρ c.peerCount).Numbered ∧
      c.Preserves ((c.createPeer socket ρ).addPeer ρ c.peerCount) := by
  obtain ⟨hcreated, hkept⟩ := h.createPeer socket hρ
  have hadded : (c.createPeer socket ρ).Shrinks ((c.createPeer socket ρ).addPeer ρ c.peerCount) :=
    ⟨fun _ _ _ h => h, rfl, rfl, rfl, rfl, rfl, rfl, rfl⟩
  exact ⟨hcreated.shrinks hadded, hkept.trans hadded.preserves⟩

/-- A file gets an id its room has not given out before. -/
theorem Numbered.registerFile (h : c.Numbered) (hhost : host < c.peerCount)
    (clientFileId fileSize : Int) :
    (c.registerFile (c.room host) host clientFileId fileSize).Numbered ∧
      c.Preserves (c.registerFile (c.room host) host clientFileId fileSize) := by
  let d := c.registerFile (c.room host) host clientFileId fileSize
  have hold : ∀ f < c.fileCount, d.host f = c.host f ∧ d.serverFileId f = c.serverFileId f :=
    fun f hf => ⟨Function.update_of_ne hf.ne _ _, Function.update_of_ne hf.ne _ _⟩
  have hnew : d.host c.fileCount = host ∧
    d.serverFileId c.fileCount = c.fileIdCounter (c.room host) :=
    ⟨Function.update_self .., Function.update_self ..⟩
  have hlt : ∀ f, f < d.fileCount ↔ f < c.fileCount ∨ f = c.fileCount :=
    fun f => Nat.lt_succ_iff_lt_or_eq
  -- the counter of the room only grows, so the new id is above those in use
  have hcounter : ∀ ρ, c.fileIdCounter ρ ≤ d.fileIdCounter ρ := by
    intro ρ
    rcases eq_or_ne ρ (c.room host) with rfl | hne
    · rw [registerFile_fileIdCounter, Function.update_self]
      exact (Int.lt_succ _).le
    · rw [registerFile_fileIdCounter, Function.update_of_ne hne]
  have hid : ∀ f < c.fileCount, c.room (c.host f) = c.room host →
      c.serverFileId f ≠ c.fileIdCounter (c.room host) := by
    intro f hf heq
    have hlt := h.id_lt f hf
    rw [heq] at hlt
    exact hlt.ne
  refine ⟨⟨fun ρ id f hf => ?_, fun f hf => ?_, h.room_lt, fun f hf => ?_,
    fun f hf g hg heq heqid => ?_⟩,
      ⟨le_rfl, Nat.le_succ _, fun f hf => ?_, fun f hf => (hold f hf).2⟩⟩
  · have hcases : d.fileById ρ id = if ρ = c.room host ∧ id = c.fileIdCounter (c.room host) then
        some c.fileCount else c.fileById ρ id := by
      rcases eq_or_ne ρ (c.room host) with rfl | hne
      · simp [d]
      · simp [d, hne]
    -- found under the new id, or found before
    rw [hcases] at hf
    split at hf
    · next heq =>
      obtain ⟨rfl, rfl⟩ := heq
      obtain rfl := Option.some.inj hf
      exact ⟨Nat.lt_succ_self _, congrArg c.room hnew.1, hnew.2⟩
    · obtain ⟨hfile, hroom, hid⟩ := h.fileById ρ id f hf
      refine ⟨Nat.lt_succ_of_lt hfile, ?_, (hold f hfile).2.trans hid⟩
      exact (congrArg c.room (hold f hfile).1).trans hroom
  · rcases (hlt f).mp hf with hf | rfl
    · rw [(hold f hf).1]
      exact h.host_lt f hf
    · rw [hnew.1]
      exact hhost
  · rcases (hlt f).mp hf with hf | rfl
    · rw [(hold f hf).2]
      show _ < d.fileIdCounter (c.room (d.host f))
      rw [(hold f hf).1]
      exact (h.id_lt f hf).trans_le (hcounter _)
    · rw [hnew.2]
      show _ < d.fileIdCounter (c.room (d.host c.fileCount))
      rw [hnew.1, registerFile_fileIdCounter, Function.update_self]
      exact Int.lt_succ _
  · replace heq : c.room (d.host f) = c.room (d.host g) := heq
    replace heqid : d.serverFileId f = d.serverFileId g := heqid
    rcases (hlt f).mp hf with hf | rfl <;> rcases (hlt g).mp hg with hg | rfl
    · rw [(hold f hf).1, (hold g hg).1] at heq
      rw [(hold f hf).2, (hold g hg).2] at heqid
      exact h.inj f hf g hg heq heqid
    -- an older file of the room has a smaller id
    · rw [(hold f hf).1, hnew.1] at heq
      rw [(hold f hf).2, hnew.2] at heqid
      exact absurd heqid (hid f hf heq)
    · rw [(hold g hg).1, hnew.1] at heq
      rw [(hold g hg).2, hnew.2] at heqid
      exact absurd heqid.symm (hid g hg heq.symm)
    · rfl
  · exact congrArg c.room (hold f hf).1

/-- What registering files one after the other comes to. -/
structure Registered (c d : Catalogue) (host : PeerRef) (count : ℕ) : Prop where
  numbered : d.Numbered
  preserves : c.Preserves d
  lobby : d.lobby = c.lobby
  room : d.room = c.room
  peerCount : d.peerCount = c.peerCount
  fileCount : d.fileCount = c.fileCount + count
  fileIdCounter : d.fileIdCounter (c.room host) = c.fileIdCounter (c.room host) + count
  file : ∀ i < count, d.host (c.fileCount + i) = host ∧
    d.serverFileId (c.fileCount + i) = c.fileIdCounter (c.room host) + i ∧
      d.fileById (c.room host) (c.fileIdCounter (c.room host) + i) = some (c.fileCount + i)
  other : ∀ id, (∀ i < count, id ≠ c.fileIdCounter (c.room host) + (i : ℕ)) →
    d.fileById (c.room host) id = c.fileById (c.room host) id

theorem Numbered.registerFiles (h : c.Numbered) (hhost : host < c.peerCount)
    (files : List SharedFile) :
    Registered c (c.registerFiles (c.room host) host files) host files.length := by
  induction files using List.reverseRecOn with
  | nil =>
      refine ⟨h, .refl c, rfl, rfl, rfl, rfl, ?_, fun i hi => absurd hi (Nat.not_lt_zero i),
        fun _ _ => rfl⟩
      exact (Int.add_zero _).symm
  -- one more turn of the loop: the earlier files keep their ids, the last takes the counter
  | append_singleton files file ih =>
      let c' := c.registerFiles (c.room host) host files
      have heq : c.registerFiles (c.room host) host (files ++ [file]) =
          c'.registerFile (c.room host) host file.clientFileId file.size :=
        List.foldl_append
      have hnext := ih.numbered.registerFile (ih.peerCount.symm ▸ hhost : host < c'.peerCount)
        file.clientFileId file.size
      rw [ih.room] at hnext
      rw [heq, List.length_append, List.length_singleton]
      refine ⟨hnext.1, ih.preserves.trans hnext.2, ih.lobby, ih.room, ih.peerCount, ?_, ?_,
        fun i hi => ?_, fun id hid => ?_⟩
      · rw [registerFile_fileCount, ih.fileCount, Nat.add_assoc]
      · rw [registerFile_fileIdCounter, Function.update_self, ih.fileIdCounter, Nat.cast_succ,
          Int.add_assoc]
      -- an earlier file: neither its reference nor its id is the new one
      · rcases Nat.lt_succ_iff_lt_or_eq.mp hi with hi | rfl
        · have hne : c.fileCount + i ≠ c'.fileCount := by
            rw [ih.fileCount]
            omega
          have hid :
              c.fileIdCounter (c.room host) + (i : Int) ≠ c'.fileIdCounter (c.room host) := by
            rw [ih.fileIdCounter]
            omega
          obtain ⟨hfile, hfileId, hfound⟩ := ih.file i hi
          refine ⟨?_, ?_, ?_⟩
          · rw [registerFile_host, Function.update_of_ne hne, hfile]
          · rw [registerFile_serverFileId, Function.update_of_ne hne, hfileId]
          · rw [registerFile_fileById, Function.update_self, if_neg hid, hfound]
        -- the last file
        · rw [← ih.fileIdCounter, ← ih.fileCount]
          refine ⟨?_, ?_, ?_⟩
          · rw [registerFile_host, Function.update_self]
          · rw [registerFile_serverFileId, Function.update_self]
          · rw [registerFile_fileById, Function.update_self, if_pos rfl]
      · have hlast : id ≠ c'.fileIdCounter (c.room host) := by
          rw [ih.fileIdCounter]
          exact hid files.length (Nat.lt_succ_self _)
        rw [registerFile_fileById, Function.update_self, if_neg hlast]
        exact ih.other id fun i hi => hid i (Nat.lt_succ_of_lt hi)

end Numbered

end Catalogue

/-! ### Links -/

namespace Links

open Lifetime (State Act system)

/-- `room/{roomId}/file/{fileId}` -/
abbrev Link := String × Int

/-- The lookups of `FileController::GetFile`. -/
def lookUp (link : Link) (s : Server) : Option FileRef :=
  (Lobby.getRoom link.1 s).bind fun ρ => Room.getFileById ρ link.2 s

/-- The link a file was posted with. -/
def url (s : Server) (f : FileRef) : Link :=
  ((s.rooms (s.peers (s.files f).host).room).name, (s.files f).serverFileId)

def successive (roomId : String) (first : Int) (count : ℕ) : List Link :=
  (List.range count).map fun i : ℕ => (roomId, first + i)

/-- The links that handling `a` posts. -/
def posted (s : State) : Act → List Link
  | .readMessage k message =>
      match s.peerOf k with
      | none => []
      | some p =>
          let room := s.server.rooms (s.server.peers p).room
          successive room.name room.fileIdCounter (Peer.sharedFiles message).length
  | _ => []

/-- No file has ever had one of the links that are posted. -/
def Fresh (s : State) (a : Act) : Prop :=
  ∀ f < s.server.fileCount, url s.server f ∉ posted s a

instance (s : State) (a : Act) : Decidable (Fresh s a) :=
  inferInstanceAs (Decidable (∀ f < s.server.fileCount, url s.server f ∉ posted s a))

/-- At any two moments of a run, a link that can be followed leads to the same
file. -/
def Stable (fw : Framework) (config : ConfigDto) (s : State) (as : List Act) : Prop :=
  ∀ bs cs, bs <+: as → cs <+: as → ∀ t u, (system fw config).run s bs = some t →
    (system fw config).run s cs = some u → ∀ link f g,
      lookUp link t.server = some f → lookUp link u.server = some g → f = g

/-- No two files have one link. -/
def Unambiguous (s : Server) : Prop :=
  ∀ f < s.fileCount, ∀ g < s.fileCount, url s f = url s g → f = g

/-! ### One step -/

/-- What a step does to the links. -/
structure Posts (s t : Server) (links : List Link) : Prop where
  numbered : t.catalogue.Numbered
  fileCount : t.fileCount = s.fileCount + links.length
  url : ∀ f < s.fileCount, url t f = url s f
  posted : ∀ i link, links[i]? = some link → Links.url t (s.fileCount + i) = link ∧
    lookUp link t = some (s.fileCount + i)

variable {fw : Framework} {config : ConfigDto} {s t : State}

theorem url_eq (s : Server) (f : FileRef) : url s f =
    (s.ledger.roomName (s.catalogue.room (s.catalogue.host f)), s.catalogue.serverFileId f) := rfl

theorem url_of_preserves {s t : Server} (h : s.catalogue.Numbered)
    (hcatalogue : s.catalogue.Preserves t.catalogue)
    (hroomName : ∀ ρ < s.roomCount, t.ledger.roomName ρ = s.ledger.roomName ρ) :
    ∀ f < s.fileCount, url t f = url s f := by
  intro f hf
  have hroom : s.catalogue.room (s.catalogue.host f) < s.roomCount :=
    h.room_lt _ (h.host_lt f hf)
  rw [url_eq, url_eq, hcatalogue.room f hf, hcatalogue.serverFileId f hf, hroomName _ hroom]

/-- A step that shares nothing. -/
theorem posts_nil {s t : Server} (h : s.catalogue.Numbered) (hnumbered : t.catalogue.Numbered)
    (hcatalogue : s.catalogue.Preserves t.catalogue) (hcount : t.fileCount = s.fileCount)
    (hroomName : ∀ ρ < s.roomCount, t.ledger.roomName ρ = s.ledger.roomName ρ) :
    Posts s t [] where
  numbered := hnumbered
  fileCount := hcount
  url := url_of_preserves h hcatalogue hroomName
  posted i link hi := by simp at hi

theorem posts_of_shrinks {s t : Server} (h : s.catalogue.Numbered)
    (hcatalogue : s.catalogue.Shrinks t.catalogue)
    (hledger : t.ledger.roomName = s.ledger.roomName) :
    Posts s t [] :=
  posts_nil h (h.shrinks hcatalogue) hcatalogue.preserves hcatalogue.fileCount
    fun ρ _ => congrFun hledger ρ

theorem posts_join (config : ConfigDto) (socket : SocketRef) (roomName nickname : String)
    {s : Server} (h : s.catalogue.Numbered)
    (hlobby : ∀ name ρ, Lobby.getRoom name s = some ρ → ρ < s.roomCount) :
    Posts s (Lobby.onAfterCreateNonBlocking config socket roomName nickname s).2 [] := by
  obtain ⟨-, -, hcatalogue⟩ := catalogue_entered s config socket roomName nickname
  have hledger := ledger_onAfterCreateNonBlocking s config socket roomName nickname
  have hroom := catalogue_getOrCreateRoom (Lobby.countConnected s) roomName
  have hrooms := ledger_getOrCreateRoom (Lobby.countConnected s) roomName
  have hcounted : (Lobby.countConnected s).catalogue = s.catalogue := rfl
  rcases hname : Lobby.getRoom roomName (Lobby.countConnected s) with - | ρ
  · -- the room is new
    have hnew : (Lobby.getOrCreateRoom roomName (Lobby.countConnected s)).1 =
        s.catalogue.roomCount := by
      obtain ⟨_, _, _, _, heq⟩ := Lobby.getOrCreateRoom_none hname
      exact congrArg Prod.fst heq
    rw [hname, hcounted] at hroom
    rw [hroom, hnew] at hcatalogue
    obtain ⟨hcreated, hkept⟩ := h.createRoom roomName
    obtain ⟨hnumbered, hpreserves⟩ := hcreated.join socket (Nat.lt_succ_self s.catalogue.roomCount)
    refine posts_nil h ?_ ?_ (congrArg Catalogue.fileCount hcatalogue) fun ρ hρ => ?_
    · rw [hcatalogue]
      exact hnumbered
    · rw [hcatalogue]
      exact hkept.trans hpreserves
    · rw [hledger, hrooms, hname]
      exact Function.update_of_ne hρ.ne _ _
  · -- the room was there
    have hentered := congrArg Prod.fst (Lobby.getOrCreateRoom_some hname)
    rw [hname, hcounted] at hroom
    rw [hroom, hentered] at hcatalogue
    obtain ⟨hnumbered, hpreserves⟩ := h.join socket (hlobby roomName ρ hname)
    refine posts_nil h ?_ ?_ (congrArg Catalogue.fileCount hcatalogue) fun ρ hρ => ?_
    · rw [hcatalogue]
      exact hnumbered
    · rw [hcatalogue]
      exact hpreserves
    · rw [hledger, hrooms, hname]
      rfl

theorem posts_share (fw : Framework) (config : ConfigDto) {p : PeerRef} {s : Server}
    (h : s.catalogue.Numbered) (hp : s.catalogue.Present p) (hlt : p < s.peerCount)
    (hlobby : Lobby.getRoom (s.rooms (s.peers p).room).name s = some (s.peers p).room)
    (message : MessageDto) :
    Posts s ((Peer.readParsed fw config p message).exec s).2
      (successive (s.rooms (s.peers p).room).name (s.rooms (s.peers p).room).fileIdCounter
        (Peer.sharedFiles message).length) := by
  have hledger := (sharing_readParsed fw config p message s).1
  have hcatalogue := Peer.catalogue_readParsed fw config hp message
  have hfiles := h.registerFiles hlt (Peer.sharedFiles message)
  generalize ((Peer.readParsed fw config p message).exec s).2 = t at *
  rw [← show s.catalogue.room p = (s.peers p).room from rfl] at hcatalogue
  rw [← hcatalogue] at hfiles
  have hroomName : ∀ ρ, t.ledger.roomName ρ = s.ledger.roomName ρ := fun ρ =>
    congrFun (congrArg Ledger.roomName hledger) ρ
  refine ⟨hfiles.numbered, ?_, url_of_preserves h hfiles.preserves fun ρ _ => hroomName ρ, ?_⟩
  · rw [successive, List.length_map, List.length_range]
    exact hfiles.fileCount
  · intro i link hi
    rw [successive, List.getElem?_map, Option.map_eq_some_iff] at hi
    obtain ⟨j, hj, rfl⟩ := hi
    obtain ⟨hi, rfl⟩ := List.getElem?_eq_some_iff.mp hj
    rw [List.length_range] at hi
    rw [List.getElem_range]
    obtain ⟨hhost, hid, hfound⟩ := hfiles.file i hi
    constructor
    · have hhost : t.catalogue.host (s.fileCount + i) = p := hhost
      have hid : t.catalogue.serverFileId (s.fileCount + i) = _ := hid
      rw [url_eq, hhost, hid, hroomName, hfiles.room]
      rfl
    · have hname : Lobby.getRoom (s.rooms (s.peers p).room).name t = some (s.peers p).room :=
        (congrFun hfiles.lobby _).trans hlobby
      rw [lookUp, hname]
      exact hfound

theorem posts_leave (config : ConfigDto) {p : PeerRef} {s : Server} (h : s.catalogue.Numbered)
    (hp : s.catalogue.Present p) : Posts s (Lobby.onBeforeDestroyNonBlocking config p s) [] := by
  let ρ := (s.peers p).room
  let left := Peer.invalidateSocket p (Room.goodbyePeer config ρ p
    (Room.removePeerById ρ (s.peers p).peerId (Lobby.countDisconnected s)))
  have hcatalogue : left.catalogue = _ := catalogue_goodbyePeer s p config hp
  obtain ⟨fileById, hfolded, hfile⟩ := Catalogue.foldl_cancelFile (s.catalogue.room p)
    (s.catalogue.hosted p) s.catalogue
  rw [hfolded] at hcatalogue
  have hledger : left.ledger = s.ledger :=
    (ledger_goodbyePeer _ ρ p config).trans (ledger_removePeerById _ ρ _)
  have hleft : s.catalogue.Shrinks left.catalogue := by
    rw [hcatalogue]
    exact ⟨hfile, rfl, rfl, rfl, rfl, rfl, rfl, rfl⟩
  have hdeleted : ∀ name, s.catalogue.Shrinks (Lobby.deleteRoom name left).catalogue := by
    intro name
    rw [catalogue_deleteRoom]
    exact ⟨hleft.fileById, hleft.fileIdCounter, hleft.room, hleft.host, hleft.serverFileId,
      hleft.roomCount, hleft.peerCount, hleft.fileCount⟩
  have hroomName : left.ledger.roomName = s.ledger.roomName := congrArg Ledger.roomName hledger
  unfold Lobby.onBeforeDestroyNonBlocking
  dsimp only
  split
  · exact posts_of_shrinks h (hdeleted _) hroomName
  · exact posts_of_shrinks h hleft hroomName

/-- **What a step does to the links**: it posts those of the files it shares. -/
theorem posts_step (hkept : Lifetime.Kept s) (h : s.server.catalogue.Numbered) {a : Act}
    (hstep : s.step fw config a = some t) : Posts s.server t.server (posted s a) := by
  obtain ⟨u, hu, rfl⟩ := Option.map_eq_some_iff.mp hstep
  -- collecting garbage counts the rooms, and that is all
  suffices hposts : Posts s.server u.server (posted s a) from
    ⟨hposts.numbered, hposts.fileCount, hposts.url, hposts.posted⟩
  have hsame : ∀ {t : Server}, t.catalogue = s.server.catalogue →
      t.ledger.roomName = s.server.ledger.roomName → Posts s.server t [] :=
    fun hcatalogue => posts_of_shrinks h (.of_eq hcatalogue)
  cases a with
  | join roomName nickname =>
      obtain rfl := Option.some.inj hu
      exact posts_join config s.socketCount roomName nickname h fun name ρ hρ =>
        (hkept.sound.orderly.lobby name ρ hρ).1
  | readMessage k message =>
      obtain ⟨p, hp, hu⟩ := Option.bind_eq_some_iff.mp hu
      obtain rfl := Option.some.inj hu
      have hpresent := (Lifetime.present_of_peerOf hkept.sound hp).2.2
      obtain ⟨hlt, -, -, -, ⟨name, hname⟩, -⟩ := hkept.sound.orderly.member _ _ p hpresent
      obtain ⟨-, rfl⟩ := hkept.sound.orderly.lobby name _ hname
      show Posts s.server _ (match s.peerOf k with | none => [] | some p => _)
      rw [hp]
      exact posts_share fw config h hpresent hlt hname message
  | pingAllPeers ρ =>
      obtain ⟨socket, hcatalogue, -⟩ := catalogue_pingAllPeers s.server ρ
      obtain rfl := Option.some.inj hu
      refine posts_of_shrinks h ?_ (congrArg Ledger.roomName (ledger_pingAllPeers s.server ρ))
      show s.server.catalogue.Shrinks (Room.pingAllPeers ρ s.server).catalogue
      rw [hcatalogue]
      exact ⟨fun _ _ _ h => h, rfl, rfl, rfl, rfl, rfl, rfl, rfl⟩
  | onPong k =>
      obtain ⟨p, -, hu⟩ := Option.bind_eq_some_iff.mp hu
      obtain rfl := Option.some.inj hu
      refine hsame ?_ rfl
      exact catalogue_modifyPeer s.server p (fun _ => rfl) (fun _ => rfl) (fun _ => rfl)
        fun _ => rfl
  | leave k =>
      obtain ⟨p, hp, hu⟩ := Option.bind_eq_some_iff.mp hu
      obtain rfl := Option.some.inj hu
      exact posts_leave config h (Lifetime.present_of_peerOf hkept.sound hp).2.2
  | dropSocket k =>
      obtain rfl := Option.some.inj hu
      exact hsame rfl rfl
  | getFile roomId fileId =>
      obtain ⟨ρ, -, hu⟩ := Option.bind_eq_some_iff.mp hu
      obtain ⟨f, -, hu⟩ := Option.bind_eq_some_iff.mp hu
      obtain rfl := Option.some.inj hu
      have hnames := congrArg Ledger.roomName (ledger_subscribe s.server f)
      exact hsame (catalogue_subscribe s.server f) hnames
  | read σ count =>
      obtain ⟨-, hu⟩ := Option.ite_none_right_eq_some.mp hu
      obtain rfl := Option.some.inj hu
      exact hsame (catalogue_read s.server σ count)
        (congrArg Ledger.roomName (ledger_read s.server σ count))
  | drop σ =>
      obtain ⟨-, hu⟩ := Option.ite_none_right_eq_some.mp hu
      obtain rfl := Option.some.inj hu
      have hnames := congrArg Ledger.roomName (ledger_destroy s.server σ)
      exact hsame (catalogue_destroy s.server σ) hnames

theorem numbered_init (clock : ℕ → Int) : ({ clock } : Server).catalogue.Numbered where
  fileById _ _ _ hf := nomatch (show none = some _ from hf)
  host_lt f hf := absurd hf (Nat.not_lt_zero f)
  room_lt p hp := absurd hp (Nat.not_lt_zero p)
  id_lt f hf := absurd hf (Nat.not_lt_zero f)
  inj f hf := absurd hf (Nat.not_lt_zero f)

theorem numbered (hs : (system fw config).Reachable s) : s.server.catalogue.Numbered := by
  have hboth : Lifetime.Kept s ∧ s.server.catalogue.Numbered := by
    refine hs.invariant (I := fun s => Lifetime.Kept s ∧ s.server.catalogue.Numbered) ?_ ?_
    · rintro _ ⟨clock, rfl⟩
      exact ⟨.init clock, numbered_init clock⟩
    · exact fun s a t h hstep => ⟨h.1.step hstep, (posts_step h.1 h.2 hstep).numbered⟩
  exact hboth.2

/-! ### Runs -/

theorem nodup_posted (s : State) (a : Act) : (posted s a).Nodup := by
  have hsuccessive : ∀ roomId first count, (successive roomId first count).Nodup := by
    intro roomId first count
    refine List.nodup_range.map fun i j heq => ?_
    have hid : first + (i : Int) = first + j := congrArg Prod.snd heq
    omega
  unfold posted
  split
  · split
    · exact List.nodup_nil
    · exact hsuccessive _ _ _
  · exact List.nodup_nil

/-- Two files get one link exactly when a link is posted that a file has had. -/
theorem unambiguous_step_iff {a : Act} (h : Posts s.server t.server (posted s a)) :
    Unambiguous t.server ↔ Unambiguous s.server ∧ Fresh s a := by
  have hold : ∀ f < s.server.fileCount, f < t.server.fileCount := fun f hf =>
    hf.trans_le (h.fileCount ▸ Nat.le_add_right _ _)
  -- a file of `t` that is none of `s` is the `i`th that is posted
  have hnew : ∀ f < t.server.fileCount, ¬ f < s.server.fileCount → ∃ i link,
      (posted s a)[i]? = some link ∧ f = s.server.fileCount + i ∧ url t.server f = link := by
    intro f hf hle
    obtain ⟨i, rfl⟩ := Nat.exists_eq_add_of_le (not_lt.mp hle)
    have hi : i < (posted s a).length := by
      rw [h.fileCount] at hf
      omega
    exact ⟨i, _, List.getElem?_eq_getElem hi, rfl, (h.posted i _ (List.getElem?_eq_getElem hi)).1⟩
  constructor
  · intro hinj
    refine ⟨fun f hf g hg heq => ?_, fun f hf hposted => ?_⟩
    · refine hinj f (hold f hf) g (hold g hg) ?_
      rw [h.url f hf, h.url g hg, heq]
    · obtain ⟨i, hi⟩ := List.mem_iff_getElem?.mp hposted
      have hlt : s.server.fileCount + i < t.server.fileCount := by
        obtain ⟨hi, -⟩ := List.getElem?_eq_some_iff.mp hi
        rw [h.fileCount]
        omega
      have heq := hinj f (hold f hf) _ hlt ((h.url f hf).trans (h.posted i _ hi).1.symm)
      omega
  · rintro ⟨hinj, hfresh⟩ f hf g hg heq
    by_cases hfs : f < s.server.fileCount <;> by_cases hgs : g < s.server.fileCount
    · rw [h.url f hfs, h.url g hgs] at heq
      exact hinj f hfs g hgs heq
    · obtain ⟨j, link, hj, rfl, hlink⟩ := hnew g hg hgs
      rw [h.url f hfs, hlink] at heq
      exact absurd (List.mem_of_getElem? hj) (heq ▸ hfresh f hfs)
    · obtain ⟨i, link, hi, rfl, hlink⟩ := hnew f hf hfs
      rw [h.url g hgs, hlink] at heq
      exact absurd (List.mem_of_getElem? hi) (heq ▸ hfresh g hgs)
    · obtain ⟨i, link, hi, rfl, hlink⟩ := hnew f hf hfs
      obtain ⟨j, link', hj, rfl, hlink'⟩ := hnew g hg hgs
      rw [hlink, hlink'] at heq
      subst heq
      obtain ⟨hlt, -⟩ := List.getElem?_eq_some_iff.mp hi
      rw [(List.getElem?_inj hlt (nodup_posted s a)).mp (hi.trans hj.symm)]

/-- What was found under a link has that link for good. -/
theorem url_of_lookUp (hs : (system fw config).Reachable s) {link : Link} {f : FileRef}
    (hf : lookUp link s.server = some f) : f < s.server.fileCount ∧ url s.server f = link := by
  obtain ⟨ρ, hρ, hf⟩ := Option.bind_eq_some_iff.mp hf
  obtain ⟨hlt, hroom, hid⟩ := (numbered hs).fileById ρ link.2 f hf
  obtain ⟨-, hname⟩ := (Lifetime.kept hs).sound.orderly.lobby link.1 ρ hρ
  refine ⟨hlt, ?_⟩
  rw [url_eq, hroom, hid]
  exact Prod.ext hname rfl

/-- Over a run: the old links stay, and every file of its end could be found
under its link at some moment since. -/
theorem run_url (hs : (system fw config).Reachable s) {as : List Act}
    (hrun : (system fw config).run s as = some t) :
    s.server.fileCount ≤ t.server.fileCount ∧
      (∀ f < s.server.fileCount, url t.server f = url s.server f) ∧
      ∀ f < t.server.fileCount, ¬ f < s.server.fileCount → ∃ bs u, bs <+: as ∧
        (system fw config).run s bs = some u ∧ lookUp (url t.server f) u.server = some f := by
  induction as generalizing s with
  | nil =>
      obtain rfl : s = t := by simpa using hrun
      exact ⟨le_rfl, fun _ _ => rfl, fun f hf hle => absurd hf hle⟩
  | cons a as ih =>
      obtain ⟨u, hstep, hrun⟩ := Option.bind_eq_some_iff.mp hrun
      have hposts := posts_step (Lifetime.kept hs) (numbered hs) hstep
      obtain ⟨hle, hurl, hfound⟩ := ih (hs.step hstep) hrun
      have hle' : s.server.fileCount ≤ u.server.fileCount := hposts.fileCount ▸ Nat.le_add_right _ _
      refine ⟨hle'.trans hle, fun f hf => ?_, fun f hf hnew => ?_⟩
      · rw [hurl f (hf.trans_le hle'), hposts.url f hf]
      · by_cases hfu : f < u.server.fileCount
        · -- posted by this step
          obtain ⟨i, rfl⟩ := Nat.exists_eq_add_of_le (not_lt.mp hnew)
          have hi : i < (posted s a).length := by
            rw [hposts.fileCount] at hfu
            omega
          obtain ⟨hlink, hlookUp⟩ := hposts.posted i _ (List.getElem?_eq_getElem hi)
          refine ⟨[a], u, ⟨as, rfl⟩, ?_, ?_⟩
          · rw [Transition.System.run_cons, hstep]
            rfl
          · rw [hurl _ hfu, hlink]
            exact hlookUp
        · obtain ⟨bs, v, ⟨cs, rfl⟩, hbs, hlookUp⟩ := hfound f hf hfu
          refine ⟨a :: bs, v, ⟨cs, rfl⟩, ?_, hlookUp⟩
          rw [Transition.System.run_cons, hstep]
          exact hbs

theorem unambiguous_run_iff (hs : (system fw config).Reachable s) {as : List Act}
    (hrun : (system fw config).run s as = some t) : Unambiguous t.server ↔
      Unambiguous s.server ∧ (system fw config).RunsVia Fresh s as := by
  induction as generalizing s with
  | nil =>
      obtain rfl : s = t := by simpa using hrun
      exact (and_iff_left trivial).symm
  | cons a as ih =>
      obtain ⟨u, hstep, hrun⟩ := Option.bind_eq_some_iff.mp hrun
      have hposts := posts_step (Lifetime.kept hs) (numbered hs) hstep
      rw [ih (hs.step hstep) hrun, unambiguous_step_iff hposts, Transition.System.RunsVia, hstep,
        and_assoc]

/-- **A link never changes its meaning** in a run, exactly if no message of the
run shares a file under an id that an earlier file of a room of this name has
had. -/
theorem links_stable_iff {s₀ : State} {as : List Act} (hinit : (system fw config).init s₀)
    (hrun : (system fw config).run s₀ as = some t) :
    Stable fw config s₀ as ↔ (system fw config).RunsVia Fresh s₀ as := by
  have hs₀ : (system fw config).Reachable s₀ := .init hinit
  have hnone : s₀.server.fileCount = 0 := by
    obtain ⟨clock, rfl⟩ := hinit
    rfl
  have hunambiguous : Unambiguous t.server ↔ (system fw config).RunsVia Fresh s₀ as := by
    rw [unambiguous_run_iff hs₀ hrun, and_iff_right]
    intro f hf
    rw [hnone] at hf
    exact absurd hf (Nat.not_lt_zero f)
  rw [← hunambiguous]
  constructor
  · intro hstable f hf g hg heq
    obtain ⟨-, -, hfound⟩ := run_url hs₀ hrun
    obtain ⟨bs, u, hbs, hu, hlookUp⟩ := hfound f hf (hnone ▸ Nat.not_lt_zero f)
    obtain ⟨cs, v, hcs, hv, hlookUp'⟩ := hfound g hg (hnone ▸ Nat.not_lt_zero g)
    rw [← heq] at hlookUp'
    exact hstable bs cs hbs hcs u v hu hv _ f g hlookUp hlookUp'
  · intro hunambiguous bs cs hbs hcs u v hu hv link f g hf hg
    -- the links found at the two moments are still there at the end
    have hlast : ∀ bs u f, bs <+: as → (system fw config).run s₀ bs = some u →
        lookUp link u.server = some f → f < t.server.fileCount ∧ url t.server f = link := by
      rintro bs u f ⟨ds, rfl⟩ hu hf
      have hreach := hs₀.run hu
      obtain ⟨hlt, hlink⟩ := url_of_lookUp hreach hf
      rw [Transition.System.run_append, hu] at hrun
      obtain ⟨hle, hurl, -⟩ := run_url hreach hrun
      exact ⟨hlt.trans_le hle, (hurl f hlt).trans hlink⟩
    obtain ⟨hlt, hlink⟩ := hlast bs u f hbs hu hf
    obtain ⟨hlt', hlink'⟩ := hlast cs v g hcs hv hg
    exact hunambiguous f hlt g hlt' (hlink.trans hlink'.symm)

def catPhoto : MessageDto where
  code := some .codeFileShare
  files := some [some { clientFileId := some 1, name := some "cat.png", size := some 3 }]

/-- Ann shares two files, one after the other; Bob comes back to another room
and shares one. -/
def steady : List Act :=
  [.join "lounge" "Ann", .readMessage 0 catPhoto, .join "attic" "Bob", .readMessage 1 catPhoto,
    .readMessage 0 catPhoto, .leave 1, .getFile "lounge" 2, .leave 0]

theorem links_stable_iff_steady : ∃ t, (system Lifetime.silent {}).run {} steady = some t ∧
    t.server.fileCount = 3 ∧ Stable Lifetime.silent {} {} steady := by
  have hrun : ((system Lifetime.silent {}).run {} steady).map (fun t => t.server.fileCount) =
      some 3 := by
    decide +kernel
  obtain ⟨t, hrun, hcount⟩ := Option.map_eq_some_iff.mp hrun
  exact ⟨t, hrun, hcount, (links_stable_iff ⟨_, rfl⟩ hrun).mpr (by decide +kernel)⟩

/-- Ann shares a file and leaves, and the room with her; Bob opens a room of
this name and shares another. -/
def reopened : List Act :=
  [.join "lounge" "Ann", .readMessage 0 catPhoto, .leave 0, .join "lounge" "Bob",
    .readMessage 1 catPhoto]

/-- Ann's link leads to Bob's file. -/
theorem link_reused : ¬ ∀ as t, (system Lifetime.silent {}).run {} as = some t →
    Stable Lifetime.silent {} {} as := by
  intro h
  have hann : ((system Lifetime.silent {}).run {} (reopened.take 2)).map
      (fun t => lookUp ("lounge", 1) t.server) = some (some 0) := by
    decide +kernel
  have hbob : ((system Lifetime.silent {}).run {} reopened).map
      (fun t => lookUp ("lounge", 1) t.server) = some (some 1) := by
    decide +kernel
  obtain ⟨t, ht, hf⟩ := Option.map_eq_some_iff.mp hann
  obtain ⟨u, hu, hg⟩ := Option.map_eq_some_iff.mp hbob
  have heq := h reopened u hu (reopened.take 2) reopened (List.take_prefix _ _)
    (List.prefix_refl _) t u ht hu _ 0 1 hf hg
  cases heq

end Links

end CanChat
