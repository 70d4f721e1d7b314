/-
CanChat/Registry.lean

The registry of one room: who is present, which files are registered, and
which files each peer has shared.

Design.  `Registry` is the part of the server's state that these facts are
about, with one operation for every change a room makes to it, and
`Server.registry` reads it off the server.  Each function of the room is shown
to act on the registry as the operation does, so an operation that is not
mentioned (a chunk, a subscription, a message) leaves the registry alone by
`rfl`.

A leaver's files are cancelled one by one.  `Consistent r leaving` therefore
says which of them are already gone: `leaving = some (p, todo)` while `p` is
being removed and `todo` are its files still to be cancelled.
-/
import CanChat.Lobby
import Mathlib.Algebra.Order.Ring.Int
import Mathlib.Data.List.Nodup

namespace CanChat

structure Registry where
  /-- `Room::m_peerById`, as a lookup. -/
  peerById : Int → Option PeerRef
  /-- `Room::m_fileById`, as a lookup. -/
  fileById : Int → Option FileRef
  peerId : PeerRef → Int
  /-- `Peer::m_files`. -/
  hosted : PeerRef → List FileRef
  host : FileRef → PeerRef
  serverFileId : FileRef → Int
  peerCount : ℕ
  fileCount : ℕ
  peerIdCounter : Int
  fileIdCounter : Int

def Server.registry (ρ : RoomRef) (s : Server) : Registry where
  peerById id := Room.getPeerById ρ id s
  fileById id := Room.getFileById ρ id s
  peerId p := (s.peers p).peerId
  hosted p := (s.peers p).files
  host f := (s.files f).host
  serverFileId f := (s.files f).serverFileId
  peerCount := s.peerCount
  fileCount := s.fileCount
  peerIdCounter := s.peerIdCounter
  fileIdCounter := (s.rooms ρ).fileIdCounter

namespace Registry

/-- The peer is in the map under its own id. -/
def Present (r : Registry) (p : PeerRef) : Prop := r.peerById (r.peerId p) = some p

/-- The file is in the map under its own id. -/
def Registered (r : Registry) (f : FileRef) : Prop := r.fileById (r.serverFileId f) = some f

/-! ### Operations -/

/-- An id is taken from the counter of the lobby, for a peer of another room. -/
@[simps] def obtainNewPeerId (r : Registry) : Registry :=
  { r with peerIdCounter := r.peerIdCounter + 1 }

/-- A peer of this room gets the next id and hosts no file yet. -/
@[simps] def createPeer (r : Registry) : Registry :=
  { r with
    peerId := Function.update r.peerId r.peerCount r.peerIdCounter
    hosted := Function.update r.hosted r.peerCount []
    peerCount := r.peerCount + 1
    peerIdCounter := r.peerIdCounter + 1 }

/-- The peer goes into the map under its id. -/
@[simps] def addPeer (p : PeerRef) (r : Registry) : Registry :=
  { r with peerById := fun id => if id = r.peerId p then some p else r.peerById id }

/-- The id `peerId` leaves the map of the peers. -/
@[simps] def erasePeer (peerId : Int) (r : Registry) : Registry :=
  { r with peerById := fun id => if id = peerId then none else r.peerById id }

/-- The id of `f` leaves the map of the files. -/
@[simps] def eraseFile (f : FileRef) (r : Registry) : Registry :=
  { r with fileById := fun id => if id = r.serverFileId f then none else r.fileById id }

/-- A file of host `h` gets the next id of the room and goes into both tables. -/
@[simps] def registerFile (h : PeerRef) (r : Registry) : Registry :=
  { r with
    hosted := Function.update r.hosted h (r.hosted h ++ [r.fileCount])
    host := Function.update r.host r.fileCount h
    serverFileId := Function.update r.serverFileId r.fileCount r.fileIdCounter
    fileById := fun id => if id = r.fileIdCounter then some r.fileCount else r.fileById id
    fileCount := r.fileCount + 1
    fileIdCounter := r.fileIdCounter + 1 }

/-! ### Consistency -/

/-- The registry is consistent, but for the files of a peer that is being
removed: of those exactly `todo` are still registered. -/
structure Consistent (r : Registry) (leaving : Option (PeerRef × List FileRef)) : Prop where
  peerId_lt : ∀ p < r.peerCount, r.peerId p < r.peerIdCounter
  peerId_inj : ∀ p < r.peerCount, ∀ q < r.peerCount, r.peerId p = r.peerId q → p = q
  serverFileId_lt : ∀ f < r.fileCount, r.serverFileId f < r.fileIdCounter
  serverFileId_inj : ∀ f < r.fileCount, ∀ g < r.fileCount,
    r.serverFileId f = r.serverFileId g → f = g
  present : ∀ id p, r.peerById id = some p → p < r.peerCount ∧ r.peerId p = id
  registered : ∀ id f, r.fileById id = some f →
    f < r.fileCount ∧ r.serverFileId f = id ∧ r.Present (r.host f)
  shared : ∀ f < r.fileCount, f ∈ r.hosted (r.host f)
  hosted : ∀ p, ∀ f ∈ r.hosted p, f < r.fileCount ∧ r.host f = p ∧ p < r.peerCount
  nodup : ∀ p, (r.hosted p).Nodup
  listed : ∀ p, r.Present p → ∀ f ∈ r.hosted p,
    r.Registered f ∨ ∃ todo, leaving = some (p, todo) ∧ f ∉ todo
  leaving : ∀ p todo, leaving = some (p, todo) →
    r.Present p ∧ todo.Nodup ∧ (∀ f ∈ todo, f ∈ r.hosted p) ∧
      ∀ f ∈ r.hosted p, f ∉ todo → ¬ r.Registered f

variable {r : Registry} {l : Option (PeerRef × List FileRef)} {p q : PeerRef} {f : FileRef}

/-- A registered file is on its host's list, and the host is present. -/
theorem Consistent.registered_of_fileById (h : r.Consistent l) {id : Int}
    (hid : r.fileById id = some f) : r.Registered f := by
  obtain ⟨-, rfl, -⟩ := h.registered id f hid
  exact hid

theorem Consistent.lt_of_present (h : r.Consistent l) (hp : r.Present p) : p < r.peerCount :=
  (h.present _ p hp).1

/-! ### Creating and adding a peer -/

/-- An id that is given to another room is not used here. -/
theorem Consistent.obtainNewPeerId (h : r.Consistent l) : r.obtainNewPeerId.Consistent l where
  peerId_lt p hp := (h.peerId_lt p hp).trans (Int.lt_succ _)
  peerId_inj := h.peerId_inj
  serverFileId_lt := h.serverFileId_lt
  serverFileId_inj := h.serverFileId_inj
  present := h.present
  registered := h.registered
  shared := h.shared
  hosted := h.hosted
  nodup := h.nodup
  listed := h.listed
  leaving := h.leaving

theorem present_createPeer_iff (hq : q < r.peerCount) : r.createPeer.Present q ↔ r.Present q := by
  simp [Present, Function.update_of_ne hq.ne]

theorem Consistent.not_present_createPeer (h : r.Consistent l) :
    ¬ r.createPeer.Present r.peerCount := by
  intro hpres
  have hid : r.peerById r.peerIdCounter = some r.peerCount := by simpa [Present] using hpres
  exact absurd (h.present _ _ hid).1 (lt_irrefl _)

/-- A new peer has an id nobody had, and no place in the maps. -/
theorem Consistent.createPeer (h : r.Consistent l) : r.createPeer.Consistent l where
  peerId_lt p hp := by
    rcases Nat.lt_succ_iff_lt_or_eq.mp hp with hp | rfl
    · simpa [Function.update_of_ne hp.ne] using (h.peerId_lt p hp).trans (Int.lt_succ _)
    · simp
  peerId_inj p hp q hq heq := by
    rcases Nat.lt_succ_iff_lt_or_eq.mp hp with hp | rfl <;>
      rcases Nat.lt_succ_iff_lt_or_eq.mp hq with hq | rfl
    · simp only [createPeer_peerId, Function.update_of_ne hp.ne, Function.update_of_ne hq.ne] at heq
      exact h.peerId_inj p hp q hq heq
    -- the new id is the counter, which older ids are below
    · simp only [createPeer_peerId, Function.update_of_ne hp.ne, Function.update_self] at heq
      exact absurd heq (h.peerId_lt p hp).ne
    · simp only [createPeer_peerId, Function.update_of_ne hq.ne, Function.update_self] at heq
      exact absurd heq.symm (h.peerId_lt q hq).ne
    · rfl
  serverFileId_lt := h.serverFileId_lt
  serverFileId_inj := h.serverFileId_inj
  present id p hp := by
    obtain ⟨hlt, hid⟩ := h.present id p hp
    exact ⟨Nat.lt_succ_of_lt hlt, by simpa [Function.update_of_ne hlt.ne] using hid⟩
  registered id f hf := by
    -- an older peer is as present as before
    obtain ⟨hlt, hid, hpres⟩ := h.registered id f hf
    exact ⟨hlt, hid, (present_createPeer_iff (h.lt_of_present hpres)).mpr hpres⟩
  shared f hf := by
    have hmem := h.shared f hf
    have hlt := (h.hosted _ f hmem).2.2
    simpa [Function.update_of_ne hlt.ne] using hmem
  hosted p f hf := by
    rcases eq_or_ne p r.peerCount with rfl | hne
    · simp at hf
    · simp only [createPeer_hosted, Function.update_of_ne hne] at hf
      obtain ⟨hlt, hhost, hp⟩ := h.hosted p f hf
      exact ⟨hlt, hhost, Nat.lt_succ_of_lt hp⟩
  nodup p := by
    rcases eq_or_ne p r.peerCount with rfl | hne
    · simp
    · simpa [Function.update_of_ne hne] using h.nodup p
  listed p hp f hf := by
    rcases eq_or_ne p r.peerCount with rfl | hne
    · simp at hf
    · simp only [createPeer_hosted, Function.update_of_ne hne] at hf
      exact h.listed p ((present_createPeer_iff (h.hosted p f hf).2.2).mp hp) f hf
  leaving p todo hl := by
    obtain ⟨hpres, hrest⟩ := h.leaving p todo hl
    have hlt := h.lt_of_present hpres
    refine ⟨(present_createPeer_iff hlt).mpr hpres, ?_⟩
    simp only [createPeer_hosted, Function.update_of_ne hlt.ne]
    exact hrest

/-- After `addPeer` one more peer is present. -/
theorem present_addPeer (h : r.Consistent l) (hp : p < r.peerCount) (hq : q < r.peerCount) :
    (r.addPeer p).Present q ↔ q = p ∨ r.Present q := by
  simp only [Present, addPeer_peerById, addPeer_peerId]
  split
  · next heq => simp [h.peerId_inj q hq p hp heq]
  · next hne =>
    have : q ≠ p := fun e => hne (congrArg r.peerId e)
    simp [this]

/-- A peer is added before it has shared anything. -/
theorem Consistent.addPeer (h : r.Consistent l) (hp : p < r.peerCount) (hnew : r.hosted p = []) :
    (r.addPeer p).Consistent l where
  peerId_lt := h.peerId_lt
  peerId_inj := h.peerId_inj
  serverFileId_lt := h.serverFileId_lt
  serverFileId_inj := h.serverFileId_inj
  present id q hq := by
    simp only [addPeer_peerById] at hq
    split at hq
    · next hid =>
      obtain rfl := Option.some.inj hq
      exact ⟨hp, hid.symm⟩
    · exact h.present id q hq
  registered id f hf := by
    obtain ⟨hlt, hid, hpres⟩ := h.registered id f hf
    exact ⟨hlt, hid, (present_addPeer h hp (h.lt_of_present hpres)).mpr (.inr hpres)⟩
  shared := h.shared
  hosted := h.hosted
  nodup := h.nodup
  listed q hq f hf := by
    rcases (present_addPeer h hp (h.hosted q f hf).2.2).mp hq with rfl | hq
    · simp [hnew] at hf
    · exact h.listed q hq f hf
  leaving q todo hl := by
    obtain ⟨hpres, hrest⟩ := h.leaving q todo hl
    exact ⟨(present_addPeer h hp (h.lt_of_present hpres)).mpr (.inr hpres), hrest⟩

/-! ### Removing a peer -/

/-- The removal of a present peer begins with all its files still to cancel. -/
theorem Consistent.begin (h : r.Consistent none) (hp : r.Present p) :
    r.Consistent (some (p, r.hosted p)) :=
  { h with
    listed := fun q hq f hf => (h.listed q hq f hf).imp_right fun ⟨_, he, _⟩ => by simp at he
    leaving := fun q todo hl => by
      obtain ⟨rfl, rfl⟩ := Prod.mk.inj (Option.some.inj hl)
      exact ⟨hp, h.nodup p, fun f hf => hf, fun f hf hnot => absurd hf hnot⟩ }

/-- After `eraseFile` one file less is registered. -/
theorem registered_eraseFile (h : r.Consistent l) {g : FileRef} (hf : f < r.fileCount)
    (hg : g < r.fileCount) : (r.eraseFile f).Registered g ↔ g ≠ f ∧ r.Registered g := by
  simp only [Registered, eraseFile_fileById, eraseFile_serverFileId]
  split
  · next heq => simp [h.serverFileId_inj g hg f hf heq]
  · next hne =>
    have : g ≠ f := fun e => hne (congrArg r.serverFileId e)
    simp [this]

/-- The loop of `removePeerById`: one more file of the leaver is gone. -/
theorem Consistent.eraseFile {todo : List FileRef} (h : r.Consistent (some (p, f :: todo))) :
    (r.eraseFile f).Consistent (some (p, todo)) := by
  obtain ⟨hpres, hnodup, htodo, hgone⟩ := h.leaving p _ rfl
  have hfp := htodo f List.mem_cons_self
  have hf := (h.hosted p f hfp).1
  refine
    { h with
      registered := fun id g hg => ?_
      listed := fun q hq g hg => ?_
      leaving := fun q todo' hl => ?_ }
  · simp only [eraseFile_fileById] at hg
    split at hg
    · cases hg
    · exact h.registered id g hg
  · rw [registered_eraseFile h hf (h.hosted q g hg).1]
    rcases h.listed q hq g hg with hreg | ⟨todo', hl, hnot⟩
    · rcases eq_or_ne g f with rfl | hne
      · -- the file just cancelled is one of the leaver's
        obtain rfl : p = q := (h.hosted p g hfp).2.1.symm.trans (h.hosted q g hg).2.1
        exact .inr ⟨todo, rfl, (List.nodup_cons.mp hnodup).1⟩
      · exact .inl ⟨hne, hreg⟩
    · obtain ⟨rfl, rfl⟩ := Prod.mk.inj (Option.some.inj hl)
      exact .inr ⟨todo, rfl, fun hmem => hnot (List.mem_cons_of_mem f hmem)⟩
  · obtain ⟨rfl, rfl⟩ := Prod.mk.inj (Option.some.inj hl)
    refine ⟨hpres, hnodup.of_cons, fun g hg => htodo g (List.mem_cons_of_mem f hg),
      fun g hg hnot => ?_⟩
    rw [registered_eraseFile h hf (h.hosted p g hg).1]
    rintro ⟨hne, hreg⟩
    refine hgone g hg (fun hmem => ?_) hreg
    exact (List.mem_cons.mp hmem).elim hne hnot

/-- After `erasePeer` with the id of `p`, `p` is not present and nobody else has
gone. -/
theorem present_erasePeer (h : r.Consistent l) (hp : p < r.peerCount) (hq : q < r.peerCount) :
    (r.erasePeer (r.peerId p)).Present q ↔ q ≠ p ∧ r.Present q := by
  simp only [Present, erasePeer_peerById, erasePeer_peerId]
  split
  · next heq => simp [h.peerId_inj q hq p hp heq]
  · next hne =>
    have : q ≠ p := fun e => hne (congrArg r.peerId e)
    simp [this]

/-- The end of `removePeerById`: all files of the leaver are gone. -/
theorem Consistent.erasePeer (h : r.Consistent (some (p, []))) :
    (r.erasePeer (r.peerId p)).Consistent none := by
  obtain ⟨hpres, -, -, hgone⟩ := h.leaving p [] rfl
  have hp := h.lt_of_present hpres
  refine
    { h with
      present := fun id q hq => ?_
      registered := fun id f hf => ?_
      listed := fun q hq f hf => ?_
      leaving := fun q todo hl => by cases hl }
  · simp only [erasePeer_peerById] at hq
    split at hq
    · cases hq
    · exact h.present id q hq
  · obtain ⟨hlt, hid, hhost⟩ := h.registered id f hf
    refine ⟨hlt, hid, (present_erasePeer h hp (h.lt_of_present hhost)).mpr ⟨?_, hhost⟩⟩
    rintro rfl
    exact hgone f (h.shared f hlt) List.not_mem_nil (h.registered_of_fileById hf)
  · obtain ⟨hne, hq⟩ := (present_erasePeer h hp (h.hosted q f hf).2.2).mp hq
    rcases h.listed q hq f hf with hreg | ⟨todo, hl, -⟩
    · exact .inl hreg
    · exact absurd (Prod.mk.inj (Option.some.inj hl)).1.symm hne

/-! ### Sharing a file -/

/-- Registering a file leaves the registered ones registered. -/
theorem registered_registerFile (h : r.Consistent l) (hf : f < r.fileCount) :
    (r.registerFile p).Registered f ↔ r.Registered f := by
  have hid : r.serverFileId f ≠ r.fileIdCounter := (h.serverFileId_lt f hf).ne
  simp [Registered, Function.update_of_ne hf.ne, hid]

theorem registered_registerFile_self : (r.registerFile p).Registered r.fileCount := by
  simp [Registered]

/-- The new file is hosted by `h`, and by `h` only. -/
theorem mem_hosted_registerFile {h : PeerRef} :
    f ∈ (r.registerFile h).hosted p ↔ f ∈ r.hosted p ∨ p = h ∧ f = r.fileCount := by
  rcases eq_or_ne p h with rfl | hne
  · simp
  · simp [hne]

theorem host_registerFile (hf : f < r.fileCount) : (r.registerFile p).host f = r.host f := by
  simp [Function.update_of_ne hf.ne]

/-- `shareFile` registers a file of a present peer that is not being removed. -/
theorem Consistent.registerFile (h : r.Consistent l) (hp : r.Present p)
    (hl : ∀ todo, l ≠ some (p, todo)) : (r.registerFile p).Consistent l where
  peerId_lt := h.peerId_lt
  peerId_inj := h.peerId_inj
  serverFileId_lt f hf := by
    rcases Nat.lt_succ_iff_lt_or_eq.mp hf with hf | rfl
    · simpa [Function.update_of_ne hf.ne] using (h.serverFileId_lt f hf).trans (Int.lt_succ _)
    · simp
  serverFileId_inj f hf g hg heq := by
    rcases Nat.lt_succ_iff_lt_or_eq.mp hf with hf | rfl <;>
      rcases Nat.lt_succ_iff_lt_or_eq.mp hg with hg | rfl
    · simp only [registerFile_serverFileId, Function.update_of_ne hf.ne,
        Function.update_of_ne hg.ne] at heq
      exact h.serverFileId_inj f hf g hg heq
    -- the new id is the counter, which older ids are below
    · simp only [registerFile_serverFileId, Function.update_of_ne hf.ne,
        Function.update_self] at heq
      exact absurd heq (h.serverFileId_lt f hf).ne
    · simp only [registerFile_serverFileId, Function.update_of_ne hg.ne,
        Function.update_self] at heq
      exact absurd heq.symm (h.serverFileId_lt g hg).ne
    · rfl
  present := h.present
  registered id f hf := by
    simp only [registerFile_fileById] at hf
    split at hf
    · next hid =>
      obtain rfl := Option.some.inj hf
      exact ⟨Nat.lt_succ_self _, by simp [hid], by simpa [Present] using hp⟩
    · obtain ⟨hlt, hid, hhost⟩ := h.registered id f hf
      refine ⟨Nat.lt_succ_of_lt hlt, ?_, ?_⟩
      · simpa [Function.update_of_ne hlt.ne] using hid
      · rwa [host_registerFile hlt]
  shared f hf := by
    rw [mem_hosted_registerFile]
    rcases Nat.lt_succ_iff_lt_or_eq.mp hf with hf | rfl
    · rw [host_registerFile hf]
      exact .inl (h.shared f hf)
    · exact .inr ⟨by simp, rfl⟩
  hosted q f hf := by
    rcases mem_hosted_registerFile.mp hf with hf | ⟨rfl, rfl⟩
    · obtain ⟨hlt, hhost, hq⟩ := h.hosted q f hf
      exact ⟨Nat.lt_succ_of_lt hlt, (host_registerFile hlt).trans hhost, hq⟩
    · exact ⟨Nat.lt_succ_self _, by simp, h.lt_of_present hp⟩
  nodup q := by
    rcases eq_or_ne q p with rfl | hne
    · have hnew : r.fileCount ∉ r.hosted q := fun hmem => absurd (h.hosted q _ hmem).1 (lt_irrefl _)
      simpa [List.nodup_append, h.nodup q] using fun f hf => ne_of_mem_of_not_mem hf hnew
    · simpa [Function.update_of_ne hne] using h.nodup q
  listed q hq f hf := by
    rcases mem_hosted_registerFile.mp hf with hf | ⟨rfl, rfl⟩
    · exact (h.listed q hq f hf).imp_left (registered_registerFile h (h.hosted q f hf).1).mpr
    · exact .inl registered_registerFile_self
  leaving q todo hq := by
    obtain ⟨hpres, hnodup, htodo, hgone⟩ := h.leaving q todo hq
    -- a peer that is leaving is not a member, so it shares nothing
    have hne : q ≠ p := by
      rintro rfl
      exact hl todo hq
    refine ⟨hpres, hnodup, ?_, ?_⟩ <;> simp only [registerFile_hosted, Function.update_of_ne hne]
    · exact htodo
    · intro f hf hnot
      rw [registered_registerFile h (h.hosted q f hf).1]
      exact hgone f hf hnot

end Registry

/-! ### The room's functions on the registry -/

section Refinement

variable (ρ : RoomRef) (s : Server)

/-- A file's host and id never change. -/
theorem registry_modifyFile (f : FileRef) {g : File → File}
    (hhost : ∀ file, (g file).host = file.host)
    (hid : ∀ file, (g file).serverFileId = file.serverFileId) :
    (s.modifyFile f g).registry ρ = s.registry ρ := by
  have hf : ∀ k, ((s.modifyFile f g).files k).host = (s.files k).host ∧
      ((s.modifyFile f g).files k).serverFileId = (s.files k).serverFileId := by
    intro k
    rcases eq_or_ne k f with rfl | hne
    · simp [hhost, hid]
    · simp [hne]
  simp only [Server.registry, hf]
  rfl

/-- Of the room's registry, creating a peer does just what `createPeer` says. -/
theorem registry_createPeer (socket : SocketRef) (nickname : String) :
    (Lobby.createPeer socket ρ nickname s).2.registry ρ = (s.registry ρ).createPeer := by
  have hpeerId : ∀ p, ((Lobby.createPeer socket ρ nickname s).2.peers p).peerId =
      (s.registry ρ).createPeer.peerId p := by
    intro p
    rcases eq_or_ne p s.peerCount with rfl | hne
    · simp [Lobby.createPeer, Server.registry]
    · simp [Lobby.createPeer, Server.registry, hne]
  have hfiles : ∀ p, ((Lobby.createPeer socket ρ nickname s).2.peers p).files =
      (s.registry ρ).createPeer.hosted p := by
    intro p
    rcases eq_or_ne p s.peerCount with rfl | hne
    · simp [Lobby.createPeer, Server.registry]
    · simp [Lobby.createPeer, Server.registry, hne]
  simp only [Server.registry, hpeerId, hfiles]
  rfl

theorem registry_addPeer (p : PeerRef) :
    (Room.addPeer ρ p s).registry ρ = (s.registry ρ).addPeer p := by
  simp only [Server.registry, Room.addPeer, Room.getPeerById, Room.getFileById, Registry.addPeer,
    Server.modifyRoom, Function.update_self, UnorderedMap.lookup_insert]
  rfl

theorem registry_erasePeer (peerId : Int) :
    (Room.erasePeer ρ peerId s).registry ρ = (s.registry ρ).erasePeer peerId := by
  simp only [Server.registry, Room.erasePeer, Room.getPeerById, Room.getFileById,
    Registry.erasePeer, Server.modifyRoom, Function.update_self, UnorderedMap.lookup_erase]

/-- Subscribers are no part of the registry. -/
theorem registry_clearSubscribers (f : FileRef) :
    (File.clearSubscribers f s).registry ρ = s.registry ρ := by
  rw [File.clearSubscribers_eq]
  exact registry_modifyFile ρ { s with subscribers := _ } f
    (g := fun file => { file with subscribers := ∅ }) (fun _ => rfl) (fun _ => rfl)

theorem registry_eraseFile (f : FileRef) :
    (Room.eraseFile ρ f s).registry ρ = (s.registry ρ).eraseFile f := by
  simp only [Server.registry, Room.eraseFile, Room.getPeerById, Room.getFileById,
    Registry.eraseFile, Server.modifyRoom, Function.update_self, UnorderedMap.lookup_erase]
  rfl

/-- `Room::registerFile` on the server is `registerFile` on the registry. -/
theorem registry_registerFile (host : PeerRef) (clientFileId : Int) (fileName : Option String)
    (fileSize : Int) :
    (Room.registerFile ρ host clientFileId fileName fileSize s).2.registry ρ =
      (s.registry ρ).registerFile host := by
  let s' := (Room.registerFile ρ host clientFileId fileName fileSize s).2
  have hpeerId : ∀ p, (s'.peers p).peerId = (s.peers p).peerId := by
    intro p
    rcases eq_or_ne p host with rfl | hne
    · simp [s', Room.registerFile, Peer.addFile]
    · simp [s', Room.registerFile, Peer.addFile, hne]
  have hfiles : ∀ p, (s'.peers p).files = ((s.registry ρ).registerFile host).hosted p := by
    intro p
    rcases eq_or_ne p host with rfl | hne
    · simp [s', Room.registerFile, Peer.addFile, Server.registry]
    · simp [s', Room.registerFile, Peer.addFile, Server.registry, hne]
  have hhost : ∀ f, (s'.files f).host = ((s.registry ρ).registerFile host).host f ∧
      (s'.files f).serverFileId = ((s.registry ρ).registerFile host).serverFileId f := by
    intro f
    rcases eq_or_ne f s.fileCount with rfl | hne
    · simp [s', Room.registerFile, Peer.addFile, Server.registry]
    · simp [s', Room.registerFile, Peer.addFile, Server.registry, hne]
  have hid : ∀ id, Room.getFileById ρ id s' = ((s.registry ρ).registerFile host).fileById id := by
    intro id
    simp only [s', Room.registerFile, Peer.addFile, Room.getFileById, Server.registry,
      Registry.registerFile, Server.modifyRoom, Server.modifyPeer, Server.modifyStatistics,
      Function.update_self, UnorderedMap.lookup_insert]
    rfl
  have hcounter : (s'.rooms ρ).fileIdCounter = (s.rooms ρ).fileIdCounter + 1 := by
    simp [s', Room.registerFile, Peer.addFile]
  have hpeerById : ∀ id, Room.getPeerById ρ id s' = Room.getPeerById ρ id s := by
    intro id
    simp [s', Room.registerFile, Peer.addFile, Room.getPeerById]
  show s'.registry ρ = _
  simp only [Server.registry, hpeerId, hfiles, hhost, hid, hcounter, hpeerById]
  rfl

theorem registry_subscribe (f : FileRef) :
    (File.subscribe f s).2.registry ρ = s.registry ρ := by
  unfold File.subscribe
  exact registry_modifyFile ρ { s with
    subscribers := Function.update s.subscribers s.subscriberCount
      (some { id := (s.files f).subscriberIdCounter, file := f })
    subscriberCount := s.subscriberCount + 1 } f
    (g := fun file => { file with
      subscriberIdCounter := file.subscriberIdCounter + 1
      subscribers := file.subscribers.insert (s.files f).subscriberIdCounter s.subscriberCount })
    (fun _ => rfl) (fun _ => rfl)

theorem registry_destroy (σ : SubscriberRef) :
    (Subscriber.destroy σ s).registry ρ = s.registry ρ := by
  unfold Subscriber.destroy
  split
  · rfl
  · next subscriber _ =>
    refine (registry_modifyFile ρ s subscriber.file
      (g := fun file => { file with subscribers := file.subscribers.erase subscriber.id }) ?_ ?_)
    · exact fun file => rfl
    · exact fun file => rfl

theorem registry_provideFileChunk (f : FileRef) (subscriberId : Int) (data : Bytes) :
    ((File.provideFileChunk f subscriberId data).exec s).2.registry ρ = s.registry ρ := by
  obtain ⟨_, h⟩ := File.provideFileChunk_frame f subscriberId data s
  rw [h]
  rfl

theorem registry_read (σ : SubscriberRef) (count : Int) :
    ((Subscriber.read σ count).exec s).2.registry ρ = s.registry ρ := by
  obtain ⟨_, _, _, _, h⟩ := Subscriber.read_frame σ count s
  rw [h]
  rfl

end Refinement

end CanChat
