/-
CanChat/Shelf.lean

Which files `getFileById` finds over whole runs.

A file is found under its id if and only if its host is a member: a leave
removes exactly the files of the leaver.  `Catalogue.Complete` is the special
case in which no host has left.

Design.  `Shelved` is the invariant of the catalogue, and `Housed` that of the
directory: a room with members is registered in the lobby under its name.  There
is one preservation lemma for each operation.
-/
import CanChat.Links
import CanChat.Bookkeeping

namespace CanChat

/-! ### Files and hosts -/

namespace Catalogue

/-- A file is registered in the room of its host iff the host is a member. -/
structure Shelved (c : Catalogue) : Prop where
  numbered : c.Numbered
  peerId_lt : ∀ p < c.peerCount, c.peerId p < c.peerIdCounter
  peerId_inj : ∀ p < c.peerCount, ∀ q < c.peerCount, c.peerId p = c.peerId q → p = q
  member : ∀ ρ id p, c.member ρ id = some p → p < c.peerCount ∧ c.room p = ρ ∧ c.peerId p = id
  hosted : ∀ p f, f ∈ c.hosted p ↔ f < c.fileCount ∧ c.host f = p
  registered : ∀ f < c.fileCount, c.Present (c.host f) →
    c.fileById (c.room (c.host f)) (c.serverFileId f) = some f
  present : ∀ ρ id f, c.fileById ρ id = some f → c.Present (c.host f)

section Shelved

variable {c d : Catalogue} {ρ : RoomRef} {p q : PeerRef} {f : FileRef}

/-- After its host has left, no file is found under the id of a file. -/
theorem Shelved.fileById_eq_none (h : c.Shelved) (hf : f < c.fileCount)
    (hgone : ¬ c.Present (c.host f)) :
    c.fileById (c.room (c.host f)) (c.serverFileId f) = none := by
  rcases hfound : c.fileById (c.room (c.host f)) (c.serverFileId f) with - | g
  · rfl
  · obtain ⟨hg, hroom, hid⟩ := h.numbered.fileById _ _ g hfound
    obtain rfl := h.numbered.inj g hg f hf hroom hid
    exact absurd (h.present _ _ g hfound) hgone

/-- Deleting rooms and dropping sockets preserve `Shelved`. -/
theorem Shelved.of_eq (h : c.Shelved)
    (hd : d = { c with lobby := d.lobby, socket := d.socket }) : d.Shelved := by
  rw [hd]
  exact ⟨h.numbered.shrinks ⟨fun _ _ _ h => h, rfl, rfl, rfl, rfl, rfl, rfl, rfl⟩, h.peerId_lt,
    h.peerId_inj, h.member, h.hosted, h.registered, h.present⟩

theorem Shelved.present_createRoom (h : c.Shelved) (name : String) (hp : p < c.peerCount) :
    (c.createRoom name).Present p ↔ c.Present p := by
  have hne := (h.numbered.room_lt p hp).ne
  simp [Present, Function.update_of_ne hne]

theorem Shelved.createRoom (h : c.Shelved) (name : String) : (c.createRoom name).Shelved := by
  have hmember : ∀ p < c.peerCount, (c.createRoom name).Present p ↔ c.Present p :=
    fun p hp => h.present_createRoom name hp
  refine ⟨(h.numbered.createRoom name).1, h.peerId_lt, h.peerId_inj, fun ρ id p hp => ?_, h.hosted,
    fun f hf hpresent => ?_, fun ρ id f hf => ?_⟩
  · rw [createRoom_member] at hp
    rcases eq_or_ne ρ c.roomCount with rfl | hne
    · rw [Function.update_self] at hp
      cases hp
    · rw [Function.update_of_ne hne] at hp
      exact h.member ρ id p hp
  · have hhost := h.numbered.host_lt f hf
    rw [createRoom_fileById, createRoom_room, createRoom_host, createRoom_serverFileId,
      Function.update_of_ne (h.numbered.room_lt _ hhost).ne]
    exact h.registered f hf ((hmember _ hhost).mp hpresent)
  · rw [createRoom_fileById] at hf
    rcases eq_or_ne ρ c.roomCount with rfl | hne
    · rw [Function.update_self] at hf
      cases hf
    · rw [Function.update_of_ne hne] at hf
      obtain ⟨hlt, -⟩ := h.numbered.fileById ρ id f hf
      exact (hmember _ (h.numbered.host_lt f hlt)).mpr (h.present ρ id f hf)

/-- A join adds the new peer to the members of `ρ` under the next id. -/
theorem member_join (c : Catalogue) (socket : SocketRef) (ρ ρ' : RoomRef) (id : Int) :
    ((c.createPeer socket ρ).addPeer ρ c.peerCount).member ρ' id =
      if ρ' = ρ ∧ id = c.peerIdCounter then some c.peerCount else c.member ρ' id := by
  have hnew : (c.createPeer socket ρ).peerId c.peerCount = c.peerIdCounter :=
    Function.update_self _ _ _
  show Function.update c.member ρ (fun id => if id = (c.createPeer socket ρ).peerId c.peerCount
    then some c.peerCount else c.member ρ id) ρ' id = _
  rw [hnew]
  rcases eq_or_ne ρ' ρ with rfl | hne
  · simp
  · simp [hne]

theorem Shelved.present_join (h : c.Shelved) (socket : SocketRef) (ρ : RoomRef)
    (hp : p < c.peerCount) :
    ((c.createPeer socket ρ).addPeer ρ c.peerCount).Present p ↔ c.Present p := by
  let d := (c.createPeer socket ρ).addPeer ρ c.peerCount
  have hroom : d.room p = c.room p := Function.update_of_ne hp.ne _ _
  have hid : d.peerId p = c.peerId p := Function.update_of_ne hp.ne _ _
  have hold : ¬ (c.room p = ρ ∧ c.peerId p = c.peerIdCounter) := fun heq =>
    (h.peerId_lt p hp).ne heq.2
  show d.member (d.room p) (d.peerId p) = some p ↔ _
  rw [hroom, hid, c.member_join socket ρ, if_neg hold]
  exact Iff.rfl

/-- A join preserves `Shelved`: the new peer hosts no files. -/
theorem Shelved.join (h : c.Shelved) (socket : SocketRef) (hρ : ρ < c.roomCount) :
    ((c.createPeer socket ρ).addPeer ρ c.peerCount).Shelved := by
  let d := (c.createPeer socket ρ).addPeer ρ c.peerCount
  have hroom : ∀ p < c.peerCount, d.room p = c.room p := fun p hp => Function.update_of_ne hp.ne _ _
  have hid : ∀ p < c.peerCount, d.peerId p = c.peerId p :=
    fun p hp => Function.update_of_ne hp.ne _ _
  have hnew : d.room c.peerCount = ρ ∧ d.peerId c.peerCount = c.peerIdCounter :=
    ⟨Function.update_self _ _ _, Function.update_self _ _ _⟩
  have hmember : ∀ ρ' id, d.member ρ' id =
      if ρ' = ρ ∧ id = c.peerIdCounter then some c.peerCount else c.member ρ' id :=
    c.member_join socket ρ
  have hpresent : ∀ p < c.peerCount, d.Present p ↔ c.Present p :=
    fun p hp => h.present_join socket ρ hp
  have hhost : ∀ f < c.fileCount, c.host f < c.peerCount := h.numbered.host_lt
  refine ⟨(h.numbered.join socket hρ).1, fun p hp => ?_, fun p hp q hq heq => ?_,
    fun ρ' id p hp => ?_, fun p f => ?_, fun f hf hp => ?_, fun ρ' id f hf => ?_⟩
  -- the new id is the counter, which all others are below
  · rcases Nat.lt_succ_iff_lt_or_eq.mp hp with hp | rfl
    · exact (hid p hp).trans_lt ((h.peerId_lt p hp).trans (Int.lt_succ _))
    · exact hnew.2.trans_lt (Int.lt_succ _)
  · change d.peerId p = d.peerId q at heq
    rcases Nat.lt_succ_iff_lt_or_eq.mp hp with hp | rfl <;>
      rcases Nat.lt_succ_iff_lt_or_eq.mp hq with hq | rfl
    · rw [hid p hp, hid q hq] at heq
      exact h.peerId_inj p hp q hq heq
    · rw [hid p hp, hnew.2] at heq
      exact absurd heq (h.peerId_lt p hp).ne
    · rw [hid q hq, hnew.2] at heq
      exact absurd heq.symm (h.peerId_lt q hq).ne
    · rfl
  · change d.member ρ' id = some p at hp
    rw [hmember] at hp
    split at hp
    · next heq =>
      obtain rfl := Option.some.inj hp
      exact ⟨Nat.lt_succ_self _, hnew.1.trans heq.1.symm, hnew.2.trans heq.2.symm⟩
    · obtain ⟨hlt, hpRoom, hpId⟩ := h.member ρ' id p hp
      exact ⟨Nat.lt_succ_of_lt hlt, (hroom p hlt).trans hpRoom, (hid p hlt).trans hpId⟩
  · show f ∈ Function.update c.hosted c.peerCount [] p ↔ f < c.fileCount ∧ c.host f = p
    rcases eq_or_ne p c.peerCount with rfl | hne
    · rw [Function.update_self]
      exact iff_of_false List.not_mem_nil fun hf => (hhost f hf.1).ne hf.2
    · rw [Function.update_of_ne hne]
      exact h.hosted p f
  · have hf : f < c.fileCount := hf
    have hfound := h.registered f hf ((hpresent _ (hhost f hf)).mp hp)
    rwa [← hroom _ (hhost f hf)] at hfound
  · obtain ⟨hlt, -⟩ := h.numbered.fileById ρ' id f hf
    exact (hpresent _ (hhost f hlt)).mpr (h.present ρ' id f hf)

theorem Shelved.registerFile (h : c.Shelved) (hp : c.Present p) (clientFileId fileSize : Int) :
    (c.registerFile (c.room p) p clientFileId fileSize).Shelved := by
  let d := c.registerFile (c.room p) p clientFileId fileSize
  have hlt : p < c.peerCount := (h.member _ _ p hp).1
  have hhost : ∀ f < c.fileCount, d.host f = c.host f := fun f hf =>
    Function.update_of_ne hf.ne _ _
  have hid : ∀ f < c.fileCount, d.serverFileId f = c.serverFileId f := fun f hf =>
    Function.update_of_ne hf.ne _ _
  have hnew : d.host c.fileCount = p ∧ d.serverFileId c.fileCount = c.fileIdCounter (c.room p) :=
    ⟨Function.update_self _ _ _, Function.update_self _ _ _⟩
  -- the one new entry is that of the new file
  have hfileById : ∀ ρ id, d.fileById ρ id =
      if ρ = c.room p ∧ id = c.fileIdCounter (c.room p) then some c.fileCount
      else c.fileById ρ id := by
    intro ρ id
    rcases eq_or_ne ρ (c.room p) with rfl | hne
    · simp [d]
    · simp [d, hne]
  refine ⟨(h.numbered.registerFile hlt clientFileId fileSize).1, h.peerId_lt, h.peerId_inj,
    h.member,
    fun q f => ?_, fun f hf hpresent => ?_, fun ρ id f hf => ?_⟩
  · show f ∈ Function.update c.hosted p (c.hosted p ++ [c.fileCount]) q ↔
      f < c.fileCount + 1 ∧ d.host f = q
    -- an older file, the new one, or none that is allocated
    rcases lt_trichotomy f c.fileCount with hf | rfl | hf
    · have hkept : f ∈ Function.update c.hosted p (c.hosted p ++ [c.fileCount]) q ↔
          f ∈ c.hosted q := by
        rcases eq_or_ne q p with rfl | hne
        · simp [hf.ne]
        · rw [Function.update_of_ne hne]
      rw [hkept, h.hosted, hhost f hf]
      simp [hf, Nat.lt_succ_of_lt hf]
    · rw [hnew.1]
      rcases eq_or_ne q p with rfl | hne
      · simp
      · have hnot : c.fileCount ∉ c.hosted q := fun hmem => ((h.hosted q _).mp hmem).1.ne rfl
        simp [hne, hnot, hne.symm]
    · have hnot : ∀ q, f ∉ c.hosted q := fun q hmem => hf.not_gt ((h.hosted q f).mp hmem).1
      refine iff_of_false (fun hmem => ?_) fun hmem => absurd hmem.1 (not_lt.mpr hf)
      rcases eq_or_ne q p with rfl | hne
      · rw [Function.update_self] at hmem
        rcases List.mem_append.mp hmem with hmem | hmem
        · exact hnot q hmem
        · exact hf.ne' (List.mem_singleton.mp hmem)
      · rw [Function.update_of_ne hne] at hmem
        exact hnot q hmem
  · show d.fileById (c.room (d.host f)) (d.serverFileId f) = some f
    rw [hfileById]
    rcases Nat.lt_succ_iff_lt_or_eq.mp hf with hf | rfl
    · have hpresent : c.Present (d.host f) := hpresent
      rw [hhost f hf] at hpresent
      have hne :
          ¬ (c.room (c.host f) = c.room p ∧ c.serverFileId f = c.fileIdCounter (c.room p)) := by
        -- an older file does not have the new id
        rintro ⟨hroom, hcounter⟩
        have hlt := h.numbered.id_lt f hf
        rw [hroom, hcounter] at hlt
        exact lt_irrefl _ hlt
      rw [hhost f hf, hid f hf, if_neg hne]
      exact h.registered f hf hpresent
    · rw [hnew.1, hnew.2, if_pos ⟨rfl, rfl⟩]
  · change d.fileById ρ id = some f at hf
    rw [hfileById] at hf
    show c.Present (d.host f)
    split at hf
    · obtain rfl := Option.some.inj hf
      rw [hnew.1]
      exact hp
    · obtain ⟨hlt, -⟩ := h.numbered.fileById ρ id f hf
      rw [hhost f hlt]
      exact h.present ρ id f hf

/-- Cancelling the files `fs` unregisters exactly their ids. -/
theorem fileById_foldl_cancelFile (ρ : RoomRef) (fs : List FileRef) (c : Catalogue) (ρ' : RoomRef)
    (id : Int) : (fs.foldl (fun c f => c.cancelFile ρ f) c).fileById ρ' id =
      if ρ' = ρ ∧ id ∈ fs.map c.serverFileId then none else c.fileById ρ' id := by
  induction fs generalizing c with
  | nil => simp
  | cons f fs ih =>
      rw [List.foldl_cons, ih, List.map_cons]
      rcases eq_or_ne ρ' ρ with rfl | hne
      · rw [cancelFile_fileById, Function.update_self]
        by_cases hid : id = c.serverFileId f
        · simp [hid]
        · simp [hid]
      · rw [cancelFile_fileById, Function.update_of_ne hne]
        simp [hne]

/-- A leave changes the membership of the leaver only. -/
theorem Shelved.present_leave (h : c.Shelved) (hp : c.Present p) {q : PeerRef}
    (hq : q < c.peerCount) :
    ((((c.hosted p).foldl (fun d f => d.cancelFile (c.room p) f) c).erasePeer (c.room p)
      (c.peerId p)).disconnect p).Present q ↔ c.Present q ∧ q ≠ p := by
  obtain ⟨fileById, hfolded, -⟩ := foldl_cancelFile (c.room p) (c.hosted p) c
  have hlt : p < c.peerCount := (h.member _ _ p hp).1
  rw [hfolded]
  show Function.update c.member (c.room p) (fun id => if id = c.peerId p then none
    else c.member (c.room p) id) (c.room q) (c.peerId q) = some q ↔
      c.member (c.room q) (c.peerId q) = some q ∧ q ≠ p
  rcases eq_or_ne q p with rfl | hne
  · simp
  · have hid : c.peerId q ≠ c.peerId p := fun heq => hne (h.peerId_inj q hq p hlt heq)
    rw [and_iff_left hne]
    rcases eq_or_ne (c.room q) (c.room p) with hroom | hroom
    · rw [hroom, Function.update_self, if_neg hid]
    · rw [Function.update_of_ne hroom]

/-- A leave preserves `Shelved`: exactly the files of the leaver are unregistered. -/
theorem Shelved.leave (h : c.Shelved) (hp : c.Present p) :
    ((((c.hosted p).foldl (fun d f => d.cancelFile (c.room p) f) c).erasePeer (c.room p)
      (c.peerId p)).disconnect p).Shelved := by
  have hpresent : ∀ q < c.peerCount,
      ((((c.hosted p).foldl (fun d f => d.cancelFile (c.room p) f) c).erasePeer (c.room p)
        (c.peerId p)).disconnect p).Present q ↔ c.Present q ∧ q ≠ p :=
    fun q hq => h.present_leave hp hq
  have hfree := fileById_foldl_cancelFile (c.room p) (c.hosted p) c
  obtain ⟨fileById, hfolded, hkept⟩ := foldl_cancelFile (c.room p) (c.hosted p) c
  rw [hfolded] at hfree hpresent ⊢
  replace hfree : ∀ ρ id, fileById ρ id =
      if ρ = c.room p ∧ id ∈ (c.hosted p).map c.serverFileId then none else c.fileById ρ id := hfree
  let d := ((({ c with fileById } : Catalogue).erasePeer (c.room p) (c.peerId p)).disconnect p)
  have hmember : ∀ ρ id, d.member ρ id =
      if ρ = c.room p ∧ id = c.peerId p then none else c.member ρ id := by
    intro ρ id
    show Function.update c.member (c.room p) (fun id => if id = c.peerId p then none
      else c.member (c.room p) id) ρ id = _
    rcases eq_or_ne ρ (c.room p) with rfl | hne
    · simp
    · simp [hne]
  have hshrinks : c.Shrinks d := ⟨hkept, rfl, rfl, rfl, rfl, rfl, rfl, rfl⟩
  refine ⟨h.numbered.shrinks hshrinks, h.peerId_lt, h.peerId_inj, fun ρ id q hq => ?_, h.hosted,
    fun f hf hpresent' => ?_, fun ρ id f hf => ?_⟩
  · change d.member ρ id = some q at hq
    rw [hmember] at hq
    split at hq
    · cases hq
    · exact h.member ρ id q hq
  · have hf : f < c.fileCount := hf
    obtain ⟨hhost, hne⟩ := (hpresent _ (h.numbered.host_lt f hf)).mp hpresent'
    show fileById (c.room (c.host f)) (c.serverFileId f) = some f
    rw [hfree, if_neg]
    · exact h.registered f hf hhost
    · -- no file of the leaver has this id
      rintro ⟨hroom, hid⟩
      obtain ⟨g, hg, hgid⟩ := List.mem_map.mp hid
      obtain ⟨hglt, hghost⟩ := (h.hosted p g).mp hg
      have hsame : c.room (c.host g) = c.room (c.host f) := by rw [hghost, hroom]
      obtain rfl := h.numbered.inj g hglt f hf hsame hgid
      exact hne hghost
  · change fileById ρ id = some f at hf
    have hold := hkept ρ id f hf
    obtain ⟨hflt, hroom, hid⟩ := h.numbered.fileById ρ id f hold
    refine (hpresent _ (h.numbered.host_lt f hflt)).mpr ⟨h.present ρ id f hold, fun hhost => ?_⟩
    rw [hfree, if_pos] at hf
    · cases hf
    · rw [← hroom, ← hid, hhost]
      exact ⟨rfl, List.mem_map_of_mem ((h.hosted p f).mpr ⟨hflt, hhost⟩)⟩

end Shelved

theorem Shelved.init : ({} : Server).catalogue.Shelved where
  numbered := Links.numbered_init _
  peerId_lt _ hp := absurd hp (Nat.not_lt_zero _)
  peerId_inj _ hp := absurd hp (Nat.not_lt_zero _)
  member _ _ _ hp := by cases hp
  hosted _ _ := iff_of_false List.not_mem_nil fun hf => Nat.not_lt_zero _ hf.1
  registered _ hf := absurd hf (Nat.not_lt_zero _)
  present _ _ _ hf := by cases hf

end Catalogue

/-! ### Rooms and their names -/

namespace Directory

/-- The room of every member is registered in the lobby under its name. -/
structure Housed (d : Directory) : Prop where
  lobby : ∀ name ρ, d.lobby name = some ρ → ρ < d.roomCount ∧ d.roomName ρ = name
  member : ∀ ρ id p, d.member ρ id = some p → d.lobby (d.roomName ρ) = some ρ

section Housed

variable {d : Directory} {ρ : RoomRef} {p : PeerRef} {peerId : Int}

theorem Housed.createRoom (h : d.Housed) {name : String} (hnone : d.lobby name = none) :
    (d.createRoom name).Housed := by
  constructor
  · intro name' ρ hρ
    rw [createRoom_lobby] at hρ
    split at hρ
    · next heq =>
      obtain rfl := Option.some.inj hρ
      exact ⟨Nat.lt_succ_self _, (Function.update_self _ _ _).trans heq.symm⟩
    · obtain ⟨hlt, hname⟩ := h.lobby name' ρ hρ
      exact ⟨Nat.lt_succ_of_lt hlt, (Function.update_of_ne hlt.ne _ _).trans hname⟩
  · intro ρ id p hp
    rw [createRoom_member] at hp
    rcases eq_or_ne ρ d.roomCount with rfl | hne
    · rw [Function.update_self] at hp
      cases hp
    · rw [Function.update_of_ne hne] at hp
      have hlobby := h.member ρ id p hp
      have hname : d.roomName ρ ≠ name := by
        intro heq
        rw [heq, hnone] at hlobby
        cases hlobby
      rw [createRoom_roomName, Function.update_of_ne hne, createRoom_lobby, if_neg hname]
      exact hlobby

/-- `Housed` depends on the lobby, the members and the names of rooms only. -/
theorem Housed.of_eq {d' : Directory} (h : d.Housed) (hlobby : d'.lobby = d.lobby)
    (hroomName : d'.roomName = d.roomName) (hmember : d'.member = d.member)
    (hroomCount : d'.roomCount = d.roomCount) : d'.Housed := by
  constructor
  · rw [hlobby, hroomName, hroomCount]
    exact h.lobby
  · rw [hlobby, hroomName, hmember]
    exact h.member

theorem Housed.addPeer (h : d.Housed) (hρ : d.lobby (d.roomName ρ) = some ρ) (p : PeerRef) :
    (d.addPeer ρ p).Housed := by
  refine ⟨h.lobby, fun ρ' id q hq => ?_⟩
  rw [addPeer_member] at hq
  rcases eq_or_ne ρ' ρ with rfl | hne
  · exact hρ
  · rw [Function.update_of_ne hne] at hq
    exact h.member ρ' id q hq

theorem Housed.removePeer (h : d.Housed) (ρ : RoomRef) (peerId : Int) :
    (d.removePeer ρ peerId).Housed := by
  refine ⟨h.lobby, fun ρ' id q hq => ?_⟩
  rw [removePeer_member] at hq
  rcases eq_or_ne ρ' ρ with rfl | hne
  · rw [Function.update_self] at hq
    split at hq
    · cases hq
    · exact h.member ρ' id q hq
  · rw [Function.update_of_ne hne] at hq
    exact h.member ρ' id q hq

/-- Deleting a room without members preserves `Housed`. -/
theorem Housed.deleteRoom (h : d.Housed) (hρ : d.lobby (d.roomName ρ) = some ρ)
    (hempty : ∀ id, d.member ρ id = none) : (d.deleteRoom (d.roomName ρ)).Housed := by
  constructor
  · intro name ρ' hρ'
    rw [deleteRoom_lobby] at hρ'
    split at hρ'
    · cases hρ'
    · exact h.lobby name ρ' hρ'
  · intro ρ' id q hq
    have hlobby := h.member ρ' id q hq
    have hname : d.roomName ρ' ≠ d.roomName ρ := by
      intro heq
      rw [heq, hρ] at hlobby
      obtain rfl := Option.some.inj hlobby
      rw [deleteRoom_member, hempty] at hq
      cases hq
    rw [deleteRoom_roomName, deleteRoom_lobby, if_neg hname]
    exact hlobby

theorem Housed.init : ({} : Server).directory.Housed where
  lobby _ _ h := by cases h
  member _ _ _ h := by cases h

end Housed

/-- The rooms of `d` exist in `d'` under the same names. -/
structure KeepsRoomNames (d d' : Directory) : Prop where
  roomCount : d.roomCount ≤ d'.roomCount
  roomName : ∀ ρ < d.roomCount, d'.roomName ρ = d.roomName ρ

section KeepsRoomNames

variable {c d d' : Directory}

theorem KeepsRoomNames.of_eq (hroomName : d'.roomName = d.roomName)
    (hroomCount : d'.roomCount = d.roomCount) :
    d.KeepsRoomNames d' :=
  ⟨hroomCount.ge, fun ρ _ => congrFun hroomName ρ⟩

theorem KeepsRoomNames.trans (h : c.KeepsRoomNames d) (h' : d.KeepsRoomNames d') :
    c.KeepsRoomNames d' :=
  ⟨h.roomCount.trans h'.roomCount, fun ρ hρ =>
    (h'.roomName ρ (hρ.trans_le h.roomCount)).trans (h.roomName ρ hρ)⟩

theorem keepsRoomNames_createRoom (d : Directory) (name : String) :
    d.KeepsRoomNames (d.createRoom name) :=
  ⟨Nat.le_succ _, fun _ hρ => Function.update_of_ne hρ.ne _ _⟩

end KeepsRoomNames

end Directory

/-! ### Handlers -/

section Handlers

variable {s : Server}

theorem shelved_onAfterCreate (h : s.catalogue.Shelved)
    (hlobby : ∀ name ρ, Lobby.getRoom name s = some ρ → ρ < s.roomCount) (config : ConfigDto)
    (k : SocketRef) (roomName nickname : String) :
    (Lobby.onAfterCreateNonBlocking config k roomName nickname s).2.catalogue.Shelved := by
  obtain ⟨-, -, hcatalogue⟩ := catalogue_entered s config k roomName nickname
  rw [hcatalogue]
  have hroom := catalogue_getOrCreateRoom (Lobby.countConnected s) roomName
  rcases hname : Lobby.getRoom roomName (Lobby.countConnected s) with - | ρ
  · have hnew : (Lobby.getOrCreateRoom roomName (Lobby.countConnected s)).1 = s.roomCount := by
      obtain ⟨_, _, _, _, heq⟩ := Lobby.getOrCreateRoom_none hname
      exact congrArg Prod.fst heq
    rw [hname] at hroom
    rw [hroom, hnew]
    exact (h.createRoom roomName).join k (Nat.lt_succ_self s.roomCount)
  · have hentered := congrArg Prod.fst (Lobby.getOrCreateRoom_some hname)
    rw [hname] at hroom
    rw [hroom, hentered]
    exact h.join k (hlobby roomName ρ hname)

theorem shelved_onBeforeDestroy (h : s.catalogue.Shelved) {p : PeerRef} (hp : s.catalogue.Present p)
    (config : ConfigDto) : (Lobby.onBeforeDestroyNonBlocking config p s).catalogue.Shelved := by
  have hleft := catalogue_goodbyePeer s p config hp
  have hshelved := h.leave hp
  rw [← hleft] at hshelved
  unfold Lobby.onBeforeDestroyNonBlocking
  dsimp only
  split
  · rw [catalogue_deleteRoom]
    exact hshelved.of_eq rfl
  · exact hshelved

theorem shelved_pingRound (h : s.catalogue.Shelved) : (Lobby.pingRound s).catalogue.Shelved := by
  unfold Lobby.pingRound
  generalize s.lobbyRooms.values = ρs
  induction ρs generalizing s with
  | nil => exact h
  | cons ρ ρs ih =>
      obtain ⟨socket, hcatalogue, -⟩ := catalogue_pingAllPeers s ρ
      have hpinged : (Room.pingAllPeers ρ s).catalogue.Shelved := by
        rw [hcatalogue]
        exact h.of_eq rfl
      exact ih hpinged

theorem housed_onAfterCreate (h : s.directory.Housed) (config : ConfigDto) (k : SocketRef)
    (roomName nickname : String) :
    (Lobby.onAfterCreateNonBlocking config k roomName nickname s).2.directory.Housed := by
  obtain ⟨-, hdirectory⟩ := Bookkeeping.directory_onAfterCreate config k roomName nickname s
  have hopened : (Bookkeeping.opened roomName s).Housed := by
    unfold Bookkeeping.opened
    split
    · exact h
    · next hnone => exact h.createRoom hnone
  have hroom := Bookkeeping.opened_lobby roomName s
  have hnamed := (congrArg (Bookkeeping.opened roomName s).lobby (hopened.lobby _ _ hroom).2).trans
    hroom
  have hwelcomed : (((Bookkeeping.opened roomName s).createPeer
      (Bookkeeping.openedRoom roomName s)).createShared.addHistoryMessage config
        (Bookkeeping.openedRoom roomName s) ⟨s.objectCount, Room.joinedMessage s.peerCount
          (Lobby.onAfterCreateNonBlocking config k roomName nickname s).2⟩).Housed :=
    hopened.of_eq rfl rfl rfl rfl
  rw [hdirectory]
  exact (hwelcomed.addPeer hnamed s.peerCount).of_eq rfl rfl rfl rfl

/-- A join creates at most one room and renames none. -/
theorem keepsRoomNames_onAfterCreate (config : ConfigDto) (k : SocketRef)
    (roomName nickname : String) :
    s.directory.KeepsRoomNames
      (Lobby.onAfterCreateNonBlocking config k roomName nickname s).2.directory := by
  obtain ⟨-, hdirectory⟩ := Bookkeeping.directory_onAfterCreate config k roomName nickname s
  have hopened : s.directory.KeepsRoomNames (Bookkeeping.opened roomName s) := by
    unfold Bookkeeping.opened
    split
    · exact .of_eq rfl rfl
    · exact Directory.keepsRoomNames_createRoom _ roomName
  rw [hdirectory]
  exact hopened.trans (.of_eq rfl rfl)

theorem keepsRoomNames_onBeforeDestroy (p : PeerRef) (config : ConfigDto) :
    s.directory.KeepsRoomNames (Lobby.onBeforeDestroyNonBlocking config p s).directory := by
  rcases Bookkeeping.directory_onBeforeDestroy config p s with ⟨-, heq⟩ | ⟨-, heq⟩
  · rw [heq]
    exact .of_eq rfl rfl
  · rw [heq]
    exact .of_eq rfl rfl

theorem housed_onBeforeDestroy (h : s.directory.Housed) {p : PeerRef} (hp : s.catalogue.Present p)
    (config : ConfigDto) : (Lobby.onBeforeDestroyNonBlocking config p s).directory.Housed := by
  have hlobby := h.member _ _ p hp
  have hvacated : (Bookkeeping.vacated config p s).Housed :=
    .of_eq (h.removePeer (s.peers p).room (s.peers p).peerId) rfl rfl rfl rfl
  rcases Bookkeeping.directory_onBeforeDestroy config p s with ⟨hempty, heq⟩ | ⟨-, heq⟩
  · rw [heq]
    exact hvacated.deleteRoom hlobby hempty
  · rw [heq]
    exact hvacated

end Handlers

end CanChat
