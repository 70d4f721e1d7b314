/-
CanChat/Survivors.lean

What is left of the rooms when everybody has gone.

While a room has members the lobby points to it, and it to them.  A leaver is
taken out of its room and gives up its socket; the last one takes the room out
of the lobby.  So nothing is left of a room in which no file was shared.  But a
peer points to the files it has shared, for good, and each of them points to
its host: whoever has shared a file is never deleted, nor is the room
(`room_survives_iff`).
-/
import CanChat.Lifetime

namespace CanChat

namespace Lifetime

/-! ### The invariant -/

/-- Rooms in the lobby, their members, and the sockets of these. -/
structure Orderly (v : View) : Prop where
  lobby : ∀ name ρ, v.catalogue.lobby name = some ρ →
    ρ < v.catalogue.roomCount ∧ v.ledger.roomName ρ = name
  member : ∀ ρ id p, v.catalogue.member ρ id = some p →
    p < v.catalogue.peerCount ∧ v.catalogue.room p = ρ ∧ v.catalogue.peerId p = id ∧
      id < v.catalogue.peerIdCounter ∧ (∃ name, v.catalogue.lobby name = some ρ) ∧
        ∃ k ∈ v.connected, v.listener k = some p
  connected : ∀ k ∈ v.connected, ∃ p, v.listener k = some p ∧ v.catalogue.Present p
  listener : ∀ k p, v.listener k = some p → k < v.socketCount ∧ p < v.catalogue.peerCount ∧
    ∀ k', v.listener k' = some p → k' = k
  socket : ∀ p k, v.catalogue.socket p = some k → v.listener k = some p ∧ k ∈ v.connected

/-- Nothing points to a dead object, every file lives on with its host, and the
rooms that are gone have been counted. -/
structure Sound (v : View) : Prop where
  orderly : Orderly v
  rooted : ∀ n, Rooted v n → n ∈ v.live
  owned : ∀ m n, m ∈ v.live → Owns v m n → n ∈ v.live
  file : ∀ f, .file f ∈ v.live ↔ f < v.catalogue.fileCount
  host : ∀ f < v.catalogue.fileCount, v.catalogue.host f < v.catalogue.peerCount ∧
    .peer (v.catalogue.host f) ∈ v.live ∧ f ∈ v.catalogue.hosted (v.catalogue.host f)
  counted : v.ledger.eventRoomDeleted + v.live.countP Node.isRoom = v.ledger.eventRoomCreated

/-- The rooms of the lobby have members. -/
def Occupied (c : Catalogue) : Prop :=
  ∀ name ρ, c.lobby name = some ρ → ∃ id p, c.member ρ id = some p

theorem owns_of_subset {v w : View}
    (hmember : ∀ ρ id p, w.catalogue.member ρ id = some p → v.catalogue.member ρ id = some p)
    (hfile : ∀ ρ id f, w.catalogue.fileById ρ id = some f → v.catalogue.fileById ρ id = some f)
    (hsocket : ∀ p k, w.catalogue.socket p = some k → v.catalogue.socket p = some k)
    (hdownload : ∀ σ f, w.ledger.subscriberFile σ = some f → v.ledger.subscriberFile σ = some f)
    (hroom : w.catalogue.room = v.catalogue.room)
    (hhosted : w.catalogue.hosted = v.catalogue.hosted)
    (hhost : w.catalogue.host = v.catalogue.host) (hlistener : w.listener = v.listener)
    (m n : Node) (h : Owns w m n) : Owns v m n := by
  cases h with
  | member h => exact .member (hmember _ _ _ h)
  | registered h => exact .registered (hfile _ _ _ h)
  | room p =>
      rw [hroom]
      exact .room p
  | socket h => exact .socket (hsocket _ _ h)
  | hosted h => exact .hosted (hhosted ▸ h)
  | host f =>
      rw [hhost]
      exact .host f
  | download h => exact .download (hdownload _ _ h)
  | listener h => exact .listener (hlistener ▸ h)

/-! ### A newcomer -/

section Enter

variable {v : View}

/-- A peer is created with its socket, and enters the room. -/
def View.enter (ρ : RoomRef) (v : View) : View :=
  { v with
    catalogue := (v.catalogue.createPeer v.socketCount ρ).addPeer ρ v.catalogue.peerCount
    listener := Function.update v.listener v.socketCount (some v.catalogue.peerCount)
    socketCount := v.socketCount + 1
    connected := v.connected ++ [v.socketCount]
    live := v.live ++ [.peer v.catalogue.peerCount, .socket v.socketCount] }

/-- The members are those of before and the newcomer. -/
theorem enter_member {ρ ρ' : RoomRef} {id : Int} {q : PeerRef}
    (hq : (v.enter ρ).catalogue.member ρ' id = some q) :
    ρ' = ρ ∧ id = v.catalogue.peerIdCounter ∧ q = v.catalogue.peerCount ∨
      v.catalogue.member ρ' id = some q := by
  rcases eq_or_ne ρ' ρ with rfl | hne
  · rcases eq_or_ne id v.catalogue.peerIdCounter with rfl | hid
    · exact .inl ⟨rfl, rfl, by simpa [View.enter, eq_comm] using hq⟩
    · exact .inr (by simpa [View.enter, hid] using hq)
  · exact .inr (by simpa [View.enter, hne] using hq)

/-- The other peers are as before. -/
theorem enter_peer (ρ : RoomRef) {q : PeerRef} (hne : q ≠ v.catalogue.peerCount) :
    (v.enter ρ).catalogue.room q = v.catalogue.room q ∧
      (v.enter ρ).catalogue.peerId q = v.catalogue.peerId q ∧
        (v.enter ρ).catalogue.socket q = v.catalogue.socket q ∧
          (v.enter ρ).catalogue.hosted q = v.catalogue.hosted q := by
  simp [View.enter, hne]

namespace Orderly

/-- Entering keeps the members. -/
theorem member_enter (h : Orderly v) (ρ : RoomRef) {ρ' : RoomRef} {id : Int} {q : PeerRef}
    (hq : v.catalogue.member ρ' id = some q) : (v.enter ρ).catalogue.member ρ' id = some q := by
  have hid := (h.member ρ' id q hq).2.2.2.1.ne
  rcases eq_or_ne ρ' ρ with rfl | hne
  · simpa [View.enter, hid] using hq
  · simpa [View.enter, hne] using hq

/-- The new socket listens for the newcomer, the others for whom they did. -/
theorem listener_enter (h : Orderly v) {ρ : RoomRef} {k : SocketRef} {q : PeerRef} :
    (v.enter ρ).listener k = some q ↔
      k = v.socketCount ∧ q = v.catalogue.peerCount ∨ v.listener k = some q := by
  rcases eq_or_ne k v.socketCount with rfl | hne
  · have hnone : v.listener v.socketCount ≠ some q := fun hq =>
      lt_irrefl _ (h.listener _ q hq).1
    simp [View.enter, hnone, eq_comm]
  · simp [View.enter, hne]

/-- Entering a room that the lobby holds keeps the order. -/
theorem enter (h : Orderly v) {name : String} {ρ : RoomRef}
    (hρ : v.catalogue.lobby name = some ρ) : Orderly (v.enter ρ) := by
  -- no socket has the peer that enters
  have hnew : ∀ k, v.listener k ≠ some v.catalogue.peerCount := fun k hk =>
    lt_irrefl _ (h.listener k _ hk).2.1
  constructor
  case lobby => exact h.lobby
  -- a member is the new peer, or was a member before
  case member =>
    intro ρ' id q hq
    rcases enter_member hq with ⟨rfl, rfl, rfl⟩ | hq
    · refine ⟨Nat.lt_succ_self _, by simp [View.enter], by simp [View.enter], Int.lt_succ _,
        ⟨name, hρ⟩, v.socketCount, ?_, ?_⟩
      · exact List.mem_append_right _ (List.mem_singleton_self _)
      · exact h.listener_enter.mpr (.inl ⟨rfl, rfl⟩)
    · obtain ⟨hlt, hroom, hid, hcounter, hname, k, hk, hq⟩ := h.member ρ' id q hq
      obtain ⟨hroom', hid', -⟩ := enter_peer ρ hlt.ne
      exact ⟨Nat.lt_succ_of_lt hlt, hroom'.trans hroom, hid'.trans hid,
        hcounter.trans (Int.lt_succ _), hname, k, List.mem_append_left _ hk,
        h.listener_enter.mpr (.inr hq)⟩
  -- the new socket listens for the new peer
  case connected =>
    intro k hk
    rcases List.mem_append.mp hk with hk | hk
    · obtain ⟨q, hq, hpresent⟩ := h.connected k hk
      refine ⟨q, h.listener_enter.mpr (.inr hq), ?_⟩
      obtain ⟨hroom', hid', -⟩ := enter_peer ρ (h.member _ _ q hpresent).1.ne
      show (v.enter ρ).catalogue.member ((v.enter ρ).catalogue.room q)
        ((v.enter ρ).catalogue.peerId q) = some q
      rw [hroom', hid']
      exact h.member_enter ρ hpresent
    · obtain rfl := List.mem_singleton.mp hk
      refine ⟨v.catalogue.peerCount, h.listener_enter.mpr (.inl ⟨rfl, rfl⟩), ?_⟩
      simp [View.enter, Catalogue.Present]
  case listener =>
    intro k q hq
    rcases h.listener_enter.mp hq with ⟨rfl, rfl⟩ | hq
    · refine ⟨Nat.lt_succ_self _, Nat.lt_succ_self _, fun k' hk' => ?_⟩
      rcases h.listener_enter.mp hk' with ⟨rfl, -⟩ | hk'
      · rfl
      · exact absurd hk' (hnew k')
    · obtain ⟨hk, hlt, hinj⟩ := h.listener k q hq
      refine ⟨Nat.lt_succ_of_lt hk, Nat.lt_succ_of_lt hlt, fun k' hk' => ?_⟩
      rcases h.listener_enter.mp hk' with ⟨-, rfl⟩ | hk'
      · exact absurd hq (hnew k)
      · exact hinj k' hk'
  -- the new peer has the new socket
  case socket =>
    intro q k hk
    rcases eq_or_ne q v.catalogue.peerCount with rfl | hne
    · obtain rfl : v.socketCount = k := by simpa [View.enter] using hk
      exact ⟨h.listener_enter.mpr (.inl ⟨rfl, rfl⟩),
        List.mem_append_right _ (List.mem_singleton_self _)⟩
    · have hk : v.catalogue.socket q = some k := (enter_peer ρ hne).2.2.1.symm.trans hk
      obtain ⟨hq, hk⟩ := h.socket q k hk
      exact ⟨h.listener_enter.mpr (.inr hq), List.mem_append_left _ hk⟩

end Orderly

/-- Only the room, the peer and the socket get new pointers. -/
theorem Sound.owned_enter (h : Sound v) {name : String} {ρ : RoomRef}
    (hρ : v.catalogue.lobby name = some ρ) {m n : Node} (hm : m ∈ (v.enter ρ).live)
    (hn : Owns (v.enter ρ) m n) : n ∈ (v.enter ρ).live := by
  -- every object alive but the new peer and socket was alive before
  have hlive : ∀ {m}, m ∈ (v.enter ρ).live → m ≠ .peer v.catalogue.peerCount →
      m ≠ .socket v.socketCount → m ∈ v.live := by
    intro m hm hpeer hsocket
    simpa [View.enter, hpeer, hsocket] using hm
  cases hn with
  | member hp =>
      rcases enter_member hp with ⟨-, -, rfl⟩ | hp
      · exact List.mem_append_right _ (by simp)
      · exact List.mem_append_left _ (h.owned _ _ (hlive hm (by simp) (by simp)) (.member hp))
  | registered hf =>
      exact List.mem_append_left _ (h.owned _ _ (hlive hm (by simp) (by simp)) (.registered hf))
  | room q =>
      refine List.mem_append_left _ ?_
      rcases eq_or_ne q v.catalogue.peerCount with rfl | hne
      -- the room entered is a root: the lobby holds it
      · have hroom : (v.enter ρ).catalogue.room v.catalogue.peerCount = ρ := by simp [View.enter]
        rw [hroom]
        exact h.rooted _ (.lobby hρ)
      · rw [(enter_peer ρ hne).1]
        exact h.owned _ _ (hlive hm (by simpa using hne) (by simp)) (.room q)
  | @socket q k hk =>
      rcases eq_or_ne q v.catalogue.peerCount with rfl | hne
      · obtain rfl : v.socketCount = k := by simpa [View.enter] using hk
        exact List.mem_append_right _ (by simp)
      · have hk : v.catalogue.socket q = some k := (enter_peer ρ hne).2.2.1.symm.trans hk
        exact List.mem_append_left _
          (h.owned _ _ (hlive hm (by simpa using hne) (by simp)) (.socket hk))
  | @hosted q f hf =>
      rcases eq_or_ne q v.catalogue.peerCount with rfl | hne
      · simp [View.enter] at hf
      · rw [(enter_peer ρ hne).2.2.2] at hf
        exact List.mem_append_left _
          (h.owned _ _ (hlive hm (by simpa using hne) (by simp)) (.hosted hf))
  | host f => exact List.mem_append_left _ (h.owned _ _ (hlive hm (by simp) (by simp)) (.host f))
  | download hf =>
      exact List.mem_append_left _ (h.owned _ _ (hlive hm (by simp) (by simp)) (.download hf))
  | @listener k q hq =>
      rcases h.orderly.listener_enter.mp hq with ⟨-, rfl⟩ | hq
      · exact List.mem_append_right _ (by simp)
      · have hne : k ≠ v.socketCount := (h.orderly.listener k q hq).1.ne
        exact List.mem_append_left _
          (h.owned _ _ (hlive hm (by simp) (by simpa using hne)) (.listener hq))

end Enter

namespace Sound

variable {v : View}

/-- No pointer of a live object dangles. -/
theorem closed {s : State} (h : Sound s.view) : s.heap.Closed := by
  intro n hn
  rcases owned_iff.mp hn with hn | ⟨m, hm, hn⟩
  · exact h.rooted n hn
  · exact h.owned m n hm hn

/-! ### Joining -/

/-- A room is created under a name that is free. -/
theorem createRoom (h : Sound v) {name : String} (hname : v.catalogue.lobby name = none) :
    Sound { v with
      catalogue := v.catalogue.createRoom name
      ledger := { v.ledger with
        roomName := Function.update v.ledger.roomName v.catalogue.roomCount name
        eventRoomCreated := v.ledger.eventRoomCreated + 1 }
      live := v.live ++ [.room v.catalogue.roomCount] } := by
  have hmember : ∀ ρ id p, (v.catalogue.createRoom name).member ρ id = some p →
      v.catalogue.member ρ id = some p := by
    intro ρ id p hp
    rcases eq_or_ne ρ v.catalogue.roomCount with rfl | hne
    · simp at hp
    · simpa [hne] using hp
  have hfile : ∀ ρ id f, (v.catalogue.createRoom name).fileById ρ id = some f →
      v.catalogue.fileById ρ id = some f := by
    intro ρ id f hf
    rcases eq_or_ne ρ v.catalogue.roomCount with rfl | hne
    · simp at hf
    · simpa [hne] using hf
  have hlobby : ∀ n ρ, (v.catalogue.createRoom name).lobby n = some ρ →
      n = name ∧ ρ = v.catalogue.roomCount ∨ n ≠ name ∧ v.catalogue.lobby n = some ρ := by
    intro n ρ hρ
    rcases eq_or_ne n name with rfl | hne
    · exact .inl ⟨rfl, by simpa [eq_comm] using hρ⟩
    · exact .inr ⟨hne, by simpa [hne] using hρ⟩
  refine ⟨⟨?_, ?_, ?_, h.orderly.listener, h.orderly.socket⟩, ?_, ?_, ?_, ?_, ?_⟩
  · intro n ρ hρ
    rcases hlobby n ρ hρ with ⟨rfl, rfl⟩ | ⟨-, hρ⟩
    · exact ⟨Nat.lt_succ_self _, Function.update_self _ _ _⟩
    · obtain ⟨hlt, hn⟩ := h.orderly.lobby n ρ hρ
      exact ⟨Nat.lt_succ_of_lt hlt, (Function.update_of_ne hlt.ne _ _).trans hn⟩
  · intro ρ id p hp
    obtain ⟨hlt, hroom, hid, hcounter, ⟨n, hn⟩, hk⟩ := h.orderly.member ρ id p (hmember ρ id p hp)
    refine ⟨hlt, hroom, hid, hcounter, ⟨n, ?_⟩, hk⟩
    have hne : n ≠ name := by
      rintro rfl
      rw [hname] at hn
      cases hn
    simpa [hne] using hn
  · intro k hk
    obtain ⟨p, hp, hpresent⟩ := h.orderly.connected k hk
    refine ⟨p, hp, ?_⟩
    -- the room of a member is not the new one
    obtain ⟨-, -, -, -, ⟨n, hn⟩, -⟩ := h.orderly.member _ _ p hpresent
    have hne := (h.orderly.lobby n _ hn).1.ne
    simpa [Catalogue.Present, hne] using hpresent
  · rintro n (hρ | hk | hk | ⟨hσ, hf⟩)
    · rcases hlobby _ _ hρ with ⟨-, rfl⟩ | ⟨-, hρ⟩
      · exact List.mem_append_right _ (List.mem_singleton_self _)
      · exact List.mem_append_left _ (h.rooted _ (.lobby hρ))
    · exact List.mem_append_left _ (h.rooted _ (.connected hk))
    · exact List.mem_append_left _ (h.rooted _ (.closing hk))
    · exact List.mem_append_left _ (h.rooted _ (.response hσ hf))
  · intro m n hm hn
    refine List.mem_append_left _ ?_
    rcases List.mem_append.mp hm with hm | hm
    · cases hn with
      | member hp => exact h.owned _ _ hm (.member (hmember _ _ _ hp))
      | registered hf => exact h.owned _ _ hm (.registered (hfile _ _ _ hf))
      | room p => exact h.owned _ _ hm (.room p)
      | socket hk => exact h.owned _ _ hm (.socket hk)
      | hosted hf => exact h.owned _ _ hm (.hosted hf)
      | host f => exact h.owned _ _ hm (.host f)
      | download hf => exact h.owned _ _ hm (.download hf)
      | listener hp => exact h.owned _ _ hm (.listener hp)
    · -- the new room is empty
      obtain rfl := List.mem_singleton.mp hm
      cases hn with
      | member hp => simp at hp
      | registered hf => simp at hf
  · intro f
    simpa using h.file f
  · intro f hf
    obtain ⟨hlt, hlive, hhosted⟩ := h.host f hf
    exact ⟨hlt, List.mem_append_left _ hlive, hhosted⟩
  · have hcounted := h.counted
    simp only [List.countP_append, List.countP_singleton, Node.isRoom, if_true]
    omega

/-- A peer and its socket are created, and the peer enters the room. -/
theorem addPeer (h : Sound v) {name : String} {ρ : RoomRef}
    (hρ : v.catalogue.lobby name = some ρ) :
    Sound { v with
      catalogue := (v.catalogue.createPeer v.socketCount ρ).addPeer ρ v.catalogue.peerCount
      listener := Function.update v.listener v.socketCount (some v.catalogue.peerCount)
      socketCount := v.socketCount + 1
      connected := v.connected ++ [v.socketCount]
      live := v.live ++ [.peer v.catalogue.peerCount, .socket v.socketCount] } := by
  show Sound (v.enter ρ)
  constructor
  case orderly => exact h.orderly.enter hρ
  case rooted =>
    rintro n (hρ | hk | hk | ⟨hσ, hf⟩)
    · exact List.mem_append_left _ (h.rooted _ (.lobby hρ))
    · rcases List.mem_append.mp hk with hk | hk
      · exact List.mem_append_left _ (h.rooted _ (.connected hk))
      · obtain rfl := List.mem_singleton.mp hk
        exact List.mem_append_right _ (by simp)
    · exact List.mem_append_left _ (h.rooted _ (.closing hk))
    · exact List.mem_append_left _ (h.rooted _ (.response hσ hf))
  case owned => exact fun m n => h.owned_enter hρ
  case file => exact fun f => by simpa [View.enter] using h.file f
  case host =>
    intro f hf
    obtain ⟨hlt, hlive, hhosted⟩ := h.host f hf
    refine ⟨Nat.lt_succ_of_lt hlt, List.mem_append_left _ hlive, ?_⟩
    show f ∈ (v.enter ρ).catalogue.hosted (v.catalogue.host f)
    rw [(enter_peer ρ hlt.ne).2.2.2]
    exact hhosted
  case counted =>
    have hcounted := h.counted
    simpa [View.enter, List.countP_append, Node.isRoom] using hcounted

/-! ### Sharing and downloading -/

/-- A member is alive: its socket is. -/
theorem live_of_member (h : Sound v) {ρ : RoomRef} {id : Int} {p : PeerRef}
    (hp : v.catalogue.member ρ id = some p) : .peer p ∈ v.live := by
  obtain ⟨-, -, -, -, -, k, hk, hp⟩ := h.orderly.member ρ id p hp
  exact h.owned _ _ (h.rooted _ (.connected hk)) (.listener hp)

/-- A file of a member is registered. -/
theorem registerFile (h : Sound v) {ρ : RoomRef} {id : Int} {host : PeerRef}
    (hhost : v.catalogue.member ρ id = some host) (clientFileId fileSize : Int) :
    Sound { v with
      catalogue := v.catalogue.registerFile ρ host clientFileId fileSize
      live := v.live ++ [.file v.catalogue.fileCount] } := by
  let c := v.catalogue.registerFile ρ host clientFileId fileSize
  -- the table of the room has one more entry, and so has the list of the host
  have hfile : ∀ ρ' id f, c.fileById ρ' id = some f →
      f = v.catalogue.fileCount ∨ v.catalogue.fileById ρ' id = some f := by
    intro ρ' id f hf
    rcases eq_or_ne ρ' ρ with rfl | hne
    · rcases eq_or_ne id (v.catalogue.fileIdCounter ρ') with rfl | hid
      · exact .inl (by simpa [c, eq_comm] using hf)
      · exact .inr (by simpa [c, hid] using hf)
    · exact .inr (by simpa [c, hne] using hf)
  have hhosted : ∀ p f, f ∈ c.hosted p ↔
      f ∈ v.catalogue.hosted p ∨ p = host ∧ f = v.catalogue.fileCount := by
    intro p f
    rcases eq_or_ne p host with rfl | hne
    · simp [c]
    · simp [c, hne]
  have hlast : .file v.catalogue.fileCount ∈ v.live ++ [Node.file v.catalogue.fileCount] :=
    List.mem_append_right _ (List.mem_singleton_self _)
  -- the roots are the same, the new file is owned by its room and by its host
  refine ⟨⟨h.orderly.lobby, h.orderly.member, h.orderly.connected, h.orderly.listener,
    h.orderly.socket⟩, ?_, ?_, ?_, ?_, ?_⟩
  · rintro n (hρ | hk | hk | ⟨hσ, hf⟩)
    · exact List.mem_append_left _ (h.rooted _ (.lobby hρ))
    · exact List.mem_append_left _ (h.rooted _ (.connected hk))
    · exact List.mem_append_left _ (h.rooted _ (.closing hk))
    · exact List.mem_append_left _ (h.rooted _ (.response hσ hf))
  -- an owner that lives is the new file, or lived before
  · intro m n hm hn
    have hlive : ∀ {m}, m ∈ v.live ++ [.file v.catalogue.fileCount] →
        m ≠ .file v.catalogue.fileCount → m ∈ v.live := by
      intro m hm hne
      simpa [hne] using hm
    cases hn with
    | member hp => exact List.mem_append_left _ (h.owned _ _ (hlive hm (by simp)) (.member hp))
    | registered hf =>
        rcases hfile _ _ _ hf with rfl | hf
        · exact hlast
        · exact List.mem_append_left _ (h.owned _ _ (hlive hm (by simp)) (.registered hf))
    | room p => exact List.mem_append_left _ (h.owned _ _ (hlive hm (by simp)) (.room p))
    | socket hk => exact List.mem_append_left _ (h.owned _ _ (hlive hm (by simp)) (.socket hk))
    | hosted hf =>
        rcases (hhosted _ _).mp hf with hf | ⟨rfl, rfl⟩
        · exact List.mem_append_left _ (h.owned _ _ (hlive hm (by simp)) (.hosted hf))
        · exact hlast
    -- the new file owns its host, which is a member and so lives
    | host f =>
        refine List.mem_append_left _ ?_
        rcases eq_or_ne f v.catalogue.fileCount with rfl | hne
        · have heq : c.host v.catalogue.fileCount = host := by simp [c]
          rw [heq]
          exact h.live_of_member hhost
        · have heq : c.host f = v.catalogue.host f := by simp [c, hne]
          rw [heq]
          exact h.owned _ _ (hlive hm (by simpa using hne)) (.host f)
    | download hf => exact List.mem_append_left _ (h.owned _ _ (hlive hm (by simp)) (.download hf))
    | listener hp => exact List.mem_append_left _ (h.owned _ _ (hlive hm (by simp)) (.listener hp))
  · intro f
    have hf := h.file f
    simp only [List.mem_append, List.mem_singleton, Node.file.injEq, hf,
      Catalogue.registerFile_fileCount]
    exact Nat.lt_succ_iff_lt_or_eq.symm
  · intro f hf
    rcases eq_or_ne f v.catalogue.fileCount with rfl | hne
    · have heq : c.host v.catalogue.fileCount = host := by simp [c]
      show c.host _ < _ ∧ Node.peer (c.host _) ∈ _ ∧ _ ∈ c.hosted (c.host _)
      rw [heq]
      exact ⟨(h.orderly.member ρ id host hhost).1, List.mem_append_left _ (h.live_of_member hhost),
        (hhosted _ _).mpr (.inr ⟨rfl, rfl⟩)⟩
    · have heq : c.host f = v.catalogue.host f := by simp [c, hne]
      obtain ⟨hlt, hlive, hmem⟩ := h.host f ((Nat.lt_succ_iff_lt_or_eq.mp hf).resolve_right hne)
      show c.host _ < _ ∧ Node.peer (c.host _) ∈ _ ∧ _ ∈ c.hosted (c.host _)
      rw [heq]
      exact ⟨hlt, List.mem_append_left _ hlive, (hhosted _ _).mpr (.inl hmem)⟩
  · have hcounted := h.counted
    simpa [List.countP_append, Node.isRoom] using hcounted

/-- A message shares any number of files. -/
theorem share (h : Sound v) {c : Catalogue}
    (hc : Relation.ReflTransGen Catalogue.Shares v.catalogue c) :
    Sound { v with
      catalogue := c
      live := v.live ++ (List.range' v.catalogue.fileCount
        (c.fileCount - v.catalogue.fileCount)).map .file } ∧
      v.catalogue.fileCount ≤ c.fileCount ∧ c.roomCount = v.catalogue.roomCount ∧
      c.peerCount = v.catalogue.peerCount ∧ c.lobby = v.catalogue.lobby ∧
      c.member = v.catalogue.member := by
  induction hc with
  | refl =>
      refine ⟨?_, le_rfl, rfl, rfl, rfl, rfl⟩
      rw [Nat.sub_self, List.range'_zero, List.map_nil, List.append_nil]
      exact h
  | @tail c d _ hd ih =>
      obtain ⟨hc, hle, hrooms, hpeers, hlobby, hmember⟩ := ih
      obtain ⟨ρ, id, host, clientFileId, fileSize, hhost, rfl⟩ := hd
      refine ⟨?_, Nat.le_succ_of_le hle, hrooms, hpeers, hlobby, hmember⟩
      have hregistered := hc.registerFile hhost clientFileId fileSize
      rw [List.append_assoc] at hregistered
      have hlast : (c.registerFile ρ host clientFileId fileSize).fileCount -
          v.catalogue.fileCount = (c.fileCount - v.catalogue.fileCount) + 1 := by
        rw [Catalogue.registerFile_fileCount]
        omega
      rw [hlast, List.range'_1_concat, List.map_append, List.map_singleton,
        Nat.add_sub_cancel' hle]
      exact hregistered

/-- A download of a live file starts. -/
theorem subscribe (h : Sound v) {f : FileRef} (hf : .file f ∈ v.live) :
    Sound { v with
      ledger := { v.ledger with
        subscriberFile := Function.update v.ledger.subscriberFile v.ledger.subscriberCount (some f)
        subscriberCount := v.ledger.subscriberCount + 1 }
      live := v.live ++ [.subscriber v.ledger.subscriberCount] } := by
  refine ⟨⟨h.orderly.lobby, h.orderly.member, h.orderly.connected, h.orderly.listener,
    h.orderly.socket⟩, ?_, ?_, ?_, ?_, ?_⟩
  · rintro n (hρ | hk | hk | @⟨σ, g, hσ, hg⟩)
    · exact List.mem_append_left _ (h.rooted _ (.lobby hρ))
    · exact List.mem_append_left _ (h.rooted _ (.connected hk))
    · exact List.mem_append_left _ (h.rooted _ (.closing hk))
    -- the new subscriber is held by its own response
    · rcases eq_or_ne σ v.ledger.subscriberCount with rfl | hne
      · exact List.mem_append_right _ (List.mem_singleton_self _)
      · have hg : v.ledger.subscriberFile σ = some g := by simpa [hne] using hg
        have hlt : σ < v.ledger.subscriberCount :=
          (Nat.lt_succ_iff_lt_or_eq.mp hσ).resolve_right hne
        exact List.mem_append_left _ (h.rooted _ (.response hlt hg))
  · intro m n hm hn
    refine List.mem_append_left _ ?_
    -- every other object alive was alive before
    have hlive : ∀ {m}, m ∈ v.live ++ [.subscriber v.ledger.subscriberCount] →
        m ≠ .subscriber v.ledger.subscriberCount → m ∈ v.live := by
      intro m hm hne
      simpa [hne] using hm
    cases hn with
    | member hp => exact h.owned _ _ (hlive hm (by simp)) (.member hp)
    | registered hf => exact h.owned _ _ (hlive hm (by simp)) (.registered hf)
    | room p => exact h.owned _ _ (hlive hm (by simp)) (.room p)
    | socket hk => exact h.owned _ _ (hlive hm (by simp)) (.socket hk)
    | hosted hf => exact h.owned _ _ (hlive hm (by simp)) (.hosted hf)
    | host f => exact h.owned _ _ (hlive hm (by simp)) (.host f)
    | @download σ g hg =>
        rcases eq_or_ne σ v.ledger.subscriberCount with rfl | hne
        -- the file of the new subscriber is alive by assumption
        · obtain rfl : f = g := by simpa using hg
          exact hf
        · have hg : v.ledger.subscriberFile σ = some g := by simpa [hne] using hg
          exact h.owned _ _ (hlive hm (by simpa using hne)) (.download hg)
    | listener hp => exact h.owned _ _ (hlive hm (by simp)) (.listener hp)
  · intro g
    simpa using h.file g
  · intro g hg
    obtain ⟨hlt, hlive, hhosted⟩ := h.host g hg
    exact ⟨hlt, List.mem_append_left _ hlive, hhosted⟩
  · have hcounted := h.counted
    simpa [List.countP_append, Node.isRoom] using hcounted

/-! ### Pointers are given up -/

/-- Nothing is created, and every pointer was there before. -/
theorem shrink (h : Sound v) {w : View} (horderly : Orderly w)
    (hrooted : ∀ n, Rooted w n → Rooted v n) (howns : ∀ m n, Owns w m n → Owns v m n)
    (hlive : w.live = v.live) (hfileCount : w.catalogue.fileCount = v.catalogue.fileCount)
    (hpeerCount : w.catalogue.peerCount = v.catalogue.peerCount)
    (hhost : w.catalogue.host = v.catalogue.host)
    (hhosted : w.catalogue.hosted = v.catalogue.hosted)
    (hdeleted : w.ledger.eventRoomDeleted = v.ledger.eventRoomDeleted)
    (hcreated : w.ledger.eventRoomCreated = v.ledger.eventRoomCreated) : Sound w where
  orderly := horderly
  rooted n hn := by
    rw [hlive]
    exact h.rooted n (hrooted n hn)
  owned m n hm hn := by
    rw [hlive] at hm ⊢
    exact h.owned m n hm (howns m n hn)
  file f := by
    rw [hlive, hfileCount]
    exact h.file f
  host f hf := by
    rw [hfileCount] at hf
    rw [hhost, hpeerCount, hlive, hhosted]
    exact h.host f hf
  counted := by
    rw [hdeleted, hlive, hcreated]
    exact h.counted

/-- Pings may take sockets away. -/
theorem ping (h : Sound v) {socket : PeerRef → Option SocketRef}
    (hsocket : ∀ p k, socket p = some k → v.catalogue.socket p = some k) :
    Sound { v with catalogue := { v.catalogue with socket } } := by
  refine h.shrink ⟨h.orderly.lobby, h.orderly.member, h.orderly.connected, h.orderly.listener,
    fun p k hk => h.orderly.socket p k (hsocket p k hk)⟩ ?_ ?_ rfl rfl rfl rfl rfl rfl rfl
  · rintro n (hρ | hk | hk | ⟨hσ, hf⟩)
    · exact .lobby hρ
    · exact .connected hk
    · exact .closing hk
    · exact .response hσ hf
  · exact owns_of_subset (fun _ _ _ h => h) (fun _ _ _ h => h) hsocket (fun _ _ h => h)
      rfl rfl rfl rfl

/-- A socket that is closing goes. -/
theorem dropSocket (h : Sound v) (k : SocketRef) :
    Sound { v with closing := v.closing.filter (· ≠ k) } := by
  refine h.shrink ⟨h.orderly.lobby, h.orderly.member, h.orderly.connected, h.orderly.listener,
    h.orderly.socket⟩ ?_ ?_ rfl rfl rfl rfl rfl rfl rfl
  · rintro n (hρ | hk | hk | ⟨hσ, hf⟩)
    · exact .lobby hρ
    · exact .connected hk
    · exact .closing (List.mem_filter.mp hk).1
    · exact .response hσ hf
  · exact owns_of_subset (fun _ _ _ h => h) (fun _ _ _ h => h) (fun _ _ h => h) (fun _ _ h => h)
      rfl rfl rfl rfl

/-- A subscriber goes. -/
theorem drop (h : Sound v) (σ : SubscriberRef) :
    Sound { v with ledger := { v.ledger with
      subscriberFile := Function.update v.ledger.subscriberFile σ none } } := by
  have hfile : ∀ τ f, Function.update v.ledger.subscriberFile σ none τ = some f →
      v.ledger.subscriberFile τ = some f := by
    intro τ f hf
    rcases eq_or_ne τ σ with rfl | hne
    · simp at hf
    · simpa [hne] using hf
  refine h.shrink ⟨h.orderly.lobby, h.orderly.member, h.orderly.connected, h.orderly.listener,
    h.orderly.socket⟩ ?_ ?_ rfl rfl rfl rfl rfl rfl rfl
  · rintro n (hρ | hk | hk | ⟨hσ, hf⟩)
    · exact .lobby hρ
    · exact .connected hk
    · exact .closing hk
    · exact .response hσ (hfile _ _ hf)
  · exact owns_of_subset (fun _ _ _ h => h) (fun _ _ _ h => h) (fun _ _ h => h) hfile
      rfl rfl rfl rfl

/-- A peer leaves its room and gives up its socket, and some files are
cancelled. -/
theorem leave (h : Sound v) {k : SocketRef} {p : PeerRef} (hk : k ∈ v.connected)
    (hp : v.listener k = some p) {fileById : RoomRef → Int → Option FileRef}
    (hfile : ∀ ρ id f, fileById ρ id = some f → v.catalogue.fileById ρ id = some f) :
    Sound { v with
      catalogue := (({ v.catalogue with fileById }).erasePeer (v.catalogue.room p)
        (v.catalogue.peerId p)).disconnect p
      connected := v.connected.filter (· ≠ k)
      closing := v.closing ++ [k] } := by
  let c := (({ v.catalogue with fileById }).erasePeer (v.catalogue.room p)
    (v.catalogue.peerId p)).disconnect p
  have hpresent : v.catalogue.Present p := by
    obtain ⟨q, hq, hpresent⟩ := h.orderly.connected k hk
    rwa [Option.some.inj (hq.symm.trans hp)] at hpresent
  have hmember : ∀ ρ id q, c.member ρ id = some q ↔ v.catalogue.member ρ id = some q ∧ q ≠ p := by
    intro ρ id q
    have hother : ∀ {q}, v.catalogue.member ρ id = some q →
        (q = p ↔ ρ = v.catalogue.room p ∧ id = v.catalogue.peerId p) := by
      intro q hq
      obtain ⟨-, hroom, hid, -⟩ := h.orderly.member ρ id q hq
      constructor
      · rintro rfl
        exact ⟨hroom.symm, hid.symm⟩
      · rintro ⟨rfl, rfl⟩
        exact Option.some.inj (hq.symm.trans hpresent)
    rcases eq_or_ne ρ (v.catalogue.room p) with rfl | hne
    · rcases eq_or_ne id (v.catalogue.peerId p) with rfl | hid
      · have hnone : c.member (v.catalogue.room p) (v.catalogue.peerId p) = none := by simp [c]
        rw [hnone]
        refine ⟨fun hq => (nomatch hq), fun ⟨hq, hne⟩ => ?_⟩
        exact absurd ((hother hq).mpr ⟨rfl, rfl⟩) hne
      · have hsame :
            c.member (v.catalogue.room p) id = v.catalogue.member (v.catalogue.room p) id := by
          simp [c, hid]
        rw [hsame]
        exact ⟨fun hq => ⟨hq, fun heq => hid ((hother hq).mp heq).2⟩, And.left⟩
    · have hsame : c.member ρ id = v.catalogue.member ρ id := by simp [c, hne]
      rw [hsame]
      exact ⟨fun hq => ⟨hq, fun heq => hne ((hother hq).mp heq).1⟩, And.left⟩
  have hsocket : ∀ q k, c.socket q = some k → q ≠ p ∧ v.catalogue.socket q = some k := by
    intro q k hq
    rcases eq_or_ne q p with rfl | hne
    · simp [c] at hq
    · exact ⟨hne, by simpa [c, hne] using hq⟩
  -- the sockets of the others stay connected
  have hstays : ∀ {q k'}, v.listener k' = some q → q ≠ p → k' ∈ v.connected →
      k' ∈ v.connected.filter (· ≠ k) := by
    intro q k' hq hne hk'
    refine List.mem_filter.mpr ⟨hk', decide_eq_true ?_⟩
    rintro rfl
    exact hne (Option.some.inj (hq.symm.trans hp))
  refine h.shrink
    ⟨h.orderly.lobby, ?_, ?_, h.orderly.listener, ?_⟩ ?_ ?_ rfl rfl rfl rfl rfl rfl rfl
  · intro ρ id q hq
    obtain ⟨hq, hne⟩ := (hmember ρ id q).mp hq
    obtain ⟨hlt, hroom, hid, hcounter, hname, k', hk', hl⟩ := h.orderly.member ρ id q hq
    exact ⟨hlt, hroom, hid, hcounter, hname, k', hstays hl hne hk', hl⟩
  · intro k' hk'
    obtain ⟨hk', hne⟩ := List.mem_filter.mp hk'
    obtain ⟨q, hq, hpresent⟩ := h.orderly.connected k' hk'
    refine ⟨q, hq, (hmember _ _ q).mpr ⟨hpresent, ?_⟩⟩
    rintro rfl
    exact of_decide_eq_true hne ((h.orderly.listener k q hp).2.2 k' hq)
  · intro q k' hq
    obtain ⟨hne, hq⟩ := hsocket q k' hq
    obtain ⟨hl, hk'⟩ := h.orderly.socket q k' hq
    exact ⟨hl, hstays hl hne hk'⟩
  · rintro n (hρ | hk' | hk' | ⟨hσ, hf⟩)
    · exact .lobby hρ
    · exact .connected (List.mem_filter.mp hk').1
    · rcases List.mem_append.mp hk' with hk' | hk'
      · exact .closing hk'
      · obtain rfl := List.mem_singleton.mp hk'
        exact .connected hk
    · exact .response hσ hf
  · exact owns_of_subset (fun ρ id q hq => ((hmember ρ id q).mp hq).1) hfile
      (fun q k' hq => (hsocket q k' hq).2) (fun _ _ h => h) rfl rfl rfl rfl

/-- A room without members leaves the lobby. -/
theorem deleteRoom (h : Sound v) {ρ : RoomRef} {name : String}
    (hρ : v.catalogue.lobby name = some ρ) (hempty : ∀ id, v.catalogue.member ρ id = none) :
    Sound { v with catalogue := v.catalogue.deleteRoom name } := by
  have hlobby : ∀ n ρ', (v.catalogue.deleteRoom name).lobby n = some ρ' ↔
      n ≠ name ∧ v.catalogue.lobby n = some ρ' := by
    intro n ρ'
    rcases eq_or_ne n name with rfl | hne
    · simp
    · simp [hne]
  refine h.shrink ⟨?_, ?_, h.orderly.connected, h.orderly.listener, h.orderly.socket⟩ ?_ ?_
    rfl rfl rfl rfl rfl rfl rfl
  · intro n ρ' hρ'
    exact h.orderly.lobby n ρ' ((hlobby n ρ').mp hρ').2
  · intro ρ' id p hp
    obtain ⟨hlt, hroom, hid, hcounter, ⟨n, hn⟩, hk⟩ := h.orderly.member ρ' id p hp
    refine ⟨hlt, hroom, hid, hcounter, ⟨n, (hlobby n ρ').mpr ⟨?_, hn⟩⟩, hk⟩
    rintro rfl
    obtain rfl := Option.some.inj (hρ.symm.trans hn)
    exact absurd ((hempty id).symm.trans hp) (by simp)
  · rintro n (hn | hk | hk | ⟨hσ, hf⟩)
    · exact .lobby ((hlobby _ _).mp hn).2
    · exact .connected hk
    · exact .closing hk
    · exact .response hσ hf
  · exact owns_of_subset (fun _ _ _ h => h) (fun _ _ _ h => h) (fun _ _ h => h) (fun _ _ h => h)
      rfl rfl rfl rfl

/-! ### Deleting -/

/-- Collecting is releasing on the heap. -/
theorem heap_collect (s : State) : s.collect.heap = s.heap.release :=
  RefCount.Heap.ext s.heap.release_roots.symm s.heap.release_fields.symm rfl

/-- A file and its host point to each other, and so they stay. -/
theorem host_survives {s : State} (h : Sound s.view) {f : FileRef}
    (hf : f < s.view.catalogue.fileCount) :
    .file f ∈ s.heap.release.live ∧ .peer (s.view.catalogue.host f) ∈ s.heap.release.live := by
  obtain ⟨-, hlive, hhosted⟩ := h.host f hf
  let pair : Node → Prop := fun n => n = .file f ∨ n = .peer (s.view.catalogue.host f)
  have hpair : ∀ n, pair n → n ∈ s.heap.release.live := by
    intro n hn
    refine RefCount.Heap.mem_release_iff.mpr ⟨pair, hn, ?_, ?_⟩
    · rintro m (rfl | rfl)
      · exact (h.file f).mpr hf
      · exact hlive
    · rintro m (rfl | rfl)
      · exact .inr ⟨_, .inr rfl, mem_fields.mpr (.hosted hhosted)⟩
      · exact .inr ⟨_, .inl rfl, mem_fields.mpr (.host f)⟩
  exact ⟨hpair _ (.inl rfl), hpair _ (.inr rfl)⟩

/-- What is collected leaves no dangling pointer. -/
theorem collect {s : State} (h : Sound s.view) : Sound s.collect.view := by
  have hclosed : s.collect.heap.Closed := by
    rw [heap_collect]
    exact h.closed.release
  have hsublist : s.collect.live.Sublist s.live := s.heap.release_sublist
  refine ⟨⟨h.orderly.lobby, h.orderly.member, h.orderly.connected, h.orderly.listener,
    h.orderly.socket⟩, ?_, ?_, ?_, ?_, ?_⟩
  · intro n hn
    exact hclosed n (owned_iff.mpr (.inl hn))
  · intro m n hm hn
    exact hclosed n (owned_iff.mpr (.inr ⟨m, hm, hn⟩))
  · intro f
    exact ⟨fun hf => (h.file f).mp (hsublist.subset hf), fun hf => (h.host_survives hf).1⟩
  · intro f hf
    obtain ⟨hlt, -, hhosted⟩ := h.host f hf
    exact ⟨hlt, (h.host_survives hf).2, hhosted⟩
  · have hcounted : s.view.ledger.eventRoomDeleted + s.live.countP Node.isRoom =
        s.view.ledger.eventRoomCreated := h.counted
    have hle := hsublist.countP_le (p := Node.isRoom)
    show s.view.ledger.eventRoomDeleted + (s.live.countP Node.isRoom -
      s.collect.live.countP Node.isRoom) + s.collect.live.countP Node.isRoom = _
    have hcreated : s.collect.view.ledger.eventRoomCreated = s.view.ledger.eventRoomCreated := rfl
    omega

end Sound

/-! ### Steps -/

section Steps

variable {fw : Framework} {config : ConfigDto} {s t : State}

theorem created_eq (s t : State) {r p f σ k : ℕ}
    (hroom : t.server.roomCount = s.server.roomCount + r)
    (hpeer : t.server.peerCount = s.server.peerCount + p)
    (hfile : t.server.fileCount = s.server.fileCount + f)
    (hsubscriber : t.server.subscriberCount = s.server.subscriberCount + σ)
    (hsocket : t.socketCount = s.socketCount + k) :
    s.created t = (List.range' s.server.roomCount r).map .room ++
      (List.range' s.server.peerCount p).map .peer ++
      (List.range' s.server.fileCount f).map .file ++
      (List.range' s.server.subscriberCount σ).map .subscriber ++
      (List.range' s.socketCount k).map .socket := by
  simp only [State.created, hroom, hpeer, hfile, hsubscriber, hsocket, Nat.add_sub_cancel_left]

/-- The view of `enter` for a handler that creates nothing. -/
theorem enter_view (hlive : t.live = s.live)
    (hroom : t.view.catalogue.roomCount = s.view.catalogue.roomCount)
    (hpeer : t.view.catalogue.peerCount = s.view.catalogue.peerCount)
    (hfile : t.view.catalogue.fileCount = s.view.catalogue.fileCount)
    (hsubscriber : t.view.ledger.subscriberCount = s.view.ledger.subscriberCount)
    (hsocket : t.view.socketCount = s.view.socketCount) : (s.enter t).view = t.view := by
  have hcreated : s.created t = [] := created_eq s t (r := 0) (p := 0) (f := 0) (σ := 0) (k := 0)
    hroom hpeer hfile hsubscriber hsocket
  refine View.ext rfl rfl rfl rfl rfl rfl ?_
  show s.live ++ s.created t = t.live
  rw [hcreated, List.append_nil, hlive]

/-- A handler that creates nothing. -/
theorem Sound.enter_of_view {w : View} (hw : Sound w) (ho : Occupied w.catalogue)
    (hview : t.view = w) (hlive : w.live = s.view.live)
    (hroom : w.catalogue.roomCount = s.view.catalogue.roomCount)
    (hpeer : w.catalogue.peerCount = s.view.catalogue.peerCount)
    (hfile : w.catalogue.fileCount = s.view.catalogue.fileCount)
    (hsubscriber : w.ledger.subscriberCount = s.view.ledger.subscriberCount)
    (hsocket : w.socketCount = s.view.socketCount) :
    Sound (s.enter t).view ∧ Occupied (s.enter t).view.catalogue := by
  subst hview
  rw [enter_view hlive hroom hpeer hfile hsubscriber hsocket]
  exact ⟨hw, ho⟩

/-- The newcomer's room has a member, whatever it had before. -/
theorem occupied_addPeer {c : Catalogue} {socket : SocketRef} {ρ : RoomRef}
    (hc : ∀ name ρ', c.lobby name = some ρ' → ρ' = ρ ∨ ∃ id p, c.member ρ' id = some p) :
    Occupied ((c.createPeer socket ρ).addPeer ρ c.peerCount) := by
  intro name ρ' hname
  rcases eq_or_ne ρ' ρ with rfl | hne
  · exact ⟨c.peerIdCounter, c.peerCount, by simp⟩
  · obtain ⟨id, p, hp⟩ := (hc name ρ' hname).resolve_left hne
    exact ⟨id, p, by simpa [hne] using hp⟩

/-- A newcomer, before anything is freed. -/
theorem Sound.enter_join (h : Sound s.view) (ho : Occupied s.view.catalogue)
    {roomName nickname : String} (hstep : s.handle fw config (.join roomName nickname) = some t) :
    Sound (s.enter t).view ∧ Occupied (s.enter t).view.catalogue := by
  obtain ⟨hlobby, hnew, hcatalogue⟩ :=
    catalogue_entered s.server config s.socketCount roomName nickname
  have hledger := ledger_onAfterCreateNonBlocking s.server config s.socketCount roomName nickname
  have hroom := catalogue_getOrCreateRoom (Lobby.countConnected s.server) roomName
  have hrooms := ledger_getOrCreateRoom (Lobby.countConnected s.server) roomName
  generalize Lobby.getOrCreateRoom roomName (Lobby.countConnected s.server) = entered at *
  obtain ⟨ρ, s'⟩ := entered
  dsimp only at hlobby hnew hcatalogue hledger hroom hrooms
  have hserver : t.server = (Lobby.onAfterCreateNonBlocking config s.socketCount roomName nickname
      s.server).2 := by
    obtain rfl := Option.some.inj hstep
    rfl
  have hlistener : t.listener = Function.update s.listener s.socketCount
      (some s'.catalogue.peerCount) := by
    rw [← hnew]
    obtain rfl := Option.some.inj hstep
    rfl
  obtain ⟨hsocket, hconnected, hclosing⟩ : t.socketCount = s.socketCount + 1 ∧
      t.connected = s.connected ++ [s.socketCount] ∧ t.closing = s.closing := by
    obtain rfl := Option.some.inj hstep
    exact ⟨rfl, rfl, rfl⟩
  rw [← hserver] at hcatalogue hledger
  have hcount : (Lobby.countConnected s.server).catalogue = s.view.catalogue := rfl
  rw [hcount] at hroom
  rcases hname : Lobby.getRoom roomName (Lobby.countConnected s.server) with - | ρ₀
  · -- the room is new
    rw [hname] at hroom hrooms
    dsimp only at hroom hrooms
    rw [hroom] at hcatalogue hlobby hlistener
    rw [hrooms] at hledger
    have hcreated := created_eq s t (r := 1) (p := 1) (f := 0) (σ := 0) (k := 1)
      (congrArg Catalogue.roomCount hcatalogue) (congrArg Catalogue.peerCount hcatalogue)
      (congrArg Catalogue.fileCount hcatalogue) (congrArg Ledger.subscriberCount hledger) hsocket
    have hview : (s.enter t).view = ⟨_, _, _, _, _, _, _⟩ := View.ext hcatalogue hledger hlistener
      hsocket hconnected hclosing (congrArg (s.live ++ ·) hcreated)
    have hadded := (h.createRoom hname).addPeer hlobby
    dsimp only at hadded
    rw [List.append_assoc] at hadded
    rw [hview]
    refine ⟨hadded, occupied_addPeer fun name ρ' hρ' => ?_⟩
    rcases eq_or_ne name roomName with rfl | hne
    · exact .inl (Option.some.inj (hρ'.symm.trans hlobby))
    · have hold : s.view.catalogue.lobby name = some ρ' := by simpa [hne] using hρ'
      obtain ⟨id, p, hp⟩ := ho name ρ' hold
      have hlt := (h.orderly.lobby name ρ' hold).1.ne
      exact .inr ⟨id, p, by simpa [hlt] using hp⟩
  · -- the room was there
    rw [hname] at hroom hrooms
    dsimp only at hroom hrooms
    rw [hroom] at hcatalogue hlobby hlistener
    rw [hrooms] at hledger
    have hcreated := created_eq s t (r := 0) (p := 1) (f := 0) (σ := 0) (k := 1)
      (congrArg Catalogue.roomCount hcatalogue) (congrArg Catalogue.peerCount hcatalogue)
      (congrArg Catalogue.fileCount hcatalogue) (congrArg Ledger.subscriberCount hledger) hsocket
    have hview : (s.enter t).view = ⟨_, _, _, _, _, _, _⟩ := View.ext hcatalogue hledger hlistener
      hsocket hconnected hclosing (congrArg (s.live ++ ·) hcreated)
    rw [hview]
    exact ⟨h.addPeer hlobby, occupied_addPeer fun name ρ' hρ' => .inr (ho name ρ' hρ')⟩

/-- A frame, before anything is freed. -/
theorem Sound.enter_readMessage (h : Sound s.view) (ho : Occupied s.view.catalogue)
    {k : SocketRef} {message : MessageDto}
    (hstep : s.handle fw config (.readMessage k message) = some t) :
    Sound (s.enter t).view ∧ Occupied (s.enter t).view.catalogue := by
  obtain ⟨p, -, hstep⟩ := Option.bind_eq_some_iff.mp hstep
  obtain rfl := Option.some.inj hstep
  obtain ⟨hledger, hshares⟩ := sharing_readParsed fw config p message s.server
  let t : State :=
    { s with server := ((Peer.readParsed fw config p message).exec s.server).2 }
  obtain ⟨hsound, hle, hrooms, hpeers, hlobby, hmember⟩ := h.share hshares
  have hfile : t.server.fileCount = s.server.fileCount +
      (t.server.fileCount - s.server.fileCount) := (Nat.add_sub_cancel' hle).symm
  have hcreated := created_eq s t (r := 0) (p := 0) (σ := 0) (k := 0) hrooms hpeers hfile
    (congrArg Ledger.subscriberCount hledger) rfl
  have hview : (s.enter t).view = { s.view with
      catalogue := t.server.catalogue
      live := s.view.live ++ (List.range' s.view.catalogue.fileCount
        (t.server.catalogue.fileCount - s.view.catalogue.fileCount)).map .file } := by
    refine View.ext rfl hledger rfl rfl rfl rfl ?_
    refine congrArg (s.live ++ ·) (hcreated.trans ?_)
    simp only [List.range'_zero, List.map_nil, List.append_nil, List.nil_append]
    rfl
  rw [hview]
  refine ⟨hsound, ?_⟩
  intro name ρ hρ
  have hρ : s.view.catalogue.lobby name = some ρ := hlobby ▸ hρ
  obtain ⟨id, q, hq⟩ := ho name ρ hρ
  exact ⟨id, q, hmember ▸ hq⟩

/-- A listener is a member of its room. -/
theorem present_of_peerOf (h : Sound s.view) {k : SocketRef} {p : PeerRef}
    (hp : s.peerOf k = some p) :
    k ∈ s.connected ∧ s.listener k = some p ∧ s.view.catalogue.Present p := by
  unfold State.peerOf at hp
  split at hp
  · next hk =>
    obtain ⟨q, hq, hpresent⟩ := h.orderly.connected k hk
    obtain rfl : q = p := Option.some.inj (hq.symm.trans hp)
    exact ⟨hk, hp, hpresent⟩
  · cases hp

/-- A departure, before anything is freed. -/
theorem Sound.enter_leave (h : Sound s.view) (ho : Occupied s.view.catalogue) {k : SocketRef}
    (hstep : s.handle fw config (.leave k) = some t) :
    Sound (s.enter t).view ∧ Occupied (s.enter t).view.catalogue := by
  obtain ⟨p, hp, hstep⟩ := Option.bind_eq_some_iff.mp hstep
  obtain ⟨hk, hp, hpresent⟩ := present_of_peerOf h hp
  let ρ := s.view.catalogue.room p
  let left := Peer.invalidateSocket p (Room.goodbyePeer config ρ p
    (Room.removePeerById ρ (s.server.peers p).peerId (Lobby.countDisconnected s.server)))
  obtain ⟨fileById, hfolded, hfile⟩ := Catalogue.foldl_cancelFile ρ (s.view.catalogue.hosted p)
    s.view.catalogue
  have hcatalogue : left.catalogue = _ := catalogue_goodbyePeer s.server p config hpresent
  have hleft := h.leave hk hp hfile
  rw [← hfolded] at hleft
  rw [show s.server.catalogue = s.view.catalogue from rfl] at hcatalogue
  rw [← hcatalogue] at hleft
  have hledger : left.ledger = s.view.ledger :=
    (ledger_goodbyePeer _ ρ p config).trans (ledger_removePeerById _ ρ _)
  obtain ⟨-, -, -, -, ⟨name, hname⟩, -⟩ := h.orderly.member _ _ p hpresent
  have hroomName : (left.rooms ρ).name = name :=
    (congrFun (congrArg Ledger.roomName hledger) ρ).trans (h.orderly.lobby name ρ hname).2
  have hlobby : left.catalogue.lobby = s.view.catalogue.lobby := by
    rw [hcatalogue, hfolded]
    rfl
  have hother : ∀ ρ' ≠ ρ, ∀ id, left.catalogue.member ρ' id = s.view.catalogue.member ρ' id := by
    intro ρ' hne id
    rw [hcatalogue, hfolded]
    simp [hne, ρ]
  -- the other rooms keep their members
  have hoccupied : ∀ n ρ', left.catalogue.lobby n = some ρ' → ρ' ≠ ρ →
      ∃ id q, left.catalogue.member ρ' id = some q := by
    intro n ρ' hn hne
    rw [hlobby] at hn
    obtain ⟨id, q, hq⟩ := ho n ρ' hn
    exact ⟨id, q, (hother ρ' hne id).trans hq⟩
  have hcounts : left.catalogue.roomCount = s.view.catalogue.roomCount ∧
      left.catalogue.peerCount = s.view.catalogue.peerCount ∧
      left.catalogue.fileCount = s.view.catalogue.fileCount := by
    rw [hcatalogue, hfolded]
    exact ⟨rfl, rfl, rfl⟩
  obtain ⟨hrooms, hpeers, hfiles⟩ := hcounts
  have hsubscribers : left.ledger.subscriberCount = s.view.ledger.subscriberCount :=
    congrArg Ledger.subscriberCount hledger
  have hserver : t.server = if Room.isEmpty ρ left then Lobby.deleteRoom (left.rooms ρ).name left
      else left := by
    obtain rfl := Option.some.inj hstep
    rfl
  obtain ⟨hlistener, hsocket, hconnected, hclosing, hlive⟩ : t.listener = s.listener ∧
      t.socketCount = s.socketCount ∧ t.connected = s.connected.filter (· ≠ k) ∧
      t.closing = s.closing ++ [k] ∧ t.live = s.live := by
    obtain rfl := Option.some.inj hstep
    exact ⟨rfl, rfl, rfl, rfl, rfl⟩
  obtain ⟨hledger', hsound, hoccupied', hsame⟩ : t.server.ledger = s.view.ledger ∧
      Sound { s.view with
        catalogue := t.server.catalogue
        connected := s.view.connected.filter (· ≠ k)
        closing := s.view.closing ++ [k] } ∧ Occupied t.server.catalogue ∧
      t.server.catalogue = { left.catalogue with lobby := t.server.catalogue.lobby } := by
    rcases hempty : Room.isEmpty ρ left with - | -
    · rw [hempty, if_neg Bool.false_ne_true] at hserver
      rw [hserver]
      refine ⟨hledger, hleft, fun n ρ' hn => ?_, rfl⟩
      rcases eq_or_ne ρ' ρ with rfl | hne
      · -- somebody is left
        by_contra hnone
        push Not at hnone
        have hall : ∀ id, left.catalogue.member ρ id = none := fun id =>
          Option.eq_none_iff_forall_ne_some.mpr (hnone id)
        rw [(isEmpty_iff left ρ).mpr hall] at hempty
        cases hempty
      · exact hoccupied n ρ' hn hne
    · rw [hempty, if_pos rfl, hroomName] at hserver
      rw [hserver, catalogue_deleteRoom]
      have hall := (isEmpty_iff left ρ).mp hempty
      refine ⟨hledger, hleft.deleteRoom (hlobby ▸ hname) hall, fun n ρ' hn => ?_, rfl⟩
      rcases eq_or_ne n name with rfl | hne
      · simp at hn
      · have hn : left.catalogue.lobby n = some ρ' := by simpa [hne] using hn
        refine hoccupied n ρ' hn ?_
        -- a room has one name only
        rintro rfl
        rw [hlobby] at hn
        exact hne ((h.orderly.lobby n _ hn).2.symm.trans (h.orderly.lobby name _ hname).2)
  have hview : t.view = { s.view with
      catalogue := t.server.catalogue
      connected := s.view.connected.filter (· ≠ k)
      closing := s.view.closing ++ [k] } :=
    View.ext rfl hledger' hlistener hsocket hconnected hclosing hlive
  have hcount := enter_view hlive ((congrArg Catalogue.roomCount hsame).trans hrooms)
    ((congrArg Catalogue.peerCount hsame).trans hpeers)
    ((congrArg Catalogue.fileCount hsame).trans hfiles)
    (congrArg Ledger.subscriberCount hledger') hsocket
  rw [hcount, hview]
  exact ⟨hsound, hoccupied'⟩

/-- Every handler keeps the invariant. -/
theorem Sound.enter (h : Sound s.view) (ho : Occupied s.view.catalogue) {a : Act}
    (hstep : s.handle fw config a = some t) :
    Sound (s.enter t).view ∧ Occupied (s.enter t).view.catalogue := by
  cases a with
  | join roomName nickname => exact h.enter_join ho hstep
  | readMessage k message => exact h.enter_readMessage ho hstep
  | pingAllPeers ρ =>
      obtain ⟨socket, hcatalogue, hsocket⟩ := catalogue_pingAllPeers s.server ρ
      obtain rfl := Option.some.inj hstep
      exact (h.ping hsocket).enter_of_view ho
        (View.ext hcatalogue (ledger_pingAllPeers s.server ρ) rfl rfl rfl rfl rfl)
        rfl rfl rfl rfl rfl rfl
  | onPong k =>
      obtain ⟨p, -, hstep⟩ := Option.bind_eq_some_iff.mp hstep
      have hcatalogue : (Peer.onPong p s.server).catalogue = s.server.catalogue :=
        catalogue_modifyPeer s.server p (fun _ => rfl) (fun _ => rfl) (fun _ => rfl) fun _ => rfl
      obtain rfl := Option.some.inj hstep
      exact h.enter_of_view ho (View.ext hcatalogue rfl rfl rfl rfl rfl rfl)
        rfl rfl rfl rfl rfl rfl
  | leave k => exact h.enter_leave ho hstep
  | dropSocket k =>
      obtain rfl := Option.some.inj hstep
      exact (h.dropSocket k).enter_of_view ho rfl rfl rfl rfl rfl rfl rfl
  | getFile roomId fileId =>
      obtain ⟨ρ, hρ, hstep⟩ := Option.bind_eq_some_iff.mp hstep
      obtain ⟨f, hf, hstep⟩ := Option.bind_eq_some_iff.mp hstep
      obtain rfl := Option.some.inj hstep
      let t : State := { s with server := (File.subscribe f s.server).2 }
      have hcatalogue : t.view.catalogue = s.view.catalogue := catalogue_subscribe s.server f
      have hcreated := created_eq s t (r := 0) (p := 0) (f := 0) (σ := 1) (k := 0)
        (congrArg Catalogue.roomCount hcatalogue) (congrArg Catalogue.peerCount hcatalogue)
        (congrArg Catalogue.fileCount hcatalogue) rfl rfl
      -- the file is alive: its room is in the lobby
      have hlive : .file f ∈ s.view.live :=
        h.owned _ _ (h.rooted _ (.lobby hρ)) (.registered hf)
      have hsubscribed := h.subscribe hlive
      have hview : (s.enter t).view = { s.view with
          ledger := { s.view.ledger with
            subscriberFile := Function.update s.view.ledger.subscriberFile
              s.view.ledger.subscriberCount (some f)
            subscriberCount := s.view.ledger.subscriberCount + 1 }
          live := s.view.live ++ [.subscriber s.view.ledger.subscriberCount] } :=
        View.ext hcatalogue (ledger_subscribe s.server f) rfl rfl rfl rfl
          (congrArg (s.live ++ ·) hcreated)
      rw [hview]
      exact ⟨hsubscribed, ho⟩
  | read σ count =>
      obtain ⟨-, hstep⟩ := Option.ite_none_right_eq_some.mp hstep
      obtain rfl := Option.some.inj hstep
      exact h.enter_of_view ho (View.ext (catalogue_read s.server σ count)
        (ledger_read s.server σ count) rfl rfl rfl rfl rfl) rfl rfl rfl rfl rfl rfl
  | drop σ =>
      obtain ⟨-, hstep⟩ := Option.ite_none_right_eq_some.mp hstep
      obtain rfl := Option.some.inj hstep
      exact (h.drop σ).enter_of_view ho (View.ext (catalogue_destroy s.server σ)
        (ledger_destroy s.server σ) rfl rfl rfl rfl rfl) rfl rfl rfl rfl rfl rfl

/-- What holds after every handler. -/
structure Kept (s : State) : Prop where
  sound : Sound s.view
  occupied : Occupied s.view.catalogue
  settled : s.heap.Settled

/-- Every event keeps the books. -/
theorem Kept.step (h : Kept s) {a : Act} (hstep : s.step fw config a = some t) : Kept t := by
  obtain ⟨u, hu, rfl⟩ := Option.map_eq_some_iff.mp hstep
  obtain ⟨hsound, hoccupied⟩ := h.sound.enter h.occupied hu
  refine ⟨hsound.collect, hoccupied, ?_⟩
  rw [Sound.heap_collect]
  exact (s.enter u).heap.settled_release

/-- An empty server. -/
theorem Kept.init (clock : ℕ → Int) : Kept { server := { clock } } := by
  have hlobby : ∀ name ρ, (State.view { server := { clock } }).catalogue.lobby name ≠ some ρ :=
    fun _ _ hρ => nomatch (show none = some _ from hρ)
  refine ⟨⟨⟨?_, ?_, ?_, ?_, ?_⟩, ?_, ?_, ?_, ?_, rfl⟩, ?_, ?_⟩
  · exact fun name ρ hρ => absurd hρ (hlobby name ρ)
  · exact fun _ _ _ hp => nomatch (show none = some _ from hp)
  · exact fun _ hk => nomatch hk
  · exact fun _ _ hp => nomatch hp
  · exact fun _ _ hk => nomatch (show none = some _ from hk)
  · rintro n (hρ | hk | hk | ⟨hσ, -⟩)
    · exact absurd hρ (hlobby _ _)
    · nomatch hk
    · nomatch hk
    · exact absurd hσ (Nat.not_lt_zero _)
  · exact fun _ _ hm => nomatch hm
  · exact fun f => ⟨fun hf => (nomatch hf), fun hf => absurd hf (Nat.not_lt_zero f)⟩
  · exact fun f hf => absurd hf (Nat.not_lt_zero f)
  · exact fun name ρ hρ => absurd hρ (hlobby name ρ)
  · exact fun _ hn => nomatch hn

theorem kept (hs : (system fw config).Reachable s) : Kept s := by
  refine hs.invariant ?_ fun s a t h hstep => h.step hstep
  rintro s ⟨clock, rfl⟩
  exact .init clock

end Steps

/-! ### Which messages share a file -/

section Shares

variable {s : Server} {p : PeerRef}

/-- A list makes files exactly if its first entry can be registered. -/
theorem fileCount_shareFiles (hp : s.catalogue.Present p) (files : List (Option FileDto)) :
    s.fileCount < ((Peer.shareFiles p files).exec s).2.fileCount ↔
      firstRegistered files = true := by
  match files with
  | [] => simp [Peer.shareFiles, firstRegistered]
  | none :: rest => simp [Peer.shareFiles, Handler.exec_bind, firstRegistered]
  | some fileDto :: rest =>
      rcases hid : fileDto.clientFileId with - | clientFileId
      · simp [Peer.shareFiles, Handler.exec_bind, firstRegistered, hid]
      rcases hsize : fileDto.size with - | size
      · simp [Peer.shareFiles, Handler.exec_bind, firstRegistered, hid, hsize]
      have hlookup : Room.getPeerById (s.peers p).room (s.peers p).peerId s = some p := hp
      let registered := (Room.registerFile (s.peers p).room p clientFileId fileDto.name size s).2
      have hexec : ((Peer.shareFiles p (some fileDto :: rest)).exec s).2 =
          ((Peer.shareFiles p rest).exec registered).2 := by
        simp only [Peer.shareFiles, Handler.exec_bind, Handler.exec_deref_some, hid, hsize,
          Handler.exec_get, Room.shareFile, hlookup, Handler.exec_modifyGet]
        dsimp only [registered]
        rcases (Peer.shareFiles p rest).exec _ with ⟨_ | shared, t⟩
        · rfl
        · rfl
      have hle := (sharing_operations.shareFiles p sharing_registers rest registered).fileCount_le
      have hlt : s.fileCount < registered.fileCount := Nat.lt_succ_self _
      rw [hexec]
      simp [firstRegistered, hid, hsize, hlt.trans_le hle]

theorem fileCount_handleFilesMessage (config : ConfigDto) (hp : s.catalogue.Present p)
    (message : MessageDto) :
    s.fileCount < ((Peer.handleFilesMessage config p message).exec s).2.fileCount ↔
      firstRegistered (message.files.getD []) = true := by
  rcases hfiles : message.files with - | files
  · simp [Peer.handleFilesMessage, Peer.validateFilesList, Handler.exec_bind, hfiles,
      firstRegistered]
  obtain ⟨_, n, hvalidate⟩ := Peer.exec_validateFilesList_some p files s
  let validated : Server := ({ s with objectCount := n } : Server).getMicroTickCount.2
  have hp' : validated.catalogue.Present p := hp
  rw [Option.getD_some, ← fileCount_shareFiles hp' files]
  -- what follows is a message about the files
  have hmessage : ((Peer.handleFilesMessage config p message).exec s).2.catalogue =
      ((Peer.shareFiles p files).exec validated).2.catalogue := by
    simp only [Peer.handleFilesMessage, hfiles, Handler.exec_bind, hvalidate, Handler.exec_get,
      Handler.exec_modifyGet, Handler.exec_deref_some]
    dsimp only [validated]
    rcases (Peer.shareFiles p files).exec _ with ⟨_ | shared, t⟩
    · rfl
    · exact (catalogue_broadcast _ _ _).trans (catalogue_addHistoryMessage _ _ _ _)
  rw [show ((Peer.handleFilesMessage config p message).exec s).2.fileCount = _ from
    congrArg Catalogue.fileCount hmessage]
  rfl

/-- **A message shares a file** exactly when its first entry can be registered. -/
theorem fileCount_readParsed (fw : Framework) (config : ConfigDto) (hp : s.catalogue.Present p)
    (message : MessageDto) :
    s.fileCount < ((Peer.readParsed fw config p message).exec s).2.fileCount ↔
      sharesFile message = true := by
  by_cases hcode : message.code = some .codeFileShare
  · let clock := s.getMicroTickCount
    let received := clock.2.createShared (Peer.stampMessage (s.peers p) clock.1 message)
    have hexec : (Peer.readParsed fw config p message).exec s =
        (Peer.handleFilesMessage config p received.1.val).exec received.2 :=
      (Peer.exec_readParsed fw config p message s).trans
        (Peer.exec_handleMessage_share fw config p hcode _)
    have hp' : received.2.catalogue.Present p := hp
    have hfiles := fileCount_handleFilesMessage config hp' received.1.val
    rw [hexec, sharesFile, hcode, beq_self_eq_true, Bool.true_and]
    exact hfiles
  · have hsame : ((Peer.readParsed fw config p message).exec s).2.catalogue = s.catalogue :=
      catalogue_operations.readParsed fw config p (fun h => absurd h hcode) s
    have hcount : ((Peer.readParsed fw config p message).exec s).2.fileCount = s.fileCount :=
      congrArg Catalogue.fileCount hsame
    rw [hcount]
    simp [sharesFile, hcode]

end Shares

section Runs

variable {fw : Framework} {config : ConfigDto} {s t : State}

theorem fileCount_onBeforeDestroyNonBlocking (config : ConfigDto) {s : Server} {p : PeerRef}
    (hp : s.catalogue.Present p) :
    (Lobby.onBeforeDestroyNonBlocking config p s).fileCount = s.fileCount := by
  have hcatalogue := catalogue_goodbyePeer s p config hp
  obtain ⟨fileById, hfolded, -⟩ := Catalogue.foldl_cancelFile (s.catalogue.room p)
    (s.catalogue.hosted p) s.catalogue
  rw [hfolded] at hcatalogue
  have hcount := congrArg Catalogue.fileCount hcatalogue
  unfold Lobby.onBeforeDestroyNonBlocking
  dsimp only
  split
  · exact hcount
  · exact hcount

theorem fileCount_onAfterCreateNonBlocking (config : ConfigDto) (socket : SocketRef)
    (roomName nickname : String) (s : Server) :
    (Lobby.onAfterCreateNonBlocking config socket roomName nickname s).2.fileCount =
      s.fileCount := by
  obtain ⟨c, ρ, hc, -, -, hcatalogue⟩ :=
    catalogue_onAfterCreateNonBlocking s config socket roomName nickname
  refine (congrArg Catalogue.fileCount hcatalogue).trans ?_
  rcases hc with rfl | rfl
  · rfl
  · rfl

/-- Files are created by the messages that share them, and by nothing else. -/
theorem Kept.fileCount_step (h : Kept s) {a : Act} (hstep : s.step fw config a = some t) :
    s.server.fileCount ≤ t.server.fileCount ∧
      (t.server.fileCount = s.server.fileCount ↔ a.sharesFile = false) := by
  obtain ⟨u, hu, rfl⟩ := Option.map_eq_some_iff.mp hstep
  show s.server.fileCount ≤ u.server.fileCount ∧ (u.server.fileCount = s.server.fileCount ↔ _)
  -- all events but a frame leave the number of files
  have hsame : ∀ {a : Act}, a.sharesFile = false → u.server.fileCount = s.server.fileCount →
      s.server.fileCount ≤ u.server.fileCount ∧
        (u.server.fileCount = s.server.fileCount ↔ a.sharesFile = false) :=
    fun ha heq => ⟨heq.ge, fun _ => ha, fun _ => heq⟩
  cases a with
  | join roomName nickname =>
      obtain rfl := Option.some.inj hu
      exact hsame rfl (fileCount_onAfterCreateNonBlocking config _ roomName nickname s.server)
  | readMessage k message =>
      obtain ⟨p, hp, hu⟩ := Option.bind_eq_some_iff.mp hu
      obtain rfl := Option.some.inj hu
      have hpresent := (present_of_peerOf h.sound hp).2.2
      have hle := (sharing_readParsed fw config p message s.server).fileCount_le
      have hshares := fileCount_readParsed fw config hpresent message
      refine ⟨hle, ?_⟩
      show _ ↔ sharesFile message = false
      -- the number has grown iff the message shares a file, and it does not shrink
      rw [← Bool.not_eq_true, ← hshares, Nat.not_lt]
      exact ⟨fun heq => heq.le, fun hge => hge.antisymm hle⟩
  | pingAllPeers ρ =>
      obtain rfl := Option.some.inj hu
      obtain ⟨socket, hcatalogue, -⟩ := catalogue_pingAllPeers s.server ρ
      exact hsame rfl (congrArg Catalogue.fileCount hcatalogue)
  | onPong k =>
      obtain ⟨p, -, hu⟩ := Option.bind_eq_some_iff.mp hu
      obtain rfl := Option.some.inj hu
      exact hsame rfl rfl
  | leave k =>
      obtain ⟨p, hp, hu⟩ := Option.bind_eq_some_iff.mp hu
      obtain rfl := Option.some.inj hu
      exact hsame rfl
        (fileCount_onBeforeDestroyNonBlocking config (present_of_peerOf h.sound hp).2.2)
  | dropSocket k =>
      obtain rfl := Option.some.inj hu
      exact hsame rfl rfl
  | getFile roomId fileId =>
      obtain ⟨ρ, -, hu⟩ := Option.bind_eq_some_iff.mp hu
      obtain ⟨f, -, hu⟩ := Option.bind_eq_some_iff.mp hu
      obtain rfl := Option.some.inj hu
      exact hsame rfl rfl
  | read σ count =>
      obtain ⟨-, hu⟩ := Option.ite_none_right_eq_some.mp hu
      obtain rfl := Option.some.inj hu
      exact hsame rfl (congrArg Catalogue.fileCount (catalogue_read s.server σ count))
  | drop σ =>
      obtain ⟨-, hu⟩ := Option.ite_none_right_eq_some.mp hu
      obtain rfl := Option.some.inj hu
      exact hsame rfl (congrArg Catalogue.fileCount (catalogue_destroy s.server σ))

theorem Kept.fileCount_run (h : Kept s) {as : List Act}
    (hrun : (system fw config).run s as = some t) :
    s.server.fileCount ≤ t.server.fileCount ∧
      (t.server.fileCount = s.server.fileCount ↔ ∀ a ∈ as, a.sharesFile = false) := by
  induction as generalizing s with
  | nil =>
      obtain rfl : s = t := by simpa using hrun
      simp
  | cons a as ih =>
      obtain ⟨u, hstep, hrun⟩ := Option.bind_eq_some_iff.mp hrun
      obtain ⟨hle, hiff⟩ := h.fileCount_step hstep
      obtain ⟨hle', hiff'⟩ := ih (h.step hstep) hrun
      refine ⟨hle.trans hle', ?_⟩
      rw [List.forall_mem_cons, ← hiff, ← hiff']
      omega

/-! ### When everybody has gone -/

/-- Nobody is left in any room, and no room in the lobby. -/
theorem Kept.gone (h : Kept s) (hq : s.Quiescent) :
    (∀ ρ id p, s.view.catalogue.member ρ id ≠ some p) ∧
      (∀ p k, s.view.catalogue.socket p ≠ some k) ∧ ∀ n, ¬ Rooted s.view n := by
  have hconnected : ∀ k, k ∉ s.view.connected := by
    intro k hk
    rw [show s.view.connected = [] from hq.connected] at hk
    cases hk
  have hmember : ∀ ρ id p, s.view.catalogue.member ρ id ≠ some p := by
    intro ρ id p hp
    obtain ⟨-, -, -, -, -, k, hk, -⟩ := h.sound.orderly.member ρ id p hp
    exact hconnected k hk
  refine ⟨hmember, fun p k hk => hconnected k (h.sound.orderly.socket p k hk).2, ?_⟩
  rintro n (hρ | hk | hk | @⟨σ, f, hσ, hf⟩)
  · obtain ⟨id, p, hp⟩ := h.occupied _ _ hρ
    exact hmember _ id p hp
  · exact hconnected _ hk
  · rw [show s.view.closing = [] from hq.closing] at hk
    cases hk
  · have hnone : s.view.ledger.subscriberFile σ = none :=
      congrArg (Option.map Subscriber.file) (hq.subscribers σ hσ)
    rw [hnone] at hf
    cases hf

/-- The peers that are left have shared a file. -/
theorem Kept.peer_survives_iff (h : Kept s) (hq : s.Quiescent) {p : PeerRef} :
    .peer p ∈ s.live ↔ ∃ f < s.server.fileCount, (s.server.files f).host = p := by
  obtain ⟨hmember, hsocket, hroots⟩ := h.gone hq
  constructor
  · intro hp
    obtain ⟨m, hm, howns⟩ := (owned_iff.mp (h.settled _ hp)).resolve_left (hroots _)
    cases howns with
    | member hp => exact absurd hp (hmember _ _ _)
    | host f => exact ⟨f, (h.sound.file f).mp hm, rfl⟩
    | listener hp =>
        -- no peer points to the socket either
        obtain ⟨m, -, howns⟩ := (owned_iff.mp (h.settled _ hm)).resolve_left (hroots _)
        cases howns with
        | socket hk => exact absurd hk (hsocket _ _)
  · rintro ⟨f, hf, rfl⟩
    exact (h.sound.host f hf).2.1

/-- **The rooms that are left** are those in which a file was shared. -/
theorem Kept.room_survives_iff (h : Kept s) (hq : s.Quiescent) {ρ : RoomRef} :
    .room ρ ∈ s.live ↔
      ∃ f < s.server.fileCount, (s.server.peers (s.server.files f).host).room = ρ := by
  obtain ⟨-, -, hroots⟩ := h.gone hq
  constructor
  · intro hρ
    obtain ⟨m, hm, howns⟩ := (owned_iff.mp (h.settled _ hρ)).resolve_left (hroots _)
    cases howns with
    | room p =>
        obtain ⟨f, hf, rfl⟩ := (h.peer_survives_iff hq).mp hm
        exact ⟨f, hf, rfl⟩
  · rintro ⟨f, hf, rfl⟩
    exact h.sound.owned _ _ (h.sound.host f hf).2.1 (.room _)

/-- **Everything dies** once everybody has gone, unless a file was shared. -/
theorem allDeleted_iff {s₀ : State} {as : List Act} (hinit : (system fw config).init s₀)
    (hrun : (system fw config).run s₀ as = some s) (hq : s.Quiescent) :
    s.AllDeleted ↔ ∀ a ∈ as, a.sharesFile = false := by
  obtain ⟨clock, rfl⟩ := hinit
  have h : Kept s := kept (.run (.init ⟨clock, rfl⟩) hrun)
  have hfiles : s.server.fileCount = 0 ↔ ∀ a ∈ as, a.sharesFile = false :=
    ((Kept.init clock).fileCount_run hrun).2
  have hcount : ∀ n, n ∉ s.live → s.heap.count n = 0 := by
    intro n hn
    exact RefCount.Heap.count_eq_zero.mpr fun howned => hn (h.sound.closed n howned)
  rw [← hfiles]
  constructor
  · intro hall
    by_contra hne
    have hlive : .file 0 ∈ s.live := (h.sound.file 0).mpr (Nat.pos_of_ne_zero hne)
    exact RefCount.Heap.count_eq_zero.mp (hall.file 0 (Nat.pos_of_ne_zero hne)) (h.settled _ hlive)
  · intro hzero
    have hroom : ∀ ρ, .room ρ ∉ s.live := by
      intro ρ hρ
      obtain ⟨f, hf, -⟩ := (h.room_survives_iff hq).mp hρ
      omega
    have hrooms : s.live.countP Node.isRoom = 0 := by
      refine List.countP_eq_zero.mpr fun n hn hn' => ?_
      cases n with
      | room ρ => exact hroom ρ hn
      | _ => cases hn'
    refine ⟨fun ρ _ => hcount _ (hroom ρ), fun p _ => hcount _ fun hp => ?_, fun f hf => ?_, ?_,
      fun ρ hρ => absurd hρ (hroom ρ)⟩
    · obtain ⟨f, hf, -⟩ := (h.peer_survives_iff hq).mp hp
      omega
    · omega
    · have hcounted := h.sound.counted
      rw [show s.view.live = s.live from rfl, hrooms] at hcounted
      exact hcounted

end Runs

/-! ### Two runs -/

/-- A framework that reads and decodes nothing. -/
def silent : Framework where
  readFromString _ := none
  base64Decode _ := none

/-- Ann and Bob meet, and leave. -/
def meeting : List Act :=
  [.join "lounge" "Ann", .join "lounge" "Bob",
    .readMessage 0 { code := some .codePeerMessage, message := some "Hello" },
    .leave 1, .dropSocket 1, .leave 0, .dropSocket 0]

/-- Ann shares a file, and leaves. -/
def sharing : List Act :=
  [.join "lounge" "Ann",
    .readMessage 0
      { code := some .codeFileShare
        files := some [some { clientFileId := some 1, name := some "cat.txt", size := some 3 }] },
    .leave 0, .dropSocket 0]

/-- What the two runs are asked about. -/
structure Outcome where
  connected : List SocketRef
  closing : List SocketRef
  subscriberCount : ℕ
  created : ℕ
  deleted : ℕ
  /-- The pointers to the first room. -/
  count : ℕ
  /-- The length of its history. -/
  history : ℕ
  deriving DecidableEq

def State.outcome (s : State) : Outcome where
  connected := s.connected
  closing := s.closing
  subscriberCount := s.server.subscriberCount
  created := s.server.statistics.eventRoomCreated
  deleted := s.server.statistics.eventRoomDeleted
  count := s.heap.count (.room 0)
  history := (s.server.rooms 0).history.length

theorem State.quiescent_of_outcome {s : State} (hconnected : s.outcome.connected = [])
    (hclosing : s.outcome.closing = []) (hcount : s.outcome.subscriberCount = 0) : s.Quiescent where
  connected := hconnected
  closing := hclosing
  subscribers σ hσ := by
    rw [show s.server.subscriberCount = 0 from hcount] at hσ
    exact absurd hσ (Nat.not_lt_zero σ)

/-- Of the meeting nothing is left. -/
theorem allDeleted_meeting : ∃ s, (system silent {}).run {} meeting = some s ∧ s.Quiescent ∧
    s.AllDeleted ∧ s.server.statistics.eventRoomCreated = 1 := by
  have hrun : ((system silent {}).run {} meeting).map State.outcome = some
      { connected := [], closing := [], subscriberCount := 0, created := 1, deleted := 1,
        count := 0, history := 5 } := by
    decide +kernel
  obtain ⟨s, hrun, hs⟩ := Option.map_eq_some_iff.mp hrun
  have hq : s.Quiescent := State.quiescent_of_outcome (by rw [hs]) (by rw [hs]) (by rw [hs])
  exact ⟨s, hrun, hq, (allDeleted_iff ⟨_, rfl⟩ hrun hq).mpr (by decide),
    congrArg Outcome.created hs⟩

/-- Ann has gone, and her room with its history is still there. -/
theorem shared_room_survives : ∃ s, (system silent {}).run {} sharing = some s ∧ s.Quiescent ∧
    ¬ s.AllDeleted ∧ s.heap.count (.room 0) = 1 ∧ (s.server.rooms 0).history.length = 3 ∧
    s.server.statistics.eventRoomCreated = 1 ∧ s.server.statistics.eventRoomDeleted = 0 := by
  have hrun : ((system silent {}).run {} sharing).map State.outcome = some
      { connected := [], closing := [], subscriberCount := 0, created := 1, deleted := 0,
        count := 1, history := 3 } := by
    decide +kernel
  obtain ⟨s, hrun, hs⟩ := Option.map_eq_some_iff.mp hrun
  have hq : s.Quiescent := State.quiescent_of_outcome (by rw [hs]) (by rw [hs]) (by rw [hs])
  have hcreated : s.server.statistics.eventRoomCreated = 1 := congrArg Outcome.created hs
  have hdeleted : s.server.statistics.eventRoomDeleted = 0 := congrArg Outcome.deleted hs
  refine ⟨s, hrun, hq, fun hall => ?_, congrArg Outcome.count hs, congrArg Outcome.history hs,
    hcreated, hdeleted⟩
  have hcounted := hall.counted
  rw [hcreated, hdeleted] at hcounted
  cases hcounted

end Lifetime

end CanChat
