/-
CanChat/Provenance.lean

Where the bytes of a download come from.

A chunk reaches a subscriber through three lookups with ids a client has
chosen: the file in the sender's room, the host of the file, and the
subscriber in the file's table.  `Stored` says that what the lookups find is
what was asked for, and `Fed` that every chunk under way or waiting to be read
was sent by the host of its file for that file and that subscriber.

`OnlyRemoves` is the relation of the steps that neither share a file, nor
subscribe, nor hand a chunk over.
-/
import CanChat.Authorship
import CanChat.Base64

namespace CanChat

/-! ### Files and subscribers -/

/-- A file that is found has the room and the id it was looked up under, and table
entries lead to allocated subscribers. -/
structure Stored (s : Server) : Prop where
  host_lt : ∀ f < s.fileCount, s.catalogue.host f < s.peerCount
  found : ∀ ρ id f, Room.getFileById ρ id s = some f →
    f < s.fileCount ∧ s.catalogue.serverFileId f = id ∧ s.catalogue.room (s.catalogue.host f) = ρ
  allocated : ∀ σ sub, s.subscribers σ = some sub → σ < s.subscriberCount ∧ sub.file < s.fileCount
  listed : ∀ f id σ, (s.files f).subscribers.lookup id = some σ →
    ∃ sub, s.subscribers σ = some sub ∧ sub.file = f ∧ sub.id = id

/-- No file, subscriber or chunk is added or reassigned; registrations, table
entries and chunks may be removed. -/
structure OnlyRemoves (s t : Server) : Prop where
  peerCount : s.peerCount ≤ t.peerCount
  room : ∀ p < s.peerCount, t.catalogue.room p = s.catalogue.room p
  fileCount : t.fileCount = s.fileCount
  host : t.catalogue.host = s.catalogue.host
  serverFileId : t.catalogue.serverFileId = s.catalogue.serverFileId
  found : ∀ ρ id f, t.catalogue.fileById ρ id = some f → s.catalogue.fileById ρ id = some f
  subscriberCount : t.subscriberCount = s.subscriberCount
  subscriber : ∀ σ sub', t.subscribers σ = some sub' → ∃ sub, s.subscribers σ = some sub ∧
    sub'.file = sub.file ∧ sub'.id = sub.id ∧ ∀ data, sub'.chunk = some data → sub.chunk = some data
  listed : ∀ f id σ, (t.files f).subscribers.lookup id = some σ →
    (s.files f).subscribers.lookup id = some σ ∧
      ∀ sub, s.subscribers σ = some sub → sub.file = f → sub.id = id → (t.subscribers σ).isSome

namespace OnlyRemoves

variable {s t u : Server}

/-- Unchanged tables and subscribers. -/
theorem of_tables (hpeerCount : s.peerCount ≤ t.peerCount)
    (hroom : ∀ p < s.peerCount, t.catalogue.room p = s.catalogue.room p)
    (hfound : ∀ ρ id f, t.catalogue.fileById ρ id = some f → s.catalogue.fileById ρ id = some f)
    (hfiles : t.files = s.files) (hfileCount : t.fileCount = s.fileCount)
    (hsubscribers : t.subscribers = s.subscribers)
    (hcount : t.subscriberCount = s.subscriberCount) : OnlyRemoves s t where
  peerCount := hpeerCount
  room := hroom
  fileCount := hfileCount
  host := by simp only [Server.catalogue, hfiles]
  serverFileId := by simp only [Server.catalogue, hfiles]
  found := hfound
  subscriberCount := hcount
  subscriber σ sub hsub := ⟨sub, hsubscribers ▸ hsub, rfl, rfl, fun _ h => h⟩
  listed f id σ hσ := by
    rw [hfiles] at hσ
    refine ⟨hσ, fun sub hsub _ _ => ?_⟩
    rw [hsubscribers, hsub]
    rfl

/-- Neither the catalogue nor the downloads change. -/
theorem of_catalogue (hcatalogue : t.catalogue = s.catalogue) (hfiles : t.files = s.files)
    (hsubscribers : t.subscribers = s.subscribers)
    (hcount : t.subscriberCount = s.subscriberCount) : OnlyRemoves s t := by
  refine of_tables (congrArg Catalogue.peerCount hcatalogue).ge (fun p _ => ?_)
    (fun ρ id f hf => ?_) hfiles (congrArg Catalogue.fileCount hcatalogue) hsubscribers hcount
  · rw [hcatalogue]
  · rwa [hcatalogue] at hf

theorem refl (s : Server) : OnlyRemoves s s := of_catalogue rfl rfl rfl rfl

theorem trans (h : OnlyRemoves s t) (h' : OnlyRemoves t u) : OnlyRemoves s u where
  peerCount := h.peerCount.trans h'.peerCount
  room p hp := (h'.room p (hp.trans_le h.peerCount)).trans (h.room p hp)
  fileCount := h'.fileCount.trans h.fileCount
  host := h'.host.trans h.host
  serverFileId := h'.serverFileId.trans h.serverFileId
  found ρ id f hf := h.found ρ id f (h'.found ρ id f hf)
  subscriberCount := h'.subscriberCount.trans h.subscriberCount
  subscriber σ sub'' hsub'' := by
    obtain ⟨sub', hsub', hfile', hid', hchunk'⟩ := h'.subscriber σ sub'' hsub''
    obtain ⟨sub, hsub, hfile, hid, hchunk⟩ := h.subscriber σ sub' hsub'
    exact ⟨sub, hsub, hfile'.trans hfile, hid'.trans hid,
      fun data hdata => hchunk data (hchunk' data hdata)⟩
  listed f id σ hσ := by
    obtain ⟨ht, hkept'⟩ := h'.listed f id σ hσ
    obtain ⟨hs, hkept⟩ := h.listed f id σ ht
    refine ⟨hs, fun sub hsub hf hi => ?_⟩
    obtain ⟨sub', hsub'⟩ := Option.isSome_iff_exists.mp (hkept sub hsub hf hi)
    obtain ⟨sub₀, hsub₀, hfile, hid, -⟩ := h.subscriber σ sub' hsub'
    obtain rfl := Option.some.inj (hsub.symm.trans hsub₀)
    exact hkept' sub' hsub' (hfile.trans hf) (hid.trans hi)

/-- One subscriber changes, keeping its file and its id. -/
theorem modifySubscriber {σ : SubscriberRef} {sub sub' : Subscriber}
    (hsub : s.subscribers σ = some sub) (hfile : sub'.file = sub.file) (hid : sub'.id = sub.id)
    (hchunk : ∀ data, sub'.chunk = some data → sub.chunk = some data) :
    OnlyRemoves s (s.modifySubscriber σ fun _ => sub') where
  peerCount := le_rfl
  room _ _ := rfl
  fileCount := rfl
  host := rfl
  serverFileId := rfl
  found _ _ _ h := h
  subscriberCount := rfl
  subscriber τ sub'' h'' := by
    rcases eq_or_ne τ σ with rfl | hne
    · obtain rfl : sub' = sub'' := by simpa [hsub] using h''
      exact ⟨sub, hsub, hfile, hid, hchunk⟩
    · exact ⟨sub'', by simpa [hne] using h'', rfl, rfl, fun _ h => h⟩
  listed f id τ hτ := by
    refine ⟨hτ, fun sub'' h'' _ _ => ?_⟩
    rcases eq_or_ne τ σ with rfl | hne
    · simp [hsub]
    · simp [hne, h'']

end OnlyRemoves

/-! ### The server's functions -/

section Functions

variable (s : Server) (ρ : RoomRef) (p : PeerRef)

theorem onlyRemoves_getOrCreateRoom (name : String) :
    OnlyRemoves s (Lobby.getOrCreateRoom name s).2 := by
  have hcatalogue := catalogue_getOrCreateRoom s name
  rcases hroom : Lobby.getRoom name s with - | ρ
  · obtain ⟨_, _, _, _, hcreate⟩ := Lobby.getOrCreateRoom_none hroom
    rw [hcreate, hroom] at hcatalogue
    rw [hcreate]
    refine .of_tables le_rfl (fun _ _ => rfl) (fun ρ id f hf => ?_) rfl rfl rfl rfl
    -- the new room has no files
    rw [hcatalogue, Catalogue.createRoom_fileById] at hf
    rcases eq_or_ne ρ s.catalogue.roomCount with rfl | hne
    · simp at hf
    · rwa [Function.update_of_ne hne] at hf
  · rw [Lobby.getOrCreateRoom_some hroom]
    exact .refl s

theorem onlyRemoves_createPeer (socket : SocketRef) (nickname : String) :
    OnlyRemoves s (Lobby.createPeer socket ρ nickname s).2 := by
  refine .of_tables (Nat.le_succ _) (fun q hq => ?_) (fun _ _ _ h => h) rfl rfl rfl rfl
  rw [catalogue_createPeer, Catalogue.createPeer_room]
  exact Function.update_of_ne hq.ne _ _

theorem onlyRemoves_addHistoryMessage (config : ConfigDto) (message : Object MessageDto) :
    OnlyRemoves s (Room.addHistoryMessage config ρ message s) := by
  have hcatalogue := catalogue_addHistoryMessage s ρ config message
  have hframe : ∃ rooms, Room.addHistoryMessage config ρ message s = { s with rooms } := by
    unfold Room.addHistoryMessage
    split
    · exact ⟨_, rfl⟩
    · exact ⟨_, rfl⟩
  obtain ⟨_, hframe⟩ := hframe
  rw [hframe] at hcatalogue ⊢
  exact .of_catalogue hcatalogue rfl rfl rfl

theorem onlyRemoves_broadcast (message : Object MessageDto) :
    OnlyRemoves s (Room.sendMessageAsync ρ message s) := by
  obtain ⟨_, h⟩ := Room.sendMessageAsync_frame ρ message s
  rw [h]
  exact .of_catalogue rfl rfl rfl rfl

theorem onlyRemoves_sendMessageAsync (message : Object MessageDto) :
    OnlyRemoves s (Peer.sendMessageAsync p message s) := by
  obtain ⟨_, h⟩ := Peer.sendMessageAsync_frame p message s
  rw [h]
  exact .of_catalogue rfl rfl rfl rfl

theorem onlyRemoves_addPeer : OnlyRemoves s (Room.addPeer ρ p s) := by
  refine .of_tables le_rfl (fun _ _ => rfl) (fun ρ' id f hf => ?_) rfl rfl rfl rfl
  rwa [catalogue_addPeer] at hf

theorem onlyRemoves_erasePeer (peerId : Int) : OnlyRemoves s (Room.erasePeer ρ peerId s) := by
  refine .of_tables le_rfl (fun _ _ => rfl) (fun ρ' id f hf => ?_) rfl rfl rfl rfl
  rwa [catalogue_erasePeer] at hf

theorem onlyRemoves_invalidateSocket : OnlyRemoves s (Peer.invalidateSocket p s) := by
  refine .of_tables le_rfl (fun q _ => ?_) (fun _ _ _ h => h) rfl rfl rfl rfl
  rw [catalogue_invalidateSocket]
  rfl

theorem onlyRemoves_pingAllPeers : OnlyRemoves s (Room.pingAllPeers ρ s) := by
  obtain ⟨_, hcatalogue, -⟩ := catalogue_pingAllPeers s ρ
  obtain ⟨_, _, hframe, -⟩ := Room.pingAllPeers_frame ρ s
  rw [hframe] at hcatalogue ⊢
  refine .of_tables le_rfl (fun q _ => ?_) (fun _ _ _ h => h) rfl rfl rfl rfl
  rw [hcatalogue]

theorem onlyRemoves_onPong : OnlyRemoves s (Peer.onPong p s) := by
  refine .of_catalogue ?_ rfl rfl rfl
  exact catalogue_modifyPeer s p (fun _ => rfl) (fun _ => rfl) (fun _ => rfl) fun _ => rfl

/-- The subscribers of a cancelled file leave its table, invalid. -/
theorem onlyRemoves_clearSubscribers (f : FileRef) : OnlyRemoves s (File.clearSubscribers f s) where
  peerCount := (congrArg Catalogue.peerCount (catalogue_clearSubscribers s f)).ge
  room p _ := by rw [catalogue_clearSubscribers]
  fileCount := congrArg Catalogue.fileCount (catalogue_clearSubscribers s f)
  host := by rw [catalogue_clearSubscribers]
  serverFileId := by rw [catalogue_clearSubscribers]
  found ρ id g hg := by rwa [catalogue_clearSubscribers] at hg
  subscriberCount := by rw [File.clearSubscribers_eq]
  subscriber σ sub' hsub' := by
    rw [File.clearSubscribers_eq] at hsub'
    dsimp only at hsub'
    split at hsub'
    · obtain ⟨sub, hsub, rfl⟩ := Option.map_eq_some_iff.mp hsub'
      exact ⟨sub, hsub, rfl, rfl, fun _ h => h⟩
    · exact ⟨sub', hsub', rfl, rfl, fun _ h => h⟩
  listed g id σ hσ := by
    rw [File.clearSubscribers_eq] at hσ ⊢
    rcases eq_or_ne g f with rfl | hne
    · simp at hσ
    · refine ⟨by simpa [hne] using hσ, fun sub hsub _ _ => ?_⟩
      dsimp only
      split
      · rw [hsub]
        rfl
      · rw [hsub]
        rfl

theorem onlyRemoves_cancelFile (f : FileRef) : OnlyRemoves s (Room.cancelFile ρ s f) := by
  have hfile := catalogue_cancelFile s ρ f
  rw [← catalogue_clearSubscribers s f] at hfile
  refine (onlyRemoves_clearSubscribers s f).trans ?_
  refine .of_tables le_rfl (fun _ _ => rfl) (fun ρ' id g hg => ?_) rfl rfl rfl rfl
  have hg : (Room.cancelFile ρ s f).catalogue.fileById ρ' id = some g := hg
  rw [hfile, Catalogue.cancelFile_fileById] at hg
  rcases eq_or_ne ρ' ρ with rfl | hne
  · rw [Function.update_self] at hg
    split at hg
    · cases hg
    · exact hg
  · rwa [Function.update_of_ne hne] at hg

theorem onlyRemoves_removePeerById (peerId : Int) :
    OnlyRemoves s (Room.removePeerById ρ peerId s) := by
  have hloop :
      ∀ (fs : List FileRef) (s : Server), OnlyRemoves s (fs.foldl (Room.cancelFile ρ) s) := by
    intro fs
    induction fs with
    | nil => exact .refl
    | cons f fs ih => exact fun s => (onlyRemoves_cancelFile s ρ f).trans (ih _)
  unfold Room.removePeerById
  split
  · exact .refl s
  · exact (hloop _ s).trans (onlyRemoves_erasePeer _ ρ peerId)

theorem onlyRemoves_read (σ : SubscriberRef) (count : Int) :
    OnlyRemoves s ((Subscriber.read σ count).exec s).2 := by
  rcases hsub : s.subscribers σ with - | sub
  · rw [Subscriber.read_exec_none hsub]
    exact .refl s
  · rw [Subscriber.read_exec hsub]
    split
    · exact .refl s
    · next sub' _ =>
      obtain ⟨_, _, hframe⟩ := sub'.requestChunk_frame count s
      rw [hframe]
      exact .of_catalogue rfl rfl rfl rfl
    · next data sub' hread =>
      have hkept : sub'.file = sub.file ∧ sub'.id = sub.id ∧
          ∀ data, sub'.chunk = some data → sub.chunk = some data := by
        obtain ⟨-, ⟨chunk, -, -, -, -, rfl⟩ | ⟨-, -, -, rfl⟩ | ⟨-, -, rfl⟩⟩ :=
          Subscriber.readChunk_eq_ok hread
        · exact ⟨rfl, rfl, by simp⟩
        · exact ⟨rfl, rfl, fun _ h => h⟩
        · exact ⟨rfl, rfl, fun _ h => h⟩
      refine (OnlyRemoves.modifySubscriber hsub hkept.1 hkept.2.1 hkept.2.2).trans ?_
      exact .of_catalogue rfl rfl rfl rfl

/-- A download ends: the subscriber takes its entry out of the table. -/
theorem onlyRemoves_destroy (σ : SubscriberRef) : OnlyRemoves s (Subscriber.destroy σ s) := by
  have hcatalogue := catalogue_destroy s σ
  unfold Subscriber.destroy at hcatalogue ⊢
  rcases hsub : s.subscribers σ with - | sub
  · exact .refl s
  simp only [hsub] at hcatalogue ⊢
  refine { OnlyRemoves.of_catalogue (s := s) (t := s) rfl rfl rfl rfl with
    peerCount := le_rfl
    room := fun _ _ => rfl
    host := congrArg Catalogue.host hcatalogue
    serverFileId := congrArg Catalogue.serverFileId hcatalogue
    subscriber := fun τ sub' h' => ?_
    listed := fun f id τ hτ => ?_ }
  · rcases eq_or_ne τ σ with rfl | hne
    · simp at h'
    · exact ⟨sub', by simpa [hne, File.unsubscribe] using h', rfl, rfl, fun _ h => h⟩
  · have hentry : (s.files f).subscribers.lookup id = some τ ∧ (sub.file = f → id ≠ sub.id) := by
      rcases eq_or_ne f sub.file with rfl | hne
      · simp only [File.unsubscribe, Server.modifyFile_files, Function.update_self] at hτ
        obtain ⟨hid, hτ⟩ := UnorderedMap.lookup_erase_eq_some.mp hτ
        exact ⟨hτ, fun _ => hid⟩
      · exact ⟨by simpa [File.unsubscribe, hne] using hτ, fun h => absurd h.symm hne⟩
    refine ⟨hentry.1, fun sub' hsub' hfile hid => ?_⟩
    have hne : τ ≠ σ := by
      rintro rfl
      obtain rfl := Option.some.inj (hsub.symm.trans hsub')
      exact hentry.2 hfile hid.symm
    simp [hne, File.unsubscribe, hsub']

end Functions

/-! ### Preservation of `Stored` -/

namespace Stored

variable {s t : Server}

theorem fresh (clock : ℕ → Int) : Stored { clock } where
  host_lt f hf := absurd hf (Nat.not_lt_zero f)
  found _ _ _ hf := nomatch (show none = some _ from hf)
  allocated _ _ hsub := nomatch hsub
  listed _ _ _ hσ := nomatch (show none = some _ from hσ)

theorem onlyRemoves (h : Stored s) (honlyRemoves : OnlyRemoves s t) : Stored t where
  host_lt f hf := by
    rw [honlyRemoves.fileCount] at hf
    rw [honlyRemoves.host]
    exact (h.host_lt f hf).trans_le honlyRemoves.peerCount
  found ρ id f hf := by
    obtain ⟨hlt, hid, hroom⟩ := h.found ρ id f (honlyRemoves.found ρ id f hf)
    rw [honlyRemoves.fileCount, honlyRemoves.host, honlyRemoves.serverFileId,
      honlyRemoves.room _ (h.host_lt f hlt)]
    exact ⟨hlt, hid, hroom⟩
  allocated σ sub' hsub' := by
    obtain ⟨sub, hsub, hfile, -⟩ := honlyRemoves.subscriber σ sub' hsub'
    rw [honlyRemoves.subscriberCount, honlyRemoves.fileCount, hfile]
    exact h.allocated σ sub hsub
  listed f id σ hσ := by
    obtain ⟨hs, hkept⟩ := honlyRemoves.listed f id σ hσ
    obtain ⟨sub, hsub, hfile, hid⟩ := h.listed f id σ hs
    obtain ⟨sub', hsub'⟩ := Option.isSome_iff_exists.mp (hkept sub hsub hfile hid)
    obtain ⟨sub₀, hsub₀, hfile', hid', -⟩ := honlyRemoves.subscriber σ sub' hsub'
    obtain rfl := Option.some.inj (hsub.symm.trans hsub₀)
    exact ⟨sub', hsub', hfile'.trans hfile, hid'.trans hid⟩

/-- A peer of the room shares a file. -/
theorem registerFile (h : Stored s) {host : PeerRef} (hhost : host < s.peerCount)
    (clientFileId : Int) (fileName : Option String) (fileSize : Int) :
    Stored (Room.registerFile (s.catalogue.room host) host clientFileId fileName fileSize s).2 := by
  let ρ := s.catalogue.room host
  let t := (Room.registerFile ρ host clientFileId fileName fileSize s).2
  have hcatalogue : t.catalogue = s.catalogue.registerFile ρ host clientFileId fileSize :=
    catalogue_registerFile s ρ host clientFileId fileName fileSize
  have hold : ∀ f < s.fileCount, t.catalogue.host f = s.catalogue.host f ∧
      t.catalogue.serverFileId f = s.catalogue.serverFileId f := by
    intro f hf
    rw [hcatalogue]
    exact ⟨Function.update_of_ne hf.ne _ _, Function.update_of_ne hf.ne _ _⟩
  have hnew : t.catalogue.host s.fileCount = host ∧
      t.catalogue.serverFileId s.fileCount = s.catalogue.fileIdCounter ρ := by
    rw [hcatalogue]
    exact ⟨Function.update_self _ _ _, Function.update_self _ _ _⟩
  have hroom : t.catalogue.room = s.catalogue.room := by rw [hcatalogue]; rfl
  refine ⟨fun f hf => ?_, fun ρ' id f hf => ?_, fun σ sub hsub => ?_, fun f id σ hσ => ?_⟩
  · rcases Nat.lt_succ_iff_lt_or_eq.mp hf with hf | rfl
    · rw [(hold f hf).1]
      exact h.host_lt f hf
    · rw [hnew.1]
      exact hhost
  · have hf : t.catalogue.fileById ρ' id = some f := hf
    have hstored : s.catalogue.fileById ρ' id = some f →
        f < t.fileCount ∧ t.catalogue.serverFileId f = id ∧
          t.catalogue.room (t.catalogue.host f) = ρ' := by
      intro hf
      obtain ⟨hlt, hid, hρ⟩ := h.found ρ' id f hf
      rw [(hold f hlt).1, (hold f hlt).2, hroom]
      exact ⟨Nat.lt_succ_of_lt hlt, hid, hρ⟩
    rw [hcatalogue, Catalogue.registerFile_fileById] at hf
    rcases eq_or_ne ρ' ρ with rfl | hne
    · rw [Function.update_self] at hf
      split at hf
      · next hid =>
        obtain rfl := Option.some.inj hf
        refine ⟨Nat.lt_succ_self _, hnew.2.trans hid.symm, ?_⟩
        show t.catalogue.room (t.catalogue.host s.fileCount) = ρ
        rw [hnew.1, hroom]
      · exact hstored hf
    · rw [Function.update_of_ne hne] at hf
      exact hstored hf
  · exact ⟨(h.allocated σ sub hsub).1, Nat.lt_succ_of_lt (h.allocated σ sub hsub).2⟩
  · -- the table of the new file is empty
    have hfiles : t.files = Function.update s.files s.fileCount _ := rfl
    rw [show (Room.registerFile (s.catalogue.room host) host clientFileId fileName
        fileSize s).2.files
      = _ from hfiles] at hσ
    rcases eq_or_ne f s.fileCount with rfl | hne
    · simp at hσ
    · rw [Function.update_of_ne hne] at hσ
      exact h.listed f id σ hσ

theorem subscribe (h : Stored s) {f : FileRef} (hf : f < s.fileCount) :
    Stored (File.subscribe f s).2 := by
  have hcatalogue := catalogue_subscribe s f
  have hold : ∀ {σ sub}, s.subscribers σ = some sub →
      (File.subscribe f s).2.subscribers σ = some sub := by
    intro σ sub hsub
    have hne := (h.allocated σ sub hsub).1.ne
    simpa [File.subscribe, hne] using hsub
  have hnew : (File.subscribe f s).2.subscribers s.subscriberCount =
      some { id := (s.files f).subscriberIdCounter, file := f } := by
    simp [File.subscribe]
  refine ⟨fun g hg => ?_, fun ρ id g hg => ?_, fun σ sub hsub => ?_, fun g id σ hσ => ?_⟩
  · rw [hcatalogue]
    exact h.host_lt g hg
  · rw [hcatalogue]
    exact h.found ρ id g hg
  · rcases eq_or_ne σ s.subscriberCount with rfl | hne
    · obtain rfl := Option.some.inj (hnew.symm.trans hsub)
      exact ⟨Nat.lt_succ_self _, hf⟩
    · obtain ⟨hlt, hfile⟩ := h.allocated σ sub (by simpa [File.subscribe, hne] using hsub)
      exact ⟨Nat.lt_succ_of_lt hlt, hfile⟩
  -- an entry of the map is the new one or an old one
  · have hentry : (g = f ∧ id = (s.files f).subscriberIdCounter ∧ σ = s.subscriberCount) ∨
        (s.files g).subscribers.lookup id = some σ := by
      rcases eq_or_ne g f with rfl | hne
      · simp only [File.subscribe, Server.modifyFile_files, Function.update_self,
          UnorderedMap.lookup_insert] at hσ
        split at hσ
        · next hid =>
          obtain rfl := Option.some.inj hσ
          exact .inl ⟨rfl, hid, rfl⟩
        · exact .inr hσ
      · exact .inr (by simpa [File.subscribe, hne] using hσ)
    rcases hentry with ⟨rfl, rfl, rfl⟩ | hentry
    · exact ⟨_, hnew, rfl, rfl⟩
    · obtain ⟨sub, hsub, hrest⟩ := h.listed g id σ hentry
      exact ⟨sub, hold hsub, hrest⟩

/-- A chunk is handed over. -/
theorem modifySubscriber (h : Stored s) {σ : SubscriberRef} {sub : Subscriber}
    (hsub : s.subscribers σ = some sub) (chunk : Option Bytes) :
    Stored (s.modifySubscriber σ fun _ => { sub with chunk }) := by
  refine ⟨h.host_lt, h.found, fun τ sub' h' => ?_, fun f id τ hτ => ?_⟩
  · rcases eq_or_ne τ σ with rfl | hne
    · obtain rfl : { sub with chunk } = sub' := by simpa [hsub] using h'
      exact h.allocated τ sub hsub
    · exact h.allocated τ sub' (by simpa [hne] using h')
  · obtain ⟨sub', hsub', hfile, hid⟩ := h.listed f id τ hτ
    rcases eq_or_ne τ σ with rfl | hne
    · obtain rfl := Option.some.inj (hsub.symm.trans hsub')
      exact ⟨{ sub with chunk }, by simp [hsub], hfile, hid⟩
    · exact ⟨sub', by simpa [hne] using hsub', hfile, hid⟩

end Stored

/-! ### Looking a chunk up -/

namespace Peer

/-- A chunk that gets through is a part of a file found in the sender's room,
and the file's host has the sender's id. -/
theorem lookUpChunk_eq_some {fw : Framework} {p : PeerRef} {message : MessageDto} {s : Server}
    {chunk : Chunk} (h : ((lookUpChunk fw p message).exec s).1 = .ok (none, some chunk)) :
    ∃ dto id text, message.files = some [some dto] ∧ dto.serverFileId = some id ∧
      dto.subscriberId = some chunk.subscriberId ∧ dto.data = some text ∧
        fw.base64Decode text = some chunk.data ∧
          Room.getFileById (s.peers p).room id s = some chunk.file ∧
            (s.peers (s.files chunk.file).host).peerId = (s.peers p).peerId := by
  -- a branch that calls `onApiError` returns no chunk
  have hanswer : ∀ text, (((do pure (← onApiError p text, none)) :
      Handler (CoroutineStarter × Option Chunk)).exec s).1 ≠ .ok (none, some chunk) := by
    intro text heq
    cases (Prod.mk.inj (Except.ok.inj heq)).2
  unfold lookUpChunk at h
  split at h
  · exact absurd h (hanswer _)
  next filesList hfiles =>
  split at h
  · exact absurd h (hanswer _)
  next hlength =>
  -- `filesList->size() != 1` has been ruled out, `front()` is the only entry
  rcases filesList with - | ⟨entry, rest⟩
  · cases h
  obtain rfl : rest = [] := by
    rw [List.length_cons] at hlength
    exact List.length_eq_zero_iff.mp (by omega)
  rcases entry with - | dto
  · exact absurd h (hanswer _)
  rw [front, Handler.exec_bind, Handler.exec_pure] at h
  dsimp only at h
  split at h
  · exact absurd h (hanswer _)
  · exact absurd h (hanswer _)
  · exact absurd h (hanswer _)
  next id subscriberId text hid hsubscriber hdata =>
  unfold lookUpFile at h
  rw [Handler.exec_bind, Handler.exec_get] at h
  dsimp only at h
  rcases hf : Room.getFileById (s.peers p).room id s with - | f <;> rw [hf] at h
  · cases h
  dsimp only at h
  split at h
  · exact absurd h (hanswer _)
  -- the host of the file found is the peer that sent the chunk
  next hhost =>
  -- `Base64::decode` throws on a text that is not base64
  rcases hdecode : fw.base64Decode text with - | data <;> rw [hdecode] at h
  · cases h
  cases h
  exact ⟨dto, id, text, hfiles, hid, hsubscriber, hdata, hdecode, hf, not_not.mp hhost⟩

/-- One entry shares one file at most. -/
theorem shareFiles_one (p : PeerRef) (currFile : Option FileDto) (s : Server) :
    ((shareFiles p [currFile]).exec s).2 = s ∨
      ∃ host clientFileId fileName fileSize,
        Room.getPeerById (s.peers p).room (s.peers p).peerId s = some host ∧
          ((shareFiles p [currFile]).exec s).2 =
            (Room.registerFile (s.peers p).room host clientFileId fileName fileSize s).2 := by
  rcases currFile with - | fileDto
  · exact .inl rfl
  rcases hid : fileDto.clientFileId with - | clientFileId
  · left
    simp [shareFiles, Handler.exec_bind, hid]
  rcases hsize : fileDto.size with - | size
  · left
    simp [shareFiles, Handler.exec_bind, hid, hsize]
  rcases hhost : Room.getPeerById (s.peers p).room (s.peers p).peerId s with - | host
  · left
    simp [shareFiles, Handler.exec_bind, hid, hsize, Room.shareFile, hhost]
  · right
    refine ⟨host, clientFileId, fileDto.name, size, rfl, ?_⟩
    simp [shareFiles, Handler.exec_bind, hid, hsize, Room.shareFile, hhost]

end Peer

namespace Traffic

open Chat (Stage)

variable {fw : Framework} {config : ConfigDto} {s s' : State}

/-! ### What a step does to the files -/

/-- A step shares a file, subscribes to one, hands a chunk over, or does none
of these. -/
inductive Supplies (s : State) : Act → State → Prop
  | quiet {a s'} (honlyRemoves : OnlyRemoves s.server s'.server) (hshared : s'.shared = s.shared) :
      Supplies s a s'
  | shareFile {k p timestamp currFile todo shared host clientFileId fileName fileSize s'}
      (h : (s.chat.sockets k).stage = .shareFiles p timestamp (currFile :: todo) shared)
      (hhost : Room.getPeerById (s.server.peers p).room (s.server.peers p).peerId s.server =
        some host)
      (hserver : s'.server = (Room.registerFile (s.server.peers p).room host clientFileId fileName
        fileSize s.server).2)
      (hshared : s'.shared = (s.server.fileCount, p) :: s.shared) :
      Supplies s (.chat (.run k)) s'
  | subscribe {i f s'} (h : s.downloads i = .subscribe f)
      (hserver : s'.server = (File.subscribe f s.server).2) (hshared : s'.shared = s.shared) :
      Supplies s (.getFile i) s'
  | provide {k chunk σ sub s'} (hchunk : s.chunks k = some chunk)
      (hσ : (s.server.files chunk.file).subscribers.lookup chunk.subscriberId = some σ)
      (hsub : s.server.subscribers σ = some sub) (hempty : sub.chunk = none)
      (hserver : s'.server = s.server.modifySubscriber σ fun _ =>
        { sub with chunk := some chunk.data })
      (hshared : s'.shared = s.shared) : Supplies s (.provide k) s'

theorem run_supplies {k : SocketRef} (hs : s.run config k = some s') :
    Supplies s (.chat (.run k)) s' := by
  unfold State.run at hs
  split at hs
  · cases hs
  next chat hchat =>
  obtain rfl := Option.some.inj hs
  unfold Chat.State.run at hchat
  -- one case for each stage that has a step
  rcases hstage : (s.chat.sockets k).stage with - | - | ρ | ⟨purpose, p, dto⟩ |
    ⟨purpose, p, message⟩ | p | p | ⟨p, peers⟩ | ⟨p, info⟩ | p |
    ⟨p, timestamp, - | ⟨currFile, todo⟩, shared⟩ | p | p | p | p | - <;>
    simp only [hstage, Option.some.injEq, reduceCtorEq] at hchat
  case getOrCreateRoom =>
    subst hchat
    exact .quiet (onlyRemoves_getOrCreateRoom _ _) rfl
  case createPeer =>
    subst hchat
    exact .quiet (onlyRemoves_createPeer _ _ _ _) rfl
  case record =>
    subst hchat
    have hcreate : OnlyRemoves s.server (s.server.createShared dto).2 :=
      .of_catalogue rfl rfl rfl rfl
    exact .quiet (hcreate.trans (onlyRemoves_addHistoryMessage _ _ _ _)) rfl
  case broadcast =>
    subst hchat
    have hcount : ∀ t, OnlyRemoves t (Chat.State.countMessage message.val t) := by
      intro t
      unfold Chat.State.countMessage
      split
      · exact .of_catalogue rfl rfl rfl rfl
      · exact .refl t
    exact .quiet ((onlyRemoves_broadcast _ _ _).trans (hcount _)) rfl
  case addPeer =>
    subst hchat
    exact .quiet (onlyRemoves_addPeer _ _ _) rfl
  case onboardPeer =>
    subst hchat
    exact .quiet (.refl _) rfl
  case getHistory =>
    subst hchat
    exact .quiet (.of_catalogue rfl rfl rfl rfl) rfl
  case sendInfo =>
    subst hchat
    exact .quiet (onlyRemoves_sendMessageAsync _ _ _) rfl
  case shareFiles.nil =>
    subst hchat
    refine .quiet (.refl _) ?_
    simp [State.sharedBy, State.server, Chat.State.goto]
  -- the only turn of a socket that registers a file
  case shareFiles.cons =>
    have hserver : chat.server = ((Peer.shareFiles p [currFile]).exec s.server).2 := by
      split at hchat <;> obtain rfl := Option.some.inj hchat
      · next hexec => exact (congrArg Prod.snd hexec).symm
      · next hexec => exact (congrArg Prod.snd hexec).symm
    rcases Peer.shareFiles_one p currFile s.server with
      hsame | ⟨host, clientFileId, fileName, fileSize, hhost, hregister⟩
    -- the entry is null or a field of it is: the handler throws before it registers
    · rw [hsame] at hserver
      refine .quiet ?_ ?_
      · show OnlyRemoves _ chat.server
        rw [hserver]
        exact .refl _
      · simp [State.sharedBy, hserver]
    · rw [hregister] at hserver
      refine .shareFile hstage hhost hserver ?_
      have hcount : chat.server.fileCount = s.server.fileCount + 1 := by
        rw [hserver]
        rfl
      simp [State.sharedBy, hcount]
  case removePeerById =>
    subst hchat
    have hcount : OnlyRemoves s.server (Lobby.countDisconnected s.server) :=
      .of_catalogue rfl rfl rfl rfl
    exact .quiet (hcount.trans (onlyRemoves_removePeerById _ _ _)) rfl
  case invalidateSocket =>
    subst hchat
    exact .quiet (onlyRemoves_invalidateSocket _ _) rfl
  case isEmpty =>
    subst hchat
    exact .quiet (.refl _) rfl
  case deleteRoom =>
    subst hchat
    exact .quiet (.of_tables le_rfl (fun _ _ => rfl) (fun _ _ _ h => h) rfl rfl rfl rfl) rfl

/-- The clock is read and messages are allocated. -/
def Frame (s t : Server) : Prop := ∃ clockReads objectCount, t = { s with clockReads, objectCount }

theorem Frame.onlyRemoves {s t : Server} (h : Frame s t) : OnlyRemoves s t := by
  obtain ⟨_, _, rfl⟩ := h
  exact .of_catalogue rfl rfl rfl rfl

theorem receiveChunk_frame (k : SocketRef) (p : PeerRef) (message : MessageDto) :
    Frame s.server (s.receiveChunk fw k p message).server := by
  obtain ⟨n, -, hframe⟩ := Peer.lookUpChunk_frame fw p (State.stamp p message s.server).1.val
    (State.stamp p message s.server).2
  unfold State.receiveChunk
  dsimp only
  split
  · next hexec =>
    rw [hexec] at hframe
    exact ⟨_, _, hframe⟩
  · next hexec =>
    rw [hexec] at hframe
    exact ⟨_, _, hframe⟩

/-- A client's message is not yet acted on. -/
theorem receive_frame {k : SocketRef} {message : MessageDto} {c c' : Chat.State}
    (hcode : message.code ≠ some .codeFileChunkData)
    (hs : c.receive fw config k message = some c') : Frame c.server c'.server := by
  unfold Chat.State.receive at hs
  split at hs
  · next p _ =>
    dsimp only at hs
    split at hs
    · obtain rfl := Option.some.inj hs
      exact ⟨_, _, rfl⟩
    · obtain rfl := Option.some.inj hs
      exact ⟨_, _, rfl⟩
    · have hframe : Frame c.server ((Peer.validateFilesList p message.files).exec
          c.server.getMicroTickCount.2).2 := by
        rcases message.files with - | files
        · exact ⟨_, _, rfl⟩
        · obtain ⟨_, _, hvalidate⟩ :=
            Peer.exec_validateFilesList_some p files c.server.getMicroTickCount.2
          rw [hvalidate]
          exact ⟨_, _, rfl⟩
      split at hs <;> obtain rfl := Option.some.inj hs
      · next hexec =>
        rw [Peer.stampMessage] at hexec
        rw [hexec] at hframe
        exact hframe
      · next hexec =>
        rw [Peer.stampMessage] at hexec
        rw [hexec] at hframe
        obtain ⟨_, _, hframe⟩ := hframe
        dsimp only at hframe
        subst hframe
        exact ⟨_, _, rfl⟩
    · next hmessage htyping hshare =>
      -- what is left is answered with an error
      have hframe : ∀ t : Object MessageDto × Server, t.1.val.code = message.code →
          Frame t.2 ((Peer.handleMessage fw config p t.1).exec t.2).2 := by
        intro t hcode'
        unfold Peer.handleMessage
        rw [Handler.exec_bind, Handler.exec_get]
        dsimp only
        rw [hcode']
        split
        · exact ⟨_, _, rfl⟩
        · next h => exact absurd h hmessage
        · next h => exact absurd h htyping
        · next h => exact absurd h hshare
        · next h => exact absurd h hcode
        · exact ⟨_, _, rfl⟩
      obtain ⟨_, _, hframe⟩ := hframe (c.server.getMicroTickCount.2.createShared
        (Peer.stampMessage (c.server.peers p) c.server.getMicroTickCount.1 message)) rfl
      split at hs <;> obtain rfl := Option.some.inj hs
      · next hexec =>
        rw [hexec] at hframe
        exact ⟨_, _, hframe⟩
      · next hexec =>
        rw [hexec] at hframe
        exact ⟨_, _, hframe⟩
  · cases hs

/-- A chunk fills the empty chunk of a subscriber, or nothing happens to the server. -/
theorem provide_cases {k : SocketRef} (hs : s.provide k = some s') :
    s'.shared = s.shared ∧ (s'.server = s.server ∨ ∃ p chunk σ sub,
      (s.chat.sockets k).stage = .joined p ∧ s.chunks k = some chunk ∧
        (s.server.files chunk.file).subscribers.lookup chunk.subscriberId = some σ ∧
          s.server.subscribers σ = some sub ∧ sub.chunk = none ∧
            s'.server = (s.server.modifySubscriber σ fun _ =>
              { sub with chunk := some chunk.data }) ∧
              (s'.chat.sockets k).stage = .joined p) := by
  unfold State.provide at hs
  split at hs
  · next p chunk hstage hchunk =>
    have hexec := File.provideFileChunk_exec chunk.file chunk.subscriberId chunk.data s.server
    have hserver : ({ s with chunks := Function.update s.chunks k none } : State).server =
        s.server := rfl
    dsimp only at hs
    rw [hserver, hexec] at hs
    rcases hσ : (s.server.files chunk.file).subscribers.lookup chunk.subscriberId with - | σ <;>
      simp only [hσ] at hs
    · obtain rfl := Option.some.inj hs
      exact ⟨rfl, .inl rfl⟩
    rcases hsub : s.server.subscribers σ with - | sub <;> simp only [hsub] at hs
    · obtain rfl := Option.some.inj hs
      exact ⟨rfl, .inl rfl⟩
    rcases hprovide : sub.provideFileChunk chunk.data with fault | sub' <;>
      simp only [hprovide] at hs
    · obtain rfl := Option.some.inj hs
      exact ⟨rfl, .inl rfl⟩
    · obtain ⟨hempty, rfl⟩ := Subscriber.provideFileChunk_eq_ok.mp hprovide
      obtain rfl := Option.some.inj hs
      exact ⟨rfl, .inr ⟨p, chunk, σ, sub, hstage, hchunk, hσ, hsub, hempty, rfl,
        by simp [Chat.State.goto]⟩⟩
  · cases hs

theorem step_supplies {a : Act} (hs : s.step fw config a = some s') : Supplies s a s' := by
  -- a step of the chat alone is judged by the servers before and after it
  have hlift : ∀ b, (s.chat.step fw config b).map (fun chat => { s with chat }) = some s' →
      (∀ c, s.chat.step fw config b = some c → OnlyRemoves s.server c.server) →
      Supplies s (.chat b) s' := by
    intro b hb honlyRemoves
    obtain ⟨chat, hchat, rfl⟩ := Option.map_eq_some_iff.mp hb
    exact .quiet (honlyRemoves chat hchat) rfl
  cases a with
  | chat b =>
      cases b with
      | run k => exact run_supplies hs
      | receive k message =>
          simp only [State.step, State.receive] at hs
          split at hs
          · next p _ _ =>
            split at hs
            · obtain rfl := Option.some.inj hs
              let s₁ : State := { s with arrivals := ⟨k, p, message⟩ :: s.arrivals }
              refine .quiet (receiveChunk_frame (s := s₁) k p message).onlyRemoves ?_
              unfold State.receiveChunk
              dsimp only
              split
              · rfl
              · rfl
            · next hcode =>
              obtain ⟨chat, hchat, rfl⟩ := Option.map_eq_some_iff.mp hs
              exact .quiet (receive_frame hcode hchat).onlyRemoves rfl
          · cases hs
      | close k =>
          simp only [State.step] at hs
          -- a chunk message is looked up at once; any other message is left to the socket's turn
          split at hs
          · refine hlift _ hs fun c hc => ?_
            simp only [Chat.State.step] at hc
            split at hc
            · obtain rfl := Option.some.inj hc
              exact .refl _
            · cases hc
          · cases hs
      | connect k roomName nickname =>
          refine hlift _ hs fun c hc => ?_
          simp only [Chat.State.step] at hc
          split at hc
          · obtain rfl := Option.some.inj hc
            exact .of_catalogue rfl rfl rfl rfl
          · cases hc
      | pingAllPeers ρ =>
          refine hlift _ hs fun c hc => ?_
          obtain rfl := Option.some.inj hc
          exact onlyRemoves_pingAllPeers _ _
      | onPong p =>
          refine hlift _ hs fun c hc => ?_
          obtain rfl := Option.some.inj hc
          exact onlyRemoves_onPong _ _
  | provide k =>
      -- `provideChunk` fills the chunk of a subscriber, or throws and changes nothing
      obtain ⟨hshared, hsame | ⟨p, chunk, σ, sub, hstage, hchunk, hσ, hsub, hempty, hserver, -⟩⟩ :=
        provide_cases hs
      · refine .quiet ?_ hshared
        rw [hsame]
        exact .refl _
      · exact .provide hchunk hσ hsub hempty hserver hshared
  | getRoom i roomId fileId =>
      simp only [State.step] at hs
      split at hs
      · obtain rfl := Option.some.inj hs
        exact .quiet (.refl _) rfl
      · cases hs
  | getFile i =>
      simp only [State.step, State.getFile] at hs
      split at hs
      · obtain rfl := Option.some.inj hs
        exact .quiet (.refl _) rfl
      -- `GetFile` has found the file: the only step that subscribes
      · next f hdownload =>
        obtain rfl := Option.some.inj hs
        exact .subscribe hdownload rfl rfl
      · cases hs
  | read i count =>
      simp only [State.step, State.read] at hs
      split at hs
      · obtain rfl := Option.some.inj hs
        exact .quiet (onlyRemoves_read _ _ _) rfl
      · cases hs
  | drop i =>
      simp only [State.step, State.drop] at hs
      split at hs
      · obtain rfl := Option.some.inj hs
        exact .quiet (onlyRemoves_destroy _ _) rfl
      · obtain rfl := Option.some.inj hs
        exact .quiet (onlyRemoves_destroy _ _) rfl
      · cases hs

/-! ### Chunks under way -/

/-- The message `k` has sent last. -/
def State.latest (k : SocketRef) (s : State) : Option Arrival := Traffic.latest s.arrivals k

theorem latest_of_ne {k : SocketRef} {arrival : Arrival}
    (h : s'.arrivals = arrival :: s.arrivals) (hne : k ≠ arrival.socket) :
    s'.latest k = s.latest k := by
  rw [State.latest, h]
  exact latest_cons_of_ne hne

theorem latest_self {arrival : Arrival} (h : s'.arrivals = arrival :: s.arrivals) :
    s'.latest arrival.socket = some arrival := by
  rw [State.latest, h]
  exact latest_cons_self _ _

/-- `chunk` is what `message` hands over: the file found under its id in the
sender's room, whose host has the sender's id. -/
structure Found (fw : Framework) (s : Server) (p : PeerRef) (message : MessageDto)
    (chunk : Chunk) : Prop where
  code : message.code = some .codeFileChunkData
  files : ∃ dto id text, message.files = some [some dto] ∧ dto.serverFileId = some id ∧
    dto.subscriberId = some chunk.subscriberId ∧ dto.data = some text ∧
      fw.base64Decode text = some chunk.data ∧
        Room.getFileById (s.catalogue.room p) id s = some chunk.file
  host : s.catalogue.peerId (s.catalogue.host chunk.file) = s.catalogue.peerId p

theorem receiveChunk_chunks {k j : SocketRef} {p : PeerRef} {message : MessageDto} {chunk : Chunk}
    (hnone : s.chunks j = none) (hcode : message.code = some .codeFileChunkData)
    (h : (s.receiveChunk fw j p message).chunks k = some chunk) :
    (k ≠ j ∧ s.chunks k = some chunk) ∨ k = j ∧ Found fw s.server p message chunk := by
  unfold State.receiveChunk at h
  dsimp only at h
  split at h
  · next c server hexec =>
    rcases eq_or_ne k j with rfl | hne
    · obtain rfl : c = some chunk := by simpa using h
      obtain ⟨dto, id, text, hfiles, hid, hsub, hdata, hdecode, hf, hhost⟩ :=
        Peer.lookUpChunk_eq_some (congrArg Prod.fst hexec)
      exact .inr ⟨rfl, hcode, ⟨dto, id, text, hfiles, hid, hsub, hdata, hdecode, hf⟩, hhost⟩
    · exact .inl ⟨hne, by simpa [hne] using h⟩
  · rcases eq_or_ne k j with rfl | hne
    · rw [show s.chunks k = some chunk from h] at hnone
      cases hnone
    · exact .inl ⟨hne, h⟩

/-- A chunk under way was so before, or has just been found. -/
theorem step_chunks {a : Act} {k : SocketRef} {chunk : Chunk} (hs : s.step fw config a = some s')
    (hchunk : s'.chunks k = some chunk) :
    (s.chunks k = some chunk ∧ s'.latest k = s.latest k) ∨
      ∃ p message, a = .chat (.receive k message) ∧ (s.chat.sockets k).stage = .joined p ∧
        s'.latest k = some ⟨k, p, message⟩ ∧ Found fw s.server p message chunk := by
  -- the steps of the chat alone leave the chunks and the arrivals
  have hlift : ∀ b, (s.chat.step fw config b).map (fun chat => { s with chat }) = some s' →
      s.chunks k = some chunk ∧ s'.latest k = s.latest k := by
    intro b hb
    obtain ⟨chat, -, rfl⟩ := Option.map_eq_some_iff.mp hb
    exact ⟨hchunk, rfl⟩
  cases a with
  | chat b =>
      cases b with
      | run j =>
          simp only [State.step, State.run] at hs
          split at hs
          · cases hs
          · obtain rfl := Option.some.inj hs
            exact .inl ⟨hchunk, rfl⟩
      | receive j message =>
          simp only [State.step, State.receive] at hs
          split at hs
          · next p hstage hnone =>
            let s₁ : State := { s with arrivals := ⟨j, p, message⟩ :: s.arrivals }
            -- `lookUpChunk` runs for a chunk message only; other messages take the socket's turn
            split at hs
            · next hcode =>
              obtain rfl := Option.some.inj hs
              have harrivals := @receiveChunk_arrivals fw s₁ j p message
              rcases receiveChunk_chunks (s := s₁) hnone hcode hchunk with
                ⟨hne, hold⟩ | ⟨rfl, hfound⟩
              · exact .inl ⟨hold, latest_of_ne harrivals hne⟩
              · exact .inr ⟨p, message, rfl, hstage, latest_self harrivals, hfound⟩
            · obtain ⟨chat, -, rfl⟩ := Option.map_eq_some_iff.mp hs
              have hne : k ≠ j := by
                rintro rfl
                -- a socket with a chunk in hand handles no other message
                rw [show s.chunks k = some chunk from hchunk] at hnone
                cases hnone
              exact .inl ⟨hchunk, latest_of_ne rfl hne⟩
          · cases hs
      | close j =>
          simp only [State.step] at hs
          split at hs
          · exact .inl (hlift (.close j) hs)
          · cases hs
      | connect j roomName nickname => exact .inl (hlift (.connect j roomName nickname) hs)
      | pingAllPeers ρ => exact .inl (hlift (.pingAllPeers ρ) hs)
      | onPong p => exact .inl (hlift (.onPong p) hs)
  -- `provideChunk` clears the chunk of its own socket
  | provide j =>
      have hold : ∀ chunks, chunks = Function.update s.chunks j none → chunks k = some chunk →
          s.chunks k = some chunk := by
        rintro _ rfl h
        rcases eq_or_ne k j with rfl | hne
        · simp at h
        · simpa [hne] using h
      simp only [State.step, State.provide] at hs
      split at hs
      · split at hs <;> obtain rfl := Option.some.inj hs
        · exact .inl ⟨hold _ rfl hchunk, rfl⟩
        · exact .inl ⟨hold _ rfl hchunk, rfl⟩
      · cases hs
  | getRoom i roomId fileId =>
      simp only [State.step] at hs
      split at hs
      · obtain rfl := Option.some.inj hs
        exact .inl ⟨hchunk, rfl⟩
      · cases hs
  | getFile i =>
      simp only [State.step, State.getFile] at hs
      split at hs
      · obtain rfl := Option.some.inj hs
        exact .inl ⟨hchunk, rfl⟩
      · obtain rfl := Option.some.inj hs
        exact .inl ⟨hchunk, rfl⟩
      · cases hs
  | read i count =>
      simp only [State.step, State.read] at hs
      split at hs
      · obtain rfl := Option.some.inj hs
        exact .inl ⟨hchunk, rfl⟩
      · cases hs
  | drop i =>
      simp only [State.step, State.drop] at hs
      split at hs
      · obtain rfl := Option.some.inj hs
        exact .inl ⟨hchunk, rfl⟩
      · obtain rfl := Option.some.inj hs
        exact .inl ⟨hchunk, rfl⟩
      · cases hs

/-- A download about to subscribe has found its file. -/
theorem step_downloads {a : Act} {i : ℕ} {f : FileRef} (hs : s.step fw config a = some s')
    (hf : s'.downloads i = .subscribe f) :
    s.downloads i = .subscribe f ∨ ∃ ρ id, Room.getFileById ρ id s.server = some f := by
  -- a step of the chat server leaves every download as it was
  have hlift : ∀ b, (s.chat.step fw config b).map (fun chat => { s with chat }) = some s' →
      s.downloads i = .subscribe f := by
    intro b hb
    obtain ⟨chat, -, rfl⟩ := Option.map_eq_some_iff.mp hb
    exact hf
  -- a step that rewrites download `j` has to justify only a new `.subscribe`
  have hother : ∀ {j : ℕ} {download : Download}, (download = .subscribe f →
      ∃ ρ id, Room.getFileById ρ id s.server = some f) →
      Function.update s.downloads j download i = .subscribe f →
        s.downloads i = .subscribe f ∨ ∃ ρ id, Room.getFileById ρ id s.server = some f := by
    intro j download hdownload h
    rcases eq_or_ne i j with rfl | hne
    · exact .inr (hdownload (by simpa using h))
    · exact .inl (by simpa [hne] using h)
  cases a with
  | chat b =>
      cases b with
      | run j =>
          simp only [State.step, State.run] at hs
          split at hs
          · cases hs
          · obtain rfl := Option.some.inj hs
            exact .inl hf
      | receive j message =>
          simp only [State.step, State.receive] at hs
          split at hs
          -- whether or not the chunk is accepted, the downloads stay as they are
          · split at hs
            · obtain rfl := Option.some.inj hs
              unfold State.receiveChunk at hf
              dsimp only at hf
              split at hf
              · exact .inl hf
              · exact .inl hf
            · obtain ⟨chat, -, rfl⟩ := Option.map_eq_some_iff.mp hs
              exact .inl hf
          · cases hs
      | close j =>
          simp only [State.step] at hs
          split at hs
          · exact .inl (hlift (.close j) hs)
          · cases hs
      | connect j roomName nickname => exact .inl (hlift (.connect j roomName nickname) hs)
      | pingAllPeers ρ => exact .inl (hlift (.pingAllPeers ρ) hs)
      | onPong p => exact .inl (hlift (.onPong p) hs)
  | provide j =>
      simp only [State.step, State.provide] at hs
      split at hs
      · split at hs <;> obtain rfl := Option.some.inj hs
        · exact .inl hf
        · exact .inl hf
      · cases hs
  | getRoom j roomId fileId =>
      simp only [State.step] at hs
      split at hs
      · obtain rfl := Option.some.inj hs
        refine hother (fun h => ?_) hf
        split at h
        · cases h
        · cases h
      · cases hs
  | getFile j =>
      simp only [State.step, State.getFile] at hs
      split at hs
      · next ρ fileId _ =>
        obtain rfl := Option.some.inj hs
        -- the one branch that ends in `.subscribe`: `getFileById` has just returned the file
        refine hother (fun h => ?_) hf
        split at h
        · next g hg =>
          obtain rfl := Download.subscribe.inj h
          exact ⟨ρ, fileId, hg⟩
        · cases h
      · obtain rfl := Option.some.inj hs
        refine hother (fun h => ?_) hf
        cases h
      · cases hs
  | read j count =>
      simp only [State.step, State.read] at hs
      split at hs
      · obtain rfl := Option.some.inj hs
        refine hother (fun h => ?_) hf
        split at h
        · cases h
        · cases h
      · cases hs
  | drop j =>
      simp only [State.step, State.drop] at hs
      split at hs
      · obtain rfl := Option.some.inj hs
        refine hother (fun h => ?_) hf
        cases h
      · obtain rfl := Option.some.inj hs
        refine hother (fun h => ?_) hf
        cases h
      · cases hs

/-! ### The sender of a chunk -/

/-- The message hands `chunk` over, a part of a file its sender hosts. -/
structure Carries (fw : Framework) (s : Server) (arrival : Arrival) (chunk : Chunk) : Prop where
  code : arrival.message.code = some .codeFileChunkData
  files : ∃ dto text, arrival.message.files = some [some dto] ∧
    dto.serverFileId = some (s.catalogue.serverFileId chunk.file) ∧
      dto.subscriberId = some chunk.subscriberId ∧ dto.data = some text ∧
        fw.base64Decode text = some chunk.data
  file_lt : chunk.file < s.fileCount
  host : s.catalogue.host chunk.file = arrival.peer

/-- Every chunk comes from the host of its file. -/
structure Fed (fw : Framework) (s : State) : Prop where
  stored : Stored s.server
  shared : ∀ f p, (f, p) ∈ s.shared ↔ f < s.server.fileCount ∧ s.server.catalogue.host f = p
  subscribing : ∀ i f, s.downloads i = .subscribe f → f < s.server.fileCount
  pending : ∀ k chunk, s.chunks k = some chunk →
    ∃ arrival, s.latest k = some arrival ∧ Carries fw s.server arrival chunk
  held : ∀ σ sub data, s.server.subscribers σ = some sub → sub.chunk = some data →
    ∃ arrival ∈ s.arrivals, Carries fw s.server arrival ⟨sub.file, sub.id, data⟩

/-- Files keep their hosts and ids. -/
structure Settled (s t : Server) : Prop where
  fileCount : s.fileCount ≤ t.fileCount
  host : ∀ f < s.fileCount, t.catalogue.host f = s.catalogue.host f
  serverFileId : ∀ f < s.fileCount, t.catalogue.serverFileId f = s.catalogue.serverFileId f

theorem Settled.of_catalogue {s t : Server} (h : t.catalogue = s.catalogue) : Settled s t := by
  refine ⟨(congrArg Catalogue.fileCount h).ge, fun f _ => ?_, fun f _ => ?_⟩
  · rw [h]
  · rw [h]

theorem Supplies.settled {a : Act} (h : Supplies s a s') : Settled s.server s'.server := by
  cases h with
  | quiet honlyRemoves _ =>
      refine ⟨honlyRemoves.fileCount.ge, fun f _ => ?_, fun f _ => ?_⟩
      · rw [honlyRemoves.host]
      · rw [honlyRemoves.serverFileId]
  | shareFile _ _ hserver _ =>
      rw [hserver]
      refine ⟨Nat.le_succ _, fun f hf => ?_, fun f hf => ?_⟩
      · rw [catalogue_registerFile]
        exact Function.update_of_ne hf.ne _ _
      · rw [catalogue_registerFile]
        exact Function.update_of_ne hf.ne _ _
  | subscribe _ hserver _ =>
      rw [hserver]
      exact .of_catalogue (catalogue_subscribe _ _)
  | provide _ _ _ _ hserver _ =>
      rw [hserver]
      exact .of_catalogue rfl

theorem Carries.mono {s t : Server} {arrival : Arrival} {chunk : Chunk}
    (h : Carries fw s arrival chunk) (hst : Settled s t) : Carries fw t arrival chunk where
  code := h.code
  files := by
    rw [hst.serverFileId _ h.file_lt]
    exact h.files
  file_lt := h.file_lt.trans_le hst.fileCount
  host := (hst.host _ h.file_lt).trans h.host

/-- The file is the sender's own: no two peers have one id. -/
theorem Found.carries {s : State} {k : SocketRef} {p : PeerRef} {message : MessageDto}
    {chunk : Chunk} (h : Found fw s.server p message chunk) (hstored : Stored s.server)
    (hsound : Chat.Sound s.chat.view) (hp : p < s.server.peerCount) :
    Carries fw s.server ⟨k, p, message⟩ chunk := by
  obtain ⟨dto, id, text, hfiles, hid, hsubscriber, hdata, hdecode, hf⟩ := h.files
  obtain ⟨hlt, rfl, -⟩ := hstored.found _ _ _ hf
  exact ⟨h.code, ⟨dto, text, hfiles, hid, hsubscriber, hdata, hdecode⟩, hlt,
    hsound.peerId_inj _ (hstored.host_lt _ hlt) p hp h.host⟩

/-- The host of a file is the peer that shares it. -/
theorem host_of_member {s : State} (hsound : Chat.Sound s.chat.view) {k : SocketRef}
    {p host : PeerRef} (hphase : (s.chat.sockets k).stage.phase = some (.staying, p))
    (hhost : Room.getPeerById (s.server.peers p).room (s.server.peers p).peerId s.server =
      some host) : host = p ∧ p < s.server.peerCount := by
  have hmember := hsound.member hphase rfl
  exact ⟨Option.some.inj (hhost.symm.trans hmember), (hsound.phase k _ p hphase).1⟩

namespace Fed

theorem stored_step {a : Act} (h : Fed fw s) (hsound : Chat.Sound s.chat.view)
    (hsupplies : Supplies s a s') : Stored s'.server := by
  cases hsupplies with
  | quiet honlyRemoves _ => exact h.stored.onlyRemoves honlyRemoves
  | @shareFile k p _ _ _ _ host _ _ _ _ hstage hhost hserver _ =>
      have hphase : (s.chat.sockets k).stage.phase = some (.staying, p) := by
        rw [hstage]
        rfl
      obtain ⟨rfl, hlt⟩ := host_of_member hsound hphase hhost
      rw [hserver]
      exact h.stored.registerFile hlt _ _ _
  | subscribe hdownload hserver _ =>
      rw [hserver]
      exact h.stored.subscribe (h.subscribing _ _ hdownload)
  | provide _ _ hsub _ hserver _ =>
      rw [hserver]
      exact h.stored.modifySubscriber hsub _

theorem shared_step {a : Act} (h : Fed fw s) (hsound : Chat.Sound s.chat.view)
    (hsupplies : Supplies s a s') (f : FileRef) (p : PeerRef) :
    (f, p) ∈ s'.shared ↔ f < s'.server.fileCount ∧ s'.server.catalogue.host f = p := by
  cases hsupplies with
  | quiet honlyRemoves hshared =>
      rw [hshared, honlyRemoves.fileCount, honlyRemoves.host]
      exact h.shared f p
  | @shareFile k q _ _ _ _ host clientFileId fileName fileSize _ hstage hhost hserver hshared =>
      have hphase : (s.chat.sockets k).stage.phase = some (.staying, q) := by
        rw [hstage]
        rfl
      obtain ⟨rfl, hlt⟩ := host_of_member hsound hphase hhost
      rw [hshared, hserver, catalogue_registerFile, List.mem_cons, h.shared, Prod.mk.injEq]
      show _ ↔ f < s.server.fileCount + 1 ∧
        Function.update s.server.catalogue.host s.server.fileCount host f = p
      rcases eq_or_ne f s.server.fileCount with rfl | hne
      · simp [eq_comm]
      · rw [Function.update_of_ne hne, Nat.lt_succ_iff_lt_or_eq]
        simp [hne]
  | subscribe _ hserver hshared =>
      rw [hshared, hserver, catalogue_subscribe]
      exact h.shared f p
  | provide _ _ _ _ hserver hshared =>
      rw [hshared, hserver]
      exact h.shared f p

/-- A chunk that waits to be read was there before, or comes from a socket. -/
theorem held_step {a : Act} (h : Fed fw s) (hsupplies : Supplies s a s') {σ : SubscriberRef}
    {sub : Subscriber} {data : Bytes} (hsub : s'.server.subscribers σ = some sub)
    (hdata : sub.chunk = some data) :
    ∃ arrival ∈ s.arrivals, Carries fw s.server arrival ⟨sub.file, sub.id, data⟩ := by
  cases hsupplies with
  | quiet honlyRemoves _ =>
      obtain ⟨sub₀, hsub₀, hfile, hid, hchunk⟩ := honlyRemoves.subscriber σ sub hsub
      rw [hfile, hid]
      exact h.held σ sub₀ data hsub₀ (hchunk data hdata)
  | shareFile _ _ hserver _ =>
      rw [hserver] at hsub
      exact h.held σ sub data hsub hdata
  | @subscribe i f _ _ hserver _ =>
      rw [hserver] at hsub
      rcases eq_or_ne σ s.server.subscriberCount with rfl | hne
      · -- a new subscriber has no chunk
        obtain rfl :
          ({ id := (s.server.files f).subscriberIdCounter, file := f } : Subscriber) = sub := by
          simpa [File.subscribe] using hsub
        cases hdata
      · exact h.held σ sub data (by simpa [File.subscribe, hne] using hsub) hdata
  | @provide k chunk τ sub₀ _ hchunk hτ hsub₀ _ hserver _ =>
      rw [hserver] at hsub
      rcases eq_or_ne σ τ with rfl | hne
      · obtain rfl : { sub₀ with chunk := some chunk.data } = sub := by simpa [hsub₀] using hsub
        obtain rfl := Option.some.inj hdata
        -- the table leads to the subscriber the message names
        obtain ⟨sub₁, hsub₁, hfile, hid⟩ := h.stored.listed _ _ _ hτ
        obtain rfl := Option.some.inj (hsub₀.symm.trans hsub₁)
        obtain ⟨arrival, hlatest, hcarries⟩ := h.pending k chunk hchunk
        refine ⟨arrival, List.mem_of_find?_eq_some hlatest, ?_⟩
        dsimp only
        rwa [hfile, hid]
      · exact h.held σ sub data (by simpa [hne] using hsub) hdata

theorem step {a : Act} (h : Fed fw s) (hsound : Chat.Sound s.chat.view)
    (hs : s.step fw config a = some s') : Fed fw s' := by
  have hsupplies := step_supplies hs
  have hsettled := hsupplies.settled
  refine ⟨h.stored_step hsound hsupplies, h.shared_step hsound hsupplies, ?_, ?_, ?_⟩
  · intro i f hf
    refine lt_of_lt_of_le ?_ hsettled.fileCount
    rcases step_downloads hs hf with hf | ⟨ρ, id, hf⟩
    · exact h.subscribing i f hf
    · exact (h.stored.found ρ id f hf).1
  · intro k chunk hchunk
    rcases step_chunks hs hchunk with ⟨hchunk, hlatest⟩ | ⟨p, message, -, hstage, hlatest, hfound⟩
    · obtain ⟨arrival, harrival, hcarries⟩ := h.pending k chunk hchunk
      exact ⟨arrival, hlatest.trans harrival, hcarries.mono hsettled⟩
    · have hphase : (s.chat.sockets k).stage.phase = some (.staying, p) := by
        rw [hstage]
        rfl
      have hcarries := hfound.carries (k := k) h.stored hsound (hsound.phase k _ p hphase).1
      exact ⟨_, hlatest, hcarries.mono hsettled⟩
  · intro σ sub data hsub hdata
    obtain ⟨arrival, hmem, hcarries⟩ := h.held_step hsupplies hsub hdata
    exact ⟨arrival, step_arrivals hs hmem, hcarries.mono hsettled⟩

end Fed

theorem fed (hs : (system fw config).Reachable s) : Fed fw s := by
  refine Transition.System.ReachableVia.invariant (I := Fed fw) ?_
    (fun s a t hreach h _ hstep => h.step (sound hreach.reachable) hstep) hs
  rintro _ ⟨clock, rfl⟩
  refine ⟨.fresh clock, fun f p => ?_, ?_, ?_, ?_⟩
  · exact iff_of_false (by simp) fun h => absurd h.1 (Nat.not_lt_zero f)
  · exact fun i f hf => nomatch hf
  · exact fun k chunk hchunk => nomatch hchunk
  · exact fun σ sub data hsub => nomatch hsub

/-! ### Reads and chunk messages -/

/-- The bytes of a read were waiting in the subscriber, or the file has been read. -/
theorem read_bytes {s : Server} {σ : SubscriberRef} {count : Int} {data : Bytes}
    (h : ((Subscriber.read σ count).exec s).1 = .ok (.bytes data)) :
    ∃ sub, s.subscribers σ = some sub ∧ (sub.chunk = some data ∨
      data = [] ∧ s.catalogue.fileSize sub.file ≤ sub.progress) := by
  rcases hsub : s.subscribers σ with - | sub
  · rw [Subscriber.read_exec_none hsub] at h
    cases h
  refine ⟨sub, rfl, ?_⟩
  rw [Subscriber.read_exec hsub] at h
  split at h
  · cases h
  · cases h
  · next hread =>
    obtain rfl := ReadResult.bytes.inj (Except.ok.inj h)
    obtain ⟨-, ⟨chunk, -, hchunk, -, heq, -⟩ | ⟨-, -, heq, -⟩ | ⟨hend, heq, -⟩⟩ :=
      Subscriber.readChunk_eq_ok hread
    · obtain rfl := ReadResult.bytes.inj heq
      exact .inl hchunk
    · cases heq
    · exact .inr ⟨ReadResult.bytes.inj heq, hend⟩

/-- A chunk message that is looked up changes no download, and goes no further
unless its sender hosts the file it names. -/
theorem receive_chunk (hs : (system fw config).Reachable s) {k : SocketRef} {message : MessageDto}
    (hcode : message.code = some .codeFileChunkData)
    (hstep : s.step fw config (.chat (.receive k message)) = some s') :
    s'.server.subscribers = s.server.subscribers ∧ ∀ chunk, s'.chunks k = some chunk →
      ∃ p, (s.chat.sockets k).stage = .joined p ∧ Found fw s.server p message chunk ∧
        Carries fw s.server ⟨k, p, message⟩ chunk := by
  have hnone : s.chunks k = none := by
    simp only [State.step, State.receive] at hstep
    split at hstep
    · next hnone => exact hnone
    · cases hstep
  refine ⟨?_, fun chunk hchunk => ?_⟩
  · simp only [State.step, State.receive, hcode] at hstep
    split at hstep
    · next p _ _ =>
      let s₁ : State := { s with arrivals := ⟨k, p, message⟩ :: s.arrivals }
      obtain rfl := Option.some.inj hstep
      obtain ⟨_, _, hframe⟩ := @receiveChunk_frame fw s₁ k p message
      show (State.receiveChunk fw k p message s₁).server.subscribers = _
      rw [hframe]
      rfl
    · cases hstep
  · rcases step_chunks hstep hchunk with ⟨hold, -⟩ | ⟨p, _, heq, hstage, -, hfound⟩
    · rw [hnone] at hold
      cases hold
    · cases heq
      have hphase : (s.chat.sockets k).stage.phase = some (.staying, p) := by
        rw [hstage]
        rfl
      exact ⟨p, hstage, hfound, hfound.carries (fed hs).stored (sound hs)
        ((sound hs).phase k _ p hphase).1⟩

/-- The message `k` has sent last is accepted: it carries a chunk of a file its
sender hosts, and fills the empty chunk of the subscriber it names. -/
def Fills (fw : Framework) (k : SocketRef) (s s' : State) : Prop :=
  ∃ arrival chunk σ sub, s.latest k = some arrival ∧ Carries fw s.server arrival chunk ∧
    s.server.subscribers σ = some sub ∧ sub.file = chunk.file ∧ sub.id = chunk.subscriberId ∧
      sub.chunk = none ∧ (s'.chat.sockets k).stage = .joined arrival.peer ∧
        s'.server.subscribers = Function.update s.server.subscribers σ
          (some { sub with chunk := some chunk.data })

theorem provide_fills (hs : (system fw config).Reachable s) {k : SocketRef}
    (hstep : s.step fw config (.provide k) = some s') :
    s'.server.subscribers = s.server.subscribers ∨ Fills fw k s s' := by
  obtain ⟨-, hsame | ⟨p, chunk, σ, sub, hstage, hchunk, hσ, hsub, hempty, hserver, hstage'⟩⟩ :=
    provide_cases hstep
  · exact .inl (by rw [hsame])
  right
  obtain ⟨arrival, hlatest, hcarries⟩ := (fed hs).pending k chunk hchunk
  obtain ⟨sub₀, hsub₀, hfile, hid⟩ := (fed hs).stored.listed _ _ _ hσ
  obtain rfl := Option.some.inj (hsub.symm.trans hsub₀)
  -- whoever has sent the message is still handling it
  have hpeer : arrival.peer = p := by
    have hphase : (s.chat.scene.sockets k).stage.phase = some (.staying, p) := by
      show (s.chat.sockets k).stage.phase = _
      rw [hstage]
      rfl
    have hsocket : arrival.socket = k := by simpa using List.find?_some hlatest
    have hlistener := arrival_listener hs (List.mem_of_find?_eq_some hlatest)
    rw [hsocket, (listening hs).phase hphase] at hlistener
    exact (Option.some.inj hlistener).symm
  refine ⟨arrival, chunk, σ, sub, hlatest, hcarries, hsub, hfile, hid, hempty, ?_, ?_⟩
  · rw [hpeer]
    exact hstage'
  · rw [hserver]
    simp only [Server.modifySubscriber, hsub, Option.map_some]

/-- **Download bytes come from the host.**  What a read returns, the end of the
file apart, is the data of a chunk message for this file and this subscriber,
sent by the peer that shared the file.  And a chunk message changes no download
while it is looked up; it goes on only if its sender hosts the file it names,
and then it is accepted, or again nothing changes. -/
theorem bytes_from_host (hs : (system fw config).Reachable s) :
    (∀ σ count data, ((Subscriber.read σ count).exec s.server).1 = .ok (.bytes data) →
      ∃ sub, s.server.subscribers σ = some sub ∧
        ((data = [] ∧ s.server.catalogue.fileSize sub.file ≤ sub.progress) ∨
          ∃ arrival ∈ s.arrivals, Carries fw s.server arrival ⟨sub.file, sub.id, data⟩ ∧
            (∀ p, (sub.file, p) ∈ s.shared ↔ p = arrival.peer) ∧
              ∀ ρ id, Room.getFileById ρ id s.server = some sub.file →
                ρ = s.server.catalogue.room arrival.peer)) ∧
    (∀ k message s', s.step fw config (.chat (.receive k message)) = some s' →
      message.code = some .codeFileChunkData →
        s'.server.subscribers = s.server.subscribers ∧ ∀ chunk, s'.chunks k = some chunk →
          ∃ p, (s.chat.sockets k).stage = .joined p ∧ Found fw s.server p message chunk ∧
            Carries fw s.server ⟨k, p, message⟩ chunk) ∧
    ∀ k s', s.step fw config (.provide k) = some s' →
      s'.server.subscribers = s.server.subscribers ∨ Fills fw k s s' := by
  have hfed := fed hs
  refine ⟨fun σ count data hread => ?_,
    fun k message s' hstep hcode => receive_chunk hs hcode hstep,
    fun k s' hstep => provide_fills hs hstep⟩
  obtain ⟨sub, hsub, hchunk | hend⟩ := read_bytes hread
  · obtain ⟨arrival, hmem, hcarries⟩ := hfed.held σ sub data hsub hchunk
    refine ⟨sub, hsub, .inr ⟨arrival, hmem, hcarries, fun p => ?_, fun ρ id hf => ?_⟩⟩
    · rw [hfed.shared, hcarries.host]
      exact ⟨fun h => h.2.symm, fun h => ⟨hcarries.file_lt, h.symm⟩⟩
    · obtain ⟨-, -, hroom⟩ := hfed.stored.found ρ id _ hf
      rw [← hroom, hcarries.host]
  · exact ⟨sub, hsub, .inl hend⟩

def decoding : Framework where
  readFromString _ := none
  base64Decode := Base64.decode

/-- Ann shares a file, which is downloaded; she sends what is asked for. -/
def serve : List Act :=
  .chat (.connect 0 "lounge" "Ann") :: List.replicate 8 (.chat (.run 0)) ++
    [.chat (.receive 0 { code := some .codeFileShare, files := some [some
      { clientFileId := some 0, name := some "hi.txt", size := some 2 }] })] ++
    List.replicate 4 (.chat (.run 0)) ++
    [.getRoom 0 "lounge" 1, .getFile 0, .getFile 0, .read 0 16,
      .chat (.receive 0 { code := some .codeFileChunkData, files := some [some
        { serverFileId := some 1, subscriberId := some 1, data := some "aGk=" }] }),
      .provide 0]

theorem bytes_from_host_serve : ∃ s, (system decoding {}).run {} serve = some s ∧
    ((Subscriber.read 0 16).exec s.server).1 = .ok (.bytes [104, 105]) ∧
      ∃ arrival ∈ s.arrivals, arrival.message.code = some .codeFileChunkData ∧
        (0, arrival.peer) ∈ s.shared := by
  let observe (s : State) := (((Subscriber.read 0 16).exec s.server).1.toOption,
    (s.server.subscribers 0).map Subscriber.file)
  have hobserve : ((system decoding {}).run {} serve).map observe =
      some (some (.bytes [104, 105]), some 0) := by
    decide +kernel
  obtain ⟨s, hrun, hs⟩ := Option.map_eq_some_iff.mp hobserve
  obtain ⟨hread, hfile⟩ := Prod.mk.inj hs
  have hread : ((Subscriber.read 0 16).exec s.server).1 = .ok (.bytes [104, 105]) := by
    rcases hresult : ((Subscriber.read 0 16).exec s.server).1 with fault | result <;>
      rw [hresult] at hread
    · cases hread
    · rw [Option.some.inj hread]
  obtain ⟨sub, hsub, hfile⟩ := Option.map_eq_some_iff.mp hfile
  have hreach : (system decoding {}).Reachable s := .run (.init ⟨_, rfl⟩) hrun
  obtain ⟨sub', hsub', ⟨hempty, -⟩ | ⟨arrival, hmem, hcarries, hshared, -⟩⟩ :=
    (bytes_from_host hreach).1 0 16 _ hread
  · cases hempty
  · obtain rfl := Option.some.inj (hsub.symm.trans hsub')
    rw [hfile] at hshared
    exact ⟨s, hrun, hread, arrival, hmem, hcarries.code, (hshared _).mpr rfl⟩

end Traffic

end CanChat
