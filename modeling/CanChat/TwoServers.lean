/-
CanChat/TwoServers.lean

The handlers of one room, run by two servers.

Each lemma takes two servers whose objects of the room `n` correspond, and has
both run the same operation on objects that are counterparts.  What is created
becomes a pair; the rest of the first server is left alone.
-/
import CanChat.Counterparts
import CanChat.Heartbeat

namespace CanChat

namespace Isolation

open Correspondence

variable {n : String} {c d e : Counterparts} {s s' t t' : Server}

/-! ### Loops -/

namespace Sync

/-- A loop over lists whose entries are counterparts, one by one. -/
theorem foldl_forall₂ {f f' : Server → ℕ → Server} {kind : Kind}
    (hstep : ∀ {s s' a a'}, Sync n c s s' → c.ref kind a a' → Advance n c c s (f s a) (f' s' a'))
    {l l' : List ℕ} (hl : List.Forall₂ (c.ref kind) l l') (h : Sync n c s s') :
    Advance n c c s (l.foldl f s) (l'.foldl f' s') := by
  induction hl generalizing s s' with
  | nil => exact .refl h
  | cons hab _ ih =>
      have hfirst := hstep h hab
      exact hfirst.trans (ih hfirst.sync)

/-- A loop over a table, where the order does not matter. -/
theorem foldl {f f' : Server → ℕ → Server} {kind : Kind} {l l' : List ℕ} (h : Sync n c s s')
    (hl : Paired (c.ref kind) l l') (hcomm : ∀ s a b, f' (f' s a) b = f' (f' s b) a)
    (hstep : ∀ {s s' a a'}, Sync n c s s' → c.ref kind a a' → Advance n c c s (f s a) (f' s' a')) :
    Advance n c c s (l.foldl f s) (l'.foldl f' s') := by
  -- the second list is a permutation of the partners of the first
  obtain ⟨k, hk, hperm⟩ := hl
  have : RightCommutative f' := ⟨hcomm⟩
  -- and swapping two entries does not change the result of the loop
  rw [← hperm.foldl_eq s']
  exact foldl_forall₂ hstep hk h

end Sync

/-! ### Peers -/

/-- `Peer::sendMessageAsync` as one update: without a socket nothing is appended. -/
theorem sendMessageAsync_eq (p : PeerRef) (o : Object MessageDto) (s : Server) :
    Peer.sendMessageAsync p o s =
      { s with
        outbox := Function.update s.outbox p
          (s.outbox p ++ if (s.peers p).socket.isSome then [o] else []) } := by
  unfold Peer.sendMessageAsync
  split
  · rfl
  · rw [List.append_nil, Function.update_eq_self]

/-- Sends to two peers commute, so a broadcast does not depend on the order of
the map. -/
theorem sendMessageAsync_comm (o : Object MessageDto) (s : Server) (p q : PeerRef) :
    Peer.sendMessageAsync q o (Peer.sendMessageAsync p o s) =
      Peer.sendMessageAsync p o (Peer.sendMessageAsync q o s) := by
  rcases eq_or_ne p q with rfl | hne
  · rfl
  · simp only [sendMessageAsync_eq, Function.update_of_ne hne, Function.update_of_ne hne.symm,
      Function.update_comm hne]

/-- `pingPeer` counts a peer that it drops. -/
theorem pingPeer_eq (p : PeerRef) (s : Server) :
    Room.pingPeer s p =
      { s with
        peers := Function.update s.peers p (s.peers p).pinged
        statistics := { s.statistics with
          eventPeerZombieDropped := s.statistics.eventPeerZombieDropped +
            if (s.peers p).socket.isSome && (s.peers p).pingPoingCounter + 1 == 1 then 0 else 1 } }
    := by
  unfold Room.pingPeer Peer.sendPingAsync Peer.pinged
  rcases halive : (s.peers p).socket.isSome && (s.peers p).pingPoingCounter + 1 == 1
  · simp [Server.modifyPeer, Server.modifyStatistics, Peer.invalidateSocket, halive]
  · simp [Server.modifyPeer, halive]

/-- Pings of two peers commute, so a round does not depend on the order of the map. -/
theorem pingPeer_comm (s : Server) (p q : PeerRef) :
    Room.pingPeer (Room.pingPeer s p) q = Room.pingPeer (Room.pingPeer s q) p := by
  rcases eq_or_ne p q with rfl | hne
  · rfl
  · simp only [pingPeer_eq, Function.update_of_ne hne, Function.update_of_ne hne.symm,
      Function.update_comm hne, Nat.add_right_comm]

namespace Sync

variable (config : ConfigDto) {ρ ρ' : RoomRef} {p p' : PeerRef} {f f' : FileRef}
  {o o' : Object MessageDto}

/-- Counterparts have equal counters and sockets, so both are dropped or neither. -/
theorem pingPeer (h : Sync n c s s') (hp : c.peer p p') :
    Advance n c c s (Room.pingPeer s p) (Room.pingPeer s' p') := by
  have hpeer := h.peer hp
  have hpinged : PeerRel c (s.peers p).pinged (s'.peers p').pinged :=
    { hpeer with
      socket := by
        unfold Peer.pinged
        rw [hpeer.socket, hpeer.pingPoingCounter]
      pingPoingCounter := congrArg (· + 1) hpeer.pingPoingCounter }
  rw [pingPeer_eq, pingPeer_eq]
  have hmodified := h.modifyPeer hp hpinged
  exact hmodified.trans (hmodified.sync.setStatistics _ _)

/-- A pong lowers both counters. -/
theorem onPong (h : Sync n c s s') (hp : c.peer p p') :
    Advance n c c s (Peer.onPong p s) (Peer.onPong p' s') :=
  h.modifyPeer hp
    { h.peer hp with pingPoingCounter := congrArg (· - 1) (h.peer hp).pingPoingCounter }

/-- Both sockets are reset. -/
theorem invalidateSocket (h : Sync n c s s') (hp : c.peer p p') :
    Advance n c c s (Peer.invalidateSocket p s) (Peer.invalidateSocket p' s') :=
  h.modifyPeer hp { h.peer hp with socket := rfl }

/-- `readMessage` appends to the buffers alike, or clears both. -/
theorem modifyMessageBuffer (h : Sync n c s s') (hp : c.peer p p') (g : Bytes → Bytes) :
    Advance n c c s
      (s.modifyPeer p fun peer => { peer with messageBuffer := g peer.messageBuffer })
      (s'.modifyPeer p' fun peer => { peer with messageBuffer := g peer.messageBuffer }) :=
  h.modifyPeer hp { h.peer hp with messageBuffer := congrArg g (h.peer hp).messageBuffer }

/-- Each host lists its copy of the file last. -/
theorem addFile (h : Sync n c s s') (hp : c.peer p p') (hf : c.file f f') :
    Advance n c c s (Peer.addFile p f s) (Peer.addFile p' f' s') :=
  h.modifyPeer hp
    { h.peer hp with files := List.rel_append (h.peer hp).files (.cons hf .nil) }

/-! ### Rooms -/

/-- The histories have equal lengths, so both drop the same number of old messages. -/
theorem addHistoryMessage (h : Sync n c s s') (hρ : c.room ρ ρ') (ho : Recorded c.peerId o o') :
    Advance n c c s (Room.addHistoryMessage config ρ o s)
      (Room.addHistoryMessage config ρ' o' s') := by
  unfold Room.addHistoryMessage
  split
  · exact .refl h
  · have hhistory := List.rel_append (h.room hρ).history (.cons ho .nil)
    refine h.modifyRoom hρ { h.room hρ with history := ?_ }
    rw [Room.popFront_eq_drop, Room.popFront_eq_drop, hhistory.length_eq]
    exact List.forall₂_drop _ hhistory

/-- A broadcast, whatever the order of the two maps of members. -/
theorem sendToRoom (h : Sync n c s s') (hρ : c.room ρ ρ') (ho : Delivered c.peerId o o') :
    Advance n c c s (Room.sendMessageAsync ρ o s) (Room.sendMessageAsync ρ' o' s') :=
  h.foldl (h.room hρ).peerById.values (sendMessageAsync_comm o') fun h hp => h.send hp ho

/-- A round of pings, likewise. -/
theorem pingAllPeers (h : Sync n c s s') (hρ : c.room ρ ρ') :
    Advance n c c s (Room.pingAllPeers ρ s) (Room.pingAllPeers ρ' s') :=
  h.foldl (h.room hρ).peerById.values pingPeer_comm pingPeer

/-- A matching of ids is injective both ways, so tables keyed by them stay related. -/
theorem peerId_injective (c : Counterparts) : UnorderedMap.Injective c.peerId :=
  fun _ _ _ _ hi hj => Matching.eq_iff hi hj

/-- The newcomer is entered under its own id on each side. -/
theorem addPeer (h : Sync n c s s') (hρ : c.room ρ ρ') (hp : c.peer p p') :
    Advance n c c s (Room.addPeer ρ p s) (Room.addPeer ρ' p' s') :=
  h.modifyRoom hρ
    { h.room hρ with
      peerById := (h.room hρ).peerById.insert (peerId_injective c) (h.peer hp).peerId hp }

/-- The entries of two matched ids are erased. -/
theorem erasePeer (h : Sync n c s s') (hρ : c.room ρ ρ') {i i' : Int} (hi : c.peerId i i') :
    Advance n c c s (Room.erasePeer ρ i s) (Room.erasePeer ρ' i' s') :=
  h.modifyRoom hρ
    { h.room hρ with peerById := (h.room hρ).peerById.erase (peerId_injective c) hi }

/-- Matched ids find counterparts, or nothing on either side. -/
theorem getPeerById (h : Sync n c s s') (hρ : c.room ρ ρ') {i i' : Int} (hi : c.peerId i i') :
    Option.Rel c.peer (Room.getPeerById ρ i s) (Room.getPeerById ρ' i' s') :=
  (h.room hρ).peerById.lookup (peerId_injective c) hi

/-- Ids of files are not renamed. -/
theorem getFileById (h : Sync n c s s') (hρ : c.room ρ ρ') (i : Int) :
    Option.Rel c.file (Room.getFileById ρ i s) (Room.getFileById ρ' i s') :=
  (h.room hρ).fileById.lookup UnorderedMap.injective_eq rfl

/-! ### Files -/

/-- Invalidations commute, so sweeping a table does not depend on its order. -/
theorem invalidate_comm (s : Server) (σ τ : SubscriberRef) :
    (s.modifySubscriber σ Subscriber.invalidate).modifySubscriber τ Subscriber.invalidate =
      (s.modifySubscriber τ Subscriber.invalidate).modifySubscriber σ Subscriber.invalidate := by
  rcases eq_or_ne σ τ with rfl | hne
  · rfl
  · simp only [Server.modifySubscriber, Function.update_of_ne hne, Function.update_of_ne hne.symm,
      Function.update_comm hne]

/-- Two subscribers become invalid and keep everything else. -/
theorem invalidate (h : Sync n c s s') {σ σ' : SubscriberRef} (hσ : c.subscriber σ σ') :
    Advance n c c s (s.modifySubscriber σ Subscriber.invalidate)
      (s'.modifySubscriber σ' Subscriber.invalidate) := by
  refine h.setSubscriber hσ (optionRel_map (h.subscriber hσ) fun _ _ hsubscriber => ?_)
  refine ⟨hsubscriber.file, ?_⟩
  rw [hsubscriber.rest]
  rfl

/-- `File::clearSubscribers`: the sweep, then the empty table. -/
theorem clearSubscribers (h : Sync n c s s') (hf : c.file f f') :
    Advance n c c s (File.clearSubscribers f s) (File.clearSubscribers f' s') := by
  unfold File.clearSubscribers
  have hswept := h.foldl (f := fun s σ => s.modifySubscriber σ Subscriber.invalidate)
    (h.file hf).subscribers.values invalidate_comm fun h hσ => h.invalidate hσ
  exact hswept.trans (hswept.sync.modifyFile hf
    { hswept.sync.file hf with subscribers := UnorderedMap.rel_empty })

/-- One round of the loop in `removePeerById`. -/
theorem cancelFile (h : Sync n c s s') (hρ : c.room ρ ρ') (hf : c.file f f') :
    Advance n c c s (Room.cancelFile ρ s f) (Room.cancelFile ρ' s' f') := by
  have hcleared := h.clearSubscribers hf
  have hroom := hcleared.sync.room hρ
  unfold Room.cancelFile Room.eraseFile
  refine hcleared.trans (hcleared.sync.modifyRoom hρ ?_)
  exact
    { hroom with
      fileById := hroom.fileById.erase UnorderedMap.injective_eq
        (hcleared.sync.file hf).serverFileId.symm }

/-- A leaver is found on both sides or on neither, and its files are cancelled
in order. -/
theorem removePeerById (h : Sync n c s s') (hρ : c.room ρ ρ') {i i' : Int} (hi : c.peerId i i') :
    Advance n c c s (Room.removePeerById ρ i s) (Room.removePeerById ρ' i' s') := by
  unfold Room.removePeerById
  generalize hfound : Room.getPeerById ρ i s = found
  generalize hfound' : Room.getPeerById ρ' i' s' = found'
  have hpeer := h.getPeerById hρ hi
  rw [hfound, hfound'] at hpeer
  cases hpeer with
  | none => exact .refl h
  | some hp =>
      have hcancelled := h.foldl_forall₂ (fun h hf => h.cancelFile hρ hf) (h.peer hp).files
      exact hcancelled.trans (hcancelled.sync.erasePeer hρ hi)

/-- A file gets its number in the room. -/
theorem enterFile (h : Sync n c s s') (hρ : c.room ρ ρ') (hf : c.file f f') {i i' : Int}
    (hi : i = i') :
    Advance n c c s
      (s.modifyRoom ρ fun room => { room with
        fileIdCounter := room.fileIdCounter + 1, fileById := room.fileById.insert i f })
      (s'.modifyRoom ρ' fun room => { room with
        fileIdCounter := room.fileIdCounter + 1, fileById := room.fileById.insert i' f' }) :=
  h.modifyRoom hρ
    { h.room hρ with
      fileIdCounter := congrArg (· + 1) (h.room hρ).fileIdCounter
      fileById := (h.room hρ).fileById.insert UnorderedMap.injective_eq hi hf }

/-- The two new files are added to the counterparts; both get the same id in
their rooms. -/
theorem registerFile (h : Sync n c s s') (hρ : c.room ρ ρ') (hp : c.peer p p')
    (clientFileId : Int) (fileName : Option String) (fileSize : Int) :
    ∃ d, Advance n c d s (Room.registerFile ρ p clientFileId fileName fileSize s).2
        (Room.registerFile ρ' p' clientFileId fileName fileSize s').2 ∧
      d.file (Room.registerFile ρ p clientFileId fileName fileSize s).1
        (Room.registerFile ρ' p' clientFileId fileName fileSize s').1 := by
  have hcounter := (h.room hρ).fileIdCounter
  have hfile : FileRel c
      { host := p, clientFileId, serverFileId := (s.rooms ρ).fileIdCounter, fileName, fileSize }
      { host := p', clientFileId, serverFileId := (s'.rooms ρ').fileIdCounter, fileName,
        fileSize } :=
    ⟨hp, rfl, hcounter, rfl, rfl, rfl, UnorderedMap.rel_empty⟩
  have hnew := h.newFile hfile
  have hf := Counterparts.add_self (h.below .file)
  -- from here on the new files are counterparts
  have hadded := hnew.sync.addFile (hnew.step.le.1 .peer _ _ hp) hf
  have hentered := hadded.sync.enterFile (hnew.step.le.1 .room _ _ hρ) hf hcounter.symm
  exact ⟨_, hnew.trans (hadded.trans (hentered.trans (hentered.sync.setStatistics _ _))), hf⟩

/-! ### Announcements -/

/-- What `welcomePeer` and `goodbyePeer` do with their message. -/
theorem announce (h : Sync n c s s') (hρ : c.room ρ ρ') {dto dto' : MessageDto}
    (hdto : Restamped c.peerId dto dto') :
    Advance n c c s
      (Room.sendMessageAsync ρ (s.createShared dto).1
        (Room.addHistoryMessage config ρ (s.createShared dto).1 (s.createShared dto).2))
      (Room.sendMessageAsync ρ' (s'.createShared dto').1
        (Room.addHistoryMessage config ρ' (s'.createShared dto').1 (s'.createShared dto').2)) := by
  have hcreated := h.createShared dto dto'
  have hrecorded : Recorded c.peerId (s.createShared dto).1 (s'.createShared dto').1 := hdto
  have hadded := hcreated.sync.addHistoryMessage config hρ hrecorded
  exact hcreated.trans (hadded.trans (hadded.sync.sendToRoom hρ (.inl hdto)))

/-- The announcements differ in the id of the newcomer only. -/
theorem welcomePeer (h : Sync n c s s') (hρ : c.room ρ ρ') (hp : c.peer p p') :
    Advance n c c s (Room.welcomePeer config ρ p s) (Room.welcomePeer config ρ' p' s') := by
  refine h.announce config hρ ⟨.some (h.peer hp).peerId, ?_⟩
  unfold Room.joinedMessage
  rw [(h.peer hp).nickname]

/-- The notices of a leave differ in the id of the leaver only. -/
theorem goodbyePeer (h : Sync n c s s') (hρ : c.room ρ ρ') (hp : c.peer p p') :
    Advance n c c s (Room.goodbyePeer config ρ p s) (Room.goodbyePeer config ρ' p' s') := by
  refine h.announce config hρ ⟨.some (h.peer hp).peerId, ?_⟩
  unfold Room.leftMessage
  rw [(h.peer hp).nickname]

/-- The `CODE_INFO` lists the same names in an order of its own, and the same
history. -/
theorem onboardPeer (h : Sync n c s s') (hρ : c.room ρ ρ') (hp : c.peer p p') :
    Advance n c c s (Room.onboardPeer config ρ p s) (Room.onboardPeer config ρ' p' s') := by
  have hcreated := h.createShared
    (Room.infoMessage p (Room.peersSnapshot ρ s) (Room.getHistory config ρ s) s)
    (Room.infoMessage p' (Room.peersSnapshot ρ' s') (Room.getHistory config ρ' s') s')
  refine hcreated.trans (hcreated.sync.send hp (.inr ?_))
  exact
    { peerId := .some (h.peer hp).peerId
      peers := .some ((h.room hρ).peerById.values.map fun q q' hq =>
        .some ⟨.some (h.peer hq).peerId, congrArg some (h.peer hq).nickname⟩)
      history := by
        show Option.Rel _ (Room.getHistory config ρ s) (Room.getHistory config ρ' s')
        unfold Room.getHistory
        split
        · exact .none
        · exact .some (List.forall₂_map_left_iff.mpr (List.forall₂_map_right_iff.mpr
            ((h.room hρ).history.imp fun _ _ ho => .some ho)))
      rest := by
        unfold Room.infoMessage
        rw [(h.peer hp).nickname] }

/-! ### Downloads -/

/-- A subscriber gets its number in the file. -/
theorem enterSubscriber (h : Sync n c s s') (hf : c.file f f') {σ σ' : SubscriberRef}
    (hσ : c.subscriber σ σ') {i i' : Int} (hi : i = i') :
    Advance n c c s
      (s.modifyFile f fun file => { file with
        subscriberIdCounter := file.subscriberIdCounter + 1
        subscribers := file.subscribers.insert i σ })
      (s'.modifyFile f' fun file => { file with
        subscriberIdCounter := file.subscriberIdCounter + 1
        subscribers := file.subscribers.insert i' σ' }) :=
  h.modifyFile hf
    { h.file hf with
      subscriberIdCounter := congrArg (· + 1) (h.file hf).subscriberIdCounter
      subscribers := (h.file hf).subscribers.insert UnorderedMap.injective_eq hi hσ }

/-- The two new subscribers are added to the counterparts, under the same id of
their file. -/
theorem subscribe (h : Sync n c s s') (hf : c.file f f') :
    ∃ d, Advance n c d s (File.subscribe f s).2 (File.subscribe f' s').2 ∧
      d.subscriber (File.subscribe f s).1 (File.subscribe f' s').1 := by
  have hid := (h.file hf).subscriberIdCounter
  have hsubscriber : SubscriberRel c { id := (s.files f).subscriberIdCounter, file := f }
      { id := (s'.files f').subscriberIdCounter, file := f' } := by
    rw [hid]
    exact ⟨hf, rfl⟩
  have hnew := h.newSubscriber hsubscriber
  have hσ := Counterparts.add_self (h.below .subscriber)
  have hf := hnew.step.le.1 .file _ _ hf
  exact ⟨_, hnew.trans (hnew.sync.enterSubscriber hf hσ hid.symm), hσ⟩

/-- An entry is erased from both tables. -/
theorem unsubscribe (h : Sync n c s s') (hf : c.file f f') (id : Int) :
    Advance n c c s (File.unsubscribe f id s) (File.unsubscribe f' id s') :=
  h.modifyFile hf
    { h.file hf with
      subscribers := (h.file hf).subscribers.erase UnorderedMap.injective_eq rfl }

/-- The destructors act on counterpart files, if at all. -/
theorem destroy (h : Sync n c s s') {σ σ' : SubscriberRef} (hσ : c.subscriber σ σ') :
    Advance n c c s (Subscriber.destroy σ s) (Subscriber.destroy σ' s') := by
  unfold Subscriber.destroy
  have hcell := h.subscriber hσ
  generalize s.subscribers σ = cell at hcell
  generalize s'.subscribers σ' = cell' at hcell
  cases hcell with
  | none => exact .refl h
  | @some subscriber subscriber' hsubscriber =>
      have hid : subscriber'.id = subscriber.id := by rw [hsubscriber.rest]
      have hleft := h.unsubscribe hsubscriber.file subscriber.id
      dsimp only
      rw [hid]
      exact hleft.trans (hleft.sync.setSubscriber hσ .none)

/-- The requests are equal: they name the client's id, the file's id and the
subscriber's. -/
theorem requestChunk (h : Sync n c s s') {subscriber subscriber' : Subscriber}
    (hsubscriber : SubscriberRel c subscriber subscriber') (size : Int) :
    Advance n c c s (subscriber.requestChunk size s) (subscriber'.requestChunk size s') := by
  obtain ⟨hf, hrest⟩ := hsubscriber
  generalize subscriber'.file = f' at hf hrest
  -- apart from the file the two subscribers are equal
  obtain rfl := hrest
  have hfile := h.file hf
  unfold Subscriber.requestChunk
  dsimp only
  split
  · rw [hfile.clientFileId, hfile.serverFileId]
    let message := subscriber.requestChunkMessage (s.files subscriber.file).clientFileId
      (s.files subscriber.file).serverFileId size
    have hcreated := h.createShared message message
    exact hcreated.trans (hcreated.sync.send hfile.host (.inl ⟨.none, rfl⟩))
  · exact .refl h

/-! ### The lobby -/

/-- A room is registered under `n` on both sides. -/
theorem enterRoom (h : Sync n c s s') (hρ : c.room ρ ρ') :
    Advance n c c s { s with lobbyRooms := s.lobbyRooms.insert n ρ }
      { s' with lobbyRooms := s'.lobbyRooms.insert n ρ' } where
  step :=
    { Step.refl (n := n) s with
      lobby := fun m hm => (UnorderedMap.lookup_insert _ _ _ _).trans (if_neg hm) }
  sync :=
    { h with
      lobby := by
        rw [UnorderedMap.lookup_insert_self, UnorderedMap.lookup_insert_self]
        exact .some hρ
      single := fun m ρ hm => by
        rw [UnorderedMap.lookup_insert] at hm
        split at hm
        · next heq => exact heq
        · exact h.single m ρ hm }

/-- `n` is no longer registered on either side. -/
theorem deleteRoom (h : Sync n c s s') :
    Advance n c c s (Lobby.deleteRoom n s) (Lobby.deleteRoom n s') where
  step :=
    { Step.refl (n := n) s with
      lobby := fun m hm => (UnorderedMap.lookup_erase _ _ _).trans (if_neg hm) }
  sync :=
    { h with
      lobby := by
        unfold Lobby.deleteRoom
        rw [UnorderedMap.lookup_erase_self, UnorderedMap.lookup_erase_self]
        exact .none
      single := fun m ρ hm => h.single m ρ (UnorderedMap.lookup_erase_eq_some.mp hm).2 }

/-- Both servers have the room, or both create it and the two are added to the
counterparts. -/
theorem getOrCreateRoom (h : Sync n c s s') :
    ∃ d, Advance n c d s (Lobby.getOrCreateRoom n s).2 (Lobby.getOrCreateRoom n s').2 ∧
      d.room (Lobby.getOrCreateRoom n s).1 (Lobby.getOrCreateRoom n s').1 := by
  unfold Lobby.getOrCreateRoom
  have hlobby := h.lobby
  generalize s.lobbyRooms.lookup n = found at hlobby ⊢
  generalize s'.lobbyRooms.lookup n = found' at hlobby ⊢
  cases hlobby with
  | some hρ => exact ⟨c, .refl h, hρ⟩
  | none =>
      have hroom : RoomRel n c { name := n } { name := n } :=
        ⟨rfl, rfl, rfl, UnorderedMap.rel_empty, UnorderedMap.rel_empty, .nil⟩
      have hnew := h.newRoom hroom
      have hρ := Counterparts.add_self (h.below .room)
      have hentered := hnew.sync.enterRoom hρ
      exact ⟨_, hnew.trans (hentered.trans (hentered.sync.setStatistics _ _)), hρ⟩

/-- The next ids are matched first, then the two new peers. -/
theorem createPeer (h : Sync n c s s') (hρ : c.room ρ ρ') (socket : SocketRef) (nickname : String) :
    ∃ d, Advance n c d s (Lobby.createPeer socket ρ nickname s).2
        (Lobby.createPeer socket ρ' nickname s').2 ∧
      d.peer (Lobby.createPeer socket ρ nickname s).1
        (Lobby.createPeer socket ρ' nickname s').1 := by
  -- the ids come from two counters, and are matched as a pair
  have hcounted := h.newPeerId
  have hpeer : PeerRel (c.addPeerId s.peerIdCounter s'.peerIdCounter h.peerId_below)
      { socket := some socket, room := ρ, nickname, peerId := s.peerIdCounter }
      { socket := some socket, room := ρ', nickname, peerId := s'.peerIdCounter } :=
    ⟨rfl, hρ, rfl, Matching.add_self h.peerId_below, rfl, rfl, .nil⟩
  have hnew := hcounted.sync.newPeer hpeer
  exact ⟨_, hcounted.trans hnew, Counterparts.add_self (hcounted.sync.below .peer)⟩

/-- The six calls in a row; peers created on the way stay counterparts. -/
theorem onAfterCreateNonBlocking (h : Sync n c s s') (socket : SocketRef) (nickname : String) :
    ∃ d, Advance n c d s (Lobby.onAfterCreateNonBlocking config socket n nickname s).2
        (Lobby.onAfterCreateNonBlocking config socket n nickname s').2 ∧
      d.peer (Lobby.onAfterCreateNonBlocking config socket n nickname s).1
        (Lobby.onAfterCreateNonBlocking config socket n nickname s').1 := by
  have hcounted := h.setStatistics (Lobby.countConnected s).statistics
    (Lobby.countConnected s').statistics
  obtain ⟨d, hentered, hρ⟩ := hcounted.sync.getOrCreateRoom
  obtain ⟨e, hcreated, hp⟩ := hentered.sync.createPeer hρ socket nickname
  have hρ := hcreated.step.le.1 .room _ _ hρ
  have hwelcomed := hcreated.sync.welcomePeer config hρ hp
  have hadded := hwelcomed.sync.addPeer hρ hp
  have honboarded := hadded.sync.onboardPeer config hρ hp
  exact ⟨e, hcounted.trans (hentered.trans (hcreated.trans (hwelcomed.trans
    (hadded.trans honboarded)))), hp⟩

/-- The maps of members are equally large. -/
theorem isEmpty_eq (h : Sync n c s s') (hρ : c.room ρ ρ') :
    Room.isEmpty ρ' s' = Room.isEmpty ρ s := by
  unfold Room.isEmpty
  rw [(h.room hρ).peerById.size_eq]

/-- Both delete the room or neither. -/
theorem deleteIfEmpty (h : Sync n c s s') (hρ : c.room ρ ρ') :
    Advance n c c s (if Room.isEmpty ρ s then Lobby.deleteRoom (s.rooms ρ).name s else s)
      (if Room.isEmpty ρ' s' then Lobby.deleteRoom (s'.rooms ρ').name s' else s') := by
  -- the room has the name `n`, on both sides
  rw [h.isEmpty_eq hρ, (h.room hρ).name, (h.room hρ).name']
  split
  · exact h.deleteRoom
  · exact .refl h

/-- The five calls in a row. -/
theorem onBeforeDestroyNonBlocking (h : Sync n c s s') (hp : c.peer p p') :
    Advance n c c s (Lobby.onBeforeDestroyNonBlocking config p s)
      (Lobby.onBeforeDestroyNonBlocking config p' s') := by
  have hroom := (h.peer hp).room
  have hcounted := h.setStatistics (Lobby.countDisconnected s).statistics
    (Lobby.countDisconnected s').statistics
  have hremoved := hcounted.sync.removePeerById hroom (h.peer hp).peerId
  have hannounced := hremoved.sync.goodbyePeer config hroom hp
  have hinvalidated := hannounced.sync.invalidateSocket hp
  exact hcounted.trans (hremoved.trans (hannounced.trans (hinvalidated.trans
    (hinvalidated.sync.deleteIfEmpty hroom))))

end Sync

end Isolation

end CanChat
