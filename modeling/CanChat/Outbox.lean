/-
CanChat/Outbox.lean

What the log says a peer was sent is what the server handed to its websocket.

The log has an event for each call of `Peer::sendMessageAsync`, written beside
the call that makes it.  `outbox` is filled by that function itself.  Here the
two are compared, call by call and then along every run:

    outbox p  is  sentTo p log          while the socket of `p` is open,
    outbox p  is a prefix of it         once the socket has been invalidated,

since `sendMessageAsync` then does nothing.  So a result about `sentTo` is one
about the messages the server really hands out.

`SendsNothing` is for the functions of the server that send nothing, `HandsOut` for
a call with the events it logs.
-/
import CanChat.Convergence
import CanChat.Heartbeat

namespace CanChat

namespace Traffic

open Chat (Stage Event sentTo sentTo_append sentTo_singleton sentTo_broadcast mem_sentTo)

variable {s t u : Server} {events : List Event} {p : PeerRef}

/-! ### Functions that send nothing -/

/-- Nothing is handed out, and no socket that was closed is open. -/
structure SendsNothing (s t : Server) : Prop where
  outbox : t.outbox = s.outbox
  isOpen : ∀ p < s.peerCount, (t.peers p).socket.isSome → (s.peers p).socket.isSome
  peerCount : s.peerCount ≤ t.peerCount

namespace SendsNothing

theorem refl (s : Server) : SendsNothing s s := ⟨rfl, fun _ _ h => h, le_rfl⟩

/-- The peers are left alone. -/
theorem of_frame (houtbox : t.outbox = s.outbox) (hpeers : t.peers = s.peers)
    (hcount : t.peerCount = s.peerCount) : SendsNothing s t where
  outbox := houtbox
  isOpen p _ hopen := by rwa [hpeers] at hopen
  peerCount := hcount.ge

/-- One peer changes, and its socket is as it was or closed. -/
theorem modifyPeer (s : Server) (p : PeerRef) {g : Peer → Peer}
    (hg : ∀ peer, (g peer).socket.isSome → peer.socket.isSome) :
    SendsNothing s (s.modifyPeer p g) where
  outbox := rfl
  isOpen q _ hopen := by
    rcases eq_or_ne q p with rfl | hne
    · rw [Server.modifyPeer_peers, Function.update_self] at hopen
      exact hg _ hopen
    · rwa [Server.modifyPeer_peers, Function.update_of_ne hne] at hopen
  peerCount := le_rfl

end SendsNothing

/-! #### The functions of the server -/

section Functions

variable (s : Server) (ρ : RoomRef) (p : PeerRef)

theorem sendsNothing_getOrCreateRoom (name : String) :
    SendsNothing s (Lobby.getOrCreateRoom name s).2 := by
  obtain ⟨_, _, _, _, hframe⟩ := Lobby.getOrCreateRoom_frame name s
  rw [hframe]
  exact .of_frame rfl rfl rfl

/-- The new peer has a socket, the others keep theirs. -/
theorem sendsNothing_createPeer (socket : SocketRef) (nickname : String) :
    SendsNothing s (Lobby.createPeer socket ρ nickname s).2 where
  outbox := rfl
  isOpen q hq hopen := by
    rw [Lobby.createPeer] at hopen
    dsimp only at hopen
    rwa [Function.update_of_ne hq.ne] at hopen
  peerCount := Nat.le_succ _

theorem sendsNothing_record (config : ConfigDto) (dto : MessageDto) :
    SendsNothing s
      (Room.addHistoryMessage config ρ (s.createShared dto).1 (s.createShared dto).2) := by
  unfold Room.addHistoryMessage
  split
  · exact .of_frame rfl rfl rfl
  · exact .of_frame rfl rfl rfl

theorem sendsNothing_removePeerById (peerId : Int) :
    SendsNothing s (Room.removePeerById ρ peerId (Lobby.countDisconnected s)) := by
  obtain ⟨_, _, _, h⟩ := Room.removePeerById_frame ρ peerId (Lobby.countDisconnected s)
  rw [h]
  exact .of_frame rfl rfl rfl

theorem sendsNothing_invalidateSocket : SendsNothing s (Peer.invalidateSocket p s) :=
  .modifyPeer s p fun _ hopen => by cases hopen

theorem sendsNothing_onPong : SendsNothing s (Peer.onPong p s) :=
  .modifyPeer s p fun _ hopen => hopen

/-- A ping closes a socket or leaves it alone, however often it is sent. -/
theorem isSome_of_pinged {n : ℕ} {peer : Peer} (hopen : (Peer.pinged^[n] peer).socket.isSome) :
    peer.socket.isSome := by
  induction n generalizing peer with
  | zero => exact hopen
  | succ n ih =>
      have hpinged : peer.pinged.socket.isSome := ih hopen
      unfold Peer.pinged at hpinged
      dsimp only at hpinged
      split at hpinged
      · exact hpinged
      · cases hpinged

theorem sendsNothing_pingAllPeers : SendsNothing s (Room.pingAllPeers ρ s) where
  outbox := by
    obtain ⟨_, _, hframe, -⟩ := Room.pingAllPeers_frame ρ s
    rw [hframe]
  isOpen q _ hopen := by
    rw [Room.pingAllPeers, foldl_pingPeer_peers] at hopen
    exact isSome_of_pinged hopen
  peerCount := by
    obtain ⟨_, _, hframe, -⟩ := Room.pingAllPeers_frame ρ s
    rw [hframe]

theorem sendsNothing_shareFiles (currFile : Option FileDto) :
    SendsNothing s ((Peer.shareFiles p [currFile]).exec s).2 := by
  rcases Peer.shareFiles_one p currFile s with hsame | ⟨host, _, _, _, -, hregister⟩
  · rw [hsame]
    exact .refl s
  · rw [hregister]
    -- the host lists one file more
    have hhost : SendsNothing s (Peer.addFile host s.fileCount s) :=
      .modifyPeer s host fun _ hopen => hopen
    exact ⟨rfl, hhost.isOpen, le_rfl⟩

theorem sendsNothing_destroy (σ : SubscriberRef) : SendsNothing s (Subscriber.destroy σ s) := by
  unfold Subscriber.destroy
  split
  · exact .refl s
  · exact .of_frame rfl rfl rfl

end Functions

/-- The clock is read and messages are allocated. -/
theorem Frame.sendsNothing (h : Frame s t) : SendsNothing s t := by
  obtain ⟨_, _, rfl⟩ := h
  exact .of_frame rfl rfl rfl

/-! ### Calls and what they log -/

/-- Whoever has a socket is handed what the events say it was sent. -/
structure HandsOut (events : List Event) (s t : Server) : Prop where
  outbox : ∀ p, t.outbox p = s.outbox p ++
    if (s.peers p).socket.isSome then sentTo p events else []
  isOpen : ∀ p < s.peerCount, (t.peers p).socket.isSome → (s.peers p).socket.isSome
  peerCount : s.peerCount ≤ t.peerCount
  /-- nobody is sent anything by the call that creates it -/
  fresh : ∀ p, s.peerCount ≤ p → p < t.peerCount → sentTo p events = []

theorem sentTo_eq_nil (h : ∀ message, .sent p message ∉ events) : sentTo p events = [] :=
  List.eq_nil_iff_forall_not_mem.mpr fun message hmem => h message (mem_sentTo.mp hmem)

/-- A call that sends nothing. -/
theorem SendsNothing.handsOut (h : SendsNothing s t)
    (hevents : ∀ p message, .sent p message ∉ events) :
    HandsOut events s t where
  outbox p := by rw [h.outbox, sentTo_eq_nil (hevents p), ite_self, List.append_nil]
  isOpen := h.isOpen
  peerCount := h.peerCount
  fresh p _ _ := sentTo_eq_nil (hevents p)

/-- A message to one peer. -/
theorem sendMessageAsync_handsOut (q : PeerRef) (message : Object MessageDto)
    (hevents : ∀ p, sentTo p events = if p = q then [message] else []) :
    HandsOut events s (Peer.sendMessageAsync q message s) where
  outbox p := by
    rw [hevents]
    unfold Peer.sendMessageAsync
    rcases eq_or_ne p q with rfl | hne
    · split
      · simp
      · simp
    · rw [if_neg hne, ite_self, List.append_nil]
      split
      · exact Function.update_of_ne hne _ _
      · rfl
  isOpen p _ hopen := by rwa [Peer.sendMessageAsync_peers] at hopen
  peerCount := by
    obtain ⟨_, hframe⟩ := Peer.sendMessageAsync_frame q message s
    rw [hframe]
  fresh p hle hlt := by
    obtain ⟨_, hframe⟩ := Peer.sendMessageAsync_frame q message s
    rw [hframe] at hlt
    exact absurd hlt (not_lt.mpr hle)

/-- A message to everybody in a room. -/
theorem broadcast_handsOut (ρ : RoomRef) (message : Object MessageDto)
    (hmembers : (Room.members ρ s).Nodup) :
    HandsOut (.broadcast ρ message :: (Room.members ρ s).map fun q => .sent q message) s
      (Room.sendMessageAsync ρ message s) where
  outbox p := by
    rw [Room.sendMessageAsync_outbox hmembers, sentTo_broadcast hmembers]
    by_cases hmem : p ∈ Room.members ρ s
    · simp [hmem]
    · simp [hmem]
  isOpen p _ hopen := by rwa [Room.sendMessageAsync_peers] at hopen
  peerCount := by
    obtain ⟨_, hframe⟩ := Room.sendMessageAsync_frame ρ message s
    rw [hframe]
  fresh p hle hlt := by
    obtain ⟨_, hframe⟩ := Room.sendMessageAsync_frame ρ message s
    rw [hframe] at hlt
    exact absurd hlt (not_lt.mpr hle)

/-- A read hands the host the request it logs. -/
theorem read_handsOut (σ : SubscriberRef) (count : Int) (s : Server) :
    HandsOut (State.requests σ count s) s ((Subscriber.read σ count).exec s).2 := by
  have hnone : ∀ t, SendsNothing s t → HandsOut [] s t := fun t h => h.handsOut (by simp)
  rcases hsub : s.subscribers σ with - | subscriber
  · rw [Subscriber.read_exec_none hsub]
    simp only [State.requests, hsub]
    exact hnone s (.refl s)
  · rw [Subscriber.read_exec hsub]
    rcases hread : subscriber.readChunk (s.files subscriber.file).fileSize count with
      fault | ⟨data | -, subscriber'⟩
    · simp only [State.requests, hsub, hread]
      exact hnone s (.refl s)
    · simp only [State.requests, hsub, hread]
      exact hnone _ (.of_frame rfl rfl rfl)
    · -- a subscriber that waits is valid, so the request is sent
      obtain ⟨hvalid, ⟨_, -, -, -, h, -⟩ | ⟨-, -, -, rfl⟩ | ⟨-, h, -⟩⟩ :=
        Subscriber.readChunk_eq_ok hread
      · cases h
      · let file := s.files subscriber'.file
        let request : Object MessageDto := ⟨s.objectCount,
          subscriber'.requestChunkMessage file.clientFileId file.serverFileId count⟩
        have hrequest : subscriber'.requestChunk count s =
            Peer.sendMessageAsync file.host request { s with objectCount := s.objectCount + 1 } :=
          if_pos hvalid
        have hsent : HandsOut [.sent file.host request] { s with objectCount := s.objectCount + 1 }
            (Peer.sendMessageAsync file.host request { s with objectCount := s.objectCount + 1 }) :=
          sendMessageAsync_handsOut _ _ fun p => sentTo_singleton p _ _
        simp only [State.requests, hsub, hread, hrequest]
        exact ⟨hsent.outbox, hsent.isOpen, hsent.peerCount, hsent.fresh⟩
      · cases h

/-! ### Steps -/

/-- A step logs what it hands out. -/
def Logs (s s' : Chat.State) : Prop :=
  ∃ events, s'.log = events ++ s.log ∧ HandsOut events s.server s'.server

theorem Logs.of_sendsNothing {s s' : Chat.State} (h : SendsNothing s.server s'.server)
    (hlog : s'.log = s.log) : Logs s s' := ⟨[], hlog, h.handsOut (by simp)⟩

/-- The next call of a handler. -/
theorem run_logs {config : ConfigDto} {k : SocketRef} {s s' : Chat.State}
    (hmembers : ∀ ρ, (Room.members ρ s.server).Nodup) (hs : s.run config k = some s') :
    Logs s s' := by
  unfold Chat.State.run at hs
  rcases hstage : (s.sockets k).stage with - | - | ρ | ⟨purpose, p, dto⟩ | ⟨purpose, p, message⟩ |
    p | p | ⟨p, peers⟩ | ⟨p, info⟩ | p | ⟨p, timestamp, - | ⟨currFile, todo⟩, shared⟩ | p | p | p |
    p | - <;> simp only [hstage, Option.some.injEq, reduceCtorEq] at hs
  -- `shareFile` may throw; registering a file sends nothing either way
  case shareFiles.cons =>
    have hshare := sendsNothing_shareFiles s.server p currFile
    split at hs <;> obtain rfl := Option.some.inj hs
    · next hexec =>
      rw [hexec] at hshare
      exact .of_sendsNothing hshare rfl
    · next hexec =>
      rw [hexec] at hshare
      exact .of_sendsNothing hshare rfl
  all_goals subst hs
  case getOrCreateRoom => exact .of_sendsNothing (sendsNothing_getOrCreateRoom _ _) rfl
  case createPeer => exact .of_sendsNothing (sendsNothing_createPeer _ _ _ _) rfl
  case record => exact ⟨_, rfl, (sendsNothing_record _ _ config dto).handsOut (by simp)⟩
  -- `countMessage` changes the statistics after the sends
  case broadcast =>
    obtain ⟨_, hcount⟩ := Chat.countMessage_frame message.val
      (Room.sendMessageAsync (s.server.peers p).room message s.server)
    have hsent := broadcast_handsOut (s.server.peers p).room message (hmembers _)
    refine ⟨_, rfl, ?_⟩
    show HandsOut _ _ (Chat.State.countMessage _ _)
    rw [hcount]
    exact ⟨hsent.outbox, hsent.isOpen, hsent.peerCount, hsent.fresh⟩
  case addPeer => exact ⟨_, rfl, SendsNothing.handsOut (.of_frame rfl rfl rfl) (by simp)⟩
  case onboardPeer => exact .of_sendsNothing (.refl _) rfl
  case getHistory => exact ⟨_, rfl, SendsNothing.handsOut (.of_frame rfl rfl rfl) (by simp)⟩
  case sendInfo =>
    exact ⟨_, rfl, sendMessageAsync_handsOut p info fun q => sentTo_singleton q p info⟩
  case shareFiles.nil => exact .of_sendsNothing (.refl _) rfl
  case removePeerById => exact ⟨_, rfl, (sendsNothing_removePeerById _ _ _).handsOut (by simp)⟩
  case invalidateSocket => exact .of_sendsNothing (sendsNothing_invalidateSocket _ _) rfl
  case isEmpty => exact .of_sendsNothing (.refl _) rfl
  case deleteRoom => exact .of_sendsNothing (.of_frame rfl rfl rfl) rfl

variable {fw : Framework} {config : ConfigDto} {s s' : State}

theorem provide_logs {k : SocketRef} (hs : s.provide k = some s') : Logs s.chat s'.chat := by
  unfold State.provide at hs
  split at hs
  · next p chunk _ _ =>
    obtain ⟨_, hframe⟩ :=
      File.provideFileChunk_frame chunk.file chunk.subscriberId chunk.data s.chat.server
    dsimp only [State.server] at hs
    split at hs <;> obtain rfl := Option.some.inj hs
    · next hexec =>
      rw [hexec] at hframe
      subst hframe
      exact .of_sendsNothing (.of_frame rfl rfl rfl) rfl
    · next hexec =>
      rw [hexec] at hframe
      subst hframe
      exact .of_sendsNothing (.of_frame rfl rfl rfl) rfl
  · cases hs

theorem receive_log {k : SocketRef} {message : MessageDto} {c c' : Chat.State}
    (hs : c.receive fw config k message = some c') : c'.log = c.log := by
  unfold Chat.State.receive at hs
  split at hs
  · next p _ =>
    dsimp only at hs
    split at hs
    · obtain rfl := Option.some.inj hs
      rfl
    · obtain rfl := Option.some.inj hs
      rfl
    · split at hs <;> obtain rfl := Option.some.inj hs
      · rfl
      · rfl
    · split at hs <;> obtain rfl := Option.some.inj hs
      · rfl
      · rfl
  · cases hs

theorem receiveChunk_log (k : SocketRef) (p : PeerRef) (message : MessageDto) :
    (s.receiveChunk fw k p message).chat.log = s.chat.log := by
  unfold State.receiveChunk
  dsimp only
  split
  · rfl
  · rfl

/-- Every step logs what it hands out. -/
theorem step_logs {a : Act} (hmembers : ∀ ρ, (Room.members ρ s.server).Nodup)
    (hs : s.step fw config a = some s') : Logs s.chat s'.chat := by
  -- a step of the chat alone is judged in the chat
  have hlift : ∀ b, (s.chat.step fw config b).map (fun chat => { s with chat }) = some s' →
      (∀ c, s.chat.step fw config b = some c → Logs s.chat c) → Logs s.chat s'.chat := by
    intro b hb hlogs
    obtain ⟨chat, hchat, rfl⟩ := Option.map_eq_some_iff.mp hb
    exact hlogs chat hchat
  cases a with
  | chat b =>
      cases b with
      | run k =>
          simp only [State.step, State.run] at hs
          split at hs
          · cases hs
          · next chat hchat =>
            obtain rfl := Option.some.inj hs
            exact run_logs hmembers hchat
      | receive k message =>
          simp only [State.step, State.receive] at hs
          split at hs
          · next p _ _ =>
            split at hs
            · obtain rfl := Option.some.inj hs
              let s₁ : State := { s with arrivals := ⟨k, p, message⟩ :: s.arrivals }
              exact .of_sendsNothing (receiveChunk_frame (s := s₁) k p message).sendsNothing
                (receiveChunk_log (s := s₁) k p message)
            · next hcode =>
              obtain ⟨chat, hchat, rfl⟩ := Option.map_eq_some_iff.mp hs
              exact .of_sendsNothing (receive_frame hcode hchat).sendsNothing (receive_log hchat)
          · cases hs
      | close k =>
          simp only [State.step] at hs
          split at hs
          · refine hlift _ hs fun c hc => ?_
            simp only [Chat.State.step] at hc
            split at hc
            · obtain rfl := Option.some.inj hc
              exact .of_sendsNothing (.refl _) rfl
            · cases hc
          · cases hs
      | connect k roomName nickname =>
          refine hlift _ hs fun c hc => ?_
          simp only [Chat.State.step] at hc
          split at hc
          · obtain rfl := Option.some.inj hc
            exact .of_sendsNothing (.of_frame rfl rfl rfl) rfl
          · cases hc
      -- pings and pongs are no messages
      | pingAllPeers ρ =>
          refine hlift (.pingAllPeers ρ) hs fun c hc => ?_
          obtain rfl := Option.some.inj hc
          exact .of_sendsNothing (sendsNothing_pingAllPeers _ _) rfl
      | onPong p =>
          refine hlift (.onPong p) hs fun c hc => ?_
          obtain rfl := Option.some.inj hc
          exact .of_sendsNothing (sendsNothing_onPong _ _) rfl
  -- handing a chunk over sends nothing
  | provide k => exact provide_logs hs
  | getRoom i roomId fileId =>
      simp only [State.step] at hs
      split at hs
      · obtain rfl := Option.some.inj hs
        exact .of_sendsNothing (.refl _) rfl
      · cases hs
  | getFile i =>
      simp only [State.step, State.getFile] at hs
      split at hs
      · obtain rfl := Option.some.inj hs
        exact .of_sendsNothing (.refl _) rfl
      · obtain rfl := Option.some.inj hs
        exact .of_sendsNothing (.of_frame rfl rfl rfl) rfl
      · cases hs
  -- a read may send a chunk request
  | read i count =>
      simp only [State.step, State.read] at hs
      split at hs
      · next σ _ =>
        obtain rfl := Option.some.inj hs
        exact ⟨_, rfl, read_handsOut σ count s.server⟩
      · cases hs
  | drop i =>
      simp only [State.step, State.drop] at hs
      split at hs
      · obtain rfl := Option.some.inj hs
        exact .of_sendsNothing (sendsNothing_destroy _ _) rfl
      · obtain rfl := Option.some.inj hs
        exact .of_sendsNothing (sendsNothing_destroy _ _) rfl
      · cases hs

/-! ### Runs -/

/-- The websocket of `p` was handed the first of the messages that `p` was
sent, and as long as it is open all of them. -/
structure Handed (p : PeerRef) (s : Chat.State) : Prop where
  outbox_prefix : s.server.outbox p <+: sentTo p s.log
  outbox_eq : p < s.server.peerCount → (s.server.peers p).socket.isSome →
    s.server.outbox p = sentTo p s.log

/-- One step. -/
theorem Handed.logs {p : PeerRef} {s s' : Chat.State} (h : Handed p s)
    (hfresh : s.server.peerCount ≤ p → sentTo p s.log = []) (hlogs : Logs s s') : Handed p s' := by
  obtain ⟨events, hlog, hout⟩ := hlogs
  constructor
  case outbox_prefix =>
    rw [hlog, sentTo_append, hout.outbox]
    by_cases hlt : p < s.server.peerCount
    · split
      · next hopen =>
        rw [h.outbox_eq hlt hopen]
      · rw [List.append_nil]
        exact h.outbox_prefix.trans (List.prefix_append _ _)
    · -- nothing has been sent to a peer that does not exist
      have hnil := hfresh (not_lt.mp hlt)
      have houtbox : s.server.outbox p = [] := List.prefix_nil.mp (hnil ▸ h.outbox_prefix)
      rw [hnil, houtbox]
      split
      · exact List.prefix_rfl
      · exact List.nil_prefix
  case outbox_eq =>
    intro hlt' hopen'
    rw [hlog, sentTo_append, hout.outbox]
    by_cases hlt : p < s.server.peerCount
    · have hopen := hout.isOpen p hlt hopen'
      rw [if_pos hopen, h.outbox_eq hlt hopen]
    · have hnil := hfresh (not_lt.mp hlt)
      have houtbox : s.server.outbox p = [] := List.prefix_nil.mp (hnil ▸ h.outbox_prefix)
      rw [hnil, houtbox, hout.fresh p (not_lt.mp hlt) hlt', ite_self]

/-- **The log and the outboxes agree** in every state of every run. -/
theorem handed (hs : (system fw config).Reachable s) (p : PeerRef) : Handed p s.chat := by
  induction hs with
  | init hinit =>
      obtain ⟨clock, rfl⟩ := hinit
      exact ⟨List.prefix_rfl, fun _ _ => rfl⟩
  | @step s a s' hreach _ hstep ih =>
      refine ih.logs (fun hle => ?_) (step_logs (fun ρ => ?_) hstep)
      · refine sentTo_eq_nil fun message hmem => ?_
        have hworded : EventWorded s.chat.scene (.sent p message) := (worded hreach).event _ hmem
        exact absurd hworded.1 (not_lt.mpr hle)
      · exact UnorderedMap.nodup_values fun id id' q hid hid' => (exact hreach).member_inj hid hid'

end Traffic

end CanChat
