/-
CanChat/Reachability.lean

The heartbeat of a connected peer, and which broadcasts it is sent.

The server sends a peer all broadcasts of its room while its socket is open, and
none after `invalidateSocket`.  Whether the socket is open is determined by the
ping rounds and the pongs of that socket alone: a round keeps it open iff exactly
one pong arrived since the round before, and none before the first round.

Design.  A `Monitor` is a fold over the run for one socket, which counts its
pongs between rounds.  `Monitor.Agrees` relates it to the socket and the counter
of the peer (`liveness`), and `MonitorsAgree` is the invariant of runs: each
handler changes the liveness only of the peers that it pings or that answer.
`Scene.PreservesClosed` states that a peer whose socket has been dropped is sent
nothing more.
-/
import CanChat.Desk
import CanChat.LiveLinks
import CanChat.Moves

namespace CanChat

namespace Conversation

open Isolation Handler

/-! ### The monitor of a socket -/

/-- The state of the monitor of one socket after part of a run. -/
structure Monitor where
  /-- There was a ping round since the join on this socket. -/
  seen : Bool := false
  /-- The number of pongs since the last round. -/
  pongs : ℕ := 0
  isOpen : Bool := true

namespace Monitor

def pingRound (w : Monitor) : Monitor where
  seen := true
  pongs := 0
  isOpen := w.isOpen && w.pongs % 2 ^ 32 == if w.seen then 1 else 0

def onPong (w : Monitor) : Monitor := { w with pongs := w.pongs + 1 }

def observe (k : SocketRef) (w : Monitor) (a : Occurrence) : Monitor :=
  match a.event with
  | .pingRound => w.pingRound
  | .socket j .join => if j = k then {} else w
  | .socket j .pong => if j = k then w.onPong else w
  | _ => w

end Monitor

def monitor (k : SocketRef) (acts : List Occurrence) : Monitor := acts.foldl (Monitor.observe k) {}

theorem monitor_concat (k : SocketRef) (acts : List Occurrence) (a : Occurrence) :
    monitor k (acts ++ [a]) = (monitor k acts).observe k a := by
  unfold monitor
  rw [List.foldl_append]
  rfl

/-! ### The liveness of a peer -/

/-- Whether the socket is open, and the heartbeat counter. -/
def liveness (peer : Peer) : Bool × Int32 := (peer.socket.isSome, peer.pingPoingCounter)

namespace Monitor

/-- The counter expected by the monitor: one for the last round, minus the pongs
since, with the wrap-around of `Int32`. -/
def counter (w : Monitor) : Int32 := (if w.seen then 1 else 0) - Int32.ofNat w.pongs

/-- The socket is open iff the monitor says so, and then the counter is the
expected one. -/
def Agrees (w : Monitor) (liveness : Bool × Int32) : Prop :=
  liveness.1 = w.isOpen ∧ (w.isOpen = true → liveness.2 = w.counter)

section Agrees

variable {w : Monitor} {peer : Peer}

/-- The test of `checkPingsRules` on the expected counter, in terms of the pongs. -/
theorem counter_iff (w : Monitor) :
    w.counter + 1 = 1 ↔ w.pongs % 2 ^ 32 = if w.seen then 1 else 0 := by
  have hsub : w.counter + 1 = 1 ↔ Int32.ofNat w.pongs = if w.seen then 1 else 0 := by
    unfold counter
    constructor
    · intro h
      grind
    · intro h
      grind
  rw [hsub]
  cases w.seen with
  | true => exact ofNat_eq_one_iff w.pongs
  | false => exact ofNat_eq_zero_iff w.pongs

theorem Agrees.pinged (h : w.Agrees (liveness peer)) :
    w.pingRound.Agrees (liveness peer.pinged) := by
  obtain ⟨hopen, hcounter⟩ := h
  have hopen : peer.socket.isSome = w.isOpen := hopen
  have hcounter : w.isOpen = true → peer.pingPoingCounter = w.counter := hcounter
  -- the socket survives if it was open and the counter is found to be one
  have hkept : peer.pinged.socket.isSome =
      (peer.socket.isSome && peer.pingPoingCounter + 1 == 1) := by
    show (if peer.socket.isSome && peer.pingPoingCounter + 1 == 1 then peer.socket
      else none).isSome = _
    split
    · next h =>
      rw [h]
      exact ((Bool.and_eq_true _ _).mp h).1
    · next h => exact (Bool.not_eq_true _ ▸ h).symm
  rcases hw : w.isOpen with - | -
  · refine ⟨?_, fun h => ?_⟩
    · show peer.pinged.socket.isSome = (w.isOpen && _)
      rw [hkept, hopen, hw, Bool.false_and, Bool.false_and]
    · change (w.isOpen && _) = true at h
      rw [hw, Bool.false_and] at h
      cases h
  · have hone :
        (peer.pingPoingCounter + 1 == 1) = (w.pongs % 2 ^ 32 == if w.seen then 1 else 0) := by
      rw [hcounter hw, Bool.eq_iff_iff, beq_iff_eq, beq_iff_eq]
      exact w.counter_iff
    refine ⟨?_, fun h => ?_⟩
    · show peer.pinged.socket.isSome = (w.isOpen && _)
      rw [hkept, hopen, hone]
    · have hfound : (peer.pingPoingCounter + 1 == 1) = true := by
        rw [hone]
        exact ((Bool.and_eq_true _ _).mp h).2
      have hlast : w.pingRound.counter = 1 := by
        show (1 : Int32) - Int32.ofNat 0 = 1
        decide
      exact (beq_iff_eq.mp hfound).trans hlast.symm

theorem Agrees.onPong (h : w.Agrees (liveness peer)) : w.onPong.Agrees
    (liveness { peer with pingPoingCounter := peer.pingPoingCounter - 1 }) := by
  obtain ⟨hopen, hcounter⟩ := h
  refine ⟨hopen, fun hw => ?_⟩
  have hold : peer.pingPoingCounter = w.counter := hcounter hw
  show peer.pingPoingCounter - 1 = (if w.seen then 1 else 0) - Int32.ofNat (w.pongs + 1)
  rw [hold, Int32.ofNat_add]
  show (if w.seen then 1 else 0) - Int32.ofNat w.pongs - 1 =
    (if w.seen then 1 else 0) - (Int32.ofNat w.pongs + 1)
  grind

/-- The monitor agrees with a new peer, which has an open socket and counter zero. -/
theorem agrees_newcomer {k : SocketRef} (hsocket : peer.socket = some k)
    (hcounter : peer.pingPoingCounter = 0) : ({} : Monitor).Agrees (liveness peer) := by
  refine ⟨?_, fun _ => hcounter⟩
  show peer.socket.isSome = true
  rw [hsocket]
  rfl

end Agrees

end Monitor

/-! ### The peers pinged in a round -/

/-- A round pings the members of all rooms, each once. -/
theorem mem_pinged {s : Server} (hindexed : Indexed s.directory) (hhoused : s.directory.Housed) :
    (∀ p, p ∈ Zombies.pinged s ↔ s.scene.IsMember p) ∧ (Zombies.pinged s).Nodup := by
  have hlobby : ∀ ρ, ρ ∈ s.lobbyRooms.values ↔ ∃ name, s.directory.lobby name = some ρ :=
    fun ρ => UnorderedMap.mem_values
  have hmembers := fun ρ => mem_members s ρ hindexed
  -- a peer is a member of its own room only
  have hroom : ∀ ρ p, p ∈ Room.members ρ s → s.directory.peerRoom p = ρ := fun ρ p hp =>
    (hindexed.member ρ _ p (((hmembers ρ).1 p).mp hp)).2.1
  constructor
  · intro p
    refine List.mem_flatMap.trans ⟨?_, fun hp => ?_⟩
    · rintro ⟨ρ, -, hp⟩
      have hmember := ((hmembers ρ).1 p).mp hp
      rw [← hroom ρ p hp] at hmember
      exact hmember
    · refine ⟨_, (hlobby _).mpr ⟨_, hhoused.member _ _ p hp⟩, ?_⟩
      exact ((hmembers _).1 p).mpr hp
  · refine List.nodup_flatMap.mpr ⟨fun ρ _ => (hmembers ρ).2, ?_⟩
    have hnodup : s.lobbyRooms.values.Nodup := UnorderedMap.nodup_values fun name name' ρ h h' =>
      (hhoused.lobby name ρ h).2.symm.trans (hhoused.lobby name' ρ h').2
    refine hnodup.imp fun hne => ?_
    intro p hp hp'
    exact hne ((hroom _ p hp).symm.trans (hroom _ p hp'))

theorem liveness_pingRound {s : Server} (hindexed : Indexed s.directory)
    (hhoused : s.directory.Housed)
    {p : PeerRef} (hp : s.scene.IsMember p) :
    (Lobby.pingRound s).peers p = (s.peers p).pinged := by
  obtain ⟨hmem, hnodup⟩ := mem_pinged hindexed hhoused
  rw [Zombies.pingRound_peers hnodup, if_pos ((hmem p).mpr hp)]

/-! ### Runs -/

/-- The monitor of each connected socket agrees with the peer of the socket. -/
def MonitorsAgree (acts : List Occurrence) (s : State) : Prop :=
  ∀ k p, connected (s.socket k) = some p → (monitor k acts).Agrees (liveness (s.server.peers p))

section MonitorsAgree

variable {fw : Framework} {config : ConfigDto} {requests : Requests} {T : Transcript}
  {acts : List Occurrence} {s t : State} {a : Occurrence} {k : SocketRef} {p : PeerRef}

/-- An event that changes neither the monitors nor the liveness of the peers. -/
theorem MonitorsAgree.keep (h : MonitorsAgree acts s) (hmonitor : ∀ j w, Monitor.observe j w a = w)
    (hdesk : t.server.desk liveness = s.server.desk liveness)
    (hlink : ∀ j q, connected (t.socket j) = some q → connected (s.socket j) = some q) :
    MonitorsAgree (acts ++ [a]) t := by
  intro j q hq
  have hliveness : liveness (t.server.peers q) = liveness (s.server.peers q) :=
    congrFun (congrArg Prod.snd hdesk) q
  rw [monitor_concat, hmonitor, hliveness]
  exact h j q (hlink j q hq)

/-- An event that concerns only the socket `k` and its peer `p`. -/
theorem MonitorsAgree.change (h : MonitorsAgree acts s) {link : Link} {b : Bool × Int32}
    (hsocket : t.socket = Function.update s.socket k link)
    (hdesk : ∀ q, liveness (t.server.peers q) =
      Function.update (s.server.desk liveness).2 p b q)
    (hmonitor : ∀ j w, j ≠ k → Monitor.observe j w a = w)
    (hother : ∀ j q, j ≠ k → connected (s.socket j) = some q → q ≠ p)
    (hself : ∀ q, connected link = some q → q = p ∧ (monitor k (acts ++ [a])).Agrees b) :
    MonitorsAgree (acts ++ [a]) t := by
  intro j q hq
  rw [hsocket] at hq
  rw [hdesk]
  rcases eq_or_ne j k with rfl | hj
  · rw [Function.update_self] at hq
    obtain ⟨rfl, hagrees⟩ := hself q hq
    rw [Function.update_self]
    exact hagrees
  · rw [Function.update_of_ne hj] at hq
    rw [monitor_concat, hmonitor j _ hj, Function.update_of_ne (hother j q hj hq)]
    exact h j q hq

theorem MonitorsAgree.pingRound (h : MonitorsAgree acts s) (hheld : Held config T s)
    (hhoused : s.server.directory.Housed) (hevent : a.event = .pingRound)
    (hsocket : t.socket = s.socket) (hpeers : t.server.peers = (Lobby.pingRound s.server).peers) :
    MonitorsAgree (acts ++ [a]) t := by
  intro j q hq
  rw [hsocket] at hq
  have hsees : (monitor j acts).observe j a = (monitor j acts).pingRound := by
    unfold Monitor.observe
    rw [hevent]
  rw [monitor_concat, hsees, hpeers,
    liveness_pingRound hheld.refines.realizes.indexed hhoused (hheld.link j q hq)]
  exact (h j q hq).pinged

/-- `readMessage` leaves the liveness of all peers. -/
theorem liveness_readMessage (fw : Framework) (config : ConfigDto) (p : PeerRef) (data : Bytes)
    (s : Server) :
    ((Peer.readMessage fw config p data).exec s).2.desk liveness = s.desk liveness := by
  have hbuffer : ∀ (s : Server) (p : PeerRef) (buffer : Peer → Bytes),
      (s.modifyPeer p fun peer => { peer with messageBuffer := buffer peer }).desk liveness =
        s.desk liveness := fun s p buffer => desk_modifyPeer_of_eq s p fun _ => rfl
  have hregister : Registers fun s t => t.desk liveness = s.desk liveness :=
    fun ρ _ host clientFileId fileName fileSize s _ =>
      desk_registerFile (fun _ _ => rfl) ρ host clientFileId fileName fileSize s
  exact desk_operations.readMessage hbuffer hregister fw config p data s

variable (fw) (config) in
/-- A frame leaves the liveness of all peers, also where the handler throws. -/
theorem MonitorsAgree.receive (h : MonitorsAgree acts s) {data : Bytes} (clock : ℕ → Int)
    {link : Link}
    (hlive : s.socket k = .live p) (hlink : connected link = some p)
    (hevent : a.event = .socket k (.receive data))
    (hsocket : t.socket = Function.update s.socket k link)
    (hdesk : t.server.desk liveness =
      ((Peer.readMessage fw config p data).exec (setClock clock s.server)).2.desk liveness) :
    MonitorsAgree (acts ++ [a]) t := by
  have hread := liveness_readMessage fw config p data (setClock clock s.server)
  have hsees : ∀ j w, Monitor.observe j w a = w := fun j w => by
    unfold Monitor.observe
    rw [hevent]
  refine h.keep hsees (hdesk.trans hread) fun j q hq => ?_
  rw [hsocket] at hq
  rcases eq_or_ne j k with rfl | hj
  · rw [Function.update_self, hlink] at hq
    rw [hlive]
    exact hq
  · rwa [Function.update_of_ne hj] at hq

theorem MonitorsAgree.step (h : MonitorsAgree acts s) (hheld : Held config T s)
    (hhoused : s.server.directory.Housed) (hstep : s.step fw config requests a = some t) :
    MonitorsAgree (acts ++ [a]) t := by
  -- the peers of the other sockets are others
  have hother : ∀ {k p}, connected (s.socket k) = some p →
      ∀ j q, j ≠ k → connected (s.socket j) = some q → q ≠ p := by
    rintro k p hk j q hj hq rfl
    exact hj (hheld.apart j k q hq hk)
  cases moves_of_step hstep with
  | @join k clock joined idle handled =>
      obtain ⟨hnew, newcomer, hsocket, -, hcounter, hdesk⟩ := desk_onAfterCreateNonBlocking
        (g := liveness) config k (requests.roomName k) (requests.nickname k)
        (setClock clock s.server)
      rw [handled] at hnew hdesk
      refine h.change (k := k) (p := s.server.peerCount) rfl
        (fun q => congrFun (congrArg Prod.snd hdesk) q) (fun j w hj => if_neg hj.symm)
        (fun j q _ hq => ?_) fun q hq => ?_
      · exact (hheld.refines.lt_of_isMember (hheld.link j q hq)).ne
      · refine ⟨(Option.some.inj hq).symm.trans hnew, ?_⟩
        have hsees : ∀ w : Monitor, w.observe k ⟨.socket k .join, clock⟩ = {} := fun _ => if_pos rfl
        rw [monitor_concat, hsees]
        exact Monitor.agrees_newcomer hsocket hcounter
  | @taken k clock data p server live handled =>
      exact h.receive fw config clock live rfl rfl rfl (by rw [handled])
  | @answered k clock data p server coroutine live handled =>
      refine h.receive fw config clock live rfl rfl rfl ?_
      rw [handled]
      exact desk_sendError p coroutine server
  | @raised k clock data p server fault live handled =>
      exact h.receive fw config clock live rfl rfl rfl (by rw [handled])
  | @pong k clock p live =>
      have hp : connected (s.socket k) = some p := by rw [live]; rfl
      have hdesk : (Peer.onPong p (setClock clock s.server)).desk liveness = _ :=
        desk_modifyPeer _ p _
      refine h.change (k := k) (p := p) rfl
        (fun q => congrFun (congrArg Prod.snd hdesk) q) (fun j w hj => if_neg hj.symm)
        (hother hp) fun q hq => ⟨(Option.some.inj hq).symm, ?_⟩
      have hsees : ∀ w : Monitor, w.observe k ⟨.socket k .pong, clock⟩ = w.onPong :=
        fun _ => if_pos rfl
      rw [monitor_concat, hsees]
      exact (h k p hp).onPong
  | @leave k clock p ending =>
      have hp : connected (s.socket k) = some p := connected_of_ending ending
      have hdesk := desk_onBeforeDestroyNonBlocking (g := liveness) config p
        (setClock clock s.server)
      exact h.change (k := k) (p := p) rfl
        (fun q => congrFun (congrArg Prod.snd hdesk) q) (fun _ _ _ => rfl) (hother hp)
        fun q hq => by cases hq
  | refused _ _ => exact h.keep (fun _ _ => rfl) rfl fun _ _ => id
  | subscribed _ _ _ => exact h.keep (fun _ _ => rfl) rfl fun _ _ => id
  | @read i clock count σ server result live handled =>
      have hread := desk_read (g := liveness) σ count (setClock clock s.server)
      rw [handled] at hread
      exact h.keep (fun _ _ => rfl) hread fun _ _ => id
  | @broken i clock count σ server fault live handled =>
      have hread := desk_read (g := liveness) σ count (setClock clock s.server)
      rw [handled] at hread
      exact h.keep (fun _ _ => rfl) hread fun _ _ => id
  | @drop i clock σ ending =>
      exact h.keep (fun _ _ => rfl) (desk_destroy σ (setClock clock s.server)) fun _ _ => id
  | @pingRound clock =>
      exact MonitorsAgree.pingRound (s := { s with server := setClock clock s.server }) h
        ⟨hheld.refines, hheld.link, hheld.apart⟩ hhoused rfl rfl rfl

end MonitorsAgree

/-! ### Dropped sockets -/

/-- A peer whose socket has been dropped is sent nothing, and its socket stays
dropped. -/
structure Scene.PreservesClosed (v w : Scene) : Prop where
  peerCount : v.directory.peerCount ≤ w.directory.peerCount
  closed : ∀ p < v.directory.peerCount, v.online p = false →
    w.online p = false ∧ w.outbox p = v.outbox p

section PreservesClosed

variable {config : ConfigDto} {u v w : Scene} {p : PeerRef}

theorem Scene.PreservesClosed.refl (v : Scene) : v.PreservesClosed v :=
  ⟨le_rfl, fun _ _ h => ⟨h, rfl⟩⟩

theorem Scene.PreservesClosed.trans (h : u.PreservesClosed v) (h' : v.PreservesClosed w) :
    u.PreservesClosed w := by
  refine ⟨h.peerCount.trans h'.peerCount, fun p hp honline => ?_⟩
  obtain ⟨honline, houtbox⟩ := h.closed p hp honline
  obtain ⟨honline', houtbox'⟩ := h'.closed p (hp.trans_le h.peerCount) honline
  exact ⟨honline', houtbox'.trans houtbox⟩

theorem Scene.Quiet.preservesClosed (h : v.Quiet w) : v.PreservesClosed w := by
  refine ⟨h.extendsPeers.peerCount, fun p _ honline => ⟨?_, ?_⟩⟩
  · rcases hw : w.online p with - | -
    · rfl
    · rw [h.online p hw] at honline
      cases honline
  · obtain ⟨direct, hdirects, -, hsent⟩ := h.outbox p
    -- a direct message needs an open socket
    rcases direct with - | ⟨m, direct⟩
    · rw [hdirects, List.append_nil]
    · rw [hsent (by simp)] at honline
      cases honline

theorem Scene.preservesClosed_announce (config : ConfigDto) (ρ : RoomRef) (dto : MessageDto)
    (v : Scene) :
    v.PreservesClosed (v.announce config ρ dto) := by
  obtain ⟨history, hd⟩ := v.announce_directory config ρ dto
  refine ⟨by rw [hd], fun p _ honline => ⟨honline, ?_⟩⟩
  have hreceives : v.receives ρ p = false := by
    unfold receives
    rw [honline, Bool.and_false]
  show v.outbox p ++ (if v.receives ρ p then _ else []) = v.outbox p
  rw [hreceives]
  exact List.append_nil _

/-- A join concerns a peer that was not allocated before. -/
theorem Scene.preservesClosed_join (config : ConfigDto) (ρ : RoomRef) (nickname : String)
    (peers : List (Option PeerDto)) (v : Scene) :
    v.PreservesClosed (v.join config ρ nickname peers) := by
  let n := v.directory.peerCount
  let created := v.createPeer ρ nickname
  let welcomed := created.announce config ρ (joined created n)
  refine ⟨by rw [Scene.join_peerCount]; exact Nat.le_succ _, fun p hp honline => ?_⟩
  have hne : p ≠ n := Nat.ne_of_lt hp
  have hcreated : created.online p = false :=
    (Function.update_of_ne hne _ _).trans honline
  have hcount : p < created.directory.peerCount := Nat.lt_succ_of_lt hp
  obtain ⟨hwelcomed, houtbox⟩ :=
    (Scene.preservesClosed_announce config ρ (joined created n) created).closed p hcount hcreated
  refine ⟨hwelcomed, ?_⟩
  show Function.update welcomed.outbox n _ p = v.outbox p
  rw [Function.update_of_ne hne]
  exact houtbox

theorem Scene.preservesClosed_leave (config : ConfigDto) (q : PeerRef) (v : Scene) :
    v.PreservesClosed (v.leave config q) := by
  let removed : Scene := { v with
    directory := v.directory.removePeer (v.directory.peerRoom q) (v.directory.peerId q) }
  have hremoved : v.PreservesClosed removed := ⟨le_rfl, fun _ _ h => ⟨h, rfl⟩⟩
  have hbroadcast := Scene.preservesClosed_announce config (v.directory.peerRoom q)
    (left removed q) removed
  exact (hremoved.trans hbroadcast).trans (Scene.quiet_drop _ q).preservesClosed

theorem preservesClosed_of_speaks {s t : Server} {sent : Option Submission}
    (h : Speaks config p s t sent) : s.scene.PreservesClosed t.scene := by
  cases h with
  | quiet hquiet => exact hquiet.preservesClosed
  | once message u w dto before _ announced after _ =>
      have hbroadcast : u.scene.PreservesClosed w.scene := by
        rw [announced]
        exact Scene.preservesClosed_announce config _ dto _
      exact (before.preservesClosed.trans hbroadcast).trans after.preservesClosed

end PreservesClosed

section Reached

variable {fw : Framework} {config : ConfigDto} {requests : Requests} {T : Transcript}
  {acts more : List Occurrence} {s t : State} {a : Occurrence}

theorem preservesClosed_onAfterCreate {s : Server} (h : Indexed s.directory) (config : ConfigDto)
    (k : SocketRef) (roomName nickname : String) :
    s.scene.PreservesClosed
      (Lobby.onAfterCreateNonBlocking config k roomName nickname s).2.scene := by
  let counted := Lobby.countConnected s
  let entered := Lobby.getOrCreateRoom roomName counted
  obtain ⟨peers, hjoin, -, -⟩ := scene_onAfterCreateNonBlocking h config k roomName nickname
  have hentered : s.scene.PreservesClosed entered.2.scene := by
    have hdirectory := directory_getOrCreateRoom counted roomName
    have hcount : s.peerCount = entered.2.peerCount := by
      rcases hname : Lobby.getRoom roomName counted with - | ρ
      · rw [hname] at hdirectory
        exact (congrArg Directory.peerCount hdirectory).symm
      · rw [hname] at hdirectory
        exact (congrArg Directory.peerCount hdirectory).symm
    have hscene : entered.2.scene = { s.scene with directory := entered.2.directory } :=
      scene_getOrCreateRoom counted roomName
    rw [hscene]
    exact ⟨hcount.le, fun _ _ h => ⟨h, rfl⟩⟩
  rw [hjoin]
  exact hentered.trans (Scene.preservesClosed_join config entered.1 nickname peers entered.2.scene)

theorem preservesClosed_onBeforeDestroy {s : Server} (h : Indexed s.directory) (config : ConfigDto)
    (p : PeerRef) :
    s.scene.PreservesClosed (Lobby.onBeforeDestroyNonBlocking config p s).scene := by
  have hleft := Scene.preservesClosed_leave config p s.scene
  rcases scene_onBeforeDestroyNonBlocking h config p with heq | ⟨name, heq⟩
  · rw [heq]
    exact hleft
  · rw [heq]
    exact ⟨hleft.peerCount, hleft.closed⟩

theorem preservesClosed_step (hheld : Held config T s)
    (hstep : s.step fw config requests a = some t) :
    s.server.scene.PreservesClosed t.server.scene := by
  have hindexed : ∀ clock, Indexed (setClock clock s.server).directory :=
    fun _ => hheld.refines.realizes.indexed
  -- a frame broadcasts at most once, to open sockets only
  have hreads : ∀ {k p}, s.socket k = .live p → ∀ clock data, s.server.scene.PreservesClosed
      ((Peer.readMessage fw config p data).exec (setClock clock s.server)).2.scene := by
    intro k p hlive clock data
    have hisMember : (setClock clock s.server).scene.IsMember p :=
      hheld.link k p (by rw [hlive]; rfl)
    have hspeaks : Speaks config p (setClock clock s.server) _ _ :=
      readMessage_speaks fw (hindexed clock) hisMember data
    have hpreservesClosed := preservesClosed_of_speaks hspeaks
    exact hpreservesClosed
  -- the join creates a peer, the leave drops one; the other events make no broadcast
  cases moves_of_step hstep with
  | @join k clock joined idle handled =>
      have hjoin := preservesClosed_onAfterCreate (hindexed clock) config k (requests.roomName k)
        (requests.nickname k)
      rw [handled] at hjoin
      exact hjoin
  | @taken k clock data p server live handled =>
      have hread := hreads live clock data
      rw [handled] at hread
      exact hread
  | @answered k clock data p server coroutine live handled =>
      have hread := hreads live clock data
      have hanswers :=
        Answers.readMessage fw config p data (setClock clock s.server) coroutine server
      rw [handled] at hread hanswers
      exact hread.trans (quiet_sendError server p coroutine (hanswers rfl)).preservesClosed
  | @raised k clock data p server fault live handled =>
      have hread := hreads live clock data
      rw [handled] at hread
      exact hread
  | @pong k clock p live =>
      have hquiet : s.server.scene.Quiet (Peer.onPong p (setClock clock s.server)).scene :=
        quiet_modifyPeer (setClock clock s.server) p (fun _ => rfl) (fun _ => rfl) (fun _ => rfl)
          fun _ => rfl
      exact hquiet.preservesClosed
  | @leave k clock p ending => exact preservesClosed_onBeforeDestroy (hindexed clock) config p
  | refused _ _ => exact .refl s.server.scene
  | subscribed _ _ _ => exact .refl s.server.scene
  | @read i clock count σ server result live handled =>
      have hread := quiet_read (setClock clock s.server) σ count
      rw [handled] at hread
      exact Scene.Quiet.preservesClosed hread
  | @broken i clock count σ server fault live handled =>
      have hread := quiet_read (setClock clock s.server) σ count
      rw [handled] at hread
      exact Scene.Quiet.preservesClosed hread
  | @drop i clock σ ending => exact (quiet_destroy (setClock clock s.server) σ).preservesClosed
  | @pingRound clock => exact (quiet_pingRound (setClock clock s.server)).preservesClosed

theorem MonitorsAgree.run (h : MonitorsAgree acts s) (hheld : Held config T s)
    (hlinked : Linked s.server)
    (hrun : (system fw config requests).run s more = some t) :
    MonitorsAgree (acts ++ more) t ∧ s.server.scene.PreservesClosed t.server.scene := by
  induction more generalizing s T acts with
  | nil =>
      cases hrun
      rw [List.append_nil]
      exact ⟨h, .refl _⟩
  | cons a more ih =>
      obtain ⟨u, hstep, hrest⟩ := Option.bind_eq_some_iff.mp hrun
      obtain ⟨T₁, -, -, hheld', -⟩ := hheld.step fw config (P := fun _ => []) hstep
      obtain ⟨hmonitors, hpreservesClosed⟩ :=
        ih (h.step hheld hlinked.housed hstep) hheld' (hlinked.step hheld hstep) hrest
      rw [List.append_assoc] at hmonitors
      exact ⟨hmonitors, (preservesClosed_step hheld hstep).trans hpreservesClosed⟩

theorem MonitorsAgree.init : MonitorsAgree [] {} := fun _ _ hp => by cases hp

variable (fw) (config) in
/-- **The heartbeats determine delivery.**  In a run of whole handlers (not
interleaved) the rounds and the pongs of a socket determine whether its peer is
sent the broadcasts of its room: all of them so far, while each round has found
one pong since the round before, and none from the first round on that has not.
Where handlers are interleaved a room with members may be missing from the lobby
(CanChat/CoLocation.lean), and its members get no pings. -/
theorem reached (hs : (system fw config requests).run {} acts = some s)
    (ht : (system fw config requests).run s more = some t) :
    ∃ T, Refines config T s.server.scene ∧ ∀ k p, connected (s.socket k) = some p →
      s.server.scene.online p = (monitor k acts).isOpen ∧
      ((monitor k acts).isOpen = true → T.stop p = (T.lines (s.server.peers p).room).length) ∧
      ((monitor k acts).isOpen = false → t.server.outbox p = s.server.outbox p) := by
  obtain ⟨hmonitors, -⟩ := MonitorsAgree.init.run (Held.init config) Linked.init hs
  obtain ⟨hlinked, T, hheld⟩ := Linked.init.run (Held.init config) hs
  obtain ⟨-, hpreservesClosed⟩ := hmonitors.run hheld hlinked ht
  refine ⟨T, hheld.refines, fun k p hp => ?_⟩
  have hisMember : s.server.scene.IsMember p := hheld.link k p hp
  have hlt : p < s.server.peerCount := hheld.refines.lt_of_isMember hisMember
  have honline : s.server.scene.online p = (monitor k acts).isOpen := (hmonitors k p hp).1
  refine ⟨honline, fun hopen => ?_, fun hclosed => ?_⟩
  · have hsentSegment := hheld.refines.realizes.sentSegment p hlt
    refine hsentSegment.upToDate ((Bool.and_eq_true _ _).mpr ⟨?_, honline.trans hopen⟩)
    exact beq_iff_eq.mpr hisMember
  · exact (hpreservesClosed.closed p hlt (honline.trans hclosed)).2

/-- Bob answers the first ping and Ann does not; then he posts. -/
def twoRounds : List Occurrence :=
  [⟨.socket 1 .join, fun _ => 0⟩, ⟨.socket 0 .join, fun _ => 0⟩, ⟨.pingRound, fun _ => 1⟩,
    ⟨.socket 1 .pong, fun _ => 2⟩, ⟨.pingRound, fun _ => 3⟩]

theorem reached_twoRounds : ∃ s t, (system chatter {} oneRoom).run {} twoRounds = some s ∧
    (system chatter {} oneRoom).run s (twoPosts.take 4 |>.drop 2) = some t ∧
    connected (s.socket 0) = some 1 ∧ connected (s.socket 1) = some 0 ∧
    (monitor 0 twoRounds).isOpen = false ∧ (monitor 1 twoRounds).isOpen = true ∧
    ∃ T, Refines {} T s.server.scene ∧ ∀ k p, connected (s.socket k) = some p →
      s.server.scene.online p = (monitor k twoRounds).isOpen ∧
      ((monitor k twoRounds).isOpen = true →
        T.stop p = (T.lines (s.server.peers p).room).length) ∧
      ((monitor k twoRounds).isOpen = false → t.server.outbox p = s.server.outbox p) := by
  have hruns : ((system chatter {} oneRoom).run {} twoRounds).any (fun s =>
      decide (connected (s.socket 0) = some 1 ∧ connected (s.socket 1) = some 0) &&
        ((system chatter {} oneRoom).run s (twoPosts.take 4 |>.drop 2)).isSome) = true := by
    decide +kernel
  obtain ⟨s, hs, hthen⟩ := (Option.any_eq_true _ _).mp hruns
  obtain ⟨hlinks, hposts⟩ := (Bool.and_eq_true _ _).mp hthen
  obtain ⟨h0, h1⟩ := of_decide_eq_true hlinks
  obtain ⟨t, ht⟩ := Option.isSome_iff_exists.mp hposts
  exact ⟨s, t, hs, ht, h0, h1, rfl, rfl, reached chatter {} hs ht⟩

end Reached

end Conversation

end CanChat
