/-
CanChat/Zombies.lean

The counter of the peers the ping loop has dropped.

`pingAllPeers` counts a peer each time `sendPingAsync` refuses it.  A dropped
peer stays in the room until its socket is destroyed, and every round in
between refuses it again: the counter counts rounds.  It counts the peers in
the runs in which no round meets a peer without a socket (`Prompt`).

Design.  `dropped` is a ghost: the peers on which a round has called
`invalidateSocket`.  The rest of the state is that of the lobby's books.
-/
import CanChat.Bookkeeping
import CanChat.Heartbeat
import Mathlib.Data.Finset.Card

namespace CanChat

namespace Zombies

/-! ### Runs -/

/-- The sessions with their server, and the peers dropped so far. -/
structure State where
  books : Bookkeeping.State := {}
  /-- The peers whose socket the ping loop has invalidated. -/
  dropped : Finset PeerRef := ∅

/-- The events: a socket opens or closes, a round of pings, a pong. -/
inductive Act
  | onAfterCreate (k : SocketRef) (roomName nickname : String)
  | onBeforeDestroy (k : SocketRef)
  | pingRound
  | onPong (p : PeerRef)

/-- The peers a round pings, in its order. -/
def pinged (s : Server) : List PeerRef :=
  s.lobbyRooms.values.flatMap fun ρ => Room.members ρ s

/-- The peers a round drops. -/
def refused (s : Server) : List PeerRef :=
  (pinged s).filter fun p => !(Peer.sendPingAsync p s).1

/-- One event, with its handler run to the end. -/
def step (config : ConfigDto) (s : State) : Act → Option State
  | .onAfterCreate k roomName nickname =>
      (s.books.step config (.onAfterCreate k roomName nickname)).map fun books => { s with books }
  | .onBeforeDestroy k =>
      (s.books.step config (.onBeforeDestroy k)).map fun books => { s with books }
  | .pingRound => some
      { books := { s.books with server := Lobby.pingRound s.books.server }
        dropped := s.dropped ∪ (refused s.books.server).toFinset }
  | .onPong p => some { s with books := { s.books with server := Peer.onPong p s.books.server } }

/-- Runs of the whole server, from an empty one. -/
def system (config : ConfigDto) : Transition.System State Act where
  init s := ∃ clock, s = { books := { server := { clock } } }
  step := step config

/-- The counter is the number of peers dropped, and so at most the number of
those that have connected. -/
def CountedOnce (s : State) : Prop :=
  s.books.server.statistics.eventPeerZombieDropped = s.dropped.card ∧
    s.books.server.statistics.eventPeerZombieDropped ≤
      s.books.server.statistics.eventPeerConnected

/-- No round meets a member whose socket it has invalidated before. -/
def Prompt (s : State) : Act → Prop
  | .pingRound => ∀ p ∈ pinged s.books.server, (s.books.server.peers p).socket.isSome
  | _ => True

instance (s : State) (a : Act) : Decidable (Prompt s a) :=
  match a with
  | .pingRound =>
      inferInstanceAs
        (Decidable (∀ p ∈ pinged s.books.server, (s.books.server.peers p).socket.isSome))
  | .onAfterCreate .. => .isTrue trivial
  | .onBeforeDestroy _ => .isTrue trivial
  | .onPong _ => .isTrue trivial

/-! ### One round -/

/-- A pass of `runPingLoop` pings the members of all rooms. -/
theorem pingRound_eq (s : Server) : Lobby.pingRound s = (pinged s).foldl Room.pingPeer s := by
  unfold Lobby.pingRound pinged
  generalize s.lobbyRooms.values = ρs
  induction ρs generalizing s with
  | nil => rfl
  | cons ρ ρs ih =>
      have hmembers : ∀ ρ', Room.members ρ' (Room.pingAllPeers ρ s) = Room.members ρ' s := by
        intro ρ'
        unfold Room.members Room.pingAllPeers
        rw [foldl_pingPeer_rooms]
      rw [List.foldl_cons, ih, List.flatMap_cons, List.foldl_append]
      simp only [hmembers]
      rfl

/-- A ping counts a peer that it drops, and one that has been dropped before. -/
theorem pingPeer_zombieDropped (s : Server) (p : PeerRef) :
    (Room.pingPeer s p).statistics.eventPeerZombieDropped =
      s.statistics.eventPeerZombieDropped + if (Peer.sendPingAsync p s).1 then 0 else 1 := by
  unfold Room.pingPeer
  dsimp only
  split
  · rfl
  · rfl

/-- A ping succeeds if the socket is there and the counter has come back. -/
theorem sendPingAsync_eq (s : Server) (p : PeerRef) : (Peer.sendPingAsync p s).1 =
    ((s.peers p).socket.isSome && (s.peers p).pingPoingCounter + 1 == 1) := by
  simp [Peer.sendPingAsync]

/-- Others are pinged as if nothing had happened. -/
theorem sendPingAsync_pingPeer (s : Server) {p q : PeerRef} (h : p ≠ q) :
    (Peer.sendPingAsync p (Room.pingPeer s q)).1 = (Peer.sendPingAsync p s).1 := by
  rw [sendPingAsync_eq, sendPingAsync_eq, pingPeer_peers, if_neg h]

/-- A round counts every ping that fails. -/
theorem foldl_pingPeer_zombieDropped {ps : List PeerRef} (hps : ps.Nodup) (s : Server) :
    (ps.foldl Room.pingPeer s).statistics.eventPeerZombieDropped =
      s.statistics.eventPeerZombieDropped +
        (ps.filter fun p => !(Peer.sendPingAsync p s).1).length := by
  induction ps generalizing s with
  | nil => rfl
  | cons p ps ih =>
      obtain ⟨hp, hps⟩ := List.nodup_cons.mp hps
      have hrest : (ps.filter fun q => !(Peer.sendPingAsync q (Room.pingPeer s p)).1) =
          ps.filter fun q => !(Peer.sendPingAsync q s).1 := by
        refine List.filter_congr fun q hq => ?_
        rw [sendPingAsync_pingPeer s (ne_of_mem_of_not_mem hq hp)]
      rw [List.foldl_cons, ih hps, pingPeer_zombieDropped, hrest, List.filter_cons]
      cases (Peer.sendPingAsync p s).1 with
      | true => simp
      | false => simp; omega

/-- A round pings every member once. -/
theorem pingRound_peers {s : Server} (h : (pinged s).Nodup) (p : PeerRef) :
    (Lobby.pingRound s).peers p =
      if p ∈ pinged s then (s.peers p).pinged else s.peers p := by
  rw [pingRound_eq, foldl_pingPeer_peers]
  split
  · next hp => rw [List.count_eq_one_of_mem h hp]; rfl
  · next hp => rw [List.count_eq_zero.mpr hp]; rfl

/-- Who is refused has no socket afterwards. -/
theorem pinged_socket (s : Server) (p : PeerRef) : (s.peers p).pinged.socket.isSome = true ↔
    (Peer.sendPingAsync p s).1 = true := by
  rw [sendPingAsync_eq, Peer.pinged]
  dsimp only
  split
  · next h =>
    rw [h]
    exact iff_of_true (Bool.and_eq_true_iff.mp h).1 rfl
  · next h => simp [h]

/-! ### Joining and leaving -/

section Events

variable (config : ConfigDto) (k : SocketRef) (roomName nickname : String) (s : Server)

/-- A newcomer has its socket; the other peers are as they were. -/
theorem onAfterCreate_socket (p : PeerRef) :
    (((Lobby.onAfterCreateNonBlocking config k roomName nickname s).2.peers p).socket.isSome) =
      if p = s.peerCount then true else (s.peers p).socket.isSome := by
  have hopen : (Lobby.getOrCreateRoom roomName (Lobby.countConnected s)).2.peers = s.peers ∧
      (Lobby.getOrCreateRoom roomName (Lobby.countConnected s)).2.peerCount = s.peerCount := by
    obtain ⟨_, _, _, _, hframe⟩ := Lobby.getOrCreateRoom_frame roomName (Lobby.countConnected s)
    rw [hframe]
    exact ⟨rfl, rfl⟩
  unfold Lobby.onAfterCreateNonBlocking Lobby.createPeer
  simp only [Room.onboardPeer_peers, Room.addPeer, Server.modifyRoom_peers, Room.welcomePeer_peers,
    hopen.1, hopen.2]
  by_cases hp : p = s.peerCount
  · rw [if_pos hp, hp, Function.update_self]
    rfl
  · rw [if_neg hp, Function.update_of_ne hp]

/-- A leaver loses its socket; the other peers are as they were. -/
theorem onBeforeDestroy_socket {p q : PeerRef} (h : q ≠ p) :
    ((Lobby.onBeforeDestroyNonBlocking config p s).peers q).socket = (s.peers q).socket := by
  have hleft : ∀ ρ peerId, ((Peer.invalidateSocket p (Room.goodbyePeer config ρ p
      (Room.removePeerById ρ peerId (Lobby.countDisconnected s)))).peers q).socket =
        (s.peers q).socket := by
    intro ρ peerId
    simp [Peer.invalidateSocket, Function.update_of_ne h]
  unfold Lobby.onBeforeDestroyNonBlocking
  dsimp only
  split
  · exact hleft _ _
  · exact hleft _ _

end Events

/-! ### The invariant -/

/-- Of the sessions exactly those not dropped have sockets, and every peer was
counted when it connected. -/
structure Invariant (config : ConfigDto) (s : State) : Prop where
  kept : Bookkeeping.Kept config s.books
  /-- who is in a room and has been dropped has no socket -/
  sockets : ∀ session ∈ s.books.sessions,
    ((s.books.server.peers session.peer).socket.isSome ↔ session.peer ∉ s.dropped)
  connected : s.books.server.statistics.eventPeerConnected = s.books.server.peerCount
  created : ∀ p ∈ s.dropped, p < s.books.server.peerCount

variable {config : ConfigDto} {s : State}

theorem Invariant.pinged_iff (h : Invariant config s) (p : PeerRef) :
    p ∈ pinged s.books.server ↔ ∃ session ∈ s.books.sessions, session.peer = p := by
  rw [pinged, h.kept.members_perm.mem_iff, List.mem_map]

theorem Invariant.nodup_pinged (h : Invariant config s) : (pinged s.books.server).Nodup :=
  h.kept.members_perm.nodup_iff.mpr h.kept.consistent.nodup

/-- A socket opens: one more session, which is not dropped. -/
theorem Invariant.onAfterCreate (h : Invariant config s) (k : SocketRef)
    (roomName nickname : String) :
    Invariant config { s with books := s.books.onAfterCreate config k roomName nickname } := by
  obtain ⟨hpeer, hdirectory⟩ :=
    Bookkeeping.directory_onAfterCreate config k roomName nickname s.books.server
  -- the handler makes one peer and one session
  have hcount : (Lobby.onAfterCreateNonBlocking config k roomName nickname
      s.books.server).2.peerCount = s.books.server.peerCount + 1 := by
    have hcount := congrArg Directory.peerCount hdirectory
    rw [← Bookkeeping.opened_peerCount roomName s.books.server]
    exact hcount
  have hsocket := onAfterCreate_socket config k roomName nickname s.books.server
  have hsessions : (s.books.onAfterCreate config k roomName nickname).sessions =
      ⟨k, roomName, s.books.server.peerCount⟩ :: s.books.sessions :=
    congrArg (fun p => (⟨k, roomName, p⟩ :: s.books.sessions : List Bookkeeping.Session)) hpeer
  refine ⟨h.kept.onAfterCreate k roomName nickname, fun session hsession => ?_, ?_, fun p hp => ?_⟩
  · show (((Lobby.onAfterCreateNonBlocking config k roomName nickname
      s.books.server).2.peers session.peer).socket.isSome = true) ↔ _
    rw [hsocket]
    have hsession :
        session ∈ (s.books.onAfterCreate config k roomName nickname).sessions := hsession
    rw [hsessions] at hsession
    rcases List.mem_cons.mp hsession with rfl | hsession
    · rw [if_pos rfl]
      exact iff_of_true rfl fun hmem => absurd (h.created _ hmem) (lt_irrefl _)
    -- the sockets of the other sessions are as before
    · have hne : session.peer ≠ s.books.server.peerCount :=
        (h.kept.consistent.peer_lt session hsession).ne
      rw [if_neg hne]
      exact h.sockets session hsession
  · show (Lobby.onAfterCreateNonBlocking config k roomName nickname
      s.books.server).2.statistics.eventPeerConnected = (Lobby.onAfterCreateNonBlocking config k
        roomName nickname s.books.server).2.peerCount
    rw [Bookkeeping.statistics_onAfterCreate, hcount, ← h.connected]
  · show p < (Lobby.onAfterCreateNonBlocking config k roomName nickname
      s.books.server).2.peerCount
    rw [hcount]
    exact Nat.lt_succ_of_lt (h.created p hp)

/-- A socket closes: the peer stays among those created. -/
theorem Invariant.onBeforeDestroy (h : Invariant config s) {session : Bookkeeping.Session}
    (hsession : session ∈ s.books.sessions) :
    Invariant config { s with books := s.books.onBeforeDestroy config session } := by
  have hcount : (Lobby.onBeforeDestroyNonBlocking config session.peer
      s.books.server).peerCount = s.books.server.peerCount := by
    rcases Bookkeeping.directory_onBeforeDestroy config session.peer s.books.server with
      ⟨-, hdirectory⟩ | ⟨-, hdirectory⟩
    · exact congrArg Directory.peerCount hdirectory
    · exact congrArg Directory.peerCount hdirectory
  refine ⟨h.kept.onBeforeDestroy hsession, fun other hother => ?_, ?_, fun p hp => ?_⟩
  · have hmem : other ∈ s.books.sessions := List.mem_of_mem_erase hother
    have hne : other.peer ≠ session.peer := by
      intro heq
      have hsame := List.inj_on_of_nodup_map h.kept.consistent.nodup hmem hsession heq
      have hnodup : s.books.sessions.Nodup := List.Nodup.of_map _ h.kept.consistent.nodup
      exact (hnodup.mem_erase_iff.mp hother).1 hsame
    show (((Lobby.onBeforeDestroyNonBlocking config session.peer
      s.books.server).peers other.peer).socket.isSome = true) ↔ _
    rw [onBeforeDestroy_socket config _ hne]
    exact h.sockets other hmem
  · show (Lobby.onBeforeDestroyNonBlocking config session.peer
      s.books.server).statistics.eventPeerConnected = (Lobby.onBeforeDestroyNonBlocking config
        session.peer s.books.server).peerCount
    rw [Bookkeeping.statistics_onBeforeDestroy, hcount]
    exact h.connected
  · show p < (Lobby.onBeforeDestroyNonBlocking config session.peer s.books.server).peerCount
    rw [hcount]
    exact h.created p hp

/-- A round: whoever it drops is among the dropped from now on. -/
theorem Invariant.pingRound (h : Invariant config s) :
    Invariant config
      { books := { s.books with server := Lobby.pingRound s.books.server }
        dropped := s.dropped ∪ (refused s.books.server).toFinset } := by
  have hdirectory := Bookkeeping.directory_pingRound s.books.server
  have hcount : (Lobby.pingRound s.books.server).peerCount = s.books.server.peerCount :=
    congrArg Directory.peerCount hdirectory
  refine ⟨h.kept.pingRound, fun session hsession => ?_, ?_, fun p hp => ?_⟩
  · have hpinged : session.peer ∈ pinged s.books.server :=
      (h.pinged_iff _).mpr ⟨session, hsession, rfl⟩
    show (((Lobby.pingRound s.books.server).peers session.peer).socket.isSome = true) ↔ _
    rw [pingRound_peers h.nodup_pinged, if_pos hpinged, pinged_socket, Finset.mem_union, not_or,
      List.mem_toFinset, refused, List.mem_filter, ← h.sockets session hsession]
    rw [sendPingAsync_eq]
    simp only [hpinged, true_and]
    cases ((s.books.server.peers session.peer).socket.isSome) <;> simp
  · obtain ⟨_, hstatistics⟩ := Bookkeeping.statistics_pingRound s.books.server
    show (Lobby.pingRound s.books.server).statistics.eventPeerConnected =
      (Lobby.pingRound s.books.server).peerCount
    rw [hstatistics, hcount]
    exact h.connected
  · show p < (Lobby.pingRound s.books.server).peerCount
    rw [hcount]
    rcases Finset.mem_union.mp hp with hp | hp
    · exact h.created p hp
    · have hpinged := (List.mem_filter.mp (List.mem_toFinset.mp hp)).1
      obtain ⟨session, hsession, rfl⟩ := (h.pinged_iff p).mp hpinged
      exact h.kept.consistent.peer_lt session hsession

/-- A pong leaves the sockets. -/
theorem Invariant.onPong (h : Invariant config s) (p : PeerRef) :
    Invariant config
      { s with books := { s.books with server := Peer.onPong p s.books.server } } := by
  have hdirectory := directory_onPong s.books.server p
  refine ⟨⟨?_, ?_, ?_, h.kept.connected, h.kept.created⟩, fun session hsession => ?_, h.connected,
    h.created⟩
  · exact hdirectory ▸ h.kept.consistent
  · exact hdirectory ▸ h.kept.occupied
  · exact hdirectory ▸ h.kept.remembers
  · show (((Peer.onPong p s.books.server).peers session.peer).socket.isSome = true) ↔ _
    rw [pong_peer]
    split
    · exact h.sockets session hsession
    · exact h.sockets session hsession

/-! ### The counter -/

/-- No more peers are dropped than have connected. -/
theorem Invariant.card_le (h : Invariant config s) :
    s.dropped.card ≤ s.books.server.statistics.eventPeerConnected := by
  have hsub : s.dropped ⊆ Finset.range s.books.server.peerCount := fun p hp =>
    Finset.mem_range.mpr (h.created p hp)
  rw [h.connected]
  simpa using Finset.card_le_card hsub

/-- Each dropped peer is counted once exactly if the counter is their number. -/
theorem Invariant.countedOnce_iff (h : Invariant config s) : CountedOnce s ↔
    s.books.server.statistics.eventPeerZombieDropped = s.dropped.card :=
  and_iff_left_of_imp fun heq => heq.trans_le h.card_le

/-- A round counts whom it refuses. -/
theorem Invariant.zombieDropped_pingRound (h : Invariant config s) :
    (Lobby.pingRound s.books.server).statistics.eventPeerZombieDropped =
      s.books.server.statistics.eventPeerZombieDropped +
        (refused s.books.server).toFinset.card := by
  have hnodup : (refused s.books.server).Nodup := h.nodup_pinged.filter _
  rw [pingRound_eq, foldl_pingPeer_zombieDropped h.nodup_pinged,
    List.toFinset_card_of_nodup hnodup]
  rfl

/-- Some of the peers a round refuses may have been dropped before. -/
theorem Invariant.disjoint_refused_iff (h : Invariant config s) :
    Disjoint s.dropped (refused s.books.server).toFinset ↔ Prompt s .pingRound := by
  rw [Finset.disjoint_left]
  constructor
  · intro hdisjoint p hp
    obtain ⟨session, hsession, rfl⟩ := (h.pinged_iff p).mp hp
    rw [h.sockets session hsession]
    intro hdropped
    refine hdisjoint hdropped (List.mem_toFinset.mpr (List.mem_filter.mpr ⟨hp, ?_⟩))
    -- without a socket the ping is refused
    have hsocket : (s.books.server.peers session.peer).socket.isSome = false := by
      rw [← Bool.not_eq_true, h.sockets session hsession]
      exact not_not.mpr hdropped
    rw [sendPingAsync_eq, hsocket]
    rfl
  · intro hprompt p hdropped hrefused
    have hp := (List.mem_filter.mp (List.mem_toFinset.mp hrefused)).1
    obtain ⟨session, hsession, rfl⟩ := (h.pinged_iff p).mp hp
    exact (h.sockets session hsession).mp (hprompt _ hp) hdropped

/-- Joins, leaves and pongs leave the counter alone. -/
theorem step_cases {s' : State} {a : Act} (h : Invariant config s)
    (hstep : step config s a = some s') : Invariant config s' ∧
      (a ≠ .pingRound → s'.dropped = s.dropped ∧
        s'.books.server.statistics.eventPeerZombieDropped =
          s.books.server.statistics.eventPeerZombieDropped) := by
  cases a with
  | onAfterCreate k roomName nickname =>
      obtain ⟨books, hbooks, rfl⟩ := Option.map_eq_some_iff.mp hstep
      unfold Bookkeeping.State.step at hbooks
      dsimp only at hbooks
      split at hbooks
      · obtain rfl := Option.some.inj hbooks
        refine ⟨h.onAfterCreate k roomName nickname, fun _ => ⟨rfl, ?_⟩⟩
        show (Lobby.onAfterCreateNonBlocking config k roomName nickname
          s.books.server).2.statistics.eventPeerZombieDropped = _
        rw [Bookkeeping.statistics_onAfterCreate]
      · cases hbooks
  | onBeforeDestroy k =>
      obtain ⟨books, hbooks, rfl⟩ := Option.map_eq_some_iff.mp hstep
      unfold Bookkeeping.State.step at hbooks
      dsimp only at hbooks
      split at hbooks
      · cases hbooks
      · next session hfind =>
        obtain rfl := Option.some.inj hbooks
        refine ⟨h.onBeforeDestroy (List.mem_of_find?_eq_some hfind), fun _ => ⟨rfl, ?_⟩⟩
        show (Lobby.onBeforeDestroyNonBlocking config session.peer
          s.books.server).statistics.eventPeerZombieDropped = _
        rw [Bookkeeping.statistics_onBeforeDestroy]
  | pingRound =>
      obtain rfl := Option.some.inj hstep
      exact ⟨h.pingRound, fun hne => absurd rfl hne⟩
  | onPong p =>
      obtain rfl := Option.some.inj hstep
      exact ⟨h.onPong p, fun _ => ⟨rfl, rfl⟩⟩

/-- The counter only runs ahead, and a late round makes it. -/
theorem countedOnce_step_iff {s' : State} {a : Act} (h : Invariant config s)
    (hahead : s.dropped.card ≤ s.books.server.statistics.eventPeerZombieDropped)
    (hstep : step config s a = some s') :
    s'.dropped.card ≤ s'.books.server.statistics.eventPeerZombieDropped ∧
      (CountedOnce s' ↔ CountedOnce s ∧ Prompt s a) := by
  obtain ⟨h', hother⟩ := step_cases h hstep
  rw [h.countedOnce_iff, h'.countedOnce_iff]
  by_cases hround : a = .pingRound
  · subst hround
    obtain rfl := Option.some.inj hstep
    rw [← h.disjoint_refused_iff, ← Finset.card_union_eq_card_add_card]
    dsimp only
    rw [h.zombieDropped_pingRound]
    have hunion := Finset.card_union_le s.dropped (refused s.books.server).toFinset
    exact ⟨by omega, by omega⟩
  · obtain ⟨hdropped, hzombies⟩ := hother hround
    rw [hdropped, hzombies]
    refine ⟨hahead, (and_iff_left ?_).symm⟩
    cases a <;> trivial

/-- An empty server. -/
theorem initial (clock : ℕ → Int) :
    Invariant config { books := { server := { clock } } } := by
  refine ⟨Bookkeeping.kept (.init ⟨clock, rfl⟩), ?_, rfl, ?_⟩
  · intro session hsession
    cases hsession
  · intro p hp
    exact absurd hp (Finset.notMem_empty p)

theorem invariant (hs : (system config).Reachable s) : Invariant config s ∧
    s.dropped.card ≤ s.books.server.statistics.eventPeerZombieDropped := by
  refine hs.invariant (I := fun s => Invariant config s ∧
    s.dropped.card ≤ s.books.server.statistics.eventPeerZombieDropped) ?_ ?_
  · rintro _ ⟨clock, rfl⟩
    exact ⟨initial clock, le_refl _⟩
  · intro s a s' h hstep
    exact ⟨(step_cases h.1 hstep).1, (countedOnce_step_iff h.1 h.2 hstep).1⟩

theorem countedOnce_of_prompt (hs : (system config).ReachableVia Prompt s) : CountedOnce s := by
  refine hs.invariant (I := CountedOnce) ?_ ?_
  · rintro _ ⟨clock, rfl⟩
    exact ⟨rfl, le_refl _⟩
  · intro s a s' hs hcount hprompt hstep
    obtain ⟨h, hahead⟩ := invariant hs.reachable
    exact (countedOnce_step_iff h hahead hstep).2.mpr ⟨hcount, hprompt⟩

/-- **Every zombie is counted once in the runs without late rounds**, and in no
other run. -/
theorem countedOnce_iff_prompt (hs : (system config).Reachable s) :
    CountedOnce s ↔ (system config).ReachableVia Prompt s := by
  induction hs with
  | init hinit =>
      refine iff_of_true ?_ (.init hinit)
      obtain ⟨clock, rfl⟩ := hinit
      exact ⟨rfl, le_refl _⟩
  | step hs _ hstep ih =>
      obtain ⟨h, hahead⟩ := invariant hs
      rw [(countedOnce_step_iff h hahead hstep).2, ih]
      constructor
      · rintro ⟨hvia, hprompt⟩
        exact .step hvia hprompt hstep
      · intro hvia
        -- the run that keeps to the condition need not be this one
        have hcount : CountedOnce _ := countedOnce_of_prompt hvia
        rw [(countedOnce_step_iff h hahead hstep).2, ih] at hcount
        exact hcount

/-- Ann joins and answers one ping of two; her socket is destroyed before the
third round. -/
theorem countedOnce_iff_prompt_once : ∃ s, (system {}).run {} [.onAfterCreate 0 "lounge" "Ann",
    .pingRound, .onPong 0, .pingRound, .pingRound, .onBeforeDestroy 0, .pingRound] = some s ∧
      s.dropped = {0} ∧ CountedOnce s := by
  obtain ⟨s, hrun, hdropped⟩ : ∃ s, (system {}).run {} [.onAfterCreate 0 "lounge" "Ann",
      .pingRound, .onPong 0, .pingRound, .pingRound, .onBeforeDestroy 0, .pingRound] = some s ∧
        s.dropped = {0} := ⟨_, rfl, by decide⟩
  have hinit : (system {}).ReachableVia Prompt {} := .init ⟨_, rfl⟩
  have hvia : (system {}).RunsVia Prompt {} [.onAfterCreate 0 "lounge" "Ann",
      .pingRound, .onPong 0, .pingRound, .pingRound, .onBeforeDestroy 0, .pingRound] := by
    decide
  exact ⟨s, hrun, hdropped, (countedOnce_iff_prompt (hinit.reachable.run hrun)).mpr
    (hinit.run hvia hrun)⟩

/-- Ann's socket is still there in the round after the one that dropped her,
and she is counted again. -/
theorem counted_twice : ¬ ∀ s, (system {}).Reachable s → CountedOnce s := by
  intro h
  obtain ⟨s, hrun, hcount⟩ : ∃ s, (system {}).run {} [.onAfterCreate 0 "lounge" "Ann",
      .pingRound, .pingRound, .pingRound] = some s ∧
        s.books.server.statistics.eventPeerZombieDropped = 2 ∧ s.dropped.card = 1 :=
    ⟨_, rfl, rfl, by decide⟩
  have hinit : (system {}).Reachable {} := .init ⟨_, rfl⟩
  have honce := (h s (hinit.run hrun)).1
  rw [hcount.1, hcount.2] at honce
  cases honce

end Zombies

end CanChat
