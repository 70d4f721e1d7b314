/-
CanChat/Heartbeat.lean

The liveness decision of the ping loop (Peer::sendPingAsync, Peer::onPong,
Room::pingAllPeers).

The comment in the source says what is meant: a peer is dropped when no pong
came since the last ping.  What is computed is a counter that pings raise and
pongs lower, tested against 1.  Over a run of rounds and pongs the counter of
a peer that is still connected is

    (1 if there was a round, else 0) - (pongs since the last round),

modulo 2^32 (`pingPoingCounter_eq`).  So a round decides as meant exactly when
it finds no pong or one pong since the previous round, and the first round
exactly when it finds none at all; a second pong is as fatal as no pong.
`heartbeatCorrect_iff` is that equivalence for every run, with the wrap-around
taken into account.
-/
import CanChat.Lobby
import Mathlib

namespace CanChat

/-! ### Runs of rounds and pongs -/

/-- What can happen to the heartbeat of a room. -/
inductive Beat
  /-- one pass of the ping loop over the room -/
  | round
  /-- a pong frame from `p` -/
  | pong (p : PeerRef)
  deriving DecidableEq, Repr

/-- What a round or a pong does to the server. -/
def beat (ρ : RoomRef) (s : Server) : Beat → Server
  | .round => Room.pingAllPeers ρ s
  | .pong q => Peer.onPong q s

/-- The server after a run of rounds and pongs. -/
def afterBeats (ρ : RoomRef) (s : Server) (run : List Beat) : Server :=
  run.foldl (beat ρ) s

/-- The last beat is done last. -/
theorem afterBeats_concat (ρ : RoomRef) (s : Server) (run : List Beat) (b : Beat) :
    afterBeats ρ s (run ++ [b]) = beat ρ (afterBeats ρ s run) b := by
  simp [afterBeats]

/-- The pongs of `p` since the last round, or since the start. -/
def pongsSince (p : PeerRef) (run : List Beat) : ℕ :=
  run.foldl (fun n b =>
    match b with
    | .round => 0
    | .pong q => if q = p then n + 1 else n) 0

@[simp] theorem pongsSince_round (p : PeerRef) (run : List Beat) :
    pongsSince p (run ++ [.round]) = 0 := by simp [pongsSince]

/-- A pong counts for its own peer. -/
theorem pongsSince_pong (p q : PeerRef) (run : List Beat) :
    pongsSince p (run ++ [.pong q]) = if q = p then pongsSince p run + 1 else pongsSince p run := by
  simp [pongsSince]

/-! ### One round, seen by one peer -/

/-- What `pingPeer` does to the peer it is called on. -/
def Peer.pinged (peer : Peer) : Peer :=
  { peer with
    pingPoingCounter := peer.pingPoingCounter + 1
    socket := if peer.socket.isSome && peer.pingPoingCounter + 1 == 1 then peer.socket else none }

/-- A ping changes the peer that is pinged. -/
theorem pingPeer_peers (s : Server) (q p : PeerRef) :
    (Room.pingPeer s q).peers p = if p = q then (s.peers p).pinged else s.peers p := by
  unfold Room.pingPeer Peer.sendPingAsync Peer.invalidateSocket Peer.pinged
  by_cases h : p = q
  · subst h
    rcases hc : ((s.peers p).socket.isSome && (s.peers p).pingPoingCounter + 1 == 1)
    · simp [hc]
    · simp [hc]
  · rcases hc : ((s.peers q).socket.isSome && (s.peers q).pingPoingCounter + 1 == 1)
    · simp [hc, h]
    · simp [hc, h]

theorem pingPeer_rooms (s : Server) (q : PeerRef) : (Room.pingPeer s q).rooms = s.rooms := by
  unfold Room.pingPeer Peer.sendPingAsync Peer.invalidateSocket
  dsimp only
  split <;> rfl

/-- A pass over a list pings each peer as often as it is listed. -/
theorem foldl_pingPeer_peers (l : List PeerRef) (s : Server) (p : PeerRef) :
    (l.foldl Room.pingPeer s).peers p = Peer.pinged^[l.count p] (s.peers p) := by
  induction l generalizing s with
  | nil => rfl
  | cons q l ih =>
      rw [List.foldl_cons, ih, pingPeer_peers]
      by_cases h : p = q
      · subst h; simp
      · simp [h, List.count_cons_of_ne (Ne.symm h)]

theorem foldl_pingPeer_rooms (l : List PeerRef) (s : Server) :
    (l.foldl Room.pingPeer s).rooms = s.rooms := by
  induction l generalizing s with
  | nil => rfl
  | cons q l ih => rw [List.foldl_cons, ih, pingPeer_rooms]

theorem beat_rooms (ρ : RoomRef) (s : Server) (b : Beat) : (beat ρ s b).rooms = s.rooms := by
  cases b with
  | round => exact foldl_pingPeer_rooms _ _
  | pong q => rfl

theorem afterBeats_rooms (ρ : RoomRef) (s : Server) (run : List Beat) :
    (afterBeats ρ s run).rooms = s.rooms := by
  induction run using List.reverseRecOn with
  | nil => rfl
  | append_singleton run b ih => rw [afterBeats_concat, beat_rooms, ih]

/-! ### A peer of the room -/

/-- A fresh peer `p` with an open socket has been added to the room `ρ`, and
the server is otherwise arbitrary. -/
structure FreshMember (ρ : RoomRef) (p : PeerRef) (s : Server) : Prop where
  once : (Room.members ρ s).count p = 1
  isOpen : (s.peers p).socket.isSome
  counter : (s.peers p).pingPoingCounter = 0

variable {ρ : RoomRef} {p : PeerRef} {s : Server}

/-- Rounds and pongs leave the members of the room. -/
theorem members_afterBeats (run : List Beat) :
    Room.members ρ (afterBeats ρ s run) = Room.members ρ s := by
  simp only [Room.members, afterBeats_rooms]

/-- A round pings a member once. -/
theorem round_peer (h : FreshMember ρ p s) (run : List Beat) :
    (Room.pingAllPeers ρ (afterBeats ρ s run)).peers p = ((afterBeats ρ s run).peers p).pinged := by
  rw [Room.pingAllPeers, foldl_pingPeer_peers, members_afterBeats, h.once]
  rfl

/-- A pong decrements the counter of its peer. -/
theorem pong_peer (s : Server) (q p : PeerRef) :
    (Peer.onPong q s).peers p =
      if q = p then { s.peers p with pingPoingCounter := (s.peers p).pingPoingCounter - 1 }
      else s.peers p := by
  by_cases h : q = p
  · subst h; simp [Peer.onPong]
  · simp [Peer.onPong, h, Ne.symm h]

/-- `1` once there was a round. -/
def roundSeen (run : List Beat) : Int32 := if .round ∈ run then 1 else 0

/-- **The counter of a peer that is still connected**: one for the last round,
less the pongs since. -/
theorem pingPoingCounter_eq (h : FreshMember ρ p s) (run : List Beat)
    (hopen : ((afterBeats ρ s run).peers p).socket.isSome) :
    ((afterBeats ρ s run).peers p).pingPoingCounter
      = roundSeen run - Int32.ofNat (pongsSince p run) := by
  induction run using List.reverseRecOn with
  | nil => simpa [afterBeats, roundSeen, pongsSince] using h.counter
  | append_singleton run b ih =>
      rw [afterBeats_concat] at hopen ⊢
      cases b with
      | round =>
          simp only [beat, round_peer h] at hopen ⊢
          -- the socket survived the round, so the counter was found to be 1
          have hone : ((afterBeats ρ s run).peers p).pingPoingCounter + 1 = 1 := by
            by_contra hne
            simp [Peer.pinged, hne] at hopen
          simp [Peer.pinged, hone, roundSeen]
      | pong q =>
          simp only [beat, pong_peer] at hopen ⊢
          have hseen : roundSeen (run ++ [.pong q]) = roundSeen run := by simp [roundSeen]
          rw [hseen, pongsSince_pong]
          split
          · next hq =>
            rw [if_pos hq] at hopen
            have := ih hopen
            rw [Int32.ofNat_add]
            simp only [this]
            show _ = _ - (_ + 1)
            grind
          · next hq =>
            rw [if_neg hq] at hopen
            exact ih hopen

/-! ### When the decision is the one meant -/

/-- The round drops `p`: the ping is refused and the socket is gone. -/
def Drops (ρ : RoomRef) (p : PeerRef) (s : Server) : Prop :=
  (Peer.sendPingAsync p s).1 = false ∧ ((Room.pingAllPeers ρ s).peers p).socket = none

instance (ρ : RoomRef) (p : PeerRef) (s : Server) : Decidable (Drops ρ p s) :=
  inferInstanceAs (Decidable (_ ∧ _))

/-- What the heartbeat is for: the first round drops nobody, and a later round
that finds the socket open drops the peer if and only if no pong came since
the previous round. -/
def HeartbeatCorrect (ρ : RoomRef) (p : PeerRef) (s : Server) (run : List Beat) : Prop :=
  ∀ before after, run = before ++ .round :: after →
    ((afterBeats ρ s before).peers p).socket.isSome →
    (Drops ρ p (afterBeats ρ s before) ↔ .round ∈ before ∧ pongsSince p before = 0)

/-- Every round that finds the socket open finds no pong before it if it is
the first, and none or one since the previous round otherwise (modulo 2^32,
the first alternative of the second case apart). -/
def PongsRegular (ρ : RoomRef) (p : PeerRef) (s : Server) (run : List Beat) : Prop :=
  ∀ before after, run = before ++ .round :: after →
    ((afterBeats ρ s before).peers p).socket.isSome →
    if .round ∈ before then
      pongsSince p before = 0 ∨ pongsSince p before % 2 ^ 32 = 1
    else
      pongsSince p before % 2 ^ 32 = 0

/-- A round drops the socket unless the counter has come back to what it expects. -/
theorem drops_iff (h : FreshMember ρ p s) (run : List Beat)
    (hopen : ((afterBeats ρ s run).peers p).socket.isSome) :
    Drops ρ p (afterBeats ρ s run) ↔ Int32.ofNat (pongsSince p run) ≠ roundSeen run := by
  have hsent : Int32.ofNat (pongsSince p run) = roundSeen run ↔
      ((afterBeats ρ s run).peers p).pingPoingCounter + 1 = 1 := by
    rw [pingPoingCounter_eq h run hopen]
    grind
  rw [Drops, round_peer h, Ne, hsent]
  by_cases hc : ((afterBeats ρ s run).peers p).pingPoingCounter + 1 = 1
  · simp [Peer.sendPingAsync, Peer.pinged, hc, hopen]
  · simp [Peer.sendPingAsync, Peer.pinged, hc]

theorem ofNat_eq_zero_iff (k : ℕ) : Int32.ofNat k = 0 ↔ k % 2 ^ 32 = 0 := by
  rw [← Int32.toBitVec_inj]
  simp [← BitVec.toNat_inj]

theorem ofNat_eq_one_iff (k : ℕ) : Int32.ofNat k = 1 ↔ k % 2 ^ 32 = 1 := by
  rw [← Int32.toBitVec_inj]
  simp [← BitVec.toNat_inj]

/-- **The heartbeat decides as meant in a run exactly when the pongs of the
peer come regularly in it.** -/
theorem heartbeatCorrect_iff (h : FreshMember ρ p s) (run : List Beat) :
    HeartbeatCorrect ρ p s run ↔ PongsRegular ρ p s run := by
  refine forall_congr' fun before => forall_congr' fun after => ?_
  refine imp_congr_right fun _ => imp_congr_right fun hopen => ?_
  rw [drops_iff h before hopen]
  by_cases hround : Beat.round ∈ before
  · rw [if_pos hround, roundSeen, if_pos hround, Ne, ofNat_eq_one_iff]
    simp only [hround, true_and]
    omega
  · rw [if_neg hround, roundSeen, if_neg hround, Ne, ofNat_eq_zero_iff]
    simp [hround]

theorem heartbeatCorrect_iff_solo :
    HeartbeatCorrect 0 0 soloServer [.round, .pong 0, .round] ↔
      PongsRegular 0 0 soloServer [.round, .pong 0, .round] :=
  heartbeatCorrect_iff ⟨by decide, by decide, by decide⟩ _

/-- One unsolicited pong before the first ping, and the first round drops the
peer. -/
theorem unsolicited_pong_drops : ¬ HeartbeatCorrect 0 0 soloServer [.pong 0, .round] :=
  fun h => absurd ((h [.pong 0] [] rfl (by decide)).mp (by decide)) (by decide)

end CanChat
