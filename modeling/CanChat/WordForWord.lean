/-
CanChat/WordForWord.lean

The posts of a peer as a function of the frames received on its socket.

The accepted messages of a client are broadcast in its name once each and in
order, and there are no other posts in its name.

Design.  `Inbox` is a fold over the frames of one socket, independent of the
server: the fragments buffered so far, and the messages accepted.  The frames of
a socket reach the buffer of its peer only, so the inboxes of all sockets agree
with the server in every state of a run (`Receives.step`).
-/
import CanChat.Desk
import CanChat.Moves

namespace CanChat

/-- The number of peers and their message buffers. -/
abbrev Server.buffers (s : Server) : ℕ × (PeerRef → Bytes) := s.desk Peer.messageBuffer

/-- A leave does not change the buffers. -/
theorem buffers_onBeforeDestroyNonBlocking (config : ConfigDto) (p : PeerRef) (s : Server) :
    (Lobby.onBeforeDestroyNonBlocking config p s).buffers = s.buffers := by
  apply (desk_onBeforeDestroyNonBlocking config p s).trans
  exact Prod.ext rfl (Function.update_eq_self p s.buffers.2)

namespace Conversation

open Isolation

/-! ### The frames of a socket -/

/-- A frame, with the clock readings available to its handler. -/
structure Frame where
  data : Bytes
  clock : ℕ → Int := fun _ => 0

/-- The fragments buffered so far, and the messages accepted, each with the clock
readings of its handler. -/
structure Inbox where
  buffer : Bytes := []
  taken : List Submission := []

section Inbox

variable (fw : Framework) (config : ConfigDto)

def Inbox.receive (inbox : Inbox) (frame : Frame) : Inbox where
  buffer :=
    if inbox.buffer.length + frame.data.length > config.maxMessageSizeBytes then inbox.buffer
    else if frame.data.length == 0 then []
    else inbox.buffer ++ frame.data
  taken := inbox.taken ++ ((Handler.accepted fw config inbox.buffer frame.data).map fun message =>
    { message, clock := frame.clock }).toList

def frameOf (k : SocketRef) (a : Occurrence) : Option Frame :=
  match a.event with
  | .socket j (.receive data) => if j = k then some { data, clock := a.clock } else none
  | _ => none

/-- The inbox of the socket `k` after a run. -/
def inbox (k : SocketRef) (acts : List Occurrence) : Inbox :=
  (acts.filterMap (frameOf k)).foldl (Inbox.receive fw config) {}

variable {fw config} {k : SocketRef} {acts : List Occurrence} {a : Occurrence}

theorem inbox_concat_of_none (hframe : frameOf k a = none) :
    inbox fw config k (acts ++ [a]) = inbox fw config k acts := by
  unfold inbox
  rw [List.filterMap_append, List.filterMap_cons_none hframe, List.filterMap_nil, List.append_nil]

theorem inbox_concat_of_some {frame : Frame} (hframe : frameOf k a = some frame) :
    inbox fw config k (acts ++ [a]) = (inbox fw config k acts).receive fw config frame := by
  unfold inbox
  rw [List.filterMap_append, List.filterMap_cons_some hframe, List.foldl_append]
  rfl

/-- `readMessage` changes the buffer of its peer as `Inbox.receive` does, and no
other buffer. -/
theorem desk_readMessage (p : PeerRef) (data : Bytes) (s : Server) :
    ((Peer.readMessage fw config p data).exec s).2.buffers = (s.peerCount,
      Function.update s.buffers.2 p
        (Inbox.receive fw config { buffer := (s.peers p).messageBuffer } { data }).buffer) := by
  have hsame : s.buffers = (s.peerCount, Function.update s.buffers.2 p (s.peers p).messageBuffer) :=
    Prod.ext rfl (Function.update_eq_self p s.buffers.2).symm
  unfold Peer.readMessage Inbox.receive
  rw [Handler.exec_bind, Handler.exec_get]
  dsimp only
  split
  · exact hsame
  · split
    · let rewound := s.modifyPeer p fun peer => { peer with messageBuffer := [] }
      have hrewound : rewound.buffers = (s.peerCount, Function.update s.buffers.2 p []) :=
        desk_modifyPeer s p _
      rw [Handler.exec_bind, Handler.exec_modify]
      dsimp only
      split
      · exact hrewound
      · next parsed _ =>
        rcases parsed with - | message
        · exact hrewound
        · let timed := rewound.getMicroTickCount
          let received := timed.2.createShared (Peer.stampMessage (s.peers p) timed.1 message)
          have hhandled : (Handler.exec (Peer.handleMessage fw config p received.1)
              received.2).2.buffers = received.2.buffers :=
            desk_operations.handleMessage fw config p
              (fun _ ρ _ host clientFileId fileName fileSize s _ =>
                desk_registerFile (fun _ _ => rfl) ρ host clientFileId fileName fileSize s)
                received.2
          exact hhandled.trans hrewound
    · exact desk_modifyPeer s p _

end Inbox

/-! ### Runs -/

/-- The peer of a connection that is or was open. -/
def peerOf : Link → Option PeerRef
  | .live p | .failed p | .closed p => some p
  | _ => none

/-- The inbox of each socket agrees with the buffer of its peer and with the
submissions `P`. -/
structure Receives (fw : Framework) (config : ConfigDto) (P : PeerRef → List Submission)
    (acts : List Occurrence) (s : State) : Prop where
  taken : ∀ k p, peerOf (s.socket k) = some p →
    p < s.server.peerCount ∧ P p = (inbox fw config k acts).taken
  buffer : ∀ k p, s.socket k = .live p →
    (s.server.peers p).messageBuffer = (inbox fw config k acts).buffer
  /-- A socket without a peer has received no frames. -/
  idle : ∀ k, peerOf (s.socket k) = none → inbox fw config k acts = {}
  apart : ∀ j k p, peerOf (s.socket j) = some p → peerOf (s.socket k) = some p → j = k
  fresh : ∀ p, s.server.peerCount ≤ p → P p = []
  owner : ∀ p, p < s.server.peerCount → ∃ k, peerOf (s.socket k) = some p

section Receives

variable {fw : Framework} {config : ConfigDto} {requests : Requests}
  {P : PeerRef → List Submission} {acts : List Occurrence} {s t : State} {a : Occurrence}
  {k : SocketRef}

/-- An event that neither receives a frame nor joins. -/
theorem Receives.keep (h : Receives fw config P acts s) (hframe : ∀ k, frameOf k a = none)
    (hdesk : t.server.buffers = s.server.buffers)
    (hpeer : ∀ k, peerOf (t.socket k) = peerOf (s.socket k))
    (hlive : ∀ k p, t.socket k = .live p → s.socket k = .live p) :
    Receives fw config P (acts ++ [a]) t := by
  have hcount : t.server.peerCount = s.server.peerCount := congrArg Prod.fst hdesk
  have hbuffer : ∀ p, (t.server.peers p).messageBuffer = (s.server.peers p).messageBuffer :=
    fun p => congrFun (congrArg Prod.snd hdesk) p
  constructor
  · intro k p hp
    rw [hpeer] at hp
    rw [hcount, inbox_concat_of_none (hframe k)]
    exact h.taken k p hp
  · intro k p hp
    rw [hbuffer, inbox_concat_of_none (hframe k)]
    exact h.buffer k p (hlive k p hp)
  · intro k hk
    rw [hpeer] at hk
    rw [inbox_concat_of_none (hframe k)]
    exact h.idle k hk
  · intro j k p hj hk
    rw [hpeer] at hj hk
    exact h.apart j k p hj hk
  · rw [hcount]
    exact h.fresh
  · intro p hp
    rw [hcount] at hp
    obtain ⟨k, hk⟩ := h.owner p hp
    exact ⟨k, (hpeer k).trans hk⟩

/-- A join on a socket. -/
theorem Receives.join (h : Receives fw config P acts s) (hframe : ∀ k, frameOf k a = none)
    (hidle : s.socket k = .idle)
    (hsocket : t.socket = Function.update s.socket k (.live s.server.peerCount))
    (hdesk : t.server.buffers =
      (s.server.peerCount + 1, Function.update s.server.buffers.2 s.server.peerCount [])) :
    Receives fw config P (acts ++ [a]) t := by
  let n := s.server.peerCount
  have hcount : t.server.peerCount = n + 1 := congrArg Prod.fst hdesk
  have hbuffer : ∀ p, (t.server.peers p).messageBuffer =
      Function.update s.server.buffers.2 n [] p := fun p => congrFun (congrArg Prod.snd hdesk) p
  have hself : t.socket k = .live n := by rw [hsocket, Function.update_self]
  have hother : ∀ j, j ≠ k → t.socket j = s.socket j := fun j hj => by
    rw [hsocket, Function.update_of_ne hj]
  -- no frame comes on a socket before its join
  have hempty : inbox fw config k acts = {} := h.idle k (by rw [hidle]; rfl)
  -- the other sockets have peers that were allocated before
  have hold : ∀ j p, j ≠ k → peerOf (t.socket j) = some p → p < n := by
    intro j p hj hp
    rw [hother j hj] at hp
    exact (h.taken j p hp).1
  constructor
  · intro j p hp
    rw [hcount, inbox_concat_of_none (hframe j)]
    rcases eq_or_ne j k with rfl | hj
    · rw [hself] at hp
      obtain rfl := Option.some.inj hp
      exact ⟨Nat.lt_succ_self n, by rw [h.fresh n le_rfl, hempty]⟩
    · have hlt := hold j p hj hp
      rw [hother j hj] at hp
      exact ⟨Nat.lt_succ_of_lt hlt, (h.taken j p hp).2⟩
  · intro j p hp
    rw [hbuffer, inbox_concat_of_none (hframe j)]
    rcases eq_or_ne j k with rfl | hj
    · rw [hself] at hp
      obtain rfl := Link.live.inj hp
      rw [Function.update_self, hempty]
    · have hlt := hold j p hj (by rw [hp]; rfl)
      rw [hother j hj] at hp
      rw [Function.update_of_ne hlt.ne]
      exact h.buffer j p hp
  · intro j hj
    rw [inbox_concat_of_none (hframe j)]
    rcases eq_or_ne j k with rfl | hne
    · exact hempty
    · rw [hother j hne] at hj
      exact h.idle j hj
  -- the new peer belongs to `k` alone
  · intro i j p hi hj
    rcases eq_or_ne i k with rfl | hik
    · rcases eq_or_ne j i with rfl | hji
      · rfl
      · rw [hself] at hi
        exact absurd (Option.some.inj hi) (hold j p hji hj).ne'
    · rcases eq_or_ne j k with rfl | hjk
      · rw [hself] at hj
        exact absurd (Option.some.inj hj) (hold i p hik hi).ne'
      · rw [hother i hik] at hi
        rw [hother j hjk] at hj
        exact h.apart i j p hi hj
  · intro p hp
    rw [hcount] at hp
    exact h.fresh p (Nat.le_of_succ_le hp)
  · intro p hp
    rw [hcount] at hp
    rcases Nat.lt_succ_iff_lt_or_eq.mp hp with hlt | rfl
    -- an old peer keeps its socket, which is not the one that has joined
    · obtain ⟨j, hj⟩ := h.owner p hlt
      have hne : j ≠ k := by
        rintro rfl
        rw [hidle] at hj
        cases hj
      exact ⟨j, by rw [hother j hne, hj]⟩
    · exact ⟨k, by rw [hself]; rfl⟩

/-- The readings during an occurrence are those of its own clock. -/
theorem readings_setClock (clock : ℕ → Int) (s : Server) :
    Handler.readings (setClock clock s) = clock :=
  funext fun n => congrArg clock (Nat.zero_add n)

/-- A frame received by an open connection. -/
theorem Receives.receive (h : Receives fw config P acts s) {p : PeerRef} {data : Bytes}
    {clock : ℕ → Int} (hself : frameOf k a = some { data, clock })
    (hframe : ∀ j, j ≠ k → frameOf j a = none)
    (hlive : s.socket k = .live p) {link : Link} (hlink : peerOf link = some p)
    (hstill : ∀ q, link = .live q → q = p)
    (hsocket : t.socket = Function.update s.socket k link)
    (hdesk : t.server.buffers = (s.server.peerCount, Function.update s.server.buffers.2 p
      (Inbox.receive fw config { buffer := (s.server.peers p).messageBuffer } { data }).buffer)) :
    Receives fw config (submitted fw config P (.live p) (setClock clock s.server) (.receive data))
      (acts ++ [a]) t := by
  have hk : peerOf (s.socket k) = some p := by rw [hlive]; rfl
  obtain ⟨hp, htaken⟩ := h.taken k p hk
  have hbuffer := h.buffer k p hlive
  have hcount : t.server.peerCount = s.server.peerCount := congrArg Prod.fst hdesk
  -- no connection changes its peer
  have hpeer : ∀ j, peerOf (t.socket j) = peerOf (s.socket j) := by
    intro j
    rw [hsocket]
    rcases eq_or_ne j k with rfl | hj
    · rw [Function.update_self, hlink, hk]
    · rw [Function.update_of_ne hj]
  have hne : ∀ j q, j ≠ k → peerOf (s.socket j) = some q → q ≠ p := by
    rintro j q hj hq rfl
    exact hj (h.apart j k q hq hk)
  -- the submission made by this frame, if it completes an accepted message
  obtain ⟨accepted, haccepted⟩ : ∃ accepted : Option Submission, accepted =
      (Handler.accepted fw config (s.server.peers p).messageBuffer data).map fun message =>
        { message, clock } := ⟨_, rfl⟩
  have hsubmitted : submitted fw config P (.live p) (setClock clock s.server) (.receive data) =
      accepted.elim P fun sent => submit p sent P := by
    show Option.elim _ P (fun message => submit p { message, clock := Handler.readings _ } P) = _
    rw [readings_setClock, haccepted, Option.elim_map]
    rfl
  rw [hsubmitted]
  -- the submissions of the other peers stay
  have hother : ∀ q, q ≠ p → accepted.elim P (fun sent => submit p sent P) q = P q := by
    intro q hq
    rcases accepted with - | sent
    · rfl
    · exact Function.update_of_ne hq _ _
  have hown : accepted.elim P (fun sent => submit p sent P) p = P p ++ accepted.toList := by
    rcases accepted with - | sent
    · exact (List.append_nil _).symm
    · exact Function.update_self _ _ _
  constructor
  · intro j q hq
    rw [hpeer] at hq
    rw [hcount]
    rcases eq_or_ne j k with rfl | hj
    · obtain rfl := Option.some.inj (hq.symm.trans hk)
      rw [inbox_concat_of_some hself, hown, htaken, haccepted, hbuffer]
      exact ⟨hp, rfl⟩
    -- the inbox of another socket does not see this frame
    · rw [inbox_concat_of_none (hframe j hj), hother q (hne j q hj hq)]
      exact h.taken j q hq
  · intro j q hq
    have hdesk' : (t.server.peers q).messageBuffer = Function.update s.server.buffers.2 p
        (Inbox.receive fw config { buffer := (s.server.peers p).messageBuffer }
          { data }).buffer q :=
      congrFun (congrArg Prod.snd hdesk) q
    rw [hdesk']
    rcases eq_or_ne j k with rfl | hj
    · rw [hsocket, Function.update_self] at hq
      obtain rfl := hstill q hq
      rw [inbox_concat_of_some hself, Function.update_self, hbuffer]
      rfl
    · rw [hsocket, Function.update_of_ne hj] at hq
      have hpeer' : peerOf (s.socket j) = some q := by rw [hq]; rfl
      rw [inbox_concat_of_none (hframe j hj), Function.update_of_ne (hne j q hj hpeer')]
      exact h.buffer j q hq
  · intro j hj
    rw [hpeer] at hj
    have hne : j ≠ k := by
      rintro rfl
      rw [hk] at hj
      cases hj
    rw [inbox_concat_of_none (hframe j hne)]
    exact h.idle j hj
  · intro i j q hi hj
    rw [hpeer] at hi hj
    exact h.apart i j q hi hj
  -- the submissions of unallocated peers stay empty
  · intro q hq
    rw [hcount] at hq
    have hne : q ≠ p := fun heq => absurd hp (not_lt.mpr (heq ▸ hq))
    rw [hother q hne]
    exact h.fresh q hq
  · intro q hq
    rw [hcount] at hq
    obtain ⟨j, hj⟩ := h.owner q hq
    exact ⟨j, (hpeer j).trans hj⟩

/-- A connection changes its state, but not its peer. -/
theorem Receives.relink (h : Receives fw config P acts s) (hframe : ∀ j, frameOf j a = none)
    {link : Link} (hpeer : peerOf link = peerOf (s.socket k))
    (hlive : ∀ p, link = .live p → s.socket k = .live p)
    (hsocket : t.socket = Function.update s.socket k link)
    (hdesk : t.server.buffers = s.server.buffers) : Receives fw config P (acts ++ [a]) t := by
  refine h.keep hframe hdesk (fun j => ?_) fun j p hp => ?_
  · rw [hsocket]
    rcases eq_or_ne j k with rfl | hj
    · rw [Function.update_self, hpeer]
    · rw [Function.update_of_ne hj]
  · rw [hsocket] at hp
    rcases eq_or_ne j k with rfl | hj
    · rw [Function.update_self] at hp
      exact hlive p hp
    · rwa [Function.update_of_ne hj] at hp

/-- A frame for the peer `p`, whose buffer is that of the inbox. -/
theorem Receives.frame (h : Receives fw config P acts s) {p : PeerRef} {data : Bytes}
    {clock : ℕ → Int} (hlive : s.socket k = .live p) {link : Link} (hlink : peerOf link = some p)
    (hstill : ∀ q, link = .live q → q = p)
    (hsocket : t.socket = Function.update s.socket k link)
    (hdesk : t.server.buffers =
      ((Peer.readMessage fw config p data).exec (setClock clock s.server)).2.buffers) :
    Receives fw config (postsAfter fw config P s ⟨.socket k (.receive data), clock⟩)
      (acts ++ [⟨.socket k (.receive data), clock⟩]) t := by
  have hread : ((Peer.readMessage fw config p data).exec (setClock clock s.server)).2.buffers = _ :=
    desk_readMessage p data (setClock clock s.server)
  have hsubmitted : postsAfter fw config P s ⟨.socket k (.receive data), clock⟩ =
      submitted fw config P (.live p) (setClock clock s.server) (.receive data) := by
    show submitted fw config P (s.socket k) (setClock clock s.server) (.receive data) = _
    rw [hlive]
  rw [hsubmitted]
  exact h.receive (if_pos rfl) (fun j hj => if_neg hj.symm) hlive hlink hstill hsocket
    (hdesk.trans hread)

theorem Receives.step (h : Receives fw config P acts s)
    (hstep : s.step fw config requests a = some t) :
    Receives fw config (postsAfter fw config P s a) (acts ++ [a]) t := by
  cases moves_of_step hstep with
  -- a new listener starts with an empty message buffer
  | @join k clock joined idle handled =>
      obtain ⟨hnew, newcomer, -, hempty, -, hdesk⟩ := desk_onAfterCreateNonBlocking
        (g := Peer.messageBuffer) config k (requests.roomName k) (requests.nickname k)
        (setClock clock s.server)
      rw [hempty, handled] at hdesk
      rw [handled] at hnew
      exact h.join (fun _ => rfl) idle
        (congrArg (fun n => Function.update s.socket k (.live n)) hnew) hdesk
  -- `handleMessage` leaves the buffer empty whatever it returns
  | @taken k clock data p server live handled =>
      exact h.frame live rfl (fun _ hq => (Link.live.inj hq).symm) rfl (by rw [handled])
  | @answered k clock data p server coroutine live handled =>
      refine h.frame live rfl (fun _ hq => absurd hq (by simp)) rfl ?_
      rw [handled]
      exact desk_sendError p coroutine server
  | @raised k clock data p server fault live handled =>
      exact h.frame live rfl (fun _ hq => absurd hq (by simp)) rfl (by rw [handled])
  -- these events do not reach `readMessage`
  | @pong k clock p live =>
      have hdesk : (Peer.onPong p (setClock clock s.server)).buffers = s.server.buffers :=
        desk_modifyPeer_of_eq _ p fun _ => rfl
      exact h.relink (fun _ => rfl) (by rw [live]) (fun _ hq => by rw [live, hq]) rfl hdesk
  | @leave k clock p ending =>
      have hpeer : peerOf (.closed p) = peerOf (s.socket k) := by
        rcases ending with hlink | hlink
        · rw [hlink]; rfl
        · rw [hlink]; rfl
      exact h.relink (fun _ => rfl) hpeer (fun _ hq => absurd hq (by simp)) rfl
        (buffers_onBeforeDestroyNonBlocking config p (setClock clock s.server))
  -- an HTTP request for a file has no message buffer
  | refused _ _ => exact h.keep (fun _ => rfl) rfl (fun _ => rfl) fun _ _ => id
  | subscribed _ _ _ => exact h.keep (fun _ => rfl) rfl (fun _ => rfl) fun _ _ => id
  | @read i clock count σ server result live handled =>
      have hread := desk_read (g := Peer.messageBuffer) σ count (setClock clock s.server)
      rw [handled] at hread
      exact h.keep (fun _ => rfl) hread (fun _ => rfl) fun _ _ => id
  | @broken i clock count σ server fault live handled =>
      have hread := desk_read (g := Peer.messageBuffer) σ count (setClock clock s.server)
      rw [handled] at hread
      exact h.keep (fun _ => rfl) hread (fun _ => rfl) fun _ _ => id
  | @drop i clock σ ending =>
      exact h.keep (fun _ => rfl) (desk_destroy σ (setClock clock s.server)) (fun _ => rfl)
        fun _ _ => id
  | @pingRound clock =>
      exact h.keep (fun _ => rfl) (desk_pingRound (fun _ => rfl) (setClock clock s.server))
        (fun _ => rfl) fun _ _ => id

theorem Receives.init : Receives fw config (fun _ => []) [] {} where
  taken _ _ hp := by cases hp
  buffer _ _ hp := by cases hp
  idle _ _ := rfl
  apart _ _ _ hp := by cases hp
  fresh _ _ := rfl
  owner _ hp := absurd hp (Nat.not_lt_zero _)

/-- The relation holds in every state of a run. -/
theorem Receives.run {T : Transcript} {more : List Occurrence} (h : Receives fw config P acts s)
    (hheld : Held config T s) (hpostsMatch : PostsMatch P T s.server.scene)
    (hrun : (system fw config requests).run s more = some t) :
    ∃ T' P', Held config T' t ∧ PostsMatch P' T' t.server.scene ∧
      Receives fw config P' (acts ++ more) t := by
  induction more generalizing s T P acts with
  | nil =>
      cases hrun
      exact ⟨T, P, hheld, hpostsMatch, by rwa [List.append_nil]⟩
  | cons a more ih =>
      obtain ⟨u, hstep, hrest⟩ := Option.bind_eq_some_iff.mp hrun
      obtain ⟨T₁, -, -, hheld', hpostsMatch'⟩ := hheld.step fw config (P := P) hstep
      obtain ⟨T', P', hend⟩ := ih (h.step hstep) hheld' (hpostsMatch' hpostsMatch) hrest
      rw [List.append_assoc] at hend
      exact ⟨T', P', hend⟩

/-- **The posts of a peer are the accepted messages of its client.**  In a run of
whole handlers (not interleaved), reassemble the frames received on a socket
independently of the server.  The broadcasts made in the name of its peer are the
renderings of the accepted messages, one for one and in the order in which they
were sent, each with the id and the nickname of the peer and the server's clock
reading during its handler. -/
theorem wordForWord {acts : List Occurrence} {s : State}
    (hrun : (system fw config requests).run {} acts = some s) :
    ∃ T, Refines config T s.server.scene ∧
      (∀ k p, peerOf (s.socket k) = some p → List.Forall₂ (Renders s.server.scene p)
        (inbox fw config k acts).taken (posts T s.server.scene p)) ∧
      ∀ p, p < s.server.peerCount → ∃ k, peerOf (s.socket k) = some p := by
  have hnobody : PostsMatch (fun _ => []) {} ({} : State).server.scene :=
    ⟨fun _ hp => absurd hp (Nat.not_lt_zero _), fun _ _ => rfl⟩
  obtain ⟨T, P, hheld, hpostsMatch, hreceives⟩ := Receives.init.run (Held.init config) hnobody hrun
  refine ⟨T, hheld.refines, fun k p hp => ?_, hreceives.owner⟩
  obtain ⟨hlt, htaken⟩ := hreceives.taken k p hp
  have hrendered := hpostsMatch.rendered p hlt
  rw [htaken] at hrendered
  exact hrendered

/-- Bob has said one thing, and has left. -/
theorem wordForWord_twoPosts :
    ∃ s, (system chatter {} twoRooms).run {} twoPosts = some s ∧ s.socket 1 = .closed 0 ∧
      (inbox chatter {} 1 twoPosts).taken.map Submission.message =
        [{ code := some .codePeerMessage, message := some "Hi" }] ∧
      ∃ T, Refines {} T s.server.scene ∧
        (∀ k p, peerOf (s.socket k) = some p → List.Forall₂ (Renders s.server.scene p)
          (inbox chatter {} k twoPosts).taken (posts T s.server.scene p)) ∧
        ∀ p, p < s.server.peerCount → ∃ k, peerOf (s.socket k) = some p := by
  have hends : ((system chatter {} twoRooms).run {} twoPosts).map (State.socket · 1) =
      some (.closed 0) := by decide +kernel
  obtain ⟨s, hrun, hclosed⟩ := Option.map_eq_some_iff.mp hends
  exact ⟨s, hrun, hclosed, rfl, wordForWord hrun⟩

end Receives

end Conversation

end CanChat
