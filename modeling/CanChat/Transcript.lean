/-
CanChat/Transcript.lean

The abstract state of the chat: the broadcasts of each room, and the segment of
them that each peer has been sent.

Design.  A `Transcript` is the abstract state: one append-only list of broadcast
messages for each room, and for each peer the interval `[start, stop)` of the
list of its room that the peer has been sent.  `Scene` is the projection of the
server state that it is compared with: the directory, the nicknames, the open
sockets and the outboxes.  `Realizes config T peers v` is the abstraction
relation: the history of a room is the end of its list, as `addHistoryMessage`
bounds it, and the outbox of a peer is its `CODE_INFO` followed by its segment,
whose end is the end of the list while the peer is a member with an open socket.
The lemmas `Realizes.announce`, `Realizes.enter`, `Realizes.join` and
`Realizes.leave` show that the server operations preserve the relation.
-/
import CanChat.Directory
import CanChat.Truncation

namespace CanChat

namespace Conversation

/-! ### Messages -/

/-- The codes of the messages that `Room::sendMessageAsync` sends to all members. -/
def isBroadcast (message : MessageDto) : Bool :=
  match message.code with
  | some .codePeerJoined | some .codePeerLeft | some .codePeerMessage
  | some .codePeerMessageFile | some .codePeerIsTyping => true
  | _ => false

/-- The codes of the messages sent to one peer only, `CODE_INFO` excepted. -/
def isDirect (message : MessageDto) : Bool :=
  match message.code with
  | some .codeFileRequestChunk | some .codeApiError => true
  | _ => false

theorem isBroadcast_of_isDirect {message : MessageDto} (h : isDirect message = true) :
    isBroadcast message = false := by
  unfold isDirect at h
  unfold isBroadcast
  split at h
  · next hcode => rw [hcode]
  · next hcode => rw [hcode]
  · cases h

/-- `CODE_PEER_IS_TYPING` is broadcast but not recorded in the history. -/
def isKept (message : MessageDto) : Bool := message.code != some .codePeerIsTyping

/-- The history that `addHistoryMessage` leaves after the broadcasts `lines`. -/
def kept (config : ConfigDto) (lines : List (Object MessageDto)) : List (Object MessageDto) :=
  if Room.historyDisabled config then []
  else Room.popFront (config.maxRoomHistoryMessages.getD 0) (lines.filter fun m => isKept m.val)

@[simp] theorem kept_nil (config : ConfigDto) : kept config [] = [] := by
  unfold kept
  split
  · rfl
  · rfl

theorem kept_snoc (config : ConfigDto) (lines : List (Object MessageDto)) (m : Object MessageDto) :
    kept config (lines ++ [m]) =
      if Room.historyDisabled config || !isKept m.val then kept config lines
      else Room.popFront (config.maxRoomHistoryMessages.getD 0) (kept config lines ++ [m]) := by
  unfold kept
  rcases hkept : isKept m.val with - | -
  · simp [hkept]
  · rcases Room.historyDisabled config with - | -
    · simp [hkept, Truncation.popFront_append]
    · simp

/-! ### Segments of a list -/

section Segment

variable {α : Type*} (l : List α) {i j : ℕ}

/-- The entries of `l` from number `i` up to number `j`. -/
def segment (i j : ℕ) : List α := (l.take j).drop i

@[simp] theorem segment_self (i : ℕ) : segment l i i = [] :=
  List.drop_eq_nil_of_le (List.length_take_le i l)

theorem segment_append (l' : List α) (hj : j ≤ l.length) :
    segment (l ++ l') i j = segment l i j := by
  unfold segment
  rw [List.take_append_of_le_length hj]

/-- Appending one entry extends a segment that ends at the end of the list. -/
theorem segment_snoc (a : α) (hi : i ≤ l.length) :
    segment (l ++ [a]) i (l.length + 1) = segment l i l.length ++ [a] := by
  unfold segment
  have hlength : (l ++ [a]).length = l.length + 1 := List.length_append
  rw [← hlength, List.take_length, List.take_length, List.drop_append_of_le_length hi]

end Segment

/-! ### The scene -/

@[ext] structure Scene where
  directory : Directory
  nickname : PeerRef → String
  /-- The socket has not been dropped. -/
  online : PeerRef → Bool
  outbox : PeerRef → List (Object MessageDto)

namespace Scene

/-- `q` is a member of the room `ρ` with an open socket, so a broadcast in `ρ`
is sent to it. -/
def receives (v : Scene) (ρ : RoomRef) (q : PeerRef) : Bool :=
  v.directory.member ρ (v.directory.peerId q) == some q && v.online q

/-- A broadcast: the message is allocated, recorded if `isKept`, and appended to
the outboxes of the receivers. -/
def announce (config : ConfigDto) (ρ : RoomRef) (dto : MessageDto) (v : Scene) : Scene :=
  let message : Object MessageDto := ⟨v.directory.objectCount, dto⟩
  { v with
    directory :=
      if isKept dto then v.directory.createShared.addHistoryMessage config ρ message
      else v.directory.createShared
    outbox := fun q => v.outbox q ++ if v.receives ρ q then [message] else [] }

/-- A broadcast changes only the histories and the object counter of the directory. -/
theorem announce_directory (config : ConfigDto) (ρ : RoomRef) (dto : MessageDto) (v : Scene) :
    ∃ history, (v.announce config ρ dto).directory =
      { v.directory with history, objectCount := v.directory.objectCount + 1 } := by
  unfold announce
  dsimp only
  split
  · exact ⟨_, rfl⟩
  · exact ⟨_, rfl⟩

theorem announce_history (config : ConfigDto) (ρ : RoomRef) (dto : MessageDto) (v : Scene) :
    (v.announce config ρ dto).directory.history =
      if Room.historyDisabled config || !isKept dto then v.directory.history
      else Function.update v.directory.history ρ
        (Room.popFront (config.maxRoomHistoryMessages.getD 0)
          (v.directory.history ρ ++ [⟨v.directory.objectCount, dto⟩])) := by
  unfold announce
  rcases isKept dto with - | -
  · rw [Bool.not_false, Bool.or_true]
    rfl
  · rw [Bool.not_true, Bool.or_false]
    rfl

@[simp] theorem announce_receives (config : ConfigDto) (ρ : RoomRef) (dto : MessageDto) (v : Scene)
    (ρ' : RoomRef) : (v.announce config ρ dto).receives ρ' = v.receives ρ' := by
  obtain ⟨history, hd⟩ := v.announce_directory config ρ dto
  funext q
  unfold receives
  rw [hd]
  rfl

/-- A message is allocated and sent to one peer. -/
def sendTo (p : PeerRef) (dto : MessageDto) (v : Scene) : Scene :=
  { v with
    directory := v.directory.createShared
    outbox := Function.update v.outbox p
      (v.outbox p ++ if v.online p then [⟨v.directory.objectCount, dto⟩] else []) }

def createPeer (ρ : RoomRef) (nickname : String) (v : Scene) : Scene :=
  { v with
    directory := v.directory.createPeer ρ
    nickname := Function.update v.nickname v.directory.peerCount nickname
    online := Function.update v.online v.directory.peerCount true }

def drop (p : PeerRef) (v : Scene) : Scene := { v with online := Function.update v.online p false }

/-- A transition without broadcasts: it may allocate messages, drop sockets and
append direct messages to outboxes of open sockets. -/
structure Quiet (v v' : Scene) : Prop where
  allocates : v.directory.Allocates v'.directory
  nickname : v'.nickname = v.nickname
  online : ∀ p, v'.online p = true → v.online p = true
  outbox : ∀ p, ∃ direct, v'.outbox p = v.outbox p ++ direct ∧
    (∀ m ∈ direct, isDirect m.val = true) ∧ (direct ≠ [] → v.online p = true)

theorem Quiet.refl (v : Scene) : Quiet v v :=
  ⟨.refl _, rfl, fun _ => id, fun _ => ⟨[], (List.append_nil _).symm, by simp, by simp⟩⟩

theorem Quiet.trans {u v w : Scene} (h : Quiet u v) (h' : Quiet v w) : Quiet u w where
  allocates := h.allocates.trans h'.allocates
  nickname := h'.nickname.trans h.nickname
  online p hp := h.online p (h'.online p hp)
  outbox p := by
    obtain ⟨direct, heq, hdirects, honline⟩ := h.outbox p
    obtain ⟨direct', heq', hdirects', honline'⟩ := h'.outbox p
    refine ⟨direct ++ direct', ?_, ?_, ?_⟩
    · rw [heq', heq, List.append_assoc]
    · intro m hm
      rcases List.mem_append.mp hm with hm | hm
      · exact hdirects m hm
      · exact hdirects' m hm
    · intro hne
      -- a socket that is open after the first part was open before it
      rcases direct with - | ⟨m, direct⟩
      · exact h.online p (honline' (by simpa using hne))
      · exact honline (by simp)

/-- Unchanged outboxes meet the last condition of `Quiet`. -/
theorem Quiet.of_outbox {v v' : Scene} (hallocates : v.directory.Allocates v'.directory)
    (hnickname : v'.nickname = v.nickname) (honline : ∀ p, v'.online p = true → v.online p = true)
    (houtbox : v'.outbox = v.outbox) : Quiet v v' :=
  ⟨hallocates, hnickname, honline, fun p => ⟨[], by simp [houtbox], by simp, by simp⟩⟩

theorem quiet_sendTo (v : Scene) (p : PeerRef) {dto : MessageDto} (hdirect : isDirect dto = true) :
    Quiet v (v.sendTo p dto) where
  allocates := v.directory.allocates_createShared
  nickname := rfl
  online _ := id
  outbox q := by
    rcases eq_or_ne q p with rfl | hne
    · refine ⟨if v.online q then [⟨v.directory.objectCount, dto⟩] else [], ?_, ?_, ?_⟩
      · exact Function.update_self _ _ _
      · simp [hdirect]
      · simp
    · refine ⟨[], ?_, by simp, by simp⟩
      rw [List.append_nil]
      exact Function.update_of_ne hne _ _

theorem quiet_drop (v : Scene) (p : PeerRef) : Quiet v (v.drop p) := by
  refine .of_outbox (.refl _) rfl (fun q hq => ?_) rfl
  rcases eq_or_ne q p with rfl | hne
  · simp [drop] at hq
  · simpa [drop, hne] using hq

end Scene

/-! ### Well-formed directories -/

/-- The member tables hold allocated peers of the room under their own id, and
the rooms of peers and of the lobby are allocated. -/
structure Indexed (d : Directory) : Prop where
  member : ∀ ρ id p, d.member ρ id = some p →
    p < d.peerCount ∧ d.peerRoom p = ρ ∧ d.peerId p = id
  room : ∀ p, p < d.peerCount → d.peerRoom p < d.roomCount
  lobby : ∀ name ρ, d.lobby name = some ρ → ρ < d.roomCount

namespace Indexed

variable {d d' : Directory} {ρ : RoomRef} {p : PeerRef}

theorem allocates (h : Indexed d) (hd : d.Allocates d') : Indexed d' := by
  obtain ⟨_, -, rfl⟩ := hd
  exact ⟨h.member, h.room, h.lobby⟩

theorem addHistoryMessage (h : Indexed d) (config : ConfigDto) (ρ : RoomRef)
    (message : Object MessageDto) : Indexed (d.addHistoryMessage config ρ message) :=
  ⟨h.member, h.room, h.lobby⟩

theorem createRoom (h : Indexed d) (name : String) : Indexed (d.createRoom name) where
  member ρ id p hp := by
    rcases eq_or_ne ρ d.roomCount with rfl | hne
    · simp at hp
    · exact h.member ρ id p (by simpa [hne] using hp)
  room p hp := Nat.lt_succ_of_lt (h.room p hp)
  lobby n ρ hρ := by
    rw [Directory.createRoom_lobby] at hρ
    split at hρ
    · obtain rfl := Option.some.inj hρ
      exact Nat.lt_succ_self _
    · exact Nat.lt_succ_of_lt (h.lobby n ρ hρ)

theorem deleteRoom (h : Indexed d) (name : String) : Indexed (d.deleteRoom name) where
  member := h.member
  room := h.room
  lobby n ρ hρ := by
    rw [Directory.deleteRoom_lobby] at hρ
    split at hρ
    · cases hρ
    · exact h.lobby n ρ hρ

theorem createPeer (h : Indexed d) (hρ : ρ < d.roomCount) : Indexed (d.createPeer ρ) where
  member ρ' id p hp := by
    obtain ⟨hlt, hroom, hid⟩ := h.member ρ' id p hp
    refine ⟨Nat.lt_succ_of_lt hlt, ?_, ?_⟩
    · exact (Function.update_of_ne hlt.ne _ _).trans hroom
    · exact (Function.update_of_ne hlt.ne _ _).trans hid
  room p hp := by
    rcases Nat.lt_succ_iff_lt_or_eq.mp hp with hlt | rfl
    · simpa [hlt.ne] using h.room p hlt
    · simpa using hρ
  lobby := h.lobby

theorem addPeer (h : Indexed d) (hp : p < d.peerCount) (hρ : d.peerRoom p = ρ) :
    Indexed (d.addPeer ρ p) where
  member ρ' id q hq := by
    rcases eq_or_ne ρ' ρ with rfl | hne
    · rw [Directory.addPeer_member, Function.update_self] at hq
      split at hq
      · next hid =>
        obtain rfl := Option.some.inj hq
        exact ⟨hp, hρ, hid.symm⟩
      · exact h.member ρ' id q hq
    · exact h.member ρ' id q (by simpa [hne] using hq)
  room := h.room
  lobby := h.lobby

theorem removePeer (h : Indexed d) (ρ : RoomRef) (peerId : Int) :
    Indexed (d.removePeer ρ peerId) where
  member ρ' id q hq := by
    rcases eq_or_ne ρ' ρ with rfl | hne
    · rw [Directory.removePeer_member, Function.update_self] at hq
      split at hq
      · cases hq
      · exact h.member ρ' id q hq
    · exact h.member ρ' id q (by simpa [hne] using hq)
  room := h.room
  lobby := h.lobby

end Indexed

/-- The receivers of a broadcast are peers of the room. -/
theorem Scene.receives_room {v : Scene} (h : Indexed v.directory) {ρ : RoomRef} {q : PeerRef}
    (hreceives : v.receives ρ q = true) :
    q < v.directory.peerCount ∧ v.directory.peerRoom q = ρ := by
  obtain ⟨hmember, -⟩ := (Bool.and_eq_true _ _).mp hreceives
  obtain ⟨hlt, hroom, -⟩ := h.member ρ _ q (beq_iff_eq.mp hmember)
  exact ⟨hlt, hroom⟩

/-! ### Transcripts -/

/-- The broadcasts of each room, and the interval of them sent to each peer. -/
structure Transcript where
  /-- The broadcasts of a room, in the order in which they were sent. -/
  lines : RoomRef → List (Object MessageDto) := fun _ => []
  /-- The number of broadcasts in the room of a peer when it joined, its own
  `CODE_PEER_JOINED` included. -/
  start : PeerRef → ℕ := fun _ => 0
  /-- The number of broadcasts in its room up to the last one sent to the peer. -/
  stop : PeerRef → ℕ := fun _ => 0

namespace Transcript

/-- Append `m` to the list of `ρ`, and move `stop` of the peers in `audience` to
its new end. -/
def append (ρ : RoomRef) (m : Object MessageDto) (audience : PeerRef → Bool) (T : Transcript) :
    Transcript :=
  { T with
    lines := Function.update T.lines ρ (T.lines ρ ++ [m])
    stop := fun p => if audience p then (T.lines ρ).length + 1 else T.stop p }

/-- Start the segment of `p` as the empty one at the end of the list of `ρ`. -/
def enter (ρ : RoomRef) (p : PeerRef) (T : Transcript) : Transcript :=
  { T with
    start := Function.update T.start p (T.lines ρ).length
    stop := Function.update T.stop p (T.lines ρ).length }

@[simp] theorem append_lines_self (ρ : RoomRef) (m : Object MessageDto) (audience : PeerRef → Bool)
    (T : Transcript) : (T.append ρ m audience).lines ρ = T.lines ρ ++ [m] :=
  Function.update_self _ _ _

@[simp] theorem append_lines_of_ne {ρ ρ' : RoomRef} (hne : ρ' ≠ ρ) (m : Object MessageDto)
    (audience : PeerRef → Bool) (T : Transcript) : (T.append ρ m audience).lines ρ' = T.lines ρ' :=
  Function.update_of_ne hne _ _

/-- The lists of `T'` extend those of `T`, and the segments of the first `peers`
peers keep their start and do not shrink. -/
structure Continues (peers : ℕ) (T T' : Transcript) : Prop where
  lines : ∀ ρ, T.lines ρ <+: T'.lines ρ
  start : ∀ p, p < peers → T'.start p = T.start p
  stop : ∀ p, p < peers → T.stop p ≤ T'.stop p

theorem Continues.refl (peers : ℕ) (T : Transcript) : T.Continues peers T :=
  ⟨fun _ => List.prefix_rfl, fun _ _ => rfl, fun _ _ => le_rfl⟩

theorem Continues.trans {peers peers' : ℕ} {T T' T'' : Transcript} (h : T.Continues peers T')
    (h' : T'.Continues peers' T'') (hle : peers ≤ peers') : T.Continues peers T'' where
  lines ρ := (h.lines ρ).trans (h'.lines ρ)
  start p hp := (h'.start p (hp.trans_le hle)).trans (h.start p hp)
  stop p hp := (h.stop p hp).trans (h'.stop p (hp.trans_le hle))

theorem continues_enter (ρ : RoomRef) (p : PeerRef) (T : Transcript) :
    T.Continues p (T.enter ρ p) where
  lines _ := List.prefix_rfl
  start _ hq := Function.update_of_ne hq.ne _ _
  stop _ hq := (Function.update_of_ne hq.ne _ _).ge

end Transcript

/-- The message of `welcomePeer`. -/
def joined (v : Scene) (p : PeerRef) : MessageDto where
  code := some .codePeerJoined
  peerId := some (v.directory.peerId p)
  peerName := some (v.nickname p)
  message := some (v.nickname p ++ " - joined room")

/-- The message of `onboardPeer`, with the history after the broadcasts `lines`. -/
def info (config : ConfigDto) (v : Scene) (p : PeerRef) (peers : List (Option PeerDto))
    (lines : List (Object MessageDto)) : MessageDto where
  code := some .codeInfo
  peerId := some (v.directory.peerId p)
  peerName := some (v.nickname p)
  peers := some peers
  history := if Room.historyDisabled config then none else some ((kept config lines).map some)

/-- The message of `goodbyePeer`. -/
def left (v : Scene) (p : PeerRef) : MessageDto where
  code := some .codePeerLeft
  peerId := some (v.directory.peerId p)
  message := some (v.nickname p ++ " - left room")

namespace Scene

/-- The message of `onboardPeer`, with the history as the directory holds it. -/
def greeting (config : ConfigDto) (ρ : RoomRef) (p : PeerRef) (peers : List (Option PeerDto))
    (v : Scene) : MessageDto where
  code := some .codeInfo
  peerId := some (v.directory.peerId p)
  peerName := some (v.nickname p)
  peers := some peers
  history := v.directory.getHistory config ρ

/-- `onAfterCreateNonBlocking` on the scene: the peer is created, announced by
`welcomePeer`, added to the members and sent its `CODE_INFO`. -/
def join (config : ConfigDto) (ρ : RoomRef) (nickname : String) (peers : List (Option PeerDto))
    (v : Scene) : Scene :=
  let p := v.directory.peerCount
  let v := v.createPeer ρ nickname
  let v := v.announce config ρ (joined v p)
  let v := { v with directory := v.directory.addPeer ρ p }
  v.sendTo p (v.greeting config ρ p peers)

theorem join_peerCount (config : ConfigDto) (ρ : RoomRef) (nickname : String)
    (peers : List (Option PeerDto)) (v : Scene) :
    (v.join config ρ nickname peers).directory.peerCount = v.directory.peerCount + 1 := by
  obtain ⟨history, hd⟩ := (v.createPeer ρ nickname).announce_directory config ρ
    (joined (v.createPeer ρ nickname) v.directory.peerCount)
  show ((v.createPeer ρ nickname).announce config ρ _).directory.peerCount = _
  rw [hd]
  rfl

/-- `onBeforeDestroyNonBlocking` on the scene: the peer is removed from the
members, announced by `goodbyePeer`, and its socket is dropped. -/
def leave (config : ConfigDto) (p : PeerRef) (v : Scene) : Scene :=
  let ρ := v.directory.peerRoom p
  let v := { v with directory := v.directory.removePeer ρ (v.directory.peerId p) }
  (v.announce config ρ (left v p)).drop p

theorem leave_peerCount (config : ConfigDto) (p : PeerRef) (v : Scene) :
    (v.leave config p).directory.peerCount = v.directory.peerCount := by
  let removed : Scene := { v with
    directory := v.directory.removePeer (v.directory.peerRoom p) (v.directory.peerId p) }
  obtain ⟨history, hd⟩ := removed.announce_directory config (v.directory.peerRoom p)
    (left removed p)
  show (removed.announce config (v.directory.peerRoom p) (left removed p)).directory.peerCount = _
  rw [hd]
  rfl

end Scene

/-- The outbox of `p` is its `CODE_INFO` with the history up to `start`, followed
by the broadcasts from `start` to `stop` in order and without gaps, with direct
messages in between. -/
structure SentSegment (config : ConfigDto) (lines : List (Object MessageDto)) (start stop : ℕ)
    (v : Scene) (p : PeerRef) : Prop where
  start_le : start ≤ stop
  stop_le : stop ≤ lines.length
  entered : ∃ m, (lines.take start).getLast? = some m ∧ m.val = joined v p
  outbox : ∃ greeting live peers, v.outbox p = greeting :: live ∧
    greeting.val = info config v p peers (lines.take start) ∧
    (live.filter fun m => isBroadcast m.val) = segment lines start stop ∧
    ∀ m ∈ live, isBroadcast m.val = true ∨ isDirect m.val = true
  /-- A member with an open socket has been sent all broadcasts since it joined. -/
  upToDate : v.receives (v.directory.peerRoom p) p = true → stop = lines.length

/-- The abstraction relation between a transcript and a scene, for the first
`peers` peers. -/
structure Realizes (config : ConfigDto) (T : Transcript) (peers : ℕ) (v : Scene) : Prop where
  indexed : Indexed v.directory
  history : ∀ ρ, v.directory.history ρ = kept config (T.lines ρ)
  lines : ∀ ρ, ∀ m ∈ T.lines ρ, isBroadcast m.val = true ∧ m.ptr < v.directory.objectCount
  inOrder : ∀ ρ, (T.lines ρ).Pairwise fun m m' => m.ptr < m'.ptr
  silent : ∀ ρ, v.directory.roomCount ≤ ρ → T.lines ρ = []
  peers_le : peers ≤ v.directory.peerCount
  sentSegment : ∀ p, p < peers →
    SentSegment config (T.lines (v.directory.peerRoom p)) (T.start p) (T.stop p) v p
  /-- The outboxes of later peers are empty. -/
  fresh : ∀ p, peers ≤ p → v.outbox p = []
  offline : ∀ p, v.directory.peerCount ≤ p → v.online p = false

/-! ### Extending the segment of a peer -/

section SentSegment

variable {config : ConfigDto} {lines : List (Object MessageDto)} {start stop : ℕ} {v v' : Scene}
  {p : PeerRef}

/-- The room, the id and the nickname of `p` agree in the two scenes. -/
structure SamePeer (v v' : Scene) (p : PeerRef) : Prop where
  room : v'.directory.peerRoom p = v.directory.peerRoom p
  peerId : v'.directory.peerId p = v.directory.peerId p
  nickname : v'.nickname p = v.nickname p

/-- The list of the room grows by `more`, of which `p` is sent the part up to
`stop'`. -/
theorem SentSegment.extend (h : SentSegment config lines start stop v p) (hsame : SamePeer v v' p)
    {more news : List (Object MessageDto)} {stop' : ℕ} (hstop : stop ≤ stop')
    (hstop' : stop' ≤ (lines ++ more).length) (houtbox : v'.outbox p = v.outbox p ++ news)
    (hnews : ∀ m ∈ news, isBroadcast m.val = true ∨ isDirect m.val = true)
    (hsentSegment : segment (lines ++ more) start stop' =
      segment lines start stop ++ news.filter fun m => isBroadcast m.val)
    (hupToDate : v'.receives (v.directory.peerRoom p) p = true → stop' = (lines ++ more).length) :
    SentSegment config (lines ++ more) start stop' v' p := by
  have htake : (lines ++ more).take start = lines.take start :=
    List.take_append_of_le_length (h.start_le.trans h.stop_le)
  have hjoined : joined v' p = joined v p := by
    rw [joined, hsame.peerId, hsame.nickname]
    rfl
  have hinfo : ∀ peers earlier, info config v' p peers earlier = info config v p peers earlier := by
    intro peers earlier
    rw [info, hsame.peerId, hsame.nickname]
    rfl
  obtain ⟨own, hown, heq⟩ := h.entered
  obtain ⟨greeting, live, peers, hsent, hgreeting, hlive, hcodes⟩ := h.outbox
  refine ⟨h.start_le.trans hstop, hstop', ⟨own, htake ▸ hown, hjoined ▸ heq⟩,
    ⟨greeting, live ++ news, peers, ?_, ?_, ?_, ?_⟩, hsame.room ▸ hupToDate⟩
  · rw [houtbox, hsent, List.cons_append]
  · rw [hinfo, htake, hgreeting]
  · rw [List.filter_append, hlive, hsentSegment]
  · intro m hm
    rcases List.mem_append.mp hm with hm | hm
    · exact hcodes m hm
    · exact hnews m hm

/-- The list of the room stays, and `p` is sent direct messages at most. -/
theorem SentSegment.keep (h : SentSegment config lines start stop v p) (hsame : SamePeer v v' p)
    (houtbox : ∃ direct, v'.outbox p = v.outbox p ++ direct ∧ ∀ m ∈ direct, isDirect m.val = true)
    (hreceives : v'.receives (v.directory.peerRoom p) p = true →
      v.receives (v.directory.peerRoom p) p = true) : SentSegment config lines start stop v' p := by
  obtain ⟨direct, hsent, hdirects⟩ := houtbox
  have hnone : (direct.filter fun m => isBroadcast m.val) = [] :=
    List.filter_eq_nil_iff.mpr fun m hm => by simp [isBroadcast_of_isDirect (hdirects m hm)]
  have hkept : SentSegment config (lines ++ []) start stop v' p := by
    refine h.extend hsame le_rfl ?_ hsent (fun m hm => .inr (hdirects m hm)) ?_ fun hl => ?_
    · rw [List.append_nil]
      exact h.stop_le
    · rw [hnone, List.append_nil, List.append_nil]
    · rw [List.append_nil]
      exact h.upToDate (hreceives hl)
  rwa [List.append_nil] at hkept

/-- The list of the room grows by `m`, which is sent to `p`. -/
theorem SentSegment.received (h : SentSegment config lines start stop v p) (hsame : SamePeer v v' p)
    {m : Object MessageDto} (hm : isBroadcast m.val = true)
    (houtbox : v'.outbox p = v.outbox p ++ [m])
    (hreceives : v.receives (v.directory.peerRoom p) p = true) :
    SentSegment config (lines ++ [m]) start (lines.length + 1) v' p := by
  obtain rfl := h.upToDate hreceives
  have hlength : (lines ++ [m]).length = lines.length + 1 := List.length_append
  refine h.extend hsame (Nat.le_succ _) hlength.ge houtbox ?_ ?_ fun _ => hlength.symm
  · simp [hm]
  · rw [segment_snoc lines m h.start_le]
    simp [hm]

/-- The list of the room grows by `m`, which is not sent to `p`. -/
theorem SentSegment.skipped (h : SentSegment config lines start stop v p) (hsame : SamePeer v v' p)
    {m : Object MessageDto} (houtbox : v'.outbox p = v.outbox p)
    (hreceives : v'.receives (v.directory.peerRoom p) p = false) :
    SentSegment config (lines ++ [m]) start stop v' p := by
  refine h.extend hsame le_rfl ?_ (houtbox.trans (List.append_nil _).symm) (by simp) ?_ ?_
  · rw [List.length_append]
    exact h.stop_le.trans (Nat.le_add_right _ _)
  · rw [segment_append _ _ h.stop_le, List.filter_nil, List.append_nil]
  · rw [hreceives]
    exact fun hl => absurd hl Bool.false_ne_true

end SentSegment

/-! ### Preservation of the abstraction relation -/

section Realizes

variable {config : ConfigDto} {T : Transcript} {peers : ℕ} {v v' : Scene} {ρ : RoomRef}
    {p q : PeerRef}

/-- Allocating messages leaves the members, so a receiver was a receiver before. -/
theorem Scene.receives_mono (hallocates : v.directory.Allocates v'.directory)
    (honline : v'.online p = true → v.online p = true) (hreceives : v'.receives ρ p = true) :
    v.receives ρ p = true := by
  obtain ⟨n, -, hd⟩ := hallocates
  obtain ⟨hmember, hp⟩ := (Bool.and_eq_true _ _).mp hreceives
  rw [hd] at hmember
  exact (Bool.and_eq_true _ _).mpr ⟨hmember, honline hp⟩

theorem Realizes.quiet (h : Realizes config T v.directory.peerCount v) (hquiet : Scene.Quiet v v') :
    Realizes config T v'.directory.peerCount v' := by
  have hallocates := hquiet.allocates
  obtain ⟨n, hn, hd⟩ := hquiet.allocates
  have hcount : v'.directory.peerCount = v.directory.peerCount := by rw [hd]
  refine ⟨h.indexed.allocates hallocates, fun ρ => ?_, fun ρ m hm => ?_, h.inOrder, fun ρ hρ => ?_,
    le_rfl, fun p hp => ?_, fun p hp => ?_, fun p hp => ?_⟩
  · rw [hd]
    exact h.history ρ
  · rw [hd]
    exact ⟨(h.lines ρ m hm).1, (h.lines ρ m hm).2.trans_le hn⟩
  · rw [hd] at hρ
    exact h.silent ρ hρ
  · rw [hcount] at hp
    have hsame : SamePeer v v' p := ⟨by rw [hd], by rw [hd], by rw [hquiet.nickname]⟩
    obtain ⟨direct, heq, hdirects, -⟩ := hquiet.outbox p
    rw [hsame.room]
    exact (h.sentSegment p hp).keep hsame ⟨direct, heq, hdirects⟩
      (Scene.receives_mono hallocates (hquiet.online p))
  · rw [hcount] at hp
    obtain ⟨direct, heq, -, honline⟩ := hquiet.outbox p
    rcases direct with - | ⟨m, direct⟩
    · rw [heq, h.fresh p hp]
      rfl
    · -- a direct message needs an open socket, and only allocated peers have one
      have hp' := honline (by simp)
      rw [h.offline p hp] at hp'
      cases hp'
  · have hold := h.offline p (hcount ▸ hp)
    rw [Bool.eq_false_iff] at hold ⊢
    exact mt (hquiet.online p) hold

/-- A broadcast appends one line to the list of its room. -/
theorem Realizes.announce (h : Realizes config T peers v) {dto : MessageDto}
    (hbroadcast : isBroadcast dto = true)
    (hρ : ρ < v.directory.roomCount) (hpeers : ∀ q, v.receives ρ q = true → q < peers) :
    Realizes config (T.append ρ ⟨v.directory.objectCount, dto⟩ (v.receives ρ)) peers
      (v.announce config ρ dto) := by
  obtain ⟨history, hd⟩ := v.announce_directory config ρ dto
  have hsilent : ∀ q, v.receives ρ q = false → (v.announce config ρ dto).outbox q = v.outbox q := by
    intro q hq
    simp [Scene.announce, hq]
  have hbelow : ∀ ρ', ∀ m ∈ T.lines ρ', isBroadcast m.val = true ∧
      m.ptr < v.directory.objectCount + 1 :=
    fun ρ' m hm => ⟨(h.lines ρ' m hm).1, Nat.lt_succ_of_lt (h.lines ρ' m hm).2⟩
  refine ⟨?_, fun ρ' => ?_, fun ρ' m hm => ?_, fun ρ' => ?_, fun ρ' hρ' => ?_, ?_, fun p hp => ?_,
    fun p hp => ?_, fun p hp => ?_⟩
  · rw [hd]
    exact ⟨h.indexed.member, h.indexed.room, h.indexed.lobby⟩
  · rw [Scene.announce_history]
    rcases eq_or_ne ρ' ρ with rfl | hne
    · rw [Transcript.append_lines_self, kept_snoc, ← h.history]
      split
      · rfl
      · exact Function.update_self _ _ _
    · rw [Transcript.append_lines_of_ne hne, ← h.history]
      split
      · rfl
      · exact Function.update_of_ne hne _ _
  · rw [hd]
    rcases eq_or_ne ρ' ρ with rfl | hne
    · rw [Transcript.append_lines_self] at hm
      rcases List.mem_append.mp hm with hold | hnew
      · exact hbelow ρ' m hold
      · obtain rfl := List.mem_singleton.mp hnew
        exact ⟨hbroadcast, Nat.lt_succ_self _⟩
    · rw [Transcript.append_lines_of_ne hne] at hm
      exact hbelow ρ' m hm
  · rcases eq_or_ne ρ' ρ with rfl | hne
    · rw [Transcript.append_lines_self, List.pairwise_append]
      refine ⟨h.inOrder ρ', List.pairwise_singleton _ _, fun m hm m' hm' => ?_⟩
      obtain rfl := List.mem_singleton.mp hm'
      exact (h.lines ρ' m hm).2
    · rw [Transcript.append_lines_of_ne hne]
      exact h.inOrder ρ'
  · rw [hd] at hρ'
    rw [Transcript.append_lines_of_ne (hρ.trans_le hρ').ne']
    exact h.silent ρ' hρ'
  · rw [hd]
    exact h.peers_le
  · have hsame : SamePeer v (v.announce config ρ dto) p := ⟨by rw [hd], by rw [hd], rfl⟩
    have hreceives := congrFun (v.announce_receives config ρ dto (v.directory.peerRoom p)) p
    rw [hsame.room]
    rcases hl : v.receives ρ p with - | -
    · -- not a receiver: its segment stays, in this room or another
      have hstop : (T.append ρ ⟨v.directory.objectCount, dto⟩ (v.receives ρ)).stop p = T.stop p :=
        if_neg (Bool.eq_false_iff.mp hl)
      rw [hstop]
      rcases eq_or_ne (v.directory.peerRoom p) ρ with heq | hne
      · subst heq
        rw [Transcript.append_lines_self]
        exact (h.sentSegment p hp).skipped hsame (hsilent p hl) (hreceives.trans hl)
      · rw [Transcript.append_lines_of_ne hne]
        refine (h.sentSegment p hp).keep hsame ⟨[], ?_, by simp⟩ (hreceives ▸ id)
        rw [List.append_nil, hsilent p hl]
    · obtain ⟨-, rfl⟩ := Scene.receives_room h.indexed hl
      have hstop : (T.append _ ⟨v.directory.objectCount, dto⟩ (v.receives _)).stop p =
          (T.lines (v.directory.peerRoom p)).length + 1 := if_pos hl
      have hsent : (v.announce config (v.directory.peerRoom p) dto).outbox p =
          v.outbox p ++ [⟨v.directory.objectCount, dto⟩] := by
        simp [Scene.announce, hl]
      rw [hstop, Transcript.append_lines_self]
      exact (h.sentSegment p hp).received hsame hbroadcast hsent hl
  · have hl : v.receives ρ p = false := by
      rw [Bool.eq_false_iff]
      exact fun hl => absurd (hpeers p hl) (not_lt.mpr hp)
    rw [hsilent p hl]
    exact h.fresh p hp
  · rw [hd] at hp
    exact h.offline p hp

theorem Realizes.continues (h : Realizes config T peers v) (ρ : RoomRef) (m : Object MessageDto) :
    T.Continues peers (T.append ρ m (v.receives ρ)) where
  lines ρ' := by
    rcases eq_or_ne ρ' ρ with rfl | hne
    · rw [Transcript.append_lines_self]
      exact List.prefix_append _ _
    · rw [Transcript.append_lines_of_ne hne]
  start _ _ := rfl
  stop p hp := by
    show T.stop p ≤ if v.receives ρ p then (T.lines ρ).length + 1 else T.stop p
    split
    · next hl =>
      obtain ⟨-, rfl⟩ := Scene.receives_room h.indexed hl
      exact Nat.le_succ_of_le (h.sentSegment p hp).stop_le
    · exact le_rfl

/-- The member tables and the lobby may change as long as no receiver is added. -/
theorem Realizes.redirect (h : Realizes config T peers v) {member : RoomRef → Int → Option PeerRef}
    {lobby : String → Option RoomRef} (hindexed : Indexed { v.directory with member, lobby })
    (hmember : ∀ p, p < peers → member (v.directory.peerRoom p) (v.directory.peerId p) = some p →
      v.directory.member (v.directory.peerRoom p) (v.directory.peerId p) = some p) :
    Realizes config T peers { v with directory := { v.directory with member, lobby } } := by
  refine ⟨hindexed, h.history, h.lines, h.inOrder, h.silent, h.peers_le, fun p hp => ?_, h.fresh,
    h.offline⟩
  have hsame : SamePeer v { v with directory := { v.directory with member, lobby } } p :=
    ⟨rfl, rfl, rfl⟩
  refine (h.sentSegment p hp).keep hsame ⟨[], (List.append_nil _).symm, by simp⟩ fun hreceives => ?_
  obtain ⟨hl, honline⟩ := (Bool.and_eq_true _ _).mp hreceives
  exact (Bool.and_eq_true _ _).mpr ⟨beq_iff_eq.mpr (hmember p hp (beq_iff_eq.mp hl)), honline⟩

theorem Realizes.deleteRoom (h : Realizes config T peers v) (name : String) :
    Realizes config T peers { v with directory := v.directory.deleteRoom name } :=
  h.redirect (h.indexed.deleteRoom name) fun _ _ => id

theorem Realizes.removePeer (h : Realizes config T peers v) (ρ : RoomRef) (peerId : Int) :
    Realizes config T peers { v with directory := v.directory.removePeer ρ peerId } := by
  refine h.redirect (h.indexed.removePeer ρ peerId) fun p _ hmember => ?_
  rcases eq_or_ne (v.directory.peerRoom p) ρ with heq | hne
  · rw [heq, Function.update_self] at hmember
    split at hmember
    · cases hmember
    · rwa [heq]
  · rwa [Function.update_of_ne hne] at hmember

/-- Adding a peer past the first `peers` as a member. -/
theorem Realizes.addPeer (h : Realizes config T peers v) (hp : p < v.directory.peerCount)
    (hroom : v.directory.peerRoom p = ρ) (hnew : peers ≤ p) :
    Realizes config T peers { v with directory := v.directory.addPeer ρ p } := by
  refine h.redirect (h.indexed.addPeer hp hroom) fun q hq hmember => ?_
  rcases eq_or_ne (v.directory.peerRoom q) ρ with heq | hne
  · rw [heq, Function.update_self] at hmember
    split at hmember
    · obtain rfl := Option.some.inj hmember
      exact absurd hq (not_lt.mpr hnew)
    · rwa [heq]
  · rwa [Function.update_of_ne hne] at hmember

theorem Realizes.createRoom (h : Realizes config T v.directory.peerCount v) (name : String) :
    Realizes config T v.directory.peerCount
      { v with directory := v.directory.createRoom name } := by
  refine ⟨h.indexed.createRoom name, fun ρ => ?_, h.lines, h.inOrder, fun ρ hρ => ?_, le_rfl,
    fun p hp => ?_, h.fresh, h.offline⟩
  · show Function.update v.directory.history v.directory.roomCount [] ρ = kept config (T.lines ρ)
    rcases eq_or_ne ρ v.directory.roomCount with rfl | hne
    · rw [Function.update_self, h.silent _ le_rfl, kept_nil]
    · rw [Function.update_of_ne hne, h.history]
  · exact h.silent ρ (Nat.le_of_succ_le hρ)
  · -- no allocated peer is in the new room
    have hne : v.directory.peerRoom p ≠ v.directory.roomCount := (h.indexed.room p hp).ne
    refine (h.sentSegment p hp).keep ⟨rfl, rfl, rfl⟩ ⟨[], (List.append_nil _).symm, by simp⟩
      fun hreceives => ?_
    obtain ⟨hmember, honline⟩ := (Bool.and_eq_true _ _).mp hreceives
    rw [Directory.createRoom_member, Function.update_of_ne hne] at hmember
    exact (Bool.and_eq_true _ _).mpr ⟨hmember, honline⟩

/-- Creating a peer; it is not among the first `peers` peers yet. -/
theorem Realizes.createPeer (h : Realizes config T v.directory.peerCount v)
    (hρ : ρ < v.directory.roomCount)
    (nickname : String) :
    Realizes config T v.directory.peerCount (v.createPeer ρ nickname) := by
  refine ⟨h.indexed.createPeer hρ, h.history, h.lines, h.inOrder, h.silent, Nat.le_succ _,
    fun p hp => ?_, h.fresh, fun p hp => ?_⟩
  · have hsame : SamePeer v (v.createPeer ρ nickname) p :=
      ⟨Function.update_of_ne hp.ne _ _, Function.update_of_ne hp.ne _ _,
        Function.update_of_ne hp.ne _ _⟩
    rw [hsame.room]
    refine (h.sentSegment p hp).keep hsame ⟨[], (List.append_nil _).symm, by simp⟩
      fun hreceives => ?_
    obtain ⟨hmember, honline⟩ := (Bool.and_eq_true _ _).mp hreceives
    have hold : (v.createPeer ρ nickname).online p = v.online p := Function.update_of_ne hp.ne _ _
    rw [hsame.peerId] at hmember
    exact (Bool.and_eq_true _ _).mpr ⟨hmember, hold ▸ honline⟩
  · have hne : p ≠ v.directory.peerCount := (Nat.lt_of_succ_le hp).ne'
    show Function.update v.online v.directory.peerCount true p = false
    rw [Function.update_of_ne hne]
    exact h.offline p (Nat.le_of_succ_le hp)

theorem Realizes.greeting (h : Realizes config T peers v) (ρ : RoomRef) (p : PeerRef)
    (entries : List (Option PeerDto)) :
    v.greeting config ρ p entries = info config v p entries (T.lines ρ) := by
  unfold Scene.greeting Directory.getHistory
  rw [h.history]
  rfl

/-- Sending its `CODE_INFO` to the peer announced last starts its segment. -/
theorem Realizes.enter (h : Realizes config T p v) (hp : v.directory.peerCount = p + 1)
    (hroom : v.directory.peerRoom p = ρ) (honline : v.online p = true) {own : Object MessageDto}
    (hlast : (T.lines ρ).getLast? = some own) (hown : own.val = joined v p)
    (peers : List (Option PeerDto)) :
    Realizes config (T.enter ρ p) (p + 1) (v.sendTo p (v.greeting config ρ p peers)) := by
  rw [h.greeting]
  -- CODE_INFO takes the next object, so the lines stay below the counter
  have hbelow : ∀ ρ', ∀ m ∈ T.lines ρ', isBroadcast m.val = true ∧
      m.ptr < v.directory.objectCount + 1 :=
    fun ρ' m hm => ⟨(h.lines ρ' m hm).1, Nat.lt_succ_of_lt (h.lines ρ' m hm).2⟩
  refine ⟨h.indexed.allocates v.directory.allocates_createShared, h.history, hbelow, h.inOrder,
    h.silent, hp.ge, fun q hq => ?_, fun q hq => ?_, h.offline⟩
  -- only the newcomer gets mail
  · rcases Nat.lt_succ_iff_lt_or_eq.mp hq with hlt | rfl
    · have hstart : (T.enter ρ p).start q = T.start q := Function.update_of_ne hlt.ne _ _
      have hstop : (T.enter ρ p).stop q = T.stop q := Function.update_of_ne hlt.ne _ _
      rw [hstart, hstop]
      refine (h.sentSegment q hlt).keep ⟨rfl, rfl, rfl⟩ ⟨[], ?_, by simp⟩ id
      rw [List.append_nil]
      exact Function.update_of_ne hlt.ne _ _
    · have hstart : (T.enter ρ q).start q = (T.lines ρ).length := Function.update_self _ _ _
      have hstop : (T.enter ρ q).stop q = (T.lines ρ).length := Function.update_self _ _ _
      have hbroadcast : (T.enter ρ q).lines (v.directory.peerRoom q) = T.lines ρ := by
        rw [hroom]
        rfl
      -- its segment is empty at first: it has been sent the record and nothing after it
      show SentSegment config ((T.enter ρ q).lines (v.directory.peerRoom q)) _ _ _ q
      rw [hstart, hstop, hbroadcast]
      refine ⟨le_rfl, le_rfl, ⟨own, ?_, hown⟩, ?_, fun _ => rfl⟩
      · rw [List.take_length, hlast]
      · refine ⟨⟨v.directory.objectCount, info config v q peers (T.lines ρ)⟩, [], peers, ?_, ?_, ?_,
          by simp⟩
        · show Function.update v.outbox q _ q = _
          rw [Function.update_self, h.fresh q le_rfl, honline, if_pos rfl]
          rfl
        · rw [List.take_length]
          rfl
        · rw [List.filter_nil, segment_self]
  · have hne : q ≠ p := (Nat.lt_of_succ_le hq).ne'
    show Function.update v.outbox p _ q = []
    rw [Function.update_of_ne hne]
    exact h.fresh q (Nat.le_of_succ_le hq)

/-- The effect of a join: `CODE_PEER_JOINED` is appended for the members before,
and the segment of the new peer starts after it. -/
def Transcript.join (ρ : RoomRef) (nickname : String) (v : Scene) (T : Transcript) : Transcript :=
  let p := v.directory.peerCount
  let v := v.createPeer ρ nickname
  (T.append ρ ⟨v.directory.objectCount, Conversation.joined v p⟩ (v.receives ρ)).enter ρ p

theorem Realizes.join (h : Realizes config T v.directory.peerCount v)
    (hρ : ρ < v.directory.roomCount)
    (nickname : String) (peers : List (Option PeerDto)) :
    T.Continues v.directory.peerCount (T.join ρ nickname v) ∧
      Realizes config (T.join ρ nickname v) (v.directory.peerCount + 1)
        (v.join config ρ nickname peers) := by
  let p := v.directory.peerCount
  let created := v.createPeer ρ nickname
  have hcreated : Realizes config T p created := h.createPeer hρ nickname
  -- creating the peer does not make it a member
  have hreceives : ∀ q, created.receives ρ q = true → q < p := by
    intro q hq
    obtain ⟨hmember, -⟩ := (Bool.and_eq_true _ _).mp hq
    exact (h.indexed.member ρ _ q (beq_iff_eq.mp hmember)).1
  have hbroadcast :=
    hcreated.announce (rfl : isBroadcast (Conversation.joined created p) = true) hρ hreceives
  obtain ⟨history, hd⟩ := created.announce_directory config ρ (Conversation.joined created p)
  have hroom :
      (created.announce config ρ (Conversation.joined created p)).directory.peerRoom p = ρ := by
    rw [hd]
    exact Function.update_self _ _ _
  have hcount : (created.announce config ρ (Conversation.joined created p)).directory.peerCount =
      p + 1 := by
    rw [hd]
    rfl
  have hadded := hbroadcast.addPeer (hcount ▸ Nat.lt_succ_self p) hroom le_rfl
  have hown : Conversation.joined
      { created.announce config ρ (Conversation.joined created p) with
        directory := (created.announce config ρ
          (Conversation.joined created p)).directory.addPeer ρ p } p =
      Conversation.joined created p := by
    rw [hd]
    rfl
  let own : Object MessageDto := ⟨created.directory.objectCount, Conversation.joined created p⟩
  have hlast : ((T.append ρ own (created.receives ρ)).lines ρ).getLast? = some own := by
    rw [Transcript.append_lines_self, List.getLast?_concat]
  have hentered := hadded.enter hcount hroom (Function.update_self _ _ _) hlast hown.symm peers
  exact ⟨(hcreated.continues ρ own).trans (Transcript.continues_enter ρ p _) le_rfl, hentered⟩

/-- The effect of a leave: `CODE_PEER_LEFT` is appended for the remaining members. -/
def Transcript.leave (p : PeerRef) (v : Scene) (T : Transcript) : Transcript :=
  let ρ := v.directory.peerRoom p
  let v := { v with directory := v.directory.removePeer ρ (v.directory.peerId p) }
  T.append ρ ⟨v.directory.objectCount, Conversation.left v p⟩ (v.receives ρ)

theorem Realizes.leave (h : Realizes config T v.directory.peerCount v)
    (hp : p < v.directory.peerCount) :
    T.Continues v.directory.peerCount (T.leave p v) ∧
      Realizes config (T.leave p v) v.directory.peerCount (v.leave config p) := by
  let ρ := v.directory.peerRoom p
  let removed : Scene :=
    { v with directory := v.directory.removePeer ρ (v.directory.peerId p) }
  have hremoved : Realizes config T removed.directory.peerCount removed :=
    h.removePeer ρ (v.directory.peerId p)
  have hreceives : ∀ q, removed.receives ρ q = true → q < removed.directory.peerCount :=
    fun q hq => (Scene.receives_room hremoved.indexed hq).1
  have hbroadcast := hremoved.announce (rfl : isBroadcast (Conversation.left removed p) = true)
    (h.indexed.room p hp : ρ < removed.directory.roomCount) hreceives
  have hcount : (v.leave config p).directory.peerCount = v.directory.peerCount :=
    v.leave_peerCount config p
  have hrealizes : Realizes config (T.leave p v)
      (removed.announce config ρ (Conversation.left removed p)).directory.peerCount
      (removed.announce config ρ (Conversation.left removed p)) := by
    have hannounced :
        (removed.announce config ρ (Conversation.left removed p)).directory.peerCount =
        removed.directory.peerCount := hcount
    rw [hannounced]
    exact hbroadcast
  have hdropped := hrealizes.quiet (Scene.quiet_drop _ p)
  refine ⟨hremoved.continues ρ _, ?_⟩
  rw [← hcount]
  exact hdropped

end Realizes

end Conversation

end CanChat
