/-
CanChat/Authorship.lean

Nobody writes in somebody else's name.

Whatever clients put in their messages, a message that reaches a room is one of
five kinds: a notice the server wrote about a peer of that room, or a message
made from one that arrived (`MadeFrom`), which names the peer whose connection
it arrived on, at a time of the server's clock.  `Authentic` says so of one
message.  It holds of the messages that handlers have in hand (`Pending`) and of
those the log has (`Published`), and what is authentic stays so
(`Authentic.mono`).

Which arrival a message is made from is no choice: a handler that records or
broadcasts for a client does so with the last message that arrived on its socket
(`latest`), as `Written.posted` keeps track of and `published_latest` says of
each step.
-/
import CanChat.Traffic

namespace CanChat

namespace Traffic

open Chat (Scene Calls Stage Event Purpose)

/-! ### Authentic messages -/

/-- The last message to arrive on `k`. -/
def latest (arrivals : List Arrival) (k : SocketRef) : Option Arrival :=
  arrivals.find? fun arrival => arrival.socket = k

theorem latest_cons_of_ne {arrivals : List Arrival} {arrival : Arrival} {k : SocketRef}
    (hne : k ≠ arrival.socket) : latest (arrival :: arrivals) k = latest arrivals k :=
  List.find?_cons_of_neg (by simpa using hne.symm)

theorem latest_cons_self (arrivals : List Arrival) (arrival : Arrival) :
    latest (arrival :: arrivals) arrival.socket = some arrival :=
  List.find?_cons_of_pos (by simp)

/-- What the server makes of a message that has arrived. -/
inductive MadeFrom (v : Scene) (arrival : Arrival) : MessageDto → Prop
  /-- the client's own object under the stamp of `readMessage` -/
  | stamped {n} (hcode : arrival.message.code = some .codePeerMessage ∨
        arrival.message.code = some .codePeerIsTyping) (hn : n < v.clockReads) :
      MadeFrom v arrival
        { arrival.message with
          peerName := some (v.nickname arrival.peer)
          peerId := some (v.directory.peerId arrival.peer)
          timestamp := some (v.clock n) }
  /-- the announcement of the files it lists, entry by entry -/
  | announced {n files shared} (hcode : arrival.message.code = some .codeFileShare)
      (hfiles : arrival.message.files = some files)
      (hshared : List.Forall₂ Peer.Announces files shared) (hn : n < v.clockReads) :
      MadeFrom v arrival
        { code := some .codePeerMessageFile
          peerId := some (v.directory.peerId arrival.peer)
          peerName := some (v.nickname arrival.peer)
          timestamp := some (v.clock n)
          files := some shared }

/-- A message made from one that arrived from a peer of the room. -/
def Signed (arrivals : List Arrival) (v : Scene) (ρ : RoomRef) (message : MessageDto) : Prop :=
  ∃ arrival ∈ arrivals, arrival.peer < v.directory.peerCount ∧
    v.directory.peerRoom arrival.peer = ρ ∧ MadeFrom v arrival message

/-- `Room::joinedMessage`, in a scene. -/
def joinedMessage (p : PeerRef) (v : Scene) : MessageDto where
  code := some .codePeerJoined
  peerId := some (v.directory.peerId p)
  peerName := some (v.nickname p)
  message := some (v.nickname p ++ " - joined room")

def leftMessage (p : PeerRef) (v : Scene) : MessageDto where
  code := some .codePeerLeft
  peerId := some (v.directory.peerId p)
  message := some (v.nickname p ++ " - left room")

/-- What a message to the members of a room may be. -/
def Authentic (arrivals : List Arrival) (v : Scene) (ρ : RoomRef) (message : MessageDto) : Prop :=
  match message.code with
  | some .codePeerJoined => ∃ p < v.directory.peerCount, v.directory.peerRoom p = ρ ∧
      message = joinedMessage p v
  | some .codePeerLeft => ∃ p < v.directory.peerCount, .removed p ∈ v.log ∧
      v.directory.peerRoom p = ρ ∧ message = leftMessage p v
  | some .codePeerMessage | some .codePeerMessageFile | some .codePeerIsTyping =>
      Signed arrivals v ρ message
  | _ => False

/-- The codes under which the server passes on what clients send. -/
def relayed : List (Option MessageCodes) :=
  [some .codePeerMessage, some .codePeerMessageFile, some .codePeerIsTyping]

theorem MadeFrom.relayed {v : Scene} {arrival : Arrival} {message : MessageDto}
    (h : MadeFrom v arrival message) : message.code ∈ relayed := by
  cases h with
  | stamped hcode _ => rcases hcode with hcode | hcode <;> simp [Traffic.relayed, hcode]
  | announced => simp [Traffic.relayed]

theorem Signed.authentic {arrivals : List Arrival} {v : Scene} {ρ : RoomRef} {message : MessageDto}
    (h : Signed arrivals v ρ message) : Authentic arrivals v ρ message := by
  have hcode : message.code ∈ relayed := by
    obtain ⟨_, -, -, -, hmade⟩ := h
    exact hmade.relayed
  simp only [relayed, List.mem_cons, List.not_mem_nil, or_false] at hcode
  unfold Authentic
  rcases hcode with hcode | hcode | hcode <;> rw [hcode] <;> exact h

section Mono

variable {arrivals arrivals' : List Arrival} {v v' : Scene} {ρ : RoomRef} {message : MessageDto}

theorem MadeFrom.mono (hgrows : v.Grows v') {arrival : Arrival}
    (hlt : arrival.peer < v.directory.peerCount) (h : MadeFrom v arrival message) :
    MadeFrom v' arrival message := by
  cases h with
  | stamped hcode hn =>
      rw [← hgrows.nickname _ hlt, ← hgrows.peerId _ hlt, ← hgrows.clock]
      exact .stamped hcode (hn.trans_le hgrows.clockReads)
  | announced hcode hfiles hshared hn =>
      rw [← hgrows.nickname _ hlt, ← hgrows.peerId _ hlt, ← hgrows.clock]
      exact .announced hcode hfiles hshared (hn.trans_le hgrows.clockReads)

theorem Signed.mono (hgrows : v.Grows v') (harrivals : arrivals ⊆ arrivals')
    (h : Signed arrivals v ρ message) : Signed arrivals' v' ρ message := by
  obtain ⟨arrival, hmem, hlt, hroom, hmade⟩ := h
  exact ⟨arrival, harrivals hmem, hlt.trans_le hgrows.peerCount,
    (hgrows.peerRoom _ hlt).trans hroom, hmade.mono hgrows hlt⟩

theorem Authentic.mono (hgrows : v.Grows v') (harrivals : arrivals ⊆ arrivals')
    (h : Authentic arrivals v ρ message) : Authentic arrivals' v' ρ message := by
  have hmessage : ∀ p < v.directory.peerCount,
      joinedMessage p v' = joinedMessage p v ∧ leftMessage p v' = leftMessage p v := by
    intro p hp
    simp only [joinedMessage, leftMessage, hgrows.peerId p hp, hgrows.nickname p hp, and_self]
  unfold Authentic at h ⊢
  split at h
  · obtain ⟨p, hp, hroom, hm⟩ := h
    refine ⟨p, hp.trans_le hgrows.peerCount, (hgrows.peerRoom p hp).trans hroom, ?_⟩
    rw [(hmessage p hp).1, hm]
  · obtain ⟨p, hp, hremoved, hroom, hm⟩ := h
    refine ⟨p, hp.trans_le hgrows.peerCount, hgrows.log.subset hremoved,
      (hgrows.peerRoom p hp).trans hroom, ?_⟩
    rw [(hmessage p hp).2, hm]
  · exact h.mono hgrows harrivals
  · exact h.mono hgrows harrivals
  · exact h.mono hgrows harrivals
  · exact h.elim

end Mono

/-! ### What handlers have in hand -/

/-- The handler of `k`, on behalf of `p`, has a message for the room: a notice
of its own, or one made from the last message that arrived on `k`. -/
structure Written (arrivals : List Arrival) (v : Scene) (k : SocketRef) (purpose : Purpose)
    (p : PeerRef) (message : MessageDto) : Prop where
  lt : p < v.directory.peerCount
  authentic : Authentic arrivals v (v.directory.peerRoom p) message
  posted : purpose = .posting → ∃ arrival, latest arrivals k = some arrival ∧ arrival.peer = p ∧
    MadeFrom v arrival message
  notice : purpose ≠ .posting → message.code ∉ relayed

/-- `handleFilesMessage` has announced the entries of its message before `todo`. -/
structure Sharing (v : Scene) (arrival : Arrival) (timestamp : Int)
    (todo shared : List (Option FileDto)) : Prop where
  code : arrival.message.code = some .codeFileShare
  files : ∃ done, arrival.message.files = some (done ++ todo) ∧
    List.Forall₂ Peer.Announces done shared
  timestamp : ∃ n < v.clockReads, timestamp = v.clock n

/-- Only what may enter the history is about to. -/
def Pending (arrivals : List Arrival) (v : Scene) (k : SocketRef) : Stage → Prop
  | .record purpose p dto =>
      Written arrivals v k purpose p dto ∧ dto.code ≠ some .codePeerIsTyping
  | .broadcast purpose p message => Written arrivals v k purpose p message.val
  | .shareFiles p timestamp todo shared => p < v.directory.peerCount ∧
      ∃ arrival, latest arrivals k = some arrival ∧ arrival.peer = p ∧
        Sharing v arrival timestamp todo shared
  | _ => True

def Published (arrivals : List Arrival) (v : Scene) : Event → Prop
  | .recorded ρ message =>
      Authentic arrivals v ρ message.val ∧ message.val.code ≠ some .codePeerIsTyping
  | .broadcast ρ message => Authentic arrivals v ρ message.val
  | _ => True

theorem Written.relayed {arrivals : List Arrival} {v : Scene} {k : SocketRef} {purpose : Purpose}
    {p : PeerRef} {message : MessageDto} (h : Written arrivals v k purpose p message)
    (hposting : purpose = .posting) : message.code ∈ relayed := by
  obtain ⟨_, -, -, hmade⟩ := h.posted hposting
  exact hmade.relayed

/-- The next entry is announced. -/
theorem Sharing.next {v : Scene} {arrival : Arrival} {timestamp : Int}
    {currFile sharedFile : Option FileDto} {todo shared : List (Option FileDto)}
    (h : Sharing v arrival timestamp (currFile :: todo) shared)
    (hfile : Peer.Announces currFile sharedFile) :
    Sharing v arrival timestamp todo (shared ++ [sharedFile]) := by
  obtain ⟨done, hfiles, hshared⟩ := h.files
  refine { h with files := ⟨done ++ [currFile], ?_, ?_⟩ }
  · rw [hfiles, List.append_assoc]
    rfl
  · exact List.rel_append hshared (.cons hfile .nil)

section Mono

variable {arrivals arrivals' : List Arrival} {v v' : Scene} {k : SocketRef}

theorem Written.mono (hgrows : v.Grows v') (harrivals : arrivals ⊆ arrivals')
    (hlatest : latest arrivals' k = latest arrivals k) {purpose : Purpose} {p : PeerRef}
    {message : MessageDto} (h : Written arrivals v k purpose p message) :
    Written arrivals' v' k purpose p message where
  lt := h.lt.trans_le hgrows.peerCount
  authentic := by
    rw [hgrows.peerRoom p h.lt]
    exact h.authentic.mono hgrows harrivals
  posted hposting := by
    obtain ⟨arrival, harrival, rfl, hmade⟩ := h.posted hposting
    exact ⟨arrival, hlatest.trans harrival, rfl, hmade.mono hgrows h.lt⟩
  notice := h.notice

theorem Sharing.mono (hgrows : v.Grows v') {arrival : Arrival} {timestamp : Int}
    {todo shared : List (Option FileDto)} (h : Sharing v arrival timestamp todo shared) :
    Sharing v' arrival timestamp todo shared := by
  obtain ⟨n, hn, htime⟩ := h.timestamp
  refine { h with timestamp := ⟨n, hn.trans_le hgrows.clockReads, ?_⟩ }
  rw [hgrows.clock, htime]

/-- A handler that has a message in hand goes on with it. -/
theorem Pending.mono (hgrows : v.Grows v') (harrivals : arrivals ⊆ arrivals') {stage : Stage}
    (hlatest : (∃ p, stage = .joined p) ∨ latest arrivals' k = latest arrivals k)
    (h : Pending arrivals v k stage) : Pending arrivals' v' k stage := by
  rcases hlatest with ⟨p, rfl⟩ | hlatest
  · trivial
  cases stage with
  | record purpose p dto => exact ⟨h.1.mono hgrows harrivals hlatest, h.2⟩
  | broadcast purpose p message => exact Written.mono hgrows harrivals hlatest h
  | shareFiles p timestamp todo shared =>
      obtain ⟨hlt, arrival, harrival, hp, hsharing⟩ := h
      exact ⟨hlt.trans_le hgrows.peerCount, arrival, hlatest.trans harrival, hp,
        hsharing.mono hgrows⟩
  | _ => trivial

theorem Published.mono (hgrows : v.Grows v') (harrivals : arrivals ⊆ arrivals') {event : Event}
    (h : Published arrivals v event) : Published arrivals' v' event := by
  cases event with
  | recorded ρ message => exact ⟨h.1.mono hgrows harrivals, h.2⟩
  | broadcast ρ message => exact Authentic.mono hgrows harrivals h
  | _ => trivial

end Mono

/-- Every message there is, in hand or in the log. -/
def AllAuthentic (arrivals : List Arrival) (v : Scene) : Prop :=
  v.Everywhere (Pending arrivals v) (Published arrivals v)

/-- What arrives with a call: the message that is received, and nothing else. -/
structure Arrives (v : Scene) (a : Chat.Act) (arrivals arrivals' : List Arrival) : Prop where
  receive : ∀ k message, a = .receive k message →
    ∃ p, (v.sockets k).stage = .joined p ∧ arrivals' = ⟨k, p, message⟩ :: arrivals
  quiet : (∀ k message, a ≠ .receive k message) → arrivals' = arrivals

namespace Arrives

variable {arrivals arrivals' : List Arrival} {v : Scene} {a : Chat.Act}

/-- Nothing arrives on a socket whose handler is at work. -/
theorem latest (h : Arrives v a arrivals arrivals') (k : SocketRef) :
    (∃ p, (v.sockets k).stage = .joined p) ∨ latest arrivals' k = latest arrivals k := by
  by_cases hreceive : ∃ j message, a = .receive j message
  · obtain ⟨j, message, ha⟩ := hreceive
    obtain ⟨p, hj, rfl⟩ := h.receive j message ha
    rcases eq_or_ne k j with rfl | hne
    · exact .inl ⟨p, hj⟩
    · exact .inr (latest_cons_of_ne hne)
  · rw [h.quiet fun j message ha => hreceive ⟨j, message, ha⟩]
    exact .inr rfl

theorem subset (h : Arrives v a arrivals arrivals') : arrivals ⊆ arrivals' := by
  by_cases hreceive : ∃ j message, a = .receive j message
  · obtain ⟨j, message, ha⟩ := hreceive
    obtain ⟨p, -, rfl⟩ := h.receive j message ha
    exact List.subset_cons_self _ _
  · rw [h.quiet fun j message ha => hreceive ⟨j, message, ha⟩]
    exact List.Subset.refl _

/-- The message of `p` that has just arrived. -/
theorem latest_self {k : SocketRef} {p : PeerRef} {message : MessageDto}
    (h : Arrives v (.receive k message) arrivals arrivals') (hk : (v.sockets k).stage = .joined p) :
    Traffic.latest arrivals' k = some ⟨k, p, message⟩ := by
  obtain ⟨q, hq, rfl⟩ := h.receive k message rfl
  obtain rfl := Stage.joined.inj (hk.symm.trans hq)
  exact latest_cons_self arrivals ⟨k, p, message⟩

end Arrives

namespace AllAuthentic

variable {arrivals arrivals' : List Arrival} {config : ConfigDto} {v v' : Scene} {a : Chat.Act}

/-- What is made from the last message of `p` on `k` is authentic. -/
theorem written {k : SocketRef} {arrival : Arrival} {message : MessageDto}
    (hlt : arrival.peer < v.directory.peerCount) (harrival : latest arrivals k = some arrival)
    (hmade : MadeFrom v arrival message) :
    Written arrivals v k .posting arrival.peer message where
  lt := hlt
  authentic :=
    Signed.authentic ⟨arrival, List.mem_of_find?_eq_some harrival, hlt, rfl, hmade⟩
  posted _ := ⟨arrival, harrival, rfl, hmade⟩
  notice hne := absurd rfl hne

/-- What `stamp` makes of a message that has arrived. -/
theorem made_stamp {k : SocketRef} {p : PeerRef} {message : MessageDto}
    (hcode : message.code = some .codePeerMessage ∨ message.code = some .codePeerIsTyping)
    (hnickname : v'.nickname = v.nickname) (hid : v'.directory.peerId = v.directory.peerId)
    (hclock : v'.clock = v.clock) (hreads : v.clockReads < v'.clockReads) :
    MadeFrom v' ⟨k, p, message⟩ (v.stamp p message) := by
  rw [Scene.stamp, ← hnickname, ← hid, ← hclock]
  exact .stamped hcode hreads

theorem step (h : AllAuthentic arrivals v) (hsound : Chat.Sound v.toView)
    (harrives : Arrives v a arrivals arrivals') (hcalls : Calls config v a v') :
    AllAuthentic arrivals' v' := by
  have hgrows := hcalls.grows
  have harrivals := harrives.subset
  -- what is pending or published stays so, as arrivals are only added
  have hP : ∀ j, Pending arrivals' v' j (v.sockets j).stage :=
    fun j => (h.stage j).mono hgrows harrivals (harrives.latest j)
  have hE : ∀ event, Published arrivals v event → Published arrivals' v' event :=
    fun _ he => he.mono hgrows harrivals
  have hlt : ∀ k φ p, (v.sockets k).stage.phase = some (φ, p) → p < v.directory.peerCount :=
    fun k φ p hk => (hsound.phase k φ p hk).1
  cases hcalls with
  | connect hk => exact h.update_of_stages hP hE rfl (List.nil_append _).symm trivial (by simp)
  | enter hk hρ => exact h.update_of_stages hP hE rfl rfl trivial (by simp)
  | createRoom hk hnone => exact h.update_of_stages hP hE rfl rfl trivial (by simp)
  -- the join notice is the server's own: it relays no message
  | @createPeer k ρ dto hk hdto =>
      subst hdto
      refine h.update_of_stages hP hE rfl rfl ⟨⟨Nat.lt_succ_self _, ?_, by simp, ?_⟩, by simp⟩
        (by simp)
      · refine ⟨v.directory.peerCount, Nat.lt_succ_self _, rfl, ?_⟩
        simp [joinedMessage]
      · simp [relayed]
  -- recording publishes what was pending
  | @record k purpose p dto hk =>
      have hpending : Pending arrivals' _ k (.record purpose p dto) := hk ▸ hP k
      obtain ⟨hwritten, htyping⟩ := hpending
      refine h.update_of_stages hP hE rfl rfl hwritten ?_
      intro event he
      obtain rfl := List.mem_singleton.mp he
      exact ⟨hwritten.authentic, htyping⟩
  -- the broadcast publishes the same message a second time
  | @broadcast k purpose p message qs hk =>
      have hpending : Pending arrivals' _ k (.broadcast purpose p message) := hk ▸ hP k
      refine h.update_of_stages hP hE rfl rfl ?_ ?_
      · cases purpose <;> trivial
      · intro event he
        rcases List.mem_cons.mp he with rfl | he
        · exact hpending.authentic
        · obtain ⟨q, -, rfl⟩ := List.mem_map.mp he
          trivial
  | addPeer hk => exact h.update_of_stages hP hE rfl rfl trivial (by simp [Published])
  | onboardPeer hk hpeers => exact h.update_of_stages hP hE rfl rfl trivial (by simp)
  | getHistory hk hinfo => exact h.update_of_stages hP hE rfl rfl trivial (by simp [Published])
  | sendInfo hk => exact h.update_of_stages hP hE rfl rfl trivial (by simp [Published])
  -- the socket's latest arrival is the message that is stamped here
  | @post k p message hk hcode =>
      have hp := hlt k .staying p (congrArg Stage.phase hk)
      refine h.update_of_stages hP hE rfl rfl ⟨written hp (harrives.latest_self hk) ?_, ?_⟩
        (by simp)
      · exact made_stamp (.inl hcode) rfl rfl rfl (Nat.lt_succ_self _)
      · simp [Scene.stamp, hcode]
  | @typing k p message hk hcode =>
      have hp := hlt k .staying p (congrArg Stage.phase hk)
      refine h.update_of_stages hP hE rfl rfl (written hp (harrives.latest_self hk) ?_) (by simp)
      exact made_stamp (.inr hcode) rfl rfl rfl (Nat.lt_succ_self _)
  -- the loop starts with nothing registered, and the arrival it works on
  | @share k p message files d n hk hcode hfiles hd =>
      have hp := hlt k .staying p (congrArg Stage.phase hk)
      refine h.update_of_stages hP hE rfl rfl
        ⟨hp.trans_le hgrows.peerCount, _, harrives.latest_self hk, rfl, ?_⟩ (by simp)
      exact ⟨hcode, ⟨[], hfiles, .nil⟩, v.clockReads + n, Nat.lt_succ_self _, rfl⟩
  | answer _ hk hd => exact h.update_of_stages hP hE rfl rfl trivial (by simp)
  -- one more entry of that arrival has been registered
  | @shareFile k p timestamp currFile todo shared sharedFile d n hk hd hfile =>
      have hpending : Pending arrivals' _ k (.shareFiles p timestamp (currFile :: todo) shared) :=
        hk ▸ hP k
      obtain ⟨hp, arrival, harrival, hpeer, hsharing⟩ := hpending
      exact h.update_of_stages hP hE rfl rfl
        ⟨hp, arrival, harrival, hpeer, hsharing.next hfile⟩ (by simp)
  -- the loop has come to its end, so the announcement has all the entries
  | @shared k p timestamp shared hk =>
      have hpending : Pending arrivals' _ k (.shareFiles p timestamp [] shared) := hk ▸ hP k
      obtain ⟨hp, arrival, harrival, rfl, hcode, ⟨done, hfiles, hshared⟩, n, hn, htime⟩ := hpending
      rw [List.append_nil] at hfiles
      refine h.update_of_stages hP hE rfl rfl ⟨written hp harrival ?_, by simp⟩ (by simp)
      exact htime ▸ .announced hcode hfiles hshared hn
  | close _ hk hd => exact h.update_of_stages hP hE rfl rfl trivial (by simp)
  -- the leave notice is the server's own
  | @removePeerById k p dto hk hdto =>
      have hp := hlt k .leaving p (congrArg Stage.phase hk)
      subst hdto
      refine h.update_of_stages hP hE rfl rfl ⟨⟨hp, ?_, by simp, ?_⟩, by simp⟩
        (by simp [Published])
      · exact ⟨p, hp, List.mem_cons_self, rfl, rfl⟩
      · simp [relayed]
  | invalidateSocket hk => exact h.update_of_stages hP hE rfl rfl trivial (by simp)
  | isEmpty hk hstage =>
      refine h.update_of_stages hP hE rfl rfl ?_ (by simp)
      rcases hstage with rfl | rfl <;> trivial
  | deleteRoom hk => exact h.update_of_stages hP hE rfl rfl trivial (by simp)
  | other _ => exact ⟨hP, fun event he => hE event (h.event event he)⟩

/-- A request is no message to a room. -/
theorem request (h : AllAuthentic arrivals v) (host : PeerRef) (dto : MessageDto) :
    AllAuthentic arrivals (request host dto v) := by
  have hgrows := request_grows host dto v
  refine ⟨fun k => (h.stage k).mono hgrows (List.Subset.refl _) (.inr rfl), fun event he => ?_⟩
  rcases List.mem_cons.mp he with rfl | he
  · trivial
  · exact (h.event event he).mono hgrows (List.Subset.refl _)

end AllAuthentic

/-! ### Whose connection it is -/

/-- The listener of a socket is the peer its handlers are about. -/
def Attended (listener : SocketRef → Option PeerRef) (k : SocketRef) (stage : Stage) : Prop :=
  match stage.phase with
  | some (_, p) => listener k = some p
  | none => stage = .gone ∨ listener k = none

/-- The listener of a socket was created for it, under its nickname. -/
structure Listening (listener : SocketRef → Option PeerRef) (v : Scene) : Prop where
  attended : ∀ k, Attended listener k (v.sockets k).stage
  named : ∀ k p, listener k = some p →
    p < v.directory.peerCount ∧ v.nickname p = (v.sockets k).nickname

namespace Listening

variable {listener : SocketRef → Option PeerRef} {config : ConfigDto} {v v' : Scene}
  {a : Chat.Act} {k : SocketRef} {p : PeerRef}

theorem phase (h : Listening listener v) {φ : Chat.Phase}
    (hk : (v.sockets k).stage.phase = some (φ, p)) : listener k = some p := by
  have hattended := h.attended k
  unfold Attended at hattended
  rwa [hk] at hattended

theorem not_closed (h : Listening listener v) (hp : listener k = some p) :
    (v.sockets k).stage ≠ .closed := by
  intro hclosed
  have hattended := h.attended k
  rw [hclosed] at hattended
  rcases hattended with hgone | hnone
  · cases hgone
  · rw [hnone] at hp
    cases hp

theorem named_mono (h : Listening listener v) (hgrows : v.Grows v') (k : SocketRef) (p : PeerRef)
    (hp : listener k = some p) :
    p < v'.directory.peerCount ∧ v'.nickname p = (v'.sockets k).nickname := by
  obtain ⟨hlt, hname⟩ := h.named k p hp
  refine ⟨hlt.trans_le hgrows.peerCount, ?_⟩
  rw [hgrows.nickname p hlt, hname, (hgrows.connection k (h.not_closed hp)).2]

theorem goto (h : Listening listener v) (hgrows : v.Grows v') {stage : Stage}
    (hsockets : v'.sockets = Function.update v.sockets k { v.sockets k with stage })
    (hstage : Attended listener k stage) : Listening listener v' where
  attended j := by
    rw [hsockets]
    rcases eq_or_ne j k with rfl | hne
    · simpa using hstage
    · simpa [hne] using h.attended j
  named := h.named_mono hgrows

/-- The handler of `k` goes on with the same peer. -/
theorem keep (h : Listening listener v) (hgrows : v.Grows v') {stage : Stage}
    (hsockets : v'.sockets = Function.update v.sockets k { v.sockets k with stage })
    {φ ψ : Chat.Phase} (hk : (v.sockets k).stage.phase = some (φ, p))
    (hstage : stage.phase = some (ψ, p)) : Listening listener v' := by
  refine h.goto hgrows hsockets ?_
  unfold Attended
  rw [hstage]
  exact h.phase hk

/-- A handler that creates no peer keeps its listener. -/
theorem calls (h : Listening listener v) (hcalls : Calls config v a v')
    (hcreate : ∀ k ρ, a = .run k → (v.sockets k).stage ≠ .createPeer ρ) :
    Listening listener v' := by
  have hgrows := hcalls.grows
  -- a connection without a peer object has no listener
  have hnone : ∀ k, (v.sockets k).stage = .closed ∨ (v.sockets k).stage = .getOrCreateRoom →
      listener k = none := by
    intro k hk
    have hattended := h.attended k
    rcases hk with hk | hk <;> rw [hk] at hattended
    · exact hattended.resolve_left (by simp)
    · exact hattended.resolve_left (by simp)
  cases hcalls with
  | @connect k roomName nickname hk =>
      refine ⟨fun j => ?_, h.named_mono hgrows⟩
      rcases eq_or_ne j k with rfl | hne
      · simpa [Attended, Stage.phase] using hnone j (.inl hk)
      · simpa [hne] using h.attended j
  | enter hk hρ => exact h.goto hgrows rfl (Or.inr (hnone _ (.inr hk)))
  | createRoom hk hnone' => exact h.goto hgrows rfl (Or.inr (hnone _ (.inr hk)))
  -- the listener is set together with the peer object, in the step excluded here
  | createPeer hk hdto => exact absurd hk (hcreate _ _ rfl)
  | @record k purpose p dto hk =>
      cases purpose <;> exact h.keep hgrows rfl (congrArg Stage.phase hk) rfl
  | @broadcast k purpose p message qs hk =>
      cases purpose <;> exact h.keep hgrows rfl (congrArg Stage.phase hk) rfl
  | addPeer hk => exact h.keep hgrows rfl (congrArg Stage.phase hk) rfl
  | onboardPeer hk hpeers => exact h.keep hgrows rfl (congrArg Stage.phase hk) rfl
  | getHistory hk hinfo => exact h.keep hgrows rfl (congrArg Stage.phase hk) rfl
  | sendInfo hk => exact h.keep hgrows rfl (congrArg Stage.phase hk) rfl
  | post hk hcode => exact h.keep hgrows rfl (congrArg Stage.phase hk) rfl
  | typing hk hcode => exact h.keep hgrows rfl (congrArg Stage.phase hk) rfl
  | share hk hcode hd => exact h.keep hgrows rfl (congrArg Stage.phase hk) rfl
  | answer _ hk hd => exact h.keep hgrows rfl (congrArg Stage.phase hk) rfl
  | shareFile hk hd => exact h.keep hgrows rfl (congrArg Stage.phase hk) rfl
  | shared hk => exact h.keep hgrows rfl (congrArg Stage.phase hk) rfl
  -- `onBeforeDestroy` leaves the listener in place until the thread has gone
  | close _ hk hd => exact h.keep hgrows rfl hk rfl
  | removePeerById hk hdto => exact h.keep hgrows rfl (congrArg Stage.phase hk) rfl
  | invalidateSocket hk => exact h.keep hgrows rfl (congrArg Stage.phase hk) rfl
  | isEmpty hk hstage =>
      rcases hstage with rfl | rfl
      · exact h.keep hgrows rfl (congrArg Stage.phase hk) rfl
      · exact h.goto hgrows rfl (Or.inl rfl)
  | deleteRoom hk => exact h.goto hgrows rfl (Or.inl rfl)
  | other _ => exact h

/-- A new peer is the listener of the socket it is created for. -/
theorem createPeer (h : Listening listener v) {ρ : RoomRef}
    (hk : (v.sockets k).stage = .createPeer ρ) (hcalls : Calls config v (.run k) v') :
    Listening (Function.update listener k (some v.directory.peerCount)) v' := by
  have hgrows := hcalls.grows
  cases hcalls with
  | createPeer hk' hdto =>
      obtain rfl := Stage.createPeer.inj (hk.symm.trans hk')
      refine ⟨fun j => ?_, fun j p hp => ?_⟩
      · rcases eq_or_ne j k with rfl | hne
        · simp [Attended, Stage.phase]
        · simpa [Attended, hne] using h.attended j
      · rcases eq_or_ne j k with rfl | hne
        · obtain rfl : v.directory.peerCount = p := by simpa using hp
          exact ⟨Nat.lt_succ_self _, by simp⟩
        · exact h.named_mono hgrows j p (by simpa [hne] using hp)
  | close ha hk' _ =>
      obtain rfl := ha k rfl
      rw [hk] at hk'
      cases hk'
  | answer ha hk' _ => exact absurd rfl (ha k)
  | other ha => exact absurd rfl (ha k)
  | _ hk' => simp [hk] at hk'

end Listening

variable {fw : Framework} {config : ConfigDto} {s s' : State}

theorem step_arrivals {a : Act} (hs : s.step fw config a = some s') :
    s.arrivals ⊆ s'.arrivals := by
  rcases step_listener hs with ⟨-, h, -⟩ | ⟨_, _, _, -, -, h, -⟩ | ⟨_, _, -, -, h, -⟩ <;> rw [h]
  · exact List.Subset.refl _
  · exact List.subset_cons_self _ _
  · exact List.Subset.refl _

theorem listening (hs : (system fw config).Reachable s) : Listening s.listener s.chat.scene := by
  refine Transition.System.Reachable.invariant (I := fun s => Listening s.listener s.chat.scene)
    ?_ ?_ hs
  · rintro _ ⟨clock, rfl⟩
    exact ⟨fun _ => .inr rfl, by simp⟩
  · intro s a t h hstep
    have hlistener := step_listener hstep
    rcases step_calls hstep with ⟨b, hb, hcall⟩ | ⟨_, _, _, _, _, rfl, -, -, hscene⟩
    · rcases hlistener with ⟨hnot, -, hl⟩ | ⟨_, _, _, rfl, -, -, hl⟩ | ⟨k, ρ, rfl, hk, -, hl⟩ <;>
        rw [hl]
      · exact h.calls hb fun k ρ hk => hnot k ρ ((hcall.run k).mp hk)
      · refine h.calls hb fun k ρ hk => ?_
        cases (hcall.run k).mp hk
      · rw [(hcall.run k).mpr rfl] at hb
        exact h.createPeer hk hb
    · rcases hlistener with ⟨-, -, hl⟩ | ⟨_, _, _, ha, -⟩ | ⟨_, _, ha, -⟩
      · rw [hl, hscene]
        exact ⟨h.attended, h.named⟩
      · cases ha
      · cases ha

/-- A message arrives from the listener of its socket. -/
theorem arrival_listener (hs : (system fw config).Reachable s) {arrival : Arrival}
    (h : arrival ∈ s.arrivals) : s.listener arrival.socket = some arrival.peer := by
  refine Transition.System.ReachableVia.invariant
    (I := fun s => ∀ arrival ∈ s.arrivals, s.listener arrival.socket = some arrival.peer)
    ?_ ?_ hs arrival h
  · rintro _ ⟨clock, rfl⟩
    simp
  · intro s a t hreach h _ hstep arrival hmem
    rcases step_listener hstep with ⟨-, hmems, hl⟩ | ⟨k, p, message, -, hk, hmems, hl⟩ |
      ⟨k, ρ, -, hk, hmems, hl⟩ <;> rw [hmems] at hmem <;> rw [hl]
    · exact h arrival hmem
    · rcases List.mem_cons.mp hmem with rfl | hmem
      · exact (listening hreach).phase (φ := .staying)
          (by show (s.chat.sockets k).stage.phase = _; rw [hk]; rfl)
      · exact h arrival hmem
    · -- a socket whose peer is being created has had no message
      have hne : arrival.socket ≠ k := by
        rintro rfl
        have hattended := (listening hreach).attended arrival.socket
        have hstage : (s.chat.scene.sockets arrival.socket).stage = .createPeer ρ := hk
        rw [hstage] at hattended
        rcases hattended with hgone | hnone
        · cases hgone
        · rw [h arrival hmem] at hnone
          cases hnone
      rw [Function.update_of_ne hne]
      exact h arrival hmem

theorem allAuthentic (hs : (system fw config).Reachable s) :
    AllAuthentic s.arrivals s.chat.scene := by
  refine Transition.System.ReachableVia.invariant
    (I := fun s => AllAuthentic s.arrivals s.chat.scene) ?_ ?_ hs
  · rintro _ ⟨clock, rfl⟩
    exact ⟨fun _ => trivial, by simp [Chat.State.scene, Chat.State.view]⟩
  · intro s a t hreach h _ hstep
    rcases step_calls hstep with ⟨b, hb, hcall⟩ | ⟨_, _, _, _, _, ha, -, -, hscene⟩
    · exact h.step (sound hreach) ⟨hcall.receive, hcall.quiet⟩ hb
    · have harrivals : t.arrivals = s.arrivals := step_arrivals_of_ne hstep (by simp [ha])
      rw [hscene, harrivals]
      exact h.request _ _

/-- The message about to be recorded. -/
theorem written_of_record (hs : (system fw config).Reachable s) {k : SocketRef}
    {purpose : Purpose} {p : PeerRef} {dto : MessageDto}
    (hk : (s.chat.scene.sockets k).stage = .record purpose p dto) :
    Written s.arrivals s.chat.scene k purpose p dto := by
  have hpending := (allAuthentic hs).stage k
  rw [hk] at hpending
  exact hpending.1

/-- The message about to be broadcast. -/
theorem written_of_broadcast (hs : (system fw config).Reachable s) {k : SocketRef}
    {purpose : Purpose} {p : PeerRef} {message : Object MessageDto}
    (hk : (s.chat.scene.sockets k).stage = .broadcast purpose p message) :
    Written s.arrivals s.chat.scene k purpose p message.val := by
  have hpending := (allAuthentic hs).stage k
  rwa [hk] at hpending

/-! ### Who is sent what -/

/-- A step in the handling of a message that has come in on `k`. -/
def Handles (s : State) (k : SocketRef) : Act → Prop
  | .chat (.receive j _) => j = k
  | .chat (.run j) => j = k ∧ ∃ p, (s.chat.sockets k).stage.phase = some (.staying, p)
  | .provide j => j = k
  | _ => False

/-- While a client's message is handled, nothing is sent but by its broadcast. -/
theorem calls_sent {v v' : Scene} {a : Chat.Act} (hcalls : Calls config v a v')
    (hstaying : ∀ k, a = .run k → ∃ p, (v.sockets k).stage.phase = some (.staying, p)) :
    ∃ events, v'.log = events ++ v.log ∧ ∀ q message, .sent q message ∈ events →
      ∃ k p, (v.sockets k).stage = .broadcast .posting p message := by
  obtain ⟨events, hlog, hsends⟩ := hcalls.sends
  refine ⟨events, hlog, fun q m hm => ?_⟩
  cases hsends with
  | nothing h => exact absurd hm (h q m)
  | @broadcast k purpose p message qs hk hqs =>
      have hm : q ∈ qs ∧ message = m := by simpa using hm
      obtain ⟨r, hr⟩ := hstaying k rfl
      rw [hk] at hr
      obtain ⟨-, rfl⟩ := hm
      cases purpose with
      | joining => cases hr
      | posting => exact ⟨k, p, hk⟩
      | leaving => cases hr
  | @info k p info hk =>
      obtain ⟨r, hr⟩ := hstaying k rfl
      rw [hk] at hr
      cases hr

theorem handles_sent (hs : (system fw config).Reachable s) {k : SocketRef} {a : Act}
    (hhandles : Handles s k a) (hstep : s.step fw config a = some s') :
    ∃ events, s'.chat.log = events ++ s.chat.log ∧
      ∀ q message, .sent q message ∈ events → message.val.code ∈ relayed := by
  rcases step_calls hstep with ⟨b, hb, hcall⟩ | ⟨_, _, _, _, _, rfl, -⟩
  · obtain ⟨events, hlog, hsent⟩ := calls_sent hb fun j hj => by
      rw [(hcall.run j).mp hj] at hhandles
      obtain ⟨rfl, hstaying⟩ := hhandles
      exact hstaying
    refine ⟨events, hlog, fun q message hmem => ?_⟩
    obtain ⟨j, p, hj⟩ := hsent q message hmem
    exact (written_of_broadcast hs hj).relayed rfl
  · exact hhandles.elim

/-! ### What a message is made from -/

/-- A call that records or broadcasts a message is the next one of the handler
that has it in hand. -/
theorem calls_published {v v' : Scene} {a : Chat.Act} (hcalls : Calls config v a v') :
    ∃ events, v'.log = events ++ v.log ∧ ∀ ρ message,
      .recorded ρ message ∈ events ∨ .broadcast ρ message ∈ events →
        ∃ k purpose p, a = .run k ∧ ((v.sockets k).stage = .record purpose p message.val ∨
          (v.sockets k).stage = .broadcast purpose p message) := by
  cases hcalls with
  | @record k purpose p dto hk =>
      refine ⟨_, rfl, fun ρ message hmem => ?_⟩
      obtain ⟨-, rfl⟩ : v.directory.peerRoom p = ρ ∧ ⟨v.directory.objectCount, dto⟩ = message := by
        simpa [eq_comm] using hmem
      exact ⟨k, purpose, p, rfl, .inl hk⟩
  | @broadcast k purpose p message qs hk =>
      refine ⟨_, rfl, fun ρ message' hmem => ?_⟩
      obtain ⟨-, rfl⟩ : v.directory.peerRoom p = ρ ∧ message = message' := by
        simpa [eq_comm] using hmem
      exact ⟨k, purpose, p, rfl, .inr hk⟩
  | connect | other => exact ⟨[], rfl, by simp⟩
  | _ => exact ⟨_, rfl, by simp⟩

/-- A step that records or broadcasts a client's message is one of the handler
of a socket, and the message is made from the last one that arrived there. -/
theorem published_latest (hs : (system fw config).Reachable s) {a : Act}
    (hstep : s.step fw config a = some s') :
    ∃ events, s'.chat.log = events ++ s.chat.log ∧ ∀ ρ message,
      .recorded ρ message ∈ events ∨ .broadcast ρ message ∈ events →
        message.val.code ∈ relayed → ∃ k arrival, a = .chat (.run k) ∧
          latest s.arrivals k = some arrival ∧ s.listener k = some arrival.peer ∧
            MadeFrom s.chat.scene arrival message.val := by
  rcases step_calls hstep with ⟨b, hb, hcall⟩ | ⟨_, _, σ, subscriber, dto, -, -, -, hscene⟩
  · obtain ⟨events, hlog, hpublished⟩ := calls_published hb
    refine ⟨events, hlog, fun ρ message hmem hcode => ?_⟩
    obtain ⟨k, purpose, p, rfl, hk⟩ := hpublished ρ message hmem
    have hwritten : Written s.arrivals s.chat.scene k purpose p message.val :=
      hk.elim (written_of_record hs) (written_of_broadcast hs)
    have hposting : purpose = .posting := by
      by_contra hne
      exact hwritten.notice hne hcode
    subst hposting
    obtain ⟨arrival, harrival, rfl, hmade⟩ := hwritten.posted rfl
    have hphase : (s.chat.scene.sockets k).stage.phase = some (.staying, arrival.peer) := by
      rcases hk with hk | hk <;> exact congrArg Stage.phase hk
    exact ⟨k, arrival, (hcall.run k).mp rfl, harrival, (listening hs).phase hphase, hmade⟩
  · let asked : Event := .sent (s.server.files subscriber.file).host
      ⟨s.chat.scene.directory.objectCount, dto⟩
    have hlog : s'.chat.log = [asked] ++ s.chat.log := congrArg (fun v => v.log) hscene
    exact ⟨[asked], hlog, by simp [asked]⟩

/-! ### No forgery -/

theorem recorded_of_history (hs : (system fw config).Reachable s) {ρ : RoomRef}
    {message : Object MessageDto} (h : message ∈ (s.server.rooms ρ).history) :
    .recorded ρ message ∈ s.chat.log := by
  have hhistory : (s.server.rooms ρ).history = Chat.historyAfter config ρ s.chat.log :=
    (accounted hs).history ρ
  rw [hhistory, Chat.historyAfter, List.mem_reverse] at h
  exact Chat.mem_recordedIn.mp (List.mem_of_mem_take h)

/-- **Authorship cannot be forged.**  Every message in the history of a room, or
broadcast to its members, is authentic: it is a notice about a peer of the room,
or made from a message that arrived, under the id and nickname of the peer that
listens to the connection it arrived on.  It is made from no other than the last
message that arrived there when it is recorded, and when it is broadcast.  No
notice of typing is in a history, and while a client's message is handled
nothing but clients' messages is sent. -/
theorem authorship (hs : (system fw config).Reachable s) :
    (∀ ρ message, message ∈ (s.server.rooms ρ).history ∨ .broadcast ρ message ∈ s.chat.log →
      Authentic s.arrivals s.chat.scene ρ message.val) ∧
    (∀ arrival ∈ s.arrivals, s.listener arrival.socket = some arrival.peer ∧
      (s.server.peers arrival.peer).nickname = (s.chat.sockets arrival.socket).nickname) ∧
    (∀ a s', s.step fw config a = some s' →
      ∃ events, s'.chat.log = events ++ s.chat.log ∧ ∀ ρ message,
        .recorded ρ message ∈ events ∨ .broadcast ρ message ∈ events →
          message.val.code ∈ relayed → ∃ k arrival, a = .chat (.run k) ∧
            latest s.arrivals k = some arrival ∧ s.listener k = some arrival.peer ∧
              MadeFrom s.chat.scene arrival message.val) ∧
    (∀ ρ, ∀ message ∈ (s.server.rooms ρ).history, message.val.code ≠ some .codePeerIsTyping) ∧
    ∀ k a s', Handles s k a → s.step fw config a = some s' →
      ∃ events, s'.chat.log = events ++ s.chat.log ∧
        ∀ q message, .sent q message ∈ events → message.val.code ∈ relayed := by
  have hauthentic := allAuthentic hs
  refine ⟨?_, ?_, fun a s' hstep => published_latest hs hstep, ?_,
    fun k a s' hhandles hstep => handles_sent hs hhandles hstep⟩
  · rintro ρ message (hmem | hmem)
    · exact (hauthentic.event _ (recorded_of_history hs hmem)).1
    · exact hauthentic.event _ hmem
  · intro arrival hmem
    have hlistener := arrival_listener hs hmem
    exact ⟨hlistener, ((listening hs).named _ _ hlistener).2⟩
  · intro ρ message hmem
    exact (hauthentic.event _ (recorded_of_history hs hmem)).2

/-- Ann says she is Bob. -/
def impersonate : List Act :=
  .chat (.connect 0 "lounge" "Ann") :: List.replicate 8 (.chat (.run 0)) ++
    [.chat (.receive 0
      { code := some .codePeerMessage, peerId := some 2, peerName := some "Bob",
        message := some "hi" }),
      .chat (.run 0), .chat (.run 0)]

theorem authorship_impersonate : ∃ (s : State) (message : Object MessageDto),
    (system Chat.silent {}).run {} impersonate = some s ∧ message.val.message = some "hi" ∧
      message.val.peerId = some 1 ∧ message.val.peerName = some "Ann" ∧
        .broadcast 0 message ∈ s.chat.log ∧
          Authentic s.arrivals s.chat.scene 0 message.val := by
  obtain ⟨s, message, hrun, htext, hid, hname, hlog⟩ : ∃ (s : State) (message : Object MessageDto),
      (system Chat.silent {}).run {} impersonate = some s ∧ message.val.message = some "hi" ∧
        message.val.peerId = some 1 ∧ message.val.peerName = some "Ann" ∧
          s.chat.log[0]? = some (.broadcast 0 message) := ⟨_, _, rfl, rfl, rfl, rfl, rfl⟩
  have hs : (system Chat.silent {}).Reachable s := .run (.init ⟨_, rfl⟩) hrun
  have hbroadcast := List.mem_of_getElem? hlog
  exact ⟨s, message, hrun, htext, hid, hname, hbroadcast,
    (authorship hs).1 0 message (.inr hbroadcast)⟩

end Traffic

end CanChat
