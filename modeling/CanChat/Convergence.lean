/-
CanChat/Convergence.lean

Whether the pages of a room list its members once nothing is going on.

A newcomer is told who is there by its `CODE_INFO`, which is made of two
snapshots, the members and the history, and sent a step later.  What is
broadcast in between reaches it too early: a notice that somebody has left is
overwritten by the older snapshots, and nobody repeats it.  And whoever is
announced before the newcomer is in the room, and becomes a member after the
newcomer has read the members, is known from the history alone, which may be
disabled or too short.  `Covers` is the condition that a `CODE_INFO` makes up
for what its peer has missed.
-/
import CanChat.Greeting
import CanChat.ParticipantList

namespace CanChat

namespace Traffic

open Chat Participants EventLog

/-! ### What has been said -/

/-- The messages that have been broadcast. -/
def broadcasts (log : List Event) : List MessageDto :=
  log.filterMap fun
    | .broadcast _ message => some message.val
    | _ => none

/-- The messages that `p` has been sent, as its page gets them. -/
def messagesTo (p : PeerRef) (log : List Event) : List MessageDto := (sentTo p log).map Object.val

/-- Whether the page of `p` lists an id after these messages. -/
def listed (p : PeerRef) (id : Option Int) (log : List Event) : Bool :=
  (messagesTo p log).foldl (hear id) false

theorem mem_broadcasts {message : MessageDto} {log : List Event} :
    message ∈ broadcasts log ↔ ∃ ρ ptr, .broadcast ρ ⟨ptr, message⟩ ∈ log := by
  rw [broadcasts, List.mem_filterMap]
  constructor
  · rintro ⟨event, hmem, heq⟩
    cases event with
    | broadcast ρ object =>
        obtain rfl := Option.some.inj heq
        exact ⟨ρ, object.ptr, hmem⟩
    | _ => cases heq
  · rintro ⟨ρ, ptr, hmem⟩
    exact ⟨_, hmem, rfl⟩

theorem mem_messagesTo {p : PeerRef} {message : MessageDto} {log : List Event} :
    message ∈ messagesTo p log ↔ ∃ ptr, .sent p ⟨ptr, message⟩ ∈ log := by
  rw [messagesTo, List.mem_map]
  constructor
  · rintro ⟨object, hmem, rfl⟩
    exact ⟨object.ptr, mem_sentTo.mp hmem⟩
  · rintro ⟨ptr, hmem⟩
    exact ⟨_, mem_sentTo.mpr hmem, rfl⟩

theorem broadcasts_append (events log : List Event) :
    broadcasts (events ++ log) = broadcasts events ++ broadcasts log := List.filterMap_append

theorem messagesTo_append (p : PeerRef) (events log : List Event) :
    messagesTo p (events ++ log) = messagesTo p log ++ messagesTo p events := by
  rw [messagesTo, sentTo_append, List.map_append]
  rfl

theorem listed_append (p : PeerRef) (id : Option Int) (events log : List Event) :
    listed p id (events ++ log) = (messagesTo p events).foldl (hear id) (listed p id log) := by
  rw [listed, messagesTo_append, List.foldl_append]
  rfl

theorem mentions_broadcasts_mono {code : MessageCodes} {id : Option Int} {log log' : List Event}
    (hlog : log ⊆ log') (h : mentions code id (broadcasts log) = true) :
    mentions code id (broadcasts log') = true := by
  refine mentions_mono h fun message hmem => ?_
  obtain ⟨ρ, ptr, hmem⟩ := mem_broadcasts.mp hmem
  exact mem_broadcasts.mpr ⟨ρ, ptr, hlog hmem⟩

/-- What a broadcast sends to one peer. -/
theorem messagesTo_broadcast {ρ : RoomRef} {message : Object MessageDto} {qs : List PeerRef}
    (hnodup : qs.Nodup) (p : PeerRef) :
    messagesTo p (.broadcast ρ message :: qs.map fun q => .sent q message) =
      if p ∈ qs then [message.val] else [] := by
  rw [messagesTo, sentTo_broadcast hnodup]
  split
  · rfl
  · rfl

/-! ### The condition -/

/-- A `CODE_INFO` for `p` says about `x` what `p` may have missed: that it has
joined, or that it has left. -/
def Covered (v : Scene) (p : PeerRef) (info : MessageDto) (x : PeerRef) : Prop :=
  (mentions .codePeerJoined (some (v.directory.peerId x)) (broadcasts v.log) = true →
    .removed x ∉ v.log →
      introduced (some (v.directory.peerId x)) info = true ∨
        mentions .codePeerJoined (some (v.directory.peerId x)) (replayed info) = true ∨
        mentions .codePeerJoined (some (v.directory.peerId x)) (messagesTo p v.log) = true) ∧
  (mentions .codePeerLeft (some (v.directory.peerId x)) (broadcasts v.log) = true →
    mentions .codePeerLeft (some (v.directory.peerId x)) (replayed info) = true ∨
      introduced (some (v.directory.peerId x)) info = false ∧
        mentions .codePeerJoined (some (v.directory.peerId x)) (replayed info) = false)

/-- A `CODE_INFO` that is about to be sent covers the peers of the room. -/
def Covers (v : Scene) (k : SocketRef) : Prop :=
  match (v.sockets k).stage with
  | .sendInfo p info => ∀ x < v.directory.peerCount,
      v.directory.peerRoom x = v.directory.peerRoom p → Covered v p info.val x
  | _ => True

/-! ### What is said, and by whom -/

/-- The list of a `CODE_INFO` has peers of the room, by their names. -/
def Lists (v : Scene) (ρ : RoomRef) (peers : Option (List (Option PeerDto))) : Prop :=
  ∃ entries, peers = some entries ∧ ∀ entry ∈ entries, ∃ q < v.directory.peerCount,
    v.directory.peerRoom q = ρ ∧
      entry = some { peerId := some (v.directory.peerId q), peerName := some (v.nickname q) }

/-- `info` has the name of `p` and a list of members of its room. -/
def Introduces (v : Scene) (p : PeerRef) (info : MessageDto) : Prop :=
  info.peerName = some (v.nickname p) ∧ Lists v (v.directory.peerRoom p) info.peers

/-- The files of a message are there. -/
def Files (message : MessageDto) : Prop :=
  message.code = some .codePeerMessageFile → ∃ files, message.files = some files ∧ none ∉ files

/-- What handlers say on behalf of their peer. -/
def Says (v : Scene) (p : PeerRef) (message : MessageDto) : Purpose → Prop
  | .joining => message = joinedMessage p v
  | .posting => Files message
  | .leaving => message = leftMessage p v

def StageWorded (v : Scene) : Stage → Prop
  | .record purpose p dto => p < v.directory.peerCount ∧ Says v p dto purpose
  | .broadcast purpose p message => p < v.directory.peerCount ∧ Says v p message.val purpose
  | .shareFiles _ _ _ shared => none ∉ shared
  | .addPeer p => p < v.directory.peerCount ∧
      mentions .codePeerJoined (some (v.directory.peerId p)) (broadcasts v.log) = true
  | .getHistory p peers => p < v.directory.peerCount ∧ Lists v (v.directory.peerRoom p) (some peers)
  | .sendInfo p info => p < v.directory.peerCount ∧ Introduces v p info.val
  | .invalidateSocket p | .isEmpty p | .deleteRoom p => p < v.directory.peerCount ∧
      mentions .codePeerLeft (some (v.directory.peerId p)) (broadcasts v.log) = true
  | _ => True

def EventWorded (v : Scene) : Event → Prop
  | .recorded _ message | .broadcast _ message => Files message.val
  | .added _ p => p < v.directory.peerCount ∧
      mentions .codePeerJoined (some (v.directory.peerId p)) (broadcasts v.log) = true
  | .sent p message => p < v.directory.peerCount ∧ (∃ ρ, .added ρ p ∈ v.log) ∧
      (message.val.code = some .codeInfo → Introduces v p message.val)
  | _ => True

/-- Every message in hand and every entry of the log says what its purpose allows. -/
def Worded (v : Scene) : Prop := v.Everywhere (fun _ => StageWorded v) (EventWorded v)

section Mono

variable {v v' : Scene}

/-- A list of members once there stays one. -/
theorem Lists.mono (hgrows : v.Grows v') {ρ : RoomRef} {peers : Option (List (Option PeerDto))}
    (h : Lists v ρ peers) : Lists v' ρ peers := by
  obtain ⟨entries, hpeers, hentries⟩ := h
  refine ⟨entries, hpeers, fun entry hmem => ?_⟩
  obtain ⟨q, hq, hroom, heq⟩ := hentries entry hmem
  refine ⟨q, hq.trans_le hgrows.peerCount, (hgrows.peerRoom q hq).trans hroom, ?_⟩
  rw [hgrows.peerId q hq, hgrows.nickname q hq, heq]

/-- What introduces a peer goes on introducing it. -/
theorem Introduces.mono (hgrows : v.Grows v') {p : PeerRef} {info : MessageDto}
    (hp : p < v.directory.peerCount) (h : Introduces v p info) : Introduces v' p info := by
  refine ⟨?_, ?_⟩
  · rw [hgrows.nickname p hp, h.1]
  · rw [hgrows.peerRoom p hp]
    exact h.2.mono hgrows

/-- What a message says about a peer stays true. -/
theorem Says.mono (hgrows : v.Grows v') {p : PeerRef} {message : MessageDto} {purpose : Purpose}
    (hp : p < v.directory.peerCount) (h : Says v p message purpose) :
    Says v' p message purpose := by
  have hmessage : joinedMessage p v' = joinedMessage p v ∧ leftMessage p v' = leftMessage p v := by
    simp only [joinedMessage, leftMessage, hgrows.peerId p hp, hgrows.nickname p hp, and_self]
  cases purpose with
  | joining => exact Eq.trans h hmessage.1.symm
  | posting => exact h
  | leaving => exact Eq.trans h hmessage.2.symm

theorem mentioned_mono (hgrows : v.Grows v') {code : MessageCodes} {p : PeerRef}
    (h : p < v.directory.peerCount ∧
      mentions code (some (v.directory.peerId p)) (broadcasts v.log) = true) :
    p < v'.directory.peerCount ∧
      mentions code (some (v'.directory.peerId p)) (broadcasts v'.log) = true := by
  refine ⟨h.1.trans_le hgrows.peerCount, ?_⟩
  rw [hgrows.peerId p h.1]
  exact mentions_broadcasts_mono hgrows.log.subset h.2

theorem StageWorded.mono (hgrows : v.Grows v') {stage : Stage} (h : StageWorded v stage) :
    StageWorded v' stage := by
  cases stage with
  | record purpose p dto => exact ⟨h.1.trans_le hgrows.peerCount, h.2.mono hgrows h.1⟩
  | broadcast purpose p message => exact ⟨h.1.trans_le hgrows.peerCount, h.2.mono hgrows h.1⟩
  | shareFiles p timestamp todo shared => exact h
  | addPeer p => exact mentioned_mono hgrows h
  | getHistory p peers =>
      refine ⟨h.1.trans_le hgrows.peerCount, ?_⟩
      rw [hgrows.peerRoom p h.1]
      exact h.2.mono hgrows
  | sendInfo p info => exact ⟨h.1.trans_le hgrows.peerCount, h.2.mono hgrows h.1⟩
  | invalidateSocket p => exact mentioned_mono hgrows h
  | isEmpty p => exact mentioned_mono hgrows h
  | deleteRoom p => exact mentioned_mono hgrows h
  | _ => trivial

theorem EventWorded.mono (hgrows : v.Grows v') {event : Event} (h : EventWorded v event) :
    EventWorded v' event := by
  cases event with
  | recorded ρ message => exact h
  | broadcast ρ message => exact h
  | added ρ p => exact mentioned_mono hgrows h
  | sent p message =>
      obtain ⟨hlt, ⟨ρ, hadded⟩, hinfo⟩ := h
      exact ⟨hlt.trans_le hgrows.peerCount, ⟨ρ, hgrows.log.subset hadded⟩,
        fun hcode => (hinfo hcode).mono hgrows hlt⟩
  | _ => trivial

end Mono

namespace Worded

variable {config : ConfigDto} {v v' : Scene} {a : Chat.Act}

theorem calls (h : Worded v) (hsound : Sound v.toView) (hexact : Exact v.toView)
    (hmessage : ∀ k purpose p m, (v.sockets k).stage = .broadcast purpose p m →
      m.val.code ≠ some .codeInfo)
    (hcalls : Calls config v a v') : Worded v' := by
  have hgrows := hcalls.grows
  have hP : ∀ (k : SocketRef) stage, StageWorded v stage → StageWorded v' stage :=
    fun _ _ hk => hk.mono hgrows
  have hE : ∀ event, EventWorded v event → EventWorded v' event := fun _ he => he.mono hgrows
  -- a message in hand that announces files lists no null entry
  have hfiles : ∀ {p message purpose}, Says v p message purpose → Files message := by
    intro p message purpose hwords
    cases purpose with
    | joining =>
        intro hcode
        rw [show message = joinedMessage p v from hwords] at hcode
        cases hcode
    | posting => exact hwords
    | leaving =>
        intro hcode
        rw [show message = leftMessage p v from hwords] at hcode
        cases hcode
  cases hcalls with
  | connect hk => exact h.update hP hE rfl (List.nil_append _).symm trivial (by simp)
  | enter hk hρ => exact h.update hP hE rfl rfl trivial (by simp)
  | createRoom hk hnone => exact h.update hP hE rfl rfl trivial (by simp)
  | @createPeer k ρ dto hk hdto =>
      refine h.update hP hE rfl rfl ⟨Nat.lt_succ_self _, ?_⟩ (by simp)
      subst hdto
      simp [Says, joinedMessage]
  -- recording keeps the text of the message for the broadcast that follows
  | @record k purpose p dto hk =>
      have hworded : StageWorded v (.record purpose p dto) := hk ▸ h.stage k
      refine h.update hP hE rfl rfl ?_ fun event he => ?_
      · exact ⟨hworded.1, hworded.2.mono hgrows hworded.1⟩
      · obtain rfl := List.mem_singleton.mp he
        exact hfiles hworded.2
  | @broadcast k purpose p message qs hk hqs =>
      have hworded : StageWorded v (.broadcast purpose p message) := hk ▸ h.stage k
      refine h.update hP hE rfl rfl ?_ fun event he => ?_
      -- the message is among the broadcasts from this step on
      · have hmem : message.val ∈ broadcasts (.broadcast (v.directory.peerRoom p) message ::
            (qs.map fun q => .sent q message) ++ v.log) :=
          mem_broadcasts.mpr ⟨_, message.ptr, List.mem_cons_self⟩
        cases purpose with
        | joining =>
            refine ⟨hworded.1, mentions_iff.mpr ⟨message.val, hmem, ?_⟩⟩
            rw [show message.val = joinedMessage p v from hworded.2]
            exact ⟨rfl, rfl⟩
        | posting => trivial
        | leaving =>
            refine ⟨hworded.1, mentions_iff.mpr ⟨message.val, hmem, ?_⟩⟩
            rw [show message.val = leftMessage p v from hworded.2]
            exact ⟨rfl, rfl⟩
      -- the step logs the broadcast, and one `sent` for each member
      · rcases List.mem_cons.mp he with rfl | he
        · exact hfiles hworded.2
        · obtain ⟨q, hq, rfl⟩ := List.mem_map.mp he
          obtain ⟨id, hmember⟩ := (hqs q).mp hq
          have hadded := (hexact.member _ id q hmember).2.1
          exact ⟨(hsound.added _ q hadded).1, ⟨_, hgrows.log.subset hadded⟩,
            fun hcode => absurd hcode (hmessage k purpose p message hk)⟩
  -- a member has been announced before
  | @addPeer k p hk =>
      have hworded : StageWorded v (.addPeer p) := hk ▸ h.stage k
      refine h.update hP hE rfl rfl trivial fun event he => ?_
      obtain rfl := List.mem_singleton.mp he
      exact mentioned_mono hgrows hworded
  -- the peers that `onboardPeer` lists are peers of the room under their names
  | @onboardPeer k p peers hk hpeers =>
      have hlt := (hsound.phase k .onboarding p (congrArg Stage.phase hk)).1
      refine h.update hP hE rfl rfl ⟨hlt, peers, rfl, fun entry hmem => ?_⟩ (by simp)
      obtain ⟨id, q, hmember, heq⟩ := (hpeers entry).mp hmem
      obtain ⟨hqlt, hroom, -⟩ := hsound.added _ q (hexact.member _ id q hmember).2.1
      exact ⟨q, hqlt, hroom, heq⟩
  | @getHistory k p peers info hk hinfo =>
      have hworded : StageWorded v (.getHistory p peers) := hk ▸ h.stage k
      subst hinfo
      exact h.update hP hE rfl rfl ⟨hworded.1, rfl, hworded.2⟩ (by simp [EventWorded])
  -- the recipient of a `CODE_INFO` has been added to its room
  | @sendInfo k p info hk =>
      have hworded : StageWorded v (.sendInfo p info) := hk ▸ h.stage k
      obtain ⟨hlt, -, -, hadded⟩ := hsound.phase k .onboarding p (congrArg Stage.phase hk)
      refine h.update hP hE rfl rfl trivial fun event he => ?_
      rcases List.mem_cons.mp he with rfl | he
      · trivial
      · obtain rfl := List.mem_singleton.mp he
        exact ⟨hlt, ⟨_, hgrows.log.subset (hadded rfl)⟩, fun _ => hworded.2⟩
  -- a post is not a file announcement
  | @post k p message hk hcode =>
      have hlt := (hsound.phase k .staying p (congrArg Stage.phase hk)).1
      refine h.update hP hE rfl rfl ⟨hlt, fun hfile => ?_⟩ (by simp)
      cases hcode.symm.trans hfile
  | @typing k p message hk hcode =>
      have hlt := (hsound.phase k .staying p (congrArg Stage.phase hk)).1
      refine h.update hP hE rfl rfl ⟨hlt, fun hfile => ?_⟩ (by simp)
      cases hcode.symm.trans hfile
  | share hk hcode hfiles hd => exact h.update hP hE rfl rfl List.not_mem_nil (by simp)
  | answer _ hk hd => exact h.update hP hE rfl rfl trivial (by simp)
  -- a registered entry is not null, and neither are those before it
  | @shareFile k p timestamp currFile todo shared sharedFile d n hk hd hfile =>
      have hworded : StageWorded v (.shareFiles p timestamp (currFile :: todo) shared) :=
        hk ▸ h.stage k
      refine h.update hP hE rfl rfl (fun hmem => ?_) (by simp)
      rcases List.mem_append.mp hmem with hmem | hmem
      · exact hworded hmem
      · exact hfile.ne_none (List.mem_singleton.mp hmem).symm
  | @shared k p timestamp shared hk =>
      have hworded : StageWorded v (.shareFiles p timestamp [] shared) := hk ▸ h.stage k
      have hlt := (hsound.phase k .staying p (congrArg Stage.phase hk)).1
      exact h.update hP hE rfl rfl ⟨hlt, fun _ => ⟨shared, rfl, hworded⟩⟩ (by simp)
  | close _ hk hd => exact h.update hP hE rfl rfl trivial (by simp)
  -- the leave notice is built from the fields of the peer
  | @removePeerById k p dto hk hdto =>
      have hlt := (hsound.phase k .leaving p (congrArg Stage.phase hk)).1
      exact h.update hP hE rfl rfl ⟨hlt, hdto⟩ (by simp [EventWorded])
  | @invalidateSocket k p hk =>
      have hworded : StageWorded v (.invalidateSocket p) := hk ▸ h.stage k
      exact h.update hP hE rfl rfl (mentioned_mono hgrows hworded) (by simp)
  | @isEmpty k p stage hk hstage =>
      have hworded : StageWorded v (.isEmpty p) := hk ▸ h.stage k
      refine h.update hP hE rfl rfl ?_ (by simp)
      rcases hstage with rfl | rfl
      · exact mentioned_mono hgrows hworded
      · trivial
  | deleteRoom hk => exact h.update hP hE rfl rfl trivial (by simp)
  | other _ => exact ⟨fun k => hP k _ (h.stage k), fun event he => hE event (h.event event he)⟩

end Worded

variable {fw : Framework} {config : ConfigDto} {s : State}

/-- Every reachable state has its messages worded. -/
theorem worded (hs : (system fw config).Reachable s) : Worded s.chat.scene := by
  refine scene_invariant_all (I := Worded) (fun clock => ?_)
    (fun s b v hs h hb => h.calls (sound hs) (exact hs) (broadcast_code hs) hb)
    (fun s σ subscriber dto hs h hsub hcode => ?_) hs
  · exact ⟨fun _ => trivial, by simp [Chat.State.scene, Chat.State.view]⟩
  · have hgrows := request_grows (s.server.files subscriber.file).host dto s.chat.scene
    refine ⟨fun k => (h.stage k).mono hgrows, fun event he => ?_⟩
    rcases List.mem_cons.mp he with rfl | he
    · -- the host has been sent its `CODE_INFO`
      obtain ⟨info, hinfo, -⟩ := host_informed hs hsub
      obtain ⟨hlt, ⟨ρ, hadded⟩, -⟩ : EventWorded s.chat.scene (.sent _ info) := h.event _ hinfo
      refine ⟨hlt, ⟨ρ, hgrows.log.subset hadded⟩, fun hinfo => ?_⟩
      cases hcode.symm.trans hinfo
    · exact (h.event event he).mono hgrows

/-! ### Notices -/

section Notices

variable {arrivals : List Arrival} {v : Scene} {p : PeerRef} {message : MessageDto}
    {purpose : Purpose}

/-- Notices are made by those they are about. -/
theorem says_joined (hwords : Says v p message purpose)
    (hposting : purpose = .posting → message.code ∈ relayed)
    (hcode : message.code = some .codePeerJoined) :
    purpose = .joining ∧ message = joinedMessage p v := by
  cases purpose with
  | joining => exact ⟨rfl, hwords⟩
  | posting =>
      have hrelayed := hposting rfl
      rw [hcode] at hrelayed
      simp [relayed] at hrelayed
  | leaving =>
      rw [show message = leftMessage p v from hwords] at hcode
      cases hcode

theorem says_left (hwords : Says v p message purpose)
    (hposting : purpose = .posting → message.code ∈ relayed)
    (hcode : message.code = some .codePeerLeft) :
    purpose = .leaving ∧ message = leftMessage p v := by
  cases purpose with
  | joining =>
      rw [show message = joinedMessage p v from hwords] at hcode
      cases hcode
  | posting =>
      have hrelayed := hposting rfl
      rw [hcode] at hrelayed
      simp [relayed] at hrelayed
  | leaving => exact ⟨rfl, hwords⟩

theorem Authentic.joined {ρ : RoomRef} (h : Authentic arrivals v ρ message)
    (hcode : message.code = some .codePeerJoined) :
    ∃ x < v.directory.peerCount, v.directory.peerRoom x = ρ ∧ message = joinedMessage x v := by
  unfold Authentic at h
  rwa [hcode] at h

theorem Authentic.left {ρ : RoomRef} (h : Authentic arrivals v ρ message)
    (hcode : message.code = some .codePeerLeft) :
    ∃ x < v.directory.peerCount, .removed x ∈ v.log ∧ v.directory.peerRoom x = ρ ∧
      message = leftMessage x v := by
  unfold Authentic at h
  rwa [hcode] at h

theorem AllAuthentic.joined (h : AllAuthentic arrivals v) {id : Option Int}
    (hid : mentions .codePeerJoined id (broadcasts v.log) = true) :
    ∃ x < v.directory.peerCount, id = some (v.directory.peerId x) := by
  obtain ⟨message, hmem, hcode, rfl⟩ := mentions_iff.mp hid
  obtain ⟨ρ, ptr, hmem⟩ := mem_broadcasts.mp hmem
  obtain ⟨x, hx, -, rfl⟩ := Authentic.joined (h.event _ hmem) hcode
  exact ⟨x, hx, rfl⟩

theorem AllAuthentic.left (h : AllAuthentic arrivals v) {id : Option Int}
    (hid : mentions .codePeerLeft id (broadcasts v.log) = true) :
    ∃ x < v.directory.peerCount, id = some (v.directory.peerId x) ∧ .removed x ∈ v.log := by
  obtain ⟨message, hmem, hcode, rfl⟩ := mentions_iff.mp hid
  obtain ⟨ρ, ptr, hmem⟩ := mem_broadcasts.mp hmem
  obtain ⟨x, hx, hremoved, -, rfl⟩ := Authentic.left (h.event _ hmem) hcode
  exact ⟨x, hx, rfl, hremoved⟩

end Notices

/-- No peer is recorded as joining after it was recorded as having left. -/
def Ordered : Event → List Event → Prop
  | .recorded _ message, past => ∀ ρ m, .recorded ρ m ∈ past → InOrder m.val message.val
  | _, _ => True

/-- In every room a departure is recorded after the arrival. -/
theorem ordered (hs : (system fw config).Reachable s) : Justified Ordered s.chat.log := by
  refine scene_invariant_all (I := fun v => Justified Ordered v.log) (fun clock => justified_nil)
    (fun s b v hs h hb => ?_) (fun s σ subscriber dto hs h hsub _ => h.cons trivial) hs
  cases hb with
  | @record k purpose p dto hk =>
      refine h.cons fun ρ m hm hleft hjoined hid => ?_
      have hworded : StageWorded s.chat.scene (.record purpose p dto) := hk ▸ (worded hs).stage k
      obtain ⟨rfl, rfl⟩ := says_joined hworded.2 (written_of_record hs hk).relayed hjoined
      have hauthentic : Authentic s.arrivals s.chat.scene ρ m.val :=
        ((allAuthentic hs).event _ hm).1
      obtain ⟨x, hx, hremoved, -, heq⟩ := hauthentic.left hleft
      -- who joins has not been removed
      have hnot := ((sound hs).phase k .arriving p (congrArg Stage.phase hk)).2.2.1 (by simp)
      rw [heq] at hid
      obtain rfl := (sound hs).peerId_inj p hworded.1 x hx (Option.some.inj hid)
      exact hnot hremoved
  | connect | other => exact h
  | broadcast => exact h.append (by simp [Ordered])
  | _ => exact h.append (by simp [Ordered])

theorem pairwise_recordedIn {log : List Event} (h : Justified Ordered log) (ρ : RoomRef) :
    (recordedIn ρ log).Pairwise fun later earlier => InOrder earlier.val later.val := by
  induction log with
  | nil => exact List.Pairwise.nil
  | cons event log ih =>
      have ih := ih (h.of_past List.suffix_rfl)
      unfold recordedIn
      rw [List.filterMap_cons]
      split
      · exact ih
      · next message heq =>
        refine List.pairwise_cons.mpr ⟨fun earlier hmem => ?_, ih⟩
        obtain rfl : event = .recorded ρ message := by
          cases event with
          | recorded ρ' m =>
              simp only [Event.recordedIn?, Option.ite_none_right_eq_some, Option.some.injEq] at heq
              rw [heq.1, heq.2]
          | _ => cases heq
        exact h _ log List.suffix_rfl ρ earlier (mem_recordedIn.mp hmem)

/-- The history that a newcomer is given. -/
theorem snapshot_orderly (hs : (system fw config).Reachable s) {ρ : RoomRef} {p : PeerRef}
    {entries : List (Option (Object MessageDto))}
    (h : .snapshot ρ p (some entries) ∈ s.chat.log) :
    ∃ objects : List (Object MessageDto), entries = objects.map some ∧
      (∀ object ∈ objects, .recorded ρ object ∈ s.chat.log) ∧
        (objects.map Object.val).Pairwise InOrder := by
  obtain ⟨past, hpast⟩ := exists_past h
  have hexplains : Explains config (.snapshot ρ p (some entries)) past :=
    (accounted hs).justified _ past hpast
  have hlog : ∀ e ∈ past, e ∈ s.chat.log := fun e he => mem_of_past hpast he
  have hordered : Justified Ordered past := (ordered hs).of_past hpast
  have hhistory := hexplains.2
  split at hhistory
  · cases hhistory
  · refine ⟨historyAfter config ρ past, Option.some.inj hhistory, fun object hmem => ?_, ?_⟩
    · rw [historyAfter, List.mem_reverse] at hmem
      exact hlog _ (mem_recordedIn.mp (List.mem_of_mem_take hmem))
    · rw [historyAfter, List.pairwise_map, List.pairwise_reverse]
      exact (pairwise_recordedIn hordered ρ).take

/-! ### Where a peer is -/

/-- Whoever has been created is with a socket, or has been announced to have left. -/
def Placed (v : Scene) : Prop :=
  ∀ x < v.directory.peerCount, (∃ k φ, (v.sockets k).stage.phase = some (φ, x)) ∨
    mentions .codePeerLeft (some (v.directory.peerId x)) (broadcasts v.log) = true

namespace Placed

variable {v v' : Scene} {k : SocketRef}

theorem advance (h : Placed v) (hgrows : v.Grows v') {c : Connection}
    (hsockets : v'.sockets = Function.update v.sockets k c)
    (hnew : ∀ x < v'.directory.peerCount, x < v.directory.peerCount ∨
      ∃ φ, c.stage.phase = some (φ, x))
    (hphase : ∀ φ x, (v.sockets k).stage.phase = some (φ, x) → (∃ ψ, c.stage.phase = some (ψ, x)) ∨
      mentions .codePeerLeft (some (v.directory.peerId x)) (broadcasts v.log) = true) :
    Placed v' := by
  have hself : v'.sockets k = c := by rw [hsockets, Function.update_self]
  intro x hx
  rcases hnew x hx with hlt | ⟨φ, hφ⟩
  · have hleft : mentions .codePeerLeft (some (v.directory.peerId x)) (broadcasts v.log) = true →
        mentions .codePeerLeft (some (v'.directory.peerId x)) (broadcasts v'.log) = true := by
      intro hleft
      rw [hgrows.peerId x hlt]
      exact mentions_broadcasts_mono hgrows.log.subset hleft
    rcases h x hlt with ⟨j, φ, hj⟩ | hgone
    · rcases eq_or_ne j k with rfl | hne
      · refine (hphase φ x hj).imp (fun ⟨ψ, hψ⟩ => ⟨j, ψ, ?_⟩) hleft
        rw [hself, hψ]
      · refine .inl ⟨j, φ, ?_⟩
        rw [hsockets, Function.update_of_ne hne]
        exact hj
    · exact .inr (hleft hgone)
  · exact .inl ⟨k, φ, by rw [hself, hφ]⟩

/-- A handler goes on with its peer. -/
theorem keep (h : Placed v) (hgrows : v.Grows v') {c : Connection} {φ ψ : Phase} {p : PeerRef}
    (hsockets : v'.sockets = Function.update v.sockets k c)
    (hcount : v'.directory.peerCount = v.directory.peerCount)
    (hk : (v.sockets k).stage.phase = some (φ, p)) (hc : c.stage.phase = some (ψ, p)) :
    Placed v' := by
  refine h.advance hgrows hsockets (fun x hx => .inl (hcount ▸ hx)) fun φ x hx => .inl ⟨ψ, ?_⟩
  rw [hk] at hx
  obtain ⟨-, rfl⟩ := Prod.mk.inj (Option.some.inj hx)
  exact hc

/-- A handler that has announced its peer's leave is done. -/
theorem finish (h : Placed v) (hgrows : v.Grows v') {c : Connection} {φ : Phase} {p : PeerRef}
    (hsockets : v'.sockets = Function.update v.sockets k c)
    (hcount : v'.directory.peerCount = v.directory.peerCount)
    (hk : (v.sockets k).stage.phase = some (φ, p))
    (hleft : mentions .codePeerLeft (some (v.directory.peerId p)) (broadcasts v.log) = true) :
    Placed v' := by
  refine h.advance hgrows hsockets (fun x hx => .inl (hcount ▸ hx)) fun φ x hx => .inr ?_
  rw [hk] at hx
  obtain ⟨-, rfl⟩ := Prod.mk.inj (Option.some.inj hx)
  exact hleft

theorem calls {config : ConfigDto} {a : Chat.Act} (h : Placed v) (hworded : Worded v)
    (hcalls : Calls config v a v') : Placed v' := by
  have hgrows := hcalls.grows
  cases hcalls with
  | connect hk | enter hk | createRoom hk =>
      exact h.advance hgrows rfl (fun _ hx => .inl hx) (by simp [hk, Stage.phase])
  | createPeer hk hdto =>
      refine h.advance hgrows rfl (fun x hx => ?_) (by simp [hk, Stage.phase])
      refine (Nat.lt_succ_iff_lt_or_eq.mp hx).imp_right ?_
      rintro rfl
      exact ⟨_, rfl⟩
  | @record k purpose p dto hk =>
      cases purpose <;>
        exact h.keep hgrows rfl rfl (congrArg Stage.phase hk) rfl
  | @broadcast k purpose p message qs hk =>
      cases purpose <;> exact h.keep hgrows rfl rfl (congrArg Stage.phase hk) rfl
  | addPeer hk | onboardPeer hk | getHistory hk | sendInfo hk | post hk | typing hk | shared hk
  | removePeerById hk | invalidateSocket hk =>
      exact h.keep hgrows rfl rfl (congrArg Stage.phase hk) rfl
  | share hk _ _ hd | answer _ hk hd | shareFile hk hd =>
      obtain ⟨_, -, rfl⟩ := hd
      exact h.keep hgrows rfl rfl (congrArg Stage.phase hk) rfl
  | close _ hk hd =>
      obtain ⟨_, -, rfl⟩ := hd
      exact h.keep hgrows rfl rfl hk rfl
  | @isEmpty k p stage hk hstage =>
      have hleft : StageWorded v (.isEmpty p) := hk ▸ hworded.stage k
      exact h.finish hgrows rfl rfl (congrArg Stage.phase hk) hleft.2
  | @deleteRoom k p hk =>
      have hleft : StageWorded v (.deleteRoom p) := hk ▸ hworded.stage k
      exact h.finish hgrows rfl rfl (congrArg Stage.phase hk) hleft.2
  | other _ => exact h

end Placed

/-- Every reachable state has its peers placed. -/
theorem placed (hs : (system fw config).Reachable s) : Placed s.chat.scene := by
  refine scene_invariant_all (I := Placed) (fun clock => ?_)
    (fun s b v hs h hb => h.calls (worded hs) hb) (fun s σ subscriber dto hs h hsub hcode => ?_) hs
  · exact fun x hx => absurd hx (Nat.not_lt_zero x)
  · intro x hx
    refine (h x hx).imp_right fun hleft => mentions_broadcasts_mono ?_ hleft
    exact List.subset_cons_self _ _

/-! ### What pages get -/

/-- The name that goes with an id. -/
def nick (v : Scene) (id : Option Int) : Option String :=
  ((List.range v.directory.peerCount).find? fun q => some (v.directory.peerId q) == id).map
    v.nickname

theorem nick_peerId {v : Scene} (hsound : Sound v.toView) {q : PeerRef}
    (hq : q < v.directory.peerCount) :
    nick v (some (v.directory.peerId q)) = some (v.nickname q) := by
  have hfind : (List.range v.directory.peerCount).find?
      (fun x => some (v.directory.peerId x) == some (v.directory.peerId q)) = some q := by
    rw [List.find?_eq_some_iff_getElem]
    refine ⟨by simp, q, by simpa using hq, by simp, fun j hj => ?_⟩
    have hlt : j < v.directory.peerCount := hj.trans hq
    simp only [List.getElem_range, Bool.not_eq_true', beq_eq_false_iff_ne]
    intro heq
    exact hj.ne (hsound.peerId_inj j hlt q hq (Option.some.inj heq))
  rw [nick, hfind]
  rfl

section Pages

variable {arrivals : List Arrival} {v : Scene} {ρ : RoomRef} {message : MessageDto}

/-- An authentic message names its sender as the directory does. -/
theorem Authentic.coherent (hsound : Sound v.toView) (h : Authentic arrivals v ρ message)
    (hfiles : Files message) : Coherent (nick v) message where
  joined hcode := by
    obtain ⟨x, hx, -, rfl⟩ := h.joined hcode
    exact (nick_peerId hsound hx).symm
  files := hfiles

theorem Authentic.code_ne (h : Authentic arrivals v ρ message) :
    message.code ≠ some .codeInfo := by
  intro hcode
  unfold Authentic at h
  rwa [hcode] at h

end Pages

/-- A history that a peer is given is as its page expects it. -/
theorem orderly (hs : (system fw config).Reachable s) {ρ : RoomRef} {p : PeerRef}
    {entries : List (Option (Object MessageDto))} (h : .snapshot ρ p (some entries) ∈ s.chat.log) :
    ∃ objects : List (Object MessageDto), entries = objects.map some ∧
      Orderly (nick s.chat.scene) (objects.map Object.val) := by
  obtain ⟨objects, heq, hrecorded, horder⟩ := snapshot_orderly hs h
  refine ⟨objects, heq, fun message hmem => ?_, horder⟩
  obtain ⟨object, hobject, rfl⟩ := List.mem_map.mp hmem
  have hrecorded := hrecorded object hobject
  have hauthentic : Authentic s.arrivals s.chat.scene ρ object.val :=
    ((allAuthentic hs).event _ hrecorded).1
  exact ⟨hauthentic.coherent (sound hs) ((worded hs).event _ hrecorded), hauthentic.code_ne⟩

/-- What has been sent to a peer is well formed for its page. -/
theorem wellFormed (hs : (system fw config).Reachable s) {p : PeerRef} {message : MessageDto}
    (h : message ∈ messagesTo p s.chat.log) : WellFormed (nick s.chat.scene) message := by
  obtain ⟨ptr, hsent⟩ := mem_messagesTo.mp h
  obtain ⟨hlt, -, hintroduces⟩ : EventWorded s.chat.scene (.sent p ⟨ptr, message⟩) :=
    (worded hs).event _ hsent
  rcases (distinct hs).sent p _ hsent with hcode | hcode | ⟨ρ, past, hpast, -⟩
  · obtain ⟨hname, entries, hpeers, hentries⟩ := hintroduces hcode
    obtain ⟨-, hid, hsnapshot⟩ := (traced hs).event _ hsent hcode
    refine ⟨⟨fun hjoined => ?_, fun hfile => ?_⟩, fun _ => ⟨?_, ⟨entries, hpeers, ?_⟩, ?_⟩⟩
    · cases hjoined.symm.trans hcode
    · cases hfile.symm.trans hcode
    · rw [hid, hname]
      exact (nick_peerId (sound hs) hlt).symm
    · intro entry hmem
      obtain ⟨q, hq, -, rfl⟩ := hentries entry hmem
      exact ⟨_, rfl, (nick_peerId (sound hs) hq).symm⟩
    · intro entries hhistory
      exact orderly hs (hhistory ▸ hsnapshot)
  · refine ⟨⟨fun hjoined => ?_, fun hfile => ?_⟩, fun hinfo => ?_⟩
    · cases hjoined.symm.trans hcode
    · cases hfile.symm.trans hcode
    · cases hinfo.symm.trans hcode
  · have hbroadcast := hpast.subset List.mem_cons_self
    have hauthentic : Authentic s.arrivals s.chat.scene ρ message :=
      (allAuthentic hs).event _ hbroadcast
    exact ⟨hauthentic.coherent (sound hs) ((worded hs).event _ hbroadcast),
      fun hinfo => absurd hinfo hauthentic.code_ne⟩

/-- A peer is sent CODE_INFO once at most. -/
theorem infoOnce (hs : (system fw config).Reachable s) (p : PeerRef) :
    InfoOnce (messagesTo p s.chat.log) := by
  have honce : ∀ log, Justified Once log → InfoOnce (messagesTo p log) := by
    intro log h
    induction log with
    | nil => exact List.Pairwise.nil
    | cons event log ih =>
        have ih := ih (h.of_past List.suffix_rfl)
        have hcons : messagesTo p (event :: log) = messagesTo p log ++ messagesTo p [event] :=
          messagesTo_append p [event] log
        rw [hcons]
        refine List.pairwise_append.mpr ⟨ih, ?_, fun earlier hearlier later hlater hcode => ?_⟩
        · cases event with
          | sent q message =>
              by_cases hq : q = p
              · simp [messagesTo, sentTo, hq]
              · simp [messagesTo, sentTo, hq]
          | _ => exact List.Pairwise.nil
        · obtain ⟨ptr, hearlier⟩ := mem_messagesTo.mp hearlier
          obtain ⟨ptr', hlater⟩ := mem_messagesTo.mp hlater
          obtain rfl := List.mem_singleton.mp hlater
          have hnew : Once (.sent p ⟨ptr', later⟩) log := h _ log List.suffix_rfl
          exact fun hcode' => (hnew _ hearlier).2 hcode' hcode
  exact honce _ (distinct hs).justified

/-- The page of a peer that has handled all it was sent. -/
theorem mapHas_listed (hs : (system fw config).Reachable s) {p : PeerRef}
    {occurrences : List Occurrence} (hall : received occurrences = messagesTo p s.chat.log)
    (id : Option Int) :
    mapHas id (afterAll occurrences {}).peersMap = listed p id s.chat.log := by
  rw [mapHas_afterAll (fun message hmem => wellFormed hs (hall ▸ hmem)) (hall ▸ infoOnce hs p) id,
    hall]
  rfl

/-! ### What a page knows -/

/-- `p` can know that `x` has joined: it was announced before `p` had its
`CODE_INFO`, or to `p`. -/
def Told (v : Scene) (p x : PeerRef) : Prop :=
  (Informed p v.log ∧
    mentions .codePeerJoined (some (v.directory.peerId x)) (broadcasts v.log) = true) ∨
  mentions .codePeerJoined (some (v.directory.peerId x)) (messagesTo p v.log) = true

/-- As long as a peer is in its room, its page lists peers of the room that have
not been announced to have left, and all that it can know of. -/
structure Known (v : Scene) : Prop where
  real : ∀ p id, .removed p ∉ v.log → listed p id v.log = true →
    (∃ x < v.directory.peerCount, id = some (v.directory.peerId x) ∧
      v.directory.peerRoom x = v.directory.peerRoom p) ∧
    mentions .codePeerLeft id (broadcasts v.log) = false
  told : ∀ p, .removed p ∉ v.log → ∀ x < v.directory.peerCount, .removed x ∉ v.log →
    v.directory.peerRoom x = v.directory.peerRoom p → Told v p x →
      listed p (some (v.directory.peerId x)) v.log = true

section Sent

variable {p x : PeerRef}

theorem sent_lt (hs : (system fw config).Reachable s) {message : Object MessageDto}
    (h : .sent p message ∈ s.chat.log) :
    p < s.chat.scene.directory.peerCount ∧ ∃ ρ, .added ρ p ∈ s.chat.log := by
  obtain ⟨hlt, hadded, -⟩ : EventWorded s.chat.scene (.sent p message) := (worded hs).event _ h
  exact ⟨hlt, hadded⟩

/-- Who has been sent anything and has not been removed is a member. -/
theorem sent_member (hs : (system fw config).Reachable s) {message : Object MessageDto}
    (h : .sent p message ∈ s.chat.log) (hnot : .removed p ∉ s.chat.log) :
    s.chat.scene.directory.member (s.chat.scene.directory.peerRoom p)
      (s.chat.scene.directory.peerId p) = some p := by
  obtain ⟨-, ρ, hadded⟩ := sent_lt hs h
  obtain ⟨-, rfl, hmember⟩ := (sound hs).added ρ p hadded
  exact hmember.resolve_left hnot

theorem sent_of_listed {id : Option Int} {log : List Event} (h : listed p id log = true) :
    ∃ message, .sent p message ∈ log := by
  rcases hmessages : messagesTo p log with - | ⟨message, rest⟩
  · rw [listed, hmessages] at h
    cases h
  · obtain ⟨ptr, hmem⟩ := mem_messagesTo.mp (hmessages ▸ List.mem_cons_self)
    exact ⟨_, hmem⟩

theorem sent_of_told {v : Scene} (h : Told v p x) : ∃ message, .sent p message ∈ v.log := by
  rcases h with ⟨⟨info, hinfo, -⟩, -⟩ | hsent
  · exact ⟨info, hinfo⟩
  · obtain ⟨message, hmem, -⟩ := mentions_iff.mp hsent
    obtain ⟨ptr, hmem⟩ := mem_messagesTo.mp hmem
    exact ⟨_, hmem⟩

/-- Who is told of has been announced. -/
theorem joined_of_told (hs : (system fw config).Reachable s) {id : Option Int}
    (h : (Informed p s.chat.log ∧ mentions .codePeerJoined id (broadcasts s.chat.log) = true) ∨
      mentions .codePeerJoined id (messagesTo p s.chat.log) = true) :
    ∃ x < s.chat.scene.directory.peerCount, id = some (s.chat.scene.directory.peerId x) := by
  refine AllAuthentic.joined (allAuthentic hs) (h.elim And.right fun hsent => ?_)
  obtain ⟨message, hmem, hcode, hid⟩ := mentions_iff.mp hsent
  obtain ⟨ptr, hmem⟩ := mem_messagesTo.mp hmem
  rcases (distinct hs).sent p _ hmem with hinfo | hrequest | ⟨ρ, past, hpast, -⟩
  · cases hcode.symm.trans hinfo
  · cases hcode.symm.trans hrequest
  · exact mentions_iff.mpr
      ⟨message, mem_broadcasts.mpr ⟨ρ, ptr, hpast.subset List.mem_cons_self⟩, hcode, hid⟩

end Sent

/-! Messages that are no notices leave things as they are. -/

def Silent : Event → Prop
  | .sent _ message | .broadcast _ message =>
      message.val.code ∉ [some .codeInfo, some .codePeerJoined, some .codePeerLeft]
  | _ => True

section Silent

variable {events log : List Event} {p : PeerRef} {id : Option Int}

theorem silent_messagesTo (h : ∀ e ∈ events, Silent e) {message : MessageDto}
    (hmem : message ∈ messagesTo p events) :
    message.code ∉ [some .codeInfo, some .codePeerJoined, some .codePeerLeft] := by
  obtain ⟨ptr, hmem⟩ := mem_messagesTo.mp hmem
  exact h _ hmem

theorem silent_broadcasts (h : ∀ e ∈ events, Silent e) {message : MessageDto}
    (hmem : message ∈ broadcasts events) :
    message.code ∉ [some .codeInfo, some .codePeerJoined, some .codePeerLeft] := by
  obtain ⟨ρ, ptr, hmem⟩ := mem_broadcasts.mp hmem
  exact h _ hmem

theorem hear_silent {message : MessageDto} (listed : Bool)
    (h : message.code ∉ [some .codeInfo, some .codePeerJoined, some .codePeerLeft]) :
    hear id listed message = listed := by
  simp only [List.mem_cons, List.not_mem_nil, or_false, not_or] at h
  unfold hear note
  split
  · next hcode => exact absurd hcode h.1
  · split
    · next hcode => exact absurd hcode h.2.1
    · next hcode => exact absurd hcode h.2.2
    · rfl

theorem listed_silent (h : ∀ e ∈ events, Silent e) :
    listed p id (events ++ log) = listed p id log := by
  have hfold : ∀ (messages : List MessageDto) (b : Bool), (∀ message ∈ messages, message.code ∉
      [some .codeInfo, some .codePeerJoined, some .codePeerLeft]) →
        messages.foldl (hear id) b = b := by
    intro messages b hmessages
    induction messages with
    | nil => rfl
    | cons message messages ih =>
        obtain ⟨hmessage, hmessages⟩ := List.forall_mem_cons.mp hmessages
        rw [List.foldl_cons, hear_silent b hmessage]
        exact ih hmessages
  rw [listed_append]
  exact hfold _ _ fun message hmem => silent_messagesTo h hmem

theorem mentions_silent {code : MessageCodes} {messages : List MessageDto}
    (hcode : code = .codePeerJoined ∨ code = .codePeerLeft)
    (h : ∀ message ∈ messages, message.code ∉
      [some .codeInfo, some .codePeerJoined, some .codePeerLeft]) :
    mentions code id messages = false := by
  rw [Bool.eq_false_iff]
  intro hmentions
  obtain ⟨message, hmem, heq, -⟩ := mentions_iff.mp hmentions
  have hnot := h message hmem
  rcases hcode with rfl | rfl <;> simp [heq] at hnot

theorem mentions_broadcasts_silent {code : MessageCodes}
    (hcode : code = .codePeerJoined ∨ code = .codePeerLeft) (h : ∀ e ∈ events, Silent e) :
    mentions code id (broadcasts (events ++ log)) = mentions code id (broadcasts log) := by
  rw [broadcasts_append, mentions_append,
    mentions_silent hcode fun message hmem => silent_broadcasts h hmem, Bool.false_or]

theorem mentions_messagesTo_silent {code : MessageCodes}
    (hcode : code = .codePeerJoined ∨ code = .codePeerLeft) (h : ∀ e ∈ events, Silent e) :
    mentions code id (messagesTo p (events ++ log)) = mentions code id (messagesTo p log) := by
  rw [messagesTo_append, mentions_append,
    mentions_silent hcode fun message hmem => silent_messagesTo h hmem, Bool.or_false]

theorem informed_silent (h : ∀ e ∈ events, Silent e) (hinformed : Informed p (events ++ log)) :
    Informed p log := by
  obtain ⟨info, hmem, hcode⟩ := hinformed
  rcases List.mem_append.mp hmem with hmem | hmem
  · have hnot : info.val.code ∉ _ := h _ hmem
    simp [hcode] at hnot
  · exact ⟨info, hmem, hcode⟩

end Silent

namespace Known

variable {v' : Scene} {events : List Event}

/-- Steps that say nothing about members keep what each page knows. -/
theorem silent (h : Known s.chat.scene) (hs : (system fw config).Reachable s)
    (hgrows : s.chat.scene.Grows v') (hsound' : Sound v'.toView)
    (hlog : v'.log = events ++ s.chat.log) (hevents : ∀ e ∈ events, Silent e) : Known v' := by
  have hnot : ∀ q, .removed q ∉ v'.log → .removed q ∉ s.chat.log := fun q hq hmem =>
    hq (hgrows.log.subset hmem)
  constructor
  case real =>
    intro p id hp hlisted
    rw [hlog, listed_silent hevents] at hlisted
    obtain ⟨message, hsent⟩ := sent_of_listed hlisted
    obtain ⟨hlt, -⟩ := sent_lt hs hsent
    obtain ⟨⟨x, hx, rfl, hroom⟩, hleft⟩ := h.real p id (hnot p hp) hlisted
    refine ⟨⟨x, hx.trans_le hgrows.peerCount, ?_, ?_⟩, ?_⟩
    · rw [hgrows.peerId x hx]
    · rw [hgrows.peerRoom x hx, hgrows.peerRoom p hlt, hroom]
    · rw [hlog, mentions_broadcasts_silent (.inr rfl) hevents]
      exact hleft
  case told =>
    intro p hp x hx hxnot hroom htold
    have htold' : (Informed p s.chat.log ∧ mentions .codePeerJoined
        (some (v'.directory.peerId x)) (broadcasts s.chat.log) = true) ∨
          mentions .codePeerJoined (some (v'.directory.peerId x)) (messagesTo p s.chat.log) =
            true := by
      unfold Told at htold
      rw [hlog, mentions_broadcasts_silent (.inl rfl) hevents,
        mentions_messagesTo_silent (.inl rfl) hevents] at htold
      exact htold.imp_left (And.imp_left (informed_silent hevents))
    -- whoever has been announced was there before
    obtain ⟨y, hy, heq⟩ := joined_of_told hs htold'
    have hid := Option.some.inj heq
    rw [← hgrows.peerId y hy] at hid
    obtain rfl := hsound'.peerId_inj x hx y (hy.trans_le hgrows.peerCount) hid
    rw [hgrows.peerId x hy] at htold' ⊢
    obtain ⟨message, hsent⟩ := sent_of_told (v := s.chat.scene) htold'
    obtain ⟨hlt, -⟩ := sent_lt hs hsent
    rw [hgrows.peerRoom x hy, hgrows.peerRoom p hlt] at hroom
    rw [hlog, listed_silent hevents]
    exact h.told p (hnot p hp) x hy (hnot x hxnot) hroom htold'

/-- What a notice that is broadcast does to a page. -/
theorem listed_broadcast {ρ : RoomRef} {message : Object MessageDto} {qs : List PeerRef}
    (hnodup : qs.Nodup) (hcode : message.val.code ≠ some .codeInfo) (p : PeerRef) (id : Option Int)
    (log : List Event) :
    listed p id ((.broadcast ρ message :: qs.map fun q => .sent q message) ++ log) =
      if p ∈ qs then note id (listed p id log) message.val else listed p id log := by
  rw [listed_append, messagesTo_broadcast hnodup]
  split
  · show hear id _ message.val = _
    unfold hear
    split
    · next h => exact absurd h hcode
    · rfl
  · rfl

theorem broadcasts_broadcast {ρ : RoomRef} {message : Object MessageDto} {qs : List PeerRef}
    {log : List Event} :
    broadcasts ((.broadcast ρ message :: qs.map fun q => .sent q message) ++ log) =
      message.val :: broadcasts log := by
  have hnone : broadcasts (qs.map fun q => .sent q message) = [] := by
    rw [broadcasts, List.filterMap_map]
    exact List.filterMap_eq_nil_iff.mpr fun q _ => rfl
  have hcons : broadcasts (.broadcast ρ message :: qs.map fun q => .sent q message) =
      message.val :: broadcasts (qs.map fun q => .sent q message) := rfl
  rw [broadcasts_append, hcons, hnone]
  rfl

section Broadcast

variable {k : SocketRef} {purpose : Purpose} {p : PeerRef} {message : Object MessageDto}
  {qs : List PeerRef}

/-- The log after a broadcast. -/
def broadcastLog (ρ : RoomRef) (message : Object MessageDto) (qs : List PeerRef)
    (log : List Event) :
    List Event :=
  (.broadcast ρ message :: qs.map fun q => .sent q message) ++ log

theorem mem_broadcastLog {ρ : RoomRef} {log : List Event} {q : PeerRef} {m : Object MessageDto} :
    .sent q m ∈ broadcastLog ρ message qs log ↔ q ∈ qs ∧ m = message ∨ .sent q m ∈ log := by
  simp [broadcastLog, eq_comm]

/-- Whoever has its place in the room is sent what is broadcast. -/
theorem mem_of_sent (hs : (system fw config).Reachable s)
    (hqs : ∀ q, q ∈ qs ↔ ∃ id, s.chat.scene.directory.member
      (s.chat.scene.directory.peerRoom p) id = some q)
    {q : PeerRef} {m : Object MessageDto}
    (hsent : .sent q m ∈ broadcastLog (s.chat.scene.directory.peerRoom p) message qs s.chat.log)
    (hq : .removed q ∉ s.chat.log)
    (hroom : s.chat.scene.directory.peerRoom q = s.chat.scene.directory.peerRoom p) : q ∈ qs := by
  rcases mem_broadcastLog.mp hsent with ⟨hmem, -⟩ | hsent
  · exact hmem
  · exact (hqs q).mpr ⟨_, hroom ▸ sent_member hs hsent hq⟩

/-- Who is told of somebody else has been told before. -/
theorem told_of_broadcastLog {v v' : Scene} {ρ : RoomRef} {q x : PeerRef}
    (hcode : message.val.code ≠ some .codeInfo)
    (hx : message.val.code = some .codePeerJoined →
      message.val.peerId ≠ some (v.directory.peerId x))
    (hlog : v'.log = broadcastLog ρ message qs v.log) (hid : v'.directory = v.directory)
    (h : Told v' q x) : Told v q x := by
  have hmentions : ∀ m : MessageDto, m = message.val → m.code = some .codePeerJoined →
      m.peerId ≠ some (v.directory.peerId x) := by
    rintro m rfl
    exact hx
  unfold Told at h ⊢
  rw [hid, hlog] at h
  rcases h with ⟨⟨info, hinfo, hcode'⟩, hjoined⟩ | hsent
  · have hinformed : Informed q v.log := by
      rcases mem_broadcastLog.mp hinfo with ⟨-, rfl⟩ | hinfo
      · exact absurd hcode' hcode
      · exact ⟨info, hinfo, hcode'⟩
    rw [broadcastLog, broadcasts_broadcast] at hjoined
    obtain ⟨m, hmem, hm⟩ := mentions_iff.mp hjoined
    rcases List.mem_cons.mp hmem with heq | hmem
    · exact absurd hm.2 (hmentions m heq hm.1)
    · exact .inl ⟨hinformed, mentions_iff.mpr ⟨m, hmem, hm⟩⟩
  · obtain ⟨m, hmem, hm⟩ := mentions_iff.mp hsent
    obtain ⟨ptr, hmem⟩ := mem_messagesTo.mp hmem
    rcases mem_broadcastLog.mp hmem with ⟨-, heq⟩ | hmem
    · exact absurd hm.2 (hmentions m (congrArg Object.val heq) hm.1)
    · exact .inr (mentions_iff.mpr ⟨m, mem_messagesTo.mpr ⟨ptr, hmem⟩, hm⟩)

/-- Somebody's arrival is announced. -/
theorem joined (h : Known s.chat.scene) (hs : (system fw config).Reachable s)
    (hk : (s.chat.scene.sockets k).stage = .broadcast purpose p message)
    (hqs : ∀ q, q ∈ qs ↔ ∃ id, s.chat.scene.directory.member
      (s.chat.scene.directory.peerRoom p) id = some q)
    (hnodup : qs.Nodup) (hcode : message.val.code = some .codePeerJoined) {v' : Scene}
    (hlog : v'.log = broadcastLog (s.chat.scene.directory.peerRoom p) message qs s.chat.log)
    (hdirectory : v'.directory = s.chat.scene.directory) : Known v' := by
  let v := s.chat.scene
  have hworded : StageWorded v (.broadcast purpose p message) := hk ▸ (worded hs).stage k
  obtain ⟨rfl, hmessage⟩ := says_joined hworded.2 (written_of_broadcast hs hk).relayed hcode
  have hlt := hworded.1
  have hnot := ((sound hs).phase k .arriving p (congrArg Stage.phase hk)).2.2.1 (by simp)
  have hid : message.val.peerId = some (v.directory.peerId p) := by rw [hmessage]; rfl
  have hne : message.val.code ≠ some .codeInfo := by simp [hcode]
  have hlisted : ∀ q id, listed q id v'.log = if q ∈ qs then
      (listed q id v.log || message.val.peerId == id) else listed q id v.log := by
    intro q id
    rw [hlog, broadcastLog, listed_broadcast hnodup hne]
    simp only [note, hcode]
    rfl
  have hstays : ∀ q, .removed q ∉ v'.log → .removed q ∉ v.log := fun q hq hmem =>
    hq (hlog ▸ List.mem_append_right _ hmem)
  constructor
  case real =>
    intro q id hq hlist
    have hleft : mentions .codePeerLeft id (broadcasts v'.log) =
        mentions .codePeerLeft id (broadcasts v.log) := by
      rw [hlog, broadcastLog, broadcasts_broadcast, mentions_cons, hcode]
      rfl
    rw [hdirectory, hleft]
    rw [hlisted] at hlist
    split at hlist
    · next hmem =>
      rcases Bool.or_eq_true_iff.mp hlist with hlist | heq
      · exact h.real q id (hstays q hq) hlist
      · -- the newcomer has not been announced to have left
        obtain rfl : message.val.peerId = id := beq_iff_eq.mp heq
        obtain ⟨id', hmember⟩ := (hqs q).mp hmem
        have hroom := ((sound hs).added _ q ((exact hs).member _ id' q hmember).2.1).2.1
        refine ⟨⟨p, hlt, hid, hroom.symm⟩, ?_⟩
        rw [hid, Bool.eq_false_iff]
        intro hgone
        obtain ⟨y, hy, heq, hremoved⟩ := AllAuthentic.left (allAuthentic hs) hgone
        obtain rfl := (sound hs).peerId_inj p hlt y hy (Option.some.inj heq)
        exact hnot hremoved
    · exact h.real q id (hstays q hq) hlist
  case told =>
    intro q hq x hx hxnot hroom htold
    rw [hdirectory] at hx hroom ⊢
    rw [hlisted]
    rcases eq_or_ne x p with rfl | hxp
    · obtain ⟨m, hsent⟩ := sent_of_told htold
      rw [if_pos (mem_of_sent hs hqs (hlog ▸ hsent) (hstays q hq) hroom.symm), hid]
      simp [v]
    · have hne' : message.val.peerId ≠ some (v.directory.peerId x) := by
        rw [hid]
        exact fun heq => hxp ((sound hs).peerId_inj x hx p hlt (Option.some.inj heq).symm)
      have hbefore := h.told q (hstays q hq) x hx (hstays x hxnot) hroom
        (told_of_broadcastLog hne (fun _ => hne') hlog hdirectory htold)
      split
      · rw [hbefore]
        rfl
      · exact hbefore

/-- Somebody's leave is announced. -/
theorem left (h : Known s.chat.scene) (hs : (system fw config).Reachable s)
    (hk : (s.chat.scene.sockets k).stage = .broadcast purpose p message)
    (hqs : ∀ q, q ∈ qs ↔ ∃ id, s.chat.scene.directory.member
      (s.chat.scene.directory.peerRoom p) id = some q)
    (hnodup : qs.Nodup) (hcode : message.val.code = some .codePeerLeft) {v' : Scene}
    (hlog : v'.log = broadcastLog (s.chat.scene.directory.peerRoom p) message qs s.chat.log)
    (hdirectory : v'.directory = s.chat.scene.directory) : Known v' := by
  let v := s.chat.scene
  have hworded : StageWorded v (.broadcast purpose p message) := hk ▸ (worded hs).stage k
  have hwritten : Written s.arrivals v k purpose p message.val := written_of_broadcast hs hk
  obtain ⟨rfl, hmessage⟩ := says_left hworded.2 hwritten.relayed hcode
  have hlt := hworded.1
  have hid : message.val.peerId = some (v.directory.peerId p) := by rw [hmessage]; rfl
  have hremoved : .removed p ∈ v.log := by
    obtain ⟨y, hy, hremoved, -, heq⟩ := hwritten.authentic.left hcode
    have hid' : message.val.peerId = some (v.directory.peerId y) := by rw [heq]; rfl
    obtain rfl := (sound hs).peerId_inj p hlt y hy (Option.some.inj (hid.symm.trans hid'))
    exact hremoved
  have hne : message.val.code ≠ some .codeInfo := by simp [hcode]
  have hlisted : ∀ q id, listed q id v'.log = if q ∈ qs then
      (listed q id v.log && message.val.peerId != id) else listed q id v.log := by
    intro q id
    rw [hlog, broadcastLog, listed_broadcast hnodup hne]
    simp only [note, hcode]
    rfl
  have hstays : ∀ q, .removed q ∉ v'.log → .removed q ∉ v.log := fun q hq hmem =>
    hq (hlog ▸ List.mem_append_right _ hmem)
  constructor
  case real =>
    intro q id hq hlist
    rw [hlisted] at hlist
    have hbefore : listed q id v.log = true := by
      split at hlist
      · exact (Bool.and_eq_true_iff.mp hlist).1
      · exact hlist
    obtain ⟨⟨x, hx, rfl, hroom⟩, hleft⟩ := h.real q id (hstays q hq) hbefore
    have hxp : x ≠ p := by
      rintro rfl
      -- the page has just been told
      obtain ⟨m, hsent⟩ := sent_of_listed hbefore
      have hsent' : .sent q m ∈ broadcastLog (v.directory.peerRoom x) message qs v.log :=
        mem_broadcastLog.mpr (.inr hsent)
      have hmem := mem_of_sent hs hqs hsent' (hstays q hq) hroom.symm
      rw [if_pos hmem, hid] at hlist
      simp [v] at hlist
    refine ⟨⟨x, ?_, ?_, ?_⟩, ?_⟩
    · rw [hdirectory]
      exact hx
    · rw [hdirectory]
    · rw [hdirectory]
      exact hroom
    · have hsplit : mentions .codePeerLeft (some (v.directory.peerId x)) (broadcasts v'.log) =
          ((message.val.code == some .codePeerLeft &&
            message.val.peerId == some (v.directory.peerId x)) ||
              mentions .codePeerLeft (some (v.directory.peerId x)) (broadcasts v.log)) := by
        rw [hlog, broadcastLog, broadcasts_broadcast]
        rfl
      rw [hsplit, hleft, hid, Bool.or_false]
      have hne' : some (v.directory.peerId p) ≠ some (v.directory.peerId x) := fun heq =>
        hxp ((sound hs).peerId_inj x hx p hlt (Option.some.inj heq).symm)
      rw [beq_eq_false_iff_ne.mpr hne', Bool.and_false]
  case told =>
    intro q hq x hx hxnot hroom htold
    rw [hdirectory] at hx hroom ⊢
    have hxp : x ≠ p := by
      rintro rfl
      exact hstays x hxnot hremoved
    have hbefore := h.told q (hstays q hq) x hx (hstays x hxnot) hroom
      (told_of_broadcastLog hne (fun hjoined => by cases hjoined.symm.trans hcode) hlog
        hdirectory htold)
    rw [hlisted]
    split
    · have hne' : message.val.peerId ≠ some (v.directory.peerId x) := by
        rw [hid]
        exact fun heq => hxp ((sound hs).peerId_inj x hx p hlt (Option.some.inj heq).symm)
      rw [hbefore]
      simpa using hne'
    · exact hbefore

end Broadcast

section Info

variable {k : SocketRef} {p : PeerRef} {info : Object MessageDto}

/-- What a `CODE_INFO` replays has been recorded in the room. -/
theorem replayed_recorded (hs : (system fw config).Reachable s) {ρ : RoomRef} {info : MessageDto}
    (h : .snapshot ρ p info.history ∈ s.chat.log) :
    (∀ message ∈ replayed info, ∃ ptr, .recorded ρ ⟨ptr, message⟩ ∈ s.chat.log) ∧
      (replayed info).Pairwise InOrder := by
  unfold replayed
  rcases hhistory : info.history with - | entries <;> rw [hhistory] at h
  · exact ⟨fun message hmem => absurd hmem List.not_mem_nil, List.Pairwise.nil⟩
  · obtain ⟨objects, rfl, hrecorded, horder⟩ := snapshot_orderly hs h
    have hmap : ((some (objects.map some)).getD []).filterMap (fun entry => entry.map Object.val) =
        objects.map Object.val := by simp
    rw [hmap]
    refine ⟨fun message hmem => ?_, horder⟩
    obtain ⟨object, hobject, rfl⟩ := List.mem_map.mp hmem
    exact ⟨object.ptr, hrecorded object hobject⟩

/-- Whom the replayed history says to have joined is a peer of the room. -/
theorem exists_of_replayed_joined (hs : (system fw config).Reachable s) {ρ : RoomRef}
    {info : MessageDto} (hsnapshot : .snapshot ρ p info.history ∈ s.chat.log) {id : Option Int}
    (hid : mentions .codePeerJoined id (replayed info) = true) :
    ∃ x < s.chat.scene.directory.peerCount, id = some (s.chat.scene.directory.peerId x) ∧
      s.chat.scene.directory.peerRoom x = ρ := by
  obtain ⟨message, hmem, hcode, rfl⟩ := mentions_iff.mp hid
  obtain ⟨ptr, hmem⟩ := (replayed_recorded hs hsnapshot).1 message hmem
  have hauthentic : Authentic s.arrivals s.chat.scene _ message :=
    ((allAuthentic hs).event _ hmem).1
  obtain ⟨x, hx, hroom, rfl⟩ := hauthentic.joined hcode
  exact ⟨x, hx, rfl, hroom⟩

/-- Whom it says to have left is gone. -/
theorem removed_of_replayed_left (hs : (system fw config).Reachable s) {ρ : RoomRef}
    {info : MessageDto} (hsnapshot : .snapshot ρ p info.history ∈ s.chat.log) {x : PeerRef}
    (hx : x < s.chat.scene.directory.peerCount)
    (hleft : mentions .codePeerLeft (some (s.chat.scene.directory.peerId x))
      (replayed info) = true) :
    .removed x ∈ s.chat.log := by
  obtain ⟨message, hmem, hcode, hid⟩ := mentions_iff.mp hleft
  obtain ⟨ptr, hmem⟩ := (replayed_recorded hs hsnapshot).1 message hmem
  have hauthentic : Authentic s.arrivals s.chat.scene _ message :=
    ((allAuthentic hs).event _ hmem).1
  obtain ⟨y, hy, hremoved, -, rfl⟩ := hauthentic.left hcode
  obtain rfl := (sound hs).peerId_inj x hx y hy (Option.some.inj hid.symm)
  exact hremoved

/-- The entries of a `CODE_INFO` are peers of the room. -/
theorem exists_of_introduced {v : Scene} (hintroduces : Introduces v p info.val) {id : Option Int}
    (hid : introduced id info.val = true) :
    ∃ x < v.directory.peerCount, id = some (v.directory.peerId x) ∧
      v.directory.peerRoom x = v.directory.peerRoom p := by
  obtain ⟨-, entries, hpeers, hentries⟩ := hintroduces
  rw [introduced, hpeers, Option.getD_some, List.any_eq_true] at hid
  obtain ⟨entry, hmem, hentry⟩ := hid
  obtain ⟨x, hx, hroom, rfl⟩ := hentries entry hmem
  exact ⟨x, hx, (beq_iff_eq.mp hentry).symm, hroom⟩

/-- What a socket that is about to send a `CODE_INFO` knows of it. -/
theorem sendInfo_facts (hs : (system fw config).Reachable s)
    (hk : (s.chat.scene.sockets k).stage = .sendInfo p info) :
    p < s.chat.scene.directory.peerCount ∧ Introduces s.chat.scene p info.val ∧
      info.val.code = some .codeInfo ∧
        info.val.peerId = some (s.chat.scene.directory.peerId p) ∧
          .snapshot (s.chat.scene.directory.peerRoom p) p info.val.history ∈ s.chat.log ∧
            .removed p ∉ s.chat.log := by
  have hworded : StageWorded s.chat.scene (.sendInfo p info) := hk ▸ (worded hs).stage k
  have htraced : Stage.Traced s.chat.scene (.sendInfo p info) := hk ▸ (traced hs).stage k
  obtain ⟨-, hcode, hown, hsnapshot⟩ := htraced
  have hphase := (sound hs).phase k .onboarding p (congrArg Stage.phase hk)
  exact ⟨hworded.1, hworded.2, hcode, hown, hsnapshot, hphase.2.2.1 (by simp)⟩

/-- Whom the newcomer lists after its `CODE_INFO` is in the room. -/
theorem hear_info_real (h : Known s.chat.scene) (hs : (system fw config).Reachable s)
    (hk : (s.chat.scene.sockets k).stage = .sendInfo p info) (hcovers : Covers s.chat.scene k)
    {id : Option Int} (hlist : hear id (listed p id s.chat.log) info.val = true) :
    (∃ x < s.chat.scene.directory.peerCount, id = some (s.chat.scene.directory.peerId x) ∧
      s.chat.scene.directory.peerRoom x = s.chat.scene.directory.peerRoom p) ∧
        mentions .codePeerLeft id (broadcasts s.chat.log) = false := by
  let v := s.chat.scene
  obtain ⟨hlt, hintroduces, hcode, hown, hsnapshot, hnot⟩ := sendInfo_facts hs hk
  -- what has left in the history is not listed
  have hgone : mentions .codePeerLeft id (replayed info.val) = false := by
    rw [Bool.eq_false_iff]
    intro hgone
    rw [hear_of_left hcode (replayed_recorded hs hsnapshot).2 hgone] at hlist
    cases hlist
  have hlist := (hear_of_not_left hcode hgone _).mp hlist
  have hexists : ∃ x < v.directory.peerCount, id = some (v.directory.peerId x) ∧
      v.directory.peerRoom x = v.directory.peerRoom p := by
    rcases hlist with hlist | hintro | hhistory | ⟨-, hself⟩
    · exact (h.real p id hnot hlist).1
    · exact exists_of_introduced hintroduces hintro
    · exact exists_of_replayed_joined hs hsnapshot hhistory
    · exact ⟨p, hlt, hself.symm.trans hown, rfl⟩
  refine ⟨hexists, ?_⟩
  obtain ⟨x, hx, rfl, hroom⟩ := hexists
  unfold Covers at hcovers
  rw [hk] at hcovers
  rw [Bool.eq_false_iff]
  intro hleft
  rcases (hcovers x hx hroom).2 hleft with hreplayed | ⟨hintro', hhistory'⟩
  · rw [hgone] at hreplayed
    cases hreplayed
  · rcases hlist with hlist | hintro | hhistory | ⟨-, hself⟩
    · have hstill :
          mentions .codePeerLeft (some (v.directory.peerId x)) (broadcasts v.log) = false :=
        (h.real p _ hnot hlist).2
      cases hstill.symm.trans hleft
    · rw [hintro'] at hintro
      cases hintro
    · rw [hhistory'] at hhistory
      cases hhistory
    · obtain ⟨y, hy, heq, hremoved⟩ := AllAuthentic.left (allAuthentic hs) hleft
      obtain rfl := (sound hs).peerId_inj p hlt y hy
        (Option.some.inj (hown.symm.trans (hself.trans heq)))
      exact hnot hremoved

/-- The newcomer lists after its `CODE_INFO` whom it has been told of, or has
missed the announcement of. -/
theorem hear_info_told (h : Known s.chat.scene) (hs : (system fw config).Reachable s)
    (hk : (s.chat.scene.sockets k).stage = .sendInfo p info) (hcovers : Covers s.chat.scene k)
    {x : PeerRef} (hx : x < s.chat.scene.directory.peerCount) (hxnot : .removed x ∉ s.chat.log)
    (hroom : s.chat.scene.directory.peerRoom x = s.chat.scene.directory.peerRoom p)
    (htold : mentions .codePeerJoined (some (s.chat.scene.directory.peerId x))
        (broadcasts s.chat.log) = true ∨
      mentions .codePeerJoined (some (s.chat.scene.directory.peerId x))
        (messagesTo p s.chat.log) = true) :
    hear (some (s.chat.scene.directory.peerId x))
      (listed p (some (s.chat.scene.directory.peerId x)) s.chat.log) info.val = true := by
  obtain ⟨-, -, hcode, -, hsnapshot, hnot⟩ := sendInfo_facts hs hk
  have hgone : mentions .codePeerLeft (some (s.chat.scene.directory.peerId x))
      (replayed info.val) = false := by
    rw [Bool.eq_false_iff]
    exact fun hgone => hxnot (removed_of_replayed_left hs hsnapshot hx hgone)
  unfold Covers at hcovers
  rw [hk] at hcovers
  refine (hear_of_not_left hcode hgone _).mpr ?_
  have hheard : mentions .codePeerJoined (some (s.chat.scene.directory.peerId x))
      (messagesTo p s.chat.log) = true →
        listed p (some (s.chat.scene.directory.peerId x)) s.chat.log = true := fun hsent =>
    h.told p hnot x hx hxnot hroom (.inr hsent)
  rcases htold with hannounced | hsent
  · rcases (hcovers x hx hroom).1 hannounced hxnot with hintro | hhistory | hsent
    · exact .inr (.inl hintro)
    · exact .inr (.inr (.inl hhistory))
    · exact .inl (hheard hsent)
  · exact .inl (hheard hsent)

/-- A newcomer is sent its `CODE_INFO`. -/
theorem informed (h : Known s.chat.scene) (hs : (system fw config).Reachable s)
    (hk : (s.chat.scene.sockets k).stage = .sendInfo p info) (hcovers : Covers s.chat.scene k)
    {v' : Scene} (hdirectory : v'.directory = s.chat.scene.directory)
    (hlog : v'.log = [.joined (s.chat.scene.directory.peerRoom p) p, .sent p info] ++ s.chat.log) :
    Known v' := by
  let v := s.chat.scene
  have hmessages : ∀ q, messagesTo q v'.log =
      messagesTo q v.log ++ if q = p then [info.val] else [] := by
    intro q
    rw [hlog, messagesTo_append]
    congr 1
    split
    · next heq => simp [messagesTo, sentTo, heq]
    · next hne => simp [messagesTo, sentTo, Ne.symm hne]
  have hbroadcasts : broadcasts v'.log = broadcasts v.log := by
    rw [hlog, broadcasts_append]
    rfl
  have hlisted : ∀ q id, listed q id v'.log =
      if q = p then hear id (listed q id v.log) info.val else listed q id v.log := by
    intro q id
    rw [listed, hmessages, List.foldl_append]
    split
    · rfl
    · rfl
  have hstays : ∀ q, .removed q ∉ v'.log → .removed q ∉ v.log := fun q hq hmem =>
    hq (hlog ▸ List.mem_append_right _ hmem)
  constructor
  case real =>
    intro q id hq hlist
    rw [hdirectory, hbroadcasts]
    rw [hlisted] at hlist
    split at hlist
    · next heq =>
      subst heq
      exact h.hear_info_real hs hk hcovers hlist
    · exact h.real q id (hstays q hq) hlist
  case told =>
    intro q hq x hx hxnot hroom htold
    rw [hdirectory] at hx hroom ⊢
    -- a `CODE_INFO` announces nobody
    have htold' : (Informed q v'.log ∧ mentions .codePeerJoined (some (v.directory.peerId x))
        (broadcasts v.log) = true) ∨ mentions .codePeerJoined (some (v.directory.peerId x))
          (messagesTo q v.log) = true := by
      unfold Told at htold
      rw [hdirectory, hbroadcasts, hmessages, mentions_append] at htold
      refine htold.imp_right fun hsent => (Bool.or_eq_true_iff.mp hsent).resolve_right ?_
      split
      · simp [(sendInfo_facts hs hk).2.2.1]
      · simp
    rw [hlisted]
    split
    · next heq =>
      subst heq
      exact h.hear_info_told hs hk hcovers hx (hstays x hxnot) hroom (htold'.imp_left And.right)
    · next hne =>
      refine h.told q (hstays q hq) x hx (hstays x hxnot) hroom (htold'.imp_left ?_)
      rintro ⟨⟨message, hmem, hinfo⟩, hannounced⟩
      refine ⟨⟨message, ?_, hinfo⟩, hannounced⟩
      rw [hlog] at hmem
      rcases List.mem_append.mp hmem with hmem | hmem
      · simp [hne] at hmem
      · exact hmem

end Info

end Known

/-- In every covered run each page knows the members it will show. -/
theorem known (hs : (system fw config).ReachableVia (Via Covers) s) : Known s.chat.scene := by
  refine scene_invariant (I := Known) (fun clock => ?_) (fun s b v hs h hvia hb => ?_)
    (fun s σ subscriber dto hs h hsub hcode => ?_) hs
  · refine ⟨fun p id _ hlisted => ?_, fun p _ x hx => absurd hx (Nat.not_lt_zero x)⟩
    cases hlisted
  · have hgrows := hb.grows
    have hsound' : Sound v.toView := (sound hs).moves hb.moves
    cases hb with
    | @broadcast k purpose p message qs hk hqs hnodup =>
        have hnodup : qs.Nodup := hnodup fun id id' q hid hid' => (exact hs).member_inj hid hid'
        by_cases hjoined : message.val.code = some .codePeerJoined
        · exact h.joined hs hk hqs hnodup hjoined rfl rfl
        · by_cases hleft : message.val.code = some .codePeerLeft
          · exact h.left hs hk hqs hnodup hleft rfl rfl
          · refine h.silent hs hgrows hsound' rfl fun e he => ?_
            have hsilent : message.val.code ∉
                [some .codeInfo, some .codePeerJoined, some .codePeerLeft] := by
              simp [hjoined, hleft, broadcast_code hs k purpose p message hk]
            rcases List.mem_cons.mp he with rfl | he
            · exact hsilent
            · obtain ⟨q, -, rfl⟩ := List.mem_map.mp he
              exact hsilent
    | sendInfo hk => exact h.informed hs hk (hvia _ rfl) rfl rfl
    | connect hk => exact h.silent hs hgrows hsound' (List.nil_append _).symm (by simp)
    | other ha => exact h
    | _ => exact h.silent hs hgrows hsound' rfl (by simp [Silent])
  · refine h.silent hs (request_grows _ _ _) (request_sound (sound hs) _ dto)
      (List.singleton_append).symm fun e he => ?_
    obtain rfl := List.mem_singleton.mp he
    simp [Silent, hcode]

/-! ### Once nothing is going on -/

/-- No handler is at work: every socket is unused, between two messages, or gone. -/
def Quiescent (s : State) : Prop :=
  ∀ k, s.chunks k = none ∧ ((s.chat.sockets k).stage = .closed ∨
    (∃ p, (s.chat.sockets k).stage = .joined p) ∨ (s.chat.sockets k).stage = .gone)

/-- **The lists of participants converge** in every run whose `CODE_INFO`s make
up for what their peers have missed: once no handler is at work, the page of a
connected peer that has handled all it was sent has the members of the room in
its `peersMap`. -/
theorem participants_converge (hs : (system fw config).ReachableVia (Via Covers) s)
    (hquiescent : Quiescent s) {k : SocketRef} {p : PeerRef}
    (hk : (s.chat.sockets k).stage = .joined p) {occurrences : List Occurrence}
    (hall : received occurrences = messagesTo p s.chat.log) (id : Option Int) :
    mapHas id (afterAll occurrences {}).peersMap = true ↔
      ∃ peerId q, id = some peerId ∧
        Room.getPeerById (s.server.peers p).room peerId s.server = some q := by
  have hreach := hs.reachable
  have hknown := known hs
  have hphase : (s.chat.scene.sockets k).stage.phase = some (.staying, p) :=
    congrArg Stage.phase hk
  have hnot := ((sound hreach).phase k .staying p hphase).2.2.1 (by simp)
  rw [mapHas_listed hreach hall]
  constructor
  · intro hlisted
    obtain ⟨⟨x, hx, rfl, hroom⟩, hleft⟩ := hknown.real p id hnot hlisted
    -- whoever has not been announced to have left is with a socket, which is between two messages
    rcases placed hreach x hx with ⟨j, φ, hj⟩ | hgone
    · have hstaying : (s.chat.scene.sockets j).stage.phase = some (.staying, x) := by
        rcases (hquiescent j).2 with hclosed | ⟨q, hjoined⟩ | hgone
        · rw [show (s.chat.scene.sockets j).stage = .closed from hclosed] at hj
          cases hj
        · rw [show (s.chat.scene.sockets j).stage = .joined q from hjoined] at hj ⊢
          obtain ⟨-, rfl⟩ := Prod.mk.inj (Option.some.inj hj)
          rfl
        · rw [show (s.chat.scene.sockets j).stage = .gone from hgone] at hj
          cases hj
      refine ⟨_, x, rfl, ?_⟩
      have hmember : s.chat.scene.directory.member (s.chat.scene.directory.peerRoom x)
          (s.chat.scene.directory.peerId x) = some x := (sound hreach).member hstaying rfl
      rw [hroom] at hmember
      exact hmember
    · rw [hleft] at hgone
      cases hgone
  · rintro ⟨peerId, q, rfl, hmember⟩
    obtain ⟨rfl, hadded, hqnot⟩ := (exact hreach).member _ _ q hmember
    obtain ⟨hlt, hroom, -⟩ := (sound hreach).added _ q hadded
    have hannounced : EventWorded s.chat.scene (.added _ q) := (worded hreach).event _ hadded
    exact hknown.told p hnot q hlt hqnot hroom
      (.inl ⟨(greeted hreach).informed (sound hreach) hphase rfl rfl, hannounced.2⟩)

instance (x : PeerRef) (log : List Event) : Decidable (.removed x ∈ log) :=
  decidable_of_iff (log.any fun
    | .removed q => q == x
    | _ => false) (by
      rw [List.any_eq_true]
      constructor
      · rintro ⟨event, hmem, heq⟩
        cases event with
        | removed q => exact beq_iff_eq.mp heq ▸ hmem
        | _ => cases heq
      · exact fun hmem => ⟨_, hmem, beq_self_eq_true x⟩)

instance (v : Scene) (p : PeerRef) (info : MessageDto) (x : PeerRef) :
    Decidable (Covered v p info x) := by
  unfold Covered
  infer_instance

instance (v : Scene) (k : SocketRef) : Decidable (Covers v k) := by
  unfold Covers
  split <;> infer_instance

/-- `Covers`, decided. -/
def covers (v : Scene) (k : SocketRef) : Bool := decide (Covers v k)

theorem covers_sound {v : Scene} {k : SocketRef} (h : covers v k = true) : Covers v k :=
  of_decide_eq_true h

/-- Bob joins Ann, who leaves; of Bob's calls the last ones are made after hers. -/
def joinAndLeave (before after : ℕ) : List Act :=
  .chat (.connect 0 "lounge" "Ann") :: List.replicate 8 (.chat (.run 0)) ++
    .chat (.connect 1 "lounge" "Bob") :: List.replicate before (.chat (.run 1)) ++
    .chat (.close 0) :: List.replicate 5 (.chat (.run 0)) ++
    List.replicate after (.chat (.run 1))

/-- Ann is gone, and Bob has joined. -/
theorem quiescent_of_two (hann : (s.chat.sockets 0).stage = .gone)
    (hbob : (s.chat.sockets 1).stage = .joined 1)
    (hothers : ∀ n, (s.chat.sockets (n + 2)).stage = .closed) (hchunks : ∀ k, s.chunks k = none) :
    Quiescent s
  | 0 => ⟨hchunks 0, .inr (.inr hann)⟩
  | 1 => ⟨hchunks 1, .inr (.inl ⟨1, hbob⟩)⟩
  | n + 2 => ⟨hchunks (n + 2), .inl (hothers n)⟩

/-- Ann leaves once Bob has his `CODE_INFO`: his page lists him alone. -/
theorem participants_converge_joinAndLeave : ∃ s : State,
    (system Chat.silent {}).run {} (joinAndLeave 8 0) = some s ∧ Quiescent s ∧
      ∀ id, mapHas id (afterAll ((messagesTo 1 s.chat.log).map .onmessage) {}).peersMap = true ↔
        id = some 2 := by
  obtain ⟨s, hrun, hann, hbob, hothers, hchunks, hroom⟩ : ∃ s : State,
      (system Chat.silent {}).run {} (joinAndLeave 8 0) = some s ∧
        (s.chat.sockets 0).stage = .gone ∧ (s.chat.sockets 1).stage = .joined 1 ∧
          (∀ n, (s.chat.sockets (n + 2)).stage = .closed) ∧ (∀ k, s.chunks k = none) ∧
            (s.server.rooms (s.server.peers 1).room).peerById =
              (∅ : UnorderedMap Int PeerRef).insert 2 1 :=
    ⟨_, rfl, rfl, rfl, fun _ => rfl, fun _ => rfl, rfl⟩
  have hquiescent := quiescent_of_two hann hbob hothers hchunks
  have hvia : (system Chat.silent {}).ReachableVia (Via Covers) s :=
    via_of_checked (fun _ _ _ h => covers_sound h) (.run (.init ⟨_, rfl⟩) (by decide) hrun)
  refine ⟨s, hrun, hquiescent, fun id => ?_⟩
  rw [participants_converge hvia hquiescent hbob (received_onmessage _) id]
  simp [Room.getPeerById, hroom, UnorderedMap.lookup_insert]

/-- Ann leaves when Bob's `CODE_INFO` has been made and not yet sent.  Nobody
takes her off Bob's page. -/
theorem ghost_stays : ∃ s : State,
    (system Chat.silent {}).run {} (joinAndLeave 7 1) = some s ∧ Quiescent s ∧
      (s.chat.sockets 1).stage = .joined 1 ∧ (s.server.peers 1).socket = some 1 ∧
        mapHas (some 1) (afterAll ((messagesTo 1 s.chat.log).map .onmessage) {}).peersMap = true ∧
          Room.getPeerById (s.server.peers 1).room 1 s.server = none := by
  obtain ⟨s, hrun, hann, hbob, hothers, hchunks, hsocket, hroom⟩ : ∃ s : State,
      (system Chat.silent {}).run {} (joinAndLeave 7 1) = some s ∧
        (s.chat.sockets 0).stage = .gone ∧ (s.chat.sockets 1).stage = .joined 1 ∧
          (∀ n, (s.chat.sockets (n + 2)).stage = .closed) ∧ (∀ k, s.chunks k = none) ∧
            (s.server.peers 1).socket = some 1 ∧
              Room.getPeerById (s.server.peers 1).room 1 s.server = none :=
    ⟨_, rfl, rfl, rfl, fun _ => rfl, fun _ => rfl, rfl, rfl⟩
  have hlisted : ((system Chat.silent {}).run {} (joinAndLeave 7 1)).map
      (fun s => listed 1 (some 1) s.chat.log) = some true := by decide
  rw [hrun] at hlisted
  refine ⟨s, hrun, quiescent_of_two hann hbob hothers hchunks, hbob, hsocket, ?_, hroom⟩
  rw [mapHas_listed (.run (.init ⟨_, rfl⟩) hrun) (received_onmessage _)]
  exact Option.some.inj hlisted

end Traffic

end CanChat
