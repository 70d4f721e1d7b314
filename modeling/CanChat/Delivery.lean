/-
CanChat/Delivery.lean

No message is lost to a peer that is joining.

A message is recorded in the history and then broadcast to the members; a
newcomer becomes a member and then reads the history.  In whatever order these
four steps come, the newcomer is a member at the broadcast, or the history it
reads was recorded with the message in it; there it still is, unless as many
newer messages have come in as a history holds (`message_reaches_joiner`).

The proof reads the log: `Explains` says what the events before each event
must be, and `Accounted` is the invariant that they are.
-/
import CanChat.EventLog
import CanChat.Membership

namespace CanChat

namespace Chat

open EventLog

/-! ### What the log says about the history -/

def Event.recordedIn? (ρ : RoomRef) : Event → Option (Object MessageDto)
  | .recorded ρ' message => if ρ' = ρ then some message else none
  | _ => none

/-- The messages recorded in a room, newest first. -/
def recordedIn (ρ : RoomRef) (log : List Event) : List (Object MessageDto) :=
  log.filterMap (Event.recordedIn? ρ)

theorem mem_recordedIn {ρ : RoomRef} {message : Object MessageDto} {log : List Event} :
    message ∈ recordedIn ρ log ↔ .recorded ρ message ∈ log := by
  simp only [recordedIn, List.mem_filterMap]
  constructor
  · rintro ⟨e, he, hmessage⟩
    cases e with
    | recorded ρ' message' =>
        simp only [Event.recordedIn?, Option.ite_none_right_eq_some, Option.some.injEq] at hmessage
        obtain ⟨rfl, rfl⟩ := hmessage
        exact he
    | _ => cases hmessage
  · intro h
    exact ⟨_, h, by simp [Event.recordedIn?]⟩

theorem recordedIn_append (ρ : RoomRef) {events log : List Event}
    (h : ∀ ρ' message, .recorded ρ' message ∉ events) :
    recordedIn ρ (events ++ log) = recordedIn ρ log := by
  have hnone : recordedIn ρ events = [] :=
    List.eq_nil_iff_forall_not_mem.mpr fun message hmem => h ρ message (mem_recordedIn.mp hmem)
  rw [recordedIn, List.filterMap_append]
  exact (congrArg (· ++ recordedIn ρ log) hnone).trans (List.nil_append _)

/-- The history a room has after the events of a log: the newest messages up
to the bound, the oldest first. -/
def historyAfter (config : ConfigDto) (ρ : RoomRef) (log : List Event) : List (Object MessageDto) :=
  ((recordedIn ρ log).take (config.maxRoomHistoryMessages.getD 0)).reverse

/-- What the events before an event are. -/
def Explains (config : ConfigDto) : Event → List Event → Prop
  | .recorded _ message, past => ∀ ρ, .broadcast ρ message ∉ past
  | .broadcast ρ message, past =>
      ∀ p, .added ρ p ∈ past → .removed p ∉ past → .sent p message ∈ past
  | .snapshot ρ p history, past => .added ρ p ∈ past ∧
      history = if Room.historyDisabled config then none
        else some ((historyAfter config ρ past).map some)
  | .joined ρ p, past => ∃ info, .sent p info ∈ past ∧ info.val.code = some .codeInfo ∧
      .snapshot ρ p info.val.history ∈ past
  | .sent _ _, _ | .added _ _, _ | .removed _, _ => True

structure Accounted (config : ConfigDto) (v : View) : Prop where
  history : ∀ ρ, v.directory.history ρ = historyAfter config ρ v.log
  recorded : ∀ ρ message, .recorded ρ message ∈ v.log → ρ < v.directory.roomCount
  broadcasting : ∀ k purpose p message, (v.sockets k).stage = .broadcast purpose p message →
    message.ptr < v.directory.objectCount
  broadcast : ∀ ρ message, .broadcast ρ message ∈ v.log → message.ptr < v.directory.objectCount
  informed : ∀ k p info, (v.sockets k).stage = .sendInfo p info →
    info.val.code = some .codeInfo ∧
      .snapshot (v.directory.peerRoom p) p info.val.history ∈ v.log
  justified : Justified (Explains config) v.log

namespace Accounted

variable {config : ConfigDto} {v : View} {k : SocketRef} {p : PeerRef} {stage : Stage}
  {d : Directory} {events : List Event}

/-- What a socket's step has to show. -/
theorem goto (h : Accounted config v) (hsound : Sound v)
    (hroomCount : v.directory.roomCount ≤ d.roomCount)
    (hobjectCount : v.directory.objectCount ≤ d.objectCount)
    (hpeerRoom : ∀ p < v.directory.peerCount, d.peerRoom p = v.directory.peerRoom p)
    (hhistory : ∀ ρ, d.history ρ = historyAfter config ρ (events ++ v.log))
    (hrecorded : ∀ ρ message, .recorded ρ message ∈ events → ρ < d.roomCount)
    (hbroadcast : ∀ ρ message, .broadcast ρ message ∈ events → message.ptr < d.objectCount)
    (hbroadcasting : ∀ purpose p message, stage = .broadcast purpose p message →
      message.ptr < d.objectCount)
    (hinformed : ∀ p info, stage = .sendInfo p info → info.val.code = some .codeInfo ∧
      .snapshot (d.peerRoom p) p info.val.history ∈ events)
    (hjustified : Justified (Explains config) (events ++ v.log)) :
    Accounted config (v.goto k stage d events) where
  history := hhistory
  recorded ρ message hmem := by
    rcases List.mem_append.mp hmem with hmem | hmem
    · exact hrecorded ρ message hmem
    · exact (h.recorded ρ message hmem).trans_le hroomCount
  broadcasting j purpose p message hj := by
    rw [Sound.goto_stage] at hj
    split at hj
    · exact hbroadcasting purpose p message hj
    · exact (h.broadcasting j purpose p message hj).trans_le hobjectCount
  broadcast ρ message hmem := by
    rcases List.mem_append.mp hmem with hmem | hmem
    · exact hbroadcast ρ message hmem
    · exact (h.broadcast ρ message hmem).trans_le hobjectCount
  informed j p info hj := by
    rw [Sound.goto_stage] at hj
    split at hj
    · obtain ⟨hcode, hsnapshot⟩ := hinformed p info hj
      exact ⟨hcode, List.mem_append_left _ hsnapshot⟩
    · obtain ⟨hcode, hsnapshot⟩ := h.informed j p info hj
      have hlt : p < v.directory.peerCount := by
        refine (hsound.phase j .onboarding p ?_).1
        rw [hj]
        rfl
      refine ⟨hcode, List.mem_append_right _ ?_⟩
      rw [View.goto_directory, hpeerRoom p hlt]
      exact hsnapshot
  justified := hjustified

/-- A step that is about no message. -/
theorem quiet (h : Accounted config v) (hsound : Sound v)
    (hroomCount : v.directory.roomCount ≤ d.roomCount)
    (hobjectCount : v.directory.objectCount ≤ d.objectCount)
    (hpeerRoom : ∀ p < v.directory.peerCount, d.peerRoom p = v.directory.peerRoom p)
    (hhistory : ∀ ρ, d.history ρ = v.directory.history ρ)
    (hevents : ∀ e ∈ events, (∃ ρ p, e = .added ρ p) ∨ ∃ p, e = .removed p)
    (hbroadcasting : ∀ purpose p message, stage = .broadcast purpose p message →
      message.ptr < d.objectCount)
    (hinformed : ∀ p info, stage ≠ .sendInfo p info) :
    Accounted config (v.goto k stage d events) := by
  have hrecorded : ∀ ρ message, .recorded ρ message ∉ events := by
    intro ρ message hmem
    rcases hevents _ hmem with ⟨_, _, he⟩ | ⟨_, he⟩ <;> cases he
  refine h.goto hsound hroomCount hobjectCount hpeerRoom ?_ ?_ ?_ hbroadcasting ?_ ?_
  · intro ρ
    rw [hhistory, h.history, historyAfter, historyAfter, recordedIn_append ρ hrecorded]
  · intro ρ message hmem
    exact absurd hmem (hrecorded ρ message)
  · intro ρ message hmem
    rcases hevents _ hmem with ⟨_, _, he⟩ | ⟨_, he⟩ <;> cases he
  · intro p info hstage
    exact absurd hstage (hinformed p info)
  · apply h.justified.append
    intro e he past
    rcases hevents e he with ⟨_, _, rfl⟩ | ⟨_, rfl⟩ <;> trivial

theorem connect (h : Accounted config v) (roomName nickname : String) :
    Accounted config { v with
      sockets := Function.update v.sockets k
        { roomName, nickname, stage := .getOrCreateRoom } } := by
  let connection : Connection := { roomName, nickname, stage := .getOrCreateRoom }
  have hstage : ∀ j stage, (Function.update v.sockets k connection j).stage = stage →
      stage ≠ .getOrCreateRoom → (v.sockets j).stage = stage := by
    intro j stage hj hne
    rcases eq_or_ne j k with rfl | hjk
    · rw [Function.update_self] at hj
      exact absurd hj.symm hne
    · rwa [Function.update_of_ne hjk] at hj
  refine { h with broadcasting := ?_, informed := ?_ }
  · intro j purpose p message hj
    exact h.broadcasting j purpose p message (hstage j _ hj (by simp))
  · intro j p info hj
    exact h.informed j p info (hstage j _ hj (by simp))

/-- A room nobody has been in has no history. -/
theorem history_createRoom (h : Accounted config v) (name : String) (ρ : RoomRef) :
    (v.directory.createRoom name).history ρ = v.directory.history ρ := by
  rcases eq_or_ne ρ v.directory.roomCount with rfl | hne
  · have hnone : recordedIn v.directory.roomCount v.log = [] := by
      apply List.eq_nil_iff_forall_not_mem.mpr
      intro message hmem
      exact absurd (h.recorded _ message (mem_recordedIn.mp hmem)) (lt_irrefl _)
    rw [h.history, historyAfter, hnone]
    simp
  · simp [hne]

/-- The message is new: it has not been broadcast yet. -/
theorem record (h : Accounted config v) (hsound : Sound v) {purpose : Purpose} {dto : MessageDto}
    (hk : (v.sockets k).stage = .record purpose p dto) :
    Accounted config (v.goto k (.broadcast purpose p ⟨v.directory.objectCount, dto⟩)
      (v.directory.createShared.addHistoryMessage config (v.directory.peerRoom p)
        ⟨v.directory.objectCount, dto⟩)
      [.recorded (v.directory.peerRoom p) ⟨v.directory.objectCount, dto⟩]) := by
  have hlt : p < v.directory.peerCount := by
    cases purpose <;> exact (hsound.phase k _ p (by rw [hk]; rfl)).1
  refine h.goto hsound le_rfl (Nat.le_succ _) (fun _ _ => rfl) ?_ ?_ ?_ ?_ ?_ ?_
  · intro ρ
    have hrecorded : recordedIn ρ ([.recorded (v.directory.peerRoom p)
        ⟨v.directory.objectCount, dto⟩] ++ v.log) = if v.directory.peerRoom p = ρ then
          ⟨v.directory.objectCount, dto⟩ :: recordedIn ρ v.log else recordedIn ρ v.log := by
      rcases eq_or_ne (v.directory.peerRoom p) ρ with heq | hne
      · simp [recordedIn, Event.recordedIn?, heq]
      · simp [recordedIn, Event.recordedIn?, hne]
    have hbefore := h.history ρ
    rw [historyAfter, hrecorded]
    have hshared : v.directory.createShared.history = v.directory.history := rfl
    rw [Directory.addHistoryMessage_history, hshared]
    split
    · next hdisabled =>
      -- nothing is kept
      have hbound : config.maxRoomHistoryMessages.getD 0 = 0 := by
        simpa [Room.historyDisabled] using hdisabled
      rw [hbefore, historyAfter, hbound, List.take_zero, List.take_zero]
    · next hdisabled =>
      have hbound : config.maxRoomHistoryMessages.getD 0 ≠ 0 := by
        simpa [Room.historyDisabled] using hdisabled
      rcases eq_or_ne (v.directory.peerRoom p) ρ with rfl | hne
      · rw [Function.update_self, if_pos rfl, hbefore, historyAfter]
        exact Room.popFront_take_reverse _ hbound _ _
      · rw [Function.update_of_ne hne.symm, if_neg hne, hbefore, historyAfter]
  · intro ρ message hmem
    obtain ⟨rfl, -⟩ := Event.recorded.inj (List.mem_singleton.mp hmem)
    exact hsound.room_lt p hlt
  · intro ρ message hmem
    cases List.mem_singleton.mp hmem
  · rintro _ _ _ ⟨⟩
    exact Nat.lt_succ_self _
  · intro p info hstage
    cases hstage
  · refine h.justified.cons fun ρ hmem => ?_
    exact absurd (h.broadcast ρ _ hmem) (lt_irrefl _)

/-- Every member there was is sent the message. -/
theorem broadcast_step (h : Accounted config v) (hsound : Sound v) {purpose : Purpose}
    {message : Object MessageDto} (hk : (v.sockets k).stage = .broadcast purpose p message)
    {qs : List PeerRef}
    (hqs : ∀ id q, v.directory.member (v.directory.peerRoom p) id = some q → q ∈ qs) :
    Accounted config (v.goto k (State.afterBroadcast purpose p) v.directory
      (.broadcast (v.directory.peerRoom p) message :: qs.map fun q => .sent q message)) := by
  have hsent : ∀ e ∈ qs.map fun q => Event.sent q message, ∃ q, e = .sent q message := by
    intro e he
    obtain ⟨q, -, rfl⟩ := List.mem_map.mp he
    exact ⟨q, rfl⟩
  refine h.goto hsound le_rfl le_rfl (fun _ _ => rfl) ?_ ?_ ?_ ?_ ?_ ?_
  · intro ρ
    rw [h.history, historyAfter, historyAfter, recordedIn_append]
    intro ρ' message' hmem
    rcases List.mem_cons.mp hmem with he | hmem
    · cases he
    · obtain ⟨_, he⟩ := hsent _ hmem
      cases he
  · intro ρ message' hmem
    rcases List.mem_cons.mp hmem with he | hmem
    · cases he
    · obtain ⟨_, he⟩ := hsent _ hmem
      cases he
  · intro ρ message' hmem
    rcases List.mem_cons.mp hmem with he | hmem
    · obtain ⟨-, rfl⟩ := Event.broadcast.inj he
      exact h.broadcasting k purpose p _ hk
    · obtain ⟨_, he⟩ := hsent _ hmem
      cases he
  · intro purpose' p' message' hstage
    cases purpose <;> cases hstage
  · intro p' info hstage
    cases purpose <;> cases hstage
  · have hjustified : Justified (Explains config)
        ((qs.map fun q => .sent q message) ++ v.log) := by
      apply h.justified.append
      intro e he past
      obtain ⟨_, rfl⟩ := hsent e he
      trivial
    refine hjustified.cons fun q hadded hremoved => List.mem_append_left _ ?_
    have hadded : .added (v.directory.peerRoom p) q ∈ v.log := by simpa using hadded
    have hremoved : .removed q ∉ v.log := by simpa using hremoved
    -- added and not removed, so in the map
    have hmember := ((hsound.added _ q hadded).2.2).resolve_left hremoved
    exact List.mem_map.mpr ⟨q, hqs _ q hmember, rfl⟩

theorem getHistory (h : Accounted config v) (hsound : Sound v) {peers : List (Option PeerDto)}
    (hk : (v.sockets k).stage = .getHistory p peers) {info : Object MessageDto}
    (hcode : info.val.code = some .codeInfo)
    (hinfo : info.val.history = v.directory.getHistory config (v.directory.peerRoom p)) :
    Accounted config (v.goto k (.sendInfo p info) v.directory.createShared
      [.snapshot (v.directory.peerRoom p) p
        (v.directory.getHistory config (v.directory.peerRoom p))]) := by
  have hphase : (v.sockets k).stage.phase = some (.onboarding, p) := by
    rw [hk]
    rfl
  refine h.goto hsound le_rfl (Nat.le_succ _) (fun _ _ => rfl) ?_ ?_ ?_ ?_ ?_ ?_
  · intro ρ
    rw [historyAfter, recordedIn_append ρ (by simp), ← historyAfter]
    exact h.history ρ
  · simp
  · simp
  · simp
  · rintro _ _ ⟨⟩
    refine ⟨hcode, ?_⟩
    rw [hinfo]
    exact List.mem_singleton_self _
  · refine h.justified.cons ⟨(hsound.phase k _ p hphase).2.2.2 rfl, ?_⟩
    rw [Directory.getHistory, h.history]

theorem sendInfo (h : Accounted config v) (hsound : Sound v) {info : Object MessageDto}
    (hk : (v.sockets k).stage = .sendInfo p info) :
    Accounted config (v.goto k (.joined p) v.directory
      [.joined (v.directory.peerRoom p) p, .sent p info]) := by
  obtain ⟨hcode, hsnapshot⟩ := h.informed k p info hk
  refine h.goto hsound le_rfl le_rfl (fun _ _ => rfl) ?_ ?_ ?_ ?_ ?_ ?_
  · intro ρ
    rw [historyAfter, recordedIn_append ρ (by simp), ← historyAfter]
    exact h.history ρ
  · simp
  · simp
  · simp
  · simp
  · have hjustified : Justified (Explains config) (.sent p info :: v.log) :=
      h.justified.cons trivial
    exact hjustified.cons ⟨info, by simp, hcode, List.mem_cons_of_mem _ hsnapshot⟩

theorem moves (h : Accounted config v) (hsound : Sound v) {a : Act} {v' : View}
    (hm : Moves config v a v') : Accounted config v' := by
  cases hm with
  | connect hk => exact h.connect _ _
  | enter hk hρ =>
      exact h.quiet hsound le_rfl le_rfl (fun _ _ => rfl) (fun _ => rfl) (by simp) (by simp)
        (by simp)
  -- a new room has an empty history, as the log says
  | createRoom hk hnone =>
      exact h.quiet hsound (Nat.le_succ _) le_rfl (fun _ _ => rfl) (h.history_createRoom _)
        (by simp) (by simp) (by simp)
  | createPeer hk dto =>
      refine h.quiet hsound le_rfl le_rfl ?_ (fun _ => rfl) (by simp) (by simp) (by simp)
      intro p hp
      exact Function.update_of_ne hp.ne _ _
  | record hk => exact h.record hsound hk
  | broadcast hk hqs => exact h.broadcast_step hsound hk hqs
  | addPeer hk =>
      exact h.quiet hsound le_rfl le_rfl (fun _ _ => rfl) (fun _ => rfl) (by simp) (by simp)
        (by simp)
  | onboardPeer hk peers =>
      exact h.quiet hsound le_rfl le_rfl (fun _ _ => rfl) (fun _ => rfl) (by simp) (by simp)
        (by simp)
  | getHistory hk hcode hinfo => exact h.getHistory hsound hk hcode hinfo
  | sendInfo hk => exact h.sendInfo hsound hk
  -- a handler of a message makes objects and records none itself
  | stay hk hstage hd hnew =>
      obtain ⟨n, hn, rfl⟩ := hd
      refine h.quiet hsound le_rfl hn (fun _ _ => rfl) (fun _ => rfl) (by simp) hnew ?_
      rintro p info rfl
      simp [Stage.phase] at hstage
  | removePeerById hk dto =>
      exact h.quiet hsound le_rfl le_rfl (fun _ _ => rfl) (fun _ => rfl) (by simp) (by simp)
        (by simp)
  | invalidateSocket hk =>
      exact h.quiet hsound le_rfl le_rfl (fun _ _ => rfl) (fun _ => rfl) (by simp) (by simp)
        (by simp)
  | isEmpty hk hstage =>
      refine h.quiet hsound le_rfl le_rfl (fun _ _ => rfl) (fun _ => rfl) (by simp) ?_ ?_
      · rcases hstage with rfl | rfl <;> simp
      · rcases hstage with rfl | rfl <;> simp
  | deleteRoom hk =>
      exact h.quiet hsound le_rfl le_rfl (fun _ _ => rfl) (fun _ => rfl) (by simp) (by simp)
        (by simp)
  | other => exact h

end Accounted

variable {fw : Framework} {config : ConfigDto}

theorem accounted {s : State} (hs : (system fw config).Reachable s) : Accounted config s.view := by
  refine Transition.System.ReachableVia.invariant (I := fun s => Accounted config s.view) ?_
    (fun s a s' hreach h _ hstep => h.moves (sound hreach) (step_moves hstep)) hs
  rintro _ ⟨clock, rfl⟩
  constructor
  case history =>
    intro ρ
    show [] = (List.take (config.maxRoomHistoryMessages.getD 0) []).reverse
    rw [List.take_nil, List.reverse_nil]
  all_goals simp [State.view, justified_nil]

/-! ### No message is lost -/

namespace State

/-- The peer has been sent the message, or a `CODE_INFO` with the message in
its history. -/
def Delivered (s : State) (p : PeerRef) (message : Object MessageDto) : Prop :=
  .sent p message ∈ s.log ∨
    ∃ info, .sent p info ∈ s.log ∧ info.val.code = some .codeInfo ∧
      ∃ history, info.val.history = some history ∧ some message ∈ history

/-- At least `bound` messages newer than this one had been recorded when the
peer's history was read. -/
def Overtaken (s : State) (bound : ℕ) (ρ : RoomRef) (p : PeerRef) (message : Object MessageDto) :
    Prop :=
  ∃ history past newer older, .snapshot ρ p history :: past <:+ s.log ∧
    recordedIn ρ past = newer ++ message :: older ∧ bound ≤ newer.length

/-- A message is not overtaken while the log is short. -/
theorem not_overtaken {s : State} {bound : ℕ} {ρ : RoomRef} {p : PeerRef}
    {message : Object MessageDto} (h : s.log.length ≤ bound) :
    ¬ s.Overtaken bound ρ p message := by
  rintro ⟨history, past, newer, older, hpast, hsplit, hle⟩
  have hpastLength := hpast.length_le
  have hrecorded : (recordedIn ρ past).length ≤ past.length := List.length_filterMap_le _ _
  rw [hsplit] at hrecorded
  simp only [List.length_append, List.length_cons] at hpastLength hrecorded
  omega

end State

/-- **No message is lost to a joining peer.**  A message has been recorded in
a room and broadcast there, and a peer that has finished joining the room had
not been removed before the broadcast.  Then the message has been delivered to
the peer, itself or in a `CODE_INFO`, or the history the peer was given was
read after as many newer messages as a history holds. -/
theorem message_reaches_joiner {s : State} (hs : (system fw config).Reachable s) {bound : ℕ}
    (hbound : config.maxRoomHistoryMessages = some bound) (hpos : 0 < bound) {ρ : RoomRef}
    {message : Object MessageDto} {p : PeerRef} {past : List Event}
    (hrecorded : .recorded ρ message ∈ s.log) (hbroadcast : .broadcast ρ message :: past <:+ s.log)
    (hjoined : .joined ρ p ∈ s.log) (hremoved : .removed p ∉ past) :
    s.Delivered p message ∨ s.Overtaken bound ρ p message := by
  have hjustified := (accounted hs).justified
  -- the newcomer's `CODE_INFO` and the history it was made from
  obtain ⟨pastJoined, hpastJoined⟩ := exists_past hjoined
  obtain ⟨info, hsent, hcode, hsnapshot⟩ := hjustified _ _ hpastJoined
  have hsent : .sent p info ∈ s.log := mem_of_past hpastJoined hsent
  obtain ⟨pastSnapshot, hpastSnapshot⟩ := exists_past (mem_of_past hpastJoined hsnapshot)
  obtain ⟨hadded, hhistory⟩ := hjustified _ _ hpastSnapshot
  -- whoever was a member at the broadcast was sent the message itself
  have hmember : .added ρ p ∈ past → .sent p message ∈ s.log := by
    intro hadded
    exact mem_of_past hbroadcast (hjustified _ _ hbroadcast p hadded hremoved)
  rcases past_or_past hbroadcast hpastSnapshot (by simp) with hbefore | hbefore
  · exact .inl (.inl (hmember (mem_of_past hbefore hadded)))
  · -- the message was recorded before it was broadcast, and that before the history was read
    obtain ⟨pastRecorded, hpastRecorded⟩ := exists_past hrecorded
    have hrecorded : .recorded ρ message ∈ pastSnapshot := by
      rcases past_or_past hpastRecorded hbroadcast (by simp) with h | h
      · exact absurd (h.subset List.mem_cons_self) (hjustified _ _ hpastRecorded ρ)
      · exact mem_of_past hbefore (h.subset List.mem_cons_self)
    obtain ⟨newer, older, hsplit⟩ := List.append_of_mem (mem_recordedIn.mpr hrecorded)
    rcases lt_or_ge newer.length bound with hlt | hle
    · -- it is among the newest, so the history has it
      have henabled : ¬ Room.historyDisabled config = true := by
        simp [Room.historyDisabled, hbound, hpos.ne']
      rw [if_neg henabled] at hhistory
      refine .inl (.inr ⟨info, hsent, hcode, _, hhistory, ?_⟩)
      apply List.mem_map_of_mem
      obtain ⟨n, hn⟩ : ∃ n, bound - newer.length = n + 1 :=
        ⟨bound - newer.length - 1, by omega⟩
      rw [historyAfter, List.mem_reverse, hbound, hsplit, Option.getD_some, List.take_append, hn,
        List.take_succ_cons]
      exact List.mem_append_right _ List.mem_cons_self
    · exact .inr ⟨_, _, newer, older, hpastSnapshot, hsplit, hle⟩

/-- Bob joins after Ann, and learns of it. -/
theorem message_reaches_joiner_both : ∃ s message,
    (system silent {}).run fresh joinBoth = some s ∧ message.val.code = some .codePeerJoined ∧
      message.val.peerName = some "Ann" ∧ .recorded 0 message ∈ s.log ∧
      s.Delivered 1 message := by
  obtain ⟨s, message, hrun, hcode, hname, hrecorded, hbroadcast, hjoined, hbob, hlength⟩ :
      ∃ s message, (system silent {}).run fresh joinBoth = some s ∧
        message.val.code = some .codePeerJoined ∧ message.val.peerName = some "Ann" ∧
        s.log[12]? = some (.recorded 0 message) ∧ s.log[11]? = some (.broadcast 0 message) ∧
        s.log[0]? = some (.joined 0 1) ∧ (s.sockets 1).stage.phase = some (.staying, 1) ∧
        s.log.length = 13 := ⟨_, _, rfl, rfl, rfl, rfl, rfl, rfl, rfl, rfl⟩
  have hs : (system silent {}).Reachable s := .run (.init ⟨_, rfl⟩) hrun
  have hrecorded := List.mem_of_getElem? hrecorded
  obtain ⟨past, hpast⟩ := exists_past (List.mem_of_getElem? hbroadcast)
  have hremoved : .removed 1 ∉ past := by
    intro hmem
    exact ((sound hs).phase 1 _ 1 hbob).2.2.1 (by simp) (mem_of_past hpast hmem)
  have hbound : (ConfigDto.maxRoomHistoryMessages {}) = some 100 := rfl
  have hdelivered := message_reaches_joiner hs hbound (by decide) hrecorded hpast
    (List.mem_of_getElem? hjoined) hremoved
  refine ⟨s, message, hrun, hcode, hname, hrecorded, hdelivered.resolve_right ?_⟩
  apply State.not_overtaken
  omega

end Chat

end CanChat
