/-
CanChat/Screen.lean

The messages shown on the pages of a room.

A page shows the last messages of the history in its `CODE_INFO` and the messages
after it, so all pages of a room show ends of one list
(CanChat/Conversation.lean).  Where the history is disabled the page creates its
own `CODE_PEER_JOINED`, which equals the one sent to the other members.
-/
import CanChat.TypingPanel
import CanChat.Roster

namespace CanChat

namespace Conversation

open Participants ChatPage

section Shown

variable {config : ConfigDto} {T : Transcript} {v : Scene} {ρ : RoomRef} {p : PeerRef}
  {info : MessageDto} {news : List MessageDto}

theorem isPosted_eq (message : MessageDto) :
    isPosted message = (isBroadcast message && isKept message) := by
  unfold isPosted isBroadcast isKept
  rcases message.code with - | code
  · rfl
  · cases code <;> rfl

theorem isPosted_of_code {message : MessageDto} {code : MessageCodes}
    (hcode : message.code = some code) (hposted : isPosted { code } = true) :
    isPosted message = true := by
  unfold isPosted at hposted ⊢
  rwa [hcode]

/-- All recorded messages are shown on the pages. -/
theorem NoticeLog.isPosted {log : List MessageDto} (h : NoticeLog v ρ log) :
    ∀ message ∈ log, ChatPage.isPosted message = true := by
  intro message hmem
  obtain ⟨q, -, -, hattributed⟩ := h.fromRoom message hmem
  unfold Attributed at hattributed
  split at hattributed
  · next hcode => exact isPosted_of_code hcode rfl
  · next hcode => exact isPosted_of_code hcode rfl
  · next hcode => exact isPosted_of_code hcode rfl
  · next hcode => exact isPosted_of_code hcode rfl
  · exact hattributed.elim

/-- The live messages that a page shows are the recorded ones. -/
theorem filter_isPosted_live {live lines : List (Object MessageDto)} {start stop : ℕ}
    (hlive : (live.filter fun m => isBroadcast m.val) = segment lines start stop) :
    (live.map Object.val).filter ChatPage.isPosted = record (segment lines start stop) := by
  unfold record
  rw [← hlive, List.filter_map, List.filter_filter]
  congr 1
  refine List.filter_congr fun m _ => ?_
  show ChatPage.isPosted m.val = (isKept m.val && isBroadcast m.val)
  rw [isPosted_eq, Bool.and_comm]

/-- A page shows of its `CODE_INFO` the end of the record, with at least its own
`CODE_PEER_JOINED`. -/
theorem shownBy_info {lines : List (Object MessageDto)} {peers : List (Option PeerDto)}
    (hinfo : info = Conversation.info config v p peers lines)
    (hlast : (record lines).getLast? = some (joined v p)) :
    shownBy info =
      (record lines).drop
        ((record lines).length - max 1 (config.maxRoomHistoryMessages.getD 0)) := by
  obtain ⟨earlier, hrecord⟩ := List.getLast?_eq_some_iff.mp hlast
  have hlength : (record lines).length = earlier.length + 1 := by
    rw [hrecord, List.length_append]
    rfl
  have hhistory : info.history =
      if Room.historyDisabled config then none else some ((kept config lines).map some) := by
    rw [hinfo]
    rfl
  unfold shownBy replayed
  rw [hhistory]
  split
  · next hdisabled =>
    -- the history is disabled: the page creates its own notice
    have hbound : config.maxRoomHistoryMessages.getD 0 = 0 := beq_iff_eq.mp hdisabled
    have hown : ownNotice info = joined v p := by
      rw [hinfo]
      rfl
    rw [hbound, hlength, hrecord, Nat.max_zero, Nat.add_sub_cancel, List.drop_left, hown]
    rfl
  · next henabled =>
    have hbound : config.maxRoomHistoryMessages.getD 0 ≠ 0 := fun h => henabled (beq_iff_eq.mpr h)
    have hkept : ((kept config lines).map some).filterMap (fun entry => entry.map Object.val) =
        (record lines).drop ((record lines).length - config.maxRoomHistoryMessages.getD 0) := by
      unfold kept record
      rw [if_neg henabled, Room.popFront_eq_drop, List.filterMap_map, List.length_map,
        ← List.map_drop]
      exact congrFun List.filterMap_eq_map _
    have hne : (record lines).drop ((record lines).length - config.maxRoomHistoryMessages.getD 0) ≠
        [] := by
      intro hnil
      have hle := List.drop_eq_nil_iff.mp hnil
      omega
    rw [Option.getD_some, hkept, if_neg hne, max_eq_right (Nat.one_le_iff_ne_zero.mpr hbound)]

theorem message?_pageEvent? (events : List ChatEvent) :
    (events.filterMap ChatEvent.pageEvent?).filterMap PageEvent.message? =
      events.filterMap ChatEvent.message? := by
  rw [List.filterMap_filterMap]
  refine List.filterMap_congr fun event _ => ?_
  cases event <;> rfl

theorem onclose_not_mem {events : List ChatEvent} (hopen : ChatEvent.onclose ∉ events) :
    PageEvent.onclose ∉ events.filterMap ChatEvent.pageEvent? := by
  intro hclose
  obtain ⟨event, hevent, hpage⟩ := List.mem_filterMap.mp hclose
  cases event with
  | onclose => exact hopen hevent
  | _ => cases hpage

/-- Events other than messages leave the initial page. -/
theorem afterEvents_of_no_message {events : List ChatEvent} (urlRoom : String)
    (hmessages : ∀ event ∈ events, event.message? = none) (hopen : ChatEvent.onclose ∉ events) :
    afterEvents urlRoom events {} = {} := by
  induction events with
  | nil => rfl
  | cons event events ih =>
      obtain ⟨hevent, hevents⟩ := List.forall_mem_cons.mp hmessages
      have hrest := ih hevents (List.not_mem_of_not_mem_cons hopen)
      cases event with
      | onmessage now message => cases hevent
      | onclose => exact absurd List.mem_cons_self hopen
      | _ => exact hrest

/-- A page that has handled all messages sent to it has handled its `CODE_INFO`
first. -/
theorem Sent.received (h : Sent config T v p info news) {events : List ChatEvent}
    (hreceived : events.filterMap ChatEvent.message? = (v.outbox p).map Object.val)
    (hopen : ChatEvent.onclose ∉ events) :
    ∃ idle now rest, events = idle ++ .onmessage now info :: rest ∧
      (∀ event ∈ idle, event.message? = none) ∧ rest.filterMap ChatEvent.message? = news ∧
      Greeted v.nick info (rest.filterMap ChatEvent.pageEvent?) ∧
      ∀ urlRoom, afterEvents urlRoom events {} =
        afterEvents urlRoom (.onmessage now info :: rest) {} := by
  rw [h.outbox] at hreceived
  obtain ⟨idle, first, rest, rfl, hidle, hfirst, hrest⟩ :=
    List.filterMap_eq_cons_iff.mp hreceived
  obtain ⟨now, rfl⟩ : ∃ now, first = .onmessage now info := by
    cases first with
    | onmessage now message => exact ⟨now, by rw [Option.some.inj hfirst]⟩
    | _ => cases hfirst
  have hopen' : ChatEvent.onclose ∉ rest := fun hclose =>
    hopen (List.mem_append_right _ (List.mem_cons_of_mem _ hclose))
  have hgreeted := h.greeted (rest.filterMap ChatEvent.pageEvent?)
    ((message?_pageEvent? rest).trans hrest) (onclose_not_mem hopen')
  refine ⟨idle, now, rest, rfl, hidle, hrest, hgreeted, fun urlRoom => ?_⟩
  have hblank : afterEvents urlRoom idle {} = {} :=
    afterEvents_of_no_message urlRoom hidle fun hclose => hopen (List.mem_append_left _ hclose)
  unfold afterEvents at hblank ⊢
  rw [List.foldl_append, hblank]

/-- A page that has handled all messages sent to it shows the record from the last
messages before its join. -/
theorem Sent.chatHistory (h : Sent config T v p info news) (htracks : Tracks T v)
    (hsentSegment :
      SentSegment config (T.lines (v.directory.peerRoom p)) (T.start p) (T.stop p) v p)
    {events : List ChatEvent} (urlRoom : String)
    (hreceived : events.filterMap ChatEvent.message? = (v.outbox p).map Object.val)
    (hopen : ChatEvent.onclose ∉ events) :
    ∃ n, ((record (T.lines (v.directory.peerRoom p))).take n).getLast? = some (joined v p) ∧
      (afterEvents urlRoom events {}).chatHistory = panelOf urlRoom info.peerId
        ((record ((T.lines (v.directory.peerRoom p)).take (T.stop p))).drop
          (n - max 1 (config.maxRoomHistoryMessages.getD 0))) := by
  let lines := T.lines (v.directory.peerRoom p)
  let earlier := record (lines.take (T.start p))
  have hearlier : earlier <+: record lines := record_take_prefix _ _
  obtain ⟨_, now, rest, -, -, hrest, hgreeted, hpage⟩ := h.received hreceived hopen
  obtain ⟨peers, hinfo⟩ := h.greeting
  obtain ⟨live, rfl, hlive⟩ := h.live
  have hshown := shownBy_info hinfo hsentSegment.getLast?_record
  have hposted : (shownBy info).filter ChatPage.isPosted = shownBy info := by
    refine List.filter_eq_self.mpr fun message hmem => ?_
    rw [hshown] at hmem
    exact (htracks.noticeLog _).isPosted message (hearlier.subset (List.mem_of_mem_drop hmem))
  refine ⟨earlier.length, ?_, ?_⟩
  · rw [List.prefix_iff_eq_take.mp hearlier |>.symm]
    exact hsentSegment.getLast?_record
  · rw [hpage, chatHistory_afterEvents hgreeted, hrest, List.filter_append, hposted, hshown,
      filter_isPosted_live hlive, record_take hsentSegment.start_le,
      List.drop_append_of_le_length (Nat.sub_le _ _)]

/-- Events before the `CODE_INFO` do not affect the typing panel. -/
theorem typingSince_received {id : Option Int} {idle rest : List ChatEvent} {now : Int}
    (hidle : ∀ event ∈ idle, event.message? = none) (hid : id ≠ info.peerId) :
    typingSince id (idle ++ .onmessage now info :: rest) = typingSince id rest := by
  have hnone : idle.foldl (ChatEvent.typing id) none = none := by
    induction idle with
    | nil => rfl
    | cons event idle ih =>
        obtain ⟨hevent, hrest⟩ := List.forall_mem_cons.mp hidle
        cases event with
        | onmessage now message => cases hevent
        | _ => exact ih hrest
  have hinfo : ChatEvent.typing id none (.onmessage now info) = none := if_neg hid.symm
  unfold typingSince
  rw [List.foldl_append, hnone, List.foldl_cons, hinfo]

/-- The broadcasts after one that the page has handled were handled after it. -/
theorem Sent.lines_after (h : Sent config T v p info news)
    (hall : T.stop p = (T.lines (v.directory.peerRoom p)).length)
    {before after : List ChatEvent} {now : Int} {message : MessageDto}
    (hrest : (before ++ .onmessage now message :: after).filterMap ChatEvent.message? = news)
    (hmessage : isBroadcast message = true) :
    ∃ earlier m later, T.lines (v.directory.peerRoom p) = earlier ++ m :: later ∧
      m.val = message ∧ ∀ m' ∈ later, m'.val ∈ after.filterMap ChatEvent.message? := by
  let lines := T.lines (v.directory.peerRoom p)
  obtain ⟨live, rfl, hlive⟩ := h.live
  have hsplit : before.filterMap ChatEvent.message? ++
      message :: after.filterMap ChatEvent.message? = live.map Object.val := by
    rw [← hrest, List.filterMap_append]
    rfl
  obtain ⟨sentBefore, sentFrom, rfl, -, hfrom⟩ := List.map_eq_append_iff.mp hsplit.symm
  obtain ⟨m, sentAfter, rfl, rfl, hafter⟩ := List.map_eq_cons_iff.mp hfrom
  have hsegment : segment lines (T.start p) (T.stop p) = lines.drop (T.start p) := by
    unfold segment
    rw [hall, List.take_length]
  have hkeep : ((m :: sentAfter).filter fun m => isBroadcast m.val) =
      m :: sentAfter.filter fun m => isBroadcast m.val := List.filter_cons_of_pos hmessage
  have hfilter : ((sentBefore ++ m :: sentAfter).filter fun m => isBroadcast m.val) =
      (sentBefore.filter fun m => isBroadcast m.val) ++
        m :: sentAfter.filter fun m => isBroadcast m.val := by
    rw [List.filter_append, hkeep]
  refine ⟨lines.take (T.start p) ++ sentBefore.filter fun m => isBroadcast m.val, m,
    sentAfter.filter fun m => isBroadcast m.val, ?_, rfl, fun m' hm' => ?_⟩
  · rw [List.append_assoc, ← hfilter, hlive, hsegment, List.take_append_drop]
  · rw [← hafter]
    exact List.mem_map_of_mem (List.mem_filter.mp hm').1

theorem code_of_tellsTyping {message : MessageDto} (h : tellsTyping message = some true) :
    message.code = some .codePeerIsTyping := by
  unfold tellsTyping at h
  split at h
  · next hcode => exact hcode
  all_goals cases h

/-- The replayed history contains no typing notices. -/
theorem Sent.replayed_quiet (h : Sent config T v p info news) :
    ∀ message ∈ replayed info, tellsTyping message ≠ some true := by
  obtain ⟨peers, hinfo⟩ := h.greeting
  obtain ⟨-, hsuffix⟩ := replayed_info (congrArg MessageDto.history hinfo)
  intro message hmem htyping
  obtain ⟨m, hm, rfl⟩ := List.mem_map.mp (hsuffix.subset hmem)
  have hkept := (List.mem_filter.mp hm).2
  simp [isKept, code_of_tellsTyping htyping] at hkept

/-- A peer shown as typing is a peer of the room that has not left. -/
theorem Sent.not_left (h : Sent config T v p info news)
    (hleftIsLast : LeftIsLast v (v.directory.peerRoom p) (T.lines (v.directory.peerRoom p)))
    (hall : T.stop p = (T.lines (v.directory.peerRoom p)).length) {rest : List ChatEvent}
    (hrest : rest.filterMap ChatEvent.message? = news) {e : TypingElement}
    (hbegun : Begun rest e) : ∃ q, q < v.directory.peerCount ∧
      v.directory.peerRoom q = v.directory.peerRoom p ∧
      e.peerId = some (v.directory.peerId q) ∧ e.peerName = some (v.nickname q) ∧
      mentions .codePeerLeft e.peerId (record (T.lines (v.directory.peerRoom p))) = false := by
  obtain ⟨before, now, message, after, rfl, htyping, hid, hname, hafter⟩ := hbegun
  have hcode := code_of_tellsTyping htyping
  obtain ⟨earlier, notice, later, hbroadcast, rfl, hlater⟩ :=
    h.lines_after hall hrest (by simp [isBroadcast, hcode])
  have hnotice : notice ∈ T.lines (v.directory.peerRoom p) := by
    rw [hbroadcast]
    exact List.mem_append_right _ List.mem_cons_self
  obtain ⟨q, hq, hroom, hid', hname'⟩ := hleftIsLast.named notice hnotice
  refine ⟨q, hq, hroom, hid ▸ hid', hname ▸ hname' (by simp [hcode]), ?_⟩
  rw [Bool.eq_false_iff]
  intro hleft
  obtain ⟨_, hmem, hcodeLeft, hidLeft⟩ := mentions_iff.mp hleft
  obtain ⟨m, hm, rfl⟩ := List.mem_map.mp hmem
  have hm' : m ∈ T.lines (v.directory.peerRoom p) := (List.mem_filter.mp hm).1
  have hlast := hleftIsLast.last
  rw [hbroadcast] at hm' hlast
  rcases List.mem_append.mp hm' with hearlier | hlate
  · -- the typing notice would follow `CODE_PEER_LEFT`
    exact (List.pairwise_append.mp hlast).2.2 m hearlier notice List.mem_cons_self hcodeLeft
      (hid.trans hidLeft.symm)
  · rcases List.mem_cons.mp hlate with rfl | hlate
    · rw [hcode] at hcodeLeft
      cases hcodeLeft
    · -- the page has handled `CODE_PEER_LEFT` after the typing notice
      obtain ⟨event, hevent, heq⟩ := List.mem_filterMap.mp (hlater m hlate)
      obtain ⟨now', rfl⟩ : ∃ now', event = .onmessage now' m.val := by
        cases event with
        | onmessage now' message => exact ⟨now', by rw [Option.some.inj heq]⟩
        | _ => cases heq
      have hquiets : (m.val.peerId == e.peerId && tellsTyping m.val == some false) = false :=
        hafter _ hevent
      have hfalse : tellsTyping m.val = some false := by
        unfold tellsTyping
        rw [hcodeLeft]
      rw [hidLeft, hfalse, beq_self_eq_true, beq_self_eq_true] at hquiets
      cases hquiets

end Shown

open Isolation

/-- **All pages of a room show ends of one list.**  In every state that the server
can reach by whole handlers (not interleaved) there is for each room one list of
messages, which ends with the history of the room, such that the page of every
connected peer whose socket is open shows, once it has handled all messages sent to
it, this list from the last messages before its own `CODE_PEER_JOINED` on, with
consecutive messages of one author in one container.  Where handlers are
interleaved this fails (CanChat/SingleDelivery.lean, CanChat/DeliveryOrder.lean). -/
theorem conversation_shown (fw : Framework) (config : ConfigDto) {requests : Requests}
    {acts : List Isolation.Occurrence} {s : State}
    (hs : (system fw config requests).run {} acts = some s) (ρ : RoomRef) :
    ∃ log : List MessageDto, (s.server.rooms ρ).history.map Object.val <:+ log ∧
      ∀ (k : SocketRef) (p : PeerRef) (urlRoom : String) (events : List ChatEvent),
        connected (s.socket k) = some p → (s.server.peers p).room = ρ →
        (s.server.peers p).socket.isSome = true →
        events.filterMap ChatEvent.message? = (s.server.outbox p).map Object.val →
        ChatEvent.onclose ∉ events →
        ∃ n, (log.take n).getLast? = some (joined s.server.scene p) ∧
          (afterEvents urlRoom events {}).chatHistory =
            panelOf urlRoom (some (s.server.peers p).peerId)
              (log.drop (n - max 1 (config.maxRoomHistoryMessages.getD 0))) := by
  obtain ⟨T, -, -, hheld⟩ := (Held.init config).run fw config hs
  have hrefines := hheld.refines
  refine ⟨record (T.lines ρ), ?_, fun k p urlRoom events hlink hroom honline hreceived hopen => ?_⟩
  · have hhistory : (s.server.rooms ρ).history = kept config (T.lines ρ) :=
      hrefines.realizes.history ρ
    rw [hhistory]
    exact kept_suffix config _
  · obtain rfl := hroom
    have hisMember := hheld.link k p hlink
    have hlt := hrefines.lt_of_isMember hisMember
    have hsentSegment := hrefines.realizes.sentSegment p hlt
    obtain ⟨info, news, hsent⟩ := hrefines.sent hlt
    have hreceives : s.server.scene.receives (s.server.peers p).room p = true :=
      (Bool.and_eq_true _ _).mpr ⟨beq_iff_eq.mpr hisMember, honline⟩
    obtain ⟨n, hn, hchat⟩ := hsent.chatHistory hrefines.tracks hsentSegment urlRoom hreceived hopen
    rw [hsentSegment.upToDate hreceives, List.take_length, hsent.self] at hchat
    exact ⟨n, hn, hchat⟩

theorem conversation_shown_oneRoom : ∃ s,
    (system chatter { maxRoomHistoryMessages := some 2 } oneRoom).run {} (twoPosts.take 8) =
      some s ∧
      ∃ log : List MessageDto,
        (s.server.rooms (s.server.peers 1).room).history.map Object.val <:+ log ∧
        ∃ n, (log.take n).getLast? = some (joined s.server.scene 1) ∧
          (afterEvents "" ((s.server.outbox 1).map fun object => .onmessage 0 object.val)
            {}).chatHistory =
            panelOf "" (some (s.server.peers 1).peerId) (log.drop (n - max 1 2)) := by
  have hruns : ((system chatter { maxRoomHistoryMessages := some 2 } oneRoom).run {}
      (twoPosts.take 8)).any (fun s => decide (connected (s.socket 0) = some 1) &&
        (s.server.peers 1).socket.isSome) = true := by decide +kernel
  obtain ⟨s, hrun, hs⟩ := (Option.any_eq_true _ _).mp hruns
  obtain ⟨hlink, honline⟩ := (Bool.and_eq_true _ _).mp hs
  obtain ⟨log, hlog, hshown⟩ := conversation_shown chatter { maxRoomHistoryMessages := some 2 } hrun
    (s.server.peers 1).room
  refine ⟨s, hrun, log, hlog, hshown 0 1 "" _ (of_decide_eq_true hlink) rfl honline ?_ ?_⟩
  · rw [List.filterMap_map]
    exact congrFun List.filterMap_eq_map _
  · intro hclose
    obtain ⟨_, -, hmessage⟩ := List.mem_map.mp hclose
    cases hmessage

/-- The typing panel of the page of `p` lists other members of the room, each once. -/
structure ShowsTyping (s : Server) (p : PeerRef) (events : List ChatEvent)
    (whosTyping : List TypingElement) : Prop where
  distinct : Distinct whosTyping
  present : ∀ e ∈ whosTyping, ∃ q, q ∈ Room.members (s.peers p).room s ∧ q ≠ p ∧
    e.peerId = some (s.peers q).peerId ∧ e.peerName = some (s.scene.nickname q)
  /-- An entry that is not fading has the time of the last typing notice. -/
  since : ∀ id, id ≠ some (s.peers p).peerId → ∀ timestamp,
    (∃ e ∈ whosTyping, e.peerId = id ∧ e.timestamp = timestamp ∧ e.removed = false) ↔
      typingSince id events = some timestamp

/-- **The typing panel shows members only.**  In every state that the server can
reach by whole handlers (not interleaved), the page of a connected peer whose socket
is open shows as typing, once it has handled all messages sent to it, other members
of the room only, each once and under its name, with the time of the last typing
notice.  A chat message removes its author from the panel, a shared file does not. -/
theorem typing_shown (fw : Framework) (config : ConfigDto) {requests : Requests}
    {acts : List Isolation.Occurrence} {s : State}
    (hs : (system fw config requests).run {} acts = some s) {k : SocketRef} {p : PeerRef}
    (hlink : connected (s.socket k) = some p)
    (honline : (s.server.peers p).socket.isSome = true) (urlRoom : String)
    {events : List ChatEvent}
    (hreceived : events.filterMap ChatEvent.message? = (s.server.outbox p).map Object.val)
    (hopen : ChatEvent.onclose ∉ events) :
    ShowsTyping s.server p events (afterEvents urlRoom events {}).whosTyping := by
  obtain ⟨T, -, -, hheld⟩ := (Held.init config).run fw config hs
  have hrefines := hheld.refines
  have hisMember := hheld.link k p hlink
  have hlt := hrefines.lt_of_isMember hisMember
  have hsentSegment := hrefines.realizes.sentSegment p hlt
  obtain ⟨info, news, hsent⟩ := hrefines.sent hlt
  have hreceives : s.server.scene.receives (s.server.peers p).room p = true :=
    (Bool.and_eq_true _ _).mpr ⟨beq_iff_eq.mpr hisMember, honline⟩
  have hall := hsentSegment.upToDate hreceives
  obtain ⟨idle, now, rest, rfl, hidle, hrest, hgreeted, hpage⟩ := hsent.received hreceived hopen
  have hpanel := typing_afterEvents urlRoom now hgreeted hsent.replayed_quiet
  rw [hsent.self] at hpanel
  rw [hpage]
  refine ⟨hpanel.distinct, fun e he => ?_, fun id hid timestamp => ?_⟩
  · obtain ⟨q, hq, hroom, hid, hname, hleft⟩ :=
      hsent.not_left (hrefines.leftIsLast _) hall hrest (hpanel.begun e he)
    refine ⟨q, ?_, ?_, hid, hname⟩
    · rw [hid, ← hroom] at hleft
      have hmember := (hrefines.tracks.member q hq).mpr hleft
      rw [hroom] at hmember
      exact ((mem_members s.server _ hrefines.realizes.indexed).1 q).mpr hmember
    · rintro rfl
      exact hpanel.others e he hid
  · rw [typingSince_received hidle (hsent.self ▸ hid)]
    exact hpanel.since id hid timestamp

/-- Every message of the clients tells that they are typing. -/
def typist : Framework := { chatter with
  readFromString _ := some (some { code := some .codePeerIsTyping }) }

theorem typing_shown_oneRoom : ∃ s,
    (system typist {} oneRoom).run {} (twoPosts.take 4) = some s ∧
      let events := (s.server.outbox 1).map fun object => ChatEvent.onmessage 0 object.val
      (afterEvents "" events {}).whosTyping.map TypingElement.peerName = [some "Bob"] ∧
        ShowsTyping s.server 1 events (afterEvents "" events {}).whosTyping := by
  have hruns : ((system typist {} oneRoom).run {} (twoPosts.take 4)).any (fun s =>
      decide (connected (s.socket 0) = some 1) && (s.server.peers 1).socket.isSome &&
        decide ((afterEvents "" ((s.server.outbox 1).map fun object =>
          ChatEvent.onmessage 0 object.val) {}).whosTyping.map TypingElement.peerName =
            [some "Bob"])) = true := by decide +kernel
  obtain ⟨s, hrun, hs⟩ := (Option.any_eq_true _ _).mp hruns
  obtain ⟨hpeer, hshown⟩ := (Bool.and_eq_true _ _).mp hs
  obtain ⟨hlink, honline⟩ := (Bool.and_eq_true _ _).mp hpeer
  refine ⟨s, hrun, of_decide_eq_true hshown,
    typing_shown typist {} hrun (of_decide_eq_true hlink) honline "" ?_ ?_⟩
  · rw [List.filterMap_map]
    exact congrFun List.filterMap_eq_map _
  · intro hclose
    obtain ⟨_, -, hmessage⟩ := List.mem_map.mp hclose
    cases hmessage

end Conversation

end CanChat
