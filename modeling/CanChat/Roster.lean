/-
CanChat/Roster.lean

The list of participants on a page is the list of the members of the room.

The messages sent to a page determine the members of its room
(CanChat/MemberNotices.lean), and the list of the page is exact after every
message (CanChat/Reconciliation.lean).  So a page that has handled all messages
sent to it shows the other members of its room, sorted by name, for any bound on
the history.
-/
import CanChat.Conversation
import CanChat.GreetedPage

namespace CanChat

namespace Conversation

open Participants Truncation StableSort

/-! ### Notices -/

def isNotice (message : MessageDto) : Bool :=
  message.code == some .codePeerJoined || message.code == some .codePeerLeft

section Notices

variable {id : Option Int} {log before after : List MessageDto} {lines : List (Object MessageDto)}

/-- The map of a page depends on the notices of a log only. -/
theorem foldl_note_filter (log : List MessageDto) (listed : Bool) :
    (log.filter isNotice).foldl (note id) listed = log.foldl (note id) listed := by
  induction log generalizing listed with
  | nil => rfl
  | cons message log ih =>
      rcases hnotice : isNotice message with - | -
      · have hsame : note id listed message = listed := by
          obtain ⟨hjoined, hleft⟩ := Bool.or_eq_false_iff.mp hnotice
          unfold note
          split
          · next hcode => simp [hcode] at hjoined
          · next hcode => simp [hcode] at hleft
          · rfl
        rw [List.filter_cons_of_neg (by simp [hnotice]), List.foldl_cons, hsame]
        exact ih listed
      · rw [List.filter_cons_of_pos hnotice, List.foldl_cons, List.foldl_cons]
        exact ih _

/-- So does the order condition. -/
theorem pairwise_inOrder_filter :
    (log.filter isNotice).Pairwise InOrder ↔ log.Pairwise InOrder := by
  rw [List.pairwise_filter]
  constructor
  · refine fun h => h.imp fun {earlier later} horder hleft hjoined => ?_
    exact horder (by simp [isNotice, hleft]) (by simp [isNotice, hjoined]) hleft hjoined
  · exact fun h => h.imp fun horder _ _ => horder

/-- Filtering out messages that are no notices leaves the notices. -/
theorem filter_isNotice_map {keep : Object MessageDto → Bool}
    (hkeep : ∀ m, isNotice m.val = true → keep m = true) (lines : List (Object MessageDto)) :
    ((lines.filter keep).map Object.val).filter isNotice =
    (lines.map Object.val).filter isNotice := by
  rw [List.filter_map, List.filter_map, List.filter_filter]
  congr 1
  refine List.filter_congr fun m _ => ?_
  show (isNotice m.val && keep m) = isNotice m.val
  rcases h : isNotice m.val with - | -
  · rfl
  · rw [hkeep m h]
    rfl

theorem isKept_of_isNotice {message : MessageDto} (h : isNotice message = true) :
    isKept message = true := by
  unfold isNotice at h
  unfold isKept
  rcases (Bool.or_eq_true _ _).mp h with hcode | hcode
  · rw [beq_iff_eq.mp hcode]
    rfl
  · rw [beq_iff_eq.mp hcode]
    rfl

theorem isBroadcast_of_isNotice {message : MessageDto} (h : isNotice message = true) :
    isBroadcast message = true := by
  unfold isNotice at h
  unfold isBroadcast
  rcases (Bool.or_eq_true _ _).mp h with hcode | hcode
  · rw [beq_iff_eq.mp hcode]
  · rw [beq_iff_eq.mp hcode]

/-- The record up to `stop` is that up to `start`, followed by the segment in
between. -/
theorem record_take {start stop : ℕ} (hle : start ≤ stop) :
    record (lines.take stop) = record (lines.take start) ++ record (segment lines start stop) := by
  have htake : (lines.take stop).take start = lines.take start := by
    rw [List.take_take, min_eq_left hle]
  rw [← record_append, ← htake]
  exact congrArg record (List.take_append_drop start (lines.take stop)).symm

theorem record_take_prefix (lines : List (Object MessageDto)) (n : ℕ) :
    record (lines.take n) <+: record lines := by
  refine ⟨record (lines.drop n), ?_⟩
  rw [← record_append, List.take_append_drop]

/-- The peers present after more notices, from those present before. -/
theorem foldl_note_present (horder : after.Pairwise InOrder)
    (hback : mentions .codePeerLeft id before = true → mentions .codePeerJoined id after = false)
    {listed : Bool} (hlisted : listed = true ↔ Present before id) :
    after.foldl (note id) listed = true ↔ Present (before ++ after) id := by
  unfold Present at hlisted ⊢
  rw [mentions_append, mentions_append]
  rcases hleft : mentions .codePeerLeft id after with - | -
  · rw [foldl_note_of_not_left hleft, Bool.or_eq_true, hlisted, Bool.or_eq_true, Bool.or_false]
    constructor
    · rintro (⟨hjoined, hnot⟩ | hjoined)
      · exact ⟨.inl hjoined, hnot⟩
      · refine ⟨.inr hjoined, Bool.eq_false_iff.mpr fun hbefore => ?_⟩
        rw [hback hbefore] at hjoined
        cases hjoined
    · rintro ⟨hjoined | hjoined, hnot⟩
      · exact .inl ⟨hjoined, hnot⟩
      · exact .inr hjoined
  · rw [foldl_note_of_left horder hleft, Bool.or_true]
    exact iff_of_false nofun fun h => Bool.noConfusion h.2

end Notices

/-! ### What a page is sent -/

section Sent

variable {config : ConfigDto} {T : Transcript} {v : Scene} {ρ : RoomRef} {p q : PeerRef}
  {message : MessageDto}

/-- A peer's own notice is the last that was recorded when it came. -/
theorem SentSegment.getLast?_record {lines : List (Object MessageDto)} {start stop : ℕ}
    (h : SentSegment config lines start stop v p) :
    (record (lines.take start)).getLast? = some (joined v p) := by
  obtain ⟨m, hm, hjoined⟩ := h.entered
  obtain ⟨before, hbefore⟩ := List.getLast?_eq_some_iff.mp hm
  have hkept : isKept m.val = true := by
    rw [hjoined]
    rfl
  rw [hbefore, record_snoc, if_pos hkept, List.getLast?_concat, hjoined]

/-- The name of the peer with an id. -/
def Scene.nick (v : Scene) (id : Option Int) : Option String :=
  ((List.range v.directory.peerCount).find? fun p => some (v.directory.peerId p) == id).map
    v.nickname

theorem Tracks.nick_peerId (h : Tracks T v) (hp : p < v.directory.peerCount) :
    v.nick (some (v.directory.peerId p)) = some (v.nickname p) := by
  unfold Scene.nick
  rcases hfind : (List.range v.directory.peerCount).find? _ with - | q
  · have hnone := List.find?_eq_none.mp hfind p (List.mem_range.mpr hp)
    simp at hnone
  · have hid := List.find?_some hfind
    have hq := List.mem_range.mp (List.mem_of_find?_eq_some hfind)
    obtain rfl := h.id_inj q p hq hp (by simpa using hid)
    rfl

/-- The recorded messages are coherent with the ids and nicknames of the peers. -/
theorem Tracks.coherent (h : Tracks T v) (hmem : message ∈ record (T.lines ρ)) :
    Coherent v.nick message ∧ message.code ≠ some .codeInfo := by
  obtain ⟨q, hq, -, hattributed⟩ := (h.noticeLog ρ).fromRoom message hmem
  refine ⟨⟨fun hcode => ?_, fun hcode => ?_⟩, fun hcode => ?_⟩
  · obtain rfl := hattributed.joined hcode
    exact (h.nick_peerId hq).symm
  · unfold Attributed at hattributed
    rw [hcode] at hattributed
    exact hattributed.2
  · unfold Attributed at hattributed
    rw [hcode] at hattributed
    exact hattributed

/-- A record that ends with a `CODE_PEER_JOINED` is a `RoomLog`. -/
theorem NoticeLog.roomLog {log : List MessageDto} (h : NoticeLog v ρ log)
    (hlast : log.getLast? = some (joined v p)) : RoomLog (joined v p) log := by
  refine ⟨fun message hmem => ?_, h.joinedOnce, h.leftOnce, h.leftAfter, hlast, rfl⟩
  obtain ⟨q, -, -, hattributed⟩ := h.fromRoom message hmem
  unfold Attributed at hattributed
  unfold Logged
  split
  · trivial
  · trivial
  · trivial
  · next hcode =>
    rw [hcode] at hattributed
    exact hattributed.2
  · next hjoined hleft hmessage hfile =>
    split at hattributed
    · next hcode => exact hjoined hcode
    · next hcode => exact hleft hcode
    · next hcode => exact hmessage hcode
    · next hcode => exact hfile hcode
    · exact hattributed

/-- A record can be extended to a `RoomLog` by the notice of a hypothetical join. -/
theorem Tracks.roomLog (h : Tracks T v) (ρ : RoomRef) :
    ∃ own, RoomLog own (record (T.lines ρ) ++ [own]) := by
  let n := v.directory.peerCount
  let created := v.createPeer ρ ""
  have hrecord : record ((T.join ρ "" v).lines ρ) = record (T.lines ρ) ++ [joined created n] := by
    have hbroadcast : (T.join ρ "" v).lines ρ =
        T.lines ρ ++ [⟨created.directory.objectCount, joined created n⟩] :=
      Function.update_self _ _ _
    rw [hbroadcast, record_snoc]
    rfl
  have hjoins := joinEffect_join {} ρ "" [] v
  have hown : joined created n = joined (v.join {} ρ "" []) n := by
    have hid : created.directory.peerId n = v.directory.peerIdCounter := Function.update_self _ _ _
    have hname : created.nickname n = "" := Function.update_self _ _ _
    rw [joined, joined, hjoins.peerId, hjoins.name, hid, hname]
  have hnoticeLog := (h.join {} ρ "" []).noticeLog ρ
  rw [hrecord, hown] at hnoticeLog
  exact ⟨_, hnoticeLog.roomLog List.getLast?_concat⟩

/-- `p` has been sent `info` and then `news`, and the peers present after them are
those present by the record up to `stop`. -/
structure Sent (config : ConfigDto) (T : Transcript) (v : Scene) (p : PeerRef)
    (info : MessageDto) (news : List MessageDto) : Prop where
  outbox : (v.outbox p).map Object.val = info :: news
  greeting : ∃ peers, info =
    Conversation.info config v p peers ((T.lines (v.directory.peerRoom p)).take (T.start p))
  live : ∃ live : List (Object MessageDto), news = live.map Object.val ∧
    (live.filter fun m => isBroadcast m.val) =
      segment (T.lines (v.directory.peerRoom p)) (T.start p) (T.stop p)
  greeted : ∀ events : List PageEvent, events.filterMap PageEvent.message? = news →
    PageEvent.onclose ∉ events → Greeted v.nick info events
  present : ∀ id, news.foldl (note id) (hear id false info) = true ↔
    Present (record ((T.lines (v.directory.peerRoom p)).take (T.stop p))) id

theorem Sent.self {info : MessageDto} {news : List MessageDto} (h : Sent config T v p info news) :
    info.peerId = some (v.directory.peerId p) := by
  obtain ⟨peers, rfl⟩ := h.greeting
  rfl

/-- The history of a room is the end of the record. -/
theorem kept_suffix (config : ConfigDto) (lines : List (Object MessageDto)) :
    (kept config lines).map Object.val <:+ record lines := by
  unfold kept
  split
  · exact List.nil_suffix
  · rw [Room.popFront_eq_drop]
    exact (List.drop_suffix _ _).map Object.val

theorem replayed_info {lines : List (Object MessageDto)} {info : MessageDto}
    (hhistory : info.history =
      if Room.historyDisabled config then none else some ((kept config lines).map some)) :
    (∀ entries, info.history = some entries → ∃ objects : List (Object MessageDto),
      entries = objects.map some ∧ objects.map Object.val <:+ record lines) ∧
      replayed info <:+ record lines := by
  have hkept := kept_suffix config lines
  unfold replayed
  rw [hhistory]
  split
  · exact ⟨nofun, List.nil_suffix⟩
  · have hmap : (kept config lines).filterMap ((fun entry => entry.map Object.val) ∘ some) =
        (kept config lines).map Object.val := congrFun List.filterMap_eq_map _
    refine ⟨fun entries hentries => ⟨_, (Option.some.inj hentries).symm, hkept⟩, ?_⟩
    rw [Option.getD_some, List.filterMap_map, hmap]
    exact hkept

/-- Broadcasts and direct messages are coherent with the ids and nicknames. -/
theorem Tracks.coherent_sent (h : Tracks T v) {m : Object MessageDto}
    (hkind : isBroadcast m.val = true ∨ isDirect m.val = true)
    (hbroadcast : isBroadcast m.val = true → m ∈ T.lines ρ) :
    Coherent v.nick m.val ∧ m.val.code ≠ some .codeInfo := by
  rcases hkind with hkind | hkind
  · rcases hkept : isKept m.val with - | -
    · have htyping : m.val.code = some .codePeerIsTyping := by simpa [isKept] using hkept
      rw [htyping]
      exact ⟨⟨by simp [htyping], by simp [htyping]⟩, by simp⟩
    · exact h.coherent (ρ := ρ)
        (List.mem_map_of_mem (List.mem_filter.mpr ⟨hbroadcast hkind, hkept⟩))
  · unfold isDirect at hkind
    split at hkind
    · next hcode => exact ⟨⟨by simp [hcode], by simp [hcode]⟩, by simp [hcode]⟩
    · next hcode => exact ⟨⟨by simp [hcode], by simp [hcode]⟩, by simp [hcode]⟩
    · cases hkind

/-- The notices among the live messages are those of the segment. -/
theorem filter_isNotice_live {live lines : List (Object MessageDto)} {start stop : ℕ}
    (hlive : (live.filter fun m => isBroadcast m.val) = segment lines start stop) :
    (live.map Object.val).filter isNotice =
      (record (segment lines start stop)).filter isNotice := by
  unfold record
  rw [filter_isNotice_map fun m => isKept_of_isNotice, ← hlive,
    filter_isNotice_map fun m => isBroadcast_of_isNotice]

/-- The `CODE_INFO` of a peer greets its page. -/
theorem Tracks.greets (h : Tracks T v) (hp : p < v.directory.peerCount)
    {earlier : List MessageDto} (hearlier : earlier <+: record (T.lines ρ)) {info : MessageDto}
    (honboards : Onboards (joined v p) earlier info) (horder : earlier.Pairwise InOrder)
    (hhistory : ∀ entries, info.history = some entries → ∃ objects : List (Object MessageDto),
      entries = objects.map some ∧ objects.map Object.val <:+ earlier) :
    Greets v.nick info := by
  obtain ⟨-, ⟨hid, hname⟩, entries, hpeers, hentries⟩ := honboards
  refine ⟨?_, ⟨entries, hpeers, fun entry hentry => ?_⟩, fun entries hentries => ?_⟩
  · rw [hid, hname]
    exact (h.nick_peerId hp).symm
  · obtain ⟨message, hmem, hcode, -, rfl⟩ := (hentries entry).mp hentry
    exact ⟨_, rfl, (h.coherent (hearlier.subset hmem)).1.joined hcode⟩
  · obtain ⟨objects, rfl, hsuffix⟩ := hhistory entries hentries
    exact ⟨objects, rfl, fun message hmem => h.coherent (hearlier.subset (hsuffix.subset hmem)),
      horder.sublist hsuffix.sublist⟩

/-- The replayed history and the live messages are in order. -/
theorem inOrder_replayOf {info : MessageDto} {earlier later : List MessageDto}
    (hsuffix : replayed info <:+ earlier) (horder : (earlier ++ later).Pairwise InOrder) :
    (replayOf info ++ later).Pairwise InOrder := by
  unfold replayOf
  split
  · have hlater : later.Pairwise InOrder := (List.pairwise_append.mp horder).2.1
    exact List.pairwise_cons.mpr ⟨fun _ _ hleft => (nomatch hleft), hlater⟩
  · exact horder.sublist (hsuffix.sublist.append_right later)

theorem Refines.sent (h : Refines config T v) (hp : p < v.directory.peerCount) :
    ∃ info news, Sent config T v p info news := by
  let ρ := v.directory.peerRoom p
  have hsentSegment := h.realizes.sentSegment p hp
  obtain ⟨greeting, live, peers, hsent, hgreeting, hlive, hkinds⟩ := hsentSegment.outbox
  obtain ⟨_, hhead, honboards⟩ := h.infoExact p hp
  obtain rfl : _ = greeting := Option.some.inj (hhead.symm.trans (congrArg List.head? hsent))
  let earlier := record ((T.lines ρ).take (T.start p))
  let later := record (segment (T.lines ρ) (T.start p) (T.stop p))
  have htake : record ((T.lines ρ).take (T.stop p)) = earlier ++ later :=
    record_take hsentSegment.start_le
  have hrecord :
      record (T.lines ρ) = earlier ++ (later ++ record ((T.lines ρ).drop (T.stop p))) := by
    rw [← List.append_assoc, ← htake, ← record_append, List.take_append_drop]
  have hearlier : earlier <+: record (T.lines ρ) := record_take_prefix _ _
  -- extend the record by a hypothetical join to use the lemmas on `RoomLog`
  obtain ⟨own, hroom⟩ := h.tracks.roomLog ρ
  have hwhole := hroom.inOrder
  rw [hrecord, List.append_assoc, List.append_assoc] at hroom
  rw [hrecord, List.append_assoc, List.append_assoc, ← List.append_assoc] at hwhole
  have horder : (earlier ++ later).Pairwise InOrder := (List.pairwise_append.mp hwhole).1
  have hlog : RoomLog (joined v p) earlier :=
    ((h.tracks.noticeLog ρ).earlier hearlier).roomLog hsentSegment.getLast?_record
  have hhistory := congrArg MessageDto.history hgreeting
  obtain ⟨hentries, hreplayed⟩ := replayed_info hhistory
  have hreplayed' : replayed _ <:+ earlier := hreplayed
  obtain ⟨before, hbefore⟩ := hreplayed'
  have hgreets :=
    h.tracks.greets hp hearlier honboards (List.pairwise_append.mp horder).1 hentries
  have hnotices : ∀ m ∈ live, Coherent v.nick m.val ∧ m.val.code ≠ some .codeInfo := by
    intro m hm
    refine h.tracks.coherent_sent (ρ := ρ) (hkinds m hm) fun hbroadcast => ?_
    have hsegment : m ∈ segment (T.lines ρ) (T.start p) (T.stop p) := by
      rw [← hlive]
      exact List.mem_filter.mpr ⟨hm, hbroadcast⟩
    exact List.mem_of_mem_take (List.mem_of_mem_drop hsegment)
  have hfilter := filter_isNotice_live hlive
  refine ⟨_, live.map Object.val, congrArg (List.map Object.val) hsent, ⟨peers, hgreeting⟩,
    ⟨live, rfl, hlive⟩, fun events hevents hopen =>
    ⟨honboards.code, hgreets, fun message hmem => ?_, ?_, hopen⟩, fun id => ?_⟩
  · rw [hevents] at hmem
    rcases List.mem_append.mp hmem with hmem | hmem
    · unfold replayOf at hmem
      split at hmem
      · obtain rfl := List.mem_singleton.mp hmem
        exact ⟨⟨fun _ => hgreets.name, nofun⟩, nofun⟩
      · have hmem' : message ∈ earlier := by
          rw [← hbefore]
          exact List.mem_append_right before hmem
        exact h.tracks.coherent (hearlier.subset hmem')
    · obtain ⟨m, hm, rfl⟩ := List.mem_map.mp hmem
      exact hnotices m hm
  · rw [hevents, ← pairwise_inOrder_filter, List.filter_append, hfilter, ← List.filter_append,
      pairwise_inOrder_filter]
    exact inOrder_replayOf ⟨before, hbefore⟩ horder
  · rw [htake, ← foldl_note_filter, hfilter, foldl_note_filter]
    refine foldl_note_present (List.pairwise_append.mp horder).2.1 (fun hleft => ?_) ?_
    · have hjoined := hroom.not_joined_of_left hleft
      rw [mentions_append] at hjoined
      exact (Bool.or_eq_false_iff.mp hjoined).1
    · have honboards' : Onboards (joined v p) earlier _ := honboards
      rw [← hbefore] at hlog honboards'
      rw [← hbefore]
      exact hear_info hlog honboards'

end Sent

/-! ### The list on a page -/

/-- The page of `p` lists the other members of the room, sorted by name. -/
structure Shows (s : Server) (p : PeerRef) (page : Participants) : Prop where
  self : page.peerId = some (some (s.peers p).peerId)
  shown : ∃ children, page.peersOther = some children ∧
    let shown := (children.filter fun child => !child.deleted).map ParticipantElement.peerId
    shown.Nodup ∧
      (∀ id, id ∈ shown ↔ ∃ q, q ∈ Room.members (s.peers p).room s ∧ q ≠ p ∧
        id = some (s.peers q).peerId) ∧
      shown.Pairwise fun id later =>
        ¬ codeUnits ((s.scene.nick later).getD "") < codeUnits ((s.scene.nick id).getD "")

/-- Transition ends before the first message leave the initial page. -/
theorem pageAfter_of_no_message {events : List PageEvent}
    (hmessages : ∀ event ∈ events, event.message? = none) (hopen : PageEvent.onclose ∉ events) :
    pageAfter events {} = {} := by
  induction events with
  | nil => rfl
  | cons event events ih =>
      obtain ⟨hevent, hevents⟩ := List.forall_mem_cons.mp hmessages
      cases event with
      | onmessage message => cases hevent
      | onclose => exact absurd List.mem_cons_self hopen
      | transitionend i => exact ih hevents (List.not_mem_of_not_mem_cons hopen)

theorem others_sorted {nick : Option Int → Option String} {peersMap : List PeerDto}
    (h : Named nick peersMap) (self : Option Int) :
    (others self (sort cmpPeers peersMap)).Pairwise fun id later =>
      ¬ codeUnits ((nick later).getD "") < codeUnits ((nick id).getD "") := by
  unfold others keys
  refine List.Pairwise.filter _ (List.pairwise_map.mpr ?_)
  refine (sorted_sort weak_cmpPeers peersMap).imp_of_mem fun {peer later} hpeer hlater hsorted => ?_
  rw [← h.name peer (mem_sort.mp hpeer), ← h.name later (mem_sort.mp hlater)]
  exact of_decide_eq_false hsorted

/-- A page that has handled all messages sent to it lists the other members. -/
theorem Sent.page {config : ConfigDto} {T : Transcript} {v : Scene} {p : PeerRef}
    {info : MessageDto}
    {news : List MessageDto} (h : Sent config T v p info news) {events : List PageEvent}
    (hreceived : events.filterMap PageEvent.message? = (v.outbox p).map Object.val)
    (hopen : PageEvent.onclose ∉ events) :
    (∀ before event after, events = before ++ event :: after →
      (event.script.exec (pageAfter before {})).1 = .ok ⟨⟩) ∧
      (pageAfter events {}).peerId = some info.peerId ∧
      ∃ children, (pageAfter events {}).peersOther = some children ∧
        let shown := (children.filter fun child => !child.deleted).map ParticipantElement.peerId
        shown.Nodup ∧
          (∀ id, id ∈ shown ↔ id ≠ info.peerId ∧
            Present (record ((T.lines (v.directory.peerRoom p)).take (T.stop p))) id) ∧
          shown.Pairwise fun id later =>
            ¬ codeUnits ((v.nick later).getD "") < codeUnits ((v.nick id).getD "") := by
  rw [h.outbox] at hreceived
  obtain ⟨idle, first, rest, rfl, hidle, hfirst, hrest⟩ :=
    List.filterMap_eq_cons_iff.mp hreceived
  obtain rfl : first = .onmessage info := by
    cases first with
    | onmessage message => rw [Option.some.inj hfirst]
    | onclose => cases hfirst
    | transitionend i => cases hfirst
  have hblank : pageAfter idle {} = {} :=
    pageAfter_of_no_message hidle fun hclose => hopen (List.mem_append_left _ hclose)
  have hgreeted := h.greeted rest hrest fun hclose =>
    hopen (List.mem_append_right _ (List.mem_cons_of_mem _ hclose))
  have hpage : pageAfter (idle ++ .onmessage info :: rest) {} =
      pageAfter (.onmessage info :: rest) {} := by
    unfold pageAfter at hblank ⊢
    rw [List.foldl_append, hblank]
  obtain ⟨hself, hhas⟩ := hgreeted.mapHas
  refine ⟨fun before event after hsplit => ?_, hpage ▸ hself, ?_⟩
  · rcases List.append_eq_append_iff.mp hsplit with
      ⟨before, rfl, hfrom⟩ | ⟨between, rfl, hfrom⟩
    · have hthere : pageAfter (idle ++ before) {} = pageAfter before {} := by
        unfold pageAfter at hblank ⊢
        rw [List.foldl_append, hblank]
      rw [hthere]
      exact hgreeted.exec_event hfrom
    · -- what comes before the greeting ends a transition, or is the greeting
      rcases between with - | ⟨first, between⟩
      · obtain ⟨rfl, rfl⟩ := List.cons.inj hfrom
        rw [List.append_nil] at hblank
        rw [hblank]
        have hfirst := List.nil_append (PageEvent.onmessage info :: after)
        exact hgreeted.exec_event hfirst.symm
      · obtain ⟨rfl, -⟩ := List.cons.inj hfrom
        have hmem : event ∈ before ++ event :: between :=
          List.mem_append_right _ List.mem_cons_self
        cases event with
        | onmessage message => exact absurd (hidle _ hmem) nofun
        | onclose => exact absurd (List.mem_append_left _ hmem) hopen
        | transitionend i => rfl
  · obtain ⟨page, gone, -, hkept, hafter⟩ := hgreeted.exec_calls List.prefix_rfl
    rw [hpage, hafter]
    rw [hafter] at hself hhas
    obtain ⟨hnamed, self, children, hself', hchildren, hleft, -⟩ := hkept.tidy
    obtain rfl := Option.some.inj (hself.symm.trans hself')
    have hshown := (filter_of_marked (hkept.marked children hchildren)).trans hleft
    refine ⟨children, hchildren, ?_⟩
    dsimp only
    rw [hshown]
    have hperm : (keys (sort cmpPeers page.peersMap)).Perm (keys page.peersMap) :=
      (sort_perm page.peersMap).map PeerDto.peerId
    refine ⟨(hperm.nodup_iff.mpr hnamed.nodup).filter _, fun id => ?_, others_sorted hnamed _⟩
    unfold others
    rw [List.mem_filter, hperm.mem_iff, ← mapHas_iff, hhas id, hrest, h.present id, bne_iff_ne,
      and_comm]

open Isolation

/-- **The list on a page is the list of the members.**  In every state that the
server can reach by whole handlers (not interleaved), the page of a connected peer
whose socket is open shows, once it has handled all messages sent to it, the other
members of the room, each once, sorted by name, and no handler has thrown.  Where
handlers are interleaved this fails (CanChat/Greeting.lean,
CanChat/Convergence.lean). -/
theorem participants_shown (fw : Framework) (config : ConfigDto) {requests : Requests}
    {acts : List Isolation.Occurrence} {s : State}
    (hs : (system fw config requests).run {} acts = some s) {k : SocketRef} {p : PeerRef}
    (hlink : connected (s.socket k) = some p)
    (honline : (s.server.peers p).socket.isSome = true) {events : List PageEvent}
    (hreceived : events.filterMap PageEvent.message? = (s.server.outbox p).map Object.val)
    (hopen : PageEvent.onclose ∉ events) :
    (∀ before event after, events = before ++ event :: after →
      (event.script.exec (pageAfter before {})).1 = .ok ⟨⟩) ∧
      Shows s.server p (pageAfter events {}) := by
  obtain ⟨T, -, -, hheld⟩ := (Held.init config).run fw config hs
  have hisMember := hheld.link k p hlink
  have hrefines := hheld.refines
  obtain ⟨info, news, hsent⟩ := hrefines.sent (hrefines.lt_of_isMember hisMember)
  obtain ⟨hexec, hself, children, hchildren, hnodup, hmem, hsorted⟩ := hsent.page hreceived hopen
  rw [hsent.self] at hself
  refine ⟨hexec, hself, children, hchildren, hnodup, fun id => (hmem id).trans ?_, hsorted⟩
  -- a member with an open socket has been sent all broadcasts
  let ρ := (s.server.peers p).room
  have hreceives : s.server.scene.receives ρ p = true :=
    (Bool.and_eq_true _ _).mpr ⟨beq_iff_eq.mpr hisMember, honline⟩
  have hall :=
    (hrefines.realizes.sentSegment p (hrefines.lt_of_isMember hisMember)).upToDate hreceives
  rw [hall, List.take_length, hrefines.tracks.present_iff, hsent.self]
  obtain ⟨hmembers, -⟩ := mem_members s.server ρ hrefines.realizes.indexed
  constructor
  · rintro ⟨hne, q, -, -, rfl, hq⟩
    refine ⟨q, (hmembers q).mpr hq, ?_, rfl⟩
    rintro rfl
    exact hne rfl
  · rintro ⟨q, hq, hne, rfl⟩
    have hmember := (hmembers q).mp hq
    obtain ⟨hlt, hroom, -⟩ := hrefines.realizes.indexed.member _ _ q hmember
    refine ⟨fun hid => hne ?_, q, hlt, hroom, rfl, hmember⟩
    exact hrefines.tracks.id_inj q p hlt (hrefines.lt_of_isMember hisMember) (Option.some.inj hid)

/-- Ann and Bob are in the lounge, which keeps two messages. -/
def oneRoom : Requests := { twoRooms with roomName := fun _ => "lounge" }

theorem participants_shown_oneRoom : ∃ s,
    (system chatter { maxRoomHistoryMessages := some 2 } oneRoom).run {} (twoPosts.take 8) =
      some s ∧
      Shows s.server 1
        (pageAfter (((s.server.outbox 1).map Object.val).map PageEvent.onmessage) {}) := by
  have hruns : ((system chatter { maxRoomHistoryMessages := some 2 } oneRoom).run {}
      (twoPosts.take 8)).any (fun s => decide (connected (s.socket 0) = some 1) &&
        (s.server.peers 1).socket.isSome) = true := by decide +kernel
  obtain ⟨s, hrun, hs⟩ := (Option.any_eq_true _ _).mp hruns
  obtain ⟨hlink, honline⟩ := (Bool.and_eq_true _ _).mp hs
  refine ⟨s, hrun, (participants_shown chatter { maxRoomHistoryMessages := some 2 } hrun
    (of_decide_eq_true hlink) honline ?_ ?_).2⟩
  · rw [List.filterMap_map]
    exact List.filterMap_some
  · intro hclose
    obtain ⟨_, -, hmessage⟩ := List.mem_map.mp hclose
    cases hmessage

end Conversation

end CanChat
