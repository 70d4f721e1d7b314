/-
CanChat/Truncation.lean

A newcomer's list of participants does not depend on where the history was cut.

The history of a room is the end of its log, and `CODE_INFO` comes with the
peers who are there already.  To replay a notice of someone who is there, or to
delete someone who is not, changes nothing.  What could go wrong is a notice of
someone who joined and left again: its `CODE_PEER_LEFT` comes after it in the
log, so it is in whatever end of the log the notice is in.
-/
import Mathlib.Data.List.Infix
import CanChat.Room
import CanChat.ParticipantList

namespace CanChat

namespace Truncation

open Participants

/-! ### The end of the log -/

/-- The room after it was given one message after the other. -/
def addHistoryMessages (config : ConfigDto) (ρ : RoomRef) (log : List (Object MessageDto))
    (s : Server) : Server :=
  log.foldl (fun s message => Room.addHistoryMessage config ρ message s) s

theorem popFront_append {α : Type} (bound : ℕ) (l : List α) (a : α) :
    Room.popFront bound (Room.popFront bound l ++ [a]) = Room.popFront bound (l ++ [a]) := by
  have hle : l.length - bound ≤ l.length := Nat.sub_le _ _
  rw [Room.popFront_eq_drop, Room.popFront_eq_drop, Room.popFront_eq_drop,
    ← List.drop_append_of_le_length hle, List.drop_drop]
  congr 1
  simp only [List.length_drop, List.length_append, List.length_singleton]
  omega

theorem history_addHistoryMessage (config : ConfigDto) (ρ : RoomRef)
    (henabled : Room.historyDisabled config = false) (message : Object MessageDto) (s : Server) :
    ((Room.addHistoryMessage config ρ message s).rooms ρ).history =
      Room.popFront (config.maxRoomHistoryMessages.getD 0) ((s.rooms ρ).history ++ [message]) := by
  unfold Room.addHistoryMessage
  simp [henabled, Server.modifyRoom]

theorem history_addHistoryMessages (config : ConfigDto) (ρ : RoomRef)
    (henabled : Room.historyDisabled config = false) (log earlier : List (Object MessageDto))
    {s : Server}
    (h : (s.rooms ρ).history = Room.popFront (config.maxRoomHistoryMessages.getD 0) earlier) :
    ((addHistoryMessages config ρ log s).rooms ρ).history =
      Room.popFront (config.maxRoomHistoryMessages.getD 0) (earlier ++ log) := by
  induction log generalizing earlier s with
  | nil =>
      rw [List.append_nil, ← h]
      rfl
  | cons message log ih =>
      have hnext : ((Room.addHistoryMessage config ρ message s).rooms ρ).history =
          Room.popFront (config.maxRoomHistoryMessages.getD 0) (earlier ++ [message]) := by
        rw [history_addHistoryMessage config ρ henabled, h, popFront_append]
      rw [List.append_cons]
      exact ih _ hnext

theorem getHistory_addHistoryMessages (config : ConfigDto) (ρ : RoomRef) {s : Server}
    (hempty : (s.rooms ρ).history = []) (log : List (Object MessageDto)) :
    Room.getHistory config ρ (addHistoryMessages config ρ log s) =
      if config.maxRoomHistoryMessages.getD 0 = 0 then none
      else some ((log.drop
        (log.length - min log.length (config.maxRoomHistoryMessages.getD 0))).map some) := by
  have hdisabled : Room.historyDisabled config = true ↔
      config.maxRoomHistoryMessages.getD 0 = 0 := beq_iff_eq
  unfold Room.getHistory
  split
  · next h => rw [if_pos (hdisabled.mp h)]
  · next h =>
    have hlength : log.length - min log.length (config.maxRoomHistoryMessages.getD 0) =
        log.length - config.maxRoomHistoryMessages.getD 0 := by
      omega
    rw [if_neg (mt hdisabled.mpr h), hlength, ← Room.popFront_eq_drop,
      history_addHistoryMessages config ρ (Bool.not_eq_true _ ▸ h) log [] hempty,
      List.nil_append]

/-! ### The log of a room -/

/-- What a room keeps: notices of who joined and who left, chat messages, and
files as `handleFilesMessage` announces them. -/
def Logged (message : MessageDto) : Prop :=
  match message.code with
  | some .codePeerJoined | some .codePeerLeft | some .codePeerMessage => True
  | some .codePeerMessageFile => ∃ files, message.files = some files ∧ none ∉ files
  | _ => False

/-- The log of a room up to `own`, which says that the newcomer joined. -/
structure RoomLog (own : MessageDto) (log : List MessageDto) : Prop where
  logged : ∀ message ∈ log, Logged message
  joinedOnce : log.Pairwise fun earlier later => earlier.code = some .codePeerJoined →
    later.code = some .codePeerJoined → earlier.peerId ≠ later.peerId
  leftOnce : log.Pairwise fun earlier later => earlier.code = some .codePeerLeft →
    later.code = some .codePeerLeft → earlier.peerId ≠ later.peerId
  leftAfter : ∀ before message after, log = before ++ message :: after →
    message.code = some .codePeerLeft → mentions .codePeerJoined message.peerId before = true
  own : log.getLast? = some own ∧ own.code = some .codePeerJoined

variable {own message info : MessageDto} {log before after : List MessageDto} {id : Option Int}

/-- The ids of the peers that joined and did not leave. -/
def Present (log : List MessageDto) (id : Option Int) : Prop :=
  mentions .codePeerJoined id log = true ∧ mentions .codePeerLeft id log = false

/-- `CODE_INFO` as `onboardPeer` fills it in: the peers who are there by the log,
in any order, under the names they joined with. -/
structure Onboards (own : MessageDto) (log : List MessageDto) (info : MessageDto) : Prop where
  code : info.code = some .codeInfo
  self : info.peerId = own.peerId ∧ info.peerName = own.peerName
  peers : ∃ entries, info.peers = some entries ∧ ∀ entry, entry ∈ entries ↔
    ∃ message ∈ log, message.code = some .codePeerJoined ∧ Present log message.peerId ∧
      entry = some { peerId := message.peerId, peerName := message.peerName }

theorem RoomLog.not_joined_of_left (h : RoomLog own (before ++ after))
    (hleft : mentions .codePeerLeft id before = true) :
    mentions .codePeerJoined id after = false := by
  obtain ⟨message, hmem, hcode, rfl⟩ := mentions_iff.mp hleft
  obtain ⟨before₁, before₂, rfl⟩ := List.append_of_mem hmem
  have hjoined : mentions .codePeerJoined message.peerId before₁ = true :=
    h.leftAfter before₁ message (before₂ ++ after) (by simp) hcode
  obtain ⟨earlier, hearlier, hcode', hid⟩ := mentions_iff.mp hjoined
  rw [Bool.eq_false_iff]
  intro hagain
  obtain ⟨later, hlater, hcode'', hid'⟩ := mentions_iff.mp hagain
  exact (List.pairwise_append.mp h.joinedOnce).2.2 earlier (by simp [hearlier]) later hlater
    hcode' hcode'' (hid.trans hid'.symm)

theorem RoomLog.inOrder (h : RoomLog own log) : log.Pairwise InOrder := by
  rw [List.pairwise_iff_forall_sublist]
  intro earlier later hsub hleft hjoined hid
  obtain ⟨before, after, rfl, hearlier, hlater⟩ := List.append_sublist_iff.mp
    (show ([earlier] ++ [later]).Sublist log from hsub)
  have hnot : mentions .codePeerJoined earlier.peerId after = false :=
    h.not_joined_of_left
      (mentions_iff.mpr ⟨earlier, List.singleton_sublist.mp hearlier, hleft, rfl⟩)
  exact absurd (mentions_iff.mpr ⟨later, List.singleton_sublist.mp hlater, hjoined, hid⟩)
    (Bool.eq_false_iff.mp hnot)

/-- The newcomer is there. -/
theorem RoomLog.present_own (h : RoomLog own log) : Present log own.peerId := by
  obtain ⟨hlast, hcode⟩ := h.own
  obtain ⟨earlier, rfl⟩ := List.getLast?_eq_some_iff.mp hlast
  have hown : mentions .codePeerJoined own.peerId [own] = true := by simp [hcode]
  refine ⟨by simp [mentions_append, hown], ?_⟩
  rw [mentions_append, Bool.or_eq_false_iff]
  constructor
  · rw [Bool.eq_false_iff]
    intro hleft
    exact absurd hown (Bool.eq_false_iff.mp (h.not_joined_of_left hleft))
  · simp [mentions, hcode]

/-- Who is said to have joined by the end of a log, and not to have left, is
there. -/
theorem RoomLog.present_of_end (h : RoomLog own (before ++ after))
    (hjoined : mentions .codePeerJoined id after = true)
    (hleft : mentions .codePeerLeft id after = false) : Present (before ++ after) id := by
  refine ⟨by simp [mentions_append, hjoined], ?_⟩
  rw [mentions_append, hleft, Bool.or_false, Bool.eq_false_iff]
  intro hbefore
  exact absurd hjoined (Bool.eq_false_iff.mp (h.not_joined_of_left hbefore))

/-! ### Names -/

/-- The name an id joined with. -/
def nickname (log : List MessageDto) (id : Option Int) : Option String :=
  (log.find? fun message => message.code == some .codePeerJoined && message.peerId == id).bind
    MessageDto.peerName

theorem RoomLog.eq_of_joined (h : RoomLog own log) {first second : MessageDto}
    (hfirst : first ∈ log) (hsecond : second ∈ log) (hcode : first.code = some .codePeerJoined)
    (hcode' : second.code = some .codePeerJoined) (hid : first.peerId = second.peerId) :
    first = second := by
  let Agree (first second : MessageDto) : Prop := first.code = some .codePeerJoined →
    second.code = some .codePeerJoined → first.peerId = second.peerId → first = second
  have hforth : log.Pairwise Agree :=
    h.joinedOnce.imp fun hne hcode hcode' hid => absurd hid (hne hcode hcode')
  have hback : log.Pairwise (flip Agree) :=
    h.joinedOnce.imp fun hne hcode hcode' hid => absurd hid.symm (hne hcode' hcode)
  exact List.Pairwise.forall_of_forall_of_flip (fun _ _ _ _ _ => rfl) hforth hback
    hfirst hsecond hcode hcode' hid

theorem RoomLog.nickname_joined (h : RoomLog own log) (hmem : message ∈ log)
    (hcode : message.code = some .codePeerJoined) :
    message.peerName = nickname log message.peerId := by
  unfold nickname
  rcases hfind : log.find? _ with - | first
  · have hnone := List.find?_eq_none.mp hfind message hmem
    simp [hcode] at hnone
  · have hfirst := List.find?_some hfind
    simp only [Bool.and_eq_true, beq_iff_eq] at hfirst
    obtain rfl := h.eq_of_joined (List.mem_of_find?_eq_some hfind) hmem hfirst.1 hcode hfirst.2
    rfl

theorem RoomLog.coherent (h : RoomLog own log) (hmem : message ∈ log) :
    Coherent (nickname log) message ∧ message.code ≠ some .codeInfo := by
  have hlogged : Logged message := h.logged message hmem
  refine ⟨⟨h.nickname_joined hmem, fun hcode => ?_⟩, fun hcode => ?_⟩
  · unfold Logged at hlogged
    rw [hcode] at hlogged
    exact hlogged
  · unfold Logged at hlogged
    rw [hcode] at hlogged
    exact hlogged

/-! ### The replay -/

variable {objects : List (Object MessageDto)}

theorem Onboards.greets (hlog : RoomLog own log) (hinfo : Onboards own log info)
    (hhistory : ∀ entries, info.history = some entries →
      ∃ objects : List (Object MessageDto), entries = objects.map some ∧
        objects.map Object.val <:+ log) : Greets (nickname log) info where
  name := by
    obtain ⟨hlast, hcode⟩ := hlog.own
    rw [hinfo.self.1, hinfo.self.2]
    exact hlog.nickname_joined (List.mem_of_getLast? hlast) hcode
  peers := by
    obtain ⟨entries, hpeers, hentries⟩ := hinfo.peers
    refine ⟨entries, hpeers, fun entry hentry => ?_⟩
    obtain ⟨message, hmem, hcode, -, rfl⟩ := (hentries entry).mp hentry
    exact ⟨_, rfl, hlog.nickname_joined hmem hcode⟩
  history entries hentries := by
    obtain ⟨objects, rfl, hsuffix⟩ := hhistory entries hentries
    exact ⟨objects, rfl, fun message hmem => hlog.coherent (hsuffix.subset hmem),
      hlog.inOrder.sublist hsuffix.sublist⟩

theorem Onboards.introduced_iff (hinfo : Onboards own log info) :
    introduced id info = true ↔ Present log id := by
  obtain ⟨entries, hpeers, hentries⟩ := hinfo.peers
  unfold introduced
  rw [hpeers, Option.getD_some, List.any_eq_true]
  constructor
  · rintro ⟨entry, hentry, hany⟩
    obtain ⟨message, -, -, hpresent, rfl⟩ := (hentries entry).mp hentry
    obtain rfl : message.peerId = id := by simpa using hany
    exact hpresent
  · intro hpresent
    obtain ⟨message, hmem, hcode, rfl⟩ := mentions_iff.mp hpresent.1
    exact ⟨_, (hentries _).mpr ⟨message, hmem, hcode, hpresent, rfl⟩, by simp⟩

/-- What `CODE_INFO` leaves in the map does not depend on `before`, which the
history has lost. -/
theorem hear_info (hlog : RoomLog own (before ++ replayed info))
    (hinfo : Onboards own (before ++ replayed info) info) :
    hear id false info = true ↔ Present (before ++ replayed info) id := by
  rcases hleft : mentions .codePeerLeft id (replayed info) with - | -
  · rw [hear_of_not_left hinfo.code hleft, hinfo.introduced_iff]
    constructor
    · rintro (h | h | h | ⟨-, rfl⟩)
      · cases h
      · exact h
      · exact hlog.present_of_end h hleft
      · rw [hinfo.self.1]
        exact hlog.present_own
    · exact fun h => .inr (.inl h)
  · rw [hear_of_left hinfo.code (List.pairwise_append.mp hlog.inOrder).2.1 hleft]
    refine iff_of_false Bool.false_ne_true fun hpresent => ?_
    have hnot := hpresent.2
    rw [mentions_append, hleft, Bool.or_true] at hnot
    cases hnot

/-- What is replayed is the end of the log, if anything is. -/
theorem replayed_suffix {config : ConfigDto} {ρ : RoomRef} {s : Server}
    (hempty : (s.rooms ρ).history = []) {log : List (Object MessageDto)}
    (hhistory : info.history = Room.getHistory config ρ (addHistoryMessages config ρ log s)) :
    (∀ entries, info.history = some entries → ∃ objects : List (Object MessageDto),
      entries = objects.map some ∧ objects.map Object.val <:+ log.map Object.val) ∧
      replayed info <:+ log.map Object.val := by
  rw [getHistory_addHistoryMessages config ρ hempty] at hhistory
  split at hhistory
  · have hnone : replayed info = [] := by
      unfold replayed
      rw [hhistory]
      rfl
    rw [hhistory, hnone]
    exact ⟨fun _ h => (nomatch h), List.nil_suffix⟩
  · generalize log.length - min log.length _ = n at hhistory
    have hsuffix : (log.drop n).map Object.val <:+ log.map Object.val :=
      (List.drop_suffix n log).map Object.val
    have hreplayed : replayed info = (log.drop n).map Object.val := by
      unfold replayed
      rw [hhistory, Option.getD_some, List.filterMap_map]
      exact congrFun List.filterMap_eq_map (log.drop n)
    rw [hhistory, hreplayed]
    refine ⟨fun entries hentries => ?_, hsuffix⟩
    obtain rfl := Option.some.inj hentries
    exact ⟨log.drop n, rfl, hsuffix⟩

/-- **The snapshot survives the replay**: whatever the bound, the history is the
end of the log, and the newcomer's map holds those who are there by the whole
of it. -/
theorem peersMap_present (config : ConfigDto) (ρ : RoomRef) {s : Server}
    (hempty : (s.rooms ρ).history = []) {log : List (Object MessageDto)}
    (hlog : RoomLog own (log.map Object.val)) (hinfo : Onboards own (log.map Object.val) info)
    (hhistory : info.history = Room.getHistory config ρ (addHistoryMessages config ρ log s)) :
    Room.getHistory config ρ (addHistoryMessages config ρ log s) =
        (if config.maxRoomHistoryMessages.getD 0 = 0 then none
        else some ((log.drop
          (log.length - min log.length (config.maxRoomHistoryMessages.getD 0))).map some)) ∧
      ∃ page, (onMessage info).exec {} = (.ok ⟨⟩, page) ∧ (keys page.peersMap).Nodup ∧
        ∀ id, id ∈ keys page.peersMap ↔ Present (log.map Object.val) id := by
  refine ⟨getHistory_addHistoryMessages config ρ hempty log, ?_⟩
  obtain ⟨hentries, before, hbefore⟩ := replayed_suffix hempty hhistory
  obtain ⟨page, gone, hexec, hhas, htidy⟩ :=
    exec_info {} hinfo.code (hinfo.greets hlog hentries) Named.nil rfl
  refine ⟨page, hexec, htidy.named.nodup, fun id => ?_⟩
  rw [← mapHas_iff, hhas id]
  rw [← hbefore] at hlog hinfo ⊢
  exact hear_info hlog hinfo

/-! ### A log -/

def joins (id : Int) (name : String) : MessageDto :=
  { code := some .codePeerJoined, peerId := some id, peerName := some name }

def leaves (id : Int) : MessageDto :=
  { code := some .codePeerLeft, peerId := some id }

/-- Bob left before Ann came. -/
def shortLog : List (Object MessageDto) :=
  [joins 1 "Ada", joins 2 "Bob", leaves 2, joins 3 "Ann"].map (Object.mk 0)

/-- The history begins where Bob leaves. -/
def shortInfo : MessageDto where
  code := some .codeInfo
  peerId := some 3
  peerName := some "Ann"
  peers := some [some { peerId := some 3, peerName := some "Ann" },
    some { peerId := some 1, peerName := some "Ada" }]
  history := some ([leaves 2, joins 3 "Ann"].map fun message => some (Object.mk 0 message))

theorem roomLog_shortLog : RoomLog (joins 3 "Ann") (shortLog.map Object.val) := by
  refine ⟨?_, ?_, ?_, ?_, rfl, rfl⟩
  · simp [shortLog, joins, leaves, Logged]
  · simp [shortLog, joins, leaves]
  · simp [shortLog, joins, leaves]
  · intro before message after h hcode
    replace h : [joins 1 "Ada", joins 2 "Bob", leaves 2, joins 3 "Ann"] =
      before ++ message :: after := h
    -- only the third is a notice of one who left
    rcases before with - | ⟨_, - | ⟨_, - | ⟨_, - | ⟨_, before⟩⟩⟩⟩
    · cases h
      cases hcode
    · cases h
      cases hcode
    · cases h
      rfl
    · cases h
      cases hcode
    · simp at h

theorem onboards_shortInfo :
    Onboards (joins 3 "Ann") (shortLog.map Object.val) shortInfo := by
  refine ⟨rfl, ⟨rfl, rfl⟩, _, rfl, fun entry => ?_⟩
  simp [shortLog, joins, leaves, Present, mentions, or_comm]

theorem peersMap_present_short :
    Room.getHistory { maxRoomHistoryMessages := some 2 } 0
        (addHistoryMessages { maxRoomHistoryMessages := some 2 } 0 shortLog {}) =
        some (([leaves 2, joins 3 "Ann"].map (Object.mk 0)).map some) ∧
      ∃ page, (onMessage shortInfo).exec {} = (.ok ⟨⟩, page) ∧ (keys page.peersMap).Nodup ∧
        ∀ id, id ∈ keys page.peersMap ↔ Present (shortLog.map Object.val) id :=
  peersMap_present
    { maxRoomHistoryMessages := some 2 } 0 rfl roomLog_shortLog onboards_shortInfo rfl

end Truncation

end CanChat
