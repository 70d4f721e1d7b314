/-
CanChat/MemberNotices.lean

The notices `CODE_PEER_JOINED` and `CODE_PEER_LEFT` in a transcript, and the
member tables.

`NoticeLog` states that the notices of a room are well formed: at most one of
each kind for each peer, and `CODE_PEER_LEFT` only after `CODE_PEER_JOINED`.
`Tracks T v` states that the member tables agree with them: a peer is a member
if and only if its `CODE_PEER_LEFT` has not been recorded.  It follows that the
list of peers in a `CODE_INFO`, which `onboardPeer` takes from the members, is
the one determined by the notices before it (`InfoExact`), which is what
CanChat/Truncation.lean assumes of a log and a `CODE_INFO`.
-/
import CanChat.Transcript

namespace CanChat

namespace Conversation

open Participants Truncation

/-! ### The notices -/

/-- The recorded broadcasts, without their addresses. -/
def record (lines : List (Object MessageDto)) : List MessageDto :=
  (lines.filter fun m => isKept m.val).map Object.val

theorem record_snoc (lines : List (Object MessageDto)) (m : Object MessageDto) :
    record (lines ++ [m]) = record lines ++ if isKept m.val then [m.val] else [] := by
  unfold record
  rw [List.filter_append, List.map_append]
  congr 1
  rcases h : isKept m.val with - | -
  · simp [h]
  · simp [h]

theorem record_append (lines more : List (Object MessageDto)) :
    record (lines ++ more) = record lines ++ record more := by
  unfold record
  rw [List.filter_append, List.map_append]

/-- `dto` carries the id and the nickname of `p`. -/
def Signed (v : Scene) (p : PeerRef) (dto : MessageDto) : Prop :=
  dto.peerId = some (v.directory.peerId p) ∧ dto.peerName = some (v.nickname p)

/-- `dto` is a notice about `p`, or a recorded post of `p`. -/
def Attributed (v : Scene) (p : PeerRef) (dto : MessageDto) : Prop :=
  match dto.code with
  | some .codePeerJoined => dto = joined v p
  | some .codePeerLeft => dto = left v p
  | some .codePeerMessage => Signed v p dto
  | some .codePeerMessageFile => Signed v p dto ∧ ∃ files, dto.files = some files ∧ none ∉ files
  | _ => False

/-- `dto` is attributed to an allocated peer of the room `ρ`. -/
def FromRoom (v : Scene) (ρ : RoomRef) (dto : MessageDto) : Prop :=
  ∃ p, p < v.directory.peerCount ∧ v.directory.peerRoom p = ρ ∧ Attributed v p dto

/-- All messages are attributed to peers of the room; the notices of either kind
have distinct ids, and `CODE_PEER_LEFT` follows `CODE_PEER_JOINED`. -/
structure NoticeLog (v : Scene) (ρ : RoomRef) (log : List MessageDto) : Prop where
  fromRoom : ∀ message ∈ log, FromRoom v ρ message
  joinedOnce : log.Pairwise fun earlier later => earlier.code = some .codePeerJoined →
    later.code = some .codePeerJoined → earlier.peerId ≠ later.peerId
  leftOnce : log.Pairwise fun earlier later => earlier.code = some .codePeerLeft →
    later.code = some .codePeerLeft → earlier.peerId ≠ later.peerId
  leftAfter : ∀ before message after, log = before ++ message :: after →
    message.code = some .codePeerLeft → mentions .codePeerJoined message.peerId before = true

section NoticeLog

variable {v v' : Scene} {ρ : RoomRef} {log log' : List MessageDto} {dto : MessageDto}

/-- `v'` has all peers of `v`, with the same room, id and nickname. -/
structure Scene.ExtendsPeers (v v' : Scene) : Prop where
  peerCount : v.directory.peerCount ≤ v'.directory.peerCount
  same : ∀ p, p < v.directory.peerCount → SamePeer v v' p

theorem Attributed.joined {p : PeerRef} (h : Attributed v p dto)
    (hcode : dto.code = some .codePeerJoined) :
    dto = Conversation.joined v p := by
  unfold Attributed at h
  rwa [hcode] at h

theorem Attributed.left {p : PeerRef} (h : Attributed v p dto)
    (hcode : dto.code = some .codePeerLeft) :
    dto = Conversation.left v p := by
  unfold Attributed at h
  rwa [hcode] at h

theorem FromRoom.mono (h : FromRoom v ρ dto) (hv : v.ExtendsPeers v') : FromRoom v' ρ dto := by
  obtain ⟨p, hp, hroom, hattributed⟩ := h
  obtain ⟨hroom', hid, hname⟩ := hv.same p hp
  refine ⟨p, hp.trans_le hv.peerCount, hroom'.trans hroom, ?_⟩
  unfold Attributed Signed Conversation.joined Conversation.left at hattributed ⊢
  rwa [hid, hname]

theorem NoticeLog.mono (h : NoticeLog v ρ log) (hv : v.ExtendsPeers v') : NoticeLog v' ρ log :=
  ⟨fun message hmem => (h.fromRoom message hmem).mono hv, h.joinedOnce, h.leftOnce, h.leftAfter⟩

theorem NoticeLog.nil : NoticeLog v ρ [] :=
  ⟨nofun, .nil, .nil, fun before _ _ h => absurd h.symm (by simp)⟩

/-- `NoticeLog` is closed under prefixes. -/
theorem NoticeLog.earlier (h : NoticeLog v ρ log) (hearlier : log' <+: log) :
    NoticeLog v ρ log' := by
  obtain ⟨more, rfl⟩ := hearlier
  refine ⟨fun message hmem => h.fromRoom message (List.mem_append_left _ hmem),
    (List.pairwise_append.mp h.joinedOnce).1, (List.pairwise_append.mp h.leftOnce).1, ?_⟩
  rintro before message after rfl hcode
  exact h.leftAfter before message (after ++ more) (by simp) hcode

/-- Appending a message; a notice must not repeat an earlier one. -/
theorem NoticeLog.snoc (h : NoticeLog v ρ log) (hfromRoom : FromRoom v ρ dto)
    (hjoined : dto.code = some .codePeerJoined → mentions .codePeerJoined dto.peerId log = false)
    (hleft : dto.code = some .codePeerLeft → mentions .codePeerJoined dto.peerId log = true ∧
      mentions .codePeerLeft dto.peerId log = false) : NoticeLog v ρ (log ++ [dto]) := by
  -- a notice of this kind about this peer would be mentioned
  have honce : ∀ code, (dto.code = some code → mentions code dto.peerId log = false) →
      (log.Pairwise fun earlier later => earlier.code = some code → later.code = some code →
        earlier.peerId ≠ later.peerId) →
      (log ++ [dto]).Pairwise fun earlier later => earlier.code = some code →
        later.code = some code → earlier.peerId ≠ later.peerId := by
    intro code hnot hlog
    refine List.pairwise_append.mpr ⟨hlog, List.pairwise_singleton _ _, ?_⟩
    intro earlier hearlier later hlater hcode hcode' hid
    obtain rfl := List.mem_singleton.mp hlater
    exact absurd (mentions_iff.mpr ⟨earlier, hearlier, hcode, hid⟩)
      (Bool.eq_false_iff.mp (hnot hcode'))
  refine ⟨fun message hmem => ?_, honce _ hjoined h.joinedOnce,
    honce _ (fun hcode => (hleft hcode).2) h.leftOnce, fun before message after hsplit hcode => ?_⟩
  · rcases List.mem_append.mp hmem with hmem | hmem
    · exact h.fromRoom message hmem
    · obtain rfl := List.mem_singleton.mp hmem
      exact hfromRoom
  · rcases after.eq_nil_or_concat with rfl | ⟨after', last, rfl⟩
    · obtain ⟨rfl, hlast⟩ := List.append_inj' hsplit rfl
      obtain ⟨rfl, -⟩ := List.cons.inj hlast
      exact (hleft hcode).1
    · have hsplit' : log ++ [dto] = (before ++ message :: after') ++ [last] := by
        simpa using hsplit
      exact h.leftAfter before message after' (List.append_inj_left' hsplit' rfl) hcode

end NoticeLog

/-- `dto` carries the id of `p`, and its nickname unless it is `CODE_PEER_LEFT`,
which has no `peerName`. -/
def Identifies (v : Scene) (p : PeerRef) (dto : MessageDto) : Prop :=
  dto.peerId = some (v.directory.peerId p) ∧
    (dto.code ≠ some .codePeerLeft → dto.peerName = some (v.nickname p))

theorem Signed.identifies {v : Scene} {p : PeerRef} {dto : MessageDto} (h : Signed v p dto) :
    Identifies v p dto := ⟨h.1, fun _ => h.2⟩

/-- All broadcasts of a room identify a peer of the room, and none identifies a
peer after its `CODE_PEER_LEFT`. -/
structure LeftIsLast (v : Scene) (ρ : RoomRef) (lines : List (Object MessageDto)) : Prop where
  named : ∀ m ∈ lines, ∃ p, p < v.directory.peerCount ∧ v.directory.peerRoom p = ρ ∧
    Identifies v p m.val
  last : lines.Pairwise fun m m' => m.val.code = some .codePeerLeft → m'.val.peerId ≠ m.val.peerId

section LeftIsLast

variable {v v' : Scene} {ρ : RoomRef} {lines : List (Object MessageDto)} {m : Object MessageDto}

theorem Identifies.mono {p : PeerRef} {dto : MessageDto} (h : Identifies v p dto)
    (hsame : SamePeer v v' p) :
    Identifies v' p dto := by
  unfold Identifies at h ⊢
  rwa [hsame.peerId, hsame.nickname]

theorem LeftIsLast.nil : LeftIsLast v ρ [] := ⟨fun _ h => absurd h List.not_mem_nil, .nil⟩

theorem LeftIsLast.mono (h : LeftIsLast v ρ lines) (hv : v.ExtendsPeers v') :
    LeftIsLast v' ρ lines := by
  refine ⟨fun m hm => ?_, h.last⟩
  obtain ⟨p, hp, hroom, hidentifies⟩ := h.named m hm
  have hsame := hv.same p hp
  exact ⟨p, hp.trans_le hv.peerCount, hsame.room.trans hroom, hidentifies.mono hsame⟩

/-- Appending a message that identifies a peer which has not left. -/
theorem LeftIsLast.snoc (h : LeftIsLast v ρ lines)
    (hidentifies : ∃ p, p < v.directory.peerCount ∧ v.directory.peerRoom p = ρ ∧
      Identifies v p m.val)
    (hleft : mentions .codePeerLeft m.val.peerId (record lines) = false) :
    LeftIsLast v ρ (lines ++ [m]) := by
  constructor
  · intro m' hm'
    rcases List.mem_append.mp hm' with hm' | hm'
    · exact h.named m' hm'
    · obtain rfl := List.mem_singleton.mp hm'
      exact hidentifies
  · refine List.pairwise_append.mpr ⟨h.last, List.pairwise_singleton _ _, ?_⟩
    intro earlier hearlier later hlater hcode hid
    obtain rfl := List.mem_singleton.mp hlater
    have hkept : isKept earlier.val = true := by simp [isKept, hcode]
    have hmem : earlier.val ∈ record lines :=
      List.mem_map_of_mem (List.mem_filter.mpr ⟨hearlier, hkept⟩)
    exact absurd (mentions_iff.mpr ⟨earlier.val, hmem, hcode, hid.symm⟩)
      (Bool.eq_false_iff.mp hleft)

end LeftIsLast

/-! ### The members -/

/-- Ids of peers are distinct, and membership agrees with the recorded notices. -/
structure Tracks (T : Transcript) (v : Scene) : Prop where
  id_lt : ∀ p, p < v.directory.peerCount → v.directory.peerId p < v.directory.peerIdCounter
  id_inj : ∀ p q, p < v.directory.peerCount → q < v.directory.peerCount →
    v.directory.peerId p = v.directory.peerId q → p = q
  noticeLog : ∀ ρ, NoticeLog v ρ (record (T.lines ρ))
  announced : ∀ p, p < v.directory.peerCount → mentions .codePeerJoined
    (some (v.directory.peerId p)) (record (T.lines (v.directory.peerRoom p))) = true
  /-- A peer is a member iff its `CODE_PEER_LEFT` has not been recorded. -/
  member : ∀ p, p < v.directory.peerCount →
    (v.directory.member (v.directory.peerRoom p) (v.directory.peerId p) = some p ↔
      mentions .codePeerLeft (some (v.directory.peerId p))
        (record (T.lines (v.directory.peerRoom p))) = false)

/-- The `CODE_INFO` of `p` lists the peers whose `CODE_PEER_JOINED` but not
`CODE_PEER_LEFT` had been recorded when `p` joined. -/
def InfoExact (T : Transcript) (v : Scene) (p : PeerRef) : Prop :=
  ∃ greeting, (v.outbox p).head? = some greeting ∧
    Onboards (joined v p)
      (record ((T.lines (v.directory.peerRoom p)).take (T.start p))) greeting.val

section Tracks

variable {T : Transcript} {v v' : Scene} {ρ : RoomRef} {dto : MessageDto} {p q : PeerRef} {id : Int}

/-- An id with a `CODE_PEER_JOINED` is that of an allocated peer of the room. -/
theorem NoticeLog.of_mentions_joined {log : List MessageDto} (h : NoticeLog v ρ log)
    (hmentions : mentions .codePeerJoined (some id) log = true) :
    ∃ p, p < v.directory.peerCount ∧ v.directory.peerRoom p = ρ ∧ v.directory.peerId p = id := by
  obtain ⟨message, hmem, hcode, hid⟩ := mentions_iff.mp hmentions
  obtain ⟨p, hp, hroom, hattributed⟩ := h.fromRoom message hmem
  obtain rfl := hattributed.joined hcode
  exact ⟨p, hp, hroom, Option.some.inj hid⟩

theorem NoticeLog.of_mentions_left {log : List MessageDto} (h : NoticeLog v ρ log)
    (hmentions : mentions .codePeerLeft (some id) log = true) :
    ∃ p, p < v.directory.peerCount ∧ v.directory.peerRoom p = ρ ∧ v.directory.peerId p = id := by
  obtain ⟨message, hmem, hcode, hid⟩ := mentions_iff.mp hmentions
  obtain ⟨p, hp, hroom, hattributed⟩ := h.fromRoom message hmem
  obtain rfl := hattributed.left hcode
  exact ⟨p, hp, hroom, Option.some.inj hid⟩

/-- A transition that leaves the transcript, the peer counters and the members. -/
theorem Tracks.keep (h : Tracks T v) (hextends : v.ExtendsPeers v')
    (hcount : v'.directory.peerCount = v.directory.peerCount)
    (hcounter : v'.directory.peerIdCounter = v.directory.peerIdCounter)
    (hmember : ∀ p, p < v.directory.peerCount →
      v'.directory.member (v.directory.peerRoom p) (v.directory.peerId p) =
        v.directory.member (v.directory.peerRoom p) (v.directory.peerId p)) : Tracks T v' := by
  refine ⟨fun p hp => ?_, fun p q hp hq => ?_, fun ρ => (h.noticeLog ρ).mono hextends,
    fun p hp => ?_, fun p hp => ?_⟩
  all_goals rw [hcount] at hp
  · rw [(hextends.same p hp).peerId, hcounter]
    exact h.id_lt p hp
  · rw [hcount] at hq
    rw [(hextends.same p hp).peerId, (hextends.same q hq).peerId]
    exact h.id_inj p q hp hq
  · rw [(hextends.same p hp).peerId, (hextends.same p hp).room]
    exact h.announced p hp
  · rw [(hextends.same p hp).peerId, (hextends.same p hp).room, hmember p hp]
    exact h.member p hp

/-- `dto` is a message that the server broadcasts on behalf of the client of `p`. -/
def Posted (v : Scene) (p : PeerRef) (dto : MessageDto) : Prop :=
  match dto.code with
  | some .codePeerMessage | some .codePeerIsTyping => Signed v p dto
  | some .codePeerMessageFile => Signed v p dto ∧ ∃ files, dto.files = some files ∧ none ∉ files
  | _ => False

theorem Posted.code_ne (h : Posted v p dto) :
    dto.code ≠ some .codePeerJoined ∧ dto.code ≠ some .codePeerLeft := by
  unfold Posted at h
  constructor
  · intro hcode
    rwa [hcode] at h
  · intro hcode
    rwa [hcode] at h

theorem Posted.isBroadcast (h : Posted v p dto) : isBroadcast dto = true := by
  unfold Posted at h
  unfold Conversation.isBroadcast
  split at h
  · next hcode => rw [hcode]
  · next hcode => rw [hcode]
  · next hcode => rw [hcode]
  · exact h.elim

theorem Posted.signed (h : Posted v p dto) : Signed v p dto := by
  unfold Posted at h
  split at h
  · exact h
  · exact h
  · exact h.1
  · exact h.elim

theorem Posted.attributed (h : Posted v p dto) (hkept : isKept dto = true) :
    Attributed v p dto := by
  unfold Posted at h
  unfold Attributed
  split at h
  · next hcode =>
    rw [hcode]
    exact h
  · next hcode => simp [isKept, hcode] at hkept
  · next hcode =>
    rw [hcode]
    exact h
  · exact h.elim

/-- A broadcast leaves the peers. -/
theorem Scene.extendsPeers_announce (config : ConfigDto) (ρ : RoomRef) (dto : MessageDto)
    (v : Scene) :
    v.ExtendsPeers (v.announce config ρ dto) := by
  obtain ⟨history, hd⟩ := v.announce_directory config ρ dto
  refine ⟨?_, fun p _ => ⟨?_, ?_, rfl⟩⟩
  · rw [hd]
  · rw [hd]
  · rw [hd]

/-- `InfoExact` is preserved when lists and outboxes only grow. -/
theorem InfoExact.keep {T' : Transcript} (h : InfoExact T v p) {config : ConfigDto}
    (hrealizes : Realizes config T v.directory.peerCount v) (hextends : v.ExtendsPeers v')
    (hcontinues : T.Continues v.directory.peerCount T') (hp : p < v.directory.peerCount)
    (houtbox : v.outbox p <+: v'.outbox p) : InfoExact T' v' p := by
  obtain ⟨greeting, hhead, honboards⟩ := h
  obtain ⟨hroom, hid, hname⟩ := hextends.same p hp
  obtain ⟨live, hsent⟩ := List.head?_eq_some_iff.mp hhead
  obtain ⟨more, hmore⟩ := houtbox
  have hsentSegment := hrealizes.sentSegment p hp
  have htake : (T'.lines (v.directory.peerRoom p)).take (T'.start p) =
      (T.lines (v.directory.peerRoom p)).take (T.start p) := by
    obtain ⟨later, hlater⟩ := hcontinues.lines (v.directory.peerRoom p)
    rw [hcontinues.start p hp, ← hlater,
      List.take_append_of_le_length (hsentSegment.start_le.trans hsentSegment.stop_le)]
  refine ⟨greeting, ?_, ?_⟩
  · rw [← hmore, hsent]
    rfl
  · rw [hroom, htake, joined, hid, hname]
    exact honboards

theorem noticeLog_append (h : ∀ ρ, NoticeLog v ρ (record (T.lines ρ))) (m : Object MessageDto)
    (audience : PeerRef → Bool)
    (hm : isKept m.val = true → NoticeLog v ρ (record (T.lines ρ) ++ [m.val])) (ρ' : RoomRef) :
    NoticeLog v ρ' (record ((T.append ρ m audience).lines ρ')) := by
  rcases eq_or_ne ρ' ρ with rfl | hne
  · rw [Transcript.append_lines_self, record_snoc]
    split
    · next hkept => exact hm hkept
    · rw [List.append_nil]
      exact h ρ'
  · rw [Transcript.append_lines_of_ne hne]
    exact h ρ'

theorem leftIsLast_append (h : ∀ ρ, LeftIsLast v ρ (T.lines ρ)) (m : Object MessageDto)
    (audience : PeerRef → Bool)
    (hidentifies : ∃ p, p < v.directory.peerCount ∧ v.directory.peerRoom p = ρ ∧
      Identifies v p m.val)
    (hleft : mentions .codePeerLeft m.val.peerId (record (T.lines ρ)) = false) (ρ' : RoomRef) :
    LeftIsLast v ρ' ((T.append ρ m audience).lines ρ') := by
  rcases eq_or_ne ρ' ρ with rfl | hne
  · rw [Transcript.append_lines_self]
    exact (h ρ').snoc hidentifies hleft
  · rw [Transcript.append_lines_of_ne hne]
    exact h ρ'

/-- Appending a message does not change `mentions code id` unless it has that code
and that id. -/
theorem mentions_lines {code : MessageCodes} {id : Option Int} {m : Object MessageDto}
    (hm : m.val.code ≠ some code ∨ m.val.peerId ≠ id) (audience : PeerRef → Bool) (ρ' : RoomRef) :
    mentions code id (record ((T.append ρ m audience).lines ρ')) =
      mentions code id (record (T.lines ρ')) := by
  rcases eq_or_ne ρ' ρ with rfl | hne
  · rw [Transcript.append_lines_self, record_snoc, mentions_append]
    split
    · have hnot : mentions code id [m.val] = false := by
        rw [mentions, List.any_cons, List.any_nil, Bool.or_false]
        rcases hm with hm | hm
        · simp [hm]
        · simp [hm]
      rw [hnot, Bool.or_false]
    · exact Bool.or_false _
  · rw [Transcript.append_lines_of_ne hne]

/-- A broadcast on behalf of a client preserves `Tracks`. -/
theorem Tracks.post (h : Tracks T v) (config : ConfigDto) (hposted : Posted v p dto)
    (hp : p < v.directory.peerCount) (hρ : v.directory.peerRoom p = ρ) :
    Tracks (T.append ρ ⟨v.directory.objectCount, dto⟩ (v.receives ρ))
      (v.announce config ρ dto) := by
  let m : Object MessageDto := ⟨v.directory.objectCount, dto⟩
  have hextends := v.extendsPeers_announce config ρ dto
  obtain ⟨history, hd⟩ := v.announce_directory config ρ dto
  obtain ⟨hjoined, hleft⟩ := hposted.code_ne
  have hnoticeLog : ∀ ρ', NoticeLog v ρ' (record ((T.append ρ m (v.receives ρ)).lines ρ')) := by
    refine noticeLog_append h.noticeLog m _ fun hkept =>
      (h.noticeLog ρ).snoc ⟨p, hp, hρ, hposted.attributed hkept⟩ ?_ ?_
    · exact fun hcode => absurd hcode hjoined
    · exact fun hcode => absurd hcode hleft
  have hcount : (v.announce config ρ dto).directory.peerCount = v.directory.peerCount := by rw [hd]
  have hsame : ∀ p, p < v.directory.peerCount →
      (v.announce config ρ dto).directory.peerRoom p = v.directory.peerRoom p ∧
        (v.announce config ρ dto).directory.peerId p = v.directory.peerId p := fun p hp =>
    ⟨(hextends.same p hp).room, (hextends.same p hp).peerId⟩
  refine ⟨fun p hp => ?_, fun p q hp hq => ?_, fun ρ' => (hnoticeLog ρ').mono hextends,
    fun p hp => ?_, fun p hp => ?_⟩
  all_goals rw [hcount] at hp
  · rw [(hsame p hp).2, hd]
    exact h.id_lt p hp
  · rw [hcount] at hq
    rw [(hsame p hp).2, (hsame q hq).2]
    exact h.id_inj p q hp hq
  · rw [(hsame p hp).1, (hsame p hp).2, mentions_lines (.inl hjoined)]
    exact h.announced p hp
  · rw [(hsame p hp).1, (hsame p hp).2, mentions_lines (.inl hleft), hd]
    exact h.member p hp

/-! ### The members and the notices -/

/-- The next id to be assigned is in no recorded notice. -/
theorem Tracks.fresh (h : Tracks T v) (ρ : RoomRef) :
    mentions .codePeerJoined (some v.directory.peerIdCounter) (record (T.lines ρ)) = false ∧
      mentions .codePeerLeft (some v.directory.peerIdCounter) (record (T.lines ρ)) = false := by
  constructor
  · rw [Bool.eq_false_iff]
    intro hmentions
    obtain ⟨p, hp, -, hid⟩ := (h.noticeLog ρ).of_mentions_joined hmentions
    exact (h.id_lt p hp).ne hid
  · rw [Bool.eq_false_iff]
    intro hmentions
    obtain ⟨p, hp, -, hid⟩ := (h.noticeLog ρ).of_mentions_left hmentions
    exact (h.id_lt p hp).ne hid

/-- An id is present by the recorded notices iff it is the id of a member. -/
theorem Tracks.present_iff (h : Tracks T v) (ρ : RoomRef) (id : Option Int) :
    Present (record (T.lines ρ)) id ↔ ∃ q, q < v.directory.peerCount ∧
      v.directory.peerRoom q = ρ ∧ id = some (v.directory.peerId q) ∧
        v.directory.member ρ (v.directory.peerId q) = some q := by
  constructor
  · rintro ⟨hjoined, hleft⟩
    obtain ⟨message, hmem, hcode, rfl⟩ := mentions_iff.mp hjoined
    obtain ⟨q, hq, rfl, hattributed⟩ := (h.noticeLog ρ).fromRoom message hmem
    obtain rfl := hattributed.joined hcode
    exact ⟨q, hq, rfl, rfl, (h.member q hq).mpr hleft⟩
  · rintro ⟨q, hq, rfl, rfl, hmember⟩
    exact ⟨h.announced q hq, (h.member q hq).mp hmember⟩

/-- `entries` are the id and the nickname of each member of `ρ`, as in
`onboardPeer`. -/
def Lists (v : Scene) (ρ : RoomRef) (entries : List (Option PeerDto)) : Prop :=
  ∀ entry, entry ∈ entries ↔ ∃ q, v.directory.member ρ (v.directory.peerId q) = some q ∧
    entry = some { peerId := some (v.directory.peerId q), peerName := some (v.nickname q) }

/-- A `CODE_INFO` that lists the members lists the peers present by the notices. -/
theorem Tracks.onboards (h : Tracks T v) (hindexed : Indexed v.directory)
    {entries : List (Option PeerDto)} (hentries : Lists v ρ entries) {info : MessageDto}
    (hcode : info.code = some .codeInfo) (hp : info.peerId = some (v.directory.peerId p))
    (hname : info.peerName = some (v.nickname p)) (hpeers : info.peers = some entries) :
    Onboards (joined v p) (record (T.lines ρ)) info := by
  refine ⟨hcode, ⟨hp, hname⟩, entries, hpeers, fun entry => (hentries entry).trans ⟨?_, ?_⟩⟩
  · rintro ⟨q, hmember, rfl⟩
    obtain ⟨hq, rfl, -⟩ := hindexed.member ρ _ q hmember
    obtain ⟨message, hmem, hcode, hid⟩ := mentions_iff.mp (h.announced q hq)
    obtain ⟨q', hq', -, hattributed⟩ := (h.noticeLog _).fromRoom message hmem
    obtain rfl := hattributed.joined hcode
    obtain rfl := h.id_inj q' q hq' hq (Option.some.inj hid)
    exact ⟨_, hmem, hcode, (h.present_iff _ _).mpr ⟨q', hq, rfl, rfl, hmember⟩, rfl⟩
  · rintro ⟨message, hmem, hcode, hpresent, rfl⟩
    obtain ⟨q, hq, -, hid, hmember⟩ := (h.present_iff ρ message.peerId).mp hpresent
    obtain ⟨q', hq', -, hattributed⟩ := (h.noticeLog _).fromRoom message hmem
    obtain rfl := hattributed.joined hcode
    obtain rfl := h.id_inj q' q hq' hq (Option.some.inj hid)
    exact ⟨q', hmember, rfl⟩

/-! ### Joining -/

/-- The effect of a join on the peers, the members and the outboxes of the others. -/
structure JoinEffect (ρ : RoomRef) (nickname : String) (v w : Scene) : Prop where
  extendsPeers : v.ExtendsPeers w
  peerCount : w.directory.peerCount = v.directory.peerCount + 1
  peerIdCounter : w.directory.peerIdCounter = v.directory.peerIdCounter + 1
  room : w.directory.peerRoom v.directory.peerCount = ρ
  peerId : w.directory.peerId v.directory.peerCount = v.directory.peerIdCounter
  name : w.nickname v.directory.peerCount = nickname
  member : ∀ ρ' id, w.directory.member ρ' id =
    if ρ' = ρ ∧ id = v.directory.peerIdCounter then some v.directory.peerCount
    else v.directory.member ρ' id
  outbox : ∀ p, p ≠ v.directory.peerCount → v.outbox p <+: w.outbox p

theorem joinEffect_join (config : ConfigDto) (ρ : RoomRef) (nickname : String)
    (peers : List (Option PeerDto)) (v : Scene) :
    JoinEffect ρ nickname v (v.join config ρ nickname peers) := by
  let n := v.directory.peerCount
  let created := v.createPeer ρ nickname
  obtain ⟨history, hd⟩ := created.announce_directory config ρ (joined created n)
  -- the directory after the announcement, the new member and the `CODE_INFO`
  have hw : (v.join config ρ nickname peers).directory = (Directory.addPeer ρ n
      { created.directory with
        history, objectCount := created.directory.objectCount + 1 }).createShared := by
    show ((created.announce config ρ (joined created n)).directory.addPeer ρ n).createShared = _
    rw [hd]
  have hnew : created.directory.peerId n = v.directory.peerIdCounter := Function.update_self _ _ _
  constructor
  case extendsPeers =>
    refine ⟨?_, fun p hp => ⟨?_, ?_, Function.update_of_ne hp.ne _ _⟩⟩
    · rw [hw]
      exact Nat.le_succ _
    · rw [hw]
      exact Function.update_of_ne hp.ne _ _
    · rw [hw]
      exact Function.update_of_ne hp.ne _ _
  case peerCount =>
    rw [hw]
    rfl
  case peerIdCounter =>
    rw [hw]
    rfl
  case room =>
    rw [hw]
    exact Function.update_self _ _ _
  case peerId =>
    rw [hw]
    exact hnew
  case name => exact Function.update_self _ _ _
  case member =>
    intro ρ' id
    rw [hw]
    show Function.update v.directory.member ρ (fun id => if id = created.directory.peerId n then
      some n else v.directory.member ρ id) ρ' id = _
    rcases eq_or_ne ρ' ρ with rfl | hne
    · rw [Function.update_self, hnew]
      simp [n]
    · rw [Function.update_of_ne hne]
      simp [hne]
  case outbox =>
    intro p hp
    have hsendTo : (v.join config ρ nickname peers).outbox p =
        (created.announce config ρ (joined created n)).outbox p := Function.update_of_ne hp _ _
    rw [hsendTo]
    exact List.prefix_append _ _

/-- The `CODE_PEER_JOINED` of the new peer does not depend on the rest of the join. -/
theorem joined_join (config : ConfigDto) (ρ : RoomRef) (nickname : String)
    (peers : List (Option PeerDto)) (v : Scene) :
    joined (v.createPeer ρ nickname) v.directory.peerCount =
      joined (v.join config ρ nickname peers) v.directory.peerCount := by
  let n := v.directory.peerCount
  let w := v.join config ρ nickname peers
  let created := v.createPeer ρ nickname
  have hjoins : JoinEffect ρ nickname v w := joinEffect_join config ρ nickname peers v
  have hid : created.directory.peerId n = w.directory.peerId n :=
    (Function.update_self _ _ _).trans hjoins.peerId.symm
  have hname : created.nickname n = w.nickname n :=
    (Function.update_self _ _ _).trans hjoins.name.symm
  show joined created n = joined w n
  rw [joined, joined, hid, hname]

/-- After a join the outbox of the new peer holds its `CODE_INFO` only. -/
theorem outbox_join {config : ConfigDto} (hrealizes : Realizes config T v.directory.peerCount v)
    (nickname : String) (peers : List (Option PeerDto)) :
    ∃ greeting, (v.join config ρ nickname peers).outbox v.directory.peerCount = [greeting] ∧
      greeting.val.code = some .codeInfo ∧
      greeting.val.peerId = some v.directory.peerIdCounter ∧
      greeting.val.peerName = some nickname ∧ greeting.val.peers = some peers := by
  let n := v.directory.peerCount
  let created := v.createPeer ρ nickname
  have hreceives : created.receives ρ n = false := by
    rw [Bool.eq_false_iff]
    intro hreceives
    obtain ⟨hmember, -⟩ := (Bool.and_eq_true _ _).mp hreceives
    exact absurd (hrealizes.indexed.member ρ _ n (beq_iff_eq.mp hmember)).1 (lt_irrefl n)
  obtain ⟨history, hd⟩ := created.announce_directory config ρ (joined created n)
  let announced := created.announce config ρ (joined created n)
  have hsilent : announced.outbox n = [] := by
    show v.outbox n ++ (if created.receives ρ n then _ else []) = []
    rw [hreceives, hrealizes.fresh n le_rfl]
    rfl
  have honline : announced.online n = true := Function.update_self _ _ _
  have hid : announced.directory.peerId n = v.directory.peerIdCounter := by
    show (created.announce config ρ (joined created n)).directory.peerId n = _
    rw [hd]
    exact Function.update_self _ _ _
  have hname : announced.nickname n = nickname := Function.update_self _ _ _
  let added : Scene := { announced with directory := announced.directory.addPeer ρ n }
  refine ⟨⟨added.directory.objectCount, added.greeting config ρ n peers⟩, ?_, rfl, ?_, ?_, rfl⟩
  · show Function.update announced.outbox n (announced.outbox n ++
      if announced.online n then [_] else []) n = _
    rw [Function.update_self, hsilent, honline]
    rfl
  · exact congrArg some hid
  · exact congrArg some hname

theorem Tracks.join (h : Tracks T v) (config : ConfigDto) (ρ : RoomRef) (nickname : String)
    (peers : List (Option PeerDto)) :
    Tracks (T.join ρ nickname v) (v.join config ρ nickname peers) := by
  let n := v.directory.peerCount
  let w := v.join config ρ nickname peers
  let created := v.createPeer ρ nickname
  let own : Object MessageDto := ⟨created.directory.objectCount, joined created n⟩
  have hjoins : JoinEffect ρ nickname v w := joinEffect_join config ρ nickname peers v
  have hown : own.val = joined w n := joined_join config ρ nickname peers v
  have hownId : own.val.peerId = some v.directory.peerIdCounter := by
    rw [hown, ← hjoins.peerId]
    rfl
  have hbroadcast : (T.join ρ nickname v).lines = (T.append ρ own (created.receives ρ)).lines := rfl
  obtain ⟨hfresh, hfresh'⟩ := h.fresh ρ
  have hnoticeLog : ∀ ρ', NoticeLog w ρ' (record ((T.join ρ nickname v).lines ρ')) := by
    have hmono : ∀ ρ', NoticeLog w ρ' (record (T.lines ρ')) := fun ρ' =>
      (h.noticeLog ρ').mono hjoins.extendsPeers
    refine noticeLog_append hmono own (created.receives ρ) fun _ =>
      (hmono ρ).snoc ?_ (fun _ => hownId ▸ hfresh) fun hcode => ?_
    · exact ⟨n, hjoins.peerCount ▸ Nat.lt_succ_self n, hjoins.room, hown⟩
    · cases hcode
  -- a peer after the join is the new one or was allocated before
  have hcases : ∀ p, p < w.directory.peerCount → p < n ∨ p = n := by
    intro p hp
    rw [hjoins.peerCount] at hp
    exact Nat.lt_succ_iff_lt_or_eq.mp hp
  have hne : ∀ p, p < n → v.directory.peerId p ≠ v.directory.peerIdCounter := fun p hp =>
    (h.id_lt p hp).ne
  refine ⟨fun p hp => ?_, fun p q hp hq hid => ?_, hnoticeLog, fun p hp => ?_, fun p hp => ?_⟩
  · show w.directory.peerId p < w.directory.peerIdCounter
    rw [hjoins.peerIdCounter]
    rcases hcases p hp with hp | rfl
    · rw [(hjoins.extendsPeers.same p hp).peerId]
      exact (h.id_lt p hp).trans (Int.lt_succ _)
    · rw [hjoins.peerId]
      exact Int.lt_succ _
  · change w.directory.peerId p = w.directory.peerId q at hid
    rcases hcases p hp with hp | rfl
    · rcases hcases q hq with hq | rfl
      · rw [(hjoins.extendsPeers.same p hp).peerId, (hjoins.extendsPeers.same q hq).peerId] at hid
        exact h.id_inj p q hp hq hid
      · rw [(hjoins.extendsPeers.same p hp).peerId, hjoins.peerId] at hid
        exact absurd hid (hne p hp)
    · rcases hcases q hq with hq | rfl
      · rw [(hjoins.extendsPeers.same q hq).peerId, hjoins.peerId] at hid
        exact absurd hid.symm (hne q hq)
      · rfl
  · show mentions _ (some (w.directory.peerId p)) (record _) = true
    rcases hcases p hp with hp | rfl
    · obtain ⟨hroom, hid, -⟩ := hjoins.extendsPeers.same p hp
      have hother : own.val.peerId ≠ some (v.directory.peerId p) := by
        rw [hownId]
        exact fun heq => hne p hp (Option.some.inj heq).symm
      rw [hid, hroom, hbroadcast, mentions_lines (.inr hother)]
      exact h.announced p hp
    · have hrecord : record ((T.join ρ nickname v).lines ρ) = record (T.lines ρ) ++ [own.val] := by
        rw [hbroadcast, Transcript.append_lines_self, record_snoc]
        rfl
      rw [hjoins.room, hrecord, mentions_append, hjoins.peerId]
      have hmentions : mentions .codePeerJoined (some v.directory.peerIdCounter) [own.val] = true :=
        mentions_iff.mpr ⟨own.val, List.mem_singleton_self _, rfl, hownId⟩
      rw [hmentions, Bool.or_true]
  · have hcode : own.val.code ≠ some .codePeerLeft := fun heq => by cases heq
    show w.directory.member _ (w.directory.peerId p) = some p ↔
      mentions _ (some (w.directory.peerId p)) (record _) = false
    rcases hcases p hp with hp | rfl
    · obtain ⟨hroom, hid, -⟩ := hjoins.extendsPeers.same p hp
      rw [hid, hroom, hbroadcast, mentions_lines (.inl hcode), hjoins.member,
        if_neg (fun heq => hne p hp heq.2)]
      exact h.member p hp
    · rw [hjoins.room, hjoins.peerId, hbroadcast, mentions_lines (.inl hcode), hjoins.member,
        if_pos ⟨rfl, rfl⟩]
      exact iff_of_true rfl hfresh'

/-- The `CODE_INFO` of the new peer is exact. -/
theorem Tracks.infoExact_join (h : Tracks T v) {config : ConfigDto}
    (hrealizes : Realizes config T v.directory.peerCount v) (hρ : ρ < v.directory.roomCount)
    (nickname : String) {peers : List (Option PeerDto)}
    (hlists : Lists (v.join config ρ nickname peers) ρ peers) :
    InfoExact (T.join ρ nickname v) (v.join config ρ nickname peers) v.directory.peerCount := by
  let n := v.directory.peerCount
  let w := v.join config ρ nickname peers
  have hjoins : JoinEffect ρ nickname v w := joinEffect_join config ρ nickname peers v
  obtain ⟨greeting, hsent, hcode, hid, hname, hpeers⟩ :=
    outbox_join (ρ := ρ) hrealizes nickname peers
  obtain ⟨-, hrealizes'⟩ := hrealizes.join hρ nickname peers
  have honboards := (h.join config ρ nickname peers).onboards hrealizes'.indexed hlists hcode
    (p := n) (hid.trans (congrArg some hjoins.peerId.symm))
    (hname.trans (congrArg some hjoins.name.symm)) hpeers
  have hstart : (T.join ρ nickname v).start n = ((T.join ρ nickname v).lines ρ).length :=
    Function.update_self _ _ _
  refine ⟨greeting, ?_, ?_⟩
  · rw [hsent]
    rfl
  · rw [hjoins.room, hstart, List.take_length]
    exact honboards

/-! ### Leaving -/

/-- The effect of a leave on the peers, the members and the outboxes. -/
structure LeaveEffect (p : PeerRef) (v w : Scene) : Prop where
  extendsPeers : v.ExtendsPeers w
  peerCount : w.directory.peerCount = v.directory.peerCount
  peerIdCounter : w.directory.peerIdCounter = v.directory.peerIdCounter
  member : ∀ ρ id, w.directory.member ρ id =
    if ρ = v.directory.peerRoom p ∧ id = v.directory.peerId p then none
    else v.directory.member ρ id
  outbox : ∀ q, v.outbox q <+: w.outbox q

theorem leaveEffect_leave (config : ConfigDto) (p : PeerRef) (v : Scene) :
    LeaveEffect p v (v.leave config p) := by
  let ρ := v.directory.peerRoom p
  let removed : Scene :=
    { v with directory := v.directory.removePeer ρ (v.directory.peerId p) }
  obtain ⟨history, hd⟩ := removed.announce_directory config ρ (left removed p)
  have hw : (v.leave config p).directory = { removed.directory with
      history, objectCount := removed.directory.objectCount + 1 } := hd
  constructor
  case extendsPeers =>
    refine ⟨?_, fun q _ => ⟨?_, ?_, rfl⟩⟩
    · rw [hw]
      exact le_rfl
    · rw [hw]
      rfl
    · rw [hw]
      rfl
  case peerCount =>
    rw [hw]
    rfl
  case peerIdCounter =>
    rw [hw]
    rfl
  case member =>
    intro ρ' id
    rw [hw]
    show Function.update v.directory.member ρ (fun id => if id = v.directory.peerId p then none
      else v.directory.member ρ id) ρ' id = _
    rcases eq_or_ne ρ' ρ with rfl | hne
    · rw [Function.update_self]
      simp [ρ]
    · rw [Function.update_of_ne hne, if_neg fun heq => hne heq.1]
  case outbox => exact fun q => List.prefix_append _ _

theorem Tracks.leave (h : Tracks T v) (config : ConfigDto) (hp : p < v.directory.peerCount)
    (hmember : v.directory.member (v.directory.peerRoom p) (v.directory.peerId p) = some p) :
    Tracks (T.leave p v) (v.leave config p) := by
  let ρ := v.directory.peerRoom p
  let w := v.leave config p
  let removed : Scene :=
    { v with directory := v.directory.removePeer ρ (v.directory.peerId p) }
  let notice : Object MessageDto := ⟨removed.directory.objectCount, left removed p⟩
  have hleaves : LeaveEffect p v w := leaveEffect_leave config p v
  have hsame : ∀ q, q < v.directory.peerCount → w.directory.peerRoom q = v.directory.peerRoom q ∧
      w.directory.peerId q = v.directory.peerId q := fun q hq =>
    ⟨(hleaves.extendsPeers.same q hq).room, (hleaves.extendsPeers.same q hq).peerId⟩
  have hbroadcast : (T.leave p v).lines = (T.append ρ notice (removed.receives ρ)).lines := rfl
  have hnoticeLog : ∀ ρ', NoticeLog w ρ' (record ((T.leave p v).lines ρ')) := by
    -- the leaver was announced, and has not left before
    have hmono : ∀ ρ', NoticeLog v ρ' (record ((T.leave p v).lines ρ')) := by
      refine noticeLog_append h.noticeLog notice (removed.receives ρ) fun _ =>
        (h.noticeLog ρ).snoc ?_ nofun ?_
      · exact ⟨p, hp, rfl, rfl⟩
      · exact fun _ => ⟨h.announced p hp, (h.member p hp).mp hmember⟩
    exact fun ρ' => (hmono ρ').mono hleaves.extendsPeers
  refine ⟨fun q hq => ?_, fun q r hq hr hid => ?_, hnoticeLog, fun q hq => ?_, fun q hq => ?_⟩
  all_goals change q < w.directory.peerCount at hq
  all_goals rw [hleaves.peerCount] at hq
  · show w.directory.peerId q < w.directory.peerIdCounter
    rw [(hsame q hq).2, hleaves.peerIdCounter]
    exact h.id_lt q hq
  · change r < w.directory.peerCount at hr
    change w.directory.peerId q = w.directory.peerId r at hid
    rw [hleaves.peerCount] at hr
    rw [(hsame q hq).2, (hsame r hr).2] at hid
    exact h.id_inj q r hq hr hid
  -- a notice of leaving announces nobody
  · have hcode : notice.val.code ≠ some .codePeerJoined := nofun
    show mentions _ (some (w.directory.peerId q))
      (record ((T.leave p v).lines (w.directory.peerRoom q))) =
      true
    rw [(hsame q hq).1, (hsame q hq).2, hbroadcast, mentions_lines (.inl hcode)]
    exact h.announced q hq
  · show w.directory.member (w.directory.peerRoom q) (w.directory.peerId q) = some q ↔
      mentions _ (some (w.directory.peerId q))
        (record ((T.leave p v).lines (w.directory.peerRoom q))) =
        false
    rw [(hsame q hq).1, (hsame q hq).2, hbroadcast, hleaves.member]
    -- the leaver is no member and its notice is recorded; for the others nothing changes
    rcases eq_or_ne q p with rfl | hne
    · have hmentions : mentions .codePeerLeft (some (v.directory.peerId q))
          (record ((T.append ρ notice (removed.receives ρ)).lines (v.directory.peerRoom q))) =
        true := by
        rw [Transcript.append_lines_self, record_snoc, mentions_append]
        refine Bool.or_eq_true_iff.mpr (.inr ?_)
        exact mentions_iff.mpr ⟨notice.val, List.mem_singleton_self _, rfl, rfl⟩
      rw [if_pos ⟨rfl, rfl⟩, hmentions]
      exact iff_of_false nofun nofun
    · have hid : v.directory.peerId q ≠ v.directory.peerId p := fun heq =>
        hne (h.id_inj q p hq hp heq)
      have hother : notice.val.peerId ≠ some (v.directory.peerId q) := fun heq =>
        hid (Option.some.inj heq).symm
      rw [if_neg fun heq => hid heq.2, mentions_lines (.inr hother)]
      exact h.member q hq

end Tracks

end Conversation

end CanChat
