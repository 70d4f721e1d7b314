/-
CanChat/Submissions.lean

The posts of a transcript and the messages that the clients submitted.

`Renders v p sent dto` relates a message `sent` of the client of `p` to the
broadcast `dto` that the server makes of it: the id and the nickname of `p`, the
server's timestamp, the text of the client, and for `CODE_FILE_SHARE` the files
as registered.

Design.  `PostsMatch P T v` states that the posts of each peer in the transcript
render, one by one and in order, the list `P p` of messages submitted by its
client.  `Refines` collects the relations between a transcript and a scene, and
`Advances` is the simulation step: an event of the server takes `T` and `P` to
some `T'` and `P'` that are related to the scene after it.
-/
import CanChat.MemberNotices
import CanChat.SharedFiles

namespace CanChat

namespace Conversation

open Participants Truncation

/-! ### What the server takes -/

/-- The messages that `handleMessage` broadcasts when their sender is a member. -/
def accepts (message : MessageDto) : Bool :=
  match message.code with
  | some .codePeerMessage | some .codePeerIsTyping => true
  | some .codeFileShare => message.files.any fun files =>
      (registrable files).length == files.length
  | _ => false

/-- The codes of the broadcasts made on behalf of a client. -/
def isPost (dto : MessageDto) : Bool :=
  match dto.code with
  | some .codePeerMessage | some .codePeerIsTyping | some .codePeerMessageFile => true
  | _ => false

/-- A message submitted by a client, with the clock readings available to the
handler that processes it. -/
structure Submission where
  message : MessageDto
  clock : ℕ → Int

/-- `dto` is the broadcast that `handleMessage` makes of `sent` for `p`.
`readMessage` stamps it with the first reading of the clock, and
`handleFilesMessage` with the second. -/
def Renders (v : Scene) (p : PeerRef) (sent : Submission) (dto : MessageDto) : Prop :=
  match sent.message.code with
  | some .codeFileShare => ∃ files shared, sent.message.files = some files ∧
      List.Forall₂ Peer.Announces files shared ∧
      dto = { code := some .codePeerMessageFile
              peerId := some (v.directory.peerId p)
              peerName := some (v.nickname p)
              timestamp := some (sent.clock 1)
              files := some shared }
  | some .codePeerMessage | some .codePeerIsTyping =>
      dto = { sent.message with
        peerName := some (v.nickname p)
        peerId := some (v.directory.peerId p)
        timestamp := some (sent.clock 0) }
  | _ => False

section Renders

variable {v w : Scene} {p : PeerRef} {sent : Submission} {dto : MessageDto}

theorem Renders.same (h : Renders v p sent dto) (hsame : SamePeer v w p) :
    Renders w p sent dto := by
  unfold Renders at h ⊢
  rwa [hsame.peerId, hsame.nickname]

/-- A rendered message is a broadcast on behalf of `p`. -/
theorem Renders.posted (h : Renders v p sent dto) : Posted v p dto := by
  unfold Renders at h
  split at h
  · obtain ⟨files, shared, -, hshared, rfl⟩ := h
    exact ⟨⟨rfl, rfl⟩, shared, rfl, Peer.announces_ne_none hshared⟩
  · next hcode =>
    subst h
    unfold Posted
    rw [show MessageDto.code _ = sent.message.code from rfl, hcode]
    exact ⟨rfl, rfl⟩
  · next hcode =>
    subst h
    unfold Posted
    rw [show MessageDto.code _ = sent.message.code from rfl, hcode]
    exact ⟨rfl, rfl⟩
  · exact h.elim

theorem Posted.isPost (h : Posted v p dto) : isPost dto = true := by
  have hisPost : Conversation.isPost dto = match dto.code with
    | some .codePeerMessage | some .codePeerIsTyping | some .codePeerMessageFile => true
    | _ => false := rfl
  unfold Posted at h
  split at h
  · next hcode => rw [hisPost, hcode]
  · next hcode => rw [hisPost, hcode]
  · next hcode => rw [hisPost, hcode]
  · exact h.elim

end Renders

/-! ### The posts of a peer -/

/-- The broadcasts in the room of `p` made on behalf of `p`. -/
def posts (T : Transcript) (v : Scene) (p : PeerRef) : List MessageDto :=
  ((T.lines (v.directory.peerRoom p)).map Object.val).filter fun dto =>
    isPost dto && dto.peerId == some (v.directory.peerId p)

/-- The posts of each peer render the submissions of its client, in order. -/
structure PostsMatch (P : PeerRef → List Submission) (T : Transcript) (v : Scene) : Prop where
  rendered : ∀ p, p < v.directory.peerCount → List.Forall₂ (Renders v p) (P p) (posts T v p)
  fresh : ∀ p, v.directory.peerCount ≤ p → P p = []

/-- Append a submission to the list of `p`. -/
def submit (p : PeerRef) (sent : Submission) (P : PeerRef → List Submission) :
    PeerRef → List Submission := Function.update P p (P p ++ [sent])

section PostsMatch

variable {P : PeerRef → List Submission} {T : Transcript} {v w : Scene} {ρ : RoomRef}
    {p q : PeerRef}
  {m : Object MessageDto} {sent : Submission} {dto : MessageDto}

theorem posts_same (hsame : SamePeer v w p) : posts T w p = posts T v p := by
  unfold posts
  rw [hsame.room, hsame.peerId]

/-- Appending a line that is not a post of `p`. -/
theorem posts_append_of_not (audience : PeerRef → Bool)
    (hm : v.directory.peerRoom p = ρ → isPost m.val = true →
      m.val.peerId ≠ some (v.directory.peerId p)) :
    posts (T.append ρ m audience) v p = posts T v p := by
  unfold posts
  rcases eq_or_ne (v.directory.peerRoom p) ρ with hroom | hne
  · rw [hroom, Transcript.append_lines_self, List.map_append, List.filter_append]
    have hnot : (isPost m.val && m.val.peerId == some (v.directory.peerId p)) = false := by
      rw [Bool.and_eq_false_iff, beq_eq_false_iff_ne]
      exact or_iff_not_imp_left.mpr fun hpost => hm hroom (Bool.not_eq_false _ ▸ hpost)
    rw [List.map_singleton, List.filter_cons_of_neg (by simp [hnot]), List.filter_nil,
      List.append_nil]
  · rw [Transcript.append_lines_of_ne hne]

/-- Appending a post of `p`. -/
theorem posts_append_self (audience : PeerRef → Bool) (hroom : v.directory.peerRoom p = ρ)
    (hpost : isPost m.val = true) (hid : m.val.peerId = some (v.directory.peerId p)) :
    posts (T.append ρ m audience) v p = posts T v p ++ [m.val] := by
  unfold posts
  rw [hroom, Transcript.append_lines_self, List.map_append, List.filter_append, List.map_singleton]
  congr 1
  exact List.filter_cons_of_pos (by rw [hpost, hid, beq_self_eq_true]; rfl)

/-- A transition that leaves the posts and the number of peers. -/
theorem PostsMatch.keep (h : PostsMatch P T v) (hextends : v.ExtendsPeers w)
    (hcount : w.directory.peerCount = v.directory.peerCount) {T' : Transcript}
    (hposts : ∀ p, p < v.directory.peerCount → posts T' v p = posts T v p) : PostsMatch P T' w := by
  constructor
  · intro p hp
    rw [hcount] at hp
    have hsame := hextends.same p hp
    rw [posts_same hsame, hposts p hp]
    exact (h.rendered p hp).imp fun _ _ hrenders => hrenders.same hsame
  · rw [hcount]
    exact h.fresh

/-- A submission of `p` and its rendering are appended together. -/
theorem PostsMatch.post (h : PostsMatch P T v) (htracks : Tracks T v)
    (hp : p < v.directory.peerCount) (hroom : v.directory.peerRoom p = ρ)
    (hrenders : Renders v p sent m.val) (audience : PeerRef → Bool) :
    PostsMatch (submit p sent P) (T.append ρ m audience) v := by
  obtain ⟨hid, -⟩ := hrenders.posted.signed
  refine ⟨fun q hq => ?_, fun q hq => ?_⟩
  · rcases eq_or_ne q p with rfl | hne
    · rw [submit, Function.update_self, posts_append_self audience hroom hrenders.posted.isPost hid]
      exact List.rel_append (h.rendered q hq) (.cons hrenders .nil)
    · rw [submit, Function.update_of_ne hne, posts_append_of_not audience fun _ _ heq => ?_]
      · exact h.rendered q hq
      · exact hne (htracks.id_inj q p hq hp (Option.some.inj (heq.symm.trans hid)))
  · have hne : q ≠ p := fun heq => absurd hp (not_lt.mpr (heq ▸ hq))
    rw [submit, Function.update_of_ne hne]
    exact h.fresh q hq

/-- A new peer has neither submissions nor posts. -/
theorem PostsMatch.join (h : PostsMatch P T v) (htracks : Tracks T v)
    (hleftIsLast : ∀ ρ, LeftIsLast v ρ (T.lines ρ)) (config : ConfigDto) (ρ : RoomRef)
    (nickname : String)
    (peers : List (Option PeerDto)) :
    PostsMatch P (T.join ρ nickname v) (v.join config ρ nickname peers) := by
  let n := v.directory.peerCount
  let w := v.join config ρ nickname peers
  let created := v.createPeer ρ nickname
  let own : Object MessageDto := ⟨created.directory.objectCount, joined created n⟩
  have hjoins : JoinEffect ρ nickname v w := joinEffect_join config ρ nickname peers v
  have hbroadcast : ∀ u p, posts (T.join ρ nickname v) u p =
      posts (T.append ρ own (created.receives ρ)) u p := fun _ _ => rfl
  have hnotice : isPost own.val = false := rfl
  have hsilent : ∀ u p, posts (T.join ρ nickname v) u p = posts T u p := by
    intro u p
    rw [hbroadcast, posts_append_of_not]
    exact fun _ hpost => absurd (hnotice.symm.trans hpost) (by simp)
  refine ⟨fun p hp => ?_, fun p hp => h.fresh p ?_⟩
  · rw [hsilent]
    rw [hjoins.peerCount] at hp
    rcases Nat.lt_succ_iff_lt_or_eq.mp hp with hlt | rfl
    · have hsame := hjoins.extendsPeers.same p hlt
      rw [posts_same hsame]
      exact (h.rendered p hlt).imp fun _ _ hrenders => hrenders.same hsame
    · -- no line carries the id assigned to the new peer
      have hnone : posts T w n = [] := by
        refine List.filter_eq_nil_iff.mpr fun dto hdto => ?_
        obtain ⟨m, hm, rfl⟩ := List.mem_map.mp hdto
        obtain ⟨q, hq, -, hid, -⟩ := (hleftIsLast _).named m hm
        have hne : m.val.peerId ≠ some (w.directory.peerId n) := by
          rw [hid, hjoins.peerId]
          exact fun heq => (htracks.id_lt q hq).ne (Option.some.inj heq)
        simp [beq_eq_false_iff_ne.mpr hne]
      have hfresh : P n = [] := h.fresh n le_rfl
      rw [hnone, hfresh]
      exact .nil
  · rw [hjoins.peerCount] at hp
    exact Nat.le_of_succ_le hp

theorem PostsMatch.leave (h : PostsMatch P T v) (config : ConfigDto) (p : PeerRef) :
    PostsMatch P (T.leave p v) (v.leave config p) := by
  have hleaves := leaveEffect_leave config p v
  refine h.keep hleaves.extendsPeers hleaves.peerCount fun q _ => ?_
  exact posts_append_of_not _ fun _ hpost => by cases hpost

end PostsMatch

/-! ### The simulation step -/

section Refines

variable {config : ConfigDto} {T T' : Transcript} {P P' P'' : PeerRef → List Submission}
  {u v w : Scene} {ρ : RoomRef} {p q : PeerRef} {leaver : Option PeerRef}

/-- The scene `v` refines the transcript `T`: outboxes and histories realize it,
its notices track the members, and each `CODE_INFO` is exact. -/
structure Refines (config : ConfigDto) (T : Transcript) (v : Scene) : Prop where
  realizes : Realizes config T v.directory.peerCount v
  tracks : Tracks T v
  infoExact : ∀ p, p < v.directory.peerCount → InfoExact T v p
  leftIsLast : ∀ ρ, LeftIsLast v ρ (T.lines ρ)

/-- `p` is a member of its room. -/
def Scene.IsMember (v : Scene) (p : PeerRef) : Prop :=
  v.directory.member (v.directory.peerRoom p) (v.directory.peerId p) = some p

instance (v : Scene) (p : PeerRef) : Decidable (v.IsMember p) :=
  inferInstanceAs (Decidable (_ = some p))

theorem Scene.IsMember.quiet (hp : v.IsMember p) (hquiet : v.Quiet w) : w.IsMember p := by
  obtain ⟨n, -, hd⟩ := hquiet.allocates
  unfold Scene.IsMember at hp ⊢
  rw [hd]
  exact hp

/-- No `CODE_PEER_LEFT` of a member has been recorded. -/
theorem Refines.not_left (h : Refines config T v) (hp : v.IsMember p) :
    mentions .codePeerLeft (some (v.directory.peerId p))
      (record (T.lines (v.directory.peerRoom p))) = false :=
  (h.tracks.member p (h.realizes.indexed.member _ _ p hp).1).mp hp

theorem Refines.lt_of_isMember (h : Refines config T v) (hp : v.IsMember p) :
    p < v.directory.peerCount :=
  (h.realizes.indexed.member _ _ p hp).1

/-- A step from the scene `v` to `w` that changes the submissions from `P` to `P'`
is simulated by a step of the transcript; all peers stay allocated, and all
members but `leaver` stay members. -/
structure Advances (config : ConfigDto) (T : Transcript) (P P' : PeerRef → List Submission)
    (leaver : Option PeerRef) (v w : Scene) : Prop where
  transcript : ∃ T', T.Continues v.directory.peerCount T' ∧ Refines config T' w ∧
    (PostsMatch P T v → PostsMatch P' T' w)
  extendsPeers : v.ExtendsPeers w
  isMember : ∀ p, leaver ≠ some p → v.IsMember p → w.IsMember p

theorem Scene.ExtendsPeers.trans (h : u.ExtendsPeers v) (h' : v.ExtendsPeers w) :
    u.ExtendsPeers w := by
  refine ⟨h.peerCount.trans h'.peerCount, fun p hp => ?_⟩
  obtain ⟨hroom, hid, hname⟩ := h.same p hp
  obtain ⟨hroom', hid', hname'⟩ := h'.same p (hp.trans_le h.peerCount)
  exact ⟨hroom'.trans hroom, hid'.trans hid, hname'.trans hname⟩

theorem Advances.refl (h : Refines config T v) : Advances config T P P none v v :=
  ⟨⟨T, .refl _ T, h, id⟩, ⟨le_rfl, fun _ _ => ⟨rfl, rfl, rfl⟩⟩, fun _ _ => id⟩

theorem Advances.trans (h : Advances config T P P' leaver u v)
    (h' : ∀ T', Refines config T' v → Advances config T' P' P'' none v w) :
    Advances config T P P'' leaver u w := by
  obtain ⟨T', hcontinues, hrefines, hpostsMatch⟩ := h.transcript
  obtain ⟨⟨T'', hcontinues', hrefines', hpostsMatch'⟩, hextends, hisMember⟩ := h' T' hrefines
  exact ⟨⟨T'', hcontinues.trans hcontinues' h.extendsPeers.peerCount, hrefines',
    fun hu => hpostsMatch' (hpostsMatch hu)⟩,
    h.extendsPeers.trans hextends, fun p hp hseat => hisMember p nofun (h.isMember p hp hseat)⟩

/-- A simulation step that leaves the peers, the members and the submissions. -/
theorem Advances.of_members (h : Refines config T v)
    (hcontinues : T.Continues v.directory.peerCount T')
    (hrealizes : Realizes config T' w.directory.peerCount w) (htracks : Tracks T' w)
    (hleftIsLast : ∀ ρ, LeftIsLast w ρ (T'.lines ρ)) (hextends : v.ExtendsPeers w)
    (hcount : w.directory.peerCount = v.directory.peerCount)
    (hmember : ∀ p, p < v.directory.peerCount →
      w.directory.member (v.directory.peerRoom p) (v.directory.peerId p) =
        v.directory.member (v.directory.peerRoom p) (v.directory.peerId p))
    (houtbox : ∀ p, v.outbox p <+: w.outbox p)
    (hpostsMatch : PostsMatch P T v → PostsMatch P' T' w) :
    Advances config T P P' none v w := by
  refine ⟨⟨T', hcontinues, ⟨hrealizes, htracks, fun p hp => ?_, hleftIsLast⟩, hpostsMatch⟩,
    hextends,
    fun p _ hp => ?_⟩
  · rw [hcount] at hp
    exact (h.infoExact p hp).keep h.realizes hextends hcontinues hp (houtbox p)
  · have hlt := h.lt_of_isMember hp
    obtain ⟨hroom, hid, -⟩ := hextends.same p hlt
    show w.directory.member (w.directory.peerRoom p) (w.directory.peerId p) = some p
    rw [hroom, hid, hmember p hlt]
    exact hp

theorem Scene.Quiet.extendsPeers (hquiet : v.Quiet w) : v.ExtendsPeers w := by
  obtain ⟨n, -, hd⟩ := hquiet.allocates
  refine ⟨by rw [hd], fun p _ => ⟨by rw [hd], by rw [hd], ?_⟩⟩
  exact congrFun hquiet.nickname p

theorem Advances.of_quiet (h : Refines config T v) (hquiet : v.Quiet w) :
    Advances config T P P none v w := by
  obtain ⟨n, -, hd⟩ := hquiet.allocates
  have hcount : w.directory.peerCount = v.directory.peerCount := by rw [hd]
  have hmember : w.directory.member = v.directory.member := by rw [hd]
  have hextends : v.ExtendsPeers w := hquiet.extendsPeers
  have htracks : Tracks T w :=
    h.tracks.keep hextends hcount (by rw [hd]) fun p _ => by rw [hmember]
  refine .of_members h (.refl _ T) (h.realizes.quiet hquiet) htracks
    (fun ρ => (h.leftIsLast ρ).mono hextends) hextends hcount (fun p _ => by rw [hmember])
    (fun p => ?_) fun hu => hu.keep hextends hcount fun _ _ => rfl
  obtain ⟨direct, hdirects, -⟩ := hquiet.outbox p
  exact ⟨direct, hdirects.symm⟩

/-- A broadcast on behalf of the client of `p`. -/
theorem Advances.post {sent : Submission} {dto : MessageDto} (h : Refines config T v)
    (hisMember : v.IsMember p)
    (hroom : v.directory.peerRoom p = ρ) (hrenders : Renders v p sent dto) :
    Advances config T P (submit p sent P) none v (v.announce config ρ dto) := by
  have hposted := hrenders.posted
  have hp := h.lt_of_isMember hisMember
  have hρ : ρ < v.directory.roomCount := hroom ▸ h.realizes.indexed.room p hp
  have hreceives : ∀ q, v.receives ρ q = true → q < v.directory.peerCount := fun q hq =>
    (Scene.receives_room h.realizes.indexed hq).1
  obtain ⟨history, hd⟩ := v.announce_directory config ρ dto
  have hcount : (v.announce config ρ dto).directory.peerCount = v.directory.peerCount := by rw [hd]
  have hrealizes := h.realizes.announce hposted.isBroadcast hρ hreceives
  rw [← hcount] at hrealizes
  have hleft : mentions .codePeerLeft dto.peerId (record (T.lines ρ)) = false := by
    rw [hposted.signed.1, ← hroom]
    exact h.not_left hisMember
  have hleftIsLast : ∀ ρ', LeftIsLast v ρ'
      ((T.append ρ ⟨v.directory.objectCount, dto⟩ (v.receives ρ)).lines ρ') :=
    leftIsLast_append h.leftIsLast _ _ ⟨p, hp, hroom, hposted.signed.identifies⟩ hleft
  refine .of_members h (h.realizes.continues ρ ⟨v.directory.objectCount, dto⟩) hrealizes
    (h.tracks.post config hposted hp hroom)
    (fun ρ' => (hleftIsLast ρ').mono (v.extendsPeers_announce config ρ dto))
    (v.extendsPeers_announce config ρ dto) hcount (fun p _ => by rw [hd])
    (fun p => List.prefix_append _ _) fun hu => ?_
  exact (hu.post h.tracks hp hroom hrenders _).keep (v.extendsPeers_announce config ρ dto) hcount
    fun _ _ => rfl

/-- A new room has no members and no broadcasts. -/
theorem Advances.createRoom (h : Refines config T v) (name : String) :
    Advances config T P P none v { v with directory := v.directory.createRoom name } := by
  have hextends : v.ExtendsPeers { v with directory := v.directory.createRoom name } :=
    ⟨le_rfl, fun _ _ => ⟨rfl, rfl, rfl⟩⟩
  have hmember : ∀ p, p < v.directory.peerCount →
      (v.directory.createRoom name).member (v.directory.peerRoom p) (v.directory.peerId p) =
        v.directory.member (v.directory.peerRoom p) (v.directory.peerId p) := by
    intro p hp
    have hne : v.directory.peerRoom p ≠ v.directory.roomCount := (h.realizes.indexed.room p hp).ne
    rw [Directory.createRoom_member, Function.update_of_ne hne]
  exact .of_members h (.refl _ T) (h.realizes.createRoom name)
    (h.tracks.keep hextends rfl rfl hmember) (fun ρ => (h.leftIsLast ρ).mono hextends) hextends
    rfl hmember (fun _ => List.prefix_rfl) fun hu => hu.keep hextends rfl fun _ _ => rfl

theorem Advances.deleteRoom (h : Refines config T v) (name : String) :
    Advances config T P P none v { v with directory := v.directory.deleteRoom name } := by
  have hextends : v.ExtendsPeers { v with directory := v.directory.deleteRoom name } :=
    ⟨le_rfl, fun _ _ => ⟨rfl, rfl, rfl⟩⟩
  exact .of_members h (.refl _ T) (h.realizes.deleteRoom name)
    (h.tracks.keep hextends rfl rfl fun _ _ => rfl) (fun ρ => (h.leftIsLast ρ).mono hextends)
    hextends rfl (fun _ _ => rfl) (fun _ => List.prefix_rfl)
    fun hu => hu.keep hextends rfl fun _ _ => rfl

/-- A join; the new peer is a member after it. -/
theorem Advances.join (h : Refines config T v) (hρ : ρ < v.directory.roomCount) (nickname : String)
    {peers : List (Option PeerDto)} (hlists : Lists (v.join config ρ nickname peers) ρ peers) :
    Advances config T P P none v (v.join config ρ nickname peers) ∧
      (v.join config ρ nickname peers).IsMember v.directory.peerCount := by
  let n := v.directory.peerCount
  let w := v.join config ρ nickname peers
  have hjoins : JoinEffect ρ nickname v w := joinEffect_join config ρ nickname peers v
  obtain ⟨hcontinues, hrealizes⟩ := h.realizes.join hρ nickname peers
  rw [← hjoins.peerCount] at hrealizes
  have hown : joined (v.createPeer ρ nickname) n = joined w n :=
    joined_join config ρ nickname peers v
  have hsigned : Signed w n (joined (v.createPeer ρ nickname) n) := by
    rw [hown]
    exact ⟨rfl, rfl⟩
  have hnew : n < w.directory.peerCount := hjoins.peerCount ▸ Nat.lt_succ_self n
  -- an id that has just been handed out has left no room yet
  have hleft : mentions .codePeerLeft (joined (v.createPeer ρ nickname) n).peerId
      (record (T.lines ρ)) = false := by
    rw [hsigned.1, hjoins.peerId]
    exact (h.tracks.fresh ρ).2
  have hleftIsLast : ∀ ρ', LeftIsLast w ρ' ((T.join ρ nickname v).lines ρ') :=
    leftIsLast_append (fun ρ' => (h.leftIsLast ρ').mono hjoins.extendsPeers)
      ⟨(v.createPeer ρ nickname).directory.objectCount, joined (v.createPeer ρ nickname) n⟩
      ((v.createPeer ρ nickname).receives ρ) ⟨n, hnew, hjoins.room, hsigned.identifies⟩ hleft
  refine ⟨⟨⟨_, hcontinues, ⟨hrealizes, h.tracks.join config ρ nickname peers, fun p hp => ?_,
    hleftIsLast⟩, fun hu => hu.join h.tracks h.leftIsLast config ρ nickname peers⟩,
    hjoins.extendsPeers,
    fun p _ hp => ?_⟩, ?_⟩
  · change p < w.directory.peerCount at hp
    rw [hjoins.peerCount] at hp
    -- the peers that were there keep their CODE_INFO, the newcomer gets its own
    rcases Nat.lt_succ_iff_lt_or_eq.mp hp with hlt | rfl
    · exact (h.infoExact p hlt).keep h.realizes hjoins.extendsPeers hcontinues hlt
        (hjoins.outbox p hlt.ne)
    · exact h.tracks.infoExact_join h.realizes hρ nickname hlists
  -- who was a member stays one, since the new id is in nobody's way
  · have hlt := h.lt_of_isMember hp
    obtain ⟨hroom, hid, -⟩ := hjoins.extendsPeers.same p hlt
    show w.directory.member (w.directory.peerRoom p) (w.directory.peerId p) = some p
    rw [hroom, hid, hjoins.member, if_neg fun heq => (h.tracks.id_lt p hlt).ne heq.2]
    exact hp
  · show w.directory.member (w.directory.peerRoom n) (w.directory.peerId n) = some n
    rw [hjoins.room, hjoins.peerId, hjoins.member, if_pos ⟨rfl, rfl⟩]

/-- A leave; all other members stay members. -/
theorem Advances.leave (h : Refines config T v) (hp : v.IsMember p) :
    Advances config T P P (some p) v (v.leave config p) := by
  let w := v.leave config p
  have hlt := h.lt_of_isMember hp
  have hleaves : LeaveEffect p v w := leaveEffect_leave config p v
  obtain ⟨hcontinues, hrealizes⟩ := h.realizes.leave hlt
  rw [← hleaves.peerCount] at hrealizes
  have hleftIsLast : ∀ ρ', LeftIsLast v ρ' ((T.leave p v).lines ρ') :=
    leftIsLast_append h.leftIsLast _ _ ⟨p, hlt, rfl, rfl, fun hcode => absurd rfl hcode⟩
      (h.not_left hp)
  refine ⟨⟨_, hcontinues, ⟨hrealizes, h.tracks.leave config hlt hp, fun q hq => ?_,
    fun ρ' => (hleftIsLast ρ').mono hleaves.extendsPeers⟩, fun hu => hu.leave config p⟩,
    hleaves.extendsPeers, fun q hne hq => ?_⟩
  · change q < w.directory.peerCount at hq
    rw [hleaves.peerCount] at hq
    exact (h.infoExact q hq).keep h.realizes hleaves.extendsPeers hcontinues hq (hleaves.outbox q)
  · have hltq := h.lt_of_isMember hq
    obtain ⟨hroom, hid, -⟩ := hleaves.extendsPeers.same q hltq
    have hother : v.directory.peerId q ≠ v.directory.peerId p := fun heq =>
      hne (congrArg some (h.tracks.id_inj p q hlt hltq heq.symm))
    show w.directory.member (w.directory.peerRoom q) (w.directory.peerId q) = some q
    rw [hroom, hid, hleaves.member, if_neg fun heq => hother heq.2]
    exact hq

end Refines

end Conversation

end CanChat
