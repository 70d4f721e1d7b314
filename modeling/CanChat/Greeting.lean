/-
CanChat/Greeting.lean

Whether a newcomer's `CODE_INFO` is the first message it is sent, and what the
page does with what comes before it.

A peer is added to its room before its `CODE_INFO` is made and sent, and a
broadcast that falls in between goes to the newcomer first.  The page then
reads `peerId`, which nothing has declared (`let peedId` is a slip) and only
`CODE_INFO` assigns.  `Informs` is the condition that nothing is broadcast to a
room while a newcomer waits for its `CODE_INFO`.
-/
import CanChat.Presence
import CanChat.Provenance
import CanChat.Participants

namespace CanChat

/-! ### The page -/

namespace Participants

/-- Where `peerId` has been assigned, the script finds it and leaves it so. -/
def Assigned {α : Type} (script : Script α) : Prop :=
  ∀ page, page.peerId.isSome → (script.exec page).2.peerId.isSome ∧
    (script.exec page).1 ≠ .error .referenceError

namespace Assigned

variable {α β : Type}

theorem pure (a : α) : Assigned (pure a) := fun _ hpage => ⟨hpage, by simp⟩

theorem typeError : Assigned (throw .typeError : Script α) := fun _ hpage => ⟨hpage, by simp⟩

theorem bind {script : Script α} {k : α → Script β} (h : Assigned script)
    (hk : ∀ a, Assigned (k a)) : Assigned (script >>= k) := by
  intro page hpage
  obtain ⟨hpage', hne⟩ := h page hpage
  rw [Script.exec_bind]
  rcases hexec : script.exec page with ⟨e | a, page'⟩ <;> rw [hexec] at hpage' hne
  · refine ⟨hpage', fun heq => hne ?_⟩
    rw [Except.error.inj heq]
  · exact hk a page' hpage'

theorem modify {f : Participants → Participants}
    (hf : ∀ page, page.peerId.isSome → (f page).peerId.isSome) : Assigned (modify f) :=
  fun page hpage => ⟨hf page hpage, by simp⟩

theorem readPeerId : Assigned readPeerId := by
  intro page hpage
  obtain ⟨self, hself⟩ := Option.isSome_iff_exists.mp hpage
  rw [exec_readPeerId, hself]
  exact ⟨hpage, by simp⟩

theorem updateParticipants : Assigned updateParticipants := by
  intro page hpage
  obtain ⟨self, hself⟩ := Option.isSome_iff_exists.mp hpage
  rw [exec_updateParticipants hself]
  split
  · exact ⟨hpage, by simp⟩
  · refine ⟨hpage, ?_⟩
    dsimp only
    split
    · simp
    · simp

theorem peerJoined (peerId : Option Int) (peerName : Option String) :
    Assigned (peerJoined peerId peerName) :=
  bind (modify fun _ h => h) fun _ => updateParticipants

theorem peerLeft (peerId : Option Int) : Assigned (peerLeft peerId) :=
  bind (modify fun _ h => h) fun _ => updateParticipants

theorem postFiles (files : List (Option FileDto)) : Assigned (postFiles files) := by
  induction files with
  | nil => exact pure _
  | cons file files ih =>
      rcases file with - | file
      · exact typeError
      · exact bind readPeerId fun _ => ih

theorem postSharedFile (files : Option (List (Option FileDto))) :
    Assigned (postSharedFile files) := by
  rcases files with - | files
  · exact typeError
  · exact postFiles files

theorem setPeers (peers : List (Option PeerDto)) : Assigned (setPeers peers) := by
  induction peers with
  | nil => exact pure _
  | cons peer peers ih =>
      rcases peer with - | peer
      · exact typeError
      · exact bind (modify fun _ h => h) fun _ => ih

/-- `welcome` without its first assignment. -/
theorem showPeers (peers : Option (List (Option PeerDto))) :
    Assigned (do
      match peers with
      | none => throw .typeError
      | some peers => Participants.setPeers peers
      Participants.updateParticipants) := by
  rcases peers with - | peers
  · exact bind typeError fun _ => updateParticipants
  · exact bind (setPeers peers) fun _ => updateParticipants

theorem welcome (peerId : Option Int) (peerName : Option String)
    (peers : Option (List (Option PeerDto))) : Assigned (welcome peerId peerName peers) :=
  bind (modify fun _ _ => rfl) fun _ => showPeers peers

mutual

theorem onMessage : ∀ message, Assigned (onMessage message)
  | ⟨peerId, peerName, code, _, _, peers, history, files⟩ => by
      unfold Participants.onMessage
      split
      · exact bind (welcome _ _ _) fun _ => replay history (peerJoined _ _)
      · exact peerJoined _ _
      · exact peerLeft _
      · exact bind readPeerId fun _ => pure _
      · exact postSharedFile _
      · exact pure _

theorem replay : ∀ (history : Option (List (Option (Object MessageDto)))) {otherwise : Script Unit},
    Assigned otherwise → Assigned (replay history otherwise)
  | none, _, h => h
  | some [], _, h => h
  | some (entry :: entries), _, _ => bind (replayEntry entry) fun _ => replayEntries entries

theorem replayEntries : ∀ entries, Assigned (replayEntries entries)
  | [] => pure _
  | entry :: entries => bind (replayEntry entry) fun _ => replayEntries entries

theorem replayEntry : ∀ entry, Assigned (replayEntry entry)
  | none => typeError
  | some object => replayObject object

theorem replayObject : ∀ object, Assigned (replayObject object)
  | ⟨_, message⟩ => onMessage message

end

end Assigned

/-- `CODE_INFO` assigns `peerId` before anything reads it. -/
theorem info_assigned {message : MessageDto} (hcode : message.code = some .codeInfo)
    (page : Participants) : ((onMessage message).exec page).2.peerId.isSome ∧
      ((onMessage message).exec page).1 ≠ .error .referenceError := by
  obtain ⟨peerId, peerName, code, text, timestamp, peers, history, files⟩ := message
  obtain rfl : code = some .codeInfo := hcode
  have hassigned : Assigned (welcome peerId peerName peers >>= fun _ =>
      replay history (peerJoined peerId peerName)) :=
    (Assigned.welcome _ _ _).bind fun _ => .replay history (.peerJoined _ _)
  -- the first assignment overwrites whatever was there
  have hexec : (onMessage ⟨peerId, peerName, some .codeInfo, text, timestamp, peers, history,
      files⟩).exec page = (welcome peerId peerName peers >>= fun _ =>
        replay history (peerJoined peerId peerName)).exec { page with peerId := some peerId } := rfl
  rw [hexec]
  exact hassigned _ rfl

theorem handle_assigned (occurrence : Occurrence) : Assigned (handle occurrence) := by
  cases occurrence with
  | onmessage message => exact .onMessage message
  | transitionend i => exact .modify fun _ h => h

theorem afterAll_concat (occurrences : List Occurrence) (occurrence : Occurrence)
    (page : Participants) : afterAll (occurrences ++ [occurrence]) page =
      ((handle occurrence).exec (afterAll occurrences page)).2 := by
  simp [afterAll]

/-- Once the first message was `CODE_INFO`, `peerId` has been assigned. -/
theorem afterAll_assigned {first : MessageDto} (hcode : first.code = some .codeInfo)
    {occurrences : List Occurrence} {rest : List MessageDto}
    (h : received occurrences = first :: rest) (page : Participants) :
    (afterAll occurrences page).peerId.isSome := by
  induction occurrences using List.reverseRecOn generalizing rest with
  | nil => cases h
  | append_singleton occurrences occurrence ih =>
      rw [afterAll_concat]
      rcases hreceived : received occurrences with - | ⟨message, messages⟩
      · -- the first message is handled just now
        have hlast : received [occurrence] = first :: rest := by
          rw [← h, received, received, List.filterMap_append]
          show _ = received occurrences ++ _
          rw [hreceived]
          rfl
        cases occurrence with
        | onmessage message =>
            obtain rfl : message = first := (List.cons.inj hlast).1
            exact (info_assigned hcode _).1
        | transitionend i => cases hlast
      · have hfirst : message = first := by
          have h : received occurrences ++ received [occurrence] = first :: rest := by
            rw [← h, received, received, received, List.filterMap_append]
          rw [hreceived] at h
          exact (List.cons.inj h).1
        rw [hfirst] at hreceived
        exact (handle_assigned occurrence _ (ih hreceived)).1

/-- The codes of the messages whose handling reads `peerId`. -/
def readers : List MessageCodes :=
  [.codePeerJoined, .codePeerLeft, .codePeerIsTyping, .codePeerMessageFile]

/-- A page whose first message is `CODE_INFO` handles every message with
`peerId` assigned. -/
theorem handled_assigned {messages : List MessageDto}
    (hfirst : ∀ first rest, messages = first :: rest → first.code = some .codeInfo)
    {occurrences : List Occurrence} {message : MessageDto}
    (h : received occurrences ++ [message] <+: messages) (page : Participants) :
    ((∃ code ∈ readers, message.code = some code) → (afterAll occurrences page).peerId.isSome) ∧
      ((onMessage message).exec (afterAll occurrences page)).1 ≠ .error .referenceError := by
  obtain ⟨later, rfl⟩ := h
  rcases hreceived : received occurrences with - | ⟨first, rest⟩ <;> rw [hreceived] at hfirst
  · have hcode := hfirst message later rfl
    refine ⟨fun ⟨code, hmem, heq⟩ => ?_, (info_assigned hcode _).2⟩
    rw [hcode] at heq
    obtain rfl := Option.some.inj heq
    simp [readers] at hmem
  · have hassigned := afterAll_assigned (hfirst first _ rfl) hreceived page
    exact ⟨fun _ => hassigned, (Assigned.onMessage message _ hassigned).2⟩

end Participants

/-! ### The room -/

namespace Chat

open EventLog

/-- The messages that `p` has been sent, oldest first. -/
def sentTo (p : PeerRef) (log : List Event) : List (Object MessageDto) :=
  (log.filterMap fun
    | .sent q message => if q = p then some message else none
    | _ => none).reverse

def Informed (p : PeerRef) (log : List Event) : Prop :=
  ∃ info, .sent p info ∈ log ∧ info.val.code = some .codeInfo

/-- Nothing is broadcast to a room while a newcomer waits for its `CODE_INFO`. -/
def Informs (v : Scene) (k : SocketRef) : Prop :=
  ∀ purpose p message, (v.sockets k).stage = .broadcast purpose p message →
    ∀ j q, (v.sockets j).stage.phase = some (.onboarding, q) →
      v.directory.peerRoom q ≠ v.directory.peerRoom p

/-- `Informs`, looking at the log. -/
def informs (v : Scene) (k : SocketRef) : Bool :=
  match (v.sockets k).stage with
  | .broadcast _ p _ => (List.range v.directory.peerCount).all fun q =>
      v.directory.peerRoom q != v.directory.peerRoom p ||
        (v.log.all fun e => match e with
          | .added _ q' => q' != q
          | _ => true) ||
        v.log.any fun e => match e with
          | .sent q' message => q' == q && message.val.code == some .codeInfo
          | _ => false
  | _ => true

/-- Whoever was added waits for its `CODE_INFO`, or has been sent it. -/
def Greeted (v : View) : Prop :=
  ∀ ρ q, .added ρ q ∈ v.log →
    (∃ k, (v.sockets k).stage.phase = some (.onboarding, q)) ∨ Informed q v.log

/-- The first message is a `CODE_INFO`. -/
def InfoFirst : Event → List Event → Prop
  | .sent p message, past => message.val.code = some .codeInfo ∨ Informed p past
  | _, _ => True

theorem Informed.mono {p : PeerRef} {log log' : List Event} (h : Informed p log)
    (hlog : log ⊆ log') : Informed p log' := by
  obtain ⟨info, hmem, hcode⟩ := h
  exact ⟨info, hlog hmem, hcode⟩

theorem mem_sentTo {p : PeerRef} {message : Object MessageDto} {log : List Event} :
    message ∈ sentTo p log ↔ .sent p message ∈ log := by
  rw [sentTo, List.mem_reverse, List.mem_filterMap]
  constructor
  · rintro ⟨event, hmem, heq⟩
    cases event with
    | sent q message' =>
        dsimp only at heq
        split at heq
        · next hq =>
          obtain rfl := Option.some.inj heq
          rwa [← hq]
        · cases heq
    | _ => cases heq
  · exact fun hmem => ⟨_, hmem, by simp⟩

theorem sentTo_append (p : PeerRef) (events log : List Event) :
    sentTo p (events ++ log) = sentTo p log ++ sentTo p events := by
  rw [sentTo, List.filterMap_append, List.reverse_append]
  rfl

theorem sentTo_singleton (p q : PeerRef) (message : Object MessageDto) :
    sentTo p [.sent q message] = if p = q then [message] else [] := by
  rcases eq_or_ne p q with rfl | hne
  · simp [sentTo]
  · simp [sentTo, hne, hne.symm]

/-- What a broadcast sends to one peer. -/
theorem sentTo_broadcast {ρ : RoomRef} {message : Object MessageDto} {qs : List PeerRef}
    (hnodup : qs.Nodup) (p : PeerRef) :
    sentTo p (.broadcast ρ message :: qs.map fun q => .sent q message) =
      if p ∈ qs then [message] else [] := by
  have hsent : ∀ qs : List PeerRef, sentTo p (qs.map fun q => .sent q message) =
      List.replicate (qs.count p) message := by
    intro qs
    induction qs with
    | nil => rfl
    | cons q qs ih =>
        have hcons : sentTo p (.sent q message :: qs.map fun q => .sent q message) =
            sentTo p (qs.map fun q => .sent q message) ++ sentTo p [.sent q message] :=
          sentTo_append p [.sent q message] _
        rw [List.map_cons, hcons, ih, sentTo_singleton, List.count_cons]
        rcases eq_or_ne p q with rfl | hne
        · simp [List.replicate_succ']
        · simp [hne, hne.symm]
  have hcons : sentTo p (.broadcast ρ message :: qs.map fun q => .sent q message) =
      sentTo p (qs.map fun q => .sent q message) ++ sentTo p [.broadcast ρ message] :=
    sentTo_append p [.broadcast ρ message] _
  rw [hcons, hsent]
  split
  · next hmem => simp [List.count_eq_one_of_mem hnodup hmem, sentTo]
  · next hmem => simp [List.count_eq_zero_of_not_mem hmem, sentTo]

/-- What is first in the order of sending is justified by an empty past. -/
theorem first_info {log : List Event} (h : Justified InfoFirst log) {p : PeerRef}
    {message : Object MessageDto} {rest : List (Object MessageDto)}
    (hsent : sentTo p log = message :: rest) : message.val.code = some .codeInfo := by
  induction log generalizing rest with
  | nil => cases hsent
  | cons event log ih =>
      have hlog : Justified InfoFirst log := h.of_past List.suffix_rfl
      rw [show sentTo p (event :: log) = sentTo p log ++ sentTo p [event] from
        sentTo_append p [event] log] at hsent
      rcases hold : sentTo p log with - | ⟨message', rest'⟩
      · rw [hold, List.nil_append] at hsent
        have hmem : .sent p message ∈ [event] := mem_sentTo.mp (hsent ▸ List.mem_cons_self)
        obtain rfl := List.mem_singleton.mp hmem
        refine (h _ log List.suffix_rfl : InfoFirst _ _).resolve_right ?_
        rintro ⟨info, hinfo, -⟩
        have hnil := mem_sentTo.mpr hinfo
        rw [hold] at hnil
        cases hnil
      · rw [hold] at hsent
        obtain rfl := (List.cons.inj hsent).1
        exact ih hlog hold

namespace Greeted

variable {v v' : View} {k : SocketRef} {p : PeerRef}

/-- A handler has moved on. -/
theorem advance (h : Greeted v) {c : Connection} {events : List Event}
    (hsockets : v'.sockets = Function.update v.sockets k c) (hlog : v'.log = events ++ v.log)
    (hadded : ∀ ρ q, .added ρ q ∈ events → c.stage.phase = some (.onboarding, q))
    (hphase : ∀ q, (v.sockets k).stage.phase = some (.onboarding, q) →
      c.stage.phase = some (.onboarding, q) ∨ Informed q v'.log) : Greeted v' := by
  have hself : v'.sockets k = c := by rw [hsockets, Function.update_self]
  have hold : v.log ⊆ v'.log := hlog ▸ List.subset_append_right _ _
  intro ρ q hq
  rw [hlog] at hq
  rcases List.mem_append.mp hq with hq | hq
  · exact .inl ⟨k, by rw [hself, hadded ρ q hq]⟩
  · rcases h ρ q hq with ⟨j, hj⟩ | hinformed
    · rcases eq_or_ne j k with rfl | hne
      · refine (hphase q hj).imp_left fun hc => ⟨j, ?_⟩
        rw [hself, hc]
      · refine .inl ⟨j, ?_⟩
        rw [hsockets, Function.update_of_ne hne]
        exact hj
    · exact .inr (hinformed.mono hold)

/-- Nobody was waiting on this socket, and nobody is. -/
theorem quiet (h : Greeted v) {c : Connection} {events : List Event}
    (hsockets : v'.sockets = Function.update v.sockets k c) (hlog : v'.log = events ++ v.log)
    (hadded : ∀ ρ q, .added ρ q ∉ events)
    (hphase : ∀ q, (v.sockets k).stage.phase ≠ some (.onboarding, q)) : Greeted v' :=
  h.advance hsockets hlog (fun ρ q hq => absurd hq (hadded ρ q)) fun q hq => absurd hq (hphase q)

theorem calls {config : ConfigDto} {v v' : Scene} {a : Act} (h : Greeted v.toView)
    (hinfo : ∀ k p info, (v.sockets k).stage = .sendInfo p info → info.val.code = some .codeInfo)
    (hcalls : Calls config v a v') : Greeted v'.toView := by
  cases hcalls with
  | connect hk => exact h.quiet rfl (List.nil_append _).symm (by simp) (by simp [hk, Stage.phase])
  | @record k purpose p dto hk =>
      refine h.quiet rfl rfl (by simp) fun q hq => ?_
      rw [hk] at hq
      cases purpose <;> cases hq
  | @broadcast k purpose p message qs hk =>
      refine h.quiet rfl rfl (by simp) fun q hq => ?_
      rw [hk] at hq
      cases purpose <;> cases hq
  -- the peer is added and not yet greeted: it is at `.onboardPeer`
  | addPeer hk =>
      refine h.advance rfl rfl ?_ (by simp [hk, Stage.phase])
      intro ρ q hq
      obtain ⟨-, rfl⟩ := Event.added.inj (List.mem_singleton.mp hq)
      rfl
  | onboardPeer hk =>
      refine h.advance rfl rfl (by simp) fun q hq => .inl ?_
      rw [hk] at hq
      exact hq
  | getHistory hk =>
      refine h.advance rfl rfl (by simp) fun q hq => .inl ?_
      rw [hk] at hq
      exact hq
  -- CODE_INFO goes out, the peer is greeted from now on
  | @sendInfo k p info hk =>
      refine h.advance rfl rfl (by simp) fun q hq => .inr ?_
      rw [hk] at hq
      obtain rfl : p = q := by simpa [Stage.phase] using hq
      exact ⟨info, by simp, hinfo k p info hk⟩
  -- the connection that closes was not onboarding a peer
  | close _ hk =>
      refine h.quiet rfl rfl (by simp) fun q hq => ?_
      rw [hk] at hq
      cases hq
  | other _ => exact h
  | removePeerById hk => exact h.quiet rfl rfl (by simp) (by simp [hk, Stage.phase])
  | answer _ hk => exact h.quiet rfl rfl (by simp) (by simp [hk, Stage.phase])
  | enter hk | createRoom hk | createPeer hk | post hk | typing hk | share hk | shareFile hk
  | shared hk | invalidateSocket hk | isEmpty hk | deleteRoom hk =>
      exact h.quiet rfl rfl (by simp) (by simp [hk, Stage.phase])

/-- Whoever has its place in the room was sent its `CODE_INFO`. -/
theorem informed (h : Greeted v) (hsound : Sound v) {φ : Phase}
    (hk : (v.sockets k).stage.phase = some (φ, p)) (hφ : φ.isMember = true)
    (hinformed : φ.isUninformed = false) : Informed p v.log := by
  have hadded := (hsound.phase k φ p hk).2.2.2 hφ
  refine (h _ p hadded).resolve_left ?_
  rintro ⟨j, hj⟩
  obtain rfl := hsound.peer_inj j k _ _ p hj hk
  rw [hj] at hk
  obtain ⟨rfl, -⟩ := Prod.mk.inj (Option.some.inj hk)
  cases hinformed

end Greeted

end Chat

namespace Traffic

open Chat EventLog

variable {fw : Framework} {config : ConfigDto} {s s' : State}

theorem greeted (hs : (system fw config).Reachable s) : Greeted s.chat.view := by
  refine scene_invariant_all (I := fun v => Greeted v.toView) (fun clock => ?_)
    (fun s b v hs h hb => ?_) (fun s σ subscriber dto _ h _ _ => ?_) hs
  · exact fun ρ q hq => nomatch hq
  · exact h.calls (fun k p info hk => ((accounted hs).informed k p info hk).1) hb
  · intro ρ q hq
    have hq : .added ρ q ∈ s.chat.scene.log := by simpa [request] using hq
    exact (h ρ q hq).imp_right fun hinformed => hinformed.mono (List.subset_cons_self _ _)

/-- Who has shared a file was sent its `CODE_INFO` before. -/
theorem sharer_informed (hs : (system fw config).Reachable s) {f : FileRef} {p : PeerRef}
    (hf : (f, p) ∈ s.shared) : Informed p s.chat.log := by
  refine Transition.System.ReachableVia.invariant
    (I := fun s => ∀ f p, (f, p) ∈ s.shared → Informed p s.chat.log) ?_ ?_ hs f p hf
  · rintro _ ⟨clock, rfl⟩ f p hf
    cases hf
  · intro s a t hreach h _ hstep f p hf
    have hlog : s.chat.log ⊆ t.chat.log := (step_grows hstep).log.subset
    cases step_supplies hstep with
    | quiet _ hshared => exact (h f p (hshared ▸ hf)).mono hlog
    | subscribe _ _ hshared => exact (h f p (hshared ▸ hf)).mono hlog
    | provide _ _ _ _ _ hshared => exact (h f p (hshared ▸ hf)).mono hlog
    | @shareFile k q _ _ _ _ _ _ _ _ _ hstage _ _ hshared =>
        rw [hshared] at hf
        rcases List.mem_cons.mp hf with heq | hf
        · obtain ⟨rfl, rfl⟩ := Prod.mk.inj heq
          have hphase : (s.chat.view.sockets k).stage.phase = some (.staying, p) := by
            show (s.chat.sockets k).stage.phase = _
            rw [hstage]
            rfl
          exact ((greeted hreach).informed (sound hreach) hphase rfl rfl).mono hlog
        · exact (h f p hf).mono hlog

/-- The host that a read asks was sent its `CODE_INFO` before. -/
theorem host_informed (hs : (system fw config).Reachable s) {σ : SubscriberRef} {sub : Subscriber}
    (hsub : s.server.subscribers σ = some sub) :
    Informed (s.server.files sub.file).host s.chat.log := by
  have hlt := ((fed hs).stored.allocated σ sub hsub).2
  exact sharer_informed hs (((fed hs).shared sub.file _).mpr ⟨hlt, rfl⟩)

/-- The members of a room are informed, where nobody waits. -/
theorem member_informed (hs : (system fw config).Reachable s) {ρ : RoomRef} {id : Int} {q : PeerRef}
    (hq : s.chat.scene.directory.member ρ id = some q)
    (hnone : ∀ j q, (s.chat.scene.sockets j).stage.phase = some (.onboarding, q) →
      s.chat.scene.directory.peerRoom q ≠ ρ) : Informed q s.chat.log := by
  have hadded := ((exact hs).member ρ id q hq).2.1
  refine (greeted hs ρ q hadded).resolve_left ?_
  rintro ⟨j, hj⟩
  exact hnone j q hj ((sound hs).added ρ q hadded).2.1

/-- A run that broadcasts to nobody who waits sends every newcomer its
`CODE_INFO` first. -/
theorem infoFirst (hs : (system fw config).ReachableVia (Via Informs) s) :
    Justified InfoFirst s.chat.log := by
  refine scene_invariant (I := fun v => Justified InfoFirst v.log) (fun clock => justified_nil)
    (fun s b v hs h hvia hb => ?_) (fun s σ subscriber dto hs h hsub _ => ?_) hs
  · obtain ⟨events, hlog, hsends⟩ := hb.sends
    rw [hlog]
    cases hsends with
    | nothing hnone =>
        refine h.append fun e he past => ?_
        cases e with
        | sent q m => exact absurd he (hnone q m)
        | _ => trivial
    | @broadcast k purpose p m qs hk hqs =>
        have hinformed : ∀ q ∈ qs, Informed q s.chat.scene.log := by
          intro q hq
          obtain ⟨id, hmember⟩ := (hqs q).mp hq
          exact member_informed hs hmember (hvia k rfl purpose p m hk)
        have hsends : ∀ qs : List PeerRef, (∀ q ∈ qs, Informed q s.chat.scene.log) →
            Justified InfoFirst ((qs.map fun q => .sent q m) ++ s.chat.scene.log) := by
          intro qs hqs
          induction qs with
          | nil => exact h
          | cons q qs ih =>
              obtain ⟨hq, hqs⟩ := List.forall_mem_cons.mp hqs
              exact (ih hqs).cons (.inr (hq.mono (List.subset_append_right _ _)))
        exact (hsends qs hinformed).cons trivial
    | @info k p info hk =>
        have hsent : Justified InfoFirst (.sent p info :: s.chat.scene.log) :=
          h.cons (.inl ((accounted hs).informed k p info hk).1)
        exact hsent.cons trivial
  · exact h.cons (.inr (host_informed hs hsub))

/-- Who waits for its `CODE_INFO` has been sent nothing. -/
theorem sentTo_onboarding (hs : (system fw config).ReachableVia (Via Informs) s) {k : SocketRef}
    {q : PeerRef} (hk : (s.chat.scene.sockets k).stage.phase = some (.onboarding, q)) :
    sentTo q s.chat.log = [] := by
  rcases hsent : sentTo q s.chat.log with - | ⟨m, rest⟩
  · rfl
  · have hmem : .sent q m ∈ s.chat.log := mem_sentTo.mp (hsent ▸ List.mem_cons_self)
    exact absurd (first_info (infoFirst hs) hsent)
      ((distinct hs.reachable).uninformed k _ q hk rfl m hmem)

/-- A broadcast goes to the members of the room. -/
theorem run_broadcast {k : SocketRef} {purpose : Purpose} {p : PeerRef}
    {message : Object MessageDto} (hs : s.step fw config (.chat (.run k)) = some s')
    (hk : (s.chat.sockets k).stage = .broadcast purpose p message) :
    s'.chat.log = (.broadcast (s.server.peers p).room message ::
      (Room.members (s.server.peers p).room s.server).map fun q => .sent q message) ++
        s.chat.log := by
  simp only [State.step, State.run, Chat.State.run, hk] at hs
  obtain rfl := Option.some.inj hs
  rfl

/-- **`CODE_INFO` comes first** in every run that broadcasts to nobody who
waits for its `CODE_INFO`: the first message that a peer is sent is its own
`CODE_INFO`, and its page, which gets the messages in the order of sending,
never reads `peerId` before it has been assigned.  And in such a run the next
call of a handler keeps this exactly if it meets the condition. -/
theorem info_first (hs : (system fw config).ReachableVia (Via Informs) s) :
    (∀ p,
      (∀ message rest, sentTo p s.chat.log = message :: rest →
        message.val.code = some .codeInfo ∧
          message.val.peerId = some (s.server.catalogue.peerId p)) ∧
      ∀ occurrences message,
        Participants.received occurrences ++ [message] <+: (sentTo p s.chat.log).map Object.val →
          ((∃ code ∈ Participants.readers, message.code = some code) →
            (Participants.afterAll occurrences {}).peerId.isSome) ∧
          ((Participants.onMessage message).exec (Participants.afterAll occurrences {})).1 ≠
            .error .referenceError) ∧
    ∀ k s', s.step fw config (.chat (.run k)) = some s' → (Informs s.chat.scene k ↔
      ∀ p message rest, sentTo p s'.chat.log = message :: rest →
        message.val.code = some .codeInfo) := by
  refine ⟨fun p => ⟨fun message rest hsent => ?_, fun occurrences message hprefix => ?_⟩,
    fun k s' hstep => ⟨fun hinforms p message rest hsent => ?_, fun hfirst => ?_⟩⟩
  · have hcode := first_info (infoFirst hs) hsent
    have hmem : .sent p message ∈ s.chat.log := mem_sentTo.mp (hsent ▸ List.mem_cons_self)
    exact ⟨hcode, ((traced hs.reachable).event _ hmem hcode).2.1⟩
  · refine Participants.handled_assigned (fun first rest hsent => ?_) hprefix {}
    rcases hsent' : sentTo p s.chat.log with - | ⟨object, objects⟩ <;> rw [hsent'] at hsent
    · cases hsent
    · obtain rfl := (List.cons.inj hsent).1
      exact first_info (infoFirst hs) hsent'
  · have hvia : Via Informs s (.chat (.run k)) := by
      intro j hj
      cases hj
      exact hinforms
    have hs' : (system fw config).ReachableVia (Via Informs) s' := .step hs hvia hstep
    exact first_info (infoFirst hs') hsent
  · -- a newcomer that waits would be sent what is broadcast
    intro purpose p message hk j q hj hroom
    have hempty := sentTo_onboarding hs hj
    have hmember := (sound hs.reachable).member hj rfl
    have hq : q ∈ Room.members (s.server.peers p).room s.server :=
      UnorderedMap.mem_values.mpr ⟨_, hroom ▸ hmember⟩
    let events : List Event := .broadcast (s.server.peers p).room message ::
      (Room.members (s.server.peers p).room s.server).map fun q => .sent q message
    have hsentTo : sentTo q s'.chat.log = sentTo q events := by
      rw [run_broadcast hstep hk, sentTo_append, hempty, List.nil_append]
    rcases hnew : sentTo q events with - | ⟨m, rest⟩
    · have hnil : message ∈ sentTo q events := mem_sentTo.mpr (by simp [events, hq])
      rw [hnew] at hnil
      cases hnil
    · have hm : .sent q m ∈ events := mem_sentTo.mp (hnew ▸ List.mem_cons_self)
      obtain rfl : message = m := by simpa [events, hq, eq_comm] using hm
      exact broadcast_code hs.reachable k purpose p message hk
        (hfirst q message rest (hsentTo.trans hnew))

theorem informs_sound (hs : (system fw config).Reachable s) (k : SocketRef)
    (h : informs s.chat.scene k = true) : Informs s.chat.scene k := by
  intro purpose p message hk j q hj hroom
  obtain ⟨hlt, -, -, hadded⟩ := (sound hs).phase j _ q hj
  unfold informs at h
  rw [hk] at h
  have hq := List.all_eq_true.mp h q (List.mem_range.mpr hlt)
  simp only [hroom, bne_self_eq_false, Bool.false_or, Bool.or_eq_true, List.all_eq_true,
    List.any_eq_true] at hq
  rcases hq with hnone | ⟨event, hevent, hinfo⟩
  · simpa using hnone _ (hadded rfl)
  · cases event with
    | sent q' info =>
        obtain ⟨rfl, hcode⟩ : q' = q ∧ info.val.code = some .codeInfo := by simpa using hinfo
        exact (distinct hs).uninformed j _ q' hj rfl info hevent hcode
    | _ => cases hinfo

/-- Bob joins Ann, who types; of Bob's calls the last ones are made after hers. -/
def typeAndJoin (before after : ℕ) : List Act :=
  .chat (.connect 0 "lounge" "Ann") :: List.replicate 8 (.chat (.run 0)) ++
    [.chat (.receive 0 { code := some .codePeerIsTyping })] ++
    .chat (.connect 1 "lounge" "Bob") :: List.replicate before (.chat (.run 1)) ++
    .chat (.run 0) :: List.replicate after (.chat (.run 1))

/-- The codes of what Bob is sent. -/
def codesSent (before after : ℕ) : Option (List (Option MessageCodes)) :=
  ((system Chat.silent {}).run {} (typeAndJoin before after)).map fun s =>
    (sentTo 1 s.chat.log).map fun message => message.val.code

/-- Bob has his `CODE_INFO` when he hears that Ann is typing. -/
theorem info_first_typeAndJoin : ∃ (s : State) (info typing : Object MessageDto),
    (system Chat.silent {}).run {} (typeAndJoin 8 0) = some s ∧
      sentTo 1 s.chat.log = [info, typing] ∧ info.val.code = some .codeInfo ∧
        typing.val.code = some .codePeerIsTyping ∧
          ((Participants.onMessage typing.val).exec
            (Participants.afterAll [.onmessage info.val] {})).1 ≠ .error .referenceError := by
  have hcodes : codesSent 8 0 = some [some .codeInfo, some .codePeerIsTyping] := by decide
  obtain ⟨s, hrun, hcodes⟩ := Option.map_eq_some_iff.mp hcodes
  obtain ⟨info, messages, hsent, -, hmessages⟩ := List.map_eq_cons_iff.mp hcodes
  obtain ⟨typing, messages, rfl, hcode, hnil⟩ := List.map_eq_cons_iff.mp hmessages
  obtain rfl := List.map_eq_nil_iff.mp hnil
  have hvia : (system Chat.silent {}).ReachableVia (Via Informs) s :=
    via_of_checked (fun _ k hs => informs_sound hs k) (.run (.init ⟨_, rfl⟩) (by decide) hrun)
  obtain ⟨hfirst, hpage⟩ := (info_first hvia).1 1
  refine ⟨s, info, typing, hrun, hsent, (hfirst info _ hsent).1, hcode, (hpage _ _ ?_).2⟩
  rw [hsent]
  exact List.prefix_rfl

/-- Bob is a member and waits for his `CODE_INFO` when Ann's notice is
broadcast: it comes first, and his page misses `peerId`. -/
theorem notice_first : ∃ (s : State) (notice : Object MessageDto) (rest : List (Object MessageDto)),
    (system Chat.silent {}).run {} (typeAndJoin 5 3) = some s ∧
      sentTo 1 s.chat.log = notice :: rest ∧ notice.val.code = some .codePeerIsTyping ∧
        (Participants.afterAll [] {}).peerId = none ∧
          ((Participants.onMessage notice.val).exec (Participants.afterAll [] {})).1 =
            .error .referenceError := by
  have hcodes : codesSent 5 3 = some [some .codePeerIsTyping, some .codeInfo] := by decide
  obtain ⟨s, hrun, hcodes⟩ := Option.map_eq_some_iff.mp hcodes
  obtain ⟨⟨ptr, notice⟩, rest, hsent, hcode, -⟩ := List.map_eq_cons_iff.mp hcodes
  refine ⟨s, ⟨ptr, notice⟩, rest, hrun, hsent, hcode, rfl, ?_⟩
  obtain ⟨peerId, peerName, code, text, timestamp, peers, history, files⟩ := notice
  obtain rfl : code = some .codePeerIsTyping := hcode
  rfl

end Traffic

end CanChat
