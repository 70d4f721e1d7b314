/-
CanChat/TypingPanel.lean

Who is typing, on the chat page (front/chat/chat.js).

An element of `chat_whos_typing` stands for the last time that the page heard of
somebody who types: it is there until that peer says something, comes or goes, or
until five seconds have passed and its transition has ended.

Design.  The panel is read off the events by one fold for each peer (`typingSince`),
and `Typing` says that the elements that are not on their way out are what the
folds lead to.  Those that are on their way out are still known to have been
begun by a notice that nothing has quieted since.
-/
import CanChat.ChatPanel

namespace CanChat

namespace ChatPage

/-! ### The elements -/

section Elements

variable {whosTyping : List TypingElement} {peerId : Option Int} {e : TypingElement}

/-- Nobody has two elements. -/
def Distinct (whosTyping : List TypingElement) : Prop :=
  (whosTyping.map TypingElement.peerId).Nodup

theorem Distinct.of_sublist {fewer : List TypingElement} (h : Distinct whosTyping)
    (hfewer : fewer.Sublist whosTyping) : Distinct fewer :=
  h.sublist (hfewer.map _)

theorem not_mem_of_distinct_cons (h : Distinct (e :: whosTyping)) :
    ∀ other ∈ whosTyping, other.peerId ≠ e.peerId := by
  obtain ⟨hnot, -⟩ := List.nodup_cons.mp h
  exact fun other hother heq => hnot (heq ▸ List.mem_map_of_mem hother)

theorem removeTypingPeerNow_eq_filter (h : Distinct whosTyping) :
    removeTypingPeerNow peerId whosTyping = whosTyping.filter fun e => e.peerId != peerId := by
  unfold removeTypingPeerNow
  induction whosTyping with
  | nil => rfl
  | cons first others ih =>
      rw [List.eraseP_cons, List.filter_cons]
      by_cases hfirst : first.peerId = peerId
      · -- nobody else has this id
        have hothers : others.filter (fun e => e.peerId != peerId) = others := by
          refine List.filter_eq_self.mpr fun other hother => ?_
          have hne := not_mem_of_distinct_cons h other hother
          rw [hfirst] at hne
          simpa using hne
        simp [hfirst, hothers]
      · have hne : (first.peerId == peerId) = false := beq_eq_false_iff_ne.mpr hfirst
        rw [ih (List.nodup_cons.mp h).2, hne]
        simp [hfirst]

theorem mem_removeTypingPeerNow (h : Distinct whosTyping) :
    e ∈ removeTypingPeerNow peerId whosTyping ↔ e ∈ whosTyping ∧ e.peerId ≠ peerId := by
  rw [removeTypingPeerNow_eq_filter h, List.mem_filter]
  simp

theorem touch_eq_map {now : Int} (h : Distinct whosTyping) : touch peerId now whosTyping =
    whosTyping.map fun e => if e.peerId = peerId then { e with timestamp := now } else e := by
  induction whosTyping with
  | nil => rfl
  | cons first others ih =>
      rw [touch, List.map_cons]
      by_cases hfirst : first.peerId = peerId
      · have hothers : others.map (fun e =>
            if e.peerId = peerId then { e with timestamp := now } else e) = others := by
          refine List.map_congr_left (fun other hother => ?_) |>.trans (List.map_id others)
          have hne := not_mem_of_distinct_cons h other hother
          rw [hfirst] at hne
          exact if_neg hne
        rw [if_pos hfirst, if_pos hfirst, hothers]
      · rw [if_neg hfirst, if_neg hfirst, ih (List.nodup_cons.mp h).2]

theorem map_peerId_touch (peerId : Option Int) (now : Int) (whosTyping : List TypingElement) :
    (touch peerId now whosTyping).map TypingElement.peerId =
      whosTyping.map TypingElement.peerId := by
  induction whosTyping with
  | nil => rfl
  | cons first others ih =>
      rw [touch]
      split
      · rfl
      · rw [List.map_cons, List.map_cons, ih]

/-- The panel after a notice that `peerId` is typing. -/
def typed (now : Int) (peerId : Option Int) (peerName : Option String)
    (whosTyping : List TypingElement) : List TypingElement :=
  match whosTyping.find? fun typingPeerElem => typingPeerElem.peerId == peerId with
  | none => whosTyping ++ [{ peerId, peerName, timestamp := now }]
  | some typingPeerElem =>
      if typingPeerElem.removed then
        removeTypingPeerNow peerId whosTyping ++ [{ peerId, peerName, timestamp := now }]
      else touch peerId now whosTyping

/-- The element of a peer of whom there is a notice: a new one, or the one that was
there with the time of the notice. -/
structure Fresh (now : Int) (peerId : Option Int) (peerName : Option String)
    (whosTyping : List TypingElement) (fresh : TypingElement) : Prop where
  id : fresh.peerId = peerId
  timestamp : fresh.timestamp = now
  stays : fresh.removed = false
  name : fresh.peerName = peerName ∨
    ∃ e ∈ whosTyping, e.peerId = peerId ∧ fresh.peerName = e.peerName

theorem distinct_concat (h : Distinct whosTyping) (hnew : ∀ other ∈ whosTyping,
    other.peerId ≠ e.peerId) : Distinct (whosTyping ++ [e]) := by
  unfold Distinct
  rw [List.map_append, List.map_singleton]
  refine List.nodup_append.mpr ⟨h, List.nodup_singleton _, fun id hid id' hid' => ?_⟩
  obtain ⟨other, hother, rfl⟩ := List.mem_map.mp hid
  obtain rfl := List.mem_singleton.mp hid'
  exact hnew other hother

theorem typed_spec (h : Distinct whosTyping) (now : Int) (peerId : Option Int)
    (peerName : Option String) : Distinct (typed now peerId peerName whosTyping) ∧
      ∃ fresh, Fresh now peerId peerName whosTyping fresh ∧
        ∀ e, e ∈ typed now peerId peerName whosTyping ↔
          (e ∈ whosTyping ∧ e.peerId ≠ peerId) ∨ e = fresh := by
  let new : TypingElement := { peerId, peerName, timestamp := now }
  unfold typed
  split
  · next hfind =>
    -- there is none yet
    have hnone : ∀ other ∈ whosTyping, other.peerId ≠ peerId := by
      intro other hother
      simpa using List.find?_eq_none.mp hfind other hother
    refine ⟨distinct_concat h hnone, new, ⟨rfl, rfl, rfl, .inl rfl⟩, fun e => ?_⟩
    rw [List.mem_append, List.mem_singleton]
    exact or_congr ⟨fun he => ⟨he, hnone e he⟩, And.left⟩ Iff.rfl
  · next old hfind =>
    have hid : old.peerId = peerId := by simpa using List.find?_some hfind
    have hold : old ∈ whosTyping := List.mem_of_find?_eq_some hfind
    split
    · -- the one that is there is on its way out
      refine ⟨distinct_concat (h.of_sublist List.eraseP_sublist) fun other hother => ?_, new,
        ⟨rfl, rfl, rfl, .inl rfl⟩, fun e => ?_⟩
      · exact ((mem_removeTypingPeerNow h).mp hother).2
      · rw [List.mem_append, List.mem_singleton, mem_removeTypingPeerNow h]
    · next hremoved =>
      have hremoved : old.removed = false := Bool.eq_false_iff.mpr hremoved
      refine ⟨?_, { old with timestamp := now },
        ⟨hid, rfl, hremoved, .inr ⟨old, hold, hid, rfl⟩⟩, fun e => ?_⟩
      · unfold Distinct
        rw [map_peerId_touch]
        exact h
      · rw [touch_eq_map h, List.mem_map]
        constructor
        · rintro ⟨other, hother, rfl⟩
          by_cases hother' : other.peerId = peerId
          · -- it is the old one, as nobody has two
            have hsame : other = old :=
              List.inj_on_of_nodup_map h hother hold (hother'.trans hid.symm)
            rw [if_pos hother', hsame]
            exact .inr rfl
          · rw [if_neg hother']
            exact .inl ⟨hother, hother'⟩
        · rintro (⟨he, hne⟩ | rfl)
          · exact ⟨e, he, if_neg hne⟩
          · exact ⟨old, hold, if_pos hid⟩

theorem mem_animateWhosTyping {now : Int} : e ∈ animateWhosTyping now whosTyping ↔
    ∃ other ∈ whosTyping,
      (if other.timestamp + 5000 < now then { other with removed := true } else other) = e :=
  List.mem_map

theorem map_peerId_animateWhosTyping (now : Int) (whosTyping : List TypingElement) :
    (animateWhosTyping now whosTyping).map TypingElement.peerId =
      whosTyping.map TypingElement.peerId := by
  unfold animateWhosTyping
  rw [List.map_map]
  refine List.map_congr_left fun e _ => ?_
  show (if e.timestamp + 5000 < now then { e with removed := true } else e).peerId = e.peerId
  split
  · rfl
  · rfl

theorem typingTransitionend_sublist (i : ℕ) (whosTyping : List TypingElement) :
    (typingTransitionend i whosTyping).Sublist whosTyping := by
  unfold typingTransitionend
  split
  · split
    · exact List.eraseIdx_sublist _ i
    · exact List.Sublist.refl _
  · exact List.Sublist.refl _

/-- Only who is on its way out goes. -/
theorem mem_typingTransitionend {i : ℕ} (he : e ∈ whosTyping) (hremoved : e.removed = false) :
    e ∈ typingTransitionend i whosTyping := by
  unfold typingTransitionend
  split
  · next peerElem hi =>
    split
    · next hout =>
      obtain ⟨j, hj⟩ := List.getElem?_of_mem he
      refine List.mem_eraseIdx_iff_getElem?.mpr ⟨j, ?_, hj⟩
      rintro rfl
      obtain rfl := Option.some.inj (hj.symm.trans hi)
      exact absurd hout (Bool.eq_false_iff.mp hremoved)
    · exact he
  · exact he

end Elements

/-! ### The events -/

/-- What a message tells of its peer: that it is typing, or that it is not. -/
def tellsTyping (message : MessageDto) : Option Bool :=
  match message.code with
  | some .codePeerIsTyping => some true
  | some .codePeerJoined | some .codePeerLeft | some .codePeerMessage => some false
  | _ => none

/-- When the page has last heard that `id` is typing, if that still counts. -/
def ChatEvent.typing (id : Option Int) (since : Option Int) : ChatEvent → Option Int
  | .onmessage now message =>
      if message.peerId = id then
        match tellsTyping message with
        | some true => some now
        | some false => none
        | none => since
      else since
  | .animateWhosTyping now => since.filter fun timestamp => !decide (timestamp + 5000 < now)
  | _ => since

def typingSince (id : Option Int) (events : List ChatEvent) : Option Int :=
  events.foldl (ChatEvent.typing id) none

/-- Whoever `id` is, it is not typing any more. -/
def ChatEvent.quiets (id : Option Int) : ChatEvent → Bool
  | .onmessage _ message => message.peerId == id && tellsTyping message == some false
  | _ => false

/-- A notice has begun the element, and nothing has quieted its peer since. -/
def Begun (events : List ChatEvent) (e : TypingElement) : Prop :=
  ∃ before now message after, events = before ++ .onmessage now message :: after ∧
    tellsTyping message = some true ∧ message.peerId = e.peerId ∧
    message.peerName = e.peerName ∧ ∀ event ∈ after, event.quiets e.peerId = false

/-- The panel of `own` after `events`. -/
structure Typing (own : Option Int) (events : List ChatEvent) (whosTyping : List TypingElement) :
    Prop where
  distinct : Distinct whosTyping
  others : ∀ e ∈ whosTyping, e.peerId ≠ own
  begun : ∀ e ∈ whosTyping, Begun events e
  since : ∀ id, id ≠ own → ∀ timestamp,
    (∃ e ∈ whosTyping, e.peerId = id ∧ e.timestamp = timestamp ∧ e.removed = false) ↔
      typingSince id events = some timestamp

section Typing

variable {own id : Option Int} {events : List ChatEvent} {event : ChatEvent}
  {whosTyping : List TypingElement} {e other : TypingElement} {now : Int} {message : MessageDto}

theorem typingSince_concat (id : Option Int) (events : List ChatEvent) (event : ChatEvent) :
    typingSince id (events ++ [event]) = event.typing id (typingSince id events) := by
  unfold typingSince
  rw [List.foldl_append]
  rfl

theorem Begun.concat (h : Begun events e) (hquiets : event.quiets e.peerId = false) :
    Begun (events ++ [event]) e := by
  obtain ⟨before, now, message, after, rfl, hcode, hid, hname, hafter⟩ := h
  refine ⟨before, now, message, after ++ [event], by simp, hcode, hid, hname,
    fun later hlater => ?_⟩
  rcases List.mem_append.mp hlater with hlater | hlater
  · exact hafter later hlater
  · obtain rfl := List.mem_singleton.mp hlater
    exact hquiets

/-- The time and the looks of an element do not matter. -/
theorem Begun.same (h : Begun events e) (hid : other.peerId = e.peerId)
    (hname : other.peerName = e.peerName) : Begun events other := by
  unfold Begun at h ⊢
  rwa [hid, hname]

/-- Nothing happens to the panel. -/
theorem Typing.keep (h : Typing own events whosTyping)
    (hquiets : ∀ e ∈ whosTyping, event.quiets e.peerId = false)
    (htyping : ∀ id, id ≠ own → event.typing id (typingSince id events) = typingSince id events) :
    Typing own (events ++ [event]) whosTyping := by
  refine ⟨h.distinct, h.others, fun e he => (h.begun e he).concat (hquiets e he), ?_⟩
  intro id hid timestamp
  rw [typingSince_concat, htyping id hid]
  exact h.since id hid timestamp

/-- The peer of the message is quiet from then on. -/
theorem Typing.quiet (h : Typing own events whosTyping)
    (hmessage : tellsTyping message = some false) :
    Typing own (events ++ [.onmessage now message])
      (removeTypingPeerNow message.peerId whosTyping) := by
  have hmem : ∀ e, e ∈ removeTypingPeerNow message.peerId whosTyping ↔
      e ∈ whosTyping ∧ e.peerId ≠ message.peerId := fun e => mem_removeTypingPeerNow h.distinct
  have hself : ∀ since,
      ChatEvent.typing message.peerId since (.onmessage now message) = none := by
    intro since
    show (if message.peerId = message.peerId then _ else _) = none
    rw [if_pos rfl, hmessage]
  have hother : ∀ id, id ≠ message.peerId → ∀ since,
      ChatEvent.typing id since (.onmessage now message) = since := fun id hne _ => if_neg hne.symm
  refine ⟨h.distinct.of_sublist List.eraseP_sublist, fun e he => h.others e ((hmem e).mp he).1,
    fun e he => ?_, fun id hid timestamp => ?_⟩
  · obtain ⟨he, hne⟩ := (hmem e).mp he
    refine (h.begun e he).concat ?_
    show (message.peerId == e.peerId && _) = false
    rw [beq_eq_false_iff_ne.mpr hne.symm, Bool.false_and]
  · rw [typingSince_concat]
    by_cases hsame : id = message.peerId
    · rw [hsame, hself]
      refine iff_of_false ?_ (Option.some_ne_none _).symm
      rintro ⟨e, he, hid', -, -⟩
      exact ((hmem e).mp he).2 hid'
    · rw [hother id hsame, ← h.since id hid timestamp]
      refine exists_congr fun e => ?_
      rw [hmem e]
      constructor
      · rintro ⟨⟨he, -⟩, hid', hrest⟩
        exact ⟨he, hid', hrest⟩
      · rintro ⟨he, hid', hrest⟩
        exact ⟨⟨he, fun heq => hsame (hid'.symm.trans heq)⟩, hid', hrest⟩

/-- There is a notice that the peer of the message is typing. -/
theorem Typing.typed (h : Typing own events whosTyping)
    (hmessage : tellsTyping message = some true) (hown : message.peerId ≠ own) :
    Typing own (events ++ [.onmessage now message])
      (typed now message.peerId message.peerName whosTyping) := by
  obtain ⟨hdistinct, fresh, hfresh, hmem⟩ :=
    typed_spec h.distinct now message.peerId message.peerName
  have hquiets : ∀ id, (ChatEvent.onmessage now message).quiets id = false := by
    intro id
    show (message.peerId == id && tellsTyping message == some false) = false
    rw [hmessage]
    exact Bool.and_false _
  have hself : ∀ since,
      ChatEvent.typing message.peerId since (.onmessage now message) = some now := by
    intro since
    show (if message.peerId = message.peerId then _ else _) = some now
    rw [if_pos rfl, hmessage]
  have hother : ∀ id, id ≠ message.peerId → ∀ since,
      ChatEvent.typing id since (.onmessage now message) = since := fun id hne _ => if_neg hne.symm
  refine ⟨hdistinct, fun e he => ?_, fun e he => ?_, fun id hid timestamp => ?_⟩
  · rcases (hmem e).mp he with ⟨he, -⟩ | rfl
    · exact h.others e he
    · rw [hfresh.id]
      exact hown
  · rcases (hmem e).mp he with ⟨he, -⟩ | rfl
    · exact (h.begun e he).concat (hquiets _)
    · rcases hfresh.name with hname | ⟨old, hold, hid, hname⟩
      · -- this notice has begun it
        exact ⟨events, now, message, [], rfl, hmessage, hfresh.id.symm, hname.symm,
          fun _ hnil => absurd hnil List.not_mem_nil⟩
      · exact ((h.begun old hold).concat (hquiets _)).same (hfresh.id.trans hid.symm) hname
  · rw [typingSince_concat]
    by_cases hsame : id = message.peerId
    · rw [hsame, hself]
      constructor
      · rintro ⟨e, he, hid', rfl, -⟩
        rcases (hmem e).mp he with ⟨-, hne⟩ | rfl
        · exact absurd hid' hne
        · rw [hfresh.timestamp]
      · intro htimestamp
        exact ⟨fresh, (hmem fresh).mpr (.inr rfl), hfresh.id,
          hfresh.timestamp.trans (Option.some.inj htimestamp), hfresh.stays⟩
    · rw [hother id hsame, ← h.since id hid timestamp]
      refine exists_congr fun e => ?_
      rw [hmem e]
      constructor
      · rintro ⟨⟨he, -⟩ | rfl, hid', hrest⟩
        · exact ⟨he, hid', hrest⟩
        · exact absurd (hid'.symm.trans hfresh.id) hsame
      · rintro ⟨he, hid', hrest⟩
        exact ⟨.inl ⟨he, fun heq => hsame (hid'.symm.trans heq)⟩, hid', hrest⟩

/-- Time passes. -/
theorem Typing.animateWhosTyping (h : Typing own events whosTyping) (now : Int) :
    Typing own (events ++ [.animateWhosTyping now])
      (ChatPage.animateWhosTyping now whosTyping) := by
  have hsame : ∀ e : TypingElement,
      (if e.timestamp + 5000 < now then { e with removed := true } else e).peerId = e.peerId ∧
        (if e.timestamp + 5000 < now then { e with removed := true } else e).peerName =
          e.peerName := by
    intro e
    split
    · exact ⟨rfl, rfl⟩
    · exact ⟨rfl, rfl⟩
  refine ⟨?_, fun e he => ?_, fun e he => ?_, fun id hid timestamp => ?_⟩
  · unfold Distinct
    rw [map_peerId_animateWhosTyping]
    exact h.distinct
  · obtain ⟨other, hother, rfl⟩ := mem_animateWhosTyping.mp he
    rw [(hsame other).1]
    exact h.others other hother
  · obtain ⟨other, hother, rfl⟩ := mem_animateWhosTyping.mp he
    exact ((h.begun other hother).concat rfl).same (hsame other).1 (hsame other).2
  · rw [typingSince_concat]
    show _ ↔ (typingSince id events).filter (fun timestamp => !decide (timestamp + 5000 < now)) =
      some timestamp
    rw [Option.filter_eq_some_iff, ← h.since id hid timestamp]
    constructor
    · rintro ⟨e, he, hid', htimestamp, hstays⟩
      obtain ⟨other, hother, rfl⟩ := mem_animateWhosTyping.mp he
      by_cases hlate : other.timestamp + 5000 < now
      · rw [if_pos hlate] at hstays
        cases hstays
      · rw [if_neg hlate] at hid' htimestamp hstays
        exact ⟨⟨other, hother, hid', htimestamp, hstays⟩, by simpa [← htimestamp] using hlate⟩
    · rintro ⟨⟨e, he, hid', rfl, hstays⟩, hlate⟩
      have hlate' : ¬ e.timestamp + 5000 < now := by simpa using hlate
      refine ⟨e, mem_animateWhosTyping.mpr ⟨e, he, if_neg hlate'⟩, hid', rfl, hstays⟩

/-- What is on its way out goes. -/
theorem Typing.typingTransitionend (h : Typing own events whosTyping) (i : ℕ) :
    Typing own (events ++ [.typingTransitionend i])
      (ChatPage.typingTransitionend i whosTyping) := by
  have hsublist := typingTransitionend_sublist i whosTyping
  refine ⟨h.distinct.of_sublist hsublist, fun e he => h.others e (hsublist.subset he),
    fun e he => (h.begun e (hsublist.subset he)).concat rfl, fun id hid timestamp => ?_⟩
  rw [typingSince_concat]
  refine Iff.trans (exists_congr fun e => ?_) (h.since id hid timestamp)
  constructor
  · rintro ⟨he, hrest⟩
    exact ⟨hsublist.subset he, hrest⟩
  · rintro ⟨he, hid', htimestamp, hstays⟩
    exact ⟨mem_typingTransitionend he hstays, hid', htimestamp, hstays⟩

/-! ### The page -/

/-- What a message makes of the panel of `own`. -/
def typingAfter (own : Option Int) (now : Int) (message : MessageDto)
    (whosTyping : List TypingElement) : List TypingElement :=
  match tellsTyping message with
  | some true =>
      if message.peerId = own then whosTyping
      else ChatPage.typed now message.peerId message.peerName whosTyping
  | some false => removeTypingPeerNow message.peerId whosTyping
  | none => whosTyping

theorem Typing.onMessage (h : Typing own events whosTyping) (now : Int) (message : MessageDto) :
    Typing own (events ++ [.onmessage now message]) (typingAfter own now message whosTyping) := by
  have hquiets : tellsTyping message ≠ some false →
      ∀ e ∈ whosTyping, (ChatEvent.onmessage now message).quiets e.peerId = false := by
    intro hne e _
    show (message.peerId == e.peerId && tellsTyping message == some false) = false
    rw [beq_eq_false_iff_ne.mpr hne, Bool.and_false]
  unfold typingAfter
  split
  · next hmessage =>
    split
    · next hown =>
      -- a page does not show its own peer
      refine h.keep (hquiets (by simp [hmessage])) fun id hid => if_neg ?_
      rw [hown]
      exact hid.symm
    · next hown => exact h.typed hmessage hown
  · next hmessage => exact h.quiet hmessage
  · next hmessage =>
    refine h.keep (hquiets (by simp [hmessage])) fun id _ => ?_
    show (if message.peerId = id then _ else _) = typingSince id events
    rw [hmessage]
    exact ite_self _

variable {urlRoom : String} {page : ChatPage}

theorem whosTyping_onMessage (urlRoom : String) (now : Int)
    (hcode : message.code ≠ some .codeInfo) (hown : page.participants.peerId = some own) :
    ((onMessage urlRoom now message).exec page).2.whosTyping =
      typingAfter own now message page.whosTyping := by
  have hread : (Participants.readPeerId).exec page.participants = (.ok own, page.participants) := by
    rw [Participants.exec_readPeerId, hown]
  obtain ⟨peerId, peerName, code, text, timestamp, peers, history, files⟩ := message
  unfold ChatPage.onMessage
  rcases code with - | code
  · rfl
  cases code with
  | codeInfo => exact absurd rfl hcode
  | codePeerIsTyping =>
      show ((postPeerIsTyping now peerId peerName).exec page).2.whosTyping =
        if peerId = own then _ else _
      unfold postPeerIsTyping
      rw [PageScript.exec_bind, PageScript.exec_onParticipants, hread]
      dsimp only
      split
      · rfl
      · rfl
  | codePeerMessageFile =>
      show ((postSharedFile urlRoom peerId peerName timestamp files).exec page).2.whosTyping =
        page.whosTyping
      -- `postSharedFile` may throw at a null file; it has not touched the panel by then
      unfold postSharedFile
      rw [PageScript.exec_bind, PageScript.exec_modify]
      rcases files with - | files
      · rfl
      · dsimp only
        let opened : ChatPage :=
          { page with
            chatHistory := withContainer
              { peerId := .peer peerId, author := some { peerName, timestamp } } page.chatHistory }
        have hopened : opened.participants.peerId = some own := hown
        rw [PageScript.exec_bind, exec_postFiles hopened]
        by_cases hnone : none ∈ files
        · rw [if_pos hnone]
        · rw [if_neg hnone]
          rfl
  | _ => rfl

/-- Nothing of a history is about who is typing. -/
theorem whosTyping_replayEntries (urlRoom : String) (now : Int) {objects : List (Object MessageDto)}
    (hcodes : ∀ object ∈ objects, object.val.code ≠ some .codeInfo)
    (htyping : ∀ object ∈ objects, tellsTyping object.val ≠ some true)
    (hown : page.participants.peerId = some own) (hnobody : page.whosTyping = []) :
    ((replayEntries urlRoom now (objects.map some)).exec page).2.whosTyping = [] := by
  induction objects generalizing page with
  | nil => exact hnobody
  | cons object objects ih =>
      obtain ⟨hcode, hcodes⟩ := List.forall_mem_cons.mp hcodes
      obtain ⟨hnot, htyping⟩ := List.forall_mem_cons.mp htyping
      have hentry : replayEntry urlRoom now (some object) =
          ChatPage.onMessage urlRoom now object.val := by
        obtain ⟨ptr, message⟩ := object
        rw [replayEntry, replayObject]
      have hstill : ((ChatPage.onMessage urlRoom now object.val).exec page).2.whosTyping = [] := by
        rw [whosTyping_onMessage urlRoom now hcode hown, hnobody]
        unfold typingAfter
        split
        · next hmessage => exact absurd hmessage hnot
        · rfl
        · rfl
      have hown' : ((ChatPage.onMessage urlRoom now object.val).exec page).2.participants.peerId =
          some own := peerId_onMessage hcode hown
      rw [List.map_cons, replayEntries, PageScript.exec_bind, hentry]
      rcases hexec : (ChatPage.onMessage urlRoom now object.val).exec page with ⟨e | ⟨⟩, page'⟩
      · rw [hexec] at hstill
        exact hstill
      · rw [hexec] at hstill hown'
        exact ih hcodes htyping hown' hstill

variable {info : MessageDto} {nick : Option Int → Option String}

theorem whosTyping_info (urlRoom : String) (now : Int) (hcode : info.code = some .codeInfo)
    (hgreets : Participants.Greets nick info)
    (htyping : ∀ message ∈ Participants.replayed info, tellsTyping message ≠ some true) :
    ((onMessage urlRoom now info).exec {}).2.whosTyping = [] := by
  obtain ⟨welcomed, hown, ⟨-, hexec⟩ | ⟨objects, -, hreplayed, hcodes, hexec⟩⟩ :=
    exec_onMessage_info urlRoom now hcode hgreets
  all_goals rw [hexec]
  · have hnotice : (ownNotice info).code ≠ some .codeInfo := nofun
    rw [whosTyping_onMessage urlRoom now hnotice hown]
    rfl
  · refine whosTyping_replayEntries urlRoom now hcodes (fun object hobject => ?_) hown rfl
    exact htyping object.val (hreplayed ▸ List.mem_map_of_mem hobject)

/-- **Who is shown as typing** on a page that has been greeted. -/
theorem typing_afterEvents (urlRoom : String) (now : Int) {events : List ChatEvent}
    (hgreeted : Participants.Greeted nick info (events.filterMap ChatEvent.pageEvent?))
    (htyping : ∀ message ∈ Participants.replayed info, tellsTyping message ≠ some true) :
    Typing info.peerId events
      (afterEvents urlRoom (.onmessage now info :: events) {}).whosTyping := by
  induction events using List.reverseRecOn with
  -- the history replayed by CODE_INFO has nobody typing
  | nil =>
      have hnobody : (afterEvents urlRoom [.onmessage now info] {}).whosTyping = [] :=
        whosTyping_info urlRoom now hgreeted.code hgreeted.greets htyping
      rw [hnobody]
      refine ⟨.nil, ?_, ?_, fun id _ timestamp => iff_of_false ?_ nofun⟩
      · exact fun e he => absurd he List.not_mem_nil
      · exact fun e he => absurd he List.not_mem_nil
      · rintro ⟨e, he, -⟩
        exact absurd he List.not_mem_nil
  | append_singleton events event ih =>
      have hgreeted' := hgreeted
      rw [List.filterMap_append] at hgreeted'
      have hpanel := ih hgreeted'.of_append
      let page := afterEvents urlRoom (.onmessage now info :: events) {}
      have hafter : afterEvents urlRoom (.onmessage now info :: (events ++ [event])) {} =
          ((event.script urlRoom).exec page).2 := by
        show List.foldl _ _ (events ++ [event]) = _
        rw [List.foldl_append]
        rfl
      rw [hafter]
      cases event with
      | onmessage now' message =>
          -- the panel and the participant list are fed by the same events
          have hlist : page.participants = Participants.pageAfter
              (.onmessage info :: events.filterMap ChatEvent.pageEvent?) {} :=
            participants_afterEvents urlRoom _ {}
          have hown : page.participants.peerId = some info.peerId :=
            hlist ▸ hgreeted'.of_append.mapHas.1
          have hmem : message ∈ (events.filterMap ChatEvent.pageEvent? ++
              [ChatEvent.onmessage now' message].filterMap ChatEvent.pageEvent?).filterMap
              Participants.PageEvent.message? := by
            rw [List.filterMap_append]
            exact List.mem_append_right _ (List.mem_singleton_self _)
          have hcode := (hgreeted'.notices message (List.mem_append_right _ hmem)).2
          have hstep := hpanel.onMessage now' message
          rwa [← whosTyping_onMessage urlRoom now' hcode hown] at hstep
      -- the animation marks entries as removed, and `transitionend` takes marked entries out
      | animateWhosTyping now' => exact hpanel.animateWhosTyping now'
      | typingTransitionend i => exact hpanel.typingTransitionend i
      | onclose => exact hpanel.keep (fun _ _ => rfl) fun _ _ => rfl
      | transitionend i => exact hpanel.keep (fun _ _ => rfl) fun _ _ => rfl

end Typing

end ChatPage

end CanChat
