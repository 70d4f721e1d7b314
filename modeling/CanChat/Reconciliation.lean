/-
CanChat/Reconciliation.lean

The list of participants, call by call.

`updateParticipants` runs the sorted peers along the elements that are left.
It finds each of them as long as these are in the order of the peers, which
they are after every call before; an element that fades out is not one of them,
and may go at any time.

Design.  The calls are taken apart: the one of `CODE_INFO` itself, one for each
notice of its replay, one for each later notice, and the one when the socket
closes.  Between them transitions may end.  `exec_onMessage_calls` is why
handling a message is making its calls one after the other.
-/
import Mathlib.Data.List.Infix
import CanChat.ParticipantList

namespace CanChat

namespace Participants

open StableSort

/-! ### The calls -/

/-- `socket.onclose` -/
def onclose : Script Unit := do
  modify fun page => { page with peersMap := [] }
  updateParticipants

/-- What the handlers of the page are made of. -/
inductive Call
  /-- `CODE_INFO` without its replay -/
  | welcome (info : MessageDto)
  /-- a message that is no `CODE_INFO`, replayed or received -/
  | notice (message : MessageDto)
  | close
  | transitionend (i : ℕ)

/-- The script of a call. -/
def Call.script : Call → Script Unit
  | .welcome info => Participants.welcome info.peerId info.peerName info.peers
  | .notice message => onMessage message
  | .close => onclose
  | .transitionend i => handle (.transitionend i)

/-- Calls one after the other, up to the first that throws. -/
def makeCalls : List Call → Script Unit
  | [] => pure ⟨⟩
  | call :: calls => do
      call.script
      makeCalls calls

/-- What a `CODE_INFO` replays: its history, or the page's own notice. -/
def replayOf (info : MessageDto) : List MessageDto :=
  if replayed info = [] then
    [{ code := some .codePeerJoined, peerId := info.peerId, peerName := info.peerName }]
  else
    replayed info

/-- What happens to the page. -/
inductive PageEvent
  | onmessage (message : MessageDto)
  | onclose
  | transitionend (i : ℕ)

/-- The handler of an event. -/
def PageEvent.script : PageEvent → Script Unit
  | .onmessage message => onMessage message
  | .onclose => Participants.onclose
  | .transitionend i => handle (.transitionend i)

/-- The calls an event leads to. -/
def PageEvent.calls : PageEvent → List Call
  | .onmessage message =>
      if message.code = some .codeInfo then
        .welcome message :: (replayOf message).map .notice
      else
        [.notice message]
  | .onclose => [.close]
  | .transitionend i => [.transitionend i]

/-- The message of an event, if it has one. -/
def PageEvent.message? : PageEvent → Option MessageDto
  | .onmessage message => some message
  | _ => none

/-- The page when the browser has handled all events. -/
def pageAfter (events : List PageEvent) (page : Participants) : Participants :=
  events.foldl (fun page event => (event.script.exec page).2) page

/-- `CODE_INFO`, then notices, and the close of the socket as the last of them;
transitions end whenever they do. -/
structure ClientRun (nick : Option Int → Option String) (info : MessageDto)
    (events : List PageEvent) : Prop where
  code : info.code = some .codeInfo
  greets : Greets nick info
  notices : ∀ message ∈ events.filterMap PageEvent.message?,
    Coherent nick message ∧ message.code ≠ some .codeInfo
  inOrder : (replayOf info ++ events.filterMap PageEvent.message?).Pairwise InOrder
  closed : events.Pairwise fun earlier later => earlier = .onclose → ∃ i, later = .transitionend i

/-- The elements that are not on their way out are those of the other peers of
the map, each once, in the order in which the peers are sorted. -/
structure Reconciled (page : Participants) : Prop where
  elements : ∃ self children, page.peerId = some self ∧ page.peersOther = some children ∧
    (children.filter fun child => !child.deleted).map ParticipantElement.peerId =
      others self (sort cmpPeers page.peersMap)
  nodup : (keys page.peersMap).Nodup

/-! ### Marks -/

variable {nick : Option Int → Option String} {self : Option Int} {page : Participants}
  {peersMap peers : List PeerDto} {children : List ParticipantElement} {gone : List (Option Int)}
  {info : MessageDto} {events : List PageEvent}

/-- An element is on its way out exactly when its peer is not in the map. -/
def Marked (peersMap : List PeerDto) (children : List ParticipantElement) : Prop :=
  ∀ child ∈ children, child.deleted = !mapHas child.peerId peersMap

/-- Where exactly the absent are marked, the unmarked elements are those of the
peers that are left. -/
theorem filter_of_marked (h : Marked peersMap children) :
    (children.filter fun child => !child.deleted).map ParticipantElement.peerId =
      left peersMap children := by
  unfold left
  rw [List.filter_map]
  congr 1
  refine List.filter_congr fun child hchild => ?_
  rw [h child hchild, Bool.not_not]
  rfl

/-- What is inserted is new. -/
theorem mem_insertBefore {childId : Option Int} {child : ParticipantElement}
    (h : child ∈ (insertBefore self childId peers).1) :
    child.deleted = false ∧ child.peerId ∈ keys peers := by
  induction peers with
  | nil => cases h
  | cons peer peers ih =>
      unfold insertBefore at h
      have hlater : child.peerId ∈ keys peers → child.peerId ∈ keys (peer :: peers) :=
        List.mem_cons_of_mem _
      split at h
      · exact (ih h).imp_right hlater
      · split at h
        · cases h
        · rcases List.mem_cons.mp h with rfl | h
          · exact ⟨rfl, List.mem_cons_self⟩
          · exact (ih h).imp_right hlater

theorem rest_insertBefore {childId : Option Int} {rest : List PeerDto}
    (h : (insertBefore self childId peers).2 = some rest) : keys rest ⊆ keys peers := by
  induction peers with
  | nil => cases h
  | cons peer peers ih =>
      unfold insertBefore at h
      have hlater : keys peers ⊆ keys (peer :: peers) := List.subset_cons_self _ _
      split at h
      · exact fun id hid => hlater (ih h hid)
      · split at h
        · obtain rfl := Option.some.inj h
          exact hlater
        · exact fun id hid => hlater (ih h hid)

/-- An element was there before or is new. -/
theorem mem_insertElements {child : ParticipantElement}
    (h : child ∈ (insertElements self peersMap children peers).1) :
    child ∈ children ∨ child.deleted = false ∧ child.peerId ∈ keys peers := by
  induction children generalizing peers with
  | nil =>
      obtain ⟨peer, hpeer, rfl⟩ := List.mem_map.mp h
      exact .inr ⟨rfl, List.mem_map_of_mem (List.mem_filter.mp hpeer).1⟩
  | cons head children ih =>
      have hcases : ∀ {rest}, keys rest ⊆ keys peers →
          child ∈ head :: (insertElements self peersMap children rest).1 →
            child ∈ head :: children ∨ child.deleted = false ∧ child.peerId ∈ keys peers := by
        intro rest hrest hchild
        rcases List.mem_cons.mp hchild with rfl | hchild
        · exact .inl List.mem_cons_self
        · exact (ih hchild).imp (List.mem_cons_of_mem _) fun h => ⟨h.1, hrest h.2⟩
      unfold insertElements at h
      split at h
      · rcases hbefore : insertBefore self head.peerId peers with ⟨new, - | rest⟩
        · have hinserted : child ∈ new → child ∈ (insertBefore self head.peerId peers).1 :=
            fun hnew => hbefore ▸ hnew
          rw [hbefore] at h
          rcases List.mem_append.mp h with hnew | hold
          · exact .inr (mem_insertBefore (hinserted hnew))
          · exact .inl hold
        · have hinserted : child ∈ new → child ∈ (insertBefore self head.peerId peers).1 :=
            fun hnew => hbefore ▸ hnew
          rw [hbefore] at h
          rcases List.mem_append.mp h with hnew | hold
          · exact .inr (mem_insertBefore (hinserted hnew))
          · exact hcases (rest_insertBefore (congrArg Prod.snd hbefore)) hold
      · exact hcases (List.Subset.refl _) h

/-- `updateParticipants` marks who has gone; nobody comes back. -/
theorem marked_updateParticipants (hself : page.peerId = some self)
    (hold : ∀ children, page.peersOther = some children → ∀ child ∈ children,
      child.deleted = true → mapHas child.peerId page.peersMap = false)
    {children : List ParticipantElement}
    (hchildren : (updateParticipants.exec page).2.peersOther = some children) :
    Marked page.peersMap children := by
  have hsorted : ∀ id ∈ keys (sort cmpPeers page.peersMap), mapHas id page.peersMap = true := by
    intro id hid
    obtain ⟨peer, hpeer, rfl⟩ := List.mem_map.mp hid
    exact mapHas_of_mem_sort hpeer
  rw [exec_updateParticipants hself] at hchildren
  rcases hother : page.peersOther with - | elements
  · rw [hother] at hchildren
    obtain rfl := Option.some.inj hchildren
    intro child hchild
    obtain ⟨peer, hpeer, rfl⟩ := List.mem_map.mp hchild
    have hhas := hsorted _ (List.mem_map_of_mem (List.mem_filter.mp hpeer).1)
    show false = !mapHas peer.peerId page.peersMap
    rw [hhas]
    rfl
  · rw [hother] at hchildren
    obtain rfl := Option.some.inj hchildren
    intro child hchild
    rcases mem_insertElements hchild with hchild | ⟨hnew, hhas⟩
    · obtain ⟨element, helement, rfl⟩ := List.mem_map.mp hchild
      rcases hhas : mapHas element.peerId page.peersMap with - | -
      · simp [hhas, removeParticipantElement]
      · have hdeleted : element.deleted = false := by
          rw [← Bool.not_eq_true]
          intro hdeleted
          rw [hold elements hother element helement hdeleted] at hhas
          cases hhas
        simp [hhas, hdeleted]
    · rw [hnew, hsorted _ hhas]
      rfl

/-! ### One call -/

/-- What every call keeps: the list is tidy, exactly the absent are marked, and
nobody who has gone is in the map. -/
structure Kept (nick : Option Int → Option String) (gone : List (Option Int))
    (page : Participants) : Prop where
  tidy : Tidy nick gone page
  marked : ∀ children, page.peersOther = some children → Marked page.peersMap children
  absent : ∀ id ∈ gone, mapHas id page.peersMap = false

/-- The list shows the peers of the map. -/
theorem Kept.reconciles (h : Kept nick gone page) : Reconciled page := by
  obtain ⟨hnamed, self, children, hself, hchildren, hleft, -⟩ := h.tidy
  refine ⟨⟨self, children, hself, hchildren, ?_⟩, hnamed.nodup⟩
  rw [filter_of_marked (h.marked children hchildren), hleft]

theorem absent_notice {message : MessageDto} (h : ∀ id ∈ gone, mapHas id peersMap = false)
    (hgone : message.code = some .codePeerJoined → message.peerId ∉ gone) :
    ∀ id ∈ goneAfter message gone, mapHas id (notice message peersMap) = false := by
  intro id hid
  rw [mapHas_notice]
  unfold goneAfter at hid
  unfold note
  split at hid
  · next hcode =>
    rw [hcode]
    rcases List.mem_cons.mp hid with rfl | hid
    · simp
    · simp [h id hid]
  · next hleft =>
    split
    · next hcode =>
      have hne : message.peerId ≠ id := fun heq => hgone hcode (heq ▸ hid)
      simp [h id hid, hne]
    · next hcode => exact absurd hcode hleft
    · exact h id hid

/-- Who has gone has gone for good. -/
theorem gone_subset (message : MessageDto) : gone ⊆ goneAfter message gone := by
  unfold goneAfter
  split
  · exact List.subset_cons_self _ _
  · exact List.Subset.refl _

/-- A message that says who joined or left brings the list up to date, and no
other message touches the page. -/
theorem page_onMessage {message : MessageDto} (hcode : message.code ≠ some .codeInfo)
    (page : Participants) : ((onMessage message).exec page).2 =
      if message.code = some .codePeerJoined ∨ message.code = some .codePeerLeft then
        (updateParticipants.exec { page with peersMap := notice message page.peersMap }).2
      else page := by
  obtain ⟨peerId, peerName, code, text, timestamp, peers, history, files⟩ := message
  unfold onMessage
  rcases code with - | code
  · rfl
  cases code with
  | codeInfo => exact absurd rfl hcode
  | codePeerJoined => rfl
  | codePeerLeft => rfl
  | codePeerIsTyping =>
      dsimp only
      rw [if_neg (by decide), Script.exec_bind, exec_readPeerId]
      rcases page.peerId with - | self
      · rfl
      · rfl
  | codePeerMessageFile => exact exec_postSharedFile files page
  | _ => rfl

/-- A notice that brings nobody back. -/
theorem Kept.hear (h : Kept nick gone page) {message : MessageDto} (hm : Coherent nick message)
    (hcode : message.code ≠ some .codeInfo)
    (hgone : message.code = some .codePeerJoined → message.peerId ∉ gone) :
    ∃ page', (onMessage message).exec page = (.ok ⟨⟩, page') ∧
      Kept nick (goneAfter message gone) page' := by
  obtain ⟨page', hexec, hmap, htidy⟩ := h.tidy.onMessage hm hcode hgone
  have habsent := absent_notice h.absent hgone
  refine ⟨page', hexec, htidy, fun children' hchildren' => ?_, fun id hid => hmap ▸ habsent id hid⟩
  obtain ⟨-, self, children, hself, hchildren, -, hold⟩ := h.tidy
  have hpage : page' = ((onMessage message).exec page).2 := by
    rw [hexec]
  rw [page_onMessage hcode] at hpage
  split at hpage
  · rw [hmap]
    rw [hpage] at hchildren'
    refine @marked_updateParticipants self
      { page with peersMap := notice message page.peersMap } hself ?_ children' hchildren'
    intro elements helements child hchild hdeleted
    obtain rfl := Option.some.inj (hchildren.symm.trans helements)
    -- whose element is on its way out has gone
    have hnot : mapHas child.peerId page.peersMap = false := by
      have hmark := h.marked children hchildren child hchild
      rw [hdeleted] at hmark
      simpa using hmark
    have hmem := (hold child hchild).resolve_left (by simp [hnot])
    exact habsent _ (gone_subset message hmem)
  · rw [hpage] at hchildren' ⊢
    exact h.marked children' hchildren'

/-- An element that is on its way out goes. -/
theorem Kept.transitionend (h : Kept nick gone page) (i : ℕ) :
    Kept nick gone { page with peersOther := page.peersOther.map (transitionend i) } := by
  obtain ⟨⟨hnamed, self, children, hself, hchildren, hleft, hold⟩, hmarked, habsent⟩ := h
  have hmark := hmarked children hchildren
  obtain ⟨hsub, hsame⟩ : Participants.transitionend i children ⊆ children ∧
      left page.peersMap (Participants.transitionend i children) = left page.peersMap children := by
    unfold Participants.transitionend
    split
    · next child hchild =>
      split
      · next hdeleted =>
        refine ⟨List.eraseIdx_subset, ?_⟩
        obtain ⟨hlt, rfl⟩ := List.getElem?_eq_some_iff.mp hchild
        have hnot : mapHas children[i].peerId page.peersMap = false := by
          have hmem := hmark _ (List.getElem_mem hlt)
          rw [hdeleted] at hmem
          simpa using hmem
        rw [List.eraseIdx_eq_take_drop_succ, left_append]
        conv_rhs => rw [← List.take_append_drop i children, left_append,
          List.drop_eq_getElem_cons hlt]
        congr 1
        unfold left
        rw [List.map_cons, List.filter_cons, hnot]
        rfl
      · exact ⟨List.Subset.refl _, rfl⟩
    · exact ⟨List.Subset.refl _, rfl⟩
  refine ⟨⟨hnamed, self, Participants.transitionend i children, hself, ?_, hsame.trans hleft,
    fun child hchild => hold child (hsub hchild)⟩, fun children' hchildren' => ?_, habsent⟩
  · rw [hchildren]
    rfl
  · rw [hchildren] at hchildren'
    obtain rfl := Option.some.inj hchildren'
    exact fun child hchild => hmark child (hsub hchild)

/-- The socket closes: everybody else goes. -/
theorem Kept.close (h : Kept nick gone page) :
    ∃ page' gone', onclose.exec page = (.ok ⟨⟩, page') ∧ Kept nick gone' page' := by
  obtain ⟨⟨hnamed, self, children, hself, hchildren, -, -⟩, hmarked, -⟩ := h
  have hnone : left [] children = [] :=
    List.filter_eq_nil_iff.mpr fun id _ => Bool.false_ne_true
  obtain ⟨page', hexec, hmap, htidy⟩ := @exec_updateParticipants_tidy nick self
    { page with peersMap := [] } children (children.map ParticipantElement.peerId) hself .nil
    hchildren (hnone ▸ List.nil_sublist _) fun child hchild => .inr (List.mem_map_of_mem hchild)
  refine ⟨page', _, ?_, htidy, fun children' hchildren' => ?_, fun id _ => by rw [hmap]; rfl⟩
  · unfold onclose
    rw [Script.exec_bind, Script.exec_modify]
    exact hexec
  · rw [hmap]
    refine @marked_updateParticipants self { page with peersMap := [] } hself ?_ children' ?_
    · exact fun _ _ _ _ _ => rfl
    · rw [hexec]
      exact hchildren'

/-- `welcome` makes the first list. -/
theorem Kept.welcome (hgreets : Greets nick info) :
    ∃ page', (welcome info.peerId info.peerName info.peers).exec {} = (.ok ⟨⟩, page') ∧
      Kept nick [] page' := by
  obtain ⟨entries, hpeers, hentries⟩ := hgreets.peers
  obtain ⟨peersMap, hset, hnamed, -⟩ := exec_setPeers
    { peerId := some info.peerId, peerName := info.peerName } .nil hentries
  let page : Participants := { peerId := some info.peerId, peerName := info.peerName, peersMap }
  obtain ⟨page', hexec, hmap, htidy⟩ := exec_updateParticipants_created page rfl hnamed rfl
  refine ⟨page', ?_, htidy, fun children hchildren => ?_, fun id hid => by cases hid⟩
  · unfold Participants.welcome
    rw [hpeers, Script.exec_bind, Script.exec_modify]
    dsimp only
    rw [Script.exec_bind, hset]
    exact hexec
  · rw [hmap]
    refine @marked_updateParticipants info.peerId page rfl ?_ children ?_
    · exact fun _ h => nomatch h
    · rw [hexec]
      exact hchildren

/-! ### All calls -/

/-- The calls that may come when `gone` have left. -/
def Allowed (nick : Option Int → Option String) : List (Option Int) → List Call → Prop
  | _, [] => True
  | gone, .notice message :: calls => Coherent nick message ∧ message.code ≠ some .codeInfo ∧
      (message.code = some .codePeerJoined → message.peerId ∉ gone) ∧
        Allowed nick (goneAfter message gone) calls
  | gone, .transitionend _ :: calls => Allowed nick gone calls
  | _, .close :: calls => ∀ call ∈ calls, ∃ i, call = .transitionend i
  | _, .welcome _ :: _ => False

/-- Transitions are always allowed. -/
theorem allowed_of_transitionend {calls : List Call}
    (h : ∀ call ∈ calls, ∃ i, call = .transitionend i) (gone : List (Option Int)) :
    Allowed nick gone calls := by
  induction calls with
  | nil => trivial
  | cons call calls ih =>
      obtain ⟨⟨i, rfl⟩, hcalls⟩ := List.forall_mem_cons.mp h
      exact ih hcalls

/-- Calls that are allowed run through, by induction on the calls. -/
theorem Kept.makeCalls (h : Kept nick gone page) {calls done : List Call}
    (hallowed : Allowed nick gone calls) (hdone : done <+: calls) :
    ∃ page' gone', (makeCalls done).exec page = (.ok ⟨⟩, page') ∧ Kept nick gone' page' := by
  induction calls generalizing gone page done with
  | nil =>
      obtain rfl := List.prefix_nil.mp hdone
      exact ⟨page, gone, rfl, h⟩
  | cons call calls ih =>
      rcases done with - | ⟨first, done⟩
      · exact ⟨page, gone, rfl, h⟩
      obtain ⟨rfl, hrest⟩ := List.cons_prefix_cons.mp hdone
      -- the call is made, and the others follow
      suffices hfirst : ∃ page' gone', first.script.exec page = (.ok ⟨⟩, page') ∧
          Kept nick gone' page' ∧ Allowed nick gone' calls by
        obtain ⟨page₁, gone₁, hexec, h₁, hallowed₁⟩ := hfirst
        obtain ⟨page₂, gone₂, hexec', h₂⟩ := ih h₁ hallowed₁ hrest
        refine ⟨page₂, gone₂, ?_, h₂⟩
        rw [Participants.makeCalls, Script.exec_bind, hexec]
        exact hexec'
      cases first with
      | welcome info => cases hallowed
      | notice message =>
          obtain ⟨hm, hcode, hgone, hcalls⟩ := hallowed
          obtain ⟨page', hexec, h'⟩ := h.hear hm hcode hgone
          exact ⟨page', _, hexec, h', hcalls⟩
      | close =>
          obtain ⟨page', gone', hexec, h'⟩ := h.close
          exact ⟨page', gone', hexec, h', allowed_of_transitionend hallowed gone'⟩
      | transitionend i => exact ⟨_, gone, rfl, h.transitionend i, hallowed⟩

/-! ### A client's run -/

/-- A message other than CODE_INFO is one call. -/
theorem calls_notice {message : MessageDto} (hcode : message.code ≠ some .codeInfo) :
    (PageEvent.onmessage message).calls = [.notice message] :=
  if_neg hcode

/-- The events of a client's run lead to allowed calls, by induction on the events. -/
theorem allowed_events {events : List PageEvent}
    (hnotices : ∀ message ∈ events.filterMap PageEvent.message?,
      Coherent nick message ∧ message.code ≠ some .codeInfo)
    (horder : (events.filterMap PageEvent.message?).Pairwise InOrder)
    (hclosed : events.Pairwise fun earlier later =>
      earlier = .onclose → ∃ i, later = .transitionend i)
    (hgone : ∀ message ∈ events.filterMap PageEvent.message?,
      message.code = some .codePeerJoined → message.peerId ∉ gone) :
    Allowed nick gone (events.flatMap PageEvent.calls) := by
  induction events generalizing gone with
  | nil => trivial
  | cons event events ih =>
      obtain ⟨hafter, hclosed'⟩ := List.pairwise_cons.mp hclosed
      rw [List.flatMap_cons]
      cases event with
      | onmessage message =>
          have hmessages : (PageEvent.onmessage message :: events).filterMap PageEvent.message? =
              message :: events.filterMap PageEvent.message? := rfl
          rw [hmessages] at hnotices horder hgone
          obtain ⟨hnotice, hnotices⟩ := List.forall_mem_cons.mp hnotices
          obtain ⟨hlater, horder⟩ := List.pairwise_cons.mp horder
          obtain ⟨hfresh, hgone⟩ := List.forall_mem_cons.mp hgone
          rw [calls_notice hnotice.2]
          refine ⟨hnotice.1, hnotice.2, hfresh, ih hnotices horder hclosed' ?_⟩
          intro later hmem hjoined hin
          -- a later arrival is of nobody who was gone, nor of who leaves now
          unfold goneAfter at hin
          split at hin
          · next hleft =>
            rcases List.mem_cons.mp hin with heq | hin
            · exact hlater later hmem hleft hjoined heq
            · exact hgone later hmem hjoined hin
          · exact hgone later hmem hjoined hin
      | onclose =>
          -- after the socket has closed only the transitions remain
          intro call hcall
          obtain ⟨event, hevent, hcall⟩ := List.mem_flatMap.mp hcall
          obtain ⟨i, rfl⟩ := hafter event hevent rfl
          exact ⟨i, List.mem_singleton.mp hcall⟩
      | transitionend i =>
          exact ih hnotices horder hclosed' hgone

/-- The calls of two lists, one list after the other. -/
theorem exec_makeCalls_append (calls calls' : List Call) (page : Participants) :
    (makeCalls (calls ++ calls')).exec page = match (makeCalls calls).exec page with
      | (.ok _, page) => (makeCalls calls').exec page
      | (.error e, page) => (.error e, page) := by
  induction calls generalizing page with
  | nil => rfl
  | cons call calls ih =>
      rw [List.cons_append, makeCalls, makeCalls, Script.exec_bind, Script.exec_bind]
      rcases call.script.exec page with ⟨e | -, page⟩
      · rfl
      · exact ih page

theorem exec_makeCalls_single (call : Call) (page : Participants) :
    (makeCalls [call]).exec page = call.script.exec page := by
  rw [makeCalls, Script.exec_bind]
  rcases call.script.exec page with ⟨e | -, page⟩
  · rfl
  · rfl

/-- Replaying the history calls the handler of each notice. -/
theorem exec_replayEntries (objects : List (Object MessageDto)) (page : Participants) :
    (replayEntries (objects.map some)).exec page =
      (makeCalls ((objects.map Object.val).map .notice)).exec page := by
  induction objects generalizing page with
  | nil => rfl
  | cons object objects ih =>
      simp only [List.map_cons]
      rw [replayEntries, makeCalls, Script.exec_bind, Script.exec_bind, replayEntry_some]
      rw [show (Call.notice object.val).script = onMessage object.val from rfl]
      rcases (onMessage object.val).exec page with ⟨e | -, page⟩
      · rfl
      · exact ih page

/-- Handling a message is making its calls. -/
theorem exec_onMessage_calls (hcode : info.code = some .codeInfo) (hgreets : Greets nick info)
    (page : Participants) : (onMessage info).exec page =
      (makeCalls (PageEvent.onmessage info).calls).exec page := by
  have hcalls : (PageEvent.onmessage info).calls = .welcome info :: (replayOf info).map .notice :=
    if_pos hcode
  have hreplay : ∀ page, (replay info.history (peerJoined info.peerId info.peerName)).exec page =
      (makeCalls ((replayOf info).map .notice)).exec page := by
    intro page
    have hown : replayed info = [] → (peerJoined info.peerId info.peerName).exec page =
        (makeCalls ((replayOf info).map .notice)).exec page := by
      intro hnil
      rw [replayOf, if_pos hnil, List.map_singleton, exec_makeCalls_single]
      rfl
    rcases hhistory : info.history with - | history
    · exact hown (by simp [replayed, hhistory])
    obtain ⟨objects, rfl, -⟩ := hgreets.history history hhistory
    have hreplayed : replayed info = objects.map Object.val := by
      simp [replayed, hhistory]
    rcases objects with - | ⟨object, objects⟩
    · exact hown hreplayed
    · rw [replayOf, hreplayed, if_neg (by simp)]
      exact exec_replayEntries (object :: objects) page
  rw [hcalls, makeCalls, Script.exec_bind]
  obtain ⟨peerId, peerName, code, text, timestamp, peers, history, files⟩ := info
  obtain rfl : code = some .codeInfo := hcode
  unfold onMessage
  dsimp only
  rw [Script.exec_bind]
  rw [show (Call.welcome ⟨peerId, peerName, some .codeInfo, text, timestamp, peers, history,
    files⟩).script = welcome peerId peerName peers from rfl]
  rcases (welcome peerId peerName peers).exec page with ⟨e | -, page⟩
  · rfl
  · exact hreplay page

/-- Where no call throws, it does not matter which event a call belongs to. -/
theorem pageAfter_eq {events : List PageEvent} {page page' : Participants}
    (hscript : ∀ event ∈ events, ∀ page,
      event.script.exec page = (makeCalls event.calls).exec page)
    (hexec : (makeCalls (events.flatMap PageEvent.calls)).exec page = (.ok ⟨⟩, page')) :
    pageAfter events page = page' := by
  induction events generalizing page with
  | nil =>
      cases hexec
      rfl
  | cons event events ih =>
      obtain ⟨hevent, hevents⟩ := List.forall_mem_cons.mp hscript
      rw [List.flatMap_cons, exec_makeCalls_append, ← hevent page] at hexec
      show pageAfter events (event.script.exec page).2 = page'
      generalize event.script.exec page = outcome at hexec ⊢
      obtain ⟨e | ⟨⟩, page₁⟩ := outcome
      · cases hexec
      · exact ih hevents hexec

/-- **The list is exact after every call** of a client's run, none of which
throws; and the calls are what the browser's events come to. -/
theorem reconciled (hrun : ClientRun nick info events) :
    (∀ done, done <+: (PageEvent.onmessage info :: events).flatMap PageEvent.calls → done ≠ [] →
      ∃ page, (makeCalls done).exec {} = (.ok ⟨⟩, page) ∧ Reconciled page) ∧
      pageAfter (.onmessage info :: events) {} =
        ((makeCalls ((PageEvent.onmessage info :: events).flatMap PageEvent.calls)).exec {}).2 := by
  -- the replay is one browser event; here it is taken apart into its messages
  let all : List PageEvent := (replayOf info).map .onmessage ++ events
  -- what is replayed is the history, or the page's own notice
  have hreplay : ∀ message ∈ replayOf info, Coherent nick message ∧
      message.code ≠ some .codeInfo := by
    intro message hmessage
    unfold replayOf at hmessage
    split at hmessage
    · obtain rfl := List.mem_singleton.mp hmessage
      exact ⟨⟨fun _ => hrun.greets.name, fun h => nomatch h⟩, fun h => nomatch h⟩
    · obtain ⟨entry, hentry, hobject⟩ := List.mem_filterMap.mp hmessage
      rcases hhistory : info.history with - | history
      · rw [hhistory] at hentry
        cases hentry
      · obtain ⟨objects, rfl, horderly⟩ := hrun.greets.history history hhistory
        rw [hhistory] at hentry
        obtain ⟨object, hmem, rfl⟩ := List.mem_map.mp hentry
        obtain rfl := Option.some.inj hobject
        exact horderly.coherent object.val (List.mem_map_of_mem hmem)
  have hmessages : all.filterMap PageEvent.message? =
      replayOf info ++ events.filterMap PageEvent.message? := by
    rw [List.filterMap_append, List.filterMap_map]
    congr 1
    exact List.filterMap_some
  -- the calls after the `CODE_INFO` are of the kind that `Kept.makeCalls` is about
  have hallowed : Allowed nick [] (all.flatMap PageEvent.calls) := by
    refine allowed_events ?_ ?_ ?_ ?_
    · intro message hmessage
      rw [hmessages] at hmessage
      rcases List.mem_append.mp hmessage with hmessage | hmessage
      · exact hreplay message hmessage
      · exact hrun.notices message hmessage
    · rw [hmessages]
      exact hrun.inOrder
    · refine List.pairwise_append.mpr ⟨?_, hrun.closed, ?_⟩
      · exact List.pairwise_map.mpr (List.pairwise_of_forall fun _ _ h => nomatch h)
      · intro earlier hearlier later _ hclose
        obtain ⟨message, -, rfl⟩ := List.mem_map.mp hearlier
        cases hclose
    · exact fun _ _ _ h => nomatch h
  -- the first call is the welcome, the others are those of `all`
  have hcalls : (PageEvent.onmessage info :: events).flatMap PageEvent.calls =
      .welcome info :: all.flatMap PageEvent.calls := by
    have hinfo : (PageEvent.onmessage info).calls = .welcome info :: (replayOf info).map .notice :=
      if_pos hrun.code
    have hnotices : (replayOf info).map Call.notice =
        ((replayOf info).map PageEvent.onmessage).flatMap PageEvent.calls := by
      rw [List.flatMap_map, List.map_eq_flatMap]
      refine List.flatMap_congr fun message hmessage => ?_
      exact (calls_notice (hreplay message hmessage).2).symm
    rw [List.flatMap_cons, hinfo, hnotices, List.flatMap_append]
    rfl
  obtain ⟨page, hwelcome, hkept⟩ := Kept.welcome hrun.greets
  -- `Kept.welcome` starts the induction, `Kept.makeCalls` carries it over any prefix
  have hall : ∀ done, done <+: all.flatMap PageEvent.calls → ∃ page',
      (makeCalls (.welcome info :: done)).exec {} = (.ok ⟨⟩, page') ∧ Reconciled page' := by
    intro done hdone
    obtain ⟨page', gone, hexec, hkept'⟩ := hkept.makeCalls hallowed hdone
    refine ⟨page', ?_, hkept'.reconciles⟩
    rw [makeCalls, Script.exec_bind]
    rw [show (Call.welcome info).script = welcome info.peerId info.peerName info.peers from rfl,
      hwelcome]
    exact hexec
  constructor
  · intro done hdone hne
    rw [hcalls] at hdone
    rcases done with - | ⟨first, done⟩
    · exact absurd rfl hne
    · obtain ⟨rfl, hrest⟩ := List.cons_prefix_cons.mp hdone
      exact hall done hrest
  -- no call throws, so event by event the page is the one that the calls lead to
  · obtain ⟨page', hexec, -⟩ := hall _ List.prefix_rfl
    rw [← hcalls] at hexec
    rw [hexec]
    refine pageAfter_eq (fun event hevent page => ?_) hexec
    rcases List.mem_cons.mp hevent with rfl | hevent
    · exact exec_onMessage_calls hrun.code hrun.greets page
    · cases event with
      | onmessage message =>
          have hmem : message ∈ events.filterMap PageEvent.message? :=
            List.mem_filterMap.mpr ⟨_, hevent, rfl⟩
          rw [calls_notice (hrun.notices message hmem).2, exec_makeCalls_single]
          rfl
      | onclose => exact (exec_makeCalls_single .close page).symm
      | transitionend i => exact (exec_makeCalls_single (.transitionend i) page).symm

/-! ### A run -/

def nicks : Option Int → Option String
  | some 1 => some "Ann"
  | some 2 => some "Bob"
  | some 3 => some "Bob"
  | some 4 => some "Ada"
  | _ => none

def joined (id : Int) : MessageDto :=
  { code := some .codePeerJoined, peerId := some id, peerName := nicks (some id) }

def leaves (id : Int) : MessageDto :=
  { code := some .codePeerLeft, peerId := some id }

/-- Ann finds two Bobs, and a history in which Ada came and went. -/
def greeting : MessageDto where
  code := some .codeInfo
  peerId := some 1
  peerName := nicks (some 1)
  peers := some ([1, 2, 3].map fun id => some { peerId := some id, peerName := nicks (some id) })
  history := some (([joined 3, joined 4, leaves 4, joined 1].map (Object.mk 0)).map some)

/-- One Bob is announced again, the other leaves, and the connection is lost. -/
def visit : List PageEvent :=
  [.onmessage (joined 3), .onmessage (leaves 2), .transitionend 0, .onclose, .transitionend 0]

theorem coherent_joined (id : Int) :
    Coherent nicks (joined id) ∧ (joined id).code ≠ some .codeInfo :=
  ⟨⟨fun _ => rfl, (fun h => nomatch h)⟩, (fun h => nomatch h)⟩

theorem coherent_leaves (id : Int) :
    Coherent nicks (leaves id) ∧ (leaves id).code ≠ some .codeInfo :=
  ⟨⟨(fun h => nomatch h), (fun h => nomatch h)⟩, (fun h => nomatch h)⟩

theorem clientRun_visit : ClientRun nicks greeting visit := by
  have hvisit : visit.filterMap PageEvent.message? = [joined 3, leaves 2] := rfl
  refine ⟨rfl, ⟨rfl, ⟨_, rfl, ?_⟩, ?_⟩, ?_, ?_, ?_⟩
  · simp
  · intro entries hentries
    obtain rfl := Option.some.inj hentries
    refine ⟨_, rfl, ?_, ?_⟩
    · simpa using ⟨coherent_joined 3, coherent_joined 4, coherent_leaves 4, coherent_joined 1⟩
    · simp [InOrder, joined, leaves]
  · rw [hvisit]
    simpa using ⟨coherent_joined 3, coherent_leaves 2⟩
  · rw [hvisit]
    simp [InOrder, joined, leaves, replayOf, replayed, greeting]
  · simp [visit]

/-- Ada and the Bob who left fade out in front of the Bob who stays. -/
theorem reconciled_visit : ∃ page, (makeCalls
    ((PageEvent.onmessage greeting :: visit.take 2).flatMap PageEvent.calls)).exec {} =
      (.ok ⟨⟩, page) ∧
      page.peersOther = some [⟨some 4, true⟩, ⟨some 2, true⟩, ⟨some 3, false⟩] ∧
      Reconciled page := by
  have hbegun :
      PageEvent.onmessage greeting :: visit.take 2 <+: PageEvent.onmessage greeting :: visit :=
    List.cons_prefix_cons.mpr ⟨rfl, List.take_prefix 2 visit⟩
  obtain ⟨page, hexec, hpage⟩ := (reconciled clientRun_visit).1 _
    (List.IsPrefix.flatMap hbegun PageEvent.calls) (fun h => nomatch h)
  have helements : ((makeCalls ((PageEvent.onmessage greeting :: visit.take 2).flatMap
      PageEvent.calls)).exec {}).2.peersOther =
        some [⟨some 4, true⟩, ⟨some 2, true⟩, ⟨some 3, false⟩] := by
    decide +kernel
  rw [hexec] at helements
  exact ⟨page, hexec, helements, hpage⟩

end Participants

end CanChat
