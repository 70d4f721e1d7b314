/-
CanChat/GreetedPage.lean

A page that has been greeted.

`Greeted` is what a page hears whose socket is open: `CODE_INFO`, and messages
that agree with it.  Nothing that it handles throws, its list is exact, and the
map holds those who are there by all that was heard.
-/
import CanChat.Reconciliation

namespace CanChat

namespace Participants

variable {nick : Option Int → Option String} {info : MessageDto} {events : List PageEvent}
  {page : Participants} {self : Option Int}

theorem peerId_updateParticipants (hself : page.peerId = some self) :
    (updateParticipants.exec page).2.peerId = some self := by
  rw [exec_updateParticipants hself]
  split
  · exact hself
  · exact hself

/-- What the map is after notices, and whose page it is. -/
theorem pageAfter_notices (hself : page.peerId = some self)
    (hnotices : ∀ message ∈ events.filterMap PageEvent.message?, message.code ≠ some .codeInfo)
    (hopen : PageEvent.onclose ∉ events) :
    (pageAfter events page).peerId = some self ∧
      ∀ id, mapHas id (pageAfter events page).peersMap =
        (events.filterMap PageEvent.message?).foldl (note id) (mapHas id page.peersMap) := by
  induction events generalizing page with
  | nil => exact ⟨hself, fun _ => rfl⟩
  | cons event events ih =>
      have hopen' : PageEvent.onclose ∉ events := List.not_mem_of_not_mem_cons hopen
      cases event with
      | onmessage message =>
          obtain ⟨hcode, hnotices⟩ := List.forall_mem_cons.mp hnotices
          have hself' : ((onMessage message).exec page).2.peerId = some self := by
            rw [page_onMessage hcode]
            split
            · exact peerId_updateParticipants hself
            · exact hself
          obtain ⟨hpage, hhas⟩ := ih hself' hnotices hopen'
          refine ⟨hpage, fun id => (hhas id).trans ?_⟩
          rw [(exec_onMessage hcode page).1, mapHas_notice]
          rfl
      | onclose => exact absurd List.mem_cons_self hopen
      | transitionend i =>
          let page' := ((handle (.transitionend i)).exec page).2
          have hself' : page'.peerId = some self := hself
          exact ih hself' hnotices hopen'

/-- A page that has been greeted, and has heard what is `Coherent` since. -/
structure Greeted (nick : Option Int → Option String) (info : MessageDto)
    (events : List PageEvent) : Prop where
  code : info.code = some .codeInfo
  greets : Greets nick info
  notices : ∀ message ∈ replayOf info ++ events.filterMap PageEvent.message?,
    Coherent nick message ∧ message.code ≠ some .codeInfo
  inOrder : (replayOf info ++ events.filterMap PageEvent.message?).Pairwise InOrder
  isOpen : PageEvent.onclose ∉ events

namespace Greeted

/-- An earlier moment. -/
theorem of_append {later : List PageEvent} (h : Greeted nick info (events ++ later)) :
    Greeted nick info events := by
  have hmessages : replayOf info ++ (events ++ later).filterMap PageEvent.message? =
      (replayOf info ++ events.filterMap PageEvent.message?) ++
        later.filterMap PageEvent.message? := by
    rw [List.filterMap_append, List.append_assoc]
  have hnotices := h.notices
  have hinOrder := h.inOrder
  rw [hmessages] at hnotices hinOrder
  exact ⟨h.code, h.greets, fun message hmem => hnotices message (List.mem_append_left _ hmem),
    (List.pairwise_append.mp hinOrder).1, fun hclose => h.isOpen (List.mem_append_left _ hclose)⟩

theorem calls_replay (h : Greeted nick info events) :
    ((replayOf info).map PageEvent.onmessage).flatMap PageEvent.calls =
      (replayOf info).map .notice := by
  rw [List.flatMap_map, List.map_eq_flatMap]
  refine List.flatMap_congr fun message hmessage => ?_
  exact calls_notice (h.notices message (List.mem_append_left _ hmessage)).2

theorem calls_info (h : Greeted nick info events) :
    (PageEvent.onmessage info).calls = .welcome info :: (replayOf info).map .notice :=
  if_pos h.code

theorem calls_eq (h : Greeted nick info events) :
    (PageEvent.onmessage info :: events).flatMap PageEvent.calls =
      .welcome info ::
        ((replayOf info).map PageEvent.onmessage ++ events).flatMap PageEvent.calls := by
  rw [List.flatMap_cons, h.calls_info, List.flatMap_append, h.calls_replay]
  rfl

theorem allowed (h : Greeted nick info events) : Allowed nick []
    (((replayOf info).map PageEvent.onmessage ++ events).flatMap PageEvent.calls) := by
  have hmessages : ((replayOf info).map PageEvent.onmessage ++ events).filterMap
      PageEvent.message? = replayOf info ++ events.filterMap PageEvent.message? := by
    rw [List.filterMap_append, List.filterMap_map]
    congr 1
    exact List.filterMap_some
  have hopen : ∀ event ∈ (replayOf info).map PageEvent.onmessage ++ events, event ≠ .onclose := by
    rintro event hevent rfl
    rcases List.mem_append.mp hevent with hevent | hevent
    · obtain ⟨_, -, hmessage⟩ := List.mem_map.mp hevent
      cases hmessage
    · exact h.isOpen hevent
  refine allowed_events (hmessages ▸ h.notices) (hmessages ▸ h.inOrder) ?_ nofun
  refine List.pairwise_iff_forall_sublist.mpr fun {earlier later} hsub hclose => ?_
  exact absurd hclose (hopen earlier (hsub.subset List.mem_cons_self))

theorem script_eq (h : Greeted nick info events) : ∀ event ∈ PageEvent.onmessage info :: events,
    ∀ page, event.script.exec page = (makeCalls event.calls).exec page := by
  intro event hevent page
  rcases List.mem_cons.mp hevent with rfl | hevent
  · exact exec_onMessage_calls h.code h.greets page
  · cases event with
    | onmessage message =>
        have hmem : message ∈ events.filterMap PageEvent.message? :=
          List.mem_filterMap.mpr ⟨_, hevent, rfl⟩
        rw [calls_notice (h.notices message (List.mem_append_right _ hmem)).2,
          exec_makeCalls_single]
        rfl
    | onclose => exact absurd hevent h.isOpen
    | transitionend i => exact (exec_makeCalls_single (.transitionend i) page).symm

/-- The calls of the first events, and the page they lead to. -/
theorem exec_calls (h : Greeted nick info events) {before : List PageEvent}
    (hbefore : before <+: events) : ∃ page gone,
      (makeCalls ((PageEvent.onmessage info :: before).flatMap PageEvent.calls)).exec {} =
        (.ok ⟨⟩, page) ∧ Kept nick gone page ∧
        pageAfter (.onmessage info :: before) {} = page := by
  obtain ⟨after, rfl⟩ := hbefore
  let done := ((replayOf info).map PageEvent.onmessage ++ before).flatMap PageEvent.calls
  have hdone : done <+:
      ((replayOf info).map PageEvent.onmessage ++ (before ++ after)).flatMap PageEvent.calls := by
    rw [← List.append_assoc, List.flatMap_append]
    exact List.prefix_append _ _
  obtain ⟨page, hwelcome, hkept⟩ := Kept.welcome h.greets
  obtain ⟨page', gone, hexec, hkept'⟩ := hkept.makeCalls h.allowed hdone
  have hcalls : (PageEvent.onmessage info :: before).flatMap PageEvent.calls =
      .welcome info :: done := by
    have hall := h.calls_eq
    rw [← List.cons_append, ← List.append_assoc, List.flatMap_append, List.flatMap_append,
      ← List.cons_append] at hall
    exact List.append_cancel_right hall
  have hmade : (makeCalls ((PageEvent.onmessage info :: before).flatMap PageEvent.calls)).exec {} =
      (.ok ⟨⟩, page') := by
    have hscript : (Call.welcome info).script.exec {} = (.ok ⟨⟩, page) := hwelcome
    rw [hcalls, makeCalls, Script.exec_bind, hscript]
    exact hexec
  refine ⟨page', gone, hmade, hkept', pageAfter_eq (fun event hevent => ?_) hmade⟩
  exact h.script_eq event (List.cons_subset_cons _ (List.subset_append_left before after) hevent)

/-- Nothing throws. -/
theorem exec_event (h : Greeted nick info events) {before after : List PageEvent}
    {event : PageEvent} (hevents : PageEvent.onmessage info :: events = before ++ event :: after) :
    (event.script.exec (pageAfter before {})).1 = .ok ⟨⟩ := by
  have hevent : event ∈ PageEvent.onmessage info :: events := by
    rw [hevents]
    exact List.mem_append_right _ List.mem_cons_self
  rw [h.script_eq event hevent]
  rcases before with - | ⟨first, before⟩
  · obtain ⟨rfl, -⟩ := List.cons.inj hevents
    obtain ⟨page, -, hexec, -⟩ := h.exec_calls List.nil_prefix
    rw [List.flatMap_singleton] at hexec
    exact congrArg Prod.fst hexec
  · obtain ⟨rfl, rfl⟩ := List.cons.inj hevents
    obtain ⟨page, -, hexec, -, hpage⟩ := h.exec_calls (List.prefix_append before _)
    have hlater : before ++ [event] <+: before ++ event :: after := ⟨after, by simp⟩
    obtain ⟨page', -, hexec', -⟩ := h.exec_calls hlater
    rw [← List.cons_append, List.flatMap_append, exec_makeCalls_append, hexec,
      List.flatMap_singleton] at hexec'
    rw [hpage]
    exact congrArg Prod.fst hexec'

theorem exec_welcome (hgreets : Greets nick info) :
    ∃ page, (Call.welcome info).script.exec {} = (.ok ⟨⟩, page) ∧
      page.peerId = some info.peerId := by
  obtain ⟨entries, hpeers, hentries⟩ := hgreets.peers
  obtain ⟨peersMap, hset, hnamed, -⟩ := exec_setPeers
    { peerId := some info.peerId, peerName := info.peerName } .nil hentries
  let page : Participants := { peerId := some info.peerId, peerName := info.peerName, peersMap }
  obtain ⟨page', hexec, -, -⟩ := exec_updateParticipants_created page rfl hnamed rfl
  have hself : page'.peerId = some info.peerId := by
    have hwelcomed : page.peerId = some info.peerId := rfl
    have hupdate := peerId_updateParticipants hwelcomed
    rwa [hexec] at hupdate
  refine ⟨page', ?_, hself⟩
  show (welcome info.peerId info.peerName info.peers).exec {} = _
  unfold welcome
  rw [hpeers, Script.exec_bind, Script.exec_modify]
  dsimp only
  rw [Script.exec_bind, hset]
  exact hexec

/-- The map holds those who are there by all that was heard. -/
theorem mapHas (h : Greeted nick info events) :
    (pageAfter (.onmessage info :: events) {}).peerId = some info.peerId ∧
      ∀ id, Participants.mapHas id (pageAfter (.onmessage info :: events) {}).peersMap =
        (events.filterMap PageEvent.message?).foldl (note id) (hear id false info) := by
  obtain ⟨page, gone, hexec, hhas, -⟩ := exec_info {} h.code h.greets .nil rfl
  -- `onMessage` of CODE_INFO is `welcome` followed by the history replayed as messages
  have hself : page.peerId = some info.peerId := by
    obtain ⟨welcomed, hwelcome, hself⟩ := exec_welcome h.greets
    have hmade := exec_onMessage_calls h.code h.greets {}
    rw [hexec, h.calls_info, makeCalls, Script.exec_bind, hwelcome] at hmade
    have hreplay : ∀ event ∈ (replayOf info).map PageEvent.onmessage, ∀ page,
        event.script.exec page = (makeCalls event.calls).exec page := by
      intro event hevent page
      obtain ⟨message, hmessage, rfl⟩ := List.mem_map.mp hevent
      rw [calls_notice (h.notices message (List.mem_append_left _ hmessage)).2,
        exec_makeCalls_single]
      rfl
    have hcalls : (makeCalls (((replayOf info).map PageEvent.onmessage).flatMap
        PageEvent.calls)).exec welcomed = (.ok ⟨⟩, page) := by
      rw [h.calls_replay]
      exact hmade.symm
    have hmessages : ((replayOf info).map PageEvent.onmessage).filterMap PageEvent.message? =
        replayOf info := by
      rw [List.filterMap_map]
      exact List.filterMap_some
    have hopen : PageEvent.onclose ∉ (replayOf info).map PageEvent.onmessage := by
      intro hclose
      obtain ⟨_, -, hmessage⟩ := List.mem_map.mp hclose
      cases hmessage
    rw [← pageAfter_eq hreplay hcalls]
    refine (pageAfter_notices hself (fun message hmessage => ?_) hopen).1
    rw [hmessages] at hmessage
    exact (h.notices message (List.mem_append_left _ hmessage)).2
  -- what follows is a run from the page that CODE_INFO leaves
  have hafter : pageAfter (.onmessage info :: events) {} = pageAfter events page := by
    show pageAfter events ((onMessage info).exec {}).2 = _
    rw [hexec]
  obtain ⟨hpeerId, hmap⟩ := pageAfter_notices hself
    (fun message hmessage => (h.notices message (List.mem_append_right _ hmessage)).2) h.isOpen
  rw [hafter]
  refine ⟨hpeerId, fun id => ?_⟩
  rw [hmap, hhas]
  rfl

end Greeted

end Participants

end CanChat
