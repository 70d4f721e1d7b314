/-
CanChat/ParticipantList.lean

Who is in `peersMap` after all the messages of a page.

Every message does to an id what `hear` says: a notice adds or removes it, and
`CODE_INFO` adds those it lists and then replays a history.  The replay is one
event of the browser, so an exception in it would lose the rest of the history.
`Tidy` is why there is none: the elements whose peers are still in the map are
those of the sorted peers, which is where the loops of `updateParticipants` look
for them.
-/
import CanChat.Participants

namespace CanChat

namespace Participants

open StableSort

variable {nick : Option Int → Option String} {self id : Option Int} {page : Participants}
  {peersMap peers : List PeerDto} {children : List ParticipantElement} {peer : PeerDto}
  {message : MessageDto}

theorem weak_cmpPeers : Weak cmpPeers where
  asymm a b h := by
    unfold cmpPeers at *
    simp only [decide_eq_true_eq, decide_eq_false_iff_not] at *
    exact lt_asymm h
  trans a b c h hc := by
    unfold cmpPeers at *
    simp only [decide_eq_true_eq, decide_eq_false_iff_not] at *
    exact lt_of_lt_of_le h (not_lt.mp hc)

/-! ### The map -/

def keys (peersMap : List PeerDto) : List (Option Int) := peersMap.map PeerDto.peerId

@[simp] theorem mapHas_iff : mapHas id peersMap = true ↔ id ∈ keys peersMap := by
  rw [mapHas, List.any_eq_true, keys, List.mem_map]
  simp only [beq_iff_eq]

/-- Every id is there once, under its name. -/
structure Named (nick : Option Int → Option String) (peersMap : List PeerDto) : Prop where
  nodup : (keys peersMap).Nodup
  name : ∀ peer ∈ peersMap, peer.peerName = nick peer.peerId

theorem mapHas_mapSet : mapHas id (mapSet peer peersMap) =
    (mapHas id peersMap || peer.peerId == id) := by
  unfold mapSet
  split
  · next hany =>
    have hkeys :
        keys (peersMap.map fun other => if other.peerId = peer.peerId then peer else other) =
        keys peersMap := by
      unfold keys
      rw [List.map_map]
      refine List.map_congr_left fun other _ => ?_
      show PeerDto.peerId (if _ then _ else _) = _
      split
      · next heq => rw [heq]
      · rfl
    rw [Bool.eq_iff_iff, Bool.or_eq_true, mapHas_iff, mapHas_iff, hkeys, beq_iff_eq]
    refine ⟨.inl, fun h => h.elim (fun h => h) ?_⟩
    rintro rfl
    exact mapHas_iff.mp hany
  · simp [mapHas]

theorem mapHas_mapDelete (peerId : Option Int) :
    mapHas id (mapDelete peerId peersMap) = (mapHas id peersMap && peerId != id) := by
  rw [Bool.eq_iff_iff, Bool.and_eq_true, mapHas_iff, mapHas_iff]
  simp only [keys, mapDelete, List.mem_map, List.mem_filter, bne_iff_ne]
  constructor
  · rintro ⟨other, ⟨hmem, hne⟩, rfl⟩
    exact ⟨⟨other, hmem, rfl⟩, hne.symm⟩
  · rintro ⟨⟨other, hmem, rfl⟩, hne⟩
    exact ⟨other, ⟨hmem, hne.symm⟩, rfl⟩

namespace Named

theorem nil : Named nick [] := ⟨List.nodup_nil, by simp⟩

/-- Who is in the map already is in it under the same name. -/
theorem mapSet_eq (h : Named nick peersMap) (hpeer : peer.peerName = nick peer.peerId) :
    mapSet peer peersMap =
      if mapHas peer.peerId peersMap then peersMap else peersMap ++ [peer] := by
  show (if mapHas peer.peerId peersMap then _ else _) = _
  congr 1
  conv_rhs => rw [← List.map_id peersMap]
  refine List.map_congr_left fun other hmem => ?_
  split
  · next heq =>
    obtain ⟨peerId, peerName⟩ := peer
    obtain ⟨otherId, otherName⟩ := other
    obtain rfl : otherId = peerId := heq
    obtain rfl : otherName = peerName := (h.name _ hmem).trans hpeer.symm
    rfl
  · rfl

theorem mapSet (h : Named nick peersMap) (hpeer : peer.peerName = nick peer.peerId) :
    Named nick (mapSet peer peersMap) := by
  rw [h.mapSet_eq hpeer]
  split
  · exact h
  · next hnot =>
    refine ⟨?_, fun other hmem => ?_⟩
    · unfold keys
      rw [List.map_append, List.nodup_append]
      refine ⟨h.nodup, List.nodup_singleton _, fun a ha b hb => ?_⟩
      obtain rfl := List.mem_singleton.mp hb
      rintro rfl
      exact hnot (mapHas_iff.mpr ha)
    · rcases List.mem_append.mp hmem with hmem | hmem
      · exact h.name other hmem
      · obtain rfl := List.mem_singleton.mp hmem
        exact hpeer

theorem mapDelete (h : Named nick peersMap) (peerId : Option Int) :
    Named nick (mapDelete peerId peersMap) where
  nodup := h.nodup.sublist (List.filter_sublist.map _)
  name peer hmem := h.name peer (List.mem_filter.mp hmem).1

end Named

/-! ### The elements -/

/-- The elements of peers that are in the map, by their ids. -/
def left (peersMap : List PeerDto) (children : List ParticipantElement) : List (Option Int) :=
  (children.map ParticipantElement.peerId).filter fun id => mapHas id peersMap

def others (self : Option Int) (peers : List PeerDto) : List (Option Int) :=
  (keys peers).filter fun id => id != self

theorem newElements_ids : (newElements self peers).map ParticipantElement.peerId =
    others self peers := by
  unfold newElements others keys
  rw [List.map_map, List.filter_map]
  rfl

theorem left_append (children' : List ParticipantElement) :
    left peersMap (children ++ children') = left peersMap children ++ left peersMap children' := by
  rw [left, List.map_append, List.filter_append]
  rfl

theorem mapHas_newElements (h : ∀ peer ∈ peers, mapHas peer.peerId peersMap = true)
    {child : ParticipantElement} (hchild : child ∈ newElements self peers) :
    mapHas child.peerId peersMap = true := by
  obtain ⟨peer, hpeer, rfl⟩ := List.mem_map.mp hchild
  exact h peer (List.mem_filter.mp hpeer).1

theorem left_newElements (h : ∀ peer ∈ peers, mapHas peer.peerId peersMap = true) :
    left peersMap (newElements self peers) = others self peers := by
  rw [left, newElements_ids, List.filter_eq_self]
  intro id hid
  obtain ⟨peer, hpeer, rfl⟩ := List.mem_map.mp (List.mem_filter.mp hid).1
  exact h peer hpeer

/-- What comes behind the first `a` comes behind it in a longer list. -/
theorem sublist_behind {α : Type} {a : α} {l before after : List α}
    (h : (a :: l).Sublist (before ++ a :: after)) (ha : a ∉ before) : l.Sublist after := by
  induction before with
  | nil => exact List.cons_sublist_cons.mp h
  | cons b before ih =>
      cases h with
      | cons _ h => exact ih h (List.not_mem_of_not_mem_cons ha)
      | cons_cons _ h => exact absurd rfl (List.ne_of_not_mem_cons ha)

/-- The loop stops at the peer of the child. -/
theorem insertBefore_eq {childId : Option Int} (h : childId ∈ others self peers) :
    ∃ before after, insertBefore self childId peers = (newElements self before, some after) ∧
      others self peers = others self before ++ childId :: others self after ∧
        childId ∉ others self before ∧ before ⊆ peers ∧ after ⊆ peers := by
  induction peers with
  | nil => cases h
  | cons peer peers ih =>
      unfold insertBefore
      by_cases hself : peer.peerId = self
      · -- the page's own peer has no element
        have hothers : ∀ peers, others self (peer :: peers) = others self peers := fun peers => by
          simp [others, keys, hself]
        rw [hothers] at h ⊢
        obtain ⟨before, after, heq, hsplit, hnot, hbefore, hafter⟩ := ih h
        refine ⟨peer :: before, after, ?_, ?_, ?_, List.cons_subset_cons _ hbefore,
          List.subset_cons_of_subset _ hafter⟩
        · rw [if_pos hself, heq]
          simp [newElements, hself]
        · rw [hothers, hsplit]
        · rw [hothers]
          exact hnot
      · have hothers : ∀ peers, others self (peer :: peers) = peer.peerId :: others self peers :=
          fun peers => by simp [others, keys, hself]
        rw [hothers] at h ⊢
        rw [if_neg hself]
        by_cases hchild : peer.peerId = childId
        · refine ⟨[], peers, if_pos hchild, ?_, by simp [others, keys], List.nil_subset _,
            List.subset_cons_self _ _⟩
          rw [hchild]
          rfl
        · obtain ⟨before, after, heq, hsplit, hnot, hbefore, hafter⟩ :=
            ih ((List.mem_cons.mp h).resolve_left (Ne.symm hchild))
          refine ⟨peer :: before, after, ?_, ?_, ?_, List.cons_subset_cons _ hbefore,
            List.subset_cons_of_subset _ hafter⟩
          · rw [if_neg hchild, heq]
            simp [newElements, hself]
          · rw [hothers, hsplit]
            rfl
          · rw [hothers]
            exact List.not_mem_cons_of_ne_of_not_mem (Ne.symm hchild) hnot

/-- Elements in the order of the peers are found, and the missing ones inserted. -/
theorem insertElements_eq (h : (left peersMap children).Sublist (others self peers))
    (hpeers : ∀ peer ∈ peers, mapHas peer.peerId peersMap = true) :
    ∃ children', insertElements self peersMap children peers = (children', false) ∧
      left peersMap children' = others self peers ∧
        ∀ child ∈ children', mapHas child.peerId peersMap = true ∨
          child.peerId ∈ children.map ParticipantElement.peerId := by
  induction children generalizing peers with
  | nil =>
      exact ⟨newElements self peers, rfl, left_newElements hpeers,
        fun child hchild => .inl (mapHas_newElements hpeers hchild)⟩
  | cons child children ih =>
      unfold insertElements
      -- a child whose peer has left is stepped over, it removes itself when its transition ends
      by_cases hchild : mapHas child.peerId peersMap = true
      · have hleft : ∀ children, left peersMap (child :: children) =
            child.peerId :: left peersMap children := fun children => by
          rw [left, List.map_cons, List.filter_cons, if_pos hchild]
          rfl
        rw [hleft] at h
        -- the elements of `before` go in front of `child`, the rest behind it
        obtain ⟨before, after, heq, hsplit, hnot, hbefore, hafter⟩ :=
          insertBefore_eq (h.subset List.mem_cons_self)
        rw [hsplit] at h
        obtain ⟨children', heq', hleft', hold⟩ :=
          ih (sublist_behind h hnot) fun peer hpeer => hpeers peer (hafter hpeer)
        refine ⟨newElements self before ++ child :: children', ?_, ?_, fun other hother => ?_⟩
        · rw [if_pos hchild, heq]
          dsimp only
          rw [heq']
        · rw [left_append, hleft, hleft', hsplit,
            left_newElements fun peer hpeer => hpeers peer (hbefore hpeer)]
        · rcases List.mem_append.mp hother with hother | hother
          · exact .inl (mapHas_newElements (fun peer hpeer => hpeers peer (hbefore hpeer)) hother)
          · rcases List.mem_cons.mp hother with rfl | hother
            · exact .inl hchild
            · exact (hold other hother).imp_right (List.mem_cons_of_mem _)
      · have hleft : ∀ children, left peersMap (child :: children) = left peersMap children :=
          fun children => by
            rw [left, List.map_cons, List.filter_cons, if_neg hchild]
            rfl
        rw [hleft] at h
        obtain ⟨children', heq', hleft', hold⟩ := ih h hpeers
        refine ⟨child :: children', ?_, ?_, fun other hother => ?_⟩
        · rw [if_neg hchild, heq']
        · rw [hleft, hleft']
        · rcases List.mem_cons.mp hother with rfl | hother
          · exact .inr List.mem_cons_self
          · exact (hold other hother).imp_right (List.mem_cons_of_mem _)

/-! ### Keeping the list up to date -/

/-- The page has its list, and the elements are where they are looked for.
Elements of others are on their way out: those who have `gone`. -/
structure Tidy (nick : Option Int → Option String) (gone : List (Option Int))
    (page : Participants) : Prop where
  named : Named nick page.peersMap
  list : ∃ self children, page.peerId = some self ∧ page.peersOther = some children ∧
    left page.peersMap children = others self (sort cmpPeers page.peersMap) ∧
      ∀ child ∈ children, mapHas child.peerId page.peersMap = true ∨ child.peerId ∈ gone

theorem mapHas_of_mem_sort (h : peer ∈ sort cmpPeers peersMap) :
    mapHas peer.peerId peersMap = true :=
  mapHas_iff.mpr (List.mem_map_of_mem (mem_sort.mp h))

theorem exec_updateParticipants_tidy {gone : List (Option Int)} (hself : page.peerId = some self)
    (hnamed : Named nick page.peersMap) (hchildren : page.peersOther = some children)
    (hleft : (left page.peersMap children).Sublist (others self (sort cmpPeers page.peersMap)))
    (hgone : ∀ child ∈ children, mapHas child.peerId page.peersMap = true ∨ child.peerId ∈ gone) :
    ∃ page', updateParticipants.exec page = (.ok ⟨⟩, page') ∧ page'.peersMap = page.peersMap ∧
      Tidy nick gone page' := by
  let marked := children.map fun child =>
    if mapHas child.peerId page.peersMap then child else removeParticipantElement child
  have hids : marked.map ParticipantElement.peerId = children.map ParticipantElement.peerId := by
    rw [List.map_map]
    refine List.map_congr_left fun child _ => ?_
    show ParticipantElement.peerId (if _ then _ else _) = _
    split
    · rfl
    · rfl
  have hmarked : left page.peersMap marked = left page.peersMap children := by
    rw [left, hids]
    rfl
  obtain ⟨children', heq, hleft', hold⟩ :=
    insertElements_eq (hmarked ▸ hleft) fun peer hpeer => mapHas_of_mem_sort hpeer
  refine ⟨{ page with peersOther := some children' }, ?_, rfl, hnamed,
    self, children', hself, rfl, hleft', fun child hchild => ?_⟩
  · rw [exec_updateParticipants hself, hchildren]
    dsimp only
    rw [heq]
    rfl
  · rcases hold child hchild with hhas | hmem
    · exact .inl hhas
    · rw [hids] at hmem
      obtain ⟨child', hchild', hid⟩ := List.mem_map.mp hmem
      rw [← hid]
      exact hgone child' hchild'

/-- A list that has just been created. -/
theorem exec_updateParticipants_created (page : Participants) (hself : page.peerId = some self)
    (hnamed : Named nick page.peersMap) (hnone : page.peersOther = none) :
    ∃ page', updateParticipants.exec page = (.ok ⟨⟩, page') ∧ page'.peersMap = page.peersMap ∧
      Tidy nick [] page' := by
  let children := newElements self (sort cmpPeers page.peersMap)
  have hexec : updateParticipants.exec page =
      (.ok ⟨⟩, { page with peersOther := some children }) := by
    rw [exec_updateParticipants hself, hnone]
  have hsorted : ∀ peer ∈ sort cmpPeers page.peersMap, mapHas peer.peerId page.peersMap = true :=
    fun peer hpeer => mapHas_of_mem_sort hpeer
  exact ⟨_, hexec, rfl, hnamed, self, children, hself, rfl, left_newElements hsorted,
    fun child hchild => .inl (mapHas_newElements hsorted hchild)⟩

theorem others_sublist (h : peers.Sublist peersMap) :
    (others self peers).Sublist (others self peersMap) :=
  (h.map PeerDto.peerId).filter _

/-- A newcomer, who has not gone before, gets its element. -/
theorem Tidy.joined {gone : List (Option Int)} (h : Tidy nick gone page) (peer : PeerDto)
    (hname : peer.peerName = nick peer.peerId) (hgone : peer.peerId ∉ gone) :
    ∃ page', (peerJoined peer.peerId peer.peerName).exec page = (.ok ⟨⟩, page') ∧
      page'.peersMap = mapSet peer page.peersMap ∧ Tidy nick gone page' := by
  obtain ⟨hnamed, self, children, hself, hchildren, hleft, hold⟩ := h
  unfold peerJoined
  rw [Script.exec_bind, Script.exec_modify]
  refine exec_updateParticipants_tidy hself (hnamed.mapSet hname) hchildren ?_
    fun child hchild => ?_
  · show (left (mapSet peer page.peersMap) children).Sublist
      (others self (sort cmpPeers (mapSet peer page.peersMap)))
    rw [hnamed.mapSet_eq hname]
    split
    · exact hleft ▸ List.Sublist.refl _
    · next hnot =>
      -- nobody's element is that of the newcomer
      have hsame : left (page.peersMap ++ [peer]) children = left page.peersMap children := by
        refine List.filter_congr fun id hid => ?_
        obtain ⟨child, hchild, rfl⟩ := List.mem_map.mp hid
        have hne : peer.peerId ≠ child.peerId := by
          intro heq
          rcases hold child hchild with hhas | hmem
          · exact hnot (heq ▸ hhas)
          · exact hgone (heq ▸ hmem)
        simp [mapHas, hne]
      rw [hsame, hleft, sort_concat]
      exact others_sublist (sublist_insert peer _)
  · refine (hold child hchild).imp_left fun hhas => ?_
    show mapHas child.peerId (mapSet peer page.peersMap) = true
    rw [mapHas_mapSet, hhas]
    rfl

theorem Tidy.left {gone : List (Option Int)} (h : Tidy nick gone page) (peerId : Option Int) :
    ∃ page', (peerLeft peerId).exec page = (.ok ⟨⟩, page') ∧
      page'.peersMap = mapDelete peerId page.peersMap ∧ Tidy nick (peerId :: gone) page' := by
  obtain ⟨hnamed, self, children, hself, hchildren, hleft, hold⟩ := h
  unfold peerLeft
  rw [Script.exec_bind, Script.exec_modify]
  refine exec_updateParticipants_tidy hself (hnamed.mapDelete peerId) hchildren ?_
    fun child hchild => ?_
  · have hsame : Participants.left (mapDelete peerId page.peersMap) children =
        others self (sort cmpPeers (mapDelete peerId page.peersMap)) := by
      rw [mapDelete, sort_filter weak_cmpPeers]
      calc Participants.left (mapDelete peerId page.peersMap) children
          = (Participants.left page.peersMap children).filter fun id => peerId != id := by
            unfold Participants.left
            rw [List.filter_filter]
            refine List.filter_congr fun id _ => ?_
            rw [mapHas_mapDelete, Bool.and_comm]
        _ = others self
          ((sort cmpPeers page.peersMap).filter fun other => other.peerId != peerId) := by
            rw [hleft, others, others, keys, keys, List.filter_filter, List.filter_map,
              List.filter_map, List.filter_filter]
            congr 1
            refine List.filter_congr fun other _ => ?_
            simp only [Function.comp_apply]
            rw [Bool.and_comm, bne_comm (a := peerId)]
    exact hsame ▸ List.Sublist.refl _
  · show mapHas child.peerId (mapDelete peerId page.peersMap) = true ∨ _
    rw [mapHas_mapDelete]
    by_cases heq : peerId = child.peerId
    · exact .inr (heq ▸ List.mem_cons_self)
    · exact (hold child hchild).imp (fun hhas => by simp [hhas, heq]) (List.mem_cons_of_mem _)

/-! ### Notices -/

/-- What a message that is no `CODE_INFO` does to the map. -/
def notice (message : MessageDto) (peersMap : List PeerDto) : List PeerDto :=
  match message.code with
  | some .codePeerJoined =>
      mapSet { peerId := message.peerId, peerName := message.peerName } peersMap
  | some .codePeerLeft => mapDelete message.peerId peersMap
  | _ => peersMap

/-- The same, for one id. -/
def note (id : Option Int) (listed : Bool) (message : MessageDto) : Bool :=
  match message.code with
  | some .codePeerJoined => listed || message.peerId == id
  | some .codePeerLeft => listed && message.peerId != id
  | _ => listed

theorem mapHas_notice :
    mapHas id (notice message peersMap) = note id (mapHas id peersMap) message := by
  unfold notice note
  split
  · exact mapHas_mapSet
  · exact mapHas_mapDelete _
  · rfl

/-- The server says who joined by name, and which files were shared. -/
structure Coherent (nick : Option Int → Option String) (message : MessageDto) : Prop where
  joined : message.code = some .codePeerJoined → message.peerName = nick message.peerId
  files : message.code = some .codePeerMessageFile →
    ∃ files, message.files = some files ∧ none ∉ files

theorem Named.notice (h : Named nick peersMap) (hm : Coherent nick message) :
    Named nick (notice message peersMap) := by
  unfold Participants.notice
  split
  · next hcode => exact h.mapSet (hm.joined hcode)
  · exact h.mapDelete _
  · exact h

theorem exec_postFiles {files : List (Option FileDto)} (hself : page.peerId = some self)
    (hfiles : none ∉ files) : (postFiles files).exec page = (.ok ⟨⟩, page) := by
  induction files with
  | nil => rfl
  | cons file files ih =>
      rcases file with - | file
      · exact absurd List.mem_cons_self hfiles
      · unfold postFiles
        rw [Script.exec_bind, exec_readPeerId, hself]
        exact ih (List.not_mem_of_not_mem_cons hfiles)

/-- The ids of those who have gone after a message. -/
def goneAfter (message : MessageDto) (gone : List (Option Int)) : List (Option Int) :=
  match message.code with
  | some .codePeerLeft => message.peerId :: gone
  | _ => gone

theorem Tidy.onMessage {gone : List (Option Int)} (h : Tidy nick gone page)
    (hm : Coherent nick message) (hcode : message.code ≠ some .codeInfo)
    (hgone : message.code = some .codePeerJoined → message.peerId ∉ gone) :
    ∃ page', (onMessage message).exec page = (.ok ⟨⟩, page') ∧
      page'.peersMap = notice message page.peersMap ∧ Tidy nick (goneAfter message gone) page' := by
  have hself : ∃ self, page.peerId = some self := by
    obtain ⟨-, self, -, hself, -⟩ := h
    exact ⟨self, hself⟩
  obtain ⟨self, hself⟩ := hself
  obtain ⟨peerId, peerName, code, text, timestamp, peers, history, files⟩ := message
  unfold Participants.onMessage notice goneAfter
  rcases code with - | code
  · exact ⟨page, rfl, rfl, h⟩
  cases code with
  | codeInfo => exact absurd rfl hcode
  | codePeerJoined => exact h.joined ⟨peerId, peerName⟩ (hm.joined rfl) (hgone rfl)
  | codePeerLeft => exact h.left peerId
  | codePeerIsTyping =>
      refine ⟨page, ?_, rfl, h⟩
      dsimp only
      rw [Script.exec_bind, exec_readPeerId, hself]
      rfl
  | codePeerMessageFile =>
      obtain ⟨fs, hfs, hnone⟩ := hm.files rfl
      refine ⟨page, ?_, rfl, h⟩
      obtain rfl : files = some fs := hfs
      exact exec_postFiles hself hnone
  | _ => exact ⟨page, rfl, rfl, h⟩

/-! ### Histories -/

/-- A peer that has left does not join again. -/
def InOrder (earlier later : MessageDto) : Prop :=
  earlier.code = some .codePeerLeft → later.code = some .codePeerJoined →
    later.peerId ≠ earlier.peerId

/-- A history as the server sends it. -/
structure Orderly (nick : Option Int → Option String) (messages : List MessageDto) : Prop where
  coherent : ∀ message ∈ messages, Coherent nick message ∧ message.code ≠ some .codeInfo
  inOrder : messages.Pairwise InOrder

theorem replayEntry_some (object : Object MessageDto) :
    replayEntry (some object) = onMessage object.val := by
  obtain ⟨ptr, message⟩ := object
  rw [replayEntry, replayObject]

theorem Tidy.replayEntries {gone : List (Option Int)} (h : Tidy nick gone page)
    {objects : List (Object MessageDto)} (horderly : Orderly nick (objects.map Object.val))
    (hgone : ∀ object ∈ objects, object.val.code = some .codePeerJoined →
      object.val.peerId ∉ gone) :
    ∃ page' gone', (replayEntries (objects.map some)).exec page = (.ok ⟨⟩, page') ∧
      (∀ id, mapHas id page'.peersMap =
        (objects.map Object.val).foldl (note id) (mapHas id page.peersMap)) ∧
        Tidy nick gone' page' := by
  induction objects generalizing page gone with
  | nil => exact ⟨page, gone, rfl, fun _ => rfl, h⟩
  | cons object objects ih =>
      obtain ⟨hcoherent, horder⟩ := horderly
      obtain ⟨hobject, hobjects⟩ := List.forall_mem_cons.mp hcoherent
      obtain ⟨hlater, horder⟩ := List.pairwise_cons.mp horder
      obtain ⟨hgone, hgones⟩ := List.forall_mem_cons.mp hgone
      have hgone' : ∀ later ∈ objects, later.val.code = some .codePeerJoined →
          later.val.peerId ∉ goneAfter object.val gone := by
        intro later hmem hjoined hin
        unfold goneAfter at hin
        split at hin
        · next hleft =>
          rcases List.mem_cons.mp hin with heq | hin
          · exact hlater later.val (List.mem_map_of_mem hmem) hleft hjoined heq
          · exact hgones later hmem hjoined hin
        · exact hgones later hmem hjoined hin
      obtain ⟨page₁, hexec, hmap, htidy⟩ := h.onMessage hobject.1 hobject.2 hgone
      obtain ⟨page₂, gone₂, hexec', hmap', htidy'⟩ := ih htidy ⟨hobjects, horder⟩ hgone'
      refine ⟨page₂, gone₂, ?_, fun id => ?_, htidy'⟩
      · rw [List.map_cons, Participants.replayEntries, Script.exec_bind, replayEntry_some, hexec]
        exact hexec'
      · rw [hmap' id, hmap, mapHas_notice]
        rfl

/-! ### The greeting -/

/-- A `CODE_INFO` as the server sends it. -/
structure Greets (nick : Option Int → Option String) (info : MessageDto) : Prop where
  name : info.peerName = nick info.peerId
  peers : ∃ entries, info.peers = some entries ∧
    ∀ entry ∈ entries, ∃ peer : PeerDto, entry = some peer ∧ peer.peerName = nick peer.peerId
  history : ∀ entries, info.history = some entries →
    ∃ objects : List (Object MessageDto), entries = objects.map some ∧
      Orderly nick (objects.map Object.val)

def introduced (id : Option Int) (info : MessageDto) : Bool :=
  (info.peers.getD []).any fun entry => entry.any fun peer => peer.peerId == id

/-- The messages that a `CODE_INFO` replays. -/
def replayed (info : MessageDto) : List MessageDto :=
  (info.history.getD []).filterMap fun entry => entry.map Object.val

/-- What a message does to the place of an id in the map. -/
def hear (id : Option Int) (listed : Bool) (message : MessageDto) : Bool :=
  match message.code with
  | some .codeInfo =>
      let listed := listed || introduced id message
      if replayed message = [] then listed || message.peerId == id
      else (replayed message).foldl (note id) listed
  | _ => note id listed message

/-- Whether one of the messages is a notice of this kind about this id. -/
def mentions (code : MessageCodes) (id : Option Int) (messages : List MessageDto) : Bool :=
  messages.any fun message => message.code == some code && message.peerId == id

@[simp] theorem mentions_iff {code : MessageCodes} {messages : List MessageDto} :
    mentions code id messages = true ↔
      ∃ message ∈ messages, message.code = some code ∧ message.peerId = id := by
  simp [mentions]

theorem mentions_cons (code : MessageCodes) (messages : List MessageDto) :
    mentions code id (message :: messages) =
      ((message.code == some code && message.peerId == id) || mentions code id messages) := rfl

theorem mentions_append (code : MessageCodes) (id : Option Int)
    (messages messages' : List MessageDto) :
    mentions code id (messages ++ messages') =
      (mentions code id messages || mentions code id messages') :=
  List.any_append

theorem mentions_mono {code : MessageCodes} {messages messages' : List MessageDto}
    (h : mentions code id messages = true) (hsub : messages ⊆ messages') :
    mentions code id messages' = true := by
  obtain ⟨message, hmem, hmessage⟩ := mentions_iff.mp h
  exact mentions_iff.mpr ⟨message, hsub hmem, hmessage⟩

/-- Where nobody leaves, who joins stays. -/
theorem foldl_note_of_not_left {messages : List MessageDto}
    (h : mentions .codePeerLeft id messages = false) (listed : Bool) :
    messages.foldl (note id) listed = (listed || mentions .codePeerJoined id messages) := by
  induction messages generalizing listed with
  | nil => simp [mentions]
  | cons message messages ih =>
      obtain ⟨hmessage, hmessages⟩ := Bool.or_eq_false_iff.mp h
      rw [List.foldl_cons, ih hmessages]
      rw [mentions_cons]
      unfold note
      split
      · next hcode => simp [hcode, Bool.or_assoc]
      · next hcode =>
        have hne : (message.peerId != id) = true := by simpa [hcode] using hmessage
        have hjoined : (message.code == some .codePeerJoined) = false := by
          rw [hcode]
          rfl
        simp [hjoined, hne]
      · next hjoined hleft =>
        have hjoined : (message.code == some .codePeerJoined) = false :=
          beq_eq_false_iff_ne.mpr hjoined
        simp [hjoined]

/-- Who leaves in a history in order is not there in the end. -/
theorem foldl_note_of_left {messages : List MessageDto} (horder : messages.Pairwise InOrder)
    (h : mentions .codePeerLeft id messages = true) (listed : Bool) :
    messages.foldl (note id) listed = false := by
  induction messages generalizing listed with
  | nil => cases h
  | cons message messages ih =>
      obtain ⟨hlater, horder⟩ := List.pairwise_cons.mp horder
      rw [List.foldl_cons]
      rcases hrest : mentions .codePeerLeft id messages with - | -
      · -- the last one to leave; it does not join any more
        obtain ⟨hcode, hid⟩ : message.code = some .codePeerLeft ∧ message.peerId = id := by
          rw [mentions_cons, hrest, Bool.or_false] at h
          simpa using h
        have hjoined : mentions .codePeerJoined id messages = false := by
          rw [Bool.eq_false_iff]
          intro hjoined
          obtain ⟨later, hmem, hcode', hid'⟩ := mentions_iff.mp hjoined
          exact hlater later hmem hcode hcode' (hid'.trans hid.symm)
        rw [foldl_note_of_not_left hrest, hjoined]
        simp [note, hcode, hid]
      · exact ih horder hrest _

theorem hear_of_left (hcode : message.code = some .codeInfo)
    (horder : (replayed message).Pairwise InOrder)
    (h : mentions .codePeerLeft id (replayed message) = true) (listed : Bool) :
    hear id listed message = false := by
  have hne : replayed message ≠ [] := by
    intro hnil
    rw [hnil] at h
    cases h
  simp only [hear, hcode, if_neg hne]
  exact foldl_note_of_left horder h _

theorem hear_of_not_left (hcode : message.code = some .codeInfo)
    (h : mentions .codePeerLeft id (replayed message) = false) (listed : Bool) :
    hear id listed message = true ↔ listed = true ∨ introduced id message = true ∨
      mentions .codePeerJoined id (replayed message) = true ∨
        (replayed message = [] ∧ message.peerId = id) := by
  simp only [hear, hcode]
  split
  · next hnil => simp [hnil, mentions, or_assoc]
  · next hne =>
    rw [foldl_note_of_not_left h]
    simp [hne, or_assoc]

theorem exec_setPeers (page : Participants) {entries : List (Option PeerDto)}
    (h : Named nick page.peersMap)
    (hentries : ∀ entry ∈ entries, ∃ peer : PeerDto, entry = some peer ∧
      peer.peerName = nick peer.peerId) :
    ∃ peersMap, (setPeers entries).exec page = (.ok ⟨⟩, { page with peersMap }) ∧
      Named nick peersMap ∧ ∀ id, mapHas id peersMap =
        (mapHas id page.peersMap ||
          entries.any fun entry => entry.any fun peer => peer.peerId == id) := by
  induction entries generalizing page with
  | nil => exact ⟨page.peersMap, rfl, h, by simp⟩
  | cons entry entries ih =>
      obtain ⟨hentry, hrest⟩ := List.forall_mem_cons.mp hentries
      obtain ⟨peer, rfl, hname⟩ := hentry
      obtain ⟨peersMap, hexec, hnamed, hhas⟩ :=
        ih { page with peersMap := mapSet peer page.peersMap } (h.mapSet hname) hrest
      refine ⟨peersMap, ?_, hnamed, fun id => ?_⟩
      · unfold setPeers
        rw [Script.exec_bind, Script.exec_modify]
        exact hexec
      · rw [hhas id, mapHas_mapSet, List.any_cons, Bool.or_assoc]
        rfl

/-- Handling the first `CODE_INFO` does not throw. -/
theorem exec_info (page : Participants) (hcode : message.code = some .codeInfo)
    (hinfo : Greets nick message)
    (hnamed : Named nick page.peersMap) (hnone : page.peersOther = none) :
    ∃ page' gone, (onMessage message).exec page = (.ok ⟨⟩, page') ∧
      (∀ id, mapHas id page'.peersMap = hear id (mapHas id page.peersMap) message) ∧
        Tidy nick gone page' := by
  obtain ⟨peerId, peerName, code, text, timestamp, peers, history, files⟩ := message
  obtain rfl : code = some .codeInfo := hcode
  obtain ⟨entries, hpeers, hentries⟩ := hinfo.peers
  obtain rfl : peers = some entries := hpeers
  obtain ⟨peersMap, hset, hnamed', hhas⟩ :=
    exec_setPeers { page with peerId := some peerId, peerName } hnamed hentries
  obtain ⟨page₁, hupdate, hmap, htidy⟩ := exec_updateParticipants_created
    { page with peerId := some peerId, peerName, peersMap } rfl hnamed' hnone
  have hwelcome : (welcome peerId peerName (some entries)).exec page = (.ok ⟨⟩, page₁) := by
    unfold welcome
    rw [Script.exec_bind, Script.exec_modify]
    dsimp only
    rw [Script.exec_bind, hset]
    exact hupdate
  have hmessage : ∀ page',
      (replay history (peerJoined peerId peerName)).exec page₁ = (.ok ⟨⟩, page') →
        (onMessage ⟨peerId, peerName, some .codeInfo, text, timestamp, some entries, history,
          files⟩).exec page = (.ok ⟨⟩, page') := by
    intro page' hreplay
    unfold onMessage
    dsimp only
    rw [Script.exec_bind, hwelcome]
    exact hreplay
  -- without a history the page makes its own notice
  have hown : ∃ page', (peerJoined peerId peerName).exec page₁ = (.ok ⟨⟩, page') ∧
      (∀ id, mapHas id page'.peersMap = (mapHas id peersMap || peerId == id)) ∧
        Tidy nick [] page' := by
    obtain ⟨page', hexec, hmap', htidy'⟩ :=
      htidy.joined ⟨peerId, peerName⟩ hinfo.name (List.not_mem_nil)
    refine ⟨page', hexec, fun id => ?_, htidy'⟩
    rw [hmap', hmap, mapHas_mapSet]
  rcases history with - | history
  · obtain ⟨page', hexec, hhas', htidy'⟩ := hown
    refine ⟨page', [], hmessage page' hexec, fun id => ?_, htidy'⟩
    rw [hhas', hhas]
    rfl
  obtain ⟨objects, rfl, horderly⟩ := hinfo.history _ rfl
  rcases objects with - | ⟨object, objects⟩
  · obtain ⟨page', hexec, hhas', htidy'⟩ := hown
    refine ⟨page', [], hmessage page' hexec, fun id => ?_, htidy'⟩
    rw [hhas', hhas]
    rfl
  · obtain ⟨page', gone, hexec, hhas', htidy'⟩ := htidy.replayEntries horderly (by simp)
    refine ⟨page', gone, hmessage page' hexec, fun id => ?_, htidy'⟩
    rw [hhas', hmap, hhas]
    simp [hear, replayed, introduced]

/-! ### All messages -/

theorem updateParticipants_peersMap (page : Participants) :
    (updateParticipants.exec page).2.peersMap = page.peersMap := by
  rcases hself : page.peerId with - | self
  · rw [exec_updateParticipants_none hself]
  · rw [exec_updateParticipants hself]
    split
    · rfl
    · rfl

theorem exec_postSharedFile (files : Option (List (Option FileDto))) (page : Participants) :
    ((postSharedFile files).exec page).2 = page := by
  rcases files with - | files
  · rfl
  induction files with
  | nil => rfl
  | cons file files ih =>
      rcases file with - | file
      · rfl
      · show ((postFiles (some file :: files)).exec page).2 = page
        unfold postFiles
        rw [Script.exec_bind, exec_readPeerId]
        rcases page.peerId with - | self
        · rfl
        · exact ih

/-- As long as there is no list, nothing makes one but `CODE_INFO`. -/
def Blank (page : Participants) : Prop := page.peerId = none ∧ page.peersOther = none

/-- A message that is no `CODE_INFO`, whether its handling throws or not. -/
theorem exec_onMessage (hcode : message.code ≠ some .codeInfo) (page : Participants) :
    ((onMessage message).exec page).2.peersMap = notice message page.peersMap ∧
      (Blank page → Blank ((onMessage message).exec page).2) := by
  have hupdate : ∀ peersMap, Blank page →
      Blank (updateParticipants.exec { page with peersMap }).2 := by
    intro peersMap hblank
    rw [@exec_updateParticipants_none { page with peersMap } hblank.1]
    exact hblank
  obtain ⟨peerId, peerName, code, text, timestamp, peers, history, files⟩ := message
  unfold onMessage notice
  rcases code with - | code
  · exact ⟨rfl, id⟩
  cases code with
  | codeInfo => exact absurd rfl hcode
  | codePeerJoined => exact ⟨updateParticipants_peersMap _, hupdate _⟩
  | codePeerLeft => exact ⟨updateParticipants_peersMap _, hupdate _⟩
  | codePeerIsTyping =>
      have hexec : ((do let _ ← readPeerId : Script Unit).exec page).2 = page := by
        rw [Script.exec_bind, exec_readPeerId]
        rcases page.peerId with - | self
        · rfl
        · rfl
      dsimp only
      rw [hexec]
      exact ⟨rfl, id⟩
  | codePeerMessageFile =>
      dsimp only
      rw [exec_postSharedFile]
      exact ⟨rfl, id⟩
  | _ => exact ⟨rfl, id⟩

/-- What the server may send to a page. -/
structure WellFormed (nick : Option Int → Option String) (message : MessageDto) : Prop where
  coherent : Coherent nick message
  greets : message.code = some .codeInfo → Greets nick message

/-- One `CODE_INFO` at most. -/
def InfoOnce (messages : List MessageDto) : Prop :=
  messages.Pairwise fun earlier later =>
    earlier.code = some .codeInfo → later.code ≠ some .codeInfo

theorem received_concat (occurrences : List Occurrence) (occurrence : Occurrence) :
    received (occurrences ++ [occurrence]) =
      received occurrences ++ occurrence.message?.toList := by
  rw [received, List.filterMap_append]
  cases occurrence <;> rfl

theorem received_onmessage (messages : List MessageDto) :
    received (messages.map .onmessage) = messages := by
  rw [received, List.filterMap_map]
  exact List.filterMap_some

/-- The map after all messages, whenever the transitions end. -/
theorem mapHas_afterAll {occurrences : List Occurrence}
    (hformed : ∀ message ∈ received occurrences, WellFormed nick message)
    (honce : InfoOnce (received occurrences)) (id : Option Int) :
    mapHas id (afterAll occurrences {}).peersMap =
      (received occurrences).foldl (hear id) false := by
  refine (?_ : Named nick (afterAll occurrences {}).peersMap ∧
    ((∀ message ∈ received occurrences, message.code ≠ some .codeInfo) →
      Blank (afterAll occurrences {})) ∧ _).2.2
  induction occurrences using List.reverseRecOn with
  | nil => exact ⟨.nil, fun _ => ⟨rfl, rfl⟩, rfl⟩
  | append_singleton occurrences occurrence ih =>
      have hafter : afterAll (occurrences ++ [occurrence]) {} =
          ((handle occurrence).exec (afterAll occurrences {})).2 := by
        rw [afterAll, List.foldl_append]
        rfl
      rw [received_concat] at hformed honce ⊢
      rw [hafter]
      obtain ⟨hnamed, hblank, hhas⟩ := ih
        (fun message hmem => hformed message (List.mem_append_left _ hmem))
        (List.pairwise_append.mp honce).1
      cases occurrence with
      | transitionend i =>
          simp only [Occurrence.message?, Option.toList_none, List.append_nil]
          refine ⟨hnamed, fun hnone => ?_, hhas⟩
          obtain ⟨hself, hother⟩ := hblank hnone
          refine ⟨hself, ?_⟩
          show Option.map _ (afterAll occurrences {}).peersOther = none
          rw [hother]
          rfl
      | onmessage message =>
          obtain ⟨hcoherent, hgreets⟩ := hformed message (by simp [Occurrence.message?])
          have hfold :
              (received occurrences ++ (Occurrence.onmessage message).message?.toList).foldl
              (hear id) false = hear id (mapHas id (afterAll occurrences {}).peersMap) message := by
            rw [hhas, List.foldl_append]
            rfl
          rw [hfold]
          by_cases hcode : message.code = some .codeInfo
          · -- nothing has made a list yet
            have hnone : ∀ m ∈ received occurrences, m.code ≠ some .codeInfo := by
              intro m hmem hm
              exact (List.pairwise_append.mp honce).2.2 m hmem message
                (by simp [Occurrence.message?]) hm hcode
            obtain ⟨page', gone, hexec, hhas', htidy⟩ :=
              exec_info _ hcode (hgreets hcode) hnamed (hblank hnone).2
            have hhandle :
                ((handle (.onmessage message)).exec (afterAll occurrences {})).2 = page' :=
              congrArg Prod.snd hexec
            rw [hhandle]
            refine ⟨htidy.named, fun hnot => absurd hcode (hnot message ?_), hhas' id⟩
            simp [Occurrence.message?]
          · obtain ⟨hmap, hstays⟩ := exec_onMessage hcode (afterAll occurrences {})
            refine ⟨?_, fun hnone => hstays (hblank fun m hmem => hnone m ?_), ?_⟩
            · show Named nick ((onMessage message).exec _).2.peersMap
              rw [hmap]
              exact hnamed.notice hcoherent
            · exact List.mem_append_left _ hmem
            · show mapHas id ((onMessage message).exec _).2.peersMap = _
              rw [hmap, mapHas_notice]
              unfold hear
              split
              · next h => exact absurd h hcode
              · rfl

end Participants

end CanChat
