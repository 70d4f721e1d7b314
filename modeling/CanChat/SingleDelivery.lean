/-
CanChat/SingleDelivery.lean

How often a peer gets a post: as a broadcast, and in the history of its
`CODE_INFO`.

A newcomer is a member before it reads the history, so a post may reach it both
ways: when the post is in the history that it reads, and is broadcast while it
is a member.  `Apart` is the condition that this does not happen.  Under it
what a newcomer reads and what it is sent are disjoint (`readOrSent`), and
nobody gets a post twice (`delivered_once`).
-/
import CanChat.DeliveryOrder

namespace CanChat

namespace Chat

open EventLog

/-! ### Copies -/

/-- How often an object is in a history. -/
def copiesIn (ptr : ℕ) (history : Option (List (Option (Object MessageDto)))) : ℕ :=
  (history.getD []).countP fun entry => entry.any fun object => object.ptr == ptr

/-- The copies of an object that a peer gets with an event: the object itself,
or those in the history of a `CODE_INFO`. -/
def Event.copies (p : PeerRef) (ptr : ℕ) : Event → ℕ
  | .sent q message =>
      if q = p then
        (if message.ptr = ptr then 1 else 0) +
          if message.val.code = some .codeInfo then copiesIn ptr message.val.history else 0
      else 0
  | _ => 0

/-- How often a peer has got an object. -/
def copies (p : PeerRef) (ptr : ℕ) (log : List Event) : ℕ :=
  (log.map (Event.copies p ptr)).sum

/-- A peer has read a history with the message in it. -/
def HasRead (p : PeerRef) (message : Object MessageDto) (log : List Event) : Prop :=
  ∃ ρ history, .snapshot ρ p (some history) ∈ log ∧ some message ∈ history

/-- The two ways in which a post reaches a newcomer are kept apart: no post in
the history that it reads has been broadcast since it was added, and no post is
broadcast to a member that has read it. -/
def Apart (v : Scene) (k : SocketRef) : Prop :=
  match (v.sockets k).stage with
  | .getHistory p _ => ∀ m ∈ v.directory.history (v.directory.peerRoom p), IsPost m.val →
      ∀ past, .broadcast (v.directory.peerRoom p) m :: past <:+ v.log →
        .added (v.directory.peerRoom p) p ∉ past
  | .broadcast _ p m => IsPost m.val →
      ∀ id q, v.directory.member (v.directory.peerRoom p) id = some q → ¬ HasRead q m v.log
  | _ => True

/-- `Apart`, for members and others alike, and looking at nothing but the identity
of objects. -/
def apart (v : Scene) (k : SocketRef) : Bool :=
  match (v.sockets k).stage with
  | .getHistory p _ =>
      let since := v.log.takeWhile fun e => match e with
        | .added _ q => q != p
        | _ => true
      since.all fun e => match e with
        | .broadcast _ m => !IsPost m.val
        | _ => true
  | .broadcast _ _ m => !IsPost m.val || v.log.all fun e =>
      match e with
      | .snapshot _ _ (some history) => history.all fun entry => entry.all fun m' => m'.ptr != m.ptr
      | _ => true
  | _ => true

theorem copiesIn_le_one {ptr : ℕ} {history : List (Object MessageDto)}
    (h : (history.map Object.ptr).Nodup) : copiesIn ptr (some (history.map some)) ≤ 1 := by
  have hcount : copiesIn ptr (some (history.map some)) = (history.map Object.ptr).count ptr := by
    simp only [copiesIn, Option.getD_some, List.count, List.countP_map]
    rfl
  rw [hcount]
  exact List.nodup_iff_count_le_one.mp h ptr

theorem exists_of_copiesIn {ptr : ℕ} {history : Option (List (Option (Object MessageDto)))}
    (h : copiesIn ptr history ≠ 0) :
    ∃ entries message, history = some entries ∧ some message ∈ entries ∧ message.ptr = ptr := by
  rcases history with - | entries
  · simp [copiesIn] at h
  · have hpos : 0 < copiesIn ptr (some entries) := Nat.pos_of_ne_zero h
    obtain ⟨entry, hentry, hany⟩ := List.countP_pos_iff.mp hpos
    rcases entry with - | message
    · simp at hany
    · exact ⟨entries, message, rfl, hentry, by simpa using hany⟩

/-- No object is recorded twice. -/
theorem nodup_recordedIn {log : List Event} (honce : Justified Once log) (ρ : RoomRef) :
    ((recordedIn ρ log).map Object.ptr).Nodup := by
  induction log with
  | nil => simp [recordedIn]
  | cons e log ih =>
      have ih := ih (honce.of_past List.suffix_rfl)
      rw [recordedIn, List.filterMap_cons]
      split
      · exact ih
      · next message hmessage =>
        have he : e = .recorded ρ message := by
          cases e with
          | recorded ρ' m =>
              simp only [Event.recordedIn?, Option.ite_none_right_eq_some, Option.some.injEq]
                at hmessage
              rw [hmessage.1, hmessage.2]
          | _ => cases hmessage
        subst he
        refine List.nodup_cons.mpr ⟨fun hmem => ?_, ih⟩
        obtain ⟨m, hm, hptr⟩ := List.mem_map.mp hmem
        exact honce _ _ List.suffix_rfl _ (mem_recordedIn.mp hm) m rfl hptr

/-- What a peer has read it is not sent as well. -/
def ReadOrSent (log : List Event) : Prop :=
  ∀ p m, IsPost m.val → HasRead p m log → .sent p m ∉ log

/-- A step that reads no history, and sends no post that has been read. -/
theorem ReadOrSent.append {log : List Event} (h : ReadOrSent log) (events : List Event)
    (hread : ∀ ρ p history, .snapshot ρ p history ∉ events)
    (hsent : ∀ p m, .sent p m ∈ events → IsPost m.val → ¬ HasRead p m log) :
    ReadOrSent (events ++ log) := by
  rintro p m hpost ⟨ρ, history, hsnapshot, hm⟩ hmem
  have hold : HasRead p m log := by
    rcases List.mem_append.mp hsnapshot with hsnapshot | hsnapshot
    · exact absurd hsnapshot (hread ρ p _)
    · exact ⟨ρ, history, hsnapshot, hm⟩
  rcases List.mem_append.mp hmem with hmem | hmem
  · exact hsent p m hmem hpost hold
  · exact h p m hpost hold hmem

end Chat

namespace Traffic

open Chat EventLog

variable {fw : Framework} {config : ConfigDto} {s : State}

theorem apart_sound (hs : (system fw config).Reachable s) (k : SocketRef)
    (h : apart s.chat.scene k = true) : Apart s.chat.scene k := by
  unfold apart at h
  unfold Apart
  split at h
  · next p peers hk =>
    intro m hm hpost past hpast hadded
    -- the peer is added once, so the broadcast is among what has happened since
    obtain ⟨newer, hnewer⟩ := hpast
    have hsince : ∀ e ∈ newer, (match e with
        | .added _ q => q != p
        | _ => true) = true := by
      intro e he
      cases e with
      | added ρ q =>
          simp only [bne_iff_ne, ne_eq]
          rintro rfl
          obtain ⟨between, past', rfl⟩ := List.append_of_mem he
          have hlog : .added ρ q :: (past' ++ .broadcast (s.chat.scene.directory.peerRoom q) m ::
              past) <:+ s.chat.scene.log := by
            rw [← hnewer]
            simp
          exact (exact hs).justified _ _ hlog (s.chat.scene.directory.peerRoom q) (by simp [hadded])
      | _ => rfl
    rw [← hnewer, List.takeWhile_append_of_pos hsince, List.takeWhile_cons_of_pos rfl] at h
    have hm' := List.all_eq_true.mp h (.broadcast (s.chat.scene.directory.peerRoom p) m) (by simp)
    simp [hpost] at hm'
  · next purpose p m hk =>
    rintro hpost id q - ⟨ρ, history, hsnapshot, hm⟩
    simp only [hpost, decide_true, Bool.not_true, Bool.false_or, List.all_eq_true] at h
    have hread := h _ hsnapshot
    simp only [List.all_eq_true] at hread
    simpa using hread _ hm
  · trivial

theorem readOrSent (hs : (system fw config).ReachableVia (Via Apart) s) :
    ReadOrSent s.chat.log := by
  refine scene_invariant (I := fun v => ReadOrSent v.log) (fun clock => ?_)
    (fun s b v hs h hvia hb => ?_) (fun s σ subscriber dto _ h _ hcode => ?_) hs
  · simp [ReadOrSent, Chat.State.scene, Chat.State.view]
  · cases hb with
    | @broadcast k purpose p m qs hk hqs hnodup =>
        have hapart := hvia k rfl
        unfold Apart at hapart
        rw [hk] at hapart
        refine h.append (_ :: _) (by simp) fun q m' hm' hpost => ?_
        have hm' : q ∈ qs ∧ m = m' := by simpa using hm'
        obtain ⟨hq, rfl⟩ := hm'
        obtain ⟨id, hmember⟩ := (hqs q).mp hq
        exact hapart hpost id q hmember
    | @sendInfo k p info hk =>
        have htraced := (traced hs).stage k
        rw [hk] at htraced
        refine h.append [_, _] (by simp) fun q m' hm' hpost => ?_
        have hm' : q = p ∧ m' = info := by simpa using hm'
        obtain ⟨-, rfl⟩ := hm'
        exact absurd htraced.2.1 hpost.code_ne.1
    | @getHistory k p peers info hk hinfo =>
        have hapart := hvia k rfl
        unfold Apart at hapart
        rw [hk] at hapart
        rintro q m hpost ⟨ρ, history, hsnapshot, hm⟩ hsent
        have hold : .sent q m ∈ s.chat.scene.log := by simpa using hsent
        rcases List.mem_cons.mp hsnapshot with heq | hsnapshot
        · -- what is read now has not been sent
          obtain ⟨rfl, rfl, hhistory⟩ := Event.snapshot.inj heq
          have hm : m ∈ s.chat.scene.directory.history (s.chat.scene.directory.peerRoom q) := by
            unfold Directory.getHistory at hhistory
            split at hhistory
            · cases hhistory
            · obtain rfl := Option.some.inj hhistory
              simpa using hm
          rcases (distinct hs).sent q m hold with hcode | hcode | ⟨ρ, past, hpast, hadded, -⟩
          · exact hpost.code_ne.1 hcode
          · exact hpost.code_ne.2.1 hcode
          · obtain ⟨-, rfl, -⟩ := (sound hs).added ρ q (mem_of_past hpast hadded)
            exact hapart m hm hpost past hpast hadded
        · exact h q m hpost ⟨ρ, history, hsnapshot, hm⟩ hold
    | connect | other => exact h
    | record | addPeer | removePeerById =>
        exact h.append [_] (by simp) (by simp)
    | _ => exact h
  · refine h.append [_] (by simp) fun q m hm hpost => ?_
    obtain ⟨-, rfl⟩ := Event.sent.inj (List.mem_singleton.mp hm)
    exact absurd hcode hpost.code_ne.2.1

/-- What is in a history that has been read. -/
theorem hasRead_of_copiesIn (hs : (system fw config).Reachable s) {ρ ρ' : RoomRef}
    {m : Object MessageDto} (hrecorded : .recorded ρ m ∈ s.chat.log) {p : PeerRef}
    {history : Option (List (Option (Object MessageDto)))}
    (hsnapshot : .snapshot ρ' p history ∈ s.chat.log) :
    copiesIn m.ptr history ≤ 1 ∧ (copiesIn m.ptr history ≠ 0 → HasRead p m s.chat.log) := by
  have honce := (distinct hs).justified
  obtain ⟨past, hpast⟩ := exists_past hsnapshot
  obtain ⟨-, hhistory⟩ := (accounted hs).justified _ _ hpast
  split at hhistory
  · subst hhistory
    simp [copiesIn]
  · subst hhistory
    have honcePast := honce.of_past hpast
    refine ⟨copiesIn_le_one ?_, fun hne => ?_⟩
    · rw [historyAfter, List.map_reverse, List.nodup_reverse, List.map_take]
      exact (nodup_recordedIn honcePast ρ').sublist (List.take_sublist _ _)
    · obtain ⟨entries, message, hentries, hmem, hptr⟩ := exists_of_copiesIn hne
      obtain rfl := Option.some.inj hentries
      have hmessage : message ∈ historyAfter config ρ' past := by simpa using hmem
      have hin : .recorded ρ' message ∈ s.chat.log := by
        rw [historyAfter, List.mem_reverse] at hmessage
        exact mem_of_past hpast (mem_recordedIn.mp (List.mem_of_mem_take hmessage))
      have heq := (distinct hs).recorded_event ρ m hrecorded _ hin message rfl hptr
      have hmessage : message = m := by
        rcases heq with heq | heq | ⟨_, heq⟩
        · exact (Event.recorded.inj heq).2
        · cases heq
        · cases heq
      subst hmessage
      exact ⟨ρ', _, hsnapshot, hmem⟩

/-- **No message is delivered twice.**  In a run in which the two ways of a post
are kept apart, no peer gets a post twice: as broadcasts, in the histories of
`CODE_INFO`s, or once each way. -/
theorem delivered_once (hs : (system fw config).ReachableVia (Via Apart) s) {ρ : RoomRef}
    {m : Object MessageDto} (hpost : IsPost m.val) (hrecorded : .recorded ρ m ∈ s.chat.log)
    (p : PeerRef) : copies p m.ptr s.chat.log ≤ 1 := by
  have hreach := hs.reachable
  have honce := (distinct hreach).justified
  -- an event that counts is the post itself, or a `CODE_INFO` with it
  have hcopies : ∀ e ∈ s.chat.log, Event.copies p m.ptr e ≠ 0 → Event.copies p m.ptr e = 1 ∧
      (e = .sent p m ∨ (∃ info, e = .sent p info ∧ info.val.code = some .codeInfo) ∧
        HasRead p m s.chat.log) := by
    intro e he hne
    cases e with
    | sent q message =>
        simp only [Event.copies] at hne ⊢
        rcases eq_or_ne q p with rfl | hq
        · rw [if_pos rfl] at hne ⊢
          rcases eq_or_ne message.ptr m.ptr with hptr | hptr
          · have hmessage : message = m := by
              rcases (distinct hreach).recorded_event ρ m hrecorded _ he message rfl hptr with
                heq | heq | ⟨_, heq⟩
              · cases heq
              · cases heq
              · exact (Event.sent.inj heq).2
            subst hmessage
            simp [hpost.code_ne.1]
          · rw [if_neg hptr, Nat.zero_add] at hne ⊢
            by_cases hcode : message.val.code = some .codeInfo
            · rw [if_pos hcode] at hne ⊢
              obtain ⟨-, -, hsnapshot⟩ := (traced hreach).event _ he hcode
              obtain ⟨hle, hread⟩ := hasRead_of_copiesIn hreach hrecorded hsnapshot
              refine ⟨?_, .inr ⟨⟨message, rfl, hcode⟩, hread hne⟩⟩
              omega
            · exact absurd (if_neg hcode) hne
        · exact absurd (if_neg hq) hne
    | _ => exact absurd rfl hne
  have hread := readOrSent hs p m hpost
  refine sum_le_one fun e past hpast hne => ?_
  have he : e ∈ s.chat.log := hpast.subset List.mem_cons_self
  obtain ⟨hone, hcase⟩ := hcopies e he hne
  refine ⟨hone, fun a ha => by_contra fun ha' => ?_⟩
  obtain ⟨-, hcase'⟩ := hcopies a (mem_of_past hpast ha) ha'
  rcases hcase with rfl | ⟨⟨info, rfl, hcode⟩, hm⟩ <;>
    rcases hcase' with rfl | ⟨⟨info', rfl, hcode'⟩, hm'⟩
  · exact (honce _ _ hpast _ ha).1 rfl
  · exact hread hm' he
  · exact hread hm (mem_of_past hpast ha)
  · exact (honce _ _ hpast _ ha).2 hcode hcode'

/-- Ann posts something, and Bob joins after some of the two calls that takes. -/
def postAndJoin (before after : ℕ) : List Act :=
  .chat (.connect 0 "lounge" "Ann") :: List.replicate 8 (.chat (.run 0)) ++
    [.chat (.receive 0 { code := some .codePeerMessage, message := some "a" })] ++
    List.replicate before (.chat (.run 0)) ++
    .chat (.connect 1 "lounge" "Bob") :: List.replicate 8 (.chat (.run 1)) ++
    List.replicate after (.chat (.run 0))

/-- Bob joins when Ann has finished, and has the post from the history. -/
theorem delivered_once_postAndJoin : ∃ (s : State) (m : Object MessageDto),
    (system Chat.silent {}).run {} (postAndJoin 2 0) = some s ∧ m.val.message = some "a" ∧
      (∃ info, .sent 1 info ∈ s.chat.log ∧ copiesIn m.ptr info.val.history = 1) ∧
        copies 1 m.ptr s.chat.log ≤ 1 := by
  obtain ⟨s, m, info, hrun, hrecorded, hinfo, htext, hpost, hcopies⟩ :
      ∃ (s : State) (m info : Object MessageDto),
        (system Chat.silent {}).run {} (postAndJoin 2 0) = some s ∧
          s.chat.log[9]? = some (.recorded 0 m) ∧ s.chat.log[1]? = some (.sent 1 info) ∧
            m.val.message = some "a" ∧ IsPost m.val ∧ copiesIn m.ptr info.val.history = 1 :=
    ⟨_, _, _, rfl, rfl, rfl, rfl, .inl rfl, by decide⟩
  have hvia : (system Chat.silent {}).ReachableVia (Via Apart) s :=
    via_of_checked (fun _ k hs => apart_sound hs k) (.run (.init ⟨_, rfl⟩) (by decide) hrun)
  exact ⟨s, m, hrun, htext, ⟨info, List.mem_of_getElem? hinfo, hcopies⟩,
    delivered_once hvia hpost (List.mem_of_getElem? hrecorded) 1⟩

/-- Bob joins when Ann's post has been recorded and not yet broadcast. -/
theorem delivered_twice : ∃ (s : State) (m : Object MessageDto),
    (system Chat.silent {}).run {} (postAndJoin 1 1) = some s ∧ IsPost m.val ∧
      .recorded 0 m ∈ s.chat.log ∧ ¬ copies 1 m.ptr s.chat.log ≤ 1 := by
  obtain ⟨s, m, hrun, hrecorded, hpost, hcopies⟩ : ∃ (s : State) (m : Object MessageDto),
      (system Chat.silent {}).run {} (postAndJoin 1 1) = some s ∧
        s.chat.log[10]? = some (.recorded 0 m) ∧ IsPost m.val ∧ copies 1 m.ptr s.chat.log = 2 :=
    ⟨_, _, rfl, rfl, .inl rfl, by decide⟩
  exact ⟨s, m, hrun, hpost, List.mem_of_getElem? hrecorded, by omega⟩

end Traffic

end CanChat
