/-
CanChat/DeliveryOrder.lean

In what order posts are recorded, and in what order members are sent them.

A post is recorded with one call and broadcast with another, so a post may be
overtaken between the two, and those who see both posts see them in an order
that is not the order of the history.  `InTurn` is the condition that no
post is overtaken.  Under it what is broadcast follows what was recorded
(`follows`), and the two orders agree (`order_agrees`).
-/
import CanChat.Presence

namespace CanChat

namespace Chat

open EventLog

/-- A chat message, or a message about shared files. -/
def IsPost (message : MessageDto) : Prop :=
  message.code = some .codePeerMessage ∨ message.code = some .codePeerMessageFile

instance : DecidablePred IsPost := fun message =>
  inferInstanceAs (Decidable (message.code = _ ∨ message.code = _))

theorem IsPost.code_ne {message : MessageDto} (h : IsPost message) :
    message.code ≠ some .codeInfo ∧ message.code ≠ some .codeFileRequestChunk ∧
      message.code ≠ some .codePeerIsTyping := by
  rcases h with h | h <;> simp [h]

/-- The first message was recorded in the room before the second. -/
def RecordedBefore (ρ : RoomRef) (m₁ m₂ : Object MessageDto) (log : List Event) : Prop :=
  ∃ past, .recorded ρ m₂ :: past <:+ log ∧ .recorded ρ m₁ ∈ past

def SentBefore (p : PeerRef) (m₁ m₂ : Object MessageDto) (log : List Event) : Prop :=
  ∃ past, .sent p m₂ :: past <:+ log ∧ .sent p m₁ ∈ past

/-- A post that is about to be broadcast has not been overtaken: every post
recorded in the room before it has been broadcast. -/
def InTurn (v : Scene) (k : SocketRef) : Prop :=
  ∀ purpose p m, (v.sockets k).stage = .broadcast purpose p m → IsPost m.val →
    ∀ m', IsPost m'.val → RecordedBefore (v.directory.peerRoom p) m' m v.log →
      .broadcast (v.directory.peerRoom p) m' ∈ v.log

/-- `InTurn`, looking at nothing but the identity of objects. -/
def inTurn (v : Scene) (k : SocketRef) : Bool :=
  match (v.sockets k).stage with
  | .broadcast _ p m => !IsPost m.val || (recordedIn (v.directory.peerRoom p) v.log).all fun m' =>
      !IsPost m'.val || m'.ptr == m.ptr || v.log.any fun e =>
        match e with
        | .broadcast _ m'' => m''.ptr == m'.ptr
        | _ => false
  | _ => true

/-- What is sent is in turn. -/
def Follows : Event → List Event → Prop
  | .sent _ m, past => IsPost m.val → ∀ ρ m', IsPost m'.val → RecordedBefore ρ m' m past →
      .broadcast ρ m' ∈ past
  | _, _ => True

/-! ### Events about one object -/

section Once

variable {log : List Event} {ρ ρ' : RoomRef} {m m' : Object MessageDto} {p : PeerRef}
  {past past' : List Event}

/-- An object is recorded before it is sent. -/
theorem recorded_past (honce : Justified Once log) (hrecorded : .recorded ρ m :: past <:+ log)
    (hsent : .sent p m :: past' <:+ log) : .recorded ρ m :: past <:+ past' := by
  rcases past_or_past hrecorded hsent (by simp) with h | h
  · exact absurd rfl (honce _ _ hrecorded _ (h.subset List.mem_cons_self) m rfl)
  · exact h

theorem broadcast_unique (honce : Justified Once log) (h : .broadcast ρ m :: past <:+ log)
    (h' : .broadcast ρ' m :: past' <:+ log) : ρ = ρ' ∧ past = past' := by
  rcases eq_or_past h h' with ⟨heq, hpast⟩ | h₁ | h₁
  · exact ⟨(Event.broadcast.inj heq).1, hpast⟩
  · exact absurd rfl (honce _ _ h _ _ (h₁.subset List.mem_cons_self))
  · exact absurd rfl (honce _ _ h' _ _ (h₁.subset List.mem_cons_self))

/-- Nobody is sent two messages in both orders. -/
theorem SentBefore.asymm (honce : Justified Once log) (h : SentBefore p m m' log) :
    ¬ SentBefore p m' m log := by
  rintro ⟨past', hpast', hmem'⟩
  obtain ⟨past, hpast, hmem⟩ := h
  obtain ⟨earlier, hearlier⟩ := exists_past hmem
  have hlog : .sent p m :: earlier <:+ log :=
    hearlier.trans ((List.suffix_cons _ _).trans hpast)
  rcases eq_or_past hlog hpast' with ⟨-, rfl⟩ | h₁ | h₁
  · have hm' : .sent p m' ∈ past := mem_of_past hearlier hmem'
    exact absurd rfl (honce _ _ hpast _ hm').1
  · exact absurd rfl (honce _ _ hlog _ (h₁.subset List.mem_cons_self)).1
  · exact absurd rfl (honce _ _ hpast' _ (h₁.subset List.mem_cons_self)).1

end Once

end Chat

namespace Traffic

open Chat EventLog

variable {fw : Framework} {config : ConfigDto} {s : State}

theorem inTurn_sound (hs : (system fw config).Reachable s) (k : SocketRef)
    (h : inTurn s.chat.scene k = true) : InTurn s.chat.scene k := by
  rintro purpose p m hk hpost m' hpost' ⟨past, hpast, hmem⟩
  have hdistinct := distinct hs
  have hrecorded : .recorded (s.chat.scene.directory.peerRoom p) m' ∈ s.chat.scene.log :=
    mem_of_past hpast hmem
  unfold inTurn at h
  rw [hk] at h
  simp only [hpost, decide_true, Bool.not_true, Bool.false_or, List.all_eq_true] at h
  have hm' := h m' (mem_recordedIn.mpr hrecorded)
  simp only [hpost', decide_true, Bool.not_true, Bool.false_or, Bool.or_eq_true, beq_iff_eq,
    List.any_eq_true] at hm'
  rcases hm' with hptr | ⟨e, he, hptr⟩
  · exact absurd hptr (hdistinct.justified _ _ hpast _ hmem m' rfl)
  · cases e with
    | broadcast ρ m'' =>
        have heq := hdistinct.recorded_event _ m' hrecorded _ he m'' rfl (by simpa using hptr)
        rcases heq with heq | heq | ⟨_, heq⟩
        · cases heq
        · rwa [← heq]
        · cases heq
    | _ => cases hptr

/-- What members are sent of a post follows what was recorded. -/
theorem follows (hs : (system fw config).ReachableVia (Via InTurn) s) :
    Justified Follows s.chat.log := by
  refine scene_invariant (I := fun v => Justified Follows v.log) (fun clock => justified_nil)
    (fun s b v hs h hvia hb => ?_) (fun s σ subscriber dto _ h _ hcode => ?_) hs
  · obtain ⟨events, hlog, hsends⟩ := hb.sends
    rw [hlog]
    cases hsends with
    | nothing hnone =>
        refine h.append fun e he past => ?_
        cases e with
        | sent q m => exact absurd he (hnone q m)
        | _ => trivial
    | @broadcast k purpose p m qs hk hqs =>
        have hhand : m ∈ (s.chat.scene.sockets k).stage.inHand := by
          rw [hk]
          rfl
        have hsends : ∀ qs : List PeerRef,
            Justified Follows ((qs.map fun q => .sent q m) ++ s.chat.scene.log) := by
          intro qs
          induction qs with
          | nil => exact h
          | cons q qs ih =>
              refine ih.cons fun hpost ρ m' hpost' hbefore => ?_
              obtain ⟨past, hpast, hmem⟩ := hbefore
              have hpast := past_of_append hpast (by simp)
              obtain ⟨_, _, hk', rfl⟩ := (distinct hs).recorded_inHand ρ m
                (hpast.subset List.mem_cons_self) k m hhand rfl
              obtain ⟨-, rfl, -⟩ := Stage.broadcast.inj (hk.symm.trans hk')
              exact List.mem_append_right _ (hvia k rfl purpose p m hk hpost m' hpost'
                ⟨past, hpast, hmem⟩)
        exact (hsends qs).cons trivial
    | @info k p info hk =>
        have htraced := (traced hs).stage k
        rw [hk] at htraced
        have hsent : Justified Follows (.sent p info :: s.chat.scene.log) :=
          h.cons fun hpost => absurd htraced.2.1 hpost.code_ne.1
        exact hsent.cons trivial
  · refine h.cons fun hpost => ?_
    exact absurd hcode hpost.code_ne.2.1

/-- The history tells what members were sent: under the condition, a post that
was recorded before another was sent before it to everybody who was present
when they were broadcast. -/
theorem sent_in_order (hs : (system fw config).ReachableVia (Via InTurn) s) {ρ : RoomRef}
    {m₁ m₂ : Object MessageDto} (hpost₁ : IsPost m₁.val) (hpost₂ : IsPost m₂.val)
    (hbefore : RecordedBefore ρ m₁ m₂ s.chat.log) {p : PeerRef} (hp₁ : Present p m₁ s.chat.log)
    (hp₂ : Present p m₂ s.chat.log) : SentBefore p m₁ m₂ s.chat.log := by
  have honce := (distinct hs.reachable).justified
  have hexplains := (accounted hs.reachable).justified
  obtain ⟨ρ₁, past₁, hpast₁, hadded₁, hremoved₁⟩ := hp₁
  obtain ⟨ρ₂, past₂, hpast₂, hadded₂, hremoved₂⟩ := hp₂
  have hsent₁ : .sent p m₁ ∈ past₁ := hexplains _ _ hpast₁ p hadded₁ hremoved₁
  have hsent₂ : .sent p m₂ ∈ s.chat.log :=
    mem_of_past hpast₂ (hexplains _ _ hpast₂ p hadded₂ hremoved₂)
  obtain ⟨past, hpast⟩ := exists_past hsent₂
  -- when the second is sent, the first has been broadcast
  obtain ⟨recorded, hrecorded, hmem⟩ := hbefore
  have hbroadcast : .broadcast ρ m₁ ∈ past := follows hs _ _ hpast hpost₂ ρ m₁ hpost₁
    ⟨recorded, recorded_past honce hrecorded hpast, hmem⟩
  obtain ⟨earlier, hearlier⟩ := exists_past hbroadcast
  obtain ⟨-, rfl⟩ := broadcast_unique honce hpast₁
    (hearlier.trans ((List.suffix_cons _ _).trans hpast))
  exact ⟨past, hpast, mem_of_past hearlier hsent₁⟩

/-- **History order agrees with live order.**  Two posts have been broadcast in
a room, and somebody was present both times.  In a run in which every post is
broadcast in turn, the first precedes the second in the history if and only if
everybody who was present both times was sent it first. -/
theorem order_agrees (hs : (system fw config).ReachableVia (Via InTurn) s) {ρ : RoomRef}
    {m₁ m₂ : Object MessageDto} (hpost₁ : IsPost m₁.val) (hpost₂ : IsPost m₂.val)
    (hbroadcast₁ : .broadcast ρ m₁ ∈ s.chat.log) (hbroadcast₂ : .broadcast ρ m₂ ∈ s.chat.log)
    (hpresent : ∃ p, Present p m₁ s.chat.log ∧ Present p m₂ s.chat.log) :
    RecordedBefore ρ m₁ m₂ s.chat.log ↔
      ∀ p, Present p m₁ s.chat.log → Present p m₂ s.chat.log → SentBefore p m₁ m₂ s.chat.log := by
  have honce := (distinct hs.reachable).justified
  constructor
  · exact fun hbefore p hp₁ hp₂ => sent_in_order hs hpost₁ hpost₂ hbefore hp₁ hp₂
  · intro hall
    obtain ⟨p, hp₁, hp₂⟩ := hpresent
    have hsent := hall p hp₁ hp₂
    have htraced := (traced hs.reachable).event
    obtain ⟨past₁, hpast₁⟩ := exists_past (htraced _ hbroadcast₁ hpost₁.code_ne.2.2)
    obtain ⟨past₂, hpast₂⟩ := exists_past (htraced _ hbroadcast₂ hpost₂.code_ne.2.2)
    rcases eq_or_past hpast₁ hpast₂ with ⟨heq, -⟩ | h | h
    · obtain ⟨-, rfl⟩ := Event.recorded.inj heq
      exact absurd hsent (hsent.asymm honce)
    · have hreverse := sent_in_order hs hpost₂ hpost₁
        ⟨past₁, hpast₁, h.subset List.mem_cons_self⟩ hp₂ hp₁
      exact absurd hreverse (hsent.asymm honce)
    · exact ⟨past₂, hpast₂, h.subset List.mem_cons_self⟩

/-- Ann and Bob are in the lounge, and Ann and Bob each post something.  The
socket of each call is listed. -/
def twoPosts (calls : List SocketRef) : List Act :=
  Chat.joinBoth.map .chat ++
    [.chat (.receive 0 { code := some .codePeerMessage, message := some "a" }),
      .chat (.receive 1 { code := some .codePeerMessage, message := some "b" })] ++
    calls.map fun k => .chat (.run k)

/-- Ann has been present since she was added. -/
theorem present_ann {s : State} (hs : (system Chat.silent {}).Reachable s)
    (hann : (s.chat.sockets 0).stage = .joined 0) {i j : ℕ} {m : Object MessageDto}
    (hm : s.chat.log[i]? = some (.broadcast 0 m)) (hlt : i < j)
    (hadded : s.chat.log[j]? = some (.added 0 0)) : Present 0 m s.chat.log := by
  have hpast := past_of_getElem? hm
  refine ⟨0, _, hpast, mem_drop_of_getElem? hlt hadded, fun hremoved => ?_⟩
  have hnot := ((sound hs).phase 0 .staying 0 (congrArg Stage.phase hann)).2.2.1 (by simp)
  exact hnot (mem_of_past hpast hremoved)

/-- Bob waits for Ann's post. -/
theorem order_agrees_twoPosts : ∃ (s : State) (m₁ m₂ : Object MessageDto),
    (system Chat.silent {}).run {} (twoPosts [0, 0, 1, 1]) = some s ∧
      m₁.val.message = some "a" ∧ m₂.val.message = some "b" ∧
        RecordedBefore 0 m₁ m₂ s.chat.log ∧ SentBefore 0 m₁ m₂ s.chat.log := by
  obtain ⟨s, m₁, m₂, hrun, ha, hb, hpost₁, hpost₂, hann, hbroadcast₁, hbroadcast₂, hrecorded₁,
      hrecorded₂, hadded⟩ : ∃ (s : State) (m₁ m₂ : Object MessageDto),
      (system Chat.silent {}).run {} (twoPosts [0, 0, 1, 1]) = some s ∧
        m₁.val.message = some "a" ∧ m₂.val.message = some "b" ∧ IsPost m₁.val ∧ IsPost m₂.val ∧
          (s.chat.sockets 0).stage = .joined 0 ∧ s.chat.log[4]? = some (.broadcast 0 m₁) ∧
            s.chat.log[0]? = some (.broadcast 0 m₂) ∧ s.chat.log[7]? = some (.recorded 0 m₁) ∧
              s.chat.log[3]? = some (.recorded 0 m₂) ∧ s.chat.log[18]? = some (.added 0 0) :=
    ⟨_, _, _, rfl, rfl, rfl, .inl rfl, .inl rfl, rfl, rfl, rfl, rfl, rfl, rfl⟩
  have hvia : (system Chat.silent {}).ReachableVia (Via InTurn) s :=
    via_of_checked (fun _ k hs => inTurn_sound hs k) (.run (.init ⟨_, rfl⟩) (by decide) hrun)
  have hpresent₁ := present_ann hvia.reachable hann hbroadcast₁ (by decide) hadded
  have hpresent₂ := present_ann hvia.reachable hann hbroadcast₂ (by decide) hadded
  have hbefore : RecordedBefore 0 m₁ m₂ s.chat.log :=
    ⟨_, past_of_getElem? hrecorded₂, mem_drop_of_getElem? (by decide) hrecorded₁⟩
  refine ⟨s, m₁, m₂, hrun, ha, hb, hbefore, ?_⟩
  exact (order_agrees hvia hpost₁ hpost₂ (List.mem_of_getElem? hbroadcast₁)
    (List.mem_of_getElem? hbroadcast₂) ⟨0, hpresent₁, hpresent₂⟩).mp hbefore 0 hpresent₁ hpresent₂

/-- Bob overtakes Ann: her post is the first in the history, and the last that
she is sent. -/
theorem order_disagrees : ∃ (s : State) (m₁ m₂ : Object MessageDto),
    (system Chat.silent {}).run {} (twoPosts [0, 1, 1, 0]) = some s ∧
      IsPost m₁.val ∧ IsPost m₂.val ∧ .broadcast 0 m₁ ∈ s.chat.log ∧
        .broadcast 0 m₂ ∈ s.chat.log ∧ Present 0 m₁ s.chat.log ∧ Present 0 m₂ s.chat.log ∧
          ¬ (RecordedBefore 0 m₁ m₂ s.chat.log ↔ ∀ p, Present p m₁ s.chat.log →
            Present p m₂ s.chat.log → SentBefore p m₁ m₂ s.chat.log) := by
  obtain ⟨s, m₁, m₂, hrun, hpost₁, hpost₂, hann, hbroadcast₁, hbroadcast₂, hrecorded₁, hrecorded₂,
      hsent₁, hsent₂, hadded⟩ : ∃ (s : State) (m₁ m₂ : Object MessageDto),
      (system Chat.silent {}).run {} (twoPosts [0, 1, 1, 0]) = some s ∧ IsPost m₁.val ∧
        IsPost m₂.val ∧ (s.chat.sockets 0).stage = .joined 0 ∧
          s.chat.log[0]? = some (.broadcast 0 m₁) ∧ s.chat.log[3]? = some (.broadcast 0 m₂) ∧
            s.chat.log[7]? = some (.recorded 0 m₁) ∧ s.chat.log[6]? = some (.recorded 0 m₂) ∧
              s.chat.log[2]? = some (.sent 0 m₁) ∧ s.chat.log[5]? = some (.sent 0 m₂) ∧
                s.chat.log[18]? = some (.added 0 0) :=
    ⟨_, _, _, rfl, .inl rfl, .inl rfl, rfl, rfl, rfl, rfl, rfl, rfl, rfl, rfl⟩
  have hs : (system Chat.silent {}).Reachable s := .run (.init ⟨_, rfl⟩) hrun
  have hpresent₁ := present_ann hs hann hbroadcast₁ (by decide) hadded
  have hpresent₂ := present_ann hs hann hbroadcast₂ (by decide) hadded
  refine ⟨s, m₁, m₂, hrun, hpost₁, hpost₂, List.mem_of_getElem? hbroadcast₁,
    List.mem_of_getElem? hbroadcast₂, hpresent₁, hpresent₂, fun hagrees => ?_⟩
  have hbefore : RecordedBefore 0 m₁ m₂ s.chat.log :=
    ⟨_, past_of_getElem? hrecorded₂, mem_drop_of_getElem? (by decide) hrecorded₁⟩
  have hreverse : SentBefore 0 m₂ m₁ s.chat.log :=
    ⟨_, past_of_getElem? hsent₁, mem_drop_of_getElem? (by decide) hsent₂⟩
  exact hreverse.asymm (distinct hs).justified (hagrees.mp hbefore 0 hpresent₁ hpresent₂)

end Traffic

end CanChat
