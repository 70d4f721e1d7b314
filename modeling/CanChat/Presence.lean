/-
CanChat/Presence.lean

Who is present when a message is sent, and that it is sent once.

`Exact` is the converse of what `Sound` says of members: the map of a room has
nobody but peers that were added to it and have not been removed.  `Distinct`
is about the message objects.  An object is recorded at most once and broadcast
at most once; one that is in a handler's hand has not been sent yet; so nobody
is sent the same object twice.
-/
import CanChat.Authorship

namespace CanChat

namespace Chat

open EventLog

/-! ### Exact members -/

/-- A peer is added once, and removed once, after it was added. -/
def Enters : Event → List Event → Prop
  | .added _ p, past => ∀ ρ, .added ρ p ∉ past
  | .removed p, past => .removed p ∉ past ∧ ∃ ρ, .added ρ p ∈ past
  | _, _ => True

structure Exact (v : View) : Prop where
  member : ∀ ρ id q, v.directory.member ρ id = some q →
    v.directory.peerId q = id ∧ .added ρ q ∈ v.log ∧ .removed q ∉ v.log
  arriving : ∀ k p, (v.sockets k).stage.phase = some (.arriving, p) → ∀ ρ, .added ρ p ∉ v.log
  justified : Justified Enters v.log

namespace Exact

variable {v v' : View} {k : SocketRef} {p : PeerRef} {config : ConfigDto} {a : Act}

/-- A member has one id. -/
theorem member_inj (h : Exact v) {ρ : RoomRef} {id id' : Int} {q : PeerRef}
    (hid : v.directory.member ρ id = some q) (hid' : v.directory.member ρ id' = some q) :
    id = id' :=
  (h.member ρ id q hid).1.symm.trans (h.member ρ id' q hid').1

/-- Nobody enters or leaves. -/
theorem keep (h : Exact v) {events : List Event}
    (hmember : ∀ ρ id q, v'.directory.member ρ id = some q → v.directory.member ρ id = some q)
    (hid : ∀ ρ q, .added ρ q ∈ v.log → v'.directory.peerId q = v.directory.peerId q)
    (hlog : v'.log = events ++ v.log)
    (hevents : ∀ e ∈ events, (∀ ρ p, e ≠ .added ρ p) ∧ ∀ p, e ≠ .removed p)
    (harriving : ∀ k p, (v'.sockets k).stage.phase = some (.arriving, p) →
      ∀ ρ, .added ρ p ∉ v.log) : Exact v' := by
  have hadded : ∀ ρ q, .added ρ q ∉ events := fun ρ q hmem => (hevents _ hmem).1 ρ q rfl
  have hremoved : ∀ q, .removed q ∉ events := fun q hmem => (hevents _ hmem).2 q rfl
  refine ⟨fun ρ id q hq => ?_, fun k p hp ρ => ?_, ?_⟩
  · obtain ⟨hpeerId, hadd, hnot⟩ := h.member ρ id q (hmember ρ id q hq)
    rw [hlog, hid ρ q hadd]
    exact ⟨hpeerId, List.mem_append_right _ hadd, by simp [hremoved, hnot]⟩
  · rw [hlog]
    simp [hadded, harriving k p hp ρ]
  · rw [hlog]
    refine h.justified.append fun e he past => ?_
    obtain ⟨hne, hne'⟩ := hevents e he
    cases e with
    | added ρ p => exact absurd rfl (hne ρ p)
    | removed p => exact absurd rfl (hne' p)
    | _ => trivial

/-- The same, for a handler that goes on with its peer. -/
theorem advance (h : Exact v) {stage : Stage} {d : Directory} {events : List Event}
    (hd : ∃ history objectCount, d = { v.directory with history, objectCount })
    (hevents : ∀ e ∈ events, (∀ ρ p, e ≠ .added ρ p) ∧ ∀ p, e ≠ .removed p)
    (hphase : ∀ q, stage.phase = some (.arriving, q) →
      (v.sockets k).stage.phase = some (.arriving, q)) : Exact (v.goto k stage d events) := by
  obtain ⟨history, objectCount, rfl⟩ := hd
  refine h.keep (fun _ _ _ hq => hq) (fun _ _ _ => rfl) rfl hevents fun j q hq => ?_
  rw [Sound.goto_stage] at hq
  split at hq
  · exact h.arriving k q (hphase q hq)
  · exact h.arriving j q hq

theorem moves (h : Exact v) (hsound : Sound v) (hm : Moves config v a v') : Exact v' := by
  have hnone : ∀ e ∈ ([] : List Event), (∀ ρ p, e ≠ .added ρ p) ∧ ∀ p, e ≠ .removed p := by simp
  -- only `addPeer` and `removePeerById` change the members; they log the same change
  cases hm with
  | @connect k roomName nickname hk =>
      refine h.keep (fun _ _ _ hq => hq) (fun _ _ _ => rfl) (List.nil_append _).symm hnone ?_
      intro j q hq
      rcases eq_or_ne j k with rfl | hne
      · simp [Stage.phase] at hq
      · exact h.arriving j q (by simpa [hne] using hq)
  | enter hk hρ => exact h.advance ⟨_, _, rfl⟩ hnone (by simp [Stage.phase])
  | @createRoom k hk hname =>
      refine h.keep ?_ (fun _ _ _ => rfl) rfl hnone fun j q hq => ?_
      · intro ρ id q hq
        -- a new room has no members
        simp only [View.goto_directory, Directory.createRoom_member] at hq
        rcases eq_or_ne ρ v.directory.roomCount with rfl | hne
        · simp at hq
        · simpa [hne] using hq
      · rw [Sound.goto_stage] at hq
        split at hq
        · cases hq
        · exact h.arriving j q hq
  | @createPeer k ρ hk dto =>
      refine h.keep (fun _ _ _ hq => hq) ?_ rfl hnone fun j q hq => ?_
      -- a new peer changes no room of a peer that was added
      · intro ρ q hq
        exact Function.update_of_ne (hsound.added ρ q hq).1.ne _ _
      · rw [Sound.goto_stage] at hq
        split at hq
        · obtain ⟨-, rfl⟩ := Prod.mk.inj (Option.some.inj hq)
          -- the new peer has not been added anywhere
          intro ρ hmem
          exact absurd (hsound.added ρ _ hmem).1 (lt_irrefl _)
        · exact h.arriving j q hq
  | @record k purpose p dto hk =>
      refine h.advance ⟨_, _, rfl⟩ (by simp) fun q hq => ?_
      rw [hk]
      cases purpose <;> exact hq
  | @broadcast k purpose p message qs hk hqs =>
      refine h.advance ⟨_, _, rfl⟩ (by simp) fun q hq => ?_
      rw [hk]
      cases purpose <;> exact hq
  | @addPeer k p hk =>
      have hphase : (v.sockets k).stage.phase = some (.arriving, p) := by
        rw [hk]
        rfl
      obtain ⟨hlt, -, hnot, -⟩ := hsound.phase k _ p hphase
      refine ⟨fun ρ id q hq => ?_, fun j q hq ρ => ?_, ?_⟩
      · simp only [View.goto_directory, Directory.addPeer_member, Directory.addPeer_peerId,
          View.goto_log] at hq ⊢
        -- the new member, another id of the same room, or another room
        rcases eq_or_ne ρ (v.directory.peerRoom p) with rfl | hne
        · rw [Function.update_self] at hq
          split at hq
          · next heq =>
            obtain rfl := Option.some.inj hq
            exact ⟨heq.symm, List.mem_cons_self, by simpa using hnot (by simp)⟩
          · obtain ⟨hid, hadd, hnot⟩ := h.member _ id q hq
            exact ⟨hid, List.mem_cons_of_mem _ hadd, by simpa using hnot⟩
        · rw [Function.update_of_ne hne] at hq
          obtain ⟨hid, hadd, hnot⟩ := h.member ρ id q hq
          exact ⟨hid, List.mem_cons_of_mem _ hadd, by simpa using hnot⟩
      · rw [Sound.goto_stage] at hq
        split at hq
        · cases hq
        · next hne =>
          -- a peer belongs to one socket, so the arriving peer of `j` is not `p`
          have hqp : q ≠ p := by
            rintro rfl
            exact hne (hsound.peer_inj j k _ _ q hq hphase)
          simpa [hqp] using h.arriving j q hq ρ
      · exact h.justified.cons (h.arriving k p hphase)
  | onboardPeer hk peers => exact h.advance ⟨_, _, rfl⟩ hnone (by simp [Stage.phase])
  | getHistory hk hcode hinfo => exact h.advance ⟨_, _, rfl⟩ (by simp) (by simp [Stage.phase])
  | sendInfo hk => exact h.advance ⟨_, _, rfl⟩ (by simp) (by simp [Stage.phase])
  | stay hk hstage hd hnew =>
      obtain ⟨n, -, rfl⟩ := hd
      refine h.advance ⟨_, _, rfl⟩ hnone fun q hq => ?_
      rcases hstage with hstage | hstage <;> rw [hstage] at hq <;> simp at hq
  | @removePeerById k p hk dto =>
      have hphase : (v.sockets k).stage.phase = some (.leaving, p) := by
        rw [hk]
        rfl
      obtain ⟨-, -, hnot, hadd⟩ := hsound.phase k _ p hphase
      refine ⟨fun ρ id q hq => ?_, fun j q hq ρ => ?_, ?_⟩
      -- a member after the step was one before, and is not the leaver
      · have hbefore : v.directory.member ρ id = some q ∧ q ≠ p := by
          simp only [View.goto_directory, Directory.removePeer_member] at hq
          rcases eq_or_ne ρ (v.directory.peerRoom p) with rfl | hne
          · rw [Function.update_self] at hq
            split at hq
            · cases hq
            · next hid =>
              refine ⟨hq, ?_⟩
              rintro rfl
              exact hid (h.member _ id q hq).1.symm
          · rw [Function.update_of_ne hne] at hq
            refine ⟨hq, ?_⟩
            rintro rfl
            exact hne (hsound.added ρ q (h.member ρ id q hq).2.1).2.1.symm
        obtain ⟨hid, hadd, hnot⟩ := h.member ρ id q hbefore.1
        exact ⟨hid, List.mem_cons_of_mem _ hadd, by simpa [hbefore.2] using hnot⟩
      · rw [Sound.goto_stage] at hq
        split at hq
        · cases hq
        · simpa using h.arriving j q hq ρ
      · exact h.justified.cons ⟨hnot (by simp), _, hadd rfl⟩
  | invalidateSocket hk => exact h.advance ⟨_, _, rfl⟩ hnone (by simp [Stage.phase])
  | isEmpty hk hstage =>
      refine h.advance ⟨_, _, rfl⟩ hnone ?_
      rcases hstage with rfl | rfl <;> simp [Stage.phase]
  | deleteRoom hk =>
      refine h.keep (fun _ _ _ hq => hq) (fun _ _ _ => rfl) rfl hnone fun j q hq => ?_
      rw [Sound.goto_stage] at hq
      split at hq
      · cases hq
      · exact h.arriving j q hq
  | other => exact h

end Exact

/-! ### Distinct objects -/

/-- The object that a handler has in hand and is about to send. -/
def Stage.inHand : Stage → Option (Object MessageDto)
  | .broadcast _ _ message => some message
  | .sendInfo _ info => some info
  | _ => none

def Event.object : Event → Option (Object MessageDto)
  | .recorded _ message | .sent _ message | .broadcast _ message => some message
  | .added _ _ | .removed _ | .snapshot _ _ _ | .joined _ _ => none

/-- Whether a peer in this phase has still to be sent its `CODE_INFO`. -/
def Phase.isUninformed : Phase → Bool
  | .arriving | .onboarding => true
  | .staying | .leaving | .left => false

/-- An object is recorded before anything else is done with it, broadcast once,
and sent to a peer once; and a peer is sent one `CODE_INFO`. -/
def Once : Event → List Event → Prop
  | .recorded _ message, past => ∀ e ∈ past, ∀ object ∈ e.object, object.ptr ≠ message.ptr
  | .broadcast _ message, past =>
      ∀ ρ message', .broadcast ρ message' ∈ past → message'.ptr ≠ message.ptr
  | .sent p message, past => ∀ message', .sent p message' ∈ past →
      message'.ptr ≠ message.ptr ∧
        (message.val.code = some .codeInfo → message'.val.code ≠ some .codeInfo)
  | _, _ => True

/-- A message is a broadcast to a peer that was present. -/
def Present (p : PeerRef) (message : Object MessageDto) (log : List Event) : Prop :=
  ∃ ρ past, .broadcast ρ message :: past <:+ log ∧ .added ρ p ∈ past ∧ .removed p ∉ past

structure Distinct (v : Scene) : Prop where
  inHand_lt : ∀ k, ∀ m ∈ (v.sockets k).stage.inHand, m.ptr < v.directory.objectCount
  event_lt : ∀ e ∈ v.log, ∀ m ∈ e.object, m.ptr < v.directory.objectCount
  inHand_inj : ∀ j k, ∀ m ∈ (v.sockets j).stage.inHand, ∀ m' ∈ (v.sockets k).stage.inHand,
    m.ptr = m'.ptr → j = k
  unsent : ∀ k, ∀ m ∈ (v.sockets k).stage.inHand, ∀ q m', .sent q m' ∈ v.log → m'.ptr ≠ m.ptr
  unbroadcast : ∀ k, ∀ m ∈ (v.sockets k).stage.inHand, ∀ ρ m', .broadcast ρ m' ∈ v.log →
    m'.ptr ≠ m.ptr
  recorded_inHand : ∀ ρ m, .recorded ρ m ∈ v.log → ∀ k, ∀ m' ∈ (v.sockets k).stage.inHand,
    m'.ptr = m.ptr → ∃ purpose p, (v.sockets k).stage = .broadcast purpose p m ∧
      v.directory.peerRoom p = ρ
  recorded_event : ∀ ρ m, .recorded ρ m ∈ v.log → ∀ e ∈ v.log, ∀ m' ∈ e.object,
    m'.ptr = m.ptr → e = .recorded ρ m ∨ e = .broadcast ρ m ∨ ∃ q, e = .sent q m
  uninformed : ∀ k φ p, (v.sockets k).stage.phase = some (φ, p) → φ.isUninformed = true →
    ∀ m, .sent p m ∈ v.log → m.val.code ≠ some .codeInfo
  informed_lt : ∀ p m, .sent p m ∈ v.log → m.val.code = some .codeInfo →
    p < v.directory.peerCount
  sent : ∀ p m, .sent p m ∈ v.log → m.val.code = some .codeInfo ∨
    m.val.code = some .codeFileRequestChunk ∨ Present p m v.log
  justified : Justified Once v.log

namespace Distinct

variable {v v' : Scene} {k : SocketRef} {p : PeerRef} {config : ConfigDto} {a : Act}

theorem stage_update {v v' : Scene} {c : Connection}
    (hsockets : v'.sockets = Function.update v.sockets k c) (j : SocketRef) :
    (v'.sockets j).stage = if j = k then c.stage else (v.sockets j).stage := by
  rw [hsockets]
  rcases eq_or_ne j k with rfl | hne
  · simp
  · simp [hne]

theorem Present.mono {message : Object MessageDto} {log log' : List Event} (h : log <:+ log')
    (hp : Present p message log) : Present p message log' := by
  obtain ⟨ρ, past, hpast, hrest⟩ := hp
  exact ⟨ρ, past, hpast.trans h, hrest⟩

/-- The handler of `k` lets go of what it has in hand, and nothing is sent. -/
theorem quiet (h : Distinct v) (hsound : Sound v.toView) (hgrows : v.Grows v') {c : Connection}
    {events : List Event} (hsockets : v'.sockets = Function.update v.sockets k c)
    (hlog : v'.log = events ++ v.log) (hevents : ∀ e ∈ events, e.object = none)
    (hhand : c.stage.inHand = none)
    (hphase : ∀ φ q, c.stage.phase = some (φ, q) → φ.isUninformed = true →
      v.directory.peerCount ≤ q ∨
        ∃ ψ, (v.sockets k).stage.phase = some (ψ, q) ∧ ψ.isUninformed = true) :
    Distinct v' := by
  have hstage := fun j => stage_update hsockets j
  have hinHand : ∀ j, ∀ m ∈ (v'.sockets j).stage.inHand, m ∈ (v.sockets j).stage.inHand := by
    intro j m hm
    rw [hstage] at hm
    split at hm
    · rw [hhand] at hm
      cases hm
    · exact hm
  -- events about objects are old
  have hold : ∀ e ∈ v'.log, ∀ m ∈ e.object, e ∈ v.log := by
    intro e he m hm
    rw [hlog] at he
    rcases List.mem_append.mp he with he | he
    · rw [hevents e he] at hm
      cases hm
    · exact he
  constructor
  case inHand_lt => exact fun j m hm =>
    (h.inHand_lt j m (hinHand j m hm)).trans_le hgrows.objectCount
  case event_lt =>
    exact fun e he m hm => (h.event_lt e (hold e he m hm) m hm).trans_le hgrows.objectCount
  case inHand_inj =>
    exact fun i j m hm m' hm' => h.inHand_inj i j m (hinHand i m hm) m' (hinHand j m' hm')
  case unsent =>
    exact fun j m hm q m' hq => h.unsent j m (hinHand j m hm) q m' (hold _ hq m' rfl)
  case unbroadcast =>
    exact fun j m hm ρ m' hρ => h.unbroadcast j m (hinHand j m hm) ρ m' (hold _ hρ m' rfl)
  case recorded_inHand =>
    intro ρ m hm j m' hm' hptr
    obtain ⟨purpose, p, hj, hp⟩ :=
      h.recorded_inHand ρ m (hold _ hm m rfl) j m' (hinHand j m' hm') hptr
    refine ⟨purpose, p, ?_, ?_⟩
    · rw [hstage] at hm' ⊢
      split at hm'
      · rw [hhand] at hm'
        cases hm'
      · rwa [if_neg ‹_›]
    · have hlt : p < v.directory.peerCount := by
        cases purpose <;> exact (hsound.phase j _ p (congrArg Stage.phase hj)).1
      rw [hgrows.peerRoom p hlt, hp]
  case recorded_event =>
    exact fun ρ m hm e he m' hm' =>
      h.recorded_event ρ m (hold _ hm m rfl) e (hold e he m' hm') m' hm'
  case uninformed =>
    intro j φ q hq hφ m hm
    have hm := hold _ hm m rfl
    rw [hstage] at hq
    split at hq
    · rcases hphase φ q hq hφ with hle | ⟨ψ, hψ, hψ'⟩
      · intro hcode
        exact absurd (h.informed_lt q m hm hcode) hle.not_gt
      · exact h.uninformed k ψ q hψ hψ' m hm
    · exact h.uninformed j φ q hq hφ m hm
  case informed_lt =>
    exact fun q m hm hcode => (h.informed_lt q m (hold _ hm m rfl) hcode).trans_le hgrows.peerCount
  case sent =>
    intro q m hm
    exact (h.sent q m (hold _ hm m rfl)).imp_right (.imp_right (Present.mono hgrows.log))
  case justified =>
    rw [hlog]
    refine h.justified.append fun e he past => ?_
    have hnone := hevents e he
    cases e with
    | recorded | sent | broadcast => cases hnone
    | _ => trivial

/-- A new object is taken in hand. -/
theorem create (h : Distinct v) (hsound : Sound v.toView) (hgrows : v.Grows v') {c : Connection}
    {events : List Event} {message : Object MessageDto}
    (hptr : message.ptr = v.directory.objectCount)
    (hcount : v.directory.objectCount < v'.directory.objectCount)
    (hsockets : v'.sockets = Function.update v.sockets k c)
    (hlog : v'.log = events ++ v.log) (hevents : ∀ e ∈ events, e.object = none)
    (hhand : c.stage.inHand = some message)
    (hphase : ∀ φ q, c.stage.phase = some (φ, q) → φ.isUninformed = true →
      ∃ ψ, (v.sockets k).stage.phase = some (ψ, q) ∧ ψ.isUninformed = true) :
    Distinct v' := by
  have hstage := fun j => stage_update hsockets j
  have hinHand : ∀ j, ∀ m ∈ (v'.sockets j).stage.inHand,
      (j = k ∧ m = message) ∨ j ≠ k ∧ m ∈ (v.sockets j).stage.inHand := by
    intro j m hm
    rw [hstage] at hm
    split at hm
    · next heq =>
      rw [hhand] at hm
      exact .inl ⟨heq, (Option.some.inj hm).symm⟩
    · next hne => exact .inr ⟨hne, hm⟩
  have hold : ∀ e ∈ v'.log, ∀ m ∈ e.object, e ∈ v.log := by
    intro e he m hm
    rw [hlog] at he
    rcases List.mem_append.mp he with he | he
    · rw [hevents e he] at hm
      cases hm
    · exact he
  -- whatever there was is older than the new object
  have hnew : ∀ e ∈ v'.log, ∀ m ∈ e.object, m.ptr ≠ message.ptr := by
    intro e he m hm
    rw [hptr]
    exact (h.event_lt e (hold e he m hm) m hm).ne
  constructor
  case inHand_lt =>
    intro j m hm
    rcases hinHand j m hm with ⟨-, rfl⟩ | ⟨-, hm⟩
    · rwa [hptr]
    · exact (h.inHand_lt j m hm).trans_le hgrows.objectCount
  case event_lt =>
    exact fun e he m hm => (h.event_lt e (hold e he m hm) m hm).trans_le hgrows.objectCount
  case inHand_inj =>
    intro i j m hm m' hm' hmm
    rcases hinHand i m hm with ⟨rfl, rfl⟩ | ⟨-, hm⟩ <;>
      rcases hinHand j m' hm' with ⟨rfl, rfl⟩ | ⟨-, hm'⟩
    · rfl
    · rw [hptr] at hmm
      exact absurd hmm (h.inHand_lt j m' hm').ne'
    · rw [hptr] at hmm
      exact absurd hmm (h.inHand_lt i m hm).ne
    · exact h.inHand_inj i j m hm m' hm' hmm
  case unsent =>
    intro j m hm q m' hq
    rcases hinHand j m hm with ⟨-, rfl⟩ | ⟨-, hm⟩
    · exact hnew _ hq m' rfl
    · exact h.unsent j m hm q m' (hold _ hq m' rfl)
  case unbroadcast =>
    intro j m hm ρ m' hρ
    rcases hinHand j m hm with ⟨-, rfl⟩ | ⟨-, hm⟩
    · exact hnew _ hρ m' rfl
    · exact h.unbroadcast j m hm ρ m' (hold _ hρ m' rfl)
  case recorded_inHand =>
    intro ρ m hm j m' hm' hmm
    rcases hinHand j m' hm' with ⟨-, rfl⟩ | ⟨hne, hm'⟩
    · exact absurd hmm.symm (hnew _ hm m rfl)
    · obtain ⟨purpose, p, hj, hp⟩ := h.recorded_inHand ρ m (hold _ hm m rfl) j m' hm' hmm
      have hlt : p < v.directory.peerCount := by
        cases purpose <;> exact (hsound.phase j _ p (congrArg Stage.phase hj)).1
      refine ⟨purpose, p, ?_, ?_⟩
      · rwa [hstage, if_neg hne]
      · rw [hgrows.peerRoom p hlt, hp]
  case recorded_event =>
    exact fun ρ m hm e he m' hm' =>
      h.recorded_event ρ m (hold _ hm m rfl) e (hold e he m' hm') m' hm'
  case uninformed =>
    intro j φ q hq hφ m hm
    have hm := hold _ hm m rfl
    rw [hstage] at hq
    split at hq
    · obtain ⟨ψ, hψ, hψ'⟩ := hphase φ q hq hφ
      exact h.uninformed k ψ q hψ hψ' m hm
    · exact h.uninformed j φ q hq hφ m hm
  case informed_lt =>
    exact fun q m hm hcode => (h.informed_lt q m (hold _ hm m rfl) hcode).trans_le hgrows.peerCount
  case sent =>
    intro q m hm
    exact (h.sent q m (hold _ hm m rfl)).imp_right (.imp_right (Present.mono hgrows.log))
  case justified =>
    rw [hlog]
    refine h.justified.append fun e he past => ?_
    have hnone := hevents e he
    cases e with
    | recorded | sent | broadcast => cases hnone
    | _ => trivial

/-- The object in the hand of `k` is recorded, before anything else is done with it. -/
theorem recorded (h : Distinct v) {purpose : Purpose} {message : Object MessageDto}
    (hk : (v.sockets k).stage = .broadcast purpose p message)
    (hnew : ∀ e ∈ v.log, ∀ m ∈ e.object, m.ptr ≠ message.ptr) :
    Distinct { v with log := .recorded (v.directory.peerRoom p) message :: v.log } := by
  have hinHand : message ∈ (v.sockets k).stage.inHand := by
    rw [hk]
    rfl
  have hsuffix : v.log <:+ .recorded (v.directory.peerRoom p) message :: v.log :=
    List.suffix_cons _ _
  refine
    { h with
      event_lt := ?_
      unsent := fun j m hm q m' hq => h.unsent j m hm q m' (by simpa using hq)
      unbroadcast := fun j m hm ρ m' hρ => h.unbroadcast j m hm ρ m' (by simpa using hρ)
      recorded_inHand := ?_
      recorded_event := ?_
      uninformed := fun j φ q hq hφ m hm => h.uninformed j φ q hq hφ m (by simpa using hm)
      informed_lt := fun q m hm => h.informed_lt q m (by simpa using hm)
      sent := fun q m hm =>
        (h.sent q m (by simpa using hm)).imp_right (.imp_right (Present.mono hsuffix))
      justified := h.justified.cons hnew }
  · intro e he m hm
    rcases List.mem_cons.mp he with rfl | he
    · obtain rfl := Option.some.inj hm
      exact h.inHand_lt k message hinHand
    · exact h.event_lt e he m hm
  · intro ρ m hm j m' hm' hmm
    -- the object recorded is in this thread's hand only
    rcases List.mem_cons.mp hm with heq | hm
    · obtain ⟨rfl, rfl⟩ := Event.recorded.inj heq
      obtain rfl := h.inHand_inj j k m' hm' m hinHand hmm
      exact ⟨purpose, p, hk, rfl⟩
    · exact h.recorded_inHand ρ m hm j m' hm' hmm
  · intro ρ m hm e he m' hm' hmm
    -- the new entry against itself and against the log, where `hnew` keeps them apart
    rcases List.mem_cons.mp hm with heq | hm <;> rcases List.mem_cons.mp he with rfl | hold
    · exact .inl heq.symm
    · obtain ⟨rfl, rfl⟩ := Event.recorded.inj heq
      exact absurd hmm (hnew e hold m' hm')
    · obtain rfl := Option.some.inj hm'
      exact absurd hmm.symm (hnew _ hm m rfl)
    · exact h.recorded_event ρ m hm e hold m' hm' hmm

/-- What is sent to a list of peers without repetition. -/
theorem once_sends {log : List Event} (hlog : Justified Once log) {message : Object MessageDto}
    {qs : List PeerRef} (hnodup : qs.Nodup)
    (hunsent : ∀ q m', .sent q m' ∈ log → m'.ptr ≠ message.ptr)
    (hinfo : message.val.code = some .codeInfo → ∀ q ∈ qs, ∀ m', .sent q m' ∈ log →
      m'.val.code ≠ some .codeInfo) :
    Justified Once ((qs.map fun q => .sent q message) ++ log) := by
  induction qs with
  | nil => exact hlog
  | cons q qs ih =>
      obtain ⟨hq, hnodup⟩ := List.nodup_cons.mp hnodup
      have ih := ih hnodup fun hcode q hq => hinfo hcode q (List.mem_cons_of_mem _ hq)
      refine ih.cons fun m' hm' => ?_
      rcases List.mem_append.mp hm' with hm' | hm'
      · obtain ⟨q', hq', heq⟩ := List.mem_map.mp hm'
        obtain ⟨rfl, -⟩ := Event.sent.inj heq
        exact absurd hq' hq
      · exact ⟨hunsent q m' hm', fun hcode => hinfo hcode q List.mem_cons_self m' hm'⟩

end Distinct

/-! ### Sending -/

/-- An object that has not been sent is sent to some peers, and is in nobody's
hand after that. -/
structure SendsOut (v v' : Scene) (message : Object MessageDto) (qs : List PeerRef)
    (extra : List Event) : Prop where
  log : v'.log = extra ++ ((qs.map fun q => .sent q message) ++ v.log)
  /-- the end of a broadcast, or of the joining, is noted as well -/
  extra : extra = [] ∨ (∃ ρ p, extra = [.joined ρ p]) ∨ ∃ ρ, extra = [.broadcast ρ message] ∧
    ∀ ρ', .recorded ρ' message ∈ v.log → ρ' = ρ
  lt : message.ptr < v'.directory.objectCount
  unsent : ∀ q m', .sent q m' ∈ v.log → m'.ptr ≠ message.ptr
  unbroadcast : ∀ ρ m', .broadcast ρ m' ∈ v.log → m'.ptr ≠ message.ptr
  only_recorded : ∀ ρ m', .recorded ρ m' ∈ v.log → message.ptr = m'.ptr → message = m'
  others : ∀ j, ∀ m' ∈ (v'.sockets j).stage.inHand,
    (v'.sockets j).stage = (v.sockets j).stage ∧ m'.ptr ≠ message.ptr
  phase : ∀ j φ q, (v'.sockets j).stage.phase = some (φ, q) → φ.isUninformed = true →
    (∃ ψ, (v.sockets j).stage.phase = some (ψ, q) ∧ ψ.isUninformed = true) ∧
      (message.val.code = some .codeInfo → q ∉ qs)
  nodup : qs.Nodup
  info : message.val.code = some .codeInfo → ∀ q ∈ qs, q < v'.directory.peerCount ∧
    ∀ m', .sent q m' ∈ v.log → m'.val.code ≠ some .codeInfo
  present : ∀ q ∈ qs, message.val.code = some .codeInfo ∨
    message.val.code = some .codeFileRequestChunk ∨ Present q message v'.log

namespace SendsOut

variable {v v' : Scene} {message m : Object MessageDto} {qs : List PeerRef} {extra : List Event}

/-- An event of the log is one of the new ones, or an old one. -/
theorem events (h : SendsOut v v' message qs extra) {e : Event} (he : e ∈ v'.log) :
    (∃ q ∈ qs, e = .sent q message) ∨ (∃ ρ p, e = .joined ρ p) ∨ (∃ ρ, e = .broadcast ρ message ∧
      ∀ ρ', .recorded ρ' message ∈ v.log → ρ' = ρ) ∨ e ∈ v.log := by
  rw [h.log] at he
  rcases List.mem_append.mp he with he | he
  · rcases h.extra with rfl | ⟨ρ, p, rfl⟩ | ⟨ρ, rfl, hρ⟩
    · cases he
    · exact .inr (.inl ⟨ρ, p, List.mem_singleton.mp he⟩)
    · exact .inr (.inr (.inl ⟨ρ, List.mem_singleton.mp he, hρ⟩))
  · rcases List.mem_append.mp he with he | he
    · obtain ⟨q, hq, rfl⟩ := List.mem_map.mp he
      exact .inl ⟨q, hq, rfl⟩
    · exact .inr (.inr (.inr he))

theorem sent (h : SendsOut v v' message qs extra) {q : PeerRef} (hm : .sent q m ∈ v'.log) :
    (q ∈ qs ∧ m = message) ∨ .sent q m ∈ v.log := by
  rcases h.events hm with ⟨q', hq, heq⟩ | ⟨_, _, heq⟩ | ⟨_, heq, -⟩ | hm
  · obtain ⟨rfl, rfl⟩ := Event.sent.inj heq
    exact .inl ⟨hq, rfl⟩
  · cases heq
  · cases heq
  · exact .inr hm

theorem broadcast (h : SendsOut v v' message qs extra) {ρ : RoomRef}
    (hm : .broadcast ρ m ∈ v'.log) :
    m = message ∨ .broadcast ρ m ∈ v.log := by
  rcases h.events hm with ⟨_, _, heq⟩ | ⟨_, _, heq⟩ | ⟨_, heq, -⟩ | hm
  · cases heq
  · cases heq
  · exact .inl (Event.broadcast.inj heq).2
  · exact .inr hm

/-- Nothing is recorded. -/
theorem recorded (h : SendsOut v v' message qs extra) {ρ : RoomRef} (hm : .recorded ρ m ∈ v'.log) :
    .recorded ρ m ∈ v.log := by
  rcases h.events hm with ⟨_, _, heq⟩ | ⟨_, _, heq⟩ | ⟨_, heq, -⟩ | hm
  · cases heq
  · cases heq
  · cases heq
  · exact hm

/-- Nothing is taken in hand. -/
theorem inHand (h : SendsOut v v' message qs extra) {j : SocketRef}
    (hm : m ∈ (v'.sockets j).stage.inHand) : m ∈ (v.sockets j).stage.inHand := by
  rw [← (h.others j m hm).1]
  exact hm

end SendsOut

namespace Distinct

variable {v v' : Scene} {k : SocketRef} {p : PeerRef} {config : ConfigDto} {a : Act}

/-- Sending keeps objects apart. -/
theorem send (h : Distinct v) {message : Object MessageDto} {qs : List PeerRef}
    {extra : List Event} (hsound : Sound v.toView) (hgrows : v.Grows v')
    (hsends : SendsOut v v' message qs extra) : Distinct v' := by
  constructor
  case inHand_lt => exact fun j m hm =>
    (h.inHand_lt j m (hsends.inHand hm)).trans_le hgrows.objectCount
  -- the new events carry the message sent, which is allocated
  case event_lt =>
    intro e he m hm
    rcases hsends.events he with ⟨_, _, rfl⟩ | ⟨_, _, rfl⟩ | ⟨_, rfl, -⟩ | he
    · obtain rfl := Option.some.inj hm
      exact hsends.lt
    · cases hm
    · obtain rfl := Option.some.inj hm
      exact hsends.lt
    · exact (h.event_lt e he m hm).trans_le hgrows.objectCount
  case inHand_inj =>
    exact fun i j m hm m' hm' => h.inHand_inj i j m (hsends.inHand hm) m' (hsends.inHand hm')
  -- the objects in hand of other sockets are not the one sent
  case unsent =>
    intro j m hm q m' hq
    rcases hsends.sent hq with ⟨-, rfl⟩ | hq
    · exact (hsends.others j m hm).2.symm
    · exact h.unsent j m (hsends.inHand hm) q m' hq
  case unbroadcast =>
    intro j m hm ρ m' hρ
    rcases hsends.broadcast hρ with rfl | hρ
    · exact (hsends.others j m hm).2.symm
    · exact h.unbroadcast j m (hsends.inHand hm) ρ m' hρ
  case recorded_inHand =>
    intro ρ m hm j m' hm' hmm
    obtain ⟨purpose, p, hj, hp⟩ :=
      h.recorded_inHand ρ m (hsends.recorded hm) j m' (hsends.inHand hm') hmm
    have hlt : p < v.directory.peerCount := by
      cases purpose <;> exact (hsound.phase j _ p (congrArg Stage.phase hj)).1
    refine ⟨purpose, p, (hsends.others j m' hm').1.trans hj, ?_⟩
    rw [hgrows.peerRoom p hlt, hp]
  -- a recorded object is sent or broadcast by the step only if it is the one in hand
  case recorded_event =>
    intro ρ m hm e he m' hm' hmm
    have hm := hsends.recorded hm
    rcases hsends.events he with ⟨q, _, rfl⟩ | ⟨_, _, rfl⟩ | ⟨ρ', rfl, hρ⟩ | he
    · obtain rfl := Option.some.inj hm'
      obtain rfl := hsends.only_recorded ρ m hm hmm
      exact .inr (.inr ⟨q, rfl⟩)
    · cases hm'
    · obtain rfl := Option.some.inj hm'
      obtain rfl := hsends.only_recorded ρ m hm hmm
      obtain rfl := hρ ρ hm
      exact .inr (.inl rfl)
    · exact h.recorded_event ρ m hm e he m' hm' hmm
  case uninformed =>
    intro j φ q hq hφ m hm
    obtain ⟨⟨ψ, hψ, hψ'⟩, hnot⟩ := hsends.phase j φ q hq hφ
    rcases hsends.sent hm with ⟨hmem, rfl⟩ | hm
    · exact fun hcode => hnot hcode hmem
    · exact h.uninformed j ψ q hψ hψ' m hm
  -- a `CODE_INFO` goes to an allocated peer
  case informed_lt =>
    intro q m hm hcode
    rcases hsends.sent hm with ⟨hmem, rfl⟩ | hm
    · exact (hsends.info hcode q hmem).1
    · exact (h.informed_lt q m hm hcode).trans_le hgrows.peerCount
  case sent =>
    intro q m hm
    rcases hsends.sent hm with ⟨hmem, rfl⟩ | hm
    · exact hsends.present q hmem
    · exact (h.sent q m hm).imp_right (.imp_right (Present.mono hgrows.log))
  -- the recipients are distinct, and the object was not sent before
  case justified =>
    rw [hsends.log]
    have honce := once_sends h.justified hsends.nodup hsends.unsent fun hcode q hq =>
      (hsends.info hcode q hq).2
    rcases hsends.extra with rfl | ⟨ρ, p, rfl⟩ | ⟨ρ, rfl, -⟩
    · exact honce
    · exact honce.cons trivial
    · refine honce.cons fun ρ' m' hm' => ?_
      exact hsends.unbroadcast ρ' m' (by simpa using hm')

/-- A message is recorded. -/
theorem record (h : Distinct v) (hsound : Sound v.toView) {purpose : Purpose} {dto : MessageDto}
    (hk : (v.sockets k).stage = .record purpose p dto) :
    Distinct (v.goto k (.broadcast purpose p ⟨v.directory.objectCount, dto⟩)
      (v.directory.createShared.addHistoryMessage config (v.directory.peerRoom p)
        ⟨v.directory.objectCount, dto⟩)
      [.recorded (v.directory.peerRoom p) ⟨v.directory.objectCount, dto⟩]) := by
  let message : Object MessageDto := ⟨v.directory.objectCount, dto⟩
  let taken : Scene := v.goto k (.broadcast purpose p message)
    (v.directory.createShared.addHistoryMessage config (v.directory.peerRoom p) message) []
  have hgrows : v.Grows taken := .goto (n := 0) [] (by simp) rfl (Nat.le_succ _) rfl rfl
  -- the message is taken in hand first
  have htaken : Distinct taken := by
    refine h.create hsound hgrows rfl (Nat.lt_succ_self _) rfl rfl (by simp) rfl fun φ q hq hφ => ?_
    refine ⟨φ, ?_, hφ⟩
    rw [hk]
    cases purpose <;> exact hq
  have hstage : (taken.sockets k).stage = .broadcast purpose p message := by simp [taken]
  exact htaken.recorded hstage fun e he m hm => (h.event_lt e he m hm).ne

/-- A message is broadcast. -/
theorem broadcast (h : Distinct v) (hsound : Sound v.toView) (hexact : Exact v.toView)
    {purpose : Purpose} {message : Object MessageDto} {qs : List PeerRef}
    (hk : (v.sockets k).stage = .broadcast purpose p message)
    (hcode : message.val.code ≠ some .codeInfo)
    (hqs : ∀ q, q ∈ qs ↔ ∃ id, v.directory.member (v.directory.peerRoom p) id = some q)
    (hnodup : qs.Nodup)
    (hgrows : v.Grows (v.goto k (State.afterBroadcast purpose p) v.directory
      (.broadcast (v.directory.peerRoom p) message :: qs.map fun q => .sent q message))) :
    Distinct (v.goto k (State.afterBroadcast purpose p) v.directory
      (.broadcast (v.directory.peerRoom p) message :: qs.map fun q => .sent q message)) := by
  have hhand : message ∈ (v.sockets k).stage.inHand := by
    rw [hk]
    rfl
  have hstage : ∀ j, ((v.goto k (State.afterBroadcast purpose p) v.directory
      (.broadcast (v.directory.peerRoom p) message :: qs.map fun q => .sent q message)).sockets
        j).stage = if j = k then State.afterBroadcast purpose p else (v.sockets j).stage :=
    fun j => Sound.goto_stage j
  have hafter : (State.afterBroadcast purpose p).inHand = none := by cases purpose <;> rfl
  suffices hsends : SendsOut v _ message qs [.broadcast (v.directory.peerRoom p) message] from
    h.send hsound hgrows hsends
  constructor
  case log => rfl
  case extra =>
    refine .inr (.inr ⟨_, rfl, fun ρ' hρ' => ?_⟩)
    obtain ⟨purpose', p', hk', hp'⟩ := h.recorded_inHand ρ' message hρ' k message hhand rfl
    obtain ⟨-, rfl, -⟩ := Stage.broadcast.inj (hk.symm.trans hk')
    exact hp'.symm
  case lt => exact h.inHand_lt k message hhand
  case unsent => exact h.unsent k message hhand
  case unbroadcast => exact h.unbroadcast k message hhand
  case only_recorded =>
    intro ρ' m' hm' hptr
    obtain ⟨purpose', p', hk', -⟩ := h.recorded_inHand ρ' m' hm' k message hhand hptr
    exact (Stage.broadcast.inj (hk.symm.trans hk')).2.2
  case others =>
    intro j m' hm'
    have hj : j ≠ k := by
      rintro rfl
      rw [hstage, if_pos rfl, hafter] at hm'
      cases hm'
    rw [hstage, if_neg hj] at hm' ⊢
    exact ⟨rfl, fun hptr => hj (h.inHand_inj j k m' hm' message hhand hptr)⟩
  case phase =>
    intro j φ q hq hφ
    refine ⟨?_, fun hinfo => absurd hinfo hcode⟩
    rw [hstage] at hq
    split at hq
    · next heq =>
      refine ⟨φ, ?_, hφ⟩
      rw [heq, hk]
      cases purpose <;> exact hq
    · exact ⟨φ, hq, hφ⟩
  case nodup => exact hnodup
  case info => exact fun hinfo => absurd hinfo hcode
  case present =>
    intro q hq
    obtain ⟨id, hmember⟩ := (hqs q).mp hq
    obtain ⟨-, hadded, hremoved⟩ := hexact.member _ id q hmember
    refine .inr (.inr ⟨_, _, List.suffix_rfl, List.mem_append_right _ hadded, ?_⟩)
    simpa using hremoved

/-- A newcomer is sent its `CODE_INFO`. -/
theorem sendInfo (h : Distinct v) (hsound : Sound v.toView) {info : Object MessageDto}
    (hk : (v.sockets k).stage = .sendInfo p info) (hcode : info.val.code = some .codeInfo)
    (hgrows : v.Grows (v.goto k (.joined p) v.directory
      [.joined (v.directory.peerRoom p) p, .sent p info])) :
    Distinct (v.goto k (.joined p) v.directory
      [.joined (v.directory.peerRoom p) p, .sent p info]) := by
  have hphase : (v.sockets k).stage.phase = some (.onboarding, p) := congrArg Stage.phase hk
  have hhand : info ∈ (v.sockets k).stage.inHand := by
    rw [hk]
    rfl
  have hstage : ∀ j, ((v.goto k (.joined p) v.directory
      [.joined (v.directory.peerRoom p) p, .sent p info]).sockets j).stage =
        if j = k then .joined p else (v.sockets j).stage := fun j => Sound.goto_stage j
  -- what is left is that the step sends out `info` to `p` alone
  suffices hsends : SendsOut v _ info [p] [.joined (v.directory.peerRoom p) p] from
    h.send hsound hgrows hsends
  constructor
  case log => rfl
  case extra => exact .inr (.inl ⟨_, _, rfl⟩)
  case lt => exact h.inHand_lt k info hhand
  case unsent => exact h.unsent k info hhand
  case unbroadcast => exact h.unbroadcast k info hhand
  -- a `CODE_INFO` is not recorded
  case only_recorded =>
    intro ρ' m' hm' hptr
    obtain ⟨_, _, hk', -⟩ := h.recorded_inHand ρ' m' hm' k info hhand hptr
    cases hk.symm.trans hk'
  case others =>
    intro j m' hm'
    have hj : j ≠ k := by
      rintro rfl
      rw [hstage, if_pos rfl] at hm'
      cases hm'
    rw [hstage, if_neg hj] at hm' ⊢
    exact ⟨rfl, fun hptr => hj (h.inHand_inj j k m' hm' info hhand hptr)⟩
  -- the peer has its `CODE_INFO` now, the others wait for theirs as before
  case phase =>
    intro j φ q hq hφ
    rw [hstage] at hq
    split at hq
    · obtain ⟨rfl, -⟩ := Prod.mk.inj (Option.some.inj hq)
      cases hφ
    · next hj =>
      refine ⟨⟨φ, hq, hφ⟩, fun _ hmem => ?_⟩
      obtain rfl := List.mem_singleton.mp hmem
      exact hj (hsound.peer_inj j k _ _ q hq hphase)
  case nodup => exact List.nodup_singleton p
  case info =>
    intro _ q hq
    obtain rfl := List.mem_singleton.mp hq
    exact ⟨(hsound.phase k _ q hphase).1, h.uninformed k _ q hphase rfl⟩
  case present => exact fun q _ => .inl hcode

/-- Every call, given what codes messages in hand have. -/
theorem calls (h : Distinct v) (hsound : Sound v.toView) (hexact : Exact v.toView)
    (hmessage : ∀ k purpose p m, (v.sockets k).stage = .broadcast purpose p m →
      m.val.code ≠ some .codeInfo)
    (hinfo : ∀ k p info, (v.sockets k).stage = .sendInfo p info →
      info.val.code = some .codeInfo)
    (hcalls : Calls config v a v') : Distinct v' := by
  have hgrows := hcalls.grows
  have hnone : ∀ e ∈ ([] : List Event), e.object = none := by simp
  cases hcalls with
  -- `quiet` steps make no object, `create` steps make one, the others have lemmas of their own
  | connect hk =>
      exact h.quiet hsound hgrows rfl (List.nil_append _).symm hnone rfl (by simp [Stage.phase])
  | enter hk hρ => exact h.quiet hsound hgrows rfl rfl hnone rfl (by simp [Stage.phase])
  | createRoom hk hname => exact h.quiet hsound hgrows rfl rfl hnone rfl (by simp [Stage.phase])
  | createPeer hk hdto =>
      refine h.quiet hsound hgrows rfl rfl hnone rfl ?_
      rintro φ q ⟨⟩ -
      exact .inl le_rfl
  | record hk => exact h.record hsound hk
  | @broadcast k purpose p message qs hk hqs hnodup =>
      exact h.broadcast hsound hexact hk (hmessage k purpose p message hk) hqs
        (hnodup fun id id' q hid hid' => hexact.member_inj hid hid') hgrows
  | addPeer hk =>
      refine h.quiet hsound hgrows rfl rfl (by simp [Event.object]) rfl ?_
      rintro φ q ⟨⟩ -
      exact .inr ⟨_, congrArg Stage.phase hk, rfl⟩
  | onboardPeer hk hpeers =>
      refine h.quiet hsound hgrows rfl rfl hnone rfl ?_
      rintro φ q ⟨⟩ -
      exact .inr ⟨_, congrArg Stage.phase hk, rfl⟩
  -- CODE_INFO is a new object, made for the peer being onboarded
  | getHistory hk hmade =>
      subst hmade
      refine h.create hsound hgrows rfl (Nat.lt_succ_self _) rfl rfl (by simp [Event.object]) rfl ?_
      rintro φ q ⟨⟩ -
      exact ⟨_, congrArg Stage.phase hk, rfl⟩
  | @sendInfo k p info hk => exact h.sendInfo hsound hk (hinfo k p info hk) hgrows
  -- the handlers of a message are not onboarding a peer
  | post hk hcode => exact h.quiet hsound hgrows rfl rfl hnone rfl (by rintro φ q ⟨⟩ ⟨⟩)
  | typing hk hcode =>
      refine h.create hsound hgrows rfl (Nat.lt_succ_self _) rfl rfl hnone rfl ?_
      rintro φ q ⟨⟩ ⟨⟩
  | share hk hcode hd => exact h.quiet hsound hgrows rfl rfl hnone rfl (by rintro φ q ⟨⟩ ⟨⟩)
  | answer _ hk hd => exact h.quiet hsound hgrows rfl rfl hnone rfl (by rintro φ q ⟨⟩ ⟨⟩)
  | shareFile hk hd => exact h.quiet hsound hgrows rfl rfl hnone rfl (by rintro φ q ⟨⟩ ⟨⟩)
  | shared hk => exact h.quiet hsound hgrows rfl rfl hnone rfl (by rintro φ q ⟨⟩ ⟨⟩)
  | close _ hk hd => exact h.quiet hsound hgrows rfl rfl hnone rfl (by rintro φ q ⟨⟩ ⟨⟩)
  | removePeerById hk hdto =>
      exact h.quiet hsound hgrows rfl rfl (by simp [Event.object]) rfl (by rintro φ q ⟨⟩ ⟨⟩)
  | invalidateSocket hk =>
      exact h.quiet hsound hgrows rfl rfl hnone rfl (by rintro φ q ⟨⟩ ⟨⟩)
  | isEmpty hk hstage =>
      rcases hstage with rfl | rfl
      · exact h.quiet hsound hgrows rfl rfl hnone rfl (by rintro φ q ⟨⟩ ⟨⟩)
      · exact h.quiet hsound hgrows rfl rfl hnone rfl (by rintro φ q ⟨⟩)
  | deleteRoom hk => exact h.quiet hsound hgrows rfl rfl hnone rfl (by rintro φ q ⟨⟩)
  | other _ => exact h

end Distinct

/-! ### Where what is sent comes from -/

/-- What is about to be broadcast has been recorded, but for notices of typing,
and a `CODE_INFO` is made from the history its peer has read. -/
def Stage.Traced (v : Scene) : Stage → Prop
  | .broadcast _ p message => p < v.directory.peerCount ∧
      (message.val.code ≠ some .codePeerIsTyping →
        .recorded (v.directory.peerRoom p) message ∈ v.log)
  | .sendInfo p info => p < v.directory.peerCount ∧ info.val.code = some .codeInfo ∧
      info.val.peerId = some (v.directory.peerId p) ∧
        .snapshot (v.directory.peerRoom p) p info.val.history ∈ v.log
  | _ => True

def Event.Traced (v : Scene) : Event → Prop
  | .broadcast ρ message =>
      message.val.code ≠ some .codePeerIsTyping → .recorded ρ message ∈ v.log
  | .sent p message => message.val.code = some .codeInfo → p < v.directory.peerCount ∧
      message.val.peerId = some (v.directory.peerId p) ∧
        .snapshot (v.directory.peerRoom p) p message.val.history ∈ v.log
  | _ => True

def Traced (v : Scene) : Prop := v.Everywhere (fun _ => Stage.Traced v) (Event.Traced v)

namespace Traced

variable {v v' : Scene} {config : ConfigDto} {a : Act}

theorem stage_mono (hgrows : v.Grows v') {stage : Stage} (h : stage.Traced v) :
    stage.Traced v' := by
  cases stage with
  | broadcast purpose p message =>
      obtain ⟨hlt, hrecorded⟩ := h
      refine ⟨hlt.trans_le hgrows.peerCount, fun hcode => ?_⟩
      rw [hgrows.peerRoom p hlt]
      exact hgrows.log.subset (hrecorded hcode)
  | sendInfo p info =>
      obtain ⟨hlt, hcode, hid, hsnapshot⟩ := h
      refine ⟨hlt.trans_le hgrows.peerCount, hcode, ?_, ?_⟩
      · rw [hgrows.peerId p hlt, hid]
      · rw [hgrows.peerRoom p hlt]
        exact hgrows.log.subset hsnapshot
  | _ => trivial

theorem event_mono (hgrows : v.Grows v') {event : Event} (h : event.Traced v) :
    event.Traced v' := by
  cases event with
  | broadcast ρ message => exact fun hcode => hgrows.log.subset (h hcode)
  | sent p message =>
      intro hcode
      obtain ⟨hlt, hid, hsnapshot⟩ := h hcode
      refine ⟨hlt.trans_le hgrows.peerCount, ?_, ?_⟩
      · rw [hgrows.peerId p hlt, hid]
      · rw [hgrows.peerRoom p hlt]
        exact hgrows.log.subset hsnapshot
  | _ => trivial

theorem calls (h : Traced v) (hsound : Sound v.toView)
    (hmessage : ∀ k purpose p m, (v.sockets k).stage = .broadcast purpose p m →
      m.val.code ≠ some .codeInfo)
    (hcalls : Calls config v a v') : Traced v' := by
  have hgrows := hcalls.grows
  have hP : ∀ (k : SocketRef) (stage : Stage), stage.Traced v → stage.Traced v' :=
    fun _ _ hk => stage_mono hgrows hk
  have hE : ∀ event : Event, event.Traced v → event.Traced v' := fun _ he => event_mono hgrows he
  cases hcalls with
  | connect hk => exact h.update hP hE rfl (List.nil_append _).symm trivial (by simp)
  -- the message in hand is traced to the event that records it
  | @record k purpose p dto hk =>
      have hlt : p < v.directory.peerCount := by
        cases purpose <;> exact (hsound.phase k _ p (congrArg Stage.phase hk)).1
      exact h.update hP hE rfl rfl ⟨hlt, fun _ => List.mem_cons_self⟩ (by simp [Event.Traced])
  | @broadcast k purpose p message qs hk hqs =>
      have htraced : Stage.Traced v (.broadcast purpose p message) := hk ▸ h.stage k
      refine h.update hP hE rfl rfl ?_ fun event he => ?_
      · cases purpose <;> trivial
      · rcases List.mem_cons.mp he with rfl | he
        · exact fun hcode => hgrows.log.subset (htraced.2 hcode)
        · obtain ⟨q, -, rfl⟩ := List.mem_map.mp he
          -- a broadcast is no `CODE_INFO`
          exact fun hcode => absurd hcode (hmessage k purpose p message hk)
  | addPeer hk => exact h.update hP hE rfl rfl trivial (by simp [Event.Traced])
  | @getHistory k p peers info hk hinfo =>
      subst hinfo
      have hlt := (hsound.phase k .onboarding p (congrArg Stage.phase hk)).1
      refine h.update hP hE rfl rfl ⟨hlt, rfl, rfl, ?_⟩ (by simp [Event.Traced])
      -- the snapshot of the history is the event logged by this step
      exact List.mem_cons_self
  | @sendInfo k p info hk =>
      have htraced : Stage.Traced v (.sendInfo p info) := hk ▸ h.stage k
      obtain ⟨hlt, -, hid, hsnapshot⟩ := htraced
      refine h.update hP hE rfl rfl trivial fun event he => ?_
      rcases List.mem_cons.mp he with rfl | he
      · trivial
      · obtain rfl := List.mem_singleton.mp he
        exact fun _ => ⟨hlt, hid, hgrows.log.subset hsnapshot⟩
  | @typing k p message hk hcode =>
      have hlt := (hsound.phase k .staying p (congrArg Stage.phase hk)).1
      refine h.update hP hE rfl rfl ⟨hlt, fun hne => absurd ?_ hne⟩ (by simp)
      exact hcode
  | removePeerById hk hdto => exact h.update hP hE rfl rfl trivial (by simp [Event.Traced])
  | isEmpty hk hstage =>
      refine h.update hP hE rfl rfl ?_ (by simp)
      rcases hstage with rfl | rfl <;> trivial
  | other _ => exact ⟨fun k => hP k _ (h.stage k), fun event he => hE event (h.event event he)⟩
  | enter | createRoom | createPeer | onboardPeer | post | share | answer | shareFile | shared
  | close | invalidateSocket | deleteRoom =>
      exact h.update hP hE rfl rfl trivial (by simp)

end Traced

end Chat

/-! ### In the traffic -/

namespace Traffic

open Chat (Exact Distinct Event)

variable {fw : Framework} {config : ConfigDto} {s : State}

theorem exact (hs : (system fw config).Reachable s) : Exact s.chat.view := by
  refine scene_invariant_all (I := fun v => Exact v.toView) (fun clock => ?_)
    (fun s b v hs h hb => h.moves (sound hs) hb.moves) (fun s σ subscriber dto _ h _ _ => ?_) hs
  · refine ⟨fun ρ id q hq => ?_, by simp [Chat.State.scene, Chat.State.view, Chat.Stage.phase],
      EventLog.justified_nil⟩
    simp [Chat.State.scene, Chat.State.view, Server.directory, Room.getPeerById] at hq
    cases hq
  · refine h.keep (fun _ _ _ hq => hq) (fun _ _ _ => rfl)
      (show _ = [_] ++ s.chat.scene.log from rfl) (by simp) ?_
    exact fun k p hp => h.arriving k p hp

theorem request_distinct {v : Chat.Scene} (h : Distinct v) (hsound : Chat.Sound v.toView)
    (host : PeerRef) {dto : MessageDto} (hcode : dto.code = some .codeFileRequestChunk) :
    Distinct (request host dto v) := by
  have hnew : ∀ e ∈ v.log, ∀ m ∈ e.object, m.ptr ≠ v.directory.objectCount :=
    fun e he m hm => (h.event_lt e he m hm).ne
  have hlog : (request host dto v).log =
      [] ++ (([host].map fun q => .sent q ⟨v.directory.objectCount, dto⟩) ++ v.log) := rfl
  suffices hsends :
      Chat.SendsOut v (request host dto v) ⟨v.directory.objectCount, dto⟩ [host] [] from
    h.send hsound (request_grows host dto v) hsends
  constructor
  case log => exact hlog
  case extra => exact .inl rfl
  case lt => exact Nat.lt_succ_self _
  case unsent => exact fun q m' hq => hnew _ hq m' rfl
  case unbroadcast => exact fun ρ m' hρ => hnew _ hρ m' rfl
  case only_recorded => exact fun ρ m' hm' hptr => absurd hptr.symm (hnew _ hm' m' rfl)
  case others => exact fun j m' hm' => ⟨rfl, (h.inHand_lt j m' hm').ne⟩
  case phase => exact fun j φ q hq hφ => ⟨⟨φ, hq, hφ⟩, fun hinfo => by simp [hcode] at hinfo⟩
  case nodup => exact List.nodup_singleton host
  case info => exact fun hinfo => by simp [hcode] at hinfo
  case present => exact fun q _ => .inr (.inl hcode)

/-- No `CODE_INFO` is broadcast. -/
theorem broadcast_code (hs : (system fw config).Reachable s) (k : SocketRef)
    (purpose : Chat.Purpose) (p : PeerRef) (message : Object MessageDto)
    (hk : (s.chat.scene.sockets k).stage = .broadcast purpose p message) :
    message.val.code ≠ some .codeInfo := by
  intro hcode
  have hauthentic := (written_of_broadcast hs hk).authentic
  unfold Authentic at hauthentic
  rwa [hcode] at hauthentic

theorem distinct (hs : (system fw config).Reachable s) : Distinct s.chat.scene := by
  refine scene_invariant_all (I := Distinct) (fun clock => ?_) (fun s b v hs h hb => ?_)
    (fun s σ subscriber dto hs h _ hcode => request_distinct h (sound hs) _ hcode) hs
  · constructor <;> simp [Chat.State.scene, Chat.State.view, Chat.Stage.inHand, Chat.Stage.phase,
      EventLog.justified_nil]
  · exact h.calls (sound hs) (exact hs) (broadcast_code hs)
      (fun k p info hk => ((accounted hs).informed k p info hk).1) hb

theorem traced (hs : (system fw config).Reachable s) : Chat.Traced s.chat.scene := by
  refine scene_invariant_all (I := Chat.Traced) (fun clock => ?_)
    (fun s b v hs h hb => h.calls (sound hs) (broadcast_code hs) hb)
    (fun s σ subscriber dto hs h _ hcode => ?_) hs
  · exact ⟨fun _ => trivial, by simp [Chat.State.scene, Chat.State.view]⟩
  · have hgrows := request_grows (s.server.files subscriber.file).host dto s.chat.scene
    refine ⟨fun k => Chat.Traced.stage_mono hgrows (h.stage k), fun event he => ?_⟩
    rcases List.mem_cons.mp he with rfl | he
    · exact fun hinfo => by simp [hcode] at hinfo
    · exact Chat.Traced.event_mono hgrows (h.event event he)

end Traffic

end CanChat
