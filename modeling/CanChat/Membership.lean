/-
CanChat/Membership.lean

Who is a member of which room, in every state the chat can reach.

`Sound` ties the sockets to the directory and to the log: a socket's peer is
created once, in the room of the socket's name; it is in the map of its room
from `addPeer` to `removePeerById`; and every room is registered under its own
name, if at all.  The results about rooms and messages start from it.
-/
import CanChat.Calls

namespace CanChat

namespace Chat

/-- Whether a peer in this phase has been added to its room and not removed. -/
def Phase.isMember : Phase → Bool
  | .onboarding | .staying | .leaving => true
  | .arriving | .left => false

structure Sound (v : View) : Prop where
  peerId_lt : ∀ p < v.directory.peerCount, v.directory.peerId p < v.directory.peerIdCounter
  peerId_inj : ∀ p < v.directory.peerCount, ∀ q < v.directory.peerCount,
    v.directory.peerId p = v.directory.peerId q → p = q
  room_lt : ∀ p < v.directory.peerCount, v.directory.peerRoom p < v.directory.roomCount
  lobby : ∀ name ρ, v.directory.lobby name = some ρ →
    ρ < v.directory.roomCount ∧ v.directory.roomName ρ = name
  created : ∀ k ρ, (v.sockets k).stage = .createPeer ρ →
    ρ < v.directory.roomCount ∧ v.directory.roomName ρ = (v.sockets k).roomName
  phase : ∀ k φ p, (v.sockets k).stage.phase = some (φ, p) →
    p < v.directory.peerCount ∧
      v.directory.roomName (v.directory.peerRoom p) = (v.sockets k).roomName ∧
      (φ ≠ .left → .removed p ∉ v.log) ∧
      (φ.isMember = true → .added (v.directory.peerRoom p) p ∈ v.log)
  peer_inj : ∀ j k φ ψ p, (v.sockets j).stage.phase = some (φ, p) →
    (v.sockets k).stage.phase = some (ψ, p) → j = k
  added : ∀ ρ p, .added ρ p ∈ v.log → p < v.directory.peerCount ∧ v.directory.peerRoom p = ρ ∧
    (.removed p ∈ v.log ∨ v.directory.member ρ (v.directory.peerId p) = some p)
  removed : ∀ p, .removed p ∈ v.log → p < v.directory.peerCount

namespace Sound

variable {v : View} {k : SocketRef} {p : PeerRef} {stage : Stage}

/-- A member in some phase is in the map of its room. -/
theorem member (h : Sound v) {φ : Phase} (hp : (v.sockets k).stage.phase = some (φ, p))
    (hφ : φ.isMember = true) :
    v.directory.member (v.directory.peerRoom p) (v.directory.peerId p) = some p := by
  obtain ⟨-, -, hnot, hadded⟩ := h.phase k φ p hp
  have hleft : φ ≠ .left := by
    rintro rfl
    cases hφ
  exact ((h.added _ p (hadded hφ)).2.2).resolve_left (hnot hleft)

/-- What the stage of one socket means after it has moved. -/
theorem goto_stage {d : Directory} {events : List Event} (j : SocketRef) :
    ((v.goto k stage d events).sockets j).stage = if j = k then stage else (v.sockets j).stage := by
  rcases eq_or_ne j k with rfl | hne
  · simp
  · simp [hne]

theorem goto_roomName {d : Directory} {events : List Event} (j : SocketRef) :
    ((v.goto k stage d events).sockets j).roomName = (v.sockets j).roomName := by
  rcases eq_or_ne j k with rfl | hne
  · simp
  · simp [hne]

/-- A socket that keeps its peer shares it with no other socket. -/
theorem peer_inj_goto (h : Sound v) {d : Directory} {events : List Event}
    (hphase : ∀ ψ q, stage.phase = some (ψ, q) → ∃ φ, (v.sockets k).stage.phase = some (φ, q))
    (i j : SocketRef) (φ ψ : Phase) (q : PeerRef)
    (hi : ((v.goto k stage d events).sockets i).stage.phase = some (φ, q))
    (hj : ((v.goto k stage d events).sockets j).stage.phase = some (ψ, q)) : i = j := by
  have hbefore : ∀ j φ, ((v.goto k stage d events).sockets j).stage.phase = some (φ, q) →
      ∃ φ', (v.sockets j).stage.phase = some (φ', q) := by
    intro l φ hl
    rw [goto_stage] at hl
    split at hl
    · next heq =>
      subst heq
      exact hphase φ q hl
    · exact ⟨φ, hl⟩
  obtain ⟨φ', hi'⟩ := hbefore i φ hi
  obtain ⟨ψ', hj'⟩ := hbefore j ψ hj
  exact h.peer_inj i j φ' ψ' q hi' hj'

theorem created_goto (h : Sound v) {d : Directory} {events : List Event}
    (hcreate : ∀ ρ, stage ≠ .createPeer ρ) (j : SocketRef) (ρ : RoomRef)
    (hj : ((v.goto k stage d events).sockets j).stage = .createPeer ρ) :
    ρ < v.directory.roomCount ∧
      v.directory.roomName ρ = ((v.goto k stage d events).sockets j).roomName := by
  rw [goto_stage] at hj
  rw [goto_roomName]
  split at hj
  · exact absurd hj (hcreate ρ)
  · exact h.created j ρ hj

/-- The socket goes on with its peer, and nobody joins or leaves. -/
theorem advance (h : Sound v) {d : Directory} {events : List Event}
    (hd : ∃ history objectCount, d = { v.directory with history, objectCount })
    (hadded : ∀ ρ q, .added ρ q ∉ events) (hremoved : ∀ q, .removed q ∉ events)
    (hcreate : ∀ ρ, stage ≠ .createPeer ρ)
    (hphase : ∀ ψ q, stage.phase = some (ψ, q) → ∃ φ, (v.sockets k).stage.phase = some (φ, q) ∧
      (ψ ≠ .left → φ ≠ .left) ∧ (ψ.isMember = true → φ.isMember = true)) :
    Sound (v.goto k stage d events) := by
  obtain ⟨history, objectCount, rfl⟩ := hd
  -- every socket's peer was there before, and no further in its stay
  have hbefore : ∀ j ψ q, ((v.goto k stage { v.directory with history, objectCount }
      events).sockets j).stage.phase = some (ψ, q) → ∃ φ, (v.sockets j).stage.phase = some (φ, q) ∧
        (ψ ≠ .left → φ ≠ .left) ∧ (ψ.isMember = true → φ.isMember = true) := by
    intro j ψ q hj
    rw [goto_stage] at hj
    split at hj
    · next heq =>
      subst heq
      exact hphase ψ q hj
    · exact ⟨ψ, hj, fun h => h, fun h => h⟩
  have hadded' : ∀ ρ q, .added ρ q ∈ events ++ v.log ↔ .added ρ q ∈ v.log := by
    intro ρ q
    simp [hadded]
  have hremoved' : ∀ q, .removed q ∈ events ++ v.log ↔ .removed q ∈ v.log := by
    intro q
    simp [hremoved]
  refine ⟨h.peerId_lt, h.peerId_inj, h.room_lt, h.lobby, h.created_goto hcreate, ?_,
    h.peer_inj_goto fun ψ q hq => (hphase ψ q hq).imp fun _ hφ => hφ.1, ?_, ?_⟩
  · intro j ψ q hj
    obtain ⟨φ, hφ, hleft, hmember⟩ := hbefore j ψ q hj
    obtain ⟨hlt, hname, hnot, hadd⟩ := h.phase j φ q hφ
    rw [goto_roomName]
    refine ⟨hlt, hname, fun hψ => ?_, fun hψ => ?_⟩
    · exact mt (hremoved' q).mp (hnot (hleft hψ))
    · exact (hadded' _ q).mpr (hadd (hmember hψ))
  · intro ρ q hq
    obtain ⟨hlt, hroom, hrest⟩ := h.added ρ q ((hadded' ρ q).mp hq)
    exact ⟨hlt, hroom, hrest.imp_left (hremoved' q).mpr⟩
  · intro q hq
    exact h.removed q ((hremoved' q).mp hq)

/-- A socket without a peer moves on. -/
theorem connect (h : Sound v) (roomName nickname : String) :
    Sound { v with
      sockets := Function.update v.sockets k
        { roomName, nickname, stage := .getOrCreateRoom } } := by
  let connection : Connection := { roomName, nickname, stage := .getOrCreateRoom }
  have hstage : ∀ j, (Function.update v.sockets k connection j).stage.phase ≠ none →
      Function.update v.sockets k connection j = v.sockets j := by
    intro j hj
    rcases eq_or_ne j k with rfl | hne
    · simp [connection, Stage.phase] at hj
    · exact Function.update_of_ne hne _ _
  show Sound { v with sockets := Function.update v.sockets k connection }
  refine { h with created := ?_, phase := ?_, peer_inj := ?_ }
  · intro j ρ hj
    rcases eq_or_ne j k with rfl | hne
    · simp [connection] at hj
    · simp only [Function.update_of_ne hne] at hj ⊢
      exact h.created j ρ hj
  · intro j φ p hj
    have heq := hstage j (by simp [hj])
    simp only [heq] at hj ⊢
    exact h.phase j φ p hj
  · intro i j φ ψ p hi hj
    have hi' := hstage i (by simp [hi])
    have hj' := hstage j (by simp [hj])
    simp only [hi'] at hi
    simp only [hj'] at hj
    exact h.peer_inj i j φ ψ p hi hj

theorem enter (h : Sound v) {ρ : RoomRef}
    (hρ : v.directory.lobby (v.sockets k).roomName = some ρ) :
    Sound (v.goto k (.createPeer ρ) v.directory []) := by
  refine { h with created := ?_, phase := ?_, peer_inj := ?_ }
  · intro j ρ' hj
    rw [goto_stage] at hj
    rw [goto_roomName]
    split at hj
    · next heq =>
      obtain rfl := Stage.createPeer.inj hj
      rw [heq]
      exact h.lobby _ ρ hρ
    · exact h.created j ρ' hj
  · intro j φ p hj
    rw [goto_stage] at hj
    rw [goto_roomName]
    split at hj
    · cases hj
    · exact h.phase j φ p hj
  · intro i j φ ψ p hi hj
    rw [goto_stage] at hi hj
    split at hi
    · cases hi
    · split at hj
      · cases hj
      · exact h.peer_inj i j φ ψ p hi hj

/-- A new room takes a name that no room is registered under. -/
theorem createRoom (h : Sound v) (name : String) :
    Sound { v with directory := v.directory.createRoom name } := by
  have hname : ∀ ρ < v.directory.roomCount,
      (v.directory.createRoom name).roomName ρ = v.directory.roomName ρ := fun ρ hρ =>
    Function.update_of_ne hρ.ne _ _
  refine
    { h with
      room_lt := fun p hp => Nat.lt_succ_of_lt (h.room_lt p hp)
      lobby := fun n ρ hn => ?_
      created := fun j ρ hj => ?_
      phase := fun j φ p hj => ?_
      added := fun ρ p hp => ?_ }
  · simp only [Directory.createRoom_lobby] at hn
    split at hn
    · next heq =>
      obtain rfl := Option.some.inj hn
      exact ⟨Nat.lt_succ_self _, by simp [heq]⟩
    · obtain ⟨hlt, hroom⟩ := h.lobby n ρ hn
      exact ⟨Nat.lt_succ_of_lt hlt, (hname ρ hlt).trans hroom⟩
  · obtain ⟨hlt, hroom⟩ := h.created j ρ hj
    exact ⟨Nat.lt_succ_of_lt hlt, (hname ρ hlt).trans hroom⟩
  · obtain ⟨hlt, hroom, hrest⟩ := h.phase j φ p hj
    exact ⟨hlt, (hname _ (h.room_lt p hlt)).trans hroom, hrest⟩
  · obtain ⟨hlt, rfl, hrest⟩ := h.added ρ p hp
    refine ⟨hlt, rfl, hrest.imp_right fun hmember => ?_⟩
    have hne := (h.room_lt p hlt).ne
    simpa [Function.update_of_ne hne] using hmember

/-- A new peer is in no other socket, and has not been added anywhere. -/
theorem createPeer (h : Sound v) {ρ : RoomRef} (hk : (v.sockets k).stage = .createPeer ρ)
    (dto : MessageDto) :
    Sound (v.goto k (.record .joining v.directory.peerCount dto)
      (v.directory.createPeer ρ) []) := by
  obtain ⟨hρ, hroomName⟩ := h.created k ρ hk
  have hroom : ∀ p < v.directory.peerCount,
      (v.directory.createPeer ρ).peerRoom p = v.directory.peerRoom p := fun p hp =>
    Function.update_of_ne hp.ne _ _
  have hid : ∀ p < v.directory.peerCount,
      (v.directory.createPeer ρ).peerId p = v.directory.peerId p := fun p hp =>
    Function.update_of_ne hp.ne _ _
  -- no socket holds the peer that is created
  have hnew : ∀ j φ, (v.sockets j).stage.phase ≠ some (φ, v.directory.peerCount) := fun j φ hj =>
    absurd (h.phase j φ _ hj).1 (lt_irrefl _)
  -- the fields in order; `lobby` and `created` are not concerned
  refine ⟨?_, ?_, ?_, h.lobby, h.created_goto (by simp), ?_, ?_, ?_, ?_⟩
  · intro p hp
    rcases Nat.lt_succ_iff_lt_or_eq.mp hp with hp | rfl
    · show (v.directory.createPeer ρ).peerId p < _
      rw [hid p hp]
      exact (h.peerId_lt p hp).trans (Int.lt_succ _)
    · simp
  · intro p hp q hq heq
    replace heq : (v.directory.createPeer ρ).peerId p = (v.directory.createPeer ρ).peerId q := heq
    rcases Nat.lt_succ_iff_lt_or_eq.mp hp with hp | rfl <;>
      rcases Nat.lt_succ_iff_lt_or_eq.mp hq with hq | rfl
    · rw [hid p hp, hid q hq] at heq
      exact h.peerId_inj p hp q hq heq
    · rw [hid p hp, Directory.createPeer_peerId, Function.update_self] at heq
      exact absurd heq (h.peerId_lt p hp).ne
    · rw [hid q hq, Directory.createPeer_peerId, Function.update_self] at heq
      exact absurd heq.symm (h.peerId_lt q hq).ne
    · rfl
  · intro p hp
    show (v.directory.createPeer ρ).peerRoom p < _
    rcases Nat.lt_succ_iff_lt_or_eq.mp hp with hp | rfl
    · rw [hroom p hp]
      exact h.room_lt p hp
    · simpa using hρ
  · intro j φ p hj
    rw [goto_stage] at hj
    rw [goto_roomName]
    show p < v.directory.peerCount + 1 ∧
      v.directory.roomName ((v.directory.createPeer ρ).peerRoom p) = _ ∧ _
    split at hj
    · next heq =>
      obtain ⟨rfl, rfl⟩ := Prod.mk.inj (Option.some.inj hj)
      refine ⟨Nat.lt_succ_self _, by simpa [heq] using hroomName, fun _ hmem => ?_,
        by simp [Phase.isMember]⟩
      -- the new peer has not been removed
      exact absurd (h.removed _ hmem) (lt_irrefl _)
    · obtain ⟨hlt, hname, hnot, hadd⟩ := h.phase j φ p hj
      refine ⟨Nat.lt_succ_of_lt hlt, by rwa [hroom p hlt], hnot, fun hφ => ?_⟩
      show Event.added ((v.directory.createPeer ρ).peerRoom p) p ∈ v.log
      rw [hroom p hlt]
      exact hadd hφ
  · intro i j φ ψ p hi hj
    rw [goto_stage] at hi hj
    split at hi <;> split at hj
    -- two sockets with one peer: both are `k`, or neither is
    · next hik hjk => rw [hik, hjk]
    · obtain ⟨rfl, rfl⟩ := Prod.mk.inj (Option.some.inj hi)
      exact absurd hj (hnew j ψ)
    · obtain ⟨rfl, rfl⟩ := Prod.mk.inj (Option.some.inj hj)
      exact absurd hi (hnew i φ)
    · exact h.peer_inj i j φ ψ p hi hj
  · intro ρ' p hp
    obtain ⟨hlt, hpρ, hrest⟩ := h.added ρ' p hp
    refine ⟨Nat.lt_succ_of_lt hlt, (hroom p hlt).trans hpρ, ?_⟩
    show _ ∨ v.directory.member ρ' ((v.directory.createPeer ρ).peerId p) = _
    rwa [hid p hlt]
  · intro p hp
    exact Nat.lt_succ_of_lt (h.removed p hp)

theorem addPeer (h : Sound v) (hk : (v.sockets k).stage = .addPeer p) :
    Sound (v.goto k (.onboardPeer p) (v.directory.addPeer (v.directory.peerRoom p) p)
      [.added (v.directory.peerRoom p) p]) := by
  have hphase : (v.sockets k).stage.phase = some (.arriving, p) := by
    rw [hk]
    rfl
  obtain ⟨hlt, hroomName, hnot, -⟩ := h.phase k _ p hphase
  -- the thread stays with the same peer, so no second thread has it
  have hkeep : ∀ ψ q, Stage.phase (.onboardPeer p) = some (ψ, q) →
      ∃ φ, (v.sockets k).stage.phase = some (φ, q) := by
    intro ψ q hq
    obtain ⟨-, rfl⟩ := Prod.mk.inj (Option.some.inj hq)
    exact ⟨_, hphase⟩
  refine ⟨h.peerId_lt, h.peerId_inj, h.room_lt, h.lobby, h.created_goto (by simp), ?_,
    h.peer_inj_goto hkeep, ?_, ?_⟩
  · intro j φ q hj
    rw [goto_stage] at hj
    rw [goto_roomName]
    split at hj
    · next heq =>
      obtain ⟨rfl, rfl⟩ := Prod.mk.inj (Option.some.inj hj)
      subst heq
      refine ⟨hlt, hroomName, fun _ => ?_, fun _ => List.mem_cons_self⟩
      simpa using hnot (by simp)
    · obtain ⟨hqlt, hqname, hqnot, hqadd⟩ := h.phase j φ q hj
      refine ⟨hqlt, hqname, fun hφ => ?_, fun hφ => List.mem_cons_of_mem _ (hqadd hφ)⟩
      simpa using hqnot hφ
  · intro ρ q hq
    -- the new `.added` event is about `p`, which is mapped from now on
    rcases List.mem_cons.mp hq with heq | hq
    · obtain ⟨rfl, rfl⟩ := Event.added.inj heq
      exact ⟨hlt, rfl, .inr (by simp)⟩
    · obtain ⟨hqlt, rfl, hrest⟩ := h.added ρ q hq
      refine ⟨hqlt, rfl, hrest.imp (List.mem_cons_of_mem _) fun hmember => ?_⟩
      simp only [View.goto_directory, Directory.addPeer_member, Directory.addPeer_peerId]
      rcases eq_or_ne (v.directory.peerRoom q) (v.directory.peerRoom p) with heq | hne
      · rw [heq, Function.update_self]
        -- ids are not reused, so the insertion overwrites nobody
        split
        · next hid => rw [h.peerId_inj q hqlt p hlt hid]
        · rwa [← heq]
      · rwa [Function.update_of_ne hne]
  · intro q hq
    exact h.removed q (by simpa using hq)

/-- Ids are distinct, so only the leaver is erased. -/
theorem removePeerById (h : Sound v) (hk : (v.sockets k).stage = .removePeerById p)
    (dto : MessageDto) :
    Sound (v.goto k (.record .leaving p dto)
      (v.directory.removePeer (v.directory.peerRoom p) (v.directory.peerId p)) [.removed p]) := by
  have hphase : (v.sockets k).stage.phase = some (.leaving, p) := by
    rw [hk]
    rfl
  obtain ⟨hlt, hroomName, -, -⟩ := h.phase k _ p hphase
  -- the thread stays with the same peer, so no second thread has it
  have hkeep : ∀ ψ q, Stage.phase (.record .leaving p dto) = some (ψ, q) →
      ∃ φ, (v.sockets k).stage.phase = some (φ, q) := by
    intro ψ q hq
    obtain ⟨-, rfl⟩ := Prod.mk.inj (Option.some.inj hq)
    exact ⟨_, hphase⟩
  refine ⟨h.peerId_lt, h.peerId_inj, h.room_lt, h.lobby, h.created_goto (by simp), ?_,
    h.peer_inj_goto hkeep, ?_, ?_⟩
  · intro j φ q hj
    rw [goto_stage] at hj
    rw [goto_roomName]
    split at hj
    · next heq =>
      obtain ⟨rfl, rfl⟩ := Prod.mk.inj (Option.some.inj hj)
      subst heq
      exact ⟨hlt, hroomName, fun hφ => absurd rfl hφ, by simp [Phase.isMember]⟩
    · next hjk =>
      obtain ⟨hqlt, hqname, hqnot, hqadd⟩ := h.phase j φ q hj
      refine ⟨hqlt, hqname, fun hφ hmem => ?_, fun hφ => List.mem_cons_of_mem _ (hqadd hφ)⟩
      -- another thread's peer is not the one removed
      rcases List.mem_cons.mp hmem with heq | hmem
      · obtain rfl := Event.removed.inj heq
        exact hjk (h.peer_inj j k φ _ q hj hphase)
      · exact hqnot hφ hmem
  · intro ρ q hq
    obtain ⟨hqlt, rfl, hrest⟩ := h.added ρ q (by simpa using hq)
    refine ⟨hqlt, rfl, ?_⟩
    -- `q = p` is now logged as removed; every other member is still mapped
    rcases eq_or_ne q p with rfl | hne
    · exact .inl List.mem_cons_self
    · refine hrest.imp (List.mem_cons_of_mem _) fun hmember => ?_
      have hid : v.directory.peerId q ≠ v.directory.peerId p := fun hid =>
        hne (h.peerId_inj q hqlt p hlt hid)
      simp only [View.goto_directory, Directory.removePeer_member, Directory.removePeer_peerId]
      rcases eq_or_ne (v.directory.peerRoom q) (v.directory.peerRoom p) with heq | hroom
      · rw [heq, Function.update_self, if_neg hid]
        rwa [← heq]
      · rwa [Function.update_of_ne hroom]
  · intro q hq
    rcases List.mem_cons.mp hq with heq | hq
    · obtain rfl := Event.removed.inj heq
      exact hlt
    · exact h.removed q hq

theorem deleteRoom (h : Sound v) (name : String) :
    Sound { v with directory := v.directory.deleteRoom name } :=
  { h with
    lobby := fun n ρ hn => by
      simp only [Directory.deleteRoom_lobby] at hn
      split at hn
      · cases hn
      · exact h.lobby n ρ hn }

theorem moves (h : Sound v) {config : ConfigDto} {a : Act} {v' : View}
    (hm : Moves config v a v') : Sound v' := by
  -- only four steps change the directory; in the others a socket advances to its next stage
  cases hm with
  | connect hk => exact h.connect _ _
  | enter hk hρ => exact h.enter hρ
  | createRoom hk hnone => exact (h.createRoom _).enter (by simp)
  | createPeer hk dto => exact h.createPeer hk dto
  | @record k purpose p dto hk =>
      refine h.advance ⟨_, _, rfl⟩ (by simp) (by simp) (by simp) fun ψ q hq => ⟨ψ, ?_, id, id⟩
      rw [hk]
      cases purpose <;> exact hq
  | @broadcast k purpose p message qs hk hqs =>
      have hcreate : ∀ ρ, State.afterBroadcast purpose p ≠ .createPeer ρ := by
        cases purpose <;> simp [State.afterBroadcast]
      refine h.advance ⟨_, _, rfl⟩ (by simp) (by simp) hcreate fun ψ q hq => ⟨ψ, ?_, id, id⟩
      rw [hk]
      cases purpose <;> exact hq
  | addPeer hk => exact h.addPeer hk
  | onboardPeer hk peers =>
      refine h.advance ⟨_, _, rfl⟩ (by simp) (by simp) (by simp) fun ψ q hq => ⟨ψ, ?_, id, id⟩
      rw [hk]
      exact hq
  | getHistory hk _ _ =>
      refine h.advance ⟨_, _, rfl⟩ (by simp) (by simp) (by simp) fun ψ q hq => ⟨ψ, ?_, id, id⟩
      rw [hk]
      exact hq
  -- with its `CODE_INFO` sent the peer has joined
  | sendInfo hk =>
      refine h.advance ⟨_, _, rfl⟩ (by simp) (by simp) (by simp) fun ψ q hq => ?_
      obtain ⟨rfl, rfl⟩ := Prod.mk.inj (Option.some.inj hq)
      exact ⟨.onboarding, by rw [hk]; rfl, by simp, by simp [Phase.isMember]⟩
  | @stay _ k p stage _ hk hstage hd hnew =>
      obtain ⟨n, -, rfl⟩ := hd
      refine h.advance ⟨_, _, rfl⟩ (by simp) (by simp) ?_ fun ψ q hq => ⟨.staying, ?_, by simp,
        by simp [Phase.isMember]⟩
      · rintro ρ rfl
        simp [Stage.phase] at hstage
      · rcases hstage with hstage | hstage <;> rw [hstage] at hq <;>
          obtain ⟨-, rfl⟩ := Prod.mk.inj (Option.some.inj hq) <;> exact hk
  | removePeerById hk dto => exact h.removePeerById hk dto
  | invalidateSocket hk =>
      refine h.advance ⟨_, _, rfl⟩ (by simp) (by simp) (by simp) fun ψ q hq => ⟨ψ, ?_, id, id⟩
      rw [hk]
      exact hq
  | isEmpty hk hstage =>
      refine h.advance ⟨_, _, rfl⟩ (by simp) (by simp) ?_ fun ψ q hq => ⟨ψ, ?_, id, id⟩
      · rcases hstage with rfl | rfl <;> simp
      · rw [hk]
        rcases hstage with rfl | rfl
        · exact hq
        · cases hq
  | deleteRoom hk =>
      refine (h.deleteRoom _).advance ⟨_, _, rfl⟩ (by simp) (by simp) (by simp) ?_
      intro ψ q hq
      cases hq
  | other => exact h

end Sound

variable {fw : Framework} {config : ConfigDto}

theorem sound {s : State} (hs : (system fw config).Reachable s) : Sound s.view := by
  refine hs.invariant (I := fun s => Sound s.view) ?_ fun s a s' h hstep =>
    h.moves (step_moves hstep)
  rintro _ ⟨clock, rfl⟩
  constructor <;> simp [State.view, Server.directory, Lobby.getRoom, Stage.phase]

end Chat

end CanChat
