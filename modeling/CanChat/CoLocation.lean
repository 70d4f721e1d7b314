/-
CanChat/CoLocation.lean

Peers who joined under one name are in one room.

A socket gets its room from `getOrCreateRoom` and becomes a member only later,
with `addPeer`; a leaver tests `isEmpty` and only then calls `deleteRoom`.  If
another socket gets the room before it is deleted, that socket ends up in a
room nobody can find any more (`deleted_room_strands`).  In runs in which no
room is deleted while a socket that has got it has not begun to leave, peers
with one room name share the registered room (`joined_share_room`).
-/
import CanChat.Membership

namespace CanChat

namespace Chat

def Phase.hasBegunToLeave : Phase → Bool
  | .leaving | .left => true
  | .arriving | .onboarding | .staying => false

/-- The room a socket has got and not begun to leave. -/
def Stage.entered (d : Directory) : Stage → Option RoomRef
  | .createPeer ρ => some ρ
  | stage => stage.phase.bind fun (φ, p) => if φ.hasBegunToLeave then none else some (d.peerRoom p)

theorem Stage.entered_eq_some {d : Directory} {stage : Stage} {ρ : RoomRef} :
    stage.entered d = some ρ ↔ stage = .createPeer ρ ∨
      ∃ φ p, stage.phase = some (φ, p) ∧ φ.hasBegunToLeave = false ∧ d.peerRoom p = ρ := by
  unfold Stage.entered
  split
  · simp [Stage.phase]
  · next hne =>
    have hρ : stage ≠ .createPeer ρ := hne ρ
    simp [Option.bind_eq_some_iff, hρ]

/-- Every socket that has got a room and not begun to leave it finds it
registered under its room name. -/
def Located (v : View) : Prop :=
  ∀ k ρ, (v.sockets k).stage.entered v.directory = some ρ →
    v.directory.lobby (v.sockets k).roomName = some ρ

/-- `deleteRoom` is executed only while no socket that has not begun to leave
has got the room registered under the name. -/
def DeletesUnused (s : State) : Act → Prop
  | .run k => ∀ p, (s.sockets k).stage = .deleteRoom p →
      ∀ j ρ, (s.sockets j).stage.entered s.server.directory = some ρ →
        Lobby.getRoom (s.server.rooms (s.server.peers p).room).name s.server ≠ some ρ
  | _ => True

namespace Located

variable {v : View} {k : SocketRef} {stage : Stage} {d : Directory} {events : List Event}

/-- The socket stays with its room, or leaves it. -/
theorem goto (h : Located v) (hlobby : d.lobby = v.directory.lobby)
    (hroom : d.peerRoom = v.directory.peerRoom)
    (hstage : ∀ ρ, stage.entered d = some ρ → (v.sockets k).stage.entered v.directory = some ρ) :
    Located (v.goto k stage d events) := by
  intro j ρ hj
  rw [Sound.goto_stage] at hj
  rw [Sound.goto_roomName]
  show d.lobby _ = _
  rw [hlobby]
  split at hj
  · next heq =>
    subst heq
    exact h j ρ (hstage ρ hj)
  · refine h j ρ ?_
    simpa only [Stage.entered, View.goto_directory, hroom] using hj

theorem moves (h : Located v) (hsound : Sound v) {config : ConfigDto} {a : Act} {v' : View}
    (hm : Moves config v a v')
    (hunused : ∀ k p, a = .run k → (v.sockets k).stage = .deleteRoom p → ∀ j ρ,
      (v.sockets j).stage.entered v.directory = some ρ →
        v.directory.lobby (v.directory.roomName (v.directory.peerRoom p)) ≠ some ρ) :
    Located v' := by
  cases hm with
  | @connect k roomName nickname hk =>
      intro j ρ hj
      rcases eq_or_ne j k with rfl | hne
      · simp [Stage.entered, Stage.phase] at hj
      · simp only [Function.update_of_ne hne] at hj ⊢
        exact h j ρ hj
  | @enter k ρ hk hρ =>
      intro j ρ' hj
      rw [Sound.goto_stage] at hj
      rw [Sound.goto_roomName]
      split at hj
      · next heq =>
        subst heq
        obtain rfl := Option.some.inj hj
        exact hρ
      · exact h j ρ' hj
  | @createRoom k hk hnone =>
      intro j ρ hj
      rw [Sound.goto_stage] at hj
      rw [Sound.goto_roomName]
      simp only [View.goto_directory, Directory.createRoom_lobby]
      split at hj
      · next heq =>
        subst heq
        obtain rfl := Option.some.inj hj
        simp
      · have hlobby := h j ρ hj
        -- the name was free
        have hne : (v.sockets j).roomName ≠ (v.sockets k).roomName := by
          intro heq
          rw [heq, hnone] at hlobby
          cases hlobby
        rwa [if_neg hne]
  | @createPeer k ρ hk dto =>
      intro j ρ' hj
      rw [Sound.goto_stage] at hj
      rw [Sound.goto_roomName]
      show v.directory.lobby _ = _
      split at hj
      · next heq =>
        subst heq
        obtain rfl : ρ = ρ' := by
          simpa [Stage.entered, Stage.phase, Phase.hasBegunToLeave] using hj
        exact h j ρ (Stage.entered_eq_some.mpr (.inl hk))
      · refine h j ρ' (Stage.entered_eq_some.mpr ?_)
        refine (Stage.entered_eq_some.mp hj).imp_right ?_
        rintro ⟨φ, p, hp, hφ, rfl⟩
        have hlt := (hsound.phase j φ p hp).1
        exact ⟨φ, p, hp, hφ, (Function.update_of_ne hlt.ne _ _).symm⟩
  | @record k purpose p dto hk =>
      refine h.goto rfl rfl fun ρ hρ => ?_
      rw [hk]
      cases purpose <;> exact hρ
  | @broadcast k purpose p message qs hk hqs =>
      refine h.goto rfl rfl fun ρ hρ => ?_
      rw [hk]
      cases purpose <;> exact hρ
  | addPeer hk =>
      refine h.goto rfl rfl fun ρ hρ => ?_
      rw [hk]
      exact hρ
  | onboardPeer hk peers =>
      refine h.goto rfl rfl fun ρ hρ => ?_
      rw [hk]
      exact hρ
  | getHistory hk _ _ =>
      refine h.goto rfl rfl fun ρ hρ => ?_
      rw [hk]
      exact hρ
  | sendInfo hk =>
      refine h.goto rfl rfl fun ρ hρ => ?_
      rw [hk]
      exact hρ
  | @stay _ k p stage _ hk hstage hd hnew =>
      obtain ⟨n, -, rfl⟩ := hd
      refine h.goto rfl rfl fun ρ hρ => Stage.entered_eq_some.mpr (.inr ?_)
      rcases Stage.entered_eq_some.mp hρ with rfl | ⟨φ, q, hq, hφ, rfl⟩
      · simp [Stage.phase] at hstage
      · rcases hstage with hstage | hstage <;> rw [hstage] at hq <;>
          obtain ⟨rfl, rfl⟩ := Prod.mk.inj (Option.some.inj hq)
        · exact ⟨_, _, hk, rfl, rfl⟩
        · cases hφ
  | removePeerById hk dto => exact h.goto rfl rfl fun ρ hρ => by cases hρ
  | invalidateSocket hk => exact h.goto rfl rfl fun ρ hρ => by cases hρ
  | isEmpty hk hstage =>
      refine h.goto rfl rfl fun ρ hρ => ?_
      rcases hstage with rfl | rfl <;> cases hρ
  | @deleteRoom k p hk =>
      intro j ρ hj
      rw [Sound.goto_stage] at hj
      rw [Sound.goto_roomName]
      simp only [View.goto_directory, Directory.deleteRoom_lobby]
      split at hj
      · cases hj
      · have hlobby := h j ρ hj
        have hne : (v.sockets j).roomName ≠
            v.directory.roomName (v.directory.peerRoom p) := by
          intro heq
          rw [heq] at hlobby
          exact hunused k p rfl hk j ρ hj hlobby
        rwa [if_neg hne]
  | other => exact h

end Located

variable {fw : Framework} {config : ConfigDto}

theorem located_step {s s' : State} {a : Act} (hsound : Sound s.view) (h : Located s.view)
    (hunused : DeletesUnused s a) (hstep : s.step fw config a = some s') : Located s'.view := by
  refine h.moves hsound (step_moves hstep) ?_
  rintro k p rfl hk j ρ hj
  exact hunused p hk j ρ hj

theorem located {s : State} (hs : (system fw config).ReachableVia DeletesUnused s) :
    Located s.view := by
  refine hs.invariant (I := fun s => Located s.view) ?_ fun s a s' hs h hunused hstep =>
    located_step (sound hs.reachable) h hunused hstep
  rintro _ ⟨clock, rfl⟩ k ρ hk
  simp [State.view, Stage.entered, Stage.phase] at hk

/-- A room deleted while another socket holds it leaves that socket astray. -/
theorem not_located_of_used {s s' : State} {a : Act} (hsound : Sound s.view)
    (hused : ¬ DeletesUnused s a) (hstep : s.step fw config a = some s') : ¬ Located s'.view := by
  cases a with
  | run k =>
      simp only [DeletesUnused, not_forall, not_not] at hused
      obtain ⟨p, hk, j, ρ, hj, hregistered⟩ := hused
      have hjk : j ≠ k := by
        rintro rfl
        rw [hk] at hj
        cases hj
      -- the socket asked for the name under which its room is registered
      have hname : (s.sockets j).roomName = (s.server.rooms (s.server.peers p).room).name := by
        have hroom : s.server.directory.roomName ρ = (s.sockets j).roomName := by
          rcases Stage.entered_eq_some.mp hj with hcreate | ⟨φ, q, hq, -, rfl⟩
          · exact (hsound.created j ρ hcreate).2
          · exact (hsound.phase j φ q hq).2.1
        rw [← hroom]
        exact (hsound.lobby _ ρ hregistered).2
      have hs' : s' = s.goto k .gone (Lobby.deleteRoom
          (s.server.rooms (s.server.peers p).room).name s.server) [] := by
        simpa [State.step, State.run, hk, eq_comm] using hstep
      subst hs'
      intro hlocated
      have hj' : (s.sockets j).stage.entered (Lobby.deleteRoom
          (s.server.rooms (s.server.peers p).room).name s.server).directory = some ρ := hj
      have hlobby := hlocated j ρ (by simpa [State.view, State.goto, hjk] using hj')
      simp [State.view, State.goto, hjk, hname, Server.directory, Lobby.getRoom, Lobby.deleteRoom]
        at hlobby
  | _ => exact absurd trivial hused

/-- The socket's peer has finished joining and not begun to leave. -/
def State.IsStaying (s : State) (k : SocketRef) (p : PeerRef) : Prop :=
  (s.sockets k).stage.phase = some (.staying, p)

/-- **Peers who joined under one room name are in one room**, in every run
that deletes no room a socket has got and not begun to leave: the peer is a
member of the room registered under its room name.  And in such a run a step
keeps every such socket in its registered room exactly when it does not delete
one in use. -/
theorem joined_share_room {s : State}
    (hs : (system fw config).ReachableVia DeletesUnused s) :
    (∀ k p, s.IsStaying k p →
      Lobby.getRoom (s.sockets k).roomName s.server = some (s.server.peers p).room ∧
      Room.getPeerById (s.server.peers p).room (s.server.peers p).peerId s.server = some p) ∧
    (∀ j k p q, s.IsStaying j p → s.IsStaying k q →
      (s.sockets j).roomName = (s.sockets k).roomName →
      (s.server.peers p).room = (s.server.peers q).room) ∧
    ∀ a s', (system fw config).step s a = some s' → (Located s'.view ↔ DeletesUnused s a) := by
  have hsound := sound hs.reachable
  have hlocated := located hs
  have hstaying : ∀ k p, s.IsStaying k p →
      Lobby.getRoom (s.sockets k).roomName s.server = some (s.server.peers p).room := by
    intro k p hp
    exact hlocated k _ (Stage.entered_eq_some.mpr (.inr ⟨_, p, hp, rfl, rfl⟩))
  refine ⟨fun k p hp => ⟨hstaying k p hp, hsound.member hp rfl⟩, fun j k p q hp hq hname => ?_,
    fun a s' hstep => ⟨fun hlocated' => ?_, fun hunused => ?_⟩⟩
  · have hroom := hstaying j p hp
    rw [hname, hstaying k q hq] at hroom
    exact (Option.some.inj hroom).symm
  · by_contra hused
    exact not_located_of_used hsound hused hstep hlocated'
  · exact located_step hsound hlocated hunused hstep

/-! ### Two sockets -/

/-- The step is no `deleteRoom`. -/
def deletesNothing (s : State) : Act → Bool
  | .run k =>
      match (s.sockets k).stage with
      | .deleteRoom _ => false
      | _ => true
  | _ => true

theorem deletesUnused_of_deletesNothing (s : State) (a : Act) (h : deletesNothing s a = true) :
    DeletesUnused s a := by
  cases a with
  | run k =>
      intro p hk
      simp [deletesNothing, hk] at h
  | _ => trivial

theorem joined_share_room_both :
    ∃ s, (system silent {}).run fresh joinBoth = some s ∧ s.IsStaying 0 0 ∧ s.IsStaying 1 1 ∧
      (s.server.peers 0).room = (s.server.peers 1).room := by
  obtain ⟨s, hrun, hann, hbob, hname⟩ : ∃ s, (system silent {}).run fresh joinBoth = some s ∧
      s.IsStaying 0 0 ∧ s.IsStaying 1 1 ∧ (s.sockets 0).roomName = (s.sockets 1).roomName :=
    ⟨_, rfl, rfl, rfl, rfl⟩
  have hs : (system silent {}).ReachableVia (fun s a => deletesNothing s a = true) s :=
    .run (.init ⟨_, rfl⟩) (by decide) hrun
  have hshare := joined_share_room (hs.mono deletesUnused_of_deletesNothing)
  exact ⟨s, hrun, hann, hbob, hshare.2.1 0 1 0 1 hann hbob hname⟩

/-- Ann has joined; Bob gets her room, which Ann, the last member, then leaves
and deletes; Bob enters it. -/
def enterAndDelete : List Act :=
  .connect 0 "lounge" "Ann" :: List.replicate 8 (.run 0) ++ [.connect 1 "lounge" "Bob", .run 1] ++
    .close 0 :: List.replicate 6 (.run 0) ++ List.replicate 7 (.run 1)

/-- Bob has joined, but no room is registered under the name he asked for. -/
theorem deleted_room_strands :
    ∃ s, (system silent {}).Reachable s ∧ s.IsStaying 1 1 ∧ (s.sockets 1).roomName = "lounge" ∧
      Lobby.getRoom "lounge" s.server = none := by
  obtain ⟨s, hrun, hrest⟩ : ∃ s, (system silent {}).run fresh enterAndDelete = some s ∧
      s.IsStaying 1 1 ∧ (s.sockets 1).roomName = "lounge" ∧
      Lobby.getRoom "lounge" s.server = none := ⟨_, rfl, rfl, rfl, rfl⟩
  exact ⟨s, .run (.init ⟨_, rfl⟩) hrun, hrest⟩

end Chat

end CanChat
