/-
CanChat/Mutexes.lean

The server's mutexes, and when its threads can deadlock.

Every operation is the sequence of acquisitions and releases its `lock_guard`s
perform, with the locks of the functions it calls inside.  The data an
operation finds (the rooms of the ping loop, the files and subscribers of a
leaver) is a parameter, so every run of the server is covered.

The order rooms < peerById < fileById < history < subscribers < chunk is kept
by every operation but one: `shareFile` takes `fileById` first and looks the
host up, under `peerById`, while holding it; `removePeerById` takes them the
other way round.  These two acquisitions are the only way into a cycle
(`not_deadlocked_of_inversionFree`), and they are one
(`deadlocked_of_inversion`).
-/
import CanChat.LockOrder
import CanChat.Subscriber

namespace CanChat

open LockOrder

/-! ### Mutexes and operations -/

inductive Mutex
  /-- `Lobby::m_roomsMutex` -/
  | rooms
  /-- `Room::m_peerByIdLock` -/
  | peerById (ρ : RoomRef)
  /-- `Room::m_fileByIdLock` -/
  | fileById (ρ : RoomRef)
  /-- `Room::m_historyLock` -/
  | history (ρ : RoomRef)
  /-- `File::m_subscribersLock` -/
  | subscribers (f : FileRef)
  /-- `File::Subscriber::m_chunkLock` -/
  | chunk (σ : SubscriberRef)
  deriving DecidableEq, Repr

/-- The operations of the server, with what they find in the maps they read. -/
inductive Operation
  | getOrCreateRoom
  | getRoom
  | deleteRoom
  /-- one pass of `runPingLoop` over the registered rooms -/
  | pingLoop (registered : List RoomRef)
  | addPeer (ρ : RoomRef)
  /-- `removePeerById` of an id that is not in the map -/
  | removeAbsentPeer (ρ : RoomRef)
  /-- `removePeerById` of a peer that hosts `files` with these subscribers -/
  | removePeerById (ρ : RoomRef) (files : List (FileRef × List SubscriberRef))
  /-- `addHistoryMessage` with the history enabled -/
  | addHistoryMessage (ρ : RoomRef)
  | sendMessageAsync (ρ : RoomRef)
  | onboardPeer (ρ : RoomRef) (historyEnabled : Bool)
  | shareFile (ρ : RoomRef)
  | getFileById (ρ : RoomRef)
  | subscribe (f : FileRef)
  | unsubscribe (f : FileRef)
  /-- `File::provideFileChunk`, and the subscriber found -/
  | provideFileChunk (f : FileRef) (subscriber : Option SubscriberRef)
  | clearSubscribers (f : FileRef) (cleared : List SubscriberRef)
  | readChunk (σ : SubscriberRef)
  /-- the tests of `WaitCoroutine::act` and `WaitListListener::onNewItem` -/
  | waitTest (σ : SubscriberRef)
  | invalidate (σ : SubscriberRef)

namespace Mutex

/-- `File::clearSubscribers` invalidates each subscriber under its own lock. -/
def clearSubscribersOps (f : FileRef) (cleared : List SubscriberRef) : List (LockOp Mutex) :=
  lockGuard (.subscribers f) (cleared.flatMap fun σ => lockGuard (.chunk σ) [])

def program : Operation → List (LockOp Mutex)
  | .getOrCreateRoom => lockGuard .rooms []
  | .getRoom => lockGuard .rooms []
  | .deleteRoom => lockGuard .rooms []
  | .pingLoop registered =>
      lockGuard .rooms (registered.flatMap fun ρ => lockGuard (.peerById ρ) [])
  | .addPeer ρ => lockGuard (.peerById ρ) []
  | .removeAbsentPeer ρ => lockGuard (.peerById ρ) []
  | .removePeerById ρ files =>
      lockGuard (.peerById ρ) (lockGuard (.fileById ρ)
        (files.flatMap fun file => clearSubscribersOps file.1 file.2))
  | .addHistoryMessage ρ => lockGuard (.history ρ) []
  | .sendMessageAsync ρ => lockGuard (.peerById ρ) []
  | .onboardPeer ρ historyEnabled =>
      lockGuard (.peerById ρ) [] ++ if historyEnabled then lockGuard (.history ρ) [] else []
  | .shareFile ρ => lockGuard (.fileById ρ) (lockGuard (.peerById ρ) [])
  | .getFileById ρ => lockGuard (.fileById ρ) []
  | .subscribe f => lockGuard (.subscribers f) []
  | .unsubscribe f => lockGuard (.subscribers f) []
  | .provideFileChunk f subscriber =>
      lockGuard (.subscribers f) (subscriber.toList.flatMap fun σ => lockGuard (.chunk σ) [])
  | .clearSubscribers f cleared => clearSubscribersOps f cleared
  | .readChunk σ => lockGuard (.chunk σ) []
  | .waitTest σ => lockGuard (.chunk σ) []
  | .invalidate σ => lockGuard (.chunk σ) []

/-- The server's threads over its mutexes. -/
def system (τ : Type) [DecidableEq τ] : Transition.System (State Mutex τ) (Act τ Operation) :=
  LockOrder.system program

/-! ### The discipline -/

def rank : Mutex → ℕ
  | .rooms => 0
  | .peerById _ => 1
  | .fileById _ => 2
  | .history _ => 3
  | .subscribers _ => 4
  | .chunk _ => 5

/-- What the operations keep to: the order of `rank`, but for `peerById` under
`fileById` of the same room; and `fileById` is acquired with nothing held, or
under `peerById` of the same room. -/
def MayAcquire (held : List Mutex) (m : Mutex) : Prop :=
  ((∀ k ∈ held, k.rank < m.rank) ∨ ∃ ρ, held = [.fileById ρ] ∧ m = .peerById ρ) ∧
    ∀ ρ, m = .fileById ρ → held = [] ∨ held = [.peerById ρ]

theorem mayAcquire_nil (m : Mutex) : MayAcquire [] m := by simp [MayAcquire]

/-- Any mutex other than `fileById` may be acquired in the order of `rank`. -/
theorem mayAcquire_of_rank {held : List Mutex} {m : Mutex} (h : ∀ k ∈ held, k.rank < m.rank)
    (hm : ∀ ρ, m ≠ .fileById ρ) : MayAcquire held m :=
  ⟨.inl h, fun ρ e => absurd e (hm ρ)⟩

theorem neutral_lockGuard_nil {held : List Mutex} {m : Mutex} (h : MayAcquire held m) :
    Neutral MayAcquire held (lockGuard m []) :=
  neutral_lockGuard h neutral_nil

theorem neutral_clearSubscribersOps {held : List Mutex} (h : ∀ k ∈ held, k.rank < 4) (f : FileRef)
    (cleared : List SubscriberRef) : Neutral MayAcquire held (clearSubscribersOps f cleared) := by
  refine neutral_lockGuard (mayAcquire_of_rank h (by simp)) (neutral_flatMap fun σ _ => ?_)
  refine neutral_lockGuard_nil (mayAcquire_of_rank (fun k hk => ?_) (by simp))
  rcases List.mem_cons.mp hk with rfl | hk
  · exact Nat.lt_succ_self 4
  · exact (h k hk).trans (Nat.lt_succ_self 4)

/-- **Every operation keeps to the discipline.** -/
theorem neutral_program (o : Operation) : Neutral MayAcquire [] (program o) := by
  have single : ∀ m, Neutral MayAcquire [] (lockGuard m []) := fun m =>
    neutral_lockGuard_nil (mayAcquire_nil m)
  cases o with
  | pingLoop registered =>
      refine neutral_lockGuard (mayAcquire_nil _) (neutral_flatMap fun ρ _ => ?_)
      exact neutral_lockGuard_nil (mayAcquire_of_rank (by simp [rank]) (by simp))
  | removePeerById ρ files =>
      refine neutral_lockGuard (mayAcquire_nil _) (neutral_lockGuard ?_ ?_)
      · exact ⟨.inl (by simp [rank]), fun ρ' e => by cases e; exact .inr rfl⟩
      · exact neutral_flatMap fun file _ =>
          neutral_clearSubscribersOps (by simp [rank]) file.1 file.2
  | onboardPeer ρ historyEnabled =>
      refine (single _).append ?_
      cases historyEnabled
      · exact neutral_nil
      · exact single _
  | shareFile ρ =>
      -- the one acquisition against the order
      refine neutral_lockGuard (mayAcquire_nil _) (neutral_lockGuard_nil ?_)
      exact ⟨.inr ⟨ρ, rfl, rfl⟩, by simp⟩
  | provideFileChunk f subscriber =>
      refine neutral_lockGuard (mayAcquire_nil _) (neutral_flatMap fun σ _ => ?_)
      exact neutral_lockGuard_nil (mayAcquire_of_rank (by simp [rank]) (by simp))
  | clearSubscribers f cleared => exact neutral_clearSubscribersOps (by simp) f cleared
  | _ => exact single _

variable {τ : Type} [DecidableEq τ]

theorem disciplined {s : State Mutex τ} (hs : (system τ).Reachable s) : Disciplined MayAcquire s :=
  Reachable.disciplined (fun o => (neutral_program o).follows) hs

/-! ### The inversion -/

/-- Inside `shareFile`: `fileById` is held, `peerById` is next. -/
def BetweenShare (t : Thread Mutex) (ρ : RoomRef) : Prop :=
  t.held = [.fileById ρ] ∧ t.Wants (.peerById ρ)

/-- Inside `removePeerById`: `peerById` is held, `fileById` is next. -/
def BetweenRemove (t : Thread Mutex) (ρ : RoomRef) : Prop :=
  t.held = [.peerById ρ] ∧ t.Wants (.fileById ρ)

/-- The step does not bring a thread between the two acquisitions of
`shareFile` while another is between those of `removePeerById` for the same
room, nor the other way round. -/
def InversionFree (s : State Mutex τ) : Act τ Operation → Prop
  | .start _ _ => True
  | .run t => ∀ ρ u, u ≠ t →
      ¬ (BetweenShare (s.threads t).next ρ ∧ BetweenRemove (s.threads u) ρ) ∧
      ¬ (BetweenRemove (s.threads t).next ρ ∧ BetweenShare (s.threads u) ρ)

/-- No two threads are in opposite order in one room. -/
def NoInversion (s : State Mutex τ) : Prop :=
  ∀ ρ t u, ¬ (BetweenShare (s.threads t) ρ ∧ BetweenRemove (s.threads u) ρ)

theorem noInversion_step {s s' : State Mutex τ} {a : Act τ Operation}
    (hd : Disciplined MayAcquire s) (h : NoInversion s) (hfree : InversionFree s a)
    (hstep : (system τ).step s a = some s') : NoInversion s' := by
  intro ρ x y ⟨hx, hy⟩
  cases a with
  | start t o =>
      obtain ⟨hidle, -, hthreads⟩ := step_start hstep
      have hheld : (s.threads t).held = [] := by
        have := hd.follows t
        rwa [hidle] at this
      -- the thread that starts holds nothing, so neither `x` nor `y` is it
      have hxt : x ≠ t := by
        rintro rfl
        simp [hthreads, BetweenShare, hheld] at hx
      have hyt : y ≠ t := by
        rintro rfl
        simp [hthreads, BetweenRemove, hheld] at hy
      rw [hthreads, Function.update_of_ne hxt] at hx
      rw [hthreads, Function.update_of_ne hyt] at hy
      exact h ρ x y ⟨hx, hy⟩
  | run t =>
      obtain ⟨hthreads, -⟩ := step_run hstep
      by_cases hxt : x = t
      · subst hxt
        by_cases hyx : y = x
        · subst hyx
          have := hx.1.symm.trans hy.1
          simp at this
        · rw [hthreads, Function.update_self] at hx
          rw [hthreads, Function.update_of_ne hyx] at hy
          exact (hfree ρ y hyx).1 ⟨hx, hy⟩
      · rw [hthreads, Function.update_of_ne hxt] at hx
        by_cases hyt : y = t
        · subst hyt
          rw [hthreads, Function.update_self] at hy
          exact (hfree ρ x hxt).2 ⟨hy, hx⟩
        · rw [hthreads, Function.update_of_ne hyt] at hy
          exact h ρ x y ⟨hx, hy⟩

omit [DecidableEq τ] in
/-- What a thread wants is what the discipline lets it acquire. -/
theorem mayAcquire_of_wants {s : State Mutex τ} (hd : Disciplined MayAcquire s) {t : τ} {m : Mutex}
    (hm : (s.threads t).Wants m) : MayAcquire (s.threads t).held m := by
  obtain ⟨rest, htodo⟩ := hm
  have := hd.follows t
  rw [htodo] at this
  exact this.1

omit [DecidableEq τ] in
/-- A cycle through a thread that is out of order contains an inversion. -/
theorem exists_inversion_of_cycle {s : State Mutex τ} (hd : Disciplined MayAcquire s) {u : τ}
    (hu : Relation.TransGen (WaitsFor s) u u) (hord : ¬ Ordered rank (s.threads u)) :
    ∃ ρ t, BetweenShare (s.threads u) ρ ∧ BetweenRemove (s.threads t) ρ := by
  obtain ⟨m, hm⟩ := WaitsFor.exists_wants hu
  -- out of order, `u` can only be in `shareFile`
  obtain ⟨ρ, hheld, rfl⟩ : ∃ ρ, (s.threads u).held = [.fileById ρ] ∧ m = .peerById ρ := by
    refine (mayAcquire_of_wants hd hm).1.resolve_left fun hlt => hord fun m' hm' => ?_
    obtain rfl := hm.unique hm'
    exact hlt
  -- its predecessor wants `fileById`, and is itself waited for
  obtain ⟨t, ht, k, hk, hkowner⟩ := exists_waiter_on_cycle hu
  have hkheld : k ∈ (s.threads u).held := (hd.owner_iff u k).mp hkowner
  rw [hheld, List.mem_singleton] at hkheld
  subst hkheld
  obtain ⟨v, -, j, -, hjowner⟩ := exists_waiter_on_cycle ht
  have hjheld : j ∈ (s.threads t).held := (hd.owner_iff t j).mp hjowner
  have htheld : (s.threads t).held = [.peerById ρ] := by
    refine ((mayAcquire_of_wants hd hk).2 ρ rfl).resolve_left fun hnil => ?_
    rw [hnil] at hjheld
    cases hjheld
  exact ⟨ρ, t, ⟨hheld, hm⟩, ⟨htheld, hk⟩⟩

theorem noInversion {s : State Mutex τ} (hs : (system τ).ReachableVia InversionFree s) :
    NoInversion s := by
  refine hs.invariant ?_ ?_
  · rintro _ rfl ρ t u ⟨h, -⟩
    simp [BetweenShare] at h
  · intro s a s' hs h hfree hstep
    exact noInversion_step (disciplined hs.reachable) h hfree hstep

omit [DecidableEq τ] in
/-- An inversion is a deadlock: each of the two threads waits for the other. -/
theorem deadlocked_of_inversion {s : State Mutex τ} (hd : Disciplined MayAcquire s) {ρ : RoomRef}
    {t u : τ} (ht : BetweenShare (s.threads t) ρ) (hu : BetweenRemove (s.threads u) ρ) :
    Deadlocked s := by
  have htu : WaitsFor s t u := by
    refine ⟨_, ht.2, (hd.owner_iff u _).mpr ?_⟩
    rw [hu.1]
    exact List.mem_singleton_self _
  have hut : WaitsFor s u t := by
    refine ⟨_, hu.2, (hd.owner_iff t _).mpr ?_⟩
    rw [ht.1]
    exact List.mem_singleton_self _
  exact ⟨t, .tail (.single htu) hut⟩

omit [DecidableEq τ] in
theorem not_deadlocked_of_noInversion {s : State Mutex τ} (hd : Disciplined MayAcquire s)
    (h : NoInversion s) : ¬ Deadlocked s := by
  refine not_deadlocked_of_ordered rank hd fun u hu => ?_
  by_contra hord
  obtain ⟨ρ, t, hshare, hremove⟩ := exists_inversion_of_cycle hd hu hord
  exact h ρ u t ⟨hshare, hremove⟩

/-- **The server's mutexes do not deadlock in a run without inversions**, for
any number of threads running any of the operations; and in such a run a step
leads into a deadlock exactly when it is an inversion. -/
theorem deadlockFree_iff_inversionFree {s : State Mutex τ}
    (hs : (system τ).ReachableVia InversionFree s) :
    ¬ Deadlocked s ∧ ∀ a s', (system τ).step s a = some s' →
      (¬ Deadlocked s' ↔ InversionFree s a) := by
  have hd : Disciplined MayAcquire s := disciplined hs.reachable
  refine ⟨not_deadlocked_of_noInversion hd (noInversion hs), fun a s' hstep => ⟨?_, ?_⟩⟩
  · intro hnd
    have hd' : Disciplined MayAcquire s' := disciplined (hs.reachable.step hstep)
    cases a with
    | start t o => trivial
    | run t =>
        obtain ⟨hthreads, -⟩ := step_run hstep
        refine fun ρ u hut => ⟨fun ⟨ht, hu⟩ => hnd ?_, fun ⟨ht, hu⟩ => hnd ?_⟩
        · refine deadlocked_of_inversion hd' (ρ := ρ) (t := t) (u := u) ?_ ?_
          · rwa [hthreads, Function.update_self]
          · rwa [hthreads, Function.update_of_ne hut]
        · refine deadlocked_of_inversion hd' (ρ := ρ) (t := u) (u := t) ?_ ?_
          · rwa [hthreads, Function.update_of_ne hut]
          · rwa [hthreads, Function.update_self]
  · intro hfree
    have hs' : (system τ).ReachableVia InversionFree s' := .step hs hfree hstep
    exact not_deadlocked_of_noInversion (disciplined hs'.reachable) (noInversion hs')

/-! ### Two threads in one room -/

/-- One peer shares a file, and is through to the lookup of the host. -/
def sharing : List (Act ℕ Operation) := [.start 0 (.shareFile 0), .run 0]

theorem deadlockFree_iff_inversionFree_sharing :
    ∃ s : State Mutex ℕ, (system ℕ).run ⟨fun _ => {}, fun _ => none⟩ sharing = some s ∧
      ¬ Deadlocked s ∧ ∀ a s', (system ℕ).step s a = some s' →
        (¬ Deadlocked s' ↔ InversionFree s a) := by
  refine ⟨_, rfl, deadlockFree_iff_inversionFree ?_⟩
  refine .step (a := .run 0) (.step (a := .start 0 (.shareFile 0)) (.init rfl) ?_ rfl) ?_ rfl
  · trivial
  · intro ρ u hu
    -- no other thread has started anything
    simp [BetweenShare, BetweenRemove, hu]

/-- One peer shares a file while another leaves the room: the first holds
`fileById` and waits for `peerById`, the second the other way round. -/
theorem shareFile_removePeerById_deadlock :
    ∃ s : State Mutex ℕ, (system ℕ).Reachable s ∧ Deadlocked s := by
  let acts : List (Act ℕ Operation) :=
    [.start 0 (.shareFile 0), .start 1 (.removePeerById 0 []), .run 0, .run 1]
  obtain ⟨s, hrun, h0, h1⟩ : ∃ s, (system ℕ).run ⟨fun _ => {}, fun _ => none⟩ acts = some s ∧
      BetweenShare (s.threads 0) 0 ∧ BetweenRemove (s.threads 1) 0 :=
    ⟨_, rfl, ⟨rfl, _, rfl⟩, ⟨rfl, _, rfl⟩⟩
  have hs : (system ℕ).Reachable s := Transition.System.Reachable.run (.init rfl) hrun
  exact ⟨s, hs, deadlocked_of_inversion (disciplined hs) h0 h1⟩

end Mutex

end CanChat
