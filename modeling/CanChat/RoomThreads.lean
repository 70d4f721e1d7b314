/-
CanChat/RoomThreads.lean

The threads of one room: addPeer, removePeerById, shareFile and downloads,
interleaved at the granularity of their lock acquisitions, and the invariant
of the room's registry.

Design.  A thread runs one operation at a time; its `Pc` says where it stands
between two steps.  A step takes a mutex and goes on to the next acquisition,
to the release of a mutex another thread may be waiting for, or to the end.
The system is the part of the server that belongs to room `ρ`; peers of other
rooms only use up peer ids.

`departed` and `cleared` are ghosts: the peers whose removal has completed, and
the files that `clearSubscribers` has been called on.
-/
import CanChat.Registry
import CanChat.Transition

namespace CanChat

namespace RoomThreads

/-! ### The threads -/

/-- The arguments of `shareFile`. -/
structure Share where
  hostPeerId : Int
  clientFileId : Int
  fileName : Option String
  fileSize : Int
  deriving DecidableEq, Repr

/-- Where a thread is: idle, or before the next step of an operation. -/
inductive Pc
  | idle
  | addPeer (p : PeerRef)
  | removePeerById (peerId : Int)
  /-- the peer is found: `m_peerByIdLock` is held, `m_fileByIdLock` is next -/
  | removing (peerId : Int) (p : PeerRef)
  /-- in the loop over the leaver's files, with both mutexes -/
  | cancelling (peerId : Int) (p : PeerRef) (todo : List FileRef)
  /-- `clearSubscribers` of `f` is over and has released `m_subscribersLock`;
  `m_fileById.erase` is next -/
  | clearing (peerId : Int) (p : PeerRef) (f : FileRef) (todo : List FileRef)
  /-- after the loop: `m_fileByIdLock` is released -/
  | erasing (peerId : Int) (p : PeerRef)
  | shareFile (share : Share)
  /-- `m_fileByIdLock` is held, `getPeerById` is next -/
  | sharing (share : Share)
  /-- the host is found and `m_peerByIdLock` is released -/
  | registering (host : PeerRef) (share : Share)
  | getFileById (fileId : Int)
  /-- a download has its file and is about to subscribe -/
  | found (f : FileRef)
  deriving DecidableEq, Repr

/-- The thread holds `m_peerByIdLock`. -/
def Pc.holdsPeerById : Pc → Bool
  | .removing _ _ | .cancelling _ _ _ | .clearing _ _ _ _ | .erasing _ _ => true
  | _ => false

/-- The thread holds `m_fileByIdLock`. -/
def Pc.holdsFileById : Pc → Bool
  | .cancelling _ _ _ | .clearing _ _ _ _ | .sharing _ | .registering _ _ => true
  | _ => false

/-- The peer being removed and its files that are still to be erased. -/
def Pc.leaving : Pc → Option (PeerRef × List FileRef)
  | .cancelling _ p todo => some (p, todo)
  | .clearing _ p f todo => some (p, f :: todo)
  | .erasing _ p => some (p, [])
  | _ => none

/-- The server, where each thread is, who holds the two mutexes of the room, the
peers that have departed and the files that have been cleared. -/
structure State (τ : Type) where
  server : Server := {}
  pc : τ → Pc := fun _ => .idle
  peerByIdLock : Option τ := none
  fileByIdLock : Option τ := none
  departed : List PeerRef := []
  cleared : List FileRef := []

/-- What the threads do. -/
inductive Act (τ : Type)
  /-- a peer of another room is created -/
  | obtainNewPeerId
  | addPeer (t : τ) (socket : SocketRef) (nickname : String)
  | removePeerById (t : τ) (peerId : Int)
  | shareFile (t : τ) (share : Share)
  | getFile (t : τ) (fileId : Int)
  /-- the next step of the operation `t` is in -/
  | run (t : τ)
  | read (σ : SubscriberRef) (count : Int)
  | provideFileChunk (f : FileRef) (subscriberId : Int) (data : Bytes)
  | destroy (σ : SubscriberRef)

namespace State

variable {τ : Type} [DecidableEq τ] (ρ : RoomRef)

def goto (t : τ) (pc : Pc) (s : State τ) : State τ :=
  { s with pc := Function.update s.pc t pc }

/-- Begin an operation. -/
def start (t : τ) (pc : Pc) (s : State τ) : Option (State τ) :=
  if s.pc t = .idle then some (s.goto t pc) else none

/-- The next step of thread `t`, if it is not waiting for a mutex. -/
def run (t : τ) (s : State τ) : Option (State τ) :=
  match s.pc t with
  | .idle => none
  | .addPeer p =>
      if s.peerByIdLock = none then
        some { s.goto t .idle with server := Room.addPeer ρ p s.server }
      else
        none
  | .removePeerById peerId =>
      if s.peerByIdLock = none then
        match Room.getPeerById ρ peerId s.server with
        | none => some (s.goto t .idle)
        | some p => some { s.goto t (.removing peerId p) with peerByIdLock := some t }
      else
        none
  | .removing peerId p =>
      if s.fileByIdLock = none then
        some { s.goto t (.cancelling peerId p (s.server.peers p).files) with
          fileByIdLock := some t }
      else
        none
  | .cancelling peerId p (f :: todo) =>
      some { s.goto t (.clearing peerId p f todo) with
        server := File.clearSubscribers f s.server
        cleared := f :: s.cleared }
  | .clearing peerId p f todo =>
      some { s.goto t (.cancelling peerId p todo) with server := Room.eraseFile ρ f s.server }
  | .cancelling peerId p [] =>
      some { s.goto t (.erasing peerId p) with fileByIdLock := none }
  | .erasing peerId p =>
      some { s.goto t .idle with
        server := Room.erasePeer ρ peerId s.server
        peerByIdLock := none
        departed := p :: s.departed }
  | .shareFile share =>
      if s.fileByIdLock = none then
        some { s.goto t (.sharing share) with fileByIdLock := some t }
      else
        none
  | .sharing share =>
      if s.peerByIdLock = none then
        match Room.getPeerById ρ share.hostPeerId s.server with
        -- `File host not found.`
        | none => some { s.goto t .idle with fileByIdLock := none }
        | some host => some (s.goto t (.registering host share))
      else
        none
  | .registering host share =>
      some { s.goto t .idle with
        server := (Room.registerFile ρ host share.clientFileId share.fileName share.fileSize
          s.server).2
        fileByIdLock := none }
  | .getFileById fileId =>
      if s.fileByIdLock = none then
        match Room.getFileById ρ fileId s.server with
        | none => some (s.goto t .idle)
        | some f => some (s.goto t (.found f))
      else
        none
  | .found f => some { s.goto t .idle with server := (File.subscribe f s.server).2 }

/-- One action; a thread begins an operation only when it is idle. -/
def step (s : State τ) : Act τ → Option (State τ)
  | .obtainNewPeerId =>
      some { s with server := { s.server with peerIdCounter := s.server.peerIdCounter + 1 } }
  | .addPeer t socket nickname =>
      let (p, server) := Lobby.createPeer socket ρ nickname s.server
      { s with server }.start t (.addPeer p)
  | .removePeerById t peerId => s.start t (.removePeerById peerId)
  | .shareFile t share => s.start t (.shareFile share)
  | .getFile t fileId => s.start t (.getFileById fileId)
  | .run t => s.run ρ t
  | .read σ count => some { s with server := ((Subscriber.read σ count).exec s.server).2 }
  | .provideFileChunk f subscriberId data =>
      some { s with server := ((File.provideFileChunk f subscriberId data).exec s.server).2 }
  | .destroy σ => some { s with server := Subscriber.destroy σ s.server }

end State

/-! ### A thread on its own -/

section Alone

variable {τ : Type} [DecidableEq τ] {ρ : RoomRef} {s : State τ} {t : τ}

/-- The next `n` steps of one thread. -/
def State.runs (ρ : RoomRef) (t : τ) : ℕ → State τ → Option (State τ)
  | 0, s => some s
  | n + 1, s => (s.run ρ t).bind (State.runs ρ t n)

theorem State.runs_succ {s' : State τ} (h : s.run ρ t = some s') (n : ℕ) :
    State.runs ρ t (n + 1) s = State.runs ρ t n s' := by
  rw [State.runs, h, Option.bind_some]

/-- Run alone, the loop of `removePeerById` takes two steps for each file. -/
theorem State.runs_cancelling {peerId : Int} {p : PeerRef} {todo : List FileRef}
    (hpc : s.pc t = .cancelling peerId p todo) (n : ℕ) :
    State.runs ρ t (2 * todo.length + n) s =
      State.runs ρ t n { s.goto t (.cancelling peerId p []) with
        server := todo.foldl (Room.cancelFile ρ) s.server
        cleared := todo.reverse ++ s.cleared } := by
  induction todo generalizing s with
  | nil =>
      have hgoto : s.goto t (.cancelling peerId p []) = s := by
        simp [State.goto, ← hpc]
      simp [hgoto]
  | cons f todo ih =>
      have hcount : 2 * (f :: todo).length + n = (2 * todo.length + n) + 1 + 1 := by
        rw [List.length_cons]
        omega
      have hclears : s.run ρ t = some { s.goto t (.clearing peerId p f todo) with
          server := File.clearSubscribers f s.server
          cleared := f :: s.cleared } := by
        rw [State.run, hpc]
      have herases : State.run ρ t { s.goto t (.clearing peerId p f todo) with
          server := File.clearSubscribers f s.server
          cleared := f :: s.cleared } =
          some { s.goto t (.cancelling peerId p todo) with
            server := Room.cancelFile ρ s.server f
            cleared := f :: s.cleared } := by
        simp [State.run, State.goto, Room.cancelFile]
      rw [hcount, State.runs_succ hclears, State.runs_succ herases, ih (by simp [State.goto])]
      simp [State.goto]

/-- Without interference the steps of `removePeerById` amount to the function. -/
theorem State.runs_removePeerById {peerId : Int} {p : PeerRef}
    (hpc : s.pc t = .removePeerById peerId) (hpeers : s.peerByIdLock = none)
    (hfiles : s.fileByIdLock = none) (hp : Room.getPeerById ρ peerId s.server = some p) :
    State.runs ρ t (2 * (s.server.peers p).files.length + 4) s = some { s.goto t .idle with
      server := Room.removePeerById ρ peerId s.server
      departed := p :: s.departed
      cleared := (s.server.peers p).files.reverse ++ s.cleared } := by
  have hfound : s.run ρ t =
      some { s.goto t (.removing peerId p) with peerByIdLock := some t } := by
    simp [State.run, hpc, hpeers, hp]
  have hbegin : State.run ρ t { s.goto t (.removing peerId p) with peerByIdLock := some t } =
      some { s.goto t (.cancelling peerId p (s.server.peers p).files) with
        peerByIdLock := some t
        fileByIdLock := some t } := by
    simp [State.run, State.goto, hfiles]
  rw [State.runs_succ hfound, State.runs_succ hbegin,
    State.runs_cancelling (p := p) (Function.update_self t (.cancelling peerId p _) s.pc)]
  simp [State.runs, State.run, State.goto, Room.removePeerById, hp, hpeers, hfiles]

/-- Likewise those of `shareFile`. -/
theorem State.runs_shareFile {share : Share} {host : PeerRef} (hpc : s.pc t = .shareFile share)
    (hpeers : s.peerByIdLock = none) (hfiles : s.fileByIdLock = none)
    (hhost : Room.getPeerById ρ share.hostPeerId s.server = some host) :
    State.runs ρ t 3 s = some { s.goto t .idle with
      server := ((Room.shareFile ρ share.hostPeerId share.clientFileId share.fileName
        share.fileSize).exec s.server).2 } := by
  simp [State.runs, State.run, State.goto, Room.shareFile, Handler.exec_bind, hpc, hpeers, hfiles,
    hhost]

end Alone

/-! ### The system -/

/-- Room `ρ` has just been created and nobody has entered it. -/
structure Fresh (ρ : RoomRef) (s : Server) : Prop where
  room : ∃ name, s.rooms ρ = { name }
  peerCount : s.peerCount = 0
  peers : ∀ p, (s.peers p).files = []
  fileCount : s.fileCount = 0
  subscribers : ∀ σ, s.subscribers σ = none

/-- The threads of room `ρ`, from a server where the room is new. -/
def system (ρ : RoomRef) (τ : Type) [DecidableEq τ] : Transition.System (State τ) (Act τ) where
  init s := ∃ server, Fresh ρ server ∧ s = { server }
  step := State.step ρ

/-! ### Mutexes -/

section Mutexes

variable {τ : Type}

/-- The mutex is held exactly by the thread whose operation holds it. -/
def Owned (holds : Pc → Bool) (pc : τ → Pc) (lock : Option τ) : Prop :=
  ∀ t, holds (pc t) = true ↔ lock = some t

variable [DecidableEq τ] {holds : Pc → Bool} {pc : τ → Pc} {lock : Option τ} {t : τ} {x : Pc}

/-- A thread that holds as much as before does not change the owner. -/
theorem Owned.keep (h : Owned holds pc lock) (heq : holds x = holds (pc t)) :
    Owned holds (Function.update pc t x) lock := by
  intro u
  rcases eq_or_ne u t with rfl | hne
  · rw [Function.update_self, heq]
    exact h u
  · rw [Function.update_of_ne hne]
    exact h u

/-- A thread that takes a free mutex is its owner. -/
theorem Owned.acquire (h : Owned holds pc none) (hx : holds x = true) :
    Owned holds (Function.update pc t x) (some t) := by
  intro u
  rcases eq_or_ne u t with rfl | hne
  · simp [hx]
  · rw [Function.update_of_ne hne, h u]
    simp [hne.symm]

/-- A thread that releases its mutex leaves it free. -/
theorem Owned.release (h : Owned holds pc lock) (hpc : holds (pc t) = true)
    (hx : holds x = false) : Owned holds (Function.update pc t x) none := by
  intro u
  rcases eq_or_ne u t with rfl | hne
  · simp [hx]
  · rw [Function.update_of_ne hne, h u, (h t).mp hpc]
    simp [hne.symm]

omit [DecidableEq τ] in
/-- Nobody holds a free mutex. -/
theorem Owned.not_holds (h : Owned holds pc none) (u : τ) : holds (pc u) = false := by
  simpa using mt (h u).mp (by simp)

end Mutexes

/-! ### The invariant -/

variable {ρ : RoomRef} {τ : Type} [DecidableEq τ]

/-- What a thread relies on between two of its steps. -/
def Pc.Valid (r : Registry) (departed : List PeerRef) (leaving : Option (PeerRef × List FileRef)) :
    Pc → Prop
  | .addPeer p => p < r.peerCount ∧ r.hosted p = [] ∧ ¬ r.Present p ∧ p ∉ departed
  | .removing peerId p | .cancelling peerId p _ | .clearing peerId p _ _ | .erasing peerId p =>
      r.peerId p = peerId ∧ r.Present p
  | .registering host _ => r.Present host ∧ ∀ todo, leaving ≠ some (host, todo)
  | .found f => f < r.fileCount
  | _ => True

/-- The peer being removed, if any, and its files that are still to go: only
the thread that has locked the peers can be removing one. -/
def leaving (peerByIdLock : Option τ) (pc : τ → Pc) : Option (PeerRef × List FileRef) :=
  peerByIdLock.bind fun t => (pc t).leaving

/-- The registry is consistent, what the threads rely on is so, and every file
ever shared has a host that is present or has departed. -/
structure Sound (r : Registry) (leaving : Option (PeerRef × List FileRef))
    (departed : List PeerRef) (pc : τ → Pc) : Prop where
  consistent : r.Consistent leaving
  valid : ∀ t, (pc t).Valid r departed leaving
  addedOnce : ∀ t u p, pc t = .addPeer p → pc u = .addPeer p → u = t
  absent : ∀ p ∈ departed, p < r.peerCount ∧ ¬ r.Present p
  hosts : ∀ f < r.fileCount, r.Present (r.host f) ∨ r.host f ∈ departed

/-- The two mutexes have their owners, and the registry is sound. -/
structure Invariant (ρ : RoomRef) (s : State τ) : Prop where
  peerByIdLock : Owned Pc.holdsPeerById s.pc s.peerByIdLock
  fileByIdLock : Owned Pc.holdsFileById s.pc s.fileByIdLock
  sound : Sound (s.server.registry ρ) (leaving s.peerByIdLock s.pc) s.departed s.pc

namespace Sound

variable {r : Registry} {l : Option (PeerRef × List FileRef)} {d : List PeerRef} {pc : τ → Pc}
  {p : PeerRef}

theorem goto (h : Sound r l d pc) {t : τ} {x : Pc} (hadd : ∀ p, x ≠ .addPeer p)
    (hvalid : x.Valid r d l) : Sound r l d (Function.update pc t x) :=
  { h with
    valid := fun u => by
      rcases eq_or_ne u t with rfl | hne
      · simpa using hvalid
      · simpa [hne] using h.valid u
    addedOnce := fun u v p hu hv => by
      have hne : ∀ w, Function.update pc t x w = .addPeer p → w ≠ t := by
        rintro w hw rfl
        exact hadd p (by simpa using hw)
      rw [Function.update_of_ne (hne u hu)] at hu
      rw [Function.update_of_ne (hne v hv)] at hv
      exact h.addedOnce u v p hu hv }

omit [DecidableEq τ] in
theorem obtainNewPeerId (h : Sound r l d pc) : Sound r.obtainNewPeerId l d pc :=
  { consistent := h.consistent.obtainNewPeerId
    valid := h.valid
    addedOnce := h.addedOnce
    absent := h.absent
    hosts := h.hosts }

theorem createPeer (h : Sound r l d pc) (t : τ) :
    Sound r.createPeer l d (Function.update pc t (.addPeer r.peerCount)) := by
  have hnew : ∀ u, pc u ≠ .addPeer r.peerCount := fun u hu => by
    have := h.valid u
    rw [hu] at this
    exact absurd this.1 (lt_irrefl _)
  have hpres : ∀ {q}, q < r.peerCount → (r.createPeer.Present q ↔ r.Present q) :=
    Registry.present_createPeer_iff
  refine ⟨h.consistent.createPeer, fun u => ?_, fun u v p hu hv => ?_, fun p hp => ?_,
    fun f hf => ?_⟩
  · rcases eq_or_ne u t with rfl | hne
    · rw [Function.update_self]
      refine ⟨Nat.lt_succ_self _, by simp, h.consistent.not_present_createPeer, fun hmem => ?_⟩
      exact absurd (h.absent _ hmem).1 (lt_irrefl _)
    · rw [Function.update_of_ne hne]
      have hu := h.valid u
      -- a thread only knows of peers created before
      rcases hpc : pc u <;> rw [hpc] at hu <;> try trivial
      case addPeer q =>
        obtain ⟨hq, hfiles, hnot, hmem⟩ := hu
        refine ⟨Nat.lt_succ_of_lt hq, ?_, mt (hpres hq).mp hnot, hmem⟩
        simpa [Function.update_of_ne hq.ne] using hfiles
      case registering host _ =>
        exact ⟨(hpres (h.consistent.lt_of_present hu.1)).mpr hu.1, hu.2⟩
      all_goals
        have hq := h.consistent.lt_of_present hu.2
        refine ⟨?_, (hpres hq).mpr hu.2⟩
        simpa [Function.update_of_ne hq.ne] using hu.1
  · -- whoever adds the new peer is `t`
    have hnot : ∀ w, w ≠ t → Function.update pc t (.addPeer r.peerCount) w = pc w := fun w hw =>
      Function.update_of_ne hw _ _
    rcases eq_or_ne u t with rfl | hut <;> rcases eq_or_ne v u with rfl | hvu
    · rfl
    · rw [Function.update_self] at hu
      rw [hnot v hvu, ← hu] at hv
      exact absurd hv (hnew v)
    · rfl
    · rw [hnot u hut] at hu
      rcases eq_or_ne v t with rfl | hvt
      · rw [Function.update_self] at hv
        rw [← hv] at hu
        exact absurd hu (hnew u)
      · rw [hnot v hvt] at hv
        exact h.addedOnce u v p hu hv
  · obtain ⟨hlt, hnot⟩ := h.absent p hp
    exact ⟨Nat.lt_succ_of_lt hlt, mt (hpres hlt).mp hnot⟩
  · have hlt := (h.consistent.hosted _ f (h.consistent.shared f hf)).2.2
    exact (h.hosts f hf).imp_left (hpres hlt).mpr

omit [DecidableEq τ] in
theorem addPeer (h : Sound r l d pc) (hp : p < r.peerCount) (hnew : r.hosted p = []) (hd : p ∉ d)
    (hother : ∀ u, pc u ≠ .addPeer p) : Sound (r.addPeer p) l d pc := by
  have hpres : ∀ {q}, q < r.peerCount → ((r.addPeer p).Present q ↔ q = p ∨ r.Present q) :=
    Registry.present_addPeer h.consistent hp
  refine
    { h with
      consistent := h.consistent.addPeer hp hnew
      valid := fun u => ?_
      absent := fun q hq => ?_
      hosts := fun f hf => ?_ }
  · have hu := h.valid u
    rcases hpc : pc u <;> rw [hpc] at hu <;> try trivial
    case addPeer q =>
      obtain ⟨hq, hfiles, hnot, hmem⟩ := hu
      refine ⟨hq, hfiles, ?_, hmem⟩
      rw [hpres hq]
      rintro (rfl | hq)
      · exact hother u hpc
      · exact hnot hq
    case registering host _ =>
      exact ⟨(hpres (h.consistent.lt_of_present hu.1)).mpr (.inr hu.1), hu.2⟩
    all_goals exact ⟨hu.1, (hpres (h.consistent.lt_of_present hu.2)).mpr (.inr hu.2)⟩
  · obtain ⟨hlt, hnot⟩ := h.absent q hq
    refine ⟨hlt, fun hq' => ?_⟩
    rcases (hpres hlt).mp hq' with rfl | hq'
    · exact hd hq
    · exact hnot hq'
  · have hlt := (h.consistent.hosted _ f (h.consistent.shared f hf)).2.2
    exact (h.hosts f hf).imp_left fun hf => (hpres hlt).mpr (.inr hf)

omit [DecidableEq τ] in
/-- A removal begins: nobody is sharing, for the files are locked. -/
theorem begin (h : Sound r none d pc) (hp : r.Present p)
    (hlock : ∀ u, (pc u).holdsFileById = false) : Sound r (some (p, r.hosted p)) d pc :=
  { h with
    consistent := h.consistent.begin hp
    valid := fun u => by
      have hu := h.valid u
      have hholds := hlock u
      rcases hpc : pc u <;> rw [hpc] at hu hholds <;> try exact hu
      case registering => cases hholds }

omit [DecidableEq τ] in
theorem eraseFile {f : FileRef} {todo : List FileRef} (h : Sound r (some (p, f :: todo)) d pc) :
    Sound (r.eraseFile f) (some (p, todo)) d pc :=
  { h with
    consistent := h.consistent.eraseFile
    valid := fun u => by
      have hu := h.valid u
      rcases hpc : pc u <;> rw [hpc] at hu <;> try exact hu
      case registering host _ =>
        refine ⟨hu.1, fun todo' hl => hu.2 (f :: todo) ?_⟩
        rw [(Prod.mk.inj (Option.some.inj hl)).1] }

omit [DecidableEq τ] in
/-- A removal ends: nobody else is removing, for the peers are locked. -/
theorem erasePeer (h : Sound r (some (p, [])) d pc) (hlock : ∀ u, (pc u).holdsPeerById = false) :
    Sound (r.erasePeer (r.peerId p)) none (p :: d) pc := by
  have hp := (h.consistent.leaving p [] rfl).1
  have hlt := h.consistent.lt_of_present hp
  -- erasing the id of `p` takes `p` out of the map and nobody else
  have hpres : ∀ {q}, q < r.peerCount →
      ((r.erasePeer (r.peerId p)).Present q ↔ q ≠ p ∧ r.Present q) :=
    Registry.present_erasePeer h.consistent hlt
  refine
    { h with
      consistent := h.consistent.erasePeer
      valid := fun u => ?_
      absent := fun q hq => ?_
      hosts := fun f hf => ?_ }
  · have hu := h.valid u
    have hholds := hlock u
    -- only two program points say something about the members
    rcases hpc : pc u <;> rw [hpc] at hu hholds <;> try trivial
    case addPeer q =>
      obtain ⟨hq, hfiles, hnot, hmem⟩ := hu
      refine ⟨hq, hfiles, fun hq' => hnot ((hpres hq).mp hq').2, ?_⟩
      rintro (- | ⟨-, hmem'⟩)
      · exact hnot hp
      · exact hmem hmem'
    case registering host _ =>
      -- a thread that registers a file of `p` would hold the lock that `p`'s departure holds
      have hne : host ≠ p := by
        rintro rfl
        exact hu.2 [] rfl
      exact ⟨(hpres (h.consistent.lt_of_present hu.1)).mpr ⟨hne, hu.1⟩, fun todo hl => by cases hl⟩
  · rcases List.mem_cons.mp hq with rfl | hq
    · exact ⟨hlt, fun hq => ((hpres hlt).mp hq).1 rfl⟩
    · obtain ⟨hqlt, hnot⟩ := h.absent q hq
      exact ⟨hqlt, fun hq' => hnot ((hpres hqlt).mp hq').2⟩
  · have hhost := (h.consistent.hosted _ f (h.consistent.shared f hf)).2.2
    rcases eq_or_ne (r.host f) p with heq | hne
    · exact .inr (List.mem_cons.mpr (.inl heq))
    · exact (h.hosts f hf).imp (fun hf => (hpres hhost).mpr ⟨hne, hf⟩) (List.mem_cons_of_mem p)

omit [DecidableEq τ] in
theorem registerFile (h : Sound r l d pc) (hp : r.Present p) (hl : ∀ todo, l ≠ some (p, todo)) :
    Sound (r.registerFile p) l d pc := by
  refine
    { h with
      consistent := h.consistent.registerFile hp hl
      valid := fun u => ?_
      hosts := fun f hf => ?_ }
  · have hu := h.valid u
    rcases hpc : pc u <;> rw [hpc] at hu <;> try exact hu
    case addPeer q =>
      obtain ⟨hq, hfiles, hnot, hmem⟩ := hu
      have hne : q ≠ p := by
        rintro rfl
        exact hnot hp
      exact ⟨hq, by simpa [hne] using hfiles, hnot, hmem⟩
    case found f => exact Nat.lt_succ_of_lt hu
  · rcases Nat.lt_succ_iff_lt_or_eq.mp hf with hf | rfl
    · rw [Registry.host_registerFile hf]
      exact h.hosts f hf
    · refine .inl ?_
      simpa [Registry.Present] using hp

end Sound

/-! ### Every step keeps the invariant -/

omit [DecidableEq τ] in
theorem Invariant.init {s : State τ} {server : Server} (hfresh : Fresh ρ server)
    (hs : s = { server }) : Invariant ρ s := by
  subst hs
  obtain ⟨name, hroom⟩ := hfresh.room
  have hpeer : ∀ id, Room.getPeerById ρ id server = none := by simp [Room.getPeerById, hroom]
  have hfile : ∀ id, Room.getFileById ρ id server = none := by simp [Room.getFileById, hroom]
  refine ⟨fun t => ?_, fun t => ?_, ⟨?_, fun t => ?_, ?_, ?_, ?_⟩⟩
  · simp [Pc.holdsPeerById]
  · simp [Pc.holdsFileById]
  · constructor <;>
      simp [Server.registry, hfresh.peerCount, hfresh.fileCount, hfresh.peers, hpeer, hfile,
        leaving]
  · trivial
  · intro t u p ht
    cases ht
  · simp
  · simp [Server.registry, hfresh.fileCount]

/-- A step of a thread that has not locked the peers is no departure. -/
theorem leaving_update {lock : Option τ} {pc : τ → Pc} (h : Owned Pc.holdsPeerById pc lock) {t : τ}
    (ht : (pc t).holdsPeerById = false) (x : Pc) :
    leaving lock (Function.update pc t x) = leaving lock pc := by
  unfold leaving
  rcases hl : lock with - | u
  · rfl
  · have hu : (pc u).holdsPeerById = true := (h u).mpr hl
    have hne : u ≠ t := by
      rintro rfl
      simp [hu] at ht
    simp [hne]

omit [DecidableEq τ] in
/-- The departure in progress is that of the thread that holds `m_peerByIdLock`. -/
theorem leaving_of_holds {lock : Option τ} {pc : τ → Pc} (h : Owned Pc.holdsPeerById pc lock)
    {t : τ} (ht : (pc t).holdsPeerById = true) : leaving lock pc = (pc t).leaving := by
  simp [leaving, (h t).mp ht]

omit [DecidableEq τ] in
/-- The server changes, but not its registry. -/
theorem Invariant.of_registry {s : State τ} (h : Invariant ρ s) {server : Server}
    (hr : server.registry ρ = s.server.registry ρ) : Invariant ρ { s with server } where
  peerByIdLock := h.peerByIdLock
  fileByIdLock := h.fileByIdLock
  sound := by
    show Sound (server.registry ρ) (leaving s.peerByIdLock s.pc) s.departed s.pc
    rw [hr]
    exact h.sound

/-- A thread goes on, and neither mutex changes hands. -/
theorem Invariant.goto {s : State τ} (h : Invariant ρ s) {t : τ} {x : Pc}
    (hpeer : (s.pc t).holdsPeerById = false) (hx : x.holdsPeerById = false)
    (hfile : x.holdsFileById = (s.pc t).holdsFileById) (hadd : ∀ p, x ≠ .addPeer p)
    (hvalid : x.Valid (s.server.registry ρ) s.departed (leaving s.peerByIdLock s.pc)) :
    Invariant ρ (s.goto t x) where
  peerByIdLock := h.peerByIdLock.keep (hx.trans hpeer.symm)
  fileByIdLock := h.fileByIdLock.keep hfile
  sound := by
    show Sound _ (leaving s.peerByIdLock (Function.update s.pc t x)) _ _
    rw [leaving_update h.peerByIdLock hpeer]
    exact h.sound.goto hadd hvalid

/-- Beginning an operation. -/
theorem Invariant.start {s s' : State τ} (h : Invariant ρ s) {t : τ} {x : Pc}
    (hx : x.holdsPeerById = false) (hfile : x.holdsFileById = false) (hadd : ∀ p, x ≠ .addPeer p)
    (hvalid : x.Valid (s.server.registry ρ) s.departed (leaving s.peerByIdLock s.pc))
    (hs : s.start t x = some s') : Invariant ρ s' := by
  simp only [State.start, Option.ite_none_right_eq_some, Option.some.injEq] at hs
  obtain ⟨hidle, rfl⟩ := hs
  exact h.goto (by rw [hidle]; rfl) hx (by rw [hidle, hfile]; rfl) hadd hvalid

/-- Beginning to add a peer, which is created here. -/
theorem Invariant.startAddPeer {s s' : State τ} (h : Invariant ρ s) {t : τ} {socket : SocketRef}
    {nickname : String} (hs : s.step ρ (.addPeer t socket nickname) = some s') :
    Invariant ρ s' := by
  simp only [State.step, State.start, Option.ite_none_right_eq_some, Option.some.injEq] at hs
  obtain ⟨hidle, rfl⟩ := hs
  have hpeer : (s.pc t).holdsPeerById = false := by rw [hidle]; rfl
  have hfile : (s.pc t).holdsFileById = false := by rw [hidle]; rfl
  refine ⟨h.peerByIdLock.keep hpeer.symm, h.fileByIdLock.keep hfile.symm, ?_⟩
  show Sound ((Lobby.createPeer socket ρ nickname s.server).2.registry ρ)
    (leaving s.peerByIdLock (Function.update s.pc t _)) _ _
  rw [registry_createPeer, leaving_update h.peerByIdLock hpeer]
  exact h.sound.createPeer t

/-! Each operation, from its first step to its last. -/

/-- The peer goes into the map. -/
theorem Invariant.addPeer {s : State τ} (h : Invariant ρ s) {t : τ} {p : PeerRef}
    (hpc : s.pc t = .addPeer p) :
    Invariant ρ { s.goto t .idle with server := Room.addPeer ρ p s.server } := by
  have hpeer : (s.pc t).holdsPeerById = false := by rw [hpc]; rfl
  have hfile : (s.pc t).holdsFileById = false := by rw [hpc]; rfl
  have hvalid := h.sound.valid t
  rw [hpc] at hvalid
  obtain ⟨hlt, hnew, -, hd⟩ := hvalid
  refine ⟨h.peerByIdLock.keep hpeer.symm, h.fileByIdLock.keep hfile.symm, ?_⟩
  show Sound ((Room.addPeer ρ p s.server).registry ρ)
    (leaving s.peerByIdLock (Function.update s.pc t .idle)) _ _
  rw [registry_addPeer, leaving_update h.peerByIdLock hpeer]
  refine (h.sound.goto (x := .idle) (by simp) trivial).addPeer hlt hnew hd fun u hu => ?_
  rcases eq_or_ne u t with rfl | hne
  · simp at hu
  · rw [Function.update_of_ne hne] at hu
    exact hne (h.sound.addedOnce t u p hpc hu)

/-- The peer is found and `m_peerByIdLock` stays held. -/
theorem Invariant.removePeerById {s : State τ} (h : Invariant ρ s) {t : τ} {peerId : Int}
    {p : PeerRef} (hpc : s.pc t = .removePeerById peerId) (hfree : s.peerByIdLock = none)
    (hp : Room.getPeerById ρ peerId s.server = some p) :
    Invariant ρ { s.goto t (.removing peerId p) with peerByIdLock := some t } := by
  have hpl := h.peerByIdLock
  have hsound := h.sound
  rw [hfree] at hpl hsound
  obtain ⟨-, hid⟩ := hsound.consistent.present peerId p hp
  refine ⟨hpl.acquire rfl, h.fileByIdLock.keep (by rw [hpc]; rfl), ?_⟩
  have hleaving : leaving (some t) (Function.update s.pc t (.removing peerId p)) = none := by
    simp [leaving, Pc.leaving]
  show Sound _ (leaving (some t) (Function.update s.pc t _)) _ _
  rw [hleaving]
  refine hsound.goto (by simp) ⟨hid, ?_⟩
  rwa [← hid] at hp

/-- `m_fileByIdLock` is taken as well. -/
theorem Invariant.removing {s : State τ} (h : Invariant ρ s) {t : τ} {peerId : Int}
    {p : PeerRef} (hpc : s.pc t = .removing peerId p) (hfree : s.fileByIdLock = none) :
    Invariant ρ { s.goto t (.cancelling peerId p (s.server.peers p).files) with
      fileByIdLock := some t } := by
  have hholds : (s.pc t).holdsPeerById = true := by rw [hpc]; rfl
  have hfl := h.fileByIdLock
  have hsound := h.sound
  have hvalid := hsound.valid t
  rw [hfree] at hfl
  rw [leaving_of_holds h.peerByIdLock hholds, hpc] at hsound
  rw [hpc] at hvalid
  have hpl := h.peerByIdLock.keep (t := t) (x := .cancelling peerId p (s.server.peers p).files)
    (by rw [hpc]; rfl)
  refine ⟨hpl, hfl.acquire rfl, ?_⟩
  show Sound _ (leaving s.peerByIdLock (Function.update s.pc t _)) _ _
  rw [leaving_of_holds (t := t) hpl (by simp [Pc.holdsPeerById]), Function.update_self]
  exact (hsound.begin hvalid.2 hfl.not_holds).goto (by simp) hvalid

/-- The next file is cleared. -/
theorem Invariant.cancelling {s : State τ} (h : Invariant ρ s) {t : τ} {peerId : Int}
    {p : PeerRef} {f : FileRef} {todo : List FileRef}
    (hpc : s.pc t = .cancelling peerId p (f :: todo)) :
    Invariant ρ { s.goto t (.clearing peerId p f todo) with
      server := File.clearSubscribers f s.server
      cleared := f :: s.cleared } := by
  have hholds : (s.pc t).holdsPeerById = true := by rw [hpc]; rfl
  have hsound := h.sound
  have hvalid := hsound.valid t
  rw [leaving_of_holds h.peerByIdLock hholds, hpc] at hsound
  rw [hpc] at hvalid
  have hpl := h.peerByIdLock.keep (t := t) (x := .clearing peerId p f todo) (by rw [hpc]; rfl)
  refine ⟨hpl, h.fileByIdLock.keep (by rw [hpc]; rfl), ?_⟩
  show Sound ((File.clearSubscribers f s.server).registry ρ)
    (leaving s.peerByIdLock (Function.update s.pc t _)) _ _
  rw [registry_clearSubscribers, leaving_of_holds (t := t) hpl (by simp [Pc.holdsPeerById]),
    Function.update_self]
  exact hsound.goto (by simp) hvalid

/-- The file just cleared is erased. -/
theorem Invariant.clearing {s : State τ} (h : Invariant ρ s) {t : τ} {peerId : Int}
    {p : PeerRef} {f : FileRef} {todo : List FileRef}
    (hpc : s.pc t = .clearing peerId p f todo) :
    Invariant ρ { s.goto t (.cancelling peerId p todo) with
      server := Room.eraseFile ρ f s.server } := by
  have hholds : (s.pc t).holdsPeerById = true := by rw [hpc]; rfl
  have hsound := h.sound
  have hvalid := hsound.valid t
  rw [leaving_of_holds h.peerByIdLock hholds, hpc] at hsound
  rw [hpc] at hvalid
  have hpl := h.peerByIdLock.keep (t := t) (x := .cancelling peerId p todo) (by rw [hpc]; rfl)
  refine ⟨hpl, h.fileByIdLock.keep (by rw [hpc]; rfl), ?_⟩
  show Sound ((Room.eraseFile ρ f s.server).registry ρ)
    (leaving s.peerByIdLock (Function.update s.pc t _)) _ _
  rw [registry_eraseFile, leaving_of_holds (t := t) hpl (by simp [Pc.holdsPeerById]),
    Function.update_self]
  exact hsound.eraseFile.goto (by simp) hvalid

/-- The loop is over. -/
theorem Invariant.cancelled {s : State τ} (h : Invariant ρ s) {t : τ} {peerId : Int}
    {p : PeerRef} (hpc : s.pc t = .cancelling peerId p []) :
    Invariant ρ { s.goto t (.erasing peerId p) with fileByIdLock := none } := by
  have hholds : (s.pc t).holdsPeerById = true := by rw [hpc]; rfl
  have hsound := h.sound
  have hvalid := hsound.valid t
  rw [leaving_of_holds h.peerByIdLock hholds, hpc] at hsound
  rw [hpc] at hvalid
  have hpl := h.peerByIdLock.keep (t := t) (x := .erasing peerId p) (by rw [hpc]; rfl)
  refine ⟨hpl, h.fileByIdLock.release (by rw [hpc]; rfl) rfl, ?_⟩
  show Sound _ (leaving s.peerByIdLock (Function.update s.pc t _)) _ _
  rw [leaving_of_holds (t := t) hpl (by simp [Pc.holdsPeerById]), Function.update_self]
  exact hsound.goto (by simp) hvalid

/-- The peer leaves the map. -/
theorem Invariant.erasing {s : State τ} (h : Invariant ρ s) {t : τ} {peerId : Int}
    {p : PeerRef} (hpc : s.pc t = .erasing peerId p) :
    Invariant ρ { s.goto t .idle with
      server := Room.erasePeer ρ peerId s.server
      peerByIdLock := none
      departed := p :: s.departed } := by
  have hholds : (s.pc t).holdsPeerById = true := by rw [hpc]; rfl
  have hsound := h.sound
  have hvalid := hsound.valid t
  rw [leaving_of_holds h.peerByIdLock hholds, hpc] at hsound
  rw [hpc] at hvalid
  obtain ⟨rfl, -⟩ := hvalid
  have hpl := h.peerByIdLock.release (x := .idle) hholds rfl
  refine ⟨hpl, h.fileByIdLock.keep (by rw [hpc]; rfl), ?_⟩
  show Sound ((Room.erasePeer ρ _ s.server).registry ρ) none (p :: s.departed) _
  rw [registry_erasePeer]
  exact (hsound.goto (x := .idle) (by simp) trivial).erasePeer hpl.not_holds

/-- `m_fileByIdLock` is taken. -/
theorem Invariant.shareFile {s : State τ} (h : Invariant ρ s) {t : τ} {share : Share}
    (hpc : s.pc t = .shareFile share) (hfree : s.fileByIdLock = none) :
    Invariant ρ { s.goto t (.sharing share) with fileByIdLock := some t } := by
  have hpeer : (s.pc t).holdsPeerById = false := by rw [hpc]; rfl
  have hfl := h.fileByIdLock
  rw [hfree] at hfl
  refine ⟨h.peerByIdLock.keep hpeer.symm, hfl.acquire rfl, ?_⟩
  show Sound _ (leaving s.peerByIdLock (Function.update s.pc t _)) _ _
  rw [leaving_update h.peerByIdLock hpeer]
  exact h.sound.goto (by simp) trivial

/-- A host found with the peers unlocked is not being removed. -/
theorem Invariant.sharing {s : State τ} (h : Invariant ρ s) {t : τ} {share : Share}
    {host : PeerRef} (hpc : s.pc t = .sharing share) (hfree : s.peerByIdLock = none)
    (hhost : Room.getPeerById ρ share.hostPeerId s.server = some host) :
    Invariant ρ (s.goto t (.registering host share)) := by
  refine h.goto (by rw [hpc]; rfl) rfl (by rw [hpc]; rfl) (by simp) ⟨?_, fun todo hl => ?_⟩
  · obtain ⟨-, hid⟩ := h.sound.consistent.present _ host hhost
    rwa [← hid] at hhost
  · simp [leaving, hfree] at hl

/-- The host has not been found. -/
theorem Invariant.notSharing {s : State τ} (h : Invariant ρ s) {t : τ} {share : Share}
    (hpc : s.pc t = .sharing share) :
    Invariant ρ { s.goto t .idle with fileByIdLock := none } := by
  have hpeer : (s.pc t).holdsPeerById = false := by rw [hpc]; rfl
  refine ⟨h.peerByIdLock.keep hpeer.symm, h.fileByIdLock.release (by rw [hpc]; rfl) rfl, ?_⟩
  show Sound _ (leaving s.peerByIdLock (Function.update s.pc t _)) _ _
  rw [leaving_update h.peerByIdLock hpeer]
  exact h.sound.goto (by simp) trivial

/-- The host, found before and still in the map, gets its file. -/
theorem Invariant.registering {s : State τ} (h : Invariant ρ s) {t : τ} {share : Share}
    {host : PeerRef} (hpc : s.pc t = .registering host share) :
    Invariant ρ { s.goto t .idle with
      server := (Room.registerFile ρ host share.clientFileId share.fileName share.fileSize
        s.server).2
      fileByIdLock := none } := by
  have hpeer : (s.pc t).holdsPeerById = false := by rw [hpc]; rfl
  have hvalid := h.sound.valid t
  rw [hpc] at hvalid
  refine ⟨h.peerByIdLock.keep hpeer.symm, h.fileByIdLock.release (by rw [hpc]; rfl) rfl, ?_⟩
  show Sound ((Room.registerFile ρ host _ _ _ s.server).2.registry ρ)
    (leaving s.peerByIdLock (Function.update s.pc t .idle)) _ _
  rw [registry_registerFile, leaving_update h.peerByIdLock hpeer]
  exact (h.sound.goto (x := .idle) (by simp) trivial).registerFile hvalid.1 hvalid.2

/-- A step of the operation a thread is in. -/
theorem Invariant.run {s s' : State τ} (h : Invariant ρ s) {t : τ} (hs : s.run ρ t = some s') :
    Invariant ρ s' := by
  unfold State.run at hs
  -- one case for each program counter; the steps that only move on are closed here
  rcases hpc : s.pc t with - | p | peerId | ⟨peerId, p⟩ | ⟨peerId, p, - | ⟨f, todo⟩⟩ |
    ⟨peerId, p, f, todo⟩ | ⟨peerId, p⟩ | share | share | ⟨host, share⟩ | fileId | f <;>
    rw [hpc] at hs <;>
    simp only [Option.ite_none_right_eq_some, Option.some.injEq] at hs
  case idle => cases hs
  case addPeer =>
    obtain ⟨-, rfl⟩ := hs
    exact h.addPeer hpc
  case removePeerById =>
    obtain ⟨hfree, hs⟩ := hs
    split at hs <;> obtain rfl := Option.some.inj hs
    -- there is no such peer: the thread returns
    · exact h.goto (by rw [hpc]; rfl) rfl (by rw [hpc]; rfl) (by simp) trivial
    · next hp => exact h.removePeerById hpc hfree hp
  case removing =>
    obtain ⟨hfree, rfl⟩ := hs
    exact h.removing hpc hfree
  case cancelling.nil =>
    obtain rfl := hs
    exact h.cancelled hpc
  case cancelling.cons =>
    obtain rfl := hs
    exact h.cancelling hpc
  case clearing =>
    obtain rfl := hs
    exact h.clearing hpc
  case erasing =>
    obtain rfl := hs
    exact h.erasing hpc
  case shareFile =>
    obtain ⟨hfree, rfl⟩ := hs
    exact h.shareFile hpc hfree
  case sharing =>
    obtain ⟨hfree, hs⟩ := hs
    split at hs <;> obtain rfl := Option.some.inj hs
    · exact h.notSharing hpc
    · next hhost => exact h.sharing hpc hfree hhost
  case registering =>
    obtain rfl := hs
    exact h.registering hpc
  case getFileById =>
    obtain ⟨-, hs⟩ := hs
    split at hs <;> obtain rfl := Option.some.inj hs
    · exact h.goto (by rw [hpc]; rfl) rfl (by rw [hpc]; rfl) (by simp) trivial
    · next f hf =>
      have hlt : f < s.server.fileCount := (h.sound.consistent.registered fileId f hf).1
      exact h.goto (by rw [hpc]; rfl) rfl (by rw [hpc]; rfl) (by simp) hlt
  case found =>
    obtain rfl := hs
    refine Invariant.of_registry (s := s.goto t .idle) ?_ (registry_subscribe ρ s.server f)
    exact h.goto (by rw [hpc]; rfl) rfl (by rw [hpc]; rfl) (by simp) trivial

/-- Every action keeps the invariant. -/
theorem Invariant.step {s s' : State τ} (h : Invariant ρ s) {a : Act τ}
    (hs : s.step ρ a = some s') : Invariant ρ s' := by
  cases a with
  | obtainNewPeerId =>
      obtain rfl := Option.some.inj hs
      exact ⟨h.peerByIdLock, h.fileByIdLock, h.sound.obtainNewPeerId⟩
  | addPeer t socket nickname => exact h.startAddPeer hs
  | removePeerById t peerId => exact h.start rfl rfl (by simp) (by trivial) hs
  | shareFile t share => exact h.start rfl rfl (by simp) (by trivial) hs
  | getFile t fileId => exact h.start rfl rfl (by simp) (by trivial) hs
  | run t => exact h.run hs
  | read σ count =>
      obtain rfl := Option.some.inj hs
      exact h.of_registry (registry_read ρ s.server σ count)
  | provideFileChunk f subscriberId data =>
      obtain rfl := Option.some.inj hs
      exact h.of_registry (registry_provideFileChunk ρ s.server f subscriberId data)
  | destroy σ =>
      obtain rfl := Option.some.inj hs
      exact h.of_registry (registry_destroy ρ s.server σ)

/-- Every reachable state has it. -/
theorem invariant {s : State τ} (hs : (system ρ τ).Reachable s) : Invariant ρ s := by
  refine hs.invariant ?_ fun s a s' h hstep => h.step hstep
  rintro s ⟨server, hfresh, rfl⟩
  exact Invariant.init hfresh rfl

/-! ### The room's registry -/

omit [DecidableEq τ] in
/-- A file is registered exactly as long as its host has not departed. -/
theorem Invariant.registered_iff {s : State τ} (h : Invariant ρ s) (hpeers : s.peerByIdLock = none)
    {f : FileRef} (hf : f < s.server.fileCount) :
    (s.server.registry ρ).Registered f ↔ (s.server.files f).host ∉ s.departed := by
  have hsound := h.sound
  constructor
  · intro hreg hmem
    have hpres := (hsound.consistent.registered _ f hreg).2.2
    exact (hsound.absent _ hmem).2 hpres
  · intro hmem
    have hpres := (hsound.hosts f hf).resolve_right hmem
    refine (hsound.consistent.listed _ hpres f (hsound.consistent.shared f hf)).resolve_right ?_
    -- nobody is being removed
    rintro ⟨todo, hl, -⟩
    simp [leaving, hpeers] at hl

/-- **The registry of a room is consistent whenever neither mutex is held**:
a registered file is registered under its own id, and its host is present
under its own id and lists the file once; what a present peer lists is
registered; file ids are distinct and below the counter; and the files no
longer registered are those of the departed hosts. -/
theorem registry_consistent {s : State τ} (hs : (system ρ τ).Reachable s)
    (hpeers : s.peerByIdLock = none) (_ : s.fileByIdLock = none) :
    (∀ id f, Room.getFileById ρ id s.server = some f →
      (s.server.files f).serverFileId = id ∧
      Room.getPeerById ρ (s.server.peers (s.server.files f).host).peerId s.server =
        some (s.server.files f).host ∧
      (s.server.peers (s.server.files f).host).files.count f = 1) ∧
    (∀ id p, Room.getPeerById ρ id s.server = some p → ∀ f ∈ (s.server.peers p).files,
      Room.getFileById ρ (s.server.files f).serverFileId s.server = some f) ∧
    (∀ f < s.server.fileCount, ∀ g < s.server.fileCount,
      (s.server.files f).serverFileId = (s.server.files g).serverFileId → f = g) ∧
    (∀ f < s.server.fileCount,
      (s.server.files f).serverFileId < (s.server.rooms ρ).fileIdCounter) ∧
    ∀ f < s.server.fileCount,
      Room.getFileById ρ (s.server.files f).serverFileId s.server = some f ↔
        (s.server.files f).host ∉ s.departed := by
  have h := invariant hs
  have hc := h.sound.consistent
  refine ⟨fun id f hf => ?_, fun id p hp f hf => ?_, hc.serverFileId_inj, hc.serverFileId_lt,
    fun f hf => h.registered_iff hpeers hf⟩
  · obtain ⟨hlt, hid, hhost⟩ := hc.registered id f hf
    exact ⟨hid, hhost, List.count_eq_one_of_mem (hc.nodup _) (hc.shared f hlt)⟩
  · obtain ⟨-, rfl⟩ := hc.present id p hp
    refine (hc.listed p hp f hf).resolve_right ?_
    rintro ⟨todo, hl, -⟩
    simp [leaving, hpeers] at hl

/-- A server with one new room. -/
def newRoom : State ℕ where
  server := (Lobby.getOrCreateRoom "lounge" {}).2

theorem init_newRoom : (system 0 ℕ).init newRoom := by
  refine ⟨_, ⟨⟨"lounge", rfl⟩, rfl, fun p => rfl, rfl, fun σ => rfl⟩, rfl⟩

/-- Ann joins and shares a file. -/
def joinAndShare : List (Act ℕ) :=
  [.addPeer 0 0 "Ann", .run 0, .shareFile 0 ⟨1, 7, some "notes.txt", 3⟩, .run 0, .run 0, .run 0]

theorem registry_consistent_shared :
    ∃ s, (system 0 ℕ).run newRoom joinAndShare = some s ∧
      Room.getFileById 0 1 s.server = some 0 ∧
      (s.server.peers (s.server.files 0).host).files.count 0 = 1 := by
  obtain ⟨s, hrun, hpeers, hfiles, hreg⟩ : ∃ s, (system 0 ℕ).run newRoom joinAndShare = some s ∧
      s.peerByIdLock = none ∧ s.fileByIdLock = none ∧ Room.getFileById 0 1 s.server = some 0 :=
    ⟨_, rfl, rfl, rfl, rfl⟩
  have hs : (system 0 ℕ).Reachable s := Transition.System.Reachable.run (.init init_newRoom) hrun
  exact ⟨s, hrun, hreg, ((registry_consistent hs hpeers hfiles).1 1 0 hreg).2.2⟩

end RoomThreads

end CanChat
