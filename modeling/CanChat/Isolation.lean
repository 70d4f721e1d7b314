/-
CanChat/Isolation.lean

Rooms do not interfere.

The system here runs whole handlers: a socket joins, receives frames and pongs,
and leaves; a download asks for a file of a room, reads and is dropped; the
ping loop goes over all rooms.  A handler that fails ends its own connection.

Take the events of other rooms out of a run.  The run that remains exists, and
leaves the room as it was (`rooms_isolated`): the proof runs one server for
each room name next to the server that has them all.  An event of a room is
taken by that room's server as well, and leaves the objects of the other rooms
alone; a round of pings is taken by all.
-/
import CanChat.Alike
import CanChat.Transition

namespace CanChat

namespace Isolation

open Correspondence

/-! ### The system -/

/-- What the requests of the sockets and of the downloads ask for. -/
structure Requests where
  roomName : SocketRef → String
  nickname : SocketRef → String
  roomId : ℕ → String
  fileId : ℕ → Int

/-- A connection, with the peer or the subscriber it has been given. -/
inductive Link
  | idle
  | live (ref : ℕ)
  /-- a handler has failed, the connection is about to end -/
  | failed (ref : ℕ)
  | closed (ref : ℕ)
  /-- the room or the file was not found -/
  | refused
  deriving DecidableEq, Repr

/-- What happens to a socket. -/
inductive SocketEvent
  | join
  /-- one call of `readMessage` -/
  | receive (data : Bytes)
  | pong
  | leave
  deriving DecidableEq, Repr

/-- What happens to a request for a download. -/
inductive DownloadEvent
  | getFile
  | read (count : Int)
  /-- the end of the response, `~Subscriber` -/
  | drop
  deriving DecidableEq, Repr

/-- An event of the whole server. -/
inductive Event
  | socket (k : SocketRef) (event : SocketEvent)
  | download (i : ℕ) (event : DownloadEvent)
  | pingRound
  deriving DecidableEq, Repr

/-- An event, and what the clock reads in the course of it. -/
structure Occurrence where
  event : Event
  clock : ℕ → Int := fun _ => 0

/-- The server, and where each socket and each download is. -/
structure State where
  server : Server := {}
  socket : SocketRef → Link := fun _ => .idle
  download : ℕ → Link := fun _ => .idle

/-- `SendErrorCoroutine`: the message is written to the websocket. -/
def sendError (p : PeerRef) (coroutine : SendErrorCoroutine) (s : Server) : Server :=
  let (message, s) := s.createShared coroutine.message
  if coroutine.websocket.isSome then Peer.sendMessageAsync p message s else s

section Step

variable (fw : Framework) (config : ConfigDto) (requests : Requests)

/-- The handler of an event of socket `k`. -/
def socketStep (k : SocketRef) : SocketEvent → Link → Server → Option (Link × Server)
  | .join, .idle, s =>
      let (p, s) := Lobby.onAfterCreateNonBlocking config k (requests.roomName k)
        (requests.nickname k) s
      some (.live p, s)
  | .receive data, .live p, s =>
      match (Peer.readMessage fw config p data).exec s with
      | (.ok none, s) => some (.live p, s)
      | (.ok (some coroutine), s) => some (.failed p, sendError p coroutine s)
      | (.error _, s) => some (.failed p, s)
  | .pong, .live p, s => some (.live p, Peer.onPong p s)
  | .leave, .live p, s => some (.closed p, Lobby.onBeforeDestroyNonBlocking config p s)
  | .leave, .failed p, s => some (.closed p, Lobby.onBeforeDestroyNonBlocking config p s)
  | _, _, _ => none

/-- The handler of an event of download `i`. -/
def downloadStep (i : ℕ) : DownloadEvent → Link → Server → Option (Link × Server)
  | .getFile, .idle, s =>
      match Lobby.getRoom (requests.roomId i) s with
      | none => some (.refused, s)
      | some ρ =>
          match Room.getFileById ρ (requests.fileId i) s with
          | none => some (.refused, s)
          | some f =>
              let (σ, s) := File.subscribe f s
              some (.live σ, s)
  | .read count, .live σ, s =>
      match (Subscriber.read σ count).exec s with
      | (.ok _, s) => some (.live σ, s)
      | (.error _, s) => some (.failed σ, s)
  | .drop, .live σ, s => some (.closed σ, Subscriber.destroy σ s)
  | .drop, .failed σ, s => some (.closed σ, Subscriber.destroy σ s)
  | _, _, _ => none

/-- The readings of the clock that the next event will see. -/
def setClock (clock : ℕ → Int) (s : Server) : Server := { s with clock, clockReads := 0 }

/-- One event, with its handler run to the end. -/
def State.step (s : State) (a : Occurrence) : Option State :=
  let server := setClock a.clock s.server
  match a.event with
  | .socket k event =>
      (socketStep fw config requests k event (s.socket k) server).map fun (link, server) =>
        { s with server, socket := Function.update s.socket k link }
  | .download i event =>
      (downloadStep requests i event (s.download i) server).map fun (link, server) =>
        { s with server, download := Function.update s.download i link }
  | .pingRound => some { s with server := Lobby.pingRound server }

/-- Nobody is connected. -/
def system : Transition.System State Occurrence where
  init s := s = {}
  step := State.step fw config requests

end Step

/-- The events of the room `n`; a round of pings is for all rooms. -/
def concerns (requests : Requests) (n : String) : Event → Bool
  | .socket k _ => requests.roomName k == n
  | .download i _ => requests.roomId i == n
  | .pingRound => true

/-! ### One event, taken by two servers -/

/-- The links of a connection on the two sides. -/
inductive LinkRel (R : ℕ → ℕ → Prop) : Link → Link → Prop
  | idle : LinkRel R .idle .idle
  | live {a a' : ℕ} (h : R a a') : LinkRel R (.live a) (.live a')
  | failed {a a' : ℕ} (h : R a a') : LinkRel R (.failed a) (.failed a')
  | closed {a a' : ℕ} (h : R a a') : LinkRel R (.closed a) (.closed a')
  | refused : LinkRel R .refused .refused

theorem LinkRel.mono {R S : ℕ → ℕ → Prop} {link link' : Link} (h : LinkRel R link link')
    (hRS : ∀ a a', R a a' → S a a') : LinkRel S link link' := by
  cases h with
  | idle => exact .idle
  | live h => exact .live (hRS _ _ h)
  | failed h => exact .failed (hRS _ _ h)
  | closed h => exact .closed (hRS _ _ h)
  | refused => exact .refused

variable (fw : Framework) (config : ConfigDto) {requests : Requests} {n : String}
  {c d e : Counterparts} {s s' t t' : Server}

/-- The two servers take a step, and the connection goes the same way. -/
def Taken (n : String) (c : Counterparts) (kind : Kind) (s : Server) (r r' : Link × Server) :
    Prop :=
  ∃ d, Advance n c d s r.2 r'.2 ∧ LinkRel (d.ref kind) r.1 r'.1

theorem Sync.sendError (h : Sync n c s s') {p p' : PeerRef} (hp : c.peer p p')
    {coroutine : SendErrorCoroutine} (hmessage : coroutine.message.peerId = none) :
    Advance n c c s (sendError p coroutine s) (sendError p' coroutine s') := by
  have hcreated := h.createShared coroutine.message coroutine.message
  unfold Isolation.sendError
  dsimp only
  split
  · exact hcreated.trans (hcreated.sync.send hp (.inl (.of_none hmessage)))
  · exact hcreated

/-- A frame does the same on both sides. -/
theorem receive_alike (h : Sync n c s s') {k : SocketRef} {p p' : PeerRef} (hp : c.peer p p')
    (data : Bytes) :
    Option.Rel (Taken n c .peer s)
      (socketStep fw config requests k (.receive data) (.live p) s)
      (socketStep fw config requests k (.receive data) (.live p') s') := by
  obtain ⟨d, hread, houtcome⟩ := h.readMessage fw config hp data
  have hp := hread.step.le.1 .peer _ _ hp
  unfold socketStep
  dsimp only
  generalize (Peer.readMessage fw config p data).exec s = result at hread houtcome
  generalize (Peer.readMessage fw config p' data).exec s' = result' at hread houtcome
  obtain ⟨outcome, t⟩ := result
  obtain ⟨outcome', t'⟩ := result'
  cases houtcome with
  | error fault =>
      have htaken : Taken n c .peer s (.failed p, t) (.failed p', t') := ⟨d, hread, .failed hp⟩
      exact .some htaken
  | @ok starter starter' hraised =>
      obtain ⟨rfl, hmessage⟩ := hraised
      rcases starter with - | coroutine
      · have htaken : Taken n c .peer s (.live p, t) (.live p', t') := ⟨d, hread, .live hp⟩
        exact .some htaken
      · have hsent := hread.sync.sendError hp (hmessage _ rfl)
        have htaken : Taken n c .peer s (.failed p, sendError p coroutine t)
            (.failed p', sendError p' coroutine t') := ⟨d, hread.trans hsent, .failed hp⟩
        exact .some htaken

/-- Every event of a socket of room `n` does the same on both sides. -/
theorem socketStep_alike (h : Sync n c s s') {k : SocketRef} (hk : requests.roomName k = n)
    {link link' : Link} (hlink : LinkRel c.peer link link') (event : SocketEvent) :
    Option.Rel (Taken n c .peer s) (socketStep fw config requests k event link s)
      (socketStep fw config requests k event link' s') := by
  cases event with
  | join =>
      cases hlink with
      | idle =>
          obtain ⟨d, hjoined, hp⟩ := h.onAfterCreateNonBlocking config k (requests.nickname k)
          unfold socketStep
          rw [hk]
          exact .some ⟨d, hjoined, .live hp⟩
      | live _ => exact .none
      | failed _ => exact .none
      | closed _ => exact .none
      | refused => exact .none
  | receive data =>
      cases hlink with
      | live hp => exact receive_alike fw config h hp data
      | idle => exact .none
      | failed _ => exact .none
      | closed _ => exact .none
      | refused => exact .none
  | pong =>
      cases hlink with
      | live hp => exact .some ⟨c, h.onPong hp, .live hp⟩
      | idle => exact .none
      | failed _ => exact .none
      | closed _ => exact .none
      | refused => exact .none
  | leave =>
      cases hlink with
      | live hp => exact .some ⟨c, h.onBeforeDestroyNonBlocking config hp, .closed hp⟩
      | failed hp => exact .some ⟨c, h.onBeforeDestroyNonBlocking config hp, .closed hp⟩
      | idle => exact .none
      | closed _ => exact .none
      | refused => exact .none

/-- A request finds the same file on both sides. -/
theorem getFile_alike (h : Sync n c s s') {i : ℕ} (hi : requests.roomId i = n) :
    Option.Rel (Taken n c .subscriber s) (downloadStep requests i .getFile .idle s)
      (downloadStep requests i .getFile .idle s') := by
  have hlobby := h.lobby
  unfold downloadStep Lobby.getRoom
  dsimp only
  rw [hi]
  generalize s.lobbyRooms.lookup n = found at hlobby
  generalize s'.lobbyRooms.lookup n = found' at hlobby
  cases hlobby with
  | none =>
      have htaken : Taken n c .subscriber s (.refused, s) (.refused, s') := ⟨c, .refl h, .refused⟩
      exact .some htaken
  | @some ρ ρ' hρ =>
      have hfile := h.getFileById hρ (requests.fileId i)
      dsimp only
      generalize Room.getFileById ρ (requests.fileId i) s = file at hfile
      generalize Room.getFileById ρ' (requests.fileId i) s' = file' at hfile
      cases hfile with
      | none =>
          have htaken : Taken n c .subscriber s (.refused, s) (.refused, s') :=
            ⟨c, .refl h, .refused⟩
          exact .some htaken
      | @some f f' hf =>
          obtain ⟨d, hsubscribed, hσ⟩ := h.subscribe hf
          have htaken : Taken n c .subscriber s
              (.live (File.subscribe f s).1, (File.subscribe f s).2)
              (.live (File.subscribe f' s').1, (File.subscribe f' s').2) :=
            ⟨d, hsubscribed, .live hσ⟩
          exact .some htaken

/-- A read returns the same bytes on both sides. -/
theorem read_alike (h : Sync n c s s') {i : ℕ} {σ σ' : SubscriberRef} (hσ : c.subscriber σ σ')
    (count : Int) :
    Option.Rel (Taken n c .subscriber s) (downloadStep requests i (.read count) (.live σ) s)
      (downloadStep requests i (.read count) (.live σ') s') := by
  obtain ⟨d, hread, houtcome⟩ := h.read hσ count
  have hσ := hread.step.le.1 .subscriber _ _ hσ
  unfold downloadStep
  dsimp only
  generalize (Subscriber.read σ count).exec s = result at hread houtcome
  generalize (Subscriber.read σ' count).exec s' = result' at hread houtcome
  obtain ⟨outcome, t⟩ := result
  obtain ⟨outcome', t'⟩ := result'
  cases houtcome with
  | error fault =>
      have htaken : Taken n c .subscriber s (.failed σ, t) (.failed σ', t') :=
        ⟨d, hread, .failed hσ⟩
      exact .some htaken
  | ok _ =>
      have htaken : Taken n c .subscriber s (.live σ, t) (.live σ', t') := ⟨d, hread, .live hσ⟩
      exact .some htaken

/-- Every event of a download from room `n` does the same on both sides. -/
theorem downloadStep_alike (h : Sync n c s s') {i : ℕ} (hi : requests.roomId i = n)
    {link link' : Link} (hlink : LinkRel c.subscriber link link') (event : DownloadEvent) :
    Option.Rel (Taken n c .subscriber s) (downloadStep requests i event link s)
      (downloadStep requests i event link' s') := by
  cases event with
  | getFile =>
      cases hlink with
      | idle => exact getFile_alike h hi
      | live _ => exact .none
      | failed _ => exact .none
      | closed _ => exact .none
      | refused => exact .none
  | read count =>
      cases hlink with
      | live hσ => exact read_alike h hσ count
      | idle => exact .none
      | failed _ => exact .none
      | closed _ => exact .none
      | refused => exact .none
  | drop =>
      cases hlink with
      | live hσ => exact .some ⟨c, h.destroy hσ, .closed hσ⟩
      | failed hσ => exact .some ⟨c, h.destroy hσ, .closed hσ⟩
      | idle => exact .none
      | closed _ => exact .none
      | refused => exact .none

/-! ### A server for each room -/

/-- `small n` has the room `n` only. -/
structure Worlds (C : String → Counterparts) (s : Server) (small : String → Server) : Prop where
  sim : ∀ n, Sim n (C n) s (small n)
  apart : ∀ {n m}, n ≠ m → Apart (C n) (C m)

namespace Worlds

variable {C : String → Counterparts} {small : String → Server}

theorem advance (h : Worlds C s small) (hadvance : Advance n (C n) d s t t') :
    Worlds (Function.update C n d) t (Function.update small n t') where
  sim m := by
    rcases eq_or_ne m n with rfl | hne
    · rw [Function.update_self, Function.update_self]
      exact hadvance.sync.toSim
    · rw [Function.update_of_ne hne, Function.update_of_ne hne]
      exact (h.sim m).framed hadvance hne (h.apart hne)
  apart {m k} hmk := by
    have hapart : ∀ {m}, m ≠ n → Apart (C m) d := fun hm =>
      hadvance.step.apart (h.sim _) (h.apart hm)
    rcases eq_or_ne m n with rfl | hm
    · rw [Function.update_self, Function.update_of_ne hmk.symm]
      exact (hapart hmk.symm).symm
    · rw [Function.update_of_ne hm]
      rcases eq_or_ne k n with rfl | hk
      · rw [Function.update_self]
        exact hapart hm
      · rw [Function.update_of_ne hk]
        exact h.apart hmk

/-- All clocks are read alike. -/
structure InTime (s : Server) (small : String → Server) : Prop where
  clock : ∀ n, (small n).clock = s.clock
  clockReads : ∀ n, (small n).clockReads = s.clockReads

theorem pingAllPeers_clock (ρ : RoomRef) (s : Server) :
    (Room.pingAllPeers ρ s).clock = s.clock ∧
    (Room.pingAllPeers ρ s).clockReads = s.clockReads := by
  obtain ⟨_, _, h, -⟩ := Room.pingAllPeers_frame ρ s
  rw [h]
  exact ⟨rfl, rfl⟩

theorem InTime.pingAllPeers (h : InTime s small) (ρ ρ' : RoomRef) (n : String) :
    InTime (Room.pingAllPeers ρ s)
      (Function.update small n (Room.pingAllPeers ρ' (small n))) := by
  obtain ⟨hclock, hreads⟩ := pingAllPeers_clock ρ s
  obtain ⟨hclock', hreads'⟩ := pingAllPeers_clock ρ' (small n)
  constructor
  · intro m
    rcases eq_or_ne m n with rfl | hne
    · rw [Function.update_self, hclock, hclock', h.clock]
    · rw [Function.update_of_ne hne, hclock, h.clock]
  · intro m
    rcases eq_or_ne m n with rfl | hne
    · rw [Function.update_self, hreads, hreads', h.clockReads]
    · rw [Function.update_of_ne hne, hreads, h.clockReads]

/-- A round in a server with one room, or with none. -/
theorem pingRound_single (h : ∀ m ρ, s.lobbyRooms.lookup m = some ρ → m = n) :
    Lobby.pingRound s =
      (s.lobbyRooms.lookup n).toList.foldl (fun s ρ => Room.pingAllPeers ρ s) s := by
  unfold Lobby.pingRound
  rw [UnorderedMap.values_of_single h]

/-- The rooms of `l` are pinged one after the other, each in its own server. -/
theorem foldl_pingAllPeers {l : List (Σ _ : String, RoomRef)} (hkeys : l.NodupKeys)
    (h : Worlds C s small) (htime : InTime s small)
    (hlobby : ∀ n ρ, ⟨n, ρ⟩ ∈ l →
      ∃ ρ', (small n).lobbyRooms.lookup n = some ρ' ∧ (C n).room ρ ρ') :
    Worlds C (l.foldl (fun s entry => Room.pingAllPeers entry.2 s) s)
      (fun n => if n ∈ l.keys then Lobby.pingRound (small n) else small n) := by
  induction l generalizing s small with
  | nil => exact h
  | cons entry l ih =>
      obtain ⟨n, ρ⟩ := entry
      obtain ⟨hn, hkeys⟩ := List.nodupKeys_cons.mp hkeys
      obtain ⟨ρ', hlookup, hρ⟩ := hlobby n ρ List.mem_cons_self
      have hsync : Sync n (C n) s (small n) := ⟨h.sim n, htime.clock n, htime.clockReads n⟩
      have hround : Lobby.pingRound (small n) = Room.pingAllPeers ρ' (small n) := by
        rw [pingRound_single (h.sim n).single, hlookup]
        rfl
      have hworlds := h.advance (hsync.pingAllPeers hρ)
      rw [Function.update_eq_self] at hworlds
      have hne : ∀ {m}, m ∈ l.keys → m ≠ n := fun hm heq => hn (heq ▸ hm)
      have hrest := ih hkeys hworlds (htime.pingAllPeers ρ ρ' n) fun m τ hm => by
        rw [Function.update_of_ne (hne (List.mem_keys_of_mem hm))]
        exact hlobby m τ (List.mem_cons_of_mem _ hm)
      have hsmall : (fun m => if m ∈ List.keys (⟨n, ρ⟩ :: l) then Lobby.pingRound (small m)
          else small m) = fun m =>
            if m ∈ l.keys then
              Lobby.pingRound (Function.update small n (Room.pingAllPeers ρ' (small n)) m)
            else Function.update small n (Room.pingAllPeers ρ' (small n)) m := by
        funext m
        rcases eq_or_ne m n with rfl | hm
        · rw [List.keys_cons, if_pos List.mem_cons_self, if_neg hn, Function.update_self, hround]
        · rw [Function.update_of_ne hm, List.keys_cons]
          simp only [List.mem_cons, hm, false_or]
      rw [List.foldl_cons, hsmall]
      exact hrest

/-- A round of pings, in every server. -/
theorem pingRound (h : Worlds C s small) (htime : InTime s small) :
    Worlds C (Lobby.pingRound s) fun n => Lobby.pingRound (small n) := by
  have hlobby : ∀ n, Option.Rel (C n).room (s.lobbyRooms.lookup n)
      ((small n).lobbyRooms.lookup n) := fun n => (h.sim n).lobby
  have hpinged := h.foldl_pingAllPeers (l := s.lobbyRooms.entries) s.lobbyRooms.nodupKeys htime
    fun n ρ hentry => by
      have hlookup : s.lobbyRooms.lookup n = some ρ := AList.mem_lookup_iff.mpr hentry
      have hroom := hlobby n
      rw [hlookup] at hroom
      generalize (small n).lobbyRooms.lookup n = found' at hroom ⊢
      cases hroom with
      | some hρ => exact ⟨_, rfl, hρ⟩
  have hsmall : (fun n => Lobby.pingRound (small n)) = fun n =>
      if n ∈ s.lobbyRooms.entries.keys then Lobby.pingRound (small n) else small n := by
    funext n
    split
    · rfl
    · next hn =>
      have hlookup : s.lobbyRooms.lookup n = none := List.dlookup_eq_none.mpr hn
      have hroom := hlobby n
      rw [hlookup] at hroom
      rw [pingRound_single (h.sim n).single]
      generalize (small n).lobbyRooms.lookup n = found' at hroom ⊢
      cases hroom with
      | none => rfl
  unfold Lobby.pingRound at hsmall ⊢
  rw [hsmall, UnorderedMap.values, List.foldl_map]
  exact hpinged

end Worlds

/-! ### Runs -/

/-- The connections of the room `n` have counterparts. -/
structure Follows (requests : Requests) (n : String) (c : Counterparts) (s s' : State) : Prop where
  socket : ∀ k, requests.roomName k = n → LinkRel c.peer (s.socket k) (s'.socket k)
  download : ∀ i, requests.roomId i = n → LinkRel c.subscriber (s.download i) (s'.download i)

/-- The state, and for each room name the one its own events lead to. -/
structure Parallel (requests : Requests) (C : String → Counterparts) (s : State)
    (small : String → State) : Prop where
  server : Worlds C s.server fun n => (small n).server
  follows : ∀ n, Follows requests n (C n) s (small n)

theorem Worlds.setClock {C : String → Counterparts} {small : String → Server}
    (h : Worlds C s small) (clock : ℕ → Int) : Worlds C (setClock clock s) small where
  sim n := { h.sim n with }
  apart := h.apart

theorem Sim.setClock (h : Sim n c s s') (clock : ℕ → Int) :
    Sync n c (setClock clock s) (setClock clock s') :=
  { h with
    clock := rfl
    clockReads := rfl }

namespace Parallel

variable {C : String → Counterparts} {small : String → State} {clock : ℕ → Int}

/-- The room `n` takes a step, the other rooms see nothing of it. -/
theorem advance {s t t' : State} (h : Parallel requests C s small)
    (hadvance : Advance n (C n) d (setClock clock s.server) t.server t'.server)
    (hown : Follows requests n d t t')
    (hsocket : ∀ k, requests.roomName k ≠ n → t.socket k = s.socket k)
    (hdownload : ∀ i, requests.roomId i ≠ n → t.download i = s.download i) :
    Parallel requests (Function.update C n d) t (Function.update small n t') where
  server := by
    have hservers : (fun m => (Function.update small n t' m).server) =
        Function.update (fun m => (small m).server) n t'.server :=
      funext (Function.apply_update (fun _ => State.server) small n t')
    rw [hservers]
    exact (h.server.setClock clock).advance hadvance
  follows m := by
    rcases eq_or_ne m n with rfl | hne
    · rw [Function.update_self, Function.update_self]
      exact hown
    · rw [Function.update_of_ne hne, Function.update_of_ne hne]
      constructor
      · rintro k rfl
        rw [hsocket k hne]
        exact (h.follows _).socket k rfl
      · rintro i rfl
        rw [hdownload i hne]
        exact (h.follows _).download i rfl

theorem step_socket {s t : State} (h : Parallel requests C s small) {k : SocketRef}
    {event : SocketEvent}
    (hstep : s.step fw config requests ⟨.socket k event, clock⟩ = some t) :
    ∃ d t', Parallel requests (Function.update C (requests.roomName k) d) t
        (Function.update small (requests.roomName k) t') ∧
      (small (requests.roomName k)).step fw config requests ⟨.socket k event, clock⟩ = some t' := by
  have hfollows := h.follows (requests.roomName k)
  have hsync := (h.server.sim (requests.roomName k)).setClock clock
  have htaken := socketStep_alike fw config hsync rfl (hfollows.socket k rfl) event
  unfold State.step at hstep ⊢
  dsimp only at hstep ⊢
  generalize socketStep fw config requests k event (s.socket k) _ = result at htaken hstep
  generalize socketStep fw config requests k event ((small _).socket k) _ = result' at htaken ⊢
  cases htaken with
  | none => cases hstep
  | @some result result' htaken =>
      obtain ⟨d, hadvance, hlink⟩ := htaken
      cases hstep
      refine ⟨d, _, h.advance hadvance ?_ (fun j hj => ?_) fun _ _ => rfl, rfl⟩
      · constructor
        · intro j hj
          refine related_update (Q := LinkRel d.peer) Iff.rfl hlink ?_
          exact (hfollows.socket j hj).mono (hadvance.step.le.1 .peer)
        · exact fun i hi => (hfollows.download i hi).mono (hadvance.step.le.1 .subscriber)
      · exact Function.update_of_ne (fun heq => hj (congrArg requests.roomName heq)) _ _

theorem step_download {s t : State} (h : Parallel requests C s small) {i : ℕ}
    {event : DownloadEvent}
    (hstep : s.step fw config requests ⟨.download i event, clock⟩ = some t) :
    ∃ d t', Parallel requests (Function.update C (requests.roomId i) d) t
        (Function.update small (requests.roomId i) t') ∧
      (small (requests.roomId i)).step fw config requests ⟨.download i event, clock⟩ = some t' := by
  have hfollows := h.follows (requests.roomId i)
  have hsync := (h.server.sim (requests.roomId i)).setClock clock
  have htaken := downloadStep_alike hsync rfl (hfollows.download i rfl) event
  unfold State.step at hstep ⊢
  dsimp only at hstep ⊢
  generalize downloadStep requests i event (s.download i) _ = result at htaken hstep
  generalize downloadStep requests i event ((small _).download i) _ = result' at htaken ⊢
  cases htaken with
  | none => cases hstep
  | @some result result' htaken =>
      obtain ⟨d, hadvance, hlink⟩ := htaken
      cases hstep
      refine ⟨d, _, h.advance hadvance ?_ (fun _ _ => rfl) fun j hj => ?_, rfl⟩
      · constructor
        · exact fun k hk => (hfollows.socket k hk).mono (hadvance.step.le.1 .peer)
        · intro j hj
          refine related_update (Q := LinkRel d.subscriber) Iff.rfl hlink ?_
          exact (hfollows.download j hj).mono (hadvance.step.le.1 .subscriber)
      · exact Function.update_of_ne (fun heq => hj (congrArg requests.roomId heq)) _ _

theorem step_pingRound {s : State} (h : Parallel requests C s small) (clock : ℕ → Int) :
    Parallel requests C { s with server := Lobby.pingRound (setClock clock s.server) }
      fun n => { small n with server := Lobby.pingRound (setClock clock (small n).server) } where
  server := by
    have hclocks : Worlds C (setClock clock s.server) fun n => setClock clock (small n).server :=
      { sim := fun n => ((h.server.sim n).setClock clock).toSim
        apart := h.server.apart }
    exact hclocks.pingRound ⟨fun _ => rfl, fun _ => rfl⟩
  follows n := ⟨(h.follows n).socket, (h.follows n).download⟩

/-- The rooms an event does not concern stay where they are. -/
theorem step {s t : State} {a : Occurrence} (h : Parallel requests C s small)
    (hstep : s.step fw config requests a = some t) :
    ∃ C' small', Parallel requests C' t small' ∧ ∀ n,
      (system fw config requests).run (small n)
        ([a].filter fun a => concerns requests n a.event) = some (small' n) := by
  obtain ⟨event, clock⟩ := a
  cases event with
  | socket k event =>
      obtain ⟨d, t', hparallel, htaken⟩ := h.step_socket fw config hstep
      refine ⟨_, _, hparallel, fun n => ?_⟩
      rcases eq_or_ne n (requests.roomName k) with rfl | hne
      · rw [Function.update_self]
        simp [concerns, system, htaken]
      · rw [Function.update_of_ne hne]
        simp [concerns, hne.symm]
  | download i event =>
      obtain ⟨d, t', hparallel, htaken⟩ := h.step_download fw config hstep
      refine ⟨_, _, hparallel, fun n => ?_⟩
      rcases eq_or_ne n (requests.roomId i) with rfl | hne
      · rw [Function.update_self]
        simp [concerns, system, htaken]
      · rw [Function.update_of_ne hne]
        simp [concerns, hne.symm]
  | pingRound =>
      cases hstep
      exact ⟨C, _, h.step_pingRound clock, fun _ => rfl⟩

theorem run {s t : State} {acts : List Occurrence} (h : Parallel requests C s small)
    (hrun : (system fw config requests).run s acts = some t) :
    ∃ C' small', Parallel requests C' t small' ∧ ∀ n,
      (system fw config requests).run (small n)
        (acts.filter fun a => concerns requests n a.event) = some (small' n) := by
  induction acts generalizing C s small with
  | nil =>
      cases hrun
      exact ⟨C, small, h, fun _ => rfl⟩
  | cons a acts ih =>
      obtain ⟨u, hstep, hrest⟩ := Option.bind_eq_some_iff.mp hrun
      obtain ⟨D, mid, hmid, hfirst⟩ := h.step fw config hstep
      obtain ⟨C', small', hend, hlast⟩ := ih hmid hrest
      refine ⟨C', small', hend, fun n => ?_⟩
      have hsplit : a :: acts = [a] ++ acts := rfl
      rw [hsplit, List.filter_append, Transition.System.run_append, hfirst n]
      exact hlast n

/-- Nothing is paired yet. -/
theorem fresh : Parallel requests (fun _ => .empty) {} fun _ => {} where
  server :=
    { sim := fun _ =>
        { lobby := .none
          room := False.elim
          peer := False.elim
          file := False.elim
          subscriber := False.elim
          outbox := False.elim
          single := nofun
          silent := fun _ _ => rfl
          silent' := fun _ _ => rfl
          below := fun _ _ _ => False.elim
          peerId_below := fun _ _ => False.elim }
      apart := fun _ _ _ ⟨_, h⟩ => h.elim }
  follows _ := ⟨fun _ _ => .idle, fun _ _ => .idle⟩

end Parallel

/-- **Rooms do not interfere.**  Without the events of the other rooms a run
still goes through, and the room `n` comes out of it the same, with the same
messages sent to its peers. -/
theorem rooms_isolated {acts : List Occurrence} {s : State}
    (hrun : (system fw config requests).run {} acts = some s) (n : String) :
    ∃ s' c, (system fw config requests).run {}
        (acts.filter fun a => concerns requests n a.event) = some s' ∧
      Unchanged n c s.server s'.server ∧ Follows requests n c s s' := by
  obtain ⟨C, small, hparallel, hsmall⟩ := Parallel.fresh.run fw config hrun
  exact ⟨small n, C n, hsmall n, (hparallel.server.sim n).toUnchanged, hparallel.follows n⟩

/-- Every message of the clients is the same post. -/
def chatter : Framework where
  readFromString _ := some (some { code := some .codePeerMessage, message := some "Hi" })
  base64Decode _ := none

/-- Ann is in the lounge, Bob in the attic; the download looks in the lounge. -/
def twoRooms : Requests where
  roomName k := if k = 0 then "lounge" else "attic"
  nickname k := if k = 0 then "Ann" else "Bob"
  roomId _ := "lounge"
  fileId _ := 1

/-- Both join and post, Bob first; he leaves after a round of pings. -/
def twoPosts : List Occurrence :=
  [⟨.socket 1 .join, fun _ => 0⟩, ⟨.socket 0 .join, fun _ => 0⟩,
    ⟨.socket 1 (.receive [72]), fun _ => 1⟩, ⟨.socket 1 (.receive []), fun _ => 2⟩,
    ⟨.socket 0 (.receive [72]), fun _ => 3⟩, ⟨.socket 0 (.receive []), fun _ => 4⟩,
    ⟨.download 0 .getFile, fun _ => 5⟩, ⟨.pingRound, fun _ => 6⟩, ⟨.socket 1 .leave, fun _ => 7⟩]

theorem rooms_isolated_lounge :
    ∃ s, (system chatter {} twoRooms).run {} twoPosts = some s ∧
      ∃ s' c, (system chatter {} twoRooms).run {}
          (twoPosts.filter fun a => concerns twoRooms "lounge" a.event) = some s' ∧
        Unchanged "lounge" c s.server s'.server ∧ Follows twoRooms "lounge" c s s' := by
  have hruns : ((system chatter {} twoRooms).run {} twoPosts).isSome = true := by decide +kernel
  obtain ⟨s, hrun⟩ := Option.isSome_iff_exists.mp hruns
  exact ⟨s, hrun, rooms_isolated chatter {} hrun "lounge"⟩

end Isolation

end CanChat
