/-
CanChat/Moves.lean

What a step of the whole server can be.

Design.  `Moves` lists the cases of `Isolation.State.step`, each with what it
asks of its connection and what becomes of the server; an invariant of whole runs
is then a case analysis over it (`moves_of_step`).
-/
import CanChat.Isolation

namespace CanChat

namespace Isolation

variable (fw : Framework) (config : ConfigDto) (requests : Requests)

/-- From `s` to `t`, with what has happened. -/
inductive Moves (s : State) : Occurrence → State → Prop
  | join {k : SocketRef} {clock : ℕ → Int} {joined : PeerRef × Server}
      (idle : s.socket k = .idle)
      (handled : Lobby.onAfterCreateNonBlocking config k (requests.roomName k)
        (requests.nickname k) (setClock clock s.server) = joined) :
      Moves s ⟨.socket k .join, clock⟩
        { s with server := joined.2, socket := Function.update s.socket k (.live joined.1) }
  | taken {k : SocketRef} {clock : ℕ → Int} {data : Bytes} {p : PeerRef} {server : Server}
      (live : s.socket k = .live p)
      (handled : (Peer.readMessage fw config p data).exec (setClock clock s.server) =
        (.ok none, server)) :
      Moves s ⟨.socket k (.receive data), clock⟩
        { s with server, socket := Function.update s.socket k (.live p) }
  /-- The peer is sent an error, and the connection ends. -/
  | answered {k : SocketRef} {clock : ℕ → Int} {data : Bytes} {p : PeerRef} {server : Server}
      {coroutine : SendErrorCoroutine} (live : s.socket k = .live p)
      (handled : (Peer.readMessage fw config p data).exec (setClock clock s.server) =
        (.ok (some coroutine), server)) :
      Moves s ⟨.socket k (.receive data), clock⟩
        { s with
          server := sendError p coroutine server
          socket := Function.update s.socket k (.failed p) }
  | raised {k : SocketRef} {clock : ℕ → Int} {data : Bytes} {p : PeerRef} {server : Server}
      {fault : Fault} (live : s.socket k = .live p)
      (handled : (Peer.readMessage fw config p data).exec (setClock clock s.server) =
        (.error fault, server)) :
      Moves s ⟨.socket k (.receive data), clock⟩
        { s with server, socket := Function.update s.socket k (.failed p) }
  | pong {k : SocketRef} {clock : ℕ → Int} {p : PeerRef} (live : s.socket k = .live p) :
      Moves s ⟨.socket k .pong, clock⟩
        { s with
          server := Peer.onPong p (setClock clock s.server)
          socket := Function.update s.socket k (.live p) }
  | leave {k : SocketRef} {clock : ℕ → Int} {p : PeerRef}
      (ending : s.socket k = .live p ∨ s.socket k = .failed p) :
      Moves s ⟨.socket k .leave, clock⟩
        { s with
          server := Lobby.onBeforeDestroyNonBlocking config p (setClock clock s.server)
          socket := Function.update s.socket k (.closed p) }
  /-- There is no such room, or no such file. -/
  | refused {i : ℕ} {clock : ℕ → Int} (idle : s.download i = .idle)
      (missing : ∀ ρ, Lobby.getRoom (requests.roomId i) s.server = some ρ →
        Room.getFileById ρ (requests.fileId i) s.server = none) :
      Moves s ⟨.download i .getFile, clock⟩
        { s with
          server := setClock clock s.server
          download := Function.update s.download i .refused }
  | subscribed {i : ℕ} {clock : ℕ → Int} {ρ : RoomRef} {f : FileRef} (idle : s.download i = .idle)
      (room : Lobby.getRoom (requests.roomId i) s.server = some ρ)
      (file : Room.getFileById ρ (requests.fileId i) s.server = some f) :
      Moves s ⟨.download i .getFile, clock⟩
        { s with
          server := (File.subscribe f (setClock clock s.server)).2
          download := Function.update s.download i (.live s.server.subscriberCount) }
  | read {i : ℕ} {clock : ℕ → Int} {count : Int} {σ : SubscriberRef} {server : Server}
      {result : ReadResult} (live : s.download i = .live σ)
      (handled : (Subscriber.read σ count).exec (setClock clock s.server) = (.ok result, server)) :
      Moves s ⟨.download i (.read count), clock⟩
        { s with server, download := Function.update s.download i (.live σ) }
  | broken {i : ℕ} {clock : ℕ → Int} {count : Int} {σ : SubscriberRef} {server : Server}
      {fault : Fault} (live : s.download i = .live σ)
      (handled :
        (Subscriber.read σ count).exec (setClock clock s.server) = (.error fault, server)) :
      Moves s ⟨.download i (.read count), clock⟩
        { s with server, download := Function.update s.download i (.failed σ) }
  | drop {i : ℕ} {clock : ℕ → Int} {σ : SubscriberRef}
      (ending : s.download i = .live σ ∨ s.download i = .failed σ) :
      Moves s ⟨.download i .drop, clock⟩
        { s with
          server := Subscriber.destroy σ (setClock clock s.server)
          download := Function.update s.download i (.closed σ) }
  | pingRound {clock : ℕ → Int} :
      Moves s ⟨.pingRound, clock⟩ { s with server := Lobby.pingRound (setClock clock s.server) }

variable {fw config requests} {s t : State}

theorem moves_of_receive {k : SocketRef} {clock : ℕ → Int} {data : Bytes} {p : PeerRef}
    (live : s.socket k = .live p)
    (hstep : s.step fw config requests ⟨.socket k (.receive data), clock⟩ = some t) :
    Moves fw config requests s ⟨.socket k (.receive data), clock⟩ t := by
  obtain ⟨result, hresult, rfl⟩ := Option.map_eq_some_iff.mp hstep
  rw [live] at hresult
  unfold socketStep at hresult
  dsimp only at hresult
  rcases hexec : (Peer.readMessage fw config p data).exec (setClock clock s.server) with
    ⟨outcome, server⟩
  rw [hexec] at hresult
  rcases outcome with fault | starter
  · obtain rfl := Option.some.inj hresult
    exact .raised live hexec
  · rcases starter with - | coroutine
    · obtain rfl := Option.some.inj hresult
      exact .taken live hexec
    · obtain rfl := Option.some.inj hresult
      exact .answered live hexec

theorem moves_of_getFile {i : ℕ} {clock : ℕ → Int} (idle : s.download i = .idle)
    (hstep : s.step fw config requests ⟨.download i .getFile, clock⟩ = some t) :
    Moves fw config requests s ⟨.download i .getFile, clock⟩ t := by
  obtain ⟨result, hresult, rfl⟩ := Option.map_eq_some_iff.mp hstep
  rw [idle] at hresult
  unfold downloadStep at hresult
  dsimp only at hresult
  rcases hroom : Lobby.getRoom (requests.roomId i) (setClock clock s.server) with - | ρ
  · rw [hroom] at hresult
    obtain rfl := Option.some.inj hresult
    have hnone : Lobby.getRoom (requests.roomId i) s.server = none := hroom
    refine .refused idle fun ρ hρ => ?_
    rw [hnone] at hρ
    cases hρ
  · rw [hroom] at hresult
    dsimp only at hresult
    have hsome : Lobby.getRoom (requests.roomId i) s.server = some ρ := hroom
    rcases hfile : Room.getFileById ρ (requests.fileId i) (setClock clock s.server) with - | f
    · rw [hfile] at hresult
      obtain rfl := Option.some.inj hresult
      refine .refused idle fun ρ' hρ' => ?_
      obtain rfl := Option.some.inj (hsome.symm.trans hρ')
      exact hfile
    · rw [hfile] at hresult
      obtain rfl := Option.some.inj hresult
      exact .subscribed idle hsome hfile

theorem moves_of_read {i : ℕ} {clock : ℕ → Int} {count : Int} {σ : SubscriberRef}
    (live : s.download i = .live σ)
    (hstep : s.step fw config requests ⟨.download i (.read count), clock⟩ = some t) :
    Moves fw config requests s ⟨.download i (.read count), clock⟩ t := by
  obtain ⟨result, hresult, rfl⟩ := Option.map_eq_some_iff.mp hstep
  rw [live] at hresult
  unfold downloadStep at hresult
  dsimp only at hresult
  rcases hexec : (Subscriber.read σ count).exec (setClock clock s.server) with ⟨outcome, server⟩
  rw [hexec] at hresult
  rcases outcome with fault | bytes
  · obtain rfl := Option.some.inj hresult
    exact .broken live hexec
  · obtain rfl := Option.some.inj hresult
    exact .read live hexec

/-- A step is one of these. -/
theorem moves_of_step {a : Occurrence} (hstep : s.step fw config requests a = some t) :
    Moves fw config requests s a t := by
  obtain ⟨event, clock⟩ := a
  cases event with
  | socket k event =>
      rcases hlink : s.socket k with - | p | p | p | -
      · cases event with
        | join =>
            obtain ⟨result, hresult, rfl⟩ := Option.map_eq_some_iff.mp hstep
            rw [hlink] at hresult
            obtain rfl := Option.some.inj hresult
            exact .join hlink rfl
        | _ =>
            obtain ⟨result, hresult, -⟩ := Option.map_eq_some_iff.mp hstep
            rw [hlink] at hresult
            cases hresult
      · cases event with
        | join =>
            obtain ⟨result, hresult, -⟩ := Option.map_eq_some_iff.mp hstep
            rw [hlink] at hresult
            cases hresult
        | receive data => exact moves_of_receive hlink hstep
        | pong =>
            obtain ⟨result, hresult, rfl⟩ := Option.map_eq_some_iff.mp hstep
            rw [hlink] at hresult
            obtain rfl := Option.some.inj hresult
            exact .pong hlink
        | leave =>
            obtain ⟨result, hresult, rfl⟩ := Option.map_eq_some_iff.mp hstep
            rw [hlink] at hresult
            obtain rfl := Option.some.inj hresult
            exact .leave (.inl hlink)
      · cases event with
        | leave =>
            obtain ⟨result, hresult, rfl⟩ := Option.map_eq_some_iff.mp hstep
            rw [hlink] at hresult
            obtain rfl := Option.some.inj hresult
            exact .leave (.inr hlink)
        | _ =>
            obtain ⟨result, hresult, -⟩ := Option.map_eq_some_iff.mp hstep
            rw [hlink] at hresult
            cases hresult
      -- nothing happens to a connection that has ended
      all_goals
        obtain ⟨result, hresult, -⟩ := Option.map_eq_some_iff.mp hstep
        rw [hlink] at hresult
        cases event <;> cases hresult
  | download i event =>
      rcases hlink : s.download i with - | σ | σ | σ | -
      · cases event with
        | getFile => exact moves_of_getFile hlink hstep
        | _ =>
            obtain ⟨result, hresult, -⟩ := Option.map_eq_some_iff.mp hstep
            rw [hlink] at hresult
            cases hresult
      · cases event with
        | getFile =>
            obtain ⟨result, hresult, -⟩ := Option.map_eq_some_iff.mp hstep
            rw [hlink] at hresult
            cases hresult
        | read count => exact moves_of_read hlink hstep
        | drop =>
            obtain ⟨result, hresult, rfl⟩ := Option.map_eq_some_iff.mp hstep
            rw [hlink] at hresult
            obtain rfl := Option.some.inj hresult
            exact .drop (.inl hlink)
      · cases event with
        | drop =>
            obtain ⟨result, hresult, rfl⟩ := Option.map_eq_some_iff.mp hstep
            rw [hlink] at hresult
            obtain rfl := Option.some.inj hresult
            exact .drop (.inr hlink)
        | _ =>
            obtain ⟨result, hresult, -⟩ := Option.map_eq_some_iff.mp hstep
            rw [hlink] at hresult
            cases hresult
      all_goals
        obtain ⟨result, hresult, -⟩ := Option.map_eq_some_iff.mp hstep
        rw [hlink] at hresult
        cases event <;> cases hresult
  | pingRound =>
      obtain rfl := Option.some.inj hstep
      exact .pingRound

end Isolation

end CanChat
