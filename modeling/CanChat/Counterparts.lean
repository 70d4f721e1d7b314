/-
CanChat/Counterparts.lean

The objects of one room in two servers.

Two servers run the same handlers for the room `n`; one of them has other rooms
as well.  `Counterparts` pairs the objects that belong to the room, and its
peer ids.  `Sim` says that paired objects have the same fields and point at
paired objects, so that whatever the room's objects lead to has a counterpart.
`Step` is what a handler of the room does to the first server: it may pair what
it creates, and leaves alone every object that is not paired.
-/
import CanChat.Correspondence
import CanChat.Handlers

namespace CanChat

namespace Isolation

open Correspondence

/-! ### Pairs of objects -/

/-- What a server counts. -/
inductive Kind
  | room
  | peer
  | file
  | subscriber
  deriving DecidableEq

/-- The number of objects there are. -/
def count (s : Server) : Kind → ℕ
  | .room => s.roomCount
  | .peer => s.peerCount
  | .file => s.fileCount
  | .subscriber => s.subscriberCount

/-- Which objects and ids of two servers correspond. -/
structure Counterparts where
  ref : Kind → Matching ℕ
  peerId : Matching Int

namespace Counterparts

instance : Preorder Counterparts := Preorder.lift fun c => (c.ref, c.peerId)

/-- Rooms that correspond. -/
abbrev room (c : Counterparts) : RoomRef → RoomRef → Prop := c.ref .room

/-- Peers that correspond. -/
abbrev peer (c : Counterparts) : PeerRef → PeerRef → Prop := c.ref .peer

/-- Files that correspond. -/
abbrev file (c : Counterparts) : FileRef → FileRef → Prop := c.ref .file

/-- Subscribers that correspond. -/
abbrev subscriber (c : Counterparts) : SubscriberRef → SubscriberRef → Prop := c.ref .subscriber

/-- Nothing corresponds yet. -/
def empty : Counterparts where
  ref _ := .empty
  peerId := .empty

/-- A new object on each side. -/
def add (c : Counterparts) (kind : Kind) (a a' : ℕ) (h : (c.ref kind).Below a a') :
    Counterparts :=
  { c with ref := Function.update c.ref kind ((c.ref kind).add a a' h) }

/-- A new peer id on each side. -/
def addPeerId (c : Counterparts) (i i' : Int) (h : c.peerId.Below i i') : Counterparts :=
  { c with peerId := c.peerId.add i i' h }

end Counterparts

/-! ### Messages -/

/-- The same message under the other id of its sender. -/
structure Restamped (id : Int → Int → Prop) (m m' : MessageDto) : Prop where
  peerId : Option.Rel id m.peerId m'.peerId
  rest : m' = { m with peerId := m'.peerId }

/-- The same name under corresponding ids. -/
def PeerDtoRel (id : Int → Int → Prop) (d d' : PeerDto) : Prop :=
  Option.Rel id d.peerId d'.peerId ∧ d'.peerName = d.peerName

/-- What is recorded, in a history and in its counterpart. -/
def Recorded (id : Int → Int → Prop) (o o' : Object MessageDto) : Prop := Restamped id o.val o'.val

/-- A `CODE_INFO` with the same peers, in any order, and the same history. -/
structure Introduces (id : Int → Int → Prop) (m m' : MessageDto) : Prop where
  peerId : Option.Rel id m.peerId m'.peerId
  peers : Option.Rel (Paired (Option.Rel (PeerDtoRel id))) m.peers m'.peers
  history : Option.Rel (List.Forall₂ (Option.Rel (Recorded id)))
    m.history m'.history
  rest : m' = { m with peerId := m'.peerId, peers := m'.peers, history := m'.history }

/-- What is sent, to a peer and to its counterpart. -/
def Delivered (id : Int → Int → Prop) (o o' : Object MessageDto) : Prop :=
  Restamped id o.val o'.val ∨ Introduces id o.val o'.val

/-! ### Objects -/

/-- Corresponding peers differ in their ids and in references only. -/
structure PeerRel (c : Counterparts) (peer peer' : Peer) : Prop where
  socket : peer'.socket = peer.socket
  room : c.room peer.room peer'.room
  nickname : peer'.nickname = peer.nickname
  peerId : c.peerId peer.peerId peer'.peerId
  messageBuffer : peer'.messageBuffer = peer.messageBuffer
  pingPoingCounter : peer'.pingPoingCounter = peer.pingPoingCounter
  files : List.Forall₂ c.file peer.files peer'.files

/-- Corresponding files have corresponding hosts and subscribers. -/
structure FileRel (c : Counterparts) (file file' : File) : Prop where
  host : c.peer file.host file'.host
  clientFileId : file'.clientFileId = file.clientFileId
  serverFileId : file'.serverFileId = file.serverFileId
  fileName : file'.fileName = file.fileName
  fileSize : file'.fileSize = file.fileSize
  subscriberIdCounter : file'.subscriberIdCounter = file.subscriberIdCounter
  subscribers : file.subscribers.Rel Eq c.subscriber file'.subscribers

/-- Corresponding subscribers differ in the reference to their file only. -/
structure SubscriberRel (c : Counterparts) (subscriber subscriber' : Subscriber) : Prop where
  file : c.file subscriber.file subscriber'.file
  rest : subscriber' = { subscriber with file := subscriber'.file }

/-- Corresponding rooms have corresponding members, files and histories. -/
structure RoomRel (n : String) (c : Counterparts) (room room' : Room) : Prop where
  name : room.name = n
  name' : room'.name = n
  fileIdCounter : room'.fileIdCounter = room.fileIdCounter
  fileById : room.fileById.Rel Eq c.file room'.fileById
  peerById : room.peerById.Rel c.peerId c.peer room'.peerById
  history : List.Forall₂ (Recorded c.peerId) room.history room'.history

/-! ### Servers -/

/-- The room `n` is there on both sides or on none, and its objects are the
same. -/
structure Unchanged (n : String) (c : Counterparts) (s s' : Server) : Prop where
  lobby : Option.Rel c.room (s.lobbyRooms.lookup n) (s'.lobbyRooms.lookup n)
  room : ∀ {ρ ρ'}, c.room ρ ρ' → RoomRel n c (s.rooms ρ) (s'.rooms ρ')
  peer : ∀ {p p'}, c.peer p p' → PeerRel c (s.peers p) (s'.peers p')
  file : ∀ {f f'}, c.file f f' → FileRel c (s.files f) (s'.files f')
  subscriber : ∀ {σ σ'}, c.subscriber σ σ' →
    Option.Rel (SubscriberRel c) (s.subscribers σ) (s'.subscribers σ')
  outbox : ∀ {p p'}, c.peer p p' →
    List.Forall₂ (Delivered c.peerId) (s.outbox p) (s'.outbox p')

/-- The second server has no other room. -/
structure Sim (n : String) (c : Counterparts) (s s' : Server) : Prop
    extends Unchanged n c s s' where
  single : ∀ m ρ', s'.lobbyRooms.lookup m = some ρ' → m = n
  silent : ∀ p, s.peerCount ≤ p → s.outbox p = []
  silent' : ∀ p, s'.peerCount ≤ p → s'.outbox p = []
  below : ∀ kind, (c.ref kind).Below (count s kind) (count s' kind)
  peerId_below : c.peerId.Below s.peerIdCounter s'.peerIdCounter

/-- In the course of a handler the clock is read on both sides. -/
structure Sync (n : String) (c : Counterparts) (s s' : Server) : Prop extends Sim n c s s' where
  clock : s'.clock = s.clock
  clockReads : s'.clockReads = s.clockReads

/-- A handler of the room `n` goes from `s` to `t`. -/
structure Step (n : String) (c d : Counterparts) (s t : Server) : Prop where
  le : c ≤ d
  fresh : ∀ kind a a', d.ref kind a a' → c.ref kind a a' ∨ count s kind ≤ a
  count : ∀ kind, count s kind ≤ count t kind
  peerIdCounter : s.peerIdCounter ≤ t.peerIdCounter
  lobby : ∀ m ≠ n, t.lobbyRooms.lookup m = s.lobbyRooms.lookup m
  room : ∀ ρ, ¬ (d.ref .room).Dom ρ → t.rooms ρ = s.rooms ρ
  peer : ∀ p, ¬ (d.ref .peer).Dom p → t.peers p = s.peers p
  outbox : ∀ p, ¬ (d.ref .peer).Dom p → t.outbox p = s.outbox p
  file : ∀ f, ¬ (d.ref .file).Dom f → t.files f = s.files f
  subscriber : ∀ σ, ¬ (d.ref .subscriber).Dom σ → t.subscribers σ = s.subscribers σ

/-- The handler goes from `s'` to `t'` on the other side. -/
structure Advance (n : String) (c d : Counterparts) (s t t' : Server) : Prop where
  step : Step n c d s t
  sync : Sync n d t t'

variable {n : String} {c d e : Counterparts} {s s' t t' u u' : Server}

/-! ### More counterparts -/

namespace Counterparts

/-- Adding a pair loses none. -/
theorem le_add {kind : Kind} {a a' : ℕ} (h : (c.ref kind).Below a a') : c ≤ c.add kind a a' h := by
  refine ⟨fun k => ?_, le_rfl⟩
  show c.ref k ≤ Function.update c.ref kind ((c.ref kind).add a a' h) k
  rcases eq_or_ne k kind with rfl | hne
  · rw [Function.update_self]
    exact Matching.le_add h
  · rw [Function.update_of_ne hne]

/-- What corresponds after a pair is added. -/
theorem add_iff {kind k : Kind} {a a' b b' : ℕ} (h : (c.ref kind).Below a a') :
    (c.add kind a a' h).ref k b b' ↔ c.ref k b b' ∨ k = kind ∧ b = a ∧ b' = a' := by
  show Function.update c.ref kind ((c.ref kind).add a a' h) k b b' ↔ _
  rcases eq_or_ne k kind with rfl | hne
  · rw [Function.update_self]
    simp [Matching.add]
  · rw [Function.update_of_ne hne]
    simp [hne]

theorem add_self {kind : Kind} {a a' : ℕ} (h : (c.ref kind).Below a a') :
    (c.add kind a a' h).ref kind a a' := (add_iff h).mpr (.inr ⟨rfl, rfl, rfl⟩)

theorem le_addPeerId {i i' : Int} (h : c.peerId.Below i i') : c ≤ c.addPeerId i i' h :=
  ⟨le_rfl, Matching.le_add h⟩

end Counterparts

section Mono

variable {id id' : Int → Int → Prop} {m m' : MessageDto}

theorem Restamped.mono (h : Restamped id m m') (hle : ∀ i i', id i i' → id' i i') :
    Restamped id' m m' :=
  ⟨optionRel_mono h.peerId hle, h.rest⟩

/-- A message without a sender. -/
theorem Restamped.of_none (h : m.peerId = none) : Restamped id m m := by
  constructor
  · rw [h]
    exact .none
  · cases m
    rfl

theorem Recorded.mono {o o' : Object MessageDto} (h : Recorded id o o')
    (hle : ∀ i i', id i i' → id' i i') : Recorded id' o o' :=
  Restamped.mono h hle

theorem Introduces.mono (h : Introduces id m m') (hle : ∀ i i', id i i' → id' i i') :
    Introduces id' m m' where
  peerId := optionRel_mono h.peerId hle
  peers := optionRel_mono h.peers fun _ _ hpeers => hpeers.mono fun _ _ hpeer =>
    optionRel_mono hpeer fun _ _ hdto => ⟨optionRel_mono hdto.1 hle, hdto.2⟩
  history := optionRel_mono h.history fun _ _ hhistory => hhistory.imp fun _ _ hentry =>
    optionRel_mono hentry fun _ _ hobject => hobject.mono hle
  rest := h.rest

theorem Delivered.mono {o o' : Object MessageDto} (h : Delivered id o o')
    (hle : ∀ i i', id i i' → id' i i') : Delivered id' o o' :=
  h.imp (·.mono hle) (·.mono hle)

theorem PeerRel.mono {peer peer' : Peer} (h : PeerRel c peer peer') (hle : c ≤ d) :
    PeerRel d peer peer' :=
  { h with
    room := hle.1 _ _ _ h.room
    peerId := hle.2 _ _ h.peerId
    files := h.files.imp (hle.1 _) }

theorem FileRel.mono {file file' : File} (h : FileRel c file file') (hle : c ≤ d) :
    FileRel d file file' :=
  { h with
    host := hle.1 _ _ _ h.host
    subscribers := h.subscribers.mono (fun _ _ => id) (hle.1 _) }

theorem SubscriberRel.mono {subscriber subscriber' : Subscriber}
    (h : SubscriberRel c subscriber subscriber') (hle : c ≤ d) :
    SubscriberRel d subscriber subscriber' :=
  { h with file := hle.1 _ _ _ h.file }

theorem RoomRel.mono {room room' : Room} (h : RoomRel n c room room') (hle : c ≤ d) :
    RoomRel n d room room' :=
  { h with
    fileById := h.fileById.mono (fun _ _ => id) (hle.1 _)
    peerById := h.peerById.mono hle.2 (hle.1 _)
    history := h.history.imp fun _ _ hobject => hobject.mono hle.2 }

end Mono

/-! ### Steps -/

namespace Step

theorem refl (s : Server) : Step n c c s s where
  le := le_rfl
  fresh _ _ _ h := .inl h
  count _ := le_rfl
  peerIdCounter := le_rfl
  lobby _ _ := rfl
  room _ _ := rfl
  peer _ _ := rfl
  outbox _ _ := rfl
  file _ _ := rfl
  subscriber _ _ := rfl

theorem trans (h : Step n c d s t) (h' : Step n d e t u) : Step n c e s u := by
  have hdom : ∀ {kind a}, ¬ (e.ref kind).Dom a → ¬ (d.ref kind).Dom a := fun hnot ha =>
    hnot (ha.mono (h'.le.1 _))
  exact
    { le := h.le.trans h'.le
      fresh := fun kind a a' ha => by
        rcases h'.fresh kind a a' ha with hd | hnew
        · exact h.fresh kind a a' hd
        · exact .inr ((h.count kind).trans hnew)
      count := fun kind => (h.count kind).trans (h'.count kind)
      peerIdCounter := h.peerIdCounter.trans h'.peerIdCounter
      lobby := fun m hm => (h'.lobby m hm).trans (h.lobby m hm)
      room := fun ρ hρ => (h'.room ρ hρ).trans (h.room ρ (hdom hρ))
      peer := fun p hp => (h'.peer p hp).trans (h.peer p (hdom hp))
      outbox := fun p hp => (h'.outbox p hp).trans (h.outbox p (hdom hp))
      file := fun f hf => (h'.file f hf).trans (h.file f (hdom hf))
      subscriber := fun σ hσ => (h'.subscriber σ hσ).trans (h.subscriber σ (hdom hσ)) }

end Step

namespace Advance

theorem refl (h : Sync n c s s') : Advance n c c s s s' := ⟨.refl s, h⟩

theorem trans (h : Advance n c d s t t') (h' : Advance n d e t u u') : Advance n c e s u u' :=
  ⟨h.step.trans h'.step, h'.sync⟩

end Advance

/-- No object belongs to both. -/
def Apart (c d : Counterparts) : Prop :=
  ∀ kind a, (c.ref kind).Dom a → ¬ (d.ref kind).Dom a

theorem Apart.symm (h : Apart c d) : Apart d c := fun kind a hd hc => h kind a hc hd

/-- What the handler creates is new to the other rooms. -/
theorem Step.apart {m : String} (hstep : Step n c d s t) (h : Sim m e s s') (hapart : Apart e c) :
    Apart e d := by
  rintro kind a ⟨a', ha⟩ ⟨b, hb⟩
  rcases hstep.fresh kind a b hb with hold | hnew
  · exact hapart kind a ⟨a', ha⟩ ⟨b, hold⟩
  · exact absurd hnew (h.below kind a a' ha).1.not_ge

/-- A handler of another room leaves the objects of this one alone. -/
theorem Sim.framed {m : String} (h : Sim m e s s') (hadvance : Advance n c d s t t') (hne : m ≠ n)
    (hapart : Apart e c) : Sim m e t s' := by
  obtain ⟨hstep, hsync⟩ := hadvance
  have hdom : ∀ {kind a a'}, e.ref kind a a' → ¬ (d.ref kind).Dom a := fun ha =>
    hstep.apart h hapart _ _ ⟨_, ha⟩
  exact
    { h with
      lobby := by
        rw [hstep.lobby m hne]
        exact h.lobby
      room := fun {ρ ρ'} hρ => by
        rw [hstep.room ρ (hdom hρ)]
        exact h.room hρ
      peer := fun {p p'} hp => by
        rw [hstep.peer p (hdom hp)]
        exact h.peer hp
      outbox := fun {p p'} hp => by
        rw [hstep.outbox p (hdom hp)]
        exact h.outbox hp
      file := fun {f f'} hf => by
        rw [hstep.file f (hdom hf)]
        exact h.file hf
      subscriber := fun {σ σ'} hσ => by
        rw [hstep.subscriber σ (hdom hσ)]
        exact h.subscriber hσ
      silent := fun p hp => by
        rw [hstep.outbox p fun ⟨q, hq⟩ => absurd hp (hsync.below .peer p q hq).1.not_ge]
        exact h.silent p ((hstep.count .peer).trans hp)
      below := fun kind => (h.below kind).mono (hstep.count kind) le_rfl
      peerId_below := h.peerId_below.mono hstep.peerIdCounter le_rfl }

/-! ### Changes to one object -/

namespace Sync

section Changes

variable {ρ ρ' : RoomRef} {p p' : PeerRef} {f f' : FileRef} {σ σ' : SubscriberRef}

/-- A change to corresponding rooms that keeps them related. -/
theorem modifyRoom (h : Sync n c s s') (hρ : c.room ρ ρ') {g g' : Room → Room}
    (hg : RoomRel n c (g (s.rooms ρ)) (g' (s'.rooms ρ'))) :
    Advance n c c s (s.modifyRoom ρ g) (s'.modifyRoom ρ' g') where
  step :=
    { Step.refl s with
      room := fun _ hdom => Function.update_of_ne (Matching.ne_of_not_dom ⟨ρ', hρ⟩ hdom) _ _ }
  sync :=
    { h with
      room := fun hτ => related_update (Q := RoomRel n c) (Matching.eq_iff hτ hρ) hg (h.room hτ) }

/-- A change to corresponding peers that keeps them related. -/
theorem modifyPeer (h : Sync n c s s') (hp : c.peer p p') {g g' : Peer → Peer}
    (hg : PeerRel c (g (s.peers p)) (g' (s'.peers p'))) :
    Advance n c c s (s.modifyPeer p g) (s'.modifyPeer p' g') where
  step :=
    { Step.refl s with
      peer := fun _ hdom => Function.update_of_ne (Matching.ne_of_not_dom ⟨p', hp⟩ hdom) _ _ }
  sync :=
    { h with
      peer := fun hq => related_update (Q := PeerRel c) (Matching.eq_iff hq hp) hg (h.peer hq) }

/-- A change to corresponding files that keeps them related. -/
theorem modifyFile (h : Sync n c s s') (hf : c.file f f') {g g' : File → File}
    (hg : FileRel c (g (s.files f)) (g' (s'.files f'))) :
    Advance n c c s (s.modifyFile f g) (s'.modifyFile f' g') where
  step :=
    { Step.refl s with
      file := fun _ hdom => Function.update_of_ne (Matching.ne_of_not_dom ⟨f', hf⟩ hdom) _ _ }
  sync :=
    { h with
      file := fun hk => related_update (Q := FileRel c) (Matching.eq_iff hk hf) hg (h.file hk) }

/-- Also when the subscriber is destroyed. -/
theorem setSubscriber (h : Sync n c s s') (hσ : c.subscriber σ σ') {o o' : Option Subscriber}
    (ho : Option.Rel (SubscriberRel c) o o') :
    Advance n c c s { s with subscribers := Function.update s.subscribers σ o }
      { s' with subscribers := Function.update s'.subscribers σ' o' } where
  step :=
    { Step.refl s with
      subscriber := fun _ hdom =>
        Function.update_of_ne (Matching.ne_of_not_dom ⟨σ', hσ⟩ hdom) _ _ }
  sync :=
    { h with
      subscriber := fun hτ => related_update (Q := Option.Rel (SubscriberRel c))
        (Matching.eq_iff hτ hσ) ho (h.subscriber hτ) }

/-- Corresponding peers have been allocated. -/
theorem lt_of_peer (h : Sync n c s s') (hp : c.peer p p') : p < s.peerCount ∧ p' < s'.peerCount :=
  h.below .peer p p' hp

/-- Delivered messages go to corresponding outboxes. -/
theorem send (h : Sync n c s s') (hp : c.peer p p') {o o' : Object MessageDto}
    (ho : Delivered c.peerId o o') :
    Advance n c c s (Peer.sendMessageAsync p o s) (Peer.sendMessageAsync p' o' s') := by
  obtain ⟨hlt, hlt'⟩ := h.lt_of_peer hp
  unfold Peer.sendMessageAsync
  rw [(h.peer hp).socket]
  split
  · exact
      { step :=
          { Step.refl s with
            outbox := fun _ hdom =>
              Function.update_of_ne (Matching.ne_of_not_dom ⟨p', hp⟩ hdom) _ _ }
        sync :=
          { h with
            outbox := fun hq =>
              related_update (Q := List.Forall₂ (Delivered c.peerId)) (Matching.eq_iff hq hp)
                (List.rel_append (h.outbox hp) (.cons ho .nil)) (h.outbox hq)
            silent := fun q hq =>
              (Function.update_of_ne (hlt.trans_le hq).ne' _ _).trans (h.silent q hq)
            silent' := fun q hq =>
              (Function.update_of_ne (hlt'.trans_le hq).ne' _ _).trans (h.silent' q hq) } }
  · exact .refl h

end Changes

/-! ### What no object shows -/

theorem setStatistics (h : Sync n c s s') (st st' : Statistics) :
    Advance n c c s { s with statistics := st } { s' with statistics := st' } where
  step := { Step.refl s with }
  sync := { h with }

theorem createShared (h : Sync n c s s') (dto dto' : MessageDto) :
    Advance n c c s (s.createShared dto).2 (s'.createShared dto').2 where
  step := { Step.refl s with }
  sync := { h with }

theorem getMicroTickCount (h : Sync n c s s') :
    s'.getMicroTickCount.1 = s.getMicroTickCount.1 ∧
      Advance n c c s s.getMicroTickCount.2 s'.getMicroTickCount.2 := by
  refine ⟨?_, { step := { Step.refl s with }, sync := { h with clockReads := ?_ } }⟩
  · show s'.clock s'.clockReads = s.clock s.clockReads
    rw [h.clock, h.clockReads]
  · show s'.clockReads + 1 = s.clockReads + 1
    rw [h.clockReads]

end Sync

/-! ### New objects -/

/-- What `Sim` says of one object. -/
def CellRel (n : String) (c : Counterparts) (s s' : Server) : Kind → ℕ → ℕ → Prop
  | .room, ρ, ρ' => RoomRel n c (s.rooms ρ) (s'.rooms ρ')
  | .peer, p, p' => PeerRel c (s.peers p) (s'.peers p') ∧
      List.Forall₂ (Delivered c.peerId) (s.outbox p) (s'.outbox p')
  | .file, f, f' => FileRel c (s.files f) (s'.files f')
  | .subscriber, σ, σ' => Option.Rel (SubscriberRel c) (s.subscribers σ) (s'.subscribers σ')

/-- Two objects become counterparts. -/
theorem Sim.add (h : Sim n c s s') {kind : Kind} {a a' : ℕ} (hbelow : (c.ref kind).Below a a')
    (ha : a < count s kind) (ha' : a' < count s' kind)
    (hcell : CellRel n (c.add kind a a' hbelow) s s' kind a a') :
    Sim n (c.add kind a a' hbelow) s s' := by
  have hle := Counterparts.le_add hbelow
  have hcells : ∀ k b b', (c.add kind a a' hbelow).ref k b b' →
      CellRel n (c.add kind a a' hbelow) s s' k b b' := by
    intro k b b' hb
    rcases (Counterparts.add_iff hbelow).mp hb with hold | ⟨rfl, rfl, rfl⟩
    · cases k with
      | room => exact (h.room hold).mono hle
      | peer => exact ⟨(h.peer hold).mono hle, (h.outbox hold).imp fun _ _ ho => ho.mono hle.2⟩
      | file => exact (h.file hold).mono hle
      | subscriber => exact optionRel_mono (h.subscriber hold) fun _ _ hσ => hσ.mono hle
    · exact hcell
  exact
    { lobby := optionRel_mono h.lobby (hle.1 .room)
      single := h.single
      room := hcells .room _ _
      peer := fun hp => (hcells .peer _ _ hp).1
      file := hcells .file _ _
      subscriber := hcells .subscriber _ _
      outbox := fun hp => (hcells .peer _ _ hp).2
      silent := h.silent
      silent' := h.silent'
      below := fun k b b' hb => by
        rcases (Counterparts.add_iff hbelow).mp hb with hold | ⟨rfl, rfl, rfl⟩
        · exact h.below k b b' hold
        · exact ⟨ha, ha'⟩
      peerId_below := h.peerId_below }

/-- A peer id on each side. -/
theorem Sim.addPeerId (h : Sim n c s s') {i i' : Int} (hbelow : c.peerId.Below i i')
    (hi : i < s.peerIdCounter) (hi' : i' < s'.peerIdCounter) :
    Sim n (c.addPeerId i i' hbelow) s s' := by
  have hle := Counterparts.le_addPeerId hbelow
  exact
    { lobby := h.lobby
      single := h.single
      room := fun hρ => (h.room hρ).mono hle
      peer := fun hp => (h.peer hp).mono hle
      file := fun hf => (h.file hf).mono hle
      subscriber := fun hσ => optionRel_mono (h.subscriber hσ) fun _ _ hsub => hsub.mono hle
      outbox := fun hp => (h.outbox hp).imp fun _ _ ho => ho.mono hle.2
      silent := h.silent
      silent' := h.silent'
      below := h.below
      peerId_below := fun j j' hj => by
        rcases hj with hold | ⟨rfl, rfl⟩
        · exact h.peerId_below j j' hold
        · exact ⟨hi, hi'⟩ }

namespace Sync

section New

variable (h : Sync n c s s')

include h

/-- The new objects are the next ones to be created. -/
theorem fresh_add (kind : Kind) : ∀ k a a',
    (c.add kind (count s kind) (count s' kind) (h.below kind)).ref k a a' →
      c.ref k a a' ∨ count s k ≤ a := by
  intro k a a' ha
  rcases (Counterparts.add_iff _).mp ha with hold | ⟨rfl, rfl, -⟩
  · exact .inl hold
  · exact .inr le_rfl

theorem dom_add (kind : Kind) {a : ℕ}
    (hdom : ¬ ((c.add kind (count s kind) (count s' kind) (h.below kind)).ref kind).Dom a) :
    a ≠ count s kind := by
  rintro rfl
  exact hdom ⟨_, (Counterparts.add_iff _).mpr (.inr ⟨rfl, rfl, rfl⟩)⟩

/-- A room is allocated on both sides. -/
theorem newRoom {room room' : Room} (hroom : RoomRel n c room room') :
    Advance n c (c.add .room s.roomCount s'.roomCount (h.below .room)) s
      { s with rooms := Function.update s.rooms s.roomCount room, roomCount := s.roomCount + 1 }
      { s' with
        rooms := Function.update s'.rooms s'.roomCount room'
        roomCount := s'.roomCount + 1 } where
  step :=
    { Step.refl s with
      le := Counterparts.le_add _
      fresh := h.fresh_add .room
      count := fun k => by cases k <;> simp [count]
      room := fun ρ hdom => Function.update_of_ne (h.dom_add .room hdom) _ _ }
  sync := by
    let t : Server :=
      { s with rooms := Function.update s.rooms s.roomCount room, roomCount := s.roomCount + 1 }
    let t' : Server :=
      { s' with
        rooms := Function.update s'.rooms s'.roomCount room'
        roomCount := s'.roomCount + 1 }
    have hold : Sim n c t t' :=
      { h with
        room := fun hρ => (h.below .room).update hρ (Q := RoomRel n c) (h.room hρ)
        below := fun k => (h.below k).mono (by cases k <;> simp [count, t])
          (by cases k <;> simp [count, t']) }
    have hcell : CellRel n (c.add .room s.roomCount s'.roomCount (h.below .room)) t t' .room
        s.roomCount s'.roomCount := by
      show RoomRel _ _ (Function.update s.rooms s.roomCount room s.roomCount)
        (Function.update s'.rooms s'.roomCount room' s'.roomCount)
      rw [Function.update_self, Function.update_self]
      exact hroom.mono (Counterparts.le_add _)
    exact { hold.add (h.below .room) (Nat.lt_succ_self _) (Nat.lt_succ_self _) hcell with
      clock := h.clock
      clockReads := h.clockReads }

/-- A peer is allocated on both sides. -/
theorem newPeer {peer peer' : Peer} (hpeer : PeerRel c peer peer') :
    Advance n c (c.add .peer s.peerCount s'.peerCount (h.below .peer)) s
      { s with peers := Function.update s.peers s.peerCount peer, peerCount := s.peerCount + 1 }
      { s' with
        peers := Function.update s'.peers s'.peerCount peer'
        peerCount := s'.peerCount + 1 } where
  step :=
    { Step.refl s with
      le := Counterparts.le_add _
      fresh := h.fresh_add .peer
      count := fun k => by cases k <;> simp [count]
      peer := fun p hdom => Function.update_of_ne (h.dom_add .peer hdom) _ _ }
  sync := by
    let t : Server :=
      { s with peers := Function.update s.peers s.peerCount peer, peerCount := s.peerCount + 1 }
    let t' : Server :=
      { s' with
        peers := Function.update s'.peers s'.peerCount peer'
        peerCount := s'.peerCount + 1 }
    have hold : Sim n c t t' :=
      { h with
        peer := fun hp => (h.below .peer).update hp (Q := PeerRel c) (h.peer hp)
        silent := fun p hp => h.silent p ((Nat.le_succ _).trans hp)
        silent' := fun p hp => h.silent' p ((Nat.le_succ _).trans hp)
        below := fun k => (h.below k).mono (by cases k <;> simp [count, t])
          (by cases k <;> simp [count, t']) }
    have hcell : CellRel n (c.add .peer s.peerCount s'.peerCount (h.below .peer)) t t' .peer
        s.peerCount s'.peerCount := by
      constructor
      · show PeerRel _ (Function.update s.peers s.peerCount peer s.peerCount)
          (Function.update s'.peers s'.peerCount peer' s'.peerCount)
        rw [Function.update_self, Function.update_self]
        exact hpeer.mono (Counterparts.le_add _)
      · -- nothing has been sent to it
        show List.Forall₂ _ (s.outbox s.peerCount) (s'.outbox s'.peerCount)
        rw [h.silent _ le_rfl, h.silent' _ le_rfl]
        exact .nil
    exact { hold.add (h.below .peer) (Nat.lt_succ_self _) (Nat.lt_succ_self _) hcell with
      clock := h.clock
      clockReads := h.clockReads }

/-- A file is allocated on both sides. -/
theorem newFile {file file' : File} (hfile : FileRel c file file') :
    Advance n c (c.add .file s.fileCount s'.fileCount (h.below .file)) s
      { s with files := Function.update s.files s.fileCount file, fileCount := s.fileCount + 1 }
      { s' with
        files := Function.update s'.files s'.fileCount file'
        fileCount := s'.fileCount + 1 } where
  step :=
    { Step.refl s with
      le := Counterparts.le_add _
      fresh := h.fresh_add .file
      count := fun k => by cases k <;> simp [count]
      file := fun f hdom => Function.update_of_ne (h.dom_add .file hdom) _ _ }
  sync := by
    let t : Server :=
      { s with files := Function.update s.files s.fileCount file, fileCount := s.fileCount + 1 }
    let t' : Server :=
      { s' with
        files := Function.update s'.files s'.fileCount file'
        fileCount := s'.fileCount + 1 }
    have hold : Sim n c t t' :=
      { h with
        file := fun hf => (h.below .file).update hf (Q := FileRel c) (h.file hf)
        below := fun k => (h.below k).mono (by cases k <;> simp [count, t])
          (by cases k <;> simp [count, t']) }
    have hcell : CellRel n (c.add .file s.fileCount s'.fileCount (h.below .file)) t t' .file
        s.fileCount s'.fileCount := by
      show FileRel _ (Function.update s.files s.fileCount file s.fileCount)
        (Function.update s'.files s'.fileCount file' s'.fileCount)
      rw [Function.update_self, Function.update_self]
      exact hfile.mono (Counterparts.le_add _)
    exact { hold.add (h.below .file) (Nat.lt_succ_self _) (Nat.lt_succ_self _) hcell with
      clock := h.clock
      clockReads := h.clockReads }

/-- A subscriber is allocated on both sides. -/
theorem newSubscriber {subscriber subscriber' : Subscriber}
    (hsubscriber : SubscriberRel c subscriber subscriber') :
    Advance n c (c.add .subscriber s.subscriberCount s'.subscriberCount (h.below .subscriber)) s
      { s with
        subscribers := Function.update s.subscribers s.subscriberCount (some subscriber)
        subscriberCount := s.subscriberCount + 1 }
      { s' with
        subscribers := Function.update s'.subscribers s'.subscriberCount (some subscriber')
        subscriberCount := s'.subscriberCount + 1 } where
  step :=
    { Step.refl s with
      le := Counterparts.le_add _
      fresh := h.fresh_add .subscriber
      count := fun k => by cases k <;> simp [count]
      subscriber := fun σ hdom => Function.update_of_ne (h.dom_add .subscriber hdom) _ _ }
  sync := by
    let t : Server :=
      { s with
        subscribers := Function.update s.subscribers s.subscriberCount (some subscriber)
        subscriberCount := s.subscriberCount + 1 }
    let t' : Server :=
      { s' with
        subscribers := Function.update s'.subscribers s'.subscriberCount (some subscriber')
        subscriberCount := s'.subscriberCount + 1 }
    -- the old counterparts are below both counters, so the new cells are not theirs
    have hold : Sim n c t t' :=
      { h with
        subscriber := fun hσ =>
          (h.below .subscriber).update hσ (Q := Option.Rel (SubscriberRel c)) (h.subscriber hσ)
        below := fun k => (h.below k).mono (by cases k <;> simp [count, t])
          (by cases k <;> simp [count, t']) }
    -- the new cells hold corresponding subscribers
    have hcell : CellRel n (c.add .subscriber s.subscriberCount s'.subscriberCount
        (h.below .subscriber)) t t' .subscriber s.subscriberCount s'.subscriberCount := by
      show Option.Rel _ (Function.update s.subscribers s.subscriberCount (some subscriber)
        s.subscriberCount) (Function.update s'.subscribers s'.subscriberCount (some subscriber')
          s'.subscriberCount)
      rw [Function.update_self, Function.update_self]
      exact .some (hsubscriber.mono (Counterparts.le_add _))
    exact { hold.add (h.below .subscriber) (Nat.lt_succ_self _) (Nat.lt_succ_self _) hcell with
      clock := h.clock
      clockReads := h.clockReads }

/-- The counter of the peer ids. -/
theorem newPeerId :
    Advance n c (c.addPeerId s.peerIdCounter s'.peerIdCounter h.peerId_below) s
      { s with peerIdCounter := s.peerIdCounter + 1 }
      { s' with peerIdCounter := s'.peerIdCounter + 1 } where
  step :=
    { Step.refl s with
      le := Counterparts.le_addPeerId _
      fresh := fun _ _ _ ha => .inl ha
      peerIdCounter := (Int.lt_succ _).le }
  sync := by
    have hold : Sim n c { s with peerIdCounter := s.peerIdCounter + 1 }
        { s' with peerIdCounter := s'.peerIdCounter + 1 } :=
      { h with peerId_below := h.peerId_below.mono (Int.lt_succ _).le (Int.lt_succ _).le }
    exact { hold.addPeerId h.peerId_below (Int.lt_succ _) (Int.lt_succ _) with
      clock := h.clock
      clockReads := h.clockReads }

end New

end Sync

end Isolation

end CanChat
