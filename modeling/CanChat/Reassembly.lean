/-
CanChat/Reassembly.lean

Messages in fragments.

`readMessage` collects the fragments of a message in a buffer that outlives it.
An empty frame ends the message and rewinds the buffer, so that the next one
begins with nothing.  The limit is tested at every frame; as the fragments only
add up, a message is refused at one of its frames exactly when the whole of it
is too long.

Design.  A frame comes with what the rest of the server did before it, which is
anything that neither reads nor writes the buffer of this peer (`Aside`).
`setBuffer p buffer s` is what the fragments so far have made of a server `s`
that never saw them.
-/
import CanChat.Ledger

namespace CanChat

namespace Reassembly

/-! ### A connection -/

structure Frame where
  /-- what else happened on the server since the last frame -/
  others : Server → Server
  data : Bytes

/-- What `readMessage` gives the parser. -/
def parserInput (config : ConfigDto) (p : PeerRef) (data : Bytes) (s : Server) : Option Bytes :=
  if (s.peers p).messageBuffer.length + data.length > config.maxMessageSizeBytes then none
  else if data.length == 0 then some (s.peers p).messageBuffer
  else none

/-- What the parser was given, if anything, and what the peer was answered. -/
structure Answer where
  parsed : Option Bytes
  result : Except Fault (Option MessageDto)

def Answer.of (parsed : Option Bytes) (result : Except Fault CoroutineStarter) : Answer :=
  ⟨parsed, result.map (Option.map SendErrorCoroutine.message)⟩

def sizeError : Answer :=
  ⟨none, .ok (some
    { code := some .codeApiError, message := some "Message size exceeds max allowed size." })⟩

section Connection

variable (fw : Framework) (config : ConfigDto) (p : PeerRef)

/-- `readMessage` for the frames of a connection.  An API error closes it, and a
fault is the end of it as well.  A call that only fills the buffer is no
answer. -/
def receive : List Frame → Server → List Answer × Server
  | [], s => ([], s)
  | frame :: frames, s =>
      let parsed := parserInput config p frame.data (frame.others s)
      let outcome := (Peer.readMessage fw config p frame.data).exec (frame.others s)
      match outcome.1 with
      | .ok none =>
          let later := receive frames outcome.2
          (if parsed.isSome then (Answer.of parsed (.ok none) :: later.1, later.2) else later)
      | result => ([Answer.of parsed result], outcome.2)

/-- A message without its frames, parsed and handled. -/
def readText (whole : Bytes) : Handler CoroutineStarter :=
  match fw.readFromString whole with
  | none => Peer.onApiError p "Can't parse message"
  | some parsed => do
      let message ← deref parsed
      Peer.readParsed fw config p message

/-- Whole messages, one after the other: each is given to the parser as it is,
or refused for its size. -/
def receiveWhole : List ((Server → Server) × Bytes) → Server → List Answer
  | [], _ => []
  | (others, whole) :: messages, s =>
      if whole.length > config.maxMessageSizeBytes then
        [sizeError]
      else
        let outcome := (readText fw config p whole).exec (others s)
        match outcome.1 with
        | .ok none => Answer.of (some whole) (.ok none) :: receiveWhole messages outcome.2
        | result => [Answer.of (some whole) result]

end Connection

/-! ### The buffer -/

def setBuffer (p : PeerRef) (buffer : Bytes) (s : Server) : Server :=
  s.modifyPeer p fun peer => { peer with messageBuffer := buffer }

/-- The buffer of this peer is neither read nor written. -/
def Aside (p : PeerRef) (others : Server → Server) : Prop :=
  ∀ buffer s, others (setBuffer p buffer s) = setBuffer p buffer (others s)

/-- A message as it arrives. -/
structure Message where
  fragments : List Frame
  /-- what else happened before the frame that ends it -/
  last : Server → Server

namespace Message

def frames (m : Message) : List Frame := m.fragments ++ [⟨m.last, []⟩]

def whole (m : Message) : Bytes := (m.fragments.map Frame.data).flatten

/-- What else happened until the message was complete. -/
def others (m : Message) (s : Server) : Server :=
  m.last (m.fragments.foldl (fun s fragment => fragment.others s) s)

structure Cut (p : PeerRef) (m : Message) : Prop where
  nonempty : ∀ fragment ∈ m.fragments, fragment.data ≠ []
  aside : ∀ fragment ∈ m.fragments, Aside p fragment.others
  last : Aside p m.last

end Message

variable {fw : Framework} {config : ConfigDto} {p : PeerRef} {s : Server} {buffer data : Bytes}

@[simp] theorem buffer_setBuffer (p : PeerRef) (buffer : Bytes) (s : Server) :
    ((setBuffer p buffer s).peers p).messageBuffer = buffer := by
  simp [setBuffer]

@[simp] theorem setBuffer_setBuffer (p : PeerRef) (buffer buffer' : Bytes) (s : Server) :
    setBuffer p buffer (setBuffer p buffer' s) = setBuffer p buffer s := by
  simp [setBuffer, Server.modifyPeer]

theorem setBuffer_eq_self (h : (s.peers p).messageBuffer = buffer) : setBuffer p buffer s = s := by
  unfold setBuffer Server.modifyPeer
  rw [← h]
  exact congrArg (fun peers => { s with peers }) (Function.update_eq_self p s.peers)

theorem Aside.messageBuffer {others : Server → Server} (h : Aside p others)
    (hs : (s.peers p).messageBuffer = buffer) : ((others s).peers p).messageBuffer = buffer := by
  rw [← setBuffer_eq_self hs, h]
  exact buffer_setBuffer p buffer _

/-! ### One frame -/

/-- `readMessage`, with what it gives the parser set apart. -/
theorem exec_readMessage (fw : Framework) (config : ConfigDto) (p : PeerRef) (data : Bytes)
    (s : Server) : (Peer.readMessage fw config p data).exec s =
      match parserInput config p data s with
      | some whole => (readText fw config p whole).exec (setBuffer p [] s)
      | none =>
          if (s.peers p).messageBuffer.length + data.length > config.maxMessageSizeBytes then
            (Peer.onApiError p "Message size exceeds max allowed size.").exec s
          else (.ok none, setBuffer p ((s.peers p).messageBuffer ++ data) s) := by
  unfold Peer.readMessage parserInput
  rw [Handler.exec_bind, Handler.exec_get]
  dsimp only
  split
  · rfl
  · split
    · rw [Handler.exec_bind, Handler.exec_modify]
      dsimp only
      unfold readText
      rcases fw.readFromString (s.peers p).messageBuffer with - | parsed
      · dsimp only
        rfl
      · rcases parsed with - | message
        · simp only [Handler.exec_bind, Handler.exec_deref_none]
          rfl
        · have hpeer : (setBuffer p [] s).peers p = { s.peers p with messageBuffer := [] } := by
            simp [setBuffer]
          -- the stamp of a message is not made from the buffer
          have hstamp : ∀ timestamp, Peer.stampMessage { s.peers p with messageBuffer := [] }
              timestamp message = (s.peers p).stampMessage timestamp message := fun _ => rfl
          rw [show s.modifyPeer p (fun peer => { peer with messageBuffer := [] }) =
            setBuffer p [] s from rfl]
          simp only [deref, Handler.exec_bind, Handler.exec_pure, Handler.exec_modifyGet,
            Peer.exec_readParsed, hpeer, hstamp]
    · rfl

theorem keepsBuffers_operations : Handler.Operations fun s t =>
    ∀ q, (t.peers q).messageBuffer = (s.peers q).messageBuffer where
  refl _ _ := rfl
  trans h h' q := (h' q).trans (h q)
  createShared _ _ _ := rfl
  getMicroTickCount _ _ := rfl
  countMessage _ _ := rfl
  addHistoryMessage config ρ message s _ := by
    rw [Room.addHistoryMessage_peers]
  sendMessageAsync ρ message s _ := by
    obtain ⟨_, h⟩ := Room.sendMessageAsync_frame ρ message s
    rw [h]
  provideFileChunk f subscriberId data s _ := by
    obtain ⟨_, h⟩ := File.provideFileChunk_frame f subscriberId data s
    rw [h]

theorem keepsBuffers_registers : Handler.Registers fun s t =>
    ∀ q, (t.peers q).messageBuffer = (s.peers q).messageBuffer := by
  intro ρ peerId host clientFileId fileName fileSize s _ q
  show ((Function.update s.peers host { s.peers host with files := _ }) q).messageBuffer = _
  rcases eq_or_ne q host with rfl | hne
  · rw [Function.update_self]
  · rw [Function.update_of_ne hne]

/-- Handling a message leaves every buffer alone. -/
theorem buffer_readText (fw : Framework) (config : ConfigDto) (p : PeerRef) (whole : Bytes)
    (s : Server) (q : PeerRef) :
    (((readText fw config p whole).exec s).2.peers q).messageBuffer =
      (s.peers q).messageBuffer := by
  unfold readText
  rcases fw.readFromString whole with - | parsed
  · exact keepsBuffers_operations.onApiError p _ s q
  · exact keepsBuffers_operations.bind (keepsBuffers_operations.deref parsed)
      (fun message => keepsBuffers_operations.readParsed fw config p
        fun _ => keepsBuffers_registers) s q

/-- **The buffer never holds more than the limit.** -/
theorem buffer_receive_le (fw : Framework) (config : ConfigDto) {frames : List Frame}
    (haside : ∀ frame ∈ frames, Aside p frame.others)
    (hs : (s.peers p).messageBuffer.length ≤ config.maxMessageSizeBytes) :
    ((receive fw config p frames s).2.peers p).messageBuffer.length ≤
      config.maxMessageSizeBytes := by
  induction frames generalizing s with
  | nil => exact hs
  | cons frame frames ih =>
      obtain ⟨hframe, hframes⟩ := List.forall_mem_cons.mp haside
      have hstep : (((Peer.readMessage fw config p frame.data).exec
          (frame.others s)).2.peers p).messageBuffer.length ≤ config.maxMessageSizeBytes := by
        have hothers : ((frame.others s).peers p).messageBuffer = (s.peers p).messageBuffer :=
          hframe.messageBuffer rfl
        rw [exec_readMessage]
        split
        · rw [buffer_readText, buffer_setBuffer]
          exact Nat.zero_le _
        · split
          · rw [Peer.exec_onApiError, hothers]
            exact hs
          · next hle =>
            rw [buffer_setBuffer, List.length_append]
            exact not_lt.mp hle
      unfold receive
      dsimp only
      split
      · split
        · exact ih hframes hstep
        · exact ih hframes hstep
      · exact hstep

/-! ### One message -/

variable {frame : Frame} {frames : List Frame} {m : Message} {messages : List Message}

theorem receive_refused (haside : Aside p frame.others)
    (hsize : buffer.length + frame.data.length > config.maxMessageSizeBytes) :
    (receive fw config p (frame :: frames) (setBuffer p buffer s)).1 = [sizeError] := by
  have hnone : parserInput config p frame.data (setBuffer p buffer (frame.others s)) = none := by
    unfold parserInput
    rw [buffer_setBuffer, if_pos hsize]
  unfold receive
  rw [haside, exec_readMessage, hnone]
  dsimp only
  rw [buffer_setBuffer, if_pos hsize, Peer.exec_onApiError]
  rfl

theorem receive_fragment (haside : Aside p frame.others) (hdata : frame.data ≠ [])
    (hsize : buffer.length + frame.data.length ≤ config.maxMessageSizeBytes) :
    receive fw config p (frame :: frames) (setBuffer p buffer s) =
      receive fw config p frames (setBuffer p (buffer ++ frame.data) (frame.others s)) := by
  have hle : ¬ buffer.length + frame.data.length > config.maxMessageSizeBytes :=
    Nat.not_lt.mpr hsize
  have hempty : ¬ (frame.data.length == 0) = true := by
    simpa using hdata
  have hnone : parserInput config p frame.data (setBuffer p buffer (frame.others s)) = none := by
    unfold parserInput
    rw [buffer_setBuffer, if_neg hle, if_neg hempty]
  rw [receive, haside, exec_readMessage, hnone]
  dsimp only
  rw [buffer_setBuffer, if_neg hle, setBuffer_setBuffer]
  rfl

theorem receive_end {last : Server → Server} (haside : Aside p last)
    (hsize : buffer.length ≤ config.maxMessageSizeBytes) :
    (receive fw config p (⟨last, []⟩ :: frames) (setBuffer p buffer s)).1 =
      let outcome := (readText fw config p buffer).exec (setBuffer p [] (last s))
      match outcome.1 with
      | .ok none => Answer.of (some buffer) (.ok none) :: (receive fw config p frames outcome.2).1
      | result => [Answer.of (some buffer) result] := by
  have hle : ¬ buffer.length + 0 > config.maxMessageSizeBytes := Nat.not_lt.mpr hsize
  have hsome : parserInput config p [] (setBuffer p buffer (last s)) = some buffer := by
    unfold parserInput
    rw [buffer_setBuffer, List.length_nil, if_neg hle]
    rfl
  have hothers : (Frame.mk last []).others (setBuffer p buffer s) = setBuffer p buffer (last s) :=
    haside buffer s
  rw [receive, hothers, exec_readMessage, hsome]
  dsimp only
  rw [setBuffer_setBuffer]
  obtain ⟨fault | - | error, t⟩ := (readText fw config p buffer).exec (setBuffer p [] (last s))
  · rfl
  · rfl
  · rfl

/-- The fragments of a message add up in the buffer, or one of them is too
much. -/
theorem receive_fragments (fw : Framework) (frames : List Frame) (s : Server)
    {fragments : List Frame}
    (hnonempty : ∀ fragment ∈ fragments, fragment.data ≠ [])
    (haside : ∀ fragment ∈ fragments, Aside p fragment.others)
    (hbuffer : buffer.length ≤ config.maxMessageSizeBytes) :
    (receive fw config p (fragments ++ frames) (setBuffer p buffer s)).1 =
      if (buffer ++ (fragments.map Frame.data).flatten).length > config.maxMessageSizeBytes then
        [sizeError]
      else
        (receive fw config p frames (setBuffer p (buffer ++ (fragments.map Frame.data).flatten)
          (fragments.foldl (fun s fragment => fragment.others s) s))).1 := by
  induction fragments generalizing buffer s with
  | nil =>
      rw [List.map_nil, List.flatten_nil, List.append_nil, if_neg (Nat.not_lt.mpr hbuffer)]
      rfl
  | cons fragment fragments ih =>
      obtain ⟨hdata, hnonempty⟩ := List.forall_mem_cons.mp hnonempty
      obtain ⟨hothers, haside⟩ := List.forall_mem_cons.mp haside
      rw [List.cons_append, List.map_cons, List.flatten_cons, ← List.append_assoc]
      by_cases hsize : buffer.length + fragment.data.length ≤ config.maxMessageSizeBytes
      · rw [receive_fragment hothers hdata hsize,
          ih _ hnonempty haside (by rwa [List.length_append])]
        rfl
      · -- what follows makes it no shorter
        have hlong : ((buffer ++ fragment.data) ++ (fragments.map Frame.data).flatten).length >
            config.maxMessageSizeBytes := by
          rw [List.length_append, List.length_append]
          omega
        rw [receive_refused hothers (not_le.mp hsize), if_pos hlong]

theorem buffer_foldl {fragments : List Frame}
    (haside : ∀ fragment ∈ fragments, Aside p fragment.others)
    (hs : (s.peers p).messageBuffer = buffer) :
    ((fragments.foldl (fun s fragment => fragment.others s) s).peers p).messageBuffer =
      buffer := by
  induction fragments generalizing s with
  | nil => exact hs
  | cons fragment fragments ih =>
      obtain ⟨hothers, haside⟩ := List.forall_mem_cons.mp haside
      exact ih haside (hothers.messageBuffer hs)

theorem Message.Cut.messageBuffer (h : m.Cut p) (hs : (s.peers p).messageBuffer = buffer) :
    ((m.others s).peers p).messageBuffer = buffer :=
  h.last.messageBuffer (buffer_foldl h.aside hs)

/-- A message starts with nothing in the buffer, and ends so if the connection
goes on. -/
theorem receive_message (hm : m.Cut p) (hs : (s.peers p).messageBuffer = []) :
    (receive fw config p (m.frames ++ frames) s).1 =
      if m.whole.length > config.maxMessageSizeBytes then
        [sizeError]
      else
        let outcome := (readText fw config p m.whole).exec (m.others s)
        match outcome.1 with
        | .ok none =>
            Answer.of (some m.whole) (.ok none) :: (receive fw config p frames outcome.2).1
        | result => [Answer.of (some m.whole) result] := by
  have hempty : ([] : Bytes).length ≤ config.maxMessageSizeBytes := Nat.zero_le _
  have hfragments := receive_fragments fw (⟨m.last, []⟩ :: frames) s hm.nonempty hm.aside hempty
  rw [setBuffer_eq_self hs, List.nil_append] at hfragments
  have hfold := buffer_foldl hm.aside hs
  rw [Message.frames, List.append_assoc, List.singleton_append, hfragments]
  unfold Message.whole
  split
  · rfl
  · next hsize =>
    rw [receive_end hm.last (Nat.not_lt.mp hsize), ← hm.last, setBuffer_eq_self hfold]
    rfl

/-! ### All messages -/

theorem receive_messages (hcut : ∀ m ∈ messages, m.Cut p) (hs : (s.peers p).messageBuffer = []) :
    (receive fw config p (messages.flatMap Message.frames) s).1 =
      receiveWhole fw config p (messages.map fun m => (m.others, m.whole)) s := by
  induction messages generalizing s with
  | nil => rfl
  | cons m messages ih =>
      obtain ⟨hm, hcut⟩ := List.forall_mem_cons.mp hcut
      rw [List.flatMap_cons, receive_message hm hs, List.map_cons, receiveWhole]
      split
      · rfl
      · have hempty : (((readText fw config p m.whole).exec (m.others s)).2.peers p).messageBuffer =
            [] := by
          rw [buffer_readText]
          exact hm.messageBuffer hs
        generalize (readText fw config p m.whole).exec (m.others s) = outcome at hempty ⊢
        obtain ⟨fault | - | error, t⟩ := outcome
        · rfl
        · exact congrArg (Answer.of (some m.whole) (.ok none) :: ·) (ih hcut hempty)
        · rfl

/-- **Fragments make no difference**: the parser is given the messages as they
were before they were cut, up to the first one that is refused, and never more
than the limit is kept. -/
theorem reassembled (fw : Framework) (config : ConfigDto) (hcut : ∀ m ∈ messages, m.Cut p)
    (hs : (s.peers p).messageBuffer = []) :
    (receive fw config p (messages.flatMap Message.frames) s).1 =
        receiveWhole fw config p (messages.map fun m => (m.others, m.whole)) s ∧
      (∀ messages' : List Message, (∀ m ∈ messages', m.Cut p) →
        (messages'.map fun m => (m.others, m.whole)) =
          (messages.map fun m => (m.others, m.whole)) →
        (receive fw config p (messages'.flatMap Message.frames) s).1 =
          (receive fw config p (messages.flatMap Message.frames) s).1) ∧
      ∀ frames, frames <+: messages.flatMap Message.frames →
        ((receive fw config p frames s).2.peers p).messageBuffer.length ≤
          config.maxMessageSizeBytes := by
  refine ⟨receive_messages hcut hs, fun messages' hcut' heq => ?_, fun frames hframes => ?_⟩
  · rw [receive_messages hcut' hs, heq, receive_messages hcut hs]
  · refine buffer_receive_le fw config (fun frame hframe => ?_) ?_
    · obtain ⟨m, hm, hmem⟩ := List.mem_flatMap.mp (hframes.subset hframe)
      rcases List.mem_append.mp hmem with hmem | hmem
      · exact (hcut m hm).aside frame hmem
      · rw [List.mem_singleton.mp hmem]
        exact (hcut m hm).last
    · rw [hs]
      exact Nat.zero_le _

/-! ### Two messages -/

/-- Every text says that its sender is typing. -/
def typing : Framework where
  readFromString _ := some (some { code := some .codePeerIsTyping })
  base64Decode _ := none

/-- The first one is in two fragments; the clock is read between them. -/
def twoMessages : List Message :=
  [⟨[⟨id, [123]⟩, ⟨fun s => s.getMicroTickCount.2, [125]⟩], id⟩,
    ⟨[⟨id, [34, 97]⟩, ⟨id, [98, 99, 34]⟩], id⟩]

theorem cut_twoMessages : ∀ m ∈ twoMessages, m.Cut 0 := by
  have hid : Aside 0 id := fun _ _ => rfl
  have hclock : Aside 0 fun s => s.getMicroTickCount.2 := fun _ _ => rfl
  intro m hm
  rcases List.mem_pair.mp hm with rfl | rfl
  · exact ⟨by simp, by simp [hid, hclock], hid⟩
  · exact ⟨by simp, by simp [hid], hid⟩

/-- With a limit of four bytes the first one is handled, the second one
refused. -/
theorem reassembled_two :
    (receive typing { maxMessageSizeBytes := 4 } 0 (twoMessages.flatMap Message.frames) {}).1 =
      [Answer.of (some [123, 125]) (.ok none), sizeError] :=
  (reassembled typing { maxMessageSizeBytes := 4 } cut_twoMessages rfl).1.trans rfl

end Reassembly

end CanChat
