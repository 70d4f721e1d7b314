/-
CanChat/Subscriber.lean

`File::Subscriber` (server/src/rooms/File.cpp): one download of one shared
file.  The chunk buffer holds at most one chunk; the reader takes it out, the
host's messages put it in, and the host's departure clears the `valid` flag.

Each function below runs under the subscriber's `m_chunkLock`, so each is one
atomic step of the systems built over it.
-/
import CanChat.Dto

namespace CanChat

/-! ### References and faults -/

/-- Targets of the shared pointers between the server's objects. -/
abbrev RoomRef := ℕ
abbrev PeerRef := ℕ
abbrev FileRef := ℕ
abbrev SubscriberRef := ℕ
abbrev SocketRef := ℕ

/-- The ways a handler ends other than by returning. -/
inductive Fault
  /-- a null pointer or a null DTO field is dereferenced -/
  | nullPointer
  /-- `front()` of an empty list -/
  | emptyFront
  /-- an exception is thrown -/
  | exception (text : String)
  deriving DecidableEq, Repr

/-! ### The subscriber -/

structure Subscriber where
  id : Int
  file : FileRef
  valid : Bool := true
  progress : Int := 0
  chunk : Option Bytes := none
  deriving DecidableEq, Repr

/-- What `readChunk` gives its caller: a chunk copied into the buffer (its
length is the value returned, so an empty one is the end of the stream), or
`RETRY_READ` after a request for `count` bytes. -/
inductive ReadResult
  | bytes (data : Bytes)
  | retryRead
  deriving DecidableEq, Repr

namespace Subscriber

def provideFileChunk (data : Bytes) (s : Subscriber) : Except Fault Subscriber :=
  if s.chunk ≠ none then
    .error (.exception "File chunk collision.")
  else
    .ok { s with chunk := some data }

/-- `readChunk` up to the point where it asks the host: on `retryRead` the
caller has `requestChunk` send the request. -/
def readChunk (fileSize count : Int) (s : Subscriber) :
    Except Fault (ReadResult × Subscriber) :=
  if s.valid = false then
    .error (.exception "File is not valid any more.")
  else if s.progress < fileSize then
    match s.chunk with
    | some chunk =>
        if chunk.length > count then
          .error (.exception "Invalid chunk size")
        else
          .ok (.bytes chunk, { s with progress := s.progress + chunk.length, chunk := none })
    | none => .ok (.retryRead, s)
  else
    .ok (.bytes [], s)

/-- The request `requestChunk` sends to the host. -/
def requestChunkMessage (clientFileId serverFileId size : Int) (s : Subscriber) : MessageDto where
  code := some .codeFileRequestChunk
  files := some [some
    { clientFileId := some clientFileId
      serverFileId := some serverFileId
      subscriberId := some s.id
      chunkPosition := some s.progress
      chunkSize := some size }]

def invalidate (s : Subscriber) : Subscriber := { s with valid := false }

/-- The test made by `WaitCoroutine::act` and by `WaitListListener::onNewItem`:
there is nothing left to wait for. -/
def waitIsOver (s : Subscriber) : Bool := s.chunk.isSome || !s.valid

/-! ### What each operation does -/

theorem provideFileChunk_eq_ok {data : Bytes} {s t : Subscriber} :
    s.provideFileChunk data = .ok t ↔ s.chunk = none ∧ t = { s with chunk := some data } := by
  unfold provideFileChunk
  split
  · next h => simp [h]
  · next h => simp [not_not.mp h, eq_comm]

/-- A read returns a chunk that fits, ends the stream, or waits for a chunk;
nothing else of the subscriber changes. -/
theorem readChunk_eq_ok {fileSize count : Int} {s t : Subscriber} {r : ReadResult}
    (h : s.readChunk fileSize count = .ok (r, t)) :
    s.valid = true ∧
      ((∃ chunk, s.progress < fileSize ∧ s.chunk = some chunk ∧ (chunk.length : Int) ≤ count ∧
          r = .bytes chunk ∧ t = { s with progress := s.progress + chunk.length, chunk := none }) ∨
        (s.progress < fileSize ∧ s.chunk = none ∧ r = .retryRead ∧ t = s) ∨
        (fileSize ≤ s.progress ∧ r = .bytes [] ∧ t = s)) := by
  unfold readChunk at h
  split at h
  · cases h
  next hv =>
    refine ⟨by simpa using hv, ?_⟩
    split at h
    · next hp =>
      split at h
      · next chunk hc =>
        split at h
        · cases h
        · next hle =>
          cases h
          exact .inl ⟨chunk, hp, hc, Int.not_lt.mp hle, rfl, rfl⟩
      · next hc =>
        cases h
        exact .inr (.inl ⟨hp, hc, rfl, rfl⟩)
    · next hp =>
      cases h
      exact .inr (.inr ⟨Int.not_lt.mp hp, rfl, rfl⟩)

end Subscriber

end CanChat
