/-
CanChat/File.lean

`File` (server/src/rooms/File.cpp) and the parts of `File::Subscriber` that
reach outside the subscriber: the request sent to the host, and the
destructor.
-/
import CanChat.Peer

namespace CanChat

namespace File

/-- The subscribers a file points at. -/
def subscriberRefs (file : File) : List SubscriberRef :=
  file.subscribers.values

/-- A new subscriber, in the file's table under the next id. -/
def subscribe (f : FileRef) (s : Server) : SubscriberRef × Server :=
  let σ := s.subscriberCount
  let id := (s.files f).subscriberIdCounter
  let s := { s with
    subscribers := Function.update s.subscribers σ (some { id := id, file := f })
    subscriberCount := s.subscriberCount + 1 }
  (σ, s.modifyFile f fun file =>
    { file with
      subscriberIdCounter := file.subscriberIdCounter + 1
      subscribers := file.subscribers.insert id σ })

/-- The id leaves the file's table. -/
def unsubscribe (f : FileRef) (id : Int) : Server → Server :=
  Server.modifyFile f fun file => { file with subscribers := file.subscribers.erase id }

/-- `File::provideFileChunk`: a chunk for an unknown subscriber is ignored. -/
def provideFileChunk (f : FileRef) (subscriberId : Int) (data : Bytes) : Handler Unit := do
  let s ← get
  match (s.files f).subscribers.lookup subscriberId with
  | none => pure ()
  | some σ =>
      match s.subscribers σ with
      | none => throw .nullPointer
      | some subscriber =>
          match subscriber.provideFileChunk data with
          | .ok subscriber' => modify (Server.modifySubscriber σ fun _ => subscriber')
          | .error fault => throw fault

/-- Providing a chunk, by what the table finds. -/
theorem provideFileChunk_exec (f : FileRef) (subscriberId : Int) (data : Bytes) (s : Server) :
    (provideFileChunk f subscriberId data).exec s =
      match (s.files f).subscribers.lookup subscriberId with
      | none => (.ok (), s)
      | some σ => match s.subscribers σ with
        | none => (.error .nullPointer, s)
        | some subscriber => match subscriber.provideFileChunk data with
          | .ok subscriber' => (.ok (), s.modifySubscriber σ fun _ => subscriber')
          | .error fault => (.error fault, s) := by
  unfold provideFileChunk
  rw [Handler.exec_bind, Handler.exec_get]
  dsimp only
  rcases (s.files f).subscribers.lookup subscriberId with - | σ
  · rfl
  · dsimp only
    rcases s.subscribers σ with - | subscriber
    · rfl
    · dsimp only
      rcases subscriber.provideFileChunk data with - | subscriber' <;> rfl

/-- Providing a chunk changes subscribers only. -/
theorem provideFileChunk_frame (f : FileRef) (subscriberId : Int) (data : Bytes) (s : Server) :
    ∃ subscribers, ((provideFileChunk f subscriberId data).exec s).2 = { s with subscribers } := by
  rw [provideFileChunk_exec]
  split
  · exact ⟨_, rfl⟩
  · split
    · exact ⟨_, rfl⟩
    · split
      · exact ⟨_, rfl⟩
      · exact ⟨_, rfl⟩

/-- All subscribers in the table are invalidated, and the table is emptied. -/
def clearSubscribers (f : FileRef) (s : Server) : Server :=
  ((s.files f).subscriberRefs.foldl
    (fun s σ => s.modifySubscriber σ Subscriber.invalidate) s).modifyFile f
      fun file => { file with subscribers := ∅ }

/-- The loop of `clearSubscribers`, in one step. -/
theorem sweep_eq (σs : List SubscriberRef) (s : Server) :
    σs.foldl (fun s σ => s.modifySubscriber σ Subscriber.invalidate) s =
      { s with subscribers := fun σ =>
          if σ ∈ σs then (s.subscribers σ).map Subscriber.invalidate else s.subscribers σ } := by
  induction σs generalizing s with
  | nil => rfl
  | cons σ' σs ih =>
      have hidem : Subscriber.invalidate ∘ Subscriber.invalidate = Subscriber.invalidate := rfl
      rw [List.foldl_cons, ih]
      congr 1
      funext σ
      rcases eq_or_ne σ σ' with rfl | hne
      · simp [hidem]
      · simp [hne]

/-- All subscribers in the table are invalidated, and the table is emptied. -/
theorem clearSubscribers_eq (f : FileRef) (s : Server) :
    clearSubscribers f s =
      { s with
        files := Function.update s.files f { s.files f with subscribers := ∅ }
        subscribers := fun σ => if σ ∈ (s.files f).subscriberRefs then
          (s.subscribers σ).map Subscriber.invalidate else s.subscribers σ } := by
  unfold clearSubscribers
  rw [sweep_eq]
  rfl

end File

namespace Subscriber

/-- `~Subscriber`. -/
def destroy (σ : SubscriberRef) (s : Server) : Server :=
  match s.subscribers σ with
  | none => s
  | some subscriber =>
      let s := File.unsubscribe subscriber.file subscriber.id s
      { s with subscribers := Function.update s.subscribers σ none }

/-- `Subscriber::requestChunk`: ask the host for the next chunk. -/
def requestChunk (subscriber : Subscriber) (size : Int) (s : Server) : Server :=
  if subscriber.valid then
    let file := s.files subscriber.file
    let (message, s) := s.createShared
      (subscriber.requestChunkMessage file.clientFileId file.serverFileId size)
    Peer.sendMessageAsync file.host message s
  else
    s

/-- The request goes to a host that is connected. -/
theorem requestChunk_eq {subscriber : Subscriber} (hvalid : subscriber.valid = true) (size : Int)
    {s : Server} (hsocket : (s.peers (s.files subscriber.file).host).socket.isSome) :
    subscriber.requestChunk size s =
      { s with
        objectCount := s.objectCount + 1
        outbox := Function.update s.outbox (s.files subscriber.file).host
          (s.outbox (s.files subscriber.file).host ++ [⟨s.objectCount,
            subscriber.requestChunkMessage (s.files subscriber.file).clientFileId
              (s.files subscriber.file).serverFileId size⟩]) } := by
  unfold requestChunk
  rw [if_pos hvalid]
  exact if_pos hsocket

/-- A request is an object that is sent. -/
theorem requestChunk_frame (subscriber : Subscriber) (size : Int) (s : Server) :
    ∃ objectCount outbox, subscriber.requestChunk size s = { s with objectCount, outbox } := by
  unfold requestChunk
  split
  · dsimp only
    obtain ⟨outbox, h⟩ := Peer.sendMessageAsync_frame (s.files subscriber.file).host
      (s.createShared (subscriber.requestChunkMessage (s.files subscriber.file).clientFileId
        (s.files subscriber.file).serverFileId size)).1
      (s.createShared (subscriber.requestChunkMessage (s.files subscriber.file).clientFileId
        (s.files subscriber.file).serverFileId size)).2
    exact ⟨s.objectCount + 1, outbox, h⟩
  · exact ⟨_, _, rfl⟩

/-- `ReadCallback::read`: `readChunk` on the heap, counting the bytes served. -/
def read (σ : SubscriberRef) (count : Int) : Handler ReadResult := do
  let s ← get
  let subscriber ← deref (s.subscribers σ)
  match subscriber.readChunk (s.files subscriber.file).fileSize count with
  | .error fault => throw fault
  | .ok (.retryRead, subscriber') =>
      modify (subscriber'.requestChunk count)
      pure .retryRead
  | .ok (.bytes data, subscriber') =>
      modify (Server.modifySubscriber σ fun _ => subscriber')
      modify (Server.modifyStatistics fun st =>
        { st with fileServedBytes := st.fileServedBytes + data.length })
      pure (.bytes data)

/-- Reading, for a subscriber that is there. -/
theorem read_exec {σ : SubscriberRef} {s : Server} {subscriber : Subscriber}
    (h : s.subscribers σ = some subscriber) (count : Int) :
    (read σ count).exec s =
      match subscriber.readChunk (s.files subscriber.file).fileSize count with
      | .error fault => (.error fault, s)
      | .ok (.retryRead, subscriber') => (.ok .retryRead, subscriber'.requestChunk count s)
      | .ok (.bytes data, subscriber') => (.ok (.bytes data),
          (s.modifySubscriber σ fun _ => subscriber').modifyStatistics fun st =>
            { st with fileServedBytes := st.fileServedBytes + data.length }) := by
  unfold read
  simp only [Handler.exec_bind, Handler.exec_get, h, Handler.exec_deref_some]
  rcases subscriber.readChunk (s.files subscriber.file).fileSize count with
    - | ⟨data | -, subscriber'⟩ <;> rfl

theorem read_exec_none {σ : SubscriberRef} {count : Int} {s : Server} (h : s.subscribers σ = none) :
    (read σ count).exec s = (.error .nullPointer, s) := by
  unfold read
  simp [Handler.exec_bind, h]

/-- What reading may change. -/
theorem read_frame (σ : SubscriberRef) (count : Int) (s : Server) :
    ∃ statistics objectCount outbox subscribers, ((read σ count).exec s).2 =
      { s with statistics, objectCount, outbox, subscribers } := by
  rcases hsub : s.subscribers σ with - | subscriber
  · rw [read_exec_none hsub]
    exact ⟨_, _, _, _, rfl⟩
  · rw [read_exec hsub]
    split
    · exact ⟨_, _, _, _, rfl⟩
    · next subscriber' _ =>
      obtain ⟨objectCount, outbox, heq⟩ := subscriber'.requestChunk_frame count s
      rw [heq]
      exact ⟨_, _, _, _, rfl⟩
    · exact ⟨_, _, _, _, rfl⟩

end Subscriber

end CanChat
