/-
CanChat/Transit.lean

Requests for chunks and their replies, on the way between server and hosts.

A chunk comes back without its position, so a reader must never have two
requests on their way.  `Settled` is the heart of the invariant: a reader that
waits has exactly one request or one reply in transit, or the chunk it asked
for; a reader that does not wait has none of them.  `Meant` says that the
request or reply is for the bytes that come next.
-/
import CanChat.Streaming
import Mathlib.Algebra.BigOperators.Group.Finset.Basic
import Mathlib.Data.List.Count

namespace CanChat

namespace Streaming

/-! ### Messages in transit -/

/-- The message has this code and is for this subscriber of this file. -/
def concerns (code : MessageCodes) (file : File) (id : Int) (message : MessageDto) : Bool :=
  message.code == some code && match message.files with
    | some [some fileDto] =>
        fileDto.serverFileId == some file.serverFileId && fileDto.subscriberId == some id
    | _ => false

/-- A message of `requestChunk`. -/
def IsRequest (file : File) (id chunkPosition chunkSize : Int) (message : MessageDto) : Prop :=
  message.code = some .codeFileRequestChunk ∧ message.files = some [some
    { clientFileId := some file.clientFileId
      serverFileId := some file.serverFileId
      subscriberId := some id
      chunkPosition := some chunkPosition
      chunkSize := some chunkSize }]

/-- A message of `sendFileChunks`. -/
def IsReply (btoa : Bytes → String) (file : File) (id : Int) (data : Bytes)
    (message : MessageDto) : Prop :=
  message.code = some .codeFileChunkData ∧ message.files = some [some
    { serverFileId := some file.serverFileId
      subscriberId := some id
      data := some (btoa data) }]

theorem concerns_code {code : MessageCodes} {file : File} {id : Int} {message : MessageDto}
    (h : concerns code file id message = true) : message.code = some code := by
  simp only [concerns, Bool.and_eq_true, beq_iff_eq] at h
  exact h.1

theorem IsRequest.concerns {file : File} {id chunkPosition chunkSize : Int} {message : MessageDto}
    (h : IsRequest file id chunkPosition chunkSize message) (file' : File) (id' : Int) :
    concerns .codeFileRequestChunk file' id' message = true ↔
      file.serverFileId = file'.serverFileId ∧ id = id' := by
  simp [Streaming.concerns, h.1, h.2]

theorem IsReply.concerns {btoa : Bytes → String} {file : File} {id : Int} {data : Bytes}
    {message : MessageDto} (h : IsReply btoa file id data message) (file' : File) (id' : Int) :
    concerns .codeFileChunkData file' id' message = true ↔
      file.serverFileId = file'.serverFileId ∧ id = id' := by
  simp [Streaming.concerns, h.1, h.2]

/-- A message that asks a page for a chunk. -/
def isRequest (message : Object MessageDto) : Bool :=
  message.val.code == some .codeFileRequestChunk

/-- A message that brings a chunk. -/
def isReply (message : PeerRef × MessageDto) : Bool :=
  message.2.code == some .codeFileChunkData

/-- A count looks only at the part of a list where its predicate can hold. -/
theorem countP_eq_of_filter_eq {α : Type} {P Q : α → Bool} (hPQ : ∀ a, P a = true → Q a = true)
    {l l' : List α} (h : l.filter Q = l'.filter Q) : l.countP P = l'.countP P := by
  have hfilter : ∀ l : List α, l.countP P = (l.filter Q).countP P := by
    intro l
    rw [List.countP_filter]
    apply List.countP_congr
    intro a _
    simp only [Bool.and_eq_true]
    exact ⟨fun ha => ⟨ha, hPQ a ha⟩, fun ha => ha.1⟩
  rw [hfilter l, h, ← hfilter l']

namespace State

/-- What the host of a file offers. -/
def content (s : State) (f : FileRef) : Bytes :=
  ((s.pages (s.server.files f).host).filesMap (s.server.files f).clientFileId).getD []

/-- The answer of the host to a request for `count` bytes. -/
def expected (s : State) (subscriber : Subscriber) (count : Int) : Bytes :=
  Blob.slice (s.content subscriber.file) subscriber.progress
    (min (subscriber.progress + count) (s.content subscriber.file).length)

/-- The requests on their way to the host. -/
def requests (s : State) (f : FileRef) (id : Int) : ℕ :=
  (s.server.outbox (s.server.files f).host).countP fun message =>
    concerns .codeFileRequestChunk (s.server.files f) id message.val

/-- The replies on their way to the server. -/
def replies (s : State) (f : FileRef) (id : Int) : ℕ :=
  s.inbound.countP fun message => message.1 == (s.server.files f).host &&
    concerns .codeFileChunkData (s.server.files f) id message.2

/-- The requests of a subscriber that have not been answered. -/
def unanswered (s : State) (subscriber : Subscriber) : ℕ :=
  s.requests subscriber.file subscriber.id + s.replies subscriber.file subscriber.id

end State

/-! The tables of the files are no part of all this. -/

section SameCatalogue

variable {s t : State} (h : t.server.catalogue = s.server.catalogue)

include h

/-- Where the catalogues agree, the files do in what the catalogue has. -/
theorem file_of_catalogue (f : FileRef) : (t.server.files f).host = (s.server.files f).host ∧
    (t.server.files f).clientFileId = (s.server.files f).clientFileId ∧
    (t.server.files f).serverFileId = (s.server.files f).serverFileId ∧
    (t.server.files f).fileSize = (s.server.files f).fileSize :=
  ⟨congrFun (congrArg Catalogue.host h) f, congrFun (congrArg Catalogue.clientFileId h) f,
    congrFun (congrArg Catalogue.serverFileId h) f, congrFun (congrArg Catalogue.fileSize h) f⟩

theorem content_of_catalogue (hpages : t.pages = s.pages) (f : FileRef) :
    t.content f = s.content f := by
  obtain ⟨hhost, hclient, -, -⟩ := file_of_catalogue h f
  rw [State.content, hhost, hclient, hpages, State.content]

theorem requests_of_catalogue (houtbox : t.server.outbox = s.server.outbox) (f : FileRef)
    (id : Int) : t.requests f id = s.requests f id := by
  obtain ⟨hhost, -, hserver, -⟩ := file_of_catalogue h f
  unfold State.requests concerns
  rw [hhost, hserver, houtbox]

theorem replies_of_catalogue (hinbound : t.inbound = s.inbound) (f : FileRef) (id : Int) :
    t.replies f id = s.replies f id := by
  obtain ⟨hhost, -, hserver, -⟩ := file_of_catalogue h f
  unfold State.replies concerns
  rw [hhost, hserver, hinbound]

theorem isRequest_of_catalogue {f : FileRef} {id chunkPosition chunkSize : Int}
    {message : MessageDto}
    (hrequest : IsRequest (s.server.files f) id chunkPosition chunkSize message) :
    IsRequest (t.server.files f) id chunkPosition chunkSize message := by
  obtain ⟨-, hclient, hserver, -⟩ := file_of_catalogue h f
  rwa [IsRequest, hclient, hserver]

theorem isReply_of_catalogue {btoa : Bytes → String} {f : FileRef} {id : Int} {data : Bytes}
    {message : MessageDto} (hreply : IsReply btoa (s.server.files f) id data message) :
    IsReply btoa (t.server.files f) id data message := by
  obtain ⟨-, -, hserver, -⟩ := file_of_catalogue h f
  rwa [IsReply, hserver]

end SameCatalogue

/-! ### The invariant -/

/-- A message a page sends. -/
def Honest (page : Page) (message : MessageDto) : Prop :=
  isPost message = true ∨ message.code = some .codeFileChunkData ∨
    message.code = some .codeFileShare ∧ ∃ files, message.files = some files ∧
      ∀ entry ∈ files, ∃ fileDto, entry = some fileDto ∧ page.Offers fileDto

/-- Files, and the pages that offer them. -/
structure Hosted (s : State) : Prop where
  complete : s.server.catalogue.Complete
  page : ∀ f < s.server.fileCount,
    (s.pages (s.server.files f).host).Holds (s.server.files f).clientFileId (s.content f) ∧
      (s.server.files f).fileSize = (s.content f).length
  sender : ∀ p message, (p, message) ∈ s.inbound →
    s.server.catalogue.Present p ∧ Honest (s.pages p) message

/-- Subscribers, and the tables of the files. -/
structure Tables (s : Server) : Prop where
  subscriber : ∀ σ subscriber, s.subscribers σ = some subscriber →
    σ < s.subscriberCount ∧ subscriber.file < s.fileCount ∧ subscriber.valid = true ∧
      (s.files subscriber.file).subscribers.lookup subscriber.id = some σ
  lookup : ∀ f id σ, (s.files f).subscribers.lookup id = some σ →
    id < (s.files f).subscriberIdCounter ∧
      ∃ subscriber, s.subscribers σ = some subscriber ∧ subscriber.file = f ∧ subscriber.id = id

theorem Tables.lookup_eq_none {s : Server} (h : Tables s) {f : FileRef} (hf : s.fileCount ≤ f)
    (id : Int) : (s.files f).subscribers.lookup id = none := by
  rcases hlookup : (s.files f).subscribers.lookup id with - | σ
  · rfl
  · obtain ⟨-, subscriber, hσ, rfl, -⟩ := h.lookup f id σ hlookup
    exact absurd (h.subscriber σ subscriber hσ).2.1 (Nat.not_lt.mpr hf)

/-- A chunk or the progress of a subscriber changes. -/
theorem Tables.modifySubscriber {s : Server} (h : Tables s) {σ : SubscriberRef}
    {subscriber subscriber' : Subscriber} (hσ : s.subscribers σ = some subscriber)
    (hid : subscriber'.id = subscriber.id) (hfile : subscriber'.file = subscriber.file)
    (hvalid : subscriber'.valid = subscriber.valid) :
    Tables (s.modifySubscriber σ fun _ => subscriber') where
  subscriber τ sub hτ := by
    rw [Server.modifySubscriber_subscribers, hσ] at hτ
    rcases eq_or_ne τ σ with rfl | hne
    · rw [Function.update_self] at hτ
      obtain rfl := Option.some.inj hτ
      rw [hid, hfile, hvalid]
      exact h.subscriber τ subscriber hσ
    · rw [Function.update_of_ne hne] at hτ
      exact h.subscriber τ sub hτ
  lookup f id τ hτ := by
    obtain ⟨hlt, sub, hsub, rfl, rfl⟩ := h.lookup f id τ hτ
    refine ⟨hlt, ?_⟩
    rw [Server.modifySubscriber_subscribers, hσ]
    rcases eq_or_ne τ σ with rfl | hne
    · rw [hσ] at hsub
      obtain rfl := Option.some.inj hsub
      exact ⟨subscriber', by simp, hfile, hid⟩
    · exact ⟨sub, by rwa [Function.update_of_ne hne], rfl, rfl⟩

section Subscribe

variable {s : Server} {f g : FileRef} {id : Int} {σ : SubscriberRef}

/-- `File::subscribe` counts up, and only for its file. -/
theorem subscriberIdCounter_le_subscribe (s : Server) (f g : FileRef) :
    (s.files g).subscriberIdCounter ≤ ((File.subscribe f s).2.files g).subscriberIdCounter := by
  rcases eq_or_ne g f with rfl | hne
  · simp [File.subscribe]
  · simp [File.subscribe, hne]

/-- The entries of before stay. -/
theorem lookup_subscribe_of_lt (hid : id < (s.files g).subscriberIdCounter) :
    ((File.subscribe f s).2.files g).subscribers.lookup id =
      (s.files g).subscribers.lookup id := by
  rcases eq_or_ne g f with rfl | hne
  · simp [File.subscribe, UnorderedMap.lookup_insert, hid.ne]
  · simp [File.subscribe, hne]

/-- An entry is the new one, or was there before. -/
theorem lookup_subscribe
    (hσ : ((File.subscribe f s).2.files g).subscribers.lookup id = some σ) :
    g = f ∧ id = (s.files f).subscriberIdCounter ∧ σ = s.subscriberCount ∨
      (s.files g).subscribers.lookup id = some σ := by
  rcases eq_or_ne g f with rfl | hne
  · simp only [File.subscribe, Server.modifyFile_files, Function.update_self,
      UnorderedMap.lookup_insert] at hσ
    split at hσ
    · next hid => exact .inl ⟨rfl, hid, (Option.some.inj hσ).symm⟩
    · exact .inr hσ
  · exact .inr (by simpa [File.subscribe, hne] using hσ)

theorem Tables.ne_of_listed (h : Tables s) {subscriber : Subscriber}
    (hσ : s.subscribers σ = some subscriber) : σ ≠ s.subscriberCount :=
  (h.subscriber σ subscriber hσ).1.ne

/-- A subscriber is created, and listed under the next id of its file. -/
theorem Tables.subscribe (h : Tables s) (hf : f < s.fileCount) : Tables (File.subscribe f s).2 := by
  have hnew : (File.subscribe f s).2.subscribers = Function.update s.subscribers s.subscriberCount
      (some { id := (s.files f).subscriberIdCounter, file := f }) := rfl
  constructor
  case subscriber =>
    intro τ sub hτ
    rw [hnew] at hτ
    rcases eq_or_ne τ s.subscriberCount with rfl | hne
    · rw [Function.update_self] at hτ
      obtain rfl := Option.some.inj hτ
      exact ⟨Nat.lt_succ_self _, hf, rfl, by simp [File.subscribe]⟩
    · rw [Function.update_of_ne hne] at hτ
      obtain ⟨hlt, hsub, hvalid, hlisted⟩ := h.subscriber τ sub hτ
      refine ⟨Nat.lt_succ_of_lt hlt, hsub, hvalid, ?_⟩
      rw [lookup_subscribe_of_lt (h.lookup _ _ _ hlisted).1]
      exact hlisted
  case lookup =>
    intro g id τ hτ
    rcases lookup_subscribe hτ with ⟨rfl, rfl, rfl⟩ | hτ
    · refine ⟨?_, { id := (s.files g).subscriberIdCounter, file := g }, ?_, rfl, rfl⟩
      · simp [File.subscribe]
      · rw [hnew, Function.update_self]
    · obtain ⟨hid, sub, hsub, rfl, rfl⟩ := h.lookup g id τ hτ
      refine ⟨hid.trans_le (subscriberIdCounter_le_subscribe s f _), sub, ?_, rfl, rfl⟩
      rw [hnew, Function.update_of_ne (h.ne_of_listed hsub)]
      exact hsub

end Subscribe

/-- Where the chunk is that a reader waits for. -/
def Settled (s : State) (subscriber : Subscriber) : Reader → Prop
  | .idle => subscriber.chunk = none ∧ s.unanswered subscriber = 0
  | .waiting count => 0 < count ∧ subscriber.progress < (s.content subscriber.file).length ∧
      (subscriber.chunk = none ∧ s.unanswered subscriber = 1 ∨
        subscriber.chunk = some (s.expected subscriber count) ∧ s.unanswered subscriber = 0)
  | .failed _ => False

theorem settled_congr {s t : State} {subscriber : Subscriber}
    (hunanswered : t.unanswered subscriber = s.unanswered subscriber)
    (hcontent : t.content subscriber.file = s.content subscriber.file) (reader : Reader) :
    Settled t subscriber reader ↔ Settled s subscriber reader := by
  cases reader <;> simp only [Settled, State.expected, hunanswered, hcontent]

/-- A message in transit is about a subscriber there is or was, and if there
is, it satisfies `P`. -/
def Meant (s : State) (f : FileRef) (id : Int) (P : SubscriberRef → Subscriber → Prop) : Prop :=
  f < s.server.fileCount ∧ id < (s.server.files f).subscriberIdCounter ∧
    ∀ σ subscriber, (s.server.files f).subscribers.lookup id = some σ →
      s.server.subscribers σ = some subscriber → P σ subscriber

theorem Meant.imp {s t : State} {f : FileRef} {id : Int} {P Q : SubscriberRef → Subscriber → Prop}
    (h : Meant s f id P) (hfileCount : s.server.fileCount ≤ t.server.fileCount)
    (hcounter : (s.server.files f).subscriberIdCounter ≤ (t.server.files f).subscriberIdCounter)
    (hPQ : ∀ σ subscriber, id < (s.server.files f).subscriberIdCounter →
      (t.server.files f).subscribers.lookup id = some σ →
      t.server.subscribers σ = some subscriber →
        ∃ subscriber', (s.server.files f).subscribers.lookup id = some σ ∧
          s.server.subscribers σ = some subscriber' ∧ (P σ subscriber' → Q σ subscriber)) :
    Meant t f id Q := by
  obtain ⟨hf, hid, hP⟩ := h
  refine ⟨hf.trans_le hfileCount, hid.trans_le hcounter, fun σ subscriber hσ hsub => ?_⟩
  obtain ⟨subscriber', hσ', hsub', himp⟩ := hPQ σ subscriber hid hσ hsub
  exact himp (hP σ subscriber' hσ' hsub')

/-- Each download has returned the first bytes of its file, every request and
every reply in transit is the one its reader waits for, and the bytes returned
have been counted. -/
structure Faithful (btoa : Bytes → String) (s : State) : Prop where
  download : ∀ σ < s.server.subscriberCount, (s.downloads σ).file < s.server.fileCount ∧
    (s.downloads σ).delivered <+: s.content (s.downloads σ).file
  reader : ∀ σ subscriber, s.server.subscribers σ = some subscriber →
    (s.downloads σ).file = subscriber.file ∧
      subscriber.progress = (s.downloads σ).delivered.length ∧
      Settled s subscriber (s.downloads σ).reader
  request : ∀ p, ∀ message ∈ s.server.outbox p, message.val.code = some .codeFileRequestChunk →
    ∃ f id chunkPosition chunkSize, (s.server.files f).host = p ∧
      IsRequest (s.server.files f) id chunkPosition chunkSize message.val ∧
      Meant s f id fun σ subscriber => chunkPosition = subscriber.progress ∧
        (s.downloads σ).reader = .waiting chunkSize
  reply : ∀ p message, (p, message) ∈ s.inbound → message.code = some .codeFileChunkData →
    ∃ f id data, (s.server.files f).host = p ∧ IsReply btoa (s.server.files f) id data message ∧
      Meant s f id fun σ subscriber =>
        ∃ count, (s.downloads σ).reader = .waiting count ∧ data = s.expected subscriber count
  served : s.server.statistics.fileServedBytes =
    ∑ σ ∈ Finset.range s.server.subscriberCount, (s.downloads σ).delivered.length

/-! ### Steps that are about no download -/

/-- The step leaves every download, and all its messages, where they are. -/
structure Undisturbed (s t : State) : Prop where
  fileCount : s.server.fileCount ≤ t.server.fileCount
  files : ∀ f < s.server.fileCount, t.server.files f = s.server.files f
  fresh : ∀ f, s.server.fileCount ≤ f → ∀ id, (t.server.files f).subscribers.lookup id = none
  content : ∀ f < s.server.fileCount, t.content f = s.content f
  subscribers : t.server.subscribers = s.server.subscribers
  subscriberCount : t.server.subscriberCount = s.server.subscriberCount
  served : t.server.statistics.fileServedBytes = s.server.statistics.fileServedBytes
  downloads : t.downloads = s.downloads
  outbox : ∀ p, (t.server.outbox p).filter isRequest = (s.server.outbox p).filter isRequest
  inbound : t.inbound.filter isReply = s.inbound.filter isReply

namespace Undisturbed

variable {s t : State} {btoa : Bytes → String}

theorem tables (h : Undisturbed s t) (ht : Tables s.server) : Tables t.server where
  subscriber σ subscriber hσ := by
    rw [h.subscribers] at hσ
    obtain ⟨hlt, hfile, hvalid, hlookup⟩ := ht.subscriber σ subscriber hσ
    rw [h.subscriberCount, h.files _ hfile]
    exact ⟨hlt, hfile.trans_le h.fileCount, hvalid, hlookup⟩
  lookup f id σ hσ := by
    rcases lt_or_ge f s.server.fileCount with hf | hf
    · rw [h.files f hf] at hσ ⊢
      rw [h.subscribers]
      exact ht.lookup f id σ hσ
    · rw [h.fresh f hf] at hσ
      cases hσ

theorem expected (h : Undisturbed s t) {subscriber : Subscriber}
    (hf : subscriber.file < s.server.fileCount) (count : Int) :
    t.expected subscriber count = s.expected subscriber count := by
  rw [State.expected, State.expected, h.content _ hf]

theorem unanswered (h : Undisturbed s t) {subscriber : Subscriber}
    (hf : subscriber.file < s.server.fileCount) :
    t.unanswered subscriber = s.unanswered subscriber := by
  unfold State.unanswered State.requests State.replies
  rw [h.files _ hf]
  congr 1
  · refine countP_eq_of_filter_eq (fun message hmessage => ?_) (h.outbox _)
    exact beq_iff_eq.mpr (concerns_code hmessage)
  · refine countP_eq_of_filter_eq (fun message hmessage => ?_) h.inbound
    exact beq_iff_eq.mpr (concerns_code (Bool.and_eq_true_iff.mp hmessage).2)

/-- Whether a subscriber has nothing in transit is the same. -/
theorem settled (h : Undisturbed s t) {subscriber : Subscriber}
    (hf : subscriber.file < s.server.fileCount) (reader : Reader) :
    Settled t subscriber reader ↔ Settled s subscriber reader :=
  settled_congr (h.unanswered hf) (h.content _ hf) reader

/-- A request or reply for a subscriber is still for one. -/
theorem meant (h : Undisturbed s t) (ht : Tables s.server) {f : FileRef} {id : Int}
    {P Q : SubscriberRef → Subscriber → Prop} (hf : Meant s f id P)
    (hPQ : ∀ σ subscriber, subscriber.file < s.server.fileCount → P σ subscriber →
      Q σ subscriber) : Meant t f id Q := by
  refine hf.imp h.fileCount (by rw [h.files f hf.1]) fun σ subscriber _ hσ hsub => ?_
  rw [h.files f hf.1] at hσ
  rw [h.subscribers] at hsub
  exact ⟨subscriber, hσ, hsub, hPQ σ subscriber (ht.subscriber σ subscriber hsub).2.1⟩

/-- What does not disturb the downloads keeps them faithful. -/
theorem faithful (h : Undisturbed s t) (ht : Tables s.server) (hs : Faithful btoa s) :
    Faithful btoa t where
  download σ hσ := by
    rw [h.subscriberCount] at hσ
    obtain ⟨hlt, hbytes⟩ := hs.download σ hσ
    rw [h.downloads, h.content _ hlt]
    exact ⟨hlt.trans_le h.fileCount, hbytes⟩
  reader σ subscriber hσ := by
    rw [h.subscribers] at hσ
    obtain ⟨hfile, hprogress, hsettled⟩ := hs.reader σ subscriber hσ
    rw [h.downloads]
    exact ⟨hfile, hprogress, (h.settled (ht.subscriber σ subscriber hσ).2.1 _).mpr hsettled⟩
  request p message hmem hcode := by
    have hmem : message ∈ (t.server.outbox p).filter isRequest :=
      List.mem_filter.mpr ⟨hmem, beq_iff_eq.mpr hcode⟩
    rw [h.outbox] at hmem
    obtain ⟨f, id, chunkPosition, chunkSize, hhost, hrequest, hmeant⟩ :=
      hs.request p message (List.mem_filter.mp hmem).1 hcode
    refine ⟨f, id, chunkPosition, chunkSize, ?_, ?_, h.meant ht hmeant ?_⟩
    · rwa [h.files f hmeant.1]
    · rwa [h.files f hmeant.1]
    · intro σ subscriber _ hP
      rwa [h.downloads]
  reply p message hmem hcode := by
    have hmem : (p, message) ∈ t.inbound.filter isReply :=
      List.mem_filter.mpr ⟨hmem, beq_iff_eq.mpr hcode⟩
    rw [h.inbound] at hmem
    obtain ⟨f, id, data, hhost, hreply, hmeant⟩ :=
      hs.reply p message (List.mem_filter.mp hmem).1 hcode
    refine ⟨f, id, data, ?_, ?_, h.meant ht hmeant ?_⟩
    · rwa [h.files f hmeant.1]
    · rwa [h.files f hmeant.1]
    · rintro σ subscriber hf ⟨count, hreader, hdata⟩
      exact ⟨count, by rwa [h.downloads], by rwa [h.expected hf]⟩
  served := by
    rw [h.served, h.subscriberCount, h.downloads]
    exact hs.served

end Undisturbed

/-! ### Server functions that ask for no chunk -/

/-- The function touches no file and no subscriber, and sends no request. -/
structure Quiet (s t : Server) : Prop where
  files : t.files = s.files
  fileCount : t.fileCount = s.fileCount
  subscribers : t.subscribers = s.subscribers
  subscriberCount : t.subscriberCount = s.subscriberCount
  served : t.statistics.fileServedBytes = s.statistics.fileServedBytes
  outbox : ∀ p, (t.outbox p).filter isRequest = (s.outbox p).filter isRequest

namespace Quiet

variable {s t u : Server}

/-- Files, subscribers and outboxes stay as they are. -/
theorem of_outbox (hfiles : t.files = s.files) (hfileCount : t.fileCount = s.fileCount)
    (hsubscribers : t.subscribers = s.subscribers)
    (hsubscriberCount : t.subscriberCount = s.subscriberCount)
    (hserved : t.statistics.fileServedBytes = s.statistics.fileServedBytes)
    (houtbox : t.outbox = s.outbox) : Quiet s t :=
  ⟨hfiles, hfileCount, hsubscribers, hsubscriberCount, hserved, fun p => by rw [houtbox]⟩

theorem refl (s : Server) : Quiet s s := .of_outbox rfl rfl rfl rfl rfl rfl

theorem trans (h : Quiet s t) (h' : Quiet t u) : Quiet s u where
  files := h'.files.trans h.files
  fileCount := h'.fileCount.trans h.fileCount
  subscribers := h'.subscribers.trans h.subscribers
  subscriberCount := h'.subscriberCount.trans h.subscriberCount
  served := h'.served.trans h.served
  outbox p := (h'.outbox p).trans (h.outbox p)

variable (s)

/-- A message that is no request disturbs nothing. -/
theorem sendMessageAsync (p : PeerRef) {message : Object MessageDto}
    (hcode : message.val.code ≠ some .codeFileRequestChunk) :
    Quiet s (Peer.sendMessageAsync p message s) := by
  unfold Peer.sendMessageAsync
  split
  · refine ⟨rfl, rfl, rfl, rfl, rfl, fun q => ?_⟩
    rcases eq_or_ne q p with rfl | hne
    · simp [isRequest, hcode]
    · simp [hne]
  · exact refl s

/-- Nor does a broadcast of one. -/
theorem broadcast (ρ : RoomRef) {message : Object MessageDto}
    (hcode : message.val.code ≠ some .codeFileRequestChunk) :
    Quiet s (Room.sendMessageAsync ρ message s) := by
  unfold Room.sendMessageAsync
  generalize Room.members ρ s = ps
  induction ps generalizing s with
  | nil => exact refl s
  | cons p ps ih => exact (sendMessageAsync s p hcode).trans (ih _)

theorem addHistoryMessage (config : ConfigDto) (ρ : RoomRef) (message : Object MessageDto) :
    Quiet s (Room.addHistoryMessage config ρ message s) := by
  unfold Room.addHistoryMessage
  split
  · exact refl s
  · exact .of_outbox rfl rfl rfl rfl rfl rfl

theorem createShared (dto : MessageDto) : Quiet s (s.createShared dto).2 :=
  .of_outbox rfl rfl rfl rfl rfl rfl

/-- A message is recorded and broadcast. -/
theorem notify (config : ConfigDto) (ρ : RoomRef) {message : Object MessageDto}
    (hcode : message.val.code ≠ some .codeFileRequestChunk) :
    Quiet s (Room.sendMessageAsync ρ message (Room.addHistoryMessage config ρ message s)) :=
  (addHistoryMessage s config ρ message).trans (broadcast _ ρ hcode)

/-- Nor does a newcomer. -/
theorem onAfterCreateNonBlocking (config : ConfigDto) (socket : SocketRef)
    (roomName nickname : String) :
    Quiet s (Lobby.onAfterCreateNonBlocking config socket roomName nickname s).2 := by
  let entered := Lobby.getOrCreateRoom roomName (Lobby.countConnected s)
  let created := Lobby.createPeer socket entered.1 nickname entered.2
  let welcomed := Room.welcomePeer config entered.1 created.1 created.2
  let added := Room.addPeer entered.1 created.1 welcomed
  have hentered : Quiet s entered.2 := by
    simp only [entered, Lobby.getOrCreateRoom]
    split
    · exact .of_outbox rfl rfl rfl rfl rfl rfl
    · exact .of_outbox rfl rfl rfl rfl rfl rfl
  have hcreated : Quiet entered.2 created.2 := .of_outbox rfl rfl rfl rfl rfl rfl
  have hwelcomed : Quiet created.2 welcomed := by
    refine (createShared _ (Room.joinedMessage created.1 created.2)).trans (notify _ config _ ?_)
    exact ne_of_beq_false rfl
  have hadded : Quiet welcomed added := .of_outbox rfl rfl rfl rfl rfl rfl
  have honboarded : Quiet added (Room.onboardPeer config entered.1 created.1 added) := by
    let info := Room.infoMessage created.1 (Room.peersSnapshot entered.1 added)
      (Room.getHistory config entered.1 added) added
    refine (createShared added info).trans (sendMessageAsync _ created.1 ?_)
    exact ne_of_beq_false rfl
  exact hentered.trans (hcreated.trans (hwelcomed.trans (hadded.trans honboarded)))

/-- A member that has shared no file leaves. -/
theorem onBeforeDestroyNonBlocking (config : ConfigDto) {p : PeerRef}
    (hp : s.catalogue.Present p) (hfiles : s.catalogue.hosted p = []) :
    Quiet s (Lobby.onBeforeDestroyNonBlocking config p s) := by
  have hremoved : Quiet s (Room.removePeerById (s.peers p).room (s.peers p).peerId
      (Lobby.countDisconnected s)) := by
    have hlookup : Room.getPeerById (s.peers p).room (s.peers p).peerId
        (Lobby.countDisconnected s) = some p := hp
    have hnone : (s.peers p).files = [] := hfiles
    rw [Room.removePeerById, hlookup]
    dsimp only
    rw [Lobby.countDisconnected_peers, hnone]
    exact .of_outbox rfl rfl rfl rfl rfl rfl
  unfold Lobby.onBeforeDestroyNonBlocking
  dsimp only
  rw [Lobby.countDisconnected_peers]
  generalize Room.removePeerById (s.peers p).room (s.peers p).peerId (Lobby.countDisconnected s) =
    removed at hremoved ⊢
  have hleft : Quiet removed (Room.goodbyePeer config (s.peers p).room p removed) := by
    refine (createShared removed (Room.leftMessage p removed)).trans (notify _ config _ ?_)
    exact ne_of_beq_false rfl
  have hclosed : Quiet s (Peer.invalidateSocket p
      (Room.goodbyePeer config (s.peers p).room p removed)) :=
    hremoved.trans (hleft.trans (.of_outbox rfl rfl rfl rfl rfl rfl))
  split
  · exact hclosed.trans (.of_outbox rfl rfl rfl rfl rfl rfl)
  · exact hclosed

end Quiet

/-- The hosts keep their files, the tables are in order and the downloads are
faithful. -/
structure Good (btoa : Bytes → String) (s : State) : Prop where
  hosted : Hosted s
  tables : Tables s.server
  faithful : Faithful btoa s

theorem Honest.mono {page page' : Page} {message : MessageDto}
    (hpage : ∀ clientFileId content, page.Holds clientFileId content →
      page'.Holds clientFileId content) (h : Honest page message) : Honest page' message := by
  rcases h with h | h | ⟨hcode, files, hfiles, hentry⟩
  · exact .inl h
  · exact .inr (.inl h)
  · refine .inr (.inr ⟨hcode, files, hfiles, fun entry hmem => ?_⟩)
    obtain ⟨fileDto, rfl, clientFileId, content, hid, hsize, hholds⟩ := hentry entry hmem
    exact ⟨fileDto, rfl, clientFileId, content, hid, hsize, hpage _ _ hholds⟩

namespace Good

variable {btoa : Bytes → String} {s t : State}

/-- The content of a file is what its host's page holds. -/
theorem content_eq (h : Good btoa s) (hfiles : t.server.files = s.server.files)
    (hpages : ∀ f < s.server.fileCount, ∀ clientFileId content,
      (s.pages (s.server.files f).host).Holds clientFileId content →
        (t.pages (s.server.files f).host).Holds clientFileId content) :
    ∀ f < s.server.fileCount, t.content f = s.content f := by
  intro f hf
  have hholds := hpages f hf _ _ (h.hosted.page f hf).1
  rw [State.content, hfiles, hholds.1]
  rfl

/-- A step that is about no download: the pages forget no file, and no request
and no reply is sent or received. -/
theorem quiet (h : Good btoa s) (hq : Quiet s.server t.server)
    (hcomplete : t.server.catalogue.Complete)
    (hpages : ∀ f < s.server.fileCount, ∀ clientFileId content,
      (s.pages (s.server.files f).host).Holds clientFileId content →
        (t.pages (s.server.files f).host).Holds clientFileId content)
    (hsender : ∀ p message, (p, message) ∈ t.inbound →
      t.server.catalogue.Present p ∧ Honest (t.pages p) message)
    (hdownloads : t.downloads = s.downloads)
    (hinbound : t.inbound.filter isReply = s.inbound.filter isReply) : Good btoa t := by
  have hcontent := h.content_eq hq.files hpages
  have hundisturbed : Undisturbed s t :=
    { fileCount := hq.fileCount.ge
      files := fun f _ => by rw [hq.files]
      fresh := fun f hf id => by
        rw [hq.files]
        exact h.tables.lookup_eq_none hf id
      content := hcontent
      subscribers := hq.subscribers
      subscriberCount := hq.subscriberCount
      served := hq.served
      downloads := hdownloads
      outbox := hq.outbox
      inbound := hinbound }
  refine ⟨⟨hcomplete, fun f hf => ?_, hsender⟩, hundisturbed.tables h.tables,
    hundisturbed.faithful h.tables h.faithful⟩
  rw [hq.fileCount] at hf
  obtain ⟨hholds, hsize⟩ := h.hosted.page f hf
  rw [hq.files, hcontent f hf]
  exact ⟨hpages f hf _ _ hholds, hsize⟩

end Good

end Streaming

end CanChat
