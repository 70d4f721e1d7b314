/-
CanChat/Faithful.lean

What a download returns is the file its host offered.

Every step of the system keeps the invariant of `CanChat/Transit.lean`.  Most
steps are about no download; of the others, a read sends a request or takes a
chunk, a page turns a request into a reply, and the server a reply into a
chunk.
-/
import CanChat.Transit
import CanChat.Base64

namespace CanChat

namespace Streaming

/-! ### Lists with one element taken out -/

theorem exists_append_of_getElem? {α : Type} {l : List α} {i : ℕ} {a : α} (h : l[i]? = some a) :
    ∃ l₁ l₂, l = l₁ ++ a :: l₂ ∧ l.eraseIdx i = l₁ ++ l₂ := by
  obtain ⟨hlt, rfl⟩ := List.getElem?_eq_some_iff.mp h
  refine ⟨l.take i, l.drop (i + 1), ?_, List.eraseIdx_eq_take_drop_succ l i⟩
  rw [← List.drop_eq_getElem_cons hlt, List.take_append_drop]

theorem filter_eraseIdx {α : Type} {l : List α} {i : ℕ} {a : α} (h : l[i]? = some a)
    {P : α → Bool} (ha : P a = false) : (l.eraseIdx i).filter P = l.filter P := by
  obtain ⟨l₁, l₂, rfl, herase⟩ := exists_append_of_getElem? h
  rw [herase, List.filter_append, List.filter_append, List.filter_cons_of_neg (by simp [ha])]

theorem countP_eraseIdx {α : Type} {l : List α} {i : ℕ} {a : α} (h : l[i]? = some a)
    (P : α → Bool) : l.countP P = (l.eraseIdx i).countP P + if P a then 1 else 0 := by
  obtain ⟨l₁, l₂, rfl, herase⟩ := exists_append_of_getElem? h
  rw [herase, List.countP_append, List.countP_append, List.countP_cons]
  omega

/-- A download of `f` is started. -/
def State.subscribed (f : FileRef) (s : State) : State :=
  { s with
    server := (File.subscribe f s.server).2
    downloads := Function.update s.downloads (File.subscribe f s.server).1 { file := f } }

namespace Good

variable {fw : Framework} {btoa : Bytes → String} {config : ConfigDto} {s t : State} {p : PeerRef}

/-! ### Joining and leaving -/

theorem join (h : Good btoa s) (socket : SocketRef) (roomName nickname : String) :
    Good btoa { s with
      server := (Lobby.onAfterCreateNonBlocking config socket roomName nickname s.server).2
      pages := Function.update s.pages
        (Lobby.onAfterCreateNonBlocking config socket roomName nickname s.server).1 {} } := by
  obtain ⟨c, ρ, hc, hρ, hnew, hcatalogue⟩ :=
    catalogue_onAfterCreateNonBlocking s.server config socket roomName nickname
  have hcomplete := h.hosted.complete
  have hentered : c.Complete ∧ (∀ q, s.server.catalogue.Present q → c.Present q) ∧
      c.peerCount = s.server.peerCount := by
    rcases hc with rfl | rfl
    · exact ⟨hcomplete, fun q hq => hq, rfl⟩
    · exact ⟨hcomplete.createRoom roomName,
        fun q hq => hcomplete.present_createRoom hq roomName, rfl⟩
  obtain ⟨hjoined, hpresent⟩ := hentered.1.join (hentered.1.lobby _ ρ hρ) socket
  -- the newcomer's page is new
  have hpage : ∀ q, s.server.catalogue.Present q → Function.update s.pages
      (Lobby.onAfterCreateNonBlocking config socket roomName nickname s.server).1 {} q =
        s.pages q := by
    intro q hq
    have hlt := hcomplete.lt_of_present hq
    rw [hnew, hentered.2.2]
    exact Function.update_of_ne hlt.ne _ _
  refine h.quiet (Quiet.onAfterCreateNonBlocking s.server config socket roomName nickname) ?_ ?_ ?_
    rfl rfl
  · rw [hcatalogue]
    exact hjoined
  · intro f hf clientFileId content hholds
    show Page.Holds (Function.update s.pages _ _ _) _ _
    rw [hpage (s.server.files f).host (hcomplete.host f hf).1]
    exact hholds
  · intro q message hmem
    obtain ⟨hq, hhonest⟩ := h.hosted.sender q message hmem
    refine ⟨?_, ?_⟩
    · rw [hcatalogue]
      exact hpresent q (hentered.2.1 q hq)
    · show Honest (Function.update s.pages _ _ _) _
      rw [hpage q hq]
      exact hhonest

/-- A member that has shared no file leaves. -/
theorem close (h : Good btoa s) (hp : s.server.catalogue.Present p)
    (hfiles : s.server.catalogue.hosted p = []) : Good btoa (s.close config p) := by
  obtain ⟨c, hc, hcatalogue⟩ := catalogue_onBeforeDestroyNonBlocking s.server p config hp hfiles
  have hcomplete := h.hosted.complete
  have hlt := hcomplete.lt_of_present hp
  have hleft : c.Complete ∧ ∀ q, s.server.catalogue.Present q → q ≠ p → c.Present q := by
    rw [hc]
    exact ⟨hcomplete.leave hlt hfiles, fun q hq hne => hcomplete.present_leave hlt hq hne⟩
  have hclosed : (s.close config p).server.catalogue.Complete ∧
      ∀ q, s.server.catalogue.Present q → q ≠ p →
      (s.close config p).server.catalogue.Present q := by
    rcases hcatalogue with hcatalogue | ⟨name, hcatalogue⟩ <;>
      simp only [State.close, hcatalogue]
    · exact hleft
    · exact ⟨hleft.1.deleteRoom name, hleft.2⟩
  refine h.quiet (Quiet.onBeforeDestroyNonBlocking s.server config hp hfiles) hclosed.1
    (fun _ _ _ _ h => h) ?_ rfl ?_
  · intro q message hmem
    obtain ⟨hmem, hne⟩ := List.mem_filter.mp hmem
    obtain ⟨hq, hhonest⟩ := h.hosted.sender q message hmem
    exact ⟨hclosed.2 q hq (by simpa using hne), hhonest⟩
  · -- the leaver has sent no chunk, having no file
    show List.filter isReply (List.filter _ s.inbound) = _
    rw [List.filter_filter]
    apply List.filter_congr
    rintro ⟨q, message⟩ hmem
    rcases hreply : isReply (q, message) with - | -
    · rfl
    · obtain ⟨f, id, data, hhost, -, hf, -⟩ :=
        h.faithful.reply q message hmem (beq_iff_eq.mp hreply)
      have hne : q ≠ p := by
        rintro rfl
        have hmem := (hcomplete.host f hf).2
        rw [show s.server.catalogue.host f = q from hhost, hfiles] at hmem
        cases hmem
      simpa using hne

/-! ### Writing to the server -/

/-- A present peer sends a message that is no reply. -/
theorem send (h : Good btoa s) (hp : s.server.catalogue.Present p) {message : MessageDto}
    (page : Page) (hpage : ∀ clientFileId content, (s.pages p).Holds clientFileId content →
      page.Holds clientFileId content)
    (hhonest : Honest page message) (hreply : message.code ≠ some .codeFileChunkData) :
    Good btoa { s with
      pages := Function.update s.pages p page
      inbound := s.inbound ++ [(p, message)] } := by
  have hpages : ∀ q clientFileId content, (s.pages q).Holds clientFileId content →
      (Function.update s.pages p page q).Holds clientFileId content := by
    intro q clientFileId content hholds
    rcases eq_or_ne q p with rfl | hne
    · rw [Function.update_self]
      exact hpage _ _ hholds
    · rwa [Function.update_of_ne hne]
  refine h.quiet (.refl s.server) h.hosted.complete (fun f _ => hpages _) ?_ rfl ?_
  · intro q message' hmem
    rcases List.mem_append.mp hmem with hmem | hmem
    · obtain ⟨hq, hhonest'⟩ := h.hosted.sender q message' hmem
      exact ⟨hq, hhonest'.mono (hpages q)⟩
    · obtain ⟨rfl, rfl⟩ := Prod.mk.inj (List.mem_singleton.mp hmem)
      refine ⟨hp, ?_⟩
      show Honest (Function.update s.pages q page q) _
      rwa [Function.update_self]
  · show List.filter isReply (s.inbound ++ [(p, message)]) = _
    rw [List.filter_append]
    simp [isReply, hreply]

theorem post (h : Good btoa s) (hp : s.server.catalogue.Present p) {message : MessageDto}
    (hpost : isPost message = true) :
    Good btoa { s with inbound := s.inbound ++ [(p, message)] } := by
  have hreply : message.code ≠ some .codeFileChunkData := by
    intro hcode
    simp [isPost, hcode] at hpost
  have hsent := h.send hp (s.pages p) (fun _ _ h => h) (.inl hpost) hreply
  rwa [Function.update_eq_self] at hsent

theorem handleFiles (h : Good btoa s) (hp : s.server.catalogue.Present p)
    (files : List (String × Bytes)) :
    Good btoa { s with
      pages := Function.update s.pages p ((s.pages p).handleFiles files).2
      inbound := s.inbound ++ [(p, ((s.pages p).handleFiles files).1)] } := by
  refine h.send hp _ (fun _ _ hholds => hholds.offerFiles files) ?_ (ne_of_beq_false rfl)
  exact .inr (.inr ⟨rfl, _, rfl, fun entry => Page.offers_of_mem_offerFiles files (s.pages p)⟩)

/-! ### Reading from a peer -/

theorem readParsed_exec (fw : Framework) (config : ConfigDto) (p : PeerRef) (message : MessageDto)
    (s : Server) :
    ∃ message' s', message'.val.code = message.code ∧ message'.val.files = message.files ∧
      Quiet s s' ∧ s'.catalogue = s.catalogue ∧
      (Peer.readParsed fw config p message).exec s =
        (Peer.handleMessage fw config p message').exec s' := by
  refine ⟨_, _, ?_, ?_, ?_, ?_, Peer.exec_readParsed fw config p message s⟩
  · rfl
  · rfl
  · exact .of_outbox rfl rfl rfl rfl rfl rfl
  · rfl

/-- What a user writes is broadcast. -/
theorem handleMessage_post (fw : Framework) (config : ConfigDto) (p : PeerRef)
    {message : Object MessageDto} (hpost : isPost message.val = true) (s : Server) :
    ∃ t, (Peer.handleMessage fw config p message).exec s = (.ok none, t) ∧
      Quiet s t ∧ t.catalogue = s.catalogue := by
  simp only [isPost, Bool.or_eq_true, beq_iff_eq] at hpost
  unfold Peer.handleMessage
  rcases hpost with hcode | hcode
  · have hne : message.val.code ≠ some .codeFileRequestChunk := by
      rw [hcode]
      simp
    rw [Handler.exec_bind, Handler.exec_get]
    dsimp only
    rw [hcode]
    refine ⟨_, rfl, ?_, ?_⟩
    · exact (Quiet.notify s config _ hne).trans (.of_outbox rfl rfl rfl rfl rfl rfl)
    · exact (catalogue_broadcast _ _ _).trans (catalogue_addHistoryMessage _ _ _ _)
  · have hne : message.val.code ≠ some .codeFileRequestChunk := by
      rw [hcode]
      simp
    rw [Handler.exec_bind, Handler.exec_get]
    dsimp only
    rw [hcode]
    exact ⟨_, rfl, Quiet.broadcast s _ hne, catalogue_broadcast _ _ _⟩

/-- A function that is about no download. -/
theorem server (h : Good btoa s) {t : Server} (hq : Quiet s.server t)
    (hcatalogue : t.catalogue = s.server.catalogue) : Good btoa { s with server := t } := by
  refine h.quiet hq ?_ (fun _ _ _ _ h => h) ?_ rfl rfl
  · show t.catalogue.Complete
    rw [hcatalogue]
    exact h.hosted.complete
  · intro q message hmem
    show t.catalogue.Present q ∧ _
    rw [hcatalogue]
    exact h.hosted.sender q message hmem

/-- A message that is no reply has arrived. -/
theorem arrived (h : Good btoa s) {i : ℕ} {message : MessageDto}
    (hi : s.inbound[i]? = some (p, message)) (hreply : message.code ≠ some .codeFileChunkData) :
    Good btoa { s with inbound := s.inbound.eraseIdx i } := by
  refine h.quiet (.refl s.server) h.hosted.complete (fun _ _ _ _ h => h) ?_ rfl ?_
  · intro q message' hmem
    exact h.hosted.sender q message' (List.mem_of_mem_eraseIdx hmem)
  · exact filter_eraseIdx hi (by simp [isReply, hreply])

/-! ### Sharing files -/

theorem registerFile (h : Good btoa s) (hp : s.server.catalogue.Present p) {clientFileId : Int}
    {content : Bytes} (hholds : (s.pages p).Holds clientFileId content)
    (fileName : Option String) :
    Good btoa { s with
      server := (Room.registerFile (s.server.peers p).room p clientFileId fileName content.length
        s.server).2 } := by
  let t : State := { s with
    server := (Room.registerFile (s.server.peers p).room p clientFileId fileName content.length
      s.server).2 }
  show Good btoa t
  have hcatalogue : t.server.catalogue = s.server.catalogue.registerFile (s.server.catalogue.room p)
      p clientFileId content.length := catalogue_registerFile _ _ _ _ _ _
  have hold : ∀ f, f ≠ s.server.fileCount → t.server.files f = s.server.files f := fun f hf =>
    Function.update_of_ne hf _ _
  have hnew : t.server.files s.server.fileCount =
      { host := p, clientFileId,
        serverFileId := (s.server.rooms (s.server.peers p).room).fileIdCounter,
        fileName, fileSize := content.length } := Function.update_self _ _ _
  -- downloads, requests and replies are about older files
  have hundisturbed : Undisturbed s t :=
    { fileCount := Nat.le_succ _
      files := fun f hf => hold f hf.ne
      fresh := fun f hf id => by
        rcases eq_or_ne f s.server.fileCount with rfl | hne
        · rw [hnew]
          rfl
        · rw [hold f hne]
          exact h.tables.lookup_eq_none hf id
      content := fun f hf => by
        rw [State.content, hold f hf.ne]
        rfl
      subscribers := rfl
      subscriberCount := rfl
      served := rfl
      downloads := rfl
      outbox := fun _ => rfl
      inbound := rfl }
  refine ⟨⟨?_, fun f hf => ?_, ?_⟩, hundisturbed.tables h.tables,
    hundisturbed.faithful h.tables h.faithful⟩
  · rw [hcatalogue]
    exact h.hosted.complete.registerFile hp _ _
  · rcases Nat.lt_succ_iff_lt_or_eq.mp hf with hf | rfl
    · rw [hundisturbed.content f hf, hold f hf.ne]
      exact h.hosted.page f hf
    -- the new file has the content that the page of its host holds
    · have hcontent : t.content s.server.fileCount = content := by
        rw [State.content, hnew]
        exact congrArg (Option.getD · []) hholds.1
      rw [hcontent, hnew]
      exact ⟨hholds, rfl⟩
  · rw [hcatalogue]
    exact h.hosted.sender

/-- The loop of `handleFilesMessage`. -/
theorem shareFiles (h : Good btoa s) (hp : s.server.catalogue.Present p)
    (files : List (Option FileDto))
    (hoffers : ∀ entry ∈ files, ∃ fileDto, entry = some fileDto ∧ (s.pages p).Offers fileDto) :
    ∃ shared t, (Peer.shareFiles p files).exec s.server = (.ok shared, t) ∧
      Good btoa { s with server := t } := by
  induction files generalizing s with
  | nil => exact ⟨[], s.server, rfl, h⟩
  | cons entry files ih =>
      obtain ⟨fileDto, rfl, clientFileId, content, hid, hsize, hholds⟩ :=
        hoffers entry List.mem_cons_self
      have hregistered := h.registerFile hp hholds fileDto.name
      have hpresent : (Room.registerFile (s.server.peers p).room p clientFileId fileDto.name
          content.length s.server).2.catalogue.Present p := by
        rw [catalogue_registerFile]
        exact hp
      obtain ⟨shared, t, hexec, hgood⟩ := ih hregistered hpresent fun entry hmem =>
        hoffers entry (List.mem_cons_of_mem _ hmem)
      have hlookup : Room.getPeerById (s.server.peers p).room (s.server.peers p).peerId s.server =
          some p := hp
      have hexec' : ∃ shared, (Peer.shareFiles p (some fileDto :: files)).exec s.server =
          (.ok shared, t) := by
        unfold Peer.shareFiles
        simp only [Handler.exec_bind, Handler.exec_deref_some, hid, hsize, Handler.exec_get,
          Room.shareFile, hlookup, Handler.exec_modifyGet, hexec, Handler.exec_pure]
        exact ⟨_, rfl⟩
      obtain ⟨shared', hexec'⟩ := hexec'
      exact ⟨shared', t, hexec', hgood⟩

theorem handleFilesMessage (h : Good btoa s) (config : ConfigDto)
    (hp : s.server.catalogue.Present p) {message : MessageDto} {files : List (Option FileDto)}
    (hfiles : message.files = some files)
    (hoffers : ∀ entry ∈ files, ∃ fileDto, entry = some fileDto ∧ (s.pages p).Offers fileDto) :
    ∃ t, (Peer.handleFilesMessage config p message).exec s.server = (.ok none, t) ∧
      Good btoa { s with server := t } := by
  obtain ⟨_, n, hvalidate⟩ := Peer.exec_validateFilesList_some p files s.server
  let validated := { s.server with objectCount := n }
  have hvalidated : Good btoa { s with server := validated.getMicroTickCount.2 } :=
    h.server (.of_outbox rfl rfl rfl rfl rfl rfl) rfl
  obtain ⟨shared, t, hexec, hgood⟩ := hvalidated.shareFiles hp files hoffers
  let fileMessage := t.createShared
    { code := some .codePeerMessageFile
      peerId := some (s.server.peers p).peerId
      peerName := some (s.server.peers p).nickname
      timestamp := some validated.getMicroTickCount.1
      files := some shared }
  let ρ := (s.server.peers p).room
  refine ⟨Room.sendMessageAsync ρ fileMessage.1
    (Room.addHistoryMessage config ρ fileMessage.1 fileMessage.2), ?_, ?_⟩
  · unfold Peer.handleFilesMessage
    simp only [hfiles, Handler.exec_bind, hvalidate, Handler.exec_get, Handler.exec_modifyGet,
      Handler.exec_deref_some, Handler.exec_modify, Handler.exec_pure]
    rw [show (Peer.shareFiles p files).exec _ = _ from hexec]
  · refine hgood.server ?_ ?_
    · exact (Quiet.createShared t _).trans (Quiet.notify _ config ρ (ne_of_beq_false rfl))
    · exact (catalogue_broadcast _ _ _).trans (catalogue_addHistoryMessage _ _ _ _)

/-! ### Which subscriber a message is for -/

theorem concerns_request (h : Good btoa s) {f g : FileRef} (hf : f < s.server.fileCount)
    (hg : g < s.server.fileCount) (hhost : (s.server.files f).host = (s.server.files g).host)
    {id id' chunkPosition chunkSize : Int} {message : MessageDto}
    (hrequest : IsRequest (s.server.files f) id chunkPosition chunkSize message) :
    concerns .codeFileRequestChunk (s.server.files g) id' message = true ↔ f = g ∧ id = id' := by
  rw [hrequest.concerns]
  constructor
  · rintro ⟨hserver, hid⟩
    exact ⟨h.hosted.complete.file_inj hf hg hhost hserver, hid⟩
  · rintro ⟨rfl, hid⟩
    exact ⟨rfl, hid⟩

theorem concerns_reply (h : Good btoa s) {f g : FileRef} (hf : f < s.server.fileCount)
    (hg : g < s.server.fileCount) {id id' : Int} {data : Bytes} {message : MessageDto}
    (hreply : IsReply btoa (s.server.files f) id data message) :
    ((s.server.files f).host == (s.server.files g).host &&
      concerns .codeFileChunkData (s.server.files g) id' message) = true ↔ f = g ∧ id = id' := by
  rw [Bool.and_eq_true, beq_iff_eq, hreply.concerns]
  constructor
  · rintro ⟨hhost, hserver, hid⟩
    exact ⟨h.hosted.complete.file_inj hf hg hhost hserver, hid⟩
  · rintro ⟨rfl, hid⟩
    exact ⟨rfl, rfl, hid⟩

/-- The subscriber a table lists under an id is the one with this id. -/
theorem lookup_eq (h : Good btoa s) {σ : SubscriberRef} {subscriber : Subscriber}
    (hσ : s.server.subscribers σ = some subscriber) :
    (s.server.files subscriber.file).subscribers.lookup subscriber.id = some σ :=
  (h.tables.subscriber σ subscriber hσ).2.2.2

/-! ### A chunk arrives -/

/-- The number of replies left for a subscriber. -/
theorem replies_arrived (h : Good btoa s) {i : ℕ} {f : FileRef} {id : Int} {data : Bytes}
    {message : MessageDto} (hi : s.inbound[i]? = some ((s.server.files f).host, message))
    (hf : f < s.server.fileCount) (hreply : IsReply btoa (s.server.files f) id data message)
    {t : State} (hfiles : t.server.files = s.server.files)
    (hinbound : t.inbound = s.inbound.eraseIdx i) {subscriber : Subscriber}
    (hsub : subscriber.file < s.server.fileCount) :
    s.replies subscriber.file subscriber.id = t.replies subscriber.file subscriber.id +
      if f = subscriber.file ∧ id = subscriber.id then 1 else 0 := by
  rw [State.replies, State.replies, hfiles, hinbound, countP_eraseIdx hi]
  congr 1
  exact if_congr (h.concerns_reply hf hsub hreply) rfl rfl

/-- A chunk for a download that is over. -/
theorem chunk_ignored (h : Good btoa s) {i : ℕ} {f : FileRef} {id : Int} {data : Bytes}
    {message : MessageDto} (hi : s.inbound[i]? = some ((s.server.files f).host, message))
    (hf : f < s.server.fileCount) (hreply : IsReply btoa (s.server.files f) id data message)
    (hlookup : (s.server.files f).subscribers.lookup id = none) :
    Good btoa { s with inbound := s.inbound.eraseIdx i } := by
  let t : State := { s with inbound := s.inbound.eraseIdx i }
  refine ⟨⟨h.hosted.complete, h.hosted.page, fun q message' hmem => ?_⟩, h.tables, ?_⟩
  · exact h.hosted.sender q message' (List.mem_of_mem_eraseIdx hmem)
  refine { h.faithful with reader := fun σ subscriber hσ => ?_, reply := fun q message' hmem => ?_ }
  · obtain ⟨hfile, hprogress, hsettled⟩ := h.faithful.reader σ subscriber hσ
    refine ⟨hfile, hprogress, (settled_congr (s := s) (t := t) ?_ rfl _).mpr hsettled⟩
    have hother : ¬ (f = subscriber.file ∧ id = subscriber.id) := by
      rintro ⟨rfl, rfl⟩
      rw [h.lookup_eq hσ] at hlookup
      cases hlookup
    have hreplies := h.replies_arrived (t := t) hi hf hreply rfl rfl
      (h.tables.subscriber σ subscriber hσ).2.1
    rw [if_neg hother] at hreplies
    exact congrArg (s.requests subscriber.file subscriber.id + ·) hreplies.symm
  · exact h.faithful.reply q message' (List.mem_of_mem_eraseIdx hmem)

/-- A chunk for a subscriber, which waits for it and has none. -/
theorem chunk_provided (h : Good btoa s) {i : ℕ} {f : FileRef} {id : Int} {data : Bytes}
    {message : MessageDto} (hi : s.inbound[i]? = some ((s.server.files f).host, message))
    (hreply : IsReply btoa (s.server.files f) id data message)
    (hmeant : Meant s f id fun σ subscriber =>
      ∃ count, (s.downloads σ).reader = .waiting count ∧ data = s.expected subscriber count)
    {σ : SubscriberRef} {subscriber : Subscriber}
    (hlookup : (s.server.files f).subscribers.lookup id = some σ)
    (hσ : s.server.subscribers σ = some subscriber) :
    subscriber.chunk = none ∧
      Good btoa { s with
        server := s.server.modifySubscriber σ fun _ => { subscriber with chunk := some data }
        inbound := s.inbound.eraseIdx i } := by
  obtain ⟨hf, hid, hP⟩ := hmeant
  obtain ⟨-, sub, hsub, rfl, rfl⟩ := h.tables.lookup f id σ hlookup
  obtain rfl : subscriber = sub := Option.some.inj (hσ.symm.trans hsub)
  obtain ⟨count, hreader, rfl⟩ := hP σ subscriber hlookup hσ
  obtain ⟨hfile, hprogress, hsettled⟩ := h.faithful.reader σ subscriber hσ
  let provided : Subscriber := { subscriber with chunk := some (s.expected subscriber count) }
  let t : State := { s with
    server := s.server.modifySubscriber σ fun _ => provided
    inbound := s.inbound.eraseIdx i }
  have hreplies := fun (sub : Subscriber) (hsub : sub.file < s.server.fileCount) =>
    h.replies_arrived (t := t) hi hf hreply rfl rfl hsub
  -- one reply was in transit, so no chunk was there
  have hone := hreplies subscriber hf
  rw [if_pos ⟨rfl, rfl⟩] at hone
  rw [hreader] at hsettled
  obtain ⟨hcount, hlt, hchunk⟩ := hsettled
  have hchunk : subscriber.chunk = none ∧ s.unanswered subscriber = 1 := by
    refine hchunk.resolve_right fun hchunk => ?_
    have hzero := hchunk.2
    unfold State.unanswered at hzero
    omega
  have hsubscribers : ∀ τ sub, t.server.subscribers τ = some sub →
      τ = σ ∧ sub = provided ∨ τ ≠ σ ∧ s.server.subscribers τ = some sub := by
    intro τ sub hτ
    rcases eq_or_ne τ σ with rfl | hne
    · simp only [t, Server.modifySubscriber_subscribers, hσ, Option.map_some,
        Function.update_self] at hτ
      exact .inl ⟨rfl, (Option.some.inj hτ).symm⟩
    · simp only [t, Server.modifySubscriber_subscribers, Function.update_of_ne hne] at hτ
      exact .inr ⟨hne, hτ⟩
  -- what a message in transit is about has not changed
  have hmeant : ∀ {f id} {P Q : SubscriberRef → Subscriber → Prop}, Meant s f id P →
      (P σ subscriber → Q σ provided) → (∀ τ sub, P τ sub → Q τ sub) → Meant t f id Q := by
    intro f id P Q hmeant hself hother
    refine hmeant.imp le_rfl le_rfl fun τ sub _ hlookup hτ => ?_
    rcases hsubscribers τ sub hτ with ⟨rfl, rfl⟩ | ⟨-, hτ⟩
    · exact ⟨subscriber, hlookup, hσ, hself⟩
    · exact ⟨sub, hlookup, hτ, hother τ sub⟩
  refine ⟨hchunk.1, ⟨h.hosted.complete, h.hosted.page, fun q message' hmem => ?_⟩, ?_, ?_⟩
  · exact h.hosted.sender q message' (List.mem_of_mem_eraseIdx hmem)
  · exact h.tables.modifySubscriber hσ rfl rfl rfl
  · refine ⟨h.faithful.download, fun τ sub hτ => ?_, fun q message' hmem hcode => ?_,
      fun q message' hmem hcode => ?_, h.faithful.served⟩
    · rcases hsubscribers τ sub hτ with ⟨rfl, rfl⟩ | ⟨hne, hτ⟩
      · refine ⟨hfile, hprogress, ?_⟩
        rw [show (t.downloads τ).reader = .waiting count from hreader]
        refine ⟨hcount, hlt, .inr ⟨rfl, ?_⟩⟩
        have hzero : t.requests subscriber.file subscriber.id =
            s.requests subscriber.file subscriber.id := rfl
        show t.requests subscriber.file subscriber.id + t.replies subscriber.file subscriber.id = 0
        have hunanswered := hchunk.2
        unfold State.unanswered at hunanswered
        omega
      · obtain ⟨hfile, hprogress, hsettled⟩ := h.faithful.reader τ sub hτ
        refine ⟨hfile, hprogress, (settled_congr (s := s) (t := t) ?_ rfl _).mpr hsettled⟩
        have hother : ¬ (subscriber.file = sub.file ∧ subscriber.id = sub.id) := by
          rintro ⟨hfile, hid⟩
          rw [hfile, hid, h.lookup_eq hτ] at hlookup
          exact hne (Option.some.inj hlookup)
        have hsame := hreplies _ (h.tables.subscriber τ sub hτ).2.1
        rw [if_neg hother] at hsame
        exact congrArg (s.requests sub.file sub.id + ·) hsame.symm
    · obtain ⟨f, id, chunkPosition, chunkSize, hhost, hrequest, hm⟩ :=
        h.faithful.request q message' hmem hcode
      exact ⟨f, id, chunkPosition, chunkSize, hhost, hrequest,
        hmeant hm (fun hP => hP) fun _ _ hP => hP⟩
    · obtain ⟨f, id, data, hhost, hreply, hm⟩ :=
        h.faithful.reply q message' (List.mem_of_mem_eraseIdx hmem) hcode
      exact ⟨f, id, data, hhost, hreply, hmeant hm (fun hP => hP) fun _ _ hP => hP⟩

/-- A reply gets to the table of its file. -/
theorem handleFileChunkMessage_exec (h : Good btoa s)
    (hdecode : ∀ data, fw.base64Decode (btoa data) = some data) {f : FileRef} {id : Int}
    {data : Bytes} {message : MessageDto} (hf : f < s.server.fileCount)
    (hreply : IsReply btoa (s.server.files f) id data message) :
    (Peer.handleFileChunkMessage fw (s.server.files f).host message).exec s.server =
      match (File.provideFileChunk f id data).exec s.server with
      | (.ok _, t) => (.ok none, t)
      | (.error fault, t) => (.error fault, t) := by
  have hregistered : Room.getFileById (s.server.peers (s.server.files f).host).room
      (s.server.files f).serverFileId s.server = some f := h.hosted.complete.registered f hf
  unfold Peer.handleFileChunkMessage
  rw [hreply.2]
  simp only [List.length_singleton, gt_iff_lt, lt_self_iff_false, if_false, Peer.front,
    Handler.exec_bind, Handler.exec_pure, Peer.provideChunk, Handler.exec_get, hregistered, ne_eq,
    not_true_eq_false, hdecode]
  rcases (File.provideFileChunk f id data).exec s.server with ⟨- | -, t⟩ <;> rfl

theorem provideFileChunk (h : Good btoa s)
    (hdecode : ∀ data, fw.base64Decode (btoa data) = some data) {i : ℕ} {message : MessageDto}
    (hi : s.inbound[i]? = some (p, message)) (hcode : message.code = some .codeFileChunkData)
    {message' : MessageDto} (hcode' : message'.code = message.code)
    (hfiles : message'.files = message.files) :
    ∃ t, (Peer.handleFileChunkMessage fw p message').exec s.server = (.ok none, t) ∧
      Good btoa { s with server := t, inbound := s.inbound.eraseIdx i } := by
  obtain ⟨f, id, data, rfl, hreply, hmeant⟩ :=
    h.faithful.reply p message (List.mem_of_getElem? hi) hcode
  have hreply' : IsReply btoa (s.server.files f) id data message' :=
    ⟨hcode'.trans hreply.1, hfiles.trans hreply.2⟩
  rw [h.handleFileChunkMessage_exec hdecode hmeant.1 hreply', File.provideFileChunk_exec]
  rcases hlookup : (s.server.files f).subscribers.lookup id with - | σ
  · exact ⟨s.server, rfl, h.chunk_ignored hi hmeant.1 hreply hlookup⟩
  · obtain ⟨-, subscriber, hσ, -, -⟩ := h.tables.lookup f id σ hlookup
    obtain ⟨hchunk, hgood⟩ := h.chunk_provided hi hreply hmeant hlookup hσ
    have hprovide : subscriber.provideFileChunk data = .ok { subscriber with chunk := some data } :=
      Subscriber.provideFileChunk_eq_ok.mpr ⟨hchunk, rfl⟩
    dsimp only
    rw [hσ]
    dsimp only
    rw [hprovide]
    exact ⟨_, rfl, hgood⟩

/-- The server handles every message of the pages, and without an error. -/
theorem readParsed (h : Good btoa s) (hdecode : ∀ data, fw.base64Decode (btoa data) = some data)
    {i : ℕ} {message : MessageDto} (hi : s.inbound[i]? = some (p, message)) :
    ∃ t, (Peer.readParsed fw config p message).exec s.server = (.ok none, t) ∧
      Good btoa { s with server := t, inbound := s.inbound.eraseIdx i } := by
  obtain ⟨hp, hhonest⟩ := h.hosted.sender p message (List.mem_of_getElem? hi)
  obtain ⟨message', s', hcode', hfiles', hquiet, hcatalogue, hexec⟩ :=
    readParsed_exec fw config p message s.server
  rw [hexec]
  have hgood : Good btoa { s with server := s' } := h.server hquiet hcatalogue
  rcases hhonest with hpost | hcode | ⟨hcode, files, hfiles, hoffers⟩
  · have hpost' : isPost message'.val = true := by
      rw [isPost, hcode']
      exact hpost
    have hreply : message.code ≠ some .codeFileChunkData := by
      intro hcode
      simp [isPost, hcode] at hpost
    obtain ⟨t, hexec, hquiet, hcatalogue⟩ :=
      handleMessage_post fw config p hpost' s'
    exact ⟨t, hexec, (hgood.arrived hi hreply).server hquiet hcatalogue⟩
  · obtain ⟨t, hexec, ht⟩ := hgood.provideFileChunk hdecode hi hcode hcode' hfiles'
    exact ⟨t, (Peer.exec_handleMessage_chunk fw config p (hcode'.trans hcode) s').trans hexec, ht⟩
  · have hreply : message.code ≠ some .codeFileChunkData := by
      rw [hcode]
      simp
    have hp' : s'.catalogue.Present p := by
      rw [hcatalogue]
      exact hp
    obtain ⟨t, hexec, ht⟩ := (hgood.arrived hi hreply).handleFilesMessage config hp'
      (hfiles'.trans hfiles) hoffers
    exact ⟨t, (Peer.exec_handleMessage_share fw config p (hcode'.trans hcode) s').trans hexec, ht⟩

theorem readMessage (h : Good btoa s) (hdecode : ∀ data, fw.base64Decode (btoa data) = some data)
    {i : ℕ} (hstep : s.readMessage fw config i = some t) : Good btoa t := by
  unfold State.readMessage at hstep
  split at hstep
  · cases hstep
  · next p message hi =>
    obtain ⟨server, hexec, hgood⟩ := h.readParsed hdecode hi
    rw [hexec] at hstep
    obtain rfl := Option.some.inj hstep
    exact hgood

/-! ### A page answers -/

/-- The answer to a request is the part of the file it asks for. -/
theorem onMessage_request (h : Good btoa s) {f : FileRef} (hf : f < s.server.fileCount)
    {id chunkPosition chunkSize : Int} {message : MessageDto}
    (hrequest : IsRequest (s.server.files f) id chunkPosition chunkSize message) :
    ∃ answer, (s.pages (s.server.files f).host).onMessage btoa message =
        ([answer], s.pages (s.server.files f).host) ∧
      IsReply btoa (s.server.files f) id (Blob.slice (s.content f) chunkPosition
        (min (chunkPosition + chunkSize) (s.content f).length)) answer := by
  obtain ⟨hholds, -⟩ := (h.hosted.page f hf).1
  simp only [Page.onMessage, hrequest.1, Page.sendFileChunks, hrequest.2, Option.getD_some,
    List.filterMap_cons, List.filterMap_nil, Option.bind_some, Page.sendFileChunk, hholds,
    Option.bind_eq_bind]
  exact ⟨_, rfl, rfl, rfl⟩

/-- A message that is no request has been read. -/
theorem onMessage_other (h : Good btoa s) {i : ℕ} {message : Object MessageDto}
    (hi : (s.server.outbox p)[i]? = some message)
    (hcode : message.val.code ≠ some .codeFileRequestChunk) :
    ((s.pages p).onMessage btoa message.val).1 = [] ∧
      Good btoa { s with
        server := { s.server with
          outbox := Function.update s.server.outbox p ((s.server.outbox p).eraseIdx i) }
        pages := Function.update s.pages p ((s.pages p).onMessage btoa message.val).2 } := by
  have hpages : ∀ q clientFileId content, (s.pages q).Holds clientFileId content →
      (Function.update s.pages p ((s.pages p).onMessage btoa message.val).2 q).Holds
        clientFileId content := by
    intro q clientFileId content hholds
    rcases eq_or_ne q p with rfl | hne
    · rw [Function.update_self]
      exact hholds.onMessage btoa message.val
    · rwa [Function.update_of_ne hne]
  refine ⟨?_, h.quiet ⟨rfl, rfl, rfl, rfl, rfl, fun q => ?_⟩ h.hosted.complete
    (fun f _ => hpages _) ?_ rfl rfl⟩
  · unfold Page.onMessage
    split
    · rfl
    · next hrequest => exact absurd hrequest hcode
    · rfl
  · rcases eq_or_ne q p with rfl | hne
    · show List.filter isRequest (Function.update s.server.outbox q _ q) = _
      rw [Function.update_self]
      exact filter_eraseIdx hi (by simp [isRequest, hcode])
    · show List.filter isRequest (Function.update s.server.outbox p _ q) = _
      rw [Function.update_of_ne hne]
  · intro q message' hmem
    obtain ⟨hq, hhonest⟩ := h.hosted.sender q message' hmem
    exact ⟨hq, hhonest.mono (hpages q)⟩

/-- A request has become a reply. -/
theorem answered (h : Good btoa s) {i : ℕ} {f : FileRef} {id chunkPosition chunkSize : Int}
    {message : Object MessageDto} {answer : MessageDto}
    (hi : (s.server.outbox (s.server.files f).host)[i]? = some message)
    (hrequest : IsRequest (s.server.files f) id chunkPosition chunkSize message.val)
    (hmeant : Meant s f id fun σ subscriber => chunkPosition = subscriber.progress ∧
      (s.downloads σ).reader = .waiting chunkSize)
    (hanswer : IsReply btoa (s.server.files f) id (Blob.slice (s.content f) chunkPosition
      (min (chunkPosition + chunkSize) (s.content f).length)) answer) :
    Good btoa { s with
      server := { s.server with
        outbox := Function.update s.server.outbox (s.server.files f).host
          ((s.server.outbox (s.server.files f).host).eraseIdx i) }
      inbound := s.inbound ++ [((s.server.files f).host, answer)] } := by
  obtain ⟨hf, hid, hP⟩ := hmeant
  let t : State := { s with
    server := { s.server with
      outbox := Function.update s.server.outbox (s.server.files f).host
        ((s.server.outbox (s.server.files f).host).eraseIdx i) }
    inbound := s.inbound ++ [((s.server.files f).host, answer)] }
  show Good btoa t
  have houtbox : ∀ p, ∀ message ∈ t.server.outbox p, message ∈ s.server.outbox p := by
    intro p message hmem
    rcases eq_or_ne p (s.server.files f).host with rfl | hne
    · simp only [t, Function.update_self] at hmem
      exact List.mem_of_mem_eraseIdx hmem
    · simp only [t, Function.update_of_ne hne] at hmem
      exact hmem
  -- one request for this subscriber has gone, and one reply for it is under way
  have hrequests : ∀ g < s.server.fileCount, ∀ id', s.requests g id' = t.requests g id' +
      if f = g ∧ id = id' then 1 else 0 := by
    intro g hg id'
    unfold State.requests
    rcases eq_or_ne (s.server.files f).host (s.server.files g).host with hhost | hne
    · simp only [t, ← hhost, Function.update_self]
      rw [countP_eraseIdx hi]
      congr 1
      -- whether a message concerns a subscriber is decided by its two ids
      exact if_congr (h.concerns_request hf hg hhost hrequest) rfl rfl
    · have hother : ¬ (f = g ∧ id = id') := by
        rintro ⟨rfl, -⟩
        exact hne rfl
      simp only [t, Function.update_of_ne hne.symm, if_neg hother, Nat.add_zero]
  have hreplies : ∀ g < s.server.fileCount, ∀ id', t.replies g id' = s.replies g id' +
      if f = g ∧ id = id' then 1 else 0 := by
    intro g hg id'
    show (s.inbound ++ [((s.server.files f).host, answer)]).countP _ = _
    rw [List.countP_append, List.countP_singleton]
    congr 1
    exact if_congr (h.concerns_reply hf hg hanswer) rfl rfl
  refine ⟨⟨h.hosted.complete, h.hosted.page, fun q message' hmem => ?_⟩,
    ⟨h.tables.subscriber, h.tables.lookup⟩, ⟨h.faithful.download, fun σ subscriber hσ => ?_,
      fun q message' hmem => ?_, fun q message' hmem hcode => ?_, h.faithful.served⟩⟩
  · rcases List.mem_append.mp hmem with hmem | hmem
    · exact h.hosted.sender q message' hmem
    · obtain ⟨rfl, rfl⟩ := Prod.mk.inj (List.mem_singleton.mp hmem)
      exact ⟨(h.hosted.complete.host f hf).1, .inr (.inl hanswer.1)⟩
  · obtain ⟨hfile, hprogress, hsettled⟩ := h.faithful.reader σ subscriber hσ
    refine ⟨hfile, hprogress, (settled_congr (s := s) (t := t) ?_ rfl _).mpr hsettled⟩
    have hsub := (h.tables.subscriber σ subscriber hσ).2.1
    have hrequest := hrequests _ hsub subscriber.id
    have hreply := hreplies _ hsub subscriber.id
    -- the unanswered messages are requests and replies together, so their number stays
    unfold State.unanswered
    omega
  · exact h.faithful.request q message' (houtbox q message' hmem)
  -- a reply was under way before, or is the one sent now
  · rcases List.mem_append.mp hmem with hmem | hmem
    · exact h.faithful.reply q message' hmem hcode
    · obtain ⟨rfl, rfl⟩ := Prod.mk.inj (List.mem_singleton.mp hmem)
      refine ⟨f, id, _, rfl, hanswer, hf, hid, fun σ subscriber hσ hsub => ?_⟩
      obtain ⟨rfl, hreader⟩ := hP σ subscriber hσ hsub
      obtain ⟨-, sub, hsub', rfl, -⟩ := h.tables.lookup f id σ hσ
      obtain rfl : subscriber = sub := Option.some.inj (hsub.symm.trans hsub')
      exact ⟨chunkSize, hreader, rfl⟩

theorem onMessage (h : Good btoa s) {i : ℕ} (hstep : s.onMessage btoa p i = some t) :
    Good btoa t := by
  unfold State.onMessage at hstep
  split at hstep
  · cases hstep
  · next message hi =>
    by_cases hcode : message.val.code = some .codeFileRequestChunk
    · obtain ⟨f, id, chunkPosition, chunkSize, rfl, hrequest, hmeant⟩ :=
        h.faithful.request p message (List.mem_of_getElem? hi) hcode
      obtain ⟨answer, hanswers, hanswer⟩ := h.onMessage_request hmeant.1 hrequest
      rw [hanswers] at hstep
      dsimp only at hstep
      rw [Function.update_eq_self] at hstep
      obtain rfl := Option.some.inj hstep
      exact h.answered hi hrequest hmeant hanswer
    · obtain ⟨hnone, hgood⟩ := h.onMessage_other hi hcode
      generalize (s.pages p).onMessage btoa message.val = answered at hstep hnone hgood
      obtain ⟨answers, page⟩ := answered
      obtain rfl : answers = [] := hnone
      dsimp only at hstep
      rw [List.map_nil, List.append_nil] at hstep
      obtain rfl := Option.some.inj hstep
      exact hgood

/-! ### A download starts, and ends -/

/-- Ids are never used twice, so nothing in transit is about a new subscriber. -/
theorem unanswered_new (h : Good btoa s) {f : FileRef} (hf : f < s.server.fileCount) :
    s.requests f (s.server.files f).subscriberIdCounter = 0 ∧
      s.replies f (s.server.files f).subscriberIdCounter = 0 := by
  refine ⟨List.countP_eq_zero.mpr fun message hmem hconcerns => ?_,
    List.countP_eq_zero.mpr ?_⟩
  · obtain ⟨g, id, _, _, hhost, hrequest, hg, hid, -⟩ :=
      h.faithful.request _ message hmem (concerns_code hconcerns)
    obtain ⟨rfl, rfl⟩ := (h.concerns_request hg hf hhost hrequest).mp hconcerns
    exact absurd hid (lt_irrefl _)
  · rintro ⟨p, message⟩ hmem hconcerns
    obtain ⟨g, id, data, rfl, hreply, hg, hid, -⟩ :=
      h.faithful.reply p message hmem (concerns_code (Bool.and_eq_true_iff.mp hconcerns).2)
    obtain ⟨rfl, rfl⟩ := (h.concerns_reply hg hf hreply).mp hconcerns
    exact absurd hid (lt_irrefl _)

section Subscribed

variable {f : FileRef}

theorem subscribed_catalogue : (s.subscribed f).server.catalogue = s.server.catalogue :=
  catalogue_subscribe s.server f

theorem subscribed_content : ∀ g, (s.subscribed f).content g = s.content g :=
  content_of_catalogue (t := s.subscribed f) subscribed_catalogue rfl

theorem subscribed_download {τ : SubscriberRef} (hne : τ ≠ s.server.subscriberCount) :
    (s.subscribed f).downloads τ = s.downloads τ := Function.update_of_ne hne _ _

/-- The messages in transit are about the subscribers of before. -/
theorem meant_subscribed (h : Good btoa s) {g : FileRef} {id : Int}
    {P Q : SubscriberRef → Subscriber → Prop} (hmeant : Meant s g id P)
    (hPQ : ∀ τ sub, τ ≠ s.server.subscriberCount → P τ sub → Q τ sub) :
    Meant (s.subscribed f) g id Q := by
  refine hmeant.imp le_rfl (subscriberIdCounter_le_subscribe s.server f g)
    fun τ sub hid hτ hsub => ?_
  have hτ : (s.server.files g).subscribers.lookup id = some τ := by
    rw [← lookup_subscribe_of_lt (f := f) hid]
    exact hτ
  obtain ⟨-, sub', hsub', -, -⟩ := h.tables.lookup g id τ hτ
  have hne := h.tables.ne_of_listed hsub'
  have hsub : s.server.subscribers τ = some sub := by
    rw [← hsub]
    exact (Function.update_of_ne hne _ _).symm
  exact ⟨sub, hτ, hsub, hPQ τ sub hne⟩

/-- The new reader waits for nothing, the others for what they did. -/
theorem reader_subscribed (h : Good btoa s) (hf : f < s.server.fileCount) {τ : SubscriberRef}
    {sub : Subscriber} (hτ : (s.subscribed f).server.subscribers τ = some sub) :
    ((s.subscribed f).downloads τ).file = sub.file ∧
      sub.progress = ((s.subscribed f).downloads τ).delivered.length ∧
        Settled (s.subscribed f) sub ((s.subscribed f).downloads τ).reader := by
  have hcatalogue := subscribed_catalogue (s := s) (f := f)
  have hτ : Function.update s.server.subscribers s.server.subscriberCount
      (some { id := (s.server.files f).subscriberIdCounter, file := f }) τ = some sub := hτ
  rcases eq_or_ne τ s.server.subscriberCount with rfl | hne
  · rw [Function.update_self] at hτ
    obtain rfl := Option.some.inj hτ
    have hdownload : (s.subscribed f).downloads s.server.subscriberCount = { file := f } :=
      Function.update_self _ _ _
    rw [hdownload]
    obtain ⟨hrequests, hreplies⟩ := h.unanswered_new hf
    refine ⟨rfl, rfl, rfl, ?_⟩
    show (s.subscribed f).requests f _ + (s.subscribed f).replies f _ = 0
    rw [requests_of_catalogue hcatalogue rfl, replies_of_catalogue hcatalogue rfl, hrequests,
      hreplies]
  · rw [Function.update_of_ne hne] at hτ
    rw [subscribed_download hne]
    obtain ⟨hsubfile, hprogress, hsettled⟩ := h.faithful.reader τ sub hτ
    refine ⟨hsubfile, hprogress, (settled_congr ?_ (subscribed_content _) _).mpr hsettled⟩
    unfold State.unanswered
    rw [requests_of_catalogue hcatalogue rfl, replies_of_catalogue hcatalogue rfl]

theorem subscribe (h : Good btoa s) (hf : f < s.server.fileCount) : Good btoa (s.subscribed f) := by
  have hcatalogue := subscribed_catalogue (s := s) (f := f)
  refine ⟨⟨?_, fun g hg => ?_, ?_⟩, h.tables.subscribe hf, ⟨fun τ hτ => ?_,
    fun τ sub hτ => h.reader_subscribed hf hτ, fun p message hmem hcode => ?_,
      fun p message hmem hcode => ?_, ?_⟩⟩
  · rw [hcatalogue]
    exact h.hosted.complete
  · obtain ⟨hhost, hclient, -, hsize⟩ :=
      file_of_catalogue (s := s) (t := s.subscribed f) hcatalogue g
    rw [subscribed_content, hhost, hclient, hsize]
    exact h.hosted.page g hg
  · rw [hcatalogue]
    exact h.hosted.sender
  · rcases Nat.lt_succ_iff_lt_or_eq.mp hτ with hτ | rfl
    · rw [subscribed_download hτ.ne, subscribed_content]
      exact h.faithful.download τ hτ
    · rw [show (s.subscribed f).downloads s.server.subscriberCount = { file := f } from
        Function.update_self _ _ _]
      exact ⟨hf, List.nil_prefix⟩
  · obtain ⟨g, id, chunkPosition, chunkSize, hhost, hrequest, hm⟩ :=
      h.faithful.request p message hmem hcode
    refine ⟨g, id, chunkPosition, chunkSize, ?_, isRequest_of_catalogue hcatalogue hrequest,
      h.meant_subscribed hm fun τ sub hne hP => ?_⟩
    · rw [(file_of_catalogue hcatalogue g).1]
      exact hhost
    · rw [subscribed_download hne]
      exact hP
  · obtain ⟨g, id, data, hhost, hreply, hm⟩ := h.faithful.reply p message hmem hcode
    refine ⟨g, id, data, ?_, isReply_of_catalogue hcatalogue hreply,
      h.meant_subscribed hm fun τ sub hne hP => ?_⟩
    · rw [(file_of_catalogue hcatalogue g).1]
      exact hhost
    · simp only [subscribed_download hne, State.expected, subscribed_content]
      exact hP
  · show s.server.statistics.fileServedBytes =
      ∑ τ ∈ Finset.range (s.server.subscriberCount + 1),
        ((s.subscribed f).downloads τ).delivered.length
    rw [Finset.sum_range_succ, h.faithful.served]
    have hnew : ((s.subscribed f).downloads s.server.subscriberCount).delivered.length = 0 := by
      simp [State.subscribed, File.subscribe]
    rw [hnew, Nat.add_zero]
    apply Finset.sum_congr rfl
    intro τ hτ
    rw [subscribed_download (Finset.mem_range.mp hτ).ne]

end Subscribed

theorem getFile (h : Good btoa s) {roomId : String} {fileId : Int}
    (hstep : s.getFile roomId fileId = some t) : Good btoa t := by
  unfold State.getFile at hstep
  obtain ⟨ρ, -, hstep⟩ := Option.bind_eq_some_iff.mp hstep
  obtain ⟨f, hf, hstep⟩ := Option.bind_eq_some_iff.mp hstep
  obtain rfl := Option.some.inj hstep
  exact h.subscribe (h.hosted.complete.file ρ fileId f hf).1

/-- The response is dropped, whatever its reader is doing. -/
theorem drop (h : Good btoa s) {σ : SubscriberRef} {subscriber : Subscriber}
    (hσ : s.server.subscribers σ = some subscriber) :
    Good btoa { s with server := Subscriber.destroy σ s.server } := by
  let t : State := { s with server := Subscriber.destroy σ s.server }
  show Good btoa t
  have hcatalogue : t.server.catalogue = s.server.catalogue := catalogue_destroy s.server σ
  have hcontent := content_of_catalogue (s := s) (t := t) hcatalogue rfl
  -- the step erases one table entry and frees the subscriber
  have hserver : t.server = { s.server with
      files := Function.update s.server.files subscriber.file
        { s.server.files subscriber.file with
          subscribers := (s.server.files subscriber.file).subscribers.erase subscriber.id }
      subscribers := Function.update s.server.subscribers σ none } := by
    simp only [t, Subscriber.destroy, hσ]
    rfl
  have hsubscribers : ∀ τ sub, t.server.subscribers τ = some sub →
      τ ≠ σ ∧ s.server.subscribers τ = some sub := by
    intro τ sub hτ
    rw [hserver] at hτ
    rcases eq_or_ne τ σ with rfl | hne
    · simp at hτ
    · exact ⟨hne, by simpa [Function.update_of_ne hne] using hτ⟩
  have hcounter : ∀ g, (t.server.files g).subscriberIdCounter =
      (s.server.files g).subscriberIdCounter := by
    intro g
    rw [hserver]
    rcases eq_or_ne g subscriber.file with rfl | hne
    · simp
    · simp [hne]
  -- an entry is left iff it does not lead to `σ`
  have hlookup : ∀ g id τ, (t.server.files g).subscribers.lookup id = some τ ↔
      τ ≠ σ ∧ (s.server.files g).subscribers.lookup id = some τ := by
    intro g id τ
    have hlisted := h.lookup_eq hσ
    rw [hserver]
    rcases eq_or_ne g subscriber.file with rfl | hne
    · simp only [Function.update_self]
      rw [UnorderedMap.lookup_erase_eq_some]
      refine and_congr_left fun hτ => ⟨fun hid => ?_, fun hne => ?_⟩
      -- the entry of `σ` has the id that was erased
      · rintro rfl
        obtain ⟨-, sub, hsub, -, rfl⟩ := h.tables.lookup _ _ _ hτ
        obtain rfl : subscriber = sub := Option.some.inj (hσ.symm.trans hsub)
        exact hid rfl
      · rintro rfl
        rw [hlisted] at hτ
        exact hne (Option.some.inj hτ).symm
    · simp only [Function.update_of_ne hne]
      refine ⟨fun hτ => ⟨?_, hτ⟩, fun hτ => hτ.2⟩
      -- an entry for `σ` is in the table of its own file
      rintro rfl
      obtain ⟨-, sub, hsub, rfl, -⟩ := h.tables.lookup _ _ _ hτ
      obtain rfl : subscriber = sub := Option.some.inj (hσ.symm.trans hsub)
      exact hne rfl
  -- what was meant for a subscriber still is, if it has not been freed
  have hmeant : ∀ {g id} {P : SubscriberRef → Subscriber → Prop}, Meant s g id P →
      Meant t g id P := by
    intro g id P hmeant
    refine hmeant.imp (by rw [hserver]) (hcounter g).ge fun τ sub _ hτ hsub => ?_
    exact ⟨sub, ((hlookup g id τ).mp hτ).2, (hsubscribers τ sub hsub).2, fun hP => hP⟩
  have hcount : t.server.subscriberCount = s.server.subscriberCount ∧
      t.server.fileCount = s.server.fileCount ∧ t.server.outbox = s.server.outbox := by
    rw [hserver]
    exact ⟨rfl, rfl, rfl⟩
  refine ⟨⟨?_, fun g hg => ?_, ?_⟩, ⟨fun τ sub hτ => ?_, fun g id τ hτ => ?_⟩,
    ⟨fun τ hτ => ?_, fun τ sub hτ => ?_, fun p message hmem hcode => ?_,
      fun p message hmem hcode => ?_, ?_⟩⟩
  · rw [hcatalogue]
    exact h.hosted.complete
  · obtain ⟨hhost, hclient, -, hsize⟩ := file_of_catalogue (s := s) (t := t) hcatalogue g
    rw [hcount.2.1] at hg
    rw [hcontent, hhost, hclient, hsize]
    exact h.hosted.page g hg
  · rw [hcatalogue]
    exact h.hosted.sender
  · obtain ⟨hne, hτ⟩ := hsubscribers τ sub hτ
    obtain ⟨hlt, hfile, hvalid, hlisted⟩ := h.tables.subscriber τ sub hτ
    rw [hcount.1, hcount.2.1]
    exact ⟨hlt, hfile, hvalid, (hlookup _ _ τ).mpr ⟨hne, hlisted⟩⟩
  · obtain ⟨hne, hτ⟩ := (hlookup g id τ).mp hτ
    obtain ⟨hid, sub, hsub, hrest⟩ := h.tables.lookup g id τ hτ
    refine ⟨by rwa [hcounter], sub, ?_, hrest⟩
    rw [hserver]
    simpa [Function.update_of_ne hne] using hsub
  · rw [hcount.1] at hτ
    rw [hcontent, hcount.2.1]
    exact h.faithful.download τ hτ
  · obtain ⟨hfile, hprogress, hsettled⟩ := h.faithful.reader τ sub (hsubscribers τ sub hτ).2
    refine ⟨hfile, hprogress, (settled_congr ?_ (hcontent _) _).mpr hsettled⟩
    unfold State.unanswered
    rw [requests_of_catalogue hcatalogue hcount.2.2, replies_of_catalogue hcatalogue rfl]
  · rw [hcount.2.2] at hmem
    obtain ⟨g, id, chunkPosition, chunkSize, hhost, hrequest, hm⟩ :=
      h.faithful.request p message hmem hcode
    refine ⟨g, id, chunkPosition, chunkSize, ?_, isRequest_of_catalogue hcatalogue hrequest,
      hmeant hm⟩
    rw [(file_of_catalogue hcatalogue g).1]
    exact hhost
  · obtain ⟨g, id, data, hhost, hreply, hm⟩ := h.faithful.reply p message hmem hcode
    refine ⟨g, id, data, ?_, isReply_of_catalogue hcatalogue hreply, ?_⟩
    · rw [(file_of_catalogue hcatalogue g).1]
      exact hhost
    · simp only [State.expected, hcontent]
      exact hmeant hm
  · rw [hcount.1, hserver]
    exact h.faithful.served

/-! ### A read -/

/-- A message in transit about a subscriber is counted. -/
theorem unanswered_pos_of_request (h : Good btoa s) {f : FileRef} {id : Int}
    {chunkPosition chunkSize : Int} {message : Object MessageDto}
    (hmem : message ∈ s.server.outbox (s.server.files f).host) (hf : f < s.server.fileCount)
    (hrequest : IsRequest (s.server.files f) id chunkPosition chunkSize message.val) :
    0 < s.requests f id :=
  List.countP_pos_iff.mpr
    ⟨message, hmem, (h.concerns_request hf hf rfl hrequest).mpr ⟨rfl, rfl⟩⟩

theorem unanswered_pos_of_reply (h : Good btoa s) {f : FileRef} {id : Int} {data : Bytes}
    {message : MessageDto} (hmem : ((s.server.files f).host, message) ∈ s.inbound)
    (hf : f < s.server.fileCount) (hreply : IsReply btoa (s.server.files f) id data message) :
    0 < s.replies f id :=
  List.countP_pos_iff.mpr ⟨_, hmem, (h.concerns_reply hf hf hreply).mpr ⟨rfl, rfl⟩⟩

/-- The reader asks for a chunk. -/
theorem request_sent (h : Good btoa s) {σ : SubscriberRef} {subscriber : Subscriber} {count : Int}
    (hσ : s.server.subscribers σ = some subscriber) (hcount : 0 < count)
    (hidle : (s.downloads σ).reader = .idle)
    (hlt : subscriber.progress < (s.content subscriber.file).length) :
    Good btoa { s with
      server := subscriber.requestChunk count s.server
      downloads := Function.update s.downloads σ
        { s.downloads σ with reader := .waiting count } } := by
  obtain ⟨hlisted, hf, hvalid, hlookup⟩ := h.tables.subscriber σ subscriber hσ
  let host := (s.server.files subscriber.file).host
  let message : Object MessageDto := ⟨s.server.objectCount, subscriber.requestChunkMessage
    (s.server.files subscriber.file).clientFileId
    (s.server.files subscriber.file).serverFileId count⟩
  have hsocket : (s.server.peers host).socket.isSome :=
    (h.hosted.complete.member _ _ host (h.hosted.complete.host _ hf).1).2.2.2
  rw [Subscriber.requestChunk_eq hvalid count hsocket]
  let t : State := { s with
    server := { s.server with
      objectCount := s.server.objectCount + 1
      outbox := Function.update s.server.outbox host (s.server.outbox host ++ [message]) }
    downloads := Function.update s.downloads σ { s.downloads σ with reader := .waiting count } }
  show Good btoa t
  have hrequest : IsRequest (s.server.files subscriber.file) subscriber.id subscriber.progress
      count message.val := ⟨rfl, rfl⟩
  obtain ⟨hfile, hprogress, hsettled⟩ := h.faithful.reader σ subscriber hσ
  rw [hidle] at hsettled
  have hdownload : ∀ τ, (t.downloads τ).file = (s.downloads τ).file ∧
      (t.downloads τ).delivered = (s.downloads τ).delivered := by
    intro τ
    rcases eq_or_ne τ σ with rfl | hne
    · simp [t]
    · simp [t, hne]
  have hrequests : ∀ g < s.server.fileCount, ∀ id, t.requests g id = s.requests g id +
      if subscriber.file = g ∧ subscriber.id = id then 1 else 0 := by
    intro g hg id
    unfold State.requests
    rcases eq_or_ne host (s.server.files g).host with hhost | hne
    · simp only [t, ← hhost, Function.update_self]
      rw [List.countP_append, List.countP_singleton]
      congr 1
      exact if_congr (h.concerns_request hf hg hhost hrequest) rfl rfl
    · have hother : ¬ (subscriber.file = g ∧ subscriber.id = id) := by
        rintro ⟨rfl, -⟩
        exact hne rfl
      simp only [t, Function.update_of_ne hne.symm, if_neg hother, Nat.add_zero]
  -- nothing in transit was about this subscriber
  have hmeant : ∀ {g id} {P Q : SubscriberRef → Subscriber → Prop}, Meant s g id P →
      (∀ sub, ¬ P σ sub) → (∀ τ sub, τ ≠ σ → P τ sub → Q τ sub) → Meant t g id Q := by
    intro g id P Q hmeant hself hother
    refine hmeant.imp le_rfl le_rfl fun τ sub _ hτ hsub => ⟨sub, hτ, hsub, fun hP => ?_⟩
    rcases eq_or_ne τ σ with rfl | hne
    · exact absurd hP (hself sub)
    · exact hother τ sub hne hP
  refine ⟨⟨h.hosted.complete, h.hosted.page, h.hosted.sender⟩,
    ⟨h.tables.subscriber, h.tables.lookup⟩, ⟨fun τ hτ => ?_, fun τ sub hτ => ?_,
      fun p message' hmem hcode => ?_, fun p message' hmem hcode => ?_, ?_⟩⟩
  · rw [(hdownload τ).1, (hdownload τ).2]
    exact h.faithful.download τ hτ
  · rcases eq_or_ne τ σ with rfl | hne
    · obtain rfl : subscriber = sub := Option.some.inj (hσ.symm.trans hτ)
      refine ⟨(hdownload τ).1.trans hfile, by rw [(hdownload τ).2]; exact hprogress, ?_⟩
      simp only [t, Function.update_self]
      refine ⟨hcount, hlt, .inl ⟨hsettled.1, ?_⟩⟩
      have hone := hrequests _ hf subscriber.id
      rw [if_pos ⟨rfl, rfl⟩] at hone
      have hreplies : t.replies subscriber.file subscriber.id =
          s.replies subscriber.file subscriber.id := rfl
      have hzero := hsettled.2
      show t.requests subscriber.file subscriber.id + t.replies subscriber.file subscriber.id = 1
      unfold State.unanswered at hzero
      omega
    · obtain ⟨hfile', hprogress', hsettled'⟩ := h.faithful.reader τ sub hτ
      refine ⟨(hdownload τ).1.trans hfile', by rw [(hdownload τ).2]; exact hprogress', ?_⟩
      simp only [t, Function.update_of_ne hne]
      refine (settled_congr (s := s) (t := t) ?_ rfl _).mpr hsettled'
      have hother : ¬ (subscriber.file = sub.file ∧ subscriber.id = sub.id) := by
        rintro ⟨hfile, hid⟩
        rw [hfile, hid, h.lookup_eq hτ] at hlookup
        exact hne (Option.some.inj hlookup)
      have hsame := hrequests _ (h.tables.subscriber τ sub hτ).2.1 sub.id
      rw [if_neg hother] at hsame
      exact congrArg (· + s.replies sub.file sub.id) hsame
  · have hold : message' ∈ s.server.outbox p ∨ p = host ∧ message' = message := by
      rcases eq_or_ne p host with rfl | hne
      · simp only [t, Function.update_self] at hmem
        exact (List.mem_append.mp hmem).imp_right fun hmem => ⟨rfl, List.mem_singleton.mp hmem⟩
      · simp only [t, Function.update_of_ne hne] at hmem
        exact .inl hmem
    rcases hold with hmem | ⟨rfl, rfl⟩
    · obtain ⟨g, id, chunkPosition, chunkSize, hhost, hrequest, hm⟩ :=
        h.faithful.request p message' hmem hcode
      refine ⟨g, id, chunkPosition, chunkSize, hhost, hrequest, hmeant hm ?_ ?_⟩
      · rintro sub ⟨-, hreader⟩
        rw [hidle] at hreader
        cases hreader
      · rintro τ sub hne hP
        simp only [t, Function.update_of_ne hne]
        exact hP
    · refine ⟨_, _, _, _, rfl, hrequest, hf, (h.tables.lookup _ _ _ hlookup).1,
        fun τ sub hτ hsub => ?_⟩
      obtain rfl : σ = τ := Option.some.inj (hlookup.symm.trans hτ)
      obtain rfl : subscriber = sub := Option.some.inj (hσ.symm.trans hsub)
      simp [t]
  · obtain ⟨g, id, data, hhost, hreply, hm⟩ := h.faithful.reply p message' hmem hcode
    refine ⟨g, id, data, hhost, hreply, hmeant hm ?_ ?_⟩
    · rintro sub ⟨_, hreader, -⟩
      rw [hidle] at hreader
      cases hreader
    · rintro τ sub hne hP
      simp only [t, Function.update_of_ne hne]
      exact hP
  · rw [show t.server.statistics = s.server.statistics from rfl, h.faithful.served]
    apply Finset.sum_congr rfl
    intro τ _
    rw [(hdownload τ).2]

/-- What is expected comes next, is not empty, and fits. -/
theorem expected_next {subscriber : Subscriber} {count : Int} {delivered : Bytes}
    (hbytes : delivered <+: s.content subscriber.file)
    (hprogress : subscriber.progress = delivered.length) (hcount : 0 < count)
    (hlt : subscriber.progress < (s.content subscriber.file).length) :
    s.expected subscriber count ≠ [] ∧ ((s.expected subscriber count).length : Int) ≤ count ∧
      delivered ++ s.expected subscriber count <+: s.content subscriber.file := by
  unfold State.expected
  generalize s.content subscriber.file = content at hbytes hlt
  rw [hprogress] at hlt ⊢
  obtain ⟨stop, hstop⟩ : ∃ stop : ℕ, min ((delivered.length : Int) + count) content.length = stop :=
    ⟨(min ((delivered.length : Int) + count) content.length).toNat, by omega⟩
  have hle : delivered.length ≤ stop := by omega
  have hstop' : stop ≤ content.length := by omega
  rw [hstop]
  have hlength := Blob.length_slice hle hstop'
  refine ⟨?_, ?_, ?_⟩
  · intro hnil
    rw [hnil, List.length_nil] at hlength
    omega
  · rw [hlength]
    omega
  · rw [List.prefix_iff_eq_take.mp hbytes, List.length_take, min_eq_left (by omega),
      Blob.take_append_slice hle hstop']
    exact List.take_prefix _ _

/-- The reader takes the chunk it was waiting for. -/
theorem chunk_taken (h : Good btoa s) {σ : SubscriberRef} {subscriber : Subscriber} {count : Int}
    (hσ : s.server.subscribers σ = some subscriber)
    (hreader : (s.downloads σ).reader = .waiting count)
    (hunanswered : s.unanswered subscriber = 0) :
    Good btoa { s with
      server := (s.server.modifySubscriber σ fun _ => { subscriber with
          progress := subscriber.progress + (s.expected subscriber count).length
          chunk := none }).modifyStatistics fun st =>
        { st with fileServedBytes := st.fileServedBytes + (s.expected subscriber count).length }
      downloads := Function.update s.downloads σ
        { s.downloads σ with
          reader := .idle
          delivered := (s.downloads σ).delivered ++ s.expected subscriber count } } := by
  obtain ⟨hlisted, hf, -, hlookup⟩ := h.tables.subscriber σ subscriber hσ
  obtain ⟨hfile, hprogress, hsettled⟩ := h.faithful.reader σ subscriber hσ
  obtain ⟨-, hbytes⟩ := h.faithful.download σ hlisted
  rw [hreader] at hsettled
  rw [hfile] at hbytes
  obtain ⟨-, -, hnext⟩ := expected_next hbytes hprogress hsettled.1 hsettled.2.1
  generalize s.expected subscriber count = data at hnext ⊢
  let taken : Subscriber := { subscriber with
    progress := subscriber.progress + data.length
    chunk := none }
  let t : State := { s with
    server := (s.server.modifySubscriber σ fun _ => taken).modifyStatistics fun st =>
      { st with fileServedBytes := st.fileServedBytes + data.length }
    downloads := Function.update s.downloads σ
      { s.downloads σ with
        reader := .idle
        delivered := (s.downloads σ).delivered ++ data } }
  show Good btoa t
  have hsubscribers : ∀ τ sub, t.server.subscribers τ = some sub →
      τ = σ ∧ sub = taken ∨ τ ≠ σ ∧ s.server.subscribers τ = some sub := by
    intro τ sub hτ
    rcases eq_or_ne τ σ with rfl | hne
    · simp only [t, Server.modifyStatistics_subscribers, Server.modifySubscriber_subscribers, hσ,
        Option.map_some, Function.update_self] at hτ
      exact .inl ⟨rfl, (Option.some.inj hτ).symm⟩
    · simp only [t, Server.modifyStatistics_subscribers, Server.modifySubscriber_subscribers,
        Function.update_of_ne hne] at hτ
      exact .inr ⟨hne, hτ⟩
  -- nothing in transit is about this subscriber
  have hmeant : ∀ {g id} {P Q : SubscriberRef → Subscriber → Prop}, Meant s g id P →
      (g = subscriber.file → id = subscriber.id → False) →
      (∀ τ sub, τ ≠ σ → P τ sub → Q τ sub) → Meant t g id Q := by
    intro g id P Q hmeant hself hother
    refine hmeant.imp le_rfl le_rfl fun τ sub _ hτ hsub => ?_
    rcases hsubscribers τ sub hsub with ⟨rfl, -⟩ | ⟨hne, hsub⟩
    · obtain ⟨-, sub', hsub', rfl, rfl⟩ := h.tables.lookup g id τ hτ
      obtain rfl : subscriber = sub' := Option.some.inj (hσ.symm.trans hsub')
      exact absurd rfl fun heq => hself heq rfl
    · exact ⟨sub, hτ, hsub, hother τ sub hne⟩
  have htables : Tables (s.server.modifySubscriber σ fun _ => taken) :=
    h.tables.modifySubscriber hσ rfl rfl rfl
  refine ⟨⟨h.hosted.complete, h.hosted.page, h.hosted.sender⟩,
    ⟨htables.subscriber, htables.lookup⟩, ⟨fun τ hτ => ?_, fun τ sub hτ => ?_,
      fun p message hmem hcode => ?_, fun p message hmem hcode => ?_, ?_⟩⟩
  · rcases eq_or_ne τ σ with rfl | hne
    · simp only [t, Function.update_self]
      rw [hfile]
      exact ⟨hf, hnext⟩
    · simp only [t, Function.update_of_ne hne]
      exact h.faithful.download τ hτ
  · rcases hsubscribers τ sub hτ with ⟨rfl, rfl⟩ | ⟨hne, hτ⟩
    · simp only [t, Function.update_self]
      refine ⟨hfile, ?_, rfl, hunanswered⟩
      simp only [taken, hprogress, List.length_append]
      omega
    · simp only [t, Function.update_of_ne hne]
      obtain ⟨hfile', hprogress', hsettled'⟩ := h.faithful.reader τ sub hτ
      exact ⟨hfile', hprogress', (settled_congr (s := s) (t := t) rfl rfl _).mpr hsettled'⟩
  · obtain ⟨g, id, chunkPosition, chunkSize, rfl, hrequest, hm⟩ :=
      h.faithful.request p message hmem hcode
    refine ⟨g, id, chunkPosition, chunkSize, rfl, hrequest, hmeant hm ?_ ?_⟩
    · rintro rfl rfl
      have hpos := h.unanswered_pos_of_request hmem hf hrequest
      unfold State.unanswered at hunanswered
      omega
    · rintro τ sub hne hP
      simp only [t, Function.update_of_ne hne]
      exact hP
  · obtain ⟨g, id, data, rfl, hreply, hm⟩ := h.faithful.reply p message hmem hcode
    refine ⟨g, id, data, rfl, hreply, hmeant hm ?_ ?_⟩
    · rintro rfl rfl
      have hpos := h.unanswered_pos_of_reply hmem hf hreply
      unfold State.unanswered at hunanswered
      omega
    · rintro τ sub hne hP
      simp only [t, Function.update_of_ne hne]
      exact hP
  · show s.server.statistics.fileServedBytes + data.length =
      ∑ τ ∈ Finset.range s.server.subscriberCount, (t.downloads τ).delivered.length
    have hmem := Finset.mem_range.mpr hlisted
    rw [h.faithful.served, ← Finset.add_sum_erase _ _ hmem, ← Finset.add_sum_erase _ _ hmem]
    have hother : ∀ τ ∈ (Finset.range s.server.subscriberCount).erase σ,
        (s.downloads τ).delivered.length = (t.downloads τ).delivered.length := by
      intro τ hτ
      simp only [t, Function.update_of_ne (Finset.ne_of_mem_erase hτ)]
    rw [Finset.sum_congr rfl hother]
    simp only [t, Function.update_self, List.length_append]
    omega

/-- **Every read the framework makes** succeeds; it returns 0, the end of the
stream, exactly when the whole file has been delivered. -/
theorem read (h : Good btoa s) {σ : SubscriberRef} {count : Int} (hmay : s.MayRead σ count) :
    (∃ result server, (Subscriber.read σ count).exec s.server = (.ok result, server) ∧
      (result = .bytes [] ↔ (s.downloads σ).delivered = s.content (s.downloads σ).file)) ∧
    Good btoa (s.read σ count) := by
  obtain ⟨subscriber, hσ, hcount, hreader⟩ := hmay
  obtain ⟨hlisted, hf, hvalid, -⟩ := h.tables.subscriber σ subscriber hσ
  obtain ⟨hfile, hprogress, hsettled⟩ := h.faithful.reader σ subscriber hσ
  obtain ⟨-, hbytes⟩ := h.faithful.download σ hlisted
  have hsize := (h.hosted.page _ hf).2
  rw [hfile] at hbytes ⊢
  have hexec := Subscriber.read_exec hσ count
  unfold State.read
  have hnot : ¬ subscriber.valid = false := by
    simp [hvalid]
  rw [hsize, Subscriber.readChunk, if_neg hnot] at hexec
  rcases lt_or_ge subscriber.progress (s.content subscriber.file).length with hlt | hge
  · -- there is more to deliver
    have hmore : (s.downloads σ).delivered ≠ s.content subscriber.file := by
      intro heq
      rw [hprogress, heq] at hlt
      exact lt_irrefl _ hlt
    rw [if_pos hlt] at hexec
    rcases hreader with hreader | ⟨hreader, hover⟩
    · rw [hreader] at hsettled
      rw [hsettled.1] at hexec
      dsimp only at hexec
      rw [hexec]
      exact ⟨⟨_, _, rfl, by simp [hmore]⟩, h.request_sent hσ hcount hreader hlt⟩
    · rw [hreader] at hsettled
      obtain ⟨-, -, ⟨hnone, -⟩ | ⟨hchunk, hunanswered⟩⟩ := hsettled
      · simp [Subscriber.waitIsOver, hnone, hvalid] at hover
      · obtain ⟨hne, hle, -⟩ := expected_next hbytes hprogress hcount hlt
        rw [hchunk] at hexec
        dsimp only at hexec
        rw [if_neg (not_lt.mpr hle)] at hexec
        dsimp only at hexec
        rw [hexec]
        exact ⟨⟨_, _, rfl, by simp [hne, hmore]⟩, h.chunk_taken hσ hreader hunanswered⟩
  · -- the whole file has been delivered
    have hall : (s.downloads σ).delivered = s.content subscriber.file := by
      rw [hprogress] at hge
      exact hbytes.eq_of_length_le (by omega)
    have hidle : (s.downloads σ).reader = .idle := by
      rcases hreader with hreader | ⟨hreader, -⟩
      · exact hreader
      · rw [hreader] at hsettled
        exact absurd hsettled.2.1 (not_lt.mpr hge)
    rw [if_neg (not_lt.mpr hge)] at hexec
    dsimp only at hexec
    have hsame : (s.server.modifySubscriber σ fun _ => subscriber) = s.server := by
      unfold Server.modifySubscriber
      rw [hσ, Option.map_some, ← hσ, Function.update_eq_self]
    rw [hexec, hsame]
    refine ⟨⟨_, _, rfl, by simp [hall]⟩, ?_⟩
    have hdownload : { s.downloads σ with
        reader := .idle, delivered := (s.downloads σ).delivered ++ [] } = s.downloads σ := by
      rw [List.append_nil, ← hidle]
    dsimp only
    rw [hdownload, Function.update_eq_self]
    exact h

theorem present (h : s.isPresent p = true) : s.server.catalogue.Present p := beq_iff_eq.mp h

/-- Every step keeps the invariant. -/
theorem step (h : Good btoa s) (hdecode : ∀ data, fw.base64Decode (btoa data) = some data)
    {a : Act} (hstep : s.step fw btoa config a = some t) : Good btoa t := by
  cases a with
  | join socket roomName nickname =>
      obtain rfl := Option.some.inj hstep
      exact h.join socket roomName nickname
  | leave p =>
      obtain ⟨hp, hstep⟩ := Option.ite_none_right_eq_some.mp hstep
      obtain ⟨hp, hfiles⟩ := Bool.and_eq_true_iff.mp hp
      obtain rfl := Option.some.inj hstep
      exact h.close (present hp) (List.isEmpty_iff.mp hfiles)
  | post p message =>
      obtain ⟨hp, hstep⟩ := Option.ite_none_right_eq_some.mp hstep
      obtain ⟨hp, hpost⟩ := Bool.and_eq_true_iff.mp hp
      obtain rfl := Option.some.inj hstep
      exact h.post (present hp) hpost
  | handleFiles p files =>
      obtain ⟨hp, hstep⟩ := Option.ite_none_right_eq_some.mp hstep
      obtain rfl := Option.some.inj hstep
      exact h.handleFiles (present hp) files
  | readMessage i => exact h.readMessage hdecode hstep
  | onMessage p i =>
      obtain ⟨-, hstep⟩ := Option.ite_none_right_eq_some.mp hstep
      exact h.onMessage hstep
  | getFile roomId fileId => exact h.getFile hstep
  | read σ count =>
      obtain ⟨hmay, hstep⟩ := Option.ite_none_right_eq_some.mp hstep
      simp only [Bool.and_eq_true, beq_iff_eq, decide_eq_true_eq] at hmay
      obtain ⟨⟨hσ, hidle⟩, hcount⟩ := hmay
      obtain ⟨subscriber, hσ⟩ := Option.isSome_iff_exists.mp hσ
      obtain rfl := Option.some.inj hstep
      exact (h.read ⟨subscriber, hσ, hcount, .inl hidle⟩).2
  | repeatRead σ =>
      simp only [State.step] at hstep
      split at hstep
      · next subscriber count hσ hreader =>
        obtain ⟨hover, hstep⟩ := Option.ite_none_right_eq_some.mp hstep
        obtain rfl := Option.some.inj hstep
        -- the count has been positive since the first attempt
        have hsettled := (h.faithful.reader σ subscriber hσ).2.2
        rw [hreader] at hsettled
        exact (h.read ⟨subscriber, hσ, hsettled.1, .inr ⟨hreader, hover⟩⟩).2
      · cases hstep
  | drop σ =>
      obtain ⟨hσ, hstep⟩ := Option.ite_none_right_eq_some.mp hstep
      obtain ⟨subscriber, hσ⟩ := Option.isSome_iff_exists.mp hσ
      obtain rfl := Option.some.inj hstep
      exact h.drop hσ

theorem init (clock : ℕ → Int) : Good btoa { server := { clock } } where
  hosted :=
    { complete := Catalogue.Complete.new clock
      page := fun f hf => absurd hf (Nat.not_lt_zero f)
      sender := fun _ _ hmem => absurd hmem List.not_mem_nil }
  tables :=
    { subscriber := fun _ _ hσ => nomatch (show none = some _ from hσ)
      lookup := fun _ _ _ hσ => nomatch (show none = some _ from hσ) }
  faithful :=
    { download := fun σ hσ => absurd hσ (Nat.not_lt_zero σ)
      reader := fun _ _ hσ => nomatch (show none = some _ from hσ)
      request := fun _ _ hmem => absurd hmem List.not_mem_nil
      reply := fun _ _ hmem => absurd hmem List.not_mem_nil
      served := rfl }

end Good

variable {fw : Framework} {btoa : Bytes → String} {config : ConfigDto} {s : State}

theorem good (hdecode : ∀ data, fw.base64Decode (btoa data) = some data)
    (hs : (system fw btoa config).Reachable s) : Good btoa s := by
  refine hs.invariant ?_ fun s a t h hstep => h.step hdecode hstep
  rintro s ⟨clock, rfl⟩
  exact .init clock

/-- **Downloads are faithful.**  The bytes read are a prefix of the file; a read
succeeds, and returns 0 exactly when they are all of it; a subscriber never has
two requests unanswered; the server handles what the pages send; and it counts
the bytes it has served. -/
theorem download_faithful (hdecode : ∀ data, fw.base64Decode (btoa data) = some data)
    (hs : (system fw btoa config).Reachable s) :
    (∀ σ < s.server.subscriberCount,
      (s.downloads σ).delivered <+: s.content (s.downloads σ).file) ∧
    (∀ σ count, s.MayRead σ count → ∃ result server,
      (Subscriber.read σ count).exec s.server = (.ok result, server) ∧
      (result = .bytes [] ↔ (s.downloads σ).delivered = s.content (s.downloads σ).file)) ∧
    (∀ σ subscriber, s.server.subscribers σ = some subscriber → s.unanswered subscriber ≤ 1) ∧
    (∀ p message, (p, message) ∈ s.inbound → ∃ server,
      (Peer.readParsed fw config p message).exec s.server = (.ok none, server)) ∧
    s.server.statistics.fileServedBytes =
      ∑ σ ∈ Finset.range s.server.subscriberCount, (s.downloads σ).delivered.length := by
  have h := good hdecode hs
  refine ⟨fun σ hσ => (h.faithful.download σ hσ).2, fun σ count hmay => (h.read hmay).1,
    fun σ subscriber hσ => ?_, fun p message hmem => ?_, h.faithful.served⟩
  · have hsettled := (h.faithful.reader σ subscriber hσ).2.2
    cases hreader : (s.downloads σ).reader with
    | idle =>
        rw [hreader] at hsettled
        exact hsettled.2.le.trans (Nat.zero_le 1)
    | waiting count =>
        rw [hreader] at hsettled
        rcases hsettled.2.2 with ⟨-, hone⟩ | ⟨-, hzero⟩
        · exact hone.le
        · exact hzero.le.trans (Nat.zero_le 1)
    | failed fault =>
        rw [hreader] at hsettled
        exact hsettled.elim
  · obtain ⟨i, hi⟩ := List.mem_iff_getElem?.mp hmem
    obtain ⟨server, hexec, -⟩ := h.readParsed hdecode hi
    exact ⟨server, hexec⟩

/-- A framework whose Base64 is the browser's. -/
def base64 : Framework where
  readFromString _ := none
  base64Decode := Base64.decode

/-- Ann shares a file; Bob downloads it in one read and Cid in two, and their
requests and replies overtake each other. -/
def twoDownloads : List Act :=
  [.join 0 "cats" "Ann", .handleFiles 0 [("cat.txt", [99, 97, 116])], .readMessage 0,
    .join 1 "cats" "Bob", .join 2 "cats" "Cid", .getFile "cats" 1, .getFile "cats" 1,
    .read 0 64, .read 1 2, .onMessage 0 5, .onMessage 0 4, .readMessage 1, .readMessage 0,
    .repeatRead 0, .repeatRead 1, .read 1 2]

/-- Bob has the whole file, and Cid a part of it. -/
theorem download_faithful_two : ∃ s, (system base64 Base64.encode {}).run {} twoDownloads = some s ∧
    s.content 0 = [99, 97, 116] ∧ (s.downloads 0).delivered = s.content 0 ∧
    (∃ server, (Subscriber.read 0 64).exec s.server = (.ok (.bytes []), server)) ∧
    (s.downloads 1).delivered ≠ s.content 0 ∧ (s.downloads 1).delivered <+: s.content 0 ∧
    s.server.statistics.fileServedBytes = 5 := by
  let observe (s : State) := (s.content 0, s.server.subscriberCount,
    (s.server.subscribers 0).isSome, s.downloads 0, s.downloads 1)
  have hobserve : ((system base64 Base64.encode {}).run {} twoDownloads).map observe =
      some ([99, 97, 116], 2, true, { delivered := [99, 97, 116] },
        { reader := .waiting 2, delivered := [99, 97] }) := by
    decide +kernel
  obtain ⟨s, hrun, hs⟩ := Option.map_eq_some_iff.mp hobserve
  simp only [observe, Prod.mk.injEq] at hs
  obtain ⟨hcontent, hcount, hlive, hbob, hcid⟩ := hs
  have hreach : (system base64 Base64.encode {}).Reachable s := .run (.init ⟨_, rfl⟩) hrun
  obtain ⟨hbytes, hread, -, -, hserved⟩ := download_faithful Base64.decode_encode hreach
  obtain ⟨subscriber, hsubscriber⟩ := Option.isSome_iff_exists.mp hlive
  obtain ⟨result, server, hexec, hend⟩ :=
    hread 0 64 ⟨subscriber, hsubscriber, by decide, .inl (by rw [hbob])⟩
  have hbytes := hbytes 1 (by rw [hcount]; decide)
  rw [hcid] at hbytes
  rw [hbob] at hend
  obtain rfl := hend.mpr hcontent.symm
  rw [hcount, Finset.sum_range_succ, Finset.sum_range_one, hbob, hcid] at hserved
  refine ⟨s, hrun, hcontent, ?_, ⟨server, hexec⟩, ?_, ?_, hserved⟩
  · rw [hbob, hcontent]
  · rw [hcid, hcontent]
    decide
  · rw [hcid]
    exact hbytes

end Streaming

end CanChat
