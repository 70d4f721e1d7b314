/-
CanChat/Alike.lean

The handlers that may fail, run by two servers.

`Alike` relates a handler on each side: both fail, with the same fault, or both
return, with values that correspond; either way the servers still do.  There
is one rule for each construct of `Handler`, and one lemma for each handler.
-/
import CanChat.TwoServers

namespace CanChat

namespace Isolation

open Correspondence

variable {n : String} {c d e : Counterparts} {s s' t t' : Server} {α β γ δ : Type}
  {V : Counterparts → α → β → Prop} {W : Counterparts → γ → δ → Prop}

/-! ### The rules -/

/-- Both fail alike, or both return. -/
inductive Outcome (R : α → β → Prop) : Except Fault α → Except Fault β → Prop
  | ok {a : α} {b : β} (h : R a b) : Outcome R (.ok a) (.ok b)
  | error (fault : Fault) : Outcome R (.error fault) (.error fault)

/-- The two handlers run alike from `s` and `s'`: the objects they create become
counterparts. -/
def Alike (n : String) (c : Counterparts) (V : Counterparts → α → β → Prop) (x : Handler α)
    (x' : Handler β) (s s' : Server) : Prop :=
  ∃ d, Advance n c d s (x.exec s).2 (x'.exec s').2 ∧ Outcome (V d) (x.exec s).1 (x'.exec s').1

/-- The two values are equal. -/
def Same (_ : Counterparts) (a a' : α) : Prop := a = a'

namespace Alike

/-- Returning changes nothing on either side. -/
theorem pure {a : α} {b : β} (h : Sync n c s s') (hab : V c a b) :
    Alike n c V (Pure.pure a) (Pure.pure b) s s' :=
  ⟨c, .refl h, .ok hab⟩

/-- The value that is returned is passed on. -/
theorem pure_bind {a : α} {b : β} {k : α → Handler γ} {k' : β → Handler δ}
    (hk : Alike n c W (k a) (k' b) s s') :
    Alike n c W (Pure.pure a >>= k) (Pure.pure b >>= k') s s' :=
  hk

/-- The same fault on both sides. -/
theorem throw (h : Sync n c s s') (fault : Fault) :
    Alike n c V (MonadExcept.throw fault) (MonadExcept.throw fault) s s' :=
  ⟨c, .refl h, .error fault⟩

/-- The rule for sequencing: the rest is run by servers whose counterparts may
have grown. -/
theorem bind {x : Handler α} {x' : Handler β} {k : α → Handler γ} {k' : β → Handler δ}
    (hx : Alike n c V x x' s s')
    (hk : ∀ {d t t' a b}, Advance n c d s t t' → V d a b → Alike n d W (k a) (k' b) t t') :
    Alike n c W (x >>= k) (x' >>= k') s s' := by
  obtain ⟨d, hadvance, houtcome⟩ := hx
  unfold Alike
  rw [Handler.exec_bind, Handler.exec_bind]
  generalize x.exec s = result at hadvance houtcome
  generalize x'.exec s' = result' at hadvance houtcome
  obtain ⟨outcome, t⟩ := result
  obtain ⟨outcome', t'⟩ := result'
  cases houtcome with
  | error fault => exact ⟨d, hadvance, .error fault⟩
  | ok hab =>
      -- the second part starts where the first has left off
      obtain ⟨e, hrest, houtcome⟩ := hk hadvance hab
      exact ⟨e, hadvance.trans hrest, houtcome⟩

/-- The continuation gets the same value on both sides. -/
theorem bind_same {x x' : Handler α} {k : α → Handler γ} {k' : α → Handler δ}
    (hx : Alike n c Same x x' s s')
    (hk : ∀ {d t t'} a, Advance n c d s t t' → Alike n d W (k a) (k' a) t t') :
    Alike n c W (x >>= k) (x' >>= k') s s' := by
  refine hx.bind fun {_ _ _ a _} hadvance hab => ?_
  -- the value is the same, not only related
  obtain rfl := hab
  exact hk a hadvance

/-- Each continuation sees its own server. -/
theorem get_bind {k : Server → Handler γ} {k' : Server → Handler δ}
    (hk : Alike n c W (k s) (k' s') s s') : Alike n c W (get >>= k) (get >>= k') s s' := by
  unfold Alike
  rw [Handler.exec_bind, Handler.exec_bind]
  exact hk

/-- An update that advances both servers, and what follows it. -/
theorem modify_bind {f f' : Server → Server} {k : PUnit → Handler γ} {k' : PUnit → Handler δ}
    (hf : Advance n c d s (f s) (f' s')) (hk : Alike n d W (k ⟨⟩) (k' ⟨⟩) (f s) (f' s')) :
    Alike n c W (modify f >>= k) (modify f' >>= k') s s' := by
  unfold Alike
  rw [Handler.exec_bind, Handler.exec_bind]
  obtain ⟨e, hrest, houtcome⟩ := hk
  exact ⟨e, hf.trans hrest, houtcome⟩

/-- An update that advances both servers, as a handler. -/
theorem modify {f f' : Server → Server} (hf : Advance n c d s (f s) (f' s')) :
    Alike n c Same (modify f) (modify f') s s' :=
  ⟨d, hf, .ok rfl⟩

/-- An update with a result, and what follows it. -/
theorem modifyGet_bind {f : Server → α × Server} {f' : Server → β × Server} {k : α → Handler γ}
    {k' : β → Handler δ} (hf : Advance n c d s (f s).2 (f' s').2)
    (hk : Alike n d W (k (f s).1) (k' (f' s').1) (f s).2 (f' s').2) :
    Alike n c W (modifyGet f >>= k) (modifyGet f' >>= k') s s' := by
  unfold Alike
  rw [Handler.exec_bind, Handler.exec_bind]
  obtain ⟨e, hrest, houtcome⟩ := hk
  exact ⟨e, hf.trans hrest, houtcome⟩

/-- An update with a result, as a handler. -/
theorem modifyGet {f : Server → α × Server} {f' : Server → β × Server}
    (hf : Advance n c d s (f s).2 (f' s').2) (hv : V d (f s).1 (f' s').1) :
    Alike n c V (modifyGet f) (modifyGet f') s s' :=
  ⟨d, hf, .ok hv⟩

/-- A null pointer fails on both sides, since the argument is one. -/
theorem deref (h : Sync n c s s') (o : Option α) : Alike n c Same (deref o) (deref o) s s' := by
  rcases o with - | a
  · exact throw h .nullPointer
  · exact pure h rfl

end Alike

/-- The same error, which has no sender, or none. -/
def Raised (_ : Counterparts) (a a' : CoroutineStarter) : Prop :=
  a = a' ∧ ∀ coroutine ∈ a, coroutine.message.peerId = none

/-- No answer at all. -/
theorem raised_none : Raised c none none := ⟨rfl, nofun⟩

/-! ### Errors and validation -/

namespace Sync

variable {ρ ρ' : RoomRef} {p p' : PeerRef} {f f' : FileRef} {σ σ' : SubscriberRef}

/-- The answer goes to the same socket with the same text. -/
theorem onApiError (h : Sync n c s s') (hp : c.peer p p') (text : String) :
    Alike n c Raised (Peer.onApiError p text) (Peer.onApiError p' text) s s' := by
  refine ⟨c, h.createShared { code := some .codeApiError, message := some text }
    { code := some .codeApiError, message := some text }, ?_⟩
  rw [Peer.exec_onApiError, Peer.exec_onApiError, (h.peer hp).socket]
  refine .ok ⟨rfl, ?_⟩
  rintro _ ⟨⟩
  rfl

/-- The first entry that lacks something is the same on both sides. -/
theorem validateEntries (h : Sync n c s s') (hp : c.peer p p') (files : List (Option FileDto)) :
    Alike n c Raised (Peer.validateEntries p files) (Peer.validateEntries p' files) s s' := by
  induction files with
  | nil => exact .pure h raised_none
  | cons entry rest ih =>
      rcases entry with - | fileDto
      · exact h.onApiError hp _
      · unfold Peer.validateEntries
        split
        · exact h.onApiError hp _
        · split
          · exact h.onApiError hp _
          · split
            · exact h.onApiError hp _
            · exact ih

/-- The list is the client's, so it is one list. -/
theorem validateFilesList (h : Sync n c s s') (hp : c.peer p p')
    (filesList : Option (List (Option FileDto))) :
    Alike n c Raised (Peer.validateFilesList p filesList)
      (Peer.validateFilesList p' filesList) s s' :=
    by
  refine .bind_same (.deref h filesList) fun files hadvance => ?_
  have hp := hadvance.step.le.1 .peer _ _ hp
  split
  · exact hadvance.sync.onApiError hp _
  · exact hadvance.sync.validateEntries hp _

/-! ### Sharing files -/

/-- The host is found on both sides or on neither, and the two new files are
counterparts. -/
theorem shareFile (h : Sync n c s s') (hρ : c.room ρ ρ') {i i' : Int} (hi : c.peerId i i')
    (clientFileId : Int) (fileName : Option String) (fileSize : Int) :
    Alike n c (fun d => d.file) (Room.shareFile ρ i clientFileId fileName fileSize)
      (Room.shareFile ρ' i' clientFileId fileName fileSize) s s' := by
  unfold Room.shareFile
  refine .get_bind ?_
  have hhost := h.getPeerById hρ hi
  generalize Room.getPeerById ρ i s = host at hhost
  generalize Room.getPeerById ρ' i' s' = host' at hhost
  cases hhost with
  | none => exact .throw h _
  | some hp =>
      obtain ⟨d, hadvance, hf⟩ := h.registerFile hρ hp clientFileId fileName fileSize
      exact .modifyGet hadvance hf

/-- Ids of files are not renamed, so the room is told the same. -/
theorem shareFiles (h : Sync n c s s') (hp : c.peer p p') (files : List (Option FileDto)) :
    Alike n c Same (Peer.shareFiles p files) (Peer.shareFiles p' files) s s' := by
  induction files generalizing c s s' with
  | nil => exact .pure h rfl
  | cons currFile rest ih =>
      unfold Peer.shareFiles
      refine .bind_same (.deref h currFile) fun fileDto hfile => ?_
      have hp := hfile.step.le.1 .peer _ _ hp
      refine .bind_same (.deref hfile.sync fileDto.clientFileId) fun clientFileId hid => ?_
      have hp := hid.step.le.1 .peer _ _ hp
      refine .bind_same (.deref hid.sync fileDto.size) fun size hsize => ?_
      have hp := hsize.step.le.1 .peer _ _ hp
      have hpeer := hsize.sync.peer hp
      refine .get_bind (.bind (hsize.sync.shareFile hpeer.room hpeer.peerId _ _ _) ?_)
      intro d t t' f f' hshared hf
      have hp := hshared.step.le.1 .peer _ _ hp
      have hfile := hshared.sync.file hf
      refine .get_bind (.bind_same (ih hshared.sync hp) fun shared hrest => .pure hrest.sync ?_)
      show _ = _
      -- what is announced is read from counterpart files
      rw [hfile.serverFileId, hfile.fileName, hfile.fileSize]

/-- The room is told about the files. -/
theorem tell (config : ConfigDto) (h : Sync n c s s') (hρ : c.room ρ ρ') {dto dto' : MessageDto}
    (hdto : Restamped c.peerId dto dto') :
    Alike n c Raised
      (do
        let message ← modifyGet (Server.createShared dto)
        modify (Room.addHistoryMessage config ρ message)
        modify (Room.sendMessageAsync ρ message)
        pure (none : CoroutineStarter))
      (do
        let message ← modifyGet (Server.createShared dto')
        modify (Room.addHistoryMessage config ρ' message)
        modify (Room.sendMessageAsync ρ' message)
        pure (none : CoroutineStarter)) s s' := by
  have hcreated := h.createShared dto dto'
  have hrecorded : Recorded c.peerId (s.createShared dto).1 (s'.createShared dto').1 := hdto
  have hadded := hcreated.sync.addHistoryMessage config hρ hrecorded
  have hsent := hadded.sync.sendToRoom hρ (.inl hrecorded)
  exact .modifyGet_bind hcreated
    (.modify_bind hadded (.modify_bind hsent (.pure hsent.sync raised_none)))

/-- Both servers read the same clock, so the announcements differ in the
sender's id only. -/
theorem handleFilesMessage (config : ConfigDto) (h : Sync n c s s') (hp : c.peer p p')
    {message message' : MessageDto} (hfiles : message'.files = message.files) :
    Alike n c Raised (Peer.handleFilesMessage config p message)
      (Peer.handleFilesMessage config p' message') s s' := by
  unfold Peer.handleFilesMessage
  rw [hfiles]
  refine .bind (h.validateFilesList hp message.files) fun hvalidated _ => .get_bind ?_
  have hp := hvalidated.step.le.1 .peer _ _ hp
  have hpeer := hvalidated.sync.peer hp
  obtain ⟨hread, hticked⟩ := hvalidated.sync.getMicroTickCount
  refine .modifyGet_bind hticked (.bind_same (.deref hticked.sync message.files) ?_)
  intro _ _ _ files hlisted
  have hp := hlisted.step.le.1 .peer _ _ hp
  refine .bind_same (hlisted.sync.shareFiles hp files) fun shared hshared => ?_
  -- the sender was read before the loop, as in the source
  have hpeer := hpeer.mono (hlisted.step.le.trans hshared.step.le)
  refine hshared.sync.tell config hpeer.room ⟨.some hpeer.peerId, ?_⟩
  rw [hpeer.nickname, hread]

/-! ### File chunks -/

/-- Counterpart subscribers have equal chunks, so the chunk is taken by both or
by neither. -/
theorem provideFileChunk (h : Sync n c s s') (hf : c.file f f') (subscriberId : Int)
    (data : Bytes) :
    Alike n c Same (File.provideFileChunk f subscriberId data)
      (File.provideFileChunk f' subscriberId data) s s' := by
  unfold File.provideFileChunk
  refine .get_bind ?_
  have hfound := (h.file hf).subscribers.lookup UnorderedMap.injective_eq (Eq.refl subscriberId)
  generalize (s.files f).subscribers.lookup subscriberId = found at hfound
  generalize (s'.files f').subscribers.lookup subscriberId = found' at hfound
  cases hfound with
  | none => exact .pure h rfl
  | @some σ σ' hσ =>
      have hcell := h.subscriber hσ
      dsimp only
      generalize s.subscribers σ = cell at hcell
      generalize s'.subscribers σ' = cell' at hcell
      cases hcell with
      | none => exact .throw h .nullPointer
      | @some subscriber subscriber' hsubscriber =>
          have hchunk : subscriber'.chunk = subscriber.chunk := by rw [hsubscriber.rest]
          dsimp only
          unfold Subscriber.provideFileChunk
          rw [hchunk]
          by_cases htaken : subscriber.chunk ≠ none
          -- a subscriber that still holds a chunk fails
          · rw [if_pos htaken, if_pos htaken]
            exact .throw h _
          · rw [if_neg htaken, if_neg htaken]
            refine .modify (h.setSubscriber hσ (optionRel_map (h.subscriber hσ) fun _ _ _ => ?_))
            refine ⟨hsubscriber.file, ?_⟩
            rw [hsubscriber.rest]

/-- A chunk from the wrong host is rejected on both sides. -/
theorem provideChunk (fw : Framework) (h : Sync n c s s') (hp : c.peer p p')
    (serverFileId subscriberId : Int) (data : String) :
    Alike n c Raised (Peer.provideChunk fw p serverFileId subscriberId data)
      (Peer.provideChunk fw p' serverFileId subscriberId data) s s' := by
  unfold Peer.provideChunk
  refine .get_bind ?_
  have hpeer := h.peer hp
  have hfound := h.getFileById hpeer.room serverFileId
  generalize Room.getFileById (s.peers p).room serverFileId s = found at hfound
  generalize Room.getFileById (s'.peers p').room serverFileId s' = found' at hfound
  cases hfound with
  | none => exact .pure h raised_none
  | @some f f' hf =>
      -- the ids are renamed one-to-one, so the hosts are compared alike
      have hhost := Matching.eq_iff (h.peer (h.file hf).host).peerId hpeer.peerId
      dsimp only
      by_cases hwrong : (s.peers (s.files f).host).peerId ≠ (s.peers p).peerId
      · rw [if_pos hwrong, if_pos fun heq => hwrong (hhost.mpr heq)]
        exact h.onApiError hp _
      · rw [if_neg hwrong, if_neg fun hne => hwrong fun heq => hne (hhost.mp heq)]
        split
        · exact .throw h _
        · exact .bind_same (h.provideFileChunk hf subscriberId _) fun _ hprovided =>
            .pure hprovided.sync raised_none

/-- The tests are about the client's message, which is one message. -/
theorem handleFileChunkMessage (fw : Framework) (h : Sync n c s s') (hp : c.peer p p')
    {message message' : MessageDto} (hfiles : message'.files = message.files) :
    Alike n c Raised (Peer.handleFileChunkMessage fw p message)
      (Peer.handleFileChunkMessage fw p' message') s s' := by
  unfold Peer.handleFileChunkMessage
  rw [hfiles]
  split
  · exact h.onApiError hp _
  · next filesList _ =>
    split
    · exact h.onApiError hp _
    · rcases filesList with - | ⟨entry, rest⟩
      · exact .throw h .emptyFront
      · refine .bind_same (.pure h rfl) fun _ hfront => ?_
        have hp := hfront.step.le.1 .peer _ _ hp
        split
        · exact hfront.sync.onApiError hp _
        · split
          · exact hfront.sync.onApiError hp _
          · exact hfront.sync.onApiError hp _
          · exact hfront.sync.onApiError hp _
          · exact hfront.sync.provideChunk fw hp _ _ _

/-! ### The entry points -/

/-- The code is the client's, and decides alike. -/
theorem handleMessage (fw : Framework) (config : ConfigDto) (h : Sync n c s s') (hp : c.peer p p')
    {message message' : Object MessageDto} (hmessage : Recorded c.peerId message message') :
    Alike n c Raised (Peer.handleMessage fw config p message)
      (Peer.handleMessage fw config p' message') s s' := by
  have hcode : message'.val.code = message.val.code := by rw [hmessage.rest]
  have hfiles : message'.val.files = message.val.files := by rw [hmessage.rest]
  have hρ := (h.peer hp).room
  unfold Peer.handleMessage
  refine .get_bind ?_
  dsimp only
  rw [hcode]
  split
  · exact h.onApiError hp _
  · have hadded := h.addHistoryMessage config hρ hmessage
    have hsent := hadded.sync.sendToRoom hρ (.inl hmessage)
    have hcounted := hsent.sync.setStatistics
    refine .modify_bind hadded (.modify_bind hsent (.modify_bind (hcounted _ _) ?_))
    exact .pure (hcounted _ _).sync raised_none
  · have hsent := h.sendToRoom hρ (.inl hmessage)
    exact .modify_bind hsent (.pure hsent.sync raised_none)
  · exact h.handleFilesMessage config hp hfiles
  · exact h.handleFileChunkMessage fw hp hfiles
  · exact h.onApiError hp _

/-- Equal buffers, one frame: a message is complete on both sides or on neither. -/
theorem readMessage (fw : Framework) (config : ConfigDto) (h : Sync n c s s') (hp : c.peer p p')
    (data : Bytes) :
    Alike n c Raised (Peer.readMessage fw config p data)
      (Peer.readMessage fw config p' data) s s' :=
    by
  have hpeer := h.peer hp
  unfold Peer.readMessage
  refine .get_bind ?_
  dsimp only
  rw [hpeer.messageBuffer]
  split
  · exact h.onApiError hp _
  · split
    · have hcleared := h.modifyMessageBuffer hp fun _ => []
      refine .modify_bind hcleared ?_
      split
      · exact hcleared.sync.onApiError hp _
      · next parsed _ =>
        refine .bind_same (.deref hcleared.sync parsed) fun message hparsed => ?_
        obtain ⟨hread, hticked⟩ := hparsed.sync.getMicroTickCount
        have hpeer := hpeer.mono hparsed.step.le
        have hp := hparsed.step.le.1 .peer _ _ hp
        have hcreated := hticked.sync.createShared
        refine .modifyGet_bind hticked (.modifyGet_bind (hcreated _ _) ?_)
        refine (hcreated _ _).sync.handleMessage fw config hp ⟨.some hpeer.peerId, ?_⟩
        simp only [Server.createShared, Peer.stampMessage, hpeer.nickname, hread]
    · have happended := h.modifyMessageBuffer hp fun buffer => buffer ++ data
      exact .modify_bind happended (.pure happended.sync raised_none)

/-! ### Downloads -/

/-- `readChunk` looks at nothing that is renamed. -/
theorem readChunk {subscriber subscriber' : Subscriber}
    (h : SubscriberRel c subscriber subscriber') (fileSize count : Int) :
    Outcome (fun read read' => read.1 = read'.1 ∧ SubscriberRel c read.2 read'.2)
      (subscriber.readChunk fileSize count) (subscriber'.readChunk fileSize count) := by
  obtain ⟨hf, hrest⟩ := h
  generalize subscriber'.file = f' at hf hrest
  obtain rfl := hrest
  unfold Subscriber.readChunk
  dsimp only
  split
  · exact .error _
  · split
    · split
      · split
        · exact .error _
        · exact .ok ⟨rfl, hf, rfl⟩
      · exact .ok ⟨rfl, hf, rfl⟩
    · exact .ok ⟨rfl, hf, rfl⟩

/-- A read returns the same bytes, asks for the same chunk, or fails alike. -/
theorem read (h : Sync n c s s') (hσ : c.subscriber σ σ') (count : Int) :
    Alike n c Same (Subscriber.read σ count) (Subscriber.read σ' count) s s' := by
  unfold Subscriber.read
  refine .get_bind ?_
  have hcell := h.subscriber hσ
  generalize s.subscribers σ = cell at hcell
  generalize s'.subscribers σ' = cell' at hcell
  cases hcell with
  | none => exact .throw h .nullPointer
  | @some subscriber subscriber' hsubscriber =>
      refine .pure_bind ?_
      rw [(h.file hsubscriber.file).fileSize]
      have hread := readChunk hsubscriber (s.files subscriber.file).fileSize count
      generalize subscriber.readChunk (s.files subscriber.file).fileSize count = outcome at hread
      generalize subscriber'.readChunk (s.files subscriber.file).fileSize count = outcome' at hread
      cases hread with
      | error fault => exact .throw h fault
      | @ok result result' hresult =>
          -- the bytes agree, and the two subscribers correspond again
          obtain ⟨read, subscriber⟩ := result
          obtain ⟨read', subscriber'⟩ := result'
          obtain ⟨heq, hsubscriber⟩ := hresult
          dsimp only at heq hsubscriber
          obtain rfl := heq
          cases read with
          | bytes data =>
              have hset :=
                h.setSubscriber hσ (optionRel_map (h.subscriber hσ) fun _ _ _ => hsubscriber)
              have hserved := hset.sync.setStatistics
              exact .modify_bind hset (.modify_bind (hserved _ _) (.pure (hserved _ _).sync rfl))
          | retryRead =>
              have hrequested := h.requestChunk hsubscriber count
              exact .modify_bind hrequested (.pure hrequested.sync rfl)

end Sync

end Isolation

end CanChat
