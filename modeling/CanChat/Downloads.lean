/-
CanChat/Downloads.lean

The subscribers of the whole server over runs.

`File::m_subscribers` holds plain pointers.  They never dangle: each entry leads
to an allocated subscriber of this file under its own id, whose response has not
ended and whose host is a member.  A read of a download whose host has left fails.

Design.  `Waited alive s` is the invariant on the tables of the files and the
subscribers; the predicate `alive` says for which files subscribers are valid,
and is instantiated with `Hosted`.  `SameDownloads` is the relation of the steps
that neither start nor end a download.
-/
import CanChat.LiveLinks
import CanChat.Cancellation
import CanChat.Transit

namespace CanChat

/-! ### The tables -/

/-- The file, the id and the validity of a subscriber, without its progress and
its chunk. -/
def ticket (sub : Subscriber) : FileRef × Int × Bool := (sub.file, sub.id, sub.valid)

/-- Table entries lead to valid subscribers of the file under their ids, and a
subscriber is valid iff its file is alive. -/
structure Waited (alive : FileRef → Prop) (s : Server) : Prop where
  subscribed : Subscribed s
  table : ∀ f id σ, (s.files f).subscribers.lookup id = some σ →
    ∃ sub, s.subscribers σ = some sub ∧ sub.file = f ∧ sub.id = id ∧ sub.valid = true
  alive : ∀ σ sub, s.subscribers σ = some sub → (sub.valid = true ↔ alive sub.file)

/-- The step from `s` to `t` neither starts nor ends a download. -/
structure SameDownloads (s t : Server) : Prop where
  fileCount : s.fileCount ≤ t.fileCount
  files : ∀ f < s.fileCount, (t.files f).host = (s.files f).host ∧
    (t.files f).subscribers = (s.files f).subscribers ∧
    (t.files f).subscriberIdCounter = (s.files f).subscriberIdCounter
  table : ∀ f id σ, (t.files f).subscribers.lookup id = some σ →
    (s.files f).subscribers.lookup id = some σ
  subscriberCount : t.subscriberCount = s.subscriberCount
  subscribers : ∀ σ, (t.subscribers σ).map ticket = (s.subscribers σ).map ticket

section SameDownloads

variable {s t u : Server} {alive alive' : FileRef → Prop}

theorem SameDownloads.of_eq (hfiles : t.files = s.files) (hfileCount : t.fileCount = s.fileCount)
    (hcount : t.subscriberCount = s.subscriberCount)
    (hsubscribers : ∀ σ, (t.subscribers σ).map ticket = (s.subscribers σ).map ticket) :
    SameDownloads s t := by
  refine ⟨hfileCount.ge, fun f _ => ?_, fun f id σ hσ => ?_, hcount, hsubscribers⟩
  · rw [hfiles]
    exact ⟨rfl, rfl, rfl⟩
  · rwa [hfiles] at hσ

theorem SameDownloads.refl (s : Server) : SameDownloads s s := .of_eq rfl rfl rfl fun _ => rfl

theorem SameDownloads.trans (h : SameDownloads s t) (h' : SameDownloads t u) :
    SameDownloads s u where
  fileCount := h.fileCount.trans h'.fileCount
  files f hf := by
    obtain ⟨hhost, htable, hcounter⟩ := h.files f hf
    obtain ⟨hhost', htable', hcounter'⟩ := h'.files f (hf.trans_le h.fileCount)
    exact ⟨hhost'.trans hhost, htable'.trans htable, hcounter'.trans hcounter⟩
  table f id σ hσ := h.table f id σ (h'.table f id σ hσ)
  subscriberCount := h'.subscriberCount.trans h.subscriberCount
  subscribers σ := (h'.subscribers σ).trans (h.subscribers σ)

/-- An allocated subscriber of `t` is one of `s`, with the same ticket. -/
theorem SameDownloads.exists_subscriber (h : SameDownloads s t) {σ : SubscriberRef}
    {sub' : Subscriber}
    (hsub' : t.subscribers σ = some sub') :
    ∃ sub, s.subscribers σ = some sub ∧ sub.file = sub'.file ∧ sub.id = sub'.id ∧
      sub.valid = sub'.valid := by
  have hticket := h.subscribers σ
  rw [hsub'] at hticket
  obtain ⟨sub, hsub, heq⟩ := Option.map_eq_some_iff.mp hticket.symm
  have hfile : sub.file = sub'.file := congrArg Prod.fst heq
  have hrest := congrArg Prod.snd heq
  exact ⟨sub, hsub, hfile, congrArg Prod.fst hrest, congrArg Prod.snd hrest⟩

theorem SameDownloads.of_subscriber (h : SameDownloads s t) {σ : SubscriberRef} {sub : Subscriber}
    (hsub : s.subscribers σ = some sub) :
    ∃ sub', t.subscribers σ = some sub' ∧ sub'.file = sub.file ∧ sub'.id = sub.id ∧
      sub'.valid = sub.valid := by
  have hticket := h.subscribers σ
  rw [hsub] at hticket
  obtain ⟨sub', hsub', heq⟩ := Option.map_eq_some_iff.mp hticket
  have hfile : sub'.file = sub.file := congrArg Prod.fst heq
  have hrest := congrArg Prod.snd heq
  exact ⟨sub', hsub', hfile, congrArg Prod.fst hrest, congrArg Prod.snd hrest⟩

theorem Waited.sameDownloads (h : Waited alive s) (hdownloads : SameDownloads s t) :
    Waited alive t := by
  refine ⟨?_, fun f id σ hσ => ?_, fun σ sub' hsub' => ?_⟩
  · apply h.subscribed.mono _ _ _ hdownloads.fileCount hdownloads.subscriberCount
    · intro σ sub' hsub'
      obtain ⟨sub, hsub, hfile, hid, hvalid⟩ := hdownloads.exists_subscriber hsub'
      exact ⟨sub, hsub, hid.symm, hfile.symm, fun hv => hvalid.trans hv⟩
    · intro σ sub' hsub' _
      obtain ⟨sub, hsub, hfile, -, -⟩ := hdownloads.exists_subscriber hsub'
      have hlt := (h.subscribed.allocated σ sub hsub).2.1
      rw [← hfile, (hdownloads.files _ hlt).2.1]
    · exact fun f hf => (hdownloads.files f hf).2.2
  · obtain ⟨sub, hsub, hfile, hid, hvalid⟩ := h.table f id σ (hdownloads.table f id σ hσ)
    obtain ⟨sub', hsub', hfile', hid', hvalid'⟩ := hdownloads.of_subscriber hsub
    exact ⟨sub', hsub', hfile'.trans hfile, hid'.trans hid, hvalid'.trans hvalid⟩
  · obtain ⟨sub, hsub, hfile, -, hvalid⟩ := hdownloads.exists_subscriber hsub'
    rw [← hvalid, ← hfile]
    exact h.alive σ sub hsub

/-- `Waited` depends on `alive` at allocated files only. -/
theorem Waited.congr (h : Waited alive s) (halive : ∀ f < s.fileCount, alive f ↔ alive' f) :
    Waited alive' s := by
  refine ⟨h.subscribed, h.table, fun σ sub hsub => ?_⟩
  exact (h.alive σ sub hsub).trans (halive _ (h.subscribed.allocated σ sub hsub).2.1)

/-! ### Starting and ending downloads -/

/-- A subscriber is in the table of its own file only. -/
theorem Waited.not_mem_refs (h : Waited alive s) {σ : SubscriberRef} {sub : Subscriber}
    (hsub : s.subscribers σ = some sub) {f : FileRef} (hne : sub.file ≠ f) :
    σ ∉ (s.files f).subscriberRefs := by
  intro hmem
  obtain ⟨id, hid⟩ := UnorderedMap.mem_values.mp hmem
  obtain ⟨sub', hsub', hfile, -⟩ := h.table f id σ hid
  obtain rfl := Option.some.inj (hsub.symm.trans hsub')
  exact hne hfile

/-- `clearSubscribers` of `f` makes `f` not alive. -/
theorem Waited.clearSubscribers (h : Waited alive s) (f : FileRef) :
    Waited (fun g => alive g ∧ g ≠ f) (File.clearSubscribers f s) := by
  refine ⟨h.subscribed.clearSubscribers f, fun g id σ hσ => ?_, fun σ sub' hsub' => ?_⟩
  · rw [File.clearSubscribers_eq] at hσ ⊢
    rcases eq_or_ne g f with rfl | hne
    · -- the table of `f` itself is empty
      change (Function.update s.files g _ g).subscribers.lookup id = some σ at hσ
      rw [Function.update_self] at hσ
      cases hσ
    · change (Function.update s.files f _ g).subscribers.lookup id = some σ at hσ
      rw [Function.update_of_ne hne] at hσ
      obtain ⟨sub, hsub, hfile, hid, hvalid⟩ := h.table g id σ hσ
      refine ⟨sub, ?_, hfile, hid, hvalid⟩
      have hnot : σ ∉ (s.files f).subscriberRefs :=
        h.not_mem_refs hsub fun heq => hne (hfile.symm.trans heq)
      exact (if_neg hnot).trans hsub
  · constructor
    · intro hvalid
      obtain ⟨hsub, hne⟩ := valid_clearSubscribers h.subscribed hsub' hvalid
      exact ⟨(h.alive σ sub' hsub).mp hvalid, hne⟩
    · -- a valid subscriber of another file is not invalidated
      rintro ⟨halive, hne⟩
      obtain ⟨sub, hsub, hrem⟩ := subscribersFrom_clearSubscribers s f σ sub' hsub'
      rw [hrem.file] at halive hne
      have hvalid := (h.alive σ sub hsub).mpr halive
      have hnot : σ ∉ (s.files f).subscriberRefs := h.not_mem_refs hsub hne
      rw [File.clearSubscribers_eq] at hsub'
      have hsame : s.subscribers σ = some sub' := (if_neg hnot).symm.trans hsub'
      obtain rfl := Option.some.inj (hsub.symm.trans hsame)
      exact hvalid

theorem Waited.cancelFiles (h : Waited alive s) (ρ : RoomRef) (fs : List FileRef) :
    Waited (fun g => alive g ∧ g ∉ fs) (fs.foldl (Room.cancelFile ρ) s) := by
  induction fs generalizing s alive with
  | nil => exact h.congr fun f _ => by simp
  | cons f fs ih =>
      have hcleared := h.clearSubscribers f
      have hcancelled : Waited (fun g => alive g ∧ g ≠ f) (Room.cancelFile ρ s f) :=
        hcleared.sameDownloads (.of_eq rfl rfl rfl fun _ => rfl)
      refine (ih hcancelled).congr fun g _ => ?_
      rw [List.mem_cons, not_or, and_assoc]

/-- `subscribe` allocates one subscriber and leaves the others. -/
theorem subscribers_subscribe (f : FileRef) (s : Server) (σ : SubscriberRef) :
    (File.subscribe f s).2.subscribers σ =
      if σ = s.subscriberCount then some { id := (s.files f).subscriberIdCounter, file := f }
      else s.subscribers σ := by
  show Function.update s.subscribers s.subscriberCount _ σ = _
  rcases eq_or_ne σ s.subscriberCount with rfl | hne
  · rw [Function.update_self, if_pos rfl]
  · rw [Function.update_of_ne hne, if_neg hne]

/-- Subscribing to a file that is alive. -/
theorem Waited.subscribe (h : Waited alive s) {f : FileRef} (hf : f < s.fileCount)
    (halive : alive f) : Waited alive (File.subscribe f s).2 := by
  have hold : ∀ {σ sub}, s.subscribers σ = some sub →
      (File.subscribe f s).2.subscribers σ = some sub := by
    intro σ sub hsub
    rw [subscribers_subscribe, if_neg (h.subscribed.allocated σ sub hsub).1.ne]
    exact hsub
  refine ⟨h.subscribed.subscribe hf, fun g id σ hσ => ?_, fun σ sub hsub => ?_⟩
  · change (Function.update s.files f _ g).subscribers.lookup id = some σ at hσ
    rcases eq_or_ne g f with rfl | hne
    · rw [Function.update_self] at hσ
      change ((s.files g).subscribers.insert (s.files g).subscriberIdCounter
        s.subscriberCount).lookup id = some σ at hσ
      rw [UnorderedMap.lookup_insert] at hσ
      split at hσ
      · next heq =>
        obtain rfl := Option.some.inj hσ
        refine ⟨{ id := (s.files g).subscriberIdCounter, file := g }, ?_, rfl, heq.symm, rfl⟩
        rw [subscribers_subscribe, if_pos rfl]
      · obtain ⟨sub, hsub, hrest⟩ := h.table g id σ hσ
        exact ⟨sub, hold hsub, hrest⟩
    · rw [Function.update_of_ne hne] at hσ
      obtain ⟨sub, hsub, hrest⟩ := h.table g id σ hσ
      exact ⟨sub, hold hsub, hrest⟩
  · rw [subscribers_subscribe] at hsub
    split at hsub
    · obtain rfl := Option.some.inj hsub
      exact iff_of_true rfl halive
    · exact h.alive σ sub hsub

/-- `destroy` frees one subscriber and leaves the others. -/
theorem subscribers_destroy (σ : SubscriberRef) (s : Server) (τ : SubscriberRef) :
    (Subscriber.destroy σ s).subscribers τ = if τ = σ then none else s.subscribers τ := by
  unfold Subscriber.destroy
  split
  · next hnone =>
    split
    · next heq => rw [heq, hnone]
    · rfl
  · show Function.update s.subscribers σ none τ = _
    rcases eq_or_ne τ σ with rfl | hne
    · rw [Function.update_self, if_pos rfl]
    · rw [Function.update_of_ne hne, if_neg hne]

/-- `destroy` erases the table entry of the subscriber and leaves the others. -/
theorem lookup_destroy {σ τ : SubscriberRef} {sub : Subscriber} (hsub : s.subscribers σ = some sub)
    {f : FileRef} {id : Int}
    (hτ : ((Subscriber.destroy σ s).files f).subscribers.lookup id = some τ) :
    (s.files f).subscribers.lookup id = some τ ∧ ¬ (f = sub.file ∧ id = sub.id) := by
  unfold Subscriber.destroy at hτ
  rw [hsub] at hτ
  change (Function.update s.files sub.file _ f).subscribers.lookup id = some τ at hτ
  rcases eq_or_ne f sub.file with rfl | hne
  · rw [Function.update_self] at hτ
    obtain ⟨hid, hτ⟩ := UnorderedMap.lookup_erase_eq_some.mp hτ
    exact ⟨hτ, fun heq => hid heq.2⟩
  · rw [Function.update_of_ne hne] at hτ
    exact ⟨hτ, fun heq => hne heq.1⟩

/-- The end of a response. -/
theorem Waited.destroy (h : Waited alive s) (σ : SubscriberRef) :
    Waited alive (Subscriber.destroy σ s) := by
  refine ⟨h.subscribed.destroy σ, fun g id τ hτ => ?_, fun τ sub hsub => ?_⟩
  · rcases hσ : s.subscribers σ with - | sub₀
    · have hsame : Subscriber.destroy σ s = s := by
        unfold Subscriber.destroy
        rw [hσ]
      rw [hsame] at hτ ⊢
      exact h.table g id τ hτ
    · obtain ⟨hfound, hother⟩ := lookup_destroy hσ hτ
      obtain ⟨sub, hsub, hfile, hid, hvalid⟩ := h.table g id τ hfound
      -- its own entry is the one that is erased
      have hne : τ ≠ σ := by
        rintro rfl
        obtain rfl := Option.some.inj (hσ.symm.trans hsub)
        exact hother ⟨hfile.symm, hid.symm⟩
      refine ⟨sub, ?_, hfile, hid, hvalid⟩
      rw [subscribers_destroy, if_neg hne]
      exact hsub
  · rw [subscribers_destroy] at hsub
    split at hsub
    · cases hsub
    · exact h.alive τ sub hsub

theorem subscribersFrom_cancelFiles (ρ : RoomRef) (fs : List FileRef) (s : Server) :
    SubscribersFrom s (fs.foldl (Room.cancelFile ρ) s) := by
  induction fs generalizing s with
  | nil => exact subscribersFrom_of_eq rfl
  | cons f fs ih =>
      intro σ sub'' hsub''
      obtain ⟨sub', hsub', hrem'⟩ := ih (Room.cancelFile ρ s f) σ sub'' hsub''
      obtain ⟨sub, hsub, hrem⟩ := subscribersFrom_clearSubscribers s f σ sub' hsub'
      exact ⟨sub, hsub, hrem'.id.trans hrem.id, hrem'.file.trans hrem.file,
        fun hvalid => hrem.valid (hrem'.valid hvalid)⟩

theorem SameDownloads.isSome (h : SameDownloads s t) (σ : SubscriberRef) :
    (t.subscribers σ).isSome = (s.subscribers σ).isSome := by
  have hticket := congrArg Option.isSome (h.subscribers σ)
  rwa [Option.isSome_map, Option.isSome_map] at hticket

/-- Cancelling files does not free subscribers. -/
theorem isSome_cancelFiles (ρ : RoomRef) (fs : List FileRef) (s : Server) (σ : SubscriberRef) :
    ((fs.foldl (Room.cancelFile ρ) s).subscribers σ).isSome = (s.subscribers σ).isSome := by
  induction fs generalizing s with
  | nil => rfl
  | cons f fs ih =>
      refine (ih (Room.cancelFile ρ s f)).trans ?_
      show ((File.clearSubscribers f s).subscribers σ).isSome = _
      rw [File.clearSubscribers_eq]
      dsimp only
      split
      · exact Option.isSome_map
      · rfl

end SameDownloads

namespace Conversation

open Isolation Handler

/-! ### The handlers -/

/-- The member tables, and the room and id of each peer. -/
def membership (s : Server) :
    (RoomRef → Int → Option PeerRef) × (PeerRef → RoomRef) × (PeerRef → Int) :=
  (s.catalogue.member, s.catalogue.room, s.catalogue.peerId)

/-- The step neither starts nor ends a download, leaves the members, and preserves
links. -/
structure PreservesTables (s t : Server) : Prop extends SameDownloads s t where
  membership : membership t = membership s
  preservesLinks : PreservesLinks s t

section PreservesTables

variable {s t u : Server}

theorem PreservesTables.isMember (h : PreservesTables s t) (p : PeerRef) :
    t.catalogue.Present p ↔ s.catalogue.Present p := by
  have hmember : t.catalogue.member = s.catalogue.member := congrArg Prod.fst h.membership
  have hrest := congrArg Prod.snd h.membership
  have hroom : t.catalogue.room = s.catalogue.room := congrArg Prod.fst hrest
  have hid : t.catalogue.peerId = s.catalogue.peerId := congrArg Prod.snd hrest
  unfold Catalogue.Present
  rw [hmember, hroom, hid]

theorem PreservesTables.of_catalogue (hdownloads : SameDownloads s t)
    (hcatalogue : t.catalogue = s.catalogue)
    (hpreserves : PreservesLinks s t) : PreservesTables s t := by
  refine ⟨hdownloads, ?_, hpreserves⟩
  unfold Conversation.membership
  rw [hcatalogue]

theorem PreservesTables.trans (h : PreservesTables s t) (h' : PreservesTables t u) :
    PreservesTables s u :=
  ⟨h.toSameDownloads.trans h'.toSameDownloads, h'.membership.trans h.membership,
    h.preservesLinks.trans h'.preservesLinks⟩

/-- Storing or taking a chunk leaves the tickets. -/
theorem ticket_modifySubscriber {σ : SubscriberRef} {sub sub' : Subscriber}
    (hsub : s.subscribers σ = some sub) (hticket : ticket sub' = ticket sub) (τ : SubscriberRef) :
    ((s.modifySubscriber σ fun _ => sub').subscribers τ).map ticket =
      (s.subscribers τ).map ticket := by
  show (Function.update s.subscribers σ ((s.subscribers σ).map fun _ => sub') τ).map ticket = _
  rcases eq_or_ne τ σ with rfl | hne
  · rw [Function.update_self, hsub]
    exact congrArg some hticket
  · rw [Function.update_of_ne hne]

theorem sameDownloads_provideFileChunk (f : FileRef) (subscriberId : Int) (data : Bytes)
    (s : Server) :
    SameDownloads s ((File.provideFileChunk f subscriberId data).exec s).2 := by
  rw [File.provideFileChunk_exec]
  split
  · exact .refl s
  · split
    · exact .refl s
    · next hsub =>
      split
      · next hok =>
        obtain ⟨-, rfl⟩ := Subscriber.provideFileChunk_eq_ok.mp hok
        exact .of_eq rfl rfl rfl (ticket_modifySubscriber hsub rfl)
      · exact .refl s

theorem sameDownloads_read (σ : SubscriberRef) (count : Int) (s : Server) :
    SameDownloads s ((Subscriber.read σ count).exec s).2 := by
  rcases hsub : s.subscribers σ with - | sub
  · rw [Subscriber.read_exec_none hsub]
    exact .refl s
  · rw [Subscriber.read_exec hsub]
    split
    · exact .refl s
    · next sub' _ =>
      obtain ⟨_, _, hframe⟩ := sub'.requestChunk_frame count s
      rw [hframe]
      exact .of_eq rfl rfl rfl fun _ => rfl
    · next sub' hok =>
      have hticket : ticket sub' = ticket sub := by
        obtain ⟨-, ⟨chunk, -, -, -, -, rfl⟩ | ⟨-, -, -, rfl⟩ | ⟨-, -, rfl⟩⟩ :=
          Subscriber.readChunk_eq_ok hok
        · rfl
        · rfl
        · rfl
      exact .of_eq rfl rfl rfl (ticket_modifySubscriber hsub hticket)

theorem preservesTables_read (σ : SubscriberRef) (count : Int) (s : Server) :
    PreservesTables s ((Subscriber.read σ count).exec s).2 :=
  .of_catalogue (sameDownloads_read σ count s) (catalogue_read s σ count)
    (preservesLinks_read σ count s)

theorem preservesTables_broadcast (ρ : RoomRef) (message : Object MessageDto) (s : Server) :
    PreservesTables s (Room.sendMessageAsync ρ message s) := by
  refine .of_catalogue ?_ (catalogue_broadcast s ρ message)
    (preservesLinks_operations.sendMessageAsync ρ message s)
  obtain ⟨_, hframe⟩ := Room.sendMessageAsync_frame ρ message s
  rw [hframe]
  exact .of_eq rfl rfl rfl fun _ => rfl

theorem preservesTables_addHistoryMessage (config : ConfigDto) (ρ : RoomRef)
    (message : Object MessageDto)
    (s : Server) : PreservesTables s (Room.addHistoryMessage config ρ message s) := by
  refine .of_catalogue ?_ (catalogue_addHistoryMessage s ρ config message)
    (preservesLinks_operations.addHistoryMessage config ρ message s)
  unfold Room.addHistoryMessage
  split
  · exact .refl s
  · exact .of_eq rfl rfl rfl fun _ => rfl

theorem preservesTables_operations : Handler.Operations PreservesTables where
  refl s := .of_catalogue (.refl s) rfl (preservesLinks_operations.refl s)
  trans := .trans
  createShared dto s :=
    .of_catalogue (.of_eq rfl rfl rfl fun _ => rfl) rfl
      (preservesLinks_operations.createShared dto s)
  getMicroTickCount s :=
    .of_catalogue (.of_eq rfl rfl rfl fun _ => rfl) rfl
      (preservesLinks_operations.getMicroTickCount s)
  countMessage s :=
    .of_catalogue (.of_eq rfl rfl rfl fun _ => rfl) rfl (preservesLinks_operations.countMessage s)
  addHistoryMessage := preservesTables_addHistoryMessage
  sendMessageAsync := preservesTables_broadcast
  provideFileChunk f subscriberId data s :=
    .of_catalogue (sameDownloads_provideFileChunk f subscriberId data s)
      (catalogue_provideFileChunk s f subscriberId data)
      (preservesLinks_operations.provideFileChunk f subscriberId data s)

/-- Registering files adds files without subscribers. -/
theorem preservesTables_registers : Handler.Registers PreservesTables := by
  intro ρ peerId host clientFileId fileName fileSize s hhost
  have hpreserves := preservesLinks_registers ρ peerId host clientFileId fileName fileSize s hhost
  have hold : ∀ f, f ≠ s.fileCount →
      (Room.registerFile ρ host clientFileId fileName fileSize s).2.files f = s.files f :=
    fun f hne => Function.update_of_ne hne _ _
  refine ⟨⟨Nat.le_succ _, fun f hf => ?_, fun f id σ hσ => ?_, rfl, fun _ => rfl⟩, ?_, hpreserves⟩
  · rw [hold f hf.ne]
    exact ⟨rfl, rfl, rfl⟩
  · rcases eq_or_ne f s.fileCount with rfl | hne
    · change (Function.update s.files s.fileCount _ s.fileCount).subscribers.lookup id =
        some σ at hσ
      rw [Function.update_self] at hσ
      cases hσ
    · rwa [hold f hne] at hσ
  · unfold Conversation.membership
    rw [catalogue_registerFile]
    rfl

theorem preservesTables_modifyPeer (s : Server) (p : PeerRef) {g : Peer → Peer}
    (hroom : ∀ peer, (g peer).room = peer.room) (hid : ∀ peer, (g peer).peerId = peer.peerId)
    (hsocket : ∀ peer, (g peer).socket = peer.socket)
    (hfiles : ∀ peer, (g peer).files = peer.files) : PreservesTables s (s.modifyPeer p g) :=
  .of_catalogue (.of_eq rfl rfl rfl fun _ => rfl)
    (catalogue_modifyPeer s p hroom hid hsocket hfiles)
    (preservesLinks_modifyPeer s p hroom hid hsocket hfiles)

theorem preservesTables_readMessage (fw : Framework) (config : ConfigDto) (p : PeerRef)
    (data : Bytes)
    (s : Server) : PreservesTables s ((Peer.readMessage fw config p data).exec s).2 :=
  preservesTables_operations.readMessage
    (fun s p _ => preservesTables_modifyPeer s p (fun _ => rfl) (fun _ => rfl) (fun _ => rfl)
      fun _ => rfl)
    preservesTables_registers fw config p data s

theorem preservesTables_sendError (p : PeerRef) (coroutine : SendErrorCoroutine) (s : Server) :
    PreservesTables s (Isolation.sendError p coroutine s) := by
  have hpreserves := preservesLinks_sendError p coroutine s
  have hcreated : PreservesTables s (s.createShared coroutine.message).2 :=
    preservesTables_operations.createShared coroutine.message s
  unfold Isolation.sendError at hpreserves ⊢
  dsimp only at hpreserves ⊢
  split
  · next hsome =>
    rw [if_pos hsome] at hpreserves
    refine ⟨hcreated.toSameDownloads.trans ?_, ?_, hpreserves⟩
    · obtain ⟨_, hframe⟩ := Peer.sendMessageAsync_frame p (s.createShared coroutine.message).1
        (s.createShared coroutine.message).2
      rw [hframe]
      exact .of_eq rfl rfl rfl fun _ => rfl
    · unfold Conversation.membership
      rw [catalogue_sendMessageAsync]
      rfl
  · exact hcreated

/-- A ping round changes sockets and counters only. -/
theorem sameDownloads_pingRound (s : Server) :
    SameDownloads s (Lobby.pingRound s) ∧ membership (Lobby.pingRound s) = membership s := by
  unfold Lobby.pingRound
  generalize s.lobbyRooms.values = ρs
  induction ρs generalizing s with
  | nil => exact ⟨.refl s, rfl⟩
  | cons ρ ρs ih =>
      obtain ⟨hdownloads, hmembership⟩ := ih (Room.pingAllPeers ρ s)
      constructor
      · obtain ⟨_, _, hframe, -⟩ := Room.pingAllPeers_frame ρ s
        refine SameDownloads.trans ?_ hdownloads
        rw [hframe]
        exact .of_eq rfl rfl rfl fun _ => rfl
      · obtain ⟨_, hcatalogue, -⟩ := catalogue_pingAllPeers s ρ
        refine hmembership.trans ?_
        unfold Conversation.membership
        rw [hcatalogue]

theorem preservesTables_pingRound (s : Server) : PreservesTables s (Lobby.pingRound s) :=
  ⟨(sameDownloads_pingRound s).1, (sameDownloads_pingRound s).2, preservesLinks_pingRound s⟩

end PreservesTables

/-! ### Hosts -/

section Hosts

variable {s t : Server} {p q : PeerRef}

/-- The host of `f` is a member of its room. -/
def Hosted (s : Server) (f : FileRef) : Prop := s.catalogue.Present (s.catalogue.host f)

theorem sameDownloads_onAfterCreate (config : ConfigDto) (k : SocketRef)
    (roomName nickname : String)
    (s : Server) :
    SameDownloads s (Lobby.onAfterCreateNonBlocking config k roomName nickname s).2 := by
  have hquiet := Streaming.Quiet.onAfterCreateNonBlocking s config k roomName nickname
  refine .of_eq hquiet.files hquiet.fileCount hquiet.subscriberCount fun σ => ?_
  rw [hquiet.subscribers]

/-- A join leaves the membership of the allocated peers. -/
theorem present_onAfterCreate (h : s.catalogue.Shelved) (config : ConfigDto) (k : SocketRef)
    (roomName nickname : String) (hp : p < s.peerCount) :
    (Lobby.onAfterCreateNonBlocking config k roomName nickname s).2.catalogue.Present p ↔
      s.catalogue.Present p := by
  obtain ⟨-, -, hcatalogue⟩ := catalogue_entered s config k roomName nickname
  rw [hcatalogue]
  have hroom := catalogue_getOrCreateRoom (Lobby.countConnected s) roomName
  rcases hname : Lobby.getRoom roomName (Lobby.countConnected s) with - | ρ
  · rw [hname] at hroom
    rw [hroom]
    exact ((h.createRoom roomName).present_join k _ hp).trans (h.present_createRoom roomName hp)
  · rw [hname] at hroom
    rw [hroom]
    exact h.present_join k _ hp

theorem present_onBeforeDestroy (h : s.catalogue.Shelved) (hp : s.catalogue.Present p)
    (config : ConfigDto) (hq : q < s.peerCount) :
    (Lobby.onBeforeDestroyNonBlocking config p s).catalogue.Present q ↔
      s.catalogue.Present q ∧ q ≠ p := by
  have hleft := h.present_leave hp hq
  rw [← catalogue_goodbyePeer s p config hp] at hleft
  unfold Lobby.onBeforeDestroyNonBlocking
  dsimp only
  split
  · rw [catalogue_deleteRoom]
    exact hleft
  · exact hleft

/-- After cancelling the files of the leaver, the rest of
`onBeforeDestroyNonBlocking` leaves the downloads. -/
theorem cancelled_onBeforeDestroy (hp : s.catalogue.Present p) (config : ConfigDto) :
    SameDownloads
      ((s.peers p).files.foldl (Room.cancelFile (s.peers p).room) (Lobby.countDisconnected s))
      (Lobby.onBeforeDestroyNonBlocking config p s) := by
  let ρ := (s.peers p).room
  let counted := Lobby.countDisconnected s
  let removed := Room.removePeerById ρ (s.peers p).peerId counted
  have hlookup : Room.getPeerById ρ (s.peers p).peerId counted = some p := hp
  have hremoved : SameDownloads ((s.peers p).files.foldl (Room.cancelFile ρ) counted) removed := by
    have heq : removed = Room.erasePeer ρ (s.peers p).peerId
        ((counted.peers p).files.foldl (Room.cancelFile ρ) counted) := by
      show Room.removePeerById ρ (s.peers p).peerId counted = _
      unfold Room.removePeerById
      rw [hlookup]
    rw [heq]
    exact .of_eq rfl rfl rfl fun _ => rfl
  let message := removed.createShared (Room.leftMessage p removed)
  have hbroadcast : SameDownloads removed (Room.goodbyePeer config ρ p removed) :=
    ((preservesTables_operations.createShared _ removed).trans
      ((preservesTables_addHistoryMessage config ρ message.1 message.2).trans
        (preservesTables_broadcast ρ message.1 _))).toSameDownloads
  have hgone :
      SameDownloads removed (Peer.invalidateSocket p (Room.goodbyePeer config ρ p removed)) :=
    hbroadcast.trans (.of_eq rfl rfl rfl fun _ => rfl)
  refine (hremoved.trans hgone).trans ?_
  unfold Lobby.onBeforeDestroyNonBlocking
  dsimp only
  split
  · exact .of_eq rfl rfl rfl fun _ => rfl
  · exact .refl _

/-- The server id of a file and the name of its room, as in its link. -/
def address (s : Server) (f : FileRef) : Int × String :=
  ((s.files f).serverFileId, (s.rooms (s.peers (s.files f).host).room).name)

/-- Files keep their addresses. -/
theorem PreservesLinks.address (h : PreservesLinks s t) (hshelved : s.catalogue.Shelved)
    (hextends : s.scene.ExtendsPeers t.scene) {f : FileRef} (hf : f < s.fileCount) :
    address t f = address s f := by
  have hlabel := h.label f hf
  have hhost : (t.files f).host = (s.files f).host := congrArg Prod.fst hlabel
  have hid : (t.files f).serverFileId = (s.files f).serverFileId :=
    Option.some.inj (congrArg (fun label => label.2.serverFileId) hlabel)
  have hlt : (s.files f).host < s.peerCount := hshelved.numbered.host_lt f hf
  have hroom : (t.peers (s.files f).host).room = (s.peers (s.files f).host).room :=
    (hextends.same _ hlt).room
  have hname : (t.rooms (s.peers (s.files f).host).room).name =
      (s.rooms (s.peers (s.files f).host).room).name :=
    h.keepsRoomNames.roomName _ (hshelved.numbered.room_lt _ hlt)
  unfold Conversation.address
  rw [hid, hhost, hroom, hname]

end Hosts

/-! ### Runs -/

/-- The invariant of runs: the allocated subscribers are those of the open
downloads, each of the file that was requested, and the tables are `Waited`. -/
structure Attached (requests : Requests) (s : State) : Prop where
  waited : Waited (Hosted s.server) s.server
  isSome : ∀ σ, (s.server.subscribers σ).isSome = true ↔ ∃ i, connected (s.download i) = some σ
  apart : ∀ i j σ, connected (s.download i) = some σ → connected (s.download j) = some σ → i = j
  asked : ∀ i σ sub, connected (s.download i) = some σ → s.server.subscribers σ = some sub →
    address s.server sub.file = (requests.fileId i, requests.roomId i)

section Attached

variable {fw : Framework} {config : ConfigDto} {requests : Requests} {T : Transcript} {s t : State}

/-- The subscriber of an open download belongs to the requested file. -/
theorem Attached.finds (h : Attached requests s)
    (haddress : ∀ f < s.server.fileCount, address t.server f = address s.server f) {i : ℕ}
    {σ : SubscriberRef} {sub : Subscriber} (hi : connected (s.download i) = some σ)
    (hsub : s.server.subscribers σ = some sub) :
    address t.server sub.file = (requests.fileId i, requests.roomId i) :=
  (haddress _ (h.waited.subscribed.allocated σ sub hsub).2.1).trans (h.asked i σ sub hi hsub)

/-- A step that neither starts nor ends a download preserves the invariant. -/
theorem Attached.sameDownloads (h : Attached requests s)
    (hdownloads : SameDownloads s.server t.server)
    (haddress : ∀ f < s.server.fileCount, address t.server f = address s.server f)
    (hhosts : ∀ f < s.server.fileCount, Hosted s.server f ↔
      t.server.catalogue.Present (s.server.catalogue.host f))
    (hdownload : ∀ i, connected (t.download i) = connected (s.download i)) :
    Attached requests t := by
  have halive : ∀ f < s.server.fileCount, Hosted s.server f ↔ Hosted t.server f := by
    intro f hf
    have hhost : t.server.catalogue.host f = s.server.catalogue.host f := (hdownloads.files f hf).1
    refine (hhosts f hf).trans ?_
    show _ ↔ t.server.catalogue.Present (t.server.catalogue.host f)
    rw [hhost]
  refine ⟨(h.waited.congr halive).sameDownloads hdownloads, fun σ => ?_, fun i j σ hi hj => ?_,
    fun i σ sub' hi hsub' => ?_⟩
  · rw [hdownloads.isSome]
    refine (h.isSome σ).trans (exists_congr fun i => ?_)
    rw [hdownload]
  · rw [hdownload] at hi hj
    exact h.apart i j σ hi hj
  · rw [hdownload] at hi
    obtain ⟨sub, hsub, hfile, -⟩ := hdownloads.exists_subscriber hsub'
    rw [← hfile]
    exact h.finds haddress hi hsub

theorem Attached.preservesTables (h : Attached requests s) (hshelved : s.server.catalogue.Shelved)
    (hextends : s.server.scene.ExtendsPeers t.server.scene)
    (htables : PreservesTables s.server t.server)
    (hdownload : ∀ i, connected (t.download i) = connected (s.download i)) :
    Attached requests t :=
  h.sameDownloads htables.toSameDownloads
    (fun _ => htables.preservesLinks.address hshelved hextends)
    (fun _ _ => (htables.isMember _).symm) hdownload

/-- A leave: the files of the leaver are cancelled. -/
theorem Attached.leave (h : Attached requests s) (hshelved : s.server.catalogue.Shelved)
    (haddress : ∀ f < s.server.fileCount, address t.server f = address s.server f) {p : PeerRef}
    (hp : s.server.catalogue.Present p)
    (hserver : t.server = Lobby.onBeforeDestroyNonBlocking config p s.server)
    (hdownload : t.download = s.download) : Attached requests t := by
  let ρ := (s.server.peers p).room
  let fs := (s.server.peers p).files
  let counted := Lobby.countDisconnected s.server
  have hgone : SameDownloads (fs.foldl (Room.cancelFile ρ) counted) t.server := by
    rw [hserver]
    exact cancelled_onBeforeDestroy hp config
  have hcounted : SameDownloads s.server counted := .of_eq rfl rfl rfl fun _ => rfl
  have hcancelled : Waited (fun f => Hosted s.server f ∧ f ∉ fs)
      (fs.foldl (Room.cancelFile ρ) counted) := (h.waited.sameDownloads hcounted).cancelFiles ρ fs
  have hfileCount : (fs.foldl (Room.cancelFile ρ) counted).fileCount = s.server.fileCount :=
    congrArg Prod.fst (labels_cancelFiles ρ fs counted)
  have hhosts : ∀ f < (fs.foldl (Room.cancelFile ρ) counted).fileCount,
      Hosted s.server f ∧ f ∉ fs ↔ Hosted t.server f := by
    intro f hf
    rw [hfileCount] at hf
    have hlabel : ((fs.foldl (Room.cancelFile ρ) counted).files f).host =
        (s.server.files f).host := congrArg Prod.fst
      (congrFun (congrArg Prod.snd (labels_cancelFiles ρ fs counted)) f)
    have hhost : t.server.catalogue.host f = s.server.catalogue.host f :=
      (hgone.files f (hf.trans_eq hfileCount.symm)).1.trans hlabel
    have hpresent : t.server.catalogue.Present (s.server.catalogue.host f) ↔
        Hosted s.server f ∧ s.server.catalogue.host f ≠ p := by
      rw [hserver]
      exact present_onBeforeDestroy hshelved hp config (hshelved.numbered.host_lt f hf)
    -- the cancelled files are exactly those hosted by the leaver
    have hmine : f ∈ fs ↔ s.server.catalogue.host f = p :=
      (hshelved.hosted p f).trans (and_iff_right hf)
    show _ ↔ t.server.catalogue.Present (t.server.catalogue.host f)
    rw [hhost, hpresent, hmine]
  have hisSome : ∀ σ, (t.server.subscribers σ).isSome = (s.server.subscribers σ).isSome := by
    intro σ
    rw [hgone.isSome, isSome_cancelFiles]
    rfl
  refine ⟨(hcancelled.congr hhosts).sameDownloads hgone, fun σ => ?_, ?_,
    fun i σ sub' hi hsub' => ?_⟩
  · rw [hisSome, hdownload]
    exact h.isSome σ
  · rw [hdownload]
    exact h.apart
  · rw [hdownload] at hi
    obtain ⟨sub₀, hsub₀, hfile₀, -⟩ := hgone.exists_subscriber hsub'
    obtain ⟨sub, hsub, hrem⟩ := subscribersFrom_cancelFiles ρ fs counted σ sub₀ hsub₀
    rw [← hfile₀, hrem.file]
    exact h.finds haddress hi hsub

/-- `GetFile` subscribes to a file whose host is a member. -/
theorem Attached.subscribe (h : Attached requests s) (hshelved : s.server.catalogue.Shelved)
    (hhoused : s.server.directory.Housed)
    (haddress : ∀ f < s.server.fileCount, address t.server f = address s.server f) {i : ℕ}
    {ρ : RoomRef} {f : FileRef} (hidle : s.download i = .idle)
    (hroom : Lobby.getRoom (requests.roomId i) s.server = some ρ)
    (hfile : Room.getFileById ρ (requests.fileId i) s.server = some f)
    (hserver : t.server = (File.subscribe f s.server).2)
    (hdownload : t.download = Function.update s.download i (.live s.server.subscriberCount)) :
    Attached requests t := by
  have hfound : s.server.catalogue.fileById ρ (requests.fileId i) = some f := hfile
  obtain ⟨hf, hhostRoom, hid⟩ := hshelved.numbered.fileById ρ _ f hfound
  have hsubscribed := h.waited.subscribe hf (hshelved.present ρ _ f hfound)
  have hasked : address s.server f = (requests.fileId i, requests.roomId i) := by
    have hname := (hhoused.lobby _ ρ hroom).2
    have hhostRoom : (s.server.peers (s.server.files f).host).room = ρ := hhostRoom
    refine Prod.ext hid ?_
    show (s.server.rooms (s.server.peers (s.server.files f).host).room).name = _
    rw [hhostRoom]
    exact hname
  have hhosts : ∀ g, Hosted (File.subscribe f s.server).2 g ↔ Hosted s.server g := by
    intro g
    unfold Hosted
    rw [catalogue_subscribe]
  have hself : connected (t.download i) = some s.server.subscriberCount := by
    rw [hdownload, Function.update_self]
    rfl
  have hother : ∀ j, j ≠ i → connected (t.download j) = connected (s.download j) := by
    intro j hne
    rw [hdownload, Function.update_of_ne hne]
  -- the subscriber is new
  have hnew : ∀ j, connected (s.download j) ≠ some s.server.subscriberCount := by
    intro j hj
    obtain ⟨sub, hsub⟩ := Option.isSome_iff_exists.mp ((h.isSome _).mpr ⟨j, hj⟩)
    exact (h.waited.subscribed.allocated _ sub hsub).1.ne rfl
  refine ⟨?_, fun σ => ?_, fun j k σ hj hk => ?_, fun j σ sub hj hsub => ?_⟩
  · rw [hserver]
    exact hsubscribed.congr fun g _ => (hhosts g).symm
  · rw [hserver]
    rw [subscribers_subscribe]
    rcases eq_or_ne σ s.server.subscriberCount with rfl | hne
    · rw [if_pos rfl]
      exact iff_of_true rfl ⟨i, hself⟩
    · rw [if_neg hne, h.isSome σ]
      constructor
      · rintro ⟨j, hj⟩
        have hji : j ≠ i := by
          rintro rfl
          rw [hidle] at hj
          cases hj
        exact ⟨j, (hother j hji).trans hj⟩
      · rintro ⟨j, hj⟩
        have hji : j ≠ i := by
          rintro rfl
          exact hne (Option.some.inj (hj.symm.trans hself))
        exact ⟨j, (hother j hji).symm.trans hj⟩
  · rcases eq_or_ne j i with rfl | hji
    · rcases eq_or_ne k j with rfl | hkj
      · rfl
      · rw [hother k hkj] at hk
        obtain rfl := Option.some.inj (hself.symm.trans hj)
        exact absurd hk (hnew k)
    · rcases eq_or_ne k i with rfl | hki
      · rw [hother j hji] at hj
        obtain rfl := Option.some.inj (hself.symm.trans hk)
        exact absurd hj (hnew j)
      · rw [hother j hji] at hj
        rw [hother k hki] at hk
        exact h.apart j k σ hj hk
  · rw [hserver, subscribers_subscribe] at hsub
    rcases eq_or_ne j i with rfl | hji
    · obtain rfl := Option.some.inj (hself.symm.trans hj)
      rw [if_pos rfl] at hsub
      obtain rfl := Option.some.inj hsub
      exact (haddress f hf).trans hasked
    · rw [hother j hji] at hj
      have hne : σ ≠ s.server.subscriberCount := by
        rintro rfl
        exact hnew j hj
      rw [if_neg hne] at hsub
      exact h.finds haddress hj hsub

/-- The end of a response. -/
theorem Attached.destroy (h : Attached requests s)
    (haddress : ∀ f < s.server.fileCount, address t.server f = address s.server f) {i : ℕ}
    {σ : SubscriberRef}
    (hlink : connected (s.download i) = some σ)
    (hserver : t.server = Subscriber.destroy σ s.server)
    (hdownload : t.download = Function.update s.download i (.closed σ)) : Attached requests t := by
  -- the request of the subscriber destroyed is closed, all others are as before
  have hgone : connected (t.download i) = none := by
    rw [hdownload, Function.update_self]
    rfl
  have hother : ∀ j, j ≠ i → connected (t.download j) = connected (s.download j) := by
    intro j hne
    rw [hdownload, Function.update_of_ne hne]
  have hstill : ∀ j τ, connected (t.download j) = some τ →
      connected (s.download j) = some τ ∧ j ≠ i := by
    intro j τ hj
    have hne : j ≠ i := by
      rintro rfl
      rw [hgone] at hj
      cases hj
    exact ⟨(hother j hne).symm.trans hj, hne⟩
  refine ⟨?_, fun τ => ?_, fun j k τ hj hk => ?_, fun j τ sub hj hsub => ?_⟩
  · rw [hserver]
    refine (h.waited.destroy σ).congr fun f _ => ?_
    unfold Hosted
    rw [catalogue_destroy]
  · rw [hserver, subscribers_destroy]
    -- no other request has subscriber `σ`
    rcases eq_or_ne τ σ with rfl | hne
    · rw [if_pos rfl]
      refine iff_of_false (by simp) ?_
      rintro ⟨j, hj⟩
      obtain ⟨hj, hji⟩ := hstill j τ hj
      exact hji (h.apart j i τ hj hlink)
    · rw [if_neg hne, h.isSome τ]
      constructor
      · rintro ⟨j, hj⟩
        have hji : j ≠ i := by
          rintro rfl
          exact hne (Option.some.inj (hj.symm.trans hlink))
        exact ⟨j, (hother j hji).trans hj⟩
      · rintro ⟨j, hj⟩
        exact ⟨j, (hstill j τ hj).1⟩
  · exact h.apart j k τ (hstill j τ hj).1 (hstill k τ hk).1
  · rw [hserver, subscribers_destroy] at hsub
    split at hsub
    · cases hsub
    · exact h.finds haddress (hstill j τ hj).1 hsub

theorem Attached.timed (h : Attached requests s) (clock : ℕ → Int) :
    Attached requests { s with server := setClock clock s.server } :=
  ⟨⟨⟨h.waited.subscribed.allocated, h.waited.subscribed.id_inj, h.waited.subscribed.listed⟩,
    h.waited.table, h.waited.alive⟩, h.isSome, h.apart, h.asked⟩

theorem Attached.step {a : Occurrence} (h : Attached requests s) (hheld : Held config T s)
    (hlinked : Linked s.server) (hstep : s.step fw config requests a = some t) :
    Attached requests t := by
  obtain ⟨-, -, hextends, -⟩ := hheld.step fw config (P := fun _ => []) hstep
  have hkept : ∀ clock, PreservesTables (setClock clock s.server) t.server →
      (∀ i, connected (t.download i) = connected (s.download i)) → Attached requests t :=
    fun clock => (h.timed clock).preservesTables hlinked.shelved hextends
  have hstay : ∀ clock, PreservesLinks (setClock clock s.server) t.server →
      ∀ f < s.server.fileCount, address t.server f = address s.server f :=
    fun _ hpreserves _ => hpreserves.address hlinked.shelved hextends
  -- a read leaves the connection its subscriber, also if it fails
  have hsame : ∀ {i σ link}, s.download i = .live σ → connected link = some σ → ∀ j,
      connected (Function.update s.download i link j) = connected (s.download j) := by
    intro i σ link hlive hlink j
    rcases eq_or_ne j i with rfl | hne
    · rw [Function.update_self, hlive]
      exact hlink
    · rw [Function.update_of_ne hne]
  cases moves_of_step hstep with
  | @join k clock joined idle handled =>
      subst handled
      have hindexed : Indexed (setClock clock s.server).directory := hheld.refines.realizes.indexed
      apply (h.timed clock).sameDownloads (sameDownloads_onAfterCreate config k _ _ _)
      · exact hstay clock (preservesLinks_onAfterCreate hindexed config k _ _)
      · intro f hf
        have hhost := hlinked.shelved.numbered.host_lt f hf
        exact (present_onAfterCreate (s := setClock clock s.server) hlinked.shelved config k _ _
          hhost).symm
      · exact fun _ => rfl
  | @taken k clock data p server live handled =>
      have hread := preservesTables_readMessage fw config p data (setClock clock s.server)
      rw [handled] at hread
      exact hkept clock hread fun _ => rfl
  | @answered k clock data p server coroutine live handled =>
      have hread := preservesTables_readMessage fw config p data (setClock clock s.server)
      rw [handled] at hread
      exact hkept clock (hread.trans (preservesTables_sendError p coroutine server)) fun _ => rfl
  | @raised k clock data p server fault live handled =>
      have hread := preservesTables_readMessage fw config p data (setClock clock s.server)
      rw [handled] at hread
      exact hkept clock hread fun _ => rfl
  | @pong k clock p live =>
      have htables :
          PreservesTables (setClock clock s.server) (Peer.onPong p (setClock clock s.server)) :=
        preservesTables_modifyPeer _ p (fun _ => rfl) (fun _ => rfl) (fun _ => rfl) fun _ => rfl
      exact hkept clock htables fun _ => rfl
  | @leave k clock p ending =>
      have hisMember : (setClock clock s.server).scene.IsMember p :=
        hheld.link k p (connected_of_ending ending)
      exact (h.timed clock).leave hlinked.shelved
        (hstay clock (preservesLinks_onBeforeDestroy hisMember config)) hisMember rfl rfl
  | @refused i clock idle missing =>
      refine hkept clock (preservesTables_operations.refl _) fun j => ?_
      show connected (Function.update s.download i .refused j) = connected (s.download j)
      rcases eq_or_ne j i with rfl | hne
      · rw [Function.update_self, idle]
        rfl
      · rw [Function.update_of_ne hne]
  | @subscribed i clock ρ f idle room file =>
      exact (h.timed clock).subscribe hlinked.shelved hlinked.housed
        (hstay clock (preservesLinks_subscribe f _)) idle room file rfl rfl
  | @read i clock count σ server result live handled =>
      have hread := preservesTables_read σ count (setClock clock s.server)
      rw [handled] at hread
      exact hkept clock hread (hsame live rfl)
  | @broken i clock count σ server fault live handled =>
      have hread := preservesTables_read σ count (setClock clock s.server)
      rw [handled] at hread
      exact hkept clock hread (hsame live rfl)
  | @drop i clock σ ending =>
      exact (h.timed clock).destroy (hstay clock (preservesLinks_destroy σ _))
        (connected_of_ending ending)
        rfl rfl
  | @pingRound clock => exact hkept clock (preservesTables_pingRound _) fun _ => rfl

theorem Attached.init : Attached requests {} := by
  refine ⟨⟨⟨?_, ?_, ?_⟩, ?_, ?_⟩, ?_, ?_, ?_⟩
  · intro σ sub hsub
    cases hsub
  · intro σ σ' sub sub' hsub
    cases hsub
  · intro σ sub hsub
    cases hsub
  · intro f id σ hσ
    cases hσ
  · intro σ sub hsub
    cases hsub
  · intro σ
    refine iff_of_false (by simp) ?_
    rintro ⟨i, hi⟩
    cases hi
  · intro i j σ hi
    cases hi
  · intro i σ sub hi
    cases hi

theorem Attached.run {acts : List Occurrence} (h : Attached requests s) (hheld : Held config T s)
    (hlinked : Linked s.server) (hrun : (system fw config requests).run s acts = some t) :
    Attached requests t := by
  induction acts generalizing s T with
  | nil =>
      cases hrun
      exact h
  | cons a acts ih =>
      obtain ⟨u, hstep, hrest⟩ := Option.bind_eq_some_iff.mp hrun
      obtain ⟨T₁, -, -, hheld', -⟩ := hheld.step fw config (P := fun _ => []) hstep
      exact ih (h.step hheld hlinked hstep) hheld' (hlinked.step hheld hstep) hrest

/-- A read of an invalid subscriber throws. -/
theorem read_of_invalid {s : Server} {σ : SubscriberRef} {sub : Subscriber}
    (hsub : s.subscribers σ = some sub) (hvalid : sub.valid = false) (count : Int) :
    (Subscriber.read σ count).exec s = (.error (.exception "File is not valid any more."), s) := by
  have hread : sub.readChunk (s.files sub.file).fileSize count =
      .error (.exception "File is not valid any more.") := if_pos hvalid
  rw [Subscriber.read_exec hsub, hread]

/-- `provideFileChunk` passes the chunk to the subscriber found in the table. -/
theorem provideFileChunk_of_lookup {s : Server} {f : FileRef} {id : Int} {σ : SubscriberRef}
    {sub : Subscriber} (hσ : (s.files f).subscribers.lookup id = some σ)
    (hsub : s.subscribers σ = some sub) (hchunk : sub.chunk = none) (data : Bytes) :
    (File.provideFileChunk f id data).exec s =
      (.ok (), s.modifySubscriber σ fun _ => { sub with chunk := some data }) := by
  have htaken : sub.provideFileChunk data = .ok { sub with chunk := some data } :=
    Subscriber.provideFileChunk_eq_ok.mpr ⟨hchunk, rfl⟩
  rw [File.provideFileChunk_exec, hσ]
  dsimp only
  rw [hsub]
  dsimp only
  rw [htaken]

variable (fw) (config) in
/-- **Open downloads and their subscribers.**  Handlers not interleaved.  Each open
download has a subscriber of its own, of the file it requested.  While the host of
the file is a member, its chunks reach this subscriber; afterwards every read
throws.  Each table entry leads to the subscriber of an open download of this file
whose host is a member, so no pointer dangles. -/
theorem downloads_open {acts : List Occurrence} {s : State}
    (hrun : (system fw config requests).run {} acts = some s) :
    (∀ i σ, connected (s.download i) = some σ → ∃ sub, s.server.subscribers σ = some sub ∧
      (∀ j, connected (s.download j) = some σ → j = i) ∧
      address s.server sub.file = (requests.fileId i, requests.roomId i) ∧
      if s.server.scene.IsMember (s.server.files sub.file).host then
        sub.chunk = none → ∀ data, (File.provideFileChunk sub.file sub.id data).exec s.server =
          (.ok (), s.server.modifySubscriber σ fun _ => { sub with chunk := some data })
      else ∀ count, (Subscriber.read σ count).exec s.server =
        (.error (.exception "File is not valid any more."), s.server)) ∧
    ∀ f id σ, (s.server.files f).subscribers.lookup id = some σ →
      s.server.scene.IsMember (s.server.files f).host ∧ ∃ i sub, connected (s.download i) = some σ ∧
        s.server.subscribers σ = some sub ∧ sub.file = f ∧ sub.id = id ∧ sub.valid = true := by
  have hattached : Attached requests s := Attached.init.run (Held.init config) Linked.init hrun
  obtain ⟨hsubscribed, htable, halive⟩ := hattached.waited
  constructor
  · intro i σ hi
    obtain ⟨sub, hsub⟩ := Option.isSome_iff_exists.mp ((hattached.isSome σ).mpr ⟨i, hi⟩)
    refine ⟨sub, hsub, fun j hj => hattached.apart j i σ hj hi, hattached.asked i σ sub hi hsub, ?_⟩
    split
    · next hisMember =>
      have hvalid : sub.valid = true := (halive σ sub hsub).mpr hisMember
      exact provideFileChunk_of_lookup (hsubscribed.listed σ sub hsub hvalid) hsub
    · next hgone =>
      have hinvalid : sub.valid = false := by
        rw [← Bool.not_eq_true, halive σ sub hsub]
        exact hgone
      exact read_of_invalid hsub hinvalid
  · intro f id σ hσ
    obtain ⟨sub, hsub, rfl, hid, hvalid⟩ := htable f id σ hσ
    obtain ⟨i, hi⟩ := (hattached.isSome σ).mp (Option.isSome_iff_exists.mpr ⟨sub, hsub⟩)
    exact ⟨(halive σ sub hsub).mp hvalid, i, sub, hi, hsub, rfl, hid, hvalid⟩

/-- The downloads ask for the files of the lounge one by one. -/
def oneByOne : Requests := { oneRoom with fileId := fun i => i + 1 }

/-- Bob's picture is being downloaded when he leaves, then Ann's is. -/
theorem downloads_open_twoPosts : ∃ s,
    (system photographer {} oneByOne).run {} (twoPosts ++ [⟨.download 1 .getFile, fun _ => 8⟩]) =
      some s ∧
    [0, 1].map (fun i => connected (s.download i)) = [some 0, some 1] ∧
    [0, 1].map (fun σ => ((Subscriber.read σ 1).exec s.server).1.toBool) = [false, true] ∧
    ∀ i σ, connected (s.download i) = some σ → ∃ sub, s.server.subscribers σ = some sub ∧
      (∀ j, connected (s.download j) = some σ → j = i) ∧
      address s.server sub.file = (oneByOne.fileId i, oneByOne.roomId i) ∧
      if s.server.scene.IsMember (s.server.files sub.file).host then
        sub.chunk = none → ∀ data, (File.provideFileChunk sub.file sub.id data).exec s.server =
          (.ok (), s.server.modifySubscriber σ fun _ => { sub with chunk := some data })
      else ∀ count, (Subscriber.read σ count).exec s.server =
        (.error (.exception "File is not valid any more."), s.server) := by
  have hends : ((system photographer {} oneByOne).run {}
      (twoPosts ++ [⟨.download 1 .getFile, fun _ => 8⟩])).map (fun s =>
        ([0, 1].map (fun i => connected (s.download i)),
          [0, 1].map fun σ => ((Subscriber.read σ 1).exec s.server).1.toBool)) =
      some ([some 0, some 1], [false, true]) := by decide +kernel
  obtain ⟨s, hrun, hs⟩ := Option.map_eq_some_iff.mp hends
  obtain ⟨hlinks, hreads⟩ := Prod.mk.inj hs
  exact ⟨s, hrun, hlinks, hreads, (downloads_open photographer {} hrun).1⟩

end Attached

end Conversation

end CanChat
