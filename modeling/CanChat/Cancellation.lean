/-
CanChat/Cancellation.lean

What a departure does to the downloads of the leaver's files.

`clearSubscribers` invalidates the subscribers it finds in the file's table.
A valid subscriber is always in that table (`Subscribed`), so none that exists
at that moment escapes.  But a download holds its file between `getFileById`
and `subscribe`, and `subscribe` asks nothing about the file: a subscriber made
after `clearSubscribers`, be it before `m_fileById.erase`, is valid and nobody
will ever invalidate it.  The leaver's sharing is cancelled in the runs that
subscribe to a file only before it is cleared (`departed_host_cancelled`).
-/
import CanChat.RoomThreads

namespace CanChat

/-! ### Subscribers and the tables of their files -/

/-- Every valid subscriber is in its file's table under its own id. -/
structure Subscribed (s : Server) : Prop where
  allocated : ∀ σ sub, s.subscribers σ = some sub →
    σ < s.subscriberCount ∧ sub.file < s.fileCount ∧
      sub.id < (s.files sub.file).subscriberIdCounter
  id_inj : ∀ σ σ' sub sub', s.subscribers σ = some sub → s.subscribers σ' = some sub' →
    sub.file = sub'.file → sub.id = sub'.id → σ = σ'
  listed : ∀ σ sub, s.subscribers σ = some sub → sub.valid = true →
    (s.files sub.file).subscribers.lookup sub.id = some σ

/-- `sub'` is what is left of `sub`: it may have been invalidated. -/
structure Remains (sub sub' : Subscriber) : Prop where
  id : sub'.id = sub.id
  file : sub'.file = sub.file
  valid : sub'.valid = true → sub.valid = true

theorem Remains.refl (sub : Subscriber) : Remains sub sub := ⟨rfl, rfl, fun h => h⟩

/-- No subscriber is added between `s` and `s'`. -/
def SubscribersFrom (s s' : Server) : Prop :=
  ∀ σ sub', s'.subscribers σ = some sub' → ∃ sub, s.subscribers σ = some sub ∧ Remains sub sub'

theorem subscribersFrom_of_eq {s s' : Server} (h : s'.subscribers = s.subscribers) :
    SubscribersFrom s s' := fun _ sub' hsub => ⟨sub', h ▸ hsub, .refl sub'⟩

theorem subscribersFrom_modifySubscriber {s : Server} {σ : SubscriberRef} {sub sub' : Subscriber}
    (hsub : s.subscribers σ = some sub) (hrem : Remains sub sub') :
    SubscribersFrom s (s.modifySubscriber σ fun _ => sub') := by
  intro σ' sub'' h'
  rcases eq_or_ne σ' σ with rfl | hne
  · obtain rfl : sub' = sub'' := by simpa [hsub] using h'
    exact ⟨sub, hsub, hrem⟩
  · exact ⟨sub'', by simpa [hne] using h', .refl sub''⟩

theorem subscribersFrom_destroy (s : Server) (σ : SubscriberRef) :
    SubscribersFrom s (Subscriber.destroy σ s) := by
  intro σ' sub' h'
  refine ⟨sub', ?_, .refl sub'⟩
  unfold Subscriber.destroy at h'
  split at h'
  · exact h'
  · rcases eq_or_ne σ' σ with rfl | hne
    · simp at h'
    · simpa [hne, File.unsubscribe] using h'

theorem subscribersFrom_clearSubscribers (s : Server) (f : FileRef) :
    SubscribersFrom s (File.clearSubscribers f s) := by
  intro σ sub' h'
  rw [File.clearSubscribers_eq] at h'
  dsimp only at h'
  split at h'
  · obtain ⟨sub, hsub, rfl⟩ := Option.map_eq_some_iff.mp h'
    exact ⟨sub, hsub, rfl, rfl, by simp [Subscriber.invalidate]⟩
  · exact ⟨sub', h', .refl sub'⟩

namespace Subscribed

variable {s s' : Server}

/-- No subscriber is added, and those that stay valid stay in their tables. -/
theorem mono (h : Subscribed s)
    (hsub : SubscribersFrom s s')
    (hlisted : ∀ σ sub', s'.subscribers σ = some sub' → sub'.valid = true →
      (s'.files sub'.file).subscribers.lookup sub'.id =
        (s.files sub'.file).subscribers.lookup sub'.id)
    (hcounter : ∀ f < s.fileCount,
      (s'.files f).subscriberIdCounter = (s.files f).subscriberIdCounter)
    (hfileCount : s.fileCount ≤ s'.fileCount) (hcount : s'.subscriberCount = s.subscriberCount) :
    Subscribed s' where
  allocated σ sub' h' := by
    obtain ⟨sub, hsub, hrem⟩ := hsub σ sub' h'
    obtain ⟨hσ, hlt, hid⟩ := h.allocated σ sub hsub
    rw [hrem.id, hrem.file, hcount, hcounter _ hlt]
    exact ⟨hσ, hlt.trans_le hfileCount, hid⟩
  id_inj σ₁ σ₂ sub₁' sub₂' h₁ h₂ hfile hid := by
    obtain ⟨sub₁, hsub₁, hrem₁⟩ := hsub σ₁ sub₁' h₁
    obtain ⟨sub₂, hsub₂, hrem₂⟩ := hsub σ₂ sub₂' h₂
    rw [hrem₁.file, hrem₂.file] at hfile
    rw [hrem₁.id, hrem₂.id] at hid
    exact h.id_inj σ₁ σ₂ sub₁ sub₂ hsub₁ hsub₂ hfile hid
  listed σ sub' h' hvalid := by
    obtain ⟨sub, hsub, hrem⟩ := hsub σ sub' h'
    rw [hlisted σ sub' h' hvalid, hrem.id, hrem.file]
    exact h.listed σ sub hsub (hrem.valid hvalid)

theorem subscribe (h : Subscribed s) {f : FileRef} (hf : f < s.fileCount) :
    Subscribed (File.subscribe f s).2 := by
  have hold : ∀ {σ sub}, s.subscribers σ = some sub → σ ≠ s.subscriberCount := fun hsub =>
    (h.allocated _ _ hsub).1.ne
  have hcases : ∀ {σ sub}, (File.subscribe f s).2.subscribers σ = some sub →
      (σ = s.subscriberCount ∧ sub = { id := (s.files f).subscriberIdCounter, file := f }) ∨
        s.subscribers σ = some sub := by
    intro σ sub hsub
    rcases eq_or_ne σ s.subscriberCount with rfl | hne
    · exact .inl ⟨rfl, by simpa [File.subscribe, eq_comm] using hsub⟩
    · exact .inr (by simpa [File.subscribe, hne] using hsub)
  have hfiles : ∀ g, (File.subscribe f s).2.files g =
      if g = f then { s.files f with
        subscriberIdCounter := (s.files f).subscriberIdCounter + 1
        subscribers := (s.files f).subscribers.insert (s.files f).subscriberIdCounter
          s.subscriberCount } else s.files g := by
    intro g
    rcases eq_or_ne g f with rfl | hne
    · simp [File.subscribe]
    · simp [File.subscribe, hne]
  constructor
  · intro σ sub hsub
    rw [hfiles]
    rcases hcases hsub with ⟨rfl, rfl⟩ | hsub
    · exact ⟨Nat.lt_succ_self _, hf, by simp⟩
    · obtain ⟨hσ, hlt, hid⟩ := h.allocated σ sub hsub
      refine ⟨Nat.lt_succ_of_lt hσ, hlt, ?_⟩
      split
      · next heq =>
        rw [heq] at hid
        exact hid.trans (Int.lt_succ _)
      · exact hid
  · -- the new id is above those in use
    have hnew : ∀ {σ sub}, s.subscribers σ = some sub → sub.file = f →
        sub.id ≠ (s.files f).subscriberIdCounter := by
      rintro σ sub hsub rfl
      exact (h.allocated σ sub hsub).2.2.ne
    intro σ₁ σ₂ sub₁ sub₂ h₁ h₂ hfile hid
    rcases hcases h₁ with ⟨rfl, rfl⟩ | h₁ <;> rcases hcases h₂ with ⟨rfl, rfl⟩ | h₂
    · rfl
    · exact absurd hid.symm (hnew h₂ hfile.symm)
    · exact absurd hid (hnew h₁ hfile)
    · exact h.id_inj σ₁ σ₂ sub₁ sub₂ h₁ h₂ hfile hid
  · intro σ sub hsub hvalid
    rw [hfiles]
    rcases hcases hsub with ⟨rfl, rfl⟩ | hsub
    · simp
    · have hlisted := h.listed σ sub hsub hvalid
      split
      · next heq =>
        have hne := (h.allocated σ sub hsub).2.2.ne
        rw [heq] at hne hlisted
        simp [UnorderedMap.lookup_insert, hne, hlisted]
      · exact hlisted

theorem destroy (h : Subscribed s) (σ : SubscriberRef) : Subscribed (Subscriber.destroy σ s) := by
  have hfrom := subscribersFrom_destroy s σ
  unfold Subscriber.destroy at hfrom ⊢
  split
  · exact h
  next sub hsub =>
  simp only [hsub] at hfrom
  refine h.mono hfrom ?_ ?_ le_rfl rfl
  · intro σ' sub' h' hvalid
    have hne : σ' ≠ σ := by
      rintro rfl
      simp at h'
    replace h' : s.subscribers σ' = some sub' := by simpa [hne, File.unsubscribe] using h'
    rcases eq_or_ne sub'.file sub.file with heq | hfile
    · -- the one erased has another id
      have hid : sub'.id ≠ sub.id := fun hid => hne (h.id_inj σ' σ sub' sub h' hsub heq hid)
      simp [File.unsubscribe, heq, UnorderedMap.lookup_erase, hid]
    · simp [File.unsubscribe, hfile]
  · intro f hf
    rcases eq_or_ne f sub.file with rfl | hfile
    · simp [File.unsubscribe]
    · simp [File.unsubscribe, hfile]

end Subscribed

/-! ### Clearing a table -/

/-- Nobody who stays valid has subscribed to the file. -/
theorem valid_clearSubscribers {s : Server} (h : Subscribed s) {f : FileRef} {σ : SubscriberRef}
    {sub : Subscriber} (hsub : (File.clearSubscribers f s).subscribers σ = some sub)
    (hvalid : sub.valid = true) : s.subscribers σ = some sub ∧ sub.file ≠ f := by
  rw [File.clearSubscribers_eq] at hsub
  dsimp only at hsub
  split at hsub
  · -- swept: not valid any more
    obtain ⟨sub₀, -, rfl⟩ := Option.map_eq_some_iff.mp hsub
    simp [Subscriber.invalidate] at hvalid
  · next hnot =>
    refine ⟨hsub, ?_⟩
    rintro rfl
    exact hnot (UnorderedMap.mem_values.mpr ⟨sub.id, h.listed σ sub hsub hvalid⟩)

theorem Subscribed.clearSubscribers {s : Server} (h : Subscribed s) (f : FileRef) :
    Subscribed (File.clearSubscribers f s) := by
  refine h.mono (subscribersFrom_clearSubscribers s f) ?_ ?_
    (by rw [File.clearSubscribers_eq]) (by rw [File.clearSubscribers_eq])
  · intro σ sub' hsub' hvalid
    have hne := (valid_clearSubscribers h hsub' hvalid).2
    rw [File.clearSubscribers_eq]
    simp [hne]
  · intro g hg
    rw [File.clearSubscribers_eq]
    rcases eq_or_ne g f with rfl | hne
    · simp
    · simp [hne]

/-! ### Chunks -/

theorem remains_provideFileChunk {sub sub' : Subscriber} {data : Bytes}
    (h : sub.provideFileChunk data = .ok sub') : Remains sub sub' := by
  obtain ⟨-, rfl⟩ := Subscriber.provideFileChunk_eq_ok.mp h
  exact ⟨rfl, rfl, fun h => h⟩

theorem remains_readChunk {sub sub' : Subscriber} {fileSize count : Int} {r : ReadResult}
    (h : sub.readChunk fileSize count = .ok (r, sub')) : Remains sub sub' := by
  obtain ⟨-, ⟨chunk, -, -, -, -, rfl⟩ | ⟨-, -, -, rfl⟩ | ⟨-, -, rfl⟩⟩ :=
    Subscriber.readChunk_eq_ok h
  · exact ⟨rfl, rfl, fun h => h⟩
  · exact .refl sub'
  · exact .refl sub'

theorem subscribersFrom_provideFileChunk (f : FileRef) (subscriberId : Int) (data : Bytes)
    (s : Server) : SubscribersFrom s ((File.provideFileChunk f subscriberId data).exec s).2 := by
  rw [File.provideFileChunk_exec]
  split
  · exact subscribersFrom_of_eq rfl
  · split
    · exact subscribersFrom_of_eq rfl
    · next hsub =>
      split
      · next hok => exact subscribersFrom_modifySubscriber hsub (remains_provideFileChunk hok)
      · exact subscribersFrom_of_eq rfl

theorem subscribersFrom_read (σ : SubscriberRef) (count : Int) (s : Server) :
    SubscribersFrom s ((Subscriber.read σ count).exec s).2 := by
  rcases hsub : s.subscribers σ with - | sub
  · rw [Subscriber.read_exec_none hsub]
    exact subscribersFrom_of_eq rfl
  · rw [Subscriber.read_exec hsub]
    split
    · exact subscribersFrom_of_eq rfl
    · next sub' _ =>
      obtain ⟨_, _, heq⟩ := sub'.requestChunk_frame count s
      rw [heq]
      exact subscribersFrom_of_eq rfl
    · next hok => exact subscribersFrom_modifySubscriber hsub (remains_readChunk hok)

namespace Subscribed

variable {s : Server}

theorem provideFileChunk (h : Subscribed s) (f : FileRef) (subscriberId : Int) (data : Bytes) :
    Subscribed ((File.provideFileChunk f subscriberId data).exec s).2 := by
  have hfrom := subscribersFrom_provideFileChunk f subscriberId data s
  obtain ⟨_, heq⟩ := File.provideFileChunk_frame f subscriberId data s
  rw [heq] at hfrom ⊢
  exact h.mono hfrom (fun _ _ _ _ => rfl) (fun _ _ => rfl) le_rfl rfl

theorem read (h : Subscribed s) (σ : SubscriberRef) (count : Int) :
    Subscribed ((Subscriber.read σ count).exec s).2 := by
  have hfrom := subscribersFrom_read σ count s
  obtain ⟨_, _, _, _, heq⟩ := Subscriber.read_frame σ count s
  rw [heq] at hfrom ⊢
  exact h.mono hfrom (fun _ _ _ _ => rfl) (fun _ _ => rfl) le_rfl rfl

theorem registerFile (h : Subscribed s) (ρ : RoomRef) (host : PeerRef) (clientFileId : Int)
    (fileName : Option String) (fileSize : Int) :
    Subscribed (Room.registerFile ρ host clientFileId fileName fileSize s).2 := by
  have hold : ∀ f < s.fileCount,
      (Room.registerFile ρ host clientFileId fileName fileSize s).2.files f = s.files f :=
    fun f hf => Function.update_of_ne hf.ne _ _
  refine h.mono (subscribersFrom_of_eq rfl) (fun σ sub hsub _ => ?_) (fun f hf => ?_)
    (Nat.le_succ _) rfl
  · rw [hold _ (h.allocated σ sub hsub).2.1]
  · rw [hold f hf]

end Subscribed

/-! ### Valid subscribers and cleared files -/

/-- No valid subscriber downloads a file of `cleared`. -/
def Served (cleared : List FileRef) (s : Server) : Prop :=
  ∀ σ sub, s.subscribers σ = some sub → sub.valid = true → sub.file ∉ cleared

theorem Served.mono {cleared : List FileRef} {s s' : Server} (h : Served cleared s)
    (hfrom : SubscribersFrom s s') : Served cleared s' := by
  intro σ sub' hsub' hvalid
  obtain ⟨sub, hsub, hrem⟩ := hfrom σ sub' hsub'
  rw [hrem.file]
  exact h σ sub hsub (hrem.valid hvalid)

theorem Served.clearSubscribers {cleared : List FileRef} {s : Server} (h : Served cleared s)
    (hsubscribed : Subscribed s) (f : FileRef) :
    Served (f :: cleared) (File.clearSubscribers f s) := by
  intro σ sub hsub hvalid
  obtain ⟨hsub, hne⟩ := valid_clearSubscribers hsubscribed hsub hvalid
  rw [List.mem_cons, not_or]
  exact ⟨hne, h σ sub hsub hvalid⟩

theorem Served.subscribe {cleared : List FileRef} {s : Server} (h : Served cleared s) {f : FileRef}
    (hf : f ∉ cleared) : Served cleared (File.subscribe f s).2 := by
  intro σ sub hsub hvalid
  rcases eq_or_ne σ s.subscriberCount with rfl | hne
  · obtain rfl : ({ id := (s.files f).subscriberIdCounter, file := f } : Subscriber) = sub := by
      simpa [File.subscribe] using hsub
    exact hf
  · exact h σ sub (by simpa [File.subscribe, hne] using hsub) hvalid

/-- What a registry says about the files. -/
def Registry.fileTable (r : Registry) :
    (Int → Option FileRef) × (FileRef → Int) × (FileRef → PeerRef) × ℕ :=
  (r.fileById, r.serverFileId, r.host, r.fileCount)

namespace RoomThreads

variable {ρ : RoomRef} {τ : Type} [DecidableEq τ] {s s' : State τ}

/-- `subscribe` is executed before `clearSubscribers` of its file. -/
def SubscribesUncleared (s : State τ) : Act τ → Prop
  | .run t => match s.pc t with
      | .found f => f ∉ s.cleared
      | _ => True
  | _ => True

instance (s : State τ) (a : Act τ) : Decidable (SubscribesUncleared s a) := by
  unfold SubscribesUncleared
  split
  · split
    · infer_instance
    · infer_instance
  · infer_instance

/-- The peer has been removed, or `removePeerById` is in the loop over its files. -/
def Departing (s : State τ) (p : PeerRef) : Prop :=
  p ∈ s.departed ∨ ∃ todo, leaving s.peerByIdLock s.pc = some (p, todo)

/-- Every valid subscriber is in the table of a file that is not cleared; only
cleared files are erased, and only files of those who leave are cleared. -/
structure Cancels (ρ : RoomRef) (s : State τ) : Prop where
  subscribed : Subscribed s.server
  served : Served s.cleared s.server
  registered : ∀ f < s.server.fileCount, f ∉ s.cleared → (s.server.registry ρ).Registered f
  clearing : ∀ t peerId p f todo, s.pc t = .clearing peerId p f todo → f ∈ s.cleared
  departing : ∀ f ∈ s.cleared, f < s.server.fileCount ∧ Departing s (s.server.files f).host

namespace Cancels

omit [DecidableEq τ] in
/-- No file is shared, cleared or erased. -/
theorem mono (h : Cancels ρ s) (hsubscribed : Subscribed s'.server)
    (hfrom : SubscribersFrom s.server s'.server)
    (htable : (s'.server.registry ρ).fileTable = (s.server.registry ρ).fileTable)
    (hcleared : s'.cleared = s.cleared)
    (hclearing : ∀ t peerId p f todo, s'.pc t = .clearing peerId p f todo →
      s.pc t = .clearing peerId p f todo)
    (hdeparting : ∀ p, Departing s p → Departing s' p) : Cancels ρ s' := by
  have hfileById : (s'.server.registry ρ).fileById = (s.server.registry ρ).fileById :=
    congrArg Prod.fst htable
  have hrest := congrArg Prod.snd htable
  have hid : (s'.server.registry ρ).serverFileId = (s.server.registry ρ).serverFileId :=
    congrArg Prod.fst hrest
  have hrest := congrArg Prod.snd hrest
  have hhost : (s'.server.registry ρ).host = (s.server.registry ρ).host := congrArg Prod.fst hrest
  have hcount : s'.server.fileCount = s.server.fileCount := congrArg Prod.snd hrest
  refine ⟨hsubscribed, ?_, fun f hf hnot => ?_, fun t peerId p f todo ht => ?_, fun f hf => ?_⟩
  · rw [hcleared]
    exact h.served.mono hfrom
  · rw [hcount] at hf
    rw [hcleared] at hnot
    show (s'.server.registry ρ).fileById ((s'.server.registry ρ).serverFileId f) = some f
    rw [hfileById, hid]
    exact h.registered f hf hnot
  · rw [hcleared]
    exact h.clearing t peerId p f todo (hclearing t peerId p f todo ht)
  · rw [hcleared] at hf
    obtain ⟨hlt, hdep⟩ := h.departing f hf
    have hsame : (s'.server.files f).host = (s.server.files f).host := congrFun hhost f
    rw [hcount, hsame]
    exact ⟨hlt, hdeparting _ hdep⟩

omit [DecidableEq τ] in
/-- The server changes, but not its files. -/
theorem of_fileTable (h : Cancels ρ s) {server : Server}
    (htable : (server.registry ρ).fileTable = (s.server.registry ρ).fileTable)
    (hsubscribed : Subscribed server) (hfrom : SubscribersFrom s.server server) :
    Cancels ρ { s with server } :=
  h.mono hsubscribed hfrom htable rfl (fun _ _ _ _ _ ht => ht) fun _ hp => hp

/-- The mutex of the peers does not change hands. -/
theorem goto (h : Cancels ρ s) (hinv : Invariant ρ s) {t : τ} {x : Pc} {fileByIdLock : Option τ}
    (hpc : (s.pc t).holdsPeerById = false) (hx : x.holdsPeerById = false) :
    Cancels ρ { s.goto t x with fileByIdLock } := by
  refine h.mono h.subscribed (subscribersFrom_of_eq rfl) rfl rfl ?_ fun p hp => ?_
  · intro u peerId p f todo hu
    rcases eq_or_ne u t with rfl | hne
    · obtain rfl : x = .clearing peerId p f todo := by simpa [State.goto] using hu
      cases hx
    · simpa [State.goto, hne] using hu
  · unfold Departing
    show p ∈ s.departed ∨ ∃ todo, leaving s.peerByIdLock (Function.update s.pc t x) = some (p, todo)
    rw [leaving_update hinv.peerByIdLock hpc]
    exact hp

/-- `removePeerById` goes on with the files of `p`. -/
theorem loop (h : Cancels ρ s) {t : τ} {x : Pc} {p : PeerRef} {todo : List FileRef}
    {peerByIdLock fileByIdLock : Option τ} (hlock : peerByIdLock = some t)
    (hclearing : ∀ peerId p f todo, x ≠ .clearing peerId p f todo)
    (hleaving : ∀ q todo', leaving s.peerByIdLock s.pc = some (q, todo') → q = p)
    (hx : x.leaving = some (p, todo)) :
    Cancels ρ { s.goto t x with peerByIdLock, fileByIdLock } := by
  refine h.mono h.subscribed (subscribersFrom_of_eq rfl) rfl rfl ?_ fun q hq => ?_
  · intro u peerId p f todo hu
    rcases eq_or_ne u t with rfl | hne
    · exact absurd (by simpa [State.goto] using hu) (hclearing peerId p f todo)
    · simpa [State.goto, hne] using hu
  · rcases hq with hq | ⟨todo', hq⟩
    · exact .inl hq
    · obtain rfl := hleaving q todo' hq
      refine .inr ⟨todo, ?_⟩
      show leaving peerByIdLock (Function.update s.pc t x) = some (q, todo)
      simp [leaving, hlock, hx]

/-- The subscribers of a file of the leaver are invalidated. -/
theorem clearSubscribers (h : Cancels ρ s) (hinv : Invariant ρ s) {t : τ} {peerId : Int}
    {p : PeerRef} {f : FileRef} {todo : List FileRef}
    (hpc : s.pc t = .cancelling peerId p (f :: todo)) :
    Cancels ρ { s.goto t (.clearing peerId p f todo) with
      server := File.clearSubscribers f s.server
      cleared := f :: s.cleared } := by
  have hholds : (s.pc t).holdsPeerById = true := by rw [hpc]; rfl
  have hlock : s.peerByIdLock = some t := (hinv.peerByIdLock t).mp hholds
  -- the thread owns `m_peerByIdLock`, so the departure in progress is its own
  have hleaving : leaving s.peerByIdLock s.pc = some (p, f :: todo) := by
    rw [leaving_of_holds hinv.peerByIdLock hholds, hpc]
    rfl
  have hleaving' : leaving s.peerByIdLock (Function.update s.pc t (.clearing peerId p f todo)) =
      some (p, f :: todo) := by
    simp [leaving, hlock, Pc.leaving]
  -- clearing the subscribers of a file does not touch the registry
  have hregistry := registry_clearSubscribers ρ s.server f
  have hhost : ∀ g, ((File.clearSubscribers f s.server).files g).host = (s.server.files g).host :=
    congrFun (congrArg Registry.host hregistry)
  have hcount : (File.clearSubscribers f s.server).fileCount = s.server.fileCount :=
    congrArg Registry.fileCount hregistry
  -- the file that is cleared is one of the leaving peer's
  have hmine : f < s.server.fileCount ∧ (s.server.files f).host = p := by
    obtain ⟨-, -, htodo, -⟩ := hinv.sound.consistent.leaving p _ hleaving
    obtain ⟨hlt, hp, -⟩ := hinv.sound.consistent.hosted p f (htodo f List.mem_cons_self)
    exact ⟨hlt, hp⟩
  refine ⟨h.subscribed.clearSubscribers f, h.served.clearSubscribers h.subscribed f,
    fun g hg hnot => ?_, fun u peerId' q g todo' hu => ?_, fun g hg => ?_⟩
  · have hg : g < (File.clearSubscribers f s.server).fileCount := hg
    rw [hcount] at hg
    show ((File.clearSubscribers f s.server).registry ρ).Registered g
    rw [hregistry]
    exact h.registered g hg fun hmem => hnot (List.mem_cons_of_mem f hmem)
  -- only thread `t` has moved to `.clearing`
  · rcases eq_or_ne u t with rfl | hne
    · have heq : Pc.clearing peerId p f todo = .clearing peerId' q g todo' := by
        simpa [State.goto] using hu
      cases heq
      exact List.mem_cons_self
    · exact List.mem_cons_of_mem f
        (h.clearing u peerId' q g todo' (by simpa [State.goto, hne] using hu))
  · show g < (File.clearSubscribers f s.server).fileCount ∧ (_ ∨ ∃ todo', leaving s.peerByIdLock
      (Function.update s.pc t (.clearing peerId p f todo)) =
        some (((File.clearSubscribers f s.server).files g).host, todo'))
    rw [hcount, hhost, hleaving']
    -- for `f` the departure in progress is the witness
    rcases List.mem_cons.mp hg with rfl | hg
    · exact ⟨hmine.1, .inr ⟨g :: todo, by rw [hmine.2]⟩⟩
    · obtain ⟨hlt, hdep⟩ := h.departing g hg
      refine ⟨hlt, hdep.imp_right ?_⟩
      rintro ⟨todo', hl⟩
      rw [hleaving] at hl
      exact ⟨todo', hl⟩

/-- The entry of a file that is cleared is erased. -/
theorem eraseFile (h : Cancels ρ s) (hinv : Invariant ρ s) {t : τ} {peerId : Int} {p : PeerRef}
    {f : FileRef} {todo : List FileRef} (hpc : s.pc t = .clearing peerId p f todo) :
    Cancels ρ { s.goto t (.cancelling peerId p todo) with
      server := Room.eraseFile ρ f s.server } := by
  have hholds : (s.pc t).holdsPeerById = true := by rw [hpc]; rfl
  have hlock : s.peerByIdLock = some t := (hinv.peerByIdLock t).mp hholds
  have hleaving : leaving s.peerByIdLock s.pc = some (p, f :: todo) := by
    rw [leaving_of_holds hinv.peerByIdLock hholds, hpc]
    rfl
  have hcleared : f ∈ s.cleared := h.clearing t peerId p f todo hpc
  have hf := (h.departing f hcleared).1
  have herased : Cancels ρ { s with server := Room.eraseFile ρ f s.server } := by
    refine ⟨⟨h.subscribed.allocated, h.subscribed.id_inj, h.subscribed.listed⟩, h.served,
      fun g hg hnot => ?_, h.clearing, h.departing⟩
    have hne : g ≠ f := by
      rintro rfl
      exact hnot hcleared
    show ((Room.eraseFile ρ f s.server).registry ρ).Registered g
    rw [registry_eraseFile, Registry.registered_eraseFile hinv.sound.consistent hf hg]
    exact ⟨hne, h.registered g hg hnot⟩
  have hcancelling :
      ∀ peerId' q g rest, Pc.cancelling peerId p todo ≠ .clearing peerId' q g rest := by
    simp
  refine herased.loop (t := t) hlock hcancelling (fun q todo' hl => ?_) rfl
  have hl : leaving s.peerByIdLock s.pc = some (q, todo') := hl
  rw [hleaving] at hl
  exact (Prod.mk.inj (Option.some.inj hl)).1.symm

/-- The removal is over. -/
theorem erasePeer (h : Cancels ρ s) (hinv : Invariant ρ s) {t : τ} {peerId : Int} {p : PeerRef}
    (hpc : s.pc t = .erasing peerId p) :
    Cancels ρ { s.goto t .idle with
      server := Room.erasePeer ρ peerId s.server
      peerByIdLock := none
      departed := p :: s.departed } := by
  have hholds : (s.pc t).holdsPeerById = true := by rw [hpc]; rfl
  have hleaving : leaving s.peerByIdLock s.pc = some (p, []) := by
    rw [leaving_of_holds hinv.peerByIdLock hholds, hpc]
    rfl
  refine h.mono ⟨h.subscribed.allocated, h.subscribed.id_inj, h.subscribed.listed⟩
    (subscribersFrom_of_eq rfl) ?_ rfl ?_ fun q hq => ?_
  · show ((Room.erasePeer ρ peerId s.server).registry ρ).fileTable = _
    rw [registry_erasePeer]
    rfl
  · intro u peerId' q f todo hu
    rcases eq_or_ne u t with rfl | hne
    · simp [State.goto] at hu
    · simpa [State.goto, hne] using hu
  · refine .inl (List.mem_cons.mpr ?_)
    rcases hq with hq | ⟨todo, hq⟩
    · exact .inr hq
    · rw [hleaving] at hq
      exact .inl (Prod.mk.inj (Option.some.inj hq)).1.symm

omit [DecidableEq τ] in
theorem registerFile (h : Cancels ρ s) {l : Option (PeerRef × List FileRef)}
    (hc : (s.server.registry ρ).Consistent l) (host : PeerRef) (clientFileId : Int)
    (fileName : Option String) (fileSize : Int) :
    Cancels ρ { s with
      server := (Room.registerFile ρ host clientFileId fileName fileSize s.server).2 } := by
  have hregistry := registry_registerFile ρ s.server host clientFileId fileName fileSize
  have hcount : (Room.registerFile ρ host clientFileId fileName fileSize s.server).2.fileCount =
      s.server.fileCount + 1 := congrArg Registry.fileCount hregistry
  refine ⟨h.subscribed.registerFile ρ host clientFileId fileName fileSize, h.served,
    fun f hf hnot => ?_, h.clearing, fun f hf => ?_⟩
  · have hf : f < (Room.registerFile ρ host clientFileId fileName fileSize s.server).2.fileCount :=
      hf
    rw [hcount] at hf
    show (Server.registry ρ
      (Room.registerFile ρ host clientFileId fileName fileSize s.server).2).Registered f
    rw [hregistry]
    rcases Nat.lt_succ_iff_lt_or_eq.mp hf with hf | rfl
    · rw [Registry.registered_registerFile hc hf]
      exact h.registered f hf hnot
    · exact Registry.registered_registerFile_self
  · obtain ⟨hlt, hdep⟩ := h.departing f hf
    have hhost :
        ((Room.registerFile ρ host clientFileId fileName fileSize s.server).2.files f).host =
        (s.server.files f).host := by
      refine (congrFun (congrArg Registry.host hregistry) f).trans ?_
      exact Registry.host_registerFile hlt
    show f < (Room.registerFile ρ host clientFileId fileName fileSize s.server).2.fileCount ∧
      Departing s _
    rw [hcount, hhost]
    exact ⟨Nat.lt_succ_of_lt hlt, hdep⟩

omit [DecidableEq τ] in
theorem subscribe (h : Cancels ρ s) {f : FileRef} (hf : f < s.server.fileCount)
    (hnot : f ∉ s.cleared) : Cancels ρ { s with server := (File.subscribe f s.server).2 } := by
  have hregistry := registry_subscribe ρ s.server f
  refine ⟨h.subscribed.subscribe hf, h.served.subscribe hnot, fun g hg hg' => ?_, h.clearing,
    fun g hg => ?_⟩
  · show ((File.subscribe f s.server).2.registry ρ).Registered g
    rw [hregistry]
    exact h.registered g hg hg'
  · have hhost : ((File.subscribe f s.server).2.files g).host = (s.server.files g).host :=
      congrFun (congrArg Registry.host hregistry) g
    show g < s.server.fileCount ∧ Departing s _
    rw [hhost]
    exact h.departing g hg

theorem run (h : Cancels ρ s) (hinv : Invariant ρ s) {t : τ} (hok : SubscribesUncleared s (.run t))
    (hs : s.run ρ t = some s') : Cancels ρ s' := by
  have hvalid := hinv.sound.valid t
  unfold State.run at hs
  rcases hpc : s.pc t with - | p | peerId | ⟨peerId, p⟩ | ⟨peerId, p, - | ⟨f, todo⟩⟩ |
    ⟨peerId, p, f, todo⟩ | ⟨peerId, p⟩ | share | share | ⟨host, share⟩ | fileId | f <;>
    rw [hpc] at hs hvalid <;>
    simp only [Option.ite_none_right_eq_some, Option.some.injEq] at hs
  case idle => cases hs
  case addPeer =>
    obtain ⟨-, rfl⟩ := hs
    have hidle : Cancels ρ (s.goto t .idle) := h.goto hinv (by rw [hpc]; rfl) rfl
    refine hidle.of_fileTable ?_ ⟨h.subscribed.allocated, h.subscribed.id_inj, h.subscribed.listed⟩
      (subscribersFrom_of_eq rfl)
    rw [registry_addPeer]
    rfl
  case removePeerById =>
    obtain ⟨hfree, hs⟩ := hs
    split at hs
    · obtain rfl := Option.some.inj hs
      exact h.goto hinv (by rw [hpc]; rfl) rfl
    · next p hp =>
      obtain rfl := Option.some.inj hs
      -- nobody was being removed, and the loop has not begun
      refine h.mono h.subscribed (subscribersFrom_of_eq rfl) rfl rfl ?_ fun q hq => ?_
      · intro u peerId' q f todo hu
        rcases eq_or_ne u t with rfl | hne
        · simp [State.goto] at hu
        · simpa [State.goto, hne] using hu
      · refine .inl (hq.resolve_right ?_)
        rintro ⟨todo, hl⟩
        simp [leaving, hfree] at hl
  case removing =>
    obtain ⟨-, rfl⟩ := hs
    have hholds : (s.pc t).holdsPeerById = true := by rw [hpc]; rfl
    have hlock : s.peerByIdLock = some t := (hinv.peerByIdLock t).mp hholds
    refine h.loop (t := t) hlock (by simp) (fun q todo' hl => ?_) rfl
    rw [leaving_of_holds hinv.peerByIdLock hholds, hpc] at hl
    cases hl
  case cancelling.nil =>
    obtain rfl := hs
    have hholds : (s.pc t).holdsPeerById = true := by rw [hpc]; rfl
    have hlock : s.peerByIdLock = some t := (hinv.peerByIdLock t).mp hholds
    have herasing : ∀ peerId' q f rest, Pc.erasing peerId p ≠ .clearing peerId' q f rest := by simp
    refine h.loop (t := t) hlock herasing (fun q todo' hl => ?_) rfl
    rw [leaving_of_holds hinv.peerByIdLock hholds, hpc] at hl
    exact (Prod.mk.inj (Option.some.inj hl)).1.symm
  case cancelling.cons =>
    obtain rfl := hs
    exact h.clearSubscribers hinv hpc
  case clearing =>
    obtain rfl := hs
    exact h.eraseFile hinv hpc
  case erasing =>
    obtain rfl := hs
    exact h.erasePeer hinv hpc
  case shareFile =>
    obtain ⟨-, rfl⟩ := hs
    exact h.goto hinv (by rw [hpc]; rfl) rfl
  case sharing =>
    obtain ⟨-, hs⟩ := hs
    split at hs <;> obtain rfl := Option.some.inj hs
    · exact h.goto hinv (by rw [hpc]; rfl) rfl
    · exact h.goto hinv (by rw [hpc]; rfl) rfl
  case registering =>
    obtain rfl := hs
    have hidle : Cancels ρ { s.goto t .idle with fileByIdLock := none } :=
      h.goto hinv (by rw [hpc]; rfl) rfl
    exact hidle.registerFile hinv.sound.consistent host share.clientFileId share.fileName
      share.fileSize
  case getFileById =>
    obtain ⟨-, hs⟩ := hs
    split at hs <;> obtain rfl := Option.some.inj hs
    · exact h.goto hinv (by rw [hpc]; rfl) rfl
    · exact h.goto hinv (by rw [hpc]; rfl) rfl
  case found =>
    obtain rfl := hs
    simp only [SubscribesUncleared, hpc] at hok
    have hidle : Cancels ρ (s.goto t .idle) := h.goto hinv (by rw [hpc]; rfl) rfl
    exact hidle.subscribe hvalid hok

/-- An operation begins. -/
theorem start (h : Cancels ρ s) (hinv : Invariant ρ s) {t : τ} {x : Pc}
    (hx : x.holdsPeerById = false) (hs : s.start t x = some s') : Cancels ρ s' := by
  simp only [State.start, Option.ite_none_right_eq_some, Option.some.injEq] at hs
  obtain ⟨hidle, rfl⟩ := hs
  exact h.goto hinv (by rw [hidle]; rfl) hx

theorem step {a : Act τ} (h : Cancels ρ s) (hinv : Invariant ρ s) (hok : SubscribesUncleared s a)
    (hs : s.step ρ a = some s') : Cancels ρ s' := by
  cases a with
  -- steps that leave the table of files alone
  | obtainNewPeerId =>
      obtain rfl := Option.some.inj hs
      exact h.of_fileTable rfl
        ⟨h.subscribed.allocated, h.subscribed.id_inj, h.subscribed.listed⟩
        (subscribersFrom_of_eq rfl)
  | addPeer t socket nickname =>
      simp only [State.step, State.start, Option.ite_none_right_eq_some, Option.some.injEq] at hs
      obtain ⟨hidle, rfl⟩ := hs
      have hadding : Cancels ρ (s.goto t (.addPeer s.server.peerCount)) :=
        h.goto hinv (by rw [hidle]; rfl) rfl
      have hregistry : ((Lobby.createPeer socket ρ nickname s.server).2.registry ρ).fileTable =
          (s.server.registry ρ).fileTable := by
        rw [registry_createPeer]
        rfl
      exact hadding.of_fileTable hregistry
        ⟨h.subscribed.allocated, h.subscribed.id_inj, h.subscribed.listed⟩
        (subscribersFrom_of_eq rfl)
  | removePeerById t peerId => exact h.start hinv rfl hs
  | shareFile t share => exact h.start hinv rfl hs
  | getFile t fileId => exact h.start hinv rfl hs
  -- the step of a thread inside a method is a lemma of its own
  | run t => exact h.run hinv hok hs
  | read σ count =>
      obtain rfl := Option.some.inj hs
      refine h.of_fileTable ?_ (h.subscribed.read σ count) (subscribersFrom_read σ count _)
      rw [registry_read]
  | provideFileChunk f subscriberId data =>
      obtain rfl := Option.some.inj hs
      refine h.of_fileTable ?_ (h.subscribed.provideFileChunk f subscriberId data)
        (subscribersFrom_provideFileChunk f subscriberId data _)
      rw [registry_provideFileChunk]
  | destroy σ =>
      obtain rfl := Option.some.inj hs
      refine h.of_fileTable ?_ (h.subscribed.destroy σ) (subscribersFrom_destroy _ σ)
      rw [registry_destroy]

end Cancels

theorem cancels (hs : (system ρ τ).ReachableVia SubscribesUncleared s) : Cancels ρ s := by
  refine hs.invariant ?_ fun s a s' hs h hok hstep => h.step (invariant hs.reachable) hok hstep
  rintro s ⟨server, hfresh, rfl⟩
  refine ⟨?_, ?_, ?_, ?_, ?_⟩
  · constructor <;> simp [hfresh.subscribers]
  · intro σ sub hsub
    simp [hfresh.subscribers] at hsub
  · intro f hf
    simp [hfresh.fileCount] at hf
  · intro t peerId p f todo ht
    cases ht
  · intro f hf
    cases hf

/-- **A departed host's sharing is cancelled** in every run that subscribes to a
file only before `clearSubscribers` is called on it: no file of the host is
found any more, and no subscriber of any of its files is valid.  The files that
are cleared are those of hosts that have departed or are about to, and in such a
run a step leaves no valid subscriber to any of them exactly when it does not
subscribe to one. -/
theorem departed_host_cancelled (hs : (system ρ τ).ReachableVia SubscribesUncleared s) :
    (∀ p ∈ s.departed,
      (∀ id f, Room.getFileById ρ id s.server = some f → (s.server.files f).host ≠ p) ∧
      ∀ σ sub, s.server.subscribers σ = some sub → (s.server.files sub.file).host = p →
        sub.valid = false) ∧
    (∀ f ∈ s.cleared, Departing s (s.server.files f).host) ∧
    ∀ a s', (system ρ τ).step s a = some s' →
      (Served s'.cleared s'.server ↔ SubscribesUncleared s a) := by
  have hinv := invariant hs.reachable
  have hcancels := cancels hs
  have hunregistered : ∀ p ∈ s.departed, ∀ f, (s.server.registry ρ).Registered f →
      (s.server.files f).host ≠ p := by
    rintro p hp f hreg rfl
    have hpres := (hinv.sound.consistent.registered _ f hreg).2.2
    exact (hinv.sound.absent _ hp).2 hpres
  refine ⟨fun p hp => ⟨fun id f hf => ?_, fun σ sub hsub hhost => ?_⟩,
    fun f hf => (hcancels.departing f hf).2, fun a s' hstep => ?_⟩
  · exact hunregistered p hp f (hinv.sound.consistent.registered_of_fileById hf)
  · by_contra hvalid
    have hnot : sub.file ∉ s.cleared := hcancels.served σ sub hsub (by simpa using hvalid)
    have hlt := (hcancels.subscribed.allocated σ sub hsub).2.1
    exact hunregistered p hp sub.file (hcancels.registered _ hlt hnot) hhost
  · refine ⟨fun hserved => ?_, fun hok => (hcancels.step hinv hok hstep).served⟩
    cases a with
    | run t =>
        rcases hpc : s.pc t with - | p | peerId | ⟨peerId, p⟩ | ⟨peerId, p, todo⟩ |
          ⟨peerId, p, f, todo⟩ | ⟨peerId, p⟩ | share | share | ⟨host, share⟩ | fileId | f <;>
          simp only [SubscribesUncleared, hpc]
        -- the subscriber just made is valid
        have hs' : s' = { s.goto t .idle with server := (File.subscribe f s.server).2 } := by
          simpa [system, State.step, State.run, hpc, eq_comm] using hstep
        subst hs'
        exact hserved s.server.subscriberCount
          { id := (s.server.files f).subscriberIdCounter, file := f } (by simp [File.subscribe]) rfl
    | _ => trivial

/-- Ann has shared a file, and a download has looked it up. -/
def lookUp : List (Act ℕ) := joinAndShare ++ [.getFile 1 1, .run 1]

/-- Ann leaves, up to the end of `clearSubscribers` of her file. -/
def clear : List (Act ℕ) := [.removePeerById 0 1, .run 0, .run 0, .run 0]

/-- Her file and herself are erased. -/
def erase : List (Act ℕ) := [.run 0, .run 0, .run 0]

theorem departed_host_cancelled_lookUp :
    ∃ s, (system 0 ℕ).run newRoom (lookUp ++ [.run 1] ++ clear ++ erase) = some s ∧
      0 ∈ s.departed ∧ ∃ sub, s.server.subscribers 0 = some sub ∧
        (s.server.files sub.file).host = 0 ∧ sub.valid = false := by
  obtain ⟨s, hrun, hdeparted, sub, hsub, hhost⟩ :
      ∃ s, (system 0 ℕ).run newRoom (lookUp ++ [.run 1] ++ clear ++ erase) = some s ∧
        0 ∈ s.departed ∧ ∃ sub, s.server.subscribers 0 = some sub ∧
          (s.server.files sub.file).host = 0 :=
    ⟨_, rfl, List.mem_singleton_self 0, _, rfl, rfl⟩
  have hs : (system 0 ℕ).ReachableVia SubscribesUncleared s :=
    .run (.init init_newRoom) (by decide) hrun
  exact ⟨s, hrun, hdeparted, sub, hsub, hhost,
    ((departed_host_cancelled hs).1 0 hdeparted).2 0 sub hsub hhost⟩

/-- The download subscribes between `clearSubscribers` and `m_fileById.erase`,
while the file is registered: the subscriber is valid and waits for a host that
is gone. -/
theorem late_subscriber_valid :
    ∃ s, (system 0 ℕ).Reachable s ∧ 0 ∈ s.departed ∧
      ∃ sub, s.server.subscribers 0 = some sub ∧ (s.server.files sub.file).host = 0 ∧
        sub.valid = true := by
  obtain ⟨s, hrun, hrest⟩ :
      ∃ s, (system 0 ℕ).run newRoom (lookUp ++ clear ++ [.run 1] ++ erase) = some s ∧
        0 ∈ s.departed ∧ ∃ sub, s.server.subscribers 0 = some sub ∧
          (s.server.files sub.file).host = 0 ∧ sub.valid = true :=
    ⟨_, rfl, List.mem_singleton_self 0, _, rfl, rfl, rfl⟩
  exact ⟨s, .run (.init init_newRoom) hrun, hrest⟩

end RoomThreads

end CanChat
