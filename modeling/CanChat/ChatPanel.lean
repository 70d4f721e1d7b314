/-
CanChat/ChatPanel.lean

The chat page with all it shows (front/chat/chat.js): the messages in
`chat_history`, who is typing, and the list of participants.

Design.  A page is the page of `Participants` with two more panels, and its
scripts run that page's scripts where they touch the list.  A message goes into
the last container of `chat_history` if that is its author's, and otherwise into
a new one; so the panel is the list of the messages, split into runs of messages
by one author (`exec_onMessage`).

The text of the clock, of file sizes and of the dots behind a name is left out,
and so is scrolling.  The fields that a message lacks are `undefined`.
-/
import CanChat.GreetedPage
import CanChat.Runs

namespace CanChat

/-! ### The page -/

namespace ChatPage

/-- The attribute `peerId` of a container. -/
inductive Mark
  | sys
  | peer (peerId : Option Int)
  deriving DecidableEq, Repr

/-- An element of class `message-author`. -/
structure Author where
  peerName : Option String
  timestamp : Option Int
  deriving DecidableEq, Repr

/-- An element of class `message-div-file`. -/
structure SharedFile where
  name : Option String
  href : String
  size : Option Int
  /-- It has the label that tells how much has been sent. -/
  sent : Bool
  deriving DecidableEq, Repr

/-- What is posted to a container. -/
inductive Entry
  | message (text : Option String)
  | files (files : List SharedFile)
  | system (text : String)
  deriving DecidableEq, Repr

/-- An element of class `message-container`. -/
structure Container where
  peerId : Mark
  author : Option Author := none
  entries : List Entry := []
  deriving DecidableEq, Repr

/-- A child of `chat_whos_typing`. -/
structure TypingElement where
  peerId : Option Int
  peerName : Option String
  timestamp : Int
  /-- It has the class `typing_peer_removed`. -/
  removed : Bool := false
  deriving DecidableEq, Repr

end ChatPage

structure ChatPage where
  participants : Participants := {}
  /-- The children of `chat_history`. -/
  chatHistory : List ChatPage.Container := []
  /-- The children of `chat_whos_typing`. -/
  whosTyping : List ChatPage.TypingElement := []
  deriving DecidableEq, Repr

abbrev PageScript := ExceptT JsError (StateM ChatPage)

namespace PageScript

variable {α β : Type} (page : ChatPage)

def exec (script : PageScript α) (page : ChatPage) : Except JsError α × ChatPage :=
  (script.run).run page

/-- A script that touches the list of participants only. -/
def onParticipants (script : Script α) : PageScript α :=
  ExceptT.mk (modifyGet fun page =>
    let (outcome, participants) := script.exec page.participants
    (outcome, { page with participants }))

@[simp] theorem exec_pure (a : α) : exec (pure a) page = (.ok a, page) := rfl

@[simp] theorem exec_throw (e : JsError) :
    exec (throw e : PageScript α) page = (.error e, page) := rfl

@[simp] theorem exec_get : exec get page = (.ok page, page) := rfl

@[simp] theorem exec_modify (f : ChatPage → ChatPage) :
    exec (modify f) page = (.ok ⟨⟩, f page) := rfl

@[simp] theorem exec_onParticipants (script : Script α) : exec (onParticipants script) page =
    ((script.exec page.participants).1,
      { page with participants := (script.exec page.participants).2 }) := rfl

theorem exec_bind (script : PageScript α) (k : α → PageScript β) :
    exec (script >>= k) page = match exec script page with
      | (.ok a, page) => exec (k a) page
      | (.error e, page) => (.error e, page) := by
  show (script >>= k).run.run page = _
  simp only [ExceptT.run_bind, StateT.run_bind, exec]
  rcases e : script.run.run page with ⟨_ | _, t⟩ <;> simp_all <;> rfl

end PageScript

namespace ChatPage

open PageScript (onParticipants)

/-! ### Posting -/

/-- The last container is `mark`'s.  A number equals the text it is the number
of, and what is `undefined` equals no text. -/
def Mark.continues : Mark → Mark → Bool
  | .sys, .sys => true
  | .peer (some lastPeerId), .peer peerId => peerId == some lastPeerId
  | _, _ => false

/-- The container to post to is the last one, which may be new. -/
def withContainer (new : Container) (chatHistory : List Container) : List Container :=
  match chatHistory.getLast? with
  | some lastChild =>
      if Mark.continues lastChild.peerId new.peerId then chatHistory else chatHistory ++ [new]
  | none => chatHistory ++ [new]

/-- `messageElem.append`, where `messageElem` is the last container. -/
def appendEntry (entry : Entry) (chatHistory : List Container) : List Container :=
  chatHistory.dropLast ++ chatHistory.getLast?.toList.map fun messageElem =>
    { messageElem with entries := messageElem.entries ++ [entry] }

/-- `removeTypingPeerNow` -/
def removeTypingPeerNow (peerId : Option Int) (whosTyping : List TypingElement) :
    List TypingElement :=
  whosTyping.eraseP fun typingPeerElem => typingPeerElem.peerId == peerId

def postChatMessage (peerId : Option Int) (peerName : Option String) (timestamp : Option Int)
    (message : Option String) : PageScript Unit :=
  modify fun page =>
    { page with
      whosTyping := removeTypingPeerNow peerId page.whosTyping
      chatHistory := appendEntry (.message message)
        (withContainer { peerId := .peer peerId, author := some { peerName, timestamp } }
          page.chatHistory) }

def postSystemMessage (peerId : Option Int) (message : Option String) : PageScript Unit :=
  modify fun page =>
    { page with
      whosTyping := removeTypingPeerNow peerId page.whosTyping
      chatHistory := appendEntry (.system ("📢 " ++ message.getD "undefined"))
        (withContainer { peerId := .sys } page.chatHistory) }

def fileHref (urlRoom : String) (serverFileId : Option Int) : String :=
  urlRoom ++ "/file/" ++ (serverFileId.map toString).getD "undefined"

def sharedFile (urlRoom : String) (sent : Bool) (file : FileDto) : SharedFile :=
  { name := file.name, href := fileHref urlRoom file.serverFileId, size := file.size, sent }

/-- The loop of `postSharedFile`. -/
def postFiles (urlRoom : String) (peerId : Option Int) :
    List (Option FileDto) → PageScript (List SharedFile)
  | [] => pure []
  | none :: _ => throw .typeError
  | some file :: files => do
      let self ← onParticipants Participants.readPeerId
      let messageDivFiles ← postFiles urlRoom peerId files
      pure (sharedFile urlRoom (peerId == self) file :: messageDivFiles)

def postSharedFile (urlRoom : String) (peerId : Option Int) (peerName : Option String)
    (timestamp : Option Int) (files : Option (List (Option FileDto))) : PageScript Unit := do
  modify fun page =>
    { page with
      chatHistory := withContainer
        { peerId := .peer peerId, author := some { peerName, timestamp } } page.chatHistory }
  match files with
  | none => throw .typeError
  | some files => do
      let messageDivFiles ← postFiles urlRoom peerId files
      modify fun page =>
        { page with chatHistory := appendEntry (.files messageDivFiles) page.chatHistory }

/-! ### Who is typing -/

/-- The element gets a new time stamp. -/
def touch (peerId : Option Int) (now : Int) : List TypingElement → List TypingElement
  | [] => []
  | typingPeerElem :: others =>
      if typingPeerElem.peerId = peerId then { typingPeerElem with timestamp := now } :: others
      else typingPeerElem :: touch peerId now others

def postPeerIsTyping (now : Int) (peerId : Option Int) (peerName : Option String) :
    PageScript Unit := do
  let self ← onParticipants Participants.readPeerId
  if peerId = self then pure ⟨⟩
  else
    modify fun page =>
      let whosTyping :=
        match page.whosTyping.find? fun typingPeerElem => typingPeerElem.peerId == peerId with
        | none => page.whosTyping ++ [{ peerId, peerName, timestamp := now }]
        | some typingPeerElem =>
            if typingPeerElem.removed then
              removeTypingPeerNow peerId page.whosTyping ++ [{ peerId, peerName, timestamp := now }]
            else touch peerId now page.whosTyping
      { page with whosTyping }

/-- `animateWhosTyping`, but for the dots. -/
def animateWhosTyping (now : Int) (whosTyping : List TypingElement) : List TypingElement :=
  whosTyping.map fun peer =>
    if peer.timestamp + 5000 < now then { peer with removed := true } else peer

/-! ### Messages -/

def peerJoined (peerId : Option Int) (peerName message : Option String) : PageScript Unit := do
  postSystemMessage peerId message
  onParticipants (Participants.peerJoined peerId peerName)

mutual

def onMessage (urlRoom : String) (now : Int) : MessageDto → PageScript Unit
  | ⟨peerId, peerName, code, message, timestamp, peers, history, files⟩ =>
      match code with
      | some .codeInfo => do
          onParticipants (Participants.welcome peerId peerName peers)
          replay urlRoom now history
            (peerJoined peerId peerName (some (peerName.getD "undefined" ++ " - joined room")))
      | some .codePeerJoined => peerJoined peerId peerName message
      | some .codePeerLeft => do
          postSystemMessage peerId message
          onParticipants (Participants.peerLeft peerId)
      | some .codePeerMessage => postChatMessage peerId peerName timestamp message
      | some .codePeerIsTyping => postPeerIsTyping now peerId peerName
      | some .codePeerMessageFile => postSharedFile urlRoom peerId peerName timestamp files
      | _ => pure ⟨⟩

/-- The replay of a history, if there is one with messages in it. -/
def replay (urlRoom : String) (now : Int) :
    Option (List (Option (Object MessageDto))) → PageScript Unit → PageScript Unit
  | none, otherwise => otherwise
  | some [], otherwise => otherwise
  | some (entry :: entries), _ => do
      replayEntry urlRoom now entry
      replayEntries urlRoom now entries

def replayEntries (urlRoom : String) (now : Int) :
    List (Option (Object MessageDto)) → PageScript Unit
  | [] => pure ⟨⟩
  | entry :: entries => do
      replayEntry urlRoom now entry
      replayEntries urlRoom now entries

def replayEntry (urlRoom : String) (now : Int) : Option (Object MessageDto) → PageScript Unit
  | none => throw .typeError
  | some object => replayObject urlRoom now object

def replayObject (urlRoom : String) (now : Int) : Object MessageDto → PageScript Unit
  | ⟨_, message⟩ => onMessage urlRoom now message

end

/-! ### Events -/

inductive ChatEvent
  | onmessage (now : Int) (message : MessageDto)
  | onclose
  /-- the last transition of a child of `peers_other` has ended -/
  | transitionend (i : ℕ)
  | animateWhosTyping (now : Int)
  /-- the last transition of a child of `chat_whos_typing` has ended -/
  | typingTransitionend (i : ℕ)

/-- A child that is on its way out goes. -/
def typingTransitionend (i : ℕ) (whosTyping : List TypingElement) : List TypingElement :=
  match whosTyping[i]? with
  | some peerElem => if peerElem.removed then whosTyping.eraseIdx i else whosTyping
  | none => whosTyping

def ChatEvent.script (urlRoom : String) : ChatEvent → PageScript Unit
  | .onmessage now message => onMessage urlRoom now message
  | .onclose => onParticipants Participants.onclose
  | .transitionend i => onParticipants (Participants.handle (.transitionend i))
  | .animateWhosTyping now => modify fun page =>
      { page with whosTyping := ChatPage.animateWhosTyping now page.whosTyping }
  | .typingTransitionend i => modify fun page =>
      { page with whosTyping := ChatPage.typingTransitionend i page.whosTyping }

/-- The page when the browser has handled all events. -/
def afterEvents (urlRoom : String) (events : List ChatEvent) (page : ChatPage) : ChatPage :=
  events.foldl (fun page event => ((event.script urlRoom).exec page).2) page

def ChatEvent.message? : ChatEvent → Option MessageDto
  | .onmessage _ message => some message
  | _ => none

/-- What an event is to the list of participants. -/
def ChatEvent.pageEvent? : ChatEvent → Option Participants.PageEvent
  | .onmessage _ message => some (.onmessage message)
  | .onclose => some .onclose
  | .transitionend i => some (.transitionend i)
  | _ => none

/-! ### The list of participants -/

section Mirrors

variable {α β : Type} {script : PageScript α} {script' : Script α}

/-- To the list of participants `script` is what `script'` is. -/
def Mirrors (script : PageScript α) (script' : Script α) : Prop := ∀ page,
  ((script.exec page).1, (script.exec page).2.participants) = script'.exec page.participants

theorem Mirrors.bind {k : α → PageScript β} {k' : α → Script β} (h : Mirrors script script')
    (hk : ∀ a, Mirrors (k a) (k' a)) : Mirrors (script >>= k) (script' >>= k') := by
  intro page
  rw [PageScript.exec_bind, Script.exec_bind, ← h page]
  rcases script.exec page with ⟨e | a, page'⟩
  · rfl
  · exact hk a page'

theorem Mirrors.pure (a : α) : Mirrors (pure a) (pure a) := fun _ => rfl

theorem Mirrors.throw (e : JsError) : Mirrors (throw e : PageScript α) (throw e) := fun _ => rfl

theorem Mirrors.onParticipants (script : Script α) : Mirrors (onParticipants script) script :=
  fun _ => rfl

/-- What comes first does not touch the list. -/
theorem Mirrors.after {f : ChatPage → ChatPage}
    (hf : ∀ page, (f page).participants = page.participants)
    {k : PageScript α} (hk : Mirrors k script') : Mirrors (do modify f; k) script' := by
  intro page
  rw [PageScript.exec_bind, PageScript.exec_modify, ← hf page]
  exact hk (f page)

theorem Mirrors.modify {f : ChatPage → ChatPage}
    (hf : ∀ page, (f page).participants = page.participants) :
    Mirrors (modify f) (Pure.pure ⟨⟩) := by
  intro page
  exact congrArg (Prod.mk _) (hf page)

variable (urlRoom : String) (now : Int) (peerId : Option Int) (peerName message : Option String)

theorem mirrors_postFiles {k : List SharedFile → PageScript Unit}
    (hk : ∀ files, Mirrors (k files) (Pure.pure ⟨⟩)) (files : List (Option FileDto)) :
    Mirrors (postFiles urlRoom peerId files >>= k) (Participants.postFiles files) := by
  induction files generalizing k with
  | nil => exact hk []
  | cons file files ih =>
      rcases file with - | file
      · exact .throw _
      · unfold postFiles Participants.postFiles
        rw [bind_assoc]
        refine .bind (.onParticipants _) fun self => ?_
        rw [bind_assoc]
        exact ih fun files => hk _

theorem mirrors_postSharedFile (timestamp : Option Int) (files : Option (List (Option FileDto))) :
    Mirrors (postSharedFile urlRoom peerId peerName timestamp files)
      (Participants.postSharedFile files) := by
  unfold postSharedFile
  refine .after ?_ ?_
  · exact fun _ => rfl
  · rcases files with - | files
    · exact .throw _
    · refine mirrors_postFiles urlRoom peerId (fun messageDivFiles => .modify ?_) files
      exact fun _ => rfl

theorem mirrors_peerJoined : Mirrors (peerJoined peerId peerName message)
    (Participants.peerJoined peerId peerName) := by
  unfold peerJoined postSystemMessage
  refine .after ?_ (.onParticipants _)
  exact fun _ => rfl

theorem mirrors_postPeerIsTyping : Mirrors (postPeerIsTyping now peerId peerName) (do
    let _ ← Participants.readPeerId) := by
  refine .bind (.onParticipants _) fun self => ?_
  split
  · exact .pure _
  · exact .modify fun _ => rfl

/-- The page of `Participants` is what this page makes of its list, also where
something throws. -/
theorem mirrors_onMessage (dto : MessageDto) :
    Mirrors (onMessage urlRoom now dto) (Participants.onMessage dto) := by
  -- the induction is that of `onMessage`, which calls itself for the entries of a history
  refine onMessage.induct
    (fun dto => Mirrors (onMessage urlRoom now dto) (Participants.onMessage dto))
    (fun history otherwise => ∀ otherwise', Mirrors otherwise otherwise' →
      Mirrors (replay urlRoom now history otherwise) (Participants.replay history otherwise'))
    (fun entries =>
      Mirrors (replayEntries urlRoom now entries) (Participants.replayEntries entries))
    (fun entry => Mirrors (replayEntry urlRoom now entry) (Participants.replayEntry entry))
    (fun object => Mirrors (replayObject urlRoom now object) (Participants.replayObject object))
    ?_ ?_ ?_ ?_ ?_ ?_ ?_ ?_ ?_ ?_ ?_ ?_ ?_ ?_ ?_ dto
  · intro peerId peerName message timestamp peers history files ih
    unfold onMessage Participants.onMessage
    exact .bind (.onParticipants _) fun _ => ih _ (mirrors_peerJoined peerId peerName _)
  · intro peerId peerName message timestamp peers history files
    unfold onMessage Participants.onMessage
    exact mirrors_peerJoined peerId peerName message
  · intro peerId peerName message timestamp peers history files
    unfold onMessage Participants.onMessage postSystemMessage
    refine .after ?_ (.onParticipants _)
    exact fun _ => rfl
  · intro peerId peerName message timestamp peers history files
    unfold onMessage Participants.onMessage
    exact .modify fun _ => rfl
  · intro peerId peerName message timestamp peers history files
    unfold onMessage Participants.onMessage
    exact mirrors_postPeerIsTyping now peerId peerName
  · intro peerId peerName message timestamp peers history files
    unfold onMessage Participants.onMessage
    exact mirrors_postSharedFile urlRoom peerId peerName timestamp files
  · intro peerId peerName code message timestamp peers history files hinfo hjoined hleft hmessage
      htyping hfile
    unfold onMessage Participants.onMessage
    -- all other codes are ignored by both
    rcases code with - | code
    · exact .pure _
    cases code with
    | codeInfo => exact absurd rfl hinfo
    | codePeerJoined => exact absurd rfl hjoined
    | codePeerLeft => exact absurd rfl hleft
    | codePeerMessage => exact absurd rfl hmessage
    | codePeerIsTyping => exact absurd rfl htyping
    | codePeerMessageFile => exact absurd rfl hfile
    | _ => exact .pure _
  · intro otherwise otherwise' h
    exact h
  · intro otherwise otherwise' h
    exact h
  · intro entry entries _ hentry hentries otherwise' _
    exact .bind hentry fun _ => hentries
  · exact .pure _
  · intro entry entries hentry hentries
    exact .bind hentry fun _ => hentries
  · exact .throw _
  · intro object h
    exact h
  · intro ptr message h
    exact h

theorem mirrors_script (event : ChatEvent) :
    match event.pageEvent? with
    | some event' => Mirrors (event.script urlRoom) event'.script
    | none => Mirrors (event.script urlRoom) (Pure.pure ⟨⟩) := by
  cases event with
  | onmessage now message => exact mirrors_onMessage urlRoom now message
  | onclose => exact .onParticipants _
  | transitionend i => exact .onParticipants _
  | animateWhosTyping now =>
      refine Mirrors.modify ?_
      exact fun _ => rfl
  | typingTransitionend i =>
      refine Mirrors.modify ?_
      exact fun _ => rfl

theorem participants_afterEvents (events : List ChatEvent) (page : ChatPage) :
    (afterEvents urlRoom events page).participants =
      Participants.pageAfter (events.filterMap ChatEvent.pageEvent?) page.participants := by
  induction events generalizing page with
  | nil => rfl
  | cons event events ih =>
      have hevent := mirrors_script urlRoom event
      refine (ih _).trans ?_
      rcases hpage : event.pageEvent? with - | event'
      · rw [hpage] at hevent
        rw [List.filterMap_cons_none hpage]
        exact congrArg (Participants.pageAfter _) (congrArg Prod.snd (hevent page))
      · rw [hpage] at hevent
        rw [List.filterMap_cons_some hpage]
        exact congrArg (Participants.pageAfter _) (congrArg Prod.snd (hevent page))

end Mirrors

/-! ### The panel -/

/-- It is posted to `chat_history`. -/
def isPosted (message : MessageDto) : Bool :=
  match message.code with
  | some .codePeerJoined | some .codePeerLeft | some .codePeerMessage
  | some .codePeerMessageFile => true
  | _ => false

def markOf (message : MessageDto) : Mark :=
  match message.code with
  | some .codePeerJoined | some .codePeerLeft => .sys
  | _ => .peer message.peerId

def authorOf (message : MessageDto) : Option Author :=
  match message.code with
  | some .codePeerJoined | some .codePeerLeft => none
  | _ => some { peerName := message.peerName, timestamp := message.timestamp }

/-- What is posted, on the page of `self`. -/
def entryOf (urlRoom : String) (self : Option Int) (message : MessageDto) : Entry :=
  match message.code with
  | some .codePeerJoined | some .codePeerLeft =>
      .system ("📢 " ++ message.message.getD "undefined")
  | some .codePeerMessageFile =>
      .files ((message.files.getD []).filterMap fun file =>
        file.map (sharedFile urlRoom (message.peerId == self)))
  | _ => .message message.message

/-- The container of a run of messages by one author. -/
def containerOf (urlRoom : String) (self : Option Int) (run : List MessageDto) : Container where
  peerId := (run.head?.map markOf).getD .sys
  author := run.head?.bind authorOf
  entries := run.map (entryOf urlRoom self)

/-- `later` goes into the same container. -/
def sameAuthor (earlier later : MessageDto) : Bool :=
  Mark.continues (markOf earlier) (markOf later)

/-- The panel after these messages. -/
def panelOf (urlRoom : String) (self : Option Int) (messages : List MessageDto) : List Container :=
  (messages.splitBy sameAuthor).map (containerOf urlRoom self)

section Panel

variable {urlRoom : String} {self : Option Int} {messages run : List MessageDto}
  {message : MessageDto}

theorem Mark.eq_of_continues {mark mark' : Mark} (h : Mark.continues mark mark' = true) :
    mark = mark' := by
  unfold Mark.continues at h
  split at h
  · rfl
  · rw [beq_iff_eq.mp h]
  · cases h

/-- All of a run is by one author. -/
theorem markOf_run {last : MessageDto}
    (hrun : (run ++ [last]).IsChain fun earlier later => sameAuthor earlier later = true) :
    (containerOf urlRoom self (run ++ [last])).peerId = markOf last := by
  induction run with
  | nil => rfl
  | cons first run ih =>
      obtain ⟨hfirst, hrest⟩ := List.isChain_cons.mp hrun
      have hlast := ih hrest
      show markOf first = markOf last
      rcases run with - | ⟨second, run⟩
      · exact Mark.eq_of_continues (hfirst last rfl)
      · exact (Mark.eq_of_continues (hfirst second rfl)).trans hlast

theorem appendEntry_concat (entry : Entry) (containers : List Container) (last : Container) :
    appendEntry entry (containers ++ [last]) =
      containers ++ [{ last with entries := last.entries ++ [entry] }] := by
  unfold appendEntry
  rw [List.dropLast_concat, List.getLast?_concat]
  rfl

theorem containerOf_concat {last : MessageDto} :
    containerOf urlRoom self (run ++ [last] ++ [message]) =
      { containerOf urlRoom self (run ++ [last]) with
        entries := (containerOf urlRoom self (run ++ [last])).entries ++
          [entryOf urlRoom self message] } := by
  have hhead : (run ++ [last] ++ [message]).head? = (run ++ [last]).head? :=
    List.head?_append_of_ne_nil _ (by simp)
  unfold containerOf
  rw [hhead, List.map_append]
  rfl

/-- One more message is posted. -/
theorem post_panelOf (messages : List MessageDto) (message : MessageDto) :
    appendEntry (entryOf urlRoom self message)
        (withContainer { peerId := markOf message, author := authorOf message }
          (panelOf urlRoom self messages)) =
      panelOf urlRoom self (messages ++ [message]) := by
  unfold panelOf
  rcases List.eq_nil_or_concat' (messages.splitBy sameAuthor) with hnil | ⟨runs, lastRun, hruns⟩
  · obtain rfl := List.splitBy_eq_nil.mp hnil
    rfl
  · have hmem : lastRun ∈ messages.splitBy sameAuthor := by
      rw [hruns]
      exact List.mem_append_right _ (List.mem_singleton_self _)
    obtain ⟨run, last, rfl⟩ :=
      (List.eq_nil_or_concat' lastRun).resolve_left (List.ne_nil_of_mem_splitBy hmem)
    have hmark : (containerOf urlRoom self (run ++ [last])).peerId = markOf last :=
      markOf_run (List.isChain_of_mem_splitBy hmem)
    rw [splitBy_concat hruns, hruns, List.map_append, List.map_singleton]
    unfold withContainer
    rw [List.getLast?_concat]
    dsimp only
    rw [hmark]
    show appendEntry _ (if sameAuthor last message = true then _ else _) = _
    split
    · rw [appendEntry_concat, List.map_append, List.map_singleton, containerOf_concat]
    · rw [appendEntry_concat, List.map_append, List.map_append, List.map_singleton]
      rfl

variable {now : Int} {page : ChatPage}

theorem exec_postFiles (hself : page.participants.peerId = some self) (peerId : Option Int)
    (files : List (Option FileDto)) : (postFiles urlRoom peerId files).exec page =
      (if none ∈ files then .error .typeError
        else .ok (files.filterMap fun file => file.map (sharedFile urlRoom (peerId == self))),
        page) := by
  induction files with
  | nil => rfl
  | cons file files ih =>
      rcases file with - | file
      · rw [if_pos List.mem_cons_self]
        rfl
      · have hread : (Participants.readPeerId).exec page.participants =
            (.ok self, page.participants) := by
          rw [Participants.exec_readPeerId, hself]
        unfold postFiles
        rw [PageScript.exec_bind, PageScript.exec_onParticipants, hread]
        dsimp only
        rw [PageScript.exec_bind, ih]
        have hmem : none ∈ some file :: files ↔ none ∈ files := by simp
        rw [if_congr hmem rfl rfl]
        by_cases hnone : none ∈ files
        · rw [if_pos hnone, if_pos hnone]
        · rw [if_neg hnone, if_neg hnone]
          rfl

theorem chatHistory_postSharedFile (hself : page.participants.peerId = some self)
    (peerId : Option Int) (peerName : Option String) (timestamp : Option Int)
    {files : Option (List (Option FileDto))}
    (hok : ((postSharedFile urlRoom peerId peerName timestamp files).exec page).1 = .ok ⟨⟩) :
    ((postSharedFile urlRoom peerId peerName timestamp files).exec page).2.chatHistory =
      appendEntry (.files ((files.getD []).filterMap fun file =>
          file.map (sharedFile urlRoom (peerId == self))))
        (withContainer { peerId := .peer peerId, author := some { peerName, timestamp } }
          page.chatHistory) := by
  unfold postSharedFile at hok ⊢
  rw [PageScript.exec_bind, PageScript.exec_modify] at hok ⊢
  rcases files with - | files
  · cases hok
  · dsimp only at hok ⊢
    let opened : ChatPage :=
      { page with
        chatHistory := withContainer
          { peerId := .peer peerId, author := some { peerName, timestamp } } page.chatHistory }
    have hopened : opened.participants.peerId = some self := hself
    rw [PageScript.exec_bind, exec_postFiles hopened] at hok ⊢
    by_cases hnone : none ∈ files
    · rw [if_pos hnone] at hok
      cases hok
    · rw [if_neg hnone]
      rfl

/-- What a message does to the panel, unless it throws. -/
theorem chatHistory_onMessage (hcode : message.code ≠ some .codeInfo)
    (hself : page.participants.peerId = some self)
    (hok : ((onMessage urlRoom now message).exec page).1 = .ok ⟨⟩)
    (hpanel : page.chatHistory = panelOf urlRoom self messages) :
    ((onMessage urlRoom now message).exec page).2.chatHistory =
      panelOf urlRoom self (messages ++ [message].filter isPosted) := by
  -- a code with an entry appends it behind the container of its author
  have hpost : isPosted message = true →
      panelOf urlRoom self (messages ++ [message].filter isPosted) =
        appendEntry (entryOf urlRoom self message)
          (withContainer { peerId := markOf message, author := authorOf message }
            page.chatHistory) := by
    intro hposted
    rw [hpanel, post_panelOf, List.filter_cons_of_pos hposted, List.filter_nil]
  -- any other code leaves the panel alone
  have hkeep : isPosted message = false →
      panelOf urlRoom self (messages ++ [message].filter isPosted) = page.chatHistory := by
    intro hposted
    rw [hpanel, List.filter_cons_of_neg (by simp [hposted]), List.filter_nil, List.append_nil]
  have hread :
      (Participants.readPeerId).exec page.participants = (.ok self, page.participants) := by
    rw [Participants.exec_readPeerId, hself]
  obtain ⟨peerId, peerName, code, text, timestamp, peers, history, files⟩ := message
  unfold onMessage at hok ⊢
  rcases code with - | code
  · exact (hkeep rfl).symm
  cases code with
  | codeInfo => exact absurd rfl hcode
  | codePeerJoined => exact (hpost rfl).symm
  | codePeerLeft => exact (hpost rfl).symm
  | codePeerMessage => exact (hpost rfl).symm
  -- `postPeerIsTyping` reads the peer id and edits another part of the page
  | codePeerIsTyping =>
      rw [hkeep rfl]
      dsimp only
      unfold postPeerIsTyping
      rw [PageScript.exec_bind, PageScript.exec_onParticipants, hread]
      dsimp only
      split
      · rfl
      · rfl
  | codePeerMessageFile =>
      rw [hpost rfl]
      exact chatHistory_postSharedFile hself peerId peerName timestamp hok
  | _ => exact (hkeep rfl).symm

/-- The page is still that of `self`. -/
theorem peerId_onMessage (hcode : message.code ≠ some .codeInfo)
    (hself : page.participants.peerId = some self) :
    ((onMessage urlRoom now message).exec page).2.participants.peerId = some self := by
  have hmirrors := congrArg Prod.snd (mirrors_onMessage urlRoom now message page)
  dsimp only at hmirrors
  rw [hmirrors, Participants.page_onMessage hcode]
  split
  · exact Participants.peerId_updateParticipants hself
  · exact hself

theorem chatHistory_replayEntries {objects : List (Object MessageDto)}
    (hcodes : ∀ object ∈ objects, object.val.code ≠ some .codeInfo)
    (hself : page.participants.peerId = some self)
    (hok : ((replayEntries urlRoom now (objects.map some)).exec page).1 = .ok ⟨⟩)
    (hpanel : page.chatHistory = panelOf urlRoom self messages) :
    ((replayEntries urlRoom now (objects.map some)).exec page).2.chatHistory =
      panelOf urlRoom self (messages ++ (objects.map Object.val).filter isPosted) := by
  induction objects generalizing page messages with
  | nil =>
      show page.chatHistory = panelOf urlRoom self (messages ++ [])
      rw [List.append_nil]
      exact hpanel
  | cons object objects ih =>
      obtain ⟨hcode, hcodes⟩ := List.forall_mem_cons.mp hcodes
      have hentry : replayEntry urlRoom now (some object) = onMessage urlRoom now object.val := by
        obtain ⟨ptr, message⟩ := object
        rw [replayEntry, replayObject]
      rw [List.map_cons, replayEntries, PageScript.exec_bind, hentry] at hok ⊢
      rcases hexec : (onMessage urlRoom now object.val).exec page with ⟨e | ⟨⟩, page'⟩
      · rw [hexec] at hok
        cases hok
      · have hthis : ((onMessage urlRoom now object.val).exec page).1 = .ok ⟨⟩ := by rw [hexec]
        have hself' : ((onMessage urlRoom now object.val).exec page).2.participants.peerId =
            some self := peerId_onMessage hcode hself
        have hchat := chatHistory_onMessage hcode hself hthis hpanel
        rw [hexec] at hok hself' hchat
        rw [ih hcodes hself' hok hchat, List.append_assoc, ← List.filter_append]
        rfl

/-- The message that a page makes up where nothing is replayed. -/
def ownNotice (info : MessageDto) : MessageDto where
  code := some .codePeerJoined
  peerId := info.peerId
  peerName := info.peerName
  message := some (info.peerName.getD "undefined" ++ " - joined room")

/-- What a page shows of a `CODE_INFO`. -/
def shownBy (info : MessageDto) : List MessageDto :=
  if Participants.replayed info = [] then [ownNotice info] else Participants.replayed info

variable {info : MessageDto} {nick : Option Int → Option String}

/-- A page is welcomed, and then goes through the history or makes up its notice. -/
theorem exec_onMessage_info (urlRoom : String) (now : Int) (hcode : info.code = some .codeInfo)
    (hgreets : Participants.Greets nick info) :
    ∃ welcomed : Participants, welcomed.peerId = some info.peerId ∧
      ((Participants.replayed info = [] ∧ (onMessage urlRoom now info).exec {} =
          (onMessage urlRoom now (ownNotice info)).exec { participants := welcomed }) ∨
        ∃ objects : List (Object MessageDto), objects ≠ [] ∧
          Participants.replayed info = objects.map Object.val ∧
          (∀ object ∈ objects, object.val.code ≠ some .codeInfo) ∧
          (onMessage urlRoom now info).exec {} =
            (replayEntries urlRoom now (objects.map some)).exec { participants := welcomed }) := by
  obtain ⟨welcomed, hwelcome, hself⟩ := Participants.Greeted.exec_welcome hgreets
  have hhistory := hgreets.history
  obtain ⟨peerId, peerName, code, text, timestamp, peers, history, files⟩ := info
  obtain rfl : code = some .codeInfo := hcode
  have hexec : (Participants.welcome peerId peerName peers).exec {} = (.ok ⟨⟩, welcomed) := hwelcome
  refine ⟨welcomed, hself, ?_⟩
  have hinfo : (onMessage urlRoom now ⟨peerId, peerName, some .codeInfo, text, timestamp, peers,
      history, files⟩).exec {} = (replay urlRoom now history (peerJoined peerId peerName
        (some (peerName.getD "undefined" ++ " - joined room")))).exec
          { participants := welcomed } := by
    rw [onMessage, PageScript.exec_bind, PageScript.exec_onParticipants, hexec]
  rw [hinfo]
  rcases history with - | history
  · exact .inl ⟨rfl, rfl⟩
  obtain ⟨objects, rfl, hcoherent, -⟩ := hhistory history rfl
  rcases objects with - | ⟨object, objects⟩
  · exact .inl ⟨rfl, rfl⟩
  · refine .inr ⟨object :: objects, nofun, ?_, fun object hobject => ?_, rfl⟩
    · simp [Participants.replayed]
    · exact (hcoherent object.val (List.mem_map_of_mem hobject)).2

theorem chatHistory_info (hcode : info.code = some .codeInfo)
    (hgreets : Participants.Greets nick info)
    (hok : ((onMessage urlRoom now info).exec {}).1 = .ok ⟨⟩) :
    ((onMessage urlRoom now info).exec {}).2.chatHistory =
      panelOf urlRoom info.peerId ((shownBy info).filter isPosted) := by
  obtain ⟨welcomed, hself, ⟨hnil, hexec⟩ | ⟨objects, hne, hreplayed, hcodes, hexec⟩⟩ :=
    exec_onMessage_info urlRoom now hcode hgreets
  all_goals rw [hexec] at hok ⊢
  all_goals
    let page : ChatPage := { participants := welcomed }
    have hblank : page.chatHistory = panelOf urlRoom info.peerId [] := rfl
    unfold shownBy
  · have hnotice : (ownNotice info).code ≠ some .codeInfo := nofun
    rw [if_pos hnil]
    exact chatHistory_onMessage hnotice hself hok hblank
  · have hshown : objects.map Object.val ≠ [] := fun h => hne (List.map_eq_nil_iff.mp h)
    rw [hreplayed, if_neg hshown]
    exact chatHistory_replayEntries hcodes hself hok hblank

/-- **The panel is what was posted**, split into runs by one author, on a page
that has been greeted. -/
theorem chatHistory_afterEvents {events : List ChatEvent}
    (hgreeted : Participants.Greeted nick info (events.filterMap ChatEvent.pageEvent?)) :
    (afterEvents urlRoom (.onmessage now info :: events) {}).chatHistory =
      panelOf urlRoom info.peerId
        ((shownBy info ++ events.filterMap ChatEvent.message?).filter isPosted) := by
  -- from the end: one more event on the page that the others lead to
  induction events using List.reverseRecOn with
  | nil =>
      have hfirst := List.nil_append [Participants.PageEvent.onmessage info]
      have hok := hgreeted.exec_event hfirst.symm
      have hmirrors := congrArg Prod.fst (mirrors_onMessage urlRoom now info {})
      rw [List.filterMap_nil, List.append_nil]
      exact chatHistory_info hgreeted.code hgreeted.greets (hmirrors.trans hok)
  | append_singleton events event ih =>
      rw [List.filterMap_append] at hgreeted
      have hchat := ih hgreeted.of_append
      let page := afterEvents urlRoom (.onmessage now info :: events) {}
      have hafter : afterEvents urlRoom (.onmessage now info :: (events ++ [event])) {} =
          ((event.script urlRoom).exec page).2 := by
        show List.foldl _ _ (events ++ [event]) = _
        rw [List.foldl_append]
        rfl
      rw [hafter, List.filterMap_append, ← List.append_assoc, List.filter_append]
      cases event with
      | onmessage now' message =>
          have hlist : page.participants = Participants.pageAfter
              (.onmessage info :: events.filterMap ChatEvent.pageEvent?) {} :=
            participants_afterEvents urlRoom _ {}
          have hself : page.participants.peerId = some info.peerId :=
            hlist ▸ hgreeted.of_append.mapHas.1
          -- nothing throws, as the list of participants alone decides about that
          have hok : ((onMessage urlRoom now' message).exec page).1 = .ok ⟨⟩ := by
            have hmirrors := congrArg Prod.fst (mirrors_onMessage urlRoom now' message page)
            refine hmirrors.trans ?_
            rw [hlist]
            have hlast : Participants.PageEvent.onmessage info ::
                (events ++ [ChatEvent.onmessage now' message]).filterMap ChatEvent.pageEvent? =
                (.onmessage info :: events.filterMap ChatEvent.pageEvent?) ++
                  [.onmessage message] := by
              rw [List.filterMap_append]
              rfl
            rw [← List.filterMap_append] at hgreeted
            exact hgreeted.exec_event hlast
          have hmem : message ∈ (events.filterMap ChatEvent.pageEvent? ++
              [ChatEvent.onmessage now' message].filterMap ChatEvent.pageEvent?).filterMap
              Participants.PageEvent.message? := by
            rw [List.filterMap_append]
            exact List.mem_append_right _ (List.mem_singleton_self _)
          have hcode := (hgreeted.notices message (List.mem_append_right _ hmem)).2
          exact chatHistory_onMessage hcode hself hok hchat
      -- the other events leave the panel
      | _ => exact hchat.trans (congrArg _ (List.append_nil _).symm)

end Panel

end ChatPage

end CanChat
