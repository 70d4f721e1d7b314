/-
CanChat/Participants.lean

The chat page's list of participants (front/chat/chat.js): `onMessage`, with
`peersMap` and the elements that show it.

Design.  A script runs in `Script`: what it did before an exception stays.  The
page has the variables that matter here, and of the document the children of
`peers_other`.  `peerId` is assigned and never declared, so it is `none` until
`CODE_INFO` assigns it, and to read it before that is an error.  An element that
is taken off the list stays a child until its transition has ended.

Of what posting a message does to the document only the errors are here.
-/
import CanChat.Dto
import CanChat.StableSort
import Mathlib.Data.List.Lex

namespace CanChat

/-! ### The page -/

inductive JsError
  /-- a variable that has not been declared -/
  | referenceError
  /-- a property of `null` or `undefined` -/
  | typeError
  deriving DecidableEq, Repr

/-- A child of `peers_other`. -/
structure ParticipantElement where
  peerId : Option Int
  /-- It has the class `participant_deleted`. -/
  deleted : Bool := false
  deriving DecidableEq, Repr

structure Participants where
  /-- `none` as long as nothing has been assigned to it. -/
  peerId : Option (Option Int) := none
  peerName : Option String := none
  /-- The values of the `Map`, in the order of insertion. -/
  peersMap : List PeerDto := []
  /-- The children of `peers_other`, once the list has been created. -/
  peersOther : Option (List ParticipantElement) := none
  deriving DecidableEq, Repr

/-- A script that may throw half way. -/
abbrev Script := ExceptT JsError (StateM Participants)

/-- The outcome of a script, and the page it leaves. -/
def Script.exec {α : Type} (script : Script α) (page : Participants) :
    Except JsError α × Participants :=
  (script.run).run page

namespace Script

variable {α β : Type} (page : Participants)

@[simp] theorem exec_pure (a : α) : exec (pure a) page = (.ok a, page) := rfl

@[simp] theorem exec_throw (e : JsError) :
    exec (throw e : Script α) page = (.error e, page) := rfl

@[simp] theorem exec_get : exec get page = (.ok page, page) := rfl

@[simp] theorem exec_set (page' : Participants) : exec (set page') page = (.ok ⟨⟩, page') := rfl

@[simp] theorem exec_modify (f : Participants → Participants) :
    exec (modify f) page = (.ok ⟨⟩, f page) := rfl

theorem exec_bind (script : Script α) (k : α → Script β) :
    exec (script >>= k) page = match exec script page with
      | (.ok a, page) => exec (k a) page
      | (.error e, page) => (.error e, page) := by
  show (script >>= k).run.run page = _
  simp only [ExceptT.run_bind, StateT.run_bind, exec]
  rcases e : script.run.run page with ⟨_ | _, t⟩ <;> simp_all <;> rfl

end Script

namespace Participants

/-! ### The map of the peers -/

/-- `Map.set`: a key that is there keeps its place. -/
def mapSet (peer : PeerDto) (peersMap : List PeerDto) : List PeerDto :=
  if peersMap.any fun other => other.peerId == peer.peerId then
    peersMap.map fun other => if other.peerId = peer.peerId then peer else other
  else
    peersMap ++ [peer]

def mapDelete (peerId : Option Int) (peersMap : List PeerDto) : List PeerDto :=
  peersMap.filter fun other => other.peerId != peerId

def mapHas (peerId : Option Int) (peersMap : List PeerDto) : Bool :=
  peersMap.any fun other => other.peerId == peerId

/-- The 16-bit units by which JavaScript compares strings. -/
def codeUnits (text : String) : List ℕ :=
  text.toList.flatMap fun c =>
    if c.toNat < 0x10000 then [c.toNat]
    else [0xD800 + (c.toNat - 0x10000) / 0x400, 0xDC00 + (c.toNat - 0x10000) % 0x400]

/-- `cmpPeers a b < 0`.  The server sends a name with every peer. -/
def cmpPeers (a b : PeerDto) : Bool :=
  decide (codeUnits (a.peerName.getD "") < codeUnits (b.peerName.getD ""))

/-! ### The elements -/

/-- A variable that is read. -/
def readPeerId : Script (Option Int) := do
  match (← get).peerId with
  | none => throw .referenceError
  | some peerId => pure peerId

def createParticipantElement (peer : PeerDto) : ParticipantElement := { peerId := peer.peerId }

/-- The peers but for the page's own, each with a new element. -/
def newElements (self : Option Int) (peers : List PeerDto) : List ParticipantElement :=
  (peers.filter fun peer => peer.peerId != self).map createParticipantElement

def createParticipantsList : Script Unit := do
  let self ← readPeerId
  modify fun page =>
    { page with peersOther := some (newElements self (StableSort.sort cmpPeers page.peersMap)) }

/-- The loop `while(inserted)`: new elements for the peers up to the one whose
element is there, and the peers behind that one.  Where there is none the loop
runs past the end of `peers`. -/
def insertBefore (self childId : Option Int) :
    List PeerDto → List ParticipantElement × Option (List PeerDto)
  | [] => ([], none)
  | peer :: peers =>
      if peer.peerId = self then insertBefore self childId peers
      else if peer.peerId = childId then ([], some peers)
      else
        let (new, rest) := insertBefore self childId peers
        (createParticipantElement peer :: new, rest)

/-- The two loops that insert elements: before the children that are left, and
after all children.  The flag tells that they have thrown. -/
def insertElements (self : Option Int) (peersMap : List PeerDto) :
    List ParticipantElement → List PeerDto → List ParticipantElement × Bool
  | [], peers => (newElements self peers, false)
  | child :: children, peers =>
      if mapHas child.peerId peersMap then
        match insertBefore self child.peerId peers with
        | (new, none) => (new ++ child :: children, true)
        | (new, some peers) =>
            let (children, thrown) := insertElements self peersMap children peers
            (new ++ child :: children, thrown)
      else
        let (children, thrown) := insertElements self peersMap children peers
        (child :: children, thrown)

def removeParticipantElement (child : ParticipantElement) : ParticipantElement :=
  { child with deleted := true }

def updateParticipants : Script Unit := do
  let page ← get
  match page.peersOther with
  | none => createParticipantsList
  | some children =>
      -- the list has been created, so `peerId` has been assigned
      let self ← readPeerId
      let children := children.map fun child =>
        if mapHas child.peerId page.peersMap then child else removeParticipantElement child
      let (children, thrown) := insertElements self page.peersMap children
        (StableSort.sort cmpPeers page.peersMap)
      set { page with peersOther := some children }
      if thrown then throw .typeError else pure ⟨⟩

theorem exec_readPeerId (page : Participants) : readPeerId.exec page = match page.peerId with
    | none => (.error .referenceError, page)
    | some peerId => (.ok peerId, page) := by
  unfold readPeerId
  rw [Script.exec_bind, Script.exec_get]
  dsimp only
  split
  · rfl
  · rfl

theorem exec_updateParticipants_none {page : Participants} (h : page.peerId = none) :
    updateParticipants.exec page = (.error .referenceError, page) := by
  unfold updateParticipants createParticipantsList
  rw [Script.exec_bind, Script.exec_get]
  dsimp only
  split
  · rw [Script.exec_bind, exec_readPeerId, h]
  · rw [Script.exec_bind, exec_readPeerId, h]

/-- The list is created, or brought up to date. -/
theorem exec_updateParticipants {page : Participants} {self : Option Int}
    (h : page.peerId = some self) :
    updateParticipants.exec page = match page.peersOther with
      | none => (.ok ⟨⟩, { page with
          peersOther := some (newElements self (StableSort.sort cmpPeers page.peersMap)) })
      | some children =>
          let inserted := insertElements self page.peersMap
            (children.map fun child =>
              if mapHas child.peerId page.peersMap then child else removeParticipantElement child)
            (StableSort.sort cmpPeers page.peersMap)
          (if inserted.2 then .error .typeError else .ok ⟨⟩,
            { page with peersOther := some inserted.1 }) := by
  obtain ⟨peerId, peerName, peersMap, peersOther⟩ := page
  subst h
  unfold updateParticipants createParticipantsList
  rw [Script.exec_bind, Script.exec_get]
  rcases peersOther with - | children
  · rfl
  · dsimp only
    rw [Script.exec_bind, exec_readPeerId]
    dsimp only
    rw [Script.exec_bind, Script.exec_set]
    dsimp only
    split
    · rfl
    · rfl

/-! ### Messages -/

/-- The case `CODE_PEER_JOINED`. -/
def peerJoined (peerId : Option Int) (peerName : Option String) : Script Unit := do
  modify fun page => { page with peersMap := mapSet { peerId, peerName } page.peersMap }
  updateParticipants

/-- The case `CODE_PEER_LEFT`. -/
def peerLeft (peerId : Option Int) : Script Unit := do
  modify fun page => { page with peersMap := mapDelete peerId page.peersMap }
  updateParticipants

/-- The loop of `postSharedFile`, as far as it may throw. -/
def postFiles : List (Option FileDto) → Script Unit
  | [] => pure ⟨⟩
  | none :: _ => throw .typeError
  | some _ :: files => do
      let _ ← readPeerId
      postFiles files

def postSharedFile (files : Option (List (Option FileDto))) : Script Unit :=
  match files with
  | none => throw .typeError
  | some files => postFiles files

/-- The first loop of the case `CODE_INFO`. -/
def setPeers : List (Option PeerDto) → Script Unit
  | [] => pure ⟨⟩
  | none :: _ => throw .typeError
  | some peer :: peers => do
      modify fun page => { page with peersMap := mapSet peer page.peersMap }
      setPeers peers

/-- The case `CODE_INFO`, up to the history. -/
def welcome (peerId : Option Int) (peerName : Option String)
    (peers : Option (List (Option PeerDto))) : Script Unit := do
  modify fun page => { page with peerId := some peerId, peerName }
  match peers with
  | none => throw .typeError
  | some peers => setPeers peers
  updateParticipants

mutual

/-- `onMessage`, as far as the list of participants goes and what may throw before
it is up to date.  Two things are left out, which no message of the server brings
about.  `sendFileChunks` throws where a `CODE_FILE_REQUEST_CHUNK` has null `files`;
the server's requests list one file (`Subscriber.requestChunkMessage`).  And a
null id is a key like any other here, as it is in a `Map`; the ids in the server's
messages are never null. -/
def onMessage : MessageDto → Script Unit
  | ⟨peerId, peerName, code, _, _, peers, history, files⟩ =>
      match code with
      | some .codeInfo => do
          welcome peerId peerName peers
          replay history (peerJoined peerId peerName)
      | some .codePeerJoined => peerJoined peerId peerName
      | some .codePeerLeft => peerLeft peerId
      | some .codePeerIsTyping => do
          let _ ← readPeerId
      | some .codePeerMessageFile => postSharedFile files
      | _ => pure ⟨⟩

/-- The replay of a history, if there is one with messages in it. -/
def replay : Option (List (Option (Object MessageDto))) → Script Unit → Script Unit
  | none, otherwise => otherwise
  | some [], otherwise => otherwise
  | some (entry :: entries), _ => do
      replayEntry entry
      replayEntries entries

def replayEntries : List (Option (Object MessageDto)) → Script Unit
  | [] => pure ⟨⟩
  | entry :: entries => do
      replayEntry entry
      replayEntries entries

def replayEntry : Option (Object MessageDto) → Script Unit
  | none => throw .typeError
  | some object => replayObject object

def replayObject : Object MessageDto → Script Unit
  | ⟨_, message⟩ => onMessage message

end

/-! ### The events of the browser -/

inductive Occurrence
  | onmessage (message : MessageDto)
  /-- the last transition of a child of `peers_other` has ended -/
  | transitionend (i : ℕ)

/-- A child that has been taken off the list is removed. -/
def transitionend (i : ℕ) (children : List ParticipantElement) : List ParticipantElement :=
  match children[i]? with
  | some child => if child.deleted then children.eraseIdx i else children
  | none => children

def handle : Occurrence → Script Unit
  | .onmessage message => onMessage message
  | .transitionend i => modify fun page =>
      { page with peersOther := page.peersOther.map (transitionend i) }

/-- An exception ends what handles one event, and nothing else. -/
def afterAll (occurrences : List Occurrence) (page : Participants) : Participants :=
  occurrences.foldl (fun page occurrence => ((handle occurrence).exec page).2) page

def Occurrence.message? : Occurrence → Option MessageDto
  | .onmessage message => some message
  | .transitionend _ => none

def received (occurrences : List Occurrence) : List MessageDto :=
  occurrences.filterMap Occurrence.message?

end Participants

end CanChat
