/-
CanChat/Page.lean

The chat page of one participant (front/chat/chat.js), as far as it hosts
files: `handleFiles` offers files to the room, and `sendFileChunks` answers
the server's requests for parts of them.

What else the page does with a message is display.  `btoa` (Base64) belongs to
the browser and is a parameter.
-/
import CanChat.Dto
import Mathlib.Algebra.Order.Ring.Int
import Mathlib.Logic.Function.Basic

namespace CanChat

/-! ### Files in the browser -/

/-- A position in a file of this size, as `Blob.slice` reads it: from the end
if negative, and within the file. -/
def Blob.clamp (size position : Int) : ℕ :=
  (if position < 0 then max (size + position) 0 else min position size).toNat

def Blob.slice (file : Bytes) (start stop : Int) : Bytes :=
  (file.take (clamp file.length stop)).drop (clamp file.length start)

/-- A part of a file, appended to the part before it. -/
theorem Blob.take_append_slice {file : Bytes} {start stop : ℕ} (hle : start ≤ stop)
    (hstop : stop ≤ file.length) :
    file.take start ++ Blob.slice file start stop = file.take stop := by
  have hclamp : ∀ i : ℕ, i ≤ file.length → Blob.clamp file.length i = i := by
    intro i hi
    unfold Blob.clamp
    omega
  rw [Blob.slice, hclamp start (hle.trans hstop), hclamp stop hstop]
  have htake : (file.take stop).take start = file.take start := by
    rw [List.take_take, min_eq_left hle]
  rw [← htake, List.take_append_drop]

theorem Blob.length_slice {file : Bytes} {start stop : ℕ} (hle : start ≤ stop)
    (hstop : stop ≤ file.length) : (Blob.slice file start stop).length = stop - start := by
  have happend := congrArg List.length (Blob.take_append_slice hle hstop)
  rw [List.length_append, List.length_take, List.length_take, min_eq_left hstop,
    min_eq_left (hle.trans hstop)] at happend
  omega

/-! ### The page -/

structure Page where
  /-- As told by `CODE_INFO`. -/
  peerId : Option Int := none
  filesIdCounter : Int := 1
  filesMap : Int → Option Bytes := fun _ => none

namespace Page

/-- The body of the loop in `handleFiles`, for a file and its name. -/
def offerFile (file : String × Bytes) (page : Page) : FileDto × Page :=
  let fileId := page.filesIdCounter
  ({ name := some file.1, clientFileId := some fileId, size := some file.2.length },
    { page with
      filesIdCounter := page.filesIdCounter + 1
      filesMap := Function.update page.filesMap fileId (some file.2) })

def offerFiles : List (String × Bytes) → Page → List (Option FileDto) × Page
  | [], page => ([], page)
  | file :: files, page =>
      let (fileJson, page) := page.offerFile file
      let (filesJson, page) := offerFiles files page
      (some fileJson :: filesJson, page)

def handleFiles (files : List (String × Bytes)) (page : Page) : MessageDto × Page :=
  let (filesJson, page) := offerFiles files page
  ({ code := some .codeFileShare, files := some filesJson }, page)

/-- The body of the loop in `sendFileChunks`.  A request has all of these
fields. -/
def sendFileChunk (btoa : Bytes → String) (page : Page) (chunkInfo : FileDto) :
    Option MessageDto := do
  let file ← page.filesMap (← chunkInfo.clientFileId)
  let chunkPosition ← chunkInfo.chunkPosition
  let chunkSize ← chunkInfo.chunkSize
  let posEnd := min (chunkPosition + chunkSize) file.length
  some
    { peerId := page.peerId
      code := some .codeFileChunkData
      files := some [some
        { serverFileId := chunkInfo.serverFileId
          subscriberId := chunkInfo.subscriberId
          data := some (btoa (Blob.slice file chunkPosition posEnd)) }] }

/-- The loop of `sendFileChunks`, for requests that list one file at most, as all
of the server's do (`Subscriber.requestChunkMessage`).  The source declares `reader`
and `posEnd` with `var`, so that the iterations share them: with two files in one
request each callback would send what the last reader has read. -/
def sendFileChunks (btoa : Bytes → String) (page : Page) (message : MessageDto) :
    List MessageDto :=
  (message.files.getD []).filterMap fun chunkInfo => chunkInfo.bind (page.sendFileChunk btoa)

/-- The messages the page sends in answer to one of the server's. -/
def onMessage (btoa : Bytes → String) (message : MessageDto) (page : Page) :
    List MessageDto × Page :=
  match message.code with
  | some .codeInfo => ([], { page with peerId := message.peerId })
  | some .codeFileRequestChunk => (page.sendFileChunks btoa message, page)
  | _ => ([], page)

/-! ### What the page offers -/

/-- The page holds a file under this id. -/
def Holds (page : Page) (clientFileId : Int) (content : Bytes) : Prop :=
  page.filesMap clientFileId = some content ∧ clientFileId < page.filesIdCounter

/-- The page holds the file, and its size is the one given. -/
def Offers (page : Page) (fileDto : FileDto) : Prop :=
  ∃ clientFileId content, fileDto.clientFileId = some clientFileId ∧
    fileDto.size = some (content.length : Int) ∧ page.Holds clientFileId content

variable {page : Page}

theorem Holds.offerFile {clientFileId : Int} {content : Bytes}
    (h : page.Holds clientFileId content) (file : String × Bytes) :
    (page.offerFile file).2.Holds clientFileId content := by
  refine ⟨?_, h.2.trans (Int.lt_succ _)⟩
  show Function.update _ _ _ _ = _
  rw [Function.update_of_ne h.2.ne]
  exact h.1

/-- A page never forgets a file, nor replaces it. -/
theorem Holds.offerFiles {clientFileId : Int} {content : Bytes} (files : List (String × Bytes))
    (h : page.Holds clientFileId content) :
    (Page.offerFiles files page).2.Holds clientFileId content := by
  induction files generalizing page with
  | nil => exact h
  | cons file files ih => exact ih (h.offerFile file)

theorem offers_of_mem_offerFiles (files : List (String × Bytes)) (page : Page)
    {entry : Option FileDto} (h : entry ∈ (page.offerFiles files).1) :
    ∃ fileDto, entry = some fileDto ∧ (page.offerFiles files).2.Offers fileDto := by
  induction files generalizing page with
  | nil => cases h
  | cons file files ih =>
      rcases List.mem_cons.mp h with rfl | h
      · have hholds : (page.offerFile file).2.Holds page.filesIdCounter file.2 :=
          ⟨Function.update_self _ _ _, Int.lt_succ _⟩
        exact ⟨_, rfl, _, file.2, rfl, rfl, hholds.offerFiles files⟩
      · exact ih _ h

theorem Holds.onMessage {clientFileId : Int} {content : Bytes}
    (h : page.Holds clientFileId content) (btoa : Bytes → String) (message : MessageDto) :
    (page.onMessage btoa message).2.Holds clientFileId content := by
  unfold Page.onMessage
  split
  · exact h
  · exact h
  · exact h

end Page

end CanChat
