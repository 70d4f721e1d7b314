/-
CanChat/Dto.lean

The data transfer objects that travel between the page and the server
(server/src/dto/DTOs.hpp) and the two configuration values the chat logic
reads (server/src/dto/Config.hpp).

Every DTO field may be null, so every field is an `Option`; a list may be
null and may hold null elements.  An `oatpp::Object<T>` is a shared pointer:
two messages with equal fields are still two messages, so an object is its
value together with the identity of the allocation.
-/
import CanChat.UnorderedMap

namespace CanChat

/-- `oatpp::Object<T>`: a value and the identity of the object holding it. -/
structure Object (α : Type) where
  ptr : ℕ
  val : α
  deriving DecidableEq, Repr

/-- The bytes of a buffer or of a decoded `oatpp::String`. -/
abbrev Bytes := List UInt8

inductive MessageCodes
  | codeInfo
  | codePeerJoined
  | codePeerLeft
  | codePeerMessage
  | codePeerMessageFile
  | codePeerIsTyping
  | codeFileShare
  | codeFileRequestChunk
  | codeFileChunkData
  | codeApiError
  deriving DecidableEq, Repr

structure PeerDto where
  peerId : Option Int := none
  peerName : Option String := none
  deriving DecidableEq, Repr

structure FileDto where
  clientFileId : Option Int := none
  serverFileId : Option Int := none
  name : Option String := none
  size : Option Int := none
  chunkPosition : Option Int := none
  chunkSize : Option Int := none
  subscriberId : Option Int := none
  /-- Base64 text. -/
  data : Option String := none
  deriving DecidableEq, Repr

/-- A message of either direction.  `peers` and `history` are filled in by the
server for `CODE_INFO`, but a client may send them as well. -/
structure MessageDto where
  peerId : Option Int := none
  peerName : Option String := none
  code : Option MessageCodes := none
  message : Option String := none
  timestamp : Option Int := none
  peers : Option (List (Option PeerDto)) := none
  history : Option (List (Option (Object MessageDto))) := none
  files : Option (List (Option FileDto)) := none

/-- The configuration the chat logic reads. -/
structure ConfigDto where
  /-- Max size of the received bytes of one message. -/
  maxMessageSizeBytes : ℕ := 8 * 1024
  /-- Number of the most recent messages to keep in the room history. -/
  maxRoomHistoryMessages : Option ℕ := some 100
  deriving DecidableEq, Repr

end CanChat
