/-
CanChat/Peer.lean

The methods of `Peer` (server/src/rooms/Peer.cpp) that other objects call:
sending to the peer's websocket, the heartbeat, and the list of files the
peer hosts.  The handlers of the peer's own messages are in
`CanChat/Handlers.lean`.
-/
import CanChat.Server

namespace CanChat

namespace Peer

/-- `Peer::sendMessageAsync`: schedules the write if the socket is still there. -/
def sendMessageAsync (p : PeerRef) (message : Object MessageDto) (s : Server) : Server :=
  if (s.peers p).socket.isSome then
    { s with outbox := Function.update s.outbox p (s.outbox p ++ [message]) }
  else
    s

/-- Sending changes outboxes only. -/
theorem sendMessageAsync_frame (p : PeerRef) (message : Object MessageDto) (s : Server) :
    ∃ outbox, sendMessageAsync p message s = { s with outbox } := by
  unfold sendMessageAsync
  split
  · exact ⟨_, rfl⟩
  · exact ⟨s.outbox, rfl⟩

@[simp] theorem sendMessageAsync_peers (p : PeerRef) (message : Object MessageDto) (s : Server) :
    (sendMessageAsync p message s).peers = s.peers := by
  obtain ⟨_, h⟩ := sendMessageAsync_frame p message s
  rw [h]

/-- `Peer::sendPingAsync`: whether a ping was sent. -/
def sendPingAsync (p : PeerRef) (s : Server) : Bool × Server :=
  let s := s.modifyPeer p fun peer => { peer with pingPoingCounter := peer.pingPoingCounter + 1 }
  ((s.peers p).socket.isSome && (s.peers p).pingPoingCounter == 1, s)

/-- The pong of the ping in flight: the counter is decremented. -/
def onPong (p : PeerRef) : Server → Server :=
  Server.modifyPeer p fun peer => { peer with pingPoingCounter := peer.pingPoingCounter - 1 }

/-- The peer becomes the host of one more file. -/
def addFile (p : PeerRef) (file : FileRef) : Server → Server :=
  Server.modifyPeer p fun peer => { peer with files := peer.files ++ [file] }

/-- The peer loses its socket and keeps everything else. -/
def invalidateSocket (p : PeerRef) : Server → Server :=
  Server.modifyPeer p fun peer => { peer with socket := none }

@[simp] theorem invalidateSocket_room (p : PeerRef) (s : Server) :
    ((invalidateSocket p s).peers p).room = (s.peers p).room := by
  simp [invalidateSocket]

end Peer

end CanChat
