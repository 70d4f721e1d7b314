import CanChat.Transition
import CanChat.MessageSafety
import CanChat.Heartbeat
import CanChat.LockOrder
import CanChat.Mutexes
import CanChat.RoomThreads
import CanChat.Cancellation
import CanChat.WaitList
import CanChat.CoLocation
import CanChat.Delivery
import CanChat.Faithful
import CanChat.Survivors
import CanChat.MessageSize
import CanChat.Bookkeeping
import CanChat.SingleDelivery
import CanChat.Provenance
import CanChat.Greeting
import CanChat.Convergence
import CanChat.Outbox
import CanChat.DroppedSocket
import CanChat.SampleWindow
import CanChat.Zombies
import CanChat.Links
import CanChat.FilesMessage
import CanChat.Completion
import CanChat.Reconciliation
import CanChat.Truncation
import CanChat.Reassembly
import CanChat.OwnRoom
import CanChat.Disposition
import CanChat.Screen
import CanChat.WordForWord
import CanChat.LiveLinks
import CanChat.Moves
import CanChat.Reachability
import CanChat.Downloads
