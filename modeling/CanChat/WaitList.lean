/-
CanChat/WaitList.lean

A download waiting for its next chunk (File::Subscriber::waitForChunkAsync
and WaitListListener).

The reader tests for a chunk under `m_chunkLock` and only then, the lock
released, is put into the wait list by the framework; some time later the
framework calls `onNewItem`, which tests again.  A chunk or an invalidation
may arrive at any point in between.

Of `CoroutineWaitList` nothing is assumed but that `onNewItem` is called some
time after an item is parked, and that `notifyAll` reschedules every item
parked at that moment.  Parkings are numbered, since the `onNewItem` call of
one parking may still be outstanding when the reader is parked again.
-/
import CanChat.Subscriber
import CanChat.Transition

namespace CanChat

namespace WaitList

/-! ### The reader and the wait list -/

/-- Where the coroutine that reads the download is. -/
inductive Reader
  /-- about to call `readChunk` -/
  | ready
  /-- scheduled to run `WaitCoroutine::act` -/
  | testing
  /-- `act` has asked to be put into the wait list -/
  | parking
  /-- in the wait list, by its `n`-th parking -/
  | parked (n : ℕ)
  /-- `readChunk` has thrown -/
  | failed
  deriving DecidableEq, Repr

structure State where
  subscriber : Subscriber
  reader : Reader := .ready
  parkings : ℕ := 0
  /-- The parkings whose `onNewItem` call has not been made. -/
  pending : List ℕ := []
  deriving DecidableEq, Repr

inductive Act
  | readChunk (count : Int)
  | act
  | park
  | onNewItem (n : ℕ)
  | provideFileChunk (data : Bytes)
  | invalidate
  deriving DecidableEq, Repr

/-- `notifyAll`: a parked reader will run `act` again. -/
def notifyAll (w : State) : State :=
  match w.reader with
  | .parked _ => { w with reader := .testing }
  | _ => w

def step (fileSize : Int) (w : State) : Act → Option State
  | .readChunk count =>
      if w.reader = .ready then
        match w.subscriber.readChunk fileSize count with
        | .ok (.bytes _, subscriber) => some { w with subscriber }
        | .ok (.retryRead, subscriber) => some { w with subscriber, reader := .testing }
        | .error _ => some { w with reader := .failed }
      else
        none
  | .act =>
      if w.reader = .testing then
        some { w with reader := if w.subscriber.waitIsOver then .ready else .parking }
      else
        none
  | .park =>
      if w.reader = .parking then
        some { w with
          reader := .parked w.parkings
          parkings := w.parkings + 1
          pending := w.parkings :: w.pending }
      else
        none
  | .onNewItem n =>
      if n ∈ w.pending then
        let w := { w with pending := w.pending.erase n }
        some (if w.subscriber.waitIsOver then notifyAll w else w)
      else
        none
  | .provideFileChunk data =>
      match w.subscriber.provideFileChunk data with
      | .ok subscriber => some (notifyAll { w with subscriber })
      | .error _ => some w
  | .invalidate => some (notifyAll { w with subscriber := w.subscriber.invalidate })

/-- Any subscriber, nobody waiting. -/
def system (fileSize : Int) : Transition.System State Act where
  init w := w.reader = .ready ∧ w.pending = []
  step := step fileSize

/-! ### Nothing is missed -/

/-- If the reader is parked and the `onNewItem` call of its parking has been
made, there is nothing it should have been woken for. -/
def Covered (w : State) : Prop :=
  ∀ n, w.reader = .parked n → n ∉ w.pending →
    w.subscriber.chunk = none ∧ w.subscriber.valid = true

theorem notifyAll_reader (w : State) (n : ℕ) : (notifyAll w).reader ≠ .parked n := by
  unfold notifyAll
  split
  · simp
  · next h => exact fun hn => h n hn

/-- After a `notifyAll` nobody is parked. -/
theorem covered_notifyAll (w : State) : Covered (notifyAll w) :=
  fun n hn => absurd hn (notifyAll_reader w n)

theorem covered_of_reader {w : State} (h : ∀ n, w.reader ≠ .parked n) : Covered w :=
  fun n hn => absurd hn (h n)

theorem not_waitIsOver_iff {s : Subscriber} :
    s.waitIsOver = false ↔ s.chunk = none ∧ s.valid = true := by
  simp [Subscriber.waitIsOver]

theorem covered_onNewItem (w : State) (n : ℕ) :
    Covered (if w.subscriber.waitIsOver then notifyAll { w with pending := w.pending.erase n }
      else { w with pending := w.pending.erase n }) := by
  split
  · exact covered_notifyAll _
  · next hover =>
    intro k hk hpending
    -- the test of this very call found nothing to wake the reader for
    exact not_waitIsOver_iff.mp (by simpa using hover)

theorem covered_step {fileSize : Int} {w w' : State} {a : Act} (h : Covered w)
    (hstep : step fileSize w a = some w') : Covered w' := by
  cases a with
  | readChunk count =>
      simp only [step, Option.ite_none_right_eq_some] at hstep
      obtain ⟨hready, hstep⟩ := hstep
      split at hstep
      · obtain rfl := Option.some.inj hstep
        exact covered_of_reader (by simp [hready])
      · obtain rfl := Option.some.inj hstep
        exact covered_of_reader (by simp)
      · obtain rfl := Option.some.inj hstep
        exact covered_of_reader (by simp)
  | act =>
      simp only [step, Option.ite_none_right_eq_some, Option.some.injEq] at hstep
      obtain ⟨-, rfl⟩ := hstep
      refine covered_of_reader fun n => ?_
      dsimp only
      split <;> simp
  | park =>
      simp only [step, Option.ite_none_right_eq_some, Option.some.injEq] at hstep
      obtain ⟨-, rfl⟩ := hstep
      -- the call for this parking is still to come
      intro n hn hpending
      obtain rfl := Reader.parked.inj hn
      exact absurd List.mem_cons_self hpending
  | onNewItem n =>
      simp only [step, Option.ite_none_right_eq_some, Option.some.injEq] at hstep
      obtain ⟨-, rfl⟩ := hstep
      exact covered_onNewItem w n
  | provideFileChunk data =>
      simp only [step] at hstep
      split at hstep
      · obtain rfl := Option.some.inj hstep
        exact covered_notifyAll _
      · obtain rfl := Option.some.inj hstep
        exact h
  | invalidate =>
      obtain rfl := Option.some.inj hstep
      exact covered_notifyAll _

/-- **No wake-up is lost**: in every reachable state in which the reader is
parked and the `onNewItem` call of its parking has completed, there is no
chunk to take and the subscriber is valid. -/
theorem no_lost_wakeup {fileSize : Int} {w : State} (hw : (system fileSize).Reachable w) {n : ℕ}
    (hparked : w.reader = .parked n) (hdone : n ∉ w.pending) :
    w.subscriber.chunk = none ∧ w.subscriber.valid = true := by
  have hcovered : Covered w := by
    refine hw.invariant (I := Covered) ?_ ?_
    · rintro w ⟨hready, -⟩
      exact covered_of_reader (by simp [hready])
    · exact fun w a w' h hstep => covered_step h hstep
  exact hcovered n hparked hdone

/-- The state after a first read has parked and its `onNewItem` call was made. -/
def firstReadParked : State where
  subscriber := { id := 1, file := 0 }
  reader := .parked 0
  parkings := 1

theorem no_lost_wakeup_first_read :
    firstReadParked.subscriber.chunk = none ∧ firstReadParked.subscriber.valid = true := by
  have hinit : (system 100).Reachable { subscriber := { id := 1, file := 0 } } := .init ⟨rfl, rfl⟩
  have hrun : (system 100).run { subscriber := { id := 1, file := 0 } }
      [.readChunk 40, .act, .park, .onNewItem 0] = some firstReadParked := rfl
  exact no_lost_wakeup (hinit.run hrun) (n := 0) rfl (by decide)

end WaitList

end CanChat
