/-
CanChat/Completion.lean

How a download ends.

`readChunk` compares a chunk with the buffer it is copied to, and with nothing
else.  An empty chunk is copied and 0 is returned, which ends the stream, and a
chunk longer than the rest of the file is returned as it is.  Downloads end at
the declared size in the runs in which the host provides no such chunk
(`completes_iff_fitting`).

Design.  One subscriber, and the calls of the framework and of the host on it
in any order; a call that throws changes nothing.  The bytes returned so far,
and how many there were whenever a read returned 0, are ghosts.
-/
import CanChat.Subscriber
import CanChat.Transition

namespace CanChat

namespace Completion

/-! ### The calls -/

/-- The subscriber, the bytes returned so far, and the sizes at which end of
stream was returned. -/
structure State where
  subscriber : Subscriber
  /-- The bytes that the reads have returned. -/
  returned : Bytes := []
  /-- How many they were when a read returned 0. -/
  ends : List ℕ := []
  deriving DecidableEq

/-- The calls, and what happens to the subscriber between them. -/
inductive Act
  | readChunk (count : Int)
  | provideFileChunk (data : Bytes)
  | invalidate
  deriving DecidableEq

variable (fileSize : Int)

/-- One call of `readChunk`. -/
def readChunk (count : Int) (s : State) : State :=
  match s.subscriber.readChunk fileSize count with
  | .error _ => s
  | .ok (.retryRead, subscriber) => { s with subscriber }
  | .ok (.bytes data, subscriber) =>
      { subscriber
        returned := s.returned ++ data
        ends := if data.length = 0 then s.returned.length :: s.ends else s.ends }

/-- A read has a positive count. -/
def step (s : State) : Act → Option State
  | .readChunk count => if 0 < count then some (readChunk fileSize count s) else none
  | .provideFileChunk data =>
      match s.subscriber.provideFileChunk data with
      | .error _ => some s
      | .ok subscriber => some { s with subscriber }
  | .invalidate => some { s with subscriber := s.subscriber.invalidate }

/-- Calls of `readChunk`, from a new subscriber. -/
def system : Transition.System State Act where
  init s := ∃ id file, s = { subscriber := { id, file } }
  step := step fileSize

/-- The chunk would end the download early, or run over its end. -/
def Spoils (s : State) (chunk : Bytes) : Prop :=
  s.returned.length < fileSize ∧ (chunk.length = 0 ∨ fileSize < s.returned.length + chunk.length)

/-- The download has not gone wrong, and what could make it go wrong is refused. -/
structure Completes (s : State) : Prop where
  bound : s.returned.length ≤ fileSize
  ends : ∀ n ∈ s.ends, (n : Int) = fileSize
  refuses : ∀ chunk, s.subscriber.chunk = some chunk → Spoils fileSize s chunk →
    ∀ count, 0 < count →
    ∃ fault, s.subscriber.readChunk fileSize count = .error fault

/-- While the download goes on, the host provides chunks that fit: not empty,
and not longer than what is left of the file. -/
def Fitting (s : State) : Act → Prop
  | .provideFileChunk data => s.subscriber.valid = true → s.subscriber.chunk = none →
      s.subscriber.progress < fileSize →
        data.length ≠ 0 ∧ s.subscriber.progress + data.length ≤ fileSize
  | _ => True

instance (s : State) (a : Act) : Decidable (Fitting fileSize s a) :=
  match a with
  | .provideFileChunk data => inferInstanceAs (Decidable (s.subscriber.valid = true →
      s.subscriber.chunk = none → s.subscriber.progress < fileSize →
        data.length ≠ 0 ∧ s.subscriber.progress + data.length ≤ fileSize))
  | .readChunk _ => .isTrue trivial
  | .invalidate => .isTrue trivial

/-! ### The invariant -/

/-- The progress counts what was returned, and a chunk in the buffer fits. -/
structure Invariant (s : State) : Prop where
  progress : s.subscriber.progress = s.returned.length
  bound : s.returned.length ≤ fileSize
  ends : ∀ n ∈ s.ends, (n : Int) = fileSize
  chunk : s.subscriber.valid = true → s.subscriber.progress < fileSize →
    ∀ chunk, s.subscriber.chunk = some chunk →
      chunk.length ≠ 0 ∧ s.subscriber.progress + chunk.length ≤ fileSize

variable {fileSize} {s t : State}

theorem Invariant.completes (h : Invariant fileSize s) : Completes fileSize s where
  bound := h.bound
  ends := h.ends
  refuses chunk hchunk hspoils count _ := by
    by_cases hvalid : s.subscriber.valid = true
    · obtain ⟨hlt, hspoils⟩ := hspoils
      rw [← h.progress] at hlt hspoils
      obtain ⟨hne, hle⟩ := h.chunk hvalid hlt chunk hchunk
      omega
    · refine ⟨.exception "File is not valid any more.", ?_⟩
      rw [Subscriber.readChunk, if_pos (Bool.not_eq_true _ ▸ hvalid)]

/-- A fitting call keeps the invariant. -/
theorem Invariant.readChunk (h : Invariant fileSize s) (count : Int) :
    Invariant fileSize (readChunk fileSize count s) := by
  unfold Completion.readChunk
  split
  · exact h
  · next subscriber hok =>
    obtain ⟨-, ⟨_, -, -, -, hr, -⟩ | ⟨-, -, -, rfl⟩ | ⟨-, hr, -⟩⟩ := Subscriber.readChunk_eq_ok hok
    · cases hr
    · exact h
    · cases hr
  · next data subscriber hok =>
    obtain ⟨hvalid, ⟨chunk, hlt, hchunk, -, hr, rfl⟩ | ⟨-, -, hr, -⟩ | ⟨hge, hr, rfl⟩⟩ :=
      Subscriber.readChunk_eq_ok hok
    · -- the chunk fits
      obtain rfl := ReadResult.bytes.inj hr
      obtain ⟨hne, hle⟩ := h.chunk hvalid hlt data hchunk
      have hprogress := h.progress
      refine ⟨?_, ?_, ?_, fun _ _ chunk hchunk => nomatch hchunk⟩
      · show s.subscriber.progress + data.length = ((s.returned ++ data).length : ℕ)
        rw [List.length_append]
        omega
      · show ((s.returned ++ data).length : Int) ≤ fileSize
        rw [List.length_append]
        omega
      · show ∀ n ∈ if data.length = 0 then _ else s.ends, _
        rw [if_neg hne]
        exact h.ends
    · cases hr
    · -- the end
      obtain rfl := ReadResult.bytes.inj hr
      have hend : (s.returned.length : Int) = fileSize := by
        have hprogress := h.progress
        have hbound := h.bound
        omega
      rw [List.append_nil]
      refine ⟨h.progress, h.bound, fun n hn => ?_, h.chunk⟩
      rcases List.mem_cons.mp hn with rfl | hn
      · exact hend
      · exact h.ends n hn

/-- Every fitting action does. -/
theorem Invariant.step (h : Invariant fileSize s) {a : Act} (hfitting : Fitting fileSize s a)
    (hstep : step fileSize s a = some t) : Invariant fileSize t := by
  cases a with
  | readChunk count =>
      obtain ⟨-, hstep⟩ := Option.ite_none_right_eq_some.mp hstep
      obtain rfl := Option.some.inj hstep
      exact h.readChunk count
  | provideFileChunk data =>
      unfold Completion.step at hstep
      dsimp only at hstep
      split at hstep
      · obtain rfl := Option.some.inj hstep
        exact h
      · next subscriber hok =>
        obtain rfl := Option.some.inj hstep
        obtain ⟨hnone, rfl⟩ := Subscriber.provideFileChunk_eq_ok.mp hok
        refine ⟨h.progress, h.bound, h.ends, fun hvalid hlt chunk hchunk => ?_⟩
        obtain rfl := Option.some.inj hchunk
        exact hfitting hvalid hnone hlt
  | invalidate =>
      obtain rfl := Option.some.inj hstep
      exact ⟨h.progress, h.bound, h.ends, fun hvalid => nomatch hvalid⟩

/-- A chunk that does not fit is not refused. -/
theorem Invariant.fitting_of_completes (h : Invariant fileSize s) {a : Act}
    (hstep : Completion.step fileSize s a = some t) (ht : Completes fileSize t) :
    Fitting fileSize s a := by
  cases a with
  | readChunk count => trivial
  | invalidate => trivial
  | provideFileChunk data =>
      intro hvalid hnone hlt
      have hok : s.subscriber.provideFileChunk data =
          .ok { s.subscriber with chunk := some data } :=
        Subscriber.provideFileChunk_eq_ok.mpr ⟨hnone, rfl⟩
      rw [Completion.step, hok] at hstep
      obtain rfl := Option.some.inj hstep
      by_contra hspoils
      have hprogress := h.progress
      have hspoils : Spoils fileSize
          { s with subscriber := { s.subscriber with chunk := some data } } data := by
        show (s.returned.length : Int) < fileSize ∧
          (data.length = 0 ∨ fileSize < (s.returned.length : Int) + data.length)
        omega
      -- a buffer with room for it takes it
      have hlarge : ¬ (data.length : Int) > data.length + 1 := by
        omega
      have htaken : Subscriber.readChunk fileSize (data.length + 1)
          { s.subscriber with chunk := some data } = .ok (.bytes data,
            { s.subscriber with
              progress := s.subscriber.progress + data.length, chunk := none }) := by
        simp only [Subscriber.readChunk, hvalid, hlt, hlarge, if_true, if_false,
          Bool.true_eq_false]
      obtain ⟨fault, hfault⟩ := ht.refuses data rfl hspoils (data.length + 1) (by omega)
      rw [htaken] at hfault
      cases hfault

theorem Invariant.init (hsize : 0 ≤ fileSize) (hinit : (system fileSize).init s) :
    Invariant fileSize s := by
  obtain ⟨id, file, rfl⟩ := hinit
  refine ⟨rfl, hsize, ?_, ?_⟩
  · intro n hn
    cases hn
  · intro _ _ chunk hchunk
    cases hchunk

/-- **A download ends at the declared size**, throughout the runs in which the
host provides chunks that fit, and throughout no others. -/
theorem completes_iff_fitting (hsize : 0 ≤ fileSize) (hinit : (system fileSize).init s)
    {as : List Act} (hrun : (system fileSize).run s as = some t) :
    (system fileSize).Throughout (Completes fileSize) s as ↔
      (system fileSize).RunsVia (Fitting fileSize) s as := by
  refine Transition.System.throughout_iff_runsVia (I := Invariant fileSize) ?_ ?_ ?_
    (.init hsize hinit) hrun
  · exact fun _ h => h.completes
  · exact fun _ _ _ h hfitting hstep => h.step hfitting hstep
  · exact fun _ _ _ h hstep ht => h.fitting_of_completes hstep ht

def fresh : State where
  subscriber := { id := 1, file := 0 }

/-- Three bytes in two chunks, with a read in between that finds no chunk, one
whose buffer is too small, and the one that ends the stream. -/
def twoChunks : List Act :=
  [.readChunk 2, .provideFileChunk [1, 2], .readChunk 1, .readChunk 2, .provideFileChunk [3],
    .readChunk 2, .readChunk 2]

theorem completes_iff_fitting_two : ∃ t, (system 3).run fresh twoChunks = some t ∧
    t.returned = [1, 2, 3] ∧ t.ends = [3] ∧
    (system 3).Throughout (Completes 3) fresh twoChunks := by
  obtain ⟨t, hrun, hreturned, hends⟩ : ∃ t, (system 3).run fresh twoChunks = some t ∧
      t.returned = [1, 2, 3] ∧ t.ends = [3] := ⟨_, rfl, rfl, rfl⟩
  exact ⟨t, hrun, hreturned, hends,
    (completes_iff_fitting (by decide) ⟨1, 0, rfl⟩ hrun).mpr (by decide)⟩

/-- Of a file of three bytes two are returned, and the stream ends with an empty
chunk. -/
theorem cut_short : ¬ ∀ as t, (system 3).run fresh as = some t →
    (system 3).Throughout (Completes 3) fresh as := by
  intro h
  obtain ⟨t, hrun, hends⟩ : ∃ t, (system 3).run fresh
      [.provideFileChunk [1, 2], .readChunk 2, .provideFileChunk [], .readChunk 2] = some t ∧
        t.ends = [2] := ⟨_, rfl, rfl⟩
  have hcompletes := h _ t hrun _ List.prefix_rfl t hrun
  have hend := hcompletes.ends 2 (by rw [hends]; exact List.mem_cons_self)
  cases hend

end Completion

end CanChat
