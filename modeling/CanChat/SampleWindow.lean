/-
CanChat/SampleWindow.lean

The time series of the event counters (server/src/utils/Statistics.cpp).

`takeSample` either brings the newest point up to date or pushes a new point
and drops those that have become too old.  The clock may jump either way; a
reading before the newest point brings it up to date like any early one.

Design.  `spans` is a ghost: for every point ever pushed, the sample that
pushed it and the last one before the next push.  `dataPoints` is exactly the
spans that began within `maxPeriod` of the newest (`Windowed`), from which
everything else follows.
-/
import CanChat.Subscriber
import CanChat.Transition
import Mathlib.Data.List.ModifyLast
import Mathlib.Order.Basic
import Mathlib.Algebra.Order.Group.Int
import Mathlib.Tactic.Linarith

namespace CanChat

namespace SampleWindow

/-! ### The points -/

/-- The counters of `Statistics` that a point holds. -/
inductive EventCounter
  | frontPageLoaded
  | peerConnected
  | peerDisconnected
  | peerZombieDropped
  | peerSendMessage
  | peerShareFile
  | roomCreated
  | roomDeleted
  | fileServedBytes
  deriving DecidableEq, Repr

abbrev Counters := EventCounter → ℕ

structure StatPointDto where
  timestamp : Int
  events : Counters := fun _ => 0

/-- What one call of `takeSample` reads. -/
structure Sample where
  nowMicro : Int
  counters : Counters

/-- `m_maxPeriod` and `m_pushInterval`, in microseconds. -/
structure Periods where
  maxPeriod : Int
  pushInterval : Int

variable (periods : Periods)

/-- The newest point, if it is not yet time for another. -/
def recentPoint (nowMicro : Int) (dataPoints : List StatPointDto) : Option StatPointDto :=
  match dataPoints.getLast? with
  | none => none
  | some p => if nowMicro - p.timestamp < periods.pushInterval then some p else none

/-- The loop that drops old points. -/
def evict (nowMicro : Int) : List StatPointDto → Except Fault (List StatPointDto)
  | [] => .error .emptyFront
  | p :: ps =>
      if nowMicro - p.timestamp > periods.maxPeriod then evict nowMicro ps else .ok (p :: ps)

/-- The last part of `takeSample`. -/
def StatPointDto.load (counters : Counters) (p : StatPointDto) : StatPointDto :=
  { p with events := counters }

def takeSample (sample : Sample) (dataPoints : List StatPointDto) :
    Except Fault (List StatPointDto) :=
  match recentPoint periods sample.nowMicro dataPoints with
  | some _ => .ok (dataPoints.modifyLast (.load sample.counters))
  | none =>
      match evict periods sample.nowMicro (dataPoints ++ [{ timestamp := sample.nowMicro }]) with
      | .error fault => .error fault
      | .ok kept => .ok (kept.modifyLast (.load sample.counters))

/-! ### Runs -/

/-- From the push of a point to the push of the next. -/
structure Span where
  first : Sample
  last : Sample

def Span.point (span : Span) : StatPointDto :=
  { timestamp := span.first.nowMicro, events := span.last.counters }

structure State where
  dataPoints : List StatPointDto := []
  spans : List Span := []
  /-- The counters when the last sample was taken. -/
  counters : Counters := fun _ => 0

def addSample (pushes : Bool) (sample : Sample) (spans : List Span) : List Span :=
  if pushes then spans ++ [⟨sample, sample⟩]
  else spans.modifyLast fun span => { span with last := sample }

def step (s : State) (sample : Sample) : Option State :=
  match takeSample periods sample s.dataPoints with
  | .error _ => none
  | .ok dataPoints => some
      { dataPoints
        spans := addSample (recentPoint periods sample.nowMicro s.dataPoints).isNone sample s.spans
        counters := sample.counters }

def system : Transition.System State Sample where
  init s := s = {}
  step := step periods

/-- The counters do not decrease. -/
def Counting (s : State) (sample : Sample) : Prop := s.counters ≤ sample.counters

/-! ### The window -/

/-- The span began no more than `maxPeriod` before `newest`. -/
def within (newest : Int) (p : StatPointDto) : Bool := newest - p.timestamp ≤ periods.maxPeriod

/-- The points are those of the spans within the window of the newest. -/
structure Windowed (s : State) : Prop where
  apart : s.spans.Pairwise fun a b => periods.pushInterval ≤ b.first.nowMicro - a.first.nowMicro
  kept : ∀ newest, s.spans.getLast? = some newest →
    s.dataPoints = (s.spans.map Span.point).filter (within periods newest.first.nowMicro)
  empty : s.spans = [] → s.dataPoints = []
  counted : s.spans.Pairwise fun a b => a.last.counters ≤ b.last.counters
  past : ∀ span ∈ s.spans, span.last.counters ≤ s.counters

variable {periods} {s : State} {sample : Sample}

theorem evict_eq {nowMicro : Int} {ps : List StatPointDto}
    (hsorted : ps.Pairwise fun p q => p.timestamp ≤ q.timestamp)
    (hlast : ∃ p ∈ ps, within periods nowMicro p = true) :
    evict periods nowMicro ps = .ok (ps.filter (within periods nowMicro)) := by
  induction ps with
  | nil =>
      obtain ⟨p, hp, -⟩ := hlast
      cases hp
  | cons p ps ih =>
      obtain ⟨hp, hps⟩ := List.pairwise_cons.mp hsorted
      unfold evict
      by_cases hold : nowMicro - p.timestamp > periods.maxPeriod
      · have hnot : within periods nowMicro p = false := by
          rw [within, decide_eq_false_iff_not]
          omega
        have hlast' : ∃ q ∈ ps, within periods nowMicro q = true := by
          obtain ⟨q, hq, hwithin⟩ := hlast
          rcases List.mem_cons.mp hq with rfl | hq
          · rw [hnot] at hwithin
            cases hwithin
          · exact ⟨q, hq, hwithin⟩
        rw [if_pos hold, ih hps hlast', List.filter_cons_of_neg (by simp [hnot])]
      · rw [if_neg hold, List.filter_eq_self.mpr]
        intro q hq
        have hle : p.timestamp ≤ q.timestamp := by
          rcases List.mem_cons.mp hq with rfl | hq
          · exact le_refl _
          · exact hp q hq
        simp only [within, decide_eq_true_eq]
        omega

/-- The newest point is that of the newest span. -/
theorem Windowed.dataPoints_concat (h : Windowed periods s) (hperiod : 0 ≤ periods.maxPeriod)
    {spans : List Span} {newest : Span} (hspans : s.spans = spans ++ [newest]) :
    s.dataPoints = (spans.map Span.point).filter (within periods newest.first.nowMicro) ++
      [newest.point] := by
  have hlast : s.spans.getLast? = some newest := by
    rw [hspans, List.getLast?_concat]
  have hnewest : within periods newest.first.nowMicro newest.point = true := by
    simpa [within, Span.point] using hperiod
  rw [h.kept newest hlast, hspans, List.map_append, List.filter_append]
  simp [hnewest]

theorem Windowed.sorted_points (h : Windowed periods s) (hinterval : 0 < periods.pushInterval) :
    (s.spans.map Span.point).Pairwise fun p q => p.timestamp ≤ q.timestamp := by
  rw [List.pairwise_map]
  refine h.apart.imp fun {a b} hab => ?_
  simp only [Span.point]
  omega

/-- Whoever is within the window of a later point was within that of an
earlier one. -/
theorem within_mono {older newer : Int} (h : older ≤ newer) {p : StatPointDto}
    (hp : within periods newer p = true) : within periods older p = true := by
  simp only [within, decide_eq_true_eq] at hp ⊢
  omega

/-- It is not yet time for another point. -/
theorem Windowed.update (h : Windowed periods s) (hperiod : 0 ≤ periods.maxPeriod)
    (hcounting : Counting s sample) {spans : List Span} {newest : Span}
    (hspans : s.spans = spans ++ [newest]) :
    Windowed periods
      { dataPoints := s.dataPoints.modifyLast (.load sample.counters)
        spans := spans ++ [{ newest with last := sample }]
        counters := sample.counters } := by
  have happart := h.apart
  have hcounted := h.counted
  rw [hspans, List.pairwise_append] at happart hcounted
  have hpast : ∀ span ∈ spans, span.last.counters ≤ sample.counters := fun span hspan =>
    (h.past span (hspans ▸ List.mem_append_left _ hspan)).trans hcounting
  refine ⟨?_, fun latest hlatest => ?_, by simp, ?_, fun span hspan => ?_⟩
  · refine List.pairwise_append.mpr ⟨happart.1, List.pairwise_singleton _ _, fun a ha b hb => ?_⟩
    obtain rfl := List.mem_singleton.mp hb
    exact happart.2.2 a ha newest (List.mem_singleton_self _)
  · obtain rfl : { newest with last := sample } = latest := by simpa using hlatest
    have hnewest : within periods newest.first.nowMicro
        (Span.point { newest with last := sample }) = true := by
      simpa [within, Span.point] using hperiod
    show s.dataPoints.modifyLast (.load sample.counters) = _
    rw [h.dataPoints_concat hperiod hspans, List.modifyLast_concat, List.map_append,
      List.filter_append]
    simp only [List.map_cons, List.map_nil, List.filter_cons, hnewest, if_true, List.filter_nil]
    rfl
  · refine List.pairwise_append.mpr ⟨hcounted.1, List.pairwise_singleton _ _, fun a ha b hb => ?_⟩
    obtain rfl := List.mem_singleton.mp hb
    exact hpast a ha
  · rcases List.mem_append.mp hspan with hspan | hspan
    · exact hpast span hspan
    · obtain rfl := List.mem_singleton.mp hspan
      exact le_refl _

/-- A point is pushed, and old points are dropped. -/
theorem Windowed.push (h : Windowed periods s) (hinterval : 0 < periods.pushInterval)
    (hperiod : 0 ≤ periods.maxPeriod)
    (hlater : ∀ span ∈ s.spans, periods.pushInterval ≤ sample.nowMicro - span.first.nowMicro) :
    ∃ kept, evict periods sample.nowMicro
        (s.dataPoints ++ [{ timestamp := sample.nowMicro }]) = .ok kept ∧
      (Counting s sample → Windowed periods
        { dataPoints := kept.modifyLast (.load sample.counters)
          spans := s.spans ++ [⟨sample, sample⟩]
          counters := sample.counters }) := by
  let new : StatPointDto := { timestamp := sample.nowMicro }
  -- the new point is inside the window, so eviction does not throw
  have hnew : ∀ p : StatPointDto, p.timestamp = sample.nowMicro →
      within periods sample.nowMicro p = true := by
    intro p hp
    simpa [within, hp] using hperiod
  -- evicting by the later time gives the same result from all points as from those kept so far
  have hsub : s.dataPoints.filter (within periods sample.nowMicro) =
      (s.spans.map Span.point).filter (within periods sample.nowMicro) := by
    rcases hlast : s.spans.getLast? with - | newest
    · rw [List.getLast?_eq_none_iff] at hlast
      rw [h.empty hlast, hlast]
      rfl
    · have hle : newest.first.nowMicro ≤ sample.nowMicro := by
        have := hlater newest (List.mem_of_getLast? hlast)
        omega
      rw [h.kept newest hlast, List.filter_filter]
      refine List.filter_congr fun p _ => ?_
      rcases hp : within periods sample.nowMicro p with - | -
      · rfl
      · rw [within_mono hle hp]
        rfl
  -- the points are sorted, as samples come in order
  have hsorted : (s.dataPoints ++ [new]).Pairwise fun p q => p.timestamp ≤ q.timestamp := by
    have hpoints : s.dataPoints.Sublist (s.spans.map Span.point) := by
      rcases hlast : s.spans.getLast? with - | newest
      · rw [h.empty (List.getLast?_eq_none_iff.mp hlast)]
        exact List.nil_sublist _
      · rw [h.kept newest hlast]
        exact List.filter_sublist
    refine List.pairwise_append.mpr ⟨(h.sorted_points hinterval).sublist hpoints,
      List.pairwise_singleton _ _, fun p hp q hq => ?_⟩
    obtain rfl := List.mem_singleton.mp hq
    obtain ⟨span, hspan, rfl⟩ := List.mem_map.mp (hpoints.subset hp)
    have := hlater span hspan
    show span.first.nowMicro ≤ sample.nowMicro
    omega
  have hevict := evict_eq hsorted ⟨new, by simp, hnew new rfl⟩
  rw [List.filter_append, hsub, List.filter_cons_of_pos (hnew new rfl), List.filter_nil] at hevict
  -- the fields in order: apart, kept, empty, counted, past
  refine ⟨_, hevict, fun hcounting =>
    ⟨?_, fun newest hnewest => ?_, by simp, ?_, fun span hspan => ?_⟩⟩
  · refine List.pairwise_append.mpr ⟨h.apart, List.pairwise_singleton _ _, fun a ha b hb => ?_⟩
    obtain rfl := List.mem_singleton.mp hb
    exact hlater a ha
  · obtain rfl : (⟨sample, sample⟩ : Span) = newest := by simpa using hnewest
    rw [List.modifyLast_concat, List.map_append, List.filter_append]
    rw [List.map_singleton, List.filter_cons_of_pos (hnew _ rfl)]
    rfl
  · refine List.pairwise_append.mpr ⟨h.counted, List.pairwise_singleton _ _, fun a ha b hb => ?_⟩
    obtain rfl := List.mem_singleton.mp hb
    exact (h.past a ha).trans hcounting
  · rcases List.mem_append.mp hspan with hspan | hspan
    · exact (h.past span hspan).trans hcounting
    · obtain rfl := List.mem_singleton.mp hspan
      exact le_refl _

/-- Every sample is taken, and keeps the window. -/
theorem Windowed.step (h : Windowed periods s) (hinterval : 0 < periods.pushInterval)
    (hperiod : 0 ≤ periods.maxPeriod) (sample : Sample) :
    (∃ dataPoints, takeSample periods sample s.dataPoints = .ok dataPoints) ∧
      ∀ s', step periods s sample = some s' → Counting s sample → Windowed periods s' := by
  have hpush : recentPoint periods sample.nowMicro s.dataPoints = none →
      (∀ span ∈ s.spans, periods.pushInterval ≤ sample.nowMicro - span.first.nowMicro) →
      (∃ dataPoints, takeSample periods sample s.dataPoints = .ok dataPoints) ∧
        ∀ s', SampleWindow.step periods s sample = some s' → Counting s sample →
          Windowed periods s' := by
    intro hnone hlater
    obtain ⟨kept, hevict, hwindowed⟩ := h.push hinterval hperiod hlater
    have htake : takeSample periods sample s.dataPoints =
        .ok (kept.modifyLast (.load sample.counters)) := by
      rw [takeSample, hnone]
      dsimp only
      rw [hevict]
    refine ⟨⟨_, htake⟩, fun s' hstep hcounting => ?_⟩
    rw [SampleWindow.step, htake] at hstep
    obtain rfl := Option.some.inj hstep
    rw [hnone]
    exact hwindowed hcounting
  rcases List.eq_nil_or_concat s.spans with hnil | ⟨spans, newest, hspans⟩
  · refine hpush ?_ (by simp [hnil])
    rw [h.empty hnil]
    rfl
  · rw [List.concat_eq_append] at hspans
    have hlast : s.dataPoints.getLast? = some newest.point := by
      rw [h.dataPoints_concat hperiod hspans, List.getLast?_concat]
    by_cases hearly : sample.nowMicro - newest.point.timestamp < periods.pushInterval
    · have hrecent : recentPoint periods sample.nowMicro s.dataPoints = some newest.point := by
        rw [recentPoint, hlast]
        exact if_pos hearly
      have htake : takeSample periods sample s.dataPoints =
          .ok (s.dataPoints.modifyLast (.load sample.counters)) := by
        rw [takeSample, hrecent]
      refine ⟨⟨_, htake⟩, fun s' hstep hcounting => ?_⟩
      rw [SampleWindow.step, htake] at hstep
      obtain rfl := Option.some.inj hstep
      have hspans' : addSample (recentPoint periods sample.nowMicro s.dataPoints).isNone sample
          s.spans = spans ++ [{ newest with last := sample }] := by
        rw [hrecent, hspans]
        exact List.modifyLast_concat _ _ _
      rw [hspans']
      exact h.update hperiod hcounting hspans
    · have hrecent : recentPoint periods sample.nowMicro s.dataPoints = none := by
        rw [recentPoint, hlast]
        exact if_neg hearly
      refine hpush hrecent fun span hspan => ?_
      -- the newest point is the last one pushed
      rw [hspans] at hspan
      have happart := h.apart
      rw [hspans, List.pairwise_append] at happart
      have hnewest : periods.pushInterval ≤ sample.nowMicro - newest.first.nowMicro :=
        not_lt.mp hearly
      rcases List.mem_append.mp hspan with hspan | hspan
      · have := happart.2.2 span hspan newest (List.mem_singleton_self _)
        omega
      · obtain rfl := List.mem_singleton.mp hspan
        exact hnewest

/-- The time series is the window it should be. -/
structure Exact (periods : Periods) (s : State) : Prop where
  apart : s.dataPoints.Pairwise fun p q => p.timestamp + periods.pushInterval ≤ q.timestamp
  period : ∀ oldest newest, s.dataPoints.head? = some oldest →
    s.dataPoints.getLast? = some newest → newest.timestamp - oldest.timestamp ≤ periods.maxPeriod
  bounded : (s.dataPoints.length : Int) ≤ periods.maxPeriod / periods.pushInterval + 1
  /-- the loop does not read the front of an empty list -/
  total : ∀ sample, ∃ dataPoints, takeSample periods sample s.dataPoints = .ok dataPoints
  /-- every point is the point of a span, and holds the counters of its last sample -/
  counters : ∀ p ∈ s.dataPoints, ∃ span ∈ s.spans, p = span.point
  kept : ∀ newest, s.dataPoints.getLast? = some newest → ∀ span ∈ s.spans,
    newest.timestamp - span.first.nowMicro ≤ periods.maxPeriod → span.point ∈ s.dataPoints
  counting : s.dataPoints.Pairwise fun p q => p.events ≤ q.events

/-- Points that are apart fit into the period only so often. -/
theorem length_le_of_apart {points : List StatPointDto} {oldest newest : StatPointDto}
    (happart : points.Pairwise fun p q => p.timestamp + periods.pushInterval ≤ q.timestamp)
    (holdest : points.head? = some oldest) (hnewest : points.getLast? = some newest) :
    (points.length - 1 : Int) * periods.pushInterval ≤ newest.timestamp - oldest.timestamp := by
  induction points generalizing oldest with
  | nil => cases holdest
  | cons p points ih =>
      obtain rfl : p = oldest := by simpa using holdest
      obtain ⟨hp, hpoints⟩ := List.pairwise_cons.mp happart
      rcases hhead : points.head? with - | q
      · obtain rfl := List.head?_eq_none_iff.mp hhead
        obtain rfl : p = newest := by simpa using hnewest
        simp
      · have hne : points ≠ [] := by
          rintro rfl
          cases hhead
        have hrest := ih hpoints hhead (by rwa [List.getLast?_cons_of_ne_nil hne] at hnewest)
        have hgap := hp q (List.mem_of_head? hhead)
        rw [List.length_cons]
        push_cast
        linarith

theorem Windowed.exact (h : Windowed periods s) (hinterval : 0 < periods.pushInterval)
    (hperiod : 0 ≤ periods.maxPeriod) : Exact periods s := by
  have hspans : s.dataPoints.Sublist (s.spans.map Span.point) := by
    rcases hlast : s.spans.getLast? with - | newest
    · rw [h.empty (List.getLast?_eq_none_iff.mp hlast)]
      exact List.nil_sublist _
    · rw [h.kept newest hlast]
      exact List.filter_sublist
  have happart : s.dataPoints.Pairwise fun p q =>
      p.timestamp + periods.pushInterval ≤ q.timestamp := by
    refine List.Pairwise.sublist hspans (List.pairwise_map.mpr (h.apart.imp fun {a b} hab => ?_))
    simp only [Span.point]
    omega
  -- the newest point is that of the newest span
  have hnewest : ∀ newest, s.dataPoints.getLast? = some newest →
      s.dataPoints = (s.spans.map Span.point).filter (within periods newest.timestamp) := by
    intro newest hlast
    rcases List.eq_nil_or_concat s.spans with hnil | ⟨spans, latest, hconcat⟩
    · rw [h.empty hnil] at hlast
      cases hlast
    · rw [List.concat_eq_append] at hconcat
      have hpoints := h.dataPoints_concat hperiod hconcat
      rw [hpoints, List.getLast?_concat] at hlast
      obtain rfl := Option.some.inj hlast
      refine h.kept latest ?_
      rw [hconcat, List.getLast?_concat]
  have hperiod' : ∀ oldest newest, s.dataPoints.head? = some oldest →
      s.dataPoints.getLast? = some newest →
        newest.timestamp - oldest.timestamp ≤ periods.maxPeriod := by
    intro oldest newest holdest hlast
    have hmem : oldest ∈ s.dataPoints := List.mem_of_head? holdest
    rw [hnewest newest hlast] at hmem
    simpa [within] using (List.mem_filter.mp hmem).2
  refine ⟨happart, hperiod', ?_, fun sample => (h.step hinterval hperiod sample).1, fun p hp => ?_,
    fun newest hlast span hspan hwithin => ?_, ?_⟩
  · rcases hhead : s.dataPoints.head? with - | oldest
    · rw [List.head?_eq_none_iff.mp hhead]
      have := Int.ediv_nonneg hperiod hinterval.le
      simp only [List.length_nil]
      omega
    · have hne : s.dataPoints ≠ [] := by
        intro hnil
        rw [hnil] at hhead
        cases hhead
      have hlast := List.getLast?_eq_some_getLast hne
      have hlength := length_le_of_apart happart hhead hlast
      have hspread := hperiod' oldest _ hhead hlast
      have hfits : (s.dataPoints.length - 1 : Int) ≤ periods.maxPeriod / periods.pushInterval :=
        Int.le_ediv_of_mul_le hinterval (hlength.trans hspread)
      omega
  · obtain ⟨span, hspan, rfl⟩ := List.mem_map.mp (hspans.subset hp)
    exact ⟨span, hspan, rfl⟩
  · rw [hnewest newest hlast]
    refine List.mem_filter.mpr ⟨List.mem_map_of_mem hspan, ?_⟩
    simpa [within, Span.point] using hwithin
  · exact List.Pairwise.sublist hspans (List.pairwise_map.mpr h.counted)

end SampleWindow

end CanChat
