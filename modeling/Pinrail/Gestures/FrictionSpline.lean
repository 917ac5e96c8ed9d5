import Pinrail.Gestures.ScrollTotals
import Pinrail.Lib.Bisection

/-!
# The friction spline

The table of the fling curve of Android's `OverScroller`, filled by bisection of a Bezier curve, each
sample from the lower end that the last one was found with.
-/

namespace Pinrail.Gestures.FrictionSpline
open Lib

def nbSamples : Nat := 100

noncomputable def inflexion : ℝ := 0.35

noncomputable def startTension : ℝ := 0.5

def endTension : ℝ := 1

noncomputable def p1 : ℝ := startTension * inflexion

noncomputable def p2 : ℝ := 1 - endTension * (1 - inflexion)

noncomputable def timeAt (x : ℝ) : ℝ :=
  let coefficient := 3 * x * (1 - x)
  coefficient * ((1 - x) * p1 + x * p2) + x * x * x

noncomputable def positionAt (x : ℝ) : ℝ :=
  let coefficient := 3 * x * (1 - x)
  coefficient * ((1 - x) * startTension + x) + x * x * x

noncomputable def tolerance : ℝ := 1e-5

def bisections : Nat := 64

noncomputable def fill : Nat → Nat → ℝ → Option (List ℝ)
  | 0, _, _ => some [1]
  | count + 1, i, xMin => do
    let (x, xMin) ← bisect timeAt tolerance (i / nbSamples) bisections xMin 1
    return positionAt x :: (← fill count (i + 1) xMin)

/-- `SPLINE_POSITION`. -/
noncomputable def splinePosition : Option (List ℝ) := fill nbSamples 0 0

/-! ## The curve -/

theorem timeAt_eq (x : ℝ) : timeAt x = 0.525 * x + 0.475 * x ^ 3 := by
  simp only [timeAt, p1, p2, startTension, endTension, inflexion]
  ring

theorem positionAt_eq (x : ℝ) : positionAt x = 1.5 * x - 0.5 * x ^ 3 := by
  simp only [positionAt, startTension]
  ring

theorem timeAt_lt {x y : ℝ} (order : x < y) : timeAt x < timeAt y := by
  rw [timeAt_eq, timeAt_eq]
  have cubes : x ^ 3 < y ^ 3 := Odd.strictMono_pow (by decide) order
  linarith

theorem lt_of_timeAt_lt {x y : ℝ} (order : timeAt x < timeAt y) : x < y := by
  rcases lt_trichotomy x y with less | rfl | more
  · exact less
  · exact absurd order (lt_irrefl _)
  · exact absurd (timeAt_lt more) (not_lt.mpr order.le)

theorem timeAt_grows : GrowsAtMost timeAt 2 0 1 := by
  intro x y low order high
  rw [timeAt_eq, timeAt_eq]
  have cubes : y ^ 3 - x ^ 3 ≤ 3 * (y - x) := by
    have : y ^ 3 - x ^ 3 = (y - x) * (y * y + y * x + x * x) := by ring
    rw [this, mul_comm 3]
    refine mul_le_mul_of_nonneg_left ?_ (sub_nonneg.mpr order)
    have first : y * y ≤ 1 := mul_le_one₀ high (low.trans order) high
    have second : y * x ≤ 1 := mul_le_one₀ high low (order.trans high)
    have third : x * x ≤ 1 := mul_le_one₀ (order.trans high) low (order.trans high)
    linarith
  linarith

theorem positionAt_lt {x y : ℝ} (low : 0 ≤ x) (order : x < y) (high : y ≤ 1) : positionAt x < positionAt y := by
  rw [positionAt_eq, positionAt_eq]
  have cubes : y ^ 3 - x ^ 3 < 3 * (y - x) := by
    have : y ^ 3 - x ^ 3 = (y - x) * (y * y + y * x + x * x) := by ring
    rw [this, mul_comm 3]
    refine mul_lt_mul_of_pos_left ?_ (sub_pos.mpr order)
    nlinarith
  linarith

/-! ## The table -/

structure Samples (i : Nat) (table : List ℝ) : Prop where
  increasing : table.Pairwise (· < ·)
  near (k : Nat) (h : k < table.length) : ∃ x, 0 ≤ x ∧ x ≤ 1 ∧ table[k] = positionAt x ∧
    |timeAt x - ((i + k : Nat) : ℝ) / nbSamples| < tolerance

theorem Samples.cons {i : Nat} {table : List ℝ} {x : ℝ} (samples : Samples (i + 1) table) (low : 0 ≤ x) (high : x ≤ 1)
    (near : |timeAt x - (i : ℝ) / nbSamples| < tolerance) : Samples i (positionAt x :: table) where
  increasing := by
    refine List.pairwise_cons.mpr ⟨?_, samples.increasing⟩
    intro later member
    obtain ⟨k, bound, rfl⟩ := List.mem_iff_getElem.mp member
    obtain ⟨y, -, high', eq, near'⟩ := samples.near k bound
    rw [eq]
    refine positionAt_lt low (lt_of_timeAt_lt ?_) high'
    have apart : (i : ℝ) / nbSamples + 2 * tolerance < ((i + 1 + k : Nat) : ℝ) / nbSamples := by
      simp only [nbSamples, tolerance]
      push_cast
      have : (0 : ℝ) ≤ k := Nat.cast_nonneg k
      linarith
    have first := (abs_lt.mp near).2
    have second := (abs_lt.mp near').1
    linarith
  near k bound := by
    cases k with
    | zero => exact ⟨x, low, high, rfl, near⟩
    | succ k =>
      obtain ⟨y, rest⟩ := samples.near k (Nat.lt_of_succ_lt_succ bound)
      rw [Nat.add_right_comm, Nat.add_assoc] at rest
      exact ⟨y, rest⟩

theorem fill_spec {count i : Nat} {xMin : ℝ} (whole : i + count = nbSamples) (low : 0 ≤ xMin) (high : xMin ≤ 1)
    (under : timeAt xMin ≤ i / nbSamples) :
    ∃ table, fill count i xMin = some table ∧ table.length = count + 1 ∧ table.getLast? = some 1 ∧ Samples i table := by
  have last : timeAt 1 = 1 := by
    rw [timeAt_eq]
    norm_num
  induction count generalizing i xMin with
  | zero =>
    refine ⟨[1], rfl, rfl, rfl, List.pairwise_singleton _ _, ?_⟩
    intro k bound
    obtain rfl : k = 0 := by simpa using bound
    refine ⟨1, zero_le_one, le_rfl, ?_, ?_⟩
    · rw [positionAt_eq]
      norm_num
    · rw [last, whole]
      norm_num [nbSamples, tolerance]
  | succ count ih =>
    have some_ : ((i : ℝ) + 1) / nbSamples ≤ 1 := by
      rw [div_le_one (by norm_num [nbSamples])]
      exact_mod_cast (by omega : i + 1 ≤ nbSamples)
    have next : (i : ℝ) / nbSamples ≤ ((i : ℝ) + 1) / nbSamples := by
      gcongr
      linarith
    have brackets : Brackets timeAt (i / nbSamples) xMin 1 := ⟨high, under, next.trans (some_.trans last.ge)⟩
    have enough : 2 * (1 - xMin) < tolerance * 2 ^ (63 + 1) := by
      simp only [tolerance]
      norm_num
      linarith
    obtain ⟨⟨x, xMin'⟩, found⟩ := bisect_returns (timeAt_grows.mono low le_rfl) brackets enough
    obtain ⟨near, lower, order, high', under'⟩ := bisect_spec brackets found
    have next' : timeAt xMin' ≤ ((i + 1 : Nat) : ℝ) / nbSamples := by
      push_cast
      exact under'.trans next
    obtain ⟨table, filled, length, ends, samples⟩ := ih (by omega) (low.trans lower) (order.trans high') next'
    refine ⟨positionAt x :: table, ?_, by rw [List.length_cons, length], ?_,
      samples.cons (low.trans (lower.trans order)) high' near⟩
    · rw [fill]
      simp [bisections, found, filled]
    · rw [List.getLast?_cons, ends, Option.getD_some]

theorem splinePosition_spec : ∃ table, splinePosition = some table ∧ table.length = nbSamples + 1 ∧
    table.getLast? = some 1 ∧ Samples 0 table :=
  fill_spec (Nat.zero_add _) le_rfl zero_le_one (by rw [timeAt_eq]; norm_num)

/-! ## The distance -/

noncomputable def sample (index : Nat) : ℝ := (splinePosition.getD []).getD index 0

noncomputable def distanceCoefficient (time : ℝ) : ℝ :=
  if 1 ≤ time then 1
  else
    let index := min ⌊(nbSamples : ℝ) * time⌋₊ (nbSamples - 1)
    let timeLower : ℝ := index / nbSamples
    let timeUpper : ℝ := ((index + 1 : Nat) : ℝ) / nbSamples
    let distanceLower := sample index
    let distanceUpper := sample (index + 1)
    let velocityCoefficient := (distanceUpper - distanceLower) / (timeUpper - timeLower)
    distanceLower + (time - timeLower) * velocityCoefficient

theorem sample_eq {table : List ℝ} (filled : splinePosition = some table) {index : Nat} (bound : index < table.length) :
    sample index = table[index] := by
  rw [sample, filled, Option.getD_some, List.getD_eq_getElem?_getD, List.getElem?_eq_getElem bound, Option.getD_some]

theorem sample_last : sample nbSamples = 1 := by
  obtain ⟨table, filled, length, last, -⟩ := splinePosition_spec
  rw [List.getLast?_eq_getElem?, length] at last
  rw [sample, filled, Option.getD_some, List.getD_eq_getElem?_getD]
  exact congrArg (Option.getD · 0) last

theorem sample_lt {index : Nat} (bound : index < nbSamples) : sample index < sample (index + 1) := by
  obtain ⟨table, filled, length, -, samples⟩ := splinePosition_spec
  rw [sample_eq filled (by omega), sample_eq filled (by omega)]
  exact List.pairwise_iff_getElem.mp samples.increasing _ _ _ _ (Nat.lt_succ_self index)

theorem sample_mono {first last : Nat} (order : first ≤ last) (bound : last ≤ nbSamples) : sample first ≤ sample last := by
  induction last, order using Nat.le_induction with
  | base => exact le_rfl
  | succ last _ ih => exact (ih (by omega)).trans (sample_lt (by omega)).le

theorem sample_nonneg {index : Nat} (bound : index ≤ nbSamples) : 0 ≤ sample index := by
  obtain ⟨table, filled, length, -, samples⟩ := splinePosition_spec
  obtain ⟨x, low, high, eq, -⟩ := samples.near index (by omega)
  rw [sample_eq filled (by omega), eq, positionAt_eq]
  have cube : x ^ 3 ≤ x := pow_le_of_le_one low high (by decide)
  linarith

noncomputable def line (index : Nat) (time : ℝ) : ℝ := sample index + (time - (index : ℝ) / nbSamples) *
    ((sample (index + 1) - sample index) / (((index + 1 : Nat) : ℝ) / nbSamples - (index : ℝ) / nbSamples))

theorem distanceCoefficient_eq {time : ℝ} (under : time < 1) :
    distanceCoefficient time = line (min ⌊(nbSamples : ℝ) * time⌋₊ (nbSamples - 1)) time :=
  if_neg (not_le.mpr under)

theorem line_eq (index : Nat) (time : ℝ) :
    line index time = sample index + (nbSamples * time - index) * (sample (index + 1) - sample index) := by
  rw [line]
  push_cast
  norm_num [nbSamples]
  ring

theorem line_mono {index : Nat} (bound : index < nbSamples) : Monotone (line index) := by
  intro earlier later order
  rw [line_eq, line_eq]
  have rises := sub_pos.mpr (sample_lt bound)
  have : (nbSamples : ℝ) * earlier - index ≤ nbSamples * later - index := by
    gcongr
  have := mul_le_mul_of_nonneg_right this rises.le
  linarith

theorem index_bounds {time : ℝ} (low : 0 ≤ time) (under : time < 1) :
    let index := min ⌊(nbSamples : ℝ) * time⌋₊ (nbSamples - 1)
    index < nbSamples ∧ (index : ℝ) ≤ nbSamples * time ∧ nbSamples * time < (index : ℝ) + 1 := by
  have below : ⌊(nbSamples : ℝ) * time⌋₊ < nbSamples := by
    rw [Nat.floor_lt (by positivity)]
    have : (0 : ℝ) < nbSamples := by norm_num [nbSamples]
    nlinarith
  intro index
  have eq : index = ⌊(nbSamples : ℝ) * time⌋₊ := min_eq_left (by omega)
  rw [eq]
  exact ⟨below, Nat.floor_le (by positivity), Nat.lt_floor_add_one _⟩

theorem line_bounds {index : Nat} {time : ℝ} (bound : index < nbSamples) (low : (index : ℝ) ≤ nbSamples * time)
    (high : nbSamples * time ≤ (index : ℝ) + 1) : sample index ≤ line index time ∧ line index time ≤ sample (index + 1) := by
  rw [line_eq]
  have rises := sub_pos.mpr (sample_lt bound)
  constructor
  · nlinarith
  · nlinarith

theorem distanceCoefficient_bounds {time : ℝ} (low : 0 ≤ time) :
    0 ≤ distanceCoefficient time ∧ distanceCoefficient time ≤ 1 := by
  by_cases late : 1 ≤ time
  · rw [distanceCoefficient, if_pos late]
    exact ⟨zero_le_one, le_rfl⟩
  · rw [distanceCoefficient_eq (not_le.mp late)]
    obtain ⟨bound, left, right⟩ := index_bounds low (not_le.mp late)
    obtain ⟨below, above⟩ := line_bounds bound left right.le
    exact ⟨(sample_nonneg bound.le).trans below, above.trans ((sample_mono bound le_rfl).trans sample_last.le)⟩

theorem distanceCoefficient_mono {earlier later : ℝ} (low : 0 ≤ earlier) (order : earlier ≤ later) :
    distanceCoefficient earlier ≤ distanceCoefficient later := by
  by_cases late : 1 ≤ later
  · rw [distanceCoefficient.eq_1 later, if_pos late]
    exact (distanceCoefficient_bounds low).2
  · have under := not_le.mp late
    rw [distanceCoefficient_eq (order.trans_lt under), distanceCoefficient_eq under]
    obtain ⟨bound, left, right⟩ := index_bounds low (order.trans_lt under)
    obtain ⟨bound', left', right'⟩ := index_bounds (low.trans order) under
    generalize min ⌊(nbSamples : ℝ) * earlier⌋₊ (nbSamples - 1) = i at *
    generalize min ⌊(nbSamples : ℝ) * later⌋₊ (nbSamples - 1) = j at *
    have notLess : i ≤ j := by
      have : (i : ℝ) < j + 1 := by
        have : (nbSamples : ℝ) * earlier ≤ nbSamples * later := by gcongr
        linarith
      exact_mod_cast Nat.lt_succ_iff.mp (by exact_mod_cast this)
    rcases notLess.eq_or_lt with rfl | less
    · exact line_mono bound order
    · calc line i earlier ≤ sample (i + 1) := (line_bounds bound left right.le).2
        _ ≤ sample j := sample_mono less bound'.le
        _ ≤ line j later := (line_bounds bound' left' right'.le).1

/-! ## The physics -/

noncomputable def decelerationRate : ℝ := Real.log 0.78 / Real.log 0.9

noncomputable def physicalCoefficient (pixelsPerInch : ℝ) : ℝ := 9.80665 * 39.37 * pixelsPerInch * 0.84

noncomputable def deceleration (speed friction pixelsPerInch : ℝ) : ℝ :=
  Real.log (inflexion * speed / (friction * physicalCoefficient pixelsPerInch))

noncomputable def totalDistance (speed friction pixelsPerInch : ℝ) : ℝ := friction * physicalCoefficient pixelsPerInch *
    Real.exp (decelerationRate / (decelerationRate - 1) * deceleration speed friction pixelsPerInch)

/-- `Duration::from_secs_f64`, which panics beyond what a `Duration` holds. -/
noncomputable def durationFromSecs (seconds : ℝ) : Option Nat :=
  let nanoseconds := ScrollPhysics.fromSecs seconds
  if nanoseconds < 2 ^ 64 * 1000000000 then some nanoseconds else none

/-- `fling_duration` of the friction spline. Without friction or density the deceleration is infinite, and
with a negative one it is no number; the seconds then panic. -/
noncomputable def splineDuration (friction pixelsPerInch speed : ℝ) : Option Nat :=
  if speed ≤ 0 then some 0
  else if friction * physicalCoefficient pixelsPerInch ≤ 0 then none
  else durationFromSecs (Real.exp (deceleration speed friction pixelsPerInch / (decelerationRate - 1)))

noncomputable def splineDistance (friction pixelsPerInch speed : ℝ) (duration elapsed : Nat) : ℝ :=
  let progress : ℝ := Floats.seconds elapsed / Floats.seconds duration
  totalDistance speed friction pixelsPerInch * distanceCoefficient progress

/-- `fling_distance` of the friction spline. -/
noncomputable def flingDistance (friction pixelsPerInch speed : ℝ) (elapsed : Nat) : Option ℝ := do
  let duration ← splineDuration friction pixelsPerInch speed
  if duration = 0 then return 0
  return splineDistance friction pixelsPerInch speed duration (min elapsed duration)

/-- The friction spline of `ScrollPhysics` at speeds that do not panic. -/
noncomputable def frictionSpline (friction pixelsPerInch : ℝ) : ScrollPhysics ℝ :=
  .ofCurve (fun speed => (splineDuration friction pixelsPerInch speed).getD 0) fun speed elapsed =>
    splineDistance friction pixelsPerInch speed ((splineDuration friction pixelsPerInch speed).getD 0) elapsed

theorem flingDistance_eq {friction pixelsPerInch speed : ℝ} {duration : Nat}
    (lasts : splineDuration friction pixelsPerInch speed = some duration) (elapsed : Nat) :
    flingDistance friction pixelsPerInch speed elapsed =
      some ((frictionSpline friction pixelsPerInch).flingDistance speed elapsed) := by
  simp only [flingDistance, frictionSpline, ScrollPhysics.ofCurve, lasts, Option.getD_some, Option.bind_eq_bind,
    Option.bind_some]
  split_ifs <;> rfl

theorem totalDistance_nonneg {friction pixelsPerInch : ℝ} (rubs : 0 ≤ friction) (dense : 0 ≤ pixelsPerInch) (speed : ℝ) :
    0 ≤ totalDistance speed friction pixelsPerInch := by
  have : 0 ≤ physicalCoefficient pixelsPerInch := by
    rw [physicalCoefficient]
    positivity
  rw [totalDistance]
  positivity

theorem seconds_nonneg (nanoseconds : Nat) : (0 : ℝ) ≤ Floats.seconds nanoseconds :=
  div_nonneg (Nat.cast_nonneg _) (by norm_num)

theorem seconds_mono {earlier later : Nat} (order : earlier ≤ later) :
    (Floats.seconds earlier : ℝ) ≤ Floats.seconds later := by
  simp only [Floats.seconds]
  gcongr

theorem frictionSpline_coasts {friction pixelsPerInch : ℝ} (rubs : 0 ≤ friction) (dense : 0 ≤ pixelsPerInch) :
    (frictionSpline friction pixelsPerInch).Coasts := by
  have whole := totalDistance_nonneg rubs dense
  refine ScrollPhysics.ofCurve_coasts (fun speed _ => ?_) fun speed _ earlier later order => ?_
  · exact mul_nonneg (whole speed) (distanceCoefficient_bounds (div_nonneg (seconds_nonneg _) (seconds_nonneg _))).1
  · refine mul_le_mul_of_nonneg_left (distanceCoefficient_mono (div_nonneg (seconds_nonneg _) (seconds_nonneg _)) ?_) (whole speed)
    exact div_le_div_of_nonneg_right (seconds_mono order) (seconds_nonneg _)

theorem flingDistance_duration {friction pixelsPerInch speed : ℝ} {duration : Nat}
    (lasts : splineDuration friction pixelsPerInch speed = some duration) (nonzero : duration ≠ 0) :
    (frictionSpline friction pixelsPerInch).flingDistance speed duration =
      totalDistance speed friction pixelsPerInch := by
  have whole : (Floats.seconds duration : ℝ) ≠ 0 := div_ne_zero (Nat.cast_ne_zero.mpr nonzero) (by norm_num)
  rw [frictionSpline, ScrollPhysics.ofCurve]
  dsimp only
  rw [lasts, Option.getD_some, if_neg nonzero, min_self, splineDistance, div_self whole, distanceCoefficient,
    if_pos le_rfl, mul_one]

/-- The table fills with increasing samples of the curve. A fling whose duration does not panic never goes
back or beyond its total distance, and has gone all of it when its duration is over. -/
theorem frictionSpline_flings {friction pixelsPerInch : ℝ} (rubs : 0 < friction) (dense : 0 < pixelsPerInch)
    (speed : ℝ) :
    (∃ table, splinePosition = some table ∧ table.length = nbSamples + 1 ∧ table.getLast? = some 1 ∧ Samples 0 table) ∧
    ∀ duration, splineDuration friction pixelsPerInch speed = some duration → ∃ distance : Nat → ℝ,
    (∀ elapsed, flingDistance friction pixelsPerInch speed elapsed = some (distance elapsed)) ∧ Monotone distance ∧
    ∀ elapsed, 0 ≤ distance elapsed ∧ distance elapsed ≤ totalDistance speed friction pixelsPerInch ∧
    (duration ≠ 0 → duration ≤ elapsed → distance elapsed = totalDistance speed friction pixelsPerInch) := by
  have coasts := frictionSpline_coasts rubs.le dense.le
  refine ⟨splinePosition_spec, fun duration lasts => ?_⟩
  have same : (frictionSpline friction pixelsPerInch).flingDuration speed = duration := by
    rw [frictionSpline, ScrollPhysics.ofCurve]
    dsimp only
    rw [lasts, Option.getD_some]
  have rests (elapsed : Nat) (late : duration ≤ elapsed) :
      (frictionSpline friction pixelsPerInch).flingDistance speed elapsed =
        (frictionSpline friction pixelsPerInch).flingDistance speed duration := by
    rw [coasts.rests speed (same.trans_le late), same]
  refine ⟨_, flingDistance_eq lasts, coasts.monotone speed, fun elapsed => ?_⟩
  refine ⟨(coasts.start speed).trans (coasts.monotone speed (Nat.zero_le _)), ?_, ?_⟩
  · by_cases zero : duration = 0
    · have none : (frictionSpline friction pixelsPerInch).flingDistance speed elapsed = 0 :=
        if_pos (by dsimp only; rw [lasts, zero, Option.getD_some])
      rw [none]
      exact totalDistance_nonneg rubs.le dense.le speed
    · rcases le_total elapsed duration with under | late
      · exact (coasts.monotone speed under).trans_eq (flingDistance_duration lasts zero)
      · exact ((rests elapsed late).trans (flingDistance_duration lasts zero)).le
  · intro nonzero late
    exact (rests elapsed late).trans (flingDistance_duration lasts nonzero)

theorem rate_bound : 1 < decelerationRate - 1 := by
  have fast : Real.log 0.78 < 2 * Real.log 0.9 := by
    rw [← Real.log_rpow (by norm_num)]
    exact Real.log_lt_log (by norm_num) (by norm_num)
  have negative : Real.log 0.9 < 0 := Real.log_neg (by norm_num) (by norm_num)
  have : 2 < decelerationRate := by
    rw [decelerationRate, lt_div_iff_of_neg negative]
    exact fast
  linarith

/-- The stock friction at the nominal density: a fling at a thousand pixels a second does not panic. -/
theorem frictionSpline_flings_android : ∃ duration, splineDuration 0.015 160 1000 = some duration ∧ ∃ distance : Nat →
    ℝ, (∀ elapsed, flingDistance 0.015 160 1000 elapsed = some (distance elapsed)) ∧ Monotone distance ∧ ∀ elapsed,
    0 ≤ distance elapsed ∧ distance elapsed ≤ totalDistance 1000 0.015 160 ∧
    (duration ≠ 0 → duration ≤ elapsed → distance elapsed = totalDistance 1000 0.015 160) := by
  obtain ⟨-, flings⟩ := frictionSpline_flings (show (0 : ℝ) < 0.015 by norm_num) (show (0 : ℝ) < 160 by norm_num) 1000
  suffices lasts : ∃ duration, splineDuration 0.015 160 1000 = some duration by
    obtain ⟨duration, lasts⟩ := lasts
    exact ⟨duration, lasts, flings duration lasts⟩
  -- The speed is less than the resistance, so the deceleration is negative and a second is enough.
  have resists : (350 : ℝ) < 0.015 * physicalCoefficient 160 := by norm_num [physicalCoefficient]
  have slows : deceleration 1000 0.015 160 ≤ 0 := by
    rw [deceleration, inflexion]
    refine Real.log_nonpos (by positivity) ?_
    rw [div_le_one (by linarith)]
    linarith
  have brief : Real.exp (deceleration 1000 0.015 160 / (decelerationRate - 1)) ≤ 1 := by
    rw [Real.exp_le_one_iff]
    exact div_nonpos_of_nonpos_of_nonneg slows (by linarith [rate_bound])
  have fits : ScrollPhysics.fromSecs (Real.exp (deceleration 1000 0.015 160 / (decelerationRate - 1))) <
      2 ^ 64 * 1000000000 := by
    rw [ScrollPhysics.fromSecs, Nat.floor_lt (by positivity)]
    norm_num
    linarith
  refine ⟨ScrollPhysics.fromSecs (Real.exp (deceleration 1000 0.015 160 / (decelerationRate - 1))), ?_⟩
  rw [splineDuration, if_neg (by norm_num), if_neg (by linarith)]
  exact if_pos fits

end Pinrail.Gestures.FrictionSpline
