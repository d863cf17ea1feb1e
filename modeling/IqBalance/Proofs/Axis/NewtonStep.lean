import Mathlib
import IqBalance.Proofs.Axis

/-!
The Newton step of one axis on a straight line, over exact arithmetic.

A candidate is the point that the secant ratio names, moved into the reach of
the axis: `maxMu` steps to either side of the current value
(`Axis.estimate_eq_confine`). On a line of some slope the ratio is the number
of steps to the root, shortened by `NewtonRule.damping`, the share that the
floor of the divisor leaves of it (`NewtonRule.secant_line`). Moving into the
reach is monotone and leaves the current value where it is, so a shortened
ratio still names a point on the way to the root.
-/

namespace IqBalance

namespace NewtonRule

variable (rule : NewtonRule ℝ)

/-- The share of the way to the root that the floor of the divisor leaves, where the utility
changes by `difference` over one step. -/
noncomputable def damping (difference : ℝ) : ℝ :=
  if |difference| < rule.denominatorEpsilon then |difference| / rule.denominatorEpsilon else 1

theorem damping_mem (h : 0 < rule.denominatorEpsilon) (difference : ℝ) :
    rule.damping difference ∈ Set.Icc 0 1 := by
  unfold damping
  split
  · rename_i hflat
    exact ⟨div_nonneg (abs_nonneg _) h.le, (div_le_one h).mpr hflat.le⟩
  · exact ⟨zero_le_one, le_rfl⟩

/-- The floor keeps the sign of the divisor and divides its magnitude by the damping. -/
theorem div_denominator {difference : ℝ} (hne : difference ≠ 0) :
    difference / rule.denominator difference = rule.damping difference := by
  unfold denominator damping
  change (difference / if |difference| < rule.denominatorEpsilon then _ else _) = _
  split
  · split
    · rename_i hneg
      rw [abs_of_neg hneg, div_neg, neg_div]
    · rename_i hpos
      rw [abs_of_nonneg (not_lt.mp hpos)]
  · exact div_self hne

/-- On a line the ratio is the number of steps to the root, damped. -/
theorem secant_line (h : 0 < rule.denominatorEpsilon) (root current : ℝ) {slope step : ℝ}
    (hstep : step ≠ 0) (hslope : slope * step ≠ 0) :
    rule.secant (slope * (current - root)) (slope * (current + step - root)) =
      rule.damping (slope * step) * ((root - current) / step) := by
  have hdifference : slope * (current - root) - slope * (current + step - root) =
      -(slope * step) := by ring
  have heven : rule.damping (-(slope * step)) = rule.damping (slope * step) := by
    simp only [damping, abs_neg]
  rw [secant, hdifference, ← heven, ← rule.div_denominator (neg_ne_zero.mpr hslope)]
  have hdenominator := rule.denominator_ne_zero h (-(slope * step))
  field_simp
  ring

end NewtonRule

namespace Axis

/-- A point moved to within `maxMu` steps of the current value. -/
def confine (axis : Axis ℝ) (rule : NewtonRule ℝ) (current x : ℝ) : ℝ :=
  max (current - axis.step * rule.maxMu) (min x (current + axis.step * rule.maxMu))

theorem monotone_confine (axis : Axis ℝ) (rule : NewtonRule ℝ) (current : ℝ) :
    Monotone (axis.confine rule current) :=
  fun _ _ h => max_le_max le_rfl (min_le_min h le_rfl)

variable {axis : Axis ℝ} {rule : NewtonRule ℝ}

theorem confine_self (hstep : 0 ≤ axis.step) (hmu : 0 ≤ rule.maxMu) (current : ℝ) :
    axis.confine rule current current = current := by
  have hreach := mul_nonneg hstep hmu
  rw [confine, min_eq_left (by linarith), max_eq_right (by linarith)]

/-- The candidate is the point that the ratio names, moved into the reach. -/
theorem estimate_eq_confine (hstep : 0 ≤ axis.step) (hmu : 0 ≤ rule.maxMu) (current a b : ℝ) :
    axis.estimate rule current a b =
      .ok ⟨rule.secant a b, axis.confine rule current (current + axis.step * rule.secant a b)⟩ := by
  have hordered : -rule.maxMu ≤ rule.maxMu := neg_le_self hmu
  obtain ⟨estimate, hestimate⟩ := exists_estimate hordered axis current a b
  obtain ⟨bounded, hclamp, h⟩ := bind_eq_ok_iff.mp hestimate
  cases h
  rw [hestimate, (Scalar.clamp_eq_ok_iff.mp hclamp).2, confine, mul_max_of_nonneg _ _ hstep,
    mul_min_of_nonneg _ _ hstep, add_max, add_min, mul_neg, ← sub_eq_add_neg]

/-- What moves a point towards the root moves its image in the reach towards the root's. -/
theorem confine_damped_mem (hstep : 0 ≤ axis.step) (hmu : 0 ≤ rule.maxMu) {share : ℝ}
    (hshare : share ∈ Set.Icc 0 1) (current root : ℝ) :
    axis.confine rule current (current + share * (root - current)) ∈
      Set.uIcc current (axis.confine rule current root) := by
  have hway : current + share * (root - current) ∈ Set.uIcc current root :=
    (convex_uIcc current root).add_smul_sub_mem Set.left_mem_uIcc Set.right_mem_uIcc hshare
  have himage := (monotone_confine axis rule current).mapsTo_uIcc hway
  rwa [confine_self hstep hmu] at himage

/-- From any current value, with positive step, greatest ratio and least divisor. On a line that
changes by the least divisor or more over one step, the ratio is the number of steps to the root
and the candidate is the root, or the end of the reach on its side; on a flatter line the candidate
lies on the way there. Whatever the two utilities are, the divisor is not zero, the candidate is
within reach, and a utility of zero leaves the current value as it is. -/
theorem estimate_never_overshoots {axis : Axis ℝ} {rule : NewtonRule ℝ} (hstep : 0 < axis.step)
    (hmu : 0 < rule.maxMu) (hepsilon : 0 < rule.denominatorEpsilon) (current : ℝ) :
    (∀ slope root : ℝ,
      let u := fun x => slope * (x - root)
      let change := |slope * axis.step|
      let reached := max (current - axis.step * rule.maxMu)
        (min root (current + axis.step * rule.maxMu))
      ∃ estimate, axis.estimate rule current (u current) (u (current + axis.step)) =
          .ok estimate ∧
        (rule.denominatorEpsilon ≤ change →
          estimate.mu = (root - current) / axis.step ∧ estimate.candidate = reached) ∧
        (0 < change → change < rule.denominatorEpsilon →
          estimate.candidate ∈ Set.uIcc current reached)) ∧
    ∀ a b : ℝ, rule.denominator (a - b) ≠ 0 ∧
      ∃ estimate, axis.estimate rule current a b = .ok estimate ∧
        |estimate.candidate - current| ≤ axis.step * rule.maxMu ∧
        (a = 0 → estimate.candidate = current) := by
  constructor
  · intro slope root u change reached
    refine ⟨_, estimate_eq_confine hstep.le hmu.le _ _ _, fun hsteep => ?_, fun hpos hflat => ?_⟩
    · have hsecant := rule.secant_line hepsilon root current hstep.ne'
        (abs_pos.mp (hepsilon.trans_le hsteep))
      rw [NewtonRule.damping, if_neg (not_lt.mpr hsteep), one_mul] at hsecant
      refine ⟨hsecant, ?_⟩
      simp only [u, hsecant, mul_div_cancel₀ _ hstep.ne', add_sub_cancel]
      rfl
    · have hsecant := rule.secant_line hepsilon root current hstep.ne' (abs_pos.mp hpos)
      have hpoint : axis.step * (rule.damping (slope * axis.step) *
          ((root - current) / axis.step)) =
          rule.damping (slope * axis.step) * (root - current) := by
        field_simp
      simp only [u, hsecant, hpoint]
      exact confine_damped_mem hstep.le hmu.le (rule.damping_mem hepsilon _) current root
  · intro a b
    obtain ⟨estimate, hestimate⟩ := exists_estimate (neg_le_self hmu.le) axis current a b
    refine ⟨rule.denominator_ne_zero hepsilon _, estimate, hestimate,
      abs_candidate_sub_le hmu.le hstep.le hestimate, fun ha => ?_⟩
    subst ha
    exact candidate_of_zero hmu.le hestimate

/-- A step of one tenth towards a root at one half: five steps on a line of slope 1, and on one of
slope 1/100, whose change over a step is below the least divisor, no further than that. -/
theorem estimate_of_half :
    let axis : Axis ℝ := ⟨1 / 10, ⟨1 / 10, 1 / 100, 1⟩⟩
    let rule : NewtonRule ℝ := ⟨2, 1 / 2, 1, 10, 20, 1 / 100⟩
    0 < axis.step ∧ 0 < rule.maxMu ∧ 0 < rule.denominatorEpsilon ∧
    rule.denominatorEpsilon ≤ |1 * axis.step| ∧ 0 < |1 / 100 * axis.step| ∧
    |1 / 100 * axis.step| < rule.denominatorEpsilon ∧
    (∃ steep, axis.estimate rule 0 (1 * (0 - 1 / 2)) (1 * (0 + axis.step - 1 / 2)) = .ok steep ∧
      steep.mu = 5 ∧ steep.candidate = 1 / 2) ∧
    ∃ flat, axis.estimate rule 0 (1 / 100 * (0 - 1 / 2)) (1 / 100 * (0 + axis.step - 1 / 2)) =
        .ok flat ∧ flat.candidate ∈ Set.Icc 0 (1 / 2) := by
  intro axis rule
  have hsteep : rule.denominatorEpsilon ≤ |1 * axis.step| := by norm_num [axis, rule]
  have hpos : 0 < |1 / 100 * axis.step| := by norm_num [axis]
  have hflat : |1 / 100 * axis.step| < rule.denominatorEpsilon := by
    norm_num [axis, rule, abs_of_pos]
  have hreached : max (0 - axis.step * rule.maxMu) (min (1 / 2) (0 + axis.step * rule.maxMu)) =
      1 / 2 := by norm_num [axis, rule]
  have hstep : 0 < axis.step := by norm_num [axis]
  have hmu : 0 < rule.maxMu := by norm_num [rule]
  have hepsilon : 0 < rule.denominatorEpsilon := by norm_num [rule]
  obtain ⟨hline, -⟩ := estimate_never_overshoots hstep hmu hepsilon 0
  obtain ⟨steep, hok, hroot, -⟩ := hline 1 (1 / 2)
  obtain ⟨flat, hok', -, hway⟩ := hline (1 / 100) (1 / 2)
  refine ⟨hstep, hmu, hepsilon, hsteep, hpos, hflat, ⟨steep, hok, ?_, ?_⟩, flat, hok', ?_⟩
  · rw [(hroot hsteep).1]
    norm_num [axis]
  · rw [(hroot hsteep).2, hreached]
  · have hmem := hway hpos hflat
    rwa [hreached, Set.uIcc_of_le (by norm_num)] at hmem

end Axis

end IqBalance
