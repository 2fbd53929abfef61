import PointsTo.Proofs.Comparison
import PointsTo.Proofs.Entries

/-!
# What a round reports

A round reports a change if one of its four passes does.  Each pass looks at the sizes of single
sets; between the passes inclusions are derived anew, and entries are made that hold nothing.  Three
other things can be looked at from outside: how many facts the environment has, how it compares with
the one before, and whether the state calls itself a fixed point.

All of them say the same, in any state whatsoever.  No pass loses a fact, so a change that one of
them reports is still there at the end of the round; and if none reports any, nothing has moved
(`Solver.changed_nextRound_iff`).  Entries without a fact count for neither side.
-/

set_option autoImplicit false

namespace PointsTo

namespace Solver

/-- **A round reports a change exactly if it ends with more facts.** -/
theorem changed_nextRound_iff (s : Solver) :
    s.nextRound.changed = true ↔ s.environment < s.nextRound.environment := by
  have hle : s.environment ≤ s.nextRound.environment := s.growsInto_nextRound.keeps
  refine ⟨fun h ↦ lt_of_le_not_ge hle fun hge ↦ ?_, fun h ↦ ?_⟩
  · obtain ⟨t, l, hl, hn⟩ := exists_of_changed h
    exact hn (hge t l hl)
  · by_contra hc
    have hsame := pointsTo_of_not_changed (Bool.eq_false_iff.mpr hc)
    exact not_le_of_gt h fun t l hl ↦ (hsame t).2.2.2 ▸ hl

/-- The size of the environment tells the same. -/
theorem changed_nextRound_eq (s : Solver) :
    s.nextRound.changed = decide (s.environment.size < s.nextRound.environment.size) := by
  have hle : s.environment ≤ s.nextRound.environment := s.growsInto_nextRound.keeps
  rw [Bool.eq_iff_iff, changed_nextRound_iff, decide_eq_true_iff,
    Environment.size_lt_iff_lt_of_le hle]

/-- What a call for one more round reports: at the fixed point nothing happens, and otherwise the
round tells. -/
def reports (s : Solver) : Bool := !s.atFixedPoint && s.nextRound.changed

/-- The state after a round is at its fixed point exactly if no change is reported. -/
theorem atFixedPoint_round_eq (s : Solver) : s.round.atFixedPoint = !s.reports := by
  cases h : s.atFixedPoint with
  | true => simp [round_of_atFixedPoint, reports, h]
  | false => simp [round, reports, h]

theorem rounds_round_eq (s : Solver) :
    s.round.rounds = if s.reports then s.rounds + 1 else s.rounds := by
  cases h : s.atFixedPoint with
  | true => simp [round_of_atFixedPoint, reports, h]
  | false => simp [round, reports, h]

/-- **A call for a round reports a change exactly if the environment has more facts after it.** -/
theorem reports_iff (s : Solver) : s.reports = true ↔ s.environment < s.round.environment := by
  cases h : s.atFixedPoint with
  | true =>
    rw [round_of_atFixedPoint h]
    exact iff_of_false (by simp [reports, h]) (lt_irrefl _)
  | false =>
    rw [reports, h, round, h]
    exact s.changed_nextRound_iff

/-- Once at the fixed point, no call for a round changes anything. -/
theorem iterate_round_of_atFixedPoint {s : Solver} (h : s.atFixedPoint = true) (n : Nat) :
    Solver.round^[n] s = s :=
  Function.iterate_fixed (round_of_atFixedPoint h) n

/-- **Reports are exact**, in every state.  A round keeps every entry.  It reports a change exactly
if the number of facts grows, exactly if the environment before compares as less than the one after,
and counts the round then.  It reports none exactly if the two compare as equal; then the state is
at its fixed point, and no later call changes anything or reports a change.  There is no other
outcome of the comparison, and whenever the passes of a round are made, what they report agrees with
the number of facts. -/
theorem round_report (s : Solver) :
    (∀ t, t ∈ s.environment → t ∈ s.round.environment) ∧
    (s.reports = true ↔ s.environment.size < s.round.environment.size) ∧
    (s.reports = true ↔ s.environment.compare? s.round.environment = some .lt) ∧
    (s.reports = true → s.round.rounds = s.rounds + 1) ∧
    (s.reports = false ↔ s.environment.compare? s.round.environment = some .eq) ∧
    (s.reports = false → s.round.rounds = s.rounds ∧ ∀ n, Solver.round^[n] s.round = s.round ∧
      (Solver.round^[n] s.round).atFixedPoint = true ∧
      (Solver.round^[n] s.round).reports = false) ∧
    s.round.atFixedPoint = !s.reports ∧
    s.environment.compare? s.round.environment ≠ none ∧
    s.environment.compare? s.round.environment ≠ some .gt ∧
    s.nextRound.changed = decide (s.environment.size < s.nextRound.environment.size) := by
  have hlt : s.reports = true ↔ s.environment.compare? s.round.environment = some .lt := by
    rw [reports_iff, Environment.compare?_eq_lt_iff]
  have heq : s.reports = false ↔ s.environment.compare? s.round.environment = some .eq := by
    rw [Environment.compare?_eq_eq_iff, ← Bool.not_eq_true, reports_iff, lt_iff_le_not_ge]
    simp [s.le_round]
  refine ⟨fun _ ↦ mem_round_of_mem, ?_, hlt, fun h ↦ by simp [rounds_round_eq, h], heq,
    fun h ↦ ?_, s.atFixedPoint_round_eq, fun hnone ↦ ?_, fun hgt ↦ ?_, s.changed_nextRound_eq⟩
  · rw [reports_iff, Environment.size_lt_iff_lt_of_le s.le_round]
  · have hfixed : s.round.atFixedPoint = true := by simp [atFixedPoint_round_eq, h]
    refine ⟨by simp [rounds_round_eq, h], fun n ↦ ?_⟩
    simp [iterate_round_of_atFixedPoint hfixed, hfixed, reports]
  · cases hr : s.reports <;> simp_all
  · cases hr : s.reports <;> simp_all

end Solver

end PointsTo
