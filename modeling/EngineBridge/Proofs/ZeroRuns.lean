import EngineBridge.Net.IPv6

/-! The scan for zero groups. It holds on to the run that reaches up to where it stands and to the one that leads
    what it has seen; at the end the first of the longest runs is left. -/

namespace EngineBridge.Net.IPv6
variable {g : UInt16} {gs pre : List UInt16} {run other current best : Run}

/-- All groups of a run are zero. -/
def Run.Within (run : Run) (gs : List UInt16) : Prop :=
  ∀ i, run.start ≤ i → i < run.start + run.length → gs[i]? = some 0

theorem Run.Within.of_length (hrun : run.length = 0) : run.Within gs := by
  intro i hle hlt
  omega

theorem Run.Within.append (hrun : run.Within pre) : run.Within (pre ++ gs) := by
  intro i hle hlt
  have hi := hrun i hle hlt
  obtain ⟨hbound, -⟩ := List.getElem?_eq_some_iff.mp hi
  rw [List.getElem?_append_left hbound, hi]

theorem Run.Within.le (hrun : run.Within gs) (hpos : 0 < run.length) : run.start + run.length ≤ gs.length := by
  obtain ⟨hbound, -⟩ := List.getElem?_eq_some_iff.mp (hrun (run.start + run.length - 1) (by omega) (by omega))
  omega

/-- A run within a list was within the list before its last group, or reaches up to that group. -/
theorem Run.Within.of_append (hrun : run.Within (pre ++ [g])) :
    run.Within pre ∨ 0 < run.length ∧ g = 0 ∧ run.start + run.length = pre.length + 1 := by
  by_cases hpos : 0 < run.length
  · have hle := hrun.le hpos
    rw [List.length_append, List.length_singleton] at hle
    by_cases hend : run.start + run.length = pre.length + 1
    · have hlast := hrun pre.length (by omega) (by omega)
      rw [List.getElem?_concat_length] at hlast
      exact .inr ⟨hpos, by simpa using hlast, hend⟩
    · left
      intro i hi hlt
      have hzero := hrun i hi hlt
      rwa [List.getElem?_append_left (by omega)] at hzero
  · exact .inl (.of_length (by omega))

/-- The first of the longest runs of zero groups. -/
structure Run.Leads (run : Run) (gs : List UInt16) : Prop where
  within : run.Within gs
  longest : ∀ other : Run, other.Within gs → other.length ≤ run.length
  first : ∀ other : Run, other.Within gs → other.length = run.length → run.start ≤ other.start

theorem Run.Leads.eq (hrun : run.Leads gs) (hother : other.Leads gs) : run = other := by
  have hlength : run.length = other.length :=
    Nat.le_antisymm (hother.longest run hrun.within) (hrun.longest other hother.within)
  have hstart : run.start = other.start :=
    Nat.le_antisymm (hrun.first other hother.within hlength.symm) (hother.first run hrun.within hlength)
  cases run
  cases other
  cases hlength
  cases hstart
  rfl

/-- The longest run of zero groups that reaches up to the end of a list. -/
structure Run.Closes (run : Run) (gs : List UInt16) : Prop where
  within : run.Within gs
  reaches : 0 < run.length → run.start + run.length = gs.length
  longest : ∀ other : Run, other.Within gs → other.start + other.length = gs.length → other.length ≤ run.length

theorem Run.Closes.zero (hcurrent : current.Closes pre) :
    Run.Closes (if current.length = 0 then ⟨pre.length, 1⟩ else ⟨current.start, current.length + 1⟩)
      (pre ++ [0]) := by
  -- A run up to the last group is a run up to the group before it, and that group.
  have hlongest : ∀ other : Run, other.Within (pre ++ [0]) → other.start + other.length = pre.length + 1 →
      other.length ≤ current.length + 1 := by
    intro other hother hend
    by_cases hpos : other.length = 0
    · omega
    · have hbefore : Run.Within ⟨other.start, other.length - 1⟩ pre := by
        intro i hi hlt
        dsimp only at hi hlt
        have hzero := hother i hi (by omega)
        rwa [List.getElem?_append_left (by omega)] at hzero
      have hle := hcurrent.longest _ hbefore (by dsimp only; omega)
      dsimp only at hle
      omega
  split
  · next hnone =>
    refine ⟨?_, by simp, ?_⟩
    · intro i hi hlt
      dsimp only at hi hlt
      obtain rfl : i = pre.length := by omega
      exact List.getElem?_concat_length
    · intro other hother hend
      have hle := hlongest other hother (by simpa using hend)
      dsimp only
      omega
  · next hsome =>
    have hreaches := hcurrent.reaches (by omega)
    refine ⟨?_, by simp; omega, ?_⟩
    · intro i hi hlt
      dsimp only at hi hlt
      by_cases hlast : i = pre.length
      · rw [hlast]
        exact List.getElem?_concat_length
      · exact hcurrent.within.append i hi (by omega)
    · intro other hother hend
      exact hlongest other hother (by simpa using hend)

theorem Run.Closes.nonzero (hg : g ≠ 0) : Run.Closes ⟨0, 0⟩ (pre ++ [g]) := by
  refine ⟨.of_length rfl, by simp, ?_⟩
  intro other hother hend
  rcases hother.of_append with hwithin | ⟨-, hzero, -⟩
  · by_cases hpos : 0 < other.length
    · have hle := hwithin.le hpos
      simp at hend
      omega
    · dsimp only
      omega
  · exact absurd hzero hg

theorem Run.Leads.zero (hbest : best.Leads pre) (hcurrent : current.Closes (pre ++ [0]))
    (hpos : 0 < current.length) :
    Run.Leads (if best.length < current.length then current else best) (pre ++ [0]) := by
  have hreaches := hcurrent.reaches hpos
  rw [List.length_append, List.length_singleton] at hreaches
  have hclose : ∀ other : Run, other.start + other.length = pre.length + 1 → other.Within (pre ++ [0]) →
      other.length ≤ current.length := fun other hend hother => hcurrent.longest other hother (by simpa using hend)
  split
  · next hlonger =>
    refine ⟨hcurrent.within, ?_, ?_⟩
    · intro other hother
      rcases hother.of_append with hwithin | ⟨-, -, hend⟩
      · have hle := hbest.longest other hwithin
        omega
      · exact hclose other hend hother
    · intro other hother hlength
      rcases hother.of_append with hwithin | ⟨-, -, hend⟩
      · have hle := hbest.longest other hwithin
        omega
      · omega
  · next hshorter =>
    refine ⟨hbest.within.append, ?_, ?_⟩
    · intro other hother
      rcases hother.of_append with hwithin | ⟨-, -, hend⟩
      · exact hbest.longest other hwithin
      · have hle := hclose other hend hother
        omega
    · intro other hother hlength
      rcases hother.of_append with hwithin | ⟨-, -, hend⟩
      · exact hbest.first other hwithin hlength
      · have hle := hbest.within.le (by omega)
        omega

theorem Run.Leads.nonzero (hbest : best.Leads pre) (hg : g ≠ 0) : best.Leads (pre ++ [g]) := by
  have hbefore : ∀ other : Run, other.Within (pre ++ [g]) → other.Within pre := by
    intro other hother
    rcases hother.of_append with hwithin | ⟨-, hzero, -⟩
    · exact hwithin
    · exact absurd hzero hg
  exact ⟨hbest.within.append, fun other hother => hbest.longest other (hbefore other hother),
    fun other hother => hbest.first other (hbefore other hother)⟩

/-- With the run that closes the groups before and the one that leads them, the scan ends in the one that leads
    all. -/
theorem longestRun_leads (pre : List UInt16) (hcurrent : current.Closes pre) (hbest : best.Leads pre) :
    (longestRun pre.length current best gs).Leads (pre ++ gs) := by
  induction gs generalizing pre current best with
  | nil =>
    rw [List.append_nil]
    exact hbest
  | cons g gs ih =>
    have hsplit : pre ++ g :: gs = (pre ++ [g]) ++ gs := by simp
    have hlength : pre.length + 1 = (pre ++ [g]).length := by simp
    unfold longestRun
    rw [hsplit, hlength]
    split
    · next hg =>
      subst hg
      have hcloses := hcurrent.zero
      refine ih _ hcloses (hbest.zero hcloses ?_)
      split <;> simp
    · next hg => exact ih _ (.nonzero hg) (hbest.nonzero hg)

theorem leads (gs : List UInt16) : (longestRun 0 ⟨0, 0⟩ ⟨0, 0⟩ gs).Leads gs := by
  have hnone : ∀ other : Run, other.Within [] → other.length ≤ 0 := by
    intro other hother
    by_cases hpos : 0 < other.length
    · have hle := hother.le hpos
      simp at hle
      omega
    · omega
  exact longestRun_leads [] ⟨.of_length rfl, by simp, fun other hother _ => hnone other hother⟩
    ⟨.of_length rfl, hnone, fun _ _ _ => Nat.zero_le _⟩

end EngineBridge.Net.IPv6
