import IqBalance.Power

/-!
Faults: requests that have no answer. A stage that may meet one returns it in
`Except Fault`, so that "no run faults" is a statement about the code and not
a side effect of totality. Rejected input is no fault; see
`IqBalance.Config.Validation` and `IqBalance.Refusal`.
-/

namespace IqBalance

/-- A request outside what a table, a clamp or a counter defines. -/
inductive Fault where
  /-- A boost weight was asked for at a distance the table does not reach. -/
  | boostDistance (distance bins : Nat)
  /-- A clamp was asked for with bounds that are not ordered. -/
  | clampBounds
  /-- A counter would leave the 64-bit range. -/
  | counterOverflow
  deriving DecidableEq, Repr

/-- A stage that faults ends the chain. -/
theorem bind_eq_ok_iff {ε α β : Type} {stage : Except ε α} {next : α → Except ε β} {result : β} :
    (stage >>= next) = .ok result ↔ ∃ value, stage = .ok value ∧ next value = .ok result := by
  cases stage <;> simp [bind, Except.bind]

/-- Two chains that go on in step from what one stage may give. -/
theorem bind_eq_map_bind_of_ok {ε α β γ : Type} {stage : Except ε α} {next : α → Except ε β}
    {next' : α → Except ε γ} {f : β → γ}
    (h : ∀ value, stage = .ok value → next' value = (next value).map f) :
    (stage >>= next') = (stage >>= next).map f := by
  cases stage with
  | error fault => rfl
  | ok value => exact h value rfl

theorem map_eq_ok_iff {ε α β : Type} {stage : Except ε α} {f : α → β} {result : β} :
    stage.map f = .ok result ↔ ∃ value, stage = .ok value ∧ f value = result := by
  cases stage <;> simp [Except.map]

theorem mapError_eq_ok_iff {ε δ α : Type} {stage : Except ε α} {f : ε → δ} {result : α} :
    stage.mapError f = .ok result ↔ stage = .ok result := by
  cases stage with
  | ok value =>
    constructor
    · intro h
      cases h
      rfl
    · intro h
      cases h
      rfl
  | error fault =>
    constructor
    · intro h
      cases h
    · intro h
      cases h

/-- One past the largest count that a counter holds. -/
def countLimit : Nat := 2 ^ 64

/-- `count + by`, unless it leaves the counter range. -/
def addCount (count more : Nat) : Except Fault Nat :=
  if count + more < countLimit then .ok (count + more) else .error .counterOverflow

theorem addCount_eq_ok {count more : Nat} (h : count + more < countLimit) :
    addCount count more = .ok (count + more) :=
  if_pos h

theorem addCount_eq_ok_iff {count more total : Nat} :
    addCount count more = .ok total ↔ total = count + more ∧ total < countLimit := by
  unfold addCount
  split
  · constructor
    · intro h
      cases h
      exact ⟨rfl, ‹_›⟩
    · rintro ⟨rfl, _⟩
      rfl
  · constructor
    · intro h
      cases h
    · rintro ⟨rfl, h⟩
      contradiction

end IqBalance
