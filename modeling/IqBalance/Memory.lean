import IqBalance.Power

/-!
Memory for buffers. Which buffers there is memory for is the host's matter, so
it is a parameter, an `Allocator`. A buffer larger than `largestRequest` is not
even asked for. Of several buffers, asked for in order, the first that cannot
be had ends the asking (`reserveAll`).
-/

namespace IqBalance

/-- A buffer to be asked for: `entries` values, each `width` bytes wide. -/
structure Buffer where
  name : String
  entries : Nat
  width : Nat
  deriving DecidableEq, Repr

/-- Its size. -/
def Buffer.bytes (b : Buffer) : Nat := b.entries * b.width

/-- The largest byte count a buffer may be asked for. -/
def largestRequest : Nat := 2 ^ 63 - 1

/-- Why a buffer cannot be had. -/
inductive AllocationCause where
  /-- Its size in bytes is beyond what may be asked for. -/
  | capacityOverflow
  /-- The host does not grant it. -/
  | allocatorRefused
  deriving DecidableEq, Repr

/-- A buffer that cannot be had. -/
structure AllocationError where
  buffer : Buffer
  cause : AllocationCause
  deriving DecidableEq, Repr

/-- Which buffers a host grants. -/
abbrev Allocator := Buffer → Bool

namespace Allocator

/-- A host that grants every buffer. -/
def ample : Allocator := fun _ => true

variable (memory : Allocator)

/-- Ask for a buffer. -/
def reserve (b : Buffer) : Except AllocationError Unit :=
  if largestRequest < b.bytes then .error ⟨b, .capacityOverflow⟩
  else if memory b then .ok ()
  else .error ⟨b, .allocatorRefused⟩

/-- Ask for buffers in order, up to the first that cannot be had. -/
def reserveAll : List Buffer → Except AllocationError Unit
  | [] => .ok ()
  | b :: rest => do
    memory.reserve b
    reserveAll rest

/-- A buffer can be had. -/
def Grants (b : Buffer) : Prop := b.bytes ≤ largestRequest ∧ memory b

instance : DecidablePred memory.Grants :=
  fun b => inferInstanceAs (Decidable (b.bytes ≤ largestRequest ∧ memory b))

variable {memory}

theorem reserve_eq_ok_iff {b : Buffer} : memory.reserve b = .ok () ↔ memory.Grants b := by
  unfold reserve Grants
  split
  · rename_i hlarge
    exact iff_of_false nofun fun h => Nat.not_le.mpr hlarge h.1
  · rename_i hsmall
    split
    · rename_i hgranted
      exact iff_of_true rfl ⟨Nat.not_lt.mp hsmall, hgranted⟩
    · rename_i hrefused
      exact iff_of_false nofun fun h => hrefused h.2

theorem buffer_of_reserve {b : Buffer} {e : AllocationError} (h : memory.reserve b = .error e) :
    e.buffer = b := by
  unfold reserve at h
  split at h
  · cases h
    rfl
  · split at h
    · cases h
    · cases h
      rfl

theorem reserveAll_eq_ok_iff {buffers : List Buffer} :
    memory.reserveAll buffers = .ok () ↔ ∀ b ∈ buffers, memory.Grants b := by
  induction buffers with
  | nil => exact iff_of_true rfl nofun
  | cons b rest ih =>
    rw [List.forall_mem_cons, ← ih, ← reserve_eq_ok_iff, reserveAll]
    cases memory.reserve b with
    | ok => exact (and_iff_right rfl).symm
    | error e => exact iff_of_false nofun fun h => nomatch h.1

/-- What ends the asking is the first buffer that cannot be had. -/
theorem reserveAll_eq_error_iff {buffers : List Buffer} {e : AllocationError} :
    memory.reserveAll buffers = .error e ↔
      ∃ before b after, buffers = before ++ b :: after ∧ (∀ x ∈ before, memory.Grants x) ∧
        memory.reserve b = .error e := by
  induction buffers with
  | nil => simp [reserveAll]
  | cons first rest ih =>
    rw [reserveAll]
    cases hfirst : memory.reserve first with
    | ok =>
      refine ih.trans ⟨?_, ?_⟩
      · rintro ⟨before, b, after, rfl, hbefore, hb⟩
        exact ⟨first :: before, b, after, rfl,
          List.forall_mem_cons.mpr ⟨reserve_eq_ok_iff.mp hfirst, hbefore⟩, hb⟩
      · rintro ⟨_ | ⟨x, before⟩, b, after, heq, hbefore, hb⟩
        · cases heq
          cases hfirst.symm.trans hb
        · cases heq
          exact ⟨before, b, after, rfl, (List.forall_mem_cons.mp hbefore).2, hb⟩
    | error cause =>
      constructor
      · intro h
        cases h
        exact ⟨[], first, rest, rfl, nofun, hfirst⟩
      · rintro ⟨_ | ⟨x, before⟩, b, after, heq, hbefore, hb⟩
        · cases heq
          cases hfirst.symm.trans hb
          rfl
        · cases heq
          cases hfirst.symm.trans (reserve_eq_ok_iff.mpr (hbefore _ List.mem_cons_self))

theorem exists_not_grants_of_error {buffers : List Buffer} {e : AllocationError}
    (h : memory.reserveAll buffers = .error e) : ∃ b ∈ buffers, ¬ memory.Grants b := by
  obtain ⟨before, b, after, rfl, -, hb⟩ := reserveAll_eq_error_iff.mp h
  refine ⟨b, List.mem_append_right _ List.mem_cons_self, fun hgrants => ?_⟩
  cases hb.symm.trans (reserve_eq_ok_iff.mpr hgrants)

theorem buffer_mem_of_error {buffers : List Buffer} {e : AllocationError}
    (h : memory.reserveAll buffers = .error e) : e.buffer ∈ buffers := by
  obtain ⟨before, b, after, rfl, -, hb⟩ := reserveAll_eq_error_iff.mp h
  rw [buffer_of_reserve hb]
  exact List.mem_append_right _ List.mem_cons_self

theorem reserveAll_append (first rest : List Buffer) :
    memory.reserveAll (first ++ rest) =
      memory.reserveAll first >>= fun _ => memory.reserveAll rest := by
  induction first with
  | nil => rfl
  | cons b first ih =>
    rw [List.cons_append, reserveAll, reserveAll, ih]
    cases memory.reserve b <;> rfl

end Allocator

end IqBalance
