import Mathlib
import IqBalance.Session

/-!
Texts without a zero.

A text with a zero inside cannot be handed over to the host. What is written
here has none: numbers are digits, signs and points (`zeroFree_write`), and the
words between them are fixed. So the message of a failure can be handed over
if what the failure quotes can (`Failure.zeroFree_message`), and a snapshot of
an engine always can (`BalancerState.zeroFree_render`).
-/

namespace IqBalance

namespace Text

theorem handedOver_of_zeroFree {text : String} (h : ZeroFree text) : handedOver text = some text :=
  if_pos h

@[simp] theorem zeroFree_append_iff {s t : String} :
    ZeroFree (s ++ t) ↔ ZeroFree s ∧ ZeroFree t := by
  simp [ZeroFree]

@[simp] theorem zeroFree_ofList_iff {cs : List Char} :
    ZeroFree (String.ofList cs) ↔ '\x00' ∉ cs := by
  simp [ZeroFree]

theorem zeroFree_ite {p : Prop} [Decidable p] {s t : String} (hs : ZeroFree s) (ht : ZeroFree t) :
    ZeroFree (if p then s else t) := by
  split
  · exact hs
  · exact ht

/-! ### Numbers -/

theorem zeroFree_nat (n : ℕ) : ZeroFree (toString n) := by
  rw [Nat.toString_eq_ofList_toDigits, zeroFree_ofList_iff]
  intro hmem
  have hdigit : ('\x00').isDigit := Nat.isDigit_of_mem_toDigits (by decide) (by decide) hmem
  exact absurd hdigit (by decide)

@[simp] theorem zeroFree_repr (n : ℕ) : ZeroFree n.repr := zeroFree_nat n

@[simp] theorem zeroFree_int (z : ℤ) : ZeroFree (toString z) := by
  cases z with
  | ofNat n => exact zeroFree_nat n
  | negSucc n =>
    have hsign : ZeroFree ("-" ++ toString (n + 1)) :=
      zeroFree_append_iff.mpr ⟨by decide, zeroFree_nat _⟩
    exact hsign

theorem zeroFree_positionalText {wholeEnd digits : String} (hend : ZeroFree wholeEnd)
    (hdigits : ZeroFree digits) (exponent : ℤ) :
    ZeroFree (positionalText wholeEnd digits exponent) := by
  have hzeros : ∀ n, ZeroFree (zeros n) := fun n => by simp [zeros]
  refine zeroFree_ite ?_ (zeroFree_ite ?_ ?_)
  · simp only [zeroFree_append_iff]
    exact ⟨⟨hdigits, hzeros _⟩, hend⟩
  · simp only [zeroFree_append_iff, zeroFree_ofList_iff]
    exact ⟨⟨fun h => hdigits (List.mem_of_mem_take h), by decide⟩,
      fun h => hdigits (List.mem_of_mem_drop h)⟩
  · simp only [zeroFree_append_iff]
    exact ⟨⟨by decide, hzeros _⟩, hdigits⟩

theorem zeroFree_scientificText {exponentPlus digits : String} (hplus : ZeroFree exponentPlus)
    (hdigits : ZeroFree digits) (exponent : ℤ) :
    ZeroFree (scientificText exponentPlus digits exponent) := by
  have hwhole : ZeroFree (String.ofList (digits.toList.take 1)) :=
    zeroFree_ofList_iff.mpr fun h => hdigits (List.mem_of_mem_take h)
  have hrest : ZeroFree (String.ofList (digits.toList.drop 1)) :=
    zeroFree_ofList_iff.mpr fun h => hdigits (List.mem_of_mem_drop h)
  have hpoint : ZeroFree "." := by decide
  have hmark : ZeroFree "e" := by decide
  unfold scientificText
  simp only [zeroFree_append_iff]
  refine ⟨⟨⟨zeroFree_ite hwhole ?_, hmark⟩, zeroFree_ite hplus (by decide)⟩, zeroFree_int exponent⟩
  simp only [zeroFree_append_iff]
  exact ⟨⟨hwhole, hpoint⟩, hrest⟩

/-- None of the fixed parts of a kind of number text has a zero. -/
structure NumberForm.ZeroFree (form : NumberForm) : Prop where
  wholeEnd : Text.ZeroFree form.wholeEnd := by decide
  exponentPlus : Text.ZeroFree form.exponentPlus := by decide
  notANumber : Text.ZeroFree form.notANumber := by decide
  infinite : Text.ZeroFree form.infinite := by decide
  negativeInfinite : Text.ZeroFree form.negativeInfinite := by decide

theorem zeroFree_decimal {form : NumberForm} (h : form.ZeroFree) (d : Decimal) :
    ZeroFree (form.decimal d) :=
  zeroFree_ite (zeroFree_positionalText h.wholeEnd (zeroFree_nat d.digits) _)
    (zeroFree_scientificText h.exponentPlus (zeroFree_nat d.digits) _)

theorem zeroFree_write {form : NumberForm} (h : form.ZeroFree) (x : Float32) :
    ZeroFree (form.write x) := by
  unfold NumberForm.write
  split
  · exact h.notANumber
  · exact h.infinite
  · exact h.negativeInfinite
  · have hzero : ZeroFree ("0" ++ form.wholeEnd) :=
      zeroFree_append_iff.mpr ⟨by decide, h.wholeEnd⟩
    exact zeroFree_append_iff.mpr
      ⟨zeroFree_ite (by decide) (by decide), zeroFree_ite hzero (zeroFree_decimal h _)⟩

@[simp] theorem zeroFree_write_plain (x : Float32) : ZeroFree (NumberForm.plain.write x) :=
  zeroFree_write {} x

@[simp] theorem zeroFree_write_detailed (x : Float32) : ZeroFree (NumberForm.detailed.write x) :=
  zeroFree_write {} x

@[simp] theorem zeroFree_write_json (x : Float32) : ZeroFree (NumberForm.json.write x) :=
  zeroFree_write {} x

end Text

open Text

/-! ### Failures -/

/-- What a failure quotes. -/
def Failure.quotes : Failure → List String
  | .allocation cause => [cause.buffer.name]
  | .negativeCount name _ => [name]
  | .notConfig reason => [reason]
  | _ => []

theorem StepBounds.zeroFree_text (b : StepBounds Float32) : ZeroFree b.text := by
  unfold text
  simp only [zeroFree_append_iff, zeroFree_write_detailed, and_true]
  decide

theorem ConfigError.zeroFree_detail (e : ConfigError Float32) : ZeroFree e.detail := by
  cases e with
  | stepBounds quantity bounds =>
    have hname : ZeroFree quantity.stepName := by
      cases quantity <;> decide
    unfold detail
    simp only [toString, zeroFree_append_iff, hname, bounds.zeroFree_text, and_true]
    decide
  | initialCorrection => decide
  | muThresholds => decide
  | epsilons => decide
  | _ =>
    unfold detail
    simp only [toString, zeroFree_append_iff, zeroFree_repr, zeroFree_write_plain, and_true]
    decide

theorem AllocationError.zeroFree_detail {e : AllocationError} (h : ZeroFree e.buffer.name) :
    ZeroFree e.detail := by
  obtain ⟨buffer, cause⟩ := e
  cases cause <;>
  · unfold detail
    simp only [toString, zeroFree_append_iff, zeroFree_repr, h, and_true]
    decide

theorem Text.Utf8Fault.zeroFree_message (fault : Utf8Fault) : ZeroFree fault.message := by
  cases fault <;>
  · unfold message
    simp only [toString, zeroFree_append_iff, zeroFree_repr, and_true]
    decide

/-- The message of a failure has a zero only in what it quotes. -/
theorem Failure.zeroFree_message {f : Failure} (h : ∀ quote ∈ f.quotes, ZeroFree quote) :
    ZeroFree f.message := by
  have hlabel : ZeroFree f.kind.label := by
    cases f.kind <;> decide
  have hdetail : ZeroFree f.detail := by
    cases f with
    | config cause => exact cause.zeroFree_detail
    | allocation cause => exact AllocationError.zeroFree_detail (h _ List.mem_cons_self)
    | noBalancer => decide
    | negativeCount name value =>
      have hname : ZeroFree name := h _ List.mem_cons_self
      exact zeroFree_append_iff.mpr ⟨zeroFree_append_iff.mpr ⟨hname, by decide⟩, zeroFree_int value⟩
    | notUtf8 fault => exact zeroFree_append_iff.mpr ⟨by decide, fault.zeroFree_message⟩
    | notConfig reason => exact zeroFree_append_iff.mpr ⟨by decide, h _ List.mem_cons_self⟩
  exact zeroFree_append_iff.mpr ⟨zeroFree_append_iff.mpr ⟨hlabel, by decide⟩, hdetail⟩

/-! ### Snapshots -/

theorem BalancerState.zeroFree_render (s : BalancerState Float32) : ZeroFree s.toJson.render := by
  simp +decide [toJson, Json.Value.render, Json.Value.renderMembers, String.intercalate_cons_cons]

end IqBalance
