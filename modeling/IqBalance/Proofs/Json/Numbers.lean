import IqBalance.Proofs.Binary32.Reading
import IqBalance.Proofs.Json.Records

/-!
Reading back numbers.

A count of 64 bits is written with its decimal digits and read from them
(`Reads.count`). A single-precision number that is finite is read back where a
record is if it is read back on its own (`ReadsBack`, `Reads.real`); one that
is not finite is written as `null`, which no number is read from.
-/

namespace IqBalance.Json

/-! ### Single precision -/

/-- The text of a number reads back as this number. -/
def ReadsBack (x : Float32) : Prop :=
  parse readFloat32 (bytes (Text.NumberForm.json.write x)) = .ok x

instance : DecidablePred ReadsBack := fun x =>
  decidable_of_iff
    ((parse readFloat32 (bytes (Text.NumberForm.json.write x))).toOption = some x) <| by
    unfold ReadsBack
    cases parse readFloat32 (bytes (Text.NumberForm.json.write x)) <;> simp [Except.toOption]

theorem exists_literal_of_read {input : List Token} {p : Parsed Float32 input}
    (h : readFloat32 input = .ok p) :
    ∃ n value, input = .number n :: p.rest ∧ n.value = some value ∧ value.toFloat32 = p.value := by
  unfold readFloat32 at h
  split at h
  · cases h
  · split at h
    · rename_i n rest _ value hvalue
      cases h
      exact ⟨n, value, rfl, hvalue, rfl⟩
    · cases h
  · cases h

/-- A text that is read as a number is one number token. -/
theorem exists_literal_of_parse {text : List UInt8} {x : Float32}
    (h : parse readFloat32 text = .ok x) :
    ∃ n value, tokens text = [.number n] ∧ n.value = some value ∧ value.toFloat32 = x := by
  obtain ⟨p, hread, h⟩ := bind_eq_ok_iff.mp h
  obtain ⟨n, value, htokens, hvalue, hx⟩ := exists_literal_of_read hread
  split at h
  · rename_i hempty
    cases h
    rw [List.isEmpty_iff.mp hempty] at htokens
    exact ⟨n, value, htokens, hvalue, hx⟩
  · cases h

theorem exponent_of_not_finite {x : Float32} (h : ¬ x.isFinite) :
    x.toBits.toNat / 2 ^ 23 % 2 ^ 8 = 255 := by
  rw [Binary32.isFinite_iff] at h
  unfold Binary32.reading Float32.Model.unpack Float.Model.UnpackedFloat.unpack at h
  dsimp only at h
  split at h
  · rename_i htop
    have hexponent : (@Float.Model.UnpackedFloat.unpackExponent Float.Model.Format.binary32
          x.toModel.toBits.toBitVec).toNat =
        (BitVec.extractLsb (23 + 8 - 1) 23 x.toBits.toBitVec).toNat := rfl
    rw [htop, BitVec.extractLsb_toNat, Nat.shiftRight_eq_div_pow] at hexponent
    exact hexponent.symm
  · exfalso
    apply h
    repeat' split
    all_goals rfl

theorem write_of_not_finite {x : Float32} (h : ¬ x.isFinite) :
    Text.NumberForm.json.write x = "null" := by
  have hvalue : Text.Value32.ofFloat32 x = .notANumber ∨
      ∃ negative, Text.Value32.ofFloat32 x = .infinite negative := by
    have hexponent := exponent_of_not_finite h
    unfold Text.Value32.ofFloat32
    by_cases hfraction : x.toBits.toNat % 2 ^ 23 = 0
    · exact .inr ⟨_, by rw [if_pos hexponent, if_pos hfraction]⟩
    · exact .inl (by rw [if_pos hexponent, if_neg hfraction])
  unfold Text.NumberForm.write
  rcases hvalue with hvalue | ⟨negative, hvalue⟩
  · rw [hvalue]
    rfl
  · rw [hvalue]
    cases negative <;> rfl

theorem Reads.real {x : Float32} (h : x.isFinite → ReadsBack x) :
    Reads readFloat32 (.real x) x := by
  intro rest hrest
  have hfinite : (Value.real x).IsFinite ↔ x.isFinite := by
    simp [Value.IsFinite, Value.reals, Value.collect]
  rw [Value.render]
  by_cases hx : x.isFinite
  · obtain ⟨n, value, htokens, hvalue, rfl⟩ := exists_literal_of_parse (h hx)
    rw [if_pos (hfinite.mpr hx), tokens_append_number hrest htokens, readFloat32, hvalue]
    rfl
  · rw [if_neg (mt hfinite.mp hx), write_of_not_finite hx, tokens_null]
    rfl

/-! ### Counts -/

/-- The byte of a decimal digit. -/
def digitByte (d : Nat) : UInt8 := UInt8.ofNat (48 + d)

theorem utf8EncodeChar_digitChar {d : Nat} (h : d < 10) :
    String.utf8EncodeChar d.digitChar = [digitByte d] := by
  interval_cases d <;> rfl

/-- A count is written with its decimal digits, and a zero leads only in the text of zero. -/
theorem exists_digits (n : Nat) :
    ∃ digits : List Nat, bytes (toString n) = digits.map digitByte ∧ digits ≠ [] ∧
      (∀ d ∈ digits, d < 10) ∧ digitsValue digits = n ∧ (digits.head? = some 0 → digits = [0]) := by
  induction n using Nat.strongRecOn with
  | ind n ih =>
    rw [Nat.toString_eq_ofList_toDigits, bytes_ofList, Nat.toDigits_eq_if (by decide)]
    by_cases hn : n < 10
    · refine ⟨[n], ?_, nofun, ?_, ?_, ?_⟩
      · rw [if_pos hn, List.flatMap_singleton, utf8EncodeChar_digitChar hn]
        rfl
      · simpa using hn
      · simp [digitsValue]
      · simp
    · obtain ⟨digits, htext, hne, hlt, hvalue, hzero⟩ := ih (n / 10) (by omega)
      have hlast : n % 10 < 10 := Nat.mod_lt n (by decide)
      rw [Nat.toString_eq_ofList_toDigits, bytes_ofList] at htext
      refine ⟨digits ++ [n % 10], ?_, ?_, ?_, ?_, ?_⟩
      · rw [if_neg hn, List.flatMap_append, htext, List.flatMap_singleton,
          utf8EncodeChar_digitChar hlast, List.map_append]
        rfl
      · simp
      · intro d hd
        rcases List.mem_append.mp hd with hd | hd
        · exact hlt d hd
        · exact List.mem_singleton.mp hd ▸ hlast
      · rw [digitsValue, List.foldl_append]
        change digitsValue digits * 10 + n % 10 = n
        rw [hvalue]
        omega
      · intro hhead
        rw [List.head?_append_of_ne_nil _ hne] at hhead
        rw [hzero hhead] at hvalue
        have : n / 10 = 0 := hvalue.symm
        omega

theorem digit?_digitByte {d : Nat} (h : d < 10) : digit? (digitByte d) = some d := by
  interval_cases d <;> rfl

/-- A digit begins a number. -/
theorem scanToken_digitByte {d : Nat} (h : d < 10) (rest : List UInt8) :
    scanToken (digitByte d) rest = scanNumberToken (digitByte d) rest := by
  interval_cases d <;> rfl

theorem takeDigits_digits {digits : List Nat} (h : ∀ d ∈ digits, d < 10) :
    takeDigits (digits.map digitByte) = (digits, []) := by
  induction digits with
  | nil => rfl
  | cons d digits ih =>
    rw [List.map_cons, takeDigits, digit?_digitByte (h d List.mem_cons_self),
      ih fun d hd => h d (List.mem_cons_of_mem _ hd)]

theorem scanWhole_digits {digits : List Nat} (hne : digits ≠ []) (h : ∀ d ∈ digits, d < 10)
    (hzero : digits.head? = some 0 → digits = [0]) :
    scanWhole (digits.map digitByte) = .ok (digits, []) := by
  have hsome : someDigits (digits.map digitByte) = .ok (digits, []) := by
    rw [someDigits, takeDigits_digits h]
    cases digits with
    | nil => exact absurd rfl hne
    | cons d digits => rfl
  rw [scanWhole, hsome]
  split
  · rename_i heq
    cases heq
    cases hzero rfl
  · rfl

theorem le_foldl_digits (significand : Nat) (digits : List Nat) :
    significand ≤ digits.foldl (fun n d => n * 10 + d) significand := by
  induction digits generalizing significand with
  | nil => exact Nat.le_refl _
  | cons d digits ih => exact Nat.le_trans (by omega) (ih (significand * 10 + d))

/-- Digits whose number fits are all taken. -/
theorem takeSignificant_eq {significand : Nat} {digits : List Nat}
    (h : digits.foldl (fun n d => n * 10 + d) significand < 2 ^ 64) :
    takeSignificant significand digits =
      (digits.foldl (fun n d => n * 10 + d) significand, []) := by
  induction digits generalizing significand with
  | nil => rfl
  | cons d digits ih =>
    have hfits : significand * 10 + d < 2 ^ 64 := Nat.lt_of_le_of_lt (le_foldl_digits _ digits) h
    rw [takeSignificant, if_pos hfits, ih h]
    rfl

theorem tokens_digits {digits : List Nat} (hne : digits ≠ []) (h : ∀ d ∈ digits, d < 10)
    (hzero : digits.head? = some 0 → digits = [0]) :
    tokens (digits.map digitByte) = [.number ⟨false, digits, [], none⟩] := by
  cases digits with
  | nil => exact absurd rfl hne
  | cons d digits =>
    have hd := h d List.mem_cons_self
    have hminus : scanMinus ((d :: digits).map digitByte) =
        (false, (d :: digits).map digitByte) := by
      refine scanMinus_of_ne ?_ _
      interval_cases d <;> decide
    have hnumber : scanNumber ((d :: digits).map digitByte) =
        .ok (⟨false, d :: digits, [], none⟩, []) := by
      rw [scanNumber, hminus]
      simp only [scanWhole_digits hne h hzero]
      rfl
    have hblank : ¬ isBlank (digitByte d) := by
      interval_cases d <;> decide
    rw [List.map_cons] at hnumber ⊢
    rw [tokens, if_neg hblank]
    simp only [scanToken_digitByte hd, scanNumberToken, hnumber]
    rw [tokens]

theorem Reads.count {n : Nat} (h : n < countLimit) : Reads readCount (.count n) n := by
  intro rest hrest
  obtain ⟨digits, htext, hne, hlt, hvalue, hzero⟩ := exists_digits n
  have htokens : tokens (bytes (toString n)) = [.number ⟨false, digits, [], none⟩] := by
    rw [htext, tokens_digits hne hlt hzero]
  have hliteral : Literal.value ⟨false, digits, [], none⟩ = some (.natural n) := by
    have hfits : digitsValue digits < 2 ^ 64 := hvalue ▸ h
    rw [Literal.value, takeSignificant_eq hfits]
    exact congrArg (fun n => some (Numeral.natural n)) hvalue
  have hfinite : (Value.count n).IsFinite := nofun
  rw [if_pos hfinite, Value.render, tokens_append_number hrest htokens, readCount, hliteral]
  rfl

end IqBalance.Json
