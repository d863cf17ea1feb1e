import Mathlib
import IqBalance.Json.Reader
import IqBalance.Json.Value

/-!
Tokens of a text that goes on.

The scanner takes as many bytes as it can, so what a text is cut into depends
on what comes after it. After a value comes nothing, a comma or a closing
brace (`Delimited`), and none of these goes on a number: `tokens_append_number`
carries a number over to a text that goes on, and `tokens_key` and
`tokens_null` do so for the other parts of what is written.
-/

namespace IqBalance.Json

/-! ### Bytes -/

/-- The bytes of a text. -/
def bytes (s : String) : List UInt8 := s.toUTF8.toList

theorem toList_loop_eq (b : ByteArray) (i : Nat) (taken : List UInt8) :
    ByteArray.toList.loop b i taken = taken.reverse ++ b.data.toList.drop i := by
  induction hleft : b.size - i generalizing i taken with
  | zero =>
    rw [ByteArray.toList.loop, if_neg (by omega), List.drop_of_length_le, List.append_nil]
    exact Nat.le_of_sub_eq_zero hleft
  | succ left ih =>
    have hlt : i < b.size := by omega
    have hi : i < b.data.size := hlt
    have hget : b.get! i = b.data.toList[i] := getElem!_pos b.data i hi
    rw [ByteArray.toList.loop, if_pos hlt, ih (i + 1) _ (by omega),
      List.drop_eq_getElem_cons (i := i) hi, List.reverse_cons, List.append_assoc, hget]
    rfl

theorem bytes_eq (s : String) : bytes s = s.toByteArray.data.toList :=
  toList_loop_eq s.toByteArray 0 []

theorem bytes_append (s t : String) : bytes (s ++ t) = bytes s ++ bytes t := by
  simp only [bytes_eq, String.toByteArray_append, ByteArray.data_append, Array.toList_append]

theorem bytes_injective : Function.Injective bytes := by
  intro s t h
  rw [bytes_eq, bytes_eq] at h
  exact String.toByteArray_inj.mp (ByteArray.ext (Array.toList_inj.mp h))

theorem bytes_ofList (cs : List Char) :
    bytes (String.ofList cs) = cs.flatMap String.utf8EncodeChar := by
  rw [bytes_eq]
  exact List.toList_data_toByteArray

/-! ### Numbers -/

/-- Nothing, or a comma or closing brace first: what may follow a written value. -/
def Delimited : List UInt8 → Prop
  | [] => True
  | b :: _ => b = 44 ∨ b = 125

theorem scanMinus_of_ne {b : UInt8} (hb : b ≠ 45) (text : List UInt8) :
    scanMinus (b :: text) = (false, b :: text) := by
  unfold scanMinus
  split
  · rename_i heq
    cases heq
    exact absurd rfl hb
  · rfl

theorem scanSign_of_ne {b : UInt8} (hplus : b ≠ 43) (hminus : b ≠ 45) (text : List UInt8) :
    scanSign (b :: text) = (false, b :: text) := by
  unfold scanSign
  split
  · rename_i heq
    cases heq
    exact absurd rfl hplus
  · rename_i heq
    cases heq
    exact absurd rfl hminus
  · rfl

theorem scanMinus_append {text : List UInt8} (hne : text ≠ []) (rest : List UInt8) :
    scanMinus (text ++ rest) = ((scanMinus text).1, (scanMinus text).2 ++ rest) := by
  cases text with
  | nil => exact absurd rfl hne
  | cons b text =>
    by_cases hb : b = 45
    · rw [hb]
      rfl
    · rw [List.cons_append, scanMinus_of_ne hb, scanMinus_of_ne hb]
      rfl

theorem scanSign_append {text : List UInt8} (hne : text ≠ []) (rest : List UInt8) :
    scanSign (text ++ rest) = ((scanSign text).1, (scanSign text).2 ++ rest) := by
  cases text with
  | nil => exact absurd rfl hne
  | cons b text =>
    by_cases hplus : b = 43
    · rw [hplus]
      rfl
    · by_cases hminus : b = 45
      · rw [hminus]
        rfl
      · rw [List.cons_append, scanSign_of_ne hplus hminus, scanSign_of_ne hplus hminus]
        rfl

section Numbers

variable {rest : List UInt8} (h : Delimited rest)

include h

theorem takeDigits_append (text : List UInt8) :
    takeDigits (text ++ rest) = ((takeDigits text).1, (takeDigits text).2 ++ rest) := by
  induction text with
  | nil =>
    cases rest with
    | nil => rfl
    | cons b rest =>
      obtain rfl | rfl := h
      · rfl
      · rfl
  | cons b text ih =>
    rw [List.cons_append, takeDigits, takeDigits]
    cases digit? b with
    | none => rfl
    | some d =>
      simp only [ih]

theorem someDigits_append {text after : List UInt8} {digits : List Nat}
    (hdigits : someDigits text = .ok (digits, after)) :
    someDigits (text ++ rest) = .ok (digits, after ++ rest) := by
  unfold someDigits at hdigits ⊢
  rw [takeDigits_append h]
  split at hdigits
  · cases hdigits
  · cases hdigits
  · rename_i heq
    cases hdigits
    rw [heq]

theorem scanWhole_append {text after : List UInt8} {digits : List Nat}
    (hwhole : scanWhole text = .ok (digits, after)) :
    scanWhole (text ++ rest) = .ok (digits, after ++ rest) := by
  unfold scanWhole at hwhole ⊢
  -- A zero with more digits after it is refused, so none may come from what follows either.
  split at hwhole
  · cases hwhole
  · rename_i hzero
    rw [someDigits_append h hwhole]
    split
    · rename_i heq
      cases heq
      exact absurd hwhole (hzero _ _ _)
    · rfl

theorem scanFraction_append {text after : List UInt8} {digits : List Nat}
    (hfraction : scanFraction text = .ok (digits, after)) :
    scanFraction (text ++ rest) = .ok (digits, after ++ rest) := by
  unfold scanFraction at hfraction
  split at hfraction
  · exact someDigits_append h hfraction
  · rename_i hpoint
    cases hfraction
    unfold scanFraction
    split
    · rename_i heq
      cases text with
      | nil =>
        cases rest with
        | nil => cases heq
        | cons b rest =>
          cases heq
          obtain hb | hb := h <;> cases hb
      | cons b text =>
        cases heq
        exact absurd rfl (hpoint _)
    · rfl

theorem scanExponent_append {text after : List UInt8} {exponent : Option (Bool × List Nat)}
    (hexponent : scanExponent text = .ok (exponent, after)) :
    scanExponent (text ++ rest) = .ok (exponent, after ++ rest) := by
  cases text with
  | nil =>
    cases hexponent
    cases rest with
    | nil => rfl
    | cons b rest =>
      obtain rfl | rfl := h
      · rfl
      · rfl
  | cons b text =>
    rw [scanExponent] at hexponent
    rw [List.cons_append, scanExponent]
    split at hexponent
    · rename_i hmark
      rw [if_pos hmark]
      split at hexponent
      · rename_i hdigits
        cases hexponent
        have hne : text ≠ [] := by
          rintro rfl
          cases hdigits
        rw [scanSign_append hne, someDigits_append h hdigits]
      · cases hexponent
    · rename_i hmark
      cases hexponent
      rw [if_neg hmark]
      rfl

theorem scanNumber_append {text after : List UInt8} {n : Literal}
    (hnumber : scanNumber text = .ok (n, after)) :
    scanNumber (text ++ rest) = .ok (n, after ++ rest) := by
  have hne : text ≠ [] := by
    rintro rfl
    cases hnumber
  unfold scanNumber at hnumber ⊢
  rw [scanMinus_append hne]
  split at hnumber
  · cases hnumber
  · rename_i hwhole
    simp only [scanWhole_append h hwhole]
    split at hnumber
    · cases hnumber
    · rename_i hfraction
      simp only [scanFraction_append h hfraction]
      split at hnumber
      · cases hnumber
      · rename_i hexponent
        cases hnumber
        simp only [scanExponent_append h hexponent]

omit h in
theorem punctuation_ne_number (b : UInt8) (n : Literal) : punctuation? b ≠ some (.number n) := by
  unfold punctuation?
  repeat' split
  all_goals nofun

omit h in
theorem scanWord_ne_number (letters text : List UInt8) (n : Literal) :
    (scanWord letters text).1 ≠ .number n := by
  fun_induction scanWord letters text with
  | case3 _ _ _ ih => exact ih
  | _ =>
    intro h
    cases h

theorem scanToken_append_number {b : UInt8} {text after : List UInt8} {n : Literal}
    (htoken : scanToken b text = (.number n, after)) :
    scanToken b (text ++ rest) = (.number n, after ++ rest) := by
  unfold scanToken at htoken ⊢
  split at htoken
  · rename_i hpunctuation
    cases htoken
    exact absurd hpunctuation (punctuation_ne_number b n)
  · exact absurd (congrArg Prod.fst htoken) (scanWord_ne_number _ _ n)
  · split at htoken
    · cases htoken
    · rename_i hquote
      rw [if_neg hquote]
      split at htoken
      · rename_i hdigit
        rw [if_pos hdigit]
        unfold scanNumberToken at htoken ⊢
        split at htoken
        · rename_i hnumber
          cases htoken
          rw [← List.cons_append, scanNumber_append h hnumber]
        · cases htoken
      · cases htoken

end Numbers

/-- A text without tokens is blank. -/
theorem tokens_append_of_nil {text : List UInt8} (h : tokens text = []) (rest : List UInt8) :
    tokens (text ++ rest) = tokens rest := by
  induction text with
  | nil => rfl
  | cons b text ih =>
    rw [tokens] at h
    split at h
    · rename_i hblank
      rw [List.cons_append, tokens, if_pos hblank, ih h]
    · cases h

/-- A number is the same number in a text that goes on. -/
theorem tokens_append_number {text rest : List UInt8} {n : Literal} (h : Delimited rest)
    (htokens : tokens text = [.number n]) :
    tokens (text ++ rest) = .number n :: tokens rest := by
  induction text with
  | nil =>
    rw [tokens] at htokens
    cases htokens
  | cons b text ih =>
    rw [tokens] at htokens
    rw [List.cons_append, tokens]
    split at htokens
    · rename_i hblank
      rw [if_pos hblank, ih htokens]
    · rename_i hblank
      rw [if_neg hblank]
      obtain ⟨hfirst, hlater⟩ := List.cons_eq_cons.mp htokens
      have hscan : scanToken b text = (.number n, (scanToken b text).2) := Prod.ext hfirst rfl
      simp only [scanToken_append_number h hscan]
      rw [tokens_append_of_nil hlater]

theorem tokens_punctuation {b : UInt8} {t : Token} (h : punctuation? b = some t)
    (hblank : ¬ isBlank b) (rest : List UInt8) : tokens (b :: rest) = t :: tokens rest := by
  have hscan : scanToken b rest = (t, rest) := by
    rw [scanToken, h]
  rw [tokens, if_neg hblank]
  simp only [hscan]

/-- `null` is a word wherever it stands. -/
theorem tokens_null (rest : List UInt8) : tokens (bytes "null" ++ rest) = .word :: tokens rest := by
  have hbytes : bytes "null" = [110, 117, 108, 108] := by decide +kernel
  rw [hbytes, List.cons_append, tokens]
  rfl

/-- A byte that stands for itself between quotes. -/
def isPlain (b : UInt8) : Bool := b != 34 && b != 92 && 32 ≤ b

theorem scanString_of_isPlain {b : UInt8} (h : isPlain b) (rest : List UInt8) :
    scanString (b :: rest) = StringBody.push (.byte b) (scanString rest) := by
  simp only [isPlain, Bool.and_eq_true, bne_iff_ne, decide_eq_true_eq] at h
  obtain ⟨⟨hquote, hescape⟩, hcontrol⟩ := h
  conv => lhs; unfold scanString
  split
  · rename_i heq
    cases heq
  · rename_i heq
    cases heq
    exact absurd rfl hquote
  · rename_i heq
    cases heq
    exact absurd rfl hescape
  · rename_i heq
    cases heq
    exact absurd rfl hescape
  · rename_i heq
    cases heq
    rw [if_neg hescape, if_neg (UInt8.not_lt.mpr hcontrol)]

theorem scanString_name {name : List UInt8} (h : ∀ b ∈ name, isPlain b) (rest : List UInt8) :
    scanString (name ++ 34 :: rest) = (⟨name.map .byte, .closed⟩, rest) := by
  induction name with
  | nil => rfl
  | cons b name ih =>
    rw [List.cons_append, scanString_of_isPlain (h b List.mem_cons_self),
      ih fun b hb => h b (List.mem_cons_of_mem _ hb)]
    rfl

theorem decode_name (name : List UInt8) :
    StringBody.decode ⟨name.map .byte, .closed⟩ = .ok name := by
  unfold StringBody.decode
  induction name with
  | nil => rfl
  | cons b name ih =>
    simp only at ih
    rw [List.map_cons, decodeUnits, ih]
    rfl

/-- The key of a member and what stands after it. -/
theorem tokens_key {name : List UInt8} (h : name.all isPlain) (rest : List UInt8) :
    tokens (34 :: name ++ 34 :: 58 :: rest) =
      .string ⟨name.map .byte, .closed⟩ :: .colon :: tokens rest := by
  have hscan : scanToken 34 (name ++ 34 :: 58 :: rest) =
      (.string ⟨name.map .byte, .closed⟩, 58 :: rest) := by
    have hstring := scanString_name (List.all_eq_true.mp h) (58 :: rest)
    have htoken : scanToken 34 (name ++ 34 :: 58 :: rest) =
        (.string (scanString (name ++ 34 :: 58 :: rest)).1,
          (scanString (name ++ 34 :: 58 :: rest)).2) := rfl
    rw [htoken, hstring]
  rw [List.cons_append, tokens, if_neg (by decide)]
  simp only [hscan]
  rw [tokens_punctuation rfl (by decide)]

end IqBalance.Json
