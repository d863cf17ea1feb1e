import IqBalance.Proofs.Json.Tokens

/-!
Reading back what was written.

`Reads read v value` says that the text of `v`, wherever a value may stand, is
read as `value`, or rejected for its shape if a number in it is not finite.
A record does so if its parts do: a part is an `Entry`, a member next to the
value written for it, and `Reads.record` puts entries together.
-/

namespace IqBalance.Json

/-! ### What is written -/

mutual

/-- What is collected from the counts and the single-precision numbers in a value. -/
def Value.collect {β : Type} (ofCount : Nat → List β) (ofReal : Float32 → List β) :
    Value → List β
  | .count n => ofCount n
  | .real x => ofReal x
  | .record members => Value.collectMembers ofCount ofReal members

/-- What is collected from members. -/
def Value.collectMembers {β : Type} (ofCount : Nat → List β) (ofReal : Float32 → List β) :
    List (String × Value) → List β
  | [] => []
  | (_, value) :: rest =>
    value.collect ofCount ofReal ++ Value.collectMembers ofCount ofReal rest

end

theorem Value.forall_collect_record_iff {β : Type} {ofCount : Nat → List β}
    {ofReal : Float32 → List β} {members : List (String × Value)} {p : β → Prop} :
    (∀ y ∈ (Value.record members).collect ofCount ofReal, p y) ↔
      ∀ m ∈ members, ∀ y ∈ m.2.collect ofCount ofReal, p y := by
  rw [Value.collect]
  induction members with
  | nil => simp [Value.collectMembers]
  | cons m rest ih => rw [Value.collectMembers, List.forall_mem_append, ih, List.forall_mem_cons]

/-- The counts in a value. -/
def Value.counts : Value → List Nat := Value.collect (fun n => [n]) fun _ => []

/-- The single-precision numbers in a value. -/
def Value.reals : Value → List Float32 := Value.collect (fun _ => []) fun x => [x]

/-- Every number in a value is finite. -/
def Value.IsFinite (v : Value) : Prop := ∀ x ∈ v.reals, x.isFinite

instance (v : Value) : Decidable v.IsFinite :=
  inferInstanceAs (Decidable (∀ x ∈ v.reals, x.isFinite))

theorem bytes_member (name : String) (v : Value) :
    bytes ("\"" ++ name ++ "\":" ++ v.render) = 34 :: bytes name ++ 34 :: 58 :: bytes v.render := by
  have hquote : bytes "\"" = [34] := by decide +kernel
  have hcolon : bytes "\":" = [34, 58] := by decide +kernel
  simp only [bytes_append, hquote, hcolon, List.cons_append, List.nil_append, List.append_assoc]

theorem bytes_record (members : List (String × Value)) :
    bytes (Value.record members).render =
      123 :: bytes (",".intercalate (Value.renderMembers members)) ++ [125] := by
  have hopen : bytes "\x7b" = [123] := by decide +kernel
  have hclose : bytes "\x7d" = [125] := by decide +kernel
  rw [Value.render, bytes_append, bytes_append, hopen, hclose]
  rfl

/-! ### What is read -/

/-- The value that was read, and the tokens after it. -/
def Parsed.result {β : Type} {input : List Token} (p : Parsed β input) : β × List Token :=
  (p.value, p.rest)

section Results

variable {β : Type} {input : List Token} {parsed : Except Rejection (Parsed β input)}

theorem exists_parsed {value : β} {rest : List Token}
    (h : parsed.map Parsed.result = .ok (value, rest)) :
    ∃ hshorter, parsed = .ok ⟨value, rest, hshorter⟩ := by
  cases parsed with
  | error fault => cases h
  | ok p =>
    cases h
    exact ⟨p.shorter, rfl⟩

theorem eq_error_of_map {fault : Rejection} (h : parsed.map Parsed.result = .error fault) :
    parsed = .error fault := by
  cases parsed with
  | error fault =>
    cases h
    rfl
  | ok p => cases h

end Results

/-- The text of `v` is read as `value` wherever it stands, or has another shape than wanted if a
number in it is not finite. -/
def Reads {β : Type} (read : Reader β) (v : Value) (value : β) : Prop :=
  ∀ rest, Delimited rest →
    (read (tokens (bytes v.render ++ rest))).map Parsed.result =
      if v.IsFinite then .ok (value, tokens rest) else .error .mismatched

/-- A whole text. -/
theorem Reads.parse {β : Type} {read : Reader β} {v : Value} {value : β} (h : Reads read v value) :
    Json.parse read (bytes v.render) = if v.IsFinite then .ok value else .error .mismatched := by
  have hread := h [] trivial
  rw [List.append_nil, tokens] at hread
  unfold Json.parse
  by_cases hfinite : v.IsFinite
  · rw [if_pos hfinite] at hread ⊢
    obtain ⟨_, hparsed⟩ := exists_parsed hread
    rw [hparsed]
    rfl
  · rw [if_neg hfinite] at hread ⊢
    rw [eq_error_of_map hread]
    rfl

/-! ### Members of a record -/

namespace Shape

variable {ρ : Type} {shape : Shape ρ} {seen : List String} {record next : ρ} {m : Member ρ}
  {input rest : List Token}

/-- The token of a key. -/
def key (name : String) : Token := .string ⟨(bytes name).map .byte, .closed⟩

theorem readMembers_of_error {fault : Rejection} (hm : shape.member? (bytes m.name) = some m)
    (hfresh : m.name ∉ seen) (h : m.read record input = .error fault) :
    shape.readMembers seen record (key m.name :: .colon :: input) = .error fault := by
  rw [key, readMembers]
  simp only [decode_name, readMember, hm, bind, Except.bind, List.contains_iff_mem, if_neg hfresh,
    readColon, h]

theorem readMembers_of_last {hshorter : (Token.closeBrace :: rest).length < input.length}
    (hm : shape.member? (bytes m.name) = some m) (hfresh : m.name ∉ seen)
    (h : m.read record input = .ok ⟨next, .closeBrace :: rest, hshorter⟩)
    (hsatisfied : shape.isSatisfiedBy (m.name :: seen)) :
    (shape.readMembers seen record (key m.name :: .colon :: input)).map Parsed.result =
      .ok (next, rest) := by
  rw [key, readMembers]
  simp only [decode_name, readMember, hm, bind, Except.bind, List.contains_iff_mem, if_neg hfresh,
    readColon, h, pure, Except.pure, hsatisfied]
  rfl

theorem readMembers_of_comma {hshorter : (Token.comma :: rest).length < input.length}
    (hm : shape.member? (bytes m.name) = some m) (hfresh : m.name ∉ seen)
    (h : m.read record input = .ok ⟨next, .comma :: rest, hshorter⟩) :
    (shape.readMembers seen record (key m.name :: .colon :: input)).map Parsed.result =
      (shape.readMembers (m.name :: seen) next rest).map Parsed.result := by
  rw [key, readMembers]
  simp only [decode_name, readMember, hm, bind, Except.bind, List.contains_iff_mem, if_neg hfresh,
    readColon, h, pure, Except.pure]
  cases shape.readMembers (m.name :: seen) next rest <;> rfl

/-- An object that begins with a key. -/
theorem map_read_object {name : String} (hinput : input = key name :: rest) :
    (shape.read (.openBrace :: input)).map Parsed.result =
      (shape.readMembers [] shape.start input).map Parsed.result := by
  subst hinput
  rw [read]
  · simp only [bind, Except.bind]
    cases shape.readMembers [] shape.start (key name :: rest) <;> rfl
  · nofun

/-- A member is found by its name, if no other has the same. -/
theorem member?_of_mem (hunique : (shape.members.map (·.name)).Nodup) (hm : m ∈ shape.members) :
    shape.member? (bytes m.name) = some m := by
  unfold member?
  generalize shape.members = members at hunique hm
  induction members with
  | nil => cases hm
  | cons first members ih =>
    rw [List.map_cons, List.nodup_cons] at hunique
    rcases List.mem_cons.mp hm with rfl | hm
    · exact List.find?_cons_of_pos (beq_self_eq_true _)
    · have hother : first.name ≠ m.name := fun heq =>
        hunique.1 (heq ▸ List.mem_map_of_mem hm)
      rw [List.find?_cons_of_neg]
      · exact ih hunique.2 hm
      · exact fun heq => hother (bytes_injective (beq_iff_eq.mp heq))

theorem isSatisfiedBy_of_forall (h : ∀ m ∈ shape.members, m.name ∈ seen) :
    shape.isSatisfiedBy seen := by
  simp only [isSatisfiedBy, Bool.or_eq_true, List.all_eq_true, List.contains_iff_mem]
  exact .inr h

end Shape

/-! ### Records -/

/-- A member of a record next to the value that is written for it. -/
structure Entry (ρ : Type) where
  member : Member ρ
  value : Value
  /-- What reading the member does to the record. -/
  put : ρ → ρ

namespace Entry

variable {ρ : Type}

/-- The member as it is written. -/
def written (e : Entry ρ) : String × Value := (e.member.name, e.value)

/-- The text of the value makes the member do what the entry says. -/
def Sound (e : Entry ρ) : Prop := ∀ record, Reads (e.member.read record) e.value (e.put record)

/-- The text of entries, commas between them. -/
def text (entries : List (Entry ρ)) : List UInt8 :=
  bytes (",".intercalate (Value.renderMembers (entries.map written)))

theorem text_singleton (e : Entry ρ) :
    text [e] = 34 :: bytes e.member.name ++ 34 :: 58 :: bytes e.value.render := by
  rw [text, List.map_singleton, written, Value.renderMembers, Value.renderMembers,
    String.intercalate_singleton, bytes_member]

theorem text_cons_cons (e e' : Entry ρ) (rest : List (Entry ρ)) :
    text (e :: e' :: rest) = text [e] ++ 44 :: text (e' :: rest) := by
  have hcomma : bytes "," = [44] := by decide +kernel
  rw [text_singleton, text, List.map_cons, List.map_cons, written, Value.renderMembers, written,
    Value.renderMembers, String.intercalate_cons_cons, bytes_append, bytes_append, bytes_member,
    hcomma, List.append_assoc]
  rfl

/-- What stands after an entry ends its value. -/
theorem exists_text_eq (e : Entry ρ) (entries : List (Entry ρ)) (rest : List UInt8) :
    ∃ after, text (e :: entries) ++ 125 :: rest = text [e] ++ after ∧ Delimited after := by
  cases entries with
  | nil => exact ⟨125 :: rest, rfl, .inr rfl⟩
  | cons e' entries =>
    refine ⟨44 :: (text (e' :: entries) ++ 125 :: rest), ?_, .inl rfl⟩
    rw [text_cons_cons, List.append_assoc]
    rfl

/-- Every number in the values of entries is finite. -/
def AllFinite (entries : List (Entry ρ)) : Prop := ∀ e ∈ entries, e.value.IsFinite

instance (entries : List (Entry ρ)) : Decidable (AllFinite entries) :=
  inferInstanceAs (Decidable (∀ e ∈ entries, e.value.IsFinite))

theorem allFinite_cons {e : Entry ρ} {entries : List (Entry ρ)} :
    AllFinite (e :: entries) ↔ e.value.IsFinite ∧ AllFinite entries :=
  List.forall_mem_cons

/-- What reading all members does to a record. -/
def putAll (entries : List (Entry ρ)) (record : ρ) : ρ :=
  entries.foldl (fun record e => e.put record) record

end Entry

/-- The entries that remain of a record, after members of the names `seen`. -/
structure Pending {ρ : Type} (shape : Shape ρ) (seen : List String) (entries : List (Entry ρ)) :
    Prop where
  members : ∀ e ∈ entries, e.member ∈ shape.members
  sound : ∀ e ∈ entries, e.Sound
  fresh : ∀ e ∈ entries, e.member.name ∉ seen
  nodup : (entries.map (·.member.name)).Nodup
  covers : ∀ m ∈ shape.members, m.name ∈ seen ∨ ∃ e ∈ entries, e.member.name = m.name

namespace Pending

variable {ρ : Type} {shape : Shape ρ} {seen : List String} {e : Entry ρ}
  {entries : List (Entry ρ)}

theorem tail (h : Pending shape seen (e :: entries)) :
    Pending shape (e.member.name :: seen) entries where
  members := fun e' he' => h.members e' (List.mem_cons_of_mem _ he')
  sound := fun e' he' => h.sound e' (List.mem_cons_of_mem _ he')
  fresh := by
    intro e' he' hseen
    rcases List.mem_cons.mp hseen with heq | hseen
    · exact (List.nodup_cons.mp h.nodup).1 (List.mem_map.mpr ⟨e', he', heq⟩)
    · exact h.fresh e' (List.mem_cons_of_mem _ he') hseen
  nodup := (List.nodup_cons.mp h.nodup).2
  covers := by
    intro m hm
    rcases h.covers m hm with hseen | ⟨e', he', heq⟩
    · exact .inl (List.mem_cons_of_mem _ hseen)
    · rcases List.mem_cons.mp he' with rfl | he'
      · exact .inl (heq ▸ List.mem_cons_self)
      · exact .inr ⟨e', he', heq⟩

/-- When none remains the record has every member. -/
theorem isSatisfiedBy (h : Pending shape seen []) : shape.isSatisfiedBy seen := by
  refine Shape.isSatisfiedBy_of_forall fun m hm => ?_
  rcases h.covers m hm with hseen | ⟨_, hnone, -⟩
  · exact hseen
  · exact absurd hnone List.not_mem_nil

end Pending

section Record

variable {ρ : Type} {shape : Shape ρ} {seen : List String} {e : Entry ρ}
  {entries : List (Entry ρ)} (hunique : (shape.members.map (·.name)).Nodup)
  (hplain : ∀ m ∈ shape.members, (bytes m.name).all isPlain)

include hplain in
theorem tokens_entry (he : e.member ∈ shape.members) (rest : List UInt8) :
    tokens (Entry.text [e] ++ rest) =
      Shape.key e.member.name :: .colon :: tokens (bytes e.value.render ++ rest) := by
  have hkey := tokens_key (hplain _ he) (bytes e.value.render ++ rest)
  rw [Entry.text_singleton, List.append_assoc]
  exact hkey

include hunique hplain

theorem readMembers_of_not_finite {record : ρ} (h : Pending shape seen (e :: entries))
    (hfinite : ¬ e.value.IsFinite) (rest : List UInt8) :
    shape.readMembers seen record (tokens (Entry.text (e :: entries) ++ 125 :: rest)) =
      .error .mismatched := by
  obtain ⟨after, htext, hafter⟩ := Entry.exists_text_eq e entries rest
  have he := h.members e List.mem_cons_self
  have hread := h.sound e List.mem_cons_self record after hafter
  rw [if_neg hfinite] at hread
  rw [htext, tokens_entry hplain he]
  exact Shape.readMembers_of_error (shape.member?_of_mem hunique he)
    (h.fresh e List.mem_cons_self) (eq_error_of_map hread)

/-- The entries that remain are read in order, and the first that is not finite is where it ends. -/
theorem readMembers_entries {record : ρ} (h : Pending shape seen (e :: entries))
    (rest : List UInt8) :
    (shape.readMembers seen record (tokens (Entry.text (e :: entries) ++ 125 :: rest))).map
        Parsed.result =
      if Entry.AllFinite (e :: entries) then .ok (Entry.putAll (e :: entries) record, tokens rest)
      else .error .mismatched := by
  -- Commas stand between entries only, so the induction begins with a single one.
  induction entries generalizing e seen record with
  | nil =>
    by_cases hfinite : e.value.IsFinite
    · have he := h.members e List.mem_cons_self
      have hread := h.sound e List.mem_cons_self record (125 :: rest) (.inr rfl)
      rw [if_pos hfinite, tokens_punctuation rfl (by decide)] at hread
      obtain ⟨_, hparsed⟩ := exists_parsed hread
      rw [if_pos (Entry.allFinite_cons.mpr ⟨hfinite, List.forall_mem_nil _⟩),
        tokens_entry hplain he]
      exact Shape.readMembers_of_last (shape.member?_of_mem hunique he)
        (h.fresh e List.mem_cons_self) hparsed h.tail.isSatisfiedBy
    · rw [readMembers_of_not_finite hunique hplain h hfinite,
        if_neg fun hall => hfinite (Entry.allFinite_cons.mp hall).1]
      rfl
  | cons e' entries ih =>
    by_cases hfinite : e.value.IsFinite
    · have he := h.members e List.mem_cons_self
      have hread := h.sound e List.mem_cons_self record
        (44 :: (Entry.text (e' :: entries) ++ 125 :: rest)) (.inl rfl)
      rw [if_pos hfinite, tokens_punctuation rfl (by decide)] at hread
      obtain ⟨_, hparsed⟩ := exists_parsed hread
      rw [Entry.text_cons_cons, List.append_assoc, List.cons_append, tokens_entry hplain he,
        Shape.readMembers_of_comma (shape.member?_of_mem hunique he)
          (h.fresh e List.mem_cons_self) hparsed, ih h.tail]
      simp only [Entry.allFinite_cons (e := e), hfinite, true_and]
      rfl
    · rw [readMembers_of_not_finite hunique hplain h hfinite,
        if_neg fun hall => hfinite (Entry.allFinite_cons.mp hall).1]
      rfl

/-- A record is read back if its members are. -/
theorem Reads.record {entries : List (Entry ρ)} (hne : entries ≠ [])
    (hmembers : entries.map (·.member) = shape.members) (hsound : ∀ e ∈ entries, e.Sound) :
    Reads shape.read (.record (entries.map Entry.written)) (Entry.putAll entries shape.start) := by
  intro rest _
  have hfinite : (Value.record (entries.map Entry.written)).IsFinite ↔ Entry.AllFinite entries := by
    rw [Value.IsFinite, Value.reals, Value.forall_collect_record_iff, List.forall_mem_map]
    rfl
  cases entries with
  | nil => exact absurd rfl hne
  | cons e entries =>
    have hpending : Pending shape [] (e :: entries) :=
      { members := fun e' he' => hmembers ▸ List.mem_map_of_mem he'
        sound := hsound
        fresh := fun _ _ => List.not_mem_nil
        nodup := by rwa [← hmembers, List.map_map] at hunique
        covers := fun m hm => .inr <| by
          rw [← hmembers] at hm
          obtain ⟨e', he', rfl⟩ := List.mem_map.mp hm
          exact ⟨e', he', rfl⟩ }
    have htext : bytes (Value.record ((e :: entries).map Entry.written)).render ++ rest =
        123 :: (Entry.text (e :: entries) ++ 125 :: rest) := by
      rw [bytes_record, List.append_assoc]
      rfl
    have hkey : ∃ more, tokens (Entry.text (e :: entries) ++ 125 :: rest) =
        Shape.key e.member.name :: more := by
      obtain ⟨after, htail, -⟩ := Entry.exists_text_eq e entries rest
      rw [htail, tokens_entry hplain (hpending.members e List.mem_cons_self)]
      exact ⟨_, rfl⟩
    obtain ⟨more, hkey⟩ := hkey
    rw [htext, tokens_punctuation rfl (by decide), Shape.map_read_object hkey,
      readMembers_entries hunique hplain hpending rest]
    simp only [hfinite]

end Record

/-! ### Parts of a record -/

/-- A part that is read on its own and then put into the record. -/
def Entry.of {ρ β : Type} (name : String) (read : Reader β) (put : ρ → β → ρ) (v : Value)
    (value : β) : Entry ρ :=
  ⟨.of name read put, v, fun record => put record value⟩

theorem Entry.sound_of {ρ β : Type} {read : Reader β} {v : Value} {value : β}
    (h : Reads read v value) (name : String) (put : ρ → β → ρ) :
    (Entry.of name read put v value).Sound := by
  intro record rest hrest
  have hread := h rest hrest
  have hmember : ((Entry.of name read put v value).member.read record
      (tokens (bytes v.render ++ rest))).map Parsed.result =
      ((read (tokens (bytes v.render ++ rest))).map Parsed.result).map
        fun result => (put record result.1, result.2) := by
    simp only [Entry.of, Member.of, bind, Except.bind]
    cases read (tokens (bytes v.render ++ rest)) <;> rfl
  refine hmember.trans ?_
  rw [hread]
  exact apply_ite (Except.map _) _ _ _

end IqBalance.Json
