import FlatRecord.Proofs.Record.Objects

/-!
# The texts of keys

A text writes the names on the way to a field, a position in brackets after each of them but the last. No
name is marked as such, so `q[0].w` is the text of a field in an item of a list as well as that of a field
with this very name. An opening bracket in a name is all that can go wrong: without one the first bracket
of a text ends the first name, the next closing one ends the position, and so on, so that keys with one
text are one key (`Key.text_field_injective`).
-/

namespace FlatRecord

/-- Where two texts are split by the first of some characters, the parts are the same. -/
theorem append_cons_inj_of_notMem_left {α : Type} {a b x y : List α} {c : α} (ha : c ∉ a) (hb : c ∉ b)
    (h : a ++ c :: x = b ++ c :: y) : a = b ∧ x = y := by
  -- If one part were longer, it would contain the character.
  rcases List.append_eq_append_iff.1 h with ⟨d, rfl, hd⟩ | ⟨d, rfl, hd⟩
  · cases d with
    | nil => exact ⟨(List.append_nil a).symm, (List.cons.inj hd).2⟩
    | cons e d =>
      rw [(List.cons.inj hd).1] at hb
      exact absurd (List.mem_append_right a List.mem_cons_self) hb
  · cases d with
    | nil => exact ⟨List.append_nil b, (List.cons.inj hd).2.symm⟩
    | cons e d =>
      rw [(List.cons.inj hd).1] at ha
      exact absurd (List.mem_append_right b List.mem_cons_self) ha

/-- A closing bracket is no digit. -/
theorem bracket_notMem_toString (n : Nat) : ']' ∉ (toString n).toList := by
  intro hmem
  rw [Nat.toString_eq_ofList_toDigits, String.toList_ofList] at hmem
  have hdigit := Nat.isDigit_of_mem_toDigits (by decide) (by decide) hmem
  cases hdigit

/-- Numbers with the same digits are the same. -/
theorem toString_nat_injective {n m : Nat} (h : (toString n).toList = (toString m).toList) :
    n = m := by
  rw [Nat.toString_eq_ofList_toDigits, Nat.toString_eq_ofList_toDigits, String.toList_ofList,
    String.toList_ofList] at h
  calc n = Nat.ofDigitChars 10 (Nat.toDigits 10 n) 0 := Nat.ofDigitChars_ten_toDigits.symm
    _ = Nat.ofDigitChars 10 (Nat.toDigits 10 m) 0 := by rw [h]
    _ = m := Nat.ofDigitChars_ten_toDigits

namespace Key

/-- No field on the way has an opening bracket in its name. -/
def Bracketless (k : Key) : Prop := ∀ name, .field name ∈ k.segments → '[' ∉ name.toList

section Text

variable {p q : ItemPath} {list list' name name' : String} {position position' : Nat}

/-- A text starts with the first name. -/
theorem text_of_segments_eq {k : Key} {rest : List Segment} (h : k.segments = .field name :: rest) :
    k.text = name ++ textAfter rest := by
  unfold text
  rw [h]
  rfl

/-- The text of a field of the record is its name. -/
theorem text_field_nil : ((ItemPath.key []).field name).text = name := String.append_empty

/-- The text of a field in an item of a list. -/
theorem text_field_cons : ((ItemPath.key ((list, position) :: p)).field name).text =
    list ++ ("[" ++ toString position ++ "]" ++ ("." ++ (p.key.field name).text)) := by
  -- Behind an item comes the name of a field, which is written with a point.
  have hrest : textAfter (ItemPath.segments p ++ [.field name]) = "." ++ (p.key.field name).text := by
    cases p with
    | nil => exact String.append_assoc ..
    | cons step p => exact String.append_assoc ..
  have hsegments : ((ItemPath.key ((list, position) :: p)).field name).segments =
      .field list :: .index position :: (ItemPath.segments p ++ [.field name]) := rfl
  rw [text_of_segments_eq hsegments, textAfter, hrest]

/-- The key of a field below a list has no bracket if the list has none and the rest of the key has none. -/
theorem bracketless_field_cons_iff :
    ((ItemPath.key ((list, position) :: p)).field name).Bracketless ↔
      '[' ∉ list.toList ∧ (p.key.field name).Bracketless := by
  unfold Bracketless
  show (∀ n, Segment.field n ∈ Segment.field list :: Segment.index position ::
    (ItemPath.segments p ++ [.field name]) → _) ↔ _
  simp [field, push, ItemPath.key]

/-- The key of a field of the record has no bracket if its name has none. -/
theorem bracketless_field_nil_iff :
    ((ItemPath.key []).field name).Bracketless ↔ '[' ∉ name.toList := by
  simp [Bracketless, field, push, ItemPath.key]

/-- A field in an item has a bracket in its text. -/
theorem text_field_cons_ne (h : '[' ∉ name'.toList) :
    ((ItemPath.key ((list, position) :: p)).field name).text ≠ name' := by
  rintro rfl
  rw [text_field_cons] at h
  simp at h

/-- The text of a field in an item tells the list, the position and the text of the rest, if the names of
the lists have no opening bracket. -/
theorem text_field_cons_inj (h : '[' ∉ list.toList) (h' : '[' ∉ list'.toList)
    (htext : ((ItemPath.key ((list, position) :: p)).field name).text =
      ((ItemPath.key ((list', position') :: q)).field name').text) :
    list = list' ∧ position = position' ∧ (p.key.field name).text = (q.key.field name').text := by
  have hchars := congrArg String.toList htext
  rw [text_field_cons, text_field_cons] at hchars
  simp only [String.toList_append, String.reduceToList, List.cons_append, List.nil_append,
    List.append_assoc] at hchars
  -- The first opening bracket ends the name of the list, and the next closing one the position.
  obtain ⟨hlist, hchars⟩ := append_cons_inj_of_notMem_left h h' hchars
  obtain ⟨hdigits, hchars⟩ := append_cons_inj_of_notMem_left (bracket_notMem_toString position)
    (bracket_notMem_toString position') hchars
  exact ⟨String.toList_inj.1 hlist, toString_nat_injective hdigits,
    String.toList_inj.1 (List.cons.inj hchars).2⟩

/-- Two fields with one text are one field, if no name on the way to them has an opening bracket. -/
theorem text_field_injective (hp : (p.key.field name).Bracketless)
    (hq : (q.key.field name').Bracketless) (h : (p.key.field name).text = (q.key.field name').text) :
    p.key.field name = q.key.field name' := by
  rw [ItemPath.key_field_inj]
  induction p generalizing q with
  -- The text without a bracket is that of a field of the record, and no other text is without one.
  | nil =>
    rw [bracketless_field_nil_iff] at hp
    rw [text_field_nil] at h
    cases q with
    | nil => exact ⟨rfl, h.trans text_field_nil⟩
    | cons step q => exact absurd h.symm (text_field_cons_ne hp)
  -- The brackets split both texts alike, and the rests are compared.
  | cons step p ih =>
    obtain ⟨hlist, hp⟩ := bracketless_field_cons_iff.1 hp
    cases q with
    | nil =>
      rw [bracketless_field_nil_iff] at hq
      rw [text_field_nil] at h
      exact absurd h (text_field_cons_ne hq)
    | cons step' q =>
      obtain ⟨hlist', hq⟩ := bracketless_field_cons_iff.1 hq
      obtain ⟨hname, hposition, htext⟩ := text_field_cons_inj hlist hlist' h
      obtain ⟨hpath, hfield⟩ := ih hp hq htext
      exact ⟨by rw [Prod.ext hname hposition, hpath], hfield⟩

end Text

end Key

end FlatRecord
