import FlatRecord.Binary64.Layout
import FlatRecord.Proofs.Json.Agreement
import FlatRecord.Proofs.Moment
import FlatRecord.Store.Cell

/-!
# Cells shown and read back

A cell of the type of its column, shown in a record, becomes the same cell again in a column of that
type (`Cell.coerce?_toJson`). For each type this is the round trip of one way of writing: texts, flags
and values of records are shown as they are, moments by their ISO text, and floating-point numbers by
their text, which has no blanks that reading would take away (`trim_text`).

The other way round, a value of a record becomes null or a cell of the type of its column
(`Cell.typeOf?_of_coerce?`), and unless that is a floating-point number the cell is the same as itself
(`Cell.same_self_of_coerce?`).
-/

namespace FlatRecord

/-! ## Blanks -/

namespace Text

/-- Nothing is taken away from characters of which none is blank. -/
theorem trimBlank_eq_self {cs : List Char} (h : ∀ c ∈ cs, isBlank c = false) : trimBlank cs = cs := by
  have hdrop : ∀ {l : List Char}, (∀ c ∈ l, isBlank c = false) → l.dropWhile isBlank = l := by
    intro l hl
    cases l with
    | nil => rfl
    | cons c rest => rw [List.dropWhile_cons, hl c List.mem_cons_self]; rfl
  rw [trimBlank, hdrop h, hdrop fun c hc => h c (List.mem_reverse.1 hc), List.reverse_reverse]

/-- A text without blanks is not changed by trimming. -/
theorem trim_eq_self {s : String} (h : ∀ c ∈ s.toList, isBlank c = false) : trim s = s := by
  rw [trim, trimBlank_eq_self h, String.ofList_toList]

/-- A digit is not blank. -/
theorem isBlank_eq_false_of_isDigit {c : Char} (h : c.isDigit = true) : isBlank c = false := by
  simp only [Char.isDigit, Bool.and_eq_true, decide_eq_true_eq, ge_iff_le, UInt32.le_iff_toNat_le] at h
  have hlow : 0x30 ≤ c.toNat := h.1
  have hhigh : c.toNat ≤ 0x39 := h.2
  simp only [isBlank, Bool.or_eq_false_iff, Bool.and_eq_false_iff, decide_eq_false_iff_not]
  omega

end Text

namespace Binary64

variable {c : Char}

/-- The characters of digits with a point are digits and a point. -/
theorem isDigit_or_of_mem_positionalText {digits : List Char} {place : Int}
    (hdigits : ∀ c ∈ digits, c.isDigit = true)
    (hc : c ∈ (positionalText plainLayout digits place).toList) : c.isDigit = true ∨ c = '.' := by
  have hzero : ∀ n, c ∈ List.replicate n '0' → c.isDigit = true := by
    intro n hc
    rw [List.eq_of_mem_replicate hc]
    rfl
  unfold positionalText at hc
  split at hc
  · -- The point stands before all digits, behind a zero.
    rw [String.toList_append, List.mem_append] at hc
    rcases hc with hc | hc
    · have hstart : c = '0' ∨ c = '.' := by simpa using hc
      exact hstart.imp_left fun h => by rw [h]; rfl
    · rw [String.toList_ofList, List.mem_append] at hc
      exact .inl (hc.elim (hzero _) (hdigits c))
  · dsimp only at hc
    -- The point stands behind all digits, and is left out.
    split at hc
    · rw [plainLayout, String.append_empty, String.toList_ofList, List.mem_append] at hc
      rcases hc with hc | hc
      · exact .inl (hdigits c (List.mem_of_mem_take hc))
      · exact .inl (hzero _ hc)
    · -- The point stands among the digits.
      rw [String.toList_append, List.mem_append, String.toList_append, List.mem_append] at hc
      rcases hc with (hc | hc) | hc
      · rw [String.toList_ofList] at hc
        exact .inl (hdigits c (List.mem_of_mem_take hc))
      · exact .inr (by simpa using hc)
      · rw [String.toList_ofList] at hc
        exact .inl (hdigits c (List.mem_of_mem_drop hc))

/-- The characters of the plain text of a magnitude are digits and a point. -/
theorem isDigit_or_of_mem_magnitudeText {m : Nat} {e : Int}
    (hc : c ∈ (magnitudeText plainLayout m e).toList) : c.isDigit = true ∨ c = '.' := by
  unfold magnitudeText at hc
  split at hc
  · have hzero : c = '0' := by simpa [plainLayout] using hc
    rw [hzero]
    exact .inl rfl
  · refine isDigit_or_of_mem_positionalText (fun c hc => ?_) hc
    exact Nat.isDigit_of_mem_toDigits (by decide) (by decide) hc

/-- The plain text of a number has no blanks around it. -/
theorem trim_text (x : Binary64) : Text.trim (x.text plainLayout) = x.text plainLayout := by
  cases x with
  | nan => rfl
  | infinite negative => cases negative <;> rfl
  | finite negative m e =>
    refine Text.trim_eq_self fun c hc => ?_
    rw [text, String.toList_append, List.mem_append] at hc
    rcases hc with hc | hc
    · -- The sign is no blank.
      cases negative with
      | false => cases hc
      | true =>
        have hsign : c = '-' := by simpa using hc
        rw [hsign]
        rfl
    · rcases isDigit_or_of_mem_magnitudeText hc with hc | rfl
      · exact Text.isBlank_eq_false_of_isDigit hc
      · rfl

end Binary64

namespace Cell

/-- A cell for a column of the type: null, or a value of the type. Moments have years of four digits and
whole microseconds, no number is not-a-number, and no value of a record is null, for which there is a cell of
its own. -/
def Fits : ColumnType → Cell → Prop
  | _, null => True
  | .text, text _ => True
  | .int, int n => Text.fitsSigned64 n = true
  | .float, float x => x ≠ .nan
  | .bool, bool _ => True
  | .moment, moment m => m.IsValid ∧ m.IsShown
  | .json, json v => v ≠ .null ∧ v.Numeric
  | _, _ => False

variable {type : ColumnType} {cell : Cell} {v : Json}

/-- A cell of a type is the same as itself. -/
theorem Fits.same_self (h : cell.Fits type) : cell.same cell = true := by
  cases cell with
  | null => rfl
  | bool b => exact decide_eq_true rfl
  | int n => exact decide_eq_true rfl
  | float x =>
    cases type <;> first | exact h.elim | exact Binary64.sameNumber_self h
  | text s => exact decide_eq_true rfl
  | moment m => exact decide_eq_true rfl
  | json v =>
    cases type <;> first | exact h.elim | exact Json.agrees_self v h.2

/-- In a column for values of records, a value that is not null is kept. -/
theorem coerce?_json (h : v ≠ .null) : coerce? v .json = some (json v) := by
  cases v <;> first | exact absurd rfl h | rfl

/-- A cell of the type of its column is read back from the record in which it is shown, if the texts of
floating-point numbers are. -/
theorem coerce?_toJson (h : cell.Fits type)
    (hfloat : ∀ x, cell = float x → Binary64.numeral? (x.text Binary64.plainLayout) = some x) :
    coerce? cell.toJson type = some cell := by
  cases cell with
  | null => rfl
  | bool b => cases type <;> first | exact h.elim | rfl
  | int n =>
    -- A number of another type would not fit; this one is within the bounds.
    cases type <;> first | exact h.elim | skip
    have hfits : Text.fitsSigned64 n = true := h
    show ((if Text.fitsSigned64 n then some n else none).map int) = some (int n)
    rw [if_pos hfits]
    rfl
  | float x =>
    cases type <;> first | exact h.elim | skip
    show (Binary64.numeral? (Text.trim (x.text Binary64.plainLayout))).map float = some (float x)
    rw [Binary64.trim_text, hfloat x rfl]
    rfl
  | text s => cases type <;> first | exact h.elim | rfl
  -- The date-time is read back as its text shows all of it.
  | moment m =>
    cases type <;> first | exact h.elim | skip
    show (Moment.read? m.isoText).map moment = some (moment m)
    rw [Moment.read?_isoText h.1 h.2]
    rfl
  | json v =>
    cases type <;> first | exact h.elim | exact coerce?_json h.1

/-! ## What a value becomes -/

/-- The type of a cell that holds a value. -/
def typeOf? : Cell → Option ColumnType
  | null => none
  | bool _ => some .bool
  | int _ => some .int
  | float _ => some .float
  | text _ => some .text
  | moment _ => some .moment
  | json _ => some .json

/-- A text becomes a cell of the type of the column. -/
theorem typeOf?_of_ofText? {s : String} (h : ofText? s type = some cell) :
    cell.typeOf? = some type := by
  cases type with
  | text | json => cases h; rfl
  | int | float | moment =>
    obtain ⟨_, -, rfl⟩ := Option.map_eq_some_iff.1 h
    rfl
  | bool =>
    dsimp only [ofText?] at h
    split at h
    · cases h; rfl
    · split at h
      · cases h; rfl
      · cases h

/-- A number becomes a cell of the type of the column. -/
theorem typeOf?_of_ofNumber? (h : ofNumber? v type = some cell) : cell.typeOf? = some type := by
  cases type with
  | text | json => cases h; rfl
  | int | float =>
    obtain ⟨_, -, rfl⟩ := Option.map_eq_some_iff.1 h
    rfl
  | bool | moment => cases h

/-- A value becomes null or a cell of the type of the column. -/
theorem typeOf?_of_coerce? (h : coerce? v type = some cell) :
    cell = null ∨ cell.typeOf? = some type := by
  cases v with
  | null => exact .inl (Option.some.inj h).symm
  | bool b => cases type <;> cases h <;> exact .inr rfl
  | int n => exact .inr (typeOf?_of_ofNumber? h)
  | float x => exact .inr (typeOf?_of_ofNumber? h)
  | str s => exact .inr (typeOf?_of_ofText? h)
  | arr items | obj fields =>
    dsimp only [coerce?] at h
    split at h
    · rename_i htype
      cases h
      rw [htype]
      exact .inr rfl
    · cases h

/-- What a value becomes is the same as itself, unless it is a floating-point number. -/
theorem same_self_of_coerce? (hv : v.Numeric) (htype : type ≠ .float)
    (h : coerce? v type = some cell) : cell.same cell = true := by
  rcases typeOf?_of_coerce? h with rfl | hcell
  · rfl
  · cases cell with
    | null => cases hcell
    | bool | int | text | moment => exact decide_eq_true rfl
    | float x => exact absurd (Option.some.inj hcell).symm htype
    | json w =>
      obtain rfl : ColumnType.json = type := Option.some.inj hcell
      by_cases hnull : v = .null
      · rw [hnull] at h
        cases h
      · obtain rfl : v = w := Cell.json.inj (Option.some.inj ((coerce?_json hnull).symm.trans h))
        exact Json.agrees_self v hv

end Cell

end FlatRecord
