import FlatRecord.Proofs.Moment
import Mathlib.Data.List.DropRight
import Mathlib.Data.List.Forall2

/-!
# The grammar of dates

The texts from which a date is read, described without the reader. A text is *separated* into pieces when
a separator, characters of which none is a digit in any script, stands between any two of them
(`Separated`). The pieces of a date are its numbers from the year on: three, four or five numbers in ASCII
digits, or five and then the seconds, which have a form of their own (`Pieces`). A date is read from a text
just when the text is separated into its pieces and the calendar has it (`Moment.read?_exact`).

A text can be separated in many ways, also inside a piece. `SplitsInto` singles out the one that the reader
takes: a piece ends where its digits do, and all that follows the last separator that counts is one piece.
Every text is split in this way (`splitsInto_pieces`), in no other (`pieces_of_separated`), and the pieces of
a date are always such pieces (`Pieces.splitsInto`). So nothing that is read depends on the separators.
-/

namespace FlatRecord.Moment

variable {cs : List Char} {parts : List (List Char)} {n : Nat} {m : Moment}

/-! ## Separators -/

/-- One character or more of which none is a digit in any script. -/
def IsSeparator (cs : List Char) : Prop := cs ≠ [] ∧ ∀ c ∈ cs, Text.isDecimalDigit c = false

/-- The text is the pieces, with a separator between any two of them. -/
inductive Separated : List (List Char) → List Char → Prop where
  /-- One piece is a text of its own. -/
  | single (piece : List Char) : Separated [piece] piece
  /-- A piece, a separator and the other pieces. -/
  | cons (piece : List Char) {sep : List Char} {parts : List (List Char)} {cs : List Char}
    (hsep : IsSeparator sep) (h : Separated parts cs) : Separated (piece :: parts) (piece ++ (sep ++ cs))

/-- The first character is a digit of some script. -/
def StartsWithDigit (cs : List Char) : Prop := ∃ c ∈ cs.head?, Text.isDecimalDigit c = true

/-- The pieces of a text that is split up to `n` times. -/
inductive SplitsInto : Nat → List (List Char) → Prop where
  /-- The last piece. It has digits only, unless there are as many splits as there may be. -/
  | last {n : Nat} {piece : List Char} (h : n = 0 ∨ ∀ c ∈ piece, Text.isDecimalDigit c = true) :
    SplitsInto n [piece]
  /-- A piece in front of others has digits only. The next one starts with a digit, or it is empty and the
  last one. -/
  | cons {n : Nat} {piece : List Char} {parts : List (List Char)}
    (hdigits : ∀ c ∈ piece, Text.isDecimalDigit c = true)
    (hnext : parts = [[]] ∨ ∃ next ∈ parts.head?, StartsWithDigit next) (h : SplitsInto n parts) :
    SplitsInto (n + 1) (piece :: parts)

/-- The pieces that the reader takes separate the text. -/
theorem separated_pieces (n : Nat) (cs : List Char) : Separated (pieces n cs) cs := by
  induction n generalizing cs with
  | zero => exact .single cs
  | succ n ih =>
    unfold pieces
    dsimp only
    by_cases hrest : (cs.dropWhile Text.isDecimalDigit).isEmpty = true
    · -- Nothing follows the digits, so the text is one piece.
      rw [if_pos hrest]
      exact .single cs
    · rw [if_neg hrest]
      generalize hd : cs.dropWhile Text.isDecimalDigit = rest at hrest
      have hsep : IsSeparator (rest.takeWhile fun c => !Text.isDecimalDigit c) := by
        refine ⟨?_, fun c hc => by simpa using List.mem_takeWhile_imp hc⟩
        -- What the digits leave starts with a character that is no digit.
        cases rest with
        | nil => exact absurd rfl hrest
        | cons c rest =>
          have hc := List.head?_dropWhile_not Text.isDecimalDigit cs
          rw [hd] at hc
          have hc : Text.isDecimalDigit c = false := by simpa using hc
          simp [hc]
      have hcs : cs.takeWhile Text.isDecimalDigit ++ ((rest.takeWhile fun c => !Text.isDecimalDigit c) ++
          rest.dropWhile fun c => !Text.isDecimalDigit c) = cs := by
        rw [List.takeWhile_append_dropWhile, ← hd, List.takeWhile_append_dropWhile]
      -- The rest behind the separator is separated by induction.
      have hseparated := Separated.cons (cs.takeWhile Text.isDecimalDigit) hsep
        (ih (rest.dropWhile fun c => !Text.isDecimalDigit c))
      rwa [hcs] at hseparated

/-- The first piece starts with a digit if the text does. -/
theorem exists_head?_pieces {c : Char} (hc : Text.isDecimalDigit c = true) (n : Nat) (cs : List Char) :
    ∃ next ∈ (pieces n (c :: cs)).head?, StartsWithDigit next := by
  have hwhole : StartsWithDigit (c :: cs) := ⟨c, rfl, hc⟩
  cases n with
  | zero => exact ⟨_, rfl, hwhole⟩
  | succ n =>
    unfold pieces
    dsimp only
    split
    · exact ⟨_, rfl, hwhole⟩
    · refine ⟨_, rfl, c, ?_, hc⟩
      simp [hc]

/-- Any text is split into pieces. -/
theorem splitsInto_pieces (n : Nat) (cs : List Char) : SplitsInto n (pieces n cs) := by
  induction n generalizing cs with
  | zero => exact .last (.inl rfl)
  | succ n ih =>
    unfold pieces
    dsimp only
    split
    · -- Digits alone are the last piece.
      rename_i hrest
      exact .last (.inr (List.dropWhile_eq_nil_iff.1 (List.isEmpty_iff.1 hrest)))
    · refine .cons (fun c hc => List.mem_takeWhile_imp hc) ?_ (ih _)
      generalize hd : (cs.dropWhile Text.isDecimalDigit).dropWhile (fun c => !Text.isDecimalDigit c) = next
      cases next with
      -- Behind the last separator there is nothing more.
      | nil =>
        left
        cases n <;> rfl
      | cons c next =>
        have hc := List.head?_dropWhile_not (fun c => !Text.isDecimalDigit c)
          (cs.dropWhile Text.isDecimalDigit)
        rw [hd] at hc
        exact .inr (exists_head?_pieces (by simpa using hc) n next)

/-- A text that is split up to `n` times has at most one piece more. -/
theorem SplitsInto.length_le (h : SplitsInto n parts) : parts.length ≤ n + 1 := by
  induction h with
  | last => simp
  | cons _ _ _ ih => exact Nat.succ_le_succ ih

/-- A text is separated into one piece at least. -/
theorem Separated.ne_nil (h : Separated parts cs) : parts ≠ [] := by
  cases h <;> exact List.cons_ne_nil _ _

/-- One piece is the whole text. -/
theorem Separated.eq_of_singleton {piece : List Char} (h : Separated [piece] cs) : cs = piece := by
  cases h with
  | single => rfl
  | cons piece hsep h => exact absurd rfl h.ne_nil

/-- A text starts as its first piece does, if that is not empty. -/
theorem Separated.startsWithDigit (h : Separated parts cs)
    (hfirst : ∃ piece ∈ parts.head?, StartsWithDigit piece) : StartsWithDigit cs := by
  obtain ⟨first, hfirst, c, hc, hdigit⟩ := hfirst
  cases h with
  | single piece =>
    cases hfirst
    exact ⟨c, hc, hdigit⟩
  | cons piece hsep h =>
    cases hfirst
    exact ⟨c, by rw [List.head?_append, Option.mem_def.1 hc]; rfl, hdigit⟩

/-- One step of the splitting: the digits in front, and the pieces of what is behind the separator. -/
theorem pieces_separator {piece sep : List Char} (hpiece : ∀ c ∈ piece, Text.isDecimalDigit c = true)
    (hsep : IsSeparator sep) (hcs : cs = [] ∨ StartsWithDigit cs) :
    pieces (n + 1) (piece ++ (sep ++ cs)) = piece :: pieces n cs := by
  obtain ⟨hne, hnodigit⟩ := hsep
  obtain ⟨s, sep, rfl⟩ := List.exists_cons_of_ne_nil hne
  have hs : Text.isDecimalDigit s = false := hnodigit s List.mem_cons_self
  have htake : (piece ++ (s :: sep ++ cs)).takeWhile Text.isDecimalDigit = piece := by
    rw [List.takeWhile_append_of_pos hpiece]
    simp [hs]
  have hdrop : (piece ++ (s :: sep ++ cs)).dropWhile Text.isDecimalDigit = s :: sep ++ cs := by
    rw [List.dropWhile_append_of_pos hpiece]
    simp [hs]
  have hnext : (s :: sep ++ cs).dropWhile (fun d => !Text.isDecimalDigit d) = cs := by
    rw [List.dropWhile_append_of_pos fun d hd => by simp [hnodigit d hd]]
    rcases hcs with rfl | ⟨c, hc, hdigit⟩
    · rfl
    · obtain ⟨cs, rfl⟩ := List.head?_eq_some_iff.1 hc
      simp [hdigit]
  rw [pieces, htake, hdrop, hnext]
  rfl

/-- The reader takes the pieces into which the text is separated. -/
theorem pieces_of_separated (hsplits : SplitsInto n parts) (h : Separated parts cs) :
    pieces n cs = parts := by
  induction hsplits generalizing cs with
  | @last n piece hdigits =>
    rw [h.eq_of_singleton]
    cases n with
    | zero => rfl
    | succ n =>
      have hdrop : piece.dropWhile Text.isDecimalDigit = [] :=
        List.dropWhile_eq_nil_iff.2 (hdigits.resolve_left (Nat.succ_ne_zero n))
      simp [pieces, hdrop]
  | cons hdigits hnext hsplits ih =>
    cases h with
    | single => cases hsplits
    | cons piece hsep h =>
      -- What follows the separator is empty or starts with the next piece.
      have hstart := hnext.imp (fun he => (he ▸ h).eq_of_singleton) h.startsWithDigit
      rw [pieces_separator hdigits hsep hstart, ih h]

/-! ## Numbers -/

/-- Some ASCII digits that write the number. -/
def Digits (cs : List Char) (n : Nat) : Prop :=
  cs ≠ [] ∧ (∀ c ∈ cs, c.isDigit = true) ∧ Nat.ofDigitChars 10 cs 0 = n

/-- Some ASCII digits that write a number of 32 bits. -/
def Number (cs : List Char) (n : Nat) : Prop := Digits cs n ∧ n ≤ 0xFFFFFFFF

/-- A number has no more digits than it is written with. -/
theorem Digits.lt (h : Digits cs n) : n < Nat.pow 10 cs.length := by
  obtain ⟨-, hdigits, rfl⟩ := h
  induction cs using List.reverseRecOn with
  | nil => exact Nat.one_pos
  | append_singleton cs c ih =>
    -- The induction is from the end, where the last digit counts once and the digits before it ten times.
    have hfront := ih fun d hd => hdigits d (List.mem_append_left [c] hd)
    have hlast : c.toNat - '0'.toNat < 10 := by
      have hc : c.isDigit = true := hdigits c (List.mem_append_right cs List.mem_cons_self)
      simp only [Char.isDigit, Bool.and_eq_true, decide_eq_true_eq, ge_iff_le,
        UInt32.le_iff_toNat_le] at hc
      exact Nat.lt_succ_of_le (Nat.sub_le_of_le_add hc.2)
    have hplaces : Nat.pow 10 (cs ++ [c]).length = Nat.pow 10 cs.length * 10 := by
      rw [List.length_append, List.length_singleton]
      rfl
    rw [hplaces, Nat.ofDigitChars_append, Nat.ofDigitChars_cons, Nat.ofDigitChars_nil]
    omega

/-- Two digits of seconds, and a point with six digits of microseconds or nothing. -/
inductive Seconds : List Char → Nat → Nat → Prop where
  /-- Whole seconds. -/
  | whole {cs second} (h : Digits cs second) (hlength : cs.length = 2) : Seconds cs second 0
  /-- Seconds with microseconds. -/
  | fraction {cs ds second micros} (h : Digits cs second) (hlength : cs.length = 2)
    (hmicros : Digits ds micros) (hplaces : ds.length = 6) : Seconds (cs ++ '.' :: ds) second micros

/-- A number is read from the digits that write it, and from nothing else. -/
theorem natural?_eq_some_iff : Text.natural? cs = some n ↔ Digits cs n := by
  unfold Text.natural? Digits
  by_cases hempty : cs = []
  · simp [hempty]
  · by_cases hall : cs.all Char.isDigit = true
    · have hdigits : ∀ c ∈ cs, c.isDigit = true := List.all_eq_true.1 hall
      have hvalue : Text.digitsValue cs = Nat.ofDigitChars 10 cs 0 := rfl
      simpa [hempty, hall, hvalue] using fun _ => hdigits
    · have hdigits : ¬ ∀ c ∈ cs, c.isDigit = true := fun h => hall (List.all_eq_true.2 h)
      simp [hempty, hall, hdigits]

/-- The seconds that were read have their form. -/
theorem seconds_of_seconds? {second micros : Nat} (h : seconds? cs = some (second, micros)) :
    Seconds cs second micros := by
  have hcs := List.take_append_drop 2 cs
  unfold seconds? at h
  rw [List.splitAt_eq] at h
  split at h
  · -- Nothing follows the first two characters.
    rename_i front hsplit
    obtain ⟨rfl, hdrop⟩ := Prod.mk.inj hsplit
    rw [hdrop, List.append_nil] at hcs
    split at h
    · rename_i hlength
      obtain ⟨n, hn, he⟩ := Option.map_eq_some_iff.1 h
      obtain ⟨rfl, rfl⟩ := Prod.mk.inj he
      rw [← hcs]
      exact .whole (natural?_eq_some_iff.1 hn) hlength
    · cases h
  · -- A point follows, so there are two characters in front of it.
    rename_i front back hsplit
    obtain ⟨rfl, hdrop⟩ := Prod.mk.inj hsplit
    have hlength : (cs.take 2).length = 2 := by
      have hpos : 0 < (cs.drop 2).length := by
        rw [hdrop]
        exact Nat.succ_pos _
      rw [List.length_drop] at hpos
      exact List.length_take_of_le (by omega)
    -- The places behind the point are six, and both parts are numbers.
    split at h
    · rename_i hplaces
      split at h
      · rename_i s u hs hu
        cases h
        rw [← hcs, hdrop]
        exact .fraction (natural?_eq_some_iff.1 hs) hlength (natural?_eq_some_iff.1 hu) hplaces
      · cases h
    · cases h
  · cases h

/-- Seconds are read from the pieces that have their form. -/
theorem seconds?_eq_some_iff {second micros : Nat} :
    seconds? cs = some (second, micros) ↔ Seconds cs second micros := by
  refine ⟨seconds_of_seconds?, fun h => ?_⟩
  unfold seconds?
  rw [List.splitAt_eq]
  cases h with
  -- Two characters are all, so nothing is left for a fraction.
  | whole h hlength =>
    rw [List.take_of_length_le (Nat.le_of_eq hlength), List.drop_of_length_le (Nat.le_of_eq hlength)]
    simp [hlength, natural?_eq_some_iff.2 h]
  -- The first two characters are the seconds, and a point follows.
  | fraction h hlength hmicros hplaces =>
    rw [List.take_left' hlength, List.drop_left' hlength]
    simp [hplaces, natural?_eq_some_iff.2 h, natural?_eq_some_iff.2 hmicros]

/-- A second has less than a million microseconds. -/
theorem Seconds.micros_lt {second micros : Nat} (h : Seconds cs second micros) : micros < 1000000 := by
  cases h with
  | whole h hlength => decide
  | fraction h hlength hmicros hplaces =>
    have hlt := hmicros.lt
    rwa [hplaces] at hlt

/-- The pieces of a date. What is left out is zero. -/
inductive Pieces : List (List Char) → Moment → Prop where
  /-- Year, month and day. -/
  | day {parts year month day} (h : List.Forall₂ Number parts [year, month, day]) :
    Pieces parts ⟨year, month, day, 0, 0, 0, 0⟩
  /-- The hour as well. -/
  | hour {parts year month day hour} (h : List.Forall₂ Number parts [year, month, day, hour]) :
    Pieces parts ⟨year, month, day, hour, 0, 0, 0⟩
  /-- The minute as well. -/
  | minute {parts year month day hour minute}
    (h : List.Forall₂ Number parts [year, month, day, hour, minute]) :
    Pieces parts ⟨year, month, day, hour, minute, 0, 0⟩
  /-- The seconds as well. -/
  | second {parts rest year month day hour minute second micros}
    (h : List.Forall₂ Number parts [year, month, day, hour, minute])
    (hrest : Seconds rest second micros) :
    Pieces (parts ++ [rest]) ⟨year, month, day, hour, minute, second, 1000 * micros⟩

/-- Some numbers are read if each piece writes its number. -/
theorem mapM_natural?_eq_some_iff {ns : List Nat} :
    parts.mapM Text.natural? = some ns ↔ List.Forall₂ Digits parts ns := by
  induction parts generalizing ns with
  | nil => simp [eq_comm]
  | cons piece parts ih =>
    rw [List.mapM_cons]
    constructor
    · -- The first piece is read, and then the others.
      intro h
      obtain ⟨k, hk, h⟩ := Option.bind_eq_some_iff.1 h
      obtain ⟨ks, hks, h⟩ := Option.bind_eq_some_iff.1 h
      cases h
      exact .cons (natural?_eq_some_iff.1 hk) (ih.1 hks)
    · rintro (_ | ⟨hk, hks⟩)
      rw [natural?_eq_some_iff.2 hk, ih.2 hks]
      rfl

/-- The seconds of a date, in the last piece if it is there and zero if it is not. -/
def LastPiece (last : Option (List Char)) (second micros : Nat) : Prop :=
  last.elim (second = 0 ∧ micros = 0) fun cs => Seconds cs second micros

/-- The reader takes the seconds from the last piece. -/
theorem elim_seconds?_eq_some_iff {last : Option (List Char)} {second micros : Nat} :
    last.elim (some (0, 0)) seconds? = some (second, micros) ↔ LastPiece last second micros := by
  cases last with
  | none => simp [LastPiece, eq_comm]
  | some rest => exact seconds?_eq_some_iff

/-- The last piece has less than a million microseconds. -/
theorem LastPiece.micros_lt {last : Option (List Char)} {second micros : Nat}
    (h : LastPiece last second micros) : micros < 1000000 := by
  cases last with
  | none =>
    obtain ⟨-, rfl⟩ := h
    decide
  | some rest => exact Seconds.micros_lt h

/-- Reading, in the terms of the grammar. -/
theorem read?_eq_some_iff {s : String} : read? s = some m ↔ ∃ year month day time second micros,
    List.Forall₂ Digits ((pieces 5 s.toList).take 5) (year :: month :: day :: time) ∧
    LastPiece (pieces 5 s.toList)[5]? second micros ∧
    m = ⟨year, month, day, time.getD 0 0, time.getD 1 0, second, 1000 * micros⟩ ∧ m.IsValid := by
  constructor
  · intro h
    obtain ⟨numbers, hnumbers, h⟩ := Option.bind_eq_some_iff.1 h
    dsimp only at h
    -- The last piece may be missing; in both cases the numbers and the calendar are tested behind it.
    split at h <;>
    · rename_i hrest
      obtain ⟨⟨second, micros⟩, htime, h⟩ := Option.bind_eq_some_iff.1 h
      have hlast : LastPiece (pieces 5 s.toList)[5]? second micros := by
        rw [← elim_seconds?_eq_some_iff, hrest]
        exact htime
      dsimp only at h
      split at h
      · split at h
        · rename_i hvalid
          cases h
          exact ⟨_, _, _, _, second, micros, mapM_natural?_eq_some_iff.1 hnumbers, hlast, rfl, hvalid⟩
        · cases h
      · cases h
  · rintro ⟨year, month, day, time, second, micros, hnumbers, hlast, rfl, hvalid⟩
    rw [← elim_seconds?_eq_some_iff] at hlast
    unfold read?
    dsimp only
    rw [mapM_natural?_eq_some_iff.2 hnumbers, Option.bind_eq_bind, Option.bind_some]
    split
    · -- There is a last piece, and its seconds are read.
      rename_i rest hrest
      rw [hrest] at hlast
      rw [show seconds? rest = some (second, micros) from hlast]
      exact if_pos hvalid
    · -- There is none, and the seconds are zero.
      rename_i hrest
      rw [hrest] at hlast
      cases hlast
      exact if_pos hvalid

/-- What is read is a moment of the calendar. -/
theorem isValid_of_read? {s : String} (h : read? s = some m) : m.IsValid := by
  obtain ⟨_, _, _, _, _, _, -, -, -, hvalid⟩ := read?_eq_some_iff.1 h
  exact hvalid

/-- What is read is shown by its ISO text, up to the year 9999. -/
theorem isShown_of_read? {s : String} (h : read? s = some m) (hyear : m.year ≤ 9999) : m.IsShown := by
  obtain ⟨year, month, day, time, second, micros, -, hlast, rfl, -⟩ := read?_eq_some_iff.1 h
  have hmicros : micros < 1000000 := hlast.micros_lt
  constructor
  case year_nonneg => exact Int.natCast_nonneg year
  case year_le => exact hyear
  case nanos_lt => exact Nat.mul_lt_mul_of_pos_left hmicros (by decide)
  case nanos_mod => exact Nat.mul_mod_right 1000 micros

/-- The digits of a number are decimal digits. -/
theorem Digits.isDecimalDigit (h : Digits cs n) : ∀ c ∈ cs, Text.isDecimalDigit c = true :=
  fun c hc => Text.isDecimalDigit_of_isDigit (h.2.1 c hc)

/-- A number starts with a digit. -/
theorem Digits.startsWithDigit (h : Digits cs n) : StartsWithDigit cs := by
  obtain ⟨c, ds, rfl⟩ := List.exists_cons_of_ne_nil h.1
  exact ⟨c, rfl, h.isDecimalDigit c List.mem_cons_self⟩

/-- The seconds start with a digit. -/
theorem Seconds.startsWithDigit {second micros : Nat} (h : Seconds cs second micros) :
    StartsWithDigit cs := by
  cases h with
  | whole h => exact h.startsWithDigit
  | fraction h =>
    obtain ⟨c, hc, hdigit⟩ := h.startsWithDigit
    exact ⟨c, by rw [List.head?_append, Option.mem_def.1 hc]; rfl, hdigit⟩

/-- A text is split behind each number in front of a last piece that starts with a digit. The last piece may
have other characters if there are as many splits as there may be. -/
theorem splitsInto_append {ns : List Nat} {last : List Char} (hparts : List.Forall₂ Digits parts ns)
    (hlength : ns.length ≤ n) (hlast : StartsWithDigit last)
    (h : ns.length = n ∨ ∀ c ∈ last, Text.isDecimalDigit c = true) : SplitsInto n (parts ++ [last]) := by
  induction hparts generalizing n with
  -- A last piece with other characters must be the last that may be split off.
  | nil => exact .last (h.imp Eq.symm id)
  | @cons piece k parts ns hpiece hparts ih =>
    rw [List.length_cons] at hlength
    obtain ⟨n, rfl⟩ : ∃ n', n = n' + 1 := ⟨n - 1, by omega⟩
    refine .cons hpiece.isDecimalDigit (.inr ?_)
      (ih (Nat.le_of_succ_le_succ hlength) (h.imp_left Nat.succ.inj))
    -- What follows the separator starts with a digit, be it the last piece or another number.
    cases hparts with
    | nil => exact ⟨last, rfl, hlast⟩
    | cons hnext => exact ⟨_, rfl, hnext.startsWithDigit⟩

/-- A text is split behind each of its numbers but the last one. -/
theorem splitsInto_of_digits {ns : List Nat} (hparts : List.Forall₂ Digits parts ns) (hne : ns ≠ [])
    (hlength : ns.length ≤ n + 1) : SplitsInto n parts := by
  obtain ⟨front, k, rfl⟩ := (List.eq_nil_or_concat' ns).resolve_left hne
  have hfront := List.forall₂_take_append parts front [k] hparts
  have hdrop := List.forall₂_drop_append parts front [k] hparts
  rw [← List.take_append_drop front.length parts]
  generalize parts.drop front.length = back at hdrop
  obtain ⟨_ | _⟩ := hdrop
  rename_i last hlast hnil
  cases hnil
  exact splitsInto_append hfront (by simpa using hlength) hlast.startsWithDigit (.inr hlast.isDecimalDigit)

/-- The pieces of a date are those into which its text is split. -/
theorem Pieces.splitsInto (h : Pieces parts m) : SplitsInto 5 parts := by
  have hdigits : ∀ {parts ns}, List.Forall₂ Number parts ns → List.Forall₂ Digits parts ns :=
    fun h => h.imp fun _ _ h => h.1
  cases h with
  | day h => exact splitsInto_of_digits (hdigits h) (List.cons_ne_nil _ _) (by simp)
  | hour h => exact splitsInto_of_digits (hdigits h) (List.cons_ne_nil _ _) (by simp)
  | minute h => exact splitsInto_of_digits (hdigits h) (List.cons_ne_nil _ _) (by simp)
  | second h hrest => exact splitsInto_append (hdigits h) (by simp) hrest.startsWithDigit (.inl rfl)

/-! ## The pieces of a date -/

/-- The year, the month and the day of a date of the calendar are small. -/
theorem IsValid.le (h : m.IsValid) : m.year ≤ 262142 ∧ m.month ≤ 12 ∧ m.day ≤ 31 := by
  obtain ⟨-, hyear, hpos, hday, -⟩ := h
  have hmonth : 0 < daysInMonth m.year m.month := Nat.lt_of_lt_of_le hpos hday
  have hbound : daysInMonth m.year m.month ≤ 31 ∧ m.month ≤ 12 := by
    unfold daysInMonth at hmonth ⊢
    simp only [List.mem_cons, List.not_mem_nil, or_false] at hmonth ⊢
    split_ifs at hmonth ⊢ <;> omega
  exact ⟨hyear, hbound.2, Nat.le_trans hday hbound.1⟩

/-- The numbers of a date of the calendar have 32 bits. -/
theorem IsValid.le_of_mem {year month day second micros : Nat} {time : List Nat}
    (h : IsValid ⟨year, month, day, time.getD 0 0, time.getD 1 0, second, micros⟩) (htime : time.length ≤ 2) :
    ∀ n ∈ year :: month :: day :: time, n ≤ 0xFFFFFFFF := by
  obtain ⟨hyear, hmonth, hday⟩ := h.le
  obtain ⟨-, -, -, -, hhour, hminute, -⟩ := h
  dsimp only at hyear hmonth hday hhour hminute
  intro n hn
  -- There are at most an hour and a minute, which the calendar bounds.
  match time with
  | [] =>
    simp only [List.mem_cons, List.not_mem_nil, or_false] at hn
    omega
  | [hour] =>
    change hour < 24 at hhour
    simp only [List.mem_cons, List.not_mem_nil, or_false] at hn
    omega
  | [hour, minute] =>
    change hour < 24 at hhour
    change minute < 60 at hminute
    simp only [List.mem_cons, List.not_mem_nil, or_false] at hn
    omega
  | _ :: _ :: _ :: _ => simp at htime

/-- Digits that write small numbers write numbers of 32 bits. -/
theorem forall₂_number {ns : List Nat} (h : List.Forall₂ Digits parts ns)
    (hle : ∀ n ∈ ns, n ≤ 0xFFFFFFFF) : List.Forall₂ Number parts ns := by
  induction h with
  | nil => exact .nil
  | cons hpiece hparts ih =>
    exact .cons ⟨hpiece, hle _ List.mem_cons_self⟩ (ih fun n hn => hle n (List.mem_cons_of_mem _ hn))

/-- Numbers of 32 bits are written in digits. -/
theorem forall₂_digits {ns : List Nat} (h : List.Forall₂ Number parts ns) : List.Forall₂ Digits parts ns :=
  h.imp fun _ _ h => h.1

/-- Up to five numbers are the pieces of a date without seconds. -/
theorem pieces_of_numbers {year month day : Nat} {time : List Nat}
    (h : List.Forall₂ Number parts (year :: month :: day :: time)) (htime : time.length ≤ 2) :
    Pieces parts ⟨year, month, day, time.getD 0 0, time.getD 1 0, 0, 0⟩ := by
  match time with
  | [] => exact .day h
  | [hour] => exact .hour h
  | [hour, minute] => exact .minute h
  | _ :: _ :: _ :: _ => simp at htime

/-- The pieces that were read are those of the date. -/
theorem pieces_of_read? {s : String} (h : read? s = some m) : Pieces (pieces 5 s.toList) m := by
  obtain ⟨year, month, day, time, second, micros, hdigits, hlast, rfl, hvalid⟩ := read?_eq_some_iff.1 h
  have hlength := (splitsInto_pieces 5 s.toList).length_le
  generalize pieces 5 s.toList = parts at hdigits hlast hlength
  have hcount : min 5 parts.length = time.length + 3 := by
    rw [← List.length_take]
    exact hdigits.length_eq
  have hnumbers := forall₂_number hdigits (hvalid.le_of_mem (by omega))
  -- With five pieces at most there are no seconds.
  cases hrest : parts[5]? with
  | none =>
    rw [hrest] at hlast
    obtain ⟨rfl, rfl⟩ := hlast
    rw [List.take_of_length_le (List.getElem?_eq_none_iff.1 hrest)] at hnumbers
    exact pieces_of_numbers hnumbers (by omega)
  | some rest =>
    rw [hrest] at hlast
    obtain ⟨hlt, hget⟩ := List.getElem?_eq_some_iff.1 hrest
    have hparts : parts = parts.take 5 ++ [rest] := by
      rw [← hget, List.take_append_getElem hlt, List.take_of_length_le hlength]
    -- With seconds there are five numbers in front of them.
    obtain ⟨hour, minute, rfl⟩ := List.length_eq_two.1 (by omega : time.length = 2)
    rw [hparts]
    exact .second hnumbers hlast

/-- A date without seconds is read from its numbers. -/
theorem read?_of_numbers {s : String} {year month day : Nat} (time : List Nat)
    (h : List.Forall₂ Number (pieces 5 s.toList) (year :: month :: day :: time)) (htime : time.length ≤ 2)
    (hvalid : IsValid ⟨year, month, day, time.getD 0 0, time.getD 1 0, 0, 0⟩) :
    read? s = some ⟨year, month, day, time.getD 0 0, time.getD 1 0, 0, 0⟩ := by
  have hlength : (pieces 5 s.toList).length ≤ 5 := by
    rw [h.length_eq]
    exact Nat.add_le_add_right htime 3
  refine read?_eq_some_iff.2 ⟨year, month, day, time, 0, 0, ?_, ?_, rfl, hvalid⟩
  · rw [List.take_of_length_le hlength]
    exact forall₂_digits h
  · rw [List.getElem?_eq_none hlength]
    exact ⟨rfl, rfl⟩

/-- The pieces of a date of the calendar are read as the date. -/
theorem read?_of_pieces {s : String} (h : Pieces (pieces 5 s.toList) m) (hvalid : m.IsValid) :
    read? s = some m := by
  generalize hparts : pieces 5 s.toList = parts at h
  cases h with
  | day h => exact read?_of_numbers [] (hparts ▸ h) (by simp) hvalid
  | @hour _ _ _ _ hour h => exact read?_of_numbers [hour] (hparts ▸ h) (by simp) hvalid
  | @minute _ _ _ _ hour minute h =>
    exact read?_of_numbers [hour, minute] (hparts ▸ h) (by simp) hvalid
  | @second parts rest year month day hour minute second micros h hrest =>
    have hlength : parts.length = 5 := h.length_eq
    refine read?_eq_some_iff.2 ⟨year, month, day, [hour, minute], second, micros, ?_, ?_, rfl, hvalid⟩
    · rw [hparts, List.take_left' hlength]
      exact forall₂_digits h
    · rw [hparts, List.getElem?_append_right (Nat.le_of_eq hlength), hlength]
      exact hrest

/-- A date is read from a text just when the text is separated into the pieces of the date and the calendar
has the date. Any text is split into pieces, and all that are split into the same ones are read as the same
date or refused: the separators do not matter. -/
theorem read?_exact :
    (∀ s m, read? s = some m ↔ ∃ parts, Separated parts s.toList ∧ Pieces parts m ∧ m.IsValid) ∧
    (∀ s : String, ∃ parts, SplitsInto 5 parts ∧ Separated parts s.toList) ∧
    ∀ parts (s s' : String), SplitsInto 5 parts → Separated parts s.toList → Separated parts s'.toList →
      read? s = read? s' := by
  refine ⟨fun s m => ⟨fun h => ?_, ?_⟩, fun s => ?_, fun parts s s' hsplits hs hs' => ?_⟩
  · exact ⟨_, separated_pieces 5 _, pieces_of_read? h, isValid_of_read? h⟩
  · rintro ⟨parts, hseparated, hpieces, hvalid⟩
    rw [← pieces_of_separated hpieces.splitsInto hseparated] at hpieces
    exact read?_of_pieces hpieces hvalid
  · exact ⟨_, splitsInto_pieces 5 _, separated_pieces 5 _⟩
  · rw [read?, pieces_of_separated hsplits hs, ← pieces_of_separated hsplits hs', read?]

/-- The pieces of a date with microseconds. The point belongs to the last one. -/
def dateParts : List (List Char) := ["2010", "01", "02", "03", "04", "05.250000"].map String.toList

/-- Two texts with the same pieces and other separators are read as the same date. -/
theorem read?_exact_dateParts : SplitsInto 5 dateParts ∧
    Separated dateParts "2010-01-02 03:04:05.250000".toList ∧
    Separated dateParts "2010. 01. 02, 03h04 + 05.250000".toList ∧
    read? "2010-01-02 03:04:05.250000" = some ⟨2010, 1, 2, 3, 4, 5, 250000000⟩ ∧
    read? "2010. 01. 02, 03h04 + 05.250000" = some ⟨2010, 1, 2, 3, 4, 5, 250000000⟩ ∧
    ∃ parts, Separated parts "2010-01-02 03:04:05.250000".toList ∧
      Pieces parts ⟨2010, 1, 2, 3, 4, 5, 250000000⟩ := by
  have hparts : pieces 5 "2010-01-02 03:04:05.250000".toList = dateParts := by decide +kernel
  have hparts' : pieces 5 "2010. 01. 02, 03h04 + 05.250000".toList = dateParts := by decide +kernel
  have hsplits : SplitsInto 5 dateParts := hparts ▸ splitsInto_pieces 5 _
  have hs : Separated dateParts "2010-01-02 03:04:05.250000".toList := hparts ▸ separated_pieces 5 _
  have hs' : Separated dateParts "2010. 01. 02, 03h04 + 05.250000".toList :=
    hparts' ▸ separated_pieces 5 _
  have hread : read? "2010-01-02 03:04:05.250000" = some ⟨2010, 1, 2, 3, 4, 5, 250000000⟩ := by
    decide +kernel
  obtain ⟨hiff, -, hsame⟩ := read?_exact
  obtain ⟨parts, hseparated, hpieces, -⟩ := (hiff _ _).1 hread
  exact ⟨hsplits, hs, hs', hread, (hsame _ _ _ hsplits hs hs').symm.trans hread, parts, hseparated,
    hpieces⟩

end FlatRecord.Moment
