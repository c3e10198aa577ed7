import Mathlib.Data.List.TakeWhile
import Mathlib.Algebra.Order.Group.Nat

/-!
Formatted input: white space, decimal integers and literal characters, each read
as far as it goes. A format reads a text exactly when the text is made of what
its directives stand for and is cut where no longer match is possible.
-/

namespace Scan

/-- White space of the C locale. -/
def isSpace (c : Char) : Bool := c = ' ' || ('\t' ≤ c && c ≤ '\r')

def skipSpace (text : List Char) : List Char := text.dropWhile isSpace

/-- A sign, if there is one, as a factor. -/
def sign : List Char → Int × List Char
  | '-' :: text => (-1, text)
  | '+' :: text => (1, text)
  | text => (1, text)

def decimal (digits : List Char) : Nat :=
  digits.foldl (fun n c => 10 * n + (c.toNat - '0'.toNat)) 0

/-- An integer, and the text behind it. -/
def integer (text : List Char) : Option (Int × List Char) :=
  let signed := sign (skipSpace text)
  let digits := signed.2.takeWhile Char.isDigit
  if digits.isEmpty then none
  else some (signed.1 * decimal digits, signed.2.dropWhile Char.isDigit)

inductive Directive
  | integer | literal (c : Char) | space
deriving DecidableEq, Repr

/-- The integers read, and the text left when all directives have been read. -/
def scan : List Directive → List Char → List Int × Option (List Char)
  | [], text => ([], some text)
  | .integer :: format, text =>
      match integer text with
      | none => ([], none)
      | some (v, rest) => (v :: (scan format rest).1, (scan format rest).2)
  | .literal _ :: _, [] => ([], none)
  | .literal c :: format, d :: text => if d = c then scan format text else ([], none)
  | .space :: format, text => scan format (skipSpace text)

/-- No character of a class comes next. -/
def Stops (p : Char → Bool) (text : List Char) : Prop := ∀ c ∈ text.head?, p c = false

def Blank (text : List Char) : Prop := ∀ c ∈ text, isSpace c

inductive SignText : List Char → Int → Prop
  | none : SignText [] 1
  | plus : SignText ['+'] 1
  | minus : SignText ['-'] (-1)

/-- The texts of an integer. -/
inductive IntegerText : List Char → Int → Prop
  | mk {spaces signText digits : List Char} {factor : Int} (blank : Blank spaces)
      (signed : SignText signText factor) (some_digits : digits ≠ [])
      (all_digits : ∀ c ∈ digits, c.isDigit) :
      IntegerText (spaces ++ (signText ++ digits)) (factor * decimal digits)

/-- The format reads these integers off the text and leaves the rest. -/
inductive Reads : List Directive → List Char → List Int → List Char → Prop
  | nil (text : List Char) : Reads [] text [] text
  | integer {format : List Directive} {word text rest : List Char} {v : Int} {values : List Int}
      (read : IntegerText word v) (longest : Stops Char.isDigit text)
      (behind : Reads format text values rest) :
      Reads (.integer :: format) (word ++ text) (v :: values) rest
  | literal {format : List Directive} {c : Char} {text rest : List Char} {values : List Int}
      (behind : Reads format text values rest) :
      Reads (.literal c :: format) (c :: text) values rest
  | space {format : List Directive} {spaces text rest : List Char} {values : List Int}
      (blank : Blank spaces) (longest : Stops isSpace text)
      (behind : Reads format text values rest) :
      Reads (.space :: format) (spaces ++ text) values rest

section Runs

variable {p : Char → Bool} {run rest : List Char}

theorem stops_dropWhile (p : Char → Bool) (text : List Char) : Stops p (text.dropWhile p) := by
  intro c hc
  have first := List.head?_dropWhile_not p text
  rw [Option.mem_def.mp hc] at first
  exact first

theorem dropWhile_of_stops (h : Stops p rest) : rest.dropWhile p = rest := by
  cases rest with
  | nil => rfl
  | cons c rest => exact List.dropWhile_cons_of_neg (by simp [h c rfl])

theorem takeWhile_of_stops (h : Stops p rest) : rest.takeWhile p = [] := by
  cases rest with
  | nil => rfl
  | cons c rest => exact List.takeWhile_cons_of_neg (by simp [h c rfl])

theorem takeWhile_run (all : ∀ c ∈ run, p c) (h : Stops p rest) :
    (run ++ rest).takeWhile p = run := by
  rw [List.takeWhile_append_of_pos all, takeWhile_of_stops h, List.append_nil]

theorem dropWhile_run (all : ∀ c ∈ run, p c) (h : Stops p rest) :
    (run ++ rest).dropWhile p = rest := by
  rw [List.dropWhile_append_of_pos all, dropWhile_of_stops h]

end Runs

section Integers

theorem sign_digit {d : Char} (h : d.isDigit) (text : List Char) :
    sign (d :: text) = (1, d :: text) := by
  unfold sign
  split
  · rename_i first
    cases first
    exact absurd h (by decide)
  · rename_i first
    cases first
    exact absurd h (by decide)
  · rfl

theorem exists_signText (text : List Char) :
    ∃ signText, SignText signText (sign text).1 ∧ text = signText ++ (sign text).2 := by
  unfold sign
  split
  · exact ⟨['-'], .minus, rfl⟩
  · exact ⟨['+'], .plus, rfl⟩
  · exact ⟨[], .none, rfl⟩

theorem sign_signText {signText : List Char} {factor : Int} (h : SignText signText factor)
    {d : Char} (hd : d.isDigit) (text : List Char) :
    sign (signText ++ d :: text) = (factor, d :: text) := by
  cases h with
  | none => exact sign_digit hd text
  | plus => rfl
  | minus => rfl

theorem isSpace_digit {d : Char} (h : d.isDigit) : isSpace d = false := by
  rw [Bool.eq_false_iff]
  intro blank
  simp only [isSpace, Char.isDigit, Bool.or_eq_true, Bool.and_eq_true, decide_eq_true_eq,
    ge_iff_le, UInt32.le_iff_toNat_le] at blank h
  rcases blank with rfl | ⟨-, low⟩
  · exact absurd h.1 (by decide)
  · exact absurd (h.1.trans (UInt32.le_iff_toNat_le.mp low)) (by decide)

theorem stops_signText {signText : List Char} {factor : Int} (h : SignText signText factor)
    {d : Char} (hd : d.isDigit) (text : List Char) : Stops isSpace (signText ++ d :: text) := by
  intro c hc
  cases h with
  | none =>
      cases hc
      exact isSpace_digit hd
  | plus =>
      cases hc
      decide
  | minus =>
      cases hc
      decide

theorem integer_eq_some_iff {text rest : List Char} {v : Int} :
    integer text = some (v, rest) ↔
      ∃ word, text = word ++ rest ∧ IntegerText word v ∧ Stops Char.isDigit rest := by
  constructor
  · intro read
    obtain ⟨signText, signed, split⟩ := exists_signText (skipSpace text)
    simp only [integer] at read
    split at read
    · cases read
    · rename_i some_digits
      cases read
      refine ⟨text.takeWhile isSpace ++ (signText ++ _), ?_, .mk (fun c => List.mem_takeWhile_imp)
        signed (by simpa using some_digits) (fun c => List.mem_takeWhile_imp), stops_dropWhile _ _⟩
      rw [List.append_assoc, List.append_assoc, List.takeWhile_append_dropWhile, ← split]
      exact List.takeWhile_append_dropWhile.symm
  · intro h
    obtain ⟨word, rfl, ⟨blank, signed, some_digits, all_digits⟩, longest⟩ := h
    rename_i spaces signText digits factor
    obtain ⟨d, digits, rfl⟩ := List.exists_cons_of_ne_nil some_digits
    have hd := all_digits d List.mem_cons_self
    have cut : spaces ++ (signText ++ d :: digits) ++ rest =
        spaces ++ (signText ++ d :: (digits ++ rest)) := by simp
    have skipped : skipSpace (spaces ++ (signText ++ d :: digits) ++ rest) =
        signText ++ d :: (digits ++ rest) := by
      rw [cut]
      exact dropWhile_run blank (stops_signText signed hd _)
    simp only [integer, skipped, sign_signText signed hd]
    rw [← List.cons_append, takeWhile_run all_digits longest, dropWhile_run all_digits longest]
    rfl

theorem integer_blank {text : List Char} (blank : Blank text) : integer text = none := by
  have skipped : skipSpace text = [] := List.dropWhile_eq_nil_iff.mpr blank
  rw [integer, skipped]
  rfl

end Integers

section Formats

variable {format : List Directive} {text rest : List Char} {values : List Int}

theorem Reads.scan_eq (h : Reads format text values rest) :
    scan format text = (values, some rest) := by
  induction h with
  | nil => rfl
  | integer word_text longest _ ih =>
      rw [scan, integer_eq_some_iff.mpr ⟨_, rfl, word_text, longest⟩]
      simp only [ih]
  | literal _ ih => rw [scan, if_pos rfl, ih]
  | space blank longest _ ih => rw [scan, skipSpace, dropWhile_run blank longest, ih]

theorem reads_of_scan_eq (h : scan format text = (values, some rest)) :
    Reads format text values rest := by
  induction format generalizing text values with
  | nil =>
      cases h
      exact .nil _
  | cons directive format ih =>
      cases directive with
      | integer =>
          cases first : integer text with
          | none =>
              rw [scan, first] at h
              cases h
          | some parsed =>
              obtain ⟨v, behind⟩ := parsed
              simp only [scan, first, Prod.mk.injEq] at h
              obtain ⟨rfl, left⟩ := h
              obtain ⟨word, rfl, word_text, longest⟩ := integer_eq_some_iff.mp first
              exact .integer word_text longest (ih (Prod.ext rfl left))
      | literal c =>
          cases text with
          | nil => cases h
          | cons d text =>
              rw [scan] at h
              split at h
              · rename_i same
                exact same ▸ .literal (ih h)
              · cases h
      | space =>
          have reads : Reads (.space :: format)
              (text.takeWhile isSpace ++ text.dropWhile isSpace) values rest :=
            .space (fun c => List.mem_takeWhile_imp) (stops_dropWhile isSpace text) (ih h)
          rwa [List.takeWhile_append_dropWhile] at reads

/-- A format reads all its directives exactly when the text begins as it says. -/
theorem scan_eq_iff : scan format text = (values, some rest) ↔ Reads format text values rest :=
  ⟨reads_of_scan_eq, Reads.scan_eq⟩

theorem Reads.length_le (h : Reads format text values rest) : rest.length ≤ text.length := by
  induction h with
  | nil => exact le_rfl
  | integer _ _ _ ih | literal _ ih | space _ _ _ ih =>
      simp only [List.length_append, List.length_cons]
      omega

/-- An integer has a digit, so a format that begins with one moves on. -/
theorem Reads.length_lt (h : Reads (.integer :: format) text values rest) :
    rest.length < text.length := by
  cases h with
  | integer word_text _ behind =>
      have left := behind.length_le
      cases word_text with
      | mk _ _ some_digits _ =>
          have := List.length_pos_iff.mpr some_digits
          simp only [List.length_append]
          omega

/-- Nothing is read off a text of blanks. -/
theorem not_reads_blank (blank : Blank text) : ¬Reads (.integer :: format) text values rest := by
  rw [← scan_eq_iff, scan, integer_blank blank]
  exact fun h => by cases h

end Formats

end Scan
