import MobilePIM.Foundation.Getopt
import MobilePIM.Zram.Trace

/-!
`parse_args` of the three programs. They share a loop over the options and differ
in the option string and in the algorithms they know. The last option of a kind
counts; the first word that is no option, or names no algorithm, ends the program.
-/

namespace MobilePIM
open Getopt

/-- Where a program ends before the end of its `main`: with code 1 and its last lines of
output, or at a fault. -/
inductive Ending
  | exit (lines : List String)
  | fault (stop : Stop)
deriving DecidableEq, Repr

abbrev Program := Except Ending

/-- The global variables of a program. A filename that is not set is a null pointer, and so is
`compr_alg`; `compalg` is there in the delta program alone. -/
structure Settings where
  dataFilename : Option Word := none
  traceFilename : Option Word := none
  replayFilename : Option Word := none
  comprAlg : Option CompressionAlgorithm := none
  slotSize : UInt64 := 4 * 1024
  compalg : Nat := 0
deriving DecidableEq, Repr

/-- `atoi`; like `%d`, it is open for a number that no `int` holds. -/
def atoi (conv : IntConversion) (text : Word) : Int32 :=
  match Scan.integer text with
  | some (v, _) => conv.store v
  | none => 0

/-- `atoi(optarg) * 1024`, a product of `int`s, as an `unsigned long`. -/
def slotSizeOf (conv : IntConversion) (optarg : Word) : UInt64 :=
  (atoi conv optarg * 1024).toInt64.toUInt64

/-- A negative product becomes a size of more than 2^63 bytes. -/
theorem toNat_slotSizeOf (conv : IntConversion) (optarg : Word) :
    ((slotSizeOf conv optarg).toNat : Int) =
      if 0 ≤ (atoi conv optarg * 1024).toInt then (atoi conv optarg * 1024).toInt
      else (atoi conv optarg * 1024).toInt + 2 ^ 64 := by
  have bits := BitVec.toInt_eq_toNat_cond (atoi conv optarg * 1024).toInt64.toBitVec
  have small := (atoi conv optarg * 1024).toInt64.toBitVec.isLt
  rw [show (atoi conv optarg * 1024).toInt64.toBitVec.toInt = (atoi conv optarg * 1024).toInt from
    Int32.toInt_toInt64 _] at bits
  rw [show (slotSizeOf conv optarg).toNat = (atoi conv optarg * 1024).toInt64.toBitVec.toNat from rfl]
  split at bits <;> split <;> omega

/-- A number of kilobytes is the size in bytes exactly from 0 to `2 ^ 21 - 1`; the product of other
numbers wraps, or is negative and becomes a huge size. -/
theorem slotSizeOf_eq_iff (conv : IntConversion) (optarg : Word) :
    ((slotSizeOf conv optarg).toNat : Int) = 1024 * (atoi conv optarg).toInt ↔
      0 ≤ (atoi conv optarg).toInt ∧ (atoi conv optarg).toInt < 2 ^ 21 := by
  have size := toNat_slotSizeOf conv optarg
  have low := Int32.le_toInt (atoi conv optarg)
  have high := Int32.toInt_lt (atoi conv optarg)
  have product : (atoi conv optarg * 1024).toInt =
      ((atoi conv optarg).toInt * 1024).bmod (2 ^ 32) := Int32.toInt_mul _ _
  rw [Int.bmod_def] at product
  split at size <;> split at product <;> omega

theorem mallocSucceeds_slotSizeOf (conv : IntConversion) (optarg : Word) :
    MallocSucceeds (slotSizeOf conv optarg) ↔ 0 ≤ (atoi conv optarg * 1024).toInt := by
  have size := toNat_slotSizeOf conv optarg
  have low := Int32.le_toInt (atoi conv optarg * 1024)
  have high := Int32.toInt_lt (atoi conv optarg * 1024)
  unfold MallocSucceeds
  split at size <;> omega

/-- What `new ...CompressionAlgorithm()` is to be for a name. -/
def algorithmOf (optarg : Word) : Option CompressionAlgorithm :=
  if optarg = ['l', 'z', 'o'] then some .lzo
  else if optarg = ['l', 'z', '4'] then some .lz4
  else none

def bd0Name : Word := ['b', 'd', '0']

/-- `case 'c'`; only the delta program knows `bd0`. -/
def selectAlgorithm (bd0 : Bool) (s : Settings) (optarg : Word) : Program Settings :=
  match algorithmOf optarg with
  | some alg => .ok { s with comprAlg := some alg, compalg := 0 }
  | none =>
      if bd0 ∧ optarg = bd0Name then .ok { s with compalg := 1 }
      else .error (.exit ["Error: Cannot obtain compression algorithm: " ++ String.ofList optarg])

def usage (argv0 : Word) : Ending :=
  .exit ["Usage: " ++ String.ofList argv0 ++ " [-c] [-s] [-b] [-f filename]"]

/-- The `switch` of `parse_args`. `EvalWriteCompressedFile` has no `case 'r'`, and no `r` in its
option string either. -/
def setOption (conv : IntConversion) (bd0 : Bool) (argv0 : Word) (s : Settings) :
    Char × Word → Program Settings
  | ('c', optarg) => selectAlgorithm bd0 s optarg
  | ('s', optarg) => .ok { s with slotSize := slotSizeOf conv optarg }
  | ('f', optarg) => .ok { s with dataFilename := some optarg }
  | ('t', optarg) => .ok { s with traceFilename := some optarg }
  | ('r', optarg) => .ok { s with replayFilename := some optarg }
  | _ => .error (usage argv0)

/-- The parameters in which the programs differ. Every option of the string has a case. -/
structure ArgumentRules where
  optstring : List Char
  bd0 : Bool
  cases : ∀ c ∈ optstring, c ∈ ['c', 's', 'f', 't', 'r']

/-- `parse_args` on the words behind `argv[0]`. LZO takes the place of a null `compr_alg`. -/
def ArgumentRules.parseArgs (rules : ArgumentRules) (conv : IntConversion) (argv0 : Word)
    (words : List Word) : Program (Settings × CompressionAlgorithm) := do
  let s ← optionLoop rules.optstring (usage argv0) (setOption conv rules.bd0 argv0) words {}
  .ok (s, s.comprAlg.getD .lzo)

namespace EvalWriteCompressedFile

def argumentRules : ArgumentRules := ⟨['c', 's', 'f', 't'], false, by simp⟩

def parseArgs : IntConversion → Word → List Word → Program (Settings × CompressionAlgorithm) :=
  argumentRules.parseArgs

end EvalWriteCompressedFile

namespace EvalReadCompressedFile

def argumentRules : ArgumentRules := ⟨['c', 's', 'f', 't', 'r'], false, fun _ h => h⟩

def parseArgs : IntConversion → Word → List Word → Program (Settings × CompressionAlgorithm) :=
  argumentRules.parseArgs

end EvalReadCompressedFile

namespace Delta

def argumentRules : ArgumentRules := ⟨['c', 's', 'f', 't', 'r'], true, fun _ h => h⟩

def parseArgs : IntConversion → Word → List Word → Program (Settings × CompressionAlgorithm) :=
  argumentRules.parseArgs

end Delta

/-- The argument of the last option `c`. -/
def lastOf (c : Char) (options : List (Char × Word)) : Option Word :=
  (options.reverse.find? fun o => o.1 = c).map Prod.snd

/-- What a program makes of its options when it knows every algorithm they name. -/
def settingsOf (conv : IntConversion) (options : List (Char × Word)) : Settings where
  dataFilename := lastOf 'f' options
  traceFilename := lastOf 't' options
  replayFilename := lastOf 'r' options
  comprAlg := options.reverse.findSome? fun o => if o.1 = 'c' then algorithmOf o.2 else none
  slotSize := ((lastOf 's' options).map (slotSizeOf conv)).getD (4 * 1024)
  compalg := if lastOf 'c' options = some bd0Name then 1 else 0

/-- An option that names no algorithm the program knows. -/
def NamesNone (bd0 : Bool) (o : Char × Word) : Prop :=
  o.1 = 'c' ∧ algorithmOf o.2 = none ∧ ¬(bd0 ∧ o.2 = bd0Name)

instance (bd0 : Bool) (o : Char × Word) : Decidable (NamesNone bd0 o) :=
  inferInstanceAs (Decidable (_ ∧ _ ∧ ¬_))

section Settings

variable {conv : IntConversion} {bd0 : Bool} {argv0 : Word} {options : List (Char × Word)}
  {o : Char × Word}

theorem lastOf_snoc (c : Char) (options : List (Char × Word)) (o : Char × Word) :
    lastOf c (options ++ [o]) = if o.1 = c then some o.2 else lastOf c options := by
  rw [lastOf, List.reverse_append, List.reverse_singleton, List.singleton_append]
  by_cases same : o.1 = c
  · rw [List.find?_cons_of_pos (by simpa using same), if_pos same]
    rfl
  · rw [List.find?_cons_of_neg (by simpa using same), if_neg same]
    rfl

theorem settingsOf_snoc_select (o : Word) {alg : CompressionAlgorithm}
    (named : algorithmOf o = some alg) :
    settingsOf conv (options ++ [('c', o)]) =
      { settingsOf conv options with comprAlg := some alg, compalg := 0 } := by
  have other : o ≠ bd0Name := by
    rintro rfl
    cases named
  simp [settingsOf, lastOf_snoc, named, other]

theorem settingsOf_snoc_bd0 :
    settingsOf conv (options ++ [('c', bd0Name)]) =
      { settingsOf conv options with compalg := 1 } := by
  have unnamed : algorithmOf bd0Name = none := by decide
  simp [settingsOf, lastOf_snoc, unnamed]

/-- One option more: it is the last of its kind. -/
theorem setOption_settingsOf (letter : o.1 ∈ ['c', 's', 'f', 't', 'r']) (named : ¬NamesNone bd0 o) :
    setOption conv bd0 argv0 (settingsOf conv options) o =
      .ok (settingsOf conv (options ++ [o])) := by
  obtain ⟨c, optarg⟩ := o
  simp only [List.mem_cons, List.not_mem_nil, or_false] at letter
  rcases letter with rfl | rfl | rfl | rfl | rfl
  · simp only [setOption, selectAlgorithm]
    cases alg : algorithmOf optarg with
    | some alg => rw [settingsOf_snoc_select optarg alg]
    | none =>
        have known : bd0 ∧ optarg = bd0Name := by
          by_contra other
          exact named ⟨rfl, alg, other⟩
        obtain ⟨delta, rfl⟩ := known
        rw [settingsOf_snoc_bd0]
        exact if_pos ⟨delta, rfl⟩
  · simp [setOption, settingsOf, lastOf_snoc]
  · simp [setOption, settingsOf, lastOf_snoc]
  · simp [setOption, settingsOf, lastOf_snoc]
  · simp [setOption, settingsOf, lastOf_snoc]

theorem setOption_namesNone {s : Settings} (unnamed : NamesNone bd0 o) :
    setOption conv bd0 argv0 s o =
      .error (.exit ["Error: Cannot obtain compression algorithm: " ++ String.ofList o.2]) := by
  obtain ⟨c, optarg⟩ := o
  obtain ⟨rfl, none_named, other⟩ := unnamed
  simp only [setOption, selectAlgorithm, none_named]
  exact if_neg other

/-- The options in order: the first that names no algorithm ends the program. -/
theorem foldlM_setOption (letters : ∀ o ∈ options, o.1 ∈ ['c', 's', 'f', 't', 'r']) :
    options.foldlM (setOption conv bd0 argv0) {} =
      match options.find? (NamesNone bd0) with
      | some o =>
          .error (.exit ["Error: Cannot obtain compression algorithm: " ++ String.ofList o.2])
      | none => .ok (settingsOf conv options) := by
  induction options using List.reverseRecOn with
  | nil => rfl
  | append_singleton options o ih =>
      rw [List.foldlM_append, ih fun o mem => letters o (List.mem_append_left _ mem),
        List.find?_append]
      cases found : options.find? (NamesNone bd0) with
      | some first => rfl
      | none =>
          simp only [Option.none_or]
          change [o].foldlM (setOption conv bd0 argv0) (settingsOf conv options) = _
          rw [List.foldlM_cons]
          by_cases unnamed : NamesNone bd0 o
          · rw [setOption_namesNone unnamed, List.find?_cons_of_pos (by simpa using unnamed)]
            rfl
          · rw [setOption_settingsOf (letters o (by simp)) unnamed,
              List.find?_cons_of_neg (by simpa using unnamed)]
            rfl

end Settings

/-- `parse_args` on any command line. The first option that names no algorithm is reported; a
word that is no option is, if there is none in front of it; else the settings are those of the
last option of each kind. -/
theorem ArgumentRules.parseArgs_of (rules : ArgumentRules) (conv : IntConversion) (argv0 : Word)
    {words : List Word} {options : List (Char × Word)} {whole : Bool}
    (read : CommandLine rules.optstring words options whole) :
    rules.parseArgs conv argv0 words =
      match options.find? (NamesNone rules.bd0) with
      | some o =>
          .error (.exit ["Error: Cannot obtain compression algorithm: " ++ String.ofList o.2])
      | none =>
          if whole then
            .ok (settingsOf conv options, (settingsOf conv options).comprAlg.getD .lzo)
          else .error (usage argv0) := by
  have no_dash : '-' ∉ rules.optstring := fun dash => absurd (rules.cases _ dash) (by decide)
  rw [parseArgs, optionLoop_eq _ _ no_dash read,
    foldlM_setOption fun o mem => rules.cases _ (read.known o mem)]
  cases options.find? (NamesNone rules.bd0) with
  | some o => rfl
  | none => cases whole <;> rfl

/-- A command line is accepted with the settings of its options, when it is read to the end and
every algorithm it names is known. -/
theorem ArgumentRules.parseArgs_ok_iff (rules : ArgumentRules) (conv : IntConversion)
    (argv0 : Word) (words : List Word) (r : Settings × CompressionAlgorithm) :
    rules.parseArgs conv argv0 words = .ok r ↔
      ∃ options, CommandLine rules.optstring words options true ∧
        (∀ o ∈ options, ¬NamesNone rules.bd0 o) ∧
        r = (settingsOf conv options, (settingsOf conv options).comprAlg.getD .lzo) := by
  constructor
  · intro accepted
    obtain ⟨options, whole, read⟩ := exists_commandLine rules.optstring words
    rw [rules.parseArgs_of conv argv0 read] at accepted
    cases found : options.find? (NamesNone rules.bd0) with
    | some o =>
        rw [found] at accepted
        cases accepted
    | none =>
        rw [found] at accepted
        rw [List.find?_eq_none] at found
        cases whole with
        | false => cases accepted
        | true =>
            cases accepted
            exact ⟨options, read, fun o mem => by simpa using found o mem, rfl⟩
  · intro reading
    obtain ⟨options, read, named, rfl⟩ := reading
    rw [rules.parseArgs_of conv argv0 read,
      List.find?_eq_none.mpr fun o mem => by simpa using named o mem]
    rfl

end MobilePIM
