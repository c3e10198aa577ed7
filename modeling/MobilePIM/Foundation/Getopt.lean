import Mathlib.Data.List.Basic

/-!
Command lines with options that all take an argument, written in the word of the
option or as the next word. Operands may stand between them, and the word `--`
ends the options. Every command line has one reading, which may break off.
-/

namespace Getopt

abbrev Word := List Char

/-- What a call finds: an option and the words behind it, a word that is no such
option (`?`), or the end of the options (-1). -/
inductive Found
  | option (c : Char) (optarg : Word) (rest : List Word)
  | invalid
  | done
deriving DecidableEq, Repr

/-- The option `c`, the text behind it in its word, and the words behind that. -/
def readOption (optstring : List Char) (c : Char) (attached : Word) (words : List Word) : Found :=
  if c ∉ optstring then .invalid
  else
    match attached, words with
    | [], [] => .invalid
    | [], optarg :: rest => .option c optarg rest
    | _ :: _, _ => .option c attached words

/-- `getopt`, without the operands it has moved to the end. -/
def getopt (optstring : List Char) : List Word → Found
  | [] => .done
  | ['-', '-'] :: _ => .done
  | ('-' :: c :: attached) :: words => readOption optstring c attached words
  | _ :: words => getopt optstring words

/-- An operand does not start with a dash, or is nothing else. -/
def IsOperand : Word → Prop
  | '-' :: _ :: _ => False
  | _ => True

/-- The options of a command line in order, and whether they are read to the end. -/
inductive CommandLine (optstring : List Char) : List Word → List (Char × Word) → Bool → Prop
  | nil : CommandLine optstring [] [] true
  | dashes (operands : List Word) : CommandLine optstring (['-', '-'] :: operands) [] true
  | unknown {c : Char} {attached : Word} (words : List Word) (other : c ∉ optstring)
      (not_dashes : c = '-' → attached ≠ []) :
      CommandLine optstring (('-' :: c :: attached) :: words) [] false
  | missing {c : Char} (known : c ∈ optstring) : CommandLine optstring [['-', c]] [] false
  | operand {word : Word} {words : List Word} {options : List (Char × Word)} {whole : Bool}
      (plain : IsOperand word) (behind : CommandLine optstring words options whole) :
      CommandLine optstring (word :: words) options whole
  | attached {c : Char} {optarg : Word} {words : List Word} {options : List (Char × Word)}
      {whole : Bool} (known : c ∈ optstring) (some_text : optarg ≠ [])
      (behind : CommandLine optstring words options whole) :
      CommandLine optstring (('-' :: c :: optarg) :: words) ((c, optarg) :: options) whole
  | separate {c : Char} {optarg : Word} {words : List Word} {options : List (Char × Word)}
      {whole : Bool} (known : c ∈ optstring)
      (behind : CommandLine optstring words options whole) :
      CommandLine optstring (['-', c] :: optarg :: words) ((c, optarg) :: options) whole

section

variable {optstring : List Char} {c d : Char} {word optarg : Word} {words rest : List Word}
  {options : List (Char × Word)} {whole : Bool}

theorem getopt_operand (plain : IsOperand word) :
    getopt optstring (word :: words) = getopt optstring words := by
  rw [getopt.eq_def optstring (word :: words)]
  split
  · rename_i same
    cases same
  · rename_i same
    cases same
    exact plain.elim
  · rename_i same
    cases same
    exact plain.elim
  · rename_i same
    cases same
    rfl

theorem getopt_dash {attached : Word} (not_dashes : c = '-' → attached ≠ []) :
    getopt optstring (('-' :: c :: attached) :: words) =
      readOption optstring c attached words := by
  rw [getopt.eq_def]
  split
  · rename_i same
    cases same
  · rename_i same
    cases same
    exact absurd rfl (not_dashes rfl)
  · rename_i same
    cases same
    rfl
  · rename_i other same
    cases same
    exact (other _ _ rfl).elim

theorem getopt_unknown {attached : Word} (other : c ∉ optstring)
    (not_dashes : c = '-' → attached ≠ []) :
    getopt optstring (('-' :: c :: attached) :: words) = .invalid := by
  rw [getopt_dash not_dashes]
  exact if_pos other

section Known

variable (no_dash : '-' ∉ optstring) (known : c ∈ optstring)
include no_dash known

theorem getopt_known (attached : Word) :
    getopt optstring (('-' :: c :: attached) :: words) =
      match attached, words with
      | [], [] => .invalid
      | [], optarg :: rest => .option c optarg rest
      | _ :: _, _ => .option c attached words := by
  rw [getopt_dash fun dash => absurd (dash ▸ known) no_dash]
  exact if_neg (not_not_intro known)

theorem getopt_attached (some_text : optarg ≠ []) :
    getopt optstring (('-' :: c :: optarg) :: words) = .option c optarg words := by
  rw [getopt_known no_dash known]
  cases optarg with
  | nil => exact absurd rfl some_text
  | cons d text => rfl

end Known

theorem readOption_shortens {attached : Word}
    (h : readOption optstring c attached words = .option d optarg rest) :
    rest.length ≤ words.length := by
  unfold readOption at h
  split at h
  · cases h
  · split at h
    · cases h
    · cases h
      exact Nat.le_succ _
    · cases h
      exact Nat.le_refl _

/-- An option takes at least its own word. -/
theorem getopt_shortens (h : getopt optstring words = .option c optarg rest) :
    rest.length < words.length := by
  induction words using getopt.induct with
  | case1 => cases h
  | case2 operands => cases h
  | case3 d attached words not_dashes =>
      rw [getopt_dash fun dash empty => not_dashes dash empty] at h
      exact Nat.lt_succ_of_le (readOption_shortens h)
  | case4 word words not_dashes not_option ih =>
      rw [getopt.eq_4 _ _ _ not_dashes not_option] at h
      exact Nat.lt_succ_of_lt (ih h)

theorem operand_or_dash : ∀ word : Word, IsOperand word ∨ ∃ c attached, word = '-' :: c :: attached
  | [] => Or.inl trivial
  | [c] => by
      left
      unfold IsOperand
      split
      · rename_i same
        cases same
      · trivial
  | c :: d :: attached => by
      by_cases dash : c = '-'
      · exact Or.inr ⟨d, attached, by rw [dash]⟩
      · left
        unfold IsOperand
        split
        · rename_i same
          cases same
          exact dash rfl
        · trivial

/-- Every command line has a reading. -/
theorem exists_commandLine (optstring : List Char) :
    ∀ words : List Word, ∃ options whole, CommandLine optstring words options whole
  | [] => ⟨[], true, .nil⟩
  | word :: words => by
      rcases operand_or_dash word with plain | ⟨c, attached, rfl⟩
      · obtain ⟨options, whole, behind⟩ := exists_commandLine optstring words
        exact ⟨options, whole, .operand plain behind⟩
      by_cases known : c ∈ optstring
      · cases attached with
        | cons d text =>
            obtain ⟨options, whole, behind⟩ := exists_commandLine optstring words
            exact ⟨_, whole, .attached known (List.cons_ne_nil d text) behind⟩
        | nil =>
            cases words with
            | nil => exact ⟨[], false, .missing known⟩
            | cons optarg rest =>
                obtain ⟨options, whole, behind⟩ := exists_commandLine optstring rest
                exact ⟨_, whole, .separate known behind⟩
      · by_cases dashes : c = '-' ∧ attached = []
        · obtain ⟨rfl, rfl⟩ := dashes
          exact ⟨[], true, .dashes words⟩
        · exact ⟨[], false, .unknown words known fun dash empty => dashes ⟨dash, empty⟩⟩
termination_by words => words.length

end

section Loop

variable {ε σ : Type*} {optstring : List Char} {words rest : List Word} {s : σ}

/-- `while ((opt = getopt(argc, argv, optstring)) != -1)`, with an exit at the first `?`. -/
def optionLoop (optstring : List Char) (invalid : ε) (turn : σ → Char × Word → Except ε σ)
    (words : List Word) (s : σ) : Except ε σ :=
  match _h : getopt optstring words with
  | .done => .ok s
  | .invalid => .error invalid
  | .option c optarg rest => do
      let s ← turn s (c, optarg)
      optionLoop optstring invalid turn rest s
termination_by words.length
decreasing_by exact getopt_shortens _h

variable (invalid : ε) (turn : σ → Char × Word → Except ε σ)

theorem optionLoop_done (h : getopt optstring words = .done) :
    optionLoop optstring invalid turn words s = .ok s := by
  rw [optionLoop]
  split
  · rfl
  · rename_i found
    rw [h] at found
    cases found
  · rename_i found
    rw [h] at found
    cases found

theorem optionLoop_invalid (h : getopt optstring words = .invalid) :
    optionLoop optstring invalid turn words s = .error invalid := by
  rw [optionLoop]
  split
  · rename_i found
    rw [h] at found
    cases found
  · rfl
  · rename_i found
    rw [h] at found
    cases found

theorem optionLoop_option {c : Char} {optarg : Word}
    (h : getopt optstring words = .option c optarg rest) :
    optionLoop optstring invalid turn words s =
      turn s (c, optarg) >>= optionLoop optstring invalid turn rest := by
  rw [optionLoop]
  split
  · rename_i found
    rw [h] at found
    cases found
  · rename_i found
    rw [h] at found
    cases found
  · rename_i found
    rw [h] at found
    cases found
    rfl

theorem CommandLine.known {options : List (Char × Word)} {whole : Bool}
    (h : CommandLine optstring words options whole) : ∀ o ∈ options, o.1 ∈ optstring := by
  induction h with
  | nil | dashes | unknown | missing => exact fun _ mem => absurd mem List.not_mem_nil
  | operand _ _ ih => exact ih
  | attached known _ _ ih | separate known _ ih => exact List.forall_mem_cons.mpr ⟨known, ih⟩

theorem optionLoop_congr (h : getopt optstring words = getopt optstring rest) :
    optionLoop optstring invalid turn words s = optionLoop optstring invalid turn rest s := by
  cases found : getopt optstring rest with
  | done => rw [optionLoop_done invalid turn found, optionLoop_done invalid turn (h.trans found)]
  | invalid =>
      rw [optionLoop_invalid invalid turn found, optionLoop_invalid invalid turn (h.trans found)]
  | option c optarg rest =>
      rw [optionLoop_option invalid turn found, optionLoop_option invalid turn (h.trans found)]

/-- The loop goes over the options of the command line. -/
theorem optionLoop_eq (no_dash : '-' ∉ optstring) {options : List (Char × Word)} {whole : Bool}
    (h : CommandLine optstring words options whole) (s : σ) :
    optionLoop optstring invalid turn words s =
      options.foldlM turn s >>= fun s => if whole then .ok s else .error invalid := by
  induction h generalizing s with
  | nil => exact optionLoop_done invalid turn rfl
  | dashes operands => exact optionLoop_done invalid turn rfl
  | unknown words other not_dashes =>
      exact optionLoop_invalid invalid turn (getopt_unknown other not_dashes)
  | missing known => exact optionLoop_invalid invalid turn (getopt_known no_dash known [])
  | operand plain behind ih =>
      rw [optionLoop_congr invalid turn (getopt_operand plain)]
      exact ih s
  | attached known some_text behind ih =>
      rw [optionLoop_option invalid turn (getopt_attached no_dash known some_text),
        List.foldlM_cons, bind_assoc]
      exact bind_congr ih
  | separate known behind ih =>
      rw [optionLoop_option invalid turn (getopt_known no_dash known []),
        List.foldlM_cons, bind_assoc]
      exact bind_congr ih

end Loop

end Getopt
