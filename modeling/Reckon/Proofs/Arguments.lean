import Mathlib.Data.List.Infix
import Reckon.Options
import Reckon.Proofs.Numerals
import Reckon.Proofs.Sequence

/-!
The options among the arguments. What is no option and begins with two dashes is refused, the
leftmost such argument first; otherwise every argument has its effect, wherever it stands, and of
several limits the last one counts.
-/

namespace Reckon
namespace Options

/-- Digits, perhaps after a plus sign, of a number within 64 bits. -/
def IsCount (text : String) (n : Nat) : Prop :=
  ∃ digits, (text.toList = digits ∨ text.toList = '+' :: digits) ∧ Token.IsDigits digits ∧
    Nat.ofDigitChars 10 digits 0 = n ∧ n ≤ 18446744073709551615

/-- The argument begins with two dashes. -/
def IsLong (argument : String) : Prop := "--".toList <+: argument.toList

instance : DecidablePred IsLong := fun argument =>
  inferInstanceAs (Decidable ("--".toList <+: argument.toList))

/-- The argument sets the limit to a number. -/
def SetsLimit (argument : String) (n : Nat) : Prop :=
  ∃ value, argument = "--max-depth=" ++ value ∧ IsCount value n

/-- The argument looks like an option and is none. -/
def IsRefused (argument : String) : Prop :=
  IsLong argument ∧ argument ≠ "--verbose" ∧ ∀ n, ¬SetsLimit argument n

/-- What is said of a refused argument. -/
def Complaint (argument : String) (e : OptionError) : Prop :=
  (∃ value, argument = "--max-depth=" ++ value ∧ e = .invalidDepth value) ∨
    (∀ value, argument ≠ "--max-depth=" ++ value) ∧ e = .unknown argument

/-- The limit that is set last, `start` if none is set. -/
def LastLimit (start : Nat) (arguments : List String) (n : Nat) : Prop :=
  (∃ before argument after, arguments = before ++ argument :: after ∧ SetsLimit argument n ∧
      ∀ a ∈ after, ∀ m, ¬SetsLimit a m) ∨
    (∀ a ∈ arguments, ∀ m, ¬SetsLimit a m) ∧ n = start

/-- The arguments that are left to the command. -/
def positional (arguments : List String) : List String :=
  arguments.filter fun a => ¬IsLong a ∧ a ≠ "-v"

/-- The error is that of the leftmost refused argument. -/
def FirstRefused (arguments : List String) (e : OptionError) : Prop :=
  ∃ before argument after, arguments = before ++ argument :: after ∧
    (∀ a ∈ before, ¬IsRefused a) ∧ IsRefused argument ∧ Complaint argument e

/-- Every argument has had its effect on the options it was met with. -/
structure Understood (start : Options) (arguments : List String) (options : Options)
    (left : List String) : Prop where
  accepted : ∀ a ∈ arguments, ¬IsRefused a
  left_eq : left = positional arguments
  verbose_iff : options.verbose ↔
    start.verbose ∨ "-v" ∈ arguments ∨ "--verbose" ∈ arguments
  limit : LastLimit start.limit arguments options.limit

section
variable {text argument value : String} {cs : List Char} {n : Nat}

theorem natural?_eq_some_iff :
    Decimal.natural? cs = some n ↔ Token.IsDigits cs ∧ Nat.ofDigitChars 10 cs 0 = n := by
  rw [Decimal.natural?, Option.map_eq_some_iff]
  constructor
  · rintro ⟨digits, found, rfl⟩
    obtain ⟨digit, same⟩ := Option.ite_none_right_eq_some.1 found
    obtain rfl := Option.some.inj same
    exact ⟨⟨digit.1, List.all_eq_true.1 digit.2⟩, (Decimal.ofDigits_eq_ofDigitChars cs).symm⟩
  · rintro ⟨digits, rfl⟩
    exact ⟨cs, Decimal.digits?_of_isDigits digits, Decimal.ofDigits_eq_ofDigitChars cs⟩

theorem natural?_bounded_eq_some_iff :
    ((Decimal.natural? cs).bind fun n => if n < UInt64.size then some n else none) = some n ↔
      Token.IsDigits cs ∧ Nat.ofDigitChars 10 cs 0 = n ∧ n ≤ 18446744073709551615 := by
  simp only [Option.bind_eq_some_iff, natural?_eq_some_iff, Option.ite_none_right_eq_some,
    Option.some.injEq]
  constructor
  · rintro ⟨_, ⟨digits, value⟩, small, rfl⟩
    exact ⟨digits, value, Nat.le_of_lt_succ small⟩
  · rintro ⟨digits, value, small⟩
    exact ⟨n, ⟨digits, value⟩, Nat.lt_succ_of_le small, rfl⟩

/-- Reading a count accepts the texts of counts and no others. -/
theorem count?_eq_some_iff : Numeral.count? text = some n ↔ IsCount text n := by
  have notPlus {digits : List Char} (h : Token.IsDigits ('+' :: digits)) : False :=
    nomatch h.2 '+' List.mem_cons_self
  unfold Numeral.count? IsCount
  split
  next cs plus =>
    rw [natural?_bounded_eq_some_iff, plus]
    constructor
    · intro h
      exact ⟨cs, .inr rfl, h⟩
    · rintro ⟨digits, rfl | same, h⟩
      · exact (notPlus h.1).elim
      · obtain rfl := (List.cons.inj same).2
        exact h
  next noPlus =>
    rw [natural?_bounded_eq_some_iff]
    constructor
    · intro h
      exact ⟨text.toList, .inl rfl, h⟩
    · rintro ⟨digits, rfl | plus, h⟩
      · exact h
      · exact (noPlus digits plus).elim

theorem limitText_inj {other : String} (h : "--max-depth=" ++ value = "--max-depth=" ++ other) :
    value = other := by
  have chars := congrArg String.toList h
  rw [String.toList_append, String.toList_append] at chars
  exact String.toList_inj.1 (List.append_cancel_left chars)

theorem isLong_limitText (value : String) : IsLong ("--max-depth=" ++ value) := by
  rw [IsLong, String.toList_append]
  exact List.prefix_append_of_prefix (by decide)

theorem limitText_ne_verbose (value : String) : "--max-depth=" ++ value ≠ "--verbose" := by
  intro same
  have chars := congrArg String.toList same
  rw [String.toList_append] at chars
  cases chars

theorem SetsLimit.isLong (h : SetsLimit argument n) : IsLong argument := by
  obtain ⟨value, rfl, _⟩ := h
  exact isLong_limitText value

theorem SetsLimit.ne_verbose (h : SetsLimit argument n) : argument ≠ "--verbose" := by
  obtain ⟨value, rfl, _⟩ := h
  exact limitText_ne_verbose value

theorem SetsLimit.accepted (h : SetsLimit argument n) : ¬IsRefused argument :=
  fun refused => refused.2.2 n h

theorem not_isLong_of_short : ¬IsLong "-v" := by decide

theorem not_isRefused_of_verbose (h : argument = "--verbose" ∨ argument = "-v") :
    ¬IsRefused argument := by
  rintro ⟨long, notVerbose, _⟩
  rcases h with rfl | rfl
  · exact notVerbose rfl
  · exact not_isLong_of_short long

/-- What an argument is, said without taking it apart. -/
theorem classify_cases (argument : String) :
    (∃ value, argument = "--max-depth=" ++ value ∧ Argument.classify argument = .depth value) ∨
    ((argument = "--verbose" ∨ argument = "-v") ∧ Argument.classify argument = .verbose) ∨
    ((IsLong argument ∧ argument ≠ "--verbose" ∧ ∀ value, argument ≠ "--max-depth=" ++ value) ∧
      Argument.classify argument = .unknown) ∨
    ((¬IsLong argument ∧ argument ≠ "-v") ∧ Argument.classify argument = .positional) := by
  rw [Argument.classify]
  cases found : "--max-depth=".toList.isPrefixOf? argument.toList with
  | some chars =>
    refine .inl ⟨String.ofList chars, String.toList_inj.1 ?_, rfl⟩
    rw [String.toList_append, ← List.isPrefixOf?_eq_some_iff_append_eq.1 found]
    exact congrArg _ String.toList_ofList.symm
  | none =>
    have noLimit (value : String) : argument ≠ "--max-depth=" ++ value := by
      rintro rfl
      have some : "--max-depth=".toList.isPrefixOf? ("--max-depth=" ++ value).toList =
          some value.toList := by
        rw [List.isPrefixOf?_eq_some_iff_append_eq, String.toList_append]
      cases found.symm.trans some
    dsimp only
    by_cases verbose : argument = "--verbose" ∨ argument = "-v"
    · exact .inr (.inl ⟨verbose, if_pos verbose⟩)
    · rw [if_neg verbose]
      obtain ⟨notVerbose, notShort⟩ := not_or.1 verbose
      by_cases long : IsLong argument
      · exact .inr (.inr (.inl ⟨⟨long, notVerbose, noLimit⟩,
          if_pos (List.isPrefixOf_iff_prefix.2 long)⟩))
      · exact .inr (.inr (.inr ⟨⟨long, notShort⟩,
          if_neg fun found => long (List.isPrefixOf_iff_prefix.1 found)⟩))

/-- What one argument does, whatever it is. -/
theorem parseFrom_cons_cases (options : Options) (argument : String) (rest : List String) :
    (∃ e, IsRefused argument ∧ Complaint argument e ∧
      parseFrom options (argument :: rest) = .error e) ∨
    (∃ n, SetsLimit argument n ∧
      parseFrom options (argument :: rest) = parseFrom { options with limit := n } rest) ∨
    ((argument = "--verbose" ∨ argument = "-v") ∧
      parseFrom options (argument :: rest) = parseFrom { options with verbose := true } rest) ∨
    ((¬IsLong argument ∧ argument ≠ "-v") ∧
      parseFrom options (argument :: rest) = do
        let (options, left) ← parseFrom options rest
        return (options, argument :: left)) := by
  rcases classify_cases argument with ⟨value, text, is⟩ | ⟨verbose, is⟩ |
    ⟨⟨long, notVerbose, noLimit⟩, is⟩ | ⟨left, is⟩
  · rw [parseFrom, is]
    dsimp only
    split
    next n count =>
      exact .inr (.inl ⟨n, ⟨value, text, count?_eq_some_iff.1 count⟩, rfl⟩)
    next none =>
      subst text
      have noCount (n : Nat) : ¬SetsLimit ("--max-depth=" ++ value) n := by
        rintro ⟨other, same, count⟩
        obtain rfl := limitText_inj same
        cases none.symm.trans (count?_eq_some_iff.2 count)
      exact .inl ⟨.invalidDepth value,
        ⟨isLong_limitText value, limitText_ne_verbose value, noCount⟩, .inl ⟨value, rfl, rfl⟩, rfl⟩
  · exact .inr (.inr (.inl ⟨verbose, by rw [parseFrom, is]⟩))
  · have noCount (n : Nat) : ¬SetsLimit argument n := fun ⟨value, same, _⟩ => noLimit value same
    exact .inl ⟨.unknown argument, ⟨long, notVerbose, noCount⟩, .inr ⟨noLimit, rfl⟩,
      by rw [parseFrom, is]⟩
  · exact .inr (.inr (.inr ⟨left, by rw [parseFrom, is]⟩))

end

section
variable {start options : Options} {argument : String} {arguments left : List String}
  {e : OptionError} {first n : Nat}

theorem LastLimit.cons_sets (h : SetsLimit argument n) {m : Nat}
    (rest : LastLimit n arguments m) : LastLimit first (argument :: arguments) m := by
  rcases rest with ⟨before, a, after, rfl, sets, none⟩ | ⟨none, rfl⟩
  · exact .inl ⟨argument :: before, a, after, rfl, sets, none⟩
  · exact .inl ⟨[], argument, arguments, rfl, h, none⟩

theorem LastLimit.cons_other (h : ∀ m, ¬SetsLimit argument m)
    (rest : LastLimit first arguments n) : LastLimit first (argument :: arguments) n := by
  rcases rest with ⟨before, a, after, rfl, sets, none⟩ | ⟨none, rfl⟩
  · exact .inl ⟨argument :: before, a, after, rfl, sets, none⟩
  · exact .inr ⟨List.forall_mem_cons.2 ⟨h, none⟩, rfl⟩

theorem FirstRefused.cons (accepted : ¬IsRefused argument) (rest : FirstRefused arguments e) :
    FirstRefused (argument :: arguments) e := by
  obtain ⟨before, a, after, rfl, all, refused, complaint⟩ := rest
  exact ⟨argument :: before, a, after, rfl, List.forall_mem_cons.2 ⟨accepted, all⟩, refused,
    complaint⟩

theorem Understood.cons_limit (h : SetsLimit argument n)
    (rest : Understood { start with limit := n } arguments options left) :
    Understood start (argument :: arguments) options left where
  accepted := List.forall_mem_cons.2 ⟨h.accepted, rest.accepted⟩
  left_eq := by
    rw [rest.left_eq, positional, positional, List.filter_cons_of_neg (by simp [h.isLong])]
  verbose_iff := by
    have notVerbose : argument ≠ "--verbose" := h.ne_verbose
    have notShort : argument ≠ "-v" := fun same => not_isLong_of_short (same ▸ h.isLong)
    simpa [notVerbose.symm, notShort.symm] using rest.verbose_iff
  limit := .cons_sets h rest.limit

theorem Understood.cons_verbose (h : argument = "--verbose" ∨ argument = "-v")
    (rest : Understood { start with verbose := true } arguments options left) :
    Understood start (argument :: arguments) options left where
  accepted := List.forall_mem_cons.2 ⟨not_isRefused_of_verbose h, rest.accepted⟩
  left_eq := by
    have taken : ¬(¬IsLong argument ∧ argument ≠ "-v") := by
      rcases h with rfl | rfl <;> decide
    rw [rest.left_eq, positional, positional, List.filter_cons_of_neg (by simpa using taken)]
  verbose_iff := by
    have on : options.verbose = true := rest.verbose_iff.2 (.inl rfl)
    rcases h with rfl | rfl <;> simp [on]
  limit := by
    refine .cons_other (fun m sets => ?_) rest.limit
    rcases h with rfl | rfl
    · exact sets.ne_verbose rfl
    · exact not_isLong_of_short sets.isLong

theorem Understood.cons_positional (short : ¬IsLong argument) (notShort : argument ≠ "-v")
    (rest : Understood start arguments options left) :
    Understood start (argument :: arguments) options (argument :: left) where
  accepted := List.forall_mem_cons.2 ⟨fun refused => short refused.1, rest.accepted⟩
  left_eq := by
    rw [rest.left_eq, positional, positional,
      List.filter_cons_of_pos (by simp [short, notShort])]
  verbose_iff := by
    have notVerbose : argument ≠ "--verbose" := fun same => short (same ▸ by decide)
    simpa [notVerbose.symm, notShort.symm] using rest.verbose_iff
  limit := .cons_other (fun _ sets => short sets.isLong) rest.limit

end

theorem parseFrom_exact (start : Options) (arguments : List String) :
    match parseFrom start arguments with
    | .error e => FirstRefused arguments e
    | .ok (options, left) => Understood start arguments options left := by
  induction arguments generalizing start with
  | nil => exact ⟨List.forall_mem_nil _, rfl, by simp, .inr ⟨List.forall_mem_nil _, rfl⟩⟩
  | cons argument rest ih =>
    rcases parseFrom_cons_cases start argument rest with ⟨e, refused, complaint, step⟩ |
      ⟨n, sets, step⟩ | ⟨verbose, step⟩ | ⟨⟨short, notShort⟩, step⟩
    · rw [step]
      exact ⟨[], argument, rest, rfl, List.forall_mem_nil _, refused, complaint⟩
    · rw [step]
      have rest := ih { start with limit := n }
      split at rest
      · exact rest.cons sets.accepted
      · exact rest.cons_limit sets
    · rw [step]
      have rest := ih { start with verbose := true }
      split at rest
      · exact rest.cons (not_isRefused_of_verbose verbose)
      · exact rest.cons_verbose verbose
    · rw [step]
      have rest := ih start
      split at rest
      next e failed =>
        rw [failed]
        exact rest.cons fun refused => short refused.1
      next options left done =>
        rw [done]
        exact rest.cons_positional short notShort

/-- The arguments are refused exactly when one of them looks like an option and is none, with the
error of the leftmost one. Otherwise the options say whether `-v` or `--verbose` occurs and what the
last limit is, and the arguments that are neither long nor `-v` are left in their order. -/
theorem options_exact (arguments : List String) :
    ((∃ e, parse arguments = .error e) ↔ ∃ a ∈ arguments, IsRefused a) ∧
    match parse arguments with
    | .error e => FirstRefused arguments e
    | .ok (options, left) =>
      left = positional arguments ∧
        (options.verbose ↔ "-v" ∈ arguments ∨ "--verbose" ∈ arguments) ∧
        LastLimit defaultLimit arguments options.limit := by
  have exact := parseFrom_exact {} arguments
  rw [← parse] at exact
  cases result : parse arguments with
  | error e =>
    rw [result] at exact
    refine ⟨⟨fun _ => ?_, fun _ => ⟨e, rfl⟩⟩, exact⟩
    obtain ⟨before, a, after, rfl, _, refused, _⟩ := exact
    exact ⟨a, List.mem_append_right before List.mem_cons_self, refused⟩
  | ok understood =>
    rw [result] at exact
    refine ⟨⟨?_, ?_⟩, exact.left_eq, by simpa using exact.verbose_iff, exact.limit⟩
    · rintro ⟨_, failed⟩
      cases failed
    · rintro ⟨a, mem, refused⟩
      exact (exact.accepted a mem refused).elim

/-- One dash is no option, a later limit counts, and a plus sign and zeros before it do no harm. -/
example : parse ["-x", "--max-depth=12", "-v", "1 - 2", "--max-depth=+007"] =
    .ok (⟨7, true⟩, ["-x", "1 - 2"]) := by decide

end Options
end Reckon
