import Reckon.Proofs.LineScanning

/-!
The longest match. The patterns of the kinds of tokens overlap: a keyword is also a name, an integer
begins many floats, a sign may begin a longer sign. What the scanner cuts off at the front of a text
is the longest of all beginnings that match any pattern, and it cuts off nothing only where no
beginning matches one.
-/

namespace Reckon
namespace Token

/-- The pattern of a kind. That of names matches keywords as well. -/
def Pattern : TokenKind → List Char → Prop
  | .name, cs => IsWord cs
  | kind, cs => Spells kind cs

/-- The whole text matches some pattern. -/
def IsLexeme (text : List Char) : Prop := ∃ kind, Pattern kind text

/-- The text stands at the front of `cs`, matches a pattern, and is no shorter than any other text
that does. -/
structure Longest (text cs : List Char) : Prop where
  front : text <+: cs
  lexeme : IsLexeme text
  greatest : ∀ other, other <+: cs → IsLexeme other → other.length ≤ text.length

/-- A token of at least `n` characters. -/
def AtLeast (n : Nat) (found : Option (TokenKind × List Char)) : Prop :=
  ∃ kind text, found = some (kind, text) ∧ n ≤ text.length

section
variable {p : Char → Bool} {cs text rest digits e : List Char} {kind : TokenKind} {c : Char}

theorem pattern_iff (other : kind ≠ .name) : Pattern kind text ↔ Spells kind text := by
  cases kind with
  | name => exact absurd rfl other
  | _ => exact Iff.rfl

theorem Spells.pattern (h : Spells kind text) : Pattern kind text := by
  by_cases name : kind = .name
  · subst name
    exact h.1
  · exact (pattern_iff name).2 h

theorem isLexeme_iff : IsLexeme text ↔ ∃ kind, Spells kind text := by
  constructor
  · rintro ⟨kind, h⟩
    by_cases name : kind = .name
    · subst name
      exact ⟨_, nameKind_spells h⟩
    · exact ⟨kind, (pattern_iff name).1 h⟩
  · rintro ⟨kind, h⟩
    exact ⟨kind, h.pattern⟩

theorem length_le_takeWhile (all : ∀ c ∈ text, p c = true) (rest : List Char) :
    text.length ≤ ((text ++ rest).takeWhile p).length := by
  rw [List.takeWhile_append_of_pos all, List.length_append]
  exact Nat.le_add_right _ _

theorem word?_atLeast (h : IsWord text) (rest : List Char) :
    AtLeast text.length (word? (text ++ rest)) := by
  cases text with
  | nil => exact h.elim
  | cons c cs =>
    have all : ∀ d ∈ c :: cs, d.isAlphanum = true :=
      List.forall_mem_cons.2 ⟨by simp [Char.isAlphanum, h.1], h.2⟩
    rw [List.cons_append, word?, if_pos h.1]
    exact ⟨_, _, rfl, length_le_takeWhile all rest⟩

theorem exponent_cons (letter : c = 'e' ∨ c = 'E') (some : signedDigits cs ≠ []) :
    exponent (c :: cs) = c :: signedDigits cs := by
  rw [exponent, if_pos letter]
  cases row : signedDigits cs with
  | nil => exact absurd row some
  | cons d ds => rfl

theorem length_le_signedDigits (h : IsDigits digits) (rest : List Char) :
    digits.length ≤ (signedDigits (digits ++ rest)).length := by
  have row := length_le_takeWhile h.2 rest
  obtain ⟨d, ds, rfl, digit⟩ := h.exists_cons
  have noSign : ¬(d = '+' ∨ d = '-') := by
    rintro (rfl | rfl) <;> cases digit
  rw [List.cons_append, signedDigits, if_neg noSign]
  exact row

theorem length_le_signedDigits_sign {sign : Char} (plusMinus : sign = '+' ∨ sign = '-')
    (h : IsDigits digits) (rest : List Char) :
    digits.length + 1 ≤ (signedDigits (sign :: (digits ++ rest))).length := by
  have row := length_le_takeWhile h.2 rest
  have pos := List.length_pos_iff.2 h.1
  rw [signedDigits, if_pos plusMinus]
  cases eq : (digits ++ rest).takeWhile Char.isDigit with
  | nil =>
    rw [eq, List.length_nil] at row
    omega
  | cons d ds =>
    rw [eq] at row
    exact Nat.succ_le_succ row

theorem length_le_exponent (h : IsExponent e) (rest : List Char) :
    e.length ≤ (exponent (e ++ rest)).length := by
  cases h with
  | plain letter h =>
    have row := length_le_signedDigits h rest
    have pos := List.length_pos_iff.2 h.1
    rw [List.cons_append, exponent_cons letter (List.ne_nil_of_length_pos (by omega))]
    exact Nat.succ_le_succ row
  | signed letter plusMinus h =>
    have row := length_le_signedDigits_sign plusMinus h rest
    rw [List.cons_append, List.cons_append,
      exponent_cons letter (List.ne_nil_of_length_pos (by omega))]
    exact Nat.succ_le_succ row

/-- A number that begins with digits takes in all of them. -/
theorem number?_atLeast_digits (h : IsDigits digits) (rest : List Char) :
    AtLeast digits.length (number? (digits ++ rest)) := by
  have row := length_le_takeWhile h.2 rest
  have some : (digits ++ rest).takeWhile Char.isDigit ≠ [] :=
    List.ne_nil_of_length_pos (Nat.lt_of_lt_of_le (List.length_pos_iff.2 h.1) row)
  rw [number?]
  split
  · dsimp only
    rw [if_neg fun both => some both.1]
    exact ⟨_, _, rfl, by rw [List.length_append]; omega⟩
  · rw [if_neg some]
    split
    · exact ⟨_, _, rfl, row⟩
    · exact ⟨_, _, rfl, by rw [List.length_append]; omega⟩

theorem number?_atLeast_exponent {whole : List Char} (h : IsDigits whole) (exp : IsExponent e)
    (rest : List Char) : AtLeast (whole ++ e).length (number? (whole ++ e ++ rest)) := by
  have long := length_le_exponent exp rest
  obtain ⟨_, _, rfl, _⟩ := exp.exists_cons
  rw [List.append_assoc, number?_of_ne_point h exp.not_isDigit exp.ne_point]
  split
  next none =>
    rw [none] at long
    cases long
  next =>
    refine ⟨_, _, rfl, ?_⟩
    rw [List.length_append, List.length_append]
    omega

/-- The digits after a point, and the exponent after them. -/
theorem length_le_fraction {fraction : List Char} (hf : AllDigits fraction)
    (exp : e = [] ∨ IsExponent e) (rest : List Char) :
    (fraction ++ e).length ≤ ((fraction ++ (e ++ rest)).takeWhile Char.isDigit ++
      exponent ((fraction ++ (e ++ rest)).dropWhile Char.isDigit)).length := by
  rw [List.length_append, List.length_append]
  rcases exp with rfl | exp
  · have row := length_le_takeWhile hf rest
    rw [List.length_nil, List.nil_append]
    omega
  · rw [takeWhile_row hf exp.not_isDigit, dropWhile_row hf exp.not_isDigit]
    exact Nat.add_le_add_left (length_le_exponent exp rest) _

theorem number?_atLeast_point {whole fraction : List Char} (hw : AllDigits whole)
    (hf : AllDigits fraction) (digit : ¬(whole = [] ∧ fraction = [])) (exp : e = [] ∨ IsExponent e)
    (rest : List Char) : AtLeast (whole ++ '.' :: (fraction ++ e)).length
      (number? (whole ++ '.' :: (fraction ++ e) ++ rest)) := by
  have stop : ∀ c ∈ ('.' :: (fraction ++ (e ++ rest))).head?, c.isDigit = false := by
    intro c mem
    cases mem
    rfl
  have tail := length_le_fraction hf exp rest
  -- The digits that follow the point are at least those of the fraction.
  have digit' : ¬(whole = [] ∧ (fraction ++ (e ++ rest)).takeWhile Char.isDigit = []) := by
    rintro ⟨rfl, none⟩
    have row := length_le_takeWhile hf (e ++ rest)
    rw [none] at row
    exact digit ⟨rfl, List.length_eq_zero_iff.1 (Nat.le_zero.1 row)⟩
  rw [List.append_assoc, List.cons_append, List.append_assoc, number?, takeWhile_row hw stop,
    dropWhile_row hw stop]
  simp only [if_neg digit']
  refine ⟨_, _, rfl, ?_⟩
  rw [List.length_append, List.length_append, List.length_cons, List.length_cons]
  omega

theorem number?_atLeast_float (h : IsFloat text) (rest : List Char) :
    AtLeast text.length (number? (text ++ rest)) := by
  cases h with
  | exponent h exp => exact number?_atLeast_exponent h exp rest
  | point h hf exp => exact number?_atLeast_point h.2 hf (fun both => h.1 both.1) exp rest
  | fraction h exp =>
    have empty : AllDigits [] := fun c mem => nomatch mem
    exact number?_atLeast_point empty h.2 (fun both => h.1 both.2) exp rest

theorem first?_atLeast_word (h : IsWord text) (rest : List Char) :
    AtLeast text.length (first? (text ++ rest)) := by
  obtain ⟨kind, found, cut, long⟩ := word?_atLeast h rest
  exact ⟨kind, found, by rw [first?, cut]; rfl, long⟩

theorem first?_atLeast_number (notAlpha : ∀ c ∈ (text ++ rest).head?, c.isAlpha = false)
    (h : AtLeast text.length (number? (text ++ rest))) :
    AtLeast text.length (first? (text ++ rest)) := by
  obtain ⟨kind, found, cut, long⟩ := h
  exact ⟨kind, found, by rw [first?, word?_eq_none notAlpha, cut]; rfl, long⟩

/-- A sign of one character, or the longer one it begins. -/
theorem sign?_atLeast_one (sign : c = '>' ∨ c = '<' ∨ c = '=') (rest : List Char) :
    AtLeast 1 (sign? (c :: rest)) := by
  by_cases follow : ∃ tail, rest = '=' :: tail
  · obtain ⟨tail, rfl⟩ := follow
    rcases sign with rfl | rfl | rfl <;> exact ⟨_, _, rfl, Nat.le_succ 1⟩
  · have other : ∀ tail, rest = '=' :: tail → False := fun tail eq => follow ⟨tail, eq⟩
    rcases sign with rfl | rfl | rfl <;> rw [sign?] <;>
      first | exact ⟨_, _, rfl, Nat.le_refl 1⟩ | exact other

theorem first?_atLeast_fixed (h : kind.spelling? = some (String.ofList text)) (rest : List Char) :
    AtLeast text.length (first? (text ++ rest)) := by
  have spelled {s : String} (eq : some s = some (String.ofList text)) : text = s.toList := by
    rw [Option.some.inj eq, String.toList_ofList]
  cases kind with
  | name | int | float => cases h
  | true | false | and | or | not =>
    refine first?_atLeast_word ?_ rest
    rw [spelled h]
    exact ⟨by decide, List.all_eq_true.1 rfl⟩
  | relation op =>
    cases op with
    | greater | less =>
      rw [spelled h]
      exact sign?_atLeast_one (by decide) rest
    | _ =>
      rw [spelled h]
      exact ⟨_, _, rfl, Nat.le_refl _⟩
  | assign =>
    rw [spelled h]
    exact sign?_atLeast_one (by decide) rest
  | _ =>
    rw [spelled h]
    exact ⟨_, _, rfl, Nat.le_refl _⟩

/-- Where a text of a token stands at the front, no less than that text is cut off. -/
theorem first?_atLeast (h : Spells kind text) (rest : List Char) :
    AtLeast text.length (first? (text ++ rest)) := by
  cases kind with
  | name => exact first?_atLeast_word h.1 rest
  | int =>
    have digits : IsDigits text := h
    exact first?_atLeast_number digits.not_isAlpha (number?_atLeast_digits digits rest)
  | float =>
    have float : IsFloat text := h
    exact first?_atLeast_number float.not_isAlpha (number?_atLeast_float float rest)
  | _ => exact first?_atLeast_fixed h rest

theorem first?_longest (h : first? cs = some (kind, text)) : Longest text cs where
  front := first?_isPrefix h
  lexeme := isLexeme_iff.2 ⟨kind, first?_spells h⟩
  greatest := by
    rintro other ⟨rest, rfl⟩ lexeme
    obtain ⟨_, spelled⟩ := isLexeme_iff.1 lexeme
    obtain ⟨_, found, cut, long⟩ := first?_atLeast spelled rest
    obtain ⟨_, rfl⟩ := Prod.mk.inj (Option.some.inj (h.symm.trans cut))
    exact long

/-- No beginning of the text matches a pattern where nothing is cut off. -/
theorem not_isLexeme_of_first? (h : first? cs = none) (front : text <+: cs) :
    ¬IsLexeme text := by
  intro lexeme
  obtain ⟨rest, rfl⟩ := front
  obtain ⟨_, spelled⟩ := isLexeme_iff.1 lexeme
  obtain ⟨_, _, cut, _⟩ := first?_atLeast spelled rest
  rw [h] at cut
  cases cut

theorem isAlpha_of_keyword {word : String} (keyword : word ∈ keywords) :
    ∃ c cs, word.toList = c :: cs ∧ c.isAlpha = true := by
  simp only [keywords, List.mem_cons, List.not_mem_nil, or_false] at keyword
  rcases keyword with rfl | rfl | rfl | rfl | rfl <;> exact ⟨_, _, rfl, rfl⟩

/-- No number is a keyword. -/
theorem ofList_notMem_keywords (h : ∀ c ∈ (text ++ []).head?, c.isAlpha = false) :
    String.ofList text ∉ keywords := by
  intro keyword
  obtain ⟨c, cs, chars, letter⟩ := isAlpha_of_keyword keyword
  rw [String.toList_ofList] at chars
  subst chars
  rw [h c rfl] at letter
  cases letter

/-- A token is of the kind of a keyword exactly when all of its text is that keyword. -/
theorem Spells.spelling?_eq_iff {word : String} (h : Spells kind text) (keyword : word ∈ keywords) :
    kind.spelling? = some word ↔ String.ofList text = word := by
  have noKeyword (none : kind.spelling? = none) (other : String.ofList text ∉ keywords) :
      kind.spelling? = some word ↔ String.ofList text = word := by
    rw [none]
    refine ⟨nofun, ?_⟩
    rintro rfl
    exact absurd keyword other
  cases kind with
  | name => exact noKeyword rfl h.2
  | int =>
    have digits : IsDigits text := h
    exact noKeyword rfl (ofList_notMem_keywords digits.not_isAlpha)
  | float =>
    have float : IsFloat text := h
    exact noKeyword rfl (ofList_notMem_keywords float.not_isAlpha)
  | _ => exact ⟨fun same => Option.some.inj (h.symm.trans same), fun same => same ▸ h⟩

end

end Token
end Reckon
