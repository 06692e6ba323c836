import Reckon.Token.Scan

/-!
The texts of the kinds of tokens, said without the scanner. What the scanner cuts off is a text of
the kind it reports, and a text that is followed by a blank or by nothing is cut off whole.
-/

namespace Reckon
namespace Token

abbrev AllDigits (cs : List Char) : Prop := ∀ c ∈ cs, c.isDigit = true

/-- `[0-9]+` -/
def IsDigits (cs : List Char) : Prop := cs ≠ [] ∧ AllDigits cs

/-- `[eE][+-]?[0-9]+` -/
inductive IsExponent : List Char → Prop where
  | plain {mark : Char} {digits : List Char} (letter : mark = 'e' ∨ mark = 'E')
      (h : IsDigits digits) : IsExponent (mark :: digits)
  | signed {mark sign : Char} {digits : List Char} (letter : mark = 'e' ∨ mark = 'E')
      (plusMinus : sign = '+' ∨ sign = '-') (h : IsDigits digits) :
      IsExponent (mark :: sign :: digits)

/-- Digits with an exponent, with a point after or among them, or with a point before them. -/
inductive IsFloat : List Char → Prop where
  | exponent {whole e : List Char} (h : IsDigits whole) (exp : IsExponent e) : IsFloat (whole ++ e)
  | point {whole fraction e : List Char} (h : IsDigits whole) (hf : AllDigits fraction)
      (exp : e = [] ∨ IsExponent e) : IsFloat (whole ++ '.' :: (fraction ++ e))
  | fraction {fraction e : List Char} (h : IsDigits fraction) (exp : e = [] ∨ IsExponent e) :
      IsFloat ('.' :: (fraction ++ e))

/-- `[A-Za-z][A-Za-z0-9]*` -/
def IsWord : List Char → Prop
  | [] => False
  | c :: cs => c.isAlpha = true ∧ ∀ d ∈ cs, d.isAlphanum = true

def keywords : List String := ["True", "False", "and", "or", "not"]

/-- The texts of a kind of tokens. -/
def Spells : TokenKind → List Char → Prop
  | .name, cs => IsWord cs ∧ String.ofList cs ∉ keywords
  | .int, cs => IsDigits cs
  | .float, cs => IsFloat cs
  | kind, cs => kind.spelling? = some (String.ofList cs)

/-- A blank comes next, or nothing. -/
def Apart (rest : List Char) : Prop := ∀ c ∈ rest.head?, isBlank c = true

section
variable {p : Char → Bool} {cs text rest digits e : List Char} {kind : TokenKind} {c : Char}

theorem eq_of_isBlank (h : isBlank c = true) : c = ' ' ∨ c = '\t' ∨ c = '\r' := by
  simpa [isBlank, or_assoc] using h

theorem Apart.cases (h : Apart rest) :
    rest = [] ∨ ∃ cs, rest = ' ' :: cs ∨ rest = '\t' :: cs ∨ rest = '\r' :: cs := by
  cases rest with
  | nil => exact .inl rfl
  | cons c cs => rcases eq_of_isBlank (h c rfl) with rfl | rfl | rfl <;> simp

theorem takeWhile_row (all : ∀ c ∈ digits, p c = true) (stop : ∀ c ∈ rest.head?, p c = false) :
    (digits ++ rest).takeWhile p = digits := by
  rw [List.takeWhile_append_of_pos all]
  cases rest with
  | nil => simp
  | cons c rest => simp [stop c rfl]

theorem dropWhile_row (all : ∀ c ∈ digits, p c = true) (stop : ∀ c ∈ rest.head?, p c = false) :
    (digits ++ rest).dropWhile p = rest := by
  rw [List.dropWhile_append_of_pos all]
  cases rest with
  | nil => rfl
  | cons c rest => simp [stop c rfl]

/-- Where a row of such characters ends can be told from the text. -/
theorem row_unique {row row' rest' : List Char} (all : ∀ c ∈ row, p c = true)
    (all' : ∀ c ∈ row', p c = true) (stop : ∀ c ∈ rest.head?, p c = false)
    (stop' : ∀ c ∈ rest'.head?, p c = false) (same : row ++ rest = row' ++ rest') :
    row = row' ∧ rest = rest' := by
  have taken := congrArg (List.takeWhile p) same
  have dropped := congrArg (List.dropWhile p) same
  rw [takeWhile_row all stop, takeWhile_row all' stop'] at taken
  rw [dropWhile_row all stop, dropWhile_row all' stop'] at dropped
  exact ⟨taken, dropped⟩

theorem Apart.not_isDigit (h : Apart rest) : ∀ c ∈ rest.head?, c.isDigit = false := by
  intro c mem
  rcases eq_of_isBlank (h c mem) with rfl | rfl | rfl <;> rfl

theorem IsExponent.exists_cons (h : IsExponent e) :
    ∃ c cs, e = c :: cs ∧ (c = 'e' ∨ c = 'E') := by
  cases h with
  | plain letter _ | signed letter _ _ => exact ⟨_, _, rfl, letter⟩

theorem IsExponent.not_isDigit (h : IsExponent e) : ∀ c ∈ (e ++ rest).head?, c.isDigit = false := by
  obtain ⟨d, ds, rfl, letter⟩ := h.exists_cons
  intro c mem
  cases mem
  rcases letter with rfl | rfl <;> rfl

theorem IsExponent.ne_point (h : IsExponent e) : ∀ c ∈ (e ++ rest).head?, c ≠ '.' := by
  obtain ⟨d, ds, rfl, letter⟩ := h.exists_cons
  intro c mem
  cases mem
  rcases letter with rfl | rfl <;> decide

theorem IsDigits.exists_cons (h : IsDigits cs) :
    ∃ d ds, cs = d :: ds ∧ d.isDigit = true := by
  cases cs with
  | nil => exact absurd rfl h.1
  | cons d ds => exact ⟨d, ds, rfl, h.2 d (by simp)⟩

theorem signedDigits_plain (h : IsDigits digits) (apart : Apart rest) :
    signedDigits (digits ++ rest) = digits := by
  obtain ⟨d, ds, rfl, digit⟩ := h.exists_cons
  have noSign : ¬(d = '+' ∨ d = '-') := by
    rintro (rfl | rfl) <;> cases digit
  rw [List.cons_append, signedDigits, if_neg noSign, ← List.cons_append,
    takeWhile_row h.2 apart.not_isDigit]

theorem signedDigits_signed {sign : Char} (plusMinus : sign = '+' ∨ sign = '-')
    (h : IsDigits digits) (apart : Apart rest) :
    signedDigits (sign :: (digits ++ rest)) = sign :: digits := by
  rw [signedDigits, if_pos plusMinus, takeWhile_row h.2 apart.not_isDigit]
  obtain ⟨d, ds, rfl, _⟩ := h.exists_cons
  rfl

theorem exponent_append (h : IsExponent e) (apart : Apart rest) : exponent (e ++ rest) = e := by
  cases h with
  | plain letter h =>
    rw [List.cons_append, exponent, if_pos letter, signedDigits_plain h apart]
    obtain ⟨d, ds, rfl, _⟩ := h.exists_cons
    rfl
  | signed letter plusMinus h =>
    rw [List.cons_append, exponent, if_pos letter, List.cons_append,
      signedDigits_signed plusMinus h apart]

theorem exponent_apart (apart : Apart rest) : exponent rest = [] := by
  rcases apart.cases with rfl | ⟨cs, rfl | rfl | rfl⟩ <;> rfl

theorem exponent_optional (h : e = [] ∨ IsExponent e) (apart : Apart rest) :
    exponent (e ++ rest) = e := by
  rcases h with rfl | h
  · exact exponent_apart apart
  · exact exponent_append h apart

theorem not_isDigit_optional (h : e = [] ∨ IsExponent e) (apart : Apart rest) :
    ∀ c ∈ (e ++ rest).head?, c.isDigit = false := by
  rcases h with rfl | h
  · exact apart.not_isDigit
  · exact h.not_isDigit

/-- A number without a point is an integer or has an exponent. -/
theorem number?_of_ne_point (h : IsDigits digits) (stop : ∀ c ∈ rest.head?, c.isDigit = false)
    (point : ∀ c ∈ rest.head?, c ≠ '.') :
    number? (digits ++ rest) =
      match exponent rest with
      | [] => some (.int, digits)
      | e => some (.float, digits ++ e) := by
  rw [number?, takeWhile_row h.2 stop, dropWhile_row h.2 stop]
  split
  next => exact absurd rfl (point _ rfl)
  next =>
    cases exponent rest <;> exact if_neg h.1

theorem number?_int (h : IsDigits digits) (apart : Apart rest) :
    number? (digits ++ rest) = some (.int, digits) := by
  rw [number?_of_ne_point h apart.not_isDigit, exponent_apart apart]
  intro c mem
  rcases eq_of_isBlank (apart c mem) with rfl | rfl | rfl <;> decide

/-- A number with a point, whatever stands on its two sides. -/
theorem number?_point {whole fraction : List Char} (hw : AllDigits whole) (hf : AllDigits fraction)
    (digit : ¬(whole = [] ∧ fraction = [])) (exp : e = [] ∨ IsExponent e) (apart : Apart rest) :
    number? (whole ++ '.' :: (fraction ++ e) ++ rest) =
      some (.float, whole ++ '.' :: (fraction ++ e)) := by
  have stop : ∀ c ∈ ('.' :: (fraction ++ (e ++ rest))).head?, c.isDigit = false := by
    intro c mem
    cases mem
    rfl
  have stop' := not_isDigit_optional exp apart
  rw [List.append_assoc, List.cons_append, List.append_assoc, number?, takeWhile_row hw stop,
    dropWhile_row hw stop]
  simp only [takeWhile_row hf stop', dropWhile_row hf stop', if_neg digit,
    exponent_optional exp apart]

theorem number?_float (h : IsFloat text) (apart : Apart rest) :
    number? (text ++ rest) = some (.float, text) := by
  cases h with
  | @exponent whole e h exp =>
    rw [List.append_assoc, number?_of_ne_point h exp.not_isDigit exp.ne_point,
      exponent_append exp apart]
    cases exp <;> rfl
  | point h hf exp => exact number?_point h.2 hf (fun both => h.1 both.1) exp apart
  | fraction h exp =>
    have empty : AllDigits [] := fun c mem => nomatch mem
    exact number?_point empty h.2 (fun both => h.1 both.2) exp apart

theorem word?_append (h : IsWord text) (apart : Apart rest) :
    word? (text ++ rest) = some (nameKind text, text) := by
  cases text with
  | nil => exact h.elim
  | cons c cs =>
    have all : ∀ d ∈ c :: cs, d.isAlphanum = true := by
      intro d mem
      rcases List.mem_cons.1 mem with rfl | mem
      · simp [Char.isAlphanum, h.1]
      · exact h.2 d mem
    have stop : ∀ d ∈ rest.head?, d.isAlphanum = false := by
      intro d mem
      rcases eq_of_isBlank (apart d mem) with rfl | rfl | rfl <;> rfl
    have letter : c.isAlpha = true := h.1
    rw [List.cons_append, word?, if_pos letter, ← List.cons_append, takeWhile_row all stop]

theorem nameKind_eq_name (h : String.ofList text ∉ keywords) : nameKind text = .name := by
  unfold nameKind
  split <;> simp_all [keywords]

theorem word?_eq_none (h : ∀ c ∈ cs.head?, c.isAlpha = false) : word? cs = none := by
  cases cs with
  | nil => rfl
  | cons c cs => simp [word?, h c rfl]

theorem not_isAlpha_of_isDigit (h : c.isDigit = true) : c.isAlpha = false := by
  have digit : (c.val ≥ 48 && c.val ≤ 57) = true := h
  have letter : c.isAlpha =
      (decide (c.val ≥ 65 ∧ c.val ≤ 90) || (decide (c.val ≥ 97) && decide (c.val ≤ 122))) := rfl
  rw [letter]
  grind

theorem IsDigits.not_isAlpha (h : IsDigits digits) :
    ∀ c ∈ (digits ++ rest).head?, c.isAlpha = false := by
  obtain ⟨d, ds, rfl, digit⟩ := h.exists_cons
  intro c mem
  cases mem
  exact not_isAlpha_of_isDigit digit

theorem IsFloat.exists_cons (h : IsFloat text) :
    ∃ c cs, text = c :: cs ∧ (c.isDigit = true ∨ c = '.') := by
  cases h with
  | exponent h _ | point h _ _ =>
    obtain ⟨d, ds, rfl, digit⟩ := h.exists_cons
    exact ⟨d, _, rfl, .inl digit⟩
  | fraction _ _ => exact ⟨_, _, rfl, .inr rfl⟩

theorem IsFloat.not_isAlpha (h : IsFloat text) :
    ∀ c ∈ (text ++ rest).head?, c.isAlpha = false := by
  obtain ⟨d, ds, rfl, first⟩ := h.exists_cons
  intro c mem
  cases mem
  rcases first with digit | rfl
  · exact not_isAlpha_of_isDigit digit
  · rfl

theorem first?_fixed (h : kind.spelling? = some (String.ofList text)) (apart : Apart rest) :
    first? (text ++ rest) = some (kind, text) := by
  have spelled {s : String} (eq : some s = some (String.ofList text)) : text = s.toList := by
    rw [Option.some.inj eq, String.toList_ofList]
  cases kind with
  | name | int | float => cases h
  | relation op =>
    cases op <;> rw [spelled h] <;> rcases apart.cases with rfl | ⟨cs, rfl | rfl | rfl⟩ <;> rfl
  | _ => rw [spelled h]; rcases apart.cases with rfl | ⟨cs, rfl | rfl | rfl⟩ <;> rfl

/-- A token is cut off whole if nothing that could lengthen it follows. -/
theorem first?_append (h : Spells kind text) (apart : Apart rest) :
    first? (text ++ rest) = some (kind, text) := by
  cases kind with
  | name =>
    rw [first?, word?_append h.1 apart, nameKind_eq_name h.2]
    rfl
  | int =>
    have digits : IsDigits text := h
    rw [first?, word?_eq_none digits.not_isAlpha, number?_int digits apart]
    rfl
  | float =>
    have float : IsFloat text := h
    rw [first?, word?_eq_none float.not_isAlpha, number?_float float apart]
    rfl
  | _ => exact first?_fixed h apart

theorem allDigits_takeWhile : AllDigits (cs.takeWhile Char.isDigit) := by
  intro c mem
  exact List.all_eq_true.1 List.all_takeWhile c mem

theorem signedDigits_spells (letter : c = 'e' ∨ c = 'E') (some : signedDigits cs ≠ []) :
    IsExponent (c :: signedDigits cs) := by
  cases cs with
  | nil => exact absurd rfl some
  | cons d ds =>
    rw [signedDigits] at some ⊢
    split at some
    next sign =>
      rw [if_pos sign]
      cases row : ds.takeWhile Char.isDigit with
      | nil => simp [row] at some
      | cons e es =>
        refine .signed letter sign ⟨by simp, ?_⟩
        rw [← row]
        exact allDigits_takeWhile
    next noSign =>
      rw [if_neg noSign]
      exact .plain letter ⟨some, allDigits_takeWhile⟩

theorem exponent_spells (cs : List Char) : exponent cs = [] ∨ IsExponent (exponent cs) := by
  cases cs with
  | nil => exact .inl rfl
  | cons c cs =>
    rw [exponent]
    split
    next letter =>
      cases row : signedDigits cs with
      | nil => exact .inl rfl
      | cons d ds =>
        have spelled := signedDigits_spells letter (row ▸ List.cons_ne_nil d ds)
        rw [row] at spelled
        exact .inr spelled
    next => exact .inl rfl

theorem number?_spells (h : number? cs = some (kind, text)) : Spells kind text := by
  rw [number?] at h
  split at h
  next rest _ =>
    dsimp only at h
    split at h
    next => cases h
    next digit =>
      cases h
      have exp := exponent_spells (rest.dropWhile Char.isDigit)
      by_cases whole : cs.takeWhile Char.isDigit = []
      · rw [whole]
        exact IsFloat.fraction ⟨fun none => digit ⟨whole, none⟩, allDigits_takeWhile⟩ exp
      · exact IsFloat.point ⟨whole, allDigits_takeWhile⟩ allDigits_takeWhile exp
  next =>
    split at h
    next => cases h
    next whole =>
      have digits : IsDigits (cs.takeWhile Char.isDigit) := ⟨whole, allDigits_takeWhile⟩
      split at h
      next =>
        cases h
        exact digits
      next e some =>
        cases h
        exact IsFloat.exponent digits ((exponent_spells _).resolve_left some)

theorem nameKind_spells (h : IsWord text) : Spells (nameKind text) text := by
  unfold nameKind
  split
  case h_6 noTrue noFalse noAnd noOr noNot =>
    refine ⟨h, ?_⟩
    simp only [keywords, List.mem_cons, List.not_mem_nil, or_false, not_or]
    exact ⟨noTrue, noFalse, noAnd, noOr, noNot⟩
  all_goals next eq => exact congrArg some eq.symm

theorem word?_spells (h : word? cs = some (kind, text)) : Spells kind text := by
  cases cs with
  | nil => cases h
  | cons c cs =>
    rw [word?] at h
    split at h
    next letter =>
      cases h
      have word : IsWord ((c :: cs).takeWhile Char.isAlphanum) := by
        have alphanum : c.isAlphanum = true := by simp [Char.isAlphanum, letter]
        rw [List.takeWhile_cons_of_pos alphanum]
        exact ⟨letter, fun d mem => List.all_eq_true.1 List.all_takeWhile d mem⟩
      exact nameKind_spells word
    next => cases h

theorem sign?_spells (h : sign? cs = some (kind, text)) : Spells kind text := by
  unfold sign? at h
  split at h <;> cases h <;> exact rfl

/-- What is cut off is a text of its kind. -/
theorem first?_spells (h : first? cs = some (kind, text)) : Spells kind text := by
  rw [first?] at h
  rcases word : word? cs with _ | ⟨k, w⟩
  · rcases number : number? cs with _ | ⟨k, n⟩
    · rw [word, number] at h
      exact sign?_spells h
    · rw [word, number] at h
      cases h
      exact number?_spells number
  · rw [word] at h
    cases h
    exact word?_spells word

end

section
variable {text e : List Char} {kind : TokenKind} {c : Char}

/-- What the parts of numbers are written with. -/
def numberMarks : List Char := ['.', 'e', 'E', '+', '-']

theorem IsExponent.mem_numberMarks (h : IsExponent e) :
    ∀ c ∈ e, c.isDigit = true ∨ c ∈ numberMarks := by
  cases h with
  | plain letter digits =>
    refine List.forall_mem_cons.2 ⟨.inr ?_, fun c mem => .inl (digits.2 c mem)⟩
    rcases letter with rfl | rfl <;> decide
  | signed letter plusMinus digits =>
    refine List.forall_mem_cons.2 ⟨.inr ?_, List.forall_mem_cons.2 ⟨.inr ?_, fun c mem =>
      .inl (digits.2 c mem)⟩⟩
    · rcases letter with rfl | rfl <;> decide
    · rcases plusMinus with rfl | rfl <;> decide

theorem IsFloat.mem_numberMarks (h : IsFloat text) :
    ∀ c ∈ text, c.isDigit = true ∨ c ∈ numberMarks := by
  have row {digits : List Char} (h : AllDigits digits) :
      ∀ c ∈ digits, c.isDigit = true ∨ c ∈ numberMarks := fun c mem => .inl (h c mem)
  have tail {e : List Char} (exp : e = [] ∨ IsExponent e) :
      ∀ c ∈ e, c.isDigit = true ∨ c ∈ numberMarks := by
    rcases exp with rfl | exp
    · exact nofun
    · exact exp.mem_numberMarks
  have point : '.'.isDigit = true ∨ '.' ∈ numberMarks := by decide
  cases h with
  | exponent digits exp => exact List.forall_mem_append.2 ⟨row digits.2, exp.mem_numberMarks⟩
  | point digits fraction exp =>
    exact List.forall_mem_append.2 ⟨row digits.2, List.forall_mem_cons.2
      ⟨point, List.forall_mem_append.2 ⟨row fraction, tail exp⟩⟩⟩
  | fraction digits exp =>
    exact List.forall_mem_cons.2 ⟨point, List.forall_mem_append.2 ⟨row digits.2, tail exp⟩⟩

theorem IsWord.isAlphanum (h : IsWord text) : ∀ c ∈ text, c.isAlphanum = true := by
  cases text with
  | nil => exact nofun
  | cons c cs => exact List.forall_mem_cons.2 ⟨by simp [Char.isAlphanum, h.1], h.2⟩

theorem utf8Size_of_isAlphanum (h : c.isAlphanum = true) : c.utf8Size = 1 := by
  have form : c.isAlphanum = (decide (c.val ≥ 65 ∧ c.val ≤ 90) ||
      (decide (c.val ≥ 97) && decide (c.val ≤ 122)) ||
      (decide (c.val ≥ 48) && decide (c.val ≤ 57))) := rfl
  rw [form] at h
  rw [Char.utf8Size_eq_one_iff]
  grind

theorem utf8Size_of_mem_spelling {word : String} (spelling : kind.spelling? = some word) :
    ∀ c ∈ word.toList, c.utf8Size = 1 := by
  have all : ∀ s ∈ kind.spelling?, s.toList.all (·.utf8Size == 1) := by
    cases kind with
    | relation op => cases op <;> decide
    | _ => decide
  simpa using all word spelling

/-- Tokens are written in ASCII, one byte for a character. -/
theorem Spells.utf8Size (h : Spells kind text) : ∀ c ∈ text, c.utf8Size = 1 := by
  intro c mem
  have digit (digit : c.isDigit = true) : c.utf8Size = 1 :=
    utf8Size_of_isAlphanum (by simp [Char.isAlphanum, digit])
  have mark (mark : c ∈ numberMarks) : c.utf8Size = 1 := by
    have all : numberMarks.all (·.utf8Size == 1) = true := rfl
    exact eq_of_beq (List.all_eq_true.1 all c mark)
  have fixed (spelling : kind.spelling? = some (String.ofList text)) : c.utf8Size = 1 :=
    utf8Size_of_mem_spelling spelling c (by rwa [String.toList_ofList])
  cases kind with
  | name => exact utf8Size_of_isAlphanum (h.1.isAlphanum c mem)
  | int =>
    have digits : IsDigits text := h
    exact digit (digits.2 c mem)
  | float =>
    have float : IsFloat text := h
    exact (float.mem_numberMarks c mem).elim digit mark
  | _ => exact fixed h

end

end Token
end Reckon
