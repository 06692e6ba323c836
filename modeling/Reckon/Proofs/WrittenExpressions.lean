import Reckon.Proofs.Coverage
import Reckon.Proofs.IntegerArithmetic
import Reckon.Proofs.Partings
import Reckon.Proofs.Programs
import Reckon.Proofs.WrittenDoubles

/-!
The written form of a program determines the program. A construct with operands stands in
parentheses, so its word is not taken for a name, and the two operators `-` differ in how many
operands follow. A name or a constant ends where one of the few characters stands that no token of
this kind has, and its text is of one kind of tokens only. Infinite constants are the exception:
they are written like names.
-/

namespace Reckon

open Token Grammar Double

namespace Literal

/-- The terminal that the constant is written as. -/
def terminal : Literal → Terminal
  | .int _ => .int
  | .float _ => .signedFloat
  | .bool true => .true
  | .bool false => .false

/-- There is no minus sign before the constant. -/
def IsUnsigned : Literal → Prop
  | .int n => 0 ≤ n.toInt
  | .float x => IsPositive x
  | .bool _ => True

/-- What is written of the constant is a token that compiles to the constant. -/
structure IsReadable (l : Literal) : Prop where
  spelled : Spells l.terminal.kind l.value.text.toList
  read : ∀ span c, l.terminal.construct? = some c →
    Tree.compileTerminal l.terminal.name l.value.text span c = .ok (.literal l)

theorem isReadable {l : Literal} (unsigned : l.IsUnsigned)
    (bounded : ∀ x, l = .float x → x.isInf = false) : l.IsReadable := by
  cases l with
  | int n =>
    have text : (Literal.int n).value.text = Numeral.ofInt n := Value.text_int n
    refine ⟨?_, ?_⟩
    · rw [text]
      exact Numeral.isDigits_ofInt unsigned
    · intro span c construct
      cases construct
      rw [text, Tree.compileTerminal, Numeral.int?_ofInt unsigned]
  | float x =>
    have text : (Literal.float x).value.text = Numeral.ofFloat x := Value.text_float x
    obtain ⟨spelled, read⟩ := Numeral.magnitude?_ofFloat unsigned (bounded x rfl)
    refine ⟨?_, ?_⟩
    · rw [text]
      exact spelled
    · intro span c construct
      cases construct
      rw [text, Tree.compileTerminal, Numeral.float?_of_isFloat spelled, read]
  | bool b =>
    refine ⟨?_, ?_⟩
    · cases b <;> rfl
    · intro span c construct
      cases b <;> cases construct <;> rfl

/-- Constants with the same text are the same. -/
theorem IsReadable.eq_of_text {l l' : Literal} (h : l.IsReadable) (h' : l'.IsReadable)
    (terminal : l.terminal = l'.terminal) (text : l.value.text = l'.value.text) : l = l' := by
  obtain ⟨c, construct⟩ : ∃ c, l.terminal.construct? = some c := by
    cases l with
    | int _ | float _ => exact ⟨_, rfl⟩
    | bool b => cases b <;> exact ⟨_, rfl⟩
  have read := h.read ⟨0, 0⟩ c construct
  rw [terminal, text, h'.read _ c (terminal ▸ construct)] at read
  cases read
  rfl

/-- No token is read as a constant with a sign. -/
theorem isUnsigned_of_compileTerminal {k : Terminal} {text : String} {span : Span} {c : Construct}
    {l : Literal} (spelled : Spells k.kind text.toList) (construct : k.construct? = some c)
    (compiled : Tree.compileTerminal k.name text span c = .ok (.literal l)) : l.IsUnsigned := by
  cases k with
  | int =>
    cases construct
    rw [Tree.compileTerminal, Numeral.int?_of_isDigits spelled] at compiled
    split at compiled
    next n read =>
      cases compiled
      rw [IsUnsigned, toInt_of_int64? read]
      exact Int.natCast_nonneg _
    next => cases compiled
  | signedFloat =>
    cases construct
    rw [Tree.compileTerminal, Numeral.float?_of_isFloat spelled] at compiled
    split at compiled
    next x read =>
      cases compiled
      exact Numeral.isPositive_of_magnitude? spelled read
    next => cases compiled
  | true | false =>
    cases construct
    rw [Tree.compileTerminal] at compiled
    split at compiled
    next =>
      cases compiled
      trivial
    next =>
      split at compiled <;> cases compiled
      trivial
  | varName => cases construct

end Literal

theorem UnaryOp.ofSymbol?_symbol (op : UnaryOp) : ofSymbol? op.symbol = some op := by
  cases op <;> decide +kernel

theorem BinaryOp.ofSymbol?_symbol (op : BinaryOp) : ofSymbol? op.symbol = some op := by
  have each : all.all fun op => ofSymbol? op.symbol = some op := by decide +kernel
  simpa using List.all_eq_true.1 each op op.mem_all

theorem UnaryOp.symbol_ne (op : UnaryOp) : op.symbol ≠ "program" ∧ op.symbol ≠ "=" := by
  cases op <;> decide

theorem BinaryOp.symbol_ne (op : BinaryOp) : op.symbol ≠ "program" ∧ op.symbol ≠ "=" := by
  have each : all.all fun op => op.symbol ≠ "program" ∧ op.symbol ≠ "=" := by decide +kernel
  simpa using List.all_eq_true.1 each op op.mem_all

namespace Expr

/-- The word behind the opening parenthesis, where the construct is written in parentheses. -/
def word? : Expr → Option String
  | .program _ => some "program"
  | .assign _ _ => some "="
  | .unary op _ => some op.symbol
  | .binary op _ _ => some op.symbol
  | .variable _ _ | .literal _ => none

/-- What follows the word. The target of an assignment is written as a variable is. -/
def arguments : Expr → List Expr
  | .assign name value => [.variable name [], value]
  | e => e.children

/-- The token that the form begins with, where it is written without parentheses. -/
def token? : Expr → Option (Terminal × String)
  | .variable name _ => some (.varName, name)
  | .literal l => some (l.terminal, l.value.text)
  | .program _ | .assign _ _ | .unary _ _ | .binary _ _ _ => none

/-- Expressions in a row, each between `opening` and `closing`. -/
def row (opening : Char) (closing : List Char) (es : List Expr) : List Char :=
  es.flatMap fun e => opening :: (e.text.toList ++ closing)

section
variable {e e' : Expr} {es es' : List Expr} {opening : Char} {closing rest rest' : List Char}
  {w text : String} {k : Terminal}

theorem word_or_token (e : Expr) :
    (∃ w, e.word? = some w) ∨ ∃ k text, e.token? = some (k, text) := by
  cases e with
  | program _ | assign _ _ | unary _ _ | binary _ _ _ => exact .inl ⟨_, rfl⟩
  | «variable» _ _ | literal _ => exact .inr ⟨_, _, rfl⟩

theorem row_cons (e : Expr) (es : List Expr) :
    row opening closing (e :: es) =
      opening :: (e.text.toList ++ (closing ++ row opening closing es)) := by
  simp [row]

theorem toList_text (e : Expr) : e.text.toList = (e.pieces []).flatMap String.toList := by
  rw [Expr.text, String.toList_join]

theorem flatMap_statementPieces {rest : List String}
    (h : ∀ e ∈ es, ∀ rest, (e.pieces rest).flatMap String.toList =
      e.text.toList ++ rest.flatMap String.toList) :
    (statementPieces es rest).flatMap String.toList =
      row ' ' [] es ++ rest.flatMap String.toList := by
  induction es with
  | nil => rfl
  | cons e es ih =>
    obtain ⟨head, tail⟩ := List.forall_mem_cons.1 h
    simp [statementPieces, head, ih tail, row_cons]

theorem flatMap_indexPieces {rest : List String}
    (h : ∀ e ∈ es, ∀ rest, (e.pieces rest).flatMap String.toList =
      e.text.toList ++ rest.flatMap String.toList) :
    (indexPieces es rest).flatMap String.toList =
      row '[' [']'] es ++ rest.flatMap String.toList := by
  induction es with
  | nil => rfl
  | cons e es ih =>
    obtain ⟨head, tail⟩ := List.forall_mem_cons.1 h
    simp [indexPieces, head, ih tail, row_cons]

/-- The pieces in front of others are the written form in front of them. -/
theorem flatMap_pieces (e : Expr) (rest : List String) :
    (e.pieces rest).flatMap String.toList = e.text.toList ++ rest.flatMap String.toList := by
  induction e using Expr.induction generalizing rest with
  | program statements ih =>
    rw [toList_text]
    simp [pieces, flatMap_statementPieces ih]
  | assign name value ih =>
    rw [toList_text]
    simp [pieces, ih]
  | «variable» name indices ih =>
    rw [toList_text]
    simp [pieces, flatMap_indexPieces ih]
  | literal l =>
    rw [toList_text]
    simp [pieces]
  | unary op operand ih =>
    rw [toList_text]
    simp [pieces, ih]
  | binary op left right ihl ihr =>
    rw [toList_text]
    simp [pieces, ihl, ihr]

theorem toList_of_word (word : e.word? = some w) :
    e.text.toList = '(' :: (w.toList ++ (row ' ' [] e.arguments ++ [')'])) := by
  rw [toList_text]
  cases e with
  | program statements =>
    cases word
    simp [pieces, arguments, children, flatMap_statementPieces fun e _ => e.flatMap_pieces]
  | assign name value =>
    cases word
    simp [pieces, arguments, flatMap_pieces, row, toList_text (.variable _ _), indexPieces]
  | unary op operand =>
    cases word
    simp [pieces, arguments, children, flatMap_pieces, row]
  | binary op left right =>
    cases word
    simp [pieces, arguments, children, flatMap_pieces, row]
  | «variable» _ _ | literal _ => cases word

theorem toList_of_token (token : e.token? = some (k, text)) :
    e.text.toList = text.toList ++ row '[' [']'] e.children := by
  rw [toList_text]
  cases e with
  | «variable» name indices =>
    cases token
    simp [pieces, children, flatMap_indexPieces fun e _ => e.flatMap_pieces]
  | literal l =>
    cases token
    simp [pieces, children, row]
  | program _ | assign _ _ | unary _ _ | binary _ _ _ => cases token

/-- The names of the node are names, and its constant has the property. -/
def IsLexical (constant : Literal → Prop) : Expr → Prop
  | .assign name _ | .variable name _ => Spells .name name.toList
  | .literal l => constant l
  | .program _ | .unary _ _ | .binary _ _ _ => True

/-- All names and constants are written as tokens that are read as them. -/
def IsLegible (e : Expr) : Prop := ∀ part ∈ e.nodes, part.IsLexical Literal.IsReadable

theorem isLegible_iff :
    e.IsLegible ↔ e.IsLexical Literal.IsReadable ∧ ∀ part ∈ e.children, part.IsLegible :=
  forall_mem_nodes

theorem IsLegible.of_arguments (h : e.IsLegible) : ∀ part ∈ e.arguments, part.IsLegible := by
  obtain ⟨own, parts⟩ := isLegible_iff.1 h
  cases e with
  | assign name value =>
    have target : (Expr.variable name []).IsLegible := isLegible_iff.2 ⟨own, nofun⟩
    exact List.forall_mem_cons.2 ⟨target, parts⟩
  | program _ | «variable» _ _ | literal _ | unary _ _ | binary _ _ _ => exact parts

theorem IsLexical.spells (h : e.IsLexical Literal.IsReadable) (token : e.token? = some (k, text)) :
    Spells k.kind text.toList := by
  cases e with
  | «variable» name indices =>
    cases token
    exact h
  | literal l =>
    cases token
    exact Literal.IsReadable.spelled h
  | program _ | assign _ _ | unary _ _ | binary _ _ _ => cases token

/-- The construct with the word in front of these arguments. -/
def ofWord? (w : String) (arguments : List Expr) : Option Expr :=
  if w = "program" then some (.program arguments)
  else if w = "=" then
    match arguments with
    | [.variable name _, value] => some (.assign name value)
    | _ => none
  else
    match arguments with
    | [operand] => (UnaryOp.ofSymbol? w).map fun op => .unary op operand
    | [left, right] => (BinaryOp.ofSymbol? w).map fun op => .binary op left right
    | _ => none

theorem ofWord?_arguments (word : e.word? = some w) : ofWord? w e.arguments = some e := by
  cases e with
  | program _ | assign _ _ =>
    cases word
    rfl
  | unary op operand =>
    cases word
    obtain ⟨noProgram, noAssignment⟩ := op.symbol_ne
    have found := congrArg (Option.map fun op => unary op operand) op.ofSymbol?_symbol
    exact (if_neg noProgram).trans ((if_neg noAssignment).trans found)
  | binary op left right =>
    cases word
    obtain ⟨noProgram, noAssignment⟩ := op.symbol_ne
    have found := congrArg (Option.map fun op => binary op left right) op.ofSymbol?_symbol
    exact (if_neg noProgram).trans ((if_neg noAssignment).trans found)
  | «variable» _ _ | literal _ => cases word

/-- The word and what follows it determine a construct that is written in parentheses. -/
theorem eq_of_word (word : e.word? = some w) (word' : e'.word? = some w)
    (same : e.arguments = e'.arguments) : e = e' := by
  have found := ofWord?_arguments word
  rw [same, ofWord?_arguments word'] at found
  exact (Option.some.inj found).symm

/-- The token and the indices determine a construct that is written without parentheses. -/
theorem eq_of_token (own : e.IsLexical Literal.IsReadable) (own' : e'.IsLexical Literal.IsReadable)
    (token : e.token? = some (k, text)) (token' : e'.token? = some (k, text))
    (same : e.children = e'.children) : e = e' := by
  have notName (l : Literal) : l.terminal ≠ .varName := by
    cases l with
    | int _ | float _ => nofun
    | bool b => cases b <;> nofun
  cases e with
  | «variable» name indices =>
    cases token
    cases e' with
    | «variable» _ _ =>
      cases token'
      exact congrArg («variable» _) same
    | literal l => exact absurd (Prod.mk.inj (Option.some.inj token')).1 (notName l)
    | program _ | assign _ _ | unary _ _ | binary _ _ _ => cases token'
  | literal l =>
    cases e' with
    | literal l' =>
      obtain ⟨terminal, text⟩ := Prod.mk.inj (Option.some.inj (token.trans token'.symm))
      exact congrArg literal (Literal.IsReadable.eq_of_text own own' terminal text)
    | «variable» _ _ =>
      cases token'
      exact absurd (Prod.mk.inj (Option.some.inj token)).1 (notName l)
    | program _ | assign _ _ | unary _ _ | binary _ _ _ => cases token'
  | program _ | assign _ _ | unary _ _ | binary _ _ _ => cases token

/-- No token goes on here. -/
def Closes (rest : List Char) : Prop := ∀ c ∈ rest.head?, c ∈ [' ', ')', ']']

theorem closes_nil : Closes [] := by
  simp [Closes]

/-- The expression can be told from its written form, whatever comes behind it. -/
def IsTold (e : Expr) : Prop :=
  ∀ ⦃e' : Expr⦄ ⦃rest rest' : List Char⦄, e'.IsLegible → Closes rest → Closes rest' →
    e.text.toList ++ rest = e'.text.toList ++ rest' → e = e' ∧ rest = rest'

theorem head?_row {c : Char} (mem : c ∈ (row opening closing es ++ rest).head?) :
    c = opening ∨ c ∈ rest.head? := by
  cases es with
  | nil => exact .inr mem
  | cons e es =>
    rw [row_cons] at mem
    exact .inl (Option.some.inj mem).symm

/-- A row ends where the next character does not open another part. -/
theorem row_told (told : ∀ e ∈ es, e.IsTold) (legible : ∀ e ∈ es', e.IsLegible)
    (closes : ∀ es, Closes (closing ++ (row opening closing es ++ rest)))
    (closes' : ∀ es, Closes (closing ++ (row opening closing es ++ rest')))
    (stop : opening ∉ rest.head?) (stop' : opening ∉ rest'.head?)
    (same : row opening closing es ++ rest = row opening closing es' ++ rest') :
    es = es' ∧ rest = rest' := by
  have opened (e : Expr) (es : List Expr) (rest : List Char) :
      opening ∈ (row opening closing (e :: es) ++ rest).head? := by
    rw [row_cons]
    rfl
  induction es generalizing es' with
  | nil =>
    cases es' with
    | nil => exact ⟨rfl, same⟩
    | cons e' es' =>
      have opens := opened e' es' rest'
      rw [← same] at opens
      exact absurd opens stop
  | cons e es ih =>
    cases es' with
    | nil =>
      have opens := opened e es rest
      rw [same] at opens
      exact absurd opens stop'
    | cons e' es' =>
      obtain ⟨head, tail⟩ := List.forall_mem_cons.1 told
      obtain ⟨head', tail'⟩ := List.forall_mem_cons.1 legible
      simp only [row_cons, List.cons_append, List.append_assoc, List.cons.injEq, true_and] at same
      obtain ⟨first, same⟩ := head head' (closes es) (closes' es') same
      obtain ⟨others, behind⟩ := ih tail tail' (List.append_cancel_left same)
      exact ⟨by rw [first, others], behind⟩

/-- No word has a character that can stand behind a word. -/
theorem not_mem_of_word (word : e.word? = some w) :
    ∀ c ∈ w.toList, decide (c ∉ [' ', ')']) = true := by
  cases e with
  | program _ | assign _ _ =>
    cases word
    exact List.all_eq_true.1 rfl
  | unary op _ =>
    cases word
    cases op <;> exact List.all_eq_true.1 rfl
  | binary op _ _ =>
    cases word
    have each : BinaryOp.all.all fun op => op.symbol.toList.all (· ∉ [' ', ')']) := by
      decide +kernel
    exact List.all_eq_true.1 (List.all_eq_true.1 each op op.mem_all)
  | «variable» _ _ | literal _ => cases word

/-- A name or a constant does not begin with a parenthesis. -/
theorem ne_paren_of_token (legible : e.IsLegible) (token : e.token? = some (k, text))
    (behind : List Char) : e.text.toList ++ rest ≠ '(' :: behind := by
  have spelled := (isLegible_iff.1 legible).1.spells token
  rw [toList_of_token token]
  obtain ⟨c, cs, chars⟩ := List.exists_cons_of_ne_nil spelled.ne_nil
  rw [chars]
  intro same
  obtain rfl : c = '(' := (List.cons.inj same).1
  exact absurd (spelled.textual '(' (by simp [chars])) (by decide)

theorem head?_arguments {c : Char} (mem : c ∈ (row ' ' [] es ++ ')' :: rest).head?) :
    c ∈ [' ', ')'] := by
  rcases head?_row mem with rfl | mem
  · simp
  · cases mem
    simp

theorem head?_indices {c : Char} (closes : Closes rest)
    (mem : c ∈ (row '[' [']'] es ++ rest).head?) :
    ¬(c.isAlphanum = true ∨ c ∈ numberMarks) := by
  rcases head?_row mem with rfl | mem
  · decide
  · have closing := closes c mem
    simp only [List.mem_cons, List.not_mem_nil, or_false] at closing
    rcases closing with rfl | rfl | rfl <;> decide

theorem isTold_of_word (word : e.word? = some w) (told : ∀ part ∈ e.arguments, part.IsTold) :
    e.IsTold := by
  intro e' rest rest' legible closes closes' same
  rcases e'.word_or_token with ⟨w', word'⟩ | ⟨k, text, token⟩
  · -- The word and every argument end at a space or at the closing parenthesis.
    have stop (es : List Expr) (rest : List Char) :
        ∀ c ∈ (row ' ' [] es ++ ')' :: rest).head?, decide (c ∉ [' ', ')']) = false :=
      fun c mem => decide_eq_false (not_not_intro (head?_arguments mem))
    have ends (rest : List Char) (es : List Expr) : Closes (row ' ' [] es ++ ')' :: rest) :=
      fun c mem => List.mem_append_left [']'] (head?_arguments mem)
    have noArgument (rest : List Char) : ' ' ∉ (')' :: rest).head? := by simp
    rw [toList_of_word word, toList_of_word word'] at same
    simp only [List.cons_append, List.append_assoc, List.nil_append, List.cons.injEq,
      true_and] at same
    obtain ⟨words, tails⟩ := row_unique (not_mem_of_word word) (not_mem_of_word word') (stop _ _)
      (stop _ _) same
    obtain rfl := String.toList_inj.1 words
    obtain ⟨arguments, behind⟩ := row_told told legible.of_arguments (ends rest) (ends rest')
      (noArgument rest) (noArgument rest') tails
    exact ⟨eq_of_word word word' arguments, List.tail_eq_of_cons_eq behind⟩
  · rw [toList_of_word word] at same
    exact absurd same.symm (ne_paren_of_token legible token _)

theorem isTold_of_token (own : e.IsLegible) (token : e.token? = some (k, text))
    (told : ∀ part ∈ e.children, part.IsTold) : e.IsTold := by
  intro e' rest rest' legible closes closes' same
  rcases e'.word_or_token with ⟨w, word⟩ | ⟨k', text', token'⟩
  · rw [toList_of_word word] at same
    exact absurd same (ne_paren_of_token own token _)
  · obtain ⟨lexical, _⟩ := isLegible_iff.1 own
    obtain ⟨lexical', parts⟩ := isLegible_iff.1 legible
    have spelled := lexical.spells token
    have spelled' := lexical'.spells token'
    -- The token ends at the bracket of an index or with the expression, for neither goes on with it.
    have textual {k : Terminal} {text : List Char} (spelled : Spells k.kind text) :
        ∀ c ∈ text, decide (c.isAlphanum = true ∨ c ∈ numberMarks) = true :=
      fun c mem => decide_eq_true (spelled.textual c mem)
    have stop (es : List Expr) {rest : List Char} (closes : Closes rest) :
        ∀ c ∈ (row '[' [']'] es ++ rest).head?,
          decide (c.isAlphanum = true ∨ c ∈ numberMarks) = false :=
      fun c mem => decide_eq_false (head?_indices closes mem)
    have ends (rest : List Char) (es : List Expr) :
        Closes ([']'] ++ (row '[' [']'] es ++ rest)) := by simp [Closes]
    have noIndex {rest : List Char} (closes : Closes rest) : '[' ∉ rest.head? := fun mem =>
      absurd (closes _ mem) (by decide)
    rw [toList_of_token token, toList_of_token token', List.append_assoc, List.append_assoc] at same
    obtain ⟨texts, tails⟩ := row_unique (textual spelled) (textual spelled') (stop _ closes)
      (stop _ closes') same
    obtain rfl := String.toList_inj.1 texts
    obtain rfl := Terminal.kind_injective (spelled.kind_unique spelled')
    obtain ⟨children, behind⟩ := row_told told parts (ends rest) (ends rest') (noIndex closes)
      (noIndex closes') tails
    exact ⟨eq_of_token lexical lexical' token token' children, behind⟩

theorem IsLegible.isTold (h : e.IsLegible) : e.IsTold := by
  induction e using Expr.induction with
  | program statements ih =>
    exact isTold_of_word rfl fun part mem => ih part mem ((isLegible_iff.1 h).2 part mem)
  | assign name value ih =>
    obtain ⟨target, below⟩ := List.forall_mem_cons.1 h.of_arguments
    refine isTold_of_word rfl (List.forall_mem_cons.2 ⟨isTold_of_token target rfl nofun, ?_⟩)
    exact List.forall_mem_singleton.2 (ih (List.forall_mem_singleton.1 below))
  | «variable» name indices ih =>
    exact isTold_of_token h rfl fun part mem => ih part mem ((isLegible_iff.1 h).2 part mem)
  | literal l => exact isTold_of_token h rfl nofun
  | unary op operand ih =>
    exact isTold_of_word rfl
      (List.forall_mem_singleton.2 (ih (List.forall_mem_singleton.1 (isLegible_iff.1 h).2)))
  | binary op left right ihl ihr =>
    obtain ⟨first, second⟩ := List.forall_mem_cons.1 (isLegible_iff.1 h).2
    exact isTold_of_word rfl (List.forall_mem_cons.2 ⟨ihl first,
      List.forall_mem_singleton.2 (ihr (List.forall_mem_singleton.1 second))⟩)

/-- Legible expressions with the same written form are the same. -/
theorem IsLegible.eq_of_text (h : e.IsLegible) (h' : e'.IsLegible) (same : e.text = e'.text) :
    e = e' :=
  (h.isTold h' closes_nil closes_nil (by rw [same] : e.text.toList ++ [] = e'.text.toList ++ [])).1

theorem beqAll_self (h : ∀ e ∈ es, e.beq e = true) : beqAll es es = true := by
  induction es with
  | nil => rfl
  | cons e es ih =>
    obtain ⟨head, tail⟩ := List.forall_mem_cons.1 h
    rw [beqAll, head, ih tail]
    rfl

/-- Without a constant that is not a number, the expression compares equal to itself. -/
theorem beq_self (h : ∀ part ∈ e.nodes, part.IsLexical Literal.IsUnsigned) : e.beq e = true := by
  induction e using Expr.induction with
  | program statements ih | «variable» _ statements ih =>
    have parts := (forall_mem_nodes.1 h).2
    simp [beq, beqAll_self fun e mem => ih e mem (parts e mem)]
  | literal l =>
    have own := (forall_mem_nodes.1 h).1
    cases l with
    | int n => exact beq_self_eq_true n
    | float x => exact IsPositive.beq_self own
    | bool b => exact beq_self_eq_true b
  | assign name value ih =>
    have parts := (forall_mem_nodes.1 h).2
    simp [beq, ih (List.forall_mem_singleton.1 parts)]
  | unary op operand ih =>
    have parts := (forall_mem_nodes.1 h).2
    simp [beq, ih (List.forall_mem_singleton.1 parts)]
  | binary op left right ihl ihr =>
    obtain ⟨first, second⟩ := List.forall_mem_cons.1 (forall_mem_nodes.1 h).2
    simp [beq, ihl first, ihr (List.forall_mem_singleton.1 second)]

theorem isLegible (h : ∀ part ∈ e.nodes, part.IsLexical Literal.IsUnsigned)
    (bounded : ∀ x, .literal (.float x) ∈ e.nodes → x.isInf = false) : e.IsLegible := by
  intro part mem
  have own := h part mem
  cases part with
  | literal l =>
    refine Literal.isReadable own fun x eq => bounded x ?_
    rw [← eq]
    exact mem
  | program _ | assign _ _ | «variable» _ _ | unary _ _ | binary _ _ _ => exact own

end

end Expr

namespace Grammar

variable {r : Rule} {k : Terminal} {text : String} {span : Span} {parts : List Tree}

theorem forall_leaves_node {Q : Leaf → Prop} :
    (∀ l ∈ (r.node parts).leaves, Q l) ↔ ∀ t ∈ parts, ∀ l ∈ t.leaves, Q l := by
  rw [leaves_node, List.forall_mem_flatMap]

theorem spells_of_leaf (spelled : ∀ l ∈ (k.leaf text span).leaves, l.IsSpelled) :
    Spells k.kind text.toList := by
  rw [leaves_leaf] at spelled
  obtain ⟨k', name, spells⟩ := List.forall_mem_singleton.1 spelled
  obtain rfl := Terminal.name_injective name
  exact spells

/-- Names and constants come from tokens, so names are names, and constants have no sign. -/
theorem Derives.isLexical {ts : List Token} {t : Tree} {limit room hops : Nat} {e : Expr}
    (h : Derives r ts t) (spelled : ∀ l ∈ t.leaves, l.IsSpelled) (few : hops ≤ r.rung)
    (compiled : compileAt limit room hops t = .ok e) :
    ∀ part ∈ e.nodes, part.IsLexical Literal.IsUnsigned := by
  refine h.program_induction (P := fun _ t e => (∀ l ∈ t.leaves, l.IsSpelled) →
    ∀ part ∈ e.nodes, part.IsLexical Literal.IsUnsigned)
    ?transparent ?literal ?group ?unary ?binary ?indexed ?assigned ?block few compiled spelled
  case transparent =>
    intro r s parts e _ _ ih spelled
    exact ih (List.forall_mem_singleton.1 (forall_leaves_node.1 spelled))
  case literal =>
    intro k text span c l construct compiled spelled
    have own := spells_of_leaf (List.forall_mem_singleton.1 (forall_leaves_node.1 spelled))
    have unsigned := Literal.isUnsigned_of_compileTerminal own construct compiled
    exact Expr.forall_mem_nodes.2 ⟨unsigned, nofun⟩
  case group =>
    intro t e ih spelled
    exact ih (List.forall_mem_singleton.1 (forall_leaves_node.1 spelled))
  case unary =>
    intro r k s op t e _ _ ih spelled
    have below := ih (List.forall_mem_singleton.1 (forall_leaves_node.1 spelled))
    exact Expr.forall_mem_nodes.2 ⟨trivial, List.forall_mem_singleton.2 below⟩
  case binary =>
    intro r left k right op t u d e _ _ iht ihu spelled
    obtain ⟨first, second⟩ := List.forall_mem_cons.1 (forall_leaves_node.1 spelled)
    exact Expr.forall_mem_nodes.2 ⟨trivial, List.forall_mem_cons.2 ⟨iht first,
      List.forall_mem_singleton.2 (ihu (List.forall_mem_singleton.1 second))⟩⟩
  case indexed =>
    intro text span indices es all spelled
    obtain ⟨own, below⟩ := List.forall_mem_cons.1 (forall_leaves_node.1 spelled)
    have both := (List.forall₂_and_left _ _).2 ⟨below, all⟩
    exact Expr.forall_mem_nodes.2 ⟨spells_of_leaf own,
      forall_of_forall₂ both fun pair => pair.2 pair.1⟩
  case assigned =>
    intro text span t e ih spelled
    obtain ⟨own, below⟩ := List.forall_mem_cons.1 (forall_leaves_node.1 spelled)
    exact Expr.forall_mem_nodes.2 ⟨spells_of_leaf own,
      List.forall_mem_singleton.2 (ih (List.forall_mem_singleton.1 below))⟩
  case block =>
    intro lines es all spelled
    have both := (List.forall₂_and_left _ _).2 ⟨forall_leaves_node.1 spelled, all⟩
    exact Expr.forall_mem_nodes.2 ⟨trivial, forall_of_forall₂ both fun pair => pair.2 pair.1⟩

theorem isLexical_of_parse {source : String} {start : Start} {depth limit : Nat} {t : Tree}
    {e : Expr} (small : source.utf8ByteSize ≤ Span.maxOffset)
    (read : parse source start depth = .ok t) (compiled : t.compile .standard limit = .ok e) :
    ∀ part ∈ e.nodes, part.IsLexical Literal.IsUnsigned := by
  obtain ⟨toks, scanned, derived, _⟩ := parse_eq_ok_iff.1 read
  obtain ⟨room, _, compiled⟩ := Tree.descend_eq_ok.1 compiled
  have spelled := derived.leaves_spelled (scan_spells small scanned)
  exact derived.isLexical spelled (Nat.zero_le _) compiled

end Grammar

/-- Expressions without an infinite constant are written alike only if they are the same, whatever
sources they were compiled from, as long as spans reach the ends of both. Then they also compare
equal. -/
theorem text_determines_expression (source source' : String) (start start' : Start)
    (depth depth' limit limit' : Nat) (t t' : Tree) (e e' : Expr)
    (small : source.utf8ByteSize ≤ Span.maxOffset) (small' : source'.utf8ByteSize ≤ Span.maxOffset)
    (read : parse source start depth = .ok t) (read' : parse source' start' depth' = .ok t')
    (compiled : t.compile .standard limit = .ok e)
    (compiled' : t'.compile .standard limit' = .ok e')
    (bounded : ∀ x, .literal (.float x) ∈ e.nodes → x.isInf = false)
    (bounded' : ∀ x, .literal (.float x) ∈ e'.nodes → x.isInf = false)
    (same : e.text = e'.text) : e = e' ∧ (e == e') = true := by
  have lexical := isLexical_of_parse small read compiled
  have lexical' := isLexical_of_parse small' read' compiled'
  obtain rfl := (Expr.isLegible lexical bounded).eq_of_text (Expr.isLegible lexical' bounded') same
  exact ⟨rfl, Expr.beq_self lexical⟩

theorem text_determines_expression_layouts :
    ∃ t t' e e', parse "a = -1.50 - b[2]\nnot a" .program 5 = .ok t ∧
      parse "\na = ((-15e-1)) - (b [2])\n\nnot (a)" .program 7 = .ok t' ∧
      t.compile .standard 9 = .ok e ∧ t'.compile .standard 9 = .ok e' ∧
      e.text = "(program (= a (- (- 1.5) b[2])) (not a))" ∧ e'.text = e.text ∧
      e = e' ∧ (e == e') = true := by
  let x : Float := .ofModel (.pack (Ratio.unpacked 6755399441055744 (-52)))
  have finite : x.isInf = false := by
    unfold x
    decide +kernel
  let e : Expr := .program [.assign "a" (.binary (.ring .sub)
    (.unary .negate (.literal (.float x))) (.variable "b" [.literal (.int 2)])),
    .unary .not (.variable "a" [])]
  have compiled : ∃ t, parse "a = -1.50 - b[2]\nnot a" .program 5 = .ok t ∧
      t.compile .standard 9 = .ok e := ⟨_, rfl, rfl⟩
  have compiled' : ∃ t, parse "\na = ((-15e-1)) - (b [2])\n\nnot (a)" .program 7 = .ok t ∧
      t.compile .standard 9 = .ok e := ⟨_, rfl, rfl⟩
  have bounded : ∀ y, .literal (.float y) ∈ e.nodes → y.isInf = false := by
    simpa [e, Expr.nodes, Expr.nodesAll] using finite
  have text : e.text = "(program (= a (- (- 1.5) b[2])) (not a))" := by decide +kernel
  obtain ⟨t, read, compiled⟩ := compiled
  obtain ⟨t', read', compiled'⟩ := compiled'
  exact ⟨t, t', e, e, read, read', compiled, compiled', text, rfl,
    text_determines_expression _ _ _ _ _ _ _ _ t t' e e (by decide) (by decide) read read'
      compiled compiled' bounded bounded rfl⟩

/-- A name of which the largest offset cuts off the end is written like a constant. -/
theorem text_confuses_name_with_constant :
    ∃ t t' e e', parse "True" .expression 2 = .ok t ∧
      parse (spaces 4294967291 ++ "Truex") .expression 2 = .ok t' ∧
      t.compile .standard 1 = .ok e ∧ t'.compile .standard 1 = .ok e' ∧
      (∀ x, .literal (.float x) ∉ e.nodes) ∧ (∀ x, .literal (.float x) ∉ e'.nodes) ∧
      e.text = e'.text ∧ e ≠ e' := by
  have name : Spells .name "Truex".toList := ⟨⟨rfl, List.all_eq_true.1 rfl⟩, by decide⟩
  have scanned : scan (spaces 4294967291 ++ "Truex") =
      .ok [⟨.name, "True", ⟨4294967291, 4294967295⟩⟩] := scan_cut_short (by decide) name
  obtain ⟨t', read', compiled'⟩ : ∃ t',
      parse (spaces 4294967291 ++ "Truex") .expression 2 = .ok t' ∧
        t'.compile .standard 1 = .ok (.variable "True" []) := by
    rw [parse, scanned]
    exact ⟨_, rfl, rfl⟩
  refine ⟨_, t', .literal (.bool true), .variable "True" [], rfl, read', rfl, compiled', ?_, ?_,
    by decide, by simp⟩
  · simp [Expr.nodes]
  · simp [Expr.nodes, Expr.nodesAll]

end Reckon
